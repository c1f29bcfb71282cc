import ZynexOS.Lib.InitStack

/-!
# `spawn` passes arguments

The strings are at the end of the page and the pointers below, so no store overwrites an earlier one.
-/

namespace ZynexOS

open Library

variable {mem mem' : Bytes} {slot pos : Nat} {argv : List CString}

theorem utemp2ustack_lt (a : Nat) : utemp2ustack a < 256 ^ 8 := by
  unfold utemp2ustack uint64
  omega

theorem stringSize_cons (s : CString) (argv : List CString) :
    stringSize (s :: argv) = s.length + 1 + stringSize argv := by
  unfold stringSize
  rw [List.map_cons, List.sum_cons]

def ArgsAt (mem : Bytes) (slot pos : Nat) : List CString → Prop
  | [] => True
  | s :: argv => mem.loadNat slot 8 = utemp2ustack pos ∧ mem.slice pos (s.length + 1) = s ++ [0] ∧
      ArgsAt mem (slot + 8) (pos + s.length + 1) argv

theorem ArgsAt.congr (hargs : ArgsAt mem slot pos argv)
    (hslots : ∀ x, slot ≤ x → x < slot + 8 * argv.length → mem x = mem' x)
    (hstrings : ∀ x, pos ≤ x → x < pos + stringSize argv → mem x = mem' x) :
    ArgsAt mem' slot pos argv := by
  induction argv generalizing slot pos with
  | nil => trivial
  | cons s argv ih =>
      obtain ⟨hptr, hstring, hrest⟩ := hargs
      rw [stringSize_cons] at hstrings
      rw [List.length_cons] at hslots
      refine ⟨?_, ?_, ih hrest (fun x hlow hhigh => hslots x (by omega) (by omega))
        fun x hlow hhigh => hstrings x (by omega) (by omega)⟩
      · rw [← hptr]
        exact (Bytes.loadNat_congr fun x hlow hhigh => hslots x hlow (by omega)).symm
      · rw [← hstring]
        exact (Bytes.slice_congr fun x hlow hhigh => hstrings x hlow (by omega)).symm

theorem storeWord_eq {a v : Nat} (hlow : utemp ≤ a) (hhigh : a + 8 ≤ utemp + 4096) :
    storeWord mem a v = some (mem.storeNat a 8 v) := if_pos ⟨hlow, hhigh⟩

theorem storeArgs_spec (hlow : utemp ≤ slot) (hsep : slot + 8 * argv.length ≤ pos)
    (hhigh : pos + stringSize argv ≤ utemp + 4096) :
    ∃ mem', storeArgs mem slot pos argv = some (mem', pos + stringSize argv) ∧
      ArgsAt mem' slot pos argv ∧
      ∀ x, x < slot ∨ slot + 8 * argv.length ≤ x ∧ x < pos ∨ pos + stringSize argv ≤ x →
        mem' x = mem x := by
  induction argv generalizing mem slot pos with
  | nil => exact ⟨mem, rfl, trivial, fun _ _ => rfl⟩
  | cons s argv ih =>
      rw [stringSize_cons] at hhigh ⊢
      rw [List.length_cons] at hsep ⊢
      have hlength : (s ++ [0]).length = s.length + 1 := List.length_append
      set mem₁ := (mem.storeNat slot 8 (utemp2ustack pos)).copyList pos (s ++ [0]) with hmem₁
      obtain ⟨mem', hrun, hargs, hother⟩ := @ih mem₁ (slot + 8) (pos + s.length + 1) (by omega)
        (by omega) (by omega)
      have hword : storeWord mem slot (utemp2ustack pos) =
          some (mem.storeNat slot 8 (utemp2ustack pos)) := storeWord_eq hlow (by omega)
      have hbytes : storeBytes (mem.storeNat slot 8 (utemp2ustack pos)) pos (s ++ [0]) = some mem₁ :=
        if_pos ⟨by omega, by omega⟩
      refine ⟨mem', ?_, ⟨?_, ?_, hargs⟩, fun x hx => ?_⟩
      · unfold storeArgs
        rw [hword, Option.bind_eq_bind, Option.bind_some, hbytes, Option.bind_some, hrun]
        congr 2
        omega
      · rw [Bytes.loadNat_congr fun x hxlow hxhigh => hother x (by omega), hmem₁,
          Bytes.loadNat_copyList_of_disjoint (by omega), Bytes.loadNat_storeNat_self]
        exact Nat.mod_eq_of_lt (utemp2ustack_lt pos)
      · rw [Bytes.slice_congr fun x hxlow hxhigh => hother x (by omega), ← hlength]
        exact Bytes.slice_copyList _ _ _
      · rw [hother x (by omega), hmem₁, Bytes.copyList_apply_of_not_mem (by omega),
          Bytes.storeNat_apply_of_not_mem (by omega)]

section Layout

variable (hsize : stringSize argv + 8 * (argv.length + 1) < utemp)

include hsize

theorem stringStore_eq : stringStore argv = utemp + 4096 - stringSize argv := by
  unfold stringStore uint64
  unfold utemp at hsize ⊢
  omega

theorem argvStore_eq : argvStore argv = (utemp + 4096 - stringSize argv) / 8 * 8 -
    8 * (argv.length + 1) := by
  unfold argvStore
  rw [stringStore_eq hsize]
  unfold uint64
  unfold utemp at hsize ⊢
  omega

theorem uint64_argvStore_sub {n : Nat} (hn : n ≤ 16) :
    uint64 (argvStore argv - n) = argvStore argv - n ∧ n ≤ argvStore argv := by
  rw [argvStore_eq hsize]
  unfold uint64
  unfold utemp at hsize ⊢
  omega

theorem argvStore_lt_iff : uint64 (argvStore argv - 16) < utemp ↔ ¬FitsStack argv := by
  rw [show (argvStore argv : Int) - 16 = argvStore argv - (16 : Nat) from rfl,
    (uint64_argvStore_sub hsize le_rfl).1, argvStore_eq hsize]
  unfold FitsStack
  unfold utemp at hsize ⊢
  omega

end Layout

structure Layout (argv : List CString) : Prop where
  low : utemp + 16 ≤ argvStore argv
  middle : argvStore argv + 8 * (argv.length + 1) ≤ stringStore argv
  high : stringStore argv + stringSize argv = utemp + 4096

theorem layout_of_fits (hsize : stringSize argv + 8 * (argv.length + 1) < utemp)
    (hfits : FitsStack argv) : Layout argv := by
  unfold FitsStack at hfits
  refine ⟨?_, ?_, ?_⟩
  all_goals
    first
      | rw [argvStore_eq hsize, stringStore_eq hsize]
      | rw [argvStore_eq hsize]
      | rw [stringStore_eq hsize]
    unfold utemp at *
    omega

structure StackAt (page : Bytes) (argv : List CString) : Prop where
  args : ArgsAt page (argvStore argv) (stringStore argv) argv
  null : page.loadNat (argvStore argv + 8 * argv.length) 8 = 0
  argvWord : page.loadNat (argvStore argv - 8) 8 = utemp2ustack (argvStore argv)
  argcWord : page.loadNat (argvStore argv - 16) 8 = argv.length

theorem utemp2ustack_eq {a : Nat} (hlow : utemp ≤ a) (hhigh : a ≤ utemp + 4096) :
    utemp2ustack a = stackPage + (a - utemp) := by
  unfold utemp2ustack uint64
  unfold stackPage
  unfold utemp at *
  omega

theorem Layout.uint64_sub (hlayout : Layout argv) {n : Nat} (hn : n ≤ 16) :
    uint64 (argvStore argv - n) = argvStore argv - n := by
  obtain ⟨hlow, hmiddle, hhigh⟩ := hlayout
  unfold uint64
  unfold utemp at *
  omega

theorem stackContents_spec (hlayout : Layout argv) :
    ∃ page, stackContents argv = some (page, utemp2ustack (argvStore argv - 16)) ∧
      StackAt page argv := by
  obtain ⟨hlow, hmiddle, hhigh⟩ := id hlayout
  have hcount : argv.length < 256 ^ 8 := by
    unfold utemp at *
    omega
  have h8 : uint64 (argvStore argv - 8) = argvStore argv - 8 := hlayout.uint64_sub (by decide)
  have h16 : uint64 (argvStore argv - 16) = argvStore argv - 16 := hlayout.uint64_sub le_rfl
  obtain ⟨mem, hrun, hargs, -⟩ := @storeArgs_spec (fun _ => 0) (argvStore argv) (stringStore argv)
    argv (by omega) (by omega) hhigh.le
  rw [hhigh] at hrun
  have hrun' : stackContents argv = some
      (((mem.storeNat (argvStore argv + 8 * argv.length) 8 0).storeNat (argvStore argv - 8) 8
        (utemp2ustack (argvStore argv))).storeNat (argvStore argv - 16) 8 argv.length,
        utemp2ustack (argvStore argv - 16)) := by
    unfold stackContents
    dsimp only
    simp only [Option.bind_eq_bind]
    rw [hrun, Option.bind_some]
    dsimp only
    rw [storeWord_eq (by omega) (by omega), Option.bind_some, if_pos rfl, h8, h16,
      storeWord_eq (by omega) (by omega), Option.bind_some, storeWord_eq (by omega) (by omega),
      Option.bind_some]
  refine ⟨_, hrun', hargs.congr (fun x hxlow hxhigh => ?_) (fun x hxlow hxhigh => ?_), ?_, ?_, ?_⟩
  · rw [Bytes.storeNat_apply_of_not_mem (by omega), Bytes.storeNat_apply_of_not_mem (by omega),
      Bytes.storeNat_apply_of_not_mem (by omega)]
  · rw [Bytes.storeNat_apply_of_not_mem (by omega), Bytes.storeNat_apply_of_not_mem (by omega),
      Bytes.storeNat_apply_of_not_mem (by omega)]
  · rw [Bytes.loadNat_storeNat_of_disjoint (by omega), Bytes.loadNat_storeNat_of_disjoint (by omega),
      Bytes.loadNat_storeNat_self, Nat.zero_mod]
  · rw [Bytes.loadNat_storeNat_of_disjoint (by omega), Bytes.loadNat_storeNat_self]
    exact Nat.mod_eq_of_lt (utemp2ustack_lt (argvStore argv))
  · rw [Bytes.loadNat_storeNat_self]
    exact Nat.mod_eq_of_lt hcount

theorem childWord_eq {page : Bytes} {a : Nat} (hlow : utemp ≤ a) (hhigh : a + 8 ≤ utemp + 4096) :
    childWord page (stackPage + (a - utemp)) = some (page.loadNat a 8) := by
  unfold childWord
  rw [if_pos ⟨by omega, by omega⟩, show stackPage + (a - utemp) - stackPage + utemp = a by omega]

theorem ArgsAt.childStrings (hargs : ArgsAt mem slot pos argv) (hlow : utemp ≤ slot)
    (hsep : slot + 8 * argv.length ≤ pos) (hhigh : pos + stringSize argv ≤ utemp + 4096) (i : Nat)
    (s : CString) (hs : argv[i]? = some s) :
    ∃ p, childWord mem (stackPage + (slot - utemp) + 8 * i) = some p ∧ ChildString mem p s := by
  induction argv generalizing slot pos i with
  | nil => cases hs
  | cons t argv ih =>
      obtain ⟨hptr, hstring, hrest⟩ := hargs
      rw [stringSize_cons] at hhigh
      rw [List.length_cons] at hsep
      cases i with
      | zero =>
          cases hs
          refine ⟨utemp2ustack pos, ?_, ?_⟩
          · rw [Nat.mul_zero, Nat.add_zero, childWord_eq hlow (by omega), hptr]
          · rw [utemp2ustack_eq (by omega) (by omega)]
            refine ⟨by omega, by omega, ?_⟩
            rw [show stackPage + (pos - utemp) - stackPage + utemp = pos by omega]
            exact hstring
      | succ i =>
          obtain ⟨p, hp, hstring'⟩ := ih hrest (by omega) (by omega) (by omega) i hs
          refine ⟨p, ?_, hstring'⟩
          rwa [show stackPage + (slot - utemp) + 8 * (i + 1) = stackPage + (slot + 8 - utemp) + 8 * i
            by omega]

theorem StackAt.passesArgs {page : Bytes} (hstack : StackAt page argv) (hlayout : Layout argv) :
    PassesArgs page (utemp2ustack (argvStore argv - 16)) argv := by
  obtain ⟨hlow, hmiddle, hhigh⟩ := hlayout
  have hsp := utemp2ustack_eq (a := argvStore argv - 16) (by omega) (by omega)
  have hargv := utemp2ustack_eq (a := argvStore argv) (by omega) (by omega)
  refine ⟨argv.length, utemp2ustack (argvStore argv), ?_, ?_, fun i s hs => ?_, ?_⟩
  · unfold startArgs
    rw [hsp, if_neg (by omega), childWord_eq (by omega) (by omega), hstack.argcWord,
      show stackPage + (argvStore argv - 16 - utemp) + 8 = stackPage + (argvStore argv - 8 - utemp)
        by omega, childWord_eq (by omega) (by omega), hstack.argvWord]
    rfl
  · unfold int32
    unfold utemp at *
    omega
  · rw [hargv]
    exact hstack.args.childStrings (by omega) (by omega) hhigh.le i s hs
  · rw [hargv, show stackPage + (argvStore argv - utemp) + 8 * argv.length =
      stackPage + (argvStore argv + 8 * argv.length - utemp) by omega,
      childWord_eq (by omega) (by omega), hstack.null]

/-- `init_stack` returns `-E_NO_MEM` before it allocates a page exactly if the arguments do not fit in one,
and when it succeeds the child gets the arguments. -/
theorem initStack_passesArgs (hsize : stringSize argv + 8 * (argv.length + 1) < utemp) (io : StackIo) :
    ∃ result, initStack io argv = some result ∧
      (result.r = -eNoMem ∧ result.allocates = false ↔ ¬FitsStack argv) ∧
      (result.r = 0 → ∃ page sp, result.page = some page ∧ result.initEsp = some sp ∧
        PassesArgs page sp argv) := by
  unfold initStack
  by_cases hfits : FitsStack argv
  · have hlayout := layout_of_fits hsize hfits
    obtain ⟨page, hcontents, hstack⟩ := stackContents_spec hlayout
    have hnot : ∀ r p e, (StackResult.mk r true p e).r = -eNoMem ∧
        (StackResult.mk r true p e).allocates = false ↔ ¬FitsStack argv := fun r p e =>
      iff_of_false (fun h => by cases h.2) fun h => h hfits
    rw [if_neg (fun h => (argvStore_lt_iff hsize).mp h hfits), hcontents, Option.bind_eq_bind,
      Option.bind_some]
    dsimp only
    by_cases halloc : io.alloc < 0
    · rw [if_pos halloc]
      exact ⟨_, rfl, hnot _ _ _, fun h => absurd h (ne_of_lt halloc)⟩
    · rw [if_neg halloc]
      split_ifs with hmap hunmap
      · exact ⟨_, rfl, hnot _ _ _, fun h => absurd h (ne_of_lt hmap)⟩
      · exact ⟨_, rfl, hnot _ _ _, fun h => absurd h (ne_of_lt hunmap)⟩
      · exact ⟨_, rfl, hnot _ _ _, fun _ => ⟨page, _, rfl, rfl, hstack.passesArgs hlayout⟩⟩
  · rw [if_pos ((argvStore_lt_iff hsize).mpr hfits)]
    exact ⟨_, rfl, iff_of_true ⟨rfl, rfl⟩ hfits, fun h => absurd h (by decide)⟩

def twoArgs : List CString := [[0x6c, 0x73], [0x2f]]

theorem initStack_twoArgs : ∃ result page sp, initStack ⟨0, 0, 0⟩ twoArgs = some result ∧
    result.page = some page ∧ result.initEsp = some sp ∧ PassesArgs page sp twoArgs := by
  have hsize : stringSize twoArgs + 8 * (twoArgs.length + 1) < utemp := by decide
  have hok : (initStack ⟨0, 0, 0⟩ twoArgs).map StackResult.r = some 0 := by decide +kernel
  obtain ⟨result, hrun, -, hpasses⟩ := initStack_passesArgs hsize ⟨0, 0, 0⟩
  rw [hrun] at hok
  obtain ⟨page, sp, hpage, hsp, hargs⟩ := hpasses (Option.some.inj hok)
  exact ⟨result, page, sp, hrun, hpage, hsp, hargs⟩

end ZynexOS
