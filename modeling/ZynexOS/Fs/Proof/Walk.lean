import ZynexOS.Fs.Proof.Lookup

/-! # Walking a path -/

namespace ZynexOS

open Library

namespace Fs

open View

variable {v : View} {f dir i : Nat}
variable {path : Name}

theorem skipSlash_head : (skipSlash path).head? ≠ some slash := by
  unfold skipSlash
  induction path with
  | nil => nofun
  | cons b path ih =>
      rw [List.dropWhile_cons]
      split
      · exact ih
      · next hb => simpa using hb

theorem skipSlash_length_le (path : Name) : (skipSlash path).length ≤ path.length :=
  (List.dropWhile_sublist _).length_le

theorem nextName_ne_nil (hsome : path ≠ []) (hhead : path.head? ≠ some slash) :
    (nextName path).1 ≠ [] := by
  cases path with
  | nil => exact absurd rfl hsome
  | cons b path =>
      have hb : b ≠ slash := by simpa using hhead
      unfold nextName
      rw [List.takeWhile_cons_of_pos (by simpa using hb)]
      nofun

theorem nextName_rest_length (hsome : path ≠ []) (hhead : path.head? ≠ some slash) :
    (nextName path).2.length < path.length := by
  cases path with
  | nil => exact absurd rfl hsome
  | cons b path =>
      have hb : b ≠ slash := by simpa using hhead
      unfold nextName
      dsimp only
      rw [List.dropWhile_cons_of_pos (by simpa using hb)]
      calc _ ≤ (path.dropWhile (· ≠ slash)).length := skipSlash_length_le _
        _ ≤ path.length := (List.dropWhile_sublist _).length_le
        _ < (b :: path).length := Nat.lt_succ_self _

theorem nextName_rest_head (path : Name) : (nextName path).2.head? ≠ some slash := skipSlash_head

theorem mem_of_mem_nextName {b : BitVec 8}
    (hb : b ∈ (nextName path).1 ∨ b ∈ (nextName path).2) : b ∈ path := by
  obtain hb | hb := hb
  · exact (List.takeWhile_prefix _).subset hb
  · exact (List.dropWhile_sublist _).subset ((List.dropWhile_sublist _).subset hb)

theorem View.reach_of_lookup {name : Name} {e : Nat} (hdir : v.Reach dir) (htype : v.IsDir dir)
    (hname : name ≠ []) (hzero : 0 ∉ name) (hlookup : v.lookup dir name = some e) : v.Reach e := by
  obtain ⟨i, j, hi, hj, rfl⟩ := mem_entries (List.mem_of_find?_eq_some hlookup)
  refine .entry hdir htype hi hj ?_
  have hmatch := List.find?_some hlookup
  cases name with
  | nil => exact absurd rfl hname
  | cons b name =>
      rw [View.nameAt, Bool.and_eq_true, decide_eq_true_eq] at hmatch
      rw [hmatch.1]
      rintro rfl
      exact hzero List.mem_cons_self

theorem reads_walkLoop {fuel : Nat} {parent : Option Nat} (hdirs : v.DirsOk)
    (hf : v.Reach f) (hfuel : path.length < fuel) (hhead : path.head? ≠ some slash)
    (hzero : 0 ∉ path) : reads (walkLoop fuel path parent f) (v.walk fuel path parent f) v := by
  induction fuel generalizing path parent f with
  | zero => omega
  | succ fuel ih =>
      rw [View.walk, View.walkStep]
      unfold walkLoop
      split
      · exact reads_pure _ v
      next hsome =>
      rw [show nextName path = ((nextName path).1, (nextName path).2) from rfl]
      dsimp only
      split
      · exact reads_pure _ v
      next hshort =>
      have hacc : v.Accessible (typeAddr f) := hdirs.reach_accessible hf
        (by unfold typeAddr; omega) (by unfold typeAddr; omega)
      refine reads_bind (reads_load32 hacc) ?_
      split
      · exact reads_pure _ v
      next hdir =>
      have htype : v.IsDir f := not_not.mp hdir
      have hname := nextName_ne_nil hsome hhead
      have hzero' : 0 ∉ (nextName path).1 := fun h => hzero (mem_of_mem_nextName (.inl h))
      unfold maxNameLen at hshort
      refine reads_bind (hdirs.reads_dirLookup hf htype (by omega)) ?_
      cases hlookup : v.lookup f (nextName path).1 with
      | some e =>
          refine ih (reach_of_lookup hf htype hname hzero' hlookup) ?_ (nextName_rest_head path)
            fun h => hzero (mem_of_mem_nextName (.inr h))
          have hless := nextName_rest_length hsome hhead
          omega
      | none =>
          simp only [Option.elim_none, true_and]
          split
          · exact reads_pure _ v
          · exact reads_pure _ v

theorem reads_walkPath (hdirs : v.DirsOk) (hzero : 0 ∉ path) :
    reads (walkPath path) (v.walkPath path) v := by
  refine reads_walkLoop hdirs .root ?_ skipSlash_head ?_
  · exact Nat.lt_succ_of_le (skipSlash_length_le path)
  · exact fun h => hzero ((List.dropWhile_sublist _).subset h)

theorem View.walkPath_name {name : Name} (htype : v.IsDir rootAddr) (hslash : slash ∉ name)
    (hsome : name ≠ []) (hshort : name.length < maxNameLen) {e : Nat}
    (hlookup : v.lookup rootAddr name = some e) : v.walkPath name = .found (some rootAddr) e := by
  have hplain : ∀ c ∈ name, c ≠ slash := fun c hc h => hslash (h ▸ hc)
  have hskip : skipSlash name = name := by
    unfold skipSlash
    cases name with
    | nil => rfl
    | cons c name => exact List.dropWhile_cons_of_neg (by simpa using hplain c List.mem_cons_self)
  have hnext : nextName name = (name, []) := by
    have hall : ∀ c ∈ name, decide (c ≠ slash) = true := fun c hc => decide_eq_true (hplain c hc)
    unfold nextName
    rw [List.takeWhile_eq_self_iff.mpr hall, List.dropWhile_eq_nil_iff.mpr hall]
    rfl
  obtain ⟨fuel, hfuel⟩ := Nat.exists_eq_succ_of_ne_zero (List.length_pos_iff.mpr hsome).ne'
  have htype' : ¬v.word (typeAddr rootAddr) ≠ fTypeDir := not_not.mpr htype
  unfold View.walkPath
  rw [hskip, hfuel, View.walk, View.walkStep, if_neg hsome, hnext, if_neg (not_le.mpr hshort),
    if_neg htype', hlookup]
  rfl

end Fs

end ZynexOS
