import ZynexOS.Lib.Printfmt
import ZynexOS.Library.Outcome

/-!
# Formats are read up to their end

If the byte behind the modifiers is not known, `fmt` goes back over the modifiers, and the rest of the
escape is copied like other text.
-/

namespace ZynexOS
namespace Printfmt

open Library

variable {args : Args} {ap n : Nat} {text mods rest before : List (BitVec 8)} {ch : BitVec 8}

/-! ### The loops -/

theorem copyText_nul (before : List (BitVec 8)) (htext : byte '%' ∉ text) (hnul : 0 ∉ text) :
    copyText before (text ++ [0]) = .ok (text, none) := by
  induction text generalizing before with
  | nil => rfl
  | cons c text ih =>
      rw [List.mem_cons, not_or] at htext hnul
      rw [List.cons_append, copyText, if_neg (Ne.symm htext.1), if_neg (Ne.symm hnul.1),
        ih _ htext.2 hnul.2]
      rfl

theorem copyText_percent (before rest : List (BitVec 8)) (htext : byte '%' ∉ text)
    (hnul : 0 ∉ text) :
    copyText before (text ++ byte '%' :: rest) =
      .ok (text, some ⟨byte '%' :: (text.reverse ++ before), rest⟩) := by
  induction text generalizing before with
  | nil => rfl
  | cons c text ih =>
      rw [List.mem_cons, not_or] at htext hnul
      rw [List.cons_append, copyText, if_neg (Ne.symm htext.1), if_neg (Ne.symm hnul.1),
        ih _ htext.2 hnul.2]
      simp

theorem modify_isSome (flags : Flags) : (modify args flags ap ch).isSome = isModifier ch := by
  unfold modify
  split_ifs with hpad hdigit
  · rcases hpad with rfl | rfl <;> rfl
  all_goals simp_all [isModifier]

theorem modify_ap {flags : Flags} {esc : Escape} (hesc : modify args flags ap ch = some esc) :
    esc.ap = ap + if ch = byte '*' then 1 else 0 := by
  have hstar : ch = byte '*' → isDigit ch = false := by
    rintro rfl
    decide
  unfold modify at hesc
  split_ifs at hesc with hpad hdigit <;> cases hesc
  · rcases hpad with rfl | rfl <;> rfl
  all_goals grind

theorem next_isSome (esc : Escape) : (esc.next args ch).isSome = isModifier ch := by
  unfold Escape.next
  split
  · split_ifs with hdigit
    · simp [isModifier, hdigit]
    · exact modify_isSome _
  · exact modify_isSome _

theorem next_ap {esc esc' : Escape} (hesc : esc.next args ch = some esc') :
    esc'.ap = esc.ap + if ch = byte '*' then 1 else 0 := by
  unfold Escape.next at hesc
  split at hesc
  · split_ifs at hesc with hdigit
    · cases hesc
      rw [if_neg]
      · rfl
      · rintro rfl
        exact absurd hdigit (by decide)
    · exact modify_ap hesc
  · exact modify_ap hesc

theorem reswitch_append (args : Args) (esc : Escape) (rest before : List (BitVec 8))
    (hmods : ∀ c ∈ mods, isModifier c) (hch : ¬isModifier ch) :
    ∃ esc', reswitch args esc before (mods ++ ch :: rest) =
      .ok (ch, esc', ⟨mods.reverse ++ before, ch :: rest⟩) ∧
      esc'.ap = esc.ap + mods.count (byte '*') := by
  induction mods generalizing esc before with
  | nil =>
      have hnone : esc.next args ch = none := by
        rw [← Option.not_isSome_iff_eq_none, next_isSome]
        exact hch
      exact ⟨esc, by simp [reswitch, hnone], rfl⟩
  | cons c mods ih =>
      rw [List.forall_mem_cons] at hmods
      have hsome : (esc.next args c).isSome := (next_isSome esc).trans hmods.1
      obtain ⟨esc₁, hnext⟩ := Option.isSome_iff_exists.mp hsome
      obtain ⟨esc', hscan, hap⟩ := ih esc₁ (c :: before) hmods.2
      refine ⟨esc', ?_, ?_⟩
      · simpa [reswitch, hnext] using hscan
      · rw [hap, next_ap hnext, List.count_cons]
        simp only [beq_iff_eq]
        omega

theorem rewind_append (rest before : List (BitVec 8)) (hmods : byte '%' ∉ mods) :
    rewind rest (mods ++ byte '%' :: before) =
      .ok ⟨byte '%' :: before, mods.reverse ++ rest⟩ := by
  induction mods generalizing rest with
  | nil => rfl
  | cons c mods ih =>
      rw [List.mem_cons, not_or] at hmods
      rw [List.cons_append, rewind, if_neg (Ne.symm hmods.1), ih _ hmods.2]
      simp

/-! ### The reference -/

theorem conversions_text (htext : byte '%' ∉ text) :
    conversions false ap (text ++ rest) = conversions false ap rest := by
  induction text with
  | nil => rfl
  | cons c text ih =>
      rw [List.mem_cons, not_or] at htext
      rw [List.cons_append, conversions, decide_eq_false (Ne.symm htext.1), ih htext.2]

theorem conversions_modifiers (hmods : ∀ c ∈ mods, isModifier c) :
    conversions true ap (mods ++ rest) =
      conversions true (ap + mods.count (byte '*')) rest := by
  induction mods generalizing ap with
  | nil => rfl
  | cons c mods ih =>
      rw [List.forall_mem_cons] at hmods
      rw [List.cons_append, conversions, if_pos hmods.1, ih hmods.2, List.count_cons]
      congr 1
      simp only [beq_iff_eq]
      omega

theorem exists_escape (chars : List (BitVec 8)) : ∃ mods ch rest,
    chars ++ [0] = mods ++ ch :: rest ∧ (∀ c ∈ mods, isModifier c) ∧ ¬isModifier ch ∧
      (ch = 0 ∨ ∃ tail ⊆ chars, rest = tail ++ [0]) := by
  induction chars with
  | nil => exact ⟨[], 0, [], rfl, by simp, by decide, .inl rfl⟩
  | cons c chars ih =>
      by_cases hc : isModifier c
      · obtain ⟨mods, ch, rest, hsplit, hmods, hch, hend⟩ := ih
        refine ⟨c :: mods, ch, rest, by rw [List.cons_append, hsplit, List.cons_append],
          List.forall_mem_cons.mpr ⟨hc, hmods⟩, hch, hend.imp_right ?_⟩
        exact fun ⟨tail, hsub, hrest⟩ => ⟨tail, List.subset_cons_of_subset _ hsub, hrest⟩
      · exact ⟨[], c, chars ++ [0], rfl, by simp, hc, .inr ⟨chars, List.subset_cons_self _ _, rfl⟩⟩

theorem printError_intMin : printError (BitVec.intMin 32) = .error .table := rfl

theorem printError_ok {err : BitVec 32} (herr : err ≠ BitVec.intMin 32) :
    ∃ out, printError err = .ok out := by
  have hpos : BitVec.slt (if err.slt 0 then -err else err) 0 = false := by
    split_ifs with hneg
    · have hmsb : err.msb = true := by rwa [← BitVec.slt_zero_eq_msb]
      have hzero : err ≠ 0 := by
        rintro rfl
        cases hmsb
      exact BitVec.slt_zero_eq_msb.trans (by simp_all)
    · exact Bool.not_eq_true _ ▸ hneg
  unfold printError
  dsimp only
  generalize (if err.slt 0 then -err else err) = magnitude at hpos ⊢
  by_cases hmax : maxError.sle magnitude
  · exact ⟨_, if_pos hmax⟩
  · exact ⟨_, by rw [if_neg hmax, if_neg (ne_true_of_eq_false hpos)]⟩

theorem print_cases (args : Args) (flags : Flags) (ap : Nat) (d : Directive) :
    (∃ out, print args flags ap d = .ok out) ∧ (d = .error → args.int ap ≠ BitVec.intMin 32) ∨
      print args flags ap d = .error .table ∧ d = .error ∧ args.int ap = BitVec.intMin 32 := by
  cases d with
  | error =>
      by_cases herr : args.int ap = BitVec.intMin 32
      · exact .inr ⟨by rw [print, herr, printError_intMin], rfl, herr⟩
      · exact .inl ⟨printError_ok herr, fun _ => herr⟩
  | _ => exact .inl ⟨⟨_, rfl⟩, nofun⟩

/-! ### Runs -/

def Outcome (args : Args) (convs : List (Directive × Nat)) (rest : List (BitVec 8)) (n : Nat) :
    Except Stop (List (BitVec 8)) → Prop
  | .ok out => ErrorsNegate args convs ∧ (convs = [] → out ++ [0] = rest)
  | .error .running => n < rest.length
  | .error .table => ¬ErrorsNegate args convs
  | .error .outside => False

theorem Outcome.literal {convs : List (Directive × Nat)} {r : Except Stop (List (BitVec 8))}
    (h : Outcome args convs rest n r) :
    Outcome args convs (text ++ byte '%' :: rest) (n + 1)
      (r.bind fun more => .ok (text ++ byte '%' :: more)) := by
  match r, h with
  | .ok out, h => exact ⟨h.1, fun hnil => by simp [← h.2 hnil]⟩
  | .error .running, h =>
      have hlt : n < rest.length := h
      change n + 1 < (text ++ byte '%' :: rest).length
      simp only [List.length_append, List.length_cons]
      omega
  | .error .table, h => exact h

theorem Outcome.directive {convs : List (Directive × Nat)} {r : Except Stop (List (BitVec 8))}
    {d : Directive} {i : Nat} {all out : List (BitVec 8)} (h : Outcome args convs rest n r)
    (hd : d = .error → args.int i ≠ BitVec.intMin 32) (hlength : rest.length < all.length) :
    Outcome args ((d, i) :: convs) all (n + 1)
      (r.bind fun more => .ok (text ++ out ++ more)) := by
  have hcons : ErrorsNegate args ((d, i) :: convs) ↔ ErrorsNegate args convs := by
    refine ⟨fun hall j hj => hall j (List.mem_cons_of_mem _ hj), fun hall j hj => ?_⟩
    rcases List.mem_cons.mp hj with heq | hj
    · cases heq
      exact hd rfl
    · exact hall j hj
  match r, h with
  | .ok _, h => exact ⟨hcons.mpr h.1, nofun⟩
  | .error .running, h =>
      have hlt : n < rest.length := h
      change n + 1 < all.length
      omega
  | .error .table, h => exact fun hall => h (hcons.mp hall)

theorem vprintfmt_outcome (args : Args) (n ap : Nat) (before : List (BitVec 8))
    {chars : List (BitVec 8)} (hnul : 0 ∉ chars) :
    Outcome args (conversions false ap (chars ++ [0])) (chars ++ [0]) n
      (vprintfmt args n ap ⟨before, chars ++ [0]⟩) := by
  induction n generalizing ap before chars with
  | zero => simp [vprintfmt, Outcome]
  | succ n ih =>
      by_cases hpercent : byte '%' ∈ chars
      · obtain ⟨text, after, rfl, htext⟩ := List.eq_append_cons_of_mem hpercent
        rw [List.mem_append, List.mem_cons, not_or, not_or] at hnul
        obtain ⟨hnulText, -, hnulAfter⟩ := hnul
        obtain ⟨mods, ch, rest, hsplit, hmods, hch, hend⟩ := exists_escape after
        have hclean : byte '%' ∉ mods := fun hmem => absurd (hmods _ hmem) (by decide)
        obtain ⟨esc, hscan, hap⟩ :=
          reswitch_append args { ap } rest (byte '%' :: (text.reverse ++ before)) hmods hch
        have hcopy := copyText_percent before (after ++ [0]) htext hnulText
        rw [hsplit] at hcopy
        rw [List.append_assoc, List.cons_append, conversions_text htext, conversions,
          decide_eq_true rfl, hsplit, conversions_modifiers hmods, conversions, if_neg hch, ← hap]
        simp only [vprintfmt, hcopy, ok_bind, hscan]
        cases hd : Directive.ofByte ch with
        | none =>
            have hback := rewind_append (ch :: rest) (text.reverse ++ before)
              (List.mem_reverse.not.mpr hclean)
            have hskip : byte '%' ∉ mods ++ [ch] := by
              rw [List.mem_append, List.mem_singleton, not_or]
              refine ⟨hclean, ?_⟩
              rintro rfl
              cases hd
            have hrun := ih esc.ap (byte '%' :: (text.reverse ++ before)) hnulAfter
            rw [hsplit, List.append_cons, conversions_text hskip, ← List.append_cons] at hrun
            rw [List.reverse_reverse] at hback
            simp only [hback, ok_bind]
            exact hrun.literal
        | some d =>
            obtain rfl | ⟨tail, hsub, rfl⟩ := hend
            · cases hd
            have hrun := ih (esc.ap + d.takes)
              (ch :: (mods.reverse ++ byte '%' :: (text.reverse ++ before)))
              fun hmem => hnulAfter (hsub hmem)
            obtain ⟨⟨out, hout⟩, hok⟩ | ⟨hfail, rfl, herr⟩ := print_cases args esc.close esc.ap d
            · simp only [hout, ok_bind]
              exact hrun.directive hok (by simp; omega)
            · simp only [hfail]
              exact fun hall => hall esc.ap List.mem_cons_self herr
      · have hcopy := copyText_nul before hpercent hnul
        have hconvs : conversions false ap (chars ++ [0]) = [] := conversions_text hpercent
        rw [hconvs]
        simp only [vprintfmt, hcopy]
        exact ⟨nofun, fun _ => rfl⟩

/-- A format is processed with its arguments exactly if no argument of a conversion `%e` is
`INT_MIN`. -/
theorem processes_iff (args : Args) (format : CStr) :
    Processes args format ↔ ErrorsNegate args (conversions false 0 format.bytes) := by
  have hrun : ∀ n, Outcome args (conversions false 0 format.bytes) format.bytes n
      (vprintfmt args n 0 (start format)) :=
    fun n => vprintfmt_outcome args n 0 [] format.noNul
  constructor
  · rintro ⟨⟨n, out, hok⟩, -, -⟩
    have hout := hrun n
    rw [hok] at hout
    exact hout.1
  · refine fun hnegate => ⟨⟨format.bytes.length, ?_⟩, fun n hleft => ?_, fun hnil n out hok => ?_⟩
    · have hout := hrun format.bytes.length
      match vprintfmt args format.bytes.length 0 (start format), hout with
      | .ok out, _ => exact ⟨out, rfl⟩
      | .error .running, hlt => exact absurd hlt (lt_irrefl _)
      | .error .table, hfail => exact absurd hnegate hfail
    · have hout := hrun n
      rw [hleft] at hout
      exact hout
    · have hout := hrun n
      rw [hok] at hout
      exact List.append_cancel_right (hout.2 hnil)

/-- The format `%e` with the argument `INT_MIN`. -/
theorem intMin_leaves_table : ∃ (args : Args) (format : CStr), format.chars = ascii "%e" ∧
    args.int 0 = BitVec.intMin 32 ∧ vprintfmt args 3 0 (start format) = .error .table ∧
      ¬Processes args format := by
  let args : Args := ⟨fun _ => 0x80000000, fun _ => .empty⟩
  let format : CStr := ⟨ascii "%e", by decide⟩
  have hrun : ∀ n, vprintfmt args (n + 1) 0 (start format) = .error .table := fun _ => rfl
  refine ⟨args, format, rfl, rfl, hrun 2, fun hprocesses => ?_⟩
  obtain ⟨n, out, hok⟩ := hprocesses.ends
  cases n with
  | zero => cases hok
  | succ n => cases (hrun n).symm.trans hok

end Printfmt
end ZynexOS
