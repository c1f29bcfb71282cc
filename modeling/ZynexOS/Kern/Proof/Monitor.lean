import ZynexOS.Kern.Monitor

/-!
# The monitor's command line: `argv` is never overrun
-/

namespace ZynexOS.Monitor

open Library

variable (before after : List (BitVec 8))

theorem gobble_line (line : List (BitVec 8)) :
    ∃ before' line', gobble (before ++ (line ++ 0 :: after)) before.length =
        some (before' ++ (line' ++ 0 :: after), before'.length) ∧
      line' <:+ line ∧ ∀ c ∈ line'.head?, ¬(c ≠ 0 ∧ c ∈ whitespace) := by
  refine ⟨_, _, fillWhile_terminated before after line (by decide) 0, List.dropWhile_suffix _, ?_⟩
  intro c hc
  have hnot := head_dropWhile_not line c hc
  rwa [decide_eq_true_iff, strchr_isSome] at hnot

theorem passArg_line (line : List (BitVec 8)) {c : BitVec 8} (hzero : c ≠ 0) (hc : c ∉ whitespace) :
    ∃ before' line', before ++ (c :: line ++ 0 :: after) = before' ++ (line' ++ 0 :: after) ∧
      passArg (before ++ (c :: line ++ 0 :: after)) before.length = some before'.length ∧
      line' <:+ line := by
  refine ⟨_, (c :: line).dropWhile fun c => c ≠ 0 ∧ (strchr whitespace c).isNone, ?_,
    skipWhile_terminated before after (c :: line) (by decide), ?_⟩
  · rw [List.append_assoc, ← List.append_assoc (List.takeWhile _ _), List.takeWhile_append_dropWhile]
  · rw [List.dropWhile_cons_of_pos (by rw [decide_eq_true_iff, strchr_isNone]; exact ⟨hzero, hc⟩)]
    exact List.dropWhile_suffix _

variable {before after}

theorem parseLoop_inBounds {fuel : Nat} {line : List (BitVec 8)} {argv stores : List Nat}
    (hline : 0 ∉ line) (hfuel : line.length < fuel) (hargv : argv.length < maxArgs)
    (hstores : ∀ i ∈ stores, i < maxArgs) :
    ∃ out, parseLoop fuel (before ++ (line ++ 0 :: after)) before.length argv stores = some out ∧
      ∀ i ∈ out.stores, i < maxArgs := by
  have hnull : ∀ i ∈ stores ++ [argv.length], i < maxArgs :=
    List.forall_mem_append.mpr ⟨hstores, List.forall_mem_singleton.mpr hargv⟩
  induction fuel generalizing before line argv stores with
  | zero => nomatch hfuel
  | succ fuel ih =>
      obtain ⟨before', line', hgobble, hsuffix, hhead⟩ := gobble_line before after line
      rw [parseLoop, hgobble]
      simp only [Option.bind_eq_bind, Option.bind_some,
        List.getElem?_append_right (Nat.le_refl _), Nat.sub_self]
      cases line' with
      | nil => exact ⟨⟨argv, _⟩, rfl, hnull⟩
      | cons c line' =>
          have hzero : c ≠ 0 := fun h0 => hline (hsuffix.subset (by simp [h0]))
          have hc : c ∉ whitespace := fun hc => hhead c rfl ⟨hzero, hc⟩
          simp only [List.cons_append, List.getElem?_cons_zero, Option.bind_some, if_neg hzero]
          split
          · exact ⟨⟨none, stores⟩, rfl, hstores⟩
          · next hmany =>
              have hroom : argv.length + 1 < maxArgs := by
                have hsize : maxArgs = 16 := rfl
                omega
              obtain ⟨before'', line'', hmem, hpass, hless⟩ :=
                passArg_line before' after line' hzero hc
              have hshort : line''.length < fuel := by
                have hlen := hless.length_le
                have hlen' := hsuffix.length_le
                rw [List.length_cons] at hlen'
                omega
              rw [List.cons_append] at hmem hpass
              rw [hpass, hmem]
              refine ih (fun h0 => hline ?_) hshort (by simpa using hroom) hnull ?_
              · exact hsuffix.subset (List.mem_cons_of_mem c (hless.subset h0))
              · exact List.forall_mem_append.mpr ⟨hnull, by simpa using hroom⟩

theorem runcmd_inBounds (line : CStr) (before after : List (BitVec 8)) :
    ∃ out, runcmd (before ++ (line.chars ++ 0 :: after)) before.length = some out ∧
      ∀ i ∈ out.stores, i < maxArgs := by
  refine parseLoop_inBounds line.noNul ?_ (by decide) (by decide)
  simp only [List.length_append, List.length_cons]
  omega

end ZynexOS.Monitor
