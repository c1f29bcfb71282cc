import ZynexOS.Lib.Readline

/-!
# What `readline` returns

A DEL that comes when the line is empty passes the test for printable characters and is kept.
-/

namespace ZynexOS

open Function

variable {input : List (BitVec 8)}

namespace LineBuf

structure Holds (line : LineBuf) (text : List (BitVec 8)) : Prop where
  length : text.length = line.i
  get : ∀ k (hk : k < text.length), line.buf k = text[k]

variable {line : LineBuf} {text : List (BitVec 8)} {c : BitVec 8}

theorem Holds.pop (hline : line.Holds text) : line.pop.Holds text.dropLast where
  length := by rw [List.length_dropLast, hline.length]; rfl
  get k hk := by
    rw [List.getElem_dropLast]
    exact hline.get k _

theorem Holds.push (hline : line.Holds text) (hroom : line.i < bufLen - 1) :
    (line.push c.toNat hroom).Holds (text ++ [c]) := by
  have hlen := hline.length
  have hbyte : BitVec.ofInt 8 (c.toNat : Int) = c := by simp
  refine ⟨by rw [List.length_append, hlen]; rfl, fun k hk => ?_⟩
  show update line.buf line.i (BitVec.ofInt 8 c.toNat) k = _
  rw [hbyte]
  by_cases hlast : k = line.i
  · subst hlast
    rw [update_self, List.getElem_append_right hlen.le]
    simp [hlen]
  · have hlt : k < text.length := by
      rw [List.length_append, List.length_singleton] at hk
      omega
    rw [update_of_ne hlast, List.getElem_append_left hlt]
    exact hline.get k hlt

theorem Holds.finish (hline : line.Holds text) (hclean : ∀ c ∈ text, 32 ≤ c.toNat) :
    IsText line.finish text := by
  have hlen := hline.length
  refine ⟨fun k hk => ⟨?_, ?_⟩, ?_⟩
  · refine (update_of_ne ?_ _ _).trans (hline.get k hk)
    omega
  · intro hzero
    have hge := hclean _ (List.getElem_mem hk)
    rw [hzero] at hge
    exact absurd hge (by decide)
  · show update line.buf line.i 0 text.length = 0
    rw [hlen, update_self]

end LineBuf

theorem edit_append (input : List (BitVec 8)) (c : BitVec 8) :
    edit (input ++ [c]) = editChar (edit input) c := by
  simp [edit]

theorem edit_clean (input : List (BitVec 8)) :
    (∀ c ∈ edit input, 32 ≤ c.toNat ∧ c ≠ 127) ∧ (edit input).length < bufLen := by
  induction input using List.reverseRecOn with
  | nil => exact ⟨by simp [edit], by decide⟩
  | append_singleton input c ih =>
      obtain ⟨hclean, hlen⟩ := ih
      rw [edit_append]
      unfold editChar
      split_ifs with herase hkeep
      · refine ⟨fun d hd => hclean d (List.mem_of_mem_dropLast hd), ?_⟩
        rw [List.length_dropLast]
        omega
      · refine ⟨fun d hd => ?_, ?_⟩
        · obtain hd | hd := List.mem_append.mp hd
          · exact hclean d hd
          · rw [List.mem_singleton.mp hd]
            exact ⟨hkeep.1, fun h => herase (.inr h)⟩
        · rw [List.length_append, List.length_singleton]
          omega
      · exact ⟨hclean, hlen⟩

section

variable {line : LineBuf} {text : List (BitVec 8)} {c : BitVec 8} (rest : List Int)

theorem readlineLoop_char (hline : line.Holds text) (hend : ¬LineEnd c)
    (hdel : c = 127 → text ≠ []) :
    ∃ line', readlineLoop ((c.toNat : Int) :: rest) line = readlineLoop rest line' ∧
      line'.Holds (editChar text c) := by
  have hlen := hline.length
  have hpos : text ≠ [] ↔ 0 < line.i := by rw [← hlen, List.length_pos_iff]
  have herase : ((c.toNat : Int) = backspace ∨ (c.toNat : Int) = delete) ↔ c = 8 ∨ c = 127 := by
    unfold backspace delete
    constructor <;> intro h <;> bv_omega
  have hstop : ¬((c.toNat : Int) = 10 ∨ (c.toNat : Int) = 13) := by
    intro h
    refine hend ?_
    unfold LineEnd
    bv_omega
  rw [readlineLoop, if_neg (by omega), editChar]
  by_cases hkey : c = 8 ∨ c = 127
  · rw [if_pos hkey]
    by_cases hsome : 0 < line.i
    · rw [if_pos ⟨herase.mpr hkey, hsome⟩]
      exact ⟨line.pop, rfl, hline.pop⟩
    · -- only a backspace can find the line empty, and it is not printable
      obtain rfl : c = 8 := hkey.resolve_right fun h => hsome (hpos.mp (hdel h))
      have hempty : text = [] := by
        by_contra h
        exact hsome (hpos.mp h)
      rw [if_neg (fun h => hsome h.2), dif_neg (fun h => absurd h.1 (by decide)), if_neg hstop]
      exact ⟨line, rfl, by rw [hempty] at hline ⊢; exact hline⟩
  · rw [if_neg hkey, if_neg (fun h => hkey (herase.mp h.1))]
    by_cases hroom : 32 ≤ c.toNat ∧ text.length < bufLen - 1
    · have hroom' : 32 ≤ (c.toNat : Int) ∧ line.i < bufLen - 1 := by omega
      rw [if_pos hroom, dif_pos hroom']
      exact ⟨_, rfl, hline.push hroom'.2⟩
    · have hroom' : ¬(32 ≤ (c.toNat : Int) ∧ line.i < bufLen - 1) := by omega
      rw [if_neg hroom, dif_neg hroom', if_neg hstop]
      exact ⟨line, rfl, hline⟩

theorem readlineLoop_delete (hline : line.Holds []) :
    ∃ line', readlineLoop (127 :: rest) line = readlineLoop rest line' ∧ line'.Holds [127] := by
  have hzero : line.i = 0 := hline.length.symm
  have hroom : 32 ≤ (127 : Int) ∧ line.i < bufLen - 1 := by
    rw [hzero]
    decide
  rw [readlineLoop, if_neg (by decide), if_neg (fun h => by omega), dif_pos hroom]
  exact ⟨_, rfl, hline.push (c := 127) hroom.2⟩

theorem readlineLoop_stop {stop : Int} (line : LineBuf) (hstop : stop = 10 ∨ stop = 13) :
    readlineLoop (stop :: rest) line = .line line.finish := by
  rw [readlineLoop, if_neg (by omega), if_neg (fun h => ?_), dif_neg (fun h => ?_), if_pos hstop]
  · omega
  · unfold backspace delete at h
    omega

end

theorem NoDelOnEmpty.nil : NoDelOnEmpty [] := fun _ hbefore => absurd hbefore (by simp)

theorem NoDelOnEmpty.init {c : BitVec 8}
    (hkeys : NoDelOnEmpty (input ++ [c])) : NoDelOnEmpty input := fun before hbefore =>
  hkeys before (hbefore.trans (List.prefix_append input [c]))

theorem readlineLoop_chars (hplain : OneLine input)
    (hkeys : NoDelOnEmpty input) (buf : Nat → BitVec 8) (rest : List Int) :
    ∃ line, readline buf (chars input ++ rest) = readlineLoop rest line ∧
      line.Holds (edit input) := by
  induction input using List.reverseRecOn generalizing rest with
  | nil => exact ⟨_, rfl, rfl, by simp [edit]⟩
  | append_singleton input c ih =>
      have hplain' : OneLine input := fun d hd => hplain d (List.mem_append_left _ hd)
      obtain ⟨line, hrun, hline⟩ := ih hplain' hkeys.init ((c.toNat : Int) :: rest)
      have hend : ¬LineEnd c := hplain c (by simp)
      have hdel : c = 127 → edit input ≠ [] := by
        rintro rfl
        exact hkeys input (List.prefix_refl _)
      obtain ⟨line', hstep, hline'⟩ := readlineLoop_char rest hline hend hdel
      rw [edit_append]
      refine ⟨line', ?_, hline'⟩
      rw [← hstep, ← hrun]
      simp [chars]

theorem readsEdited_of_noDelOnEmpty (hplain : OneLine input)
    (hkeys : NoDelOnEmpty input) : ReadsEdited input := by
  intro buf stop rest hstop
  obtain ⟨line, hrun, hline⟩ := readlineLoop_chars hplain hkeys buf (stop :: rest)
  obtain ⟨hclean, hlen⟩ := edit_clean input
  refine ⟨line.finish, edit input, hrun.trans (readlineLoop_stop rest line hstop), ?_, rfl, hclean, hlen⟩
  exact hline.finish fun c hc => (hclean c hc).1

theorem readline_delete (hplain : OneLine input)
    (hkeys : NoDelOnEmpty input) (hempty : edit input = []) (buf : Nat → BitVec 8) :
    ∃ buf', readline buf (chars (input ++ [127]) ++ [10]) = .line buf' ∧ IsText buf' [127] := by
  obtain ⟨line, hrun, hline⟩ := readlineLoop_chars hplain hkeys buf [127, 10]
  rw [hempty] at hline
  obtain ⟨line', hstep, hline'⟩ := readlineLoop_delete [10] hline
  refine ⟨line'.finish, ?_, hline'.finish (by decide)⟩
  calc readline buf (chars (input ++ [127]) ++ [10])
      = readline buf (chars input ++ [127, 10]) := by simp [chars]
    _ = readlineLoop [10] line' := hrun.trans hstep
    _ = .line line'.finish := readlineLoop_stop [] line' (.inl rfl)

theorem NoDelOnEmpty.append {c : BitVec 8} (hkeys : NoDelOnEmpty input)
    (hlast : c = 127 → edit input ≠ []) : NoDelOnEmpty (input ++ [c]) := by
  intro before hbefore
  obtain heq | hshort := List.prefix_concat_iff.mp hbefore
  · obtain ⟨rfl, hc⟩ := List.append_inj' heq rfl
    exact hlast (List.singleton_inj.mp hc).symm
  · exact hkeys before hshort

/-- Every beginning of a line reads as edited if and only if no DEL comes when the line is empty. -/
theorem readsEdited_iff_noDelOnEmpty {input : List (BitVec 8)} (hplain : OneLine input) :
    (∀ before, before <+: input → ReadsEdited before) ↔ NoDelOnEmpty input := by
  constructor
  · intro hreads
    induction input using List.reverseRecOn with
    | nil => exact .nil
    | append_singleton input c ih =>
        have hplain' : OneLine input := fun d hd => hplain d (List.mem_append_left _ hd)
        have hkeys : NoDelOnEmpty input := ih hplain' fun before hbefore =>
          hreads before (hbefore.trans (List.prefix_append input [c]))
        refine hkeys.append ?_
        rintro rfl hempty
        obtain ⟨buf', hrun, hdel⟩ := readline_delete hplain' hkeys hempty fun _ => 0
        obtain ⟨buf, text, hrun', htext, heq, -⟩ :=
          hreads _ (List.prefix_refl _) (fun _ => 0) 10 [] (.inl rfl)
        obtain rfl := Readline.line.inj (hrun.symm.trans hrun')
        rw [edit_append, hempty] at heq
        subst heq
        -- the returned text is DEL, and also empty
        have hfirst : buf' 0 = 127 := (hdel.1 0 (by decide)).1
        have hzero : buf' 0 = 0 := htext.2
        rw [hfirst] at hzero
        exact absurd hzero (by decide)
  · intro hkeys before hbefore
    refine readsEdited_of_noDelOnEmpty (fun c hc => hplain c (hbefore.subset hc)) ?_
    exact fun before' hbefore' => hkeys before' (hbefore'.trans hbefore)

theorem readsEdited_word : NoDelOnEmpty [108, 115, 127] ∧
    ∀ before, before <+: [108, 115, 127] → ReadsEdited before := by
  have hplain : OneLine [108, 115, 127] := by
    unfold OneLine LineEnd
    decide
  have hkeys : NoDelOnEmpty [108, 115, 127] :=
    ((NoDelOnEmpty.nil.append (c := 108) (by decide)).append (c := 115) (by decide)).append (by decide)
  exact ⟨hkeys, (readsEdited_iff_noDelOnEmpty hplain).mpr hkeys⟩

theorem readline_del : edit [127] = [] ∧
    ∃ buf, readline (fun _ => 0) (chars [127] ++ [10]) = .line buf ∧ IsText buf [127] := by
  have hplain : OneLine [] := by nofun
  exact ⟨by decide, readline_delete hplain .nil rfl _⟩

end ZynexOS
