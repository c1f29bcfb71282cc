import ZynexOS.User.Shell

/-!
# The shell's tokens: the look-ahead ends every word in time
-/

namespace ZynexOS

open Library
variable {c : BitVec 8} {blanks : List (BitVec 8)} {lexer : Lexer}

theorem isPlain_iff : isPlain c ↔ c ∉ whitespace ∧ c ∉ symbols := decide_eq_true_iff

theorem skipBlanks_append (before after : List (BitVec 8))
    (hblanks : ∀ b ∈ blanks, b ∈ whitespace) (hc : c ∉ whitespace) :
    skipBlanks (before ++ (blanks ++ c :: after)) before.length =
      some (before ++ (List.replicate blanks.length 0 ++ c :: after),
        before.length + blanks.length) :=
  fillWhile_append 0 before after (fun b hb => strchr_isSome.mpr (hblanks b hb))
    (mt strchr_isSome.mp hc)

theorem skipWord_append (before after : List (BitVec 8)) {word : List (BitVec 8)}
    (hword : ∀ b ∈ word, b ≠ 0 ∧ isPlain b) (hc : c = 0 ∨ ¬isPlain c) :
    skipWord (before ++ (word ++ c :: after)) before.length =
      some (before.length + word.length) := by
  have hplain (b : BitVec 8) : (strchr (whitespace ++ symbols) b).isNone ↔ isPlain b := by
    rw [isPlain_iff, strchr_isNone, List.mem_append, not_or]
  refine skipWhile_append before after (fun b hb => ?_) ?_
  · rw [decide_eq_true_iff, hplain]
    exact hword b hb
  · rw [decide_eq_true_iff, hplain, not_and_or, not_not]
    exact hc

def settled (lexer : Lexer) : List (BitVec 8) :=
  lexer.mem.take (lexer.np2.getD lexer.mem.length)

theorem settled_none (mem : List (BitVec 8)) (nc : Int) (np1 : Option Nat) :
    settled ⟨mem, nc, np1, none⟩ = mem := List.take_length

theorem settled_some (before after : List (BitVec 8)) (nc : Int) (np1 : Option Nat) :
    settled ⟨before ++ after, nc, np1, some before.length⟩ = before := List.take_left

/-- The tokens that are still to be returned. A word that waits to be returned is not terminated yet,
and what follows it is not part of a word. -/
inductive Lexing : Lexer → List Token → Prop
  | done {lexer : Lexer} (hnc : lexer.nc = 0) (hnp2 : lexer.np2 = none) : Lexing lexer []
  | symbol {lexer : Lexer} {before line after : List (BitVec 8)} {c : BitVec 8}
      (hmem : lexer.mem = before ++ (line ++ 0 :: after)) (hline : 0 ∉ line)
      (hc : c ∈ symbols) (hnc : lexer.nc = c.toNat) (hnp2 : lexer.np2 = some before.length) :
      Lexing lexer (.symbol c :: tokens line)
  | word {lexer : Lexer} {before text line after : List (BitVec 8)}
      (hmem : lexer.mem = (before ++ text) ++ (line ++ 0 :: after)) (hline : 0 ∉ line)
      (htext : 0 ∉ text) (hstop : ∀ c ∈ line.head?, ¬isPlain c)
      (hnc : lexer.nc = wordCode) (hnp1 : lexer.np1 = some before.length)
      (hnp2 : lexer.np2 = some (before ++ text).length) :
      Lexing lexer (.word text :: tokens line)

theorem tokens_blanks_append (hblanks : ∀ b ∈ blanks, b ∈ whitespace)
    (line : List (BitVec 8)) : tokens (blanks ++ line) = tokens line := by
  induction blanks with
  | nil => rfl
  | cons b blanks ih =>
      rw [List.cons_append, tokens, if_pos (hblanks b List.mem_cons_self)]
      exact ih fun b hb => hblanks b (List.mem_cons_of_mem _ hb)

theorem scanToken_blanks {before after : List (BitVec 8)}
    (hmem : lexer.mem = before ++ (blanks ++ c :: after)) (hblanks : ∀ b ∈ blanks, b ∈ whitespace)
    (hc : c ∉ whitespace) :
    scanToken lexer (some before.length) =
      let before := before ++ List.replicate blanks.length 0
      if c = 0 then some ⟨before ++ c :: after, 0, none, none⟩
      else if c ∈ symbols then
        some ⟨before ++ 0 :: after, c.toNat, some before.length, some (before.length + 1)⟩
      else (skipWord (before ++ c :: after) before.length).bind fun p2 =>
        some ⟨before ++ c :: after, wordCode, some before.length, some p2⟩ := by
  have hskip : skipBlanks (before ++ (blanks ++ c :: after)) before.length =
      some ((before ++ List.replicate blanks.length 0) ++ c :: after,
        (before ++ List.replicate blanks.length (0 : BitVec 8)).length) := by
    rw [skipBlanks_append before after hblanks hc, List.append_assoc, List.length_append,
      List.length_replicate]
  generalize before ++ List.replicate blanks.length (0 : BitVec 8) = before' at hskip ⊢
  simp only [scanToken, hmem, hskip, Option.bind_eq_bind, Option.bind_some, strchr_isSome,
    List.getElem?_append_right (Nat.le_refl _), Nat.sub_self, List.getElem?_cons_zero,
    List.set_append_right _ _ (Nat.le_refl _), List.set_cons_zero]
  rfl

theorem exists_blanks (line : List (BitVec 8)) : ∃ blanks rest, line = blanks ++ rest ∧
    (∀ b ∈ blanks, b ∈ whitespace) ∧ ∀ c ∈ rest.head?, c ∉ whitespace := by
  induction line with
  | nil => exact ⟨[], [], rfl, nofun, nofun⟩
  | cons c line ih =>
      by_cases hc : c ∈ whitespace
      · obtain ⟨blanks, rest, rfl, hblanks, hrest⟩ := ih
        exact ⟨c :: blanks, rest, rfl, List.forall_mem_cons.mpr ⟨hc, hblanks⟩, hrest⟩
      · exact ⟨[], c :: line, rfl, nofun, fun d hd => Option.some.inj hd ▸ hc⟩

theorem skipWord_line (before : List (BitVec 8)) {text line : List (BitVec 8)}
    (htext : ∀ b ∈ text, b ≠ 0 ∧ isPlain b) (hstop : ∀ c ∈ line.head?, ¬isPlain c)
    (after : List (BitVec 8)) :
    skipWord (before ++ (text ++ (line ++ 0 :: after))) before.length =
      some (before ++ text).length := by
  rw [List.length_append]
  cases line with
  | nil => exact skipWord_append before after htext (.inl rfl)
  | cons c line => exact skipWord_append before _ htext (.inr (hstop c rfl))

theorem scanToken_line {before line after : List (BitVec 8)}
    (hmem : lexer.mem = before ++ (line ++ 0 :: after)) (hline : 0 ∉ line) :
    ∃ lexer', scanToken lexer (some before.length) = some lexer' ∧ Lexing lexer' (tokens line) ∧
      before <+: settled lexer' ∧
      ((∀ c ∈ line.head?, ¬isPlain c) → before ++ [0] <+: settled lexer') := by
  obtain ⟨blanks, rest, rfl, hblanks, hrest⟩ := exists_blanks line
  rw [tokens_blanks_append hblanks]
  rw [List.append_assoc] at hmem
  have hzeros (more : List (BitVec 8)) :
      before ++ [0] <+: before ++ List.replicate blanks.length 0 ++ 0 :: more := by
    cases blanks with
    | nil => exact ⟨more, by simp⟩
    | cons b blanks => exact ⟨List.replicate blanks.length 0 ++ 0 :: more, by simp [List.replicate_succ]⟩
  cases rest with
  | nil =>
      rw [scanToken_blanks hmem hblanks (by decide)]
      refine ⟨_, rfl, ?_, ?_, fun _ => ?_⟩
      · rw [tokens]
        exact .done rfl rfl
      · rw [settled_none, List.append_assoc]
        exact List.prefix_append _ _
      · rw [settled_none]
        exact hzeros after
  | cons c rest =>
      have hmem_rest : ∀ d ∈ c :: rest, d ≠ 0 := fun d hd h0 =>
        hline (List.mem_append_right blanks (h0 ▸ hd))
      have hc := hmem_rest c List.mem_cons_self
      have hcws := hrest c rfl
      have hrest : 0 ∉ rest := fun h0 => hmem_rest 0 (List.mem_cons_of_mem c h0) rfl
      rw [List.cons_append] at hmem
      rw [scanToken_blanks hmem hblanks hcws, if_neg hc, tokens, if_neg hcws]
      generalize hbefore : before ++ List.replicate blanks.length 0 = before' at hzeros
      by_cases hsym : c ∈ symbols
      · rw [if_pos hsym, if_pos hsym]
        have hsnoc : before' ++ 0 :: (rest ++ 0 :: after) = (before' ++ [0]) ++ (rest ++ 0 :: after) := by
          rw [List.append_assoc, List.singleton_append]
        have hlen : before'.length + 1 = (before' ++ [0]).length := by
          rw [List.length_append, List.length_singleton]
        rw [hsnoc, hlen]
        refine ⟨_, rfl, .symbol rfl hrest hsym rfl rfl, ?_, fun _ => ?_⟩
        · rw [settled_some, ← hbefore, List.append_assoc]
          exact List.prefix_append _ _
        · rw [settled_some]
          exact hzeros []
      · rw [if_neg hsym, if_neg hsym]
        have hplain : isPlain c := isPlain_iff.mpr ⟨hcws, hsym⟩
        have htext : ∀ b ∈ c :: rest.takeWhile isPlain, b ≠ 0 ∧ isPlain b := fun b hb => by
          refine ⟨hmem_rest b ?_, ?_⟩
          · exact (List.cons_subset_cons c (List.takeWhile_prefix isPlain).subset) hb
          · obtain rfl | hb := List.mem_cons.mp hb
            · exact hplain
            · exact List.mem_takeWhile_imp hb
        have hstop : ∀ d ∈ (rest.dropWhile isPlain).head?, ¬isPlain d := fun d hd => by
          have hnot := List.head?_dropWhile_not isPlain rest
          rw [hd] at hnot
          simpa using hnot
        have hsplit : c :: (rest ++ 0 :: after) = (c :: rest.takeWhile isPlain) ++
            (rest.dropWhile isPlain ++ 0 :: after) := by
          rw [List.cons_append, ← List.append_assoc, List.takeWhile_append_dropWhile]
        rw [hsplit, skipWord_line _ htext hstop]
        refine ⟨_, rfl, .word (List.append_assoc _ _ _).symm (fun h0 => hrest ?_) (fun h0 => ?_) hstop rfl
          rfl rfl, ?_, fun hhead => ?_⟩
        · exact (List.dropWhile_suffix isPlain).subset h0
        · exact (htext 0 h0).1 rfl
        · rw [← List.append_assoc, settled_some, ← hbefore, List.append_assoc]
          exact List.prefix_append _ _
        · rw [← List.append_assoc, settled_some, ← hbefore]
          cases blanks with
          | nil => exact absurd hplain (hhead c rfl)
          | cons b blanks =>
              exact ⟨List.replicate blanks.length 0 ++ (c :: rest.takeWhile isPlain), by
                simp [List.replicate_succ]⟩

def SettledAt (lexer : Lexer) (p : Nat) (text : List (BitVec 8)) : Prop :=
  ∃ before, before.length = p ∧ before ++ text ++ [0] <+: settled lexer

theorem SettledAt.cstringAt {p : Nat} {text : List (BitVec 8)}
    (hsettled : SettledAt lexer p text) (htext : 0 ∉ text) :
    cstringAt lexer.mem p = some text := by
  obtain ⟨before, rfl, hprefix⟩ := hsettled
  obtain ⟨after, hmem⟩ := hprefix.trans (List.take_prefix _ lexer.mem)
  have hdrop : lexer.mem.drop before.length = text ++ 0 :: after := by
    rw [← hmem, List.append_assoc, List.append_assoc, List.drop_left, List.singleton_append]
  unfold ZynexOS.cstringAt
  simp only [hdrop]
  rw [if_pos (by simp), List.takeWhile_append_of_pos fun b hb => by
    simpa using fun h0 : b = 0 => htext (h0 ▸ hb)]
  simp

theorem gettoken_of_scan {lexer' : Lexer} (hscan : scanToken lexer lexer.np2 = some lexer') :
    gettoken lexer = some ((lexer.nc, lexer.np1), lexer') := by
  unfold gettoken
  rw [hscan]
  rfl

theorem Lexing.gettoken {token : Token} {rest : List Token}
    (hlexing : Lexing lexer (token :: rest)) :
    ∃ t lexer', gettoken lexer = some ((token.result.1, t), lexer') ∧ Lexing lexer' rest ∧
      settled lexer <+: settled lexer' ∧
      ∀ text, token = .word text → 0 ∉ text ∧ ∃ p, t = some p ∧ SettledAt lexer' p text := by
  cases hlexing with
  | @symbol before line after c hmem hline hc hnc hnp2 =>
      obtain ⟨lexer', hscan, hlexing', hbefore, -⟩ := scanToken_line hmem hline
      rw [← hnp2] at hscan
      refine ⟨lexer.np1, lexer', ?_, hlexing', ?_, nofun⟩
      · rw [gettoken_of_scan hscan, hnc]
        rfl
      · unfold settled at hbefore ⊢
        rw [hnp2, hmem, Option.getD_some, List.take_left]
        exact hbefore
  | @word before text line after hmem hline htext hstop hnc hnp1 hnp2 =>
      obtain ⟨lexer', hscan, hlexing', hbefore, hend⟩ := scanToken_line hmem hline
      rw [← hnp2] at hscan
      refine ⟨lexer.np1, lexer', ?_, hlexing', ?_, ?_⟩
      · rw [gettoken_of_scan hscan, hnc]
        rfl
      · unfold settled at hbefore ⊢
        rw [hnp2, hmem, Option.getD_some, List.take_left]
        exact hbefore
      · rintro _ ⟨⟩
        exact ⟨htext, before.length, hnp1, before, rfl, hend hstop⟩

theorem Lexing.gettoken_nil (hlexing : Lexing lexer []) :
    ∃ t lexer', ZynexOS.gettoken lexer = some ((0, t), lexer') ∧ Lexing lexer' [] ∧
      settled lexer <+: settled lexer' := by
  cases hlexing with
  | done hnc hnp2 =>
      have hscan : scanToken lexer lexer.np2 = some { lexer with nc := 0 } := by
        simp only [scanToken, hnp2]
      refine ⟨lexer.np1, { lexer with nc := 0 }, ?_, .done rfl hnp2, List.prefix_refl _⟩
      rw [gettoken_of_scan hscan, hnc]

theorem Token.symbol_result_ne_word {rest : List Token}
    (hlexing : Lexing lexer (.symbol c :: rest)) : (Token.symbol c).result.1 ≠ wordCode := by
  cases hlexing with
  | symbol hmem hline hc hnc hnp2 =>
      have hcodes : ∀ d ∈ symbols, (d.toNat : Int) ≠ wordCode := by decide
      exact hcodes c hc

theorem Lexing.gettokens {toks : List Token} (hlexing : Lexing lexer toks) (n : Nat) :
    ∃ lexer', gettokens n lexer =
      some ((toks.map Token.result ++ List.replicate n (0, none)).take n, lexer') := by
  induction n generalizing lexer toks with
  | zero => exact ⟨lexer, rfl⟩
  | succ n ih =>
      cases toks with
      | nil =>
          obtain ⟨t, lexer', hget, hlexing', -⟩ := hlexing.gettoken_nil
          obtain ⟨lexer'', hmore⟩ := ih hlexing'
          refine ⟨lexer'', ?_⟩
          rw [ZynexOS.gettokens, hget]
          show (ZynexOS.gettokens n lexer' >>= _) = _
          rw [hmore]
          simp [List.replicate_succ, wordCode]
      | cons token toks =>
          obtain ⟨t, lexer', hget, hlexing', -, hword⟩ := hlexing.gettoken
          obtain ⟨lexer'', hmore⟩ := ih hlexing'
          refine ⟨lexer'', ?_⟩
          have htext : (if token.result.1 = wordCode then t.bind (cstringAt lexer'.mem) else none) =
              token.result.2 := by
            cases token with
            | symbol c => exact if_neg (Token.symbol_result_ne_word hlexing)
            | word text =>
                obtain ⟨hnul, p, rfl, hsettled⟩ := hword text rfl
                exact (if_pos rfl).trans (hsettled.cstringAt hnul)
          have hlen : n ≤ (toks.map Token.result ++ List.replicate n (0, none)).length := by
            rw [List.length_append, List.length_replicate]
            exact Nat.le_add_left n _
          rw [ZynexOS.gettokens, hget]
          show (ZynexOS.gettokens n lexer' >>= _) = _
          rw [hmore, List.map_cons, List.cons_append, List.take_succ_cons, List.replicate_succ',
            ← List.append_assoc, List.take_append_of_le_length hlen]
          show some ((_, if _ then _ else _) :: _, _) = _
          rw [htext]

/-- Call after call, the tokens of the line are returned, each word as a terminated string, and then
0 for ever. The line may lie anywhere in memory, and the static variables have any value. -/
theorem gettokens_tokens (line : CStr) (before after : List (BitVec 8)) (nc : Int)
    (np1 np2 : Option Nat) :
    ∃ lexer, gettokenStart ⟨before ++ (line.chars ++ 0 :: after), nc, np1, np2⟩ before.length =
        some lexer ∧
      ∀ n, ∃ lexer', gettokens n lexer =
        some (((tokens line.chars).map Token.result ++ List.replicate n (0, none)).take n,
          lexer') := by
  have hmem : (Lexer.mk (before ++ (line.chars ++ 0 :: after)) nc np1 np2).mem = _ := rfl
  obtain ⟨lexer, hscan, hlexing, -⟩ := scanToken_line hmem line.noNul
  exact ⟨lexer, hscan, hlexing.gettokens⟩

end ZynexOS
