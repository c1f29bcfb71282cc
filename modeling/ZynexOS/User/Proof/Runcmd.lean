import ZynexOS.Kern.Proof.Monitor
import ZynexOS.User.Runcmd
import ZynexOS.User.Proof.Gettoken

/-!
# The shell's commands: when `runcmd` stays inside its arrays
-/

namespace ZynexOS

/-- The words that `argv` points to. No later call of `gettoken` changes them. -/
def Words (lexer : Lexer) (argv : List Nat) (words : List (List (BitVec 8))) : Prop :=
  List.Forall₂ (fun p text => SettledAt lexer p text ∧ 0 ∉ text) argv words

theorem SettledAt.mono {lexer lexer' : Lexer} {p : Nat} {text : List (BitVec 8)}
    (hsettled : SettledAt lexer p text) (hmore : settled lexer <+: settled lexer') :
    SettledAt lexer' p text := by
  obtain ⟨before, hlen, hbefore⟩ := hsettled
  exact ⟨before, hlen, hbefore.trans hmore⟩

theorem Words.mono {lexer lexer' : Lexer} {argv : List Nat} {words : List (List (BitVec 8))}
    (hwords : Words lexer argv words) (hmore : settled lexer <+: settled lexer') :
    Words lexer' argv words :=
  hwords.imp fun _ _ h => ⟨h.1.mono hmore, h.2⟩

theorem Words.mapM {lexer : Lexer} {argv : List Nat} {words : List (List (BitVec 8))}
    (hwords : Words lexer argv words) : argv.mapM (cstringAt lexer.mem) = some words := by
  induction hwords with
  | nil => rfl
  | cons hword _ ih =>
      rw [List.mapM_cons, hword.1.cstringAt hword.2, ih]
      rfl

namespace Shell

variable {shell : Shell} {words : List (List (BitVec 8))}

theorem runit_eq (hwords : Words shell.lexer shell.argv words) :
    shell.runit = some (runWords shell.stores words) := by
  have hlen := hwords.length_eq
  unfold runit runWords
  cases hargv : shell.argv with
  | nil =>
      rw [hargv] at hwords
      cases hwords with
      | nil => simp [stopWith, hargv]
  | cons p argv =>
      rw [hargv] at hwords hlen
      cases hwords with
      | cons hword hrest =>
          simp only [hword.1.cstringAt hword.2, Words.mapM hrest, hlen]
          rfl

theorem stopWith_eq (hwords : Words shell.lexer shell.argv words) (stop : Stop) :
    shell.stopWith stop = some ⟨stop, words.length, shell.stores⟩ := by
  unfold stopWith
  rw [hwords.length_eq]

theorem symbol_code {lexer : Lexer} {c : BitVec 8} {rest : List Token}
    (hlexing : Lexing lexer (.symbol c :: rest)) :
    (c.toNat : Int) ≠ wordCode ∧ (c.toNat : Int) ≠ 0 ∧
      ((c.toNat : Int) = less.toNat ∨ (c.toNat : Int) = greater.toNat ↔ c = less ∨ c = greater) ∧
      ((c.toNat : Int) = bar.toNat ↔ c = bar) := by
  have hcodes : ∀ d ∈ symbols, (d.toNat : Int) ≠ wordCode ∧ (d.toNat : Int) ≠ 0 ∧
      ((d.toNat : Int) = less.toNat ∨ (d.toNat : Int) = greater.toNat ↔ d = less ∨ d = greater) ∧
      ((d.toNat : Int) = bar.toNat ↔ d = bar) := by
    decide
  cases hlexing with
  | symbol hmem hline hc hnc hnp2 => exact hcodes c hc

theorem loop_eq {fuel : Nat} {toks : List Token} (hlexing : Lexing shell.lexer toks)
    (hwords : Words shell.lexer shell.argv words) (hfuel : toks.length < fuel) :
    shell.loop fuel = some (runTokens shell.stores words shell.io toks) := by
  induction fuel generalizing shell words toks with
  | zero => nomatch hfuel
  | succ fuel ih =>
      cases toks with
      | nil =>
          obtain ⟨t, lexer', hget, -, hmore⟩ := hlexing.gettoken_nil
          rw [loop, hget]
          exact runit_eq (hwords.mono hmore)
      | cons token rest =>
          obtain ⟨t, lexer', hget, hlexing', hmore, htext⟩ := hlexing.gettoken
          have hwords' := hwords.mono hmore
          have hfuel' : rest.length < fuel := Nat.lt_of_succ_lt_succ hfuel
          have hlen := hwords.length_eq
          cases token with
          | word text =>
              obtain ⟨hnul, p, rfl, hsettled⟩ := htext text rfl
              have hget : gettoken shell.lexer = some ((wordCode, some p), lexer') := hget
              rw [loop, hget, runTokens]
              simp only [Option.bind_eq_bind, Option.bind_some, if_true, hlen]
              split
              · rfl
              · exact ih hlexing' (List.rel_append hwords' (.cons ⟨hsettled, hnul⟩ .nil)) hfuel'
          | symbol c =>
              obtain ⟨hword, hzero, hredirect, hbar⟩ := symbol_code hlexing
              have hget : gettoken shell.lexer = some (((c.toNat : Int), t), lexer') := hget
              rw [loop, hget, runTokens.eq_def]
              simp only [Option.bind_eq_bind, Option.bind_some, if_neg hword, if_neg hzero, hredirect,
                hbar]
              by_cases hfile : c = less ∨ c = greater
              · -- a redirection takes one more token
                rw [if_pos hfile, if_pos hfile]
                cases rest with
                | nil =>
                    obtain ⟨t', lexer'', hget', -, hmore'⟩ := hlexing'.gettoken_nil
                    have hwords'' := hwords'.mono hmore'
                    rw [hget']
                    exact stopWith_eq hwords'' _
                | cons token' rest =>
                    obtain ⟨t', lexer'', hget', hlexing'', hmore', -⟩ := hlexing'.gettoken
                    have hwords'' := hwords'.mono hmore'
                    simp only [hget', Option.bind_some]
                    cases token' with
                    | symbol d =>
                        rw [if_pos (Token.symbol_result_ne_word hlexing')]
                        exact stopWith_eq hwords'' _
                    | word text =>
                        have hsecond : ¬(Token.word text).result.1 ≠ wordCode := not_not_intro rfl
                        rw [if_neg hsecond]
                        show (if _ then _ else _) = some (if _ then _ else _)
                        split
                        · exact stopWith_eq hwords'' _
                        · exact ih hlexing'' hwords'' (Nat.lt_of_succ_lt hfuel')
              · rw [if_neg hfile, if_neg hfile]
                split
                · split
                  · exact stopWith_eq hwords' _
                  · split
                    · exact stopWith_eq hwords' _
                    · split
                      · exact ih hlexing' .nil hfuel'
                      · exact runit_eq hwords'
                · exact stopWith_eq hwords' _

end Shell

theorem tokens_length_le (line : List (BitVec 8)) : (tokens line).length ≤ line.length := by
  fun_induction tokens line with
  | case1 => exact Nat.le_refl 0
  | case2 c line hc ih => exact Nat.le_succ_of_le ih
  | case3 c line hc hsym ih => exact Nat.succ_le_succ ih
  | case4 c line hc hsym ih =>
      exact Nat.succ_le_succ (ih.trans (List.dropWhile_suffix isPlain).length_le)

theorem runcmd_eq (line : CStr) (before after : List (BitVec 8)) (nc : Int) (np1 np2 : Option Nat)
    (io : List Int) :
    runcmd ⟨before ++ (line.chars ++ 0 :: after), nc, np1, np2⟩ before.length io =
      some (runTokens [] [] io (tokens line.chars)) := by
  have hmem : (Lexer.mk (before ++ (line.chars ++ 0 :: after)) nc np1 np2).mem = _ := rfl
  obtain ⟨lexer, hscan, hlexing, -⟩ := scanToken_line hmem line.noNul
  have hfuel : (tokens line.chars).length < (before ++ (line.chars ++ 0 :: after)).length + 1 := by
    have hle := tokens_length_le line.chars
    simp only [List.length_append, List.length_cons]
    omega
  unfold runcmd gettokenStart
  rw [hscan]
  exact @Shell.loop_eq ⟨lexer, [], io, []⟩ [] _ _ hlexing .nil hfuel

section Tokens

variable {stores : List Store} {words : List (List (BitVec 8))}

theorem nameStores_inBounds {name : List (BitVec 8)} :
    (∀ store ∈ Shell.nameStores name, store.InBounds) ↔
      name.head? = some slash ∨ name.length + 2 ≤ bufSiz := by
  unfold Shell.nameStores
  split
  · next hslash =>
      rw [or_iff_right hslash]
      constructor
      · intro hall
        have hlast : Store.argv0buf (1 + name.length) ∈ Shell.strcpyStores 1 name :=
          List.mem_map.mpr ⟨name.length, List.mem_range.mpr (Nat.lt_succ_self _), rfl⟩
        have hbound : 1 + name.length < bufSiz :=
          hall _ (List.mem_append_left _ (List.mem_cons_of_mem _ hlast))
        omega
      · intro hlen store hstore
        obtain hstore | hstore := List.mem_append.mp hstore
        · obtain rfl | hstore := List.mem_cons.mp hstore
          · show 0 < bufSiz
            decide
          · obtain ⟨i, hi, rfl⟩ := List.mem_map.mp hstore
            have hi := List.mem_range.mp hi
            show 1 + i < bufSiz
            omega
        · rw [List.mem_singleton.mp hstore]
          show 0 < maxArgs
          decide
  · next hslash => exact iff_of_true nofun (.inl (not_not.mp hslash))

theorem runWords_inBounds_iff :
    (∀ store ∈ (runWords stores words).stores, store.InBounds) ↔
      (∀ store ∈ stores, store.InBounds) ∧ CommandFits words := by
  cases words with
  | nil => exact ⟨fun hstores => ⟨hstores, by decide⟩, And.left⟩
  | cons name args =>
      have hlast : (Store.argv (name :: args).length).InBounds ↔ (name :: args).length < maxArgs :=
        Iff.rfl
      simp only [runWords, List.forall_mem_append, List.forall_mem_singleton, nameStores_inBounds,
        hlast, CommandFits, List.head?_cons, Option.mem_some_iff, forall_eq', and_assoc]
      tauto

theorem runWords_inBounds (hstores : ∀ store ∈ stores, store.InBounds) (hfits : CommandFits words) :
    (runWords stores words).InBounds := by
  refine ⟨runWords_inBounds_iff.mpr ⟨hstores, hfits⟩, fun hmany => ?_⟩
  have hwords : (runWords stores words).words = words.length := by
    cases words <;> rfl
  rw [hwords] at hmany
  exact absurd hfits.1 (Nat.lt_asymm hmany)

theorem inBounds_stop (hwords : words.length ≤ maxArgs) (hstores : ∀ store ∈ stores, store.InBounds)
    (stop : Stop) : RunEnd.InBounds ⟨stop, words.length, stores⟩ :=
  ⟨hstores, fun hmany => absurd hwords (Nat.not_le.mpr hmany)⟩

theorem commands_bar (rest : List Token) :
    commands words (.symbol bar :: rest) = words :: commands [] rest := by
  rw [commands.eq_def]
  rfl

theorem commands_redirect {c : BitVec 8} (hc : c = less ∨ c = greater) (text : List (BitVec 8))
    (rest : List Token) : commands words (.symbol c :: .word text :: rest) = commands words rest := by
  rw [commands.eq_def]
  exact if_pos hc

theorem runTokens_inBounds {io : List Int} {toks : List Token}
    (hcommands : ∀ command ∈ commands words toks, CommandFits command)
    (hwords : words.length ≤ maxArgs) (hstores : ∀ store ∈ stores, store.InBounds) :
    (runTokens stores words io toks).InBounds := by
  fun_induction runTokens stores words io toks with
  | case1 stores words io => exact runWords_inBounds hstores (hcommands words List.mem_cons_self)
  | case2 => exact ⟨hstores, fun _ => rfl⟩
  | case3 stores words io text rest hroom ih =>
      rw [commands, if_neg hroom] at hcommands
      have hless : words.length < maxArgs := lt_of_le_of_ne hwords hroom
      refine ih hcommands ?_ (List.forall_mem_append.mpr ⟨hstores, ?_⟩)
      · rw [List.length_append]
        exact hless
      · exact List.forall_mem_singleton.mpr hless
  | case5 stores words io c hc text rest _ ih =>
      rw [commands_redirect hc] at hcommands
      exact ih hcommands hwords hstores
  | case9 stores words io rest _ _ _ _ ih =>
      rw [commands_bar] at hcommands
      exact ih (List.forall_mem_cons.mp hcommands).2 (Nat.zero_le _) hstores
  | case10 stores words io rest =>
      rw [commands_bar] at hcommands
      exact runWords_inBounds hstores (List.forall_mem_cons.mp hcommands).1
  | case4 | case6 | case7 | case8 | case11 => exact inBounds_stop hwords hstores _

theorem exists_io {command : List (List (BitVec 8))} {toks : List Token}
    (hcommand : command ∈ commands words toks) :
    ∃ io stores', runTokens stores words io toks = runWords stores' command := by
  fun_induction commands words toks generalizing stores with
  | case1 words => exact ⟨[], stores, by rw [List.mem_singleton.mp hcommand, runTokens]⟩
  | case3 words text rest hroom ih =>
      obtain ⟨io, stores', hrun⟩ := ih hcommand
      exact ⟨io, stores', by rw [runTokens, if_neg hroom, hrun]⟩
  | case4 words c hc text rest ih =>
      obtain ⟨io, stores', hrun⟩ := ih hcommand
      refine ⟨0 :: io, stores', ?_⟩
      rw [runTokens.eq_def]
      simp only [if_pos hc]
      exact hrun
  | case6 words rest _ ih =>
      obtain rfl | hcommand := List.mem_cons.mp hcommand
      · refine ⟨[0, 1], stores, ?_⟩
        rw [runTokens.eq_def]
        rfl
      · obtain ⟨io, stores', hrun⟩ := ih hcommand
        refine ⟨0 :: 0 :: io, stores', ?_⟩
        rw [runTokens.eq_def]
        exact hrun
  | case2 | case5 | case7 => nomatch hcommand

end Tokens

theorem staysInBounds_iff (line : CStr) (before after : List (BitVec 8)) (nc : Int)
    (np1 np2 : Option Nat) :
    StaysInBounds ⟨before ++ (line.chars ++ 0 :: after), nc, np1, np2⟩ before.length ↔
      ∀ command ∈ commands [] (tokens line.chars), CommandFits command := by
  simp only [StaysInBounds, runcmd_eq, Option.some.injEq, exists_eq_left']
  constructor
  · intro hbounds command hcommand
    obtain ⟨io, stores', hrun⟩ := exists_io hcommand
    have hstores := (hbounds io).stores
    rw [hrun] at hstores
    exact (runWords_inBounds_iff.mp hstores).2
  · intro hfits io
    exact runTokens_inBounds hfits (Nat.zero_le _) nofun

/-- The shell stays inside its arrays if and only if every command that the line can come to fits; the
monitor always does. -/
theorem runcmd_inBounds_iff_fits (line : CStr) (before after : List (BitVec 8)) (nc : Int)
    (np1 np2 : Option Nat) :
    (StaysInBounds ⟨before ++ (line.chars ++ 0 :: after), nc, np1, np2⟩ before.length ∧
      ∃ out, Monitor.runcmd (before ++ (line.chars ++ 0 :: after)) before.length = some out ∧
        ∀ i ∈ out.stores, i < Monitor.maxArgs) ↔
      ∀ command ∈ commands [] (tokens line.chars), CommandFits command := by
  rw [staysInBounds_iff]
  exact and_iff_left (Monitor.runcmd_inBounds line before after)

theorem tokens_letters (n : Nat) :
    tokens (List.replicate n [97, 32]).flatten = List.replicate n (.word [97]) := by
  induction n with
  | zero => rw [List.replicate_zero, List.flatten_nil, tokens, List.replicate_zero]
  | succ n ih =>
      have hspace : ∀ line, tokens (32 :: line) = tokens line := fun line => by
        rw [tokens, if_pos (by decide)]
      rw [List.replicate_succ, List.flatten_cons, List.replicate_succ, List.cons_append, tokens,
        if_neg (by decide), if_neg (by decide)]
      show Token.word (97 :: List.takeWhile isPlain (32 :: _)) ::
        tokens (List.dropWhile isPlain (32 :: _)) = _
      rw [List.takeWhile_cons_of_neg (by decide), List.dropWhile_cons_of_neg (by decide)]
      exact congrArg _ ((hspace _).trans ih)

/-- Sixteen words of one letter fill `argv`, and `NULL` is stored behind it. -/
theorem runcmd_sixteen_words :
    let line : CStr := ⟨(List.replicate 16 [97, 32]).flatten, by decide⟩
    line.chars.length ≤ 1023 ∧ (∀ c ∈ line.chars, 32 ≤ c.toNat) ∧
      ∃ out, runcmd ⟨[] ++ (line.chars ++ 0 :: []), 0, none, none⟩ 0 [] = some out ∧
        .argv 16 ∈ out.stores ∧ ¬(Store.argv 16).InBounds := by
  refine ⟨by decide, by decide, _, runcmd_eq _ [] [] 0 none none [], ?_, by decide⟩
  rw [tokens_letters]
  decide

end ZynexOS
