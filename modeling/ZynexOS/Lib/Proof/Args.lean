import ZynexOS.Lib.Args

/-!
# Command line options: the calls keep the vector, and `argnext` finds the flags
-/

namespace ZynexOS

theorem CStr.char_zero (s : CStr) : s.char 0 = some (s.chars.headD 0) := by
  obtain ⟨chars, noNul⟩ := s
  cases chars with
  | nil => rfl
  | cons c chars => rfl

namespace Argstate

variable {args : Argstate} {argv : List CStr} {name arg : CStr}

theorem Holds.first (hargs : args.Holds (name :: arg :: argv)) : args.first = some arg := by
  obtain ⟨_, beyond, hargv⟩ := hargs
  unfold Argstate.first
  rw [hargv]
  rfl

theorem Holds.shift (hargs : args.Holds (name :: arg :: argv)) :
    ∃ args', args.shift = some args' ∧ args'.Holds (name :: argv) ∧ args'.curarg = args.curarg := by
  obtain ⟨hargc, beyond, hargv⟩ := hargs
  have hargc : args.argc - 1 = argv.length + 1 := by
    rw [hargc]
    rfl
  have hmoved : memmove ((name :: arg :: argv).map some ++ none :: beyond) 1 2 (argv.length + 1) =
      some ((name :: argv).map some ++ none :: none :: beyond) := by
    unfold memmove
    rw [if_pos (by simp; omega)]
    have htail : (argv.map some ++ none :: beyond).take (argv.length + 1) =
        argv.map some ++ [none] := by
      simp [List.take_append]
    have hrest : ((name :: arg :: argv).map some ++ none :: beyond).drop (1 + (argv.length + 1)) =
        none :: beyond := by
      rw [List.drop_left' (by simp; omega)]
    rw [hrest]
    show some ([some name] ++ (argv.map some ++ none :: beyond).take (argv.length + 1) ++
      none :: beyond) = _
    rw [htail]
    simp
  refine ⟨{ args with argc := args.argc - 1, argv := _ }, ?_, ⟨hargc, none :: beyond, rfl⟩, rfl⟩
  unfold Argstate.shift
  rw [hargv, Option.bind_eq_bind, Option.bind_some, hargc, hmoved]
  rfl

theorem Holds.atEnd_nil (hargs : args.Holds [name]) : args.atEnd = some true := if_pos hargs.1

theorem Holds.atEnd_cons (hargs : args.Holds (name :: arg :: argv)) :
    args.atEnd = some (match arg.chars with | c :: _ :: _ => c ≠ dash | _ => true) := by
  have hmore : args.argc ≠ 1 := by
    rw [hargs.1]
    exact Nat.succ_succ_ne_one _
  unfold atEnd
  rw [if_neg hmore, hargs.first]
  show (arg.char 0 >>= _) = _
  rw [CStr.char_zero]
  obtain ⟨chars, noNul⟩ := arg
  match chars with
  | [] => rfl
  | [c] => by_cases hc : c = dash <;> simp [CStr.char, hc]
  | c :: d :: chars =>
      have hd : d ≠ 0#8 := fun hd => noNul (by simp [hd])
      by_cases hc : c = dash <;> simp [CStr.char, hc, hd]

theorem takeFlag_cons (args : Argstate) {c : BitVec 8} {chars : List (BitVec 8)}
    (noNul : 0 ∉ c :: chars) :
    args.takeFlag ⟨c :: chars, noNul⟩ = some ((c.toNat : Int),
      { args with curarg := some ⟨chars, fun h => noNul (List.mem_cons_of_mem c h)⟩ }) := rfl

theorem Holds.nextArg_dash {c : BitVec 8} {chars : List (BitVec 8)} {noNul : 0 ∉ dash :: c :: chars}
    (hargs : args.Holds (name :: ⟨dash :: c :: chars, noNul⟩ :: argv)) :
    ∃ args' : Argstate, args'.Holds (name :: argv) ∧
      args.nextArg = if c = dash ∧ chars = [] then args'.endOfArgs
        else args'.takeFlag ⟨c :: chars, fun h => noNul (List.mem_cons_of_mem dash h)⟩ := by
  obtain ⟨args', hshift, hargs', -⟩ := hargs.shift
  refine ⟨args', hargs', ?_⟩
  have hmore : args.atEnd = some false := hargs.atEnd_cons
  unfold nextArg
  rw [hmore, hargs.first, hshift]
  by_cases hc : c = dash
  · cases chars with
    | nil => simp [CStr.rest, CStr.char, hc]
    | cons d chars =>
        have hd : d ≠ 0#8 := fun hd => noNul (by simp [hd])
        simp [CStr.rest, CStr.char, hc, hd]
  · simp [CStr.rest, CStr.char, hc]

theorem isCluster_iff {arg : CStr} : isCluster arg ↔
    ∃ c chars, arg.chars = dash :: c :: chars ∧ ¬(c = dash ∧ chars = []) := by
  obtain ⟨chars, noNul⟩ := arg
  match chars with
  | [] => simp [isCluster]
  | [c] => simp [isCluster]
  | c :: d :: chars =>
      simp only [isCluster, List.cons.injEq]
      grind

theorem Holds.nextArg_stop (hargs : args.Holds (name :: argv))
    (hstop : ∀ arg ∈ argv.head?, ¬isCluster arg) :
    ∃ args', args.nextArg = some (-1, args') ∧ args'.curarg = none ∧
      args'.Holds (name :: operands argv) := by
  have hend : args.atEnd = some true → args.nextArg = args.endOfArgs := fun hend => by
    unfold nextArg
    rw [hend]
    rfl
  cases argv with
  | nil => exact ⟨{ args with curarg := none }, hend hargs.atEnd_nil, rfl, hargs⟩
  | cons arg argv =>
      have hstop : ¬isCluster arg := hstop arg rfl
      by_cases hdashes : arg.chars = [dash, dash]
      · obtain ⟨chars, noNul⟩ := arg
        subst hdashes
        obtain ⟨args', hargs', hnext⟩ := hargs.nextArg_dash
        refine ⟨{ args' with curarg := none }, hnext, rfl, ?_⟩
        rw [operands, List.dropWhile_cons_of_neg hstop]
        exact hargs'
      · refine ⟨{ args with curarg := none }, hend ?_, rfl, ?_⟩
        · rw [hargs.atEnd_cons]
          split
          · next c d chars heq =>
              rw [isCluster_iff] at hstop
              grind
          · rfl
        · rw [operands, List.dropWhile_cons_of_neg hstop]
          simp only [if_neg hdashes]
          exact hargs

theorem Holds.nextArg_cluster (hargs : args.Holds (name :: arg :: argv)) (harg : isCluster arg) :
    ∃ c curarg args', arg.chars.tail = c :: curarg.chars ∧
      args.nextArg = some ((c.toNat : Int), args') ∧ args'.curarg = some curarg ∧
      args'.Holds (name :: argv) := by
  obtain ⟨c, chars, heq, hmore⟩ := isCluster_iff.mp harg
  obtain ⟨_, noNul⟩ := arg
  subst heq
  obtain ⟨args', hargs', hnext⟩ := hargs.nextArg_dash
  rw [if_neg hmore, takeFlag_cons] at hnext
  exact ⟨c, _, _, rfl, hnext, rfl, hargs'⟩

end Argstate

open Argstate

theorem stop_or_cluster (rest : List CStr) : (∀ arg ∈ rest.head?, ¬isCluster arg) ∨
    ∃ arg rest', rest = arg :: rest' ∧ isCluster arg := by
  cases rest with
  | nil => exact .inl nofun
  | cons arg rest =>
      by_cases harg : isCluster arg
      · exact .inr ⟨arg, rest, rfl, harg⟩
      · exact .inl (by simpa using harg)

/-- The flags that `argnext` has still to return, and the vector that it leaves in the end. -/
inductive Yields : Argstate → List Int → List CStr → Prop
  | done {args : Argstate} {argv : List CStr} (hcur : args.curarg = none)
      (hargs : args.Holds argv) : Yields args [] argv
  | more {args : Argstate} {curarg name : CStr} {rest : List CStr}
      (hcur : args.curarg = some curarg) (hargs : args.Holds (name :: rest)) :
      Yields args ((curarg.chars.map fun c => (c.toNat : Int)) ++ flags rest) (name :: operands rest)

section Flags

variable {args : Argstate} {flagsLeft : List Int} {argv : List CStr}

theorem flags_cons_of_cluster {arg : CStr} (harg : isCluster arg) (rest : List CStr) :
    flags (arg :: rest) = (arg.chars.tail.map fun c => (c.toNat : Int)) ++ flags rest := by
  unfold flags
  rw [List.takeWhile_cons_of_pos harg, List.flatMap_cons, List.map_append]

theorem flags_eq_nil {rest : List CStr} :
    flags rest = [] ↔ ∀ arg ∈ rest.head?, ¬isCluster arg := by
  cases rest with
  | nil => exact ⟨nofun, fun _ => rfl⟩
  | cons arg rest =>
      by_cases harg : isCluster arg
      · obtain ⟨c, chars, heq, -⟩ := isCluster_iff.mp harg
        rw [flags_cons_of_cluster harg, heq]
        simpa using harg
      · unfold flags
        rw [List.takeWhile_cons_of_neg harg]
        simpa using harg

theorem operands_cons_of_cluster {arg : CStr} (harg : isCluster arg) (rest : List CStr) :
    operands (arg :: rest) = operands rest := by
  unfold operands
  rw [List.dropWhile_cons_of_pos harg]

theorem operands_suffix (rest : List CStr) : operands rest <:+ rest := by
  unfold operands
  have hdrop := List.dropWhile_suffix (l := rest) isCluster
  split
  · exact List.nil_suffix
  · next arg rest' heq =>
      rw [heq] at hdrop
      split
      · exact (List.suffix_cons arg rest').trans hdrop
      · exact hdrop

theorem argnext_of_none (hcur : args.curarg = none) :
    argnext args = some (-1, { args with argvalue := none }) := by
  unfold argnext
  simp only [hcur]

theorem argnext_of_empty {curarg : CStr} (hcur : args.curarg = some curarg)
    (hempty : curarg.chars = []) :
    argnext args = { args with argvalue := none }.nextArg := by
  unfold argnext
  simp only [hcur, CStr.char_zero, hempty]
  rfl

theorem argnext_of_cons {c : BitVec 8} {chars : List (BitVec 8)} {noNul : 0 ∉ c :: chars}
    (hcur : args.curarg = some ⟨c :: chars, noNul⟩) :
    argnext args = some ((c.toNat : Int), { args with
      argvalue := none
      curarg := some ⟨chars, fun h => noNul (List.mem_cons_of_mem c h)⟩ }) := by
  have hc : c ≠ 0 := fun hc => noNul (List.mem_cons.mpr (.inl hc.symm))
  unfold argnext
  simp only [hcur, CStr.char_zero]
  exact if_neg hc

theorem Yields.argnext_nil (hyields : Yields args [] argv) :
    ∃ args', argnext args = some (-1, args') ∧ args'.curarg = none ∧ args'.Holds argv := by
  generalize hnone : ([] : List Int) = none' at hyields
  cases hyields with
  | done hcur hargs => exact ⟨_, argnext_of_none hcur, hcur, hargs⟩
  | @more curarg name rest hcur hargs =>
      obtain ⟨hchars, hflags⟩ := List.append_eq_nil_iff.mp hnone.symm
      rw [argnext_of_empty hcur (List.map_eq_nil_iff.mp hchars)]
      exact Holds.nextArg_stop hargs (flags_eq_nil.mp hflags)

theorem Yields.argnext_cons {flag : Int} (hyields : Yields args (flag :: flagsLeft) argv) :
    ∃ args', argnext args = some (flag, args') ∧ Yields args' flagsLeft argv := by
  generalize hsome : flag :: flagsLeft = all at hyields
  cases hyields with
  | done hcur hargs => nomatch hsome
  | @more curarg name rest hcur hargs =>
      obtain ⟨chars, noNul⟩ := curarg
      cases chars with
      | cons c chars =>
          obtain ⟨rfl, rfl⟩ := List.cons.inj hsome
          refine ⟨_, argnext_of_cons hcur, ?_⟩
          exact @Yields.more _ ⟨chars, _⟩ name rest rfl hargs
      | nil =>
          rw [argnext_of_empty hcur rfl]
          obtain hstop | ⟨arg, rest', rfl, harg⟩ := stop_or_cluster rest
          · rw [flags_eq_nil.mpr hstop] at hsome
            nomatch hsome
          · have hargs : Holds { args with argvalue := none } (name :: arg :: rest') := hargs
            obtain ⟨c, cur, args', htail, hnext, hcur', hargs'⟩ := hargs.nextArg_cluster harg
            rw [flags_cons_of_cluster harg, htail] at hsome
            obtain ⟨rfl, rfl⟩ := List.cons.inj hsome
            rw [operands_cons_of_cluster harg]
            exact ⟨args', hnext, .more hcur' hargs'⟩

theorem Yields.argnexts (hyields : Yields args flagsLeft argv) (n : Nat) :
    ∃ args', argnexts n args = some ((flagsLeft ++ List.replicate n (-1)).take n, args') ∧
      (flagsLeft.length < n → args'.Holds argv) := by
  induction n generalizing args flagsLeft with
  | zero => exact ⟨args, rfl, nofun⟩
  | succ n ih =>
      cases flagsLeft with
      | nil =>
          obtain ⟨args', hnext, hcur, hargs⟩ := hyields.argnext_nil
          obtain ⟨args'', hmore, hholds⟩ := ih (.done hcur hargs)
          refine ⟨args'', ?_, fun _ => ?_⟩
          · rw [ZynexOS.argnexts, hnext]
            show (argnexts n args' >>= _) = _
            rw [hmore]
            simp [List.replicate_succ]
          · cases n with
            | zero =>
                obtain rfl : args' = args'' := (Prod.ext_iff.mp (Option.some.inj hmore)).2
                exact hargs
            | succ n => exact hholds (Nat.succ_pos n)
      | cons flag flagsLeft =>
          obtain ⟨args', hnext, hyields'⟩ := hyields.argnext_cons
          obtain ⟨args'', hmore, hholds⟩ := ih hyields'
          refine ⟨args'', ?_, fun hlen => hholds (Nat.lt_of_succ_lt_succ hlen)⟩
          rw [ZynexOS.argnexts, hnext]
          show (argnexts n args' >>= _) = _
          have hend : n ≤ (flagsLeft ++ List.replicate n (-1 : Int)).length := by
            rw [List.length_append, List.length_replicate]
            exact Nat.le_add_left n _
          rw [hmore, List.cons_append, List.take_succ_cons, List.replicate_succ', ← List.append_assoc,
            List.take_append_of_le_length hend]
          rfl

structure Parsing (args : Argstate) (argv : List CStr) : Prop where
  holds : ∃ argv', args.Holds argv' ∧ argv'.take 1 = argv.take 1 ∧ argv'.tail <:+ argv.tail
  named : args.curarg ≠ none → argv ≠ []

theorem Parsing.holds_cons (hparsing : Parsing args argv) (hcur : args.curarg ≠ none) :
    ∃ name rest, args.Holds (name :: rest) ∧ argv.take 1 = [name] ∧ rest <:+ argv.tail := by
  obtain ⟨argv', hargs, hname, hsuffix⟩ := hparsing.holds
  have hsome := hparsing.named hcur
  cases argv' with
  | nil => exact absurd (by simpa using hname.symm) hsome
  | cons name rest => exact ⟨name, rest, hargs, hname.symm, hsuffix⟩

theorem Parsing.of_suffix {name : CStr} {rest rest' : List CStr} {args' : Argstate}
    (hname : argv.take 1 = [name]) (hsuffix : rest <:+ argv.tail) (hless : rest' <:+ rest)
    (hargs' : args'.Holds (name :: rest')) : Parsing args' argv :=
  ⟨⟨name :: rest', hargs', hname.symm, hless.trans hsuffix⟩, fun _ hnil => by simp [hnil] at hname⟩

theorem Parsing.argnext (hparsing : Parsing args argv) :
    ∃ c args', argnext args = some (c, args') ∧ Parsing args' argv := by
  cases hcur : args.curarg with
  | none => exact ⟨-1, _, argnext_of_none hcur, hparsing.holds, fun h => absurd hcur h⟩
  | some curarg =>
      obtain ⟨name, rest, hargs, hname, hsuffix⟩ := hparsing.holds_cons (by simp [hcur])
      have hargs : Holds { args with argvalue := none } (name :: rest) := hargs
      obtain ⟨chars, noNul⟩ := curarg
      cases chars with
      | cons c chars =>
          exact ⟨_, _, argnext_of_cons hcur, .of_suffix hname hsuffix (List.suffix_refl _) hargs⟩
      | nil =>
          rw [argnext_of_empty hcur rfl]
          obtain hstop | ⟨arg, rest', rfl, harg⟩ := stop_or_cluster rest
          · obtain ⟨args', hnext, -, hargs'⟩ := hargs.nextArg_stop hstop
            exact ⟨-1, args', hnext, .of_suffix hname hsuffix (operands_suffix rest) hargs'⟩
          · obtain ⟨c, cur, args', -, hnext, -, hargs'⟩ := hargs.nextArg_cluster harg
            exact ⟨_, args', hnext, .of_suffix hname hsuffix (List.suffix_cons arg rest') hargs'⟩

theorem Parsing.argnextvalue (hparsing : Parsing args argv) :
    ∃ value args', argnextvalue args = some (value, args') ∧ Parsing args' argv := by
  unfold ZynexOS.argnextvalue
  cases hcur : args.curarg with
  | none => exact ⟨none, args, rfl, hparsing⟩
  | some curarg =>
      obtain ⟨name, rest, hargs, hname, hsuffix⟩ := hparsing.holds_cons (by simp [hcur])
      simp only [CStr.char_zero]
      show ∃ value args', (if curarg.chars.headD 0 ≠ 0 then _ else _) = _ ∧ _
      split
      · exact ⟨_, _, rfl, .of_suffix hname hsuffix (List.suffix_refl _) hargs⟩
      · cases rest with
        | nil =>
            rw [if_neg (by rw [hargs.1]; exact Nat.lt_irrefl 1)]
            exact ⟨_, _, rfl, .of_suffix hname hsuffix (List.suffix_refl _) hargs⟩
        | cons arg rest =>
            obtain ⟨args', hshift, hargs', -⟩ := hargs.shift
            rw [if_pos (by rw [hargs.1]; simp), hargs.first, hshift]
            exact ⟨_, _, rfl, .of_suffix hname hsuffix (List.suffix_cons arg rest) hargs'⟩

theorem Parsing.afterCall (hparsing : Parsing args argv) (call : ArgCall) :
    ∃ args', afterCall args call = some args' ∧ Parsing args' argv := by
  cases call with
  | argnext =>
      obtain ⟨c, args', hnext, hparsing'⟩ := hparsing.argnext
      exact ⟨args', congrArg (Option.map _) hnext, hparsing'⟩
  | argnextvalue =>
      obtain ⟨value, args', hnext, hparsing'⟩ := hparsing.argnextvalue
      exact ⟨args', congrArg (Option.map _) hnext, hparsing'⟩
  | argvalue =>
      show ∃ args', (ZynexOS.argvalue args).map _ = _ ∧ _
      unfold ZynexOS.argvalue
      split
      · exact ⟨args, rfl, hparsing⟩
      · obtain ⟨value, args', hnext, hparsing'⟩ := hparsing.argnextvalue
        exact ⟨args', congrArg (Option.map _) hnext, hparsing'⟩

theorem Parsing.calls (hparsing : Parsing args argv) (calls : List ArgCall) :
    ∃ args', calls.foldlM ZynexOS.afterCall args = some args' ∧ Parsing args' argv := by
  induction calls generalizing args with
  | nil => exact ⟨args, rfl, hparsing⟩
  | cons call calls ih =>
      obtain ⟨args', hcall, hparsing'⟩ := hparsing.afterCall call
      rw [List.foldlM_cons, hcall]
      exact ih hparsing'

end Flags

theorem argsOf_holds (argv : List CStr) : (argsOf argv).Holds argv := ⟨rfl, [], rfl⟩

theorem argsOf_parsing (argv : List CStr) : Parsing (argsOf argv) argv := by
  refine ⟨⟨argv, argsOf_holds argv, rfl, List.suffix_refl _⟩, ?_⟩
  rintro hcur rfl
  exact hcur rfl

theorem argsOf_yields (argv : List CStr) :
    Yields (argsOf argv) (flags argv.tail) (argv.take 1 ++ operands argv.tail) := by
  match argv with
  | [] => exact .done rfl (argsOf_holds [])
  | [name] => exact .done rfl (argsOf_holds [name])
  | name :: arg :: rest =>
      have hcur : (argsOf (name :: arg :: rest)).curarg = some .empty := by
        simp [argsOf, argstart]
      exact Yields.more hcur (argsOf_holds (name :: arg :: rest))

/-- Whatever is called, the vector keeps its name and its end and only loses arguments in front; and
`argnext` returns the flags, and leaves the operands. -/
theorem args_parsed (argv : List CStr) :
    (∀ calls : List ArgCall, ∃ args argv', calls.foldlM afterCall (argsOf argv) = some args ∧
      args.Holds argv' ∧ argv'.take 1 = argv.take 1 ∧ argv'.tail <:+ argv.tail) ∧
    ∀ n, ∃ args, argnexts n (argsOf argv) =
        some ((flags argv.tail ++ List.replicate n (-1)).take n, args) ∧
      ((flags argv.tail).length < n → args.Holds (argv.take 1 ++ operands argv.tail)) := by
  refine ⟨fun calls => ?_, (argsOf_yields argv).argnexts⟩
  obtain ⟨args, hcalls, hparsing⟩ := (argsOf_parsing argv).calls calls
  obtain ⟨argv', hargs, hname, hsuffix⟩ := hparsing.holds
  exact ⟨args, argv', hcalls, hargs, hname, hsuffix⟩

end ZynexOS
