import ZynexOS.User.Shell

/-!
# The shell's commands

`runcmd` of `user/sh.c`. What `open`, `pipe` and `fork` return is read from a list, and is 0 once the
list has been used up. Every store to `argv` and `argv0buf` is recorded with its index.
-/

namespace ZynexOS

def maxArgs : Nat := 16

def bufSiz : Nat := 1024

def slash : BitVec 8 := 47

def less : BitVec 8 := 60

def bar : BitVec 8 := 124

def greater : BitVec 8 := 62

inductive Store where
  | argv (i : Nat)
  | argv0buf (i : Nat)
deriving DecidableEq, Repr

def Store.InBounds : Store → Prop
  | argv i => i < maxArgs
  | argv0buf i => i < bufSiz

instance (store : Store) : Decidable store.InBounds := by
  cases store <;> exact Nat.decLt _ _

inductive Stop where
  | tooManyArguments
  | notFollowedByWord (c : Int)
  | openFailed
  | pipeFailed
  | forkFailed
  | badReturn (c : Int)
  | emptyCommand
  | spawn (argv : List (List (BitVec 8)))
deriving DecidableEq, Repr

structure RunEnd where
  stop : Stop
  words : Nat
  stores : List Store
deriving DecidableEq, Repr

structure Shell where
  lexer : Lexer
  argv : List Nat
  io : List Int
  stores : List Store

def nextResult (io : List Int) : Int := io.headD 0

namespace Shell

def stopWith (shell : Shell) (stop : Stop) : Option RunEnd :=
  some ⟨stop, shell.argv.length, shell.stores⟩

def strcpyStores (dst : Nat) (src : List (BitVec 8)) : List Store :=
  (List.range (src.length + 1)).map fun i => .argv0buf (dst + i)

def nameStores (name : List (BitVec 8)) : List Store :=
  if name.head? ≠ some slash then .argv0buf 0 :: strcpyStores 1 name ++ [.argv 0] else []

def commandName (name : List (BitVec 8)) : List (BitVec 8) :=
  if name.head? ≠ some slash then slash :: name else name

def runit (shell : Shell) : Option RunEnd :=
  match shell.argv with
  | [] => shell.stopWith .emptyCommand
  | p :: args => do
      let name ← cstringAt shell.lexer.mem p
      let args ← args.mapM (cstringAt shell.lexer.mem)
      return ⟨.spawn (commandName name :: args), shell.argv.length,
        shell.stores ++ nameStores name ++ [.argv shell.argv.length]⟩

/-- The loop of `runcmd`. `goto again` only sets `argc` to 0. -/
def loop : Nat → Shell → Option RunEnd
  | 0, _ => none
  | fuel + 1, shell => do
      let ((c, t), lexer) ← gettoken shell.lexer
      let shell := { shell with lexer }
      if c = wordCode then
        if shell.argv.length = maxArgs then
          return ⟨.tooManyArguments, shell.argv.length + 1, shell.stores⟩
        else
          loop fuel { shell with
            argv := shell.argv ++ [← t]
            stores := shell.stores ++ [.argv shell.argv.length] }
      else if c = less.toNat ∨ c = greater.toNat then
        let ((c', _), lexer) ← gettoken shell.lexer
        let shell := { shell with lexer }
        if c' ≠ wordCode then shell.stopWith (.notFollowedByWord c)
        else if nextResult shell.io < 0 then shell.stopWith .openFailed
        else loop fuel { shell with io := shell.io.tail }
      else if c = bar.toNat then
        if nextResult shell.io < 0 then shell.stopWith .pipeFailed
        else
          let io := shell.io.tail
          if nextResult io < 0 then shell.stopWith .forkFailed
          else if nextResult io = 0 then loop fuel { shell with argv := [], io := io.tail }
          else shell.runit
      else if c = 0 then shell.runit
      else shell.stopWith (.badReturn c)

end Shell

/-- The loop ends within as many rounds as the memory has bytes, since every round takes a token. -/
def runcmd (lexer : Lexer) (s : Nat) (io : List Int) : Option RunEnd := do
  let lexer' ← gettokenStart lexer s
  Shell.loop (lexer.mem.length + 1) ⟨lexer', [], io, []⟩

/-! ### The same on tokens -/

def runWords (stores : List Store) (words : List (List (BitVec 8))) : RunEnd :=
  match words with
  | [] => ⟨.emptyCommand, 0, stores⟩
  | name :: args => ⟨.spawn (Shell.commandName name :: args), words.length,
      stores ++ Shell.nameStores name ++ [.argv words.length]⟩

def runTokens (stores : List Store) (words : List (List (BitVec 8))) (io : List Int) :
    List Token → RunEnd
  | [] => runWords stores words
  | .word text :: rest =>
      if words.length = maxArgs then ⟨.tooManyArguments, words.length + 1, stores⟩
      else runTokens (stores ++ [.argv words.length]) (words ++ [text]) io rest
  | .symbol c :: rest =>
      if c = less ∨ c = greater then
        match rest with
        | .word _ :: rest =>
            if nextResult io < 0 then ⟨.openFailed, words.length, stores⟩
            else runTokens stores words io.tail rest
        | _ => ⟨.notFollowedByWord c.toNat, words.length, stores⟩
      else if c = bar then
        if nextResult io < 0 then ⟨.pipeFailed, words.length, stores⟩
        else if nextResult io.tail < 0 then ⟨.forkFailed, words.length, stores⟩
        else if nextResult io.tail = 0 then runTokens stores [] io.tail.tail rest
        else runWords stores words
      else ⟨.badReturn c.toNat, words.length, stores⟩

/-- The commands that a line can come to, with the words of the first one read so far. -/
def commands (words : List (List (BitVec 8))) : List Token → List (List (List (BitVec 8)))
  | [] => [words]
  | .word text :: rest => if words.length = maxArgs then [] else commands (words ++ [text]) rest
  | .symbol c :: rest =>
      if c = less ∨ c = greater then
        match rest with
        | .word _ :: rest => commands words rest
        | _ => []
      else if c = bar then words :: commands [] rest
      else []

/-- The words of a command and `NULL` have room in `argv`, and its name with an initial `/` has room
in `argv0buf`. -/
def CommandFits (words : List (List (BitVec 8))) : Prop :=
  words.length < maxArgs ∧
    ∀ name ∈ words.head?, name.head? = some slash ∨ name.length + 2 ≤ bufSiz

instance (words : List (List (BitVec 8))) : Decidable (CommandFits words) := by
  unfold CommandFits
  infer_instance

structure RunEnd.InBounds (out : RunEnd) : Prop where
  stores : ∀ store ∈ out.stores, store.InBounds
  words : maxArgs < out.words → out.stop = .tooManyArguments

/-- Whatever `open`, `pipe` and `fork` return, `runcmd` ends and stays inside its arrays. -/
def StaysInBounds (lexer : Lexer) (s : Nat) : Prop :=
  ∀ io, ∃ out, runcmd lexer s io = some out ∧ out.InBounds

end ZynexOS
