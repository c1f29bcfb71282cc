import ZynexOS.Kern.Layout
import ZynexOS.Lib.PipeRefs

/-!
# Duplicating a descriptor

`dup` and `close` of `lib/riscv/fd.c` in one process. Each system call that may need memory gets an
argument that says if there is any. The calls of `dev_close` are recorded.
-/

namespace ZynexOS

structure FdSpace where
  space : Space
  devId : Nat → Nat
  closed : List (Nat × Nat)

def devtab : List Nat := [0x66, 0x73, 0x70, 0x63]

def devPipeId : Nat := 0x70

def Perm.none : Perm := ⟨false, false, false, false, false, false⟩

def uvptPerm (entry : Option Mapping) : Perm := entry.elim .none Mapping.perm

def fdData (i : Int) : Nat := dataPn (fdPn i)

namespace FdSpace

def set (s : FdSpace) (pn : Nat) (entry : Option Mapping) : FdSpace :=
  { s with space := Function.update s.space pn entry }

def pageUnmap (s : FdSpace) (pn : Nat) : FdSpace := s.set pn none

def pageMap (s : FdSpace) (memory : Bool) (src dst : Nat) (perm : Perm) : Int × FdSpace :=
  match s.space src with
  | none => (-eInval, s)
  | some m =>
      if perm.write ∧ ¬m.perm.write then (-eInval, s)
      else if memory then (0, s.set dst (some ⟨m.frame, perm⟩))
      else (-eNoMem, s)

/-- `dev_close` of the descriptor `i`, whose page is `frame`. Other devices than pipes change nothing
in the address space. -/
def devClose (s : FdSpace) (i : Int) (frame : Nat) : FdSpace :=
  let s := { s with closed := (s.devId frame, frame) :: s.closed }
  if s.devId frame = devPipeId then (s.pageUnmap (fdPn i)).pageUnmap (fdData i) else s

def close (s : FdSpace) (i : Int) : FdSpace :=
  if FdInRange i then
    match s.space (fdPn i) with
    | none => s
    | some m => (if s.devId m.frame ∈ devtab then s.devClose i m.frame else s).pageUnmap (fdPn i)
  else s

def dupErr (s : FdSpace) (new : Int) (r : Int) : Int × FdSpace :=
  (r, (s.pageUnmap (fdPn new)).pageUnmap (fdData new))

def dupFd (s : FdSpace) (memory : Bool) (old new : Int) : Int × FdSpace :=
  let (r, s) := s.pageMap memory (fdPn old) (fdPn new) (uvptPerm (s.space (fdPn old)))
  if r < 0 then s.dupErr new r else (new, s)

def dup (s : FdSpace) (memory : Bool × Bool) (old new : Int) : Int × FdSpace :=
  if FdInRange old then
    match s.space (fdPn old) with
    | none => (-eInval, s)
    | some _ =>
        let s := s.close new
        match s.space (fdData old) with
        | none => s.dupFd memory.2 old new
        | some m =>
            let (r, s) := s.pageMap memory.1 (fdData old) (fdData new) m.perm
            if r < 0 then s.dupErr new r else s.dupFd memory.2 old new
  else (-eInval, s)

/-! ### What is expected -/

def Opens (s : FdSpace) (i : Int) : Prop := s.space (fdPn i) ≠ none

structure SameFile (s : FdSpace) (i : Int) (s' : FdSpace) (i' : Int) : Prop where
  fd : s'.space (fdPn i') = s.space (fdPn i)
  data : s'.space (fdData i') = s.space (fdData i)

def HasClosed (s : FdSpace) (i : Int) (s' : FdSpace) : Prop :=
  ∀ m, s.space (fdPn i) = some m → s.devId m.frame ∈ devtab →
    s'.closed = (s.devId m.frame, m.frame) :: s.closed

structure Duplicates (s : FdSpace) (memory : Bool × Bool) (i j : Int) (r : Int) (s' : FdSpace) :
    Prop where
  succeeds : memory = (true, true) → r = j ∧ SameFile s i s' i ∧ SameFile s i s' j ∧
    (s.space (fdPn j) ≠ s.space (fdPn i) → HasClosed s j s') ∧
    ∀ k, FdInRange k → k ≠ i → k ≠ j → SameFile s k s' k
  fails : r < 0 → s'.Opens i

def PipeAt (s : FdSpace) (i : Int) : Prop :=
  ∃ m, s.space (fdPn i) = some m ∧ s.devId m.frame = devPipeId

def NoLeftover (s : FdSpace) (i j : Int) : Prop :=
  s.space (fdData i) ≠ none ∨ s.space (fdData j) = none ∨ s.PipeAt j

end FdSpace

end ZynexOS
