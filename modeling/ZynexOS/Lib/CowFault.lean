import ZynexOS.Lib.Fork

/-!
# The page fault handler of `fork`

`pgfault` returns, panics, or its `memmove` faults, which it does if the page is not readable.
-/

namespace ZynexOS

inductive HandlerEnd where
  | returned
  | panicked
  | faulted
deriving DecidableEq

def Perm.Readable (perm : Perm) : Prop := perm.read = true ∧ perm.user = true

instance (perm : Perm) : Decidable perm.Readable := inferInstanceAs (Decidable (_ ∧ _))

namespace Family

def pgfaultEnd (s : Family) (memory : Bool) (side : Side) (pn : Nat) : HandlerEnd × Family :=
  if memory then
    let t := s.pageAlloc side pnTemp .all
    match t.space side pn with
    | none => (.faulted, t)
    | some m =>
        if m.perm.Readable then
          let t := { t with data := Function.update t.data s.next (t.data m.frame) }
          match t.pageMap side pnTemp side pn .all with
          | none => (.panicked, t)
          | some t => (.returned, t.set side pnTemp none)
        else (.faulted, t)
  else (.panicked, s)

/-! ### What is expected -/

def CowAt (s : Family) (side : Side) (pn : Nat) (m : Mapping) : Prop :=
  s.space side pn = some m ∧ m.perm.IsCow

structure Privatizes (s : Family) (side : Side) (pn : Nat) (m : Mapping) (s' : Family) : Prop where
  copy : ∃ m', s'.space side pn = some m' ∧ m'.perm.write = true ∧ s'.data m'.frame = s.data m.frame ∧
    ∀ side' pn' m'', s'.space side' pn' = some m'' → m''.frame = m'.frame → side' = side ∧ pn' = pn
  space : ∀ pn', pn' ≠ pn → s'.space side pn' = s.space side pn'
  data : ∀ pn' m', pn' ≠ pn → s.space side pn' = some m' → s'.data m'.frame = s.data m'.frame

structure Handles (s : Family) (side : Side) (pn : Nat) (write : Bool) (e : HandlerEnd) (s' : Family) :
    Prop where
  copies : ∀ m, s.CowAt side pn m → write = true → e = .returned → Privatizes s side pn m s'
  refuses : ¬(write = true ∧ ∃ m, s.CowAt side pn m) → e = .panicked ∧ s'.space = s.space

/-- A write to a copy-on-write page other than `UTEMP`, while nothing is mapped there. If the page is
not readable, the handler does not return. -/
structure CowWrite (s : Family) (side : Side) (pn : Nat) (write : Bool) : Prop where
  write : write = true
  cow : ∃ m, s.CowAt side pn m ∧ (s.space side pnTemp = none ∨ ¬m.perm.Readable)
  notTemp : pn ≠ pnTemp

end Family

end ZynexOS
