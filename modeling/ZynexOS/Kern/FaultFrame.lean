import ZynexOS.Kern.Trap

/-!
# The stores of the page fault handler

`page_fault_handler` destroys the environment, or makes a list of stores, one for each word.
-/

namespace ZynexOS

def OnUxstack (addr : Word) : Prop := uxstacktop - BitVec.ofNat 64 pgSize ≤ addr ∧ addr < uxstacktop

instance (addr : Word) : Decidable (OnUxstack addr) := inferInstanceAs (Decidable (_ ∧ _))

def pushed (sp : Word) (n : Nat) : List Word :=
  (List.range n).map fun i => sp - BitVec.ofNat 64 (8 * (i + 1))

def frameStores (tf : Trapframe) : List Word :=
  if OnUxstack tf.sp then pushed tf.sp 36 else pushed uxstacktop 35

inductive FaultExit where
  | destroys
  | frame (stores : List Word)
deriving DecidableEq

namespace Kern

def faultExit (k : Kern) (c : Nat) : Except Panic FaultExit := do
  let env := k.envs c
  if env.envPgfaultUpcall = 0 then pure .destroys
  else
    match ← k.userMemCheck c (uxstacktop - 4) 4 (pteW.setWidth 32 ||| pteU.setWidth 32) with
    | some _ => pure .destroys
    | none => pure (.frame (frameStores env.envTf))

end Kern

end ZynexOS
