import ZynexOS.Kern.Syscall
import ZynexOS.Library.Chain
import ZynexOS.Library.Run

/-! # The table of environments over time -/

namespace ZynexOS

open Library

inductive EnvOp where
  | enter (cur : Option Nat) (vm : Vm)
  | alloc (parentId : BitVec 32)
  | exofork
  | setStatus (envid status : BitVec 32)
  | destroy (e : Nat)
  | free (e : Nat)
  | yield (cpu : Nat)

namespace Kern

def apply (k : Kern) : EnvOp → Except Panic Kern
  | .enter cur vm => pure { k with curenv := cur, vm := vm }
  | .alloc parentId => do
      let (_, k) ← k.envAlloc parentId
      pure k
  | .exofork => do
      let (_, k) ← k.sysExofork
      pure k
  | .setStatus envid status => do
      let (_, k) ← k.sysEnvSetStatus envid status
      pure k
  | .destroy e => do
      let (_, k) ← k.envDestroy e
      pure k
  | .free e => k.envFree e
  | .yield cpu => k.schedYield cpu

def EnvOp.InTable : EnvOp → Prop
  | .destroy e | .free e => e < nEnv
  | _ => True

def EnvStep (k : Kern) (op : EnvOp) (k' : Kern) : Prop := EnvOp.InTable op ∧ k.apply op = .ok k'

def EnvsReady (k : Kern) : Prop :=
  ∃ vm kernPgdir envsAddr sstatus, k = Kern.envInit
    { vm := vm, kernPgdir := kernPgdir, envsAddr := envsAddr, envs := fun _ => {}
      envFreeList := none, curenv := none, sstatus := sstatus }

/-- `env_free_list` is a list without duplicates of exactly the entries that are `ENV_FREE`. -/
def FreeListAgrees (k : Kern) : Prop :=
  ∃ l, Chain (fun e => (k.envs e).envLink) k.envFreeList l ∧ l.Nodup ∧
    ∀ e, e ∈ l ↔ e < nEnv ∧ (k.envs e).envStatus = .free

/-- `sys_env_set_status` is not made to store `ENV_FREE`. -/
def StoresNoFree (k : Kern) : EnvOp → Prop
  | .setStatus envid status => status = 0 → ∀ e, k.envid2env envid true = .ok (some e) →
      (k.envs e).envStatus ≠ .runnable ∧ (k.envs e).envStatus ≠ .notRunnable
  | _ => True

end Kern

/-! ### Identifiers -/

/-- The identifiers that `env_alloc` gave to one entry, newest first. `now` is the one of the
environment that has not been freed yet. -/
structure Incarnations where
  now : Option (BitVec 32) := none
  past : List (BitVec 32) := []

namespace Incarnations

def ids (slot : Incarnations) : List (BitVec 32) := slot.now.toList ++ slot.past

def alloc (slot : Incarnations) (id : BitVec 32) : Incarnations := ⟨some id, slot.ids⟩

def free (slot : Incarnations) : Incarnations := ⟨none, slot.ids⟩

end Incarnations

structure IdState where
  kern : Kern
  slots : Nat → Incarnations

structure KeepsIds (k k' : Kern) : Prop where
  ids : ∀ e, (k'.envs e).envId = (k.envs e).envId
  links : ∀ e, (k'.envs e).envLink = (k.envs e).envLink
  head : k'.envFreeList = k.envFreeList
  free : ∀ e, (k.envs e).envStatus = .free → (k'.envs e).envStatus = .free

inductive IdStep : IdState → IdState → Prop where
  | alloc {s : IdState} {parentId : BitVec 32} {e : Nat} {k' : Kern}
      (hcall : s.kern.envAlloc parentId = .ok (.inl e, k')) :
      IdStep s ⟨k', Function.update s.slots e ((s.slots e).alloc (k'.envs e).envId)⟩
  | full {s : IdState} {parentId : BitVec 32} {code : Int} {k' : Kern}
      (hcall : s.kern.envAlloc parentId = .ok (.inr code, k')) : IdStep s ⟨k', s.slots⟩
  | free {s : IdState} {e : Nat} {k' : Kern} (he : e < nEnv) (hcall : s.kern.envFree e = .ok k') :
      IdStep s ⟨k', Function.update s.slots e (s.slots e).free⟩
  | other {s : IdState} {k' : Kern} (hkeeps : KeepsIds s.kern k') : IdStep s ⟨k', s.slots⟩

def IdReached (s : IdState) : Prop :=
  ∃ k, Kern.EnvsReady k ∧ Relation.ReflTransGen IdStep ⟨k, fun _ => {}⟩ s

end ZynexOS
