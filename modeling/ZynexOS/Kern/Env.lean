import ZynexOS.Kern.Pmap

/-!
# Environments

`struct Trapframe`, `struct Env` and the functions of `kern/riscv/env.c`. A `struct Env *` is the
index of the environment in `envs[]`; `curenv` is the environment of the CPU that holds the kernel
lock.
-/

namespace ZynexOS

structure Trapframe where
  sepc : Word := 0
  ra : Word := 0
  sp : Word := 0
  gp : Word := 0
  tp : Word := 0
  t0 : Word := 0
  t1 : Word := 0
  t2 : Word := 0
  s0 : Word := 0
  s1 : Word := 0
  a0 : Word := 0
  a1 : Word := 0
  a2 : Word := 0
  a3 : Word := 0
  a4 : Word := 0
  a5 : Word := 0
  a6 : Word := 0
  a7 : Word := 0
  s2 : Word := 0
  s3 : Word := 0
  s4 : Word := 0
  s5 : Word := 0
  s6 : Word := 0
  s7 : Word := 0
  s8 : Word := 0
  s9 : Word := 0
  s10 : Word := 0
  s11 : Word := 0
  t3 : Word := 0
  t4 : Word := 0
  t5 : Word := 0
  t6 : Word := 0
  status : Word := 0
  stval : Word := 0
  scause : Word := 0
  origA0 : Word := 0
deriving DecidableEq, Inhabited

inductive EnvStatus where
  | free
  | dying
  | runnable
  | running
  | notRunnable
deriving DecidableEq, Inhabited, Repr

inductive EnvType where
  | user
  | fs
  | ns
deriving DecidableEq, Inhabited, Repr

structure Env where
  envTf : Trapframe := {}
  envLink : Option Nat := none
  envId : BitVec 32 := 0
  envParentId : BitVec 32 := 0
  envType : EnvType := .user
  envStatus : EnvStatus := .free
  envRuns : BitVec 32 := 0
  envCpunum : Nat := 0
  envPgdir : Word := 0
  envPgfaultUpcall : Word := 0
  envIpcRecving : Bool := false
  envIpcDstva : Word := 0
  envIpcValue : Word := 0
  envIpcFrom : BitVec 32 := 0
  envIpcPerm : BitVec 32 := 0
deriving Inhabited

structure Kern where
  vm : Vm
  kernPgdir : Word
  envsAddr : Word
  envs : Nat → Env
  envFreeList : Option Nat
  curenv : Option Nat
  sstatus : Word

namespace Kern

def setEnv (k : Kern) (e : Nat) (env : Env) : Kern :=
  { k with envs := Function.update k.envs e env }

def envAddr (k : Kern) (e : Nat) : Word := k.envsAddr + BitVec.ofNat 64 (368 * e)

def cur (k : Kern) : Except Panic Nat :=
  match k.curenv with
  | some e => .ok e
  | none => .error .nullCurenv

def envx (envid : BitVec 32) : Nat := (envid &&& 1023).toNat

/-- `envid2env`; `none` is `-E_BAD_ENV`. -/
def envid2env (k : Kern) (envid : BitVec 32) (checkperm : Bool) : Except Panic (Option Nat) :=
  if envid = 0 then do
    let e ← k.cur
    pure (some e)
  else
    let e := envx envid
    if (k.envs e).envStatus = .free ∨ (k.envs e).envId ≠ envid then pure none
    else if checkperm ∧ some e ≠ k.curenv then do
      let c ← k.cur
      if (k.envs e).envParentId ≠ (k.envs c).envId then pure none else pure (some e)
    else pure (some e)

/-- `env_init`: every entry is free and the list follows the order of `envs[]`. -/
def envInit (k : Kern) : Kern :=
  { k with
    envs := fun e =>
      { k.envs e with envId := 0, envLink := if e + 1 < nEnv then some (e + 1) else none }
    envFreeList := some 0 }

def setupSlots : List Nat :=
  [pd0x upages, pd0x uenvs, pd0x mmiobase] ++ List.range' (pd0x kernbase) (512 - pd0x kernbase)

def copySlot (kernPgdir pgdir : Word) (vm : Vm) (i : Nat) : Except Panic Vm := do
  let pde ← vm.load (entryAddr kernPgdir i)
  vm.store (entryAddr pgdir i) pde

/-- `env_setup_vm`: the new page directory, or `none` for `-E_NO_MEM`. -/
def envSetupVm (k : Kern) : Except Panic (Option Word × Vm) := do
  match ← k.vm.pageAlloc true with
  | (none, vm) => pure (none, vm)
  | (some p, vm) =>
      let pgdir ← vm.kaddr (page2pa p)
      let vm := vm.incRef p
      let vm ← setupSlots.foldlM (copySlot k.kernPgdir pgdir) vm
      -- the self map stores the physical address itself, not a shifted page number
      let vm ← vm.store (entryAddr pgdir (pd0x uvpt)) ((pgdir - kernbase) ||| pteV)
      pure (some pgdir, vm)

def envgenshift : Nat := 12

def nextEnvId (envId : BitVec 32) (e : Nat) : BitVec 32 :=
  let generation := (envId + BitVec.ofNat 32 (2 ^ envgenshift)) &&& ~~~(1023 : BitVec 32)
  let generation := if generation.toInt ≤ 0 then BitVec.ofNat 32 (2 ^ envgenshift) else generation
  generation ||| BitVec.ofNat 32 e

/-- `env_alloc`: `.inl e` on success, `.inr code` for a negative return. -/
def envAlloc (k : Kern) (parentId : BitVec 32) : Except Panic ((Nat ⊕ Int) × Kern) :=
  match k.envFreeList with
  | none => .ok (.inr (-eNoFreeEnv), k)
  | some e => do
      match ← k.envSetupVm with
      | (none, vm) => pure (.inr (-eNoMem), { k with vm := vm })
      | (some pgdir, vm) =>
          let old := k.envs e
          let env := { old with
            envPgdir := pgdir
            envId := nextEnvId old.envId e
            envParentId := parentId
            envType := .user
            envStatus := .runnable
            envRuns := 0
            envTf := { sp := ustacktop, status := k.sstatus ||| 0x20, tp := k.envAddr e }
            envPgfaultUpcall := 0
            envIpcRecving := false }
          pure (.inl e, { { k with vm := vm }.setEnv e env with envFreeList := old.envLink })

/-! ### Loading a program -/

def regionAllocLoop (k : Kern) (e : Nat) (va : Word) (n : Nat) : Except Panic Kern :=
  match n with
  | 0 => .ok k
  | n + 1 => do
      match ← k.vm.pageAlloc false with
      | (none, _) => throw .pageAlloc
      | (some pp, vm) =>
          let pgdir := (k.envs e).envPgdir
          let (ret, vm) ← vm.pageInsert pgdir (some pp) va
            ((pteU ||| pteW ||| pteR ||| pteX).setWidth 32)
          if ret < 0 then throw .pageAlloc
          else
            let pde ← vm.load (entryAddr pgdir (pd0x va))
            let vm ← vm.store (entryAddr k.kernPgdir (pd0x va)) pde
            regionAllocLoop { k with vm := vm } e (va + BitVec.ofNat 64 pgSize) n

def regionAlloc (k : Kern) (e : Nat) (va len : Word) : Except Panic Kern :=
  let va := rounddown va pgSize
  let stop := roundup (va + len) pgSize
  k.regionAllocLoop e va (if va < stop then (stop - va).toNat / pgSize else 0)

structure Proghdr where
  pType : BitVec 32
  pVa : Word
  pFilesz : Word
  pMemsz : Word

structure Image where
  eMagic : BitVec 32
  eEntry : Word
  phdrs : List Proghdr

def elfMagic : BitVec 32 := 0x464C457F

def loadSegment (e : Nat) (k : Kern) (ph : Proghdr) : Except Panic Kern :=
  if ph.pType = 1 then
    if ph.pMemsz < ph.pFilesz then throw .badImage
    else k.regionAlloc e ph.pVa ph.pMemsz
  else pure k

/-- `load_icode`, up to the bytes it copies into the pages it maps. -/
def loadIcode (k : Kern) (e : Nat) (image : Image) : Except Panic Kern := do
  if image.eMagic ≠ elfMagic then throw .badImage
  else
    let k ← image.phdrs.foldlM (loadSegment e) k
    let env := k.envs e
    let k := k.setEnv e { env with envTf := { env.envTf with sepc := image.eEntry } }
    let (pp, vm) ← k.vm.pageAlloc false
    -- neither the page nor the result of page_insert is checked
    let (_, vm) ← vm.pageInsert env.envPgdir pp (ustacktop - BitVec.ofNat 64 pgSize)
      ((pteU ||| pteW ||| pteR).setWidth 32)
    pure { k with vm := vm }

def envCreate (k : Kern) (image : Image) (type : EnvType) : Except Panic Kern := do
  match ← k.envAlloc 0 with
  | (.inr code, _) => throw (.envAlloc code)
  | (.inl e, k) =>
      let k ← k.loadIcode e image
      let env := k.envs e
      let k := k.setEnv e { env with envType := type }
      if type = .fs then
        let vm ← copySlot k.kernPgdir env.envPgdir k.vm (pd0x flashMapAddr)
        pure { k with vm := vm }
      else pure k

/-! ### Freeing an environment -/

def dropTable (vm : Vm) (pa : Word) : Except Panic Vm := do
  let pp ← vm.pa2page pa
  vm.pageDecref pp

def freeLeaf (pgdir pt : Word) (d1 d2 : Nat) (vm : Vm) : Except Panic Vm :=
  (List.range 512).foldlM (fun vm t => do
    let pte ← vm.load (entryAddr pt t)
    if pte &&& pteV = 0 then pure vm else vm.pageRemove pgdir (pgaddr 0 d1 d2 t)) vm

def freeDir2 (pgdir pd2 : Word) (d1 : Nat) (vm : Vm) : Except Panic Vm :=
  (List.range 512).foldlM (fun vm d2 => do
    let pde ← vm.load (entryAddr pd2 d2)
    if pde &&& pteV = 0 then pure vm
    else
      let pt ← vm.kaddr (pteAddr pde)
      let vm ← freeLeaf pgdir pt d1 d2 vm
      let vm ← vm.store (entryAddr pd2 d2) 0
      dropTable vm (pteAddr pde)) vm

def freeDir1 (pgdir pd1 : Word) (vm : Vm) : Except Panic Vm :=
  (List.range 512).foldlM (fun vm d1 => do
    let pde ← vm.load (entryAddr pd1 d1)
    if pde &&& pteV = 0 then pure vm
    else
      let pd2 ← vm.kaddr (pteAddr pde)
      let vm ← freeDir2 pgdir pd2 d1 vm
      let vm ← vm.store (entryAddr pd1 d1) 0
      dropTable vm (pteAddr pde)) vm

/-- Unmap the user part of the address space. Only the tables under slot 0 of the directory are
visited. -/
def freeUser (vm : Vm) (pgdir : Word) : Except Panic Vm := do
  let pde ← vm.load (entryAddr pgdir 0)
  if pde &&& pteV = 0 then pure vm
  else
    let pd1 ← vm.kaddr (pteAddr pde)
    let vm ← freeDir1 pgdir pd1 vm
    let vm ← vm.store (entryAddr pgdir 0) 0
    dropTable vm (pteAddr pde)

def envFree (k : Kern) (e : Nat) : Except Panic Kern := do
  let env := k.envs e
  let vm ← freeUser k.vm env.envPgdir
  let pa ← Vm.paddr env.envPgdir
  let vm ← dropTable vm pa
  let k := { k with vm := vm }.setEnv e
    { env with envPgdir := 0, envStatus := .free, envLink := k.envFreeList }
  pure { k with envFreeList := some e }

end Kern

end ZynexOS
