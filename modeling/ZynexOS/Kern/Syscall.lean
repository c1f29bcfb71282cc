import ZynexOS.Kern.UserMem
import ZynexOS.Kern.Sched

/-!
# System calls

`kern/riscv/syscall.c`. The result of a call is the value it returns, or `resched` when it ends in
`sched_yield` and does not return; the state that goes with `resched` is the one `sched_yield` is
called in.
-/

namespace ZynexOS

inductive SysExit where
  | ret (value : Int)
  | resched
deriving DecidableEq, Repr

def envStatusOf : Nat → Option EnvStatus
  | 0 => some .free
  | 1 => some .dying
  | 2 => some .runnable
  | 3 => some .running
  | 4 => some .notRunnable
  | _ => none

def permOk (perm : BitVec 32) : Bool := perm &&& ~~~(pteSyscall.setWidth 32) = 0

def vaOk (va : Word) : Bool := va < utop ∧ va.toNat % pgSize = 0

def widens (perm : BitVec 32) (pte : Word) : Bool :=
  perm &&& pteW.setWidth 32 ≠ 0 ∧ pte &&& pteW = 0

namespace Kern

def userMemAssert (k : Kern) (env : Nat) (va len : Word) (perm : BitVec 32) :
    Except Panic (Bool × Kern) := do
  match ← k.userMemCheck env va len (perm ||| pteU.setWidth 32) with
  | none => pure (false, k)
  | some _ => k.envDestroy env

/-- The console output of `sys_cputs` is not part of the state. -/
def sysCputs (k : Kern) (s len : Word) : Except Panic (SysExit × Kern) := do
  let c ← k.cur
  match ← k.userMemAssert c s len (pteU.setWidth 32) with
  | (true, k) => pure (.resched, k)
  | (false, k) => pure (.ret 0, k)

def sysGetenvid (k : Kern) : Except Panic (SysExit × Kern) := do
  let c ← k.cur
  pure (.ret (k.envs c).envId.toInt, k)

def sysEnvDestroy (k : Kern) (envid : BitVec 32) : Except Panic (SysExit × Kern) := do
  match ← k.envid2env envid true with
  | none => pure (.ret (-eBadEnv), k)
  | some e =>
      match ← k.envDestroy e with
      | (true, k) => pure (.resched, k)
      | (false, k) => pure (.ret 0, k)

def sysExofork (k : Kern) : Except Panic (SysExit × Kern) := do
  let c ← k.cur
  match ← k.envAlloc (k.envs c).envParentId with
  | (.inr code, _) => throw (.envAlloc code)
  | (.inl e, k) =>
      let parent := k.envs c
      let env := { k.envs e with
        envStatus := .notRunnable
        envParentId := parent.envId
        envIpcRecving := false
        envTf := { parent.envTf with
          a0 := 0
          sepc := parent.envTf.sepc + 4
          tp := k.envAddr e }
        envPgfaultUpcall := parent.envPgfaultUpcall }
      pure (.ret env.envId.toInt, k.setEnv e env)

def sysEnvSetStatus (k : Kern) (envid status : BitVec 32) : Except Panic (SysExit × Kern) :=
  match envStatusOf status.toNat with
  | none => .ok (.ret (-eInval), k)
  | some status => do
      match ← k.envid2env envid true with
      | none => pure (.ret (-eBadEnv), k)
      | some e =>
          let env := k.envs e
          if env.envStatus = .runnable ∨ env.envStatus = .notRunnable then
            pure (.ret 0, k.setEnv e { env with envStatus := status })
          else pure (.ret (-eInval), k)

def sysEnvSetPgfaultUpcall (k : Kern) (envid : BitVec 32) (func : Word) :
    Except Panic (SysExit × Kern) := do
  match ← k.envid2env envid true with
  | none => pure (.ret (-eBadEnv), k)
  | some e =>
      if func = 0 then pure (.ret (-eInval), k)
      else pure (.ret 0, k.setEnv e { k.envs e with envPgfaultUpcall := func })

def sysPageAlloc (k : Kern) (envid : BitVec 32) (va : Word) (perm : BitVec 32) :
    Except Panic (Int × Kern) := do
  match ← k.envid2env envid true with
  | none => pure (-eBadEnv, k)
  | some e =>
      if ¬vaOk va then pure (-eInval, k)
      else if ¬permOk perm then pure (-eInval, k)
      else
        let (pp, vm) ← k.vm.pageAlloc true
        let (ret, vm) ← vm.pageInsert (k.envs e).envPgdir pp va perm
        if ret < 0 then
          match pp with
          | none => throw .nullPageInfo
          | some pp =>
              let vm ← vm.pageFree pp
              pure (ret, { k with vm := vm })
        else pure (0, { k with vm := vm })

/-- `sys_page_map`. Unlike `sys_page_alloc` it does not check `perm` against `PTE_SYSCALL`. -/
def sysPageMap (k : Kern) (srcenvid : BitVec 32) (srcva : Word) (dstenvid : BitVec 32)
    (dstva : Word) (perm : BitVec 32) : Except Panic (Int × Kern) := do
  match ← k.envid2env srcenvid true with
  | none => pure (-eBadEnv, k)
  | some src =>
      match ← k.envid2env dstenvid true with
      | none => pure (-eBadEnv, k)
      | some dst =>
          if ¬vaOk srcva then pure (-eInval, k)
          else if ¬vaOk dstva then pure (-eInval, k)
          else
            match ← k.vm.pageLookup (k.envs src).envPgdir srcva with
            | none => pure (-eInval, k)
            | some (pp, slot) =>
                let pte ← k.vm.load slot
                if widens perm pte then pure (-eInval, k)
                else
                  let (ret, vm) ← k.vm.pageInsert (k.envs dst).envPgdir (some pp) dstva perm
                  pure (ret, { k with vm := vm })

def sysPageUnmap (k : Kern) (envid : BitVec 32) (va : Word) : Except Panic (Int × Kern) := do
  match ← k.envid2env envid true with
  | none => pure (-eBadEnv, k)
  | some e =>
      if ¬vaOk va then pure (-eInval, k)
      else
        let vm ← k.vm.pageRemove (k.envs e).envPgdir va
        pure (0, { k with vm := vm })

/-! ### Inter-process communication -/

def ipcDeliver (env : Env) (sender : BitVec 32) (value : Word) (perm : BitVec 32) : Env :=
  { env with
    envIpcFrom := sender
    envIpcValue := value
    envIpcPerm := perm
    envTf := { env.envTf with a0 := 0, sepc := env.envTf.sepc + 4 }
    envStatus := .runnable
    envIpcRecving := false }

/-- The part of `sys_ipc_try_send` for `srcva < UTOP`: map the sender's page for the target, at the
address the target stored last. -/
def ipcSendPage (k : Kern) (c e : Nat) (srcva : Word) (perm : BitVec 32) : Except Panic (Int × Vm) :=
  if srcva.toNat % pgSize ≠ 0 then pure (-eInval, k.vm)
  else if ¬permOk perm then pure (-eInval, k.vm)
  else do
    match ← k.vm.pageLookup (k.envs c).envPgdir srcva with
    | none => pure (-eInval, k.vm)
    | some (pp, slot) =>
        let pte ← k.vm.load slot
        if widens perm pte then pure (-eInval, k.vm)
        else
          let (ret, vm) ← k.vm.pageInsert (k.envs e).envPgdir (some pp) (k.envs e).envIpcDstva perm
          if ret < 0 then pure (-eNoMem, vm) else pure (0, vm)

def sysIpcTrySend (k : Kern) (envid : BitVec 32) (value srcva : Word) (perm : BitVec 32) :
    Except Panic (Int × Kern) := do
  match ← k.envid2env envid false with
  | none => pure (-eBadEnv, k)
  | some e =>
      if ¬(k.envs e).envIpcRecving then pure (-eIpcNotRecv, k)
      else
        let c ← k.cur
        if srcva < utop then
          let (ret, vm) ← k.ipcSendPage c e srcva perm
          let k := { k with vm := vm }
          if ret < 0 then pure (ret, k)
          else pure (0, k.setEnv e (ipcDeliver (k.envs e) (k.envs c).envId value perm))
        else pure (0, k.setEnv e (ipcDeliver (k.envs e) (k.envs c).envId value 0))

/-- `sys_ipc_recv`. A receive that is repeated while one is pending only blocks again; a receive with
`dstva >= UTOP` leaves `env_ipc_dstva` as it was. -/
def sysIpcRecv (k : Kern) (dstva : Word) : Except Panic (SysExit × Kern) := do
  let c ← k.cur
  let env := k.envs c
  if env.envIpcRecving then
    pure (.resched, k.setEnv c { env with envStatus := .notRunnable })
  else if dstva < utop then
    if dstva.toNat % pgSize ≠ 0 then pure (.ret (-eInval), k)
    else pure (.resched, k.setEnv c { env with
      envIpcDstva := dstva, envIpcRecving := true, envStatus := .notRunnable })
  else pure (.resched, k.setEnv c { env with envIpcRecving := true, envStatus := .notRunnable })

/-! ### Page-table helpers for user programs -/

def sysPageClearDirty (k : Kern) (srcenv : BitVec 32) (srcva : Word) (dstenv : BitVec 32)
    (dstva : Word) : Except Panic (Int × Kern) := do
  if srcenv ≠ dstenv ∨ srcva ≠ dstva then throw .assertCaller
  else
    let c ← k.cur
    match ← k.vm.pgdirWalkThrough (k.envs c).envPgdir srcva with
    | none => throw .assertWalk
    | some slot =>
        let pte ← k.vm.load slot
        k.sysPageMap srcenv srcva dstenv dstva ((pte &&& pteSyscall).setWidth 32)

def sysUvptPte (k : Kern) (srcva : Word) : Except Panic (SysExit × Kern) := do
  let c ← k.cur
  match ← k.vm.pgdirWalkThrough (k.envs c).envPgdir srcva with
  | none => pure (.ret 0, k)
  | some slot =>
      let pte ← k.vm.load slot
      pure (.ret (pte.setWidth 32).toInt, k)

def copySharedLoop (k : Kern) (child : BitVec 32) (pgs : List Nat) : Except Panic (Int × Kern) :=
  match pgs with
  | [] => pure (0, k)
  | i :: pgs => do
      let addr : Word := 0xD0000000 + BitVec.ofNat 64 (i * pgSize)
      let c ← k.cur
      match ← k.vm.pgdirWalkThrough (k.envs c).envPgdir addr with
      | none => k.copySharedLoop child pgs
      | some slot =>
          let pte ← k.vm.load slot
          let perm := pte &&& pteSyscall
          if perm &&& pteShare = 0 then k.copySharedLoop child pgs
          else
            let (ret, k) ← k.sysPageMap 0 addr child addr ((pteShare ||| perm ||| pteU).setWidth 32)
            if ret < 0 then pure (ret, k) else k.copySharedLoop child pgs

def sysCopySharedPages (k : Kern) (child : BitVec 32) : Except Panic (Int × Kern) :=
  k.copySharedLoop child (List.range 64)

/-! ### Setting a trap frame -/

def readTrapframe (vm : Vm) (tf : Word) : Except Panic Trapframe := do
  let field := fun i => vm.load (entryAddr tf i)
  pure {
    sepc := ← field 0, ra := ← field 1, sp := ← field 2, gp := ← field 3, tp := ← field 4, t0 := ← field 5
    t1 := ← field 6, t2 := ← field 7, s0 := ← field 8, s1 := ← field 9, a0 := ← field 10, a1 := ← field 11
    a2 := ← field 12, a3 := ← field 13, a4 := ← field 14, a5 := ← field 15, a6 := ← field 16
    a7 := ← field 17, s2 := ← field 18, s3 := ← field 19, s4 := ← field 20, s5 := ← field 21
    s6 := ← field 22, s7 := ← field 23, s8 := ← field 24, s9 := ← field 25, s10 := ← field 26
    s11 := ← field 27, t3 := ← field 28, t4 := ← field 29, t5 := ← field 30, t6 := ← field 31
    status := ← field 32, stval := ← field 33, scause := ← field 34, origA0 := ← field 35 }

/-- `sys_env_set_trapframe`: the frame is stored as the caller supplies it. -/
def sysEnvSetTrapframe (k : Kern) (envid : BitVec 32) (tf : Word) :
    Except Panic (SysExit × Kern) := do
  match ← k.envid2env envid true with
  | none => pure (.ret (-eBadEnv), k)
  | some e =>
      let frame ← readTrapframe k.vm tf
      pure (.ret 0, k.setEnv e { k.envs e with envTf := frame })

/-! ### The dispatcher -/

end Kern

inductive Sysno where
  | cputs | cgetc | getenvid | envDestroy | pageAlloc | pageMap | pageUnmap | exofork
  | envSetStatus | envSetTrapframe | yield | envSetPgfaultUpcall | ipcTrySend | ipcRecv
  | pageClearDirty | uvptPte | copySharedPages | disableIrq | enableIrq | timeMsec
  | packSend | packRecv
deriving DecidableEq, Repr

def Sysno.all : List Sysno :=
  [.cputs, .cgetc, .getenvid, .envDestroy, .pageAlloc, .pageMap, .pageUnmap, .exofork,
    .envSetStatus, .envSetTrapframe, .yield, .envSetPgfaultUpcall, .ipcTrySend, .ipcRecv,
    .pageClearDirty, .uvptPte, .copySharedPages, .disableIrq, .enableIrq, .timeMsec,
    .packSend, .packRecv]

def Sysno.ofWord (n : Word) : Option Sysno := Sysno.all[n.toNat]?

namespace Kern

def returns (result : Except Panic (Int × Kern)) : Except Panic (SysExit × Kern) := do
  let (ret, k) ← result
  pure (.ret ret, k)

/-- `syscall`. The value of a call that only talks to a device is `dev`. The return value of
`sys_ipc_recv` is dropped, and the message of `sys_ipc_try_send` is narrowed to 32 bits. -/
def syscall (k : Kern) (dev : Int) (no a1 a2 a3 a4 a5 : Word) : Except Panic (SysExit × Kern) :=
  match Sysno.ofWord no with
  | none => .ok (.ret (-eInval), k)
  | some .cputs => k.sysCputs a1 a2
  | some .getenvid => k.sysGetenvid
  | some .envDestroy => k.sysEnvDestroy (a1.setWidth 32)
  | some .yield => .ok (.resched, k)
  | some .exofork => k.sysExofork
  | some .envSetStatus => k.sysEnvSetStatus (a1.setWidth 32) (a2.setWidth 32)
  | some .pageAlloc => returns (k.sysPageAlloc (a1.setWidth 32) a2 (a3.setWidth 32))
  | some .pageMap => returns (k.sysPageMap (a1.setWidth 32) a2 (a3.setWidth 32) a4 (a5.setWidth 32))
  | some .pageUnmap => returns (k.sysPageUnmap (a1.setWidth 32) a2)
  | some .envSetTrapframe => k.sysEnvSetTrapframe (a1.setWidth 32) a2
  | some .envSetPgfaultUpcall => k.sysEnvSetPgfaultUpcall (a1.setWidth 32) a2
  | some .ipcTrySend =>
      returns (k.sysIpcTrySend (a1.setWidth 32) ((a2.setWidth 32).setWidth 64) a3 (a4.setWidth 32))
  | some .ipcRecv => do
      match ← k.sysIpcRecv a1 with
      | (.resched, k) => pure (.resched, k)
      | (.ret _, k) => pure (.ret 0, k)
  | some .pageClearDirty =>
      returns (k.sysPageClearDirty (a1.setWidth 32) a2 (a3.setWidth 32) a4)
  | some .uvptPte => k.sysUvptPte a1
  | some .copySharedPages => returns (k.sysCopySharedPages (a1.setWidth 32))
  | some .cgetc | some .disableIrq | some .enableIrq | some .timeMsec | some .packSend
  | some .packRecv => .ok (.ret dev, k)

end Kern

end ZynexOS
