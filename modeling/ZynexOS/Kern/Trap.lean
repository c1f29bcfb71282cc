import ZynexOS.Kern.Syscall

/-!
# Traps

`kern/riscv/trap.c`, for a trap from user mode.
-/

namespace ZynexOS

def sstatusSpp : Word := 0x100

def spp (status : Word) : Bool := status &&& sstatusSpp ≠ 0

/-- How `trap_dispatch` ends: it returns to `trap`, or it does not because of `env_run(curenv)` or
`sched_yield`. -/
inductive TrapExit where
  | back
  | run
  | resched
deriving DecidableEq, Repr

inductive Cause where
  | timer
  | interrupt
  | pageFault
  | breakpoint
  | syscall
  | other
deriving DecidableEq, Repr

def Cause.ofScause (scause : Word) : Cause :=
  if scause.msb then
    if scause.toNat = 2 ^ 63 + 5 then .timer else .interrupt
  else if scause = 12 ∨ scause = 13 ∨ scause = 15 then .pageFault
  else if scause = 3 then .breakpoint
  else if scause = 8 then .syscall
  else .other

namespace Kern

def IsCall (tf : Trapframe) (no : Sysno) : Prop :=
  Cause.ofScause tf.scause = .syscall ∧ Sysno.ofWord tf.a0 = some no

def faultFrame (tf : Trapframe) (faultVa : Word) : List Word :=
  [tf.sp, tf.sepc, tf.scause, tf.t6, tf.t5, tf.t4, tf.t3, tf.s11, tf.s10, tf.s9, tf.s8, tf.s7,
    tf.s6, tf.s5, tf.s4, tf.s3, tf.s2, tf.a7, tf.a6, tf.a5, tf.a4, tf.a3, tf.a2, tf.a1, tf.a0,
    tf.s1, tf.s0, tf.t2, tf.t1, tf.t0, tf.tp, tf.gp, tf.sp, tf.ra, faultVa]

def push (state : Word × Vm) (word : Word) : Except Panic (Word × Vm) := do
  let sp := state.1 - 8
  let vm ← state.2.store sp word
  pure (sp, vm)

def pushFaultFrame (vm : Vm) (tf : Trapframe) : Except Panic (Word × Vm) :=
  if uxstacktop - BitVec.ofNat 64 pgSize ≤ tf.sp ∧ tf.sp < uxstacktop then
    ((0 : Word) :: faultFrame tf tf.stval).foldlM push (tf.sp, vm)
  else (faultFrame tf tf.stval).foldlM push (uxstacktop, vm)

def pageFaultHandler (k : Kern) (c : Nat) : Except Panic (TrapExit × Kern) := do
  let env := k.envs c
  let tf := env.envTf
  if env.envPgfaultUpcall = 0 then
    let (_, k) ← k.envDestroy c
    pure (.resched, k)
  else
    match ← k.userMemAssert c (uxstacktop - 4) 4 (pteW.setWidth 32) with
    | (true, k) => pure (.resched, k)
    | (false, k) =>
        let (sp, vm) ← pushFaultFrame k.vm tf
        match ← { k with vm := vm }.userMemAssert c env.envPgfaultUpcall 4
            ((pteU ||| pteW ||| pteX ||| pteR).setWidth 32) with
        | (true, k) => pure (.resched, k)
        | (false, k) =>
            pure (.run, k.setEnv c { k.envs c with
              envTf := { tf with sp := sp, sepc := env.envPgfaultUpcall, origA0 := 0 } })

def trapDispatch (k : Kern) (dev : Int) (c : Nat) : Except Panic (TrapExit × Kern) :=
  let env := k.envs c
  let tf := env.envTf
  match Cause.ofScause tf.scause with
  | .timer =>
      .ok (.resched, k.setEnv c { env with
        envTf := { tf with scause := tf.scause &&& 0x7fffffffffffffff, origA0 := 0 } })
  | .interrupt =>
      .ok (.back, k.setEnv c { env with
        envTf := { tf with scause := tf.scause &&& 0x7fffffffffffffff } })
  | .pageFault => k.pageFaultHandler c
  | .breakpoint => .ok (.back, k)
  | .syscall => do
      match ← k.syscall dev tf.a0 tf.a1 tf.a2 tf.a3 tf.a4 tf.a5 with
      | (.resched, k) => pure (.resched, k)
      | (.ret ret, k) =>
          let env := k.envs c
          pure (.back, k.setEnv c { env with
            envTf := { env.envTf with a0 := BitVec.ofInt 64 ret, sepc := env.envTf.sepc + 4 } })
  | .other => do
      match ← k.envDestroy c with
      | (true, k) => pure (.resched, k)
      | (false, k) => pure (.back, k)

/-- `trap` for a trap from user mode with the frame `tf`. The result has the environment that the CPU
runs next as `curenv`. -/
def trap (k : Kern) (cpu : Nat) (dev : Int) (tf : Trapframe) : Except Panic Kern := do
  let c ← k.cur
  if (k.envs c).envStatus = .dying then
    let k ← k.envFree c
    { k with curenv := none }.schedYield cpu
  else
    let k := k.setEnv c { k.envs c with envTf := tf }
    match ← k.trapDispatch dev c with
    | (.run, k) => pure (k.envRun cpu c)
    | (.resched, k) => k.schedYield cpu
    | (.back, k) =>
        match k.curenv with
        | none => k.schedYield cpu
        | some e =>
            if (k.envs e).envStatus = .running then pure (k.envRun cpu e) else k.schedYield cpu

end Kern

end ZynexOS
