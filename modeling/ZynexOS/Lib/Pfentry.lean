import ZynexOS.Kern.Machine

/-!
# The page-fault upcall

`_pgfault_upcall` of `lib/riscv/pfentry.S`, instruction by instruction, with the offsets of
`inc/riscv/asm-offset.h`. It starts with the registers that `page_fault_handler` leaves in `env_tf`, on
the memory in which the frame has been pushed. The C handler that it calls is not modelled: it may do
whatever the calling convention allows.
-/

namespace ZynexOS

inductive Reg where
  | ra | sp | gp | tp | t0 | t1 | t2 | s0 | s1 | a0 | a1 | a2 | a3 | a4 | a5 | a6 | a7
  | s2 | s3 | s4 | s5 | s6 | s7 | s8 | s9 | s10 | s11 | t3 | t4 | t5 | t6
deriving DecidableEq, Repr

def Trapframe.reg (tf : Trapframe) : Reg → Word
  | .ra => tf.ra | .sp => tf.sp | .gp => tf.gp | .tp => tf.tp
  | .t0 => tf.t0 | .t1 => tf.t1 | .t2 => tf.t2 | .s0 => tf.s0 | .s1 => tf.s1
  | .a0 => tf.a0 | .a1 => tf.a1 | .a2 => tf.a2 | .a3 => tf.a3
  | .a4 => tf.a4 | .a5 => tf.a5 | .a6 => tf.a6 | .a7 => tf.a7
  | .s2 => tf.s2 | .s3 => tf.s3 | .s4 => tf.s4 | .s5 => tf.s5 | .s6 => tf.s6
  | .s7 => tf.s7 | .s8 => tf.s8 | .s9 => tf.s9 | .s10 => tf.s10 | .s11 => tf.s11
  | .t3 => tf.t3 | .t4 => tf.t4 | .t5 => tf.t5 | .t6 => tf.t6

def Reg.callerSaved : Reg → Bool
  | .ra | .t0 | .t1 | .t2 | .t3 | .t4 | .t5 | .t6
  | .a0 | .a1 | .a2 | .a3 | .a4 | .a5 | .a6 | .a7 => true
  | _ => false

def Reg.pt : Reg → Nat
  | .ra => 8 | .s0 => 64 | .s1 => 72 | .s2 => 144 | .s3 => 152 | .s4 => 160 | .s5 => 168
  | .s6 => 176 | .s7 => 184 | .s8 => 192 | .s9 => 200 | .s10 => 208 | .s11 => 216
  | .sp => 16 | .tp => 32 | .a0 => 80 | .a1 => 88 | .a2 => 96 | .a3 => 104 | .a4 => 112
  | .a5 => 120 | .a6 => 128 | .a7 => 136 | .t0 => 40 | .t1 => 48 | .t2 => 56 | .t3 => 224
  | .t4 => 232 | .t5 => 240 | .t6 => 248 | .gp => 24

def utrapEpc : Nat := 264

def utrapSp : Nat := 272

def utrapSize : Nat := 280

structure UserCpu where
  pc : Word
  regs : Reg → Word
  mem : Word → Option Word

inductive Asm where
  | mv (rd rs : Reg)
  | ld (rd : Reg) (offset : Nat) (rs : Reg)
  | ldSymbol (rd : Reg) (symbol : Word)
  | addi (rd rs : Reg) (imm : Nat)
  | jr (rs : Reg)
  | jalr (rs : Reg) (link : Word)

namespace UserCpu

def set (u : UserCpu) (rd : Reg) (word : Word) : UserCpu :=
  { u with regs := Function.update u.regs rd word }

def load (u : UserCpu) (rd : Reg) (addr : Word) : Option UserCpu := (u.mem addr).map (u.set rd)

def target (u : UserCpu) (rs : Reg) : Word := u.regs rs &&& ~~~1

def step (u : UserCpu) : Asm → Option UserCpu
  | .mv rd rs => some (u.set rd (u.regs rs))
  | .ld rd offset rs => u.load rd (u.regs rs + BitVec.ofNat 64 offset)
  | .ldSymbol rd symbol => u.load rd symbol
  | .addi rd rs imm => some (u.set rd (u.regs rs + BitVec.ofNat 64 imm))
  | .jr rs => some { u with pc := u.target rs }
  | .jalr rs link => some { u.set .ra link with pc := u.target rs }

def run (u : UserCpu) (code : List Asm) : Option UserCpu := code.foldlM step u

def ofFrame (tf : Trapframe) (mem : Word → Option Word) : UserCpu where
  pc := tf.sepc
  regs := tf.reg
  mem := mem

structure Returns (frame : Word) (u u' : UserCpu) : Prop where
  pc : u'.pc = u.regs .ra
  saved : ∀ r, r.callerSaved = false → u'.regs r = u.regs r
  frame : ∀ i < utrapSize / 8, u'.mem (frame + BitVec.ofNat 64 (8 * i)) =
    u.mem (frame + BitVec.ofNat 64 (8 * i))

end UserCpu

def pgfaultUpcallEntry (handler link : Word) : List Asm :=
  [.mv .a0 .sp, .ldSymbol .a1 handler, .jalr .a1 link]

def restoredRegs : List Reg :=
  [.ra, .s0, .s1, .s2, .s3, .s4, .s5, .s6, .s7, .s8, .s9, .s10, .s11, .tp, .a0, .a1, .a2, .a3, .a4,
    .a5, .a6, .a7, .t3, .t4, .t5, .t6, .gp]

def pgfaultUpcallReturn : List Asm :=
  .ld .t0 utrapEpc .sp :: restoredRegs.map (fun r => .ld r r.pt .sp) ++
    [.mv .gp .t0, .ld .t0 Reg.t0.pt .sp, .addi .sp .sp utrapSp, .ld .sp 0 .sp, .jr .gp]

/-- A page fault of the current environment `c` that its handler has dealt with. `kern` is the state in
which `page_fault_handler` is called and `kern'` the one it leaves; the C handler is called in the state
`called` and returns in the state `returned`. -/
structure HandledFault where
  kern : Kern
  kern' : Kern
  c : Nat
  handler : Word
  link : Word
  called : UserCpu
  returned : UserCpu
  current : kern.curenv = some c
  kernel : kern.pageFaultHandler c = .ok (.run, kern')
  /-- The hardware keeps the lowest bit of `sepc` clear. -/
  aligned : (kern.envs c).envTf.sepc &&& 1 = 0
  /-- The fault was not on the exception stack. -/
  outside : ¬ (uxstacktop - BitVec.ofNat 64 pgSize ≤ (kern.envs c).envTf.sp ∧
    (kern.envs c).envTf.sp < uxstacktop)
  call : (UserCpu.ofFrame (popTf (kern'.envs c).envTf) kern'.vm.mem).run
    (pgfaultUpcallEntry handler link) = some called
  returns : UserCpu.Returns (kern'.envs c).envTf.sp called returned

namespace HandledFault

def tf (f : HandledFault) : Trapframe := (f.kern.envs f.c).envTf

def Invisible (f : HandledFault) : Prop :=
  ∃ u, f.returned.run pgfaultUpcallReturn = some u ∧ u.pc = f.tf.sepc ∧ ∀ r, u.regs r = f.tf.reg r

end HandledFault

end ZynexOS
