import ZynexOS.Kern.Syscall
import ZynexOS.Kern.E1000

/-!
# Accesses through user pointers

Four system calls follow a pointer that their caller passes. Here a call is reduced to the bytes it
accesses through its pointers, in order; a byte that is not mapped is the last one.
-/

namespace ZynexOS

open Library

structure Access where
  addr : Word
  store : Bool
deriving DecidableEq, Repr

namespace Vm

def byte (vm : Vm) (addr : Word) : Option (BitVec 8) :=
  (vm.mem (addr &&& ~~~7)).map fun word : Word => (word >>> (8 * (addr &&& 7).toNat)).setWidth 8

def touch (vm : Vm) (store : Bool) : Nat → Word → List Access
  | 0, _ => []
  | n + 1, addr =>
      { addr := addr, store := store } ::
        if (vm.byte addr).isSome then vm.touch store n (addr + 1) else []

/-- The first `n` iterations of the loop of `vprintfmt` over a string,
`(ch = *p++) != '\0' && (precision < 0 || --precision >= 0)`. -/
def touchString (vm : Vm) : Nat → Int → Word → List Access
  | 0, _, _ => []
  | n + 1, precision, p =>
      { addr := p, store := false } ::
        match vm.byte p with
        | none => []
        | some ch =>
            if ch = 0 then []
            else if precision < 0 then vm.touchString n precision (p + 1)
            else if 0 ≤ precision - 1 then vm.touchString n (precision - 1) (p + 1)
            else []

end Vm

structure NetCard where
  tx : E1000.Tx
  rx : E1000.Rx

def trapframeSize : Nat := 288

namespace Kern

def cputsAccesses (k : Kern) (n : Nat) (s len : Word) : Except Panic (List Access) := do
  let c ← k.cur
  match ← k.userMemAssert c s len (pteU.setWidth 32) with
  | (true, _) => pure []
  | (false, k) =>
      if s = 0 then pure [] else pure (k.vm.touchString n (len.setWidth 32).toInt s)

def setTrapframeAccesses (k : Kern) (envid : BitVec 32) (tf : Word) : Except Panic (List Access) := do
  match ← k.envid2env envid true with
  | none => pure []
  | some _ => pure (k.vm.touch false trapframeSize tf)

/-- `sys_pack_send`, where `len` is an `int` that becomes a `size_t`, and `transmit_pack` below it. -/
def packSendAccesses (k : Kern) (card : NetCard) (data : Word) (len : BitVec 32) :
    Except Panic (List Access) := do
  let c ← k.cur
  let size := len.signExtend 64
  match ← k.userMemAssert c data size (pteU.setWidth 32) with
  | (true, _) => pure []
  | (false, k) =>
      if utop ≤ data ∨ utop ≤ data + size then pure []
      else if (card.tx.txDescBuffer card.tx.tdt).status &&& E1000.txdStatDd = 0 then pure []
      else pure (k.vm.touch false size.toNat data)

/-- `sys_pack_recv`, and `receive_pack` below it: the packet, and then `*len`. -/
def packRecvAccesses (k : Kern) (card : NetCard) (data len : Word) : List Access :=
  if utop ≤ data then []
  else
    let rx := card.rx.rxDescBuffer card.rx.next
    if rx.status &&& E1000.rxdStatDd = 0 then []
    else
      k.vm.touch true rx.length.toNat data ++
        if (List.range rx.length.toNat).all fun i => (k.vm.byte (data + BitVec.ofNat 64 i)).isSome then
          k.vm.touch true 4 len
        else []

def userAccesses (k : Kern) (card : NetCard) (n : Nat) (no a1 a2 : Word) :
    Except Panic (List Access) :=
  match Sysno.ofWord no with
  | some .cputs => k.cputsAccesses n a1 a2
  | some .envSetTrapframe => k.setTrapframeAccesses (a1.setWidth 32) a2
  | some .packSend => k.packSendAccesses card a1 (a2.setWidth 32)
  | some .packRecv => .ok (k.packRecvAccesses card a1 a2)
  | _ => .ok []

end Kern

end ZynexOS
