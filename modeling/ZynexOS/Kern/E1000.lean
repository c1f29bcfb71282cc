import ZynexOS.Kern.Layout
import ZynexOS.Library.Bytes
import ZynexOS.Library.Run
import ZynexOS.Library.Window

/-!
# The network card

`kern/riscv/e1000.c`, and the card that it drives. The card owns the descriptors from `TDH` up to, but
not including, `TDT`, and those from `RDH` up to `RDT`. Addresses are physical. The kernel lock makes
each call of the driver one step.
-/

namespace ZynexOS

open Library

namespace E1000

def bufSize : Nat := 1024

/-! ### Sending -/

def txDescLen : Nat := 32

def txdStatDd : BitVec 8 := 0x01

def txdCmdEop : BitVec 8 := 0x01

def txdCmdRs : BitVec 8 := 0x08

structure TxDesc where
  addr : Nat
  length : BitVec 16
  cmd : BitVec 8
  status : BitVec 8

structure Tx where
  mem : Bytes
  packetBuffer : Nat
  txDescBuffer : Nat → TxDesc
  tdh : Nat
  tdt : Nat

namespace Tx

def row (t : Tx) (i : Nat) : Nat := t.packetBuffer + bufSize * i

def transmitInit (t : Tx) : Tx :=
  { t with
    tdh := 0
    tdt := 0
    txDescBuffer := fun i => { addr := t.row i, length := 0, cmd := 0, status := txdStatDd } }

def transmitPack (t : Tx) (data : List (BitVec 8)) : Int × Tx :=
  let index := t.tdt
  let tx := t.txDescBuffer index
  if tx.status &&& txdStatDd = 0 then (-eNoMem, t)
  else
    (0, { t with
      mem := t.mem.copyList (t.row index) data
      txDescBuffer := Function.update t.txDescBuffer index
        { tx with
          cmd := tx.cmd ||| txdCmdRs ||| txdCmdEop
          status := 0
          length := BitVec.ofNat 16 data.length }
      tdt := (index + 1) % txDescLen })

/-- `sys_pack_send` behind the checks of its arguments; `none` is a panic of the kernel. -/
def sysPackSend (t : Tx) (data : List (BitVec 8)) : Option (Int × Tx) :=
  let (r, t) := t.transmitPack data
  if r < 0 then none else some (r, t)

def packet (t : Tx) (i : Nat) : List (BitVec 8) :=
  t.mem.slice (t.txDescBuffer i).addr (t.txDescBuffer i).length.toNat

def deviceSend (t : Tx) : Option (List (BitVec 8) × Tx) :=
  if t.tdh = t.tdt then none
  else
    let tx := t.txDescBuffer t.tdh
    some (t.packet t.tdh,
      { t with
        txDescBuffer := Function.update t.txDescBuffer t.tdh
          { tx with status := if tx.cmd &&& txdCmdRs = 0 then tx.status else tx.status ||| txdStatDd }
        tdh := (t.tdh + 1) % txDescLen })

def pending (t : Tx) : List Nat := window txDescLen t.tdh (ahead txDescLen t.tdh t.tdt)

end Tx

/-- `accepted` lists the packets for which `transmit_pack` returned 0, in the order of the calls, `call
i` is the number of the call that has filled descriptor `i`, and `sent` lists the calls whose
descriptors the card has sent; `wire` is what it read for them. `boot` is the memory at the start. -/
structure TxSys where
  tx : Tx
  boot : Bytes
  accepted : List (List (BitVec 8))
  call : Nat → Nat
  sent : List Nat
  wire : List (List (BitVec 8))
  panicked : Bool

inductive TxEvent where
  | send (data : List (BitVec 8))
  | device

namespace TxSys

def exec (s : TxSys) : TxEvent → Option TxSys
  | .send data =>
      if s.panicked then none
      else
        match s.tx.sysPackSend data with
        | none => some { s with panicked := true }
        | some (_, tx) =>
            some { s with
              tx := tx
              accepted := s.accepted ++ [data]
              call := Function.update s.call s.tx.tdt s.accepted.length }
  | .device =>
      match s.tx.deviceSend with
      | none => none
      | some (packet, tx) =>
          some { s with
            tx := tx
            sent := s.sent ++ [s.call s.tx.tdh]
            wire := s.wire ++ [packet] }

def Step (s : TxSys) (event : TxEvent) (s' : TxSys) : Prop := s.exec event = some s'

structure Starts (s : TxSys) : Prop where
  init : ∃ t, s.tx = Tx.transmitInit t
  boot : s.boot = s.tx.mem
  accepted : s.accepted = []
  sent : s.sent = []
  wire : s.wire = []
  running : s.panicked = false

/-- The accepted packets are those that the card has sent, followed by those in `[TDH, TDT)`, in the
order of the calls; and no call has stopped the kernel. -/
structure SentInOrder (s : TxSys) : Prop where
  order : List.range s.accepted.length = s.sent ++ s.tx.pending.map s.call
  running : s.panicked = false

/-- The run condition: a packet is only sent while at most 30 of the 32 descriptors are pending. -/
def RoomLeft (s : TxSys) : TxEvent → Prop
  | .send _ => s.tx.pending.length + 1 < txDescLen
  | .device => True

instance (s : TxSys) : (event : TxEvent) → Decidable (s.RoomLeft event)
  | .send _ => inferInstanceAs (Decidable (_ < _))
  | .device => inferInstanceAs (Decidable True)

/-- The buffers of pending descriptors have the bytes that were submitted, what the card has read are
the bytes that were submitted, and nothing outside `packet_buffer` has been written. -/
structure BytesRight (s : TxSys) : Prop where
  pending : ∀ i ∈ s.tx.pending, s.accepted[s.call i]? = some (s.tx.packet i)
  wire : s.wire = s.accepted.take s.wire.length
  outside : ∀ a, a < s.tx.packetBuffer ∨ s.tx.packetBuffer + bufSize * txDescLen ≤ a →
    s.tx.mem a = s.boot a

/-- The run condition: a packet that is accepted ends inside `packet_buffer` and overlaps the packet of
no pending descriptor. -/
def FitsRow (s : TxSys) : TxEvent → Prop
  | .send data => (s.tx.txDescBuffer s.tx.tdt).status &&& txdStatDd ≠ 0 →
      bufSize * s.tx.tdt + data.length ≤ bufSize * txDescLen ∧
      ∀ i ∈ s.tx.pending, bufSize * i + (s.tx.txDescBuffer i).length.toNat ≤ bufSize * s.tx.tdt ∨
        bufSize * s.tx.tdt + data.length ≤ bufSize * i
  | .device => True

instance (s : TxSys) : (event : TxEvent) → Decidable (s.FitsRow event)
  | .send _ => inferInstanceAs (Decidable (_ → _ ∧ _))
  | .device => inferInstanceAs (Decidable True)

end TxSys

/-! ### Receiving -/

def rxDescLen : Nat := 128

def rxdStatDd : BitVec 8 := 0x01

def rxdStatEop : BitVec 8 := 0x02

structure RxDesc where
  bufferAddr : Nat
  length : BitVec 16
  status : BitVec 8

structure Rx where
  mem : Bytes
  receiveBuffer : Nat
  rxDescBuffer : Nat → RxDesc
  rdh : Nat
  rdt : Nat

namespace Rx

def receiveInit (r : Rx) : Rx :=
  { r with
    rdh := 0
    rdt := rxDescLen - 1
    rxDescBuffer := fun i => { bufferAddr := r.receiveBuffer + bufSize * i, length := 0, status := 0 } }

def next (r : Rx) : Nat := (r.rdt + 1) % rxDescLen

def piece (r : Rx) (i : Nat) : List (BitVec 8) :=
  r.mem.slice (r.rxDescBuffer i).bufferAddr (r.rxDescBuffer i).length.toNat

/-- `receive_pack`: the bytes that are copied to the caller, with their number, and 0, or the error. -/
def receivePack (r : Rx) : Except Int (List (BitVec 8)) × Rx :=
  let index := r.next
  if (r.rxDescBuffer index).status &&& rxdStatDd = 0 then (.error (-eNoMem), r)
  else (.ok (r.piece index), { r with rdt := index })

/-- The card stores the first bytes of `rest`, as many as a buffer holds, and says whether this was the
last piece of the frame. It stops at `RDT`. -/
def deviceStore (r : Rx) (rest : List (BitVec 8)) : Option Rx :=
  if r.rdh = r.rdt then none
  else
    let desc := r.rxDescBuffer r.rdh
    let piece := rest.take bufSize
    some { r with
      mem := r.mem.copyList desc.bufferAddr piece
      rxDescBuffer := Function.update r.rxDescBuffer r.rdh
        { desc with
          length := BitVec.ofNat 16 piece.length
          status := if rest.length ≤ bufSize then rxdStatDd ||| rxdStatEop else rxdStatDd }
      rdh := (r.rdh + 1) % rxDescLen }

def stored (r : Rx) : List (List (BitVec 8) × Bool) :=
  (window rxDescLen r.next (ahead rxDescLen r.next r.rdh)).map fun i =>
    (r.piece i, decide ((r.rxDescBuffer i).status &&& rxdStatEop ≠ 0))

end Rx

/-- The frames that are made of these pieces, where `part` is the frame so far. A frame that is not
complete is left out. -/
def reassemble (part : List (BitVec 8)) : List (List (BitVec 8) × Bool) → List (List (BitVec 8))
  | [] => []
  | (piece, true) :: rest => (part ++ piece) :: reassemble [] rest
  | (piece, false) :: rest => reassemble (part ++ piece) rest

/-- `arriving` is the frame that the card is storing with what is left of it, `accepted` lists the
frames that it has stored, and `returned` the packets that `receive_pack` has returned. -/
structure RxSys where
  rx : Rx
  arriving : Option (List (BitVec 8) × List (BitVec 8))
  accepted : List (List (BitVec 8))
  returned : List (List (BitVec 8))

inductive RxEvent where
  | arrive (frame : List (BitVec 8))
  | device
  | receive

def maxFrame : Nat := 1514

namespace RxSys

def exec (s : RxSys) : RxEvent → Option RxSys
  | .arrive frame =>
      if s.arriving = none ∧ 0 < frame.length ∧ frame.length ≤ maxFrame then
        some { s with arriving := some (frame, frame) }
      else none
  | .device =>
      match s.arriving with
      | none => none
      | some (frame, rest) =>
          match s.rx.deviceStore rest with
          | none => none
          | some rx =>
              if rest.length ≤ bufSize then
                some { s with rx := rx, arriving := none, accepted := s.accepted ++ [frame] }
              else some { s with rx := rx, arriving := some (frame, rest.drop bufSize) }
  | .receive =>
      match s.rx.receivePack with
      | (.ok packet, rx) => some { s with rx := rx, returned := s.returned ++ [packet] }
      | (.error _, rx) => some { s with rx := rx }

def Step (s : RxSys) (event : RxEvent) (s' : RxSys) : Prop := s.exec event = some s'

structure Starts (s : RxSys) : Prop where
  init : ∃ r, s.rx = Rx.receiveInit r
  arriving : s.arriving = none
  accepted : s.accepted = []
  returned : s.returned = []

/-- The packets that were returned, followed by the frames that are stored in the ring, are the frames
that the card has accepted. -/
def DeliveredOnce (s : RxSys) : Prop := s.accepted = s.returned ++ reassemble [] s.rx.stored

/-- The run condition: a frame fits into one buffer, and when nothing is stored, `receive_pack` is only
called while the descriptor it looks at has never been used. -/
def OneLap (s : RxSys) : RxEvent → Prop
  | .arrive frame => frame.length ≤ bufSize
  | .device => True
  | .receive => s.rx.stored = [] → (s.rx.rxDescBuffer s.rx.next).status &&& rxdStatDd = 0

instance (s : RxSys) : (event : RxEvent) → Decidable (s.OneLap event)
  | .arrive _ => inferInstanceAs (Decidable (_ ≤ _))
  | .device => inferInstanceAs (Decidable True)
  | .receive => inferInstanceAs (Decidable (_ → _))

end RxSys

end E1000

end ZynexOS
