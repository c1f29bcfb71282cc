import ZynexOS.Fs.State
import ZynexOS.Library.Run

/-!
# Pipes

`devpipe_read` and `devpipe_write` of `lib/riscv/pipe.c`, for one process at each end. Every load and
store of `p_rpos`, `p_wpos` and `p_buf` is a step of its own, and the steps of the two processes
interleave in any order. The counters are `off_t`, that is `int32_t`, and wrap around.
-/

namespace ZynexOS

def pipeBufSiz : Nat := 32

structure Pipe where
  rpos : Int
  wpos : Int
  buf : Nat → BitVec 8

namespace Pipe

def slot (pos : Int) : Int := Int.tmod pos pipeBufSiz

def empty (rpos wpos : Int) : Bool := rpos = wpos

/-- `p_wpos >= p_rpos + sizeof(p_buf)`, which is computed in `size_t`. -/
def full (rpos wpos : Int) : Bool := uint64 (rpos + pipeBufSiz) ≤ uint64 wpos

def InBuf (i : Int) : Prop := 0 ≤ i ∧ i < pipeBufSiz

instance (i : Int) : Decidable (InBuf i) := inferInstanceAs (Decidable (_ ∧ _))

end Pipe

inductive ReadPc where
  | idle
  | test (n i : Nat)
  | compare (n i : Nat) (rpos : Int)
  | empty (n i : Nat)
  | index (n i : Nat)
  | fetch (n i : Nat) (rpos : Int)
  | store (n i : Nat) (byte : BitVec 8)
  | bump (n i : Nat)
  | bumped (n i : Nat) (rpos : Int)
  /-- `p_buf` was indexed outside its bounds, and what happens is not defined. -/
  | lost
  | gone
deriving DecidableEq

inductive WritePc where
  | idle
  | test (data : List (BitVec 8)) (i : Nat)
  | compare (data : List (BitVec 8)) (i : Nat) (wpos : Int)
  | full (data : List (BitVec 8)) (i : Nat)
  | index (data : List (BitVec 8)) (i : Nat)
  | fill (data : List (BitVec 8)) (i : Nat) (wpos : Int)
  | bump (data : List (BitVec 8)) (i : Nat)
  | bumped (data : List (BitVec 8)) (i : Nat) (wpos : Int)
  | lost
  | gone
deriving DecidableEq

/-- The pipe and the two processes. `given` is what has been passed to `devpipe_write`, `stored` what
`devpipe_read` has stored into the buffers of its callers, and `written` and `read` are how often the
counters have been incremented. -/
structure PipeSys where
  pipe : Pipe
  reader : ReadPc
  writer : WritePc
  given : List (BitVec 8)
  stored : List (BitVec 8)
  written : Nat
  read : Nat

inductive PipeEvent where
  | callRead (n : Nat)
  | callWrite (data : List (BitVec 8))
  | reader
  | writer
  | closeRead
  | closeWrite

namespace PipeSys

def readNext (n i : Nat) : ReadPc := if i < n then .test n i else .idle

def writeNext (data : List (BitVec 8)) (i : Nat) : WritePc :=
  if i < data.length then .test data i else .idle

/-- One step of `devpipe_read`. The call of `_pipeisclosed` finds out whether the writer has closed its
end. -/
def readStep (s : PipeSys) : Option PipeSys :=
  match s.reader with
  | .test n i => some { s with reader := .compare n i s.pipe.rpos }
  | .compare n i rpos =>
      some { s with reader := if Pipe.empty rpos s.pipe.wpos then .empty n i else .index n i }
  | .empty n i =>
      some { s with reader := if 0 < i ∨ s.writer = .gone then .idle else .test n i }
  | .index n i => some { s with reader := .fetch n i s.pipe.rpos }
  | .fetch n i rpos =>
      some { s with
        reader := if Pipe.InBuf (Pipe.slot rpos) then .store n i (s.pipe.buf (Pipe.slot rpos).toNat)
          else .lost }
  | .store n i byte => some { s with reader := .bump n i, stored := s.stored ++ [byte] }
  | .bump n i => some { s with reader := .bumped n i s.pipe.rpos }
  | .bumped n i rpos =>
      some { s with
        pipe := { s.pipe with rpos := int32 (rpos + 1) }, reader := readNext n (i + 1)
        read := s.read + 1 }
  | .idle | .lost | .gone => none

/-- One step of `devpipe_write`, which loads `buf[i]` from memory that no one else changes. -/
def writeStep (s : PipeSys) : Option PipeSys :=
  match s.writer with
  | .test data i => some { s with writer := .compare data i s.pipe.wpos }
  | .compare data i wpos =>
      some { s with writer := if Pipe.full s.pipe.rpos wpos then .full data i else .index data i }
  | .full data i => some { s with writer := if s.reader = .gone then .idle else .test data i }
  | .index data i => some { s with writer := .fill data i s.pipe.wpos }
  | .fill data i wpos =>
      if Pipe.InBuf (Pipe.slot wpos) then
        some { s with
          pipe := { s.pipe with
            buf := Function.update s.pipe.buf (Pipe.slot wpos).toNat (data.getD i 0) }
          writer := .bump data i }
      else some { s with writer := .lost }
  | .bump data i => some { s with writer := .bumped data i s.pipe.wpos }
  | .bumped data i wpos =>
      some { s with
        pipe := { s.pipe with wpos := int32 (wpos + 1) }, writer := writeNext data (i + 1)
        written := s.written + 1 }
  | .idle | .lost | .gone => none

def exec (s : PipeSys) : PipeEvent → Option PipeSys
  | .callRead n => if s.reader = .idle then some { s with reader := readNext n 0 } else none
  | .callWrite data =>
      if s.writer = .idle then
        some { s with writer := writeNext data 0, given := s.given ++ data }
      else none
  | .reader => s.readStep
  | .writer => s.writeStep
  | .closeRead => some { s with reader := .gone }
  | .closeWrite => some { s with writer := .gone }

def start : PipeSys where
  pipe := ⟨0, 0, fun _ => 0⟩
  reader := .idle
  writer := .idle
  given := []
  stored := []
  written := 0
  read := 0

def Reaches : PipeSys → Prop :=
  Library.Reachable (· = start) (fun s event s' => s.exec event = some s') fun _ _ => True

/-! ### What is expected -/

def storesTo (s : PipeSys) : Option Int :=
  match s.writer with
  | .fill _ _ wpos => some (Pipe.slot wpos)
  | _ => none

/-- The bytes stored by the reader are a prefix of those given to the writer, the counters are at most
`PIPEBUFSIZ` apart, and the writer is not about to overwrite a slot that has not been read. -/
structure Fifo (s : PipeSys) : Prop where
  inOrder : s.stored <+: s.given
  notBehind : 0 ≤ s.pipe.wpos - s.pipe.rpos
  notAhead : s.pipe.wpos - s.pipe.rpos ≤ pipeBufSiz
  noOverwrite : ∀ i, s.storesTo = some i → ∀ pos, s.pipe.rpos ≤ pos → pos < s.pipe.wpos →
    Pipe.slot pos ≠ i

/-- The slots of both counters exist, the reader finds the pipe empty exactly if no byte is pending, and
the writer finds it full exactly if `PIPEBUFSIZ` bytes are. -/
structure CountersRight (s : PipeSys) : Prop where
  readSlot : Pipe.InBuf (Pipe.slot s.pipe.rpos)
  writeSlot : Pipe.InBuf (Pipe.slot s.pipe.wpos)
  empty : Pipe.empty s.pipe.rpos s.pipe.wpos = true ↔ s.written = s.read
  full : Pipe.full s.pipe.rpos s.pipe.wpos = true ↔ s.written = s.read + pipeBufSiz

end PipeSys

end ZynexOS
