import ZynexOS.Fs.State
import ZynexOS.Lib.Fork

/-!
# The segments of a program

`map_segment` of `lib/riscv/spawn.c`, with `seek` and `readn` of `lib/riscv/fd.c`. The results of the
system calls and of `read` are inputs, one group for each round of the loop; `read` gives at least a byte
unless the file ends, and not more than it is asked for.
-/

namespace ZynexOS

structure SegmentFile where
  bytes : Int → BitVec 8
  size : Nat

structure Segment where
  va : Nat
  memsz : Nat
  filesz : Nat
  fileoffset : Int
  perm : Perm

/-- The results of a round: of `sys_page_alloc`, of `seek`, of `read` at each position of the file, and of
`sys_page_map`. -/
structure SegmentIo where
  alloc : Int
  seek : Int
  read : Int → Int
  map : Int

namespace SegmentFile

def count (file : SegmentFile) (wanted : Int) (pos : Int) (n : Nat) : Nat :=
  min (max 1 wanted.toNat) (min n (file.size - pos).toNat)

def fill (file : SegmentFile) (offset : Int) (tot m : Nat) (page : Nat → BitVec 8) : Nat → BitVec 8 :=
  fun j => if tot ≤ j ∧ j < tot + m then file.bytes (offset + j) else page j

def readn (file : SegmentFile) (io : Int → Int) (offset : Int) (n tot : Nat) (page : Nat → BitVec 8) :
    Int × (Nat → BitVec 8) :=
  if _ : tot < n then
    if io (offset + tot) < 0 then (io (offset + tot), page)
    else
      let m := file.count (io (offset + tot)) (offset + tot) (n - tot)
      if _ : m = 0 then (tot, page)
      else file.readn io offset n (tot + m) (file.fill offset tot m page)
  else (tot, page)
termination_by n - tot

end SegmentFile

def Segment.aligned (seg : Segment) : Segment :=
  let i : Int := seg.va % 4096
  if i ≠ 0 then
    { seg with
      va := uint64 (seg.va - i)
      memsz := uint64 (seg.memsz + i)
      filesz := uint64 (seg.filesz + i)
      fileoffset := int32 (seg.fileoffset - i) }
  else seg

def Segment.pageAt (seg : Segment) (i : Int) : Nat := uint64 (seg.va + i) / 4096

namespace Family

def putPage (s : Family) (frame : Nat) (page : Nat → BitVec 8) : Family :=
  { s with data := Function.update s.data frame page }

/-- A page is read from the file at `UTEMP`, mapped for the child, and unmapped. The result is `none` if
`map_segment` panics. -/
def mapFromFile (s : Family) (file : SegmentFile) (seg : Segment) (io : SegmentIo) (i : Int) :
    Option (Int × Family) :=
  if io.alloc < 0 then some (io.alloc, s)
  else
    let frame := s.next
    let s := s.pageAlloc .parent pnTemp .readWrite
    if io.seek < 0 then some (io.seek, s)
    else
      let (r, page) := file.readn io.read (int32 (seg.fileoffset + i))
        (min 4096 (uint64 (seg.filesz - i))) 0 (s.data frame)
      let s := s.putPage frame page
      if r < 0 then some (r, s)
      else if io.map < 0 then none
      else do
        let s ← s.pageMap .parent pnTemp .child (seg.pageAt i) seg.perm
        some (0, s.set .parent pnTemp none)

def mapRound (s : Family) (file : SegmentFile) (seg : Segment) (io : SegmentIo) (i : Int) :
    Option (Int × Family) :=
  if seg.filesz ≤ uint64 i then
    if io.alloc < 0 then some (io.alloc, s)
    else some (0, s.pageAlloc .child (seg.pageAt i) seg.perm)
  else s.mapFromFile file seg io i

/-- The loop of `map_segment`; the result is `none` if it panics, or if it does not end within the rounds
that `ios` has results for. -/
def mapLoop (file : SegmentFile) (seg : Segment) :
    List SegmentIo → Int → Family → Option (Int × Family)
  | ios, i, s =>
      if uint64 i < seg.memsz then
        match ios with
        | [] => none
        | io :: ios => do
            let (r, s) ← s.mapRound file seg io i
            if r < 0 then some (r, s) else mapLoop file seg ios (int32 (i + 4096)) s
      else some (0, s)

def mapSegment (s : Family) (ios : List SegmentIo) (file : SegmentFile) (seg : Segment) :
    Option (Int × Family) :=
  mapLoop file seg.aligned ios 0 s

/-! ### What is expected -/

def segmentByte (file : SegmentFile) (seg : Segment) (k : Nat) : BitVec 8 :=
  if k < seg.filesz then file.bytes (seg.fileoffset + k) else 0

structure MapsSegment (s : Family) (file : SegmentFile) (seg : Segment) (s' : Family) : Prop where
  mapped : ∀ k < seg.memsz, ∃ m, s'.space .child ((seg.va + k) / 4096) = some m ∧ m.perm = seg.perm ∧
    s'.data m.frame ((seg.va + k) % 4096) = segmentByte file seg k
  space : ∀ pn, (∀ k < seg.memsz, (seg.va + k) / 4096 ≠ pn) → s'.space .child pn = s.space .child pn
  data : ∀ pn m, (∀ k < seg.memsz, (seg.va + k) / 4096 ≠ pn) → s.space .child pn = some m →
    s'.data m.frame = s.data m.frame

end Family

structure Segment.Linked (seg : Segment) (file : SegmentFile) : Prop where
  pgoff : (seg.va : Int) % 4096 = seg.fileoffset % 4096
  filesz : seg.filesz ≤ seg.memsz
  memsz : seg.memsz < 2 ^ 30
  va : seg.va + seg.memsz < 0xfffffd7ff0000000
  offset : 0 ≤ seg.fileoffset
  end_lt : seg.fileoffset + seg.memsz < 2 ^ 31
  file : seg.fileoffset + seg.filesz ≤ file.size

end ZynexOS
