import ZynexOS.Lib.InitStack
import ZynexOS.Lib.MapSegment

/-!
# `spawn`

`spawn` of `lib/riscv/spawn.c` with all of its ends. The results of the calls that can fail are inputs;
`close`, `sys_env_destroy` of the own child and `sys_page_unmap` of the own page at `UTEMP` do what they
should. The registers of the child, which are set from `e_entry` and the stack pointer, are left out.
-/

namespace ZynexOS

/-- What `spawn` reads: the program, the arguments, and the memory around `elf_buf`, by the distance from
its start. Reading where nothing is mapped is a fault. -/
structure SpawnInput where
  file : SegmentFile
  argv : List CString
  stack : Nat → Option (BitVec 8)

/-- The results of the calls of `spawn`: `open`, `read` of the header at each position, `sys_exofork`, the
calls of `init_stack`, the calls of `map_segment` for each program header, `sys_copy_shared_pages`,
`sys_env_set_trapframe` and `sys_env_set_status`. -/
structure SpawnIo where
  openFile : Int
  header : Int → Int
  exofork : Int
  stack : StackIo
  segments : Nat → List SegmentIo
  shared : Int
  trapframe : Int
  status : Int

/-- The address spaces, whether the descriptor that `spawn` has opened is open, whether the child that it
has created exists, and the parts of the memory, by the distance from `elf_buf` and the length, that it
has read as program headers. -/
structure SpawnState where
  fam : Family
  fdOpen : Bool
  child : Bool
  headerReads : List (Nat × Nat)

/-! ### The header of the program -/

def elfMemory (x : SpawnInput) (elfBuf : Nat → BitVec 8) (a : Nat) : Option (BitVec 8) :=
  if a < 512 then some (elfBuf a) else x.stack a

def loadField (mem : Nat → Option (BitVec 8)) (a : Nat) : Nat → Option Nat
  | 0 => some 0
  | n + 1 => do
      let byte ← mem (uint64 a)
      let rest ← loadField mem (a + 1) n
      some (byte.toNat + 256 * rest)

structure Elf where
  phoff : Nat
  phnum : Nat

def elfMagic : Nat := 0x464C457F

def readElf (mem : Nat → Option (BitVec 8)) : Option Elf := do
  let phoff ← loadField mem 32 8
  let phnum ← loadField mem 56 2
  some ⟨phoff, phnum⟩

def Elf.header (elf : Elf) (i : Nat) : Nat := uint64 (elf.phoff + 56 * i)

def segmentPerm (flags : Nat) : Perm where
  read := true
  write := flags.testBit 1
  exec := flags.testBit 0
  user := true
  bit8 := false
  bit9 := false

def readSegment (mem : Nat → Option (BitVec 8)) (a : Nat) : Option Segment := do
  let flags ← loadField mem (a + 4) 4
  let offset ← loadField mem (a + 8) 8
  let va ← loadField mem (a + 16) 8
  let filesz ← loadField mem (a + 32) 8
  let memsz ← loadField mem (a + 40) 8
  some { va, memsz, filesz, fileoffset := int32 offset, perm := segmentPerm flags }

/-! ### The steps -/

namespace Family

def initStack (s : Family) (io : StackIo) (argv : List CString) : Option (Int × Family) := do
  let res ← ZynexOS.initStack io argv
  if res.allocates = false ∨ io.alloc < 0 then some (res.r, s)
  else
    let frame := s.next
    let s := s.pageAlloc .parent pnTemp .readWrite
    match res.page with
    | none => some (res.r, s.set .parent pnTemp none)
    | some page =>
        let s := s.putPage frame fun j => page (utemp + j)
        some (res.r, (s.set .child pnStack (some ⟨frame, .readWrite⟩)).set .parent pnTemp none)

end Family

namespace SpawnState

def loadSegments (x : SpawnInput) (io : SpawnIo) (mem : Nat → Option (BitVec 8)) (elf : Elf) :
    Nat → Nat → SpawnState → Option (Int × SpawnState)
  | 0, _, s => some (0, s)
  | n + 1, i, s => do
      let a := elf.header i
      let type ← loadField mem a 4
      if type ≠ 1 then
        loadSegments x io mem elf n (i + 1) { s with headerReads := (a, 4) :: s.headerReads }
      else
        let seg ← readSegment mem a
        let (r, fam) ← s.fam.mapSegment (io.segments i) x.file seg
        let s := { s with fam := fam, headerReads := (a, 48) :: s.headerReads }
        if r < 0 then some (r, s) else loadSegments x io mem elf n (i + 1) s

def spawnChild (x : SpawnInput) (io : SpawnIo) (mem : Nat → Option (BitVec 8)) (s : SpawnState) :
    Option (Int × SpawnState) := do
  let elf ← readElf mem
  let (r, fam) ← s.fam.initStack io.stack x.argv
  let s := { s with fam := fam }
  if r < 0 then some (r, s)
  else
    let (r, s) ← s.loadSegments x io mem elf elf.phnum 0
    if r < 0 then some (r, { s with child := false, fdOpen := false })
    else if io.shared < 0 ∨ io.trapframe < 0 ∨ io.status < 0 then none
    else some (io.exofork, { s with fdOpen := false, fam := s.fam.copySharedPages })

/-- `spawn`; the result is `none` if it panics, faults or does not return. -/
def spawn (x : SpawnInput) (io : SpawnIo) (s : SpawnState) : Option (Int × SpawnState) :=
  if io.openFile < 0 then some (io.openFile, s)
  else
    let s := { s with fdOpen := true }
    let (r, elfBuf) := x.file.readn io.header 0 512 0 fun j => (x.stack j).getD 0
    let mem := elfMemory x elfBuf
    if r ≠ 512 ∨ loadField mem 0 4 ≠ some elfMagic then some (-14, { s with fdOpen := false })
    else if io.exofork < 0 then some (io.exofork, s)
    else { s with fam := s.fam.exofork, child := true }.spawnChild x io mem

/-! ### What is expected -/

structure Before (s : SpawnState) : Prop where
  fdOpen : s.fdOpen = false
  child : s.child = false
  headerReads : s.headerReads = []

/-- Nothing is left of a `spawn` that has failed, and it has read headers only in `elf_buf`. -/
structure Clean (s : SpawnState) : Prop where
  child : s.child = false
  fdOpen : s.fdOpen = false
  temp : s.fam.space .parent pnTemp = none
  headers : ∀ a n, (a, n) ∈ s.headerReads → a + n ≤ 512

def LeavesNothing (x : SpawnInput) (s : SpawnState) : Prop :=
  ∀ io r s', s.spawn x io = some (r, s') → r < 0 → s'.Clean


end SpawnState

structure SegmentFile.IsElf (file : SegmentFile) : Prop where
  size : 512 ≤ file.size
  magic : loadField (fun a => some (file.bytes a)) 0 4 = some elfMagic

end ZynexOS
