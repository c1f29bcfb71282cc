import ZynexOS.Fs.WellFormed

/-!
# Making a disk image

`fs/fsformat.c`. The disk is mapped where the file server has its block cache, and the directory
entries are collected in memory that `malloc` returned.
-/

namespace ZynexOS

open Library

namespace Fs

inductive FormatPanic where
  | usage
  | outOfDiskBlocks
  | tooManyEntries
  | tooLarge (path : Name)
deriving DecidableEq, Repr

/-- `strrchr(name, '/') + 1`, or the whole name if there is no slash. -/
def baseName (path : Name) : Name := (path.reverse.takeWhile (· ≠ slash)).reverse

/-- A regular file of the host, with the path by which `open` finds it: the path has no zero byte, and
its last component is neither empty nor longer than `NAME_MAX`. -/
structure HostFile where
  path : Name
  content : List (BitVec 8)
  nonzero : 0 ∉ path
  named : baseName path ≠ []
  short : (baseName path).length ≤ 255

def HostFile.name (h : HostFile) : Name := baseName h.path

def HostFile.size (h : HostFile) : Nat := h.content.length

structure Format where
  mem : Bytes
  diskpos : Nat
  n : Nat

def maxDirEnts : Nat := 128

def entsAddr : Nat := 0x1000000

def roundup (n : Nat) : Nat :=
  let last := uint32 (n - 1)
  uint32 (last + 4096 - (last % 4096 : Nat))

def roundupInt (n : Int) : Int := n - 1 + 4096 - Int.tmod (n - 1) 4096

namespace Format

def alloc (nblocks bytes : Nat) (s : Format) : Except FormatPanic (Nat × Format) :=
  let diskpos := s.diskpos + roundup bytes
  if nblocks ≤ blockOf diskpos then .error .outOfDiskBlocks
  else .ok (s.diskpos, { s with diskpos := diskpos })

/-- `opendisk`, when `malloc` and the rest of memory have the contents `heap`. The disk is zeroed by
`ftruncate`. -/
def openDisk (nblocks : Nat) (heap : Bytes) : Except FormatPanic Format := do
  let s : Format := ⟨heap.fill (blockAddr 0) (nblocks * 4096) 0, blockAddr 0, 0⟩
  let (_, s) ← s.alloc nblocks 4096
  let (super, s) ← s.alloc nblocks 4096
  let mem := s.mem.storeNat super 4 fsMagic
  let mem := mem.storeNat (super + 4) 4 nblocks
  let mem := mem.storeNat (typeAddr (super + 8)) 4 fTypeDir
  let mem := mem.copyList (super + 8) [slash, 0]
  let nbitblocks := (nblocks + 32767) / 32768
  let (bitmap, s) ← { s with mem := mem }.alloc nblocks (nbitblocks * 4096)
  pure { s with mem := s.mem.fill bitmap (nbitblocks * 4096) 0xff }

def finishFile (nblocks f start len : Nat) (s : Format) : Except FormatPanic Format :=
  let mem := s.mem.storeNat (sizeAddr f) 4 len
  let count := roundup len / 4096
  let mem := mem.storeRun (directAddr f 0) start (min count nDirect)
  if min count nDirect = nDirect then do
    let (ind, s) ← { s with mem := mem }.alloc nblocks 4096
    let mem := s.mem.storeNat (indirectAddr f) 4 (blockOf ind)
    pure { s with mem := mem.storeRun ind (start + nDirect) (count - nDirect) }
  else .ok { s with mem := mem }

/-- `diradd`; the name is copied with its terminating zero, however long it is. -/
def dirAdd (type : Nat) (name : Name) (s : Format) : Except FormatPanic (Nat × Format) :=
  let out := entsAddr + 256 * s.n
  if maxDirEnts < s.n + 1 then .error .tooManyEntries
  else
    let mem := s.mem.copyList out (name ++ [0])
    .ok (out, { s with mem := mem.storeNat (typeAddr out) 4 type, n := s.n + 1 })

def writeFile (nblocks : Nat) (s : Format) (h : HostFile) : Except FormatPanic Format :=
  if maxFileSize ≤ h.size then .error (.tooLarge h.path)
  else do
    let (f, s) ← s.dirAdd 0 h.name
    let (start, s) ← s.alloc nblocks h.size
    finishFile nblocks f (blockOf start) h.size { s with mem := s.mem.copyList start h.content }

def finishDir (nblocks : Nat) (s : Format) : Except FormatPanic Format := do
  let size := s.n * 256
  let (start, s) ← s.alloc nblocks size
  finishFile nblocks rootAddr (blockOf start) (roundupInt size).toNat
    { s with mem := s.mem.move start entsAddr size }

def clearBits (mem : Bytes) : Nat → Bytes
  | 0 => mem
  | i + 1 =>
      let mem := clearBits mem i
      mem.storeNat (bitmapAddr i) 4
        (mem.loadNat (bitmapAddr i) 4 &&& (0xffffffff ^^^ 1 <<< (i % 32)))

def finishDisk (s : Format) : Format :=
  { s with mem := clearBits s.mem (blockOf s.diskpos) }

end Format

def fsformat (heap : Bytes) (nblocks : Nat) (files : List HostFile) : Except FormatPanic Format :=
  if nblocks < 2 ∨ 1024 < nblocks then .error .usage
  else do
    let s ← Format.openDisk nblocks heap
    let s ← files.foldlM (Format.writeFile nblocks) s
    let s ← s.finishDir nblocks
    pure s.finishDisk

/-! ### What the bitmap says -/

namespace View

def blocks (v : View) (f : Nat) : Nat := ((v.fileSize f).toNat + 4095) / 4096

/-- The pointer is the one of the indirect block, or that of a block within the size of the file. -/
def Within (v : View) (f : Nat) : Index → Prop
  | .indirect => True
  | .data i => i < v.blocks f

structure Refers (v : View) (f : Nat) (idx : Index) (b : Nat) : Prop where
  reach : v.Reach f
  within : v.Within f idx
  ptr : v.ptr f idx = b
  nonzero : b ≠ 0

/-- The blocks in use are block 0, the superblock, the bitmap and those that are referred to, and no
block is referred to twice. -/
structure ExactBitmap (v : View) : Prop where
  used : ∀ b < v.nblocks, v.freeBit b = false ↔ b < v.firstData ∨ ∃ f idx, v.Refers f idx b
  once : ∀ b < v.nblocks, ∀ f idx f' idx', v.Refers f idx b → v.Refers f' idx' b →
    f = f' ∧ idx = idx'

end View

def HostFile.blocks (h : HostFile) : Nat := (h.size + 4095) / 4096

def strayAt (heap : Bytes) (j : Nat) (h : HostFile) (k : Nat) : Nat :=
  (heap.copyList (entsAddr + 256 * j) (h.name ++ [0])).loadNat (entsAddr + 256 * j + k) 4

def strayWord (heap : Bytes) (j : Nat) (h : HostFile) : Nat := strayAt heap j h 176

/-- The words that `malloc` or a long name leave in `f_indirect` of files without an indirect block are
0, reserved blocks, each of them at most once, or not block numbers at all. -/
structure NoStray (heap : Bytes) (nblocks : Nat) (files : List HostFile) : Prop where
  reserved : ∀ j (hj : j < files.length), files[j].blocks < 10 →
    strayWord heap j files[j] < 3 ∨ nblocks ≤ strayWord heap j files[j]
  distinct : ∀ j j' (hj : j < files.length) (hj' : j' < files.length), files[j].blocks < 10 →
    files[j'].blocks < 10 → strayWord heap j files[j] = strayWord heap j' files[j'] →
      strayWord heap j files[j] = 0 ∨ nblocks ≤ strayWord heap j files[j] ∨ j = j'

def Format.view (s : Format) : View where
  mem := s.mem
  trace := []
  opentab := fun _ => ⟨0, 0, 0⟩
  pageref := fun _ => 0

/-! ### What the file server makes of it -/

def OnDisk (nblocks : Nat) (disk : Bytes) (fs : Fs) : Prop :=
  ∀ x, blockAddr 0 ≤ x → x < blockAddr nblocks → fs.mem x = disk x

def OutsideCache (buf n : Nat) : Prop :=
  (buf + n ≤ blockAddr 0 ∨ fileVa ≤ buf) ∧ buf + maxFileSize < 2 ^ 64

/-- Whenever the server works on `disk`, it opens `h` by its name as the file `f`, of the same size, and
reads the bytes of `h` from it. -/
structure Serves (nblocks : Nat) (disk : Bytes) (h : HostFile) (f : Nat) : Prop where
  opens : ∀ fs, OnDisk nblocks disk fs → ∃ fs', fileOpen h.name fs = .ok (.ok f) fs' ∧
    OnDisk nblocks disk fs' ∧ fs'.fileSize f = h.size
  reads : ∀ fs, OnDisk nblocks disk fs → ∀ buf count offset : Nat, offset < 2 ^ 31 →
    OutsideCache buf (min count (h.size - offset)) →
    ∃ fs', fileRead f buf count offset fs = .ok ((min count (h.size - offset) : Nat) : Int) fs' ∧
      OnDisk nblocks disk fs' ∧
      ∀ i < min count (h.size - offset), fs'.mem (buf + i) = h.content.getD (offset + i) 0

end Fs

end ZynexOS
