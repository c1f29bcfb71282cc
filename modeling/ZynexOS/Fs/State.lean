import ZynexOS.Kern.Layout
import ZynexOS.Library.Bytes

/-!
# The address space of the file server

The request page is mapped at `0x0ffff000`, directly below the block cache at `DISKMAP =
0x10000000`; the `struct Fd` pages begin at `FILEVA = 0xD0000000`, where the block cache ends. Block
`n` of the disk is cached at `DISKMAP + n*BLKSIZE`, with `BLKSIZE = 4096`. The contents `mem` of a
block that is not cached are those on the flash, which is what `bc_pgfault` reads in.
-/

namespace ZynexOS

open Library

/-! ### C integers -/

def int32 (x : Int) : Int := (x + 0x80000000) % 0x100000000 - 0x80000000

def uint32 (x : Int) : Nat := (x % 0x100000000).toNat

def uint64 (x : Int) : Nat := (x % 0x10000000000000000).toNat

theorem int32_natCast {n : Nat} (hn : n < 0x80000000) : int32 n = n := by
  unfold int32
  omega

theorem uint32_of_lt {n : Nat} (hn : n < 0x100000000) : uint32 n = n := by
  unfold uint32
  omega

theorem uint64_natCast {n : Nat} (hn : n < 0x10000000000000000) : uint64 n = n := by
  unfold uint64
  omega

namespace Fs

/-! ### Layout -/

def fsreq : Nat := 0x0ffff000

def fileVa : Nat := 0xD0000000

def blockAddr (n : Nat) : Nat := 0x10000000 + 4096 * n

def blockOf (a : Nat) : Nat := (a - 0x10000000) / 4096

def inCache (a : Nat) : Bool := 0x10000000 ≤ a ∧ a < 0xD0000000

/-- `super`, block 1; `s_nblocks` is at offset 4 and `s_root` at offset 8. -/
def superAddr : Nat := blockAddr 1

def rootAddr : Nat := superAddr + 8

/-- The word of `bitmap`, which begins with block 2, that has the bit of block `n`. -/
def bitmapAddr (n : Nat) : Nat := blockAddr 2 + 4 * (n / 32)

def fsMagic : Nat := 0x4A0530AE

def nDirect : Nat := 10

def nIndirect : Nat := 1024

def maxFileSize : Nat := 4235264

def maxNameLen : Nat := 128

def eNoDisk : Int := 9

def eMaxOpen : Int := 10

def eNotFound : Int := 11

def eBadPath : Int := 12

def eFileExists : Int := 13

/-! ### State -/

/-- What the server does to memory, for stating what a call touches: `move` is a `memmove`, `alloc`
and `free` change the bit of a block in the bitmap, `store` is any other store of `n` bytes. -/
inductive Access where
  | move (dst src n : Nat)
  | store (dst n : Nat)
  | alloc (n : Nat)
  | free (n : Nat)
deriving DecidableEq, Repr

structure OpenFile where
  fileid : Nat
  file : Nat
  fd : Nat

/-- What the server can see of its memory, with the accesses so far, newest first. `pageref` is the
reference count of the page at an address. -/
structure View where
  mem : Bytes
  trace : List Access
  opentab : Nat → OpenFile
  pageref : Nat → Nat

/-- Which blocks are mapped, which of them are dirty, and the flash. `past` is what was on the flash
before each of the writes so far, newest first. -/
structure Cache where
  mapped : Nat → Bool
  dirty : Nat → Bool
  flash : Bytes
  past : List Bytes

inductive Panic where
  | badMagic
  | diskTooLarge
  | assertInUse (n : Nat)
  | badBlock (n : Nat)
  | readNonExistent (n : Nat)
  | readFree (n : Nat)
  | freeZero
  | flushBad (a : Nat)
  | assertDirSize
  | fuel
deriving DecidableEq, Repr

end Fs

structure Fs extends Fs.View where
  cache : Fs.Cache

abbrev FsM := EStateM Fs.Panic Fs

namespace Fs

/-! ### Access to memory -/

def View.word (v : View) (a : Nat) : Nat := v.mem.loadNat a 4

def View.nblocks (v : View) : Nat := v.word (superAddr + 4)

def View.freeBit (v : View) (n : Nat) : Bool := (v.word (bitmapAddr n)).testBit (n % 32)

def View.blockIsFree (v : View) (n : Nat) : Bool := n < v.nblocks && v.freeBit n

/-- An access to `a`, with the fault that `bc_pgfault` handles if the block is not mapped yet. -/
def touch (a : Nat) : FsM Unit := do
  let fs ← get
  if ¬inCache a ∨ fs.cache.mapped (blockOf a) then pure ()
  else if fs.nblocks ≤ blockOf a then throw (.readNonExistent (blockOf a))
  else if fs.blockIsFree (blockOf a) then throw (.readFree (blockOf a))
  else
    modify fun fs =>
      { fs with cache := { fs.cache with mapped := Function.update fs.cache.mapped (blockOf a) true } }

def touchRange (a n : Nat) : FsM Unit :=
  let pages := if n = 0 then 0 else (a % 4096 + n + 4095) / 4096
  (List.range pages).forM fun i => touch (a / 4096 * 4096 + 4096 * i)

def Cache.soil (cache : Cache) (a n : Nat) : Cache :=
  { cache with
    dirty := fun b => cache.dirty b || decide (n ≠ 0 ∧ a < blockAddr (b + 1) ∧ blockAddr b < a + n) }

def load (a n : Nat) : FsM Nat := do
  touch a
  let fs ← get
  pure (fs.mem.loadNat a n)

def load32 (a : Nat) : FsM Nat := load a 4

def loadInt (a : Nat) : FsM Int := do
  let word ← load32 a
  pure (int32 word)

def storeAs (access : Access) (a v : Nat) : FsM Unit := do
  touch a
  modify fun fs =>
    { fs with
      mem := fs.mem.storeNat a 4 v, trace := access :: fs.trace, cache := fs.cache.soil a 4 }

def store32 (a v : Nat) : FsM Unit := storeAs (.store a 4) a v

def memset (a : Nat) (byte : BitVec 8) (n : Nat) : FsM Unit := do
  touchRange a n
  modify fun fs =>
    { fs with
      mem := fs.mem.fill a n byte, trace := .store a n :: fs.trace, cache := fs.cache.soil a n }

def memmove (dst src n : Nat) : FsM Unit := do
  touchRange src n
  touchRange dst n
  modify fun fs =>
    { fs with
      mem := fs.mem.move dst src n, trace := .move dst src n :: fs.trace
      cache := fs.cache.soil dst n }

def strcpy (a : Nat) (s : List (BitVec 8)) : FsM Unit := do
  touchRange a (s.length + 1)
  modify fun fs =>
    { fs with
      mem := fun x => if a ≤ x ∧ x ≤ a + s.length then s.getD (x - a) 0 else fs.mem x
      trace := .store a (s.length + 1) :: fs.trace
      cache := fs.cache.soil a (s.length + 1) }

/-! ### The block cache -/

def nblocks : FsM Nat := load32 (superAddr + 4)

def diskaddr (n : Nat) : FsM Nat := do
  let limit ← nblocks
  if n = 0 ∨ limit ≤ n then throw (.badBlock n)
  else pure ((0x10000000 + n * 4096) % 0x100000000)

def flushBlock (a : Nat) : FsM Unit :=
  if ¬inCache a then throw (.flushBad a)
  else
    modify fun fs =>
      let n := blockOf a
      if fs.cache.mapped n && fs.cache.dirty n then
        { fs with cache :=
            { fs.cache with
              dirty := Function.update fs.cache.dirty n false
              flash := fun x => if x / 4096 = n then fs.mem (0x10000000 + x) else fs.cache.flash x
              past := fs.cache.flash :: fs.cache.past } }
      else fs

end Fs

end ZynexOS
