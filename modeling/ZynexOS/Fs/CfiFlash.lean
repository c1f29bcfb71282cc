import ZynexOS.Fs.File

/-!
# The flash driver

`fs/cfi_flash.c`. The file system begins 8 MB into the flash, which holds 32 MB. A buffer-program
command is `0xE8`, the number of words less one, the words and `0xD0`; after it the flash is busy for
`delay` reads of its status.
-/

namespace ZynexOS

namespace Fs

open Library

/-! ### The flash -/

/-- What the flash makes of the next access. `program n` waits for `n` more words of a buffer-program
command, `program 0` for its end; `status n` is busy for `n` more reads. -/
inductive FlashMode where
  | readArray
  | status (busy : Nat)
  | wordCount
  | program (left : Nat)
deriving DecidableEq, Repr

structure Flash where
  array : Bytes
  mode : FlashMode
  buffer : List (Nat × Nat)
  delay : Nat

namespace Flash

def idle (array : Bytes) (delay : Nat) : Flash := ⟨array, .readArray, [], delay⟩

def programmed (array : Bytes) (buffer : List (Nat × Nat)) : Bytes :=
  buffer.foldl (fun array word => array.storeNat (4 * word.1) 4 word.2) array

def command (flash : Flash) (value busy : Nat) : Flash :=
  if value = 0xE8 then { flash with mode := .wordCount }
  else if value = 0x70 then { flash with mode := .status busy }
  else if value = 0x50 ∨ value = 0xFF then { flash with mode := .readArray }
  else flash

def write (flash : Flash) (offset : BitVec 32) (value : Nat) : Flash :=
  match flash.mode with
  | .readArray => flash.command value 0
  | .status 0 => flash.command value 0
  | .status (_ + 1) => flash
  | .wordCount => { flash with mode := .program (value + 1), buffer := [] }
  | .program (left + 1) =>
      { flash with mode := .program left, buffer := flash.buffer ++ [(offset.toNat, value)] }
  | .program 0 =>
      if value = 0xD0 then
        { flash with
          array := programmed flash.array flash.buffer, mode := .status flash.delay, buffer := [] }
      else { flash with mode := .readArray, buffer := [] }

def read (flash : Flash) (offset : BitVec 32) : Nat × Flash :=
  match flash.mode with
  | .readArray => (flash.array.loadNat (4 * offset.toNat) 4, flash)
  | .status (busy + 1) => (0, { flash with mode := .status busy })
  | _ => (0x80, flash)

end Flash

/-! ### Reading and programming -/

namespace CfiFlash

def pageWords : Nat := 1024

def capacity : BitVec 32 := 0x2000000

def eraseBlkWordAddr (wordOffset : BitVec 32) : BitVec 32 := wordOffset &&& 0xffff0000

def isReady (offset : BitVec 32) (flash : Flash) : Bool × Flash :=
  let (status, flash) := (flash.write offset 0x70).read offset
  (status &&& 0x80 ≠ 0, flash)

/-- `while (!CfiFlashIsReady(offset, p)) { }`, for at most as many turns as the fuel says. -/
def waitReady (offset : BitVec 32) : Nat → Flash → Option Flash
  | 0, _ => none
  | fuel + 1, flash =>
      match isReady offset flash with
      | (true, flash) => some flash
      | (false, flash) => waitReady offset fuel flash

def programWords (mem : Bytes) : Nat → BitVec 32 → Nat → Flash → Flash
  | 0, _, _, flash => flash
  | n + 1, wordOffset, buffer, flash =>
      programWords mem n (wordOffset + 1) (buffer + 4)
        (flash.write wordOffset (mem.loadNat buffer 4))

def writePage (mem : Bytes) (wordCount : Nat) (wordOffset : BitVec 32) (buffer : Nat)
    (flash : Flash) : Option Flash :=
  let blkAddr := eraseBlkWordAddr wordOffset
  let flash := flash.write blkAddr 0xE8
  let flash := flash.write blkAddr (wordCount - 1)
  let flash := programWords mem wordCount wordOffset buffer flash
  let flash := flash.write blkAddr 0xD0
  waitReady blkAddr (flash.delay + 1) flash

def writeBufLoop (mem : Bytes) : Nat → Nat → Nat → BitVec 32 → Nat → Flash → Option Flash
  | 0, _, _, _, _, _ => none
  | fuel + 1, words, wordCount, wordOffset, buffer, flash =>
      if words = 0 then some flash
      else do
        let flash ← writePage mem wordCount wordOffset buffer flash
        let words := words - wordCount
        writeBufLoop mem fuel words (if pageWords ≤ words then pageWords else words)
          (wordOffset + BitVec.ofNat 32 wordCount) (buffer + 4 * wordCount) flash

def writeBuf (mem : Bytes) (wordOffset : BitVec 32) (buffer words : Nat) (flash : Flash) :
    Option Flash := do
  let i := pageWords - wordOffset.toNat % pageWords
  let wordCount := if words < i then words else i
  let flash ← writeBufLoop mem (words + 1) words wordCount wordOffset buffer flash
  pure (flash.write 0 0x50)

/-- `CfiFlashWrite`: the result and the flash; `-1` is `FLASH_ERROR`. -/
def write (mem : Bytes) (buffer : Nat) (offset nbytes : BitVec 32) (flash : Flash) :
    Option (Int × Flash) :=
  if capacity < offset + nbytes then some (-1, flash)
  else do
    let flash ← writeBuf mem (offset >>> 2) buffer (nbytes >>> 2).toNat flash
    pure (0, flash)

def readLoop (buffer : Nat) (wordOffset : BitVec 32) : Nat → Nat → Bytes → Flash → Bytes × Flash
  | 0, _, mem, flash => (mem, flash)
  | left + 1, i, mem, flash =>
      let (word, flash) := flash.read (wordOffset + BitVec.ofNat 32 i)
      readLoop buffer wordOffset left (i + 1) (mem.storeNat (buffer + 4 * i) 4 word) flash

def read (buffer : Nat) (offset nbytes : BitVec 32) (mem : Bytes) (flash : Flash) :
    Int × Bytes × Flash :=
  if capacity < offset + nbytes then (-1, mem, flash)
  else (0, readLoop buffer (offset >>> 2) (nbytes >>> 2).toNat 0 mem flash)

end CfiFlash

def sectorOffset (secno : BitVec 32) (i : Nat) : BitVec 32 :=
  0x800000 + (secno + BitVec.ofNat 32 i) * 512

def cfiFlashReadLoop (secno : BitVec 32) : Nat → Nat → Nat → Bytes → Flash → Bytes × Flash
  | 0, _, _, mem, flash => (mem, flash)
  | nsecs + 1, i, dst, mem, flash =>
      let (_, mem, flash) := CfiFlash.read dst (sectorOffset secno i) 512 mem flash
      cfiFlashReadLoop secno nsecs (i + 1) (dst + 512) mem flash

/-- `cfi_flash_read`, which does not look at the results of `CfiFlashRead`. -/
def cfiFlashRead (secno : BitVec 32) (dst nsecs : Nat) (mem : Bytes) (flash : Flash) :
    Bytes × Flash :=
  cfiFlashReadLoop secno nsecs 0 dst mem flash

def cfiFlashWriteLoop (mem : Bytes) (secno : BitVec 32) : Nat → Nat → Nat → Flash → Option Flash
  | 0, _, _, flash => some flash
  | nsecs + 1, i, src, flash => do
      let (_, flash) ← CfiFlash.write mem src (sectorOffset secno i) 512 flash
      cfiFlashWriteLoop mem secno nsecs (i + 1) (src + 512) flash

/-- `cfi_flash_write`, which does not look at the results of `CfiFlashWrite`. -/
def cfiFlashWrite (mem : Bytes) (secno : BitVec 32) (src nsecs : Nat) (flash : Flash) :
    Option Flash :=
  cfiFlashWriteLoop mem secno nsecs 0 src flash

/-! ### Blocks -/

def blkSects : Nat := 8

def blockSector (b : Nat) : BitVec 32 := BitVec.ofNat 32 (blkSects * b)

def flashBlocks : Nat := 6144

def flashStart (b : Nat) : Nat := 0x800000 + 4096 * b

/-- A block that is written is what a read of it gives, and a read of any other block of the disk
gives what it gave before. -/
def StoresBlock (nblocks b : Nat) : Prop :=
  ∀ (array : Bytes) (delay : Nat) (mem : Bytes) (src : Nat), ∃ array' : Bytes,
    cfiFlashWrite mem (blockSector b) src blkSects (.idle array delay) = some (.idle array' delay) ∧
    (∀ dst, cfiFlashRead (blockSector b) dst blkSects mem (.idle array' delay) =
      (mem.move dst src 4096, .idle array' delay)) ∧
    ∀ c, 1 ≤ c → c < nblocks → c ≠ b → ∀ dst mem',
      (cfiFlashRead (blockSector c) dst blkSects mem' (.idle array' delay)).1 =
        (cfiFlashRead (blockSector c) dst blkSects mem' (.idle array delay)).1

end Fs

end ZynexOS
