import ZynexOS.Fs.State

/-!
# Blocks and files

A function of `fs/fs.c` that returns a negative error code or a value has the result `Except Int`.
`fileFuel` is more than the number of blocks a file can have.
-/

namespace ZynexOS

namespace Fs

/-! ### The bitmap -/

def freeBlock (n : Nat) : FsM Unit :=
  if n = 0 then throw .freeZero
  else do
    let word ← load32 (bitmapAddr n)
    storeAs (.free n) (bitmapAddr n) (word ||| 1 <<< (n % 32))

def allocFrom : Nat → Nat → FsM Int
  | 0, _ => pure (-eNoDisk)
  | left + 1, i => do
      let word ← load32 (bitmapAddr i)
      if word.testBit (i % 32) then
        storeAs (.alloc i) (bitmapAddr i) (word &&& (0xffffffff ^^^ 1 <<< (i % 32)))
        flushBlock (bitmapAddr i)
        pure i
      else allocFrom left (i + 1)

def allocBlock : FsM Int := do
  let limit ← nblocks
  allocFrom limit 0

/-! ### Checks at the start -/

def checkSuper : FsM Unit := do
  let magic ← load32 superAddr
  if magic ≠ fsMagic then throw .badMagic
  else
    let limit ← nblocks
    if 0xC0000 < limit then throw .diskTooLarge else pure ()

def blockIsFree (n : Nat) : FsM Bool := do
  let limit ← nblocks
  if limit ≤ n then pure false
  else
    let word ← load32 (bitmapAddr n)
    pure (word.testBit (n % 32))

def assertInUse (n : Nat) : FsM Unit := do
  if ← blockIsFree n then throw (.assertInUse n) else pure ()

def checkBitmap : FsM Unit := do
  let limit ← nblocks
  (List.range ((limit + 32767) / 32768)).forM fun i => assertInUse (2 + i)
  assertInUse 0
  assertInUse 1

/-! ### Block pointers

A `struct File` at `f` has `f_size` at offset 128, `f_type` at 132, `f_direct` at 136 and `f_indirect`
at 176.
-/

def sizeAddr (f : Nat) : Nat := f + 128

def typeAddr (f : Nat) : Nat := f + 132

def directAddr (f i : Nat) : Nat := f + 136 + 4 * i

def indirectAddr (f : Nat) : Nat := f + 176

/-- The part of `file_block_walk` that allocates the indirect block if there is none. As in
`fillSlot`, the pointer is stored before the error is looked at. -/
def ensureIndirect (f : Nat) (alloc : Bool) : FsM (Except Int Unit) := do
  let indirect ← load32 (indirectAddr f)
  if indirect ≠ 0 then pure (.ok ())
  else if ¬alloc then pure (.error (-eNotFound))
  else
    let ret ← allocBlock
    store32 (indirectAddr f) (uint32 ret)
    if ret < 0 then pure (.error (-eNoDisk))
    else
      let blockno ← load32 (indirectAddr f)
      let blk ← diskaddr blockno
      memset blk 0 4096
      pure (.ok ())

def fileBlockWalk (f filebno : Nat) (alloc : Bool) : FsM (Except Int Nat) :=
  if filebno < nDirect then pure (.ok (directAddr f filebno))
  else if filebno - nDirect < nIndirect then do
    match ← ensureIndirect f alloc with
    | .error r => pure (.error r)
    | .ok () =>
        let indirect ← load32 (indirectAddr f)
        let blk ← diskaddr indirect
        pure (.ok (blk + 4 * (filebno - nDirect)))
  else pure (.error (-eInval))

def fillSlot (slot : Nat) : FsM (Except Int Unit) := do
  let diskbno ← load32 slot
  if diskbno ≠ 0 then pure (.ok ())
  else
    let ret ← allocBlock
    store32 slot (uint32 ret)
    if ret < 0 then pure (.error (-eNoDisk)) else pure (.ok ())

def fileGetBlock (f filebno : Nat) : FsM (Except Int Nat) := do
  let limit ← nblocks
  if limit < filebno then pure (.error (-eInval))
  else
    match ← fileBlockWalk f filebno true with
    | .error r => pure (.error r)
    | .ok slot =>
        match ← fillSlot slot with
        | .error r => pure (.error r)
        | .ok () =>
            let diskbno ← load32 slot
            let blk ← diskaddr diskbno
            pure (.ok blk)

def fileFlushLoop (f : Nat) : Nat → Nat → FsM Unit
  | 0, _ => pure ()
  | left + 1, i => do
      match ← fileBlockWalk f i false with
      | .error _ => fileFlushLoop f left (i + 1)
      | .ok slot =>
          let diskbno ← load32 slot
          if diskbno = 0 then fileFlushLoop f left (i + 1)
          else
            let blk ← diskaddr diskbno
            flushBlock blk
            fileFlushLoop f left (i + 1)

/-- The number of blocks of a file of `size` bytes, `(size + BLKSIZE - 1) / BLKSIZE` in `int`. -/
def blocksFor (size : Int) : Int := Int.tdiv (int32 (size + 4095)) 4096

def fileFlush (f : Nat) : FsM Unit := do
  let size ← loadInt (sizeAddr f)
  fileFlushLoop f (blocksFor size).toNat 0
  flushBlock f
  let indirect ← load32 (indirectAddr f)
  if indirect = 0 then pure ()
  else
    let blk ← diskaddr indirect
    flushBlock blk

/-! ### Truncation -/

def fileFreeBlock (f filebno : Nat) : FsM Int := do
  match ← fileBlockWalk f filebno false with
  | .error r => pure r
  | .ok slot =>
      let diskbno ← load32 slot
      if diskbno = 0 then pure 0
      else
        freeBlock diskbno
        store32 slot 0
        pure 0

def truncateLoop (f : Nat) : Nat → Nat → FsM Unit
  | 0, _ => pure ()
  | left + 1, bno => do
      let _ ← fileFreeBlock f bno
      truncateLoop f left (bno + 1)

/-- `file_truncate_blocks`; both numbers of blocks are `uint32_t`. -/
def fileTruncateBlocks (f : Nat) (newsize : Int) : FsM Unit := do
  let size ← loadInt (sizeAddr f)
  let oldNblocks := uint32 (blocksFor size)
  let newNblocks := uint32 (blocksFor newsize)
  truncateLoop f (oldNblocks - newNblocks) newNblocks
  if newNblocks ≤ nDirect then
    let indirect ← load32 (indirectAddr f)
    if indirect = 0 then pure ()
    else
      freeBlock indirect
      store32 (indirectAddr f) 0
  else pure ()

def fileSetSize (f : Nat) (newsize : Int) : FsM Int := do
  let size ← loadInt (sizeAddr f)
  if newsize < size then fileTruncateBlocks f newsize else pure ()
  store32 (sizeAddr f) (uint32 newsize)
  flushBlock f
  pure 0

/-! ### Reading and writing -/

/-- `bn` of the copy loops: what is left of the block, or of the request if that is less, computed in
`uint64_t`. `fin` is `offset + count`. -/
def chunk (pos : Int) (fin : Nat) : Int :=
  int32 (min (uint64 (4096 - Int.tmod pos 4096)) (uint64 (fin - uint64 pos)))

def inBlock (blk : Nat) (pos : Int) : Nat := (blk + Int.tmod pos 4096).toNat

def fileFuel : Nat := 1036

def readLoop (f fin : Nat) : Nat → Int → Nat → FsM Int
  | 0, _, _ => throw .fuel
  | fuel + 1, pos, buf =>
      if uint64 pos < fin then do
        match ← fileGetBlock f (uint32 (Int.tdiv pos 4096)) with
        | .error r => pure r
        | .ok blk =>
            memmove buf (inBlock blk pos) (uint64 (chunk pos fin))
            readLoop f fin fuel (int32 (pos + chunk pos fin)) (uint64 (buf + chunk pos fin))
      else pure 0

def writeLoop (f fin : Nat) : Nat → Int → Nat → FsM Int
  | 0, _, _ => throw .fuel
  | fuel + 1, pos, buf =>
      if uint64 pos < fin then do
        match ← fileGetBlock f (uint32 (Int.tdiv pos 4096)) with
        | .error r => pure r
        | .ok blk =>
            memmove (inBlock blk pos) buf (uint64 (chunk pos fin))
            writeLoop f fin fuel (int32 (pos + chunk pos fin)) (uint64 (buf + chunk pos fin))
      else pure 0

/-- `MIN(count, f->f_size - offset)`, where the difference is an `int`. -/
def readCount (size offset : Int) (count : Nat) : Nat := min count (uint64 (int32 (size - offset)))

/-- `file_read`, with its result as the `int` that `serve_read` makes of it. -/
def fileRead (f buf count : Nat) (offset : Int) : FsM Int := do
  let size ← loadInt (sizeAddr f)
  if size ≤ offset then pure 0
  else
    let count := readCount size offset count
    let r ← readLoop f (uint64 (offset + count)) fileFuel offset buf
    if r < 0 then pure r else pure (int32 count)

/-- The part of `file_write` that extends the file; the comparison is in `uint64_t`, the new size is an
`off_t`. -/
def extend (f fin : Nat) : FsM Int := do
  let size ← loadInt (sizeAddr f)
  if uint64 size < fin then fileSetSize f (int32 fin) else pure 0

def fileWrite (f buf count : Nat) (offset : Int) : FsM Int := do
  let r ← extend f (uint64 (offset + count))
  if r < 0 then pure r
  else
    let r ← writeLoop f (uint64 (offset + count)) fileFuel offset buf
    if r < 0 then pure r else pure (int32 count)

end Fs

end ZynexOS
