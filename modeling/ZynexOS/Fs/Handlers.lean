import ZynexOS.Fs.Serve

/-!
# Opening files, and the other requests

The rest of `fs/serv.c`. Whether there is memory for the page of a descriptor is an argument. An `int`
is returned for the id of an open file. `o_mode`, which nothing reads, is left out. In a `struct Fd`,
`fd_omode` is at offset 8, and the id of the open file at offset 12.
-/

namespace ZynexOS

namespace Fs

def serveInit : FsM Unit :=
  modify fun fs =>
    { fs with
      opentab := fun i =>
        if i < maxOpen then { fs.opentab i with fileid := i, fd := fileVa + 4096 * i }
        else fs.opentab i }

/-- `sys_page_alloc(0, va, ..)`, if `memory` says that there is a page, and pages for its tables. -/
def sysPageAlloc (memory : Bool) (va : Nat) : FsM Int :=
  if memory then do
    modify fun fs =>
      { fs with pageref := Function.update fs.pageref va 1, mem := fs.mem.fill va 4096 0 }
    pure 0
  else pure (-eNoMem)

def openfileTake (i : Nat) : FsM (Int × Option Nat) := do
  modify fun fs =>
    { fs with
      opentab := Function.update fs.opentab i
        { fs.opentab i with fileid := ((fs.opentab i).fileid + maxOpen) % 2 ^ 32 } }
  let fs ← get
  memset (fs.opentab i).fd 0 4096
  pure (int32 (fs.opentab i).fileid, some i)

/-- The loop of `openfile_alloc`, with `left` entries from `i` on to go. The result is the value
returned, and the entry if `*o` is set. -/
def openfileScan (memory : Bool) : Nat → Nat → FsM (Int × Option Nat)
  | 0, _ => pure (-eMaxOpen, none)
  | left + 1, i => do
      let fs ← get
      let refs := fs.pageref (fs.opentab i).fd
      if refs = 0 then
        let r ← sysPageAlloc memory (fs.opentab i).fd
        if r < 0 then pure (r, none) else openfileTake i
      else if refs = 1 then openfileTake i
      else openfileScan memory left (i + 1)

def openfileAlloc (memory : Bool) : FsM (Int × Option Nat) := openfileScan memory maxOpen 0

def View.cString (v : View) : Nat → Nat → Name
  | _, 0 => []
  | a, n + 1 => if v.mem a = 0 then [] else v.mem a :: v.cString (a + 1) n

def maxPathLen : Nat := 1024

def hasFlag (omode bit : Nat) : Bool := omode &&& bit ≠ 0

def oCreat : Nat := 0x100

def oTrunc : Nat := 0x200

def oExcl : Nat := 0x400

def oAccMode : Nat := 3

def openTarget (path : Name) (omode : Nat) : FsM (Except Int Nat) := do
  if hasFlag omode oCreat then
    match ← fileCreate path with
    | .ok f => pure (.ok f)
    | .error r =>
        if ¬hasFlag omode oExcl ∧ r = -eFileExists then fileOpen path else pure (.error r)
  else fileOpen path

def truncTarget (omode f : Nat) : FsM Int :=
  if hasFlag omode oTrunc then fileSetSize f 0 else pure 0

def devFileId : Nat := 0x66

def fillFd (i f omode : Nat) : FsM Unit := do
  modify fun fs =>
    { fs with opentab := Function.update fs.opentab i { fs.opentab i with file := f } }
  let fs ← get
  let o := fs.opentab i
  store32 (o.fd + 12) o.fileid
  store32 (o.fd + 8) (omode &&& oAccMode)
  store32 o.fd devFileId

def serveOpen (memory : Bool) : FsM (Int × Option Nat) := do
  let fs ← get
  let path := fs.cString fsreq (maxPathLen - 1)
  match ← openfileAlloc memory with
  | (r, none) => pure (r, none)
  | (r, some i) =>
      if r < 0 then pure (r, none)
      else
        let omode ← load32 (fsreq + maxPathLen)
        match ← openTarget path omode with
        | .error r => pure (r, none)
        | .ok f =>
            let r ← truncTarget omode f
            if r < 0 then pure (r, none)
            else
              match ← fileOpen path with
              | .error r => pure (r, none)
              | .ok f =>
                  fillFd i f omode
                  let fs ← get
                  pure (0, some (fs.opentab i).fd)

/-- `serve_stat`. The name of a file ends inside its block. -/
def serveStat : FsM Int := do
  let fileid ← load32 fsreq
  match ← openfileLookup fileid with
  | .error r => pure r
  | .ok o =>
      touch o.file
      let fs ← get
      strcpy fsreq (fs.cString o.file 4096)
      let size ← load32 (sizeAddr o.file)
      store32 (fsreq + 128) size
      let type ← load32 (typeAddr o.file)
      store32 (fsreq + 132) (if type = fTypeDir then 1 else 0)
      pure 0

def serveFlush : FsM Int := do
  let fileid ← load32 fsreq
  match ← openfileLookup fileid with
  | .error r => pure r
  | .ok o =>
      fileFlush o.file
      pure 0

def syncFrom : Nat → Nat → FsM Unit
  | 0, _ => pure ()
  | left + 1, n => do
      let a ← diskaddr n
      flushBlock a
      syncFrom left (n + 1)

def serveSync : FsM Int := do
  let limit ← nblocks
  syncFrom (limit - 1) 1
  pure 0

/-- The dispatch in `serve`: the result, and the page to send with it. There is no handler for
`FSREQ_REMOVE`, 7. -/
def handle (memory : Bool) (req : Nat) : FsM (Int × Option Nat) :=
  let noPage (x : FsM Int) : FsM (Int × Option Nat) := do
    let r ← x
    pure (r, none)
  match req with
  | 1 => serveOpen memory
  | 2 => noPage serveSetSize
  | 3 => noPage serveRead
  | 4 => noPage serveWrite
  | 5 => noPage serveStat
  | 6 => noPage serveFlush
  | 8 => noPage serveSync
  | _ => pure (-eInval, none)

end Fs

end ZynexOS
