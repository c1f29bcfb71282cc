import ZynexOS.Fs.Dir

/-!
# Requests for open files

`fs/serv.c`. A request is in the page at `fsreq`: `req_fileid` comes first; `req_n` is at offset 8 of
a read, and at offset 4 of a write, whose structure is packed and has `req_buf` at offset 12. A reply
to a read begins at offset 0 of the same page. `fd_offset` is at offset 4 of a `struct Fd`.
-/

namespace ZynexOS

namespace Fs

def maxOpen : Nat := 1024

def openfileLookup (fileid : Nat) : FsM (Except Int OpenFile) := do
  let fs ← get
  let o := fs.opentab (fileid % maxOpen)
  if fs.pageref o.fd ≤ 1 ∨ o.fileid ≠ fileid then pure (.error (-eInval)) else pure (.ok o)

def offsetAddr (o : OpenFile) : Nat := o.fd + 4

def advance (o : OpenFile) (r : Int) : FsM Unit := do
  let offset ← loadInt (offsetAddr o)
  store32 (offsetAddr o) (uint32 (offset + r))

/-- `serve_read`; the seek position is advanced by an error code as well. -/
def serveRead : FsM Int := do
  let fileid ← load32 fsreq
  match ← openfileLookup fileid with
  | .error r => pure r
  | .ok o =>
      let n ← load (fsreq + 8) 8
      let offset ← loadInt (offsetAddr o)
      let r ← fileRead o.file fsreq n offset
      advance o r
      pure r

def reqBuf : Nat := fsreq + 12

def serveWrite : FsM Int := do
  let fileid ← load32 fsreq
  match ← openfileLookup fileid with
  | .error r => pure r
  | .ok o =>
      let n ← load (fsreq + 4) 8
      let offset ← loadInt (offsetAddr o)
      let r ← fileWrite o.file reqBuf n offset
      if r < 0 then pure r
      else
        advance o r
        pure r

def serveSetSize : FsM Int := do
  let fileid ← load32 fsreq
  match ← openfileLookup fileid with
  | .error r => pure r
  | .ok o =>
      let size ← loadInt (fsreq + 4)
      fileSetSize o.file size

end Fs

end ZynexOS
