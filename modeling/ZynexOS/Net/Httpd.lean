import ZynexOS.Fs.Contents
import ZynexOS.Lib.Strings

/-!
# Responses of the web server

`send_file` of `user/httpd.c` for a request whose URL names the file `f`, down to the file server's
`file_read`. The results of `stat`, `open` and `write` are inputs.
-/

namespace ZynexOS

open Fs

inductive HttpText where
  | header
  | size (n : Int)
  | contentType
  | headerFin
  | data (bytes : List (BitVec 8))
  | error (code : Nat) (msg : String)

def HttpText.bytes : HttpText → List (BitVec 8)
  | .header => ascii "HTTP/1.0 200 OK\r\nServer: jhttpd/0.1\r\n"
  | .size n => ascii ("Content-Length: " ++ toString n ++ "\r\n")
  | .contentType => ascii "Content-Type: text/html\r\n"
  | .headerFin => ascii "\r\n"
  | .data bytes => bytes
  | .error code msg =>
      ascii ("HTTP/1.0 " ++ toString code ++ " " ++ msg ++ "\r\n" ++ "Server: jhttpd/0.1\r\n" ++
        "Connection: close" ++ "Content-type: text/html\r\n" ++ "\r\n" ++
        "<html><body><p>" ++ toString code ++ " - " ++ msg ++ "</p></body></html>\r\n")

structure HttpStat where
  size : Int
  isdir : Bool

/-- What the calls return. If `stat` fails, `stack` is what `fsstat` holds all the same. -/
structure HttpIo where
  statFails : Bool
  stack : HttpStat
  fd : Int
  write : HttpText → Int

abbrev HttpWrite := HttpText × Int

def HttpWrite.Full (w : HttpWrite) : Prop := w.2 = w.1.bytes.length

instance (w : HttpWrite) : Decidable w.Full := inferInstanceAs (Decidable (_ = _))

def fsstat (io : HttpIo) (f : Nat) : FsM HttpStat :=
  if io.statFails then pure io.stack
  else do
    let size ← loadInt (sizeAddr f)
    let type ← load32 (typeAddr f)
    pure ⟨size, type = fTypeDir⟩

def sendTexts (io : HttpIo) : List HttpText → List HttpWrite
  | [] => []
  | text :: texts =>
      if HttpWrite.Full (text, io.write text) then (text, io.write text) :: sendTexts io texts
      else [(text, io.write text)]

def sendBuf : Nat := 1024

/-- `send_data`. The server dies if the file cannot be read. -/
def sendData (io : HttpIo) (f : Nat) : FsM (List HttpWrite) := do
  let len ← fileRead f fsreq sendBuf 0
  if len < 0 then pure []
  -- the assertions of `devfile_read`
  else if (sendBuf : Int) < len ∨ 4096 < len then pure []
  else do
    let fs ← get
    let buf := (List.range len.toNat).map fun i => fs.mem (fsreq + i)
    pure (sendTexts io [.data buf])

def okHead (size : Int) : List HttpText := [.header, .size size, .contentType, .headerFin]

def sendFile (io : HttpIo) (f : Nat) : FsM (List HttpWrite) := do
  let stat ← fsstat io f
  if io.fd < 0 then pure (sendTexts io [.error 404 "Not Found"])
  else if stat.isdir then pure (sendTexts io [.error 404 "Not Found"])
  else
    let head := sendTexts io (okHead stat.size)
    if ∀ w ∈ head, w.Full then do
      let data ← sendData io f
      pure (head ++ data)
    else pure head

/-! ### Consistency -/

/-- If the response begins with the head of a 200 response, the bytes after the blank line are the
contents, and `Content-Length` is their number. -/
def HttpConsistent (response : List HttpWrite) (contents : List (BitVec 8)) : Prop :=
  ∀ n head rest, response = head ++ rest → head.map Prod.fst = okHead n → (∀ w ∈ head, w.Full) →
    rest.flatMap (fun w => w.1.bytes) = contents ∧ n = contents.length

def Fs.View.contents (v : View) (f size : Nat) : List (BitVec 8) := (List.range size).map (v.byte f)

structure HttpIo.Accepts (io : HttpIo) (stat : HttpStat) : Prop where
  fd : 0 ≤ io.fd
  isdir : stat.isdir = false
  head : ∀ text ∈ okHead stat.size, HttpWrite.Full (text, io.write text)

def HttpIo.stat (io : HttpIo) (size : Int) : HttpStat := if io.statFails then io.stack else ⟨size, false⟩

def Fs.View.CanRead (v : View) (f : Nat) : Prop :=
  v.HasByte f 0 ∨ ∃ n < v.nblocks, v.freeBit n = true

/-- If a file of `size` bytes is sent, `stat` gave its size, it fits into the buffer, and it can be
read. -/
def HttpIo.Fits (io : HttpIo) (v : View) (f size : Nat) : Prop :=
  io.Accepts (io.stat size) → (io.stat size).size = size ∧ size ≤ sendBuf ∧ (size = 0 ∨ v.CanRead f)

end ZynexOS
