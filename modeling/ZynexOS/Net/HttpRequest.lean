import ZynexOS.Lib.Strings

/-!
# Requests to the web server

`http_request_parse` of `user/httpd.c` on the memory from `buffer` on: what `read` has received, then
what was there before. `none` is a run that leaves the readable memory, or stores through a null
pointer.
-/

namespace ZynexOS.Http

open Library

def buffSize : Nat := 512

def eBadReq : Int := 1000

def space : BitVec 8 := 32

def newline : BitVec 8 := 10

def get : List (BitVec 8) := [71, 69, 84, 32]

def strncmp : List (BitVec 8) → List (BitVec 8) → Option (Int × Nat)
  | _, [] => some (0, 0)
  | [], _ :: _ => none
  | p :: ps, q :: qs =>
      if p ≠ 0 ∧ p = q then (strncmp ps qs).map fun (r, seen) => (r, seen + 1)
      else some (p.toNat - q.toNat, 1)

/-- What the parser returns, the fields of `*req` that it sets, and how many bytes it looks at. -/
structure Request where
  ret : Int
  url : Option (List (BitVec 8))
  version : Option (List (BitVec 8))
  seen : Nat
deriving DecidableEq, Repr

/-- `while (*request && *request != stop) request++`. -/
def skipTo (stop : BitVec 8) (mem : List (BitVec 8)) (request : Nat) : Option Nat :=
  skipWhile (fun c => c ≠ 0 ∧ c ≠ stop) mem request

/-- `http_request_parse`; the first two arguments say whether the two calls of `malloc` succeed. -/
def requestParse (urlMem versionMem : Bool) (mem : List (BitVec 8)) : Option Request := do
  let (r, seen) ← strncmp mem get
  if r ≠ 0 then
    return ⟨-eBadReq, none, none, seen⟩
  let url := get.length
  let urlEnd ← skipTo space mem url
  guard urlMem
  let version := urlEnd + 1
  let versionEnd ← skipTo newline mem version
  guard versionMem
  return ⟨0, (mem.drop url).take (urlEnd - url), (mem.drop version).take (versionEnd - version),
    versionEnd + 1⟩

inductive Reply where
  | sendError
  | parseFailed
  | sendFile
deriving DecidableEq, Repr

def handleClient (urlMem versionMem : Bool) (data rest : List (BitVec 8)) :
    Option (Request × Reply) := do
  let req ← requestParse urlMem versionMem (data ++ rest)
  let reply := if req.ret = -eBadReq then .sendError else if req.ret < 0 then .parseFailed
    else .sendFile
  return (req, reply)

/-! ### The reference -/

def expected (data : List (BitVec 8)) : Int × Option (List (BitVec 8)) × Option (List (BitVec 8)) :=
  if get <+: data then
    let line := data.drop get.length
    (0, some (line.takeWhile (· ≠ space)),
      some (((line.dropWhile (· ≠ space)).drop 1).takeWhile (· ≠ newline)))
  else (-eBadReq, none, none)

/-- Whatever is behind the data in the buffer and on the stack, only the data is looked at, and the
result is the one that it says. -/
def ReadsReceived (urlMem versionMem : Bool) (data : List (BitVec 8)) : Prop :=
  ∀ rest, buffSize ≤ (data ++ rest).length → ∃ req reply,
    handleClient urlMem versionMem data rest = some (req, reply) ∧ req.seen ≤ data.length ∧
      (req.ret, req.url, req.version) = expected data

/-- The data differs from `"GET "` somewhere, or it has a URL and a version without a NUL that a space
and a newline end. -/
def Delimited (urlMem versionMem : Bool) (data : List (BitVec 8)) : Prop :=
  (¬get <+: data ∧ ¬data <+: get) ∨
    (∃ url version rest, data = get ++ (url ++ space :: (version ++ newline :: rest)) ∧
      (∀ c ∈ url, c ≠ 0 ∧ c ≠ space) ∧ ∀ c ∈ version, c ≠ 0 ∧ c ≠ newline) ∧
      urlMem ∧ versionMem

end ZynexOS.Http
