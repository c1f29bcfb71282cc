import ZynexOS.Fs.File

/-!
# Directories and path names

Paths and names are C strings without their terminating zero.
-/

namespace ZynexOS

namespace Fs

abbrev Name := List (BitVec 8)

def slash : BitVec 8 := 0x2f

def fTypeDir : Nat := 1

/-- `BLKFILES`, the number of `struct File`, of 256 bytes each, in a block. -/
def blkFiles : Nat := 16

def strEq (a : Nat) : Name → FsM Bool
  | [] => do
      let byte ← load a 1
      pure (byte = 0)
  | c :: name => do
      let byte ← load a 1
      if byte = c.toNat then strEq (a + 1) name else pure false

def findEntry (test : Nat → FsM Bool) : Nat → Nat → FsM (Option Nat)
  | 0, _ => pure none
  | left + 1, f => do
      if ← test f then pure (some f) else findEntry test left (f + 256)

def findInDir (dir : Nat) (test : Nat → FsM Bool) : Nat → Nat → FsM (Except Int (Option Nat))
  | 0, _ => pure (.ok none)
  | left + 1, i => do
      match ← fileGetBlock dir i with
      | .error r => pure (.error r)
      | .ok blk =>
          match ← findEntry test blkFiles blk with
          | some f => pure (.ok (some f))
          | none => findInDir dir test left (i + 1)

def dirBlocks (dir : Nat) : FsM Nat := do
  let size ← loadInt (sizeAddr dir)
  if Int.tmod size 4096 ≠ 0 then throw .assertDirSize
  else pure (uint32 (Int.tdiv size 4096))

def dirLookup (dir : Nat) (name : Name) : FsM (Except Int Nat) := do
  let nblock ← dirBlocks dir
  match ← findInDir dir (fun f => strEq f name) nblock 0 with
  | .error r => pure (.error r)
  | .ok (some f) => pure (.ok f)
  | .ok none => pure (.error (-eNotFound))

def isUnused (f : Nat) : FsM Bool := do
  let byte ← load f 1
  pure (byte = 0)

def dirAllocFile (dir : Nat) : FsM (Except Int Nat) := do
  let nblock ← dirBlocks dir
  match ← findInDir dir isUnused nblock 0 with
  | .error r => pure (.error r)
  | .ok (some f) => pure (.ok f)
  | .ok none =>
      let size ← loadInt (sizeAddr dir)
      store32 (sizeAddr dir) (uint32 (size + 4096))
      fileGetBlock dir nblock

def skipSlash (path : Name) : Name := path.dropWhile (· = slash)

/-- The name before the next slash, and the path from there on with the slashes skipped. -/
def nextName (path : Name) : Name × Name :=
  (path.takeWhile (· ≠ slash), skipSlash (path.dropWhile (· ≠ slash)))

/-- What `walk_path` found: the file and its directory, or an error with the directory and the last
element when only that is missing. -/
inductive Walk where
  | found (dir : Option Nat) (f : Nat)
  | missing (dir : Nat) (name : Name)
  | failed (r : Int)

def walkLoop : Nat → Name → Option Nat → Nat → FsM Walk
  | 0, _, _, _ => throw .fuel
  | fuel + 1, path, parent, f =>
      if path = [] then pure (.found parent f)
      else do
        let (name, rest) := nextName path
        if maxNameLen ≤ name.length then pure (.failed (-eBadPath))
        else
          let type ← load32 (typeAddr f)
          if type ≠ fTypeDir then pure (.failed (-eNotFound))
          else
            match ← dirLookup f name with
            | .ok child => walkLoop fuel rest (some f) child
            | .error r =>
                if r = -eNotFound ∧ rest = [] then pure (.missing f name) else pure (.failed r)

def walkPath (path : Name) : FsM Walk :=
  walkLoop (path.length + 1) (skipSlash path) none rootAddr

def fileCreate (path : Name) : FsM (Except Int Nat) := do
  match ← walkPath path with
  | .found _ _ => pure (.error (-eFileExists))
  | .failed r => pure (.error r)
  | .missing dir name =>
      match ← dirAllocFile dir with
      | .error r => pure (.error r)
      | .ok f =>
          strcpy f name
          fileFlush dir
          pure (.ok f)

def fileOpen (path : Name) : FsM (Except Int Nat) := do
  match ← walkPath path with
  | .found _ f => pure (.ok f)
  | .missing _ _ => pure (.error (-eNotFound))
  | .failed r => pure (.error r)

end Fs

end ZynexOS
