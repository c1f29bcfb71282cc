import ZynexOS.Fs.WellFormed

/-!
# Names, directories and paths in a view

What `dir_lookup` and `walk_path` find, and what a path means in a tree of directories.
-/

namespace ZynexOS

namespace Fs

def View.nameAt (v : View) : Nat → Name → Bool
  | a, [] => v.mem a = 0
  | a, c :: name => v.mem a = c && v.nameAt (a + 1) name

def entriesFrom (f left : Nat) : List Nat := List.iterate (· + 256) f left

def View.entries (v : View) (dir i left : Nat) : List Nat :=
  (List.range' i left).flatMap fun i => entriesFrom (blockAddr (v.ptr dir (.data i))) blkFiles

def View.lookup (v : View) (dir : Nat) (name : Name) : Option Nat :=
  (v.entries dir 0 (v.dirBlocks dir)).find? fun e => v.nameAt e name

def View.walkStep (v : View) (next : Name → Option Nat → Nat → Walk) (path : Name)
    (parent : Option Nat) (f : Nat) : Walk :=
  if path = [] then .found parent f
  else if maxNameLen ≤ (nextName path).1.length then .failed (-eBadPath)
  else if v.word (typeAddr f) ≠ fTypeDir then .failed (-eNotFound)
  else
    match v.lookup f (nextName path).1 with
    | some child => next (nextName path).2 (some f) child
    | none => if (nextName path).2 = [] then .missing f (nextName path).1 else .failed (-eNotFound)

def View.walk (v : View) : Nat → Name → Option Nat → Nat → Walk
  | 0 => fun _ _ _ => .failed 0
  | fuel + 1 => v.walkStep (v.walk fuel)

def View.walkPath (v : View) (path : Name) : Walk :=
  v.walk (path.length + 1) (skipSlash path) none rootAddr

/-! ### The meaning of a path -/

def components (path : Name) : List Name := (path.splitOnP (· = slash)).filter (· ≠ [])

namespace View

structure DirsOk (v : View) : Prop where
  disk : v.DiskOk
  dirSize : ∀ dir, v.Reach dir → v.IsDir dir →
    0 ≤ v.fileSize dir ∧ v.fileSize dir ≤ maxFileSize ∧ v.fileSize dir % 4096 = 0
  valid : ∀ dir i, v.Reach dir → v.IsDir dir → i < v.dirBlocks dir → v.Valid (v.ptr dir (.data i))
  indirect : ∀ dir, v.Reach dir → v.IsDir dir → 10 < v.dirBlocks dir → v.Valid (v.ptr dir .indirect)
  fits : ∀ dir, v.Reach dir → v.IsDir dir → v.dirBlocks dir ≤ v.nblocks

def Child (v : View) (dir : Nat) (name : Name) (e : Nat) : Prop :=
  e ∈ v.entries dir 0 (v.dirBlocks dir) ∧ v.nameAt e name = true

structure DirTree (v : View) : Prop extends v.DirsOk where
  terminated : ∀ dir e, v.Reach dir → v.IsDir dir → e ∈ v.entries dir 0 (v.dirBlocks dir) →
    ∃ i < maxNameLen, v.mem (e + i) = 0
  distinct : ∀ dir name e e', v.Reach dir → v.IsDir dir → name ≠ [] → 0 ∉ name →
    v.Child dir name e → v.Child dir name e' → e = e'

inductive Resolves (v : View) : Option Nat → Nat → List Name → Walk → Prop where
  | found (parent : Option Nat) (f : Nat) : v.Resolves parent f [] (.found parent f)
  | down {parent : Option Nat} {f e : Nat} {name : Name} {names : List Name} {w : Walk}
      (hdir : v.IsDir f) (hchild : v.Child f name e) (hrest : v.Resolves (some f) e names w) :
      v.Resolves parent f (name :: names) w
  | tooLong {parent : Option Nat} {f : Nat} {name : Name} {names : List Name}
      (hstop : ¬v.IsDir f ∨ ∀ e, ¬v.Child f name e) (hlong : maxNameLen ≤ name.length) :
      v.Resolves parent f (name :: names) (.failed (-eBadPath))
  | lastMissing {parent : Option Nat} {f : Nat} {name : Name} (hdir : v.IsDir f)
      (hnone : ∀ e, ¬v.Child f name e) (hshort : name.length < maxNameLen) :
      v.Resolves parent f [name] (.missing f name)
  | notFound {parent : Option Nat} {f : Nat} {name : Name} {names : List Name}
      (hstop : ¬v.IsDir f ∨ names ≠ [] ∧ ∀ e, ¬v.Child f name e)
      (hshort : name.length < maxNameLen) :
      v.Resolves parent f (name :: names) (.failed (-eNotFound))

end View

end Fs

end ZynexOS
