import ZynexOS.Kern.Env
import ZynexOS.Kern.PageInit
import ZynexOS.Library.Counting

/-!
# Page tables as pages of words

`Vm.Shows` relates the words of each page, the reference counts and the members of the free list to the
kernel's state, and `Forest` says that the pages in use as page tables form trees, one for each page
directory, in which every entry is a link that `pgdir_create_page_level` has written.
-/

namespace ZynexOS

open Library

def slotAddr (p i : Nat) : Word := entryAddr (pageKva p) i

def link (c : Nat) : Word := pdeEntry (page2pa c) ||| pteV

structure Pt where
  word : Nat → Nat → Word
  ref : Nat → BitVec 16
  free : List Nat

namespace Pt

def setWord (pt : Pt) (p i : Nat) (w : Word) : Pt :=
  { pt with word := fun p' i' => if p' = p ∧ i' = i then w else pt.word p' i' }

def setRef (pt : Pt) (p : Nat) (r : BitVec 16) : Pt :=
  { pt with ref := Function.update pt.ref p r }

def pop (pt : Pt) : Pt := { pt with free := pt.free.tail }

def push (pt : Pt) (p : Nat) : Pt := { pt with free := p :: pt.free }

def zero (pt : Pt) (p : Nat) : Pt :=
  { pt with word := fun p' i' => if p' = p then 0 else pt.word p' i' }

def take (pt : Pt) (c : Nat) : Pt := (pt.pop.zero c).setRef c (pt.ref c + 1)

def addTable (pt : Pt) (t i c : Nat) : Pt := (pt.take c).setWord t i (link c)

def decref (pt : Pt) (p : Nat) : Pt :=
  if pt.ref p - 1 = 0 then (pt.setRef p (pt.ref p - 1)).push p else pt.setRef p (pt.ref p - 1)

def target (w : Word) : Option Nat := if w = 0 then none else some (pgnum (ptePhy w))

def child (pt : Pt) (t i : Nat) : Option Nat :=
  if pt.word t i &&& pteV = 0 then none else some (pgnum (pdePhy (pt.word t i)))

def descend (pt : Pt) : Nat → List Nat → Option Nat
  | t, [] => some t
  | t, i :: path => (pt.child t i).bind fun c => pt.descend c path

def extend (pt : Pt) : Nat → List Nat → Option Nat × Pt
  | t, [] => (some t, pt)
  | t, i :: path =>
      match pt.child t i with
      | some c => pt.extend c path
      | none =>
          match pt.free with
          | [] => (none, pt)
          | c :: _ => (pt.addTable t i c).extend c path

def Linked (pt : Pt) (n : Nat) : Nat → List Nat → Prop
  | t, [] => t < n
  | t, i :: path => t < n ∧ i < 512 ∧ (pt.word t i = 0 ∨ ∃ c, pt.word t i = link c ∧ pt.Linked n c path)

def Sound (pt : Pt) (n : Nat) : Nat → List Nat → Prop
  | t, [] => t < n ∧ t ∉ pt.free
  | t, i :: path => t < n ∧ t ∉ pt.free ∧ i < 512 ∧
      (pt.word t i = 0 ∨ ∃ c, pt.word t i = link c ∧ pt.Sound n c path)

end Pt

def path (va : Word) : List Nat := [pd0x va, pd1x va, pd2x va]

structure Vm.Shows (vm : Vm) (n : Nat) (pt : Pt) : Prop where
  npages : vm.npages = n
  bound : n ≤ 2 ^ 19
  word : ∀ p < n, ∀ i < 512, vm.mem (slotAddr p i) = some (pt.word p i)
  ref : ∀ p, (vm.pages p).ppRef = pt.ref p
  list : Chain (fun p => (vm.pages p).ppLink) vm.pageFreeList pt.free
  nodup : pt.free.Nodup
  free : ∀ p ∈ pt.free, p < n
  unlinked : ∀ p, p ∉ pt.free → (vm.pages p).ppLink = none

def MapsPage (w : Word) (c : Nat) : Prop :=
  ∃ flags : Word, w = pteEntry (page2pa c) ||| flags ∧ flags.toNat < 2 ^ 10 ∧ flags &&& pteV ≠ 0

/-- Page memory together with the use of each page: `own p = some d` says that `p` is a table of the
directory in page `d`, and `lvl p` is its level, 0 for the directory and 3 for a table of leaf
entries. `self` is the slot of the self map, if the directories have one, and `other p` is the number
of references to `p` that do not come from an entry of these tables. -/
structure Tables extends Pt where
  own : Nat → Option Nat
  lvl : Nat → Nat
  self : Option Nat
  other : Nat → Nat

namespace Tables

def Dir (T : Tables) (p i : Nat) : Prop :=
  T.lvl p < 3 ∧ i < 512 ∧ ¬ (T.lvl p = 0 ∧ T.self = some i)

/-- The page that a leaf entry refers to; the entries in `fixed` are those that `mem_init` has filled
in without counting a reference. -/
def mapsTo (T : Tables) (fixed : Nat → Nat → Bool) (slot : Nat × Nat) : Option Nat :=
  if T.own slot.1 ≠ none ∧ T.lvl slot.1 = 3 ∧ fixed slot.1 slot.2 = false then
    Pt.target (T.word slot.1 slot.2)
  else none

def refs (T : Tables) (n : Nat) (fixed : Nat → Nat → Bool) (c : Nat) : Nat :=
  count (Finset.range n ×ˢ Finset.range 512) (T.mapsTo fixed) c

/-- The references to the page `c` other than leaf entries: the entry of the table above, if `c` is a
table, and those from outside. -/
def held (T : Tables) (kd c : Nat) : Nat :=
  (if T.own c ≠ none ∧ c ≠ kd then 1 else 0) + T.other c

/-- The directory `kd` is not given up when leaf entries are emptied: it has a reference from outside,
or no leaf entry refers to it. -/
def Rooted (T : Tables) (n kd : Nat) (fixed : Nat → Nat → Bool) : Prop :=
  T.other kd = 0 → T.refs n fixed kd = 0

def addTable (T : Tables) (t i c : Nat) : Tables where
  toPt := T.toPt.addTable t i c
  own := Function.update T.own c (T.own t)
  lvl := Function.update T.lvl c (T.lvl t + 1)
  self := T.self
  other := T.other

def retire (T : Tables) (c : Nat) : Tables where
  toPt := T.decref c
  own := Function.update T.own c none
  lvl := T.lvl
  self := T.self
  other := T.other

def addDir (T : Tables) (kd c : Nat) : Tables where
  word p i :=
    if p = c then
      if i = pd0x uvpt then page2pa c ||| pteV
      else if i ∈ Kern.setupSlots then T.word kd i else 0
    else T.word p i
  ref := (T.take c).ref
  free := T.free.tail
  own := Function.update T.own c (some c)
  lvl := Function.update T.lvl c 0
  self := T.self
  other := T.other

def extend (T : Tables) : Nat → List Nat → Option Nat × Tables
  | t, [] => (some t, T)
  | t, i :: path =>
      match T.child t i with
      | some c => T.extend c path
      | none =>
          match T.free with
          | [] => (none, T)
          | c :: _ => (T.addTable t i c).extend c path

def root (T : Tables) (kd d i : Nat) : Nat :=
  if T.word d i ≠ 0 ∧ T.word d i = T.word kd i then kd else d

structure Leaf (T : Tables) (fixed : Nat → Nat → Bool) (p i : Nat) : Prop where
  own : T.own p ≠ none
  lvl : T.lvl p = 3
  index : i < 512
  counted : fixed p i = false

def unmap (T : Tables) (p i : Nat) : Tables :=
  match Pt.target (T.word p i) with
  | none => T
  | some c => { T with toPt := (T.decref c).setWord p i 0 }

def remove (T : Tables) (d : Nat) (va : Word) : Tables :=
  match T.descend d (path va) with
  | none => T
  | some leaf => T.unmap leaf (ptx va)

def enter (T : Tables) (p i pp : Nat) (w : Word) : Tables :=
  { T with toPt := (T.setRef pp (T.ref pp + 1)).setWord p i w }

def insert (T : Tables) (p i pp : Nat) (w : Word) : Tables :=
  if T.word p i = 0 then T.enter p i pp w
  else if Pt.target (T.word p i) = some pp then { T with toPt := T.setWord p i w }
  else (T.unmap p i).enter p i pp w

structure Grows (T T' : Tables) (r : Nat) : Prop where
  free : T'.free <:+ T.free
  self : T'.self = T.self
  other : T'.other = T.other
  old : ∀ p, p ∉ T.free ∨ p ∈ T'.free →
    T'.own p = T.own p ∧ T'.lvl p = T.lvl p ∧ T'.ref p = T.ref p
  word : ∀ p j, p ∉ T.free → T.word p j ≠ 0 → T'.word p j = T.word p j
  leaf : ∀ p j, p ∉ T.free → T.own p = none ∨ T.lvl p = 3 → T'.word p j = T.word p j
  made : ∀ p ∈ T.free, p ∉ T'.free →
    T'.own p = some r ∧ T'.ref p = 1 ∧ (T'.lvl p = 3 → ∀ j, T'.word p j = 0)
  fresh : ∀ p j, p ∉ T'.free → p ∈ T.free ∨ T.word p j = 0 →
    T'.word p j = 0 ∨ ∃ c ∈ T.free, c ∉ T'.free ∧ T'.word p j = link c

def decode (w : Word) : Option (Nat × Word) :=
  if w = 0 then none else some (pgnum (ptePhy w), w &&& Vm.insertMask)

def entry (T : Tables) (d : Nat) (va : Word) : Option (Nat × Word) :=
  (T.descend d (path va)).bind fun leaf => decode (T.word leaf (ptx va))

structure Idle (T : Tables) (n p : Nat) : Prop where
  bound : p < n
  free : p ∉ T.free
  own : T.own p = none
  ref : T.ref p = 0

/-- The table `t` is reached from the directory `d` by the indices of `above`, the last one first,
through tables of `d` only. -/
def At (T : Tables) (d : Nat) : List Nat → Nat → Prop
  | [], t => t = d
  | i :: above, t =>
      ∃ p, T.At d above p ∧ T.own p = some d ∧ T.lvl p = above.length ∧ T.word p i = link t

/-- Tables and leaf entries of the directory `d` have been given up, but nothing in the tables of a
level below `m`. -/
structure Pruned (T T' : Tables) (d m : Nat) : Prop where
  lvl : T'.lvl = T.lvl
  self : T'.self = T.self
  other : T'.other = T.other
  own : ∀ p, T'.own p = T.own p ∨
    T.own p = some d ∧ T'.own p = none ∧ (T'.ref p).toNat < (T.ref p).toNat
  ref : ∀ p, (T'.ref p).toNat ≤ (T.ref p).toNat
  free : ∀ p ∈ T'.free, p ∈ T.free ∨ T.ref p ≠ 0
  returned : ∀ p, p ∈ T.free ∨ T.ref p ≠ 0 → T'.ref p = 0 → p ∈ T'.free
  word : ∀ p j, T'.own p ≠ none → T'.word p j = T.word p j ∨ T.own p = some d ∧ T'.word p j = 0
  above : ∀ p, T.own p ≠ none → T.lvl p < m → T'.own p = T.own p ∧ T'.word p = T.word p

end Tables

/-- The pages in use as page tables form one tree for each directory. The tables under a slot of
`setupSlots` may belong to `kern_pgdir`, whose directory is the page `kd`. -/
structure Forest (n kd : Nat) (fixed : Nat → Nat → Bool) (T : Tables) : Prop where
  bound : n ≤ 2 ^ 19
  kern : T.own kd = some kd ∧ T.lvl kd = 0
  table : ∀ p r, T.own p = some r → p < n ∧ p ∉ T.free ∧ T.lvl p ≤ 3 ∧ (T.lvl p = 0 → p = r)
  nodup : T.free.Nodup
  free : ∀ p ∈ T.free, p < n ∧ T.ref p = 0
  links : ∀ p r i, T.own p = some r → T.Dir p i → T.word p i = 0 ∨
    ∃ c, T.word p i = link c ∧ T.lvl c = T.lvl p + 1 ∧ (T.own c = some r ∨
      T.lvl p = 0 ∧ i ∈ Kern.setupSlots ∧ T.own c = some kd ∧ T.word kd i = link c)
  parent : ∀ p p' i i' c r, T.own p = some r → T.own p' = some r → T.own c = some r →
    T.Dir p i → T.Dir p' i' → T.word p i = link c → T.word p' i' = link c → p = p' ∧ i = i'
  selfMap : ∀ d i, T.own d = some d → T.lvl d = 0 → d ≠ kd → T.self = some i →
    T.word d i = page2pa d ||| pteV
  leaf : ∀ p r i, T.own p = some r → T.lvl p = 3 → i < 512 → fixed p i = false →
    T.word p i = 0 ∨ ∃ c, c < n ∧ MapsPage (T.word p i) c
  refs : ∀ c < n, (T.ref c).toNat = T.refs n fixed c + T.held kd c
  fixed : ∀ p i, fixed p i = true → T.own p = some kd

/-! ### A page table as a map -/

def vpn (va : Word) : Word := (va >>> 12) &&& 0xfffffffff

namespace Vm

def binding (vm : Vm) (pgdir va : Word) : Except Panic (Option (Nat × Word)) := do
  match ← vm.pageLookup pgdir va with
  | none => pure none
  | some (pp, slot) =>
      let pte ← vm.load slot
      pure (some (pp, pte &&& insertMask))

/-- What `page_insert` of `pp` at `va` does when it returns 0: the page of `va` is bound to `pp`, and
the references follow. -/
structure Inserted (vm vm' : Vm) (pgdir va : Word) (pp : Nat) (perm : BitVec 32) : Prop where
  bound : ∀ va', vpn va' = vpn va →
    vm'.binding pgdir va' = .ok (some (pp, perm.setWidth 64 ||| pteV))
  others : ∀ va', vpn va' ≠ vpn va → vm'.binding pgdir va' = vm.binding pgdir va'
  again : ∀ flags, vm.binding pgdir va = .ok (some (pp, flags)) →
    (vm'.pages pp).ppRef = (vm.pages pp).ppRef
  counted : (∀ flags, vm.binding pgdir va ≠ .ok (some (pp, flags))) →
    (vm'.pages pp).ppRef.toNat = (vm.pages pp).ppRef.toNat + 1
  replaced : ∀ c flags, c ≠ pp → vm.binding pgdir va = .ok (some (c, flags)) →
    (vm'.pages c).ppRef.toNat + 1 = (vm.pages c).ppRef.toNat ∧
      (vm'.OnFreeList c ↔ (vm'.pages c).ppRef = 0)
  kept : ∀ q, q ≠ pp → ¬ vm.OnFreeList q → (∀ flags, vm.binding pgdir va ≠ .ok (some (q, flags))) →
    (vm'.pages q).ppRef = (vm.pages q).ppRef

/-- The directory in page `root` is a tree of distinct table pages, as `T` lists them; every entry is
counted in the page it refers to. -/
structure IsPageTable (vm : Vm) (n root : Nat) (T : Tables) : Prop where
  shows : vm.Shows n T.toPt
  forest : Forest n root (fun _ _ => false) T
  self : T.self = none
  own : ∀ p r, T.own p = some r → r = root

inductive PageOp where
  | walk (va : Word)
  | insert (pp : Nat) (va : Word) (perm : BitVec 32)
  | remove (va : Word)

def PageOp.run (pgdir : Word) (vm : Vm) : PageOp → Option Vm
  | walk va => (vm.pgdirWalk pgdir va true).toOption.map Prod.snd
  | insert pp va perm => (vm.pageInsert pgdir (some pp) va perm).toOption.map Prod.snd
  | remove va => (vm.pageRemove pgdir va).toOption

/-- What an operation on a directory may be given: a page that is in use and can be referred to once
more, and flags below bit 10. -/
def PageOp.Ok (vm : Vm) : PageOp → Prop
  | insert pp _ perm =>
      pp < vm.npages ∧ ¬ vm.OnFreeList pp ∧ (vm.pages pp).ppRef.toNat < 65535 ∧ perm.toNat < 2 ^ 10
  | _ => True

structure ZeroedRoot (n root : Nat) (vm : Vm) : Prop where
  shows : ∃ pt, vm.Shows n pt ∧ root ∉ pt.free ∧ (∀ p ∈ pt.free, pt.ref p = 0) ∧
    ∀ i < 512, pt.word root i = 0
  bound : root < n
  counted : (vm.pages root).ppRef ≠ 0

end Vm

end ZynexOS
