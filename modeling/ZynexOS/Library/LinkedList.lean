import ZynexOS.Library.Chain

/-!
# Lists with links in both directions

Each member has a pointer to the next one, and the address of the pointer that points to it.
-/

namespace Library

open Function

variable {ι : Type*}

inductive Place (ι : Type*) where
  | first
  | next (x : ι)

/-- The head of a list and the links of all possible members. A member that was never on a list may
have no `prev`. -/
structure Links (ι : Type*) where
  first : Option ι
  next : ι → Option ι
  prev : ι → Option (Place ι)

namespace Links

variable [DecidableEq ι] {links : Links ι} {l : List ι} {x : ι}

def put (links : Links ι) (place : Place ι) (target : Option ι) : Links ι :=
  match place with
  | .first => { links with first := target }
  | .next x => { links with next := update links.next x target }

def setPrev (links : Links ι) (target : Option ι) (place : Option (Place ι)) : Links ι :=
  match target with
  | none => links
  | some x => { links with prev := update links.prev x place }

def insertAccess (links : Links ι) (x : ι) : List ι := x :: links.first.toList

def insertHead (links : Links ι) (x : ι) : Links ι :=
  let links := links.put (.next x) links.first
  let links := links.setPrev links.first (some (.next x))
  let links := { links with first := some x }
  links.setPrev (some x) (some .first)

def removeAccess (links : Links ι) (x : ι) : List ι :=
  x :: (links.next x).toList ++
    match links.prev x with
    | some (.next y) => [y]
    | _ => []

def remove (links : Links ι) (x : ι) : Option (Links ι) :=
  let links := links.setPrev (links.next x) (links.prev x)
  (links.prev x).map fun place => links.put place (links.next x)

/-! ### Well-formed lists -/

structure IsList (links : Links ι) (l : List ι) : Prop where
  chain : Chain links.next links.first l
  nodup : l.Nodup
  prev : ∀ x, links.first = some x → links.prev x = some .first

omit [DecidableEq ι] in
theorem isList_nil (hfirst : links.first = none) : links.IsList [] :=
  ⟨hfirst, .nil, fun _ h => absurd (hfirst.symm.trans h) nofun⟩

theorem first_insertHead (links : Links ι) (x : ι) : (links.insertHead x).first = some x := by
  unfold insertHead put setPrev
  rfl

theorem next_insertHead (links : Links ι) (x : ι) :
    (links.insertHead x).next = update links.next x links.first := by
  unfold insertHead put setPrev
  dsimp only
  cases links.first <;> rfl

theorem prev_insertHead (links : Links ι) (x : ι) : (links.insertHead x).prev x = some .first := by
  unfold insertHead put setPrev
  dsimp only
  exact update_self x _ _

theorem IsList.insertHead (hlist : links.IsList l) (hx : x ∉ l) :
    (links.insertHead x).IsList (x :: l) := by
  refine ⟨⟨first_insertHead links x, ?_⟩, List.nodup_cons.mpr ⟨hx, hlist.nodup⟩, fun y hy => ?_⟩
  · rw [next_insertHead, update_self]
    refine hlist.chain.congr fun y hy => update_of_ne ?_ _ _
    rintro rfl
    exact hx hy
  · rw [first_insertHead] at hy
    cases hy
    exact prev_insertHead links x

omit [DecidableEq ι] in
theorem IsList.insertAccess (hlist : links.IsList l) {y : ι} (hy : y ∈ links.insertAccess x) :
    y = x ∨ y ∈ l := by
  refine (List.mem_cons.mp hy).imp_right fun h => ?_
  cases l with
  | nil =>
      have hfirst : links.first = none := hlist.chain
      rw [hfirst] at h
      cases h
  | cons z l =>
      rw [hlist.chain.1] at h
      exact List.mem_cons.mpr (.inl (List.mem_singleton.mp h))

omit [DecidableEq ι] in
theorem IsList.removeAccess (hlist : links.IsList (x :: l)) {y : ι}
    (hy : y ∈ links.removeAccess x) : y ∈ x :: l := by
  unfold Links.removeAccess at hy
  rw [hlist.prev x hlist.chain.1, List.append_nil] at hy
  refine List.mem_cons.mpr ((List.mem_cons.mp hy).imp_right fun h => ?_)
  have hrest := hlist.chain.2
  cases l with
  | nil =>
      have hnext : links.next x = none := hrest
      rw [hnext] at h
      cases h
  | cons z l =>
      rw [hrest.1] at h
      exact List.mem_cons.mpr (.inl (List.mem_singleton.mp h))

theorem IsList.remove_first (hlist : links.IsList (x :: l)) :
    ∃ links', links.remove x = some links' ∧ links'.IsList l := by
  have hfirst : links.first = some x := hlist.chain.1
  have hprev := hlist.prev x hfirst
  have hrest := hlist.chain.2
  obtain ⟨hx, hnodup⟩ := List.nodup_cons.mp hlist.nodup
  cases l with
  | nil =>
      have hnext : links.next x = none := hrest
      refine ⟨{ links with first := none }, ?_, isList_nil rfl⟩
      unfold remove setPrev
      rw [hnext]
      dsimp only
      rw [hprev, hnext]
      rfl
  | cons y l =>
      have hnext : links.next x = some y := hrest.1
      have hne : x ≠ y := fun h => hx (h ▸ List.mem_cons_self)
      have hkept : update links.prev y (links.prev x) x = some .first := by
        rw [update_of_ne hne, hprev]
      refine ⟨{ links with first := some y, prev := update links.prev y (links.prev x) }, ?_,
        ⟨rfl, hrest.2⟩, hnodup, fun z hz => ?_⟩
      · unfold remove setPrev
        rw [hnext]
        dsimp only
        rw [hkept, hnext]
        rfl
      · cases hz
        exact (update_self y _ _).trans hprev

end Links

end Library
