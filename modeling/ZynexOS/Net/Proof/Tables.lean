import ZynexOS.Net.Tables

/-!
# The tables of semaphores and mailboxes in every run

The creation of a mailbox that fails half way frees `sems[-1]`.
-/

namespace ZynexOS

open Library Function

/-! ### Lists and flags -/

/-- The list of a table has the entries whose flag is 1. -/
structure FreeList (size : Nat) (freed : Int → Int) (links : Links Int) (l : List Int) : Prop where
  isList : links.IsList l
  mem : ∀ i : Int, i ∈ l ↔ 0 ≤ i ∧ i < size ∧ freed i = 1

namespace FreeList

variable {size : Nat} {freed : Int → Int} {links : Links Int} {l : List Int} {i : Int}

theorem flagsMatch (hlist : FreeList size freed links l) : SysTables.FlagsMatch size freed l where
  inside := fun i hi => ⟨((hlist.mem i).mp hi).1, ((hlist.mem i).mp hi).2.1⟩
  count := fun i hlow hhigh => by
    constructor
    · intro h
      exact ((hlist.mem i).mp (List.count_pos_iff.mp (by omega))).2.2
    · intro h
      exact List.count_eq_one_of_mem hlist.isList.nodup ((hlist.mem i).mpr ⟨hlow, hhigh, h⟩)
  once := List.nodup_iff_count_le_one.mp hlist.isList.nodup

theorem empty (hfirst : links.first = none) : FreeList 0 freed links [] where
  isList := Links.isList_nil hfirst
  mem := fun i => by
    simp only [List.not_mem_nil, Nat.cast_zero, false_iff]
    omega

theorem grow (hlist : FreeList size freed links l) :
    FreeList (size + 1) (update freed size 1) (links.insertHead size) (size :: l) where
  isList := hlist.isList.insertHead fun h => absurd ((hlist.mem _).mp h).2.1 (lt_irrefl _)
  mem := fun i => by
    rw [List.mem_cons, hlist.mem i]
    by_cases hi : i = size
    · subst hi
      simp
    · rw [update_of_ne hi, Nat.cast_succ]
      simp only [hi, false_or]
      constructor <;> rintro ⟨h1, h2, h3⟩ <;> exact ⟨h1, by omega, h3⟩

theorem give (hlist : FreeList size freed links l) (hlow : 0 ≤ i) (hhigh : i < size)
    (hfreed : freed i = 0) :
    FreeList size (update freed i 1) (links.insertHead i) (i :: l) where
  isList := hlist.isList.insertHead fun h => by
    have := ((hlist.mem i).mp h).2.2
    omega
  mem := fun j => by
    rw [List.mem_cons, hlist.mem j]
    by_cases hj : j = i
    · subst hj
      simp [hlow, hhigh]
    · rw [update_of_ne hj]
      simp [hj]

theorem take (hlist : FreeList size freed links (i :: l)) :
    ∃ links', links.remove i = some links' ∧
      FreeList size (update freed i 0) links' l := by
  obtain ⟨links', hremove, hrest⟩ := hlist.isList.remove_first
  refine ⟨links', hremove, hrest, fun j => ?_⟩
  obtain ⟨hi, -⟩ := List.nodup_cons.mp hlist.isList.nodup
  have hmem := hlist.mem j
  rw [List.mem_cons] at hmem
  by_cases hj : j = i
  · subst hj
    simp [hi]
  · rw [update_of_ne hj, ← hmem]
    simp [hj]

theorem congr {freed' : Int → Int} (hlist : FreeList size freed links l)
    (hfreed : ∀ i : Int, 0 ≤ i → i < size → freed' i = freed i) : FreeList size freed' links l where
  isList := hlist.isList
  mem := fun i => by
    rw [hlist.mem i]
    constructor <;> rintro ⟨h1, h2, h3⟩
    · exact ⟨h1, h2, (hfreed i h1 h2).trans h3⟩
    · exact ⟨h1, h2, (hfreed i h1 h2).symm.trans h3⟩

theorem first_cons (hlist : FreeList size freed links (i :: l)) : links.first = some i :=
  hlist.isList.chain.1

theorem first_nil (hlist : FreeList size freed links []) : links.first = none := hlist.isList.chain

theorem inside (hlist : FreeList size freed links l) (hi : i ∈ l) : 0 ≤ i ∧ i < size :=
  ⟨((hlist.mem i).mp hi).1, ((hlist.mem i).mp hi).2.1⟩

theorem insertAccess_inside {n : Nat} (hlist : FreeList size freed links l) (hsize : size ≤ n)
    (hlow : 0 ≤ i) (hhigh : i < n) : ∀ j ∈ links.insertAccess i, 0 ≤ j ∧ j < (n : Int) := by
  intro j hj
  rcases hlist.isList.insertAccess hj with rfl | hj
  · exact ⟨hlow, hhigh⟩
  · have := hlist.inside hj
    omega

theorem freed_head (hlist : FreeList size freed links (i :: l)) : freed i = 1 :=
  ((hlist.mem i).mp List.mem_cons_self).2.2

end FreeList

namespace SysTables

variable {s s' : SysTables} {size : Nat} {entries : List Int} {i : Int}

theorem leaves_eq_false : leaves size entries = false ↔ ∀ i ∈ entries, 0 ≤ i ∧ i < size := by
  unfold leaves
  simp only [List.any_eq_false, Bool.not_eq_true', Bool.not_eq_false, Bool.and_eq_true,
    decide_eq_true_eq]

theorem touch_inside (h : ∀ i ∈ entries, 0 ≤ i ∧ i < size) : s.touch size entries = s := by
  unfold touch
  rw [leaves_eq_false.mpr h, Bool.or_false]

theorem setSem_inside (hlow : 0 ≤ i) (hhigh : i < nsem) (entry : SysSemEntry) :
    s.setSem i entry = { s with sems := update s.sems i entry } := by
  unfold setSem
  rw [touch_inside]
  exact fun j hj => (List.mem_singleton.mp hj) ▸ ⟨hlow, hhigh⟩

theorem setMbox_inside (hlow : 0 ≤ i) (hhigh : i < nmbox) (entry : SysMboxEntry) :
    s.setMbox i entry = { s with mboxes := update s.mboxes i entry } := by
  unfold setMbox
  rw [touch_inside]
  exact fun j hj => (List.mem_singleton.mp hj) ▸ ⟨hlow, hhigh⟩

end SysTables

/-! ### Calls -/

open SysTables

variable {s s' : SysTables} {sem mbox i : Int} {l sems mboxes : List Int}

theorem sysAssert_true {cond : SysTables → Bool} (h : cond s = true) :
    sysAssert cond s = .ok () s := by
  unfold sysAssert
  rw [get_bind, if_pos h]
  rfl

theorem sysAssert_false {cond : SysTables → Bool} (h : cond s = false) :
    sysAssert cond s = .error .assertion s := by
  unfold sysAssert
  rw [get_bind, if_neg (by rw [h]; exact Bool.false_ne_true)]
  rfl

theorem sysDeref_some {access : SysTables → Option SysTables} (h : access s = some s') :
    sysDeref access s = .ok () s' := by
  unfold sysDeref
  rw [get_bind, h]
  rfl

structure SameMboxes (s s' : SysTables) : Prop where
  mboxes : s'.mboxes = s.mboxes
  mboxFree : s'.mboxFree = s.mboxFree

structure SemFreed (s s' : SysTables) (sem : Int) : Prop extends SameMboxes s s' where
  sems : s'.sems =
    update s.sems sem { s.sems sem with freed := 1, gen := (s.sems sem).gen + 1 }
  semFree : s'.semFree = s.semFree.insertHead sem
  outside : s'.outside = (s.outside || leaves nsem (s.semFree.insertAccess sem))

theorem SemFreed.freed (hafter : SemFreed s s' sem) : (s'.sems sem).freed = 1 := by
  rw [hafter.sems, update_self]

theorem SemFreed.others (hafter : SemFreed s s' sem) (i : Int) (hi : i ≠ sem) :
    s'.sems i = s.sems i := by
  rw [hafter.sems, update_of_ne hi]

theorem SysTables.leaves_of_mem {size : Nat} {entries : List Int} (hi : i ∈ entries)
    (h : leaves size [i] = true) : leaves size entries = true :=
  List.any_eq_true.mpr ⟨i, hi, by simpa [leaves] using h⟩

theorem sysSemFree_ok (hfreed : (s.sems sem).freed = 0) :
    ∃ s', sysSemFree sem s = .ok () s' ∧ SemFreed s s' sem := by
  unfold sysSemFree
  rw [modify_bind, bind_of_ok (sysAssert_true (decide_eq_true hfreed)), modify_bind, modify_bind]
  refine ⟨_, rfl, ⟨rfl, rfl⟩, ?_, rfl, ?_⟩
  · unfold insertSem setSem touch
    simp
  · -- the index itself is one of the entries that the insertion accesses
    have hmem : sem ∈ s.semFree.insertAccess sem := List.mem_cons_self
    have habsorb : leaves nsem [sem] = true →
        leaves nsem (s.semFree.insertAccess sem) = true := leaves_of_mem hmem
    unfold insertSem setSem touch
    dsimp only
    cases hleaves : leaves nsem [sem] with
    | false => simp
    | true => simp [habsorb hleaves]

theorem sysSemFree_freed (hfreed : (s.sems sem).freed ≠ 0) :
    ∃ s', sysSemFree sem s = .error .assertion s' := by
  refine ⟨s.touch nsem [sem], ?_⟩
  unfold sysSemFree
  rw [modify_bind]
  exact bind_of_error (sysAssert_false (decide_eq_false hfreed))

structure SemsSound (s : SysTables) (l : List Int) : Prop where
  list : FreeList nsem (fun i => (s.sems i).freed) s.semFree l
  inside : s.outside = false

theorem SemsSound.of_update
    (hlist : FreeList nsem (update (fun i => (s.sems i).freed) sem i) s'.semFree l)
    (hinside : s'.outside = false) (hfreed : (s'.sems sem).freed = i)
    (hothers : ∀ j, j ≠ sem → s'.sems j = s.sems j) : SemsSound s' l := by
  refine ⟨?_, hinside⟩
  have hflags : (fun i => (s'.sems i).freed) = update (fun i => (s.sems i).freed) sem i := by
    funext j
    by_cases hj : j = sem
    · rw [hj, update_self, hfreed]
    · rw [update_of_ne hj, hothers j hj]
  rw [hflags]
  exact hlist

theorem SemsSound.free (hsound : SemsSound s l) (hlow : 0 ≤ sem) (hhigh : sem < nsem)
    (hfreed : (s.sems sem).freed = 0) (hafter : SemFreed s s' sem) : SemsSound s' (sem :: l) := by
  have hlist := hsound.list.give hlow hhigh hfreed
  rw [← hafter.semFree] at hlist
  refine .of_update hlist ?_ hafter.freed hafter.others
  rw [hafter.outside, hsound.inside, Bool.false_or, leaves_eq_false]
  exact hsound.list.insertAccess_inside le_rfl hlow hhigh

structure SemTaken (s s' : SysTables) (sem : Int) : Prop extends SameMboxes s s' where
  others : ∀ i, i ≠ sem → s'.sems i = s.sems i
  freed : (s'.sems sem).freed = 0

theorem sysSemNew_some (hsound : SemsSound s (sem :: l)) (count : BitVec 8) :
    ∃ s', sysSemNew count s = .ok sem s' ∧ SemTaken s s' sem ∧ SemsSound s' l := by
  obtain ⟨links, hremove, hlist⟩ := hsound.list.take
  obtain ⟨hlow, hhigh⟩ := hsound.list.inside List.mem_cons_self
  have hdone : s.removeSem sem = some { s with semFree := links } := by
    unfold removeSem
    rw [hremove, touch_inside]
    · rfl
    · intro j hj
      exact hsound.list.inside (hsound.list.isList.removeAccess hj)
  have hfreed : (s.sems sem).freed ≠ 0 := by
    have h : (s.sems sem).freed = 1 := hsound.list.freed_head
    omega
  unfold sysSemNew
  rw [get_bind, hsound.list.first_cons]
  dsimp only
  rw [bind_of_ok (sysDeref_some hdone), bind_of_ok (sysAssert_true (decide_eq_true hfreed)),
    modify_bind, modify_bind, modify_bind]
  simp only [setSem_inside hlow hhigh]
  refine ⟨_, rfl, ⟨⟨rfl, rfl⟩, fun j hj => ?_, ?_⟩,
    .of_update hlist hsound.inside ?_ fun j hj => ?_⟩
  · simp only [update_of_ne hj]
  · simp only [update_self]
  · simp only [update_self]
  · simp only [update_of_ne hj]

theorem sysSemNew_none (hsound : SemsSound s []) (count : BitVec 8) :
    sysSemNew count s = .ok sysSemNull s := by
  unfold sysSemNew
  rw [get_bind, hsound.list.first_nil]
  rfl

/-! ### Mailboxes -/

structure SysMboxEntry.HasSems (entry : SysMboxEntry) : Prop where
  queuedMsg : 0 ≤ entry.queuedMsg ∧ entry.queuedMsg < nsem
  freeMsg : 0 ≤ entry.freeMsg ∧ entry.freeMsg < nsem

structure Sound (s : SysTables) (sems mboxes : List Int) : Prop extends SemsSound s sems where
  mboxes : FreeList nmbox (fun i => (s.mboxes i).freed) s.mboxFree mboxes
  hasSems : ∀ i : Int, 0 ≤ i → i < nmbox → (s.mboxes i).freed ≠ 1 → (s.mboxes i).HasSems

namespace Sound

theorem freeSems (hsound : Sound s sems mboxes) : s.freeSems = {i | i ∈ sems} := by
  ext i
  exact (hsound.list.mem i).symm

theorem freeMboxes (hsound : Sound s sems mboxes) : s.freeMboxes = {i | i ∈ mboxes} := by
  ext i
  exact (hsound.mboxes.mem i).symm

theorem listsMatch (hsound : Sound s sems mboxes) : s.ListsMatch :=
  ⟨⟨sems, hsound.list.isList.chain, hsound.list.flagsMatch⟩,
    mboxes, hsound.mboxes.isList.chain, hsound.mboxes.flagsMatch⟩

theorem of_sameMboxes (hsound : Sound s sems mboxes) (hsems : SemsSound s' l)
    (hsame : SameMboxes s s') : Sound s' l mboxes := by
  refine ⟨hsems, ?_, ?_⟩
  · rw [hsame.mboxes, hsame.mboxFree]
    exact hsound.mboxes
  · rw [hsame.mboxes]
    exact hsound.hasSems

end Sound

theorem sysSemFree_sound (hsound : SemsSound s l) (hlow : 0 ≤ sem) (hhigh : sem < nsem) :
    wp (sysSemFree sem) (fun _ s' => SemFreed s s' sem ∧ SemsSound s' (sem :: l))
      (fun _ _ => True) s := by
  by_cases hfreed : (s.sems sem).freed = 0
  · obtain ⟨s', hrun, hafter⟩ := sysSemFree_ok hfreed
    exact (wp_of_ok hrun).mpr ⟨hafter, hsound.free hlow hhigh hfreed hafter⟩
  · obtain ⟨s', hrun⟩ := sysSemFree_freed hfreed
    exact (wp_of_error hrun).mpr trivial

theorem wp_sysAssert {cond : SysTables → Bool} {Q : Unit → SysTables → Prop}
    (h : cond s = true → Q () s) : wp (sysAssert cond) Q (fun _ _ => True) s := by
  cases hcond : cond s with
  | true => exact (wp_of_ok (sysAssert_true hcond)).mpr (h hcond)
  | false => exact (wp_of_error (sysAssert_false hcond)).mpr trivial

theorem mem_singleton_inside {size : Nat} (hlow : 0 ≤ i) (hhigh : i < size) :
    ∀ j ∈ [i], 0 ≤ j ∧ j < (size : Int) := by
  intro j hj
  rw [List.mem_singleton.mp hj]
  exact ⟨hlow, hhigh⟩

theorem semFreed_update (s : SysTables) (sem : Int) (entry : SysSemEntry) :
    (fun i => (update s.sems sem entry i).freed) =
      update (fun i => (s.sems i).freed) sem entry.freed :=
  Function.comp_update SysSemEntry.freed s.sems sem entry

theorem mboxFreed_update (s : SysTables) (mbox : Int) (entry : SysMboxEntry) :
    (fun i => (update s.mboxes mbox entry i).freed) =
      update (fun i => (s.mboxes i).freed) mbox entry.freed :=
  Function.comp_update SysMboxEntry.freed s.mboxes mbox entry

theorem Sound.giveMbox (hsound : Sound s sems mboxes) (hlow : 0 ≤ mbox) (hhigh : mbox < nmbox)
    (hfreed : (s.mboxes mbox).freed = 0) :
    Sound ((s.insertMbox mbox).setMbox mbox { s.mboxes mbox with freed := 1 }) sems
      (mbox :: mboxes) := by
  have hinsert : s.insertMbox mbox = { s with mboxFree := s.mboxFree.insertHead mbox } := by
    unfold insertMbox
    rw [touch_inside]
    exact hsound.mboxes.insertAccess_inside le_rfl hlow hhigh
  rw [hinsert, setMbox_inside hlow hhigh]
  refine ⟨⟨hsound.list, hsound.inside⟩, ?_, fun j hlow hhigh hj => ?_⟩
  · dsimp only
    rw [mboxFreed_update]
    exact hsound.mboxes.give hlow hhigh hfreed
  · dsimp only at hj ⊢
    by_cases hne : j = mbox
    · rw [hne, update_self] at hj
      exact absurd rfl hj
    · rw [update_of_ne hne] at hj ⊢
      exact hsound.hasSems j hlow hhigh hj

theorem Sound.mboxFree (hsound : Sound s sems mboxes) (hlow : 0 ≤ mbox) (hhigh : mbox < nmbox) :
    wp (sysMboxFree mbox) (fun _ s' => ∃ sems', Sound s' sems' (mbox :: mboxes))
      (fun _ _ => True) s := by
  unfold sysMboxFree
  refine wp_bind.mpr (wp_modify.mpr ?_)
  rw [touch_inside (mem_singleton_inside hlow hhigh)]
  refine wp_bind.mpr (wp_sysAssert fun hassert => ?_)
  have hfreed : (s.mboxes mbox).freed = 0 := of_decide_eq_true hassert
  have hused : (s.mboxes mbox).freed ≠ 1 := by omega
  obtain ⟨⟨hqlow, hqhigh⟩, hflow, hfhigh⟩ := hsound.hasSems mbox hlow hhigh hused
  refine wp_bind.mpr (wp_get.mpr ?_)
  refine wp_bind_of (sysSemFree_sound hsound.toSemsSound hqlow hqhigh) ?_
  rintro - s₁ ⟨hqueued, hsound₁⟩
  refine wp_bind.mpr (wp_get.mpr ?_)
  rw [← hqueued.mboxes] at hflow hfhigh
  refine wp_bind_of (sysSemFree_sound hsound₁ hflow hfhigh) ?_
  rintro - s₂ ⟨hfree, hsound₂⟩
  have hsound₃ := (hsound.of_sameMboxes hsound₁ hqueued.toSameMboxes).of_sameMboxes hsound₂
    hfree.toSameMboxes
  refine wp_bind.mpr (wp_modify.mpr (wp_modify.mpr ⟨_, hsound₃.giveMbox hlow hhigh ?_⟩))
  rw [hfree.mboxes, hqueued.mboxes]
  exact hfreed

/-! ### Creation of a mailbox -/

/-- The mailbox `mbox` has been taken from the list, and its semaphores are not there yet. -/
structure Creating (s : SysTables) (mbox : Int) (sems mboxes : List Int) : Prop
    extends SemsSound s sems where
  mboxes : FreeList nmbox (fun i => (s.mboxes i).freed) s.mboxFree mboxes
  low : 0 ≤ mbox
  high : mbox < nmbox
  freed : (s.mboxes mbox).freed = 0
  hasSems : ∀ i : Int, i ≠ mbox → 0 ≤ i → i < nmbox → (s.mboxes i).freed ≠ 1 →
    (s.mboxes i).HasSems

namespace Creating

theorem of_sameMboxes (hmade : Creating s mbox sems mboxes) (hsems : SemsSound s' l)
    (hsame : SameMboxes s s') : Creating s' mbox l mboxes := by
  refine ⟨hsems, ?_, hmade.low, hmade.high, ?_, ?_⟩
  · rw [hsame.mboxes, hsame.mboxFree]
    exact hmade.mboxes
  · rw [hsame.mboxes]
    exact hmade.freed
  · rw [hsame.mboxes]
    exact hmade.hasSems

theorem setMbox (hmade : Creating s mbox sems mboxes) (entry : SysMboxEntry)
    (hentry : entry.freed = 0) : Creating (s.setMbox mbox entry) mbox sems mboxes := by
  rw [setMbox_inside hmade.low hmade.high]
  refine ⟨⟨hmade.list, hmade.inside⟩, ?_, hmade.low, hmade.high, ?_, fun j hj => ?_⟩
  · dsimp only
    rw [mboxFreed_update, hentry, ← hmade.freed]
    rw [update_eq_self mbox fun i => (s.mboxes i).freed]
    exact hmade.mboxes
  · dsimp only
    rw [update_self]
    exact hentry
  · dsimp only
    rw [update_of_ne hj]
    exact hmade.hasSems j hj

theorem sound (hmade : Creating s mbox sems mboxes) (hsems : (s.mboxes mbox).HasSems) :
    Sound s sems mboxes := by
  refine ⟨hmade.toSemsSound, hmade.mboxes, fun i hlow hhigh hi => ?_⟩
  rcases eq_or_ne i mbox with rfl | hne
  · exact hsems
  · exact hmade.hasSems i hne hlow hhigh hi

end Creating

def mboxSems (mbe : Int) : SysM Int := do
  let queued ← sysSemNew 0
  modify fun s => s.setMbox mbe { s.mboxes mbe with queuedMsg := queued }
  let free ← sysSemNew (BitVec.ofNat 8 mboxSlots)
  modify fun s => s.setMbox mbe { s.mboxes mbe with freeMsg := free }
  let s ← get
  if (s.mboxes mbe).queuedMsg = sysSemNull ∨ (s.mboxes mbe).freeMsg = sysSemNull then do
    sysMboxFree mbe
    pure sysMboxNull
  else pure mbe

theorem sysMboxNew_none (hsound : Sound s sems []) {size : Int} (hsize : size < mboxSlots) :
    sysMboxNew size s = .ok sysMboxNull s := by
  unfold sysMboxNew
  rw [bind_of_ok (sysAssert_true (decide_eq_true hsize)), get_bind, hsound.mboxes.first_nil]
  rfl

theorem sysMboxNew_some (hsound : Sound s sems (mbox :: mboxes)) {size : Int}
    (hsize : size < mboxSlots) :
    ∃ s', sysMboxNew size s = mboxSems mbox s' ∧ Creating s' mbox sems mboxes ∧
      s'.sems = s.sems := by
  obtain ⟨links, hremove, hlist⟩ := hsound.mboxes.take
  obtain ⟨hlow, hhigh⟩ := hsound.mboxes.inside List.mem_cons_self
  have hdone : s.removeMbox mbox = some { s with mboxFree := links } := by
    unfold removeMbox
    rw [hremove, touch_inside]
    · rfl
    · intro j hj
      exact hsound.mboxes.inside (hsound.mboxes.isList.removeAccess hj)
  have hfreed : (s.mboxes mbox).freed ≠ 0 := by
    have h : (s.mboxes mbox).freed = 1 := hsound.mboxes.freed_head
    omega
  let s₁ : SysTables :=
    setMbox { s with mboxFree := links } mbox { s.mboxes mbox with freed := 0 }
  have htaken : Creating s₁ mbox sems mboxes := by
    have heq : s₁ = { s with
        mboxes := update s.mboxes mbox { s.mboxes mbox with freed := 0 }
        mboxFree := links } := setMbox_inside hlow hhigh _
    rw [heq]
    refine ⟨⟨hsound.list, hsound.inside⟩, ?_, hlow, hhigh, ?_, fun j hj => ?_⟩
    · dsimp only
      rw [mboxFreed_update]
      exact hlist
    · dsimp only
      rw [update_self]
    · dsimp only
      rw [update_of_ne hj]
      exact hsound.hasSems j
  unfold sysMboxNew
  rw [bind_of_ok (sysAssert_true (decide_eq_true hsize)), get_bind, hsound.mboxes.first_cons]
  dsimp only
  rw [bind_of_ok (sysDeref_some hdone), bind_of_ok (sysAssert_true (decide_eq_true hfreed)),
    modify_bind, modify_bind, modify_bind]
  have hhead := htaken.setMbox { s₁.mboxes mbox with head := -1 } htaken.freed
  exact ⟨_, rfl, hhead.setMbox _ hhead.freed, rfl⟩

theorem sysSemNull_not_inside : ¬0 ≤ sysSemNull := by decide

theorem setMbox_mboxes (s : SysTables) (mbox : Int) (entry : SysMboxEntry) :
    (s.setMbox mbox entry).mboxes mbox = entry := by
  unfold setMbox
  exact update_self mbox entry s.mboxes

theorem Creating.made {first second : Int} (hmade : Creating s mbox (first :: second :: sems) mboxes) :
    ∃ s', mboxSems mbox s = .ok mbox s' ∧ Sound s' sems mboxes := by
  have hfirst := hmade.list.inside List.mem_cons_self
  have hsecond := hmade.list.inside (List.mem_cons_of_mem _ List.mem_cons_self)
  obtain ⟨s₁, hrun₁, htaken₁, hsems₁⟩ := sysSemNew_some hmade.toSemsSound 0
  have hmade₁ := hmade.of_sameMboxes hsems₁ htaken₁.toSameMboxes
  have hmade₂ := hmade₁.setMbox { s₁.mboxes mbox with queuedMsg := first } hmade₁.freed
  obtain ⟨s₃, hrun₃, htaken₃, hsems₃⟩ :=
    sysSemNew_some hmade₂.toSemsSound (BitVec.ofNat 8 mboxSlots)
  have hmade₃ := hmade₂.of_sameMboxes hsems₃ htaken₃.toSameMboxes
  have hmade₄ := hmade₃.setMbox { s₃.mboxes mbox with freeMsg := second } hmade₃.freed
  have hqueued : (s₃.mboxes mbox).queuedMsg = first := by
    rw [htaken₃.mboxes, setMbox_mboxes]
  refine ⟨_, ?_, hmade₄.sound ?_⟩
  · unfold mboxSems
    rw [bind_of_ok hrun₁, modify_bind, bind_of_ok hrun₃, modify_bind, get_bind, setMbox_mboxes,
      hqueued, if_neg]
    · rfl
    · rintro (rfl | rfl)
      · exact sysSemNull_not_inside hfirst.1
      · exact sysSemNull_not_inside hsecond.1
  · rw [setMbox_mboxes]
    exact ⟨hqueued.symm ▸ hfirst, hsecond⟩

section Undo

def mboxUndo (mbox queued : Int) : SysM Int := do
  sysSemFree queued
  sysSemFree ((← get).mboxes mbox).freeMsg
  modify fun s => s.insertMbox mbox
  modify fun s => s.setMbox mbox { s.mboxes mbox with freed := 1 }
  pure sysMboxNull

theorem Creating.undone {s₁ : SysTables} {queued : Int} (hmade : Creating s₁ mbox [] mboxes)
    (hqueued : sysSemNew 0 s = .ok queued s₁) :
    ∃ t, mboxSems mbox s = mboxUndo mbox queued t ∧ (t.mboxes mbox).freeMsg = sysSemNull ∧
      t.sems = s₁.sems := by
  let entry := { s₁.mboxes mbox with queuedMsg := queued }
  let entry' := { entry with freeMsg := sysSemNull }
  have hmade₁ := hmade.setMbox entry hmade.freed
  have hfree := sysSemNew_none hmade₁.toSemsSound (BitVec.ofNat 8 mboxSlots)
  have hmade₂ := hmade₁.setMbox entry' hmade.freed
  refine ⟨(s₁.setMbox mbox entry).setMbox mbox entry', ?_,
    congrArg SysMboxEntry.freeMsg (setMbox_mboxes _ _ _), rfl⟩
  unfold mboxSems mboxUndo
  rw [bind_of_ok hqueued, modify_bind, bind_of_ok hfree, modify_bind, get_bind, if_pos]
  · unfold sysMboxFree
    simp only [bind_assoc]
    rw [setMbox_mboxes, modify_bind, touch_inside (mem_singleton_inside hmade.low hmade.high),
      bind_of_ok (sysAssert_true (decide_eq_true hmade₂.freed)), get_bind, setMbox_mboxes]
  · rw [setMbox_mboxes]
    exact .inr rfl

theorem Creating.none (hmade : Creating s mbox [] mboxes) :
    ∃ e s', mboxSems mbox s = .error e s' := by
  obtain ⟨t, hundo, hnull, -⟩ := hmade.undone (sysSemNew_none hmade.toSemsSound 0)
  unfold mboxUndo at hundo
  by_cases hfreed : (t.sems sysSemNull).freed = 0
  · obtain ⟨t₁, hrun₁, hafter⟩ := sysSemFree_ok hfreed
    have htwice : (t₁.sems sysSemNull).freed ≠ 0 := by
      rw [hafter.freed]
      decide
    obtain ⟨t₂, hrun₂⟩ := sysSemFree_freed htwice
    rw [bind_of_ok hrun₁, get_bind, hafter.mboxes, hnull, bind_of_error hrun₂] at hundo
    exact ⟨_, _, hundo⟩
  · obtain ⟨t₁, hrun₁⟩ := sysSemFree_freed hfreed
    rw [bind_of_error hrun₁] at hundo
    exact ⟨_, _, hundo⟩

theorem Creating.one (hmade : Creating s mbox [sem] mboxes) :
    ∃ t, (t.sems sysSemNull).freed = (s.sems sysSemNull).freed ∧
      (∀ t', sysSemFree sysSemNull t = .ok () t' → t'.outside = true →
        ∃ s', mboxSems mbox s = .ok sysMboxNull s' ∧ s'.outside = true) ∧
      ∀ e t', sysSemFree sysSemNull t = .error e t' → mboxSems mbox s = .error e t' := by
  have hne : sysSemNull ≠ sem := by
    rintro rfl
    exact sysSemNull_not_inside (hmade.list.inside List.mem_cons_self).1
  obtain ⟨s₁, hqueued, htaken, hsems₁⟩ := sysSemNew_some hmade.toSemsSound 0
  obtain ⟨t, hundo, hnull, ht⟩ := (hmade.of_sameMboxes hsems₁ htaken.toSameMboxes).undone hqueued
  unfold mboxUndo at hundo
  have hfreed : (t.sems sem).freed = 0 := ht ▸ htaken.freed
  obtain ⟨t₁, hrun₁, hafter⟩ := sysSemFree_ok hfreed
  rw [bind_of_ok hrun₁, get_bind, hafter.mboxes, hnull] at hundo
  refine ⟨t₁, ?_, fun t' hrun houtside => ?_, fun e t' hrun => ?_⟩
  · rw [hafter.others _ hne, ht, htaken.others _ hne]
  · rw [bind_of_ok hrun, modify_bind, modify_bind] at hundo
    refine ⟨_, hundo, ?_⟩
    unfold SysTables.setMbox SysTables.insertMbox SysTables.touch
    simp [houtside]
  · rw [bind_of_error hrun] at hundo
    exact hundo

theorem Creating.one_ok (hmade : Creating s mbox [sem] mboxes)
    (hfreed : (s.sems sysSemNull).freed = 0) :
    ∃ s', mboxSems mbox s = .ok sysMboxNull s' ∧ s'.outside = true := by
  obtain ⟨t, ht, hok, -⟩ := hmade.one
  obtain ⟨t', hrun, hafter⟩ := sysSemFree_ok (ht.trans hfreed)
  refine hok t' hrun ?_
  have hleaves : leaves nsem (t.semFree.insertAccess sysSemNull) = true :=
    leaves_of_mem List.mem_cons_self (by decide)
  rw [hafter.outside, hleaves, Bool.or_true]

theorem Creating.one_error (hmade : Creating s mbox [sem] mboxes)
    (hfreed : (s.sems sysSemNull).freed ≠ 0) : ∃ e s', mboxSems mbox s = .error e s' := by
  obtain ⟨t, ht, -, herror⟩ := hmade.one
  obtain ⟨t', hrun⟩ := sysSemFree_freed (ht.trans_ne hfreed)
  exact ⟨_, t', herror _ t' hrun⟩

/-! ### Every call -/

theorem Sound.mboxNew (hsound : Sound s sems mboxes) {size : Int} (hclean : ¬s.HalfFails size) :
    wp (sysMboxNew size)
      (fun r s' => (r = sysMboxNull ∧ s' = s) ∨
        r ≠ sysMboxNull ∧ ∃ sems' mboxes', Sound s' sems' mboxes')
      (fun _ _ => True) s := by
  by_cases hsize : size < mboxSlots
  swap
  · unfold sysMboxNew
    exact wp_bind.mpr (wp_sysAssert fun h => absurd (of_decide_eq_true h) hsize)
  cases mboxes with
  | nil => exact (wp_of_ok (sysMboxNew_none hsound hsize)).mpr (.inl ⟨rfl, rfl⟩)
  | cons mbox mboxes =>
      obtain ⟨s₁, heq, hmade, hsems⟩ := sysMboxNew_some hsound hsize
      match sems with
      | [] =>
          obtain ⟨e, s', hrun⟩ := hmade.none
          exact (wp_of_error (heq.trans hrun)).mpr trivial
      | [sem] =>
          have hfreed : (s₁.sems sysSemNull).freed ≠ 0 := by
            rw [hsems]
            refine fun h => hclean ⟨hsize, ?_, ⟨sem, ?_⟩, h⟩
            · rw [hsound.freeMboxes]
              exact ⟨mbox, List.mem_cons_self⟩
            · rw [hsound.freeSems]
              ext i
              exact List.mem_singleton
          obtain ⟨e, s', hrun⟩ := hmade.one_error hfreed
          exact (wp_of_error (heq.trans hrun)).mpr trivial
      | first :: second :: sems =>
          obtain ⟨s', hrun, hsound'⟩ := hmade.made
          refine (wp_of_ok (heq.trans hrun)).mpr (.inr ⟨?_, _, _, hsound'⟩)
          rintro rfl
          exact absurd hmade.low (by decide)

end Undo

theorem Sound.semNew (hsound : Sound s sems mboxes) (count : BitVec 8) :
    wp (sysSemNew count) (fun _ s' => ∃ sems', Sound s' sems' mboxes) (fun _ _ => True) s := by
  cases sems with
  | nil => exact (wp_of_ok (sysSemNew_none hsound.toSemsSound count)).mpr ⟨[], hsound⟩
  | cons sem sems =>
      obtain ⟨s', hrun, htaken, hsems⟩ := sysSemNew_some hsound.toSemsSound count
      exact (wp_of_ok hrun).mpr ⟨sems, hsound.of_sameMboxes hsems htaken.toSameMboxes⟩

theorem Sound.around (hsound : Sound s sems mboxes) (memSems : Int → SysSemEntry)
    (memMboxes : Int → SysMboxEntry) : Sound (s.around memSems memMboxes) sems mboxes := by
  unfold SysTables.around
  refine ⟨⟨hsound.list.congr fun i hlow hhigh => ?_, hsound.inside⟩,
    hsound.mboxes.congr fun i hlow hhigh => ?_, fun i hlow hhigh hi => ?_⟩
  · dsimp only
    rw [if_pos ⟨hlow, hhigh⟩]
  · dsimp only
    rw [if_pos ⟨hlow, hhigh⟩]
  · dsimp only at hi ⊢
    rw [if_pos ⟨hlow, hhigh⟩] at hi ⊢
    exact hsound.hasSems i hlow hhigh hi

theorem Sound.step {call : SysCall} (hsound : Sound s sems mboxes) (huse : SysUse s call)
    (hstep : SysStep s call s') : ∃ sems' mboxes', Sound s' sems' mboxes' := by
  suffices h : wp call.run (fun _ s' => ∃ sems' mboxes', Sound s' sems' mboxes') (fun _ _ => True) s
    from (wp_of_ok hstep).mp h
  cases call with
  | init => exact huse.elim
  | semNew count =>
      refine wp_bind_of (hsound.semNew count) ?_
      rintro r s₁ ⟨sems', h⟩
      exact ⟨sems', mboxes, h⟩
  | semFree sem =>
      refine wp_mono (sysSemFree_sound hsound.toSemsSound huse.1 huse.2) ?_ fun _ _ h => h
      rintro - s₁ ⟨hafter, hsems⟩
      exact ⟨_, _, hsound.of_sameMboxes hsems hafter.toSameMboxes⟩
  | mboxNew size =>
      refine wp_bind_of (hsound.mboxNew huse) ?_
      rintro r s₁ (⟨-, rfl⟩ | ⟨-, h⟩)
      · exact ⟨_, _, hsound⟩
      · exact h
  | mboxFree mbox =>
      refine wp_mono (hsound.mboxFree huse.1 huse.2) ?_ fun _ _ h => h
      rintro - s₁ ⟨sems', h⟩
      exact ⟨sems', _, h⟩
  | other memSems memMboxes => exact ⟨_, _, hsound.around memSems memMboxes⟩

/-! ### Initialisation -/

theorem FreeList.foldl {σ : Type*} {freed : σ → Int → Int} {links : σ → Links Int} {J : σ → Prop}
    (add : σ → Nat → σ) (n : Nat) {t : σ} (hfirst : (links t).first = none) (hJ : J t)
    (hadd : ∀ t l (k : Nat), k < n → J t → FreeList k (freed t) (links t) l →
      freed (add t k) = update (freed t) k 1 ∧ links (add t k) = (links t).insertHead k ∧
        J (add t k)) :
    ∃ l, FreeList n (freed ((List.range n).foldl add t)) (links ((List.range n).foldl add t)) l ∧
      l.length = n ∧ (∀ i : Int, 0 ≤ i → i < n → freed ((List.range n).foldl add t) i = 1) ∧
      J ((List.range n).foldl add t) := by
  induction n with
  | zero => exact ⟨[], .empty hfirst, rfl, fun i hlow hhigh => absurd hhigh (by omega), hJ⟩
  | succ n ih =>
      obtain ⟨l, hlist, hlength, hfreed, hJ'⟩ := ih fun t l k hk => hadd t l k (by omega)
      rw [List.range_succ, List.foldl_append, List.foldl_cons, List.foldl_nil]
      generalize (List.range n).foldl add t = t' at hlist hfreed hJ' ⊢
      obtain ⟨hflags, hlinks, hkeep⟩ := hadd t' l n (by omega) hJ' hlist
      rw [hflags, hlinks]
      refine ⟨n :: l, hlist.grow, congrArg (· + 1) hlength, fun i hlow hhigh => ?_, hkeep⟩
      rcases eq_or_ne i n with rfl | hne
      · rw [update_self]
      · rw [update_of_ne hne]
        exact hfreed i hlow (by omega)

theorem SysTables.addSem_eq {k : Nat} (hk : k < nsem)
    (hlist : FreeList k (fun i => (s.sems i).freed) s.semFree l) :
    s.addSem k = { s with
      sems := update s.sems k { s.sems k with freed := 1 }
      semFree := s.semFree.insertHead k } := by
  have hlow : 0 ≤ (k : Int) := Int.natCast_nonneg k
  have hhigh : (k : Int) < nsem := by omega
  unfold addSem insertSem
  rw [setSem_inside hlow hhigh, touch_inside]
  exact hlist.insertAccess_inside (by omega) hlow hhigh

theorem SysTables.addMbox_eq {k : Nat} (hk : k < nmbox)
    (hlist : FreeList k (fun i => (s.mboxes i).freed) s.mboxFree l) :
    s.addMbox k = { s with
      mboxes := update s.mboxes k { s.mboxes k with freed := 1 }
      mboxFree := s.mboxFree.insertHead k } := by
  have hlow : 0 ≤ (k : Int) := Int.natCast_nonneg k
  have hhigh : (k : Int) < nmbox := by omega
  unfold addMbox insertMbox
  rw [setMbox_inside hlow hhigh, touch_inside]
  exact hlist.insertAccess_inside (by omega) hlow hhigh

theorem exists_sound_of_ready (hready : SysReady s) :
    ∃ sems mboxes, Sound s sems mboxes ∧ sems.length = nsem ∧ mboxes.length = nmbox := by
  obtain ⟨start, hsem, hmbox, hinside, hrun⟩ := hready
  obtain ⟨sems, hlist, hslength, -, hinside₁, hsame⟩ := FreeList.foldl addSem nsem hsem
    (J := fun t => t.outside = false ∧ SameMboxes start t) ⟨hinside, rfl, rfl⟩ fun t l k hk h hl => by
      rw [addSem_eq hk hl]
      exact ⟨semFreed_update t k _, rfl, h.1, h.2.mboxes, h.2.mboxFree⟩
  rw [← hsame.mboxFree] at hmbox
  obtain ⟨mboxes, hmboxes, hmlength, hfreed, hsems⟩ := FreeList.foldl addMbox nmbox hmbox
    (J := fun t => SemsSound t sems) ⟨hlist, hinside₁⟩ fun t l k hk h hl => by
      rw [addMbox_eq hk hl]
      exact ⟨mboxFreed_update t k _, rfl, h.list, h.inside⟩
  have hs : (List.range nmbox).foldl addMbox
      ((List.range nsem).foldl addSem start) = s := by
    unfold sysInit at hrun
    rw [modify_bind, modify_run] at hrun
    injection hrun
  rw [hs] at hmboxes hfreed hsems
  refine ⟨sems, mboxes, ⟨hsems, hmboxes, fun i hlow hhigh hi => ?_⟩, hslength, hmlength⟩
  exact absurd (hfreed i hlow hhigh) hi

/-! ### Every run -/

abbrev SysReachable : SysTables → Prop := Reachable SysReady SysStep SysUse

theorem exists_sound_of_reachable (hreach : SysReachable s) : ∃ sems mboxes, Sound s sems mboxes := by
  refine hreach.invariant (P := fun s => ∃ sems mboxes, Sound s sems mboxes) (fun s hready => ?_)
    fun s call s' hsound huse hstep => ?_
  · obtain ⟨sems, mboxes, hsound, -, -⟩ := exists_sound_of_ready hready
    exact ⟨sems, mboxes, hsound⟩
  · obtain ⟨sems, mboxes, hsound⟩ := hsound
    exact hsound.step huse hstep

theorem Sound.halfFails_run (hsound : Sound s sems mboxes) {size : Int} (hhalf : s.HalfFails size) :
    ∃ s', sysMboxNew size s = .ok sysMboxNull s' ∧ s'.outside = true := by
  obtain ⟨hsize, hmbox, ⟨sem, hsem⟩, hfreed⟩ := hhalf
  have hone : sems = [sem] := by
    rw [hsound.freeSems] at hsem
    have hmem : ∀ i, i ∈ sems ↔ i ∈ [sem] := fun i =>
      (Set.ext_iff.mp hsem i).trans List.mem_singleton.symm
    exact List.perm_singleton.mp
      ((List.perm_ext_iff_of_nodup hsound.list.isList.nodup (List.nodup_singleton sem)).mpr hmem)
  cases mboxes with
  | nil =>
      rw [hsound.freeMboxes] at hmbox
      obtain ⟨i, hi⟩ := hmbox
      cases hi
  | cons mbox mboxes =>
      obtain ⟨s₁, heq, hmade, hsems⟩ := sysMboxNew_some hsound hsize
      rw [hone] at hmade
      obtain ⟨s', hrun, houtside⟩ := hmade.one_ok (by rw [hsems]; exact hfreed)
      exact ⟨s', heq.trans hrun, houtside⟩

def SysSemEntry.zero : SysSemEntry := ⟨0, 0, 0, 0⟩

def SysMboxEntry.zero : SysMboxEntry := ⟨0, 0, 0, 0, 0⟩

def SysTables.blank : SysTables where
  sems := fun _ => .zero
  semFree := ⟨none, fun _ => none, fun _ => none⟩
  mboxes := fun _ => .zero
  mboxFree := ⟨none, fun _ => none, fun _ => none⟩
  outside := false

theorem sysReady_blank : ∃ s, SysReady s := by
  have hrun : ∃ s, sysInit blank = .ok () s := by
    unfold sysInit
    rw [modify_bind, modify_run]
    exact ⟨_, rfl⟩
  obtain ⟨s, hrun⟩ := hrun
  exact ⟨s, blank, rfl, rfl, rfl, hrun⟩

theorem SysReachable.take_sems (hreach : SysReachable s) (hsound : Sound s (sem :: sems) mboxes) :
    ∃ s' last, SysReachable s' ∧ Sound s' [last] mboxes := by
  induction sems generalizing s sem with
  | nil => exact ⟨s, sem, hreach, hsound⟩
  | cons next sems ih =>
      obtain ⟨s₁, hrun, htaken, hsems⟩ := sysSemNew_some hsound.toSemsSound 0
      have hstep : SysStep s (.semNew 0) s₁ := by
        unfold SysStep SysCall.run
        exact bind_of_ok hrun
      have huse : SysUse s (.semNew 0) := trivial
      exact ih (hreach.next huse hstep) (hsound.of_sameMboxes hsems htaken.toSameMboxes)

end ZynexOS
