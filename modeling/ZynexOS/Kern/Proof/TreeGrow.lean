import ZynexOS.Kern.Proof.Forest

/-! # Walks that add tables -/

namespace ZynexOS

open Library

namespace Tables

variable {T T' T'' : Tables} {r t i c : Nat} {path : List Nat}

theorem Grows.refl (T : Tables) (r : Nat) : T.Grows T r where
  free := List.suffix_rfl
  self := rfl
  other := rfl
  old _ _ := ⟨rfl, rfl, rfl⟩
  word _ _ _ _ := rfl
  leaf _ _ _ _ := rfl
  made _ hp hnot := absurd hp hnot
  fresh _ _ hp hzero := .inl (hzero.resolve_left hp)

theorem Grows.trans (h : T.Grows T' r) (h' : T'.Grows T'' r) : T.Grows T'' r where
  free := h'.free.trans h.free
  self := h'.self.trans h.self
  other := h'.other.trans h.other
  old p hp := by
    have hmid : p ∉ T.free ∨ p ∈ T'.free := hp.imp id fun hin => h'.free.subset hin
    have hlast : p ∉ T'.free ∨ p ∈ T''.free := hp.imp (fun hnot hin => hnot (h.free.subset hin)) id
    obtain ⟨hown, hlvl, href⟩ := h.old p hmid
    obtain ⟨hown', hlvl', href'⟩ := h'.old p hlast
    exact ⟨hown'.trans hown, hlvl'.trans hlvl, href'.trans href⟩
  word p j hp hne := by
    have hmid := h.word p j hp hne
    have hlast := h'.word p j (fun hin => hp (h.free.subset hin)) (hmid ▸ hne)
    exact hlast.trans hmid
  leaf p j hp hleaf := by
    obtain ⟨hown, hlvl, -⟩ := h.old p (.inl hp)
    rw [← hown, ← hlvl] at hleaf
    rw [h'.leaf p j (fun hin => hp (h.free.subset hin)) hleaf]
    rw [hown, hlvl] at hleaf
    exact h.leaf p j hp hleaf
  made p hp hnot := by
    by_cases hmid : p ∈ T'.free
    · exact h'.made p hmid hnot
    · obtain ⟨hown, href, hzero⟩ := h.made p hp hmid
      obtain ⟨hown', hlvl', href'⟩ := h'.old p (.inl hmid)
      refine ⟨hown'.trans hown, href'.trans href, fun hlvl j => ?_⟩
      rw [hlvl'] at hlvl
      rw [h'.leaf p j hmid (.inr hlvl), hzero hlvl j]
  fresh p j hp hzero := by
    have hlater : ∀ c ∈ T'.free, c ∉ T''.free → T''.word p j = link c →
        ∃ c ∈ T.free, c ∉ T''.free ∧ T''.word p j = link c := fun c hc hnot hlink =>
      ⟨c, h.free.subset hc, hnot, hlink⟩
    by_cases hmid : p ∈ T'.free
    · exact (h'.fresh p j hp (.inl hmid)).imp id fun ⟨c, hc, hnot, hlink⟩ => hlater c hc hnot hlink
    · by_cases hword : T'.word p j = 0
      · exact (h'.fresh p j hp (.inr hword)).imp id fun ⟨c, hc, hnot, hlink⟩ => hlater c hc hnot hlink
      · obtain hnone | ⟨c, hc, hnot, hlink⟩ := h.fresh p j hmid hzero
        · exact absurd hnone hword
        · refine .inr ⟨c, hc, fun hin => hnot (h'.free.subset hin), ?_⟩
          rw [h'.word p j hmid hword, hlink]

variable {n kd : Nat} {fixed : Nat → Nat → Bool}

theorem Grows.addTable (h : Forest n kd fixed T) {rest : List Nat} (hown : T.own t = some r)
    (hdir : T.Dir t i) (hword : T.word t i = 0) (hfree : T.free = c :: rest) :
    T.Grows (T.addTable t i c) r := by
  have hmem : c ∈ T.free := by simp [hfree]
  have hnone := h.own_free hmem
  have hnodup : (c :: rest).Nodup := hfree ▸ h.nodup
  have hrest : (T.addTable t i c).free = rest := by simp [Tables.addTable, hfree]
  have htc : t ≠ c := by
    rintro rfl
    simp [hnone] at hown
  refine ⟨?_, rfl, rfl, ?_, ?_, ?_, ?_, ?_⟩
  · rw [hrest, hfree]
    exact List.suffix_cons c rest
  · intro p hp
    have hpc : p ≠ c := by
      rintro rfl
      rw [hrest] at hp
      exact hp.elim (fun hnot => hnot hmem) (List.nodup_cons.mp hnodup).1
    exact ⟨own_addTable_of_ne hpc, lvl_addTable_of_ne hpc, ref_addTable_of_ne hpc⟩
  · intro p j hp hne
    have hpc : p ≠ c := fun heq => hp (heq ▸ hmem)
    exact word_addTable_of_ne_zero hpc hword hne
  · intro p j hp hleaf
    have hpc : p ≠ c := fun heq => hp (heq ▸ hmem)
    refine (Pt.word_addTable t i c p j).trans ?_
    rw [if_neg, if_neg hpc]
    rintro ⟨rfl, -⟩
    have hlvl := hdir.1
    obtain hleaf | hleaf := hleaf
    · simp [hown] at hleaf
    · omega
  · intro p hp hnot
    obtain rfl : p = c := by
      rw [hrest] at hnot
      rw [hfree] at hp
      exact (List.mem_cons.mp hp).resolve_right hnot
    refine ⟨own_addTable_self.trans hown, ?_, fun _ => Pt.word_addTable_new htc⟩
    rw [ref_addTable_self, (h.free p hmem).2]
    rfl
  · intro p j hp hzero
    have hentry := @Pt.word_addTable T.toPt t i c p j
    by_cases hslot : p = t ∧ j = i
    · refine .inr ⟨c, hmem, ?_, hentry.trans (if_pos hslot)⟩
      rw [hrest]
      exact (List.nodup_cons.mp hnodup).1
    · rw [if_neg hslot] at hentry
      refine .inl (hentry.trans ?_)
      by_cases hpc : p = c
      · exact if_pos hpc
      · rw [if_neg hpc]
        refine hzero.resolve_left fun hin => hp ?_
        rw [hrest]
        rw [hfree] at hin
        exact (List.mem_cons.mp hin).resolve_left hpc

theorem extend_link (hc : c < 2 ^ 19) (hword : T.word t i = link c) :
    T.extend t (i :: path) = T.extend c path := by
  rw [extend, Pt.child_link hc hword]

theorem extend_full (hword : T.word t i = 0) (hfree : T.free = []) :
    T.extend t (i :: path) = (none, T) := by
  rw [extend, Pt.child_zero hword]
  simp only [hfree]

theorem extend_zero {rest : List Nat} (hword : T.word t i = 0) (hfree : T.free = c :: rest) :
    T.extend t (i :: path) = (T.addTable t i c).extend c path := by
  rw [extend, Pt.child_zero hword]
  simp only [hfree]

theorem toPt_extend (T : Tables) (t : Nat) (path : List Nat) :
    ((T.extend t path).1, (T.extend t path).2.toPt) = T.toPt.extend t path := by
  induction path generalizing T t with
  | nil => rfl
  | cons i path ih =>
      rw [extend, Pt.extend]
      cases hchild : T.child t i with
      | some c => exact ih T c
      | none =>
          cases hfree : T.free with
          | nil => rfl
          | cons c rest => exact ih (T.addTable t i c) c

/-- What a walk from the table `t` that may add tables leads to. -/
structure Extended (n kd : Nat) (fixed : Nat → Nat → Bool) (T : Tables) (r t : Nat)
    (path : List Nat) : Prop where
  forest : Forest n kd fixed (T.extend t path).2
  grows : T.Grows (T.extend t path).2 r
  found : ∀ leaf, (T.extend t path).1 = some leaf → (T.extend t path).2.own leaf = some r ∧
    (T.extend t path).2.lvl leaf = 3 ∧ (T.extend t path).2.descend t path = some leaf
  full : (T.extend t path).1 = none → (T.extend t path).2.free = []

theorem Extended.cons (hc : c < 2 ^ 19) (ht : t ∉ T.free) (hword : T.word t i = link c)
    (h : Extended n kd fixed T r c path) : Extended n kd fixed T r t (i :: path) := by
  have hsame : T.extend t (i :: path) = T.extend c path := extend_link hc hword
  refine ⟨?_, ?_, ?_, ?_⟩
  · rw [hsame]
    exact h.forest
  · rw [hsame]
    exact h.grows
  · intro leaf hleaf
    rw [hsame] at hleaf ⊢
    obtain ⟨hown, hlvl, hdescend⟩ := h.found leaf hleaf
    refine ⟨hown, hlvl, ?_⟩
    have hkept : (T.extend c path).2.word t i = link c :=
      (h.grows.word t i ht (hword ▸ link_ne_zero)).trans hword
    rw [Pt.descend_link hc hkept, hdescend]
  · rw [hsame]
    exact h.full

theorem Extended.root {d : Nat} (hext : Extended n kd fixed T r d path) (h : Forest n kd fixed T)
    (hown : T.own d = some d) :
    (T.extend d path).2.own d = some d ∧ (T.extend d path).2.lvl d = T.lvl d := by
  obtain ⟨hown', hlvl', -⟩ := hext.grows.old d (.inl (h.table d d hown).2.1)
  exact ⟨hown'.trans hown, hlvl'⟩

theorem extended_of_full (h : Forest n kd fixed T) (hword : T.word t i = 0) (hfree : T.free = []) :
    Extended n kd fixed T r t (i :: path) := by
  have hsame : T.extend t (i :: path) = (none, T) := extend_full hword hfree
  refine ⟨?_, ?_, ?_, ?_⟩
  · rw [hsame]
    exact h
  · rw [hsame]
    exact .refl T r
  · rw [hsame]
    nofun
  · rw [hsame]
    exact fun _ => hfree

theorem Extended.step (h : Forest n kd fixed T) {rest : List Nat} (hown : T.own t = some r)
    (hdir : T.Dir t i) (hword : T.word t i = 0) (hfree : T.free = c :: rest)
    (hrest : Extended n kd fixed (T.addTable t i c) r c path) :
    Extended n kd fixed T r t (i :: path) := by
  have hmem : c ∈ T.free := by simp [hfree]
  have hc : c < 2 ^ 19 := lt_of_lt_of_le (h.free c hmem).1 h.bound
  have ht : t ∉ (T.addTable t i c).free := fun hin =>
    (h.table t r hown).2.1 (List.mem_of_mem_tail hin)
  have hlink : (T.addTable t i c).word t i = link c :=
    (Pt.word_addTable t i c t i).trans (if_pos ⟨rfl, rfl⟩)
  have hsame : T.extend t (i :: path) = (T.addTable t i c).extend c path := extend_zero hword hfree
  have hsame' : (T.addTable t i c).extend t (i :: path) = (T.addTable t i c).extend c path :=
    extend_link hc hlink
  have hwhole := hrest.cons hc ht hlink
  refine ⟨?_, ?_, ?_, ?_⟩
  · rw [hsame]
    exact hrest.forest
  · rw [hsame]
    exact (Grows.addTable h hown hdir hword hfree).trans hrest.grows
  · have hfound := hwhole.found
    rwa [hsame', ← hsame] at hfound
  · rw [hsame]
    exact hrest.full

theorem extended_below (h : Forest n kd fixed T) (hown : T.own t = some r) (hpos : 0 < T.lvl t)
    (hlen : T.lvl t + path.length = 3) (hpath : ∀ i ∈ path, i < 512) :
    Extended n kd fixed T r t path := by
  induction path generalizing T t with
  | nil =>
      refine ⟨h, .refl T r, ?_, nofun⟩
      rintro leaf hleaf
      cases hleaf
      exact ⟨hown, hlen, rfl⟩
  | cons i path ih =>
      rw [List.length_cons] at hlen
      have hdir : T.Dir t i := ⟨by omega, hpath i List.mem_cons_self, by omega⟩
      have hrest : ∀ j ∈ path, j < 512 := fun j hj => hpath j (List.mem_cons_of_mem i hj)
      obtain hword | ⟨c, hword, hnext, hc⟩ := h.link_below hown hpos hdir
      · cases hfree : T.free with
        | nil => exact extended_of_full h hword hfree
        | cons c rest =>
            refine Extended.step h hown hdir hword hfree
              (ih (h.addTable hown hdir hword hfree) ?_ ?_ ?_ hrest)
            · rw [own_addTable_self, hown]
            · rw [lvl_addTable_self]
              omega
            · rw [lvl_addTable_self]
              omega
      · have hbound := lt_of_lt_of_le (h.table c r hc).1 h.bound
        exact (ih h hc (by omega) (by omega) hrest).cons hbound (h.table t r hown).2.1 hword

theorem extended (h : Forest n kd fixed T) {d : Nat} (hown : T.own d = some d) (hlvl : T.lvl d = 0)
    {va : Word} (hva : T.self ≠ some (pd0x va)) :
    Extended n kd fixed T (T.root kd d (pd0x va)) d (ZynexOS.path va) := by
  have hdir : T.Dir d (pd0x va) := ⟨by omega, pd0x_lt va, fun hself => hva hself.2⟩
  have hpath : ∀ i ∈ [pd1x va, pd2x va], i < 512 := by
    simp [pd1x_lt, pd2x_lt]
  obtain hword | ⟨c, hword, hnext, howner⟩ := h.links d d (pd0x va) hown hdir
  · have hroot : T.root kd d (pd0x va) = d := if_neg fun heq => heq.1 hword
    rw [hroot]
    cases hfree : T.free with
    | nil => exact extended_of_full h hword hfree
    | cons c rest =>
        refine Extended.step h hown hdir hword hfree
          (extended_below (h.addTable hown hdir hword hfree) ?_ ?_ ?_ hpath)
        · rw [own_addTable_self, hown]
        · rw [lvl_addTable_self]
          omega
        · rw [lvl_addTable_self, hlvl]
          rfl
  · have hc : T.own c = some (T.root kd d (pd0x va)) := by
      unfold root
      by_cases hsame : T.word d (pd0x va) = T.word kd (pd0x va)
      · rw [if_pos ⟨hword ▸ link_ne_zero, hsame⟩]
        obtain hc | ⟨-, -, hc, -⟩ := howner
        · -- `kern_pgdir` has the same entry, so that the owner is the kernel's directory
          have hkdir : T.Dir kd (pd0x va) := ⟨by rw [h.kern.2]; decide, hdir.2.1, fun heq => hva heq.2⟩
          have hkern := h.of_link h.kern.1 hkdir (h.table c d hc).1 (hsame.symm.trans hword)
          exact hkern.2.elim id fun hshared => hshared.2.2.1
        · exact hc
      · rw [if_neg fun heq => hsame heq.2]
        obtain hc | ⟨-, -, -, hkern⟩ := howner
        · exact hc
        · exact absurd (hword.trans hkern.symm) hsame
    have hbound := lt_of_lt_of_le (h.table c _ hc).1 h.bound
    refine (extended_below h hc (by omega) ?_ hpath).cons hbound (h.table d d hown).2.1 hword
    rw [hnext, hlvl]
    rfl

theorem Grows.descend_new {r leaf : Nat} (hgrows : T.Grows T' r) (hn : n ≤ 2 ^ 19)
    (hfree : ∀ p ∈ T.free, p < n) :
    ∀ (path : List Nat) (t : Nat), t ∈ T.free → t ∉ T'.free → T'.descend t path = some leaf →
      leaf ∈ T.free ∧ leaf ∉ T'.free := by
  intro path
  induction path with
  | nil =>
      intro t ht hnot hleaf
      obtain rfl : t = leaf := Option.some.inj hleaf
      exact ⟨ht, hnot⟩
  | cons i path ih =>
      intro t ht hnot hleaf
      obtain hzero | ⟨c, hc, hcnot, hlink⟩ := hgrows.fresh t i hnot (.inl ht)
      · rw [Pt.descend_zero hzero] at hleaf
        cases hleaf
      · rw [Pt.descend_link (lt_of_lt_of_le (hfree c hc) hn) hlink] at hleaf
        exact ih c hc hcnot hleaf

theorem Grows.descend {r : Nat} (hgrows : T.Grows T' r) (h : Forest n kd fixed T) {t : Nat}
    {path : List Nat} (hsound : T.Sound n t path) :
    T'.descend t path = T.descend t path ∨
      T.descend t path = none ∧ ∃ leaf ∈ T.free, leaf ∉ T'.free ∧ T'.descend t path = some leaf := by
  induction path generalizing t with
  | nil => exact .inl rfl
  | cons i path ih =>
      obtain ⟨-, ht, -, hzero | ⟨c, hlink, hbelow⟩⟩ := hsound
      · rw [Pt.descend_zero hzero]
        obtain hzero' | ⟨c, hc, hcnot, hlink⟩ :=
          hgrows.fresh t i (fun hin => ht (hgrows.free.subset hin)) (.inr hzero)
        · exact .inl (Pt.descend_zero hzero')
        · rw [Pt.descend_link (lt_of_lt_of_le (h.free c hc).1 h.bound) hlink]
          cases hleaf : T'.descend c path with
          | none => exact .inl rfl
          | some leaf =>
              obtain ⟨hin, hnot⟩ := hgrows.descend_new h.bound (fun p hp => (h.free p hp).1) path c hc
                hcnot hleaf
              exact .inr ⟨rfl, leaf, hin, hnot, rfl⟩
      · have hbound := lt_of_lt_of_le hbelow.head.1 h.bound
        have hkept : T'.word t i = link c :=
          (hgrows.word t i ht (hlink ▸ link_ne_zero)).trans hlink
        rw [Pt.descend_link hbound hlink, Pt.descend_link hbound hkept]
        exact ih hbelow

end Tables

end ZynexOS
