import ZynexOS.Kern.Proof.TreeMap

/-!
# Tearing down an address space

Each of the three nested loops of `env_free` empties one table.
-/

namespace ZynexOS

open Library Function

namespace Tables

variable {n kd d m i t : Nat} {fixed : Nat → Nat → Bool} {T T' T'' : Tables}

theorem Pruned.refl (T : Tables) (d m : Nat) : T.Pruned T d m where
  lvl := rfl
  self := rfl
  other := rfl
  own _ := .inl rfl
  ref _ := le_rfl
  free _ hp := .inl hp
  returned _ hp hzero := hp.resolve_right fun hne => hne hzero
  word _ _ _ := .inl rfl
  above _ _ _ := ⟨rfl, rfl⟩

theorem Pruned.mono (h : T.Pruned T' d m) {l : Nat} (hl : l ≤ m) : T.Pruned T' d l :=
  { h with above := fun p hp hlt => h.above p hp (lt_of_lt_of_le hlt hl) }

theorem Pruned.own_of_ne_none (h : T.Pruned T' d m) {p : Nat} (hp : T'.own p ≠ none) :
    T'.own p = T.own p :=
  (h.own p).resolve_right fun hgone => hp hgone.2.1

theorem Pruned.own_none (h : T.Pruned T' d m) {p : Nat} (hp : T.own p = none) : T'.own p = none := by
  obtain hsame | ⟨-, hnone, -⟩ := h.own p
  · exact hsame.trans hp
  · exact hnone

theorem Pruned.trans (h : T.Pruned T' d m) (h' : T'.Pruned T'' d m) : T.Pruned T'' d m where
  lvl := h'.lvl.trans h.lvl
  self := h'.self.trans h.self
  other := h'.other.trans h.other
  own p := by
    have hless := h'.ref p
    obtain hsame | ⟨hd, hnone, hlt⟩ := h.own p
    · obtain hsame' | ⟨hd, hnone, hlt⟩ := h'.own p
      · exact .inl (hsame'.trans hsame)
      · exact .inr ⟨hsame ▸ hd, hnone, lt_of_lt_of_le hlt (h.ref p)⟩
    · exact .inr ⟨hd, h'.own_none hnone, lt_of_le_of_lt hless hlt⟩
  ref p := (h'.ref p).trans (h.ref p)
  free p hp := by
    obtain hmid | hne := h'.free p hp
    · exact h.free p hmid
    · refine .inr fun hzero => hne ?_
      have hless := h.ref p
      rw [hzero] at hless
      exact BitVec.eq_of_toNat_eq (Nat.le_zero.mp hless)
  returned p hp hzero := by
    refine h'.returned p ?_ hzero
    by_cases hmid : T'.ref p = 0
    · exact .inl (h.returned p hp hmid)
    · exact .inr hmid
  word p j hp := by
    have hmid : T'.own p ≠ none := h'.own_of_ne_none hp ▸ hp
    have hown := h.own_of_ne_none hmid
    obtain hsame | ⟨hd, hzero⟩ := h'.word p j hp
    · rw [hsame]
      exact h.word p j hmid
    · exact .inr ⟨hown ▸ hd, hzero⟩
  above p hp hlt := by
    obtain ⟨hown, hword⟩ := h.above p hp hlt
    obtain ⟨hown', hword'⟩ := h'.above p (hown ▸ hp) (h.lvl ▸ hlt)
    exact ⟨hown'.trans hown, hword'.trans hword⟩

theorem held_root (T : Tables) (kd : Nat) : T.held kd kd = T.other kd := by
  simp [held]

theorem Rooted.pruned (hroot : T.Rooted n kd fixed) (h : Forest n kd fixed T)
    (h' : Forest n kd fixed T') (hpruned : T.Pruned T' d m) : T'.Rooted n kd fixed := by
  intro hother
  have hkd := (h.table kd kd h.kern.1).1
  have hrefs := h.refs kd hkd
  have hrefs' := h'.refs kd hkd
  have hless := hpruned.ref kd
  rw [held_root] at hrefs hrefs'
  rw [hpruned.other] at hother hrefs'
  have hnone := hroot hother
  omega

theorem Rooted.unmap (hroot : T.Rooted n kd fixed) (h : Forest n kd fixed T)
    (hslot : T.Leaf fixed t i) (htarget : Pt.target (T.word t i) = some kd) : T.other kd ≠ 0 := by
  intro hother
  have hnone := hroot hother
  obtain hzero | ⟨c, hc, hmaps, hpos, -⟩ := h.leaf_cases hslot
  · rw [hzero] at htarget
    cases htarget
  · rw [hmaps.target_eq (lt_of_lt_of_le hc h.bound), Option.some.injEq] at htarget
    rw [htarget] at hpos
    omega

theorem At.pruned {above : List Nat} (hat : T.At d above t) (h : T.Pruned T' d above.length) :
    T'.At d above t := by
  induction above generalizing t with
  | nil => exact hat
  | cons i above ih =>
      obtain ⟨p, hp, hown, hlvl, hword⟩ := hat
      rw [List.length_cons] at h
      obtain ⟨hown', hword'⟩ := h.above p (by rw [hown]; nofun) (by omega)
      refine ⟨p, ih hp (h.mono (Nat.le_succ _)), hown'.trans hown, ?_, ?_⟩
      · rw [h.lvl, hlvl]
      · rw [hword', hword]

theorem unmap_pruned (h : Forest n kd fixed T) (hslot : T.Leaf fixed t i) (hown : T.own t = some d) :
    T.Pruned (T.unmap t i) d 3 := by
  have hword := h.word_unmap hslot
  obtain hzero | ⟨c, hc, hmaps, -, href, -⟩ := h.leaf_cases hslot
  · rw [unmap_of_zero hzero]
    exact .refl T d 3
  rw [unmap_of_maps (lt_of_lt_of_le hc h.bound) hmaps] at hword ⊢
  have hrefs : ((T.decref c).setWord t i 0).ref = update T.ref c (T.ref c - 1) :=
    Pt.ref_decref T.toPt c
  refine ⟨rfl, rfl, rfl, fun _ => .inl rfl, ?_, ?_, Pt.returned_decref T.toPt c, ?_, ?_⟩
  · intro p
    rw [hrefs]
    by_cases hpc : p = c
    · subst hpc
      rw [update_self, toNat_sub_one href]
      exact Nat.sub_le ..
    · rw [update_of_ne hpc]
  · intro p hp
    obtain hp | ⟨hsame, -⟩ := Pt.mem_free_decref.mp hp
    · exact .inl hp
    · exact .inr (hsame ▸ href)
  · intro p j hp
    rw [hword]
    split_ifs with hsame
    · exact .inr ⟨hsame.1 ▸ hown, rfl⟩
    · exact .inl rfl
  · intro p hp hlt
    refine ⟨rfl, funext fun j => ?_⟩
    rw [hword, if_neg]
    rintro ⟨rfl, -⟩
    have hlvl := hslot.lvl
    omega

theorem word_retire (T : Tables) (c : Nat) : (T.retire c).word = T.word := Pt.word_decref T.toPt c

theorem ref_retire (T : Tables) (c : Nat) :
    (T.retire c).ref = update T.ref c (T.ref c - 1) := Pt.ref_decref T.toPt c

theorem ref_retire_lt {c : Nat} (href : T.ref c ≠ 0) :
    ((T.retire c).ref c).toNat < (T.ref c).toNat := by
  have hnat : (T.ref c).toNat ≠ 0 := fun hzero => href (BitVec.eq_of_toNat_eq hzero)
  rw [ref_retire, update_self, toNat_sub_one href]
  omega

theorem drop_pruned {c : Nat} (hown : T.own t = some d) (hc : T.own c = some d)
    (hnext : T.lvl c = T.lvl t + 1) (href : T.ref c ≠ 0) :
    T.Pruned (Tables.retire { T with toPt := T.setWord t i 0 } c) d (T.lvl t) := by
  have hothers : ∀ p, p ≠ c →
      (Tables.retire { T with toPt := T.setWord t i 0 } c).own p = T.own p := fun p hp =>
    update_of_ne hp ..
  have hself : (Tables.retire { T with toPt := T.setWord t i 0 } c).own c = none :=
    update_self ..
  have hrefs : ∀ p, p ≠ c →
      (Tables.retire { T with toPt := T.setWord t i 0 } c).ref p = T.ref p := by
    intro p hp
    rw [ref_retire, update_of_ne hp]
    rfl
  have hless : ((Tables.retire { T with toPt := T.setWord t i 0 } c).ref c).toNat < (T.ref c).toNat :=
    ref_retire_lt href
  have hword : ∀ p j, (Tables.retire { T with toPt := T.setWord t i 0 } c).word p j =
      if p = t ∧ j = i then 0 else T.word p j := by
    intro p j
    rw [word_retire]
    rfl
  refine ⟨rfl, rfl, rfl, ?_, ?_, ?_, Pt.returned_decref (T.setWord t i 0) c, ?_, ?_⟩
  · intro p
    by_cases hp : p = c
    · subst hp
      exact .inr ⟨hc, hself, hless⟩
    · exact .inl (hothers p hp)
  · intro p
    by_cases hp : p = c
    · subst hp
      exact hless.le
    · rw [hrefs p hp]
  · intro p hp
    obtain hp | ⟨hsame, -⟩ := Pt.mem_free_decref.mp hp
    · exact .inl hp
    · exact .inr (hsame ▸ href)
  · intro p j _
    rw [hword]
    split_ifs with hsame
    · exact .inr ⟨hsame.1 ▸ hown, rfl⟩
    · exact .inl rfl
  · intro p hp hlt
    have hpc : p ≠ c := by
      rintro rfl
      omega
    refine ⟨hothers p hpc, funext fun j => ?_⟩
    rw [hword, if_neg]
    rintro ⟨rfl, -⟩
    omega

end Tables

theorem pgaddr_toNat {d1 d2 t : Nat} (h1 : d1 < 512) (h2 : d2 < 512) (ht : t < 512) :
    (pgaddr 0 d1 d2 t).toNat = 2 ^ 30 * d1 + (2 ^ 21 * d2 + 2 ^ 12 * t) := by
  have hfield : ∀ x s : Nat, x < 512 → s ≤ 30 → (BitVec.ofNat 64 x <<< s).toNat = 2 ^ s * x := by
    intro x s hx hs
    have hpow : 2 ^ s ≤ 2 ^ 30 := Nat.pow_le_pow_right (by decide) hs
    have hprod : x * 2 ^ s ≤ 511 * 2 ^ 30 := Nat.mul_le_mul (by omega) hpow
    rw [toNat_shiftLeft, BitVec.toNat_ofNat, Nat.mod_eq_of_lt (show x < 2 ^ 64 by omega),
      Nat.mod_eq_of_lt (by omega), Nat.mul_comm]
  have hzero : BitVec.ofNat 64 0 <<< 39 = (0 : Word) := by decide
  rw [pgaddr, hzero, BitVec.or_assoc, BitVec.or_assoc, BitVec.toNat_or, BitVec.toNat_or,
    BitVec.toNat_or, hfield d1 30 h1 (by decide), hfield d2 21 h2 (by decide),
    hfield t 12 ht (by decide), Nat.two_pow_add_eq_or_of_lt (show 2 ^ 12 * t < 2 ^ 21 by omega),
    Nat.two_pow_add_eq_or_of_lt]
  · exact Nat.zero_or _
  · rw [← Nat.two_pow_add_eq_or_of_lt (show 2 ^ 12 * t < 2 ^ 21 by omega)]
    omega

theorem pd0x_pgaddr {d1 d2 t : Nat} (h1 : d1 < 512) (h2 : d2 < 512) (ht : t < 512) :
    pd0x (pgaddr 0 d1 d2 t) = 0 := by
  rw [pd0x_eq, pgaddr_toNat h1 h2 ht]
  omega

theorem pd1x_pgaddr {d1 d2 t : Nat} (h1 : d1 < 512) (h2 : d2 < 512) (ht : t < 512) :
    pd1x (pgaddr 0 d1 d2 t) = d1 := by
  rw [pd1x_eq, pgaddr_toNat h1 h2 ht]
  omega

theorem pd2x_pgaddr {d1 d2 t : Nat} (h1 : d1 < 512) (h2 : d2 < 512) (ht : t < 512) :
    pd2x (pgaddr 0 d1 d2 t) = d2 := by
  rw [pd2x_eq, pgaddr_toNat h1 h2 ht]
  omega

theorem ptx_pgaddr {d1 d2 t : Nat} (h1 : d1 < 512) (h2 : d2 < 512) (ht : t < 512) :
    ptx (pgaddr 0 d1 d2 t) = t := by
  rw [ptx_eq, pgaddr_toNat h1 h2 ht]
  omega

def Clears (n kd : Nat) (fixed : Nat → Nat → Bool) (d : Nat) (above : List Nat)
    (f : Word → Vm → Except Panic Vm) : Prop :=
  ∀ vm T t, vm.Shows n T.toPt → Forest n kd fixed T → T.Rooted n kd fixed →
    T.self = some (pd0x uvpt) → T.At d above t → T.own t = some d → T.lvl t = above.length →
    ∃ vm' T', f (pageKva t) vm = .ok vm' ∧ vm'.Shows n T'.toPt ∧
      Forest n kd fixed T' ∧ T.Pruned T' d above.length ∧ T'.own t = some d ∧
      ∀ j < 512, T'.word t j = 0

def ClearsEntry (n kd : Nat) (fixed : Nat → Nat → Bool) (d : Nat) (above : List Nat) (i : Nat)
    (f : Word → Vm → Except Panic Vm) : Prop :=
  ∀ vm T t, vm.Shows n T.toPt → Forest n kd fixed T → T.Rooted n kd fixed →
    T.self = some (pd0x uvpt) → T.At d above t → T.own t = some d → T.lvl t = above.length →
    ∃ vm' T', f (pageKva t) vm = .ok vm' ∧ vm'.Shows n T'.toPt ∧
      Forest n kd fixed T' ∧ T.Pruned T' d above.length ∧ T'.own t = some d ∧ T'.word t i = 0 ∧
      ∀ j, j ≠ i → T'.word t j = T.word t j

def dirStep (inner : Nat → Word → Vm → Except Panic Vm) (table : Word) (vm : Vm) (i : Nat) :
    Except Panic Vm := do
  let pde ← vm.load (entryAddr table i)
  if pde &&& pteV = 0 then pure vm
  else
    let next ← vm.kaddr (pteAddr pde)
    let vm ← inner i next vm
    let vm ← vm.store (entryAddr table i) 0
    Kern.dropTable vm (pteAddr pde)

theorem freeDir2_eq (pgdir pd2 : Word) (d1 : Nat) (vm : Vm) :
    Kern.freeDir2 pgdir pd2 d1 vm =
      (List.range 512).foldlM (dirStep (fun d2 pt vm => Kern.freeLeaf pgdir pt d1 d2 vm) pd2) vm := rfl

theorem freeDir1_eq (pgdir pd1 : Word) (vm : Vm) :
    Kern.freeDir1 pgdir pd1 vm =
      (List.range 512).foldlM (dirStep (fun d1 pd2 vm => Kern.freeDir2 pgdir pd2 d1 vm) pd1) vm := rfl

theorem freeUser_eq (pgdir : Word) (vm : Vm) :
    Kern.freeUser vm pgdir = dirStep (fun _ pd1 vm => Kern.freeDir1 pgdir pd1 vm) pgdir vm 0 := rfl

section

variable {n kd d i t : Nat} {fixed : Nat → Nat → Bool} {T : Tables} {vm : Vm} {above : List Nat}
  {inner : Nat → Word → Vm → Except Panic Vm}

theorem Forest.ref_table {c r : Nat} (h : Forest n kd fixed T) (hown : T.own c = some r) (hr : r ≠ kd) :
    T.ref c ≠ 0 := by
  intro hzero
  have hkd : c ≠ kd := by
    rintro rfl
    rw [h.kern.1] at hown
    exact hr (Option.some.inj hown).symm
  have hheld := (h.refs_eq_zero (h.table c r hown).1 hzero).2
  rw [Tables.held, if_pos ⟨by simp [hown], hkd⟩] at hheld
  omega

theorem dirStep_clears (hd : d ≠ kd) (hinner : Clears n kd fixed d (i :: above) (inner i))
    (hs : vm.Shows n T.toPt) (h : Forest n kd fixed T) (hroot : T.Rooted n kd fixed)
    (hself : T.self = some (pd0x uvpt)) (hat : T.At d above t)
    (hown : T.own t = some d) (hlvl : T.lvl t = above.length) (hdir : T.Dir t i)
    (hlow : T.lvl t = 0 → i ∉ Kern.setupSlots) :
    ∃ vm' T', dirStep inner (pageKva t) vm i = .ok vm' ∧ vm'.Shows n T'.toPt ∧
      Forest n kd fixed T' ∧ T.Pruned T' d above.length ∧ T'.own t = some d ∧ T'.word t i = 0 ∧
      ∀ j, j ≠ i → T'.word t j = T.word t j := by
  have ht := (h.table t d hown).1
  have hload := hs.load ht hdir.2.1
  rw [dirStep, entryAddr_pageKva, hload, ok_bind]
  obtain hzero | ⟨c, hlink, hnext, howner⟩ := h.links t d i hown hdir
  · rw [hzero, if_pos zero_and_pteV]
    exact ⟨vm, T, rfl, hs, h, .refl T d _, hown, hzero, fun _ _ => rfl⟩
  have hc : T.own c = some d := howner.resolve_right fun hshared => hlow hshared.1 hshared.2.1
  have hcn := (h.table c d hc).1
  have hbound := lt_of_lt_of_le hcn h.bound
  obtain ⟨vm₁, T₁, hrun, hs₁, h₁, hpruned, hc₁, hempty⟩ :=
    hinner vm T c hs h hroot hself ⟨t, hat, hown, hlvl, hlink⟩ hc (by rw [hnext, hlvl, List.length_cons])
  rw [List.length_cons] at hpruned
  obtain ⟨hown₁, hword₁⟩ := hpruned.above t (by rw [hown]; nofun) (by omega)
  rw [hown] at hown₁
  have hlink₁ : T₁.word t i = link c := by rw [hword₁, hlink]
  have hdir₁ : T₁.Dir t i := by
    rw [Tables.Dir, hpruned.lvl, hpruned.self]
    exact hdir
  -- the entry is cleared, and then nothing leads to the table below it
  have h₂ := h₁.unlink hown₁ hd hdir₁
  have hunlinked : ∀ q r j, T₁.own q = some r → T₁.Dir q j → (T₁.setWord t i 0).word q j ≠ link c := by
    intro q r j hq hqdir hqlink
    rw [Pt.word_setWord] at hqlink
    split_ifs at hqlink with hsame
    · exact link_ne_zero hqlink.symm
    · obtain ⟨-, howner | ⟨-, -, howner, -⟩⟩ := h₁.of_link hq hqdir hcn hqlink
      · obtain rfl : r = d := Option.some.inj (howner.symm.trans hc₁)
        exact hsame (h₁.parent q t j i c r hq hown₁ hc₁ hqdir hdir₁ hqlink hlink₁)
      · exact hd (Option.some.inj (hc₁.symm.trans howner))
  have htc : t ≠ c := by
    rintro rfl
    omega
  have h₃ := h₂.retire hc₁ hd hunlinked fun _ j hj => by
    rw [Pt.word_setWord, if_neg fun hsame => htc hsame.1.symm]
    exact hempty j hj
  obtain ⟨vm₂, hstore, hs₂⟩ := hs₁.store ht hdir.2.1 0
  obtain ⟨vm₃, hdecref, hs₃⟩ := hs₂.pageDecref hcn (h₂.table c d hc₁).2.1
  refine ⟨vm₃, _, ?_, hs₃, h₃, ?_, ?_, ?_, ?_⟩
  · rw [hlink, if_neg link_and_pteV_ne, pteAddr_link hbound, hs.kaddr hcn, ok_bind, hrun, ok_bind,
      hstore, ok_bind, Kern.dropTable, hs₂.pa2page hcn, ok_bind, hdecref]
  · have hdrop := Tables.drop_pruned (i := i) hown₁ hc₁ (by rw [hpruned.lvl, hnext])
      (h₁.ref_table hc₁ hd)
    rw [show T₁.lvl t = above.length by rw [hpruned.lvl, hlvl]] at hdrop
    exact (hpruned.mono (Nat.le_succ _)).trans hdrop
  · exact (update_of_ne htc ..).trans hown₁
  · rw [Tables.word_retire]
    exact if_pos ⟨rfl, rfl⟩
  · intro j hj
    rw [Tables.word_retire, ← hword₁]
    exact if_neg fun hsame => hj hsame.2

theorem foldlM_clears {f : Word → Vm → Nat → Except Panic Vm}
    (hentry : ∀ i < 512, ClearsEntry n kd fixed d above i fun table vm => f table vm i) :
    Clears n kd fixed d above fun table vm => (List.range 512).foldlM (f table) vm := by
  intro vm T t hs h hroot hself hat hown hlvl
  -- the entries that the loop has passed are empty
  let P : List Nat → Vm → Prop := fun rest vm => (∀ i ∈ rest, i < 512) ∧ ∃ T', vm.Shows n T'.toPt ∧
    Forest n kd fixed T' ∧ T.Pruned T' d above.length ∧ T'.own t = some d ∧
    ∀ j < 512, j ∉ rest → T'.word t j = 0
  have hstep : ∀ i rest vm, P (i :: rest) vm → ∃ vm', f (pageKva t) vm i = .ok vm' ∧ P rest vm' := by
    rintro i rest vm ⟨hrest, T₁, hs₁, h₁, hpruned, hown₁, hdone⟩
    obtain ⟨vm', T₂, hrun, hs₂, h₂, hpruned₂, hown₂, hzero, hkept⟩ :=
      hentry i (hrest i List.mem_cons_self) vm T₁ t hs₁ h₁ (hroot.pruned h h₁ hpruned)
        (hpruned.self.trans hself) (hat.pruned hpruned) hown₁ (by rw [hpruned.lvl, hlvl])
    refine ⟨vm', hrun, fun j hj => hrest j (List.mem_cons_of_mem i hj), T₂, hs₂, h₂,
      hpruned.trans hpruned₂, hown₂, ?_⟩
    intro j hj hnot
    by_cases hji : j = i
    · rw [hji, hzero]
    · rw [hkept j hji]
      exact hdone j hj (by simp [hji, hnot])
  have hfirst : P (List.range 512) vm :=
    ⟨fun i hi => List.mem_range.mp hi, T, hs, h, .refl T d _, hown, fun j hj hnot =>
      absurd (List.mem_range.mpr hj) hnot⟩
  obtain ⟨vm', hrun, -, T', hs', h', hpruned, hown', hdone⟩ := foldlM_succeeds hstep hfirst
  exact ⟨vm', T', hrun, hs', h', hpruned, hown', fun j hj => hdone j hj nofun⟩

theorem foldlM_dirStep_clears (hd : d ≠ kd) (hlen : above.length = 1 ∨ above.length = 2)
    (hinner : ∀ i < 512, Clears n kd fixed d (i :: above) (inner i)) :
    Clears n kd fixed d above fun table vm => (List.range 512).foldlM (dirStep inner table) vm :=
  foldlM_clears fun i hi _ _ _ hs h hroot hself hat hown hlvl =>
    dirStep_clears hd (hinner i hi) hs h hroot hself hat hown hlvl ⟨by omega, hi, by omega⟩ (by omega)

theorem descend_of_at {d1 d2 : Nat} (h : Forest n kd fixed T) (hat : T.At d [d2, d1, 0] t)
    (hown : T.own t = some d) : T.descend d [0, d1, d2] = some t := by
  obtain ⟨c₂, ⟨c₁, ⟨top, htop, -, -, hword₀⟩, hown₁, -, hword₁⟩, hown₂, -, hword₂⟩ := hat
  rw [show top = d from htop] at hword₀
  have hbound : ∀ c, T.own c = some d → c < 2 ^ 19 := fun c hc =>
    lt_of_lt_of_le (h.table c d hc).1 h.bound
  rw [Pt.descend_link (hbound c₁ hown₁) hword₀, Pt.descend_link (hbound c₂ hown₂) hword₁,
    Pt.descend_link (hbound t hown) hword₂]
  rfl

theorem zero_ne_pd0x_uvpt : 0 ≠ pd0x uvpt := by decide

theorem zero_notMem_setupSlots : 0 ∉ Kern.setupSlots := by decide

theorem sound_of_at {d1 d2 : Nat} {va : Word} (h : Forest n kd fixed T)
    (hself : T.self = some (pd0x uvpt)) (hat : T.At d [d2, d1, 0] t)
    (hpath : path va = [0, d1, d2]) : T.Sound n d (path va) := by
  obtain ⟨-, ⟨-, ⟨top, htop, hown, hlvl, -⟩, -⟩, -⟩ := hat
  rw [show top = d from htop] at hown hlvl
  have hzero : pd0x va = 0 := (List.cons.inj hpath).1
  refine h.sound hown hlvl fun heq => zero_ne_pd0x_uvpt ?_
  rw [hself, hzero] at heq
  exact (Option.some.inj heq).symm

theorem freeLeaf_clears {d1 d2 : Nat} (hd : d ≠ kd) (h1 : d1 < 512) (h2 : d2 < 512) :
    Clears n kd fixed d [d2, d1, 0] fun table vm => Kern.freeLeaf (pageKva d) table d1 d2 vm := by
  refine foldlM_clears fun i hi vm T t hs h hroot hself hat hown hlvl => ?_
  have hslot : T.Leaf fixed t i := by
    refine ⟨by rw [hown]; nofun, by rw [hlvl]; rfl, hi, ?_⟩
    by_contra hfix
    have hkern := h.fixed t i (by simpa using hfix)
    exact hd (Option.some.inj (hown.symm.trans hkern))
  dsimp only
  rw [entryAddr_pageKva, hs.load_leaf h hslot, ok_bind]
  obtain hzero | ⟨c, -, hmaps, -⟩ := h.leaf_cases hslot
  · rw [hzero, if_pos zero_and_pteV]
    exact ⟨vm, T, rfl, hs, h, .refl T d _, hown, hzero, fun _ _ => rfl⟩
  · rw [if_neg hmaps.and_pteV_ne]
    -- the walk of `page_remove` comes back to the entry that the loop is at
    have hpath : path (pgaddr 0 d1 d2 i) = [0, d1, d2] := by
      rw [path, pd0x_pgaddr h1 h2 hi, pd1x_pgaddr h1 h2 hi, pd2x_pgaddr h1 h2 hi]
    have hptx := ptx_pgaddr h1 h2 hi
    have hdescend : T.descend d (path (pgaddr 0 d1 d2 i)) = some t := by
      rw [hpath]
      exact descend_of_at h hat hown
    obtain ⟨vm', hrun, hs'⟩ := hs.pageRemove_leaf h (sound_of_at h hself hat hpath) hdescend
      (by rw [hptx]; exact hslot)
    rw [hptx] at hs'
    refine ⟨vm', _, hrun, hs', h.unmap hslot (hroot.unmap h hslot), Tables.unmap_pruned h hslot hown,
      by rw [Tables.own_unmap, hown], ?_, fun j hj => ?_⟩
    · rw [h.word_unmap hslot, if_pos ⟨rfl, rfl⟩]
    · rw [h.word_unmap hslot, if_neg fun hsame => hj hsame.2]

theorem freeDir2_clears {d1 : Nat} (hd : d ≠ kd) (h1 : d1 < 512) :
    Clears n kd fixed d [d1, 0] fun table vm => Kern.freeDir2 (pageKva d) table d1 vm := by
  simp only [freeDir2_eq]
  exact foldlM_dirStep_clears hd (.inr rfl) fun _ h2 => freeLeaf_clears hd h1 h2

theorem freeDir1_clears (hd : d ≠ kd) :
    Clears n kd fixed d [0] fun table vm => Kern.freeDir1 (pageKva d) table vm := by
  simp only [freeDir1_eq]
  exact foldlM_dirStep_clears hd (.inl rfl) fun _ h1 => freeDir2_clears hd h1

theorem freeUser_clears (hd : d ≠ kd) (hs : vm.Shows n T.toPt) (h : Forest n kd fixed T)
    (hroot : T.Rooted n kd fixed) (hself : T.self = some (pd0x uvpt)) (hown : T.own d = some d)
    (hlvl : T.lvl d = 0) :
    ∃ vm' T', Kern.freeUser vm (pageKva d) = .ok vm' ∧ vm'.Shows n T'.toPt ∧
      Forest n kd fixed T' ∧ T.Pruned T' d 0 ∧ T'.own d = some d ∧ T'.word d 0 = 0 ∧
      ∀ j, j ≠ 0 → T'.word d j = T.word d j := by
  rw [freeUser_eq]
  have hdir : T.Dir d 0 := by
    refine ⟨by omega, by decide, fun heq => zero_ne_pd0x_uvpt ?_⟩
    exact Option.some.inj (heq.2.symm.trans hself)
  refine dirStep_clears hd ?_ hs h hroot hself (show T.At d [] d from rfl) hown hlvl hdir
    fun _ => zero_notMem_setupSlots
  exact freeDir1_clears hd

theorem Forest.root_unlinked (h : Forest n kd fixed T) (hown : T.own d = some d) (hlvl : T.lvl d = 0) :
    ∀ q r j, T.own q = some r → T.Dir q j → T.word q j ≠ link d := by
  intro q r j hq hdir hlink
  obtain ⟨hnext, -⟩ := h.of_link hq hdir (h.table d d hown).1 hlink
  omega

theorem paddr_pageKva {p : Nat} (hp : p < 2 ^ 19) : Vm.paddr (pageKva p) = .ok (page2pa p) := by
  have hnot : ¬ pageKva p < kernbase := by
    rw [BitVec.lt_def, pageKva_toNat hp, show kernbase.toNat = 2 ^ 64 - 2 ^ 32 from rfl]
    omega
  rw [Vm.paddr, if_neg hnot, pageKva, BitVec.add_sub_cancel]

theorem envFree_shows {k : Kern} {e : Nat} (hd : d ≠ kd) (hs : k.vm.Shows n T.toPt)
    (h : Forest n kd fixed T) (hroot : T.Rooted n kd fixed) (hself : T.self = some (pd0x uvpt))
    (hdir : (k.envs e).envPgdir = pageKva d) (hown : T.own d = some d)
    (hlvl : T.lvl d = 0) :
    ∃ vm' T₁, k.envFree e = .ok { { k with vm := vm' }.setEnv e { k.envs e with
        envPgdir := 0, envStatus := .free, envLink := k.envFreeList } with envFreeList := some e } ∧
      vm'.Shows n (T₁.retire d).toPt ∧ Forest n kd fixed T₁ ∧ Forest n kd fixed (T₁.retire d) ∧
      T.Pruned T₁ d 0 ∧ T₁.own d = some d ∧ T₁.word d 0 = 0 ∧ ∀ j, j ≠ 0 → T₁.word d j = T.word d j := by
  have hdn := (h.table d d hown).1
  obtain ⟨vm₁, T₁, hrun, hs₁, h₁, hpruned, hown₁, hzero, hkept⟩ :=
    freeUser_clears hd hs h hroot hself hown hlvl
  have hlvl₁ : T₁.lvl d = 0 := by rw [hpruned.lvl, hlvl]
  have h₂ := h₁.retire hown₁ hd (h₁.root_unlinked hown₁ hlvl₁) (by omega)
  obtain ⟨vm₂, hdecref, hs₂⟩ := hs₁.pageDecref hdn (h₁.table d d hown₁).2.1
  refine ⟨vm₂, T₁, ?_, hs₂, h₁, h₂, hpruned, hown₁, hzero, hkept⟩
  simp only [Kern.envFree, hdir, hrun, ok_bind, paddr_pageKva (lt_of_lt_of_le hdn h.bound),
    Kern.dropTable, hs₁.pa2page hdn, hdecref]
  rfl

end

end ZynexOS
