import ZynexOS.Kern.Proof.FreeEnvs

/-!
# One identifier, one environment

An entry of `envs[]` runs through 2^19 - 1 generations before an identifier comes again.
-/

namespace ZynexOS

open Library Function

namespace Kern

theorem nextEnvId_toNat {x : BitVec 32} {e g : Nat} (he : e < nEnv) (hg : g < 2 ^ 19)
    (hx : x.toNat / 1024 = 4 * g) :
    (nextEnvId x e).toNat = 4096 * (if g + 1 < 2 ^ 19 then g + 1 else 1) + e := by
  have hmask : ((x + BitVec.ofNat 32 (2 ^ envgenshift)) &&& ~~~1023).toNat = 4096 * (g + 1) := by
    rw [toNat_and_not_mask _ _ (n := 10) rfl, BitVec.toNat_add, BitVec.toNat_ofNat, envgenshift]
    omega
  have hindex : ∀ (y : BitVec 32) (i : Nat), y.toNat = 4096 * i →
      (y ||| BitVec.ofNat 32 e).toNat = 4096 * i + e := by
    intro y i hy
    have he : e < 1024 := he
    have hslot : e % 2 ^ 32 = e := Nat.mod_eq_of_lt (by omega)
    rw [BitVec.toNat_or, BitVec.toNat_ofNat, hslot, hy]
    exact (Nat.two_pow_add_eq_or_of_lt (i := 12) (by omega) i).symm
  unfold nextEnvId
  dsimp only
  by_cases hnext : g + 1 < 2 ^ 19
  · have hpos : ¬((x + BitVec.ofNat 32 (2 ^ envgenshift)) &&& ~~~1023).toInt ≤ 0 := by
      rw [BitVec.toInt_eq_toNat_cond, hmask]
      split <;> omega
    rw [if_neg hpos, if_pos hnext]
    exact hindex _ _ hmask
  · have hneg : ((x + BitVec.ofNat 32 (2 ^ envgenshift)) &&& ~~~1023).toInt ≤ 0 := by
      rw [BitVec.toInt_eq_toNat_cond, hmask]
      split <;> omega
    rw [if_pos hneg, if_neg hnext]
    exact hindex _ 1 rfl

/-- The identifier that allocation number `n` of entry `e` assigns, and 0 before the first. -/
def nthEnvId (e : Nat) : Nat → BitVec 32
  | 0 => 0
  | n + 1 => nextEnvId (nthEnvId e n) e

theorem nthEnvId_toNat {e : Nat} (he : e < nEnv) (n : Nat) :
    (nthEnvId e (n + 1)).toNat = 4096 * (n % (2 ^ 19 - 1) + 1) + e := by
  have hlt : e < 1024 := he
  induction n with
  | zero =>
      have hfirst := nextEnvId_toNat he (x := 0) (g := 0) (by omega) (by decide)
      rwa [if_pos (by omega)] at hfirst
  | succ n ih =>
      rw [nthEnvId, nextEnvId_toNat he (g := n % (2 ^ 19 - 1) + 1) (by omega) (by omega)]
      split <;> omega

theorem nthEnvId_pos {e : Nat} (he : e < nEnv) (n : Nat) : 0 < (nthEnvId e (n + 1)).toInt := by
  have hid := nthEnvId_toNat he n
  have hlt : e < 1024 := he
  rw [BitVec.toInt_eq_toNat_cond]
  split <;> omega

theorem envx_nthEnvId {e : Nat} (he : e < nEnv) (n : Nat) : envx (nthEnvId e (n + 1)) = e := by
  have hlt : e < 1024 := he
  rw [envx, toNat_and_mask _ _ (n := 10) rfl, nthEnvId_toNat he]
  omega

theorem nthEnvId_ne {e m n : Nat} (he : e < nEnv) (hmn : m < n) (hnear : n - m < 2 ^ 19 - 1) :
    nthEnvId e (m + 1) ≠ nthEnvId e (n + 1) := by
  intro hsame
  have hnats := congrArg BitVec.toNat hsame
  rw [nthEnvId_toNat he, nthEnvId_toNat he] at hnats
  omega

end Kern

open Kern

def Kern.firstIds (e : Nat) : Nat → List (BitVec 32)
  | 0 => []
  | n + 1 => nthEnvId e (n + 1) :: firstIds e n

theorem Kern.firstIds_getElem {e n j : Nat} {id : BitVec 32} (hj : (firstIds e n)[j]? = some id) :
    j < n ∧ id = nthEnvId e (n - j) := by
  induction n generalizing j with
  | zero => cases hj
  | succ n ih =>
      cases j with
      | zero => exact ⟨by omega, (Option.some.inj hj).symm⟩
      | succ j =>
          obtain ⟨hlt, hid⟩ := ih hj
          exact ⟨by omega, by rw [hid, Nat.add_sub_add_right]⟩

structure Numbered (s : IdState) : Prop where
  head : ∀ e, s.kern.envFreeList = some e → e < nEnv
  links : ∀ e e', (s.kern.envs e).envLink = some e' → e' < nEnv
  ids : ∀ e, ∃ n, (s.slots e).ids = firstIds e n ∧ (s.kern.envs e).envId = nthEnvId e n
  freed : ∀ e, (s.slots e).now = none → (s.slots e).past ≠ [] → (s.kern.envs e).envStatus = .free

namespace Numbered

variable {s s' : IdState} {k k' : Kern}

theorem start (hready : EnvsReady k) : Numbered ⟨k, fun _ => {}⟩ := by
  obtain ⟨vm, kernPgdir, envsAddr, sstatus, rfl⟩ := hready
  refine ⟨fun e he => ?_, fun e e' he => ?_, fun e => ⟨0, rfl, rfl⟩, fun e _ hpast => absurd rfl hpast⟩
  · cases he
    decide
  · simp only [envInit] at he
    split at he
    · next hlt => exact Option.some.inj he ▸ hlt
    · cases he

theorem set {e : Nat} {env : Env} {slot : Incarnations} {head : Option Nat} {vm : Vm}
    (hs : Numbered s) (hhead : ∀ e', head = some e' → e' < nEnv)
    (hlink : ∀ e', env.envLink = some e' → e' < nEnv)
    (hids : ∃ n, slot.ids = firstIds e n ∧ env.envId = nthEnvId e n)
    (hfreed : slot.now = none → env.envStatus = .free) :
    Numbered ⟨{ { s.kern with vm := vm }.setEnv e env with envFreeList := head },
      update s.slots e slot⟩ := by
  refine ⟨hhead, fun i j hij => ?_, fun i => ?_, fun i hnow hpast => ?_⟩ <;> by_cases hi : i = e
  · subst hi
    exact hlink j (by simpa only [setEnv_envs_self] using hij)
  · exact hs.links i j (by simpa only [setEnv_envs_of_ne _ _ hi] using hij)
  · subst hi
    simpa only [update_self, setEnv_envs_self] using hids
  · simpa only [update_of_ne hi, setEnv_envs_of_ne _ _ hi] using hs.ids i
  · subst hi
    simp only [update_self] at hnow
    simpa only [setEnv_envs_self] using hfreed hnow
  · simp only [update_of_ne hi] at hnow hpast
    simpa only [setEnv_envs_of_ne _ _ hi] using hs.freed i hnow hpast

theorem alloc {parentId : BitVec 32} {e : Nat} (hs : Numbered s)
    (hcall : s.kern.envAlloc parentId = .ok (.inl e, k')) :
    Numbered ⟨k', update s.slots e ((s.slots e).alloc (k'.envs e).envId)⟩ := by
  obtain ⟨code, vm, hcode, -⟩ | ⟨e, pgdir, vm, he, hhead, -, rfl⟩ := envAlloc_eq hcall
  · cases hcode
  cases he
  refine hs.set (hs.links e) (hs.links e) ?_ nofun
  obtain ⟨n, hids, hid⟩ := hs.ids e
  refine ⟨n + 1, ?_, by rw [hid]; rfl⟩
  simp only [setEnv_envs_self]
  rw [hid, firstIds, ← hids]
  rfl

theorem free {e : Nat} (hs : Numbered s) (he : e < nEnv) (hcall : s.kern.envFree e = .ok k') :
    Numbered ⟨k', update s.slots e (s.slots e).free⟩ := by
  obtain ⟨vm, rfl⟩ := envFree_eq hcall
  exact hs.set (fun e' he' => Option.some.inj he' ▸ he) hs.head (hs.ids e) fun _ => rfl

theorem keeps (hs : Numbered s) (hkeeps : KeepsIds s.kern k') : Numbered ⟨k', s.slots⟩ where
  head e he := hs.head e (hkeeps.head ▸ he)
  links e e' he := hs.links e e' (hkeeps.links e ▸ he)
  ids e := by
    dsimp only
    rw [hkeeps.ids]
    exact hs.ids e
  freed e hnow hpast := hkeeps.free e (hs.freed e hnow hpast)

theorem step (hs : Numbered s) (hstep : IdStep s s') : Numbered s' := by
  cases hstep with
  | alloc hcall => exact hs.alloc hcall
  | full hcall =>
      obtain ⟨code, vm, -, rfl⟩ | ⟨e, pgdir, vm, he, -⟩ := envAlloc_eq hcall
      · exact hs.keeps ⟨fun _ => rfl, fun _ => rfl, rfl, fun _ h => h⟩
      · cases he
  | free he hcall => exact hs.free he hcall
  | other hkeeps => exact hs.keeps hkeeps

theorem of_reached (hreached : IdReached s) : Numbered s := by
  obtain ⟨k, hready, hrun⟩ := hreached
  induction hrun with
  | refl => exact start hready
  | tail hrun hstep ih => exact ih.step hstep

theorem envid2env_past {e d : Nat} {id : BitVec 32} (hs : Numbered s) (he : e < nEnv)
    (hpast : (s.slots e).past[d]? = some id) (hnear : d + 1 < 2 ^ 19 - 1) (checkperm : Bool) :
    s.kern.envid2env id checkperm = .ok none := by
  obtain ⟨n, hids, hid⟩ := hs.ids e
  obtain ⟨m, hassigned, hstale⟩ : ∃ m, id = nthEnvId e (m + 1) ∧
      ((s.kern.envs e).envStatus = .free ∨ (s.kern.envs e).envId ≠ id) := by
    cases hnow : (s.slots e).now with
    | none =>
        rw [Incarnations.ids, hnow, Option.toList_none, List.nil_append] at hids
        obtain ⟨hlt, hold⟩ := firstIds_getElem (hids ▸ hpast)
        refine ⟨n - d - 1, by rw [hold]; congr 1; omega, .inl (hs.freed e hnow ?_)⟩
        rintro hempty
        rw [hempty] at hpast
        cases hpast
    | some last =>
        rw [Incarnations.ids, hnow, Option.toList_some, List.singleton_append] at hids
        have hlast : (firstIds e n)[d + 1]? = some id := by
          rw [← hids, List.getElem?_cons_succ]
          exact hpast
        obtain ⟨hlt, hold⟩ := firstIds_getElem hlast
        obtain ⟨m, rfl⟩ : ∃ m, n = m + 1 + (d + 1) := ⟨n - (d + 1) - 1, by omega⟩
        rw [Nat.add_sub_cancel] at hold
        refine ⟨m, hold, .inr ?_⟩
        rw [hid, hold, Nat.add_right_comm m]
        exact (nthEnvId_ne he (by omega) (by omega)).symm
  have hpos := nthEnvId_pos he m
  rw [← hassigned] at hpos
  have hne : id ≠ 0 := by
    rintro rfl
    exact absurd hpos (by decide)
  have hslot : envx id = e := by rw [hassigned, envx_nthEnvId he]
  rw [envid2env, if_neg hne, hslot, if_pos hstale]
  rfl

end Numbered

theorem Kern.envid2env_checked {k : Kern} {c : Nat} (hcur : k.curenv = some c) (id : BitVec 32) :
    k.envid2env id true = .ok none ∨ ∃ e, k.envid2env id true = .ok (some e) ∧ (e = c ∨
      (k.envs e).envStatus ≠ .free ∧ (k.envs e).envParentId = (k.envs c).envId) := by
  have hself : k.cur = .ok c := cur_eq_ok.mpr hcur
  unfold envid2env
  split
  · exact .inr ⟨c, by rw [hself]; rfl, .inl rfl⟩
  · dsimp only
    split
    · exact .inl rfl
    · next hlive =>
        rw [not_or, not_not] at hlive
        split
        · rw [hself, ok_bind]
          split
          · exact .inl rfl
          · next hparent => exact .inr ⟨_, rfl, .inr ⟨hlive.1, not_not.mp hparent⟩⟩
        · next hown =>
            have hown : some (envx id) = k.curenv := by simpa using hown
            exact .inr ⟨_, rfl, .inl (Option.some.inj (hown.trans hcur))⟩

/-- Whatever is allocated and freed since `env_init`: the identifiers of an entry are positive, carry
its index and differ within 2^19 - 1 allocations, `envid2env` refuses those of the environments that
are gone, and with `checkperm` it finds only the current environment and its children. -/
theorem envIds_identify {s : IdState} (hreached : IdReached s) :
    (∀ i < nEnv,
      (∀ id ∈ (s.slots i).ids, 0 < id.toInt ∧ envx id = i) ∧
      (∀ a b idA idB, a < b → b - a < 2 ^ 19 - 1 → (s.slots i).ids[a]? = some idA →
        (s.slots i).ids[b]? = some idB → idA ≠ idB) ∧
      ∀ d id, (s.slots i).past[d]? = some id → d + 1 < 2 ^ 19 - 1 →
        ∀ checkperm, s.kern.envid2env id checkperm = .ok none) ∧
    ∀ c, s.kern.curenv = some c → ∀ id, s.kern.envid2env id true = .ok none ∨
      ∃ e, s.kern.envid2env id true = .ok (some e) ∧ (e = c ∨
        (s.kern.envs e).envStatus ≠ .free ∧
          (s.kern.envs e).envParentId = (s.kern.envs c).envId) := by
  have hs := Numbered.of_reached hreached
  refine ⟨fun i hi => ⟨fun id hid => ?_, fun a b idA idB hab hnear ha hb => ?_, ?_⟩,
    fun c hcur id => envid2env_checked hcur id⟩
  · obtain ⟨n, hids, -⟩ := hs.ids i
    obtain ⟨j, hj⟩ := List.mem_iff_getElem?.mp hid
    obtain ⟨hlt, rfl⟩ := firstIds_getElem (hids ▸ hj)
    obtain ⟨m, hm⟩ : ∃ m, n - j = m + 1 := ⟨n - j - 1, by omega⟩
    rw [hm]
    exact ⟨nthEnvId_pos hi m, envx_nthEnvId hi m⟩
  · obtain ⟨n, hids, -⟩ := hs.ids i
    obtain ⟨-, rfl⟩ := firstIds_getElem (hids ▸ ha)
    obtain ⟨hlt, rfl⟩ := firstIds_getElem (hids ▸ hb)
    obtain ⟨m, rfl⟩ : ∃ m, n = m + 1 + b := ⟨n - b - 1, by omega⟩
    rw [Nat.add_sub_cancel, Nat.add_right_comm m, Nat.sub_add_comm (by omega)]
    exact (nthEnvId_ne hi (by omega) (by omega)).symm
  · exact fun d id hpast hnear checkperm => hs.envid2env_past hi hpast hnear checkperm

/-- Entry 0 is allocated, freed and allocated again; its first identifier is refused from then on. -/
theorem envIds_identify_reused : ∃ s : IdState, (s.slots 0).ids = [0x2000, 0x1000] ∧
    ∀ checkperm, s.kern.envid2env 0x1000 checkperm = .ok none := by
  have heval : ((do
      let first ← smallTable.envAlloc 0
      let freed ← first.2.envFree 0
      let second ← freed.envAlloc 0
      pure (first.1, (first.2.envs 0).envId, second.1, (second.2.envs 0).envId) :
        Except Panic _).toOption) = some (.inl 0, 0x1000, .inl 0, 0x2000) := by
    decide +kernel
  obtain ⟨obs, hrun, rfl⟩ := exists_of_toOption_map (f := id) (by rw [Option.map_id]; exact heval)
  obtain ⟨⟨result, first⟩, hfirst, hrest⟩ := bind_eq_ok.mp hrun
  obtain ⟨freed, hfreed, hrest⟩ := bind_eq_ok.mp hrest
  obtain ⟨⟨result', second⟩, hsecond, hrest⟩ := bind_eq_ok.mp hrest
  simp only [pure_eq_ok, Prod.mk.injEq] at hrest
  obtain ⟨rfl, hid, rfl, hid'⟩ := hrest
  have hready : EnvsReady smallTable := ⟨_, _, _, _, rfl⟩
  have hrun : Relation.ReflTransGen IdStep ⟨smallTable, fun _ => {}⟩ _ :=
    ((Relation.ReflTransGen.single (.alloc hfirst)).tail (.free (by decide) hfreed)).tail
      (.alloc hsecond)
  obtain ⟨-, -, hrefused⟩ := (envIds_identify ⟨smallTable, hready, hrun⟩).1 0 (by decide)
  refine ⟨_, ?_, hrefused 0 0x1000 ?_ (by decide)⟩
  · simp [Incarnations.ids, Incarnations.alloc, Incarnations.free, hid, hid']
  · simp [Incarnations.ids, Incarnations.alloc, Incarnations.free, hid]

end ZynexOS
