import ZynexOS.Fs.Proof.Pointers

/-!
# Programs that only read

`reads x a v` says that `x` returns `a` where the server sees `v`, and only maps blocks.
-/

namespace ZynexOS

open Library Function

/-- What the server sees, the dirty blocks and the flash; not which blocks are mapped. -/
structure Fs.Cached extends Fs.View where
  dirty : Nat → Bool
  flash : Bytes
  past : List Bytes

def Fs.cached (s : Fs) : Fs.Cached :=
  { s.toView with dirty := s.cache.dirty, flash := s.cache.flash, past := s.cache.past }

namespace Fs

open View

variable {α β : Type} {x : FsM α} {g : α → FsM β} {a : α} {b : β} {v : View} {f i : Nat}

def reads (x : FsM α) (a : α) (v : View) : Prop :=
  ∀ s : Fs, s.toView = v → ∃ s' : Fs, x s = .ok a s' ∧ s'.cached = s.cached ∧
    ∀ n, s.cache.mapped n = true → s'.cache.mapped n = true

theorem reads_pure (a : α) (v : View) : reads (pure a) a v :=
  fun s _ => ⟨s, rfl, rfl, fun _ h => h⟩

theorem toView_eq {s s' : Fs} (hcached : s'.cached = s.cached) : s'.toView = s.toView :=
  congrArg Cached.toView hcached

theorem reads_bind (hx : reads x a v) (hg : reads (g a) b v) : reads (x >>= g) b v := by
  intro s hs
  obtain ⟨s₁, hrun, hcached, hkept⟩ := hx s hs
  obtain ⟨s₂, hrun', hcached', hkept'⟩ := hg s₁ ((toView_eq hcached).trans hs)
  refine ⟨s₂, ?_, hcached'.trans hcached, fun n hn => hkept' n (hkept n hn)⟩
  rw [bind_of_ok hrun]
  exact hrun'

theorem reads_touch {a : Nat} (hacc : v.Accessible a) : reads (touch a) () v := by
  rintro s rfl
  unfold touch
  rw [get_bind]
  split
  · exact ⟨s, rfl, rfl, fun _ h => h⟩
  · next hfault =>
      have hcache : inCache a = true := by
        by_contra h
        exact hfault (.inl h)
      obtain ⟨hlt, hused⟩ := hacc hcache
      split
      · next hblock => exact absurd hblock (not_le.mpr hlt)
      · split
        · next hfree =>
            unfold View.blockIsFree at hfree
            rw [hused, Bool.and_false] at hfree
            cases hfree
        · refine ⟨_, rfl, rfl, fun n hn => ?_⟩
          show update s.cache.mapped (blockOf a) true n = true
          by_cases heq : n = blockOf a
          · rw [heq, update_self]
          · rwa [update_of_ne heq]

theorem reads_load {a n : Nat} (hacc : v.Accessible a) :
    reads (load a n) (v.mem.loadNat a n) v := by
  rintro s rfl
  obtain ⟨s', hrun, hcached, hkept⟩ := reads_touch hacc s rfl
  refine ⟨s', ?_, hcached, hkept⟩
  unfold load
  rw [bind_of_ok hrun, ← toView_eq hcached]
  rfl

theorem reads_load32 {a : Nat} (hacc : v.Accessible a) : reads (load32 a) (v.word a) v :=
  reads_load hacc

theorem reads_loadInt {a : Nat} (hacc : v.Accessible a) : reads (loadInt a) (int32 (v.word a)) v :=
  reads_bind (reads_load32 hacc) (reads_pure _ v)

theorem reads_nblocks (hdisk : v.DiskOk) : reads nblocks v.nblocks v :=
  reads_load32 (hdisk.super_accessible (by omega) (by unfold superAddr blockAddr; omega))

theorem reads_diskaddr {n : Nat} (hdisk : v.DiskOk) (hvalid : v.Valid n) :
    reads (diskaddr n) (blockAddr n) v := by
  refine reads_bind (reads_nblocks hdisk) ?_
  have hfirst := hvalid.1
  have hlt := hvalid.2.1
  have htwo := v.two_lt_firstData
  have hsize := hdisk.size
  have haddr : (0x10000000 + n * 4096) % 0x100000000 = blockAddr n := by
    unfold blockAddr
    omega
  rw [if_neg (by omega), haddr]
  exact reads_pure _ v

theorem runs_of_reads {full : Prop} {Q : α → View → Prop} {E : View → Prop} (hx : reads x a v)
    (hQ : Q a v) : runs full x Q E v := by
  intro s hs hfull
  obtain ⟨s', hrun, hcached, hkept⟩ := hx s hs
  rw [wp_of_ok hrun, (toView_eq hcached).trans hs]
  exact ⟨hQ, fun h n => hkept n (hfull h n)⟩

structure View.Present (v : View) (f i : Nat) : Prop where
  lt : i < 1034
  limit : i ≤ v.nblocks
  entry : ∀ a, f ≤ a → a < f + 256 → v.Accessible a
  valid : v.Valid (v.ptr f (.data i))
  indirect : 10 ≤ i → v.Valid (v.ptr f .indirect)

theorem reads_fileBlockWalk {alloc : Bool} (hdisk : v.DiskOk) (hlt : i < 1034)
    (hentry : ∀ a, f ≤ a → a < f + 256 → v.Accessible a)
    (hindirect : 10 ≤ i → v.Valid (v.ptr f .indirect)) :
    reads (fileBlockWalk f i alloc) (.ok (v.slotAddr f i)) v := by
  unfold fileBlockWalk View.slotAddr
  by_cases hdirect : i < 10
  · rw [if_pos hdirect, if_pos (show i < nDirect from hdirect)]
    exact reads_pure _ v
  rw [if_neg hdirect, if_neg (show ¬i < nDirect from hdirect),
    if_pos (show i - nDirect < nIndirect by unfold nDirect nIndirect; omega)]
  have hvalid := hindirect (by omega)
  have hsome : v.word (indirectAddr f) ≠ 0 := hvalid.ne_zero
  have hacc : v.Accessible (indirectAddr f) :=
    hentry _ (indirect_mem_entry f).1 (by have := (indirect_mem_entry f).2; omega)
  have hensure : reads (ensureIndirect f alloc) (.ok ()) v := by
    refine reads_bind (reads_load32 hacc) ?_
    rw [if_pos hsome]
    exact reads_pure _ v
  refine reads_bind hensure (reads_bind (reads_load32 hacc) ?_)
  exact reads_bind (reads_diskaddr hdisk hvalid) (reads_pure _ v)

theorem View.FileOk.fileBlockWalk_cases (hok : v.FileOk f) (i : Nat) :
    (i < 1034 ∧ (10 ≤ i → v.ptr f .indirect ≠ 0) ∧
      reads (fileBlockWalk f i false) (.ok (v.slotAddr f i)) v) ∨
    ∃ r, (i < 1034 → v.ptr f (.data i) = 0) ∧ reads (fileBlockWalk f i false) (.error r) v := by
  have hentry : ∀ a, f ≤ a → a < f + 256 → v.Accessible a := fun a => hok.entry_accessible
  by_cases hslot : i < 1034 ∧ (10 ≤ i → v.ptr f .indirect ≠ 0)
  · refine .inl ⟨hslot.1, hslot.2, reads_fileBlockWalk hok.disk hslot.1 hentry fun hten => ?_⟩
    exact hok.valid .indirect trivial (hslot.2 hten)
  right
  unfold fileBlockWalk nDirect nIndirect
  rw [if_neg (by omega)]
  by_cases hrange : i - 10 < 1024
  · -- the indirect block is missing
    have hnone : v.ptr f .indirect = 0 := by
      by_contra hne
      exact hslot ⟨by omega, fun _ => hne⟩
    have hacc : v.Accessible (indirectAddr f) :=
      hentry _ (indirect_mem_entry f).1 (by have := (indirect_mem_entry f).2; omega)
    have hensure : reads (ensureIndirect f false) (.error (-eNotFound)) v := by
      refine reads_bind (reads_load32 hacc) ?_
      rw [← ptr_indirect, if_neg (not_not.mpr hnone), if_pos nofun]
      exact reads_pure _ v
    rw [if_pos hrange]
    refine ⟨-eNotFound, fun _ => ptr_data_of_none v f (by omega) hnone, ?_⟩
    exact reads_bind hensure (reads_pure _ v)
  · rw [if_neg hrange]
    exact ⟨_, fun h => by omega, reads_pure _ v⟩

theorem View.Present.slot_accessible (hpresent : v.Present f i) : v.Accessible (v.slotAddr f i) := by
  by_cases hdirect : i < 10
  · have hmem := direct_mem_entry f hdirect
    rw [slotAddr, if_pos hdirect]
    exact hpresent.entry _ hmem.1 (by omega)
  · have hmem := v.slotAddr_mem_block f (by omega) hpresent.lt
    exact (hpresent.indirect (by omega)).accessible hmem.1 (by omega)

theorem reads_fileGetBlock (hdisk : v.DiskOk) (hpresent : v.Present f i) :
    reads (fileGetBlock f i) (.ok (blockAddr (v.ptr f (.data i)))) v := by
  have hslot : v.ptr f (.data i) = v.word (v.slotAddr f i) :=
    ptr_data v f fun hten => (hpresent.indirect hten).ne_zero
  have hsome : v.word (v.slotAddr f i) ≠ 0 := hslot ▸ hpresent.valid.ne_zero
  have hfill : reads (fillSlot (v.slotAddr f i)) (.ok ()) v := by
    refine reads_bind (reads_load32 hpresent.slot_accessible) ?_
    rw [if_pos hsome]
    exact reads_pure _ v
  refine reads_bind (reads_nblocks hdisk) ?_
  rw [if_neg (not_lt.mpr hpresent.limit)]
  have hwalk : reads (fileBlockWalk f i true) (.ok (v.slotAddr f i)) v :=
    reads_fileBlockWalk hdisk hpresent.lt hpresent.entry hpresent.indirect
  refine reads_bind hwalk (reads_bind hfill ?_)
  refine reads_bind (reads_load32 hpresent.slot_accessible) ?_
  rw [← hslot]
  exact reads_bind (reads_diskaddr hdisk hpresent.valid) (reads_pure _ v)

end Fs

end ZynexOS
