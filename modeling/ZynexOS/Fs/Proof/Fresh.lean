import ZynexOS.Fs.Proof.Exact

/-! # A new disk image is well formed -/

namespace ZynexOS

open Library

namespace Fs

namespace Image

variable {nblocks : Nat} {heap : Bytes} {files : List HostFile} {v : View}

def Unset (heap : Bytes) (files : List HostFile) : Prop :=
  ∀ j (hj : j < files.length) (k : Nat), 136 ≤ k → k + 4 ≤ 256 → strayAt heap j files[j] k = 0

theorem unset_of_zero (hheap : ∀ x, entsAddr ≤ x → x < entsAddr + 0x8000 → heap x = 0)
    (hfew : files.length ≤ 128) (hshort : ∀ h ∈ files, h.name.length < maxNameLen) :
    Unset heap files := by
  intro j hj k hlow hhigh
  have hlen := hshort files[j] (List.getElem_mem hj)
  unfold maxNameLen at hlen
  refine Bytes.loadNat_eq_zero fun x hle hlt => ?_
  rw [Bytes.copyList_apply_of_not_mem (.inr ?_)]
  · exact hheap x (by omega) (by omega)
  · simp only [List.length_append, List.length_singleton]
    omega

theorem Unset.noStray (hunset : Unset heap files) (nblocks : Nat) : NoStray heap nblocks files := by
  have hzero : ∀ j (hj : j < files.length), strayWord heap j files[j] = 0 := fun j hj =>
    hunset j hj 176 (by norm_num) (by norm_num)
  refine ⟨fun j hj _ => .inl ?_, fun j j' hj _ _ _ _ => .inl (hzero j hj)⟩
  rw [hzero j hj]
  norm_num

section

variable (himage : Image nblocks heap files v.mem)
include himage

theorem within_of_ptr (hunset : Unset heap files) {f : Nat}
    {idx : Index} (hreach : v.Reach f) (hrange : idx.InRange) (hptr : v.ptr f idx ≠ 0) :
    v.Within f idx := by
  cases idx with
  | indirect => trivial
  | data i =>
      have hi : i < 1034 := hrange
      show i < v.blocks f
      by_contra hout
      refine hptr ?_
      obtain rfl | ⟨j, hj, rfl⟩ := himage.reach_iff.mp hreach
      · rw [himage.blocks_root] at hout
        unfold View.ptr View.slotAddr
        dsimp only
        by_cases hten : i < 10
        · rw [if_neg (by omega), if_pos hten]
          exact himage.rootUnset i hten (by omega)
        · rw [if_pos ⟨by omega, himage.rootIndirect⟩]
      · rw [himage.blocks hj] at hout
        have hlaid := himage.laid j hj
        have hindirect := himage.ptr_indirect hj
        unfold View.ptr at hindirect
        dsimp only at hindirect
        unfold View.ptr View.slotAddr
        dsimp only
        by_cases hten : i < 10
        · rw [if_neg (by omega), if_pos hten]
          exact (hlaid.unset i hten (by omega)).trans (hunset j hj _ (by omega) (by omega))
        · by_cases hmany : 10 ≤ files[j].blocks
          · rw [if_pos hmany] at hindirect
            rw [hindirect, if_neg (by omega), if_neg hten]
            exact hlaid.blank i hi hmany (by omega)
          · rw [if_neg hmany] at hindirect
            have hzero : strayWord heap j files[j] = 0 :=
              hunset j hj 176 (by norm_num) (by norm_num)
            rw [if_pos ⟨by omega, hindirect.trans hzero⟩]

theorem refers_of_ptr (hunset : Unset heap files) {f : Nat}
    {idx : Index} (hreach : v.Reach f) (hrange : idx.InRange) (hptr : v.ptr f idx ≠ 0) :
    v.Refers f idx (v.ptr f idx) :=
  ⟨hreach, himage.within_of_ptr hunset hreach hrange hptr, rfl, hptr⟩

theorem refs_range (hunset : Unset heap files) {f b : Nat}
    {idx : Index} (href : v.Refers f idx b) : 3 ≤ b ∧ b < nblocks := by
  have hroom := himage.rootBlocks_le
  have hstart := three_le files
  have hused := used_le files
  have hlimit := himage.room
  cases himage.refers_iff.mp href with
  | root hi => omega
  | proper hj hproper =>
      have hlt := hproper.lt
      omega
  | @stray j hj hfew hnonzero =>
      exact absurd (hunset j hj 176 (by norm_num) (by norm_num)) hnonzero

theorem isDir_iff {dir : Nat} (hreach : v.Reach dir) (hdir : v.IsDir dir) : dir = rootAddr := by
  obtain h | ⟨j, hj, rfl⟩ := himage.reach_iff.mp hreach
  · exact h
  · exact absurd hdir (himage.isFile hj)

theorem noBlocks_blank {k : Nat} (hlow : files.length ≤ k)
    (hhigh : k < 16 * rootBlocks files.length) : v.NoBlocks (fileAddr files k) := by
  have hroom := himage.rootBlocks_le
  have hzero : ∀ a, a + 4 ≤ 256 → v.word (fileAddr files k + a) = 0 := by
    intro a ha
    refine Bytes.loadNat_eq_zero fun x hle hlt => himage.blank x ?_ ?_ <;>
      unfold fileAddr blockAddr at * <;> omega
  refine ⟨?_, hzero 176 (by norm_num), fun i hi => ?_⟩
  · unfold View.IsDir typeAddr
    rw [hzero 132 (by norm_num)]
    decide
  · unfold View.ptr View.slotAddr
    dsimp only
    rw [if_neg (by omega), if_pos hi]
    have h := hzero (136 + 4 * i) (by omega)
    rwa [← Nat.add_assoc] at h

end

theorem wellFormed (hn : nblocks ≤ 1024) (himage : Image nblocks heap files v.mem)
    (hfiles : files ≠ []) (hunset : Unset heap files) : v.WellFormed := by
  have hexact := himage.exact_of_noStray hn hfiles (hunset.noStray nblocks)
  have hfirst := himage.firstData_eq hn
  have hblocks := himage.nblocks_eq
  have hroom := himage.room
  have hused := used_le files
  have hstart := three_le files
  have hrb := himage.rootBlocks_le_eight
  refine ⟨⟨by omega, by omega, fun n hlt => ?_⟩, fun f idx hreach hrange hptr => ?_,
    fun f f' idx idx' hreach hreach' hrange hrange' hptr hsame => ?_, fun dir hreach hdir => ?_,
    fun dir i hreach hdir hi => ?_, fun dir i j hreach hdir hi hj hname => ?_⟩
  · exact (hexact.used n (by omega)).mpr (.inl hlt)
  · have href := himage.refers_of_ptr hunset hreach hrange hptr
    obtain ⟨hlow, hhigh⟩ := himage.refs_range hunset href
    exact ⟨by omega, by omega, (hexact.used _ (by omega)).mpr (.inr ⟨_, _, href⟩)⟩
  · have href := himage.refers_of_ptr hunset hreach hrange hptr
    have href' := himage.refers_of_ptr hunset hreach' hrange' (hsame ▸ hptr)
    rw [← hsame] at href'
    obtain ⟨-, hhigh⟩ := himage.refs_range hunset href
    exact hexact.once _ (by omega) _ _ _ _ href href'
  · rw [himage.isDir_iff hreach hdir, himage.fileSize_root]
    unfold maxFileSize
    omega
  · rw [himage.isDir_iff hreach hdir, himage.dirBlocks_root] at hi
    rw [himage.isDir_iff hreach hdir, himage.ptr_root hi]
    omega
  · rw [himage.isDir_iff hreach hdir, himage.dirBlocks_root] at hi
    rw [himage.isDir_iff hreach hdir, himage.ptr_root hi, entryAddr_eq] at hname ⊢
    refine himage.noBlocks_blank ?_ (by omega)
    by_contra hlt
    have hlt : 16 * i + j < files.length := by omega
    have hentry := (himage.laid _ hlt).name 0 (Nat.zero_le _) (by norm_num)
    exact name_ne_zero _ (hentry.symm.trans hname)

end Image

end Fs

end ZynexOS
