import ZynexOS.Fs.Proof.ReadWrite
import ZynexOS.Net.Httpd

/-!
# Which responses are consistent

`send_data` reads once, at most 1024 bytes.
-/

namespace ZynexOS

open Fs Fs.View Library

namespace Fs

variable {full : Prop} {E : View → Prop} {v v' : View} {f size : Nat}

structure HeadRead (v v' : View) (f n : Nat) : Prop where
  bytes : ∀ i < n, v'.mem (fsreq + i) = v'.byte f i
  kept : ∀ p, p / 4096 < 1034 → v.HasByte f p → v'.byte f p = v.byte f p

theorem fsreq_outside {n : Nat} (hn : n ≤ 1024) : OutsideCache fsreq n := by
  refine ⟨.inl ?_, ?_⟩
  · unfold fsreq blockAddr
    omega
  · decide

theorem View.Gets.canRead {blk : Nat} (hget : v.Gets f 0 (.ok blk) v') : v.CanRead f := by
  cases hget with
  | slot hi hexists hslot =>
      cases hslot with
      | present hptr => exact .inl hptr
      | filled hptr hfree => exact .inr ⟨_, hfree.lt, hfree.free⟩
  | indirect hi hten => omega

theorem View.Gets.not_canRead {r : Int} (hget : v.Gets f 0 (.error r) v') :
    r < 0 ∧ ¬v.CanRead f := by
  cases hget with
  | invalid hi => omega
  | slot hi hexists hslot =>
      cases hslot with
      | full hptr hfull =>
          refine ⟨by decide, ?_⟩
          rintro (hhas | ⟨n, hn, hfree⟩)
          · exact hhas hptr
          · rw [hfull n hn] at hfree
            cases hfree
  | indirect hi hten => omega
  | full hi hten => omega

theorem View.Gets.kept_first {blk : Nat} (hwf : v.WellFormed) (hf : v.Reach f)
    (hget : v.Gets f 0 (.ok blk) v') :
    Kept v v' f (· ∈ slots 0 1) (fun _ => False) ∧ v'.Got f 0 blk := by
  refine hget.keeps (J := fun w => Kept v w f (· ∈ slots 0 1) fun _ => False) ?_ (hwf.fileOk hf)
    (.refl hwf f _ _)
  intro _ w idx n hidx hok hkept hptr hslot hfree
  have hrange := inRange_of_mem_slots (show 1 ≤ 1034 by decide) hidx
  refine hkept.trans (.mono (.grow hkept.only.wellFormed (hkept.only.shape.reach hf) hrange hptr hslot
    hfree fun _ => False) (fun _ h => h ▸ hidx) fun _ => id)

theorem headRead_copy {n blk : Nat} {grows : Index → Prop} (hn : n ≤ 1024) (hf : v.Reach f)
    (hkept : Kept v v' f grows fun _ => False) (hgot : v'.Got f 0 blk) :
    HeadRead v (v'.copy fsreq (blk + 0 % 4096) n) f n := by
  have hcopy : Kept v' (v'.copy fsreq (blk + 0 % 4096) n) f grows fun _ => False :=
    .copy_outside hkept.only.wellFormed (hkept.only.shape.reach hf) (fsreq_outside hn).1 _ _
  refine ⟨fun i hi => ?_, fun p hp hhas => ?_⟩
  · have hzero : i / 4096 = 0 := by omega
    have hhas : v'.HasByte f i := by
      unfold HasByte
      rw [hzero]
      exact hgot.ptr
    rw [hcopy.own i (by omega) hhas not_false]
    refine (Bytes.move_apply_add hi).trans ?_
    unfold View.byte byteAddr
    rw [hzero, hgot.blk, Nat.mod_eq_of_lt (show i < 4096 by omega), Nat.zero_mod, Nat.add_zero]
  · rw [hcopy.own p hp (hkept.hasByte hp hhas) not_false]
    exact hkept.own p hp hhas not_false

theorem runs_fileRead_head (hwf : v.WellFormed) (hf : v.Reach f) (hsize : v.fileSize f = size)
    (hpos : 0 < size) :
    runs full (fileRead f fsreq 1024 0) (fun r v' =>
      (r < 0 ∧ ¬v.CanRead f) ∨
        v.CanRead f ∧ r = (min 1024 size : Nat) ∧ HeadRead v v' f (min 1024 size)) E v := by
  have hok := hwf.fileOk hf
  have hrange : v.fileSize f < 0x80000000 := by
    unfold View.fileSize int32
    omega
  refine runs_bind (runs_loadInt ?_ fun _ h => absurd hok.size_accessible h)
  rw [show int32 (v.word (sizeAddr f)) = size from hsize]
  refine runs_ite (fun hle => by omega) fun _ => ?_
  dsimp only
  have hcount : readCount size (0 : Nat) 1024 = min 1024 (size - 0) :=
    readCount_natCast (by omega) (by omega)
  rw [Nat.sub_zero, Nat.cast_zero] at hcount
  rw [hcount]
  generalize hn : min 1024 size = n
  rw [zero_add, uint64_natCast (by omega), int32_natCast (by omega)]
  refine runs_bind ?_
  rw [readLoop_eq]
  refine runs_copyLoop_step (p := 0) hok (by omega) (by omega) (by omega) (fun r v' hget => ?_) ?_
  · obtain ⟨hneg, hnot⟩ := hget.not_canRead
    exact runs_ite (fun _ => runs_pure (.inl ⟨hneg, hnot⟩)) fun h => absurd hneg h
  · intro blk v' hget _
    obtain ⟨hkept, hgot⟩ := hget.kept_first hwf hf
    have hlen : chunkLen 0 n = n := by
      unfold chunkLen
      omega
    rw [hlen]
    have hbuf := fsreq_outside (n := n) (by omega)
    refine runs_memmove ?_ (fun _ h => absurd (fun x hlow hhigh => ?_) h)
      fun _ h => absurd (fun x => hbuf.accessible) h
    · refine runs_copyLoop_done (by rw [uint64_natCast (by omega)]; omega) ?_
      refine runs_ite (fun h => absurd h (lt_irrefl 0)) fun _ => runs_pure (.inr ⟨hget.canRead, rfl, ?_⟩)
      exact headRead_copy (by omega) hf hkept hgot
    · exact hgot.accessible hlow (show x < blk + 0 % 4096 + chunkLen 0 n by omega)

end Fs

variable {io : HttpIo} {texts : List HttpText}

theorem sendTexts_full (h : ∀ text ∈ texts, HttpWrite.Full (text, io.write text)) :
    sendTexts io texts = texts.map fun text => (text, io.write text) := by
  induction texts with
  | nil => rfl
  | cons text texts ih =>
      unfold sendTexts
      rw [if_pos (h text List.mem_cons_self), ih fun t ht => h t (List.mem_cons_of_mem _ ht)]
      rfl

theorem full_sendTexts_iff : (∀ w ∈ sendTexts io texts, w.Full) ↔
    ∀ text ∈ texts, HttpWrite.Full (text, io.write text) := by
  constructor
  · intro h
    induction texts with
    | nil => nofun
    | cons text texts ih =>
        unfold sendTexts at h
        by_cases hfull : HttpWrite.Full (text, io.write text)
        · rw [if_pos hfull] at h
          rintro t (_ | ⟨_, ht⟩)
          · exact hfull
          · exact ih (fun w hw => h w (List.mem_cons_of_mem _ hw)) t ht
        · rw [if_neg hfull] at h
          exact absurd (h _ List.mem_cons_self) hfull
  · intro h w hw
    rw [sendTexts_full h] at hw
    obtain ⟨text, ht, rfl⟩ := List.mem_map.mp hw
    exact h text ht

theorem length_sendTexts_le (io : HttpIo) (texts : List HttpText) :
    (sendTexts io texts).length ≤ texts.length := by
  induction texts with
  | nil => exact le_rfl
  | cons text texts ih =>
      unfold sendTexts
      split
      · exact Nat.succ_le_succ ih
      · exact Nat.succ_le_succ (Nat.zero_le _)

theorem sendTexts_singleton (io : HttpIo) (text : HttpText) :
    sendTexts io [text] = [(text, io.write text)] := by
  unfold sendTexts
  split <;> rfl

variable {response data : List HttpWrite} {contents : List (BitVec 8)} {n : Int}

theorem consistent_of_short (hlength : response.length ≤ 4)
    (hnot : response.length = 4 → ¬∀ w ∈ response, w.Full) : HttpConsistent response contents := by
  intro n head rest heq hhead hfull
  have hfour : head.length = 4 := by
    rw [← List.length_map (f := Prod.fst), hhead]
    rfl
  have hsum : response.length = head.length + rest.length := by rw [heq, List.length_append]
  have hrest : rest = [] := List.eq_nil_of_length_eq_zero (by omega)
  rw [hrest, List.append_nil] at heq
  rw [← heq] at hfull
  exact absurd hfull (hnot (by omega))

theorem consistent_append_iff (hhead : ∀ text ∈ okHead n, HttpWrite.Full (text, io.write text)) :
    HttpConsistent (sendTexts io (okHead n) ++ data) contents ↔
      data.flatMap (fun w => w.1.bytes) = contents ∧ n = contents.length := by
  have hmap : (sendTexts io (okHead n)).map Prod.fst = okHead n := by
    rw [sendTexts_full hhead, List.map_map]
    exact List.map_id _
  constructor
  · intro h
    exact h n _ data rfl hmap (full_sendTexts_iff.mpr hhead)
  · rintro ⟨hdata, hn⟩ m head rest heq hm hfull
    have hlength : (sendTexts io (okHead n)).length = head.length := by
      rw [← List.length_map (f := Prod.fst), hmap, ← List.length_map (f := Prod.fst), hm]
      rfl
    obtain ⟨rfl, rfl⟩ := List.append_inj heq hlength
    have hsame : okHead m = okHead n := hm.symm.trans hmap
    obtain rfl : m = n := by
      simpa [okHead] using hsame
    exact ⟨hdata, hn⟩

namespace Fs

variable {full : Prop} {E : View → Prop} {v : View} {f size : Nat}

theorem runs_fsstat (hok : v.FileOk f) (htype : ¬v.IsDir f) {Q : HttpStat → View → Prop}
    (hQ : Q (io.stat (v.fileSize f)) v) : runs full (fsstat io f) Q E v := by
  unfold HttpIo.stat at hQ
  refine runs_ite (fun hfails => ?_) fun hfails => ?_
  · rw [if_pos hfails] at hQ
    exact runs_pure hQ
  · rw [if_neg hfails] at hQ
    refine runs_bind (runs_loadInt ?_ fun _ h => absurd hok.size_accessible h)
    refine runs_bind (runs_load32 ?_ fun _ h => absurd (hok.entry_accessible ?_ ?_) h)
    · have hfile : ¬v.word (typeAddr f) = fTypeDir := htype
      refine runs_pure ?_
      rw [decide_eq_false hfile]
      exact hQ
    all_goals
      unfold typeAddr
      omega

theorem length_contents (v : View) (f size : Nat) : (v.contents f size).length = size := by
  unfold View.contents
  rw [List.length_map, List.length_range]

theorem runs_sendBytes {n : Nat} (hn : n ≤ 1024) {Q : List HttpWrite → View → Prop}
    (hQ : ∀ data, data.flatMap (fun w => w.1.bytes) =
      (List.range n).map (fun i => v.mem (fsreq + i)) → Q data v) :
    runs full (if (n : Int) < 0 then pure [] else
      if (sendBuf : Int) < n ∨ 4096 < (n : Int) then pure [] else do
        let fs ← get
        let buf := (List.range (n : Int).toNat).map fun i => fs.mem (fsreq + i)
        pure (sendTexts io [.data buf])) Q E v := by
  unfold sendBuf
  refine runs_ite (fun h => by omega) fun _ => runs_ite (fun h => by omega) fun _ => ?_
  refine runs_bind (runs_get fun fs hfs => runs_pure (hQ _ ?_))
  rw [sendTexts_singleton, List.flatMap_singleton, Int.toNat_natCast, ← hfs]
  rfl

theorem runs_sendData (hwf : v.WellFormed) (hf : v.Reach f) (hsize : v.fileSize f = size) :
    runs full (sendData io f) (fun data v' =>
      (v.CanRead f → ∀ p, p / 4096 < 1034 → v.HasByte f p → v'.byte f p = v.byte f p) ∧
      (data.flatMap (fun w => w.1.bytes) = v'.contents f size ↔
        size ≤ 1024 ∧ (size = 0 ∨ v.CanRead f))) E v := by
  unfold sendData
  rcases Nat.eq_zero_or_pos size with rfl | hpos
  · refine runs_bind (runs_bind (runs_loadInt ?_ fun _ h => absurd (hwf.fileOk hf).size_accessible h))
    have hle : v.fileSize f ≤ 0 := hsize.le
    change runs full (if v.fileSize f ≤ 0 then _ else _) _ E v
    rw [if_pos hle]
    refine runs_pure ?_
    refine runs_sendBytes (n := 0) (Nat.zero_le _) fun data hdata => ⟨fun _ _ _ _ => rfl, ?_⟩
    rw [hdata]
    exact iff_of_true rfl ⟨Nat.zero_le _, .inl rfl⟩
  · refine runs_bind_of (runs_fileRead_head hwf hf hsize hpos) ?_
    rintro r v' (⟨hneg, hnot⟩ | ⟨hcan, rfl, hread⟩)
    · refine runs_ite (fun _ => runs_pure ⟨fun h => absurd h hnot, ?_⟩) fun h => absurd hneg h
      refine iff_of_false (fun h => ?_) fun h => ?_
      · have hlength := congrArg List.length h
        rw [length_contents] at hlength
        exact hpos.ne hlength
      · exact h.2.elim hpos.ne' hnot
    · refine runs_sendBytes (min_le_left _ _) fun data hdata => ⟨fun _ => hread.kept, ?_⟩
      rw [hdata]
      constructor
      · intro h
        have hlength := congrArg List.length h
        rw [length_contents, List.length_map, List.length_range] at hlength
        exact ⟨by omega, .inr hcan⟩
      · rintro ⟨hle, -⟩
        rw [min_eq_right hle]
        exact List.map_congr_left fun i hi => hread.bytes i (by have := List.mem_range.mp hi; omega)

theorem runs_sendFile (hwf : v.WellFormed) (hf : v.Reach f) (htype : ¬v.IsDir f)
    (hsize : v.fileSize f = size) :
    runs full (sendFile io f) (fun response v' =>
      (HttpConsistent response (v'.contents f size) ↔ io.Fits v f size) ∧
      (v.CanRead f → ∀ p, p / 4096 < 1034 → v.HasByte f p → v'.byte f p = v.byte f p)) E v := by
  refine runs_bind (runs_fsstat (hwf.fileOk hf) htype ?_)
  rw [hsize]
  have hshort : ∀ text, (sendTexts io [text]).length ≤ 4 ∧ (sendTexts io [text]).length ≠ 4 := by
    intro text
    rw [sendTexts_singleton]
    exact ⟨by simp, by simp⟩
  refine runs_ite (fun hfd => ?_) fun hfd => runs_ite (fun hdir => ?_) fun hdir => ?_
  · refine runs_pure ⟨iff_of_true ?_ fun h => absurd h.fd (not_le.mpr hfd), fun _ _ _ _ => rfl⟩
    exact consistent_of_short (hshort _).1 fun h => absurd h (hshort _).2
  · refine runs_pure ⟨iff_of_true ?_ fun h => absurd hdir (h.isdir ▸ Bool.false_ne_true),
      fun _ _ _ _ => rfl⟩
    exact consistent_of_short (hshort _).1 fun h => absurd h (hshort _).2
  · refine runs_ite (fun hfull => ?_) fun hfull => ?_
    · have hhead := full_sendTexts_iff.mp hfull
      refine runs_bind (runs_mono (runs_sendData hwf hf hsize) ?_ fun _ h => h)
      rintro data v' ⟨hkept, hdata⟩
      refine runs_pure ⟨?_, hkept⟩
      rw [consistent_append_iff hhead, hdata, length_contents]
      constructor
      · rintro ⟨hread, heq⟩ -
        exact ⟨heq, hread⟩
      · intro h
        obtain ⟨heq, hread⟩ := h ⟨not_lt.mp hfd, Bool.not_eq_true _ ▸ hdir, hhead⟩
        exact ⟨hread, heq⟩
    · refine runs_pure ⟨iff_of_true ?_ fun h => absurd (full_sendTexts_iff.mpr h.head) hfull,
        fun _ _ _ _ => rfl⟩
      exact consistent_of_short (length_sendTexts_le io _) fun _ => hfull

end Fs

def HttpIo.smooth : HttpIo where
  statFails := false
  stack := ⟨0, false⟩
  fd := 3
  write := fun text => text.bytes.length

theorem HttpIo.smooth_accepts (size : Int) :
    HttpIo.smooth.Accepts (HttpIo.smooth.stat size) where
  fd := by decide
  isdir := rfl
  head := fun _ _ => rfl

def longFile : HostFile where
  path := [0x61]
  content := List.replicate 1025 0x2a
  nonzero := smallFile.nonzero
  named := smallFile.named
  short := smallFile.short

end ZynexOS
