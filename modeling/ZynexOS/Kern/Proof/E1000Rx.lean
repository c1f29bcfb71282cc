import ZynexOS.Kern.E1000

/-!
# Receiving frames

The driver must not take the `DD` bit of the last lap for a new frame.
-/

namespace ZynexOS

open Library Function

namespace E1000

theorem reassemble_whole (l : List (List (BitVec 8))) :
    reassemble [] (l.map fun piece => (piece, true)) = l := by
  induction l with
  | nil => rfl
  | cons piece l ih =>
      rw [List.map_cons, reassemble, ih, List.nil_append]

namespace RxSys

variable {s s' : RxSys} {k : Nat}

structure Lap (s : RxSys) : Prop where
  le : s.returned.length ≤ s.accepted.length
  lap : s.accepted.length < s.returned.length + rxDescLen
  rdh : s.rx.rdh = s.accepted.length % rxDescLen
  rdt : s.rx.rdt = (s.returned.length + (rxDescLen - 1)) % rxDescLen
  addr : ∀ i, (s.rx.rxDescBuffer i).bufferAddr = s.rx.receiveBuffer + bufSize * i
  arriving : ∀ frame rest, s.arriving = some (frame, rest) → rest = frame ∧ frame.length ≤ bufSize
  piece : ∀ k, s.returned.length ≤ k → k < s.accepted.length →
    s.accepted[k]? = some (s.rx.piece (k % rxDescLen))
  short : ∀ k, s.returned.length ≤ k → k < s.accepted.length →
    (s.rx.rxDescBuffer (k % rxDescLen)).length.toNat ≤ bufSize
  status : ∀ k, s.returned.length ≤ k → k < s.accepted.length →
    (s.rx.rxDescBuffer (k % rxDescLen)).status = rxdStatDd ||| rxdStatEop
  returned : s.returned = s.accepted.take s.returned.length

theorem lap_of_starts (hstart : s.Starts) : s.Lap := by
  obtain ⟨r, hrx⟩ := hstart.init
  have haccepted : s.accepted.length = 0 := by rw [hstart.accepted, List.length_nil]
  have hreturned : s.returned.length = 0 := by rw [hstart.returned, List.length_nil]
  refine ⟨by omega, ?_, ?_, ?_, ?_, ?_, ?_, ?_, ?_, ?_⟩
  · rw [haccepted, hreturned]
    decide
  · rw [haccepted, hrx]
    rfl
  · rw [hreturned, hrx]
    rfl
  · intro i
    rw [hrx]
    rfl
  · intro frame rest harriving
    rw [hstart.arriving] at harriving
    cases harriving
  · exact fun k _ hlt => by omega
  · exact fun k _ hlt => by omega
  · exact fun k _ hlt => by omega
  · rw [hstart.returned, hstart.accepted, List.take_nil]

namespace Lap

variable (h : s.Lap)

include h

theorem next_eq : s.rx.next = s.returned.length % rxDescLen := by
  unfold Rx.next
  rw [h.rdt, Nat.mod_add_mod, show s.returned.length + (rxDescLen - 1) + 1 =
    s.returned.length + rxDescLen from rfl, Nat.add_mod_right]

theorem stored_eq : s.rx.stored =
    (s.accepted.drop s.returned.length).map fun piece => (piece, true) := by
  unfold Rx.stored
  rw [h.next_eq, h.rdh, ahead_mod h.le h.lap, window_mod, List.map_map,
    ← map_range'_eq_drop h.piece, List.map_map]
  refine List.map_congr_left fun k hk => ?_
  obtain ⟨hle, hlt⟩ := List.mem_range'_1.mp hk
  have hstatus := h.status k hle (by have := h.le; omega)
  show (_, decide ((s.rx.rxDescBuffer (k % rxDescLen)).status &&& rxdStatEop ≠ 0)) = (_, true)
  rw [hstatus]
  rfl

theorem deliveredOnce : s.DeliveredOnce := by
  unfold DeliveredOnce
  rw [h.stored_eq, reassemble_whole]
  calc s.accepted = s.accepted.take s.returned.length ++ s.accepted.drop s.returned.length :=
        (List.take_append_drop _ _).symm
    _ = s.returned ++ s.accepted.drop s.returned.length := by rw [← h.returned]

theorem arrive {frame : List (BitVec 8)} (hshort : frame.length ≤ bufSize) :
    { s with arriving := some (frame, frame) }.Lap := by
  obtain ⟨hle, hlap, hrdh, hrdt, haddr, -, hpiece, hlength, hstatus, hreturned⟩ := h
  refine ⟨hle, hlap, hrdh, hrdt, haddr, fun f rest hsome => ?_, hpiece, hlength, hstatus, hreturned⟩
  cases hsome
  exact ⟨rfl, hshort⟩

theorem store {frame : List (BitVec 8)} {rx : Rx} (hshort : frame.length ≤ bufSize)
    (hstore : s.rx.deviceStore frame = some rx) :
    { s with rx := rx, arriving := none, accepted := s.accepted ++ [frame] }.Lap := by
  unfold Rx.deviceStore at hstore
  split at hstore
  · cases hstore
  next hne =>
  rw [List.take_of_length_le hshort] at hstore
  cases hstore
  have hle := h.le
  have hroom : s.accepted.length + 1 < s.returned.length + rxDescLen := by
    refine lt_of_le_of_ne (Nat.succ_le_of_lt h.lap) fun hlast => hne ?_
    rw [h.rdh, h.rdt]
    unfold rxDescLen at *
    congr 1
    omega
  -- the frames in the ring are in other rows
  have hother : ∀ k, s.returned.length ≤ k → k < s.accepted.length → k % rxDescLen ≠ s.rx.rdh := by
    intro k hk hlt
    rw [h.rdh]
    exact (mod_ne_mod hlt (by omega)).symm
  have hlength : (s.accepted ++ [frame]).length = s.accepted.length + 1 := List.length_append
  refine ⟨?_, ?_, ?_, h.rdt, fun i => ?_, nofun, fun k hk hlt => ?_, fun k hk hlt => ?_,
    fun k hk hlt => ?_, ?_⟩
  · show s.returned.length ≤ (s.accepted ++ [frame]).length
    omega
  · show (s.accepted ++ [frame]).length < _
    rw [hlength]
    exact hroom
  · show (s.rx.rdh + 1) % rxDescLen = (s.accepted ++ [frame]).length % rxDescLen
    rw [hlength, h.rdh, Nat.mod_add_mod]
  · show (update s.rx.rxDescBuffer s.rx.rdh _ i).bufferAddr = _
    by_cases hi : i = s.rx.rdh
    · rw [hi, update_self]
      exact h.addr s.rx.rdh
    · rw [update_of_ne hi]
      exact h.addr i
  · show (s.accepted ++ [frame])[k]? = _
    unfold Rx.piece
    dsimp only
    have hk : s.returned.length ≤ k := hk
    obtain hlt | rfl := Nat.lt_succ_iff_lt_or_eq.mp (hlength ▸ hlt : k < s.accepted.length + 1)
    · have hne' := hother k hk hlt
      rw [update_of_ne hne', List.getElem?_append_left hlt, h.piece k hk hlt]
      unfold Rx.piece
      refine congrArg some (Bytes.slice_congr fun x hlow hhigh => ?_)
      have hrow := h.short k hk hlt
      rw [h.addr] at hlow hhigh
      rw [h.addr, Bytes.copyList_apply_of_not_mem]
      unfold bufSize at *
      omega
    · have hsmall : (BitVec.ofNat 16 frame.length).toNat = frame.length := by
        unfold bufSize at hshort
        rw [BitVec.toNat_ofNat]
        exact Nat.mod_eq_of_lt (by omega)
      rw [← h.rdh, update_self, List.getElem?_concat_length]
      dsimp only
      rw [hsmall, Bytes.slice_copyList]
  · show (update s.rx.rxDescBuffer s.rx.rdh _ (k % rxDescLen)).length.toNat ≤ bufSize
    obtain hlt | rfl := Nat.lt_succ_iff_lt_or_eq.mp (hlength ▸ hlt : k < s.accepted.length + 1)
    · rw [update_of_ne (hother k hk hlt)]
      exact h.short k hk hlt
    · rw [← h.rdh, update_self]
      dsimp only
      rw [BitVec.toNat_ofNat]
      exact le_trans (Nat.mod_le _ _) hshort
  · show (update s.rx.rxDescBuffer s.rx.rdh _ (k % rxDescLen)).status = _
    obtain hlt | rfl := Nat.lt_succ_iff_lt_or_eq.mp (hlength ▸ hlt : k < s.accepted.length + 1)
    · rw [update_of_ne (hother k hk hlt)]
      exact h.status k hk hlt
    · rw [← h.rdh, update_self]
  · show s.returned = (s.accepted ++ [frame]).take s.returned.length
    rw [List.take_append_of_le_length hle]
    exact h.returned

theorem receive (hsome : s.returned.length < s.accepted.length) :
    { s with
      rx := { s.rx with rdt := s.rx.next }
      returned := s.returned ++ [s.rx.piece s.rx.next] }.Lap := by
  have hlength : (s.returned ++ [s.rx.piece s.rx.next]).length = s.returned.length + 1 :=
    List.length_append
  have hlap := h.lap
  refine ⟨?_, ?_, h.rdh, ?_, h.addr, h.arriving, fun k hk hlt => ?_, fun k hk hlt => ?_,
    fun k hk hlt => ?_, ?_⟩
  · show (s.returned ++ [s.rx.piece s.rx.next]).length ≤ _
    rw [hlength]
    exact hsome
  · show s.accepted.length < (s.returned ++ [s.rx.piece s.rx.next]).length + rxDescLen
    omega
  · show s.rx.next = ((s.returned ++ [s.rx.piece s.rx.next]).length + (rxDescLen - 1)) % rxDescLen
    rw [hlength, h.next_eq, show s.returned.length + 1 + (rxDescLen - 1) =
      s.returned.length + rxDescLen by unfold rxDescLen; omega, Nat.add_mod_right]
  · exact h.piece k (by dsimp only at hk; omega) hlt
  · exact h.short k (by dsimp only at hk; omega) hlt
  · exact h.status k (by dsimp only at hk; omega) hlt
  · have hnow := h.piece s.returned.length le_rfl hsome
    rw [← h.next_eq] at hnow
    show s.returned ++ [s.rx.piece s.rx.next] =
      s.accepted.take (s.returned ++ [s.rx.piece s.rx.next]).length
    rw [hlength, List.take_add_one, hnow, ← h.returned]
    rfl

theorem step {event : RxEvent} (hallowed : s.OneLap event) (hstep : s.Step event s') : s'.Lap := by
  unfold Step at hstep
  cases event with
  | arrive frame =>
      simp only [exec] at hstep
      split at hstep
      · cases hstep
        exact h.arrive hallowed
      · cases hstep
  | device =>
      simp only [exec] at hstep
      split at hstep
      · cases hstep
      next frame rest harriving =>
      obtain ⟨rfl, hshort⟩ := h.arriving frame rest harriving
      split at hstep
      · cases hstep
      next rx hstore =>
      rw [if_pos hshort] at hstep
      cases hstep
      exact h.store hshort hstore
  | receive =>
      simp only [exec, Rx.receivePack] at hstep
      by_cases hdone : (s.rx.rxDescBuffer s.rx.next).status &&& rxdStatDd = 0
      · simp only [if_pos hdone] at hstep
        cases hstep
        exact h
      · simp only [if_neg hdone] at hstep
        cases hstep
        refine h.receive (lt_of_le_of_ne h.le fun hempty => hdone (hallowed ?_))
        rw [h.stored_eq, hempty, List.drop_length, List.map_nil]

end Lap

theorem delivered_once (s : RxSys) (hreach : Reachable Starts Step OneLap s) : s.DeliveredOnce :=
  (hreach.invariant (P := Lap) (fun _ => lap_of_starts) fun _ _ _ h => h.step).deliveredOnce

def booted : RxSys where
  rx := Rx.receiveInit
    { mem := fun _ => 0, receiveBuffer := 0, rdh := 0, rdt := 0
      rxDescBuffer := fun _ => { bufferAddr := 0, length := 0, status := 0 } }
  arriving := none
  accepted := []
  returned := []

theorem starts_booted : booted.Starts where
  init := ⟨_, rfl⟩
  arriving := rfl
  accepted := rfl
  returned := rfl

/-- Two frames arrive, and the first one is returned. -/
theorem delivered_once_two : ∃ s : RxSys, s.accepted = [[1], [2, 3]] ∧ s.returned = [[1]] ∧
    s.DeliveredOnce := by
  have hrun : (([.arrive [1], .device, .arrive [2, 3], .device, .receive] : List RxEvent).foldlM
      (guarded OneLap exec) booted).map (fun s => (s.accepted, s.returned)) =
        some ([[1], [2, 3]], [[1]]) := by
    decide +kernel
  obtain ⟨s, hs, hview⟩ := (Reachable.start starts_booted).observed guarded_eq_some hrun
  simp only [Prod.mk.injEq] at hview
  exact ⟨s, hview.1, hview.2, delivered_once s hs⟩

def oneFrame (byte : BitVec 8) : List RxEvent := [.arrive [byte], .device, .receive]

/-- After a lap of frames that are returned at once, a call with nothing in the ring returns the first
one again; and a frame of 1500 bytes is returned in two packets. -/
theorem frame_repeated_or_split :
    (∃ s : RxSys, Reachable Starts Step (fun _ _ => True) s ∧ s.accepted.length = 128 ∧
      s.returned.length = 129 ∧ ¬s.DeliveredOnce) ∧
    ∃ s : RxSys, Reachable Starts Step (fun _ _ => True) s ∧
      s.accepted.map List.length = [1500] ∧ s.returned.map List.length = [1024, 476] ∧
      ¬s.DeliveredOnce := by
  have hexec : ∀ s event s', exec s event = some s' → True ∧ s.Step event s' :=
    fun _ _ _ hstep => ⟨trivial, hstep⟩
  constructor
  · have hrun : ((((List.range 128).flatMap fun i => oneFrame (BitVec.ofNat 8 i)) ++
        [RxEvent.receive]).foldlM exec booted).map
          (fun s => (s.accepted.length, s.returned.length)) = some (128, 129) := by
      decide +kernel
    obtain ⟨s, hs, hview⟩ := (Reachable.start starts_booted).observed hexec hrun
    simp only [Prod.mk.injEq] at hview
    refine ⟨s, hs, hview.1, hview.2, fun h => ?_⟩
    have hlength := congrArg List.length h
    rw [List.length_append, hview.1, hview.2] at hlength
    omega
  · have hrun : (([.arrive (List.replicate 1500 0), .device, .device, .receive, .receive] :
        List RxEvent).foldlM exec booted).map
          (fun s => (s.accepted.map List.length, s.returned.map List.length)) =
            some ([1500], [1024, 476]) := by
      decide +kernel
    obtain ⟨s, hs, hview⟩ := (Reachable.start starts_booted).observed hexec hrun
    simp only [Prod.mk.injEq] at hview
    refine ⟨s, hs, hview.1, hview.2, fun h => ?_⟩
    have hlength := congrArg (List.length ∘ List.map List.length) h
    simp only [Function.comp_apply, List.map_append, List.length_append] at hlength
    rw [hview.1, hview.2] at hlength
    simp only [List.length_cons, List.length_nil] at hlength
    omega

end RxSys

end E1000

end ZynexOS
