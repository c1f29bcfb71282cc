import ZynexOS.Kern.E1000

/-!
# Sending packets

Calls and sent packets are counted, and the registers are these counts modulo the size of the ring.
-/

namespace ZynexOS

open Library Function

namespace E1000

namespace TxSys

variable {s s' : TxSys} {k : Nat} {data : List (BitVec 8)}

def accept (s : TxSys) (data : List (BitVec 8)) : TxSys :=
  { s with
    tx := (s.tx.transmitPack data).2
    accepted := s.accepted ++ [data]
    call := update s.call s.tx.tdt s.accepted.length }

theorem send_cases (hstep : s.exec (.send data) = some s') : s.panicked = false ∧
    ((s.tx.txDescBuffer s.tx.tdt).status &&& txdStatDd = 0 ∧ s' = { s with panicked := true } ∨
      (s.tx.txDescBuffer s.tx.tdt).status &&& txdStatDd ≠ 0 ∧ s' = s.accept data) := by
  simp only [exec] at hstep
  split at hstep
  · cases hstep
  next hrunning =>
  refine ⟨Bool.eq_false_iff.mpr hrunning, ?_⟩
  unfold Tx.sysPackSend Tx.transmitPack at hstep
  by_cases hfull : (s.tx.txDescBuffer s.tx.tdt).status &&& txdStatDd = 0
  · left
    simp only [if_pos hfull] at hstep
    exact ⟨hfull, (Option.some.inj hstep).symm⟩
  · right
    simp only [if_neg hfull] at hstep
    refine ⟨hfull, (Option.some.inj hstep).symm.trans ?_⟩
    unfold accept Tx.transmitPack
    simp only [if_neg hfull]

def done (tx : TxDesc) : TxDesc :=
  { tx with status := if tx.cmd &&& txdCmdRs = 0 then tx.status else tx.status ||| txdStatDd }

def ship (s : TxSys) : TxSys :=
  { s with
    tx := { s.tx with
      txDescBuffer := update s.tx.txDescBuffer s.tx.tdh (done (s.tx.txDescBuffer s.tx.tdh))
      tdh := (s.tx.tdh + 1) % txDescLen }
    sent := s.sent ++ [s.call s.tx.tdh]
    wire := s.wire ++ [s.tx.packet s.tx.tdh] }

theorem device_cases (hstep : s.exec .device = some s') : s.tx.tdh ≠ s.tx.tdt ∧ s' = s.ship := by
  unfold exec Tx.deviceSend at hstep
  by_cases hempty : s.tx.tdh = s.tx.tdt
  · simp only [if_pos hempty] at hstep
    cases hstep
  · simp only [if_neg hempty] at hstep
    exact ⟨hempty, (Option.some.inj hstep).symm⟩

theorem done_status {tx : TxDesc} (hrs : tx.cmd &&& txdCmdRs ≠ 0) :
    (done tx).status &&& txdStatDd ≠ 0 := by
  have hset : ∀ x : BitVec 8, (x ||| txdStatDd) &&& txdStatDd ≠ 0 := by decide
  unfold done
  rw [if_neg hrs]
  exact hset tx.status

theorem rs_of_transmit (cmd : BitVec 8) : (cmd ||| txdCmdRs ||| txdCmdEop) &&& txdCmdRs ≠ 0 := by
  revert cmd
  decide

def desc (s : TxSys) (k : Nat) : TxDesc := s.tx.txDescBuffer (k % txDescLen)

structure Ring (s : TxSys) : Prop where
  sent : s.sent = List.range s.sent.length
  le : s.sent.length ≤ s.accepted.length
  lap : s.accepted.length ≤ s.sent.length + txDescLen
  tdh : s.tx.tdh = s.sent.length % txDescLen
  tdt : s.tx.tdt = s.accepted.length % txDescLen
  call : ∀ k, s.sent.length ≤ k → k < s.accepted.length → s.call (k % txDescLen) = k
  busy : ∀ k, s.sent.length ≤ k → k < s.accepted.length →
    (s.desc k).status &&& txdStatDd = 0 ∧ (s.desc k).cmd &&& txdCmdRs ≠ 0
  free : ∀ k, s.accepted.length ≤ k → k < s.sent.length + txDescLen →
    (s.desc k).status &&& txdStatDd ≠ 0

theorem ring_of_starts (hstart : s.Starts) : s.Ring := by
  obtain ⟨t, htx⟩ := hstart.init
  have hsent : s.sent.length = 0 := by rw [hstart.sent, List.length_nil]
  have haccepted : s.accepted.length = 0 := by rw [hstart.accepted, List.length_nil]
  refine ⟨?_, ?_, ?_, ?_, ?_, ?_, ?_, ?_⟩
  · rw [hsent, hstart.sent, List.range_zero]
  · omega
  · omega
  · rw [hsent, htx]
    rfl
  · rw [haccepted, htx]
    rfl
  · exact fun k _ hlt => by omega
  · exact fun k _ hlt => by omega
  · intro k _ _
    unfold desc
    rw [htx]
    show txdStatDd &&& txdStatDd ≠ 0
    decide

namespace Ring

variable (h : s.Ring)

include h

theorem lt_of_done (hdone : (s.tx.txDescBuffer s.tx.tdt).status &&& txdStatDd ≠ 0) :
    s.accepted.length < s.sent.length + txDescLen := by
  refine lt_of_le_of_ne h.lap fun hfull => hdone ?_
  have hbusy := (h.busy s.sent.length le_rfl (by unfold txDescLen at hfull; omega)).1
  unfold desc at hbusy
  rwa [h.tdt, hfull, Nat.add_mod_right]

section

variable (hlt : s.accepted.length < s.sent.length + txDescLen)
include hlt

theorem pending_eq :
    s.tx.pending = (List.range' s.sent.length (s.accepted.length - s.sent.length)).map
      fun k => k % txDescLen := by
  unfold Tx.pending
  rw [h.tdh, h.tdt, ahead_mod h.le hlt, window_mod]

theorem length_pending : s.tx.pending.length = s.accepted.length - s.sent.length := by
  rw [h.pending_eq hlt, List.length_map, List.length_range']

theorem mem_pending
    (hle : s.sent.length ≤ k) (hk : k < s.accepted.length) : k % txDescLen ∈ s.tx.pending := by
  rw [h.pending_eq hlt]
  exact List.mem_map_of_mem (List.mem_range'_1.mpr ⟨hle, by omega⟩)

theorem map_call_pending : s.tx.pending.map s.call =
      List.range' s.sent.length (s.accepted.length - s.sent.length) := by
  rw [h.pending_eq hlt, List.map_map]
  refine (List.map_congr_left fun k hk => ?_).trans (List.map_id _)
  obtain ⟨hle, hlt'⟩ := List.mem_range'_1.mp hk
  exact h.call k hle (by omega)

end

theorem exists_of_mem_pending {i : Nat} (hi : i ∈ s.tx.pending) :
    ∃ k, s.sent.length ≤ k ∧ k < s.accepted.length ∧ i = k % txDescLen := by
  by_cases hlt : s.accepted.length < s.sent.length + txDescLen
  · rw [h.pending_eq hlt, List.mem_map] at hi
    obtain ⟨k, hk, rfl⟩ := hi
    obtain ⟨hle, hlt'⟩ := List.mem_range'_1.mp hk
    exact ⟨k, hle, by omega, rfl⟩
  · -- a full ring looks empty
    have hsame : s.tx.tdh = s.tx.tdt := by
      rw [h.tdh, h.tdt, show s.accepted.length = s.sent.length + txDescLen by have := h.lap; omega,
        Nat.add_mod_right]
    unfold Tx.pending at hi
    rw [hsame, ahead_self] at hi
    cases hi

theorem waits_of_ne (hne : s.tx.tdh ≠ s.tx.tdt) :
    s.sent.length < s.accepted.length ∧ s.accepted.length < s.sent.length + txDescLen := by
  rw [h.tdh, h.tdt] at hne
  constructor
  · refine lt_of_le_of_ne h.le fun heq => hne ?_
    rw [heq]
  · refine lt_of_le_of_ne h.lap fun heq => hne ?_
    rw [heq, Nat.add_mod_right]

theorem accept (hdone : (s.tx.txDescBuffer s.tx.tdt).status &&& txdStatDd ≠ 0)
    (data : List (BitVec 8)) : (s.accept data).Ring := by
  have hlt := h.lt_of_done hdone
  have hle := h.le
  have hlength : (s.accept data).accepted.length = s.accepted.length + 1 :=
    List.length_append
  have hself : (s.accept data).desc s.accepted.length =
      { s.tx.txDescBuffer s.tx.tdt with
        cmd := (s.tx.txDescBuffer s.tx.tdt).cmd ||| txdCmdRs ||| txdCmdEop
        status := 0
        length := BitVec.ofNat 16 data.length } := by
    unfold desc TxSys.accept Tx.transmitPack
    simp only [if_neg hdone, ← h.tdt, update_self]
  have hother : ∀ k, k % txDescLen ≠ s.accepted.length % txDescLen →
      (s.accept data).desc k = s.desc k := by
    intro k hk
    rw [← h.tdt] at hk
    unfold desc TxSys.accept Tx.transmitPack
    simp only [if_neg hdone]
    exact update_of_ne hk _ _
  refine ⟨h.sent, ?_, ?_, ?_, ?_, ?_, ?_, ?_⟩
  · rw [hlength]
    exact le_trans hle (Nat.le_succ _)
  · rw [hlength]
    exact hlt
  · show (s.tx.transmitPack data).2.tdh = _
    unfold Tx.transmitPack
    simp only [if_neg hdone]
    exact h.tdh
  · rw [hlength]
    show (s.tx.transmitPack data).2.tdt = _
    unfold Tx.transmitPack
    simp only [if_neg hdone]
    rw [h.tdt, Nat.mod_add_mod]
  · intro k hk hlt'
    show update s.call s.tx.tdt s.accepted.length (k % txDescLen) = k
    rw [h.tdt]
    obtain hlt' | rfl := Nat.lt_succ_iff_lt_or_eq.mp (hlength ▸ hlt')
    · rw [update_of_ne (mod_ne_mod hlt' ?_).symm]
      · exact h.call k hk hlt'
      · exact lt_of_lt_of_le hlt (Nat.add_le_add_right hk _)
    · exact update_self _ _ _
  · intro k hk hlt'
    obtain hlt' | rfl := Nat.lt_succ_iff_lt_or_eq.mp (hlength ▸ hlt')
    · rw [hother k (mod_ne_mod hlt' ?_).symm]
      · exact h.busy k hk hlt'
      · exact lt_of_lt_of_le hlt (Nat.add_le_add_right hk _)
    · rw [hself]
      exact ⟨BitVec.zero_and, rs_of_transmit _⟩
  · intro k hk hlt'
    rw [hlength] at hk
    have hlap : k < s.sent.length + txDescLen := hlt'
    rw [hother k (mod_ne_mod hk (by omega))]
    exact h.free k (by omega) hlap

theorem ship (hne : s.tx.tdh ≠ s.tx.tdt) : s.ship.Ring := by
  obtain ⟨hwaits, hlt⟩ := h.waits_of_ne hne
  have hlength : s.ship.sent.length = s.sent.length + 1 := List.length_append
  have hcall : s.call s.tx.tdh = s.sent.length := by
    rw [h.tdh]
    exact h.call _ le_rfl hwaits
  have hself : s.ship.desc s.sent.length = done (s.desc s.sent.length) := by
    unfold desc TxSys.ship
    simp only [← h.tdh, update_self]
  have hother : ∀ k, k % txDescLen ≠ s.sent.length % txDescLen → s.ship.desc k = s.desc k := by
    intro k hk
    rw [← h.tdh] at hk
    exact update_of_ne hk _ _
  refine ⟨?_, ?_, ?_, ?_, h.tdt, ?_, ?_, ?_⟩
  · rw [hlength]
    show s.sent ++ [s.call s.tx.tdh] = _
    rw [hcall, List.range_succ, ← h.sent]
  · rw [hlength]
    exact hwaits
  · rw [hlength]
    exact le_trans h.lap (by omega)
  · rw [hlength]
    show (s.tx.tdh + 1) % txDescLen = _
    rw [h.tdh, Nat.mod_add_mod]
  · intro k hk hlt'
    exact h.call k (by omega) hlt'
  · intro k hk hlt'
    rw [hlength] at hk
    have hlast : k < s.accepted.length := hlt'
    rw [hother k (mod_ne_mod hk (by omega))]
    exact h.busy k (by omega) hlt'
  · intro k hk hlt'
    rw [hlength] at hlt'
    have hfirst : s.accepted.length ≤ k := hk
    by_cases hlast : k = s.sent.length + txDescLen
    · have hdesc : s.ship.desc k = s.ship.desc s.sent.length := by
        unfold desc
        rw [hlast, Nat.add_mod_right]
      rw [hdesc, hself]
      exact done_status (h.busy _ le_rfl hwaits).2
    · rw [hother k (mod_ne_mod (by omega) (by omega))]
      exact h.free k hk (by omega)

end Ring

structure Roomy (s : TxSys) : Prop where
  ring : s.Ring
  room : s.accepted.length < s.sent.length + txDescLen
  running : s.panicked = false

theorem Roomy.sentInOrder (h : s.Roomy) : s.SentInOrder where
  order := by
    have hle := h.ring.le
    rw [h.ring.map_call_pending h.room]
    nth_rewrite 1 [h.ring.sent]
    rw [List.range_eq_range', List.range_eq_range']
    have happend : List.range' 0 s.sent.length ++
        List.range' (0 + s.sent.length) (s.accepted.length - s.sent.length) =
          List.range' 0 (s.sent.length + (s.accepted.length - s.sent.length)) := List.range'_append_1
    rw [Nat.zero_add, Nat.add_sub_cancel' hle] at happend
    exact happend.symm
  running := h.running

theorem Roomy.step {event : TxEvent} (h : s.Roomy) (hallowed : s.RoomLeft event)
    (hstep : s.Step event s') : s'.Roomy := by
  cases event with
  | send data =>
      have hroom : s.accepted.length + 1 < s.sent.length + txDescLen := by
        have hfew : s.tx.pending.length + 1 < txDescLen := hallowed
        rw [h.ring.length_pending h.room] at hfew
        have hle := h.ring.le
        omega
      obtain ⟨-, ⟨hfull, -⟩ | ⟨hdone, rfl⟩⟩ := send_cases hstep
      · -- the descriptor at the tail is free
        refine absurd hfull ?_
        have hfree := h.ring.free s.accepted.length le_rfl h.room
        unfold desc at hfree
        rwa [← h.ring.tdt] at hfree
      · refine ⟨h.ring.accept hdone data, ?_, h.running⟩
        show (s.accepted ++ [data]).length < s.sent.length + txDescLen
        rw [List.length_append]
        exact hroom
  | device =>
      obtain ⟨hne, rfl⟩ := device_cases hstep
      refine ⟨h.ring.ship hne, ?_, h.running⟩
      show s.accepted.length < (s.sent ++ [s.call s.tx.tdh]).length + txDescLen
      rw [List.length_append]
      exact lt_of_lt_of_le h.room (by omega)

theorem sent_in_order (s : TxSys) (hreach : Reachable Starts Step RoomLeft s) : s.SentInOrder := by
  refine (hreach.invariant (P := Roomy) (fun s hstart => ?_) fun s event s' h => h.step).sentInOrder
  refine ⟨ring_of_starts hstart, ?_, hstart.running⟩
  rw [hstart.accepted, hstart.sent]
  decide

def booted : TxSys where
  tx := Tx.transmitInit
    { mem := fun _ => 0, packetBuffer := 0, tdh := 0, tdt := 0
      txDescBuffer := fun _ => { addr := 0, length := 0, cmd := 0, status := 0 } }
  boot := fun _ => 0
  accepted := []
  call := fun _ => 0
  sent := []
  wire := []
  panicked := false

theorem starts_booted : booted.Starts where
  init := ⟨_, rfl⟩
  boot := rfl
  accepted := rfl
  sent := rfl
  wire := rfl
  running := rfl

/-- Two packets are accepted, and the first one is sent. -/
theorem sent_in_order_two : ∃ s : TxSys, s.accepted = [[1], [2]] ∧ s.sent = [0] ∧
    s.tx.pending = [1] ∧ s.SentInOrder := by
  have hrun : (([.send [1], .send [2], .device] : List TxEvent).foldlM
      (guarded RoomLeft exec) booted).map (fun s => (s.accepted, s.sent, s.tx.pending)) =
        some ([[1], [2]], [0], [1]) := by
    decide +kernel
  obtain ⟨s, hs, hview⟩ := (Reachable.start starts_booted).observed guarded_eq_some hrun
  simp only [Prod.mk.injEq] at hview
  exact ⟨s, hview.1, hview.2.1, hview.2.2, sent_in_order s hs⟩

/-- 32 packets fill the ring, which then looks empty to the card; one more stops the kernel. -/
theorem full_ring_looks_empty : ∃ s s' : TxSys, Reachable Starts Step (fun _ _ => True) s ∧
    s.accepted.length = 32 ∧ s.sent = [] ∧ s.tx.pending = [] ∧ ¬s.SentInOrder ∧
    s.Step (.send []) s' ∧ s'.panicked = true := by
  have hrun : ((List.replicate 32 (TxEvent.send [])).foldlM exec booted).map
      (fun s => (s.accepted.length, s.sent, s.tx.pending,
        (s.exec (.send [])).map fun s' => s'.panicked)) = some (32, [], [], some true) := by
    decide +kernel
  obtain ⟨s, hs, hview⟩ :=
    (Reachable.start starts_booted).observed (fun _ _ _ h => ⟨trivial, h⟩) hrun
  simp only [Prod.mk.injEq] at hview
  obtain ⟨haccepted, hsent, hpending, hlast⟩ := hview
  obtain ⟨s', hs', hpanicked⟩ := Option.map_eq_some_iff.mp hlast
  refine ⟨s, s', hs, haccepted, hsent, hpending, fun h => ?_, hs', hpanicked⟩
  have horder := congrArg List.length h.order
  rw [hsent, hpending, haccepted] at horder
  cases horder

structure Intact (s : TxSys) : Prop where
  ring : s.Ring
  addr : ∀ i, (s.tx.txDescBuffer i).addr = s.tx.row i
  packet : ∀ k, s.sent.length ≤ k → k < s.accepted.length →
    s.accepted[k]? = some (s.tx.packet (k % txDescLen))
  wire : s.wire = s.accepted.take s.sent.length
  outside : ∀ a, a < s.tx.packetBuffer ∨ s.tx.packetBuffer + bufSize * txDescLen ≤ a →
    s.tx.mem a = s.boot a

theorem intact_of_starts (hstart : s.Starts) : s.Intact := by
  obtain ⟨t, htx⟩ := hstart.init
  refine ⟨ring_of_starts hstart, fun i => ?_, fun k _ hlt => ?_, ?_, fun a _ => ?_⟩
  · rw [htx]
    rfl
  · rw [hstart.accepted] at hlt
    cases hlt
  · rw [hstart.wire, hstart.accepted, List.take_nil]
  · rw [hstart.boot]

namespace Intact

variable (h : s.Intact)

include h

theorem bytesRight : s.BytesRight where
  pending i hi := by
    obtain ⟨k, hle, hlt, rfl⟩ := h.ring.exists_of_mem_pending hi
    rw [h.ring.call k hle hlt]
    exact h.packet k hle hlt
  wire := by
    have hlength : s.wire.length = s.sent.length := by
      rw [h.wire, List.length_take]
      exact Nat.min_eq_left h.ring.le
    rw [hlength]
    exact h.wire
  outside := h.outside

theorem accept (hdone : (s.tx.txDescBuffer s.tx.tdt).status &&& txdStatDd ≠ 0)
    (hfits : s.FitsRow (.send data)) : (s.accept data).Intact := by
  obtain ⟨hend, hapart⟩ := hfits hdone
  have hlt := h.ring.lt_of_done hdone
  have hlength : (s.accept data).accepted.length = s.accepted.length + 1 := List.length_append
  have hmem : (s.accept data).tx.mem = s.tx.mem.copyList (s.tx.row s.tx.tdt) data := by
    unfold TxSys.accept Tx.transmitPack
    simp only [if_neg hdone]
  have hdesc : (s.accept data).tx.txDescBuffer = update s.tx.txDescBuffer s.tx.tdt
      { s.tx.txDescBuffer s.tx.tdt with
        cmd := (s.tx.txDescBuffer s.tx.tdt).cmd ||| txdCmdRs ||| txdCmdEop
        status := 0
        length := BitVec.ofNat 16 data.length } := by
    unfold TxSys.accept Tx.transmitPack
    simp only [if_neg hdone]
  have hbase : (s.accept data).tx.packetBuffer = s.tx.packetBuffer := by
    unfold TxSys.accept Tx.transmitPack
    simp only [if_neg hdone]
  refine ⟨h.ring.accept hdone data, fun i => ?_, fun k hle hk => ?_, ?_, fun a ha => ?_⟩
  · rw [hdesc]
    unfold Tx.row
    rw [hbase]
    by_cases hi : i = s.tx.tdt
    · rw [hi, update_self]
      exact h.addr s.tx.tdt
    · rw [update_of_ne hi]
      exact h.addr i
  · have hle : s.sent.length ≤ k := hle
    show (s.accepted ++ [data])[k]? = _
    obtain hk | rfl := Nat.lt_succ_iff_lt_or_eq.mp (hlength ▸ hk)
    · -- a packet that was there before
      have hne : k % txDescLen ≠ s.tx.tdt := by
        rw [h.ring.tdt]
        exact (mod_ne_mod hk (by omega)).symm
      rw [List.getElem?_append_left hk, h.packet k hle hk]
      unfold Tx.packet
      rw [hdesc, update_of_ne hne, hmem, h.addr]
      refine congrArg some (Bytes.slice_congr fun x hlow hhigh => ?_)
      have hdisjoint := hapart _ (h.ring.mem_pending hlt hle hk)
      unfold Tx.row at *
      exact (Bytes.copyList_apply_of_not_mem (by omega)).symm
    · -- the new packet, whose length fits into the field of the descriptor
      have hsmall : (BitVec.ofNat 16 data.length).toNat = data.length := by
        unfold bufSize txDescLen at hend
        rw [BitVec.toNat_ofNat]
        exact Nat.mod_eq_of_lt (by omega)
      rw [List.getElem?_concat_length, ← h.ring.tdt]
      unfold Tx.packet
      rw [hdesc, update_self, hmem]
      dsimp only
      rw [h.addr, hsmall, Bytes.slice_copyList]
  · show s.wire = (s.accepted ++ [data]).take s.sent.length
    rw [List.take_append_of_le_length h.ring.le]
    exact h.wire
  · rw [hbase] at ha
    rw [hmem, Bytes.copyList_apply_of_not_mem]
    · exact h.outside a ha
    · unfold Tx.row
      omega

theorem ship (hne : s.tx.tdh ≠ s.tx.tdt) : s.ship.Intact := by
  obtain ⟨hwaits, hlt⟩ := h.ring.waits_of_ne hne
  have hlength : s.ship.sent.length = s.sent.length + 1 := List.length_append
  -- the card changes the status of a descriptor only
  have haddr : ∀ i, (s.ship.tx.txDescBuffer i).addr = (s.tx.txDescBuffer i).addr ∧
      (s.ship.tx.txDescBuffer i).length = (s.tx.txDescBuffer i).length := by
    intro i
    show (update s.tx.txDescBuffer s.tx.tdh _ i).addr = _ ∧
      (update s.tx.txDescBuffer s.tx.tdh _ i).length = _
    by_cases hi : i = s.tx.tdh
    · rw [hi, update_self]
      exact ⟨rfl, rfl⟩
    · rw [update_of_ne hi]
      exact ⟨rfl, rfl⟩
  refine ⟨h.ring.ship hne, fun i => ?_, fun k hle hk => ?_, ?_, h.outside⟩
  · rw [(haddr i).1]
    exact h.addr i
  · rw [hlength] at hle
    unfold Tx.packet
    rw [(haddr _).1, (haddr _).2]
    exact h.packet k (by omega) hk
  · have hnow := h.packet s.sent.length le_rfl hwaits
    rw [← h.ring.tdh] at hnow
    rw [hlength]
    show s.wire ++ [s.tx.packet s.tx.tdh] = s.accepted.take (s.sent.length + 1)
    rw [List.take_add_one, hnow, h.wire]
    rfl

theorem step {event : TxEvent} (hallowed : s.FitsRow event) (hstep : s.Step event s') :
    s'.Intact := by
  cases event with
  | send data =>
      obtain ⟨-, ⟨-, rfl⟩ | ⟨hdone, rfl⟩⟩ := send_cases hstep
      · obtain ⟨hring, haddr, hpacket, hwire, houtside⟩ := h
        exact ⟨⟨hring.sent, hring.le, hring.lap, hring.tdh, hring.tdt, hring.call, hring.busy,
          hring.free⟩, haddr, hpacket, hwire, houtside⟩
      · exact h.accept hdone hallowed
  | device =>
      obtain ⟨hne, rfl⟩ := device_cases hstep
      exact h.ship hne

end Intact

theorem sent_bytes_right (s : TxSys) (hreach : Reachable Starts Step FitsRow s) : s.BytesRight :=
  (hreach.invariant (P := Intact) (fun _ => intact_of_starts) fun _ _ _ h => h.step).bytesRight

/-- Two short packets are pending. -/
theorem sent_bytes_right_two : ∃ s : TxSys, s.accepted = [[1, 2], [3]] ∧ s.tx.pending = [0, 1] ∧
    s.BytesRight := by
  have hrun : (([.send [1, 2], .send [3]] : List TxEvent).foldlM
      (guarded FitsRow exec) booted).map (fun s => (s.accepted, s.tx.pending)) =
        some ([[1, 2], [3]], [0, 1]) := by
    decide +kernel
  obtain ⟨s, hs, hview⟩ := (Reachable.start starts_booted).observed guarded_eq_some hrun
  simp only [Prod.mk.injEq] at hview
  exact ⟨s, hview.1, hview.2, sent_bytes_right s hs⟩

/-- A packet of 1500 bytes reaches into the next row, which the next packet overwrites. -/
theorem long_packet_overwritten : ∃ s : TxSys, Reachable Starts Step (fun _ _ => True) s ∧
    s.accepted = [List.replicate 1500 0, [1]] ∧ s.tx.pending = [0, 1] ∧ ¬s.BytesRight := by
  have hrun : (([.send (List.replicate 1500 0), .send [1]] : List TxEvent).foldlM exec booted).map
      (fun s => (s.accepted, s.tx.pending, s.call 0, (s.tx.packet 0)[1024]?)) =
        some ([List.replicate 1500 0, [1]], [0, 1], 0, some 1) := by
    decide +kernel
  obtain ⟨s, hs, hview⟩ :=
    (Reachable.start starts_booted).observed (fun _ _ _ h => ⟨trivial, h⟩) hrun
  simp only [Prod.mk.injEq] at hview
  obtain ⟨haccepted, hpending, hcall, hbyte⟩ := hview
  refine ⟨s, hs, haccepted, hpending, fun h => ?_⟩
  have hpacket := h.pending 0 (by rw [hpending]; exact List.mem_cons_self)
  rw [hcall, haccepted, List.getElem?_cons_zero, Option.some.injEq] at hpacket
  rw [← hpacket, List.getElem?_replicate_of_lt (by norm_num)] at hbyte
  exact absurd hbyte (by decide)

end TxSys

end E1000

end ZynexOS
