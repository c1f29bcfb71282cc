import ZynexOS.Kern.Layout

/-!
# memmove

The two copy loops of `memmove` in `lib/string.c`, over every address of the machine.
-/

namespace ZynexOS

abbrev ByteMem := Word → BitVec 8

namespace ByteMem

def store (m : ByteMem) (a : Word) (b : BitVec 8) : ByteMem := fun x => if x = a then b else m x

def copyUp (m : ByteMem) (d s : Word) : Nat → ByteMem
  | 0 => m
  | n + 1 => (m.store d (m s)).copyUp (d + 1) (s + 1) n

def copyDown (m : ByteMem) (d s : Word) : Nat → ByteMem
  | 0 => m
  | n + 1 => (m.store (d - 1) (m (s - 1))).copyDown (d - 1) (s - 1) n

def memmove (m : ByteMem) (dst src n : Word) : Word × ByteMem :=
  (dst, if src < dst ∧ dst < src + n then m.copyDown (dst + n) (src + n) n.toNat
    else m.copyUp dst src n.toNat)

def nth (p : Word) (i : Nat) : Word := p + BitVec.ofNat 64 i

structure Moved (m m' : ByteMem) (d s : Word) (n : Nat) : Prop where
  copied : ∀ i < n, m' (nth d i) = m (nth s i)
  others : ∀ a, (∀ i < n, a ≠ nth d i) → m' a = m a

variable {m m' : ByteMem} {d s : Word} {n : Nat}

theorem store_self (a : Word) (b : BitVec 8) : m.store a b a = b := if_pos rfl

theorem store_of_ne {a x : Word} (b : BitVec 8) (hne : x ≠ a) : m.store a b x = m x := if_neg hne

theorem nth_zero (p : Word) : nth p 0 = p := BitVec.add_zero p

theorem nth_succ (p : Word) (i : Nat) : nth (p + 1) i = nth p (i + 1) := by
  rw [nth, nth, BitVec.add_assoc, Nat.add_comm i, BitVec.ofNat_add]
  rfl

theorem nth_succ_sub_one (p : Word) (i : Nat) : nth p (i + 1) - 1 = nth p i := by
  rw [nth, BitVec.ofNat_add, ← BitVec.add_assoc]
  exact BitVec.add_sub_cancel _ _

theorem toNat_nth {p : Word} {i : Nat} (hi : p.toNat + i < 2 ^ 64) : (nth p i).toNat = p.toNat + i := by
  have hoffset : i % 2 ^ 64 = i := Nat.mod_eq_of_lt (by omega)
  rw [nth, BitVec.toNat_add, BitVec.toNat_ofNat, hoffset, Nat.mod_eq_of_lt hi]

theorem nth_inj {p : Word} {i j : Nat} (hi : i < 2 ^ 64) (hj : j < 2 ^ 64) (h : nth p i = nth p j) :
    i = j := by
  have hsame := congrArg BitVec.toNat (add_left_cancel h)
  rwa [BitVec.toNat_ofNat, BitVec.toNat_ofNat, Nat.mod_eq_of_lt hi, Nat.mod_eq_of_lt hj] at hsame

/-- Going up is right when no byte is overwritten before it is read. -/
theorem copyUp_moved (hn : n ≤ 2 ^ 64) (hfree : ∀ i j, i < j → j < n → nth s j ≠ nth d i) :
    Moved m (m.copyUp d s n) d s n := by
  induction n generalizing m d s with
  | zero => exact ⟨nofun, fun _ _ => rfl⟩
  | succ n ih =>
      have hfree' : ∀ i j, i < j → j < n → nth (s + 1) j ≠ nth (d + 1) i := by
        intro i j hij hj
        rw [nth_succ, nth_succ]
        exact hfree _ _ (by omega) (by omega)
      obtain ⟨hcopied, hothers⟩ := ih (m := m.store d (m s)) (by omega) hfree'
      refine ⟨fun i hi => ?_, fun a ha => ?_⟩
      · cases i with
        | zero =>
            have hfirst : ∀ j < n, nth d 0 ≠ nth (d + 1) j := by
              intro j hj hsame
              rw [nth_succ] at hsame
              have := nth_inj (by omega) (by omega) hsame
              omega
            rw [copyUp, hothers _ hfirst, nth_zero, nth_zero, store_self]
        | succ i =>
            have hsource := hfree 0 (i + 1) (by omega) hi
            rw [nth_zero] at hsource
            rw [copyUp, ← nth_succ, hcopied i (by omega), nth_succ, store_of_ne _ hsource]
      · have hd := ha 0 (by omega)
        rw [nth_zero] at hd
        rw [copyUp, hothers a fun i hi => nth_succ d i ▸ ha (i + 1) (by omega), store_of_ne _ hd]

theorem copyDown_moved (hn : n ≤ 2 ^ 64) (hfree : ∀ i j, i < j → j < n → nth s i ≠ nth d j) :
    Moved m (m.copyDown (nth d n) (nth s n) n) d s n := by
  induction n generalizing m with
  | zero => exact ⟨nofun, fun _ _ => rfl⟩
  | succ n ih =>
      obtain ⟨hcopied, hothers⟩ := ih (m := m.store (nth d n) (m (nth s n))) (by omega)
        fun i j hij hj => hfree i j hij (by omega)
      rw [copyDown, nth_succ_sub_one, nth_succ_sub_one]
      refine ⟨fun i hi => ?_, fun a ha => ?_⟩
      · obtain hlt | rfl := Nat.lt_succ_iff_lt_or_eq.mp hi
        · rw [hcopied i hlt, store_of_ne _ (hfree i n hlt (by omega))]
        · have hlast : ∀ j < i, nth d i ≠ nth d j := fun j hj hsame =>
            absurd (nth_inj (by omega) (by omega) hsame) (by omega)
          rw [hothers _ hlast, store_self]
      · rw [hothers a fun i hi => ha i (by omega), store_of_ne _ (ha n (by omega))]

/-- Neither loop overwrites a byte that it still has to read. -/
theorem memmove_moved {dst src n : Word} (hdst : dst.toNat + n.toNat ≤ 2 ^ 64)
    (hsrc : src.toNat + n.toNat ≤ 2 ^ 64) : Moved m (m.memmove dst src n).2 dst src n.toNat := by
  have hn : n.toNat ≤ 2 ^ 64 := by omega
  have hend : ∀ p : Word, p + n = nth p n.toNat := by
    intro p
    rw [nth, BitVec.ofNat_toNat, BitVec.setWidth_eq]
  unfold memmove
  dsimp only
  split
  · next hbelow =>
      rw [hend dst, hend src]
      refine copyDown_moved hn fun i j hij hj hsame => ?_
      have hnats := congrArg BitVec.toNat hsame
      rw [toNat_nth (by omega), toNat_nth (by omega)] at hnats
      have := BitVec.lt_def.mp hbelow.1
      omega
  · next hforward =>
      refine copyUp_moved hn fun i j hij hj hsame => hforward ?_
      have hnats := congrArg BitVec.toNat hsame
      rw [toNat_nth (by omega), toNat_nth (by omega)] at hnats
      -- the source ends before the last address, since the destination starts above it
      refine ⟨BitVec.lt_def.mpr (by omega), BitVec.lt_def.mpr ?_⟩
      rw [hend src, toNat_nth (by omega)]
      omega

/-- `[dst, dst + n)` gets the bytes that were at `[src, src + n)`, and nothing else changes. -/
theorem memmove_copies (m : ByteMem) (dst src n : Word) (hdst : dst.toNat + n.toNat ≤ 2 ^ 64)
    (hsrc : src.toNat + n.toNat ≤ 2 ^ 64) :
    (∀ i < n, (m.memmove dst src n).2 (dst + i) = m (src + i)) ∧
      ∀ a : Word, a.toNat < dst.toNat ∨ dst.toNat + n.toNat ≤ a.toNat →
        (m.memmove dst src n).2 a = m a := by
  obtain ⟨hcopied, hothers⟩ := memmove_moved hdst hsrc
  refine ⟨fun i hi => ?_, fun a ha => hothers a fun i hi hsame => ?_⟩
  · have h := hcopied i.toNat (BitVec.lt_def.mp hi)
    rwa [nth, nth, BitVec.ofNat_toNat, BitVec.setWidth_eq] at h
  · have hnats := congrArg BitVec.toNat hsame
    rw [toNat_nth (by omega)] at hnats
    omega

theorem memmove_copies_overlap :
    (∀ i < 3, (memmove (fun a => a.setWidth 8) 5 4 3).2 (5 + i) = (4 + i).setWidth 8) ∧
      ∀ a : Word, a.toNat < 5 ∨ 8 ≤ a.toNat →
        (memmove (fun a => a.setWidth 8) 5 4 3).2 a = a.setWidth 8 :=
  memmove_copies (fun a => a.setWidth 8) 5 4 3 (by decide) (by decide)

end ByteMem

end ZynexOS
