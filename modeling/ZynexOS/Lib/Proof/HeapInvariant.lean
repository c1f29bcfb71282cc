import ZynexOS.Lib.Malloc
import ZynexOS.Library.Wp

/-!
# The invariant of the heap

A block ends in its home page, where its reference is counted; all pages before are its own.
-/

namespace ZynexOS

open Library

namespace Malloc

open Heap

namespace Block

def len (b : Block) : Nat := roundUp8 b.size

def first (b : Block) : Nat := pageOf b.ptr

def home (b : Block) : Nat := pageOf (b.ptr + b.len + 3)

def Apart (a b : Block) : Prop := a.ptr + a.len ≤ b.ptr ∨ b.ptr + b.len ≤ a.ptr

theorem Apart.symm {a b : Block} (h : Apart a b) : Apart b a := Or.symm h

end Block

theorem eight_dvd_roundUp8 (n : Nat) : roundUp8 n % 8 = 0 := Nat.mul_mod_left _ _

theorem le_roundUp8 {n : Nat} (h : n + 7 < 2 ^ 64) : n ≤ roundUp8 n := by
  rw [roundUp8, Nat.mod_eq_of_lt h]
  omega

structure Placed (h : Heap) (b : Block) : Prop where
  low : mbegin ≤ b.ptr
  high : 4096 * (b.home + 1) < mend
  aligned : b.ptr % 8 = 0
  size : b.size ≤ b.len
  run : b.first < b.home → b.ptr % 4096 = 0
  pages : ∀ p, b.first ≤ p → p < b.home → h.mapped p = true ∧ h.continued p = true
  homed : h.mapped b.home = true ∧ h.continued b.home = false

variable {h h' : Heap} {b b' : Block} {live : List Block} {written : Bytes} {p : Nat}

theorem Block.end_le (b : Block) : b.ptr + b.len ≤ counterAddr b.home := by
  unfold counterAddr Block.home pageOf
  omega

theorem Block.first_le_home (b : Block) : b.first ≤ b.home := by
  unfold Block.first Block.home pageOf
  omega

theorem Placed.covers (hb : Placed h b) {q : Nat} (hfirst : b.first ≤ q) (hhome : q < b.home) :
    b.ptr ≤ 4096 * q ∧ 4096 * (q + 1) ≤ b.ptr + b.len := by
  have hptr := hb.run (lt_of_le_of_lt hfirst hhome)
  have hlen : b.len % 8 = 0 := eight_dvd_roundUp8 _
  simp only [Block.first, Block.home, pageOf] at hfirst hhome
  omega

theorem Placed.alone (hb : Placed h b) (hb' : Placed h b') (hapart : b.Apart b') {q : Nat}
    (hfirst : b.first ≤ q) (hhome : q < b.home) : ¬(b'.first ≤ q ∧ q ≤ b'.home) := by
  rintro ⟨hfirst', hhome'⟩
  have hcont := (hb.pages q hfirst hhome).2
  rcases Nat.lt_or_eq_of_le hhome' with hlt | rfl
  · have hcover := hb.covers hfirst hhome
    have hcover' := hb'.covers hfirst' hlt
    unfold Block.Apart at hapart
    omega
  · rw [hb'.homed.2] at hcont
    cases hcont

theorem Placed.page_mem (hb : Placed h b) {i : Nat} (hi : i < b.size) :
    b.first ≤ pageOf (b.ptr + i) ∧ pageOf (b.ptr + i) ≤ b.home := by
  have := hb.size
  unfold Block.first Block.home pageOf
  omega

theorem Placed.mapped (hb : Placed h b) {q : Nat} (hfirst : b.first ≤ q) (hhome : q ≤ b.home) :
    h.mapped q = true := by
  rcases Nat.lt_or_eq_of_le hhome with hlt | rfl
  · exact (hb.pages q hfirst hlt).1
  · exact hb.homed.1

theorem Placed.not_counter (hb : Placed h b) {i : Nat} (hi : i < b.size)
    (hp : h.continued p = false) : b.ptr + i < counterAddr p ∨ counterAddr p + 4 ≤ b.ptr + i := by
  by_contra hin
  obtain ⟨hfirst, hhome⟩ := hb.page_mem hi
  have hpage : pageOf (b.ptr + i) = p := by
    unfold counterAddr at hin
    unfold pageOf
    omega
  rw [hpage] at hfirst hhome
  rcases Nat.lt_or_eq_of_le hhome with hlt | rfl
  · rw [(hb.pages p hfirst hlt).2] at hp
    cases hp
  · have := b.end_le
    have := hb.size
    omega

def cursorRefs (mptr p : Nat) : Nat := if mptr % 4096 ≠ 0 ∧ pageOf mptr = p then 1 else 0

def homed (live : List Block) (p : Nat) : Nat := live.countP fun b => b.home = p

structure Core (h : Heap) (live : List Block) (written : Bytes) : Prop where
  placed : ∀ b ∈ live, Placed h b
  apart : live.Pairwise Block.Apart
  contents : ∀ b ∈ live, ∀ i < b.size, h.mem (b.ptr + i) = written (b.ptr + i)
  continued : ∀ p, h.continued p = true → h.mapped p = true

/-- The counters, when `extra p` references to page `p` are not those of blocks. -/
def Counted (h : Heap) (live : List Block) (extra : Nat → Nat) : Prop :=
  ∀ p, h.mapped p = true → h.continued p = false → homed live p + extra p ≤ h.counter p

structure Cursor (h : Heap) (live : List Block) : Prop where
  inside : mbegin ≤ h.mptr ∧ h.mptr < mend
  aligned : h.mptr % 8 = 0
  page : h.mptr % 4096 ≠ 0 → h.mapped (pageOf h.mptr) = true ∧ h.continued (pageOf h.mptr) = false ∧
    4096 * (pageOf h.mptr + 1) < mend
  behind : h.mptr % 4096 ≠ 0 → ∀ b ∈ live, b.home = pageOf h.mptr → b.ptr + b.len ≤ h.mptr

structure Sound (h : Heap) (live : List Block) (written : Bytes) : Prop where
  core : Core h live written
  counted : Counted h live (cursorRefs h.mptr)
  cursor : Cursor h live

structure Keeps (h h' : Heap) : Prop where
  mapped : ∀ p, h.mapped p = true → h'.mapped p = true ∧ h'.continued p = h.continued p
  mem : ∀ x, h.mapped (pageOf x) = true →
    (h.continued (pageOf x) = true ∨ x < counterAddr (pageOf x)) → h'.mem x = h.mem x
  continued : ∀ p, h'.continued p = true → h'.mapped p = true

theorem Placed.keep (hb : Placed h b) (hkeep : Keeps h h') : Placed h' b where
  low := hb.low
  high := hb.high
  aligned := hb.aligned
  size := hb.size
  run := hb.run
  pages q hfirst hhome := by
    obtain ⟨hmapped, hcont⟩ := hb.pages q hfirst hhome
    exact ⟨(hkeep.mapped q hmapped).1, (hkeep.mapped q hmapped).2.trans hcont⟩
  homed := ⟨(hkeep.mapped _ hb.homed.1).1, (hkeep.mapped _ hb.homed.1).2.trans hb.homed.2⟩

theorem Placed.byte (hb : Placed h b) {i : Nat} (hi : i < b.size) :
    h.mapped (pageOf (b.ptr + i)) = true ∧
      (h.continued (pageOf (b.ptr + i)) = true ∨ b.ptr + i < counterAddr (pageOf (b.ptr + i))) := by
  obtain ⟨hfirst, hhome⟩ := hb.page_mem hi
  refine ⟨hb.mapped hfirst hhome, ?_⟩
  rcases Nat.lt_or_eq_of_le hhome with hlt | heq
  · exact .inl (hb.pages _ hfirst hlt).2
  · right
    have := b.end_le
    have := hb.size
    rw [heq]
    omega

theorem Core.keep (hcore : Core h live written) (hkeep : Keeps h h') : Core h' live written where
  placed b hb := (hcore.placed b hb).keep hkeep
  apart := hcore.apart
  contents b hb i hi := by
    obtain ⟨hmapped, hbyte⟩ := (hcore.placed b hb).byte hi
    rw [hkeep.mem _ hmapped hbyte]
    exact hcore.contents b hb i hi
  continued := hkeep.continued

end Malloc

end ZynexOS
