import ZynexOS.Fs.File
import ZynexOS.Library.Wp

/-!
# Rules for the file server's programs

`runs full x Q E v` says what `x` does from any state in which the server sees `v`: it returns with
`Q`, or panics with `E`. With `full` all blocks are mapped, and no access panics.
-/

namespace ZynexOS

open Library

namespace Fs

variable {a n : Nat}

def View.put (v : View) (access : Access) (a val : Nat) : View :=
  { v with mem := v.mem.storeNat a 4 val, trace := access :: v.trace }

def View.clear (v : View) (a n : Nat) : View :=
  { v with mem := v.mem.fill a n 0, trace := .store a n :: v.trace }

def View.copy (v : View) (dst src n : Nat) : View :=
  { v with mem := v.mem.move dst src n, trace := .move dst src n :: v.trace }

def Fully (full : Prop) (cache : Cache) : Prop := full → ∀ n, cache.mapped n = true

def runs {α : Type} (full : Prop) (x : FsM α) (Q : α → View → Prop) (E : View → Prop) (v : View) :
    Prop :=
  ∀ s : Fs, s.toView = v → Fully full s.cache →
    wp x (fun a s' => Q a s'.toView ∧ Fully full s'.cache) (fun _ s' => E s'.toView) s

variable {α β : Type} {full : Prop} {x : FsM α} {g : α → FsM β} {Q : α → View → Prop}
  {E : View → Prop} {v : View}

theorem runs_pure {a : α} (hQ : Q a v) : runs full (pure a) Q E v := by
  rintro s rfl hfull
  exact ⟨hQ, hfull⟩

theorem runs_throw {e : Panic} (hE : E v) : runs full (throw e) Q E v := by
  rintro s rfl -
  exact hE

theorem runs_bind {Q : β → View → Prop} (hx : runs full x (fun a v' => runs full (g a) Q E v') E v) :
    runs full (x >>= g) Q E v := by
  rintro s hs hfull
  exact wp_bind_of (hx s hs hfull) fun a s' hx => hx.1 s' rfl hx.2

theorem runs_mono {Q' : α → View → Prop} {E' : View → Prop} (hx : runs full x Q E v)
    (hQ : ∀ a v', Q a v' → Q' a v') (hE : ∀ v', E v' → E' v') : runs full x Q' E' v := by
  rintro s hs hfull
  exact wp_mono (hx s hs hfull) (fun a s' h => ⟨hQ a _ h.1, h.2⟩) fun _ s' => hE _

theorem runs_of_ok {a : α} {fs fs' : Fs} (hruns : runs False x Q E fs.toView)
    (hrun : x fs = .ok a fs') : Q a fs'.toView :=
  ((wp_of_ok hrun).mp (hruns fs rfl nofun)).1

theorem exists_of_runs {fs : Fs} (hruns : runs False x Q (fun _ => False) fs.toView) :
    ∃ a fs', x fs = .ok a fs' ∧ Q a fs'.toView := by
  have hwp := hruns fs rfl nofun
  unfold wp at hwp
  cases hx : x fs with
  | ok a fs' =>
      rw [hx] at hwp
      exact ⟨a, fs', rfl, hwp.1⟩
  | error e fs' =>
      rw [hx] at hwp
      exact hwp.elim

theorem runs_bind_of {R : α → View → Prop} {Q : β → View → Prop} (hx : runs full x R E v)
    (hg : ∀ a v', R a v' → runs full (g a) Q E v') : runs full (x >>= g) Q E v :=
  runs_bind (runs_mono hx hg fun _ h => h)

theorem runs_ite {c : Prop} [Decidable c] {y : FsM α} (hthen : c → runs full x Q E v)
    (helse : ¬c → runs full y Q E v) : runs full (if c then x else y) Q E v := by
  split
  · next h => exact hthen h
  · next h => exact helse h

theorem runs_get {Q : Fs → View → Prop} (hQ : ∀ s : Fs, s.toView = v → Q s v) :
    runs full get Q E v := by
  rintro s rfl hfull
  exact ⟨hQ s rfl, hfull⟩

/-- An access to `a` does not panic even if the block is not mapped. -/
def View.Accessible (v : View) (a : Nat) : Prop :=
  inCache a = true → blockOf a < v.nblocks ∧ v.freeBit (blockOf a) = false

theorem runs_touch {Q : Unit → View → Prop} (hQ : Q () v)
    (hE : ¬full → ¬v.Accessible a → E v) : runs full (touch a) Q E v := by
  rintro s rfl hfull
  unfold touch
  rw [wp_bind, wp_get]
  split
  · exact ⟨hQ, hfull⟩
  · next hfault =>
      have hnot : ¬full := fun h => hfault (.inr (hfull h _))
      have hcache : inCache a = true := by
        by_contra h
        exact hfault (.inl h)
      split
      · next hblock => exact hE hnot fun hacc => absurd hblock (not_le.mpr (hacc hcache).1)
      · split
        · next hfree =>
            refine hE hnot fun hacc => ?_
            unfold View.blockIsFree at hfree
            rw [(hacc hcache).2, Bool.and_false] at hfree
            cases hfree
        · exact ⟨hQ, fun h => absurd h hnot⟩

theorem runs_touchRange {Q : Unit → View → Prop} (hQ : Q () v)
    (hE : ¬full → ¬(∀ x, a ≤ x → x < a + n → v.Accessible x) → E v) :
    runs full (touchRange a n) Q E v := by
  unfold touchRange
  dsimp only
  have hpages : ∀ i ∈ List.range (if n = 0 then 0 else (a % 4096 + n + 4095) / 4096),
      ¬full → ¬v.Accessible (a / 4096 * 4096 + 4096 * i) → E v := by
    intro i hi hnot hacc
    rw [List.mem_range] at hi
    have hsome : n ≠ 0 := by
      rintro rfl
      simp at hi
    rw [if_neg hsome] at hi
    refine hE hnot fun hall => hacc ?_
    -- some byte of the range lies in the page
    have hbyte := hall (max a (a / 4096 * 4096 + 4096 * i)) (le_max_left _ _) (by omega)
    unfold View.Accessible inCache blockOf at *
    have hblock : (max a (a / 4096 * 4096 + 4096 * i) - 0x10000000) / 4096
        = (a / 4096 * 4096 + 4096 * i - 0x10000000) / 4096 := by omega
    intro hcache
    rw [hblock] at hbyte
    refine hbyte ?_
    simp only [decide_eq_true_eq] at hcache ⊢
    omega
  generalize List.range (if n = 0 then 0 else (a % 4096 + n + 4095) / 4096) = pages at hpages ⊢
  induction pages with
  | nil => exact runs_pure hQ
  | cons page pages ih =>
      refine runs_bind (runs_touch ?_ (hpages page List.mem_cons_self))
      exact ih fun i hi => hpages i (List.mem_cons_of_mem page hi)

theorem runs_modify {w : View → View} {h : Fs → Fs} {Q : PUnit → View → Prop} (hQ : Q ⟨⟩ (w v))
    (hview : ∀ s, (h s).toView = w s.toView)
    (hmapped : ∀ s n, s.cache.mapped n = true → (h s).cache.mapped n = true) :
    runs full (modify h) Q E v := by
  rintro s rfl hfull
  rw [wp_modify, hview]
  exact ⟨hQ, fun hf n => hmapped s n (hfull hf n)⟩

theorem runs_load {Q : Nat → View → Prop} (hQ : Q (v.mem.loadNat a n) v)
    (hE : ¬full → ¬v.Accessible a → E v) : runs full (load a n) Q E v := by
  refine runs_bind (runs_touch (runs_bind (runs_get ?_)) hE)
  rintro s rfl
  exact runs_pure hQ

theorem runs_load32 {Q : Nat → View → Prop} (hQ : Q (v.word a) v)
    (hE : ¬full → ¬v.Accessible a → E v) : runs full (load32 a) Q E v := runs_load hQ hE

theorem runs_loadInt {Q : Int → View → Prop} (hQ : Q (int32 (v.word a)) v)
    (hE : ¬full → ¬v.Accessible a → E v) : runs full (loadInt a) Q E v :=
  runs_bind (runs_load32 (runs_pure hQ) hE)

theorem runs_storeAs {access : Access} {val : Nat} {Q : Unit → View → Prop}
    (hQ : Q () (v.put access a val)) (hE : ¬full → ¬v.Accessible a → E v) :
    runs full (storeAs access a val) Q E v :=
  runs_bind (runs_touch (runs_modify (w := fun v => v.put access a val) hQ (fun _ => rfl)
    fun _ _ h => h) hE)

theorem runs_store32 {val : Nat} {Q : Unit → View → Prop}
    (hQ : Q () (v.put (.store a 4) a val)) (hE : ¬full → ¬v.Accessible a → E v) :
    runs full (store32 a val) Q E v := runs_storeAs hQ hE

theorem runs_memset {Q : Unit → View → Prop} (hQ : Q () (v.clear a n))
    (hE : ¬full → ¬(∀ x, a ≤ x → x < a + n → v.Accessible x) → E v) :
    runs full (memset a 0 n) Q E v :=
  runs_bind (runs_touchRange (runs_modify (w := fun v => v.clear a n) hQ (fun _ => rfl)
    fun _ _ h => h) hE)

theorem runs_memmove {dst src : Nat} {Q : Unit → View → Prop} (hQ : Q () (v.copy dst src n))
    (hsrc : ¬full → ¬(∀ x, src ≤ x → x < src + n → v.Accessible x) → E v)
    (hdst : ¬full → ¬(∀ x, dst ≤ x → x < dst + n → v.Accessible x) → E v) :
    runs full (memmove dst src n) Q E v :=
  runs_bind (runs_touchRange (runs_bind (runs_touchRange (runs_modify
    (w := fun v => v.copy dst src n) hQ (fun _ => rfl) fun _ _ h => h) hdst)) hsrc)

theorem runs_nblocks {Q : Nat → View → Prop} (hQ : Q v.nblocks v)
    (hE : ¬full → ¬v.Accessible (superAddr + 4) → E v) : runs full nblocks Q E v :=
  runs_load32 hQ hE

theorem runs_flushBlock {Q : Unit → View → Prop} (hQ : Q () v) (hE : ¬inCache a → E v) :
    runs full (flushBlock a) Q E v := by
  refine runs_ite (fun h => runs_throw (hE h)) fun _ => runs_modify (w := id) hQ ?_ ?_
  · intro s
    dsimp only
    split <;> rfl
  · intro s n h
    dsimp only
    split <;> exact h

end Fs

end ZynexOS
