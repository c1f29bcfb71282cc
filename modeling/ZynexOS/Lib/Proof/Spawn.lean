import ZynexOS.Lib.Spawn
import ZynexOS.Lib.Proof.MapSegment
import ZynexOS.Lib.Proof.InitStack

/-! # What a failing `spawn` leaves behind -/

namespace ZynexOS

variable {mem mem' : Nat → Option (BitVec 8)} {x : SpawnInput} {io : SpawnIo} {s s' : SpawnState}

theorem loadField_congr {a n : Nat} (hlt : a + n ≤ 512) (h : ∀ b < 512, mem b = mem' b) :
    loadField mem a n = loadField mem' a n := by
  induction n generalizing a with
  | zero => rfl
  | succ n ih =>
      unfold loadField
      rw [uint64_natCast (by omega), h a (by omega), ih (by omega)]

theorem exists_loadField (x : SpawnInput) (elfBuf : Nat → BitVec 8) {a n : Nat} (hlt : a + n ≤ 512) :
    ∃ v, loadField (elfMemory x elfBuf) a n = some v := by
  induction n generalizing a with
  | zero => exact ⟨0, rfl⟩
  | succ n ih =>
      obtain ⟨rest, hrest⟩ := ih (show a + 1 + n ≤ 512 by omega)
      unfold loadField
      rw [uint64_natCast (by omega), hrest]
      unfold elfMemory
      rw [if_pos (by omega)]
      exact ⟨_, rfl⟩

theorem exists_readElf (x : SpawnInput) (elfBuf : Nat → BitVec 8) :
    ∃ elf, readElf (elfMemory x elfBuf) = some elf := by
  obtain ⟨phoff, hphoff⟩ := exists_loadField x elfBuf (show 32 + 8 ≤ 512 by decide)
  obtain ⟨phnum, hphnum⟩ := exists_loadField x elfBuf (show 56 + 2 ≤ 512 by decide)
  unfold readElf
  rw [hphoff, hphnum]
  exact ⟨_, rfl⟩

theorem elfMemory_fill (x : SpawnInput) (page : Nat → BitVec 8) {a : Nat} (ha : a < 512) :
    elfMemory x (x.file.fill 0 0 512 page) a = some (x.file.bytes a) := by
  unfold elfMemory SegmentFile.fill
  rw [if_pos ha, if_pos (by omega), zero_add]

namespace SpawnState

def Accepts (x : SpawnInput) (io : SpawnIo) : Prop :=
  (x.file.readn io.header 0 512 0 fun j => (x.stack j).getD 0).1 = 512 ∧
    loadField (elfMemory x (x.file.readn io.header 0 512 0 fun j => (x.stack j).getD 0).2) 0 4 =
      some elfMagic

theorem Accepts.isElf (h : Accepts x io) : x.file.IsElf := by
  obtain ⟨hr, hmagic⟩ := h
  obtain ⟨t, -, -, heq, hfile, -⟩ := SegmentFile.readn_spec 0 _ (Nat.zero_le 512)
    (show 0 ≤ (x.file.readn io.header 0 512 0 fun j => (x.stack j).getD 0).1 by rw [hr]; decide)
  rw [heq] at hr hmagic
  obtain rfl : t = 512 := by
    dsimp only at hr
    omega
  have hsize := hfile (by decide)
  refine ⟨by omega, ?_⟩
  rw [← hmagic]
  exact (loadField_congr (by decide) fun b hb => elfMemory_fill x _ hb).symm

theorem accepts_of_isElf (h : x.file.IsElf) (hio : ∀ pos, 0 ≤ io.header pos) : Accepts x io := by
  have hsize := h.size
  have heq := SegmentFile.readn_of_le (by omega) (fun j => (x.stack j).getD 0)
    (@SegmentFile.readn_nonneg x.file io.header 0 512 hio 0 fun j => (x.stack j).getD 0)
  unfold Accepts
  rw [heq]
  refine ⟨rfl, ?_⟩
  rw [← h.magic]
  exact loadField_congr (by decide) fun b hb => elfMemory_fill x _ hb

theorem spawn_of_open_lt (hopen : io.openFile < 0) : s.spawn x io = some (io.openFile, s) := by
  unfold spawn
  rw [if_pos hopen]

theorem spawn_of_not_accepts (hopen : 0 ≤ io.openFile) (h : ¬Accepts x io) :
    s.spawn x io = some (-14, { s with fdOpen := false }) := by
  unfold spawn
  rw [if_neg (not_lt.mpr hopen)]
  dsimp only
  rw [if_pos (not_and_or.mp h)]

def headerMemory (x : SpawnInput) (io : SpawnIo) : Nat → Option (BitVec 8) :=
  elfMemory x (x.file.readn io.header 0 512 0 fun j => (x.stack j).getD 0).2

theorem spawn_of_accepts (hopen : 0 ≤ io.openFile) (h : Accepts x io) :
    s.spawn x io = if io.exofork < 0 then some (io.exofork, { s with fdOpen := true })
      else { s with fdOpen := true, fam := s.fam.exofork, child := true }.spawnChild x io
        (headerMemory x io) := by
  unfold spawn
  rw [if_neg (not_lt.mpr hopen)]
  dsimp only
  rw [if_neg fun hnot => hnot.elim (fun hr => hr h.1) fun hmagic => hmagic h.2]
  rfl

theorem Before.clean_of_not_started (hbefore : s.Before) (htemp : s.fam.space .parent pnTemp = none)
    (hnot : 0 ≤ io.openFile → ¬Accepts x io) {r : Int} (hrun : s.spawn x io = some (r, s')) :
    s'.Clean := by
  have hheaders : ∀ a n, (a, n) ∈ s.headerReads → a + n ≤ 512 := by
    rw [hbefore.headerReads]
    exact nofun
  rcases lt_or_ge io.openFile 0 with hopen | hopen
  · rw [spawn_of_open_lt hopen] at hrun
    cases hrun
    exact ⟨hbefore.child, hbefore.fdOpen, htemp, hheaders⟩
  · rw [spawn_of_not_accepts hopen (hnot hopen)] at hrun
    cases hrun
    exact ⟨hbefore.child, rfl, htemp, hheaders⟩

theorem spawn_of_initStack_lt (helf : x.file.IsElf) (hopen : 0 ≤ io.openFile)
    (hheader : ∀ pos, 0 ≤ io.header pos) (hexofork : 0 ≤ io.exofork) {r : Int} {fam : Family}
    (hstack : s.fam.exofork.initStack io.stack x.argv = some (r, fam)) (hr : r < 0) :
    s.spawn x io = some (r, ⟨fam, true, true, s.headerReads⟩) := by
  obtain ⟨elf, hread⟩ := exists_readElf x
    (x.file.readn io.header 0 512 0 fun j => (x.stack j).getD 0).2
  rw [spawn_of_accepts hopen (accepts_of_isElf helf hheader), if_neg (not_lt.mpr hexofork)]
  unfold spawnChild headerMemory
  rw [hread, Option.bind_eq_bind, Option.bind_some, hstack, Option.bind_eq_bind, Option.bind_some]
  exact if_pos hr

theorem initStack_of_alloc_lt (fam : Family) (argv : List CString) {io : StackIo}
    (halloc : io.alloc < 0) :
    ∃ r < 0, fam.initStack io argv = some (r, fam) := by
  unfold Family.initStack ZynexOS.initStack
  split_ifs
  · exact ⟨-eNoMem, by decide, by simp⟩
  · exact ⟨io.alloc, halloc, by simp [halloc]⟩

theorem initStack_of_not_fits (fam : Family) (io : StackIo) {argv : List CString}
    (hsize : stringSize argv + 8 * (argv.length + 1) < utemp) (hfits : ¬FitsStack argv) :
    fam.initStack io argv = some (-eNoMem, fam) := by
  unfold Family.initStack ZynexOS.initStack
  rw [if_pos ((argvStore_lt_iff hsize).mpr hfits), Option.bind_eq_bind, Option.bind_some,
    if_pos (.inl rfl)]

def noStack : SpawnIo where
  openFile := 0
  header _ := 0
  exofork := 1
  stack := ⟨-eNoMem, 0, 0⟩
  segments _ := []
  shared := 0
  trapframe := 0
  status := 0

def magicFile (size : Nat) : SegmentFile where
  bytes a :=
    if a = 0 then 0x7f else if a = 1 then 0x45 else if a = 2 then 0x4c else if a = 3 then 0x46 else 0
  size := size

def callOf (size : Nat) (argv : List CString) : SpawnInput := ⟨magicFile size, argv, fun _ => none⟩

def beforeSpawn : SpawnState := ⟨Family.noPages, false, false, []⟩

theorem before_beforeSpawn : beforeSpawn.Before := ⟨rfl, rfl, rfl⟩

def allGood : SpawnIo := { noStack with stack := ⟨0, 0, 0⟩ }

@[irreducible] def longArg : CString := .replicate 4096 0x61

theorem stringSize_longArg : stringSize [longArg] = 4097 := by
  have hlength : longArg.length = 4096 := by
    unfold longArg
    exact List.length_replicate
  show longArg.length + 1 + 0 = 4097
  rw [hlength]

end SpawnState

end ZynexOS
