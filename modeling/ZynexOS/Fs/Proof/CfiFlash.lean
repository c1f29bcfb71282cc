import ZynexOS.Fs.CfiFlash
import ZynexOS.Fs.Proof.Access

/-!
# What the flash stores

A sector beyond the capacity is neither written nor read, and the error is dropped.
-/

namespace ZynexOS

namespace Fs

open Library

variable {mem array : Bytes} {delay : Nat}
variable {src dst : Nat} {flash : Flash}

namespace CfiFlash

variable {wordOffset : BitVec 32} {buffer : Nat}

def Ready (mode : FlashMode) : Prop := mode = .readArray ∨ mode = .status 0

theorem write_of_ready {flash : Flash} (hready : Ready flash.mode) (offset : BitVec 32)
    (value : Nat) : flash.write offset value = flash.command value 0 := by
  unfold Flash.write
  rcases hready with hmode | hmode <;> rw [hmode]

theorem toNat_add_ofNat {n : Nat} (hroom : wordOffset.toNat + n < 2 ^ 32) :
    (wordOffset + BitVec.ofNat 32 n).toNat = wordOffset.toNat + n := by
  rw [BitVec.toNat_add, BitVec.toNat_ofNat, Nat.add_mod_mod, Nat.mod_eq_of_lt hroom]

theorem programWords_eq (mem array : Bytes) (delay : Nat) {n : Nat} (wordOffset : BitVec 32)
    (buffer : Nat) (pending : List (Nat × Nat)) (hroom : wordOffset.toNat + n < 2 ^ 32) :
    ∃ words, programWords mem n wordOffset buffer ⟨array, .program n, pending, delay⟩ =
        ⟨array, .program 0, words, delay⟩ ∧
      Flash.programmed array words =
        (Flash.programmed array pending).copy (4 * wordOffset.toNat) mem buffer (4 * n) := by
  induction n generalizing wordOffset buffer pending with
  | zero => exact ⟨pending, rfl, by simp⟩
  | succ n ih =>
      have hone : wordOffset.toNat + 1 < 2 ^ 32 := by omega
      have hnext : (wordOffset + 1).toNat = wordOffset.toNat + 1 := toNat_add_ofNat hone
      obtain ⟨words, hrun, hwords⟩ := ih (wordOffset + 1) (buffer + 4)
        (pending ++ [(wordOffset.toNat, mem.loadNat buffer 4)]) (by omega)
      refine ⟨words, hrun, ?_⟩
      have hfirst : Flash.programmed array (pending ++ [(wordOffset.toNat, mem.loadNat buffer 4)]) =
          (Flash.programmed array pending).copy (4 * wordOffset.toNat) mem buffer 4 := by
        rw [Flash.programmed, List.foldl_append, List.foldl_cons, List.foldl_nil,
          Bytes.storeNat_loadNat]
        rfl
      rw [hwords, hfirst, hnext, show 4 * (wordOffset.toNat + 1) = 4 * wordOffset.toNat + 4 by ring,
        Bytes.copy_copy, show 4 + 4 * n = 4 * (n + 1) by ring]

theorem waitReady_eq {offset : BitVec 32} (busy fuel : Nat) (hfuel : busy < fuel) :
    waitReady offset fuel ⟨array, .status busy, [], delay⟩ =
      some ⟨array, .status 0, [], delay⟩ := by
  induction busy generalizing fuel with
  | zero =>
      obtain ⟨fuel, rfl⟩ := Nat.exists_eq_succ_of_ne_zero (show fuel ≠ 0 by omega)
      rfl
  | succ busy ih =>
      obtain ⟨fuel, rfl⟩ := Nat.exists_eq_succ_of_ne_zero (show fuel ≠ 0 by omega)
      exact ih fuel (by omega)

theorem writePage_eq {wordCount : Nat} {mode : FlashMode}
    (hready : Ready mode) (hpos : 0 < wordCount) (hroom : wordOffset.toNat + wordCount < 2 ^ 32) :
    writePage mem wordCount wordOffset buffer ⟨array, mode, [], delay⟩ =
      some ⟨array.copy (4 * wordOffset.toNat) mem buffer (4 * wordCount), .status 0, [], delay⟩ := by
  have hbegin : ∀ blkAddr, Flash.write ⟨array, mode, [], delay⟩ blkAddr 0xE8 =
      ⟨array, .wordCount, [], delay⟩ := fun blkAddr => write_of_ready hready blkAddr 0xE8
  have hcount : ∀ blkAddr, Flash.write ⟨array, .wordCount, [], delay⟩ blkAddr (wordCount - 1) =
      ⟨array, .program wordCount, [], delay⟩ := by
    intro blkAddr
    show Flash.mk array (.program (wordCount - 1 + 1)) [] delay = _
    rw [Nat.sub_add_cancel hpos]
  obtain ⟨words, hrun, hwords⟩ := programWords_eq mem array delay wordOffset buffer [] hroom
  simp only [writePage]
  rw [hbegin, hcount, hrun]
  show waitReady _ (delay + 1) ⟨Flash.programmed array words, .status delay, [], delay⟩ = _
  rw [waitReady_eq delay (delay + 1) (Nat.lt_succ_self delay), hwords]
  rfl

theorem writeBufLoop_eq (mem array : Bytes) (delay fuel words wordCount : Nat)
    (wordOffset : BitVec 32) (buffer : Nat) {mode : FlashMode} (hready : Ready mode) (hfuel : words < fuel)
    (hcount : words ≠ 0 → 0 < wordCount ∧ wordCount ≤ words)
    (hroom : wordOffset.toNat + words < 2 ^ 32) :
    ∃ mode', Ready mode' ∧
      writeBufLoop mem fuel words wordCount wordOffset buffer ⟨array, mode, [], delay⟩ =
        some ⟨array.copy (4 * wordOffset.toNat) mem buffer (4 * words), mode', [], delay⟩ := by
  induction fuel generalizing words wordCount wordOffset buffer mode array with
  | zero => exact absurd hfuel (Nat.not_lt_zero words)
  | succ fuel ih =>
      rw [writeBufLoop]
      by_cases hdone : words = 0
      · refine ⟨mode, hready, ?_⟩
        rw [if_pos hdone, hdone, Nat.mul_zero, Bytes.copy_zero]
      · obtain ⟨hpos, hle⟩ := hcount hdone
        have hoffset : (wordOffset + BitVec.ofNat 32 wordCount).toNat =
            wordOffset.toNat + wordCount := toNat_add_ofNat (by omega)
        have hnext : words - wordCount ≠ 0 →
            0 < (if pageWords ≤ words - wordCount then pageWords else words - wordCount) ∧
            (if pageWords ≤ words - wordCount then pageWords else words - wordCount) ≤
              words - wordCount := by
          intro hleft
          have hpage : 0 < pageWords := by decide
          split <;> omega
        obtain ⟨mode', hready', hrun⟩ := ih
          (array.copy (4 * wordOffset.toNat) mem buffer (4 * wordCount)) (words - wordCount)
          (if pageWords ≤ words - wordCount then pageWords else words - wordCount)
          (wordOffset + BitVec.ofNat 32 wordCount) (buffer + 4 * wordCount) (Or.inr rfl) (by omega) hnext
          (by omega)
        refine ⟨mode', hready', ?_⟩
        rw [if_neg hdone, writePage_eq hready hpos (by omega)]
        refine hrun.trans ?_
        rw [hoffset, Nat.mul_add, Bytes.copy_copy, ← Nat.mul_add, Nat.add_sub_cancel' hle]

theorem writeBuf_eq {words : Nat} (hroom : wordOffset.toNat + words < 2 ^ 32) :
    writeBuf mem wordOffset buffer words (.idle array delay) =
      some (.idle (array.copy (4 * wordOffset.toNat) mem buffer (4 * words)) delay) := by
  have hmod : wordOffset.toNat % pageWords < pageWords := Nat.mod_lt _ (by decide)
  obtain ⟨mode, hready, hrun⟩ := writeBufLoop_eq mem array delay (words + 1) words
    (if words < pageWords - wordOffset.toNat % pageWords then words
      else pageWords - wordOffset.toNat % pageWords)
    wordOffset buffer (Or.inl rfl) (Nat.lt_succ_self words) (by intro hne; split <;> omega) hroom
  simp only [writeBuf]
  rw [show Flash.idle array delay = ⟨array, .readArray, [], delay⟩ from rfl, hrun]
  exact congrArg some (write_of_ready hready 0 0x50)

theorem readLoop_eq (left i : Nat) (hroom : wordOffset.toNat + (i + left) < 2 ^ 32) :
    readLoop buffer wordOffset left i mem (.idle array delay) =
      (mem.copy (buffer + 4 * i) array (4 * (wordOffset.toNat + i)) (4 * left),
        .idle array delay) := by
  induction left generalizing i mem with
  | zero => rw [Nat.mul_zero, Bytes.copy_zero]; rfl
  | succ left ih =>
      have hword : (wordOffset + BitVec.ofNat 32 i).toNat = wordOffset.toNat + i :=
        toNat_add_ofNat (by omega)
      have hread : Flash.read (.idle array delay) (wordOffset + BitVec.ofNat 32 i) =
          (array.loadNat (4 * (wordOffset.toNat + i)) 4, .idle array delay) := by
        rw [← hword]
        rfl
      rw [readLoop, hread]
      show readLoop buffer wordOffset left (i + 1) _ (.idle array delay) = _
      rw [ih (i + 1) (by omega), Bytes.storeNat_loadNat,
        show buffer + 4 * (i + 1) = buffer + 4 * i + 4 by ring,
        show 4 * (wordOffset.toNat + (i + 1)) = 4 * (wordOffset.toNat + i) + 4 by ring,
        Bytes.copy_copy, show 4 + 4 * left = 4 * (left + 1) by ring]

end CfiFlash

variable {b i : Nat}

theorem sectorOffset_toNat (hb : b < 0xC0000) (hi : i < blkSects) :
    (sectorOffset (blockSector b) i).toNat = flashStart b + 512 * i := by
  have hlt : i < 8 := hi
  have hsector : (blockSector b + BitVec.ofNat 32 i).toNat = 8 * b + i := by
    rw [blockSector, ← BitVec.ofNat_add, BitVec.toNat_ofNat]
    exact Nat.mod_eq_of_lt (show 8 * b + i < 2 ^ 32 by omega)
  rw [sectorOffset, BitVec.toNat_add, BitVec.toNat_mul, hsector]
  show (0x800000 + (8 * b + i) * 512 % 2 ^ 32) % 2 ^ 32 = 0x800000 + 4096 * b + 512 * i
  omega

theorem capacity_lt_iff (hb : b < 0xC0000) (hi : i < blkSects) :
    CfiFlash.capacity < sectorOffset (blockSector b) i + 512 ↔ flashBlocks ≤ b := by
  have hlt : i < 8 := hi
  rw [BitVec.lt_def, BitVec.toNat_add, sectorOffset_toNat hb hi]
  show 0x2000000 < (0x800000 + 4096 * b + 512 * i + 512) % 2 ^ 32 ↔ 6144 ≤ b
  omega

theorem sector_word (hb : b < 0xC0000) (hi : i < blkSects) :
    4 * (sectorOffset (blockSector b) i >>> 2).toNat = flashStart b + 512 * i := by
  rw [BitVec.toNat_ushiftRight, sectorOffset_toNat hb hi, Nat.shiftRight_eq_div_pow, flashStart]
  omega

theorem sector_room (b i : Nat) : (sectorOffset (blockSector b) i >>> 2).toNat + 128 < 2 ^ 32 := by
  have hlt := (sectorOffset (blockSector b) i).isLt
  rw [BitVec.toNat_ushiftRight, Nat.shiftRight_eq_div_pow]
  omega

theorem write_sector (hb : b < flashBlocks) (hi : i < blkSects) :
    CfiFlash.write mem src (sectorOffset (blockSector b) i) 512 (.idle array delay) =
      some (0, .idle (array.copy (flashStart b + 512 * i) mem src 512) delay) := by
  have hdisk : b < 0xC0000 := hb.trans (by decide)
  rw [CfiFlash.write, if_neg (by rw [capacity_lt_iff hdisk hi]; omega),
    show ((512 : BitVec 32) >>> 2).toNat = 128 from rfl, CfiFlash.writeBuf_eq (sector_room b i),
    sector_word hdisk hi]
  rfl

theorem read_sector (hb : b < flashBlocks) (hi : i < blkSects) :
    CfiFlash.read dst (sectorOffset (blockSector b) i) 512 mem (.idle array delay) =
      (0, mem.copy dst array (flashStart b + 512 * i) 512, .idle array delay) := by
  have hdisk : b < 0xC0000 := hb.trans (by decide)
  have hroom : (sectorOffset (blockSector b) i >>> 2).toNat + (0 + 128) < 2 ^ 32 := sector_room b i
  rw [CfiFlash.read, if_neg (by rw [capacity_lt_iff hdisk hi]; omega),
    show ((512 : BitVec 32) >>> 2).toNat = 128 from rfl, CfiFlash.readLoop_eq 128 0 hroom]
  simp only [Nat.mul_zero, Nat.add_zero, Nat.reduceMul, sector_word hdisk hi]

theorem read_sector_beyond (hroom : flashBlocks ≤ b) (hb : b < 0xC0000) (hi : i < blkSects)
    :
    CfiFlash.read dst (sectorOffset (blockSector b) i) 512 mem flash = (-1, mem, flash) :=
  if_pos ((capacity_lt_iff hb hi).mpr hroom)

theorem cfiFlashWriteLoop_eq (hb : b < flashBlocks) (nsecs : Nat) {array : Bytes}
    (hi : i + nsecs ≤ blkSects) :
    cfiFlashWriteLoop mem (blockSector b) nsecs i src (.idle array delay) =
      some (.idle (array.copy (flashStart b + 512 * i) mem src (512 * nsecs)) delay) := by
  induction nsecs generalizing i src array with
  | zero => rw [Nat.mul_zero, Bytes.copy_zero]; rfl
  | succ nsecs ih =>
      rw [cfiFlashWriteLoop, write_sector hb (by omega)]
      refine (ih (by omega)).trans ?_
      rw [show flashStart b + 512 * (i + 1) = flashStart b + 512 * i + 512 by ring,
        Bytes.copy_copy, show 512 + 512 * nsecs = 512 * (nsecs + 1) by ring]

theorem cfiFlashWrite_eq (hb : b < flashBlocks) :
    cfiFlashWrite mem (blockSector b) src blkSects (.idle array delay) =
      some (.idle (array.copy (flashStart b) mem src 4096) delay) :=
  cfiFlashWriteLoop_eq hb blkSects (Nat.zero_add blkSects).le

theorem cfiFlashReadLoop_eq (hb : b < flashBlocks) (nsecs : Nat) {mem : Bytes}
    (hi : i + nsecs ≤ blkSects) :
    cfiFlashReadLoop (blockSector b) nsecs i dst mem (.idle array delay) =
      (mem.copy dst array (flashStart b + 512 * i) (512 * nsecs), .idle array delay) := by
  induction nsecs generalizing i dst mem with
  | zero => rw [Nat.mul_zero, Bytes.copy_zero]; rfl
  | succ nsecs ih =>
      rw [cfiFlashReadLoop, read_sector hb (by omega)]
      refine (ih (by omega)).trans ?_
      rw [show flashStart b + 512 * (i + 1) = flashStart b + 512 * i + 512 by ring,
        Bytes.copy_copy, show 512 + 512 * nsecs = 512 * (nsecs + 1) by ring]

theorem cfiFlashRead_eq (hb : b < flashBlocks) :
    cfiFlashRead (blockSector b) dst blkSects mem (.idle array delay) =
      (mem.copy dst array (flashStart b) 4096, .idle array delay) :=
  cfiFlashReadLoop_eq hb blkSects (Nat.zero_add blkSects).le

theorem cfiFlashReadLoop_beyond (hroom : flashBlocks ≤ b) (hb : b < 0xC0000) (nsecs : Nat)
    (hi : i + nsecs ≤ blkSects) :
    cfiFlashReadLoop (blockSector b) nsecs i dst mem flash = (mem, flash) := by
  induction nsecs generalizing i dst with
  | zero => rfl
  | succ nsecs ih =>
      rw [cfiFlashReadLoop, read_sector_beyond hroom hb (by omega)]
      exact ih (by omega)

theorem cfiFlashRead_beyond (hroom : flashBlocks ≤ b) (hb : b < 0xC0000)
    : cfiFlashRead (blockSector b) dst blkSects mem flash = (mem, flash) :=
  cfiFlashReadLoop_beyond hroom hb blkSects (Nat.zero_add blkSects).le

theorem cfiFlashRead_copy_of_ne {c : Nat} {mem' : Bytes} (hne : c ≠ b) (hc : c < 0xC0000) :
    (cfiFlashRead (blockSector c) dst blkSects mem
        (.idle (array.copy (flashStart b) mem' src 4096) delay)).1 =
      (cfiFlashRead (blockSector c) dst blkSects mem (.idle array delay)).1 := by
  by_cases hroom : c < flashBlocks
  · have hdisj : flashStart c + 4096 ≤ flashStart b ∨ flashStart b + 4096 ≤ flashStart c := by
      simp only [flashStart]
      omega
    rw [cfiFlashRead_eq hroom, cfiFlashRead_eq hroom]
    exact Bytes.copy_of_disjoint hdisj
  · rw [cfiFlashRead_beyond (by omega) hc, cfiFlashRead_beyond (by omega) hc]

theorem storesBlock {nblocks : Nat} (hdisk : nblocks ≤ 0xC0000) (hb : b < flashBlocks) :
    StoresBlock nblocks b := by
  intro array delay mem src
  refine ⟨array.copy (flashStart b) mem src 4096, cfiFlashWrite_eq hb, ?_, ?_⟩
  · intro dst
    rw [cfiFlashRead_eq hb, Bytes.copy_of_copy]
    rfl
  · intro c _ hc hne dst mem'
    exact cfiFlashRead_copy_of_ne hne (by omega)

theorem not_storesBlock {nblocks : Nat} (hroom : flashBlocks ≤ b) (hb : b < 0xC0000) :
    ¬StoresBlock nblocks b := by
  intro hstores
  obtain ⟨array', -, hread, -⟩ := hstores (fun _ => 0) 0 (fun x => if x = 0 then 1 else 0) 0
  have hbyte := congrFun (congrArg Prod.fst (hread 4096)) 4096
  rw [cfiFlashRead_beyond hroom hb] at hbyte
  have hzero : (0 : BitVec 8) = 1 := hbyte
  exact absurd hzero (by decide)

theorem nblocks_le_of_checkSuper {fs fs' : Fs} (hcheck : checkSuper fs = .ok () fs') :
    fs.toView.nblocks ≤ 0xC0000 := by
  have hrun : runs False checkSuper (fun _ _ => fs.toView.nblocks ≤ 0xC0000) (fun _ => True) fs.toView := by
    refine runs_bind (runs_load32 (runs_ite (fun _ => runs_throw trivial) fun _ => ?_)
      fun _ _ => trivial)
    refine runs_bind (runs_nblocks (runs_ite (fun _ => runs_throw trivial) fun hle => ?_)
      fun _ _ => trivial)
    exact runs_pure (not_lt.mp hle)
  have hwp := hrun fs rfl False.elim
  exact ((wp_of_ok hcheck).mp hwp).1

/-- Of the blocks that `check_super` admits, those below `flashBlocks` are stored. -/
theorem storesBlock_iff {fs fs' : Fs} (hcheck : checkSuper fs = .ok () fs') (_hpos : 1 ≤ b)
    (hb : b < fs.toView.nblocks) : StoresBlock fs.toView.nblocks b ↔ b < flashBlocks := by
  have hdisk := nblocks_le_of_checkSuper hcheck
  constructor
  · intro hstores
    by_contra hroom
    exact not_storesBlock (not_lt.mp hroom) (by omega) hstores
  · exact storesBlock hdisk

def largestDisk : Fs where
  mem := Bytes.storeNat (Bytes.storeNat (fun _ => 0) superAddr 4 fsMagic) (superAddr + 4) 4 0xC0000
  trace := []
  opentab := fun _ => ⟨0, 0, 0⟩
  pageref := fun _ => 0
  cache := ⟨fun _ => true, fun _ => false, fun _ => 0, []⟩

theorem checkSuper_largestDisk : checkSuper largestDisk = .ok () largestDisk := rfl

theorem storesBlock_last : StoresBlock largestDisk.toView.nblocks 6143 :=
  (storesBlock_iff checkSuper_largestDisk (by decide) (by decide +kernel)).mpr (by decide)

def oneByte : Bytes := fun x => if x = 0 then 1 else 0

/-- Block 6144 of the largest disk is written from address 0 and read to address 4096, where the 1
does not arrive. -/
theorem first_lost_block :
    checkSuper largestDisk = .ok () largestDisk ∧ 6144 < largestDisk.toView.nblocks ∧
      ((cfiFlashWrite oneByte (blockSector 6144) 0 blkSects (.idle (fun _ => 0) 0)).map fun flash =>
        (cfiFlashRead (blockSector 6144) 4096 blkSects oneByte flash).1 4096) = some 0 ∧
      oneByte 0 = 1 :=
  ⟨rfl, by decide +kernel, by decide +kernel, rfl⟩

end Fs

end ZynexOS
