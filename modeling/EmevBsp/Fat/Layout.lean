import EmevBsp.Fat.Entries

/-!
# Where the clusters are

`do_fat_read` puts the start of the root directory into 16 bits, and the place where a cluster 0
would be, which may be before the volume, into 16 bits with a sign.  `get_cluster` extends the sign
and counts clusters from there in 32 bits.

* `BootSector.clusterSect`: the first block of a cluster, by the layout of the format.
* `toNat_startSect`: the block that the code computes.
* `startSect_iff`: **the two are the same**, exactly when the root directory fills its blocks, the
  block has a number of 32 bits, and the place of cluster 0 is in the 16 bits with a sign.
* `not_startSect`: a FAT32 volume of eight gigabytes.
-/

namespace EmevBsp
namespace Fat

/-! ## The layout of the format -/

variable (bs : BootSector) (fatsize : FatSize)

/-- The blocks of the root directory; that of FAT32 is in clusters. -/
def BootSector.rootSects : ℕ :=
  if fatsize = .fat32 then 0 else (bs.dirEntries * 32 + (fsBlockSize - 1)) / fsBlockSize

/-- The first block after the root directory. -/
def BootSector.dataStart : ℕ :=
  bs.reserved.toNat + bs.fats.toNat * bs.tableSects fatsize + bs.rootSects fatsize

/-- The first block of a cluster. -/
def BootSector.clusterSect (n : ℕ) : ℕ :=
  bs.dataStart fatsize + (n - 2) * bs.clusterSize.toNat

/-! ## What the code computes -/

/-- The first block after the root directory, where the code puts it. -/
def BootSector.codeStart : ℕ :=
  bs.reserved.toNat + bs.fats.toNat * bs.tableSects fatsize +
    if fatsize = .fat32 then 0 else bs.rootdirSize

theorem codeStart_cases :
    (bs.codeStart fatsize = bs.dataStart fatsize ∧
        (fatsize ≠ .fat32 → bs.dirEntries * 32 % fsBlockSize = 0)) ∨
      (bs.codeStart fatsize + 1 = bs.dataStart fatsize ∧
        ¬ (fatsize ≠ .fat32 → bs.dirEntries * 32 % fsBlockSize = 0)) := by
  rw [BootSector.codeStart, BootSector.dataStart, BootSector.rootSects]
  by_cases h32 : fatsize = .fat32
  · rw [if_pos h32, if_pos h32]
    exact Or.inl ⟨rfl, fun h => absurd h32 h⟩
  · rw [if_neg h32, if_neg h32, BootSector.rootdirSize]
    by_cases hfull : bs.dirEntries * 32 % fsBlockSize = 0
    · refine Or.inl ⟨?_, fun _ => hfull⟩
      unfold fsBlockSize at hfull ⊢
      omega
    · refine Or.inr ⟨?_, fun h => hfull (h h32)⟩
      unfold fsBlockSize at hfull ⊢
      omega

theorem fatlength_eq : (mount bs fatsize).fatlength = BitVec.ofNat 16 (bs.tableSects fatsize) := by
  refine BitVec.eq_of_toNat_eq ?_
  rw [toNat_fatlength, BitVec.toNat_ofNat]

theorem dataBegin_eq : (mount bs fatsize).dataBegin =
    BitVec.ofNat 16 (bs.codeStart fatsize) - BitVec.ofNat 16 (2 * bs.clusterSize.toNat) := by
  have hroot : (mount bs fatsize).rootdirSect = BitVec.ofNat 16
      (bs.reserved.toNat + bs.fats.toNat * bs.tableSects fatsize) := by
    change bs.reserved + (mount bs fatsize).fatlength * BitVec.ofNat 16 bs.fats.toNat = _
    rw [fatlength_eq, BitVec.ofNat_add, BitVec.ofNat_mul, BitVec.ofNat_toNat, BitVec.setWidth_eq,
      BitVec.mul_comm]
  have hclust : (mount bs fatsize).clustSize * 2 = BitVec.ofNat 16 (2 * bs.clusterSize.toNat) := by
    rw [BitVec.ofNat_mul, BitVec.mul_comm]
    rfl
  change (if fatsize = .fat32 then
      (mount bs fatsize).rootdirSect - (mount bs fatsize).clustSize * 2
    else (mount bs fatsize).rootdirSect + BitVec.ofNat 16 bs.rootdirSize -
      (mount bs fatsize).clustSize * 2) = _
  rw [hroot, hclust, BootSector.codeStart]
  split_ifs
  · rw [Nat.add_zero]
  · rw [BitVec.ofNat_add _ bs.rootdirSize]

theorem toNat_dataBegin : (mount bs fatsize).dataBegin.toNat =
    (bs.codeStart fatsize + 65536 - 2 * bs.clusterSize.toNat) % 65536 := by
  have hs := bs.clusterSize.toNat_lt
  rw [dataBegin_eq, BitVec.toNat_sub, BitVec.toNat_ofNat, BitVec.toNat_ofNat]
  omega

theorem toNat_startSect {n : BitVec 32} (hn : 2 ≤ n) :
    (startSect (mount bs fatsize) n).toNat =
      ((bs.codeStart fatsize + 65536 - 2 * bs.clusterSize.toNat) % 65536 +
        (if 32768 ≤ (bs.codeStart fatsize + 65536 - 2 * bs.clusterSize.toNat) % 65536
          then 4294901760 else 0) + n.toNat * bs.clusterSize.toNat) % 4294967296 := by
  have hpos : 0 < n := Nat.lt_of_lt_of_le (by decide : 0 < 2) hn
  have hsize : (BitVec.setWidth 32 (mount bs fatsize).clustSize).toNat = bs.clusterSize.toNat := by
    have hs := bs.clusterSize.toNat_lt
    change (BitVec.setWidth 32 (BitVec.ofNat 16 bs.clusterSize.toNat)).toNat = _
    rw [BitVec.toNat_setWidth, BitVec.toNat_ofNat]
    omega
  have hbegin : ((mount bs fatsize).dataBegin.signExtend 32).toNat =
      (mount bs fatsize).dataBegin.toNat +
        if 32768 ≤ (mount bs fatsize).dataBegin.toNat then 4294901760 else 0 := by
    have hlt := (mount bs fatsize).dataBegin.isLt
    rw [BitVec.toNat_signExtend, BitVec.msb_eq_decide, BitVec.toNat_setWidth,
      Nat.mod_eq_of_lt (by omega)]
    simp only [decide_eq_true_eq]
  rw [startSect, if_pos hpos, BitVec.toNat_add, BitVec.toNat_mul, hsize, hbegin, toNat_dataBegin,
    Nat.add_mod_mod]

/-! ## The condition -/

/-- **When `get_cluster` reads the cluster.** -/
theorem startSect_iff (n : BitVec 32) (hn : 2 ≤ n) :
    (startSect (mount bs fatsize) n).toNat = bs.clusterSect fatsize n.toNat ↔
      (fatsize ≠ .fat32 → bs.dirEntries * 32 % fsBlockSize = 0) ∧
        bs.clusterSect fatsize n.toNat < 2 ^ 32 ∧
        (bs.dataStart fatsize < 32768 + 2 * bs.clusterSize.toNat ∨
          4294934528 + 2 * bs.clusterSize.toNat ≤ bs.dataStart fatsize) := by
  have hs := bs.clusterSize.toNat_lt
  have hle : 2 * bs.clusterSize.toNat ≤ n.toNat * bs.clusterSize.toNat :=
    Nat.mul_le_mul_right _ hn
  have hstart := toNat_startSect bs fatsize hn
  have hsect : bs.clusterSect fatsize n.toNat =
      bs.dataStart fatsize + (n.toNat * bs.clusterSize.toNat - 2 * bs.clusterSize.toNat) := by
    rw [BootSector.clusterSect, Nat.sub_mul]
  rw [hstart, hsect]
  generalize n.toNat * bs.clusterSize.toNat = p at hle
  rcases codeStart_cases bs fatsize with ⟨heq, hfull⟩ | ⟨heq, hfull⟩
  · rw [heq, and_iff_right hfull]
    split_ifs with hsign <;> omega
  · refine iff_of_false ?_ fun h => hfull h.1
    split_ifs with hsign <;> omega

/-- The boot sector of a FAT32 volume, with clusters of four kilobytes. -/
def wideBs (fat32Length : BitVec 32) : BootSector where
  sectorSize := 512
  clusterSize := 8
  reserved := 32
  fats := 2
  dirEntries := 0
  fatLength := 0
  fat32Length := fat32Length
  rootCluster := 2

/-- Four gigabytes: the data area starts at block 16416. -/
theorem startSect_fourGigabytes :
    (startSect (mount (wideBs 8192) .fat32) 2).toNat = (wideBs 8192).clusterSect .fat32 2 :=
  (startSect_iff (wideBs 8192) .fat32 2 (by decide)).mpr
    ⟨fun h => absurd rfl h, by decide, Or.inl (by decide)⟩

/-- **Eight gigabytes**: the data area starts at block 32800, and the code reads cluster 2 at block
4294934560. -/
theorem not_startSect :
    ¬ ∀ (bs : BootSector) (fatsize : FatSize) (n : BitVec 32), 2 ≤ n →
      (startSect (mount bs fatsize) n).toNat = bs.clusterSect fatsize n.toNat := by
  intro h
  exact absurd (h (wideBs 16384) .fat32 2 (by decide)) (by decide)

end Fat
end EmevBsp
