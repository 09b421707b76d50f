import EmevBsp.Fat.Root
import EmevBsp.Fat.Table
import EmevBsp.Library.TransitionSystem

/-!
# Looking up entries of the table

`get_fatent` is called again and again for one `fsdata`, each call with the cache that the calls
before it left.  At the first call nothing is cached, and the buffer holds what was on the stack.
A read of the device may fail in one call and work in the next one.

The table of a FAT32 volume may have more blocks than the 16 bits of `fatlength` can count.  Where
these are all clear, "no more than the table has" is a read of no blocks, and the entry comes out
of a buffer that was never filled.  And a FAT32 entry comes with the four bits that are not part of
it.
-/

namespace EmevBsp
namespace Fat

/-! ## Runs of calls -/

/-- The device with other reads that fail. -/
def Disk.failing (d : Disk) (fails : BitVec 32 → ℕ → Bool) : Disk := { d with fails := fails }

/-- The calls of `get_fatent` for a volume: which reads fail during the call, and the entry. -/
def lookups (d : Disk) (v : Volume) :
    TransitionSystem Fsdata ((BitVec 32 → ℕ → Bool) × BitVec 32) where
  init fs := fs.toVolume = v ∧ fs.fatbufnum = -1
  step fs call fs' := fs' = (getFatent (d.failing call.1) fs call.2).2

/-- The blocks of the table, as the boot sector has them. -/
def BootSector.tableSects (bs : BootSector) (fatsize : FatSize) : ℕ :=
  if fatsize = .fat32 then bs.fat32Length.toNat else bs.fatLength.toNat

/-- The first block of the window of the table with an entry. -/
def windowSect (v : Volume) (entry : BitVec 32) : BitVec 32 :=
  entry / BitVec.ofNat 32 v.fatsize.bufSize * BitVec.ofNat 32 fatBufBlocks + v.fatSect.setWidth 32

/-- The blocks that are read of a window. -/
def windowBlocks (v : Volume) : ℕ := min fatBufBlocks (v.fatlength.toNat * fsBlockSize)

/-- **What `get_fatent` has to do**: after any calls for the volume it gives the entry, if the read
of the window does not fail. -/
def ReturnsEntry (d : Disk) (v : Volume) (entry : BitVec 32) : Prop :=
  ∀ fs, (lookups d v).Reachable fs →
    ∀ fails : BitVec 32 → ℕ → Bool,
      fails (windowSect v entry + d.partOffset) (windowBlocks v) = false →
      (getFatent (d.failing fails) fs entry).1 = BitVec.ofNat 32 (fatEntry d v entry.toNat)

/-! ## A call -/

variable {d : Disk} {v : Volume} {fs : Fsdata} {fails : BitVec 32 → ℕ → Bool}

/-- The device that answers every request. -/
def Disk.answering (d : Disk) : Disk := d.failing fun _ _ => false

theorem Disk.answering_readable (d : Disk) : d.answering.Readable := fun _ _ => rfl

theorem diskRead_failing (startblock : BitVec 32) (getsize : ℕ) :
    diskRead (d.failing fails) startblock getsize =
      if fails (startblock + d.partOffset) getsize then none
      else diskRead d.answering startblock getsize := by
  rw [diskRead_eq d.answering_readable]
  rfl

theorem readFatbuf_failing (bufnum : BitVec 32) :
    readFatbuf (d.failing fails) fs bufnum =
      if fails (bufnum * BitVec.ofNat 32 fatBufBlocks + fs.fatSect.setWidth 32 + d.partOffset)
          (windowBlocks fs.toVolume) then none
      else readFatbuf d.answering fs bufnum := by
  rw [readFatbuf, diskRead_failing]
  exact apply_ite _ _ _ _

theorem getFatent_of_answered {entry : BitVec 32}
    (h : fails (windowSect fs.toVolume entry + d.partOffset) (windowBlocks fs.toVolume) = false) :
    getFatent (d.failing fails) fs entry = getFatent d.answering fs entry := by
  simp only [getFatent, readFatbuf_failing]
  rw [windowSect] at h
  simp only [h, Bool.false_eq_true, if_false]

theorem getFatent_failing_cases (fails : BitVec 32 → ℕ → Bool) (fs : Fsdata) (entry : BitVec 32) :
    getFatent (d.failing fails) fs entry = getFatent d.answering fs entry ∨
      (getFatent (d.failing fails) fs entry).2 = fs := by
  by_cases h : fails (windowSect fs.toVolume entry + d.partOffset) (windowBlocks fs.toVolume) = true
  · right
    rw [windowSect] at h
    simp only [getFatent, readFatbuf_failing, h, if_true]
    split_ifs <;> rfl
  · exact Or.inl (getFatent_of_answered (Bool.eq_false_of_not_eq_true h))

theorem cacheOk_of_reachable (hlen : 0 < v.fatlength) (h : (lookups d v).Reachable fs) :
    fs.toVolume = v ∧ CacheOk d.answering fs := by
  refine TransitionSystem.Reachable.invariant
    (I := fun fs => fs.toVolume = v ∧ CacheOk d.answering fs) ?_ ?_ h
  · rintro s ⟨hvol, hnum⟩
    exact ⟨hvol, Or.inl hnum⟩
  · rintro s ⟨fails, entry⟩ s' ⟨hvol, hc⟩ rfl
    rcases getFatent_failing_cases (d := d) fails s entry with heq | heq
    · obtain ⟨-, hvol', hc'⟩ := getFatent_eq d.answering_readable (hvol ▸ hlen) hc entry
      rw [heq]
      exact ⟨hvol'.trans hvol, hc'⟩
    · rw [heq]
      exact ⟨hvol, hc⟩

theorem getFatent_of_reachable (hlen : 0 < v.fatlength) (h : (lookups d v).Reachable fs)
    (fails : BitVec 32 → ℕ → Bool) {entry : BitVec 32}
    (hread : fails (windowSect v entry + d.partOffset) (windowBlocks v) = false) :
    (getFatent (d.failing fails) fs entry).1 = BitVec.ofNat 32 (rawEntry d v entry.toNat) := by
  obtain ⟨hvol, hc⟩ := cacheOk_of_reachable hlen h
  subst hvol
  rw [getFatent_of_answered hread]
  exact (getFatent_eq d.answering_readable hlen hc entry).1

/-! ## A volume with no blocks to read -/

/-- The `fsdata` before the first call, with a buffer of equal bytes. -/
def Volume.filled (v : Volume) (b : UInt8) : Fsdata :=
  { v with fatbuf := fun _ => b, fatbufnum := -1 }

theorem entryAt_const_ne (fatsize : FatSize) (offset : ℕ) :
    BitVec.ofNat 32 (entryAt fatsize (fun _ => 0) offset) ≠
      BitVec.ofNat 32 (entryAt fatsize (fun _ => 0xff) offset) := by
  rw [entryAt_eq, entryAt_eq]
  cases fatsize with
  | fat12 =>
    simp only [tableEntry]
    split_ifs <;> decide
  | fat16 =>
    simp only [tableEntry]
    decide
  | fat32 =>
    simp only [tableEntry]
    decide

theorem getFatent_filled (hlen : v.fatlength = 0) (b : UInt8) (entry : BitVec 32) :
    (getFatent d.answering (v.filled b) entry).1 = BitVec.ofNat 32
      (entryAt v.fatsize (fun _ => b) (entry.toNat % v.fatsize.bufSize)) := by
  have hread : readFatbuf d.answering (v.filled b) (entry / BitVec.ofNat 32 v.fatsize.bufSize) =
      some { v.filled b with fatbufnum := entry / BitVec.ofNat 32 v.fatsize.bufSize } := by
    have hzero : (v.filled b).fatlength.toNat = 0 := congrArg BitVec.toNat hlen
    have hmin : min fatBufBlocks ((v.filled b).fatlength.toNat * fsBlockSize) = 0 := by
      rw [hzero, Nat.zero_mul, Nat.min_zero]
    rw [readFatbuf, hmin, diskRead_eq d.answering_readable, Option.map_some, Nat.mul_zero,
      stretch_zero, splice_nil]
  have hsize : (v.filled b).fatsize = v.fatsize := rfl
  have hnum : (v.filled b).fatbufnum = -1 := rfl
  simp only [getFatent]
  rw [hsize, hnum, if_pos (bufnum_ne v.fatsize entry), hread, toNat_offset]
  rfl

/-! ## The condition -/

theorem toNat_fatlength (bs : BootSector) (fatsize : FatSize) :
    (mount bs fatsize).fatlength.toNat = bs.tableSects fatsize % 65536 := by
  simp only [mount, BootSector.tableSects]
  split_ifs
  · exact BitVec.toNat_setWidth _ _
  · exact (Nat.mod_eq_of_lt bs.fatLength.isLt).symm

/-- **When `get_fatent` gives the entries of a volume.** -/
theorem getFatent_iff (d : Disk) (bs : BootSector) (fatsize : FatSize) (entry : BitVec 32) :
    ReturnsEntry d (mount bs fatsize) entry ↔
      bs.tableSects fatsize % 65536 ≠ 0 ∧
        (fatsize = .fat32 → rawEntry d (mount bs fatsize) entry.toNat < 2 ^ 28) := by
  have hlen := toNat_fatlength bs fatsize
  constructor
  · intro h
    have hpos : 0 < (mount bs fatsize).fatlength := by
      refine (BitVec.pos_iff_ne_zero _).mpr fun h0 => ?_
      -- two buffers from before the first call give two entries
      have hentry : ∀ b : UInt8, BitVec.ofNat 32 (entryAt (mount bs fatsize).fatsize (fun _ => b)
          (entry.toNat % (mount bs fatsize).fatsize.bufSize)) =
          BitVec.ofNat 32 (fatEntry d (mount bs fatsize) entry.toNat) := by
        intro b
        rw [← getFatent_filled (d := d) h0 b entry]
        exact h _ (.init ⟨rfl, rfl⟩) (fun _ _ => false) rfl
      exact entryAt_const_ne _ _ ((hentry 0).trans (hentry 0xff).symm)
    refine ⟨hlen ▸ Nat.pos_iff_ne_zero.mp hpos, fun h32 => ?_⟩
    have hfs : (lookups d (mount bs fatsize)).Reachable ((mount bs fatsize).filled 0) :=
      .init ⟨rfl, rfl⟩
    have hraw := (getFatent_of_reachable hpos hfs (fun _ _ => false) rfl).symm.trans
      (h _ hfs (fun _ _ => false) rfl)
    have hnat := congrArg BitVec.toNat hraw
    have hlt : rawEntry d (mount bs fatsize) entry.toNat < 2 ^ 32 := tableEntry_lt _ _ _
    rw [BitVec.toNat_ofNat, BitVec.toNat_ofNat, Nat.mod_eq_of_lt hlt, fatEntry,
      if_pos (show (mount bs fatsize).fatsize = .fat32 from h32)] at hnat
    omega
  · rintro ⟨hne, hbits⟩ fs hfs fails hread
    have hpos : 0 < (mount bs fatsize).fatlength := by
      rw [BitVec.lt_def, hlen]
      exact Nat.pos_of_ne_zero hne
    rw [getFatent_of_reachable hpos hfs fails hread, fatEntry]
    split_ifs with h32
    · rw [Nat.mod_eq_of_lt (hbits h32)]
    · rfl

/-! ## An end mark with all its bits -/

/-- A FAT32 volume with two tables of 16 blocks. -/
def markBs : BootSector where
  sectorSize := 512
  clusterSize := 1
  reserved := 32
  fats := 2
  dirEntries := 0
  fatLength := 0
  fat32Length := 16
  rootCluster := 2

/-- A device with an empty table, apart from cluster 3: a file of one cluster. -/
def markDisk : Disk where
  partOffset := 0
  block s k := if s = 32 ∧ 12 ≤ k ∧ k < 16 then 0xff else 0
  fails _ _ := false

/-- **The low 28 bits of the entry of cluster 3 are not what `get_fatent` gives.** -/
theorem not_returnsEntry : ¬ ReturnsEntry markDisk (mount markBs .fat32) 3 := by
  intro h
  have hfs : (lookups markDisk (mount markBs .fat32)).Reachable ((mount markBs .fat32).filled 0) :=
    .init ⟨rfl, rfl⟩
  have hraw := (getFatent_of_reachable (by decide) hfs (fun _ _ => false) rfl).symm.trans
    (h _ hfs (fun _ _ => false) rfl)
  exact absurd hraw (by decide)

end Fat
end EmevBsp
