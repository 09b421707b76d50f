import EmevBsp.Ext2.Dev

/-!
# `fs/ext2/dev.c`: when a range is read exactly

A range inside the partition is to be read whole, and 1 returned only if no read of the device has
failed; a range that leaves the partition is to be refused.  There are two ways to miss that.  What
is left behind the whole sectors is read with one more read, whose outcome is looked at; but when
there are no whole sectors it is not.  And the end of a range of more than 2 GiB is a negative
`int`, so that the range may seem to end before it begins.
-/

namespace EmevBsp
namespace Ext2

variable {v : Volume} {e : Env} {log : List Bool} {sector : BitVec 32} {byteOffset byteLen : ℕ}

/-- The range is inside the partition; a sector from 2^31 on is a negative `int`. -/
def Volume.Inside (v : Volume) (sector : BitVec 32) (byteOffset byteLen : ℕ) : Prop :=
  sector.toNat < 2 ^ 31 ∧ 512 * sector.toNat + (byteOffset + byteLen) ≤ 512 * v.size.toNat

/-- What is asked of a call of `ext2fs_devread`, with the reads in `log` before it. -/
structure Exact (v : Volume) (e : Env) (log : List Bool) (sector : BitVec 32)
    (byteOffset byteLen : ℕ) : Prop where
  allRead : v.Inside sector byteOffset byteLen →
    (devread v e log sector byteOffset byteLen).ok = true →
      ∃ l, (devread v e log sector byteOffset byteLen).log = log ++ l ∧ false ∉ l
  contents : v.Inside sector byteOffset byteLen →
    (devread v e log sector byteOffset byteLen).ok = true →
      (devread v e log sector byteOffset byteLen).bytes =
        stretch v.part (512 * sector.toNat + byteOffset) byteLen
  inBuffer : v.Inside sector byteOffset byteLen →
    (devread v e log sector byteOffset byteLen).bytes.length ≤ byteLen
  refused : ¬ v.Inside sector byteOffset byteLen →
    devread v e log sector byteOffset byteLen = ⟨log, [], false⟩

/-! ## The partition boundaries -/

theorem devread_of_not_admits (h : ¬ v.Admits sector byteOffset byteLen) :
    devread v e log sector byteOffset byteLen = ⟨log, [], false⟩ := by
  rw [devread, if_pos (not_not.mp h)]

theorem inside_of_admits (hsmall : byteOffset + byteLen ≤ 2 ^ 31)
    (h : v.Admits sector byteOffset byteLen) : v.Inside sector byteOffset byteLen := by
  obtain ⟨hsign, hend⟩ := not_or.mp h
  have hlow : sector.toNat < 2 ^ 31 := by
    rw [BitVec.msb_eq_true_iff_two_mul_ge] at hsign
    omega
  refine ⟨hlow, ?_⟩
  rw [BitVec.le_def, not_le] at hend
  rcases Nat.eq_zero_or_pos (byteOffset + byteLen) with hzero | hpos
  · -- the end of nothing is in the sector before
    have hback : ((BitVec.ofNat 32 0 - 1).sshiftRight 9 : BitVec 32) = -1 := by decide
    rw [hzero, hback] at hend
    bv_omega
  · rw [BitVec.toNat_add, toNat_lastSector hpos hsmall, Nat.mod_eq_of_lt (by omega)] at hend
    omega

/-! ## The reads -/

theorem devreadAligned_of_short (hpos : 0 < byteLen) (hlt : byteLen < 512)
    (hfails : e.fails log.length (v.start + sector) 1 = true) :
    ∃ bytes, devreadAligned v e log sector byteLen = ⟨log ++ [false], bytes, true⟩ := by
  have hnone : byteLen / sectorSize * sectorSize = 0 := by
    rw [sectorSize]
    omega
  rw [devreadAligned, if_neg (by omega)]
  dsimp only
  rw [if_pos hnone, blockRead_of_fails hfails]
  exact ⟨_, rfl⟩

theorem lt_length_log_aligned (hpos : 0 < byteLen) :
    log.length < (devreadAligned v e log sector byteLen).log.length := by
  rw [devreadAligned, if_neg (by omega)]
  dsimp only
  split_ifs
  all_goals
    simp only [List.length_append, List.length_singleton]
    omega

theorem length_log_aligned : log.length ≤ (devreadAligned v e log sector byteLen).log.length := by
  rcases Nat.eq_zero_or_pos byteLen with hzero | hpos
  · rw [devreadAligned, if_pos hzero]
  · exact (lt_length_log_aligned hpos).le

theorem lt_length_log (hpos : 0 < byteLen) (h : v.Admits sector byteOffset byteLen) :
    log.length < (devread v e log sector byteOffset byteLen).log.length := by
  rw [devread, if_neg h]
  dsimp only
  split_ifs
  · rw [List.length_append, List.length_singleton]
    exact Nat.lt_succ_self _
  · refine Nat.lt_of_lt_of_le ?_ length_log_aligned
    rw [List.length_append, List.length_singleton]
    exact Nat.lt_succ_self _
  · exact lt_length_log_aligned hpos

theorem Exact.shortReads (h : Exact v e log sector byteOffset byteLen)
    (hadmits : v.Admits sector byteOffset byteLen) (hin : v.Inside sector byteOffset byteLen) :
    ShortReads v e log sector byteOffset byteLen := by
  have hread := h.allRead hin
  rw [devread, if_neg hadmits] at hread
  dsimp only at hread
  refine ⟨fun hoffset hpos hlt => ?_, fun hoffset hfirst hmore hlt => ?_⟩
  · by_contra hfails
    obtain ⟨bytes, hshort⟩ := devreadAligned_of_short hpos hlt (Bool.not_eq_false _ ▸ hfails)
    rw [if_neg (not_not_intro hoffset), hshort] at hread
    obtain ⟨l, hlog, hnot⟩ := hread rfl
    rw [← List.append_cancel_left hlog] at hnot
    exact hnot (List.mem_singleton_self _)
  · by_contra hfails
    have hfirst' : (blockRead v e log
        (v.start + (sector + BitVec.ofNat 32 (byteOffset / sectorSize))) 1).1 = true := by
      rw [blockRead, if_neg (Bool.eq_false_iff.mp hfirst)]
    have hn : min (sectorSize - byteOffset % sectorSize) byteLen =
        sectorSize - byteOffset % sectorSize := by
      rw [sectorSize]
      omega
    have htime : (log ++ [true]).length = log.length + 1 := by
      rw [List.length_append, List.length_singleton]
    rw [← htime] at hfails
    have hpos : 0 < byteLen - (sectorSize - byteOffset % sectorSize) := by
      rw [sectorSize]
      omega
    obtain ⟨bytes, hshort⟩ := devreadAligned_of_short hpos (by rw [sectorSize]; omega)
      (Bool.not_eq_false _ ▸ hfails)
    rw [if_pos hoffset, hfirst', if_neg (by simp), hn, hshort] at hread
    obtain ⟨l, hlog, hnot⟩ := hread rfl
    rw [List.append_assoc] at hlog
    rw [← List.append_cancel_left hlog] at hnot
    exact hnot (by simp)

/-! ## Exact calls -/

/-- **A call is exact** if and only if the read of a short piece does not fail and a range of more
than 2 GiB that leaves the partition is refused. -/
theorem devread_exact_iff (hfits : v.Fits) (hoffset : byteOffset < 2 ^ 31)
    (hlen : byteLen < 2 ^ 31) :
    Exact v e log sector byteOffset byteLen ↔
      (v.Admits sector byteOffset byteLen → ShortReads v e log sector byteOffset byteLen) ∧
        (2 ^ 31 < byteOffset + byteLen → v.Admits sector byteOffset byteLen →
          v.Inside sector byteOffset byteLen) := by
  by_cases hadmits : v.Admits sector byteOffset byteLen
  · by_cases hin : v.Inside sector byteOffset byteLen
    · refine ⟨fun h => ⟨fun _ => h.shortReads hadmits hin, fun _ _ => hin⟩, fun ⟨hshort, _⟩ => ?_⟩
      obtain ⟨l, hlog, hl⟩ := devread_of_admits hfits hadmits hin.2 log (hshort hadmits)
      rcases hl with ⟨hok, hnot, hbytes⟩ | ⟨hok, _, hbytes⟩
      · refine ⟨fun _ _ => ⟨l, hlog, hnot⟩, fun _ _ => hbytes, fun _ => ?_, fun h => absurd hin h⟩
        rw [hbytes, length_stretch]
      · rw [length_stretch] at hbytes
        have hnot : ¬ (devread v e log sector byteOffset byteLen).ok = true := by
          rw [hok]
          exact Bool.false_ne_true
        exact ⟨fun _ h => absurd h hnot, fun _ h => absurd h hnot, fun _ => hbytes,
          fun h => absurd hin h⟩
    · have hbig : 2 ^ 31 < byteOffset + byteLen := by
        by_contra hsmall
        exact hin (inside_of_admits (Nat.le_of_not_lt hsmall) hadmits)
      constructor
      · intro h
        have hgrows : log.length < (devread v e log sector byteOffset byteLen).log.length :=
          lt_length_log (by omega) hadmits
        rw [h.refused hin] at hgrows
        exact absurd hgrows (Nat.lt_irrefl _)
      · intro h
        exact absurd (h.2 hbig hadmits) hin
  · have hrefused : devread v e log sector byteOffset byteLen = ⟨log, [], false⟩ :=
      devread_of_not_admits hadmits
    refine ⟨fun _ => ⟨fun h => absurd h hadmits, fun _ h => absurd h hadmits⟩, fun _ => ?_⟩
    have hnot : ¬ (devread v e log sector byteOffset byteLen).ok = true := by
      rw [hrefused]
      exact Bool.false_ne_true
    refine ⟨fun _ h => absurd h hnot, fun _ h => absurd h hnot, fun _ => ?_, fun _ => hrefused⟩
    rw [hrefused]
    exact Nat.zero_le _

/-- Four sectors. -/
def fourSectors : Volume := ⟨0, 4, fun x => UInt8.ofNat x, 10⟩

/-- A device no sector of which behind the first one can be read. -/
def worn : Env := ⟨fun _ sector _ => sector ≠ 0, fun _ _ => 255, fun _ => none⟩

/-- The end of the first sector is read; the next sector is not needed. -/
theorem devread_exact_iff_worn : Exact fourSectors worn [] 0 500 12 := by
  have hfits : fourSectors.Fits := by simp [Volume.Fits, fourSectors]
  refine (devread_exact_iff hfits (by decide) (by decide)).mpr ⟨fun _ => ⟨?_, ?_⟩, ?_⟩
  · intro hoffset
    exact absurd hoffset (by decide)
  · intro _ _ hmore
    exact absurd hmore (by decide)
  · intro hbig
    exact absurd hbig (by decide)

/-- Four bytes of a sector that cannot be read are returned all the same. -/
theorem not_devread_exact : ¬ Exact fourSectors worn [] 1 0 4 := by
  intro h
  obtain ⟨l, hlog, hnot⟩ := h.allRead ⟨by decide, by decide⟩ rfl
  have hl : [false] = l := hlog
  exact hnot (hl ▸ List.mem_singleton_self _)

end Ext2
end EmevBsp
