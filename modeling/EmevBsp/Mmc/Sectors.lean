import EmevBsp.Mmc.Mmc
import Mathlib.Order.MinMax

/-!
# Protect sectors

What `mmc_flash_init` makes of a card, and what `mmc_check_protect` looks at in terms of
sectors: the start of the range is rounded down and its end is rounded up to whole sectors,
but where the rounded end is beyond the end of the card it is put back to that end, and the
sector that the end of the card cuts off is then not counted.
-/

namespace EmevBsp
namespace Mmc

open EmevBsp.Alignment

/-! ## The geometry of a card -/

/-- What `mmc_flash_init` makes of the card: the sector size is a power of two, and the
table has an entry for every sector. -/
structure Geometry (d : Device) : Prop where
  protect : ∃ k ≤ 20, d.protectBlk.toNat = 2 ^ k
  total_le : d.devTotalBlk.toNat ≤ 2 ^ 31
  total_le_table : d.devTotalBlk.toNat ≤ d.protectBlk.toNat * 0x800
  byteAddressed : d.accMode = false → d.devTotalBlk.toNat ≤ 2 ^ 23

theorem toNat_shiftLeft_two_pow {x : Word} {m i : ℕ} (hx : x.toNat = 2 ^ m) (hi : m + i < 32) :
    (x <<< i).toNat = 2 ^ (m + i) := by
  rw [BitVec.toNat_shiftLeft, hx, Nat.shiftLeft_eq, ← Nat.pow_add]
  exact Nat.mod_eq_of_lt (Nat.pow_lt_pow_right (by decide) hi)

theorem protectShift_cases (total : Word) :
    protectShift total = 7 ∧ 2 ^ 24 < total.toNat ∨ protectShift total < 7 ∧
      total.toNat ≤ 2 ^ (24 + protectShift total) := by
  rw [protectShift]
  cases hfind : (List.range 7).find? fun i => decide (total ≤ mmcBlocks <<< i) with
  | none =>
    have hzero := List.find?_range_eq_none.mp hfind 0 (by decide)
    rw [Bool.not_eq_true', decide_eq_false_iff_not, BitVec.not_le] at hzero
    exact Or.inl ⟨rfl, hzero⟩
  | some i =>
    obtain ⟨hle, hi, -⟩ := List.find?_range_eq_some.mp hfind
    have hi' := List.mem_range.mp hi
    right
    rw [Option.getD_some]
    refine ⟨hi', ?_⟩
    have hblocks : (mmcBlocks <<< i).toNat = 2 ^ (24 + i) := by
      refine toNat_shiftLeft_two_pow rfl (by omega)
    rw [← hblocks]
    exact BitVec.le_def.mp (of_decide_eq_true hle)

theorem geometry_flashInit (card : Card) : Geometry (mmcFlashInit card) := by
  have hle : protectShift card.totalBlk ≤ 7 := by
    rcases protectShift_cases card.totalBlk with h | h <;> omega
  have hprotect : (mmcFlashInit card).protectBlk.toNat = 2 ^ (13 + protectShift card.totalBlk) :=
    toNat_shiftLeft_two_pow rfl (by omega)
  have htotal : (mmcFlashInit card).devTotalBlk.toNat ≤ 2 ^ (24 + protectShift card.totalBlk) := by
    unfold mmcFlashInit
    rcases protectShift_cases card.totalBlk with ⟨h, -⟩ | ⟨hne, hle⟩
    · simp only [h, if_true]
      exact le_rfl
    · simp only [if_neg hne.ne]
      exact hle
  refine ⟨⟨_, by omega, hprotect⟩, ?_, ?_, fun hacc => ?_⟩
  · exact htotal.trans (Nat.pow_le_pow_right (by decide) (by omega))
  · rw [hprotect]
    refine htotal.trans (le_of_eq ?_)
    rw [show (0x800 : ℕ) = 2 ^ 11 from rfl, ← Nat.pow_add]
    congr 1
    omega
  · have hcard := card.byteAddressed hacc
    have hne : protectShift card.totalBlk ≠ 7 := by
      rcases protectShift_cases card.totalBlk with ⟨-, h⟩ | ⟨h, -⟩
      · exact absurd (h.trans_le hcard) (by decide)
      · exact h.ne
    simp only [mmcFlashInit, if_neg hne]
    exact hcard

/-! ## Sectors -/

/-- The sector `k` meets the range from `sBlk` up to `eBlk`. -/
def Meets (d : Device) (sBlk eBlk : Word) (k : ℕ) : Prop :=
  sBlk.toNat / d.protectBlk.toNat ≤ k ∧ k * d.protectBlk.toNat < eBlk.toNat

/-- The sector `k` is not cut off by the end of the card. -/
def Full (d : Device) (k : ℕ) : Prop :=
  (k + 1) * d.protectBlk.toNat ≤ d.devTotalBlk.toNat

/-- The block `b` of the card belongs to a sector whose entry is set. -/
def Protected (d : Device) (b : ℕ) : Prop :=
  b < d.devTotalBlk.toNat ∧ d.wpTbl (b / d.protectBlk.toNat) ≠ 0

section

variable {d : Device} {sBlk eBlk : Word}

theorem Geometry.pos (hd : Geometry d) : 0 < d.protectBlk.toNat := by
  obtain ⟨k, -, hk⟩ := hd.protect
  rw [hk]
  exact Nat.two_pow_pos k

theorem Geometry.protect_le (hd : Geometry d) : d.protectBlk.toNat ≤ 2 ^ 20 := by
  obtain ⟨k, hk20, hk⟩ := hd.protect
  rw [hk]
  exact Nat.pow_le_pow_right (by decide) hk20

theorem Geometry.meets_iff (hd : Geometry d) (hlt : sBlk.toNat < eBlk.toNat) {k : ℕ} :
    Meets d sBlk eBlk k ↔
      ∃ b, sBlk.toNat ≤ b ∧ b < eBlk.toNat ∧ b / d.protectBlk.toNat = k :=
  (exists_div_eq_iff hd.pos hlt).symm

theorem Geometry.mask_eq_zero_iff (hd : Geometry d) (x : Word) :
    x &&& (d.protectBlk - 1) = 0 ↔ x.toNat % d.protectBlk.toNat = 0 := by
  obtain ⟨k, -, hk⟩ := hd.protect
  have hmask := toNat_and_mask hk x
  rw [hk, ← hmask]
  exact BitVec.toNat_eq

theorem toNat_chkSblk (d : Device) (sBlk : Word) :
    (chkSblk d sBlk).toNat = sBlk.toNat / d.protectBlk.toNat * d.protectBlk.toNat := by
  have hle := Nat.div_mul_le_self sBlk.toNat d.protectBlk.toNat
  have hlt := sBlk.isLt
  rw [chkSblk, BitVec.toNat_mul, BitVec.toNat_udiv, Nat.mod_eq_of_lt (by omega)]

theorem Geometry.toNat_chkEblk (hd : Geometry d) (he : eBlk.toNat ≤ d.devTotalBlk.toNat) :
    (chkEblk d eBlk).toNat = min
      ((eBlk.toNat + (d.protectBlk.toNat - 1)) / d.protectBlk.toNat * d.protectBlk.toNat)
      d.devTotalBlk.toNat := by
  have hpos := hd.pos
  have hp := hd.protect_le
  have htotal := hd.total_le
  have hsum : (eBlk + d.protectBlk - 1).toNat = eBlk.toNat + (d.protectBlk.toNat - 1) := by
    have hadd : (eBlk + d.protectBlk).toNat = eBlk.toNat + d.protectBlk.toNat :=
      BitVec.toNat_add_of_lt (by omega)
    bv_omega
  have hle := Nat.div_mul_le_self (eBlk.toNat + (d.protectBlk.toNat - 1)) d.protectBlk.toNat
  have hchk : ((eBlk + d.protectBlk - 1) / d.protectBlk * d.protectBlk).toNat =
      (eBlk.toNat + (d.protectBlk.toNat - 1)) / d.protectBlk.toNat * d.protectBlk.toNat := by
    rw [BitVec.toNat_mul, BitVec.toNat_udiv, hsum, Nat.mod_eq_of_lt (by omega)]
  rw [chkEblk]
  by_cases hlt : d.devTotalBlk < (eBlk + d.protectBlk - 1) / d.protectBlk * d.protectBlk
  · rw [if_pos hlt, min_eq_right]
    rw [BitVec.lt_def, hchk] at hlt
    exact hlt.le
  · rw [if_neg hlt, hchk, min_eq_left]
    rw [BitVec.lt_def, hchk] at hlt
    exact not_lt.mp hlt

theorem Geometry.lt_chkEblk_div_iff (hd : Geometry d) (he : eBlk.toNat ≤ d.devTotalBlk.toNat)
    (k : ℕ) : k < (chkEblk d eBlk).toNat / d.protectBlk.toNat ↔
      k * d.protectBlk.toNat < eBlk.toNat ∧ Full d k := by
  have hpos := hd.pos
  rw [← Nat.succ_le_iff, Nat.le_div_iff_mul_le hpos, hd.toNat_chkEblk he, le_min_iff, Full]
  refine and_congr_left fun _ => ?_
  rw [Nat.mul_le_mul_right_iff hpos, Nat.succ_le_iff, ← not_le, ceil_le_iff hpos, not_le]

/-- **What the check sees**: it passes when the range ends above the start of its first sector
and every full sector that meets the range is clear.  A sector cut off by the end of the card
is not looked at. -/
theorem Geometry.checkProtect_eq_zero_iff (hd : Geometry d) (sBlk : Word)
    (he : eBlk.toNat ≤ d.devTotalBlk.toNat) :
    mmcCheckProtect d (chkSblk d sBlk) (chkEblk d eBlk) = 0 ↔
      Meets d sBlk eBlk (sBlk.toNat / d.protectBlk.toNat) ∧
        ∀ k, Meets d sBlk eBlk k → Full d k → d.wpTbl k = 0 := by
  have hpos := hd.pos
  have hs := toNat_chkSblk d sBlk
  have hE := hd.toNat_chkEblk he
  have hmaskS : chkSblk d sBlk &&& (d.protectBlk - 1) = 0 := by
    rw [hd.mask_eq_zero_iff, hs, Nat.mul_mod_left]
  have hlt : chkSblk d sBlk < chkEblk d eBlk ↔
      sBlk.toNat / d.protectBlk.toNat * d.protectBlk.toNat < eBlk.toNat := by
    rw [BitVec.lt_def, hs, hE, lt_min_iff, Nat.mul_lt_mul_right hpos, ← not_le,
      ceil_le_iff hpos, not_le]
    exact ⟨fun h => h.1, fun h => ⟨h, h.trans_le he⟩⟩
  by_cases hmeets : sBlk.toNat / d.protectBlk.toNat * d.protectBlk.toNat < eBlk.toNat
  · have hchk := hlt.mpr hmeets
    have hfirst : ¬ (chkSblk d sBlk &&& (d.protectBlk - 1) ≠ 0 ∨
        d.devTotalBlk ≤ chkSblk d sBlk) := by
      rintro (h | h)
      · exact h hmaskS
      · rw [BitVec.le_def, hs] at h
        omega
    have hsecond : ¬ ((chkEblk d eBlk &&& (d.protectBlk - 1) ≠ 0 ∧
        chkEblk d eBlk ≠ d.devTotalBlk) ∨ chkEblk d eBlk ≤ chkSblk d sBlk ∨
        d.devTotalBlk < chkEblk d eBlk) := by
      rintro (⟨hmask, hne⟩ | h | h)
      · rw [ne_eq, hd.mask_eq_zero_iff, hE] at hmask
        rw [ne_eq, BitVec.toNat_eq, hE] at hne
        rcases min_cases ((eBlk.toNat + (d.protectBlk.toNat - 1)) / d.protectBlk.toNat *
          d.protectBlk.toNat) d.devTotalBlk.toNat with ⟨hmin, -⟩ | ⟨hmin, -⟩
        · exact hmask (by rw [hmin, Nat.mul_mod_left])
        · exact hne hmin
      · exact absurd hchk (BitVec.not_lt.mpr h)
      · rw [BitVec.lt_def, hE] at h
        exact absurd h (not_lt.mpr (min_le_right _ _))
    have hsdiv : (chkSblk d sBlk / d.protectBlk).toNat =
        sBlk.toNat / d.protectBlk.toNat := by
      rw [BitVec.toNat_udiv, hs, Nat.mul_div_cancel _ hpos]
    have hle : sBlk.toNat / d.protectBlk.toNat ≤
        (chkEblk d eBlk).toNat / d.protectBlk.toNat := by
      rw [Nat.le_div_iff_mul_le hpos, ← hs]
      exact (BitVec.lt_def.mp hchk).le
    have hcount : (chkEblk d eBlk / d.protectBlk - chkSblk d sBlk / d.protectBlk).toNat =
        (chkEblk d eBlk).toNat / d.protectBlk.toNat - sBlk.toNat / d.protectBlk.toNat := by
      rw [BitVec.toNat_sub_of_le, hsdiv, BitVec.toNat_udiv]
      rw [BitVec.le_def, hsdiv, BitVec.toNat_udiv]
      exact hle
    rw [mmcCheckProtect, if_neg hfirst, if_neg hsecond, hcount, hsdiv]
    split_ifs with hany
    · refine iff_of_false (by decide) fun hall => ?_
      obtain ⟨j, hj, hset⟩ := List.any_eq_true.mp hany
      have hj' := List.mem_range.mp hj
      obtain ⟨hbegin, hfull⟩ := (hd.lt_chkEblk_div_iff he
        (sBlk.toNat / d.protectBlk.toNat + j)).mp (by omega)
      exact of_decide_eq_true hset (hall.2 _ ⟨Nat.le_add_right _ _, hbegin⟩ hfull)
    · refine iff_of_true rfl ⟨⟨le_rfl, hmeets⟩, fun k hk hfull => ?_⟩
      by_contra hset
      refine hany (List.any_eq_true.mpr ⟨k - sBlk.toNat / d.protectBlk.toNat, ?_, ?_⟩)
      · have hklt := (hd.lt_chkEblk_div_iff he k).mpr ⟨hk.2, hfull⟩
        have hkle := hk.1
        exact List.mem_range.mpr (by omega)
      · rw [Nat.add_sub_cancel' hk.1]
        exact decide_eq_true hset
  · refine iff_of_false ?_ fun h => hmeets h.1.2
    rw [mmcCheckProtect]
    have hle : chkEblk d eBlk ≤ chkSblk d sBlk := BitVec.not_lt.mp fun h => hmeets (hlt.mp h)
    split_ifs with h1 h2 h3
    · decide
    · decide
    · decide
    · exact fun _ => h2 (Or.inr (Or.inl hle))

end

end Mmc
end EmevBsp
