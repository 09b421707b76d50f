import Mathlib.Data.Nat.GCD.Basic
import Mathlib.Data.Nat.ModEq
import Mathlib.Data.UInt

/-!
# The Internet checksum

A sum of `B`-ary digits is folded by adding what lies above the lowest digit to it, and folded
once more.  Folding keeps the residue modulo `B - 1` and keeps a positive number positive, so a
sum that is folded twice is all ones exactly when `B - 1` divides it.  The same sum is had by adding
the digits with the carry going round to the end.

Of a message bytes are taken two at a time as sixteen-bit numbers, the first byte of each the higher
one, and an odd last byte with a zero behind it.  A message with its checksum is right when the sum
is all ones.

* `foldCarry_modEq`: folding keeps the residue.
* `foldCarry_twice_eq`: a positive multiple of `B - 1` folds to all ones.
* `complement_verifies`: the complement of the folded sum, added to the sum, folds to all ones.
* `sumCarry_eq_ones_iff`: a sum with the carry going round is all ones exactly when the plain sum
  is a positive multiple of one less than the base.
* `verifies_iff`: **the same may be found out from the numbers read the other way round**, as a
  machine does that has the lower byte first.
-/

namespace EmevBsp
namespace OnesComplement

/-! ## Sums that are folded -/

section foldCarry

variable {B x : ℕ}

/-- Add the carries to the lowest digit. -/
def foldCarry (B x : ℕ) : ℕ := x % B + x / B

theorem foldCarry_modEq (hB : 0 < B) : foldCarry B x ≡ x [MOD B - 1] := by
  have hx : x % B + B * (x / B) = x := Nat.mod_add_div x B
  have hmul : B * (x / B) = x / B + (B - 1) * (x / B) := by
    rw [Nat.sub_mul, one_mul, Nat.add_sub_cancel' (Nat.le_mul_of_pos_left _ hB)]
  have hsum : x = foldCarry B x + (B - 1) * (x / B) := by
    rw [foldCarry]
    omega
  have hzero : (B - 1) * (x / B) ≡ 0 [MOD B - 1] :=
    (Nat.modEq_zero_iff_dvd).mpr (Nat.dvd_mul_right _ _)
  have hadd := hzero.add_left (foldCarry B x)
  rw [← hsum, Nat.add_zero] at hadd
  exact hadd.symm

theorem foldCarry_pos (hx : 0 < x) : 0 < foldCarry B x := by
  have hdiv : x % B + B * (x / B) = x := Nat.mod_add_div x B
  refine Nat.pos_of_ne_zero fun hfold => ?_
  obtain ⟨hmod, hquot⟩ := Nat.eq_zero_of_add_eq_zero hfold
  rw [hmod, hquot, Nat.mul_zero] at hdiv
  omega

theorem foldCarry_twice_lt (hx : x < B * (B - 1)) : foldCarry B (foldCarry B x) < B := by
  have hB : 0 < B := Nat.pos_of_ne_zero fun h => by simp [h] at hx
  have hquot : x / B < B - 1 := Nat.div_lt_of_lt_mul hx
  have hmod : x % B < B := Nat.mod_lt x hB
  have hfold : foldCarry B x < 2 * B - 1 := by
    rw [foldCarry]
    omega
  by_cases hsmall : foldCarry B x < B
  · rw [foldCarry, Nat.mod_eq_of_lt hsmall, Nat.div_eq_of_lt hsmall]
    omega
  · have hrest : foldCarry B x - B < B := by omega
    have hsplit : foldCarry B x = foldCarry B x - B + B := by omega
    have hone : foldCarry B x / B = 1 := by
      rw [hsplit, Nat.add_div_right _ hB, Nat.div_eq_of_lt hrest]
    have hlow : foldCarry B x % B = foldCarry B x - B := by
      rw [Nat.mod_eq_sub_mod (Nat.le_of_not_lt hsmall), Nat.mod_eq_of_lt hrest]
    rw [foldCarry, hone, hlow]
    omega

/-- **A positive multiple of `B - 1` folds to all ones.** -/
theorem foldCarry_twice_eq (hpos : 0 < x) (hx : x < B * (B - 1)) (hdvd : B - 1 ∣ x) :
    foldCarry B (foldCarry B x) = B - 1 := by
  have hB : 0 < B := Nat.pos_of_ne_zero fun h => by simp [h] at hx
  have hlt := foldCarry_twice_lt hx
  have hfold : 0 < foldCarry B (foldCarry B x) := foldCarry_pos (foldCarry_pos hpos)
  have hmod : foldCarry B (foldCarry B x) ≡ 0 [MOD B - 1] :=
    ((foldCarry_modEq hB).trans (foldCarry_modEq hB)).trans (Nat.modEq_zero_iff_dvd.mpr hdvd)
  have hle := Nat.le_of_dvd hfold (Nat.modEq_zero_iff_dvd.mp hmod)
  omega

/-- **The stored complement verifies**: added to the sum it was taken of, it gives a multiple of
`B - 1`. -/
theorem complement_verifies (hpos : 0 < x) (hx : x + B < B * (B - 1)) :
    foldCarry B (foldCarry B (x + (B - 1 - foldCarry B (foldCarry B x)))) = B - 1 := by
  have hB : 0 < B := Nat.pos_of_ne_zero fun h => by simp [h] at hx
  have hlt := foldCarry_twice_lt (x := x) (B := B) (by omega)
  have hmod : foldCarry B (foldCarry B x) ≡ x [MOD B - 1] :=
    (foldCarry_modEq hB).trans (foldCarry_modEq hB)
  refine foldCarry_twice_eq (by omega) (by omega) (Nat.modEq_zero_iff_dvd.mp ?_)
  calc x + (B - 1 - foldCarry B (foldCarry B x))
      ≡ foldCarry B (foldCarry B x) + (B - 1 - foldCarry B (foldCarry B x)) [MOD B - 1] :=
        hmod.symm.add_right _
    _ = B - 1 := Nat.add_sub_cancel' (by omega)
    _ ≡ 0 [MOD B - 1] := Nat.modEq_zero_iff_dvd.mpr dvd_rfl

end foldCarry

/-! ## Sums with the carry going round -/

/-- Add two digits, and the carry to the sum. -/
def addCarry (B a d : ℕ) : ℕ := if a + d < B then a + d else a + d + 1 - B

/-- The one's complement sum of some digits. -/
def sumCarry (B : ℕ) (l : List ℕ) : ℕ := l.foldl (addCarry B) 0

variable {B a d : ℕ} {l : List ℕ}

theorem addCarry_lt (ha : a < B) (hd : d < B) : addCarry B a d < B := by
  unfold addCarry
  split <;> omega

theorem addCarry_modEq (hB : 1 < B) : addCarry B a d ≡ a + d [MOD B - 1] := by
  unfold addCarry
  split
  · exact Nat.ModEq.refl _
  · next h =>
    have hsum : a + d + 1 - B + (B - 1) = a + d := by omega
    calc a + d + 1 - B ≡ a + d + 1 - B + (B - 1) [MOD B - 1] := by
          rw [Nat.ModEq, Nat.add_mod_right]
      _ = a + d := hsum

theorem addCarry_eq_zero_iff (hB : 1 < B) : addCarry B a d = 0 ↔ a = 0 ∧ d = 0 := by
  unfold addCarry
  split <;> omega

theorem sumCarry_spec (hB : 1 < B) (hl : ∀ d ∈ l, d < B) :
    sumCarry B l < B ∧ sumCarry B l ≡ l.sum [MOD B - 1] ∧ (sumCarry B l = 0 ↔ l.sum = 0) := by
  induction l using List.reverseRecOn with
  | nil => exact ⟨Nat.lt_trans Nat.zero_lt_one hB, Nat.ModEq.refl _, Iff.rfl⟩
  | append_singleton l d ih =>
    obtain ⟨hlt, hmod, hzero⟩ := ih fun d hd => hl d (List.mem_append_left _ hd)
    have hd : d < B := hl d (List.mem_append_right _ (List.mem_singleton_self d))
    have hstep : sumCarry B (l ++ [d]) = addCarry B (sumCarry B l) d := by
      rw [sumCarry, List.foldl_append, List.foldl_cons, List.foldl_nil, sumCarry]
    rw [hstep, List.sum_append, List.sum_singleton, addCarry_eq_zero_iff hB, hzero]
    exact ⟨addCarry_lt hlt hd, (addCarry_modEq hB).trans (hmod.add_right d),
      Nat.add_eq_zero_iff.symm⟩

theorem sumCarry_eq_ones_iff (hB : 1 < B) (hl : ∀ d ∈ l, d < B) :
    sumCarry B l = B - 1 ↔ 0 < l.sum ∧ B - 1 ∣ l.sum := by
  obtain ⟨hlt, hmod, hzero⟩ := sumCarry_spec hB hl
  constructor
  · intro hones
    refine ⟨Nat.pos_of_ne_zero fun h => ?_, ?_⟩
    · have hsum := hzero.mpr h
      omega
    · rw [hones] at hmod
      exact (Nat.modEq_zero_iff_dvd.mp (hmod.symm.trans
        (Nat.modEq_zero_iff_dvd.mpr (Nat.dvd_refl _))))
  · rintro ⟨hpos, hdvd⟩
    have hsum : 0 < sumCarry B l := Nat.pos_of_ne_zero fun h => hpos.ne' (hzero.mp h)
    have hones : B - 1 ∣ sumCarry B l :=
      Nat.modEq_zero_iff_dvd.mp (hmod.trans (Nat.modEq_zero_iff_dvd.mpr hdvd))
    have hle := Nat.le_of_dvd hsum hones
    omega

/-! ## Messages -/

/-- The sixteen-bit numbers of a message. -/
def words : List UInt8 → List ℕ
  | a :: b :: rest => (256 * a.toNat + b.toNat) :: words rest
  | [a] => [256 * a.toNat]
  | [] => []

/-- A message is right by its checksum. -/
def Verifies (msg : List UInt8) : Prop := sumCarry (2 ^ 16) (words msg) = 2 ^ 16 - 1

/-- The sum of the numbers read with the lower byte first. -/
def lowSum : List UInt8 → ℕ
  | a :: b :: rest => a.toNat + 256 * b.toNat + lowSum rest
  | [a] => a.toNat
  | [] => 0

theorem words_lt (msg : List UInt8) : ∀ d ∈ words msg, d < 2 ^ 16 := by
  fun_induction words msg with
  | case1 a b rest ih =>
    have ha := a.toNat_lt
    have hb := b.toNat_lt
    intro d hd
    rcases List.mem_cons.mp hd with rfl | hd
    · omega
    · exact ih d hd
  | case2 a =>
    have ha := a.toNat_lt
    intro d hd
    rw [List.mem_singleton.mp hd]
    omega
  | case3 => exact fun d hd => absurd hd List.not_mem_nil

theorem lowSum_modEq (msg : List UInt8) :
    256 * (words msg).sum ≡ lowSum msg [MOD 2 ^ 16 - 1] := by
  fun_induction words msg with
  | case1 a b rest ih =>
    have hswap : 256 * (256 * a.toNat + b.toNat) ≡ a.toNat + 256 * b.toNat [MOD 2 ^ 16 - 1] := by
      rw [Nat.ModEq]
      omega
    rw [List.sum_cons, Nat.mul_add, lowSum]
    exact hswap.add ih
  | case2 a =>
    rw [List.sum_singleton, lowSum, Nat.ModEq]
    omega
  | case3 => exact Nat.ModEq.refl _

theorem lowSum_eq_zero_iff (msg : List UInt8) : lowSum msg = 0 ↔ (words msg).sum = 0 := by
  fun_induction words msg with
  | case1 a b rest ih =>
    rw [lowSum, List.sum_cons]
    omega
  | case2 a =>
    rw [lowSum, List.sum_singleton]
    omega
  | case3 => exact Iff.rfl

theorem verifies_iff (msg : List UInt8) :
    Verifies msg ↔ 0 < lowSum msg ∧ 2 ^ 16 - 1 ∣ lowSum msg := by
  have hpos : 0 < (words msg).sum ↔ 0 < lowSum msg := by
    rw [Nat.pos_iff_ne_zero, Nat.pos_iff_ne_zero, ne_eq, ne_eq, lowSum_eq_zero_iff]
  have hdvd : 2 ^ 16 - 1 ∣ (words msg).sum ↔ 2 ^ 16 - 1 ∣ lowSum msg := by
    have hcoprime : Nat.Coprime (2 ^ 16 - 1) 256 := by decide
    rw [← (lowSum_modEq msg).dvd_iff (Nat.dvd_refl _), hcoprime.dvd_mul_left]
  rw [Verifies, sumCarry_eq_ones_iff (by decide) (words_lt msg), hpos, hdvd]

theorem lowSum_append {msg : List UInt8} (h : msg.length % 2 = 0) (rest : List UInt8) :
    lowSum (msg ++ rest) = lowSum msg + lowSum rest := by
  fun_induction lowSum msg with
  | case1 a b msg ih =>
    rw [List.length_cons, List.length_cons] at h
    rw [List.cons_append, List.cons_append, lowSum, ih (by omega), Nat.add_assoc (_ + _)]
  | case2 a =>
    rw [List.length_singleton] at h
    exact absurd h (by decide)
  | case3 => rw [List.nil_append, Nat.zero_add]

end OnesComplement
end EmevBsp
