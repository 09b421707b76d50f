import Mathlib.Data.BitVec
import Mathlib.Algebra.BigOperators.Fin
import Mathlib.Algebra.BigOperators.Intervals
import Mathlib.Data.Finset.SymmDiff
import Mathlib.Data.Fintype.Card

/-!
# Two-rail parity

Every bit of a block has an address of `w` bits.  The block is guarded by two words: on the first
rail the exclusive or of the addresses of the bits that are set, on the second the exclusive or of
the complements of these addresses.  What is stored and what is computed from the block that was
read differ in the `syndrome` of the bits that were turned over since, in the block and on the
rails.

* `verdict_nil`: no bit was turned over.
* `verdict_singleton`: one bit was, and the verdict finds it.
* `verdict_pair`: two were, and the verdict says that it cannot tell which.
-/

namespace EmevBsp
namespace TwoRail

variable {w : ℕ}

/-! ## Counting the bits of a word -/

/-- The positions of the bits that are set. -/
def ones (x : BitVec w) : Finset (Fin w) := {i | x.getLsbD i = true}

theorem mem_ones {x : BitVec w} {i : Fin w} : i ∈ ones x ↔ x.getLsbD i = true := by
  rw [ones, Finset.mem_filter_univ]

theorem ones_xor (x y : BitVec w) : ones (x ^^^ y) = symmDiff (ones x) (ones y) := by
  ext i
  rw [Finset.mem_symmDiff, mem_ones, mem_ones, mem_ones, BitVec.getLsbD_xor]
  cases x.getLsbD i <;> cases y.getLsbD i <;> decide

theorem ones_not (x : BitVec w) : ones (~~~x) = (ones x)ᶜ := by
  ext i
  rw [Finset.mem_compl, mem_ones, mem_ones, BitVec.getLsbD_not]
  simp

theorem ones_twoPow (i : Fin w) : ones (BitVec.twoPow w i) = {i} := by
  ext j
  rw [Finset.mem_singleton, mem_ones, BitVec.getLsbD_twoPow]
  simp [Fin.ext_iff, eq_comm]

theorem ones_zero : ones (0#w) = ∅ := by
  ext i
  simp [mem_ones]

/-- The number of bits that are set. -/
def weight (x : BitVec w) : ℕ := (ones x).card

theorem weight_zero : weight (0#w) = 0 := by
  rw [weight, ones_zero, Finset.card_empty]

theorem weight_twoPow (i : Fin w) : weight (BitVec.twoPow w i) = 1 := by
  rw [weight, ones_twoPow, Finset.card_singleton]

theorem weight_add_not (x : BitVec w) : weight x + weight (~~~x) = w := by
  rw [weight, weight, ones_not, Finset.card_add_card_compl, Fintype.card_fin]

theorem weight_le_xor_twoPow (x : BitVec w) (i : Fin w) :
    weight x ≤ weight (x ^^^ BitVec.twoPow w i) + 1 := by
  have hsub : ones x ⊆ insert i (ones (x ^^^ BitVec.twoPow w i)) := by
    intro j hj
    rw [ones_xor, ones_twoPow, Finset.mem_insert, Finset.mem_symmDiff, Finset.mem_singleton]
    tauto
  exact (Finset.card_le_card hsub).trans (Finset.card_insert_le _ _)

theorem weight_pair {i j : Fin w} (h : i ≠ j) :
    weight (BitVec.twoPow w i ^^^ BitVec.twoPow w j) = 2 := by
  have hpair : ones (BitVec.twoPow w i ^^^ BitVec.twoPow w j) = {i, j} := by
    ext k
    rw [ones_xor, ones_twoPow, ones_twoPow, Finset.mem_symmDiff, Finset.mem_insert,
      Finset.mem_singleton, Finset.mem_singleton]
    constructor
    · tauto
    · rintro (rfl | rfl)
      · exact Or.inl ⟨rfl, h⟩
      · exact Or.inr ⟨rfl, h.symm⟩
  rw [weight, hpair, Finset.card_pair h]

theorem weight_eq_sum (x : BitVec w) :
    weight x = ∑ i ∈ Finset.range w, (x.getLsbD i).toNat := by
  rw [weight, ones, Finset.card_filter, Finset.sum_range]
  refine Finset.sum_congr rfl fun i _ => ?_
  cases x.getLsbD i <;> rfl

theorem weight_append {v : ℕ} (x : BitVec v) (y : BitVec w) :
    weight (x ++ y) = weight x + weight y := by
  have hrange : Finset.range (v + w) = Finset.range (w + v) := congrArg _ (add_comm v w)
  rw [weight_eq_sum, weight_eq_sum x, weight_eq_sum y, hrange, Finset.sum_range_add, add_comm]
  congr 1
  · refine Finset.sum_congr rfl fun i _ => ?_
    rw [BitVec.getLsbD_append, if_neg (by omega), Nat.add_sub_cancel_left]
  · refine Finset.sum_congr rfl fun i hi => ?_
    rw [BitVec.getLsbD_append, if_pos (Finset.mem_range.mp hi)]

theorem weight_setWidth {v : ℕ} (h : w ≤ v) (x : BitVec w) : weight (x.setWidth v) = weight x := by
  rw [weight_eq_sum, weight_eq_sum]
  refine (Finset.sum_subset_zero_on_sdiff (Finset.range_mono h) ?_ ?_).symm
  · intro i hi
    rw [Finset.mem_sdiff, Finset.mem_range, Finset.mem_range] at hi
    rw [BitVec.getLsbD_setWidth, BitVec.getLsbD_of_ge x i (by omega), Bool.and_false,
      Bool.toNat_false]
  · intro i hi
    rw [BitVec.getLsbD_setWidth, decide_eq_true (by have := Finset.mem_range.mp hi; omega),
      Bool.true_and]

/-! ## The rails -/

/-- A word on each rail. -/
structure Rails (w : ℕ) where
  line : BitVec w
  prime : BitVec w
deriving DecidableEq

/-- The exclusive or, rail by rail. -/
def Rails.xor (r s : Rails w) : Rails w := ⟨r.line ^^^ s.line, r.prime ^^^ s.prime⟩

/-- Where a bit can be turned over: at an address of the block, or at a position of a rail. -/
inductive Fault (w : ℕ) where
  | data (address : BitVec w)
  | line (i : Fin w)
  | prime (i : Fin w)
deriving DecidableEq

/-- What turning a bit over does to the difference of the two rails from what is computed. -/
def Fault.mark : Fault w → Rails w
  | .data a => ⟨a, ~~~a⟩
  | .line i => ⟨BitVec.twoPow w i, 0#w⟩
  | .prime i => ⟨0#w, BitVec.twoPow w i⟩

/-- The difference after some bits were turned over. -/
def syndrome (fs : List (Fault w)) : Rails w := fs.foldr (fun f r => f.mark.xor r) ⟨0#w, 0#w⟩

/-- What is read off a difference. -/
inductive Verdict (w : ℕ) where
  | clean
  | data (address : BitVec w)
  | check
  | many
deriving DecidableEq

/-- Nothing differs; the rails are complements; or one bit of a rail differs. -/
def verdict (r : Rails w) : Verdict w :=
  if r.line = 0#w ∧ r.prime = 0#w then .clean
  else if r.line = ~~~r.prime then .data r.line
  else if weight r.line + weight r.prime = 1 then .check
  else .many

/-- The verdict on one bit. -/
def Fault.verdict : Fault w → Verdict w
  | .data a => .data a
  | .line _ => .check
  | .prime _ => .check

/-! ## The two rails of a word are never alike -/

theorem ne_not (h : 0 < w) (x : BitVec w) : x ≠ ~~~x := by
  intro heq
  have hbit := congrArg (fun y => y.getLsbD 0) heq
  simp only [BitVec.getLsbD_not, h, decide_true, Bool.true_and] at hbit
  exact absurd hbit (by cases x.getLsbD 0 <;> decide)

theorem weight_eq_zero {x : BitVec w} : weight x = 0 ↔ x = 0#w := by
  constructor
  · intro h
    rw [weight, Finset.card_eq_zero] at h
    apply BitVec.eq_of_getLsbD_eq
    intro i hi
    have hmem : (⟨i, hi⟩ : Fin w) ∉ ones x := by rw [h]; exact Finset.notMem_empty _
    rw [mem_ones, Bool.not_eq_true] at hmem
    rw [BitVec.getLsbD_zero]
    exact hmem
  · rintro rfl
    exact weight_zero

theorem weight_not (x : BitVec w) : weight (~~~x) = w - weight x := by
  have h := weight_add_not x
  omega

theorem twoPow_ne_not_zero (h : 2 ≤ w) (i : Fin w) : BitVec.twoPow w i ≠ ~~~0#w := by
  intro heq
  have hw := congrArg weight heq
  rw [weight_twoPow, weight_not, weight_zero] at hw
  omega

theorem zero_ne_not_twoPow (h : 2 ≤ w) (i : Fin w) : (0#w) ≠ ~~~BitVec.twoPow w i := by
  intro heq
  have hw := congrArg weight heq
  rw [weight_zero, weight_not, weight_twoPow] at hw
  omega

theorem twoPow_ne_zero (i : Fin w) : BitVec.twoPow w i ≠ 0#w := by
  intro heq
  have hw := congrArg weight heq
  rw [weight_twoPow, weight_zero] at hw
  omega

/-! ## The verdicts -/

theorem verdict_eq_data {r : Rails w} (h : 0 < w) (heq : r.line = ~~~r.prime) :
    verdict r = .data r.line := by
  rw [verdict, if_neg, if_pos heq]
  rintro ⟨hline, hprime⟩
  rw [hline, hprime] at heq
  exact ne_not h _ heq

theorem verdict_eq_check {r : Rails w} (hne : r.line ≠ ~~~r.prime)
    (hweight : weight r.line + weight r.prime = 1) : verdict r = .check := by
  rw [verdict, if_neg, if_neg hne, if_pos hweight]
  rintro ⟨hline, hprime⟩
  rw [hline, hprime, weight_zero] at hweight
  omega

theorem verdict_eq_many {r : Rails w} (hne : r.line ≠ ~~~r.prime)
    (hweight : 2 ≤ weight r.line + weight r.prime) : verdict r = .many := by
  rw [verdict, if_neg, if_neg hne, if_neg (by omega)]
  rintro ⟨hline, hprime⟩
  rw [hline, hprime, weight_zero] at hweight
  omega

theorem syndrome_singleton (f : Fault w) : syndrome [f] = f.mark := by
  rw [syndrome, List.foldr_cons, List.foldr_nil, Rails.xor, BitVec.xor_zero, BitVec.xor_zero]

theorem syndrome_pair (f g : Fault w) : syndrome [f, g] = f.mark.xor g.mark := by
  rw [← syndrome_singleton g, syndrome, List.foldr_cons, syndrome]

theorem verdict_singleton (h : 2 ≤ w) (f : Fault w) : verdict (syndrome [f]) = f.verdict := by
  rw [syndrome_singleton]
  cases f with
  | data a =>
    refine verdict_eq_data (by omega) ?_
    rw [Fault.mark, BitVec.not_not]
  | line i =>
    refine verdict_eq_check (twoPow_ne_not_zero h i) ?_
    rw [Fault.mark, weight_twoPow, weight_zero]
  | prime i =>
    refine verdict_eq_check (zero_ne_not_twoPow h i) ?_
    rw [Fault.mark, weight_twoPow, weight_zero]

theorem verdict_data_data (h : 0 < w) {a b : BitVec w} (hne : a ≠ b) :
    verdict ((Fault.data a).mark.xor (Fault.data b).mark) = .many := by
  have hprime : ~~~a ^^^ ~~~b = a ^^^ b := by
    rw [← BitVec.not_xor_left, ← BitVec.not_xor_right, BitVec.not_not]
  rw [Fault.mark, Fault.mark, Rails.xor, hprime]
  refine verdict_eq_many (ne_not h _) ?_
  have hpos : weight (a ^^^ b) ≠ 0 := by
    rw [Ne, weight_eq_zero, BitVec.xor_eq_zero_iff]
    exact hne
  show 2 ≤ weight (a ^^^ b) + weight (a ^^^ b)
  omega

theorem xor_twoPow_ne (a : BitVec w) (i : Fin w) : a ^^^ BitVec.twoPow w i ≠ a := by
  intro heq
  refine twoPow_ne_zero i ?_
  have hxor := congrArg (a ^^^ ·) heq
  simpa [← BitVec.xor_assoc] using hxor

theorem verdict_data_line (h : 3 ≤ w) (a : BitVec w) (i : Fin w) :
    verdict ((Fault.data a).mark.xor (Fault.line i).mark) = .many := by
  rw [Fault.mark, Fault.mark, Rails.xor, BitVec.xor_zero]
  refine verdict_eq_many ?_ ?_
  · rw [BitVec.not_not]
    exact xor_twoPow_ne a i
  · have hle := weight_le_xor_twoPow a i
    have hsum := weight_add_not a
    show 2 ≤ weight (a ^^^ BitVec.twoPow w i) + weight (~~~a)
    omega

theorem verdict_data_prime (h : 3 ≤ w) (a : BitVec w) (i : Fin w) :
    verdict ((Fault.data a).mark.xor (Fault.prime i).mark) = .many := by
  rw [Fault.mark, Fault.mark, Rails.xor, BitVec.xor_zero]
  refine verdict_eq_many ?_ ?_
  · intro heq
    refine xor_twoPow_ne (~~~a) i ?_
    rw [← BitVec.not_not (b := ~~~a ^^^ BitVec.twoPow w i)]
    exact congrArg (~~~·) heq.symm
  · have hle := weight_le_xor_twoPow (~~~a) i
    have hsum := weight_add_not a
    show 2 ≤ weight a + weight (~~~a ^^^ BitVec.twoPow w i)
    omega

theorem verdict_line_line (h : 3 ≤ w) {i j : Fin w} (hne : i ≠ j) :
    verdict ((Fault.line i).mark.xor (Fault.line j).mark) = .many := by
  have hweight := weight_pair hne
  rw [Fault.mark, Fault.mark, Rails.xor, BitVec.xor_zero]
  refine verdict_eq_many ?_ ?_
  · intro heq
    have hw := congrArg weight heq
    rw [weight_not, weight_zero, hweight] at hw
    omega
  · exact hweight ▸ Nat.le_add_right _ _

theorem verdict_prime_prime (h : 3 ≤ w) {i j : Fin w} (hne : i ≠ j) :
    verdict ((Fault.prime i).mark.xor (Fault.prime j).mark) = .many := by
  have hweight := weight_pair hne
  rw [Fault.mark, Fault.mark, Rails.xor, BitVec.xor_zero]
  refine verdict_eq_many ?_ ?_
  · intro heq
    have hw := congrArg weight heq
    rw [weight_not, weight_zero, hweight] at hw
    omega
  · exact hweight ▸ Nat.le_add_left _ _

theorem verdict_line_prime (h : 3 ≤ w) (i j : Fin w) :
    verdict ((Fault.line i).mark.xor (Fault.prime j).mark) = .many := by
  rw [Fault.mark, Fault.mark, Rails.xor, BitVec.xor_zero, BitVec.zero_xor]
  refine verdict_eq_many ?_ ?_
  · intro heq
    have hw := congrArg weight heq
    rw [weight_not, weight_twoPow, weight_twoPow] at hw
    omega
  · show 2 ≤ weight (BitVec.twoPow w i) + weight (BitVec.twoPow w j)
    rw [weight_twoPow, weight_twoPow]

theorem Rails.xor_comm (r s : Rails w) : r.xor s = s.xor r := by
  rw [Rails.xor, Rails.xor, BitVec.xor_comm, BitVec.xor_comm r.prime]

theorem verdict_pair (h : 3 ≤ w) {f g : Fault w} (hne : f ≠ g) :
    verdict (syndrome [f, g]) = .many := by
  rw [syndrome_pair]
  cases f with
  | data a =>
    cases g with
    | data b => exact verdict_data_data (by omega) (fun hab => hne (congrArg _ hab))
    | line j => exact verdict_data_line h a j
    | prime j => exact verdict_data_prime h a j
  | line i =>
    cases g with
    | data b =>
      rw [Rails.xor_comm]
      exact verdict_data_line h b i
    | line j => exact verdict_line_line h (fun hij => hne (congrArg _ hij))
    | prime j => exact verdict_line_prime h i j
  | prime i =>
    cases g with
    | data b =>
      rw [Rails.xor_comm]
      exact verdict_data_prime h b i
    | line j =>
      rw [Rails.xor_comm]
      exact verdict_line_prime h j i
    | prime j => exact verdict_prime_prime h (fun hij => hne (congrArg _ hij))

end TwoRail
end EmevBsp
