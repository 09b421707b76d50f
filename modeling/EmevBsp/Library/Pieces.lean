import Mathlib.Algebra.BigOperators.Group.List.Basic
import Mathlib.Algebra.GroupWithZero.Nat
import Mathlib.Data.List.Basic
import Mathlib.Data.List.Infix
import Mathlib.Data.List.Range
import Mathlib.Order.Monotone.Basic
import Mathlib.Order.Nat

/-!
# A list in pieces, and the longest prefix within a budget

A list is moved in pieces one behind the other; how long a piece is may depend on its place.

* `Pieces.ends`, `Pieces.size`: where a piece begins, and its length.
* `Pieces.flatMap_pieces_iff`: the pieces are right together exactly when each one is.

Objects with weights come in a list.  They are taken from the front while the budget lasts.

* `Budget.greedy`: what is taken.
* `Budget.IsLongest`, `Budget.greedy_isLongest`: it is the longest prefix within the budget, and the
  only one.
* `Budget.greedy_of_le`, `Budget.greedy_of_isPrefix`: another budget, and a list that is cut off.
-/

namespace EmevBsp
namespace Pieces

variable {α : Type*} (cut : ℕ → ℕ → ℕ)

/-- The place behind so many pieces. -/
def ends : ℕ → ℕ
  | 0 => 0
  | k + 1 => ends k + cut k (ends k)

/-- The length of a piece. -/
def size (k : ℕ) : ℕ := cut k (ends cut k)

variable {cut}

theorem ends_succ (k : ℕ) : ends cut (k + 1) = ends cut k + size cut k := rfl

theorem ends_mono (cut : ℕ → ℕ → ℕ) : Monotone (ends cut) :=
  monotone_nat_of_le_succ fun k => (ends_succ k).symm ▸ Nat.le_add_right _ _

theorem le_ends {K : ℕ} (hpos : ∀ k < K, 0 < size cut k) : K ≤ ends cut K := by
  induction K with
  | zero => exact Nat.zero_le _
  | succ K ih =>
    have hlast := hpos K (Nat.lt_succ_self K)
    have hbefore := ih fun k hk => hpos k (Nat.lt_succ_of_lt hk)
    rw [ends_succ]
    omega

theorem length_flatMap_pieces {piece : ℕ → List α} {K : ℕ}
    (hlen : ∀ k < K, (piece k).length = size cut k) :
    ((List.range K).flatMap piece).length = ends cut K := by
  induction K with
  | zero => rfl
  | succ K ih =>
    rw [List.range_succ, List.flatMap_append, List.length_append, List.flatMap_singleton,
      ih fun k hk => hlen k (Nat.lt_succ_of_lt hk), hlen K (Nat.lt_succ_self K), ends_succ]

theorem flatMap_pieces_iff {l : List α} {piece : ℕ → List α} {K : ℕ}
    (hlen : ∀ k < K, (piece k).length = size cut k) (hle : ends cut K ≤ l.length) :
    (List.range K).flatMap piece = l.take (ends cut K) ↔
      ∀ k < K, piece k = (l.drop (ends cut k)).take (size cut k) := by
  induction K with
  | zero => simp [ends]
  | succ K ih =>
    have hbefore : ∀ k < K, (piece k).length = size cut k := fun k hk =>
      hlen k (Nat.lt_succ_of_lt hk)
    have hends : ends cut K ≤ l.length := (ends_mono _ (Nat.le_succ K)).trans hle
    have hlength : ((List.range K).flatMap piece).length = (l.take (ends cut K)).length := by
      rw [length_flatMap_pieces hbefore, List.length_take, min_eq_left hends]
    rw [List.range_succ, List.flatMap_append, List.flatMap_singleton, ends_succ, List.take_add,
      Nat.forall_lt_succ_right, ← ih hbefore hends]
    exact ⟨fun h => List.append_inj h hlength, fun h => congrArg₂ _ h.1 h.2⟩

theorem flatMap_range_of_le {f : ℕ → List α} {J N : ℕ} (hle : J ≤ N)
    (hnil : ∀ i, J ≤ i → f i = []) : (List.range N).flatMap f = (List.range J).flatMap f := by
  induction N, hle using Nat.le_induction with
  | base => rfl
  | succ N hN ih =>
    rw [List.range_succ, List.flatMap_append, List.flatMap_singleton, hnil N hN, List.append_nil,
      ih]

end Pieces

namespace Budget

variable {α : Type*} (w : α → ℕ)

/-- The weight of a list. -/
def total (l : List α) : ℕ := (l.map w).sum

/-- What is taken while the budget lasts. -/
def greedy : ℕ → List α → List α
  | _, [] => []
  | b, a :: l => if w a ≤ b then a :: greedy (b - w a) l else []

/-- The longest prefix within the budget. -/
def IsLongest (b : ℕ) (l p : List α) : Prop :=
  p <+: l ∧ total w p ≤ b ∧ ∀ q, q <+: l → total w q ≤ b → q <+: p

variable {w}

@[simp] theorem total_nil : total w [] = 0 := rfl

@[simp] theorem total_cons (a : α) (l : List α) : total w (a :: l) = w a + total w l := by
  rw [total, total, List.map_cons, List.sum_cons]

theorem greedy_cons_of_le {b : ℕ} {a : α} {l : List α} (h : w a ≤ b) :
    greedy w b (a :: l) = a :: greedy w (b - w a) l := if_pos h

theorem greedy_cons_of_lt {b : ℕ} {a : α} {l : List α} (h : b < w a) :
    greedy w b (a :: l) = [] := if_neg (not_le.mpr h)

theorem greedy_isLongest (b : ℕ) (l : List α) : IsLongest w b l (greedy w b l) := by
  induction l generalizing b with
  | nil => exact ⟨List.nil_prefix, Nat.zero_le b, fun q hq _ => hq⟩
  | cons a l ih =>
    by_cases ha : w a ≤ b
    · obtain ⟨hpre, htotal, hlongest⟩ := ih (b - w a)
      rw [greedy_cons_of_le ha]
      refine ⟨List.cons_prefix_cons.mpr ⟨rfl, hpre⟩, by rw [total_cons]; omega, fun q hq hle => ?_⟩
      cases q with
      | nil => exact List.nil_prefix
      | cons c q =>
        obtain ⟨rfl, hrest⟩ := List.cons_prefix_cons.mp hq
        rw [total_cons] at hle
        exact List.cons_prefix_cons.mpr ⟨rfl, hlongest q hrest (by omega)⟩
    · rw [greedy_cons_of_lt (not_le.mp ha)]
      refine ⟨List.nil_prefix, Nat.zero_le b, fun q hq hle => ?_⟩
      cases q with
      | nil => exact List.nil_prefix
      | cons c q =>
        obtain ⟨rfl, -⟩ := List.cons_prefix_cons.mp hq
        rw [total_cons] at hle
        omega

theorem IsLongest.eq_greedy {b : ℕ} {l p : List α} (h : IsLongest w b l p) : p = greedy w b l := by
  obtain ⟨hpre, htotal, hlongest⟩ := greedy_isLongest (w := w) b l
  have hle := (hlongest p h.1 h.2.1).length_le
  exact (hlongest p h.1 h.2.1).eq_of_length_le (h.2.2 _ hpre htotal).length_le

theorem greedy_of_le {b c : ℕ} {l : List α} (hle : c ≤ b) (htotal : total w (greedy w b l) ≤ c) :
    greedy w c l = greedy w b l := by
  obtain ⟨hpre, -, hlongest⟩ := greedy_isLongest (w := w) b l
  have hsmall : IsLongest w c l (greedy w b l) :=
    ⟨hpre, htotal, fun q hq hq' => hlongest q hq (hq'.trans hle)⟩
  exact hsmall.eq_greedy.symm

theorem greedy_of_isPrefix {b : ℕ} {l m : List α} (h : m <+: l) :
    greedy w b m <+: greedy w b l := by
  obtain ⟨hpre, htotal, -⟩ := greedy_isLongest (w := w) b m
  exact (greedy_isLongest b l).2.2 _ (hpre.trans h) htotal

end Budget

end EmevBsp
