import Mathlib.Data.List.Infix
import Mathlib.Tactic.Common

/-!
# What several lists begin with

* `agree`: the number of places at which two lists agree, from the front on.
* `common`: what all the lists begin with; nothing, if there is no list.
* `common_isPrefix`: each of them begins with it.
* `foldl_agree`: a loop that only keeps the number of places.
-/

namespace EmevBsp
namespace CommonPrefix

variable {α : Type*} [DecidableEq α]

/-- The number of places at which two lists agree before they differ or one of them ends. -/
def agree : List α → List α → ℕ
  | [], _ => 0
  | _ :: _, [] => 0
  | x :: s, y :: t => if x = y then agree s t + 1 else 0

/-- What all the lists begin with. -/
def common : List (List α) → List α
  | [] => []
  | s :: l => l.foldl (fun s t => s.take (agree s t)) s

theorem agree_le_length (s t : List α) : agree s t ≤ s.length := by
  fun_induction agree s t with
  | case1 => exact Nat.le_refl 0
  | case2 => exact Nat.zero_le _
  | case3 x s t ih => exact Nat.succ_le_succ ih
  | case4 => exact Nat.zero_le _

theorem take_agree_isPrefix (s t : List α) : s.take (agree s t) <+: t := by
  fun_induction agree s t with
  | case1 => exact List.nil_prefix
  | case2 => exact List.nil_prefix
  | case3 x s t ih =>
    rw [List.take_succ_cons]
    exact List.cons_prefix_cons.mpr ⟨rfl, ih⟩
  | case4 => exact List.nil_prefix

theorem foldl_take_agree_isPrefix (l : List (List α)) (s : List α) :
    l.foldl (fun s t => s.take (agree s t)) s <+: s ∧
      ∀ t ∈ l, l.foldl (fun s t => s.take (agree s t)) s <+: t := by
  induction l generalizing s with
  | nil => exact ⟨List.prefix_rfl, fun t ht => absurd ht List.not_mem_nil⟩
  | cons u l ih =>
    obtain ⟨hfirst, hrest⟩ := ih (s.take (agree s u))
    refine ⟨hfirst.trans (List.take_prefix _ s), fun t ht => ?_⟩
    rcases List.mem_cons.mp ht with rfl | ht
    · exact hfirst.trans (take_agree_isPrefix s t)
    · exact hrest t ht

theorem common_isPrefix {l : List (List α)} {t : List α} (ht : t ∈ l) : common l <+: t := by
  cases l with
  | nil => exact absurd ht List.not_mem_nil
  | cons s l =>
    obtain ⟨hfirst, hrest⟩ := foldl_take_agree_isPrefix l s
    rcases List.mem_cons.mp ht with rfl | ht
    · exact hfirst
    · exact hrest t ht

/-- **A loop that keeps the length alone**: `s` is the first list, of which `n` places are left. -/
theorem foldl_agree (l : List (List α)) (s : List α) {n : ℕ} (hn : n ≤ s.length) :
    l.foldl (fun n t => agree (s.take n) t) n ≤ s.length ∧
      s.take (l.foldl (fun n t => agree (s.take n) t) n) =
        l.foldl (fun s t => s.take (agree s t)) (s.take n) := by
  induction l generalizing n with
  | nil => exact ⟨hn, rfl⟩
  | cons t l ih =>
    have hle : agree (s.take n) t ≤ n :=
      (agree_le_length _ t).trans (List.length_take_le n s)
    obtain ⟨hlen, hfold⟩ := ih (hle.trans hn)
    refine ⟨hlen, ?_⟩
    rw [List.foldl_cons, List.foldl_cons, hfold, List.take_take, Nat.min_eq_left hle]

end CommonPrefix
end EmevBsp
