import Mathlib.Data.List.Basic
import Mathlib.Tactic.Common

/-!
# `lib_generic/string.c`: `strcmp` and `strncmp`

For `strcmp` a string is the list of the bytes from a pointer on; past its end stands the
terminator.  Only whether the result is zero is used, and `strcmp_ne_zero_of_head` is how a search
steps over a place where the string it looks for does not begin.

`strncmp` takes what its pointers point at, which need not be terminated.
-/

namespace EmevBsp

/-- The difference of the first two bytes that differ, as a `signed char`. -/
def strcmp : List UInt8 → List UInt8 → Int8
  | c :: cs, d :: ct => if c - d ≠ 0 ∨ c = 0 then (c - d).toInt8 else strcmp cs ct
  | c :: _, [] => c.toInt8
  | [], d :: _ => (0 - d).toInt8
  | [], [] => 0

theorem toInt8_ne_zero {x : UInt8} (h : x ≠ 0) : x.toInt8 ≠ 0 := by
  intro h0
  apply h
  rw [← UInt8.toUInt8_toInt8 x, h0]
  rfl

theorem sub_eq_zero_iff {c d : UInt8} : c - d = 0 ↔ c = d := by
  rw [UInt8.sub_eq_iff_eq_add, UInt8.zero_add]

theorem strcmp_ne_zero_of_head {c d : UInt8} (h : c ≠ d) (cs ct : List UInt8) :
    strcmp (c :: cs) (d :: ct) ≠ 0 := by
  have hsub : c - d ≠ 0 := mt sub_eq_zero_iff.mp h
  rw [strcmp, if_pos (.inl hsub)]
  exact toInt8_ne_zero hsub

theorem strcmp_append {s : List UInt8} (hs : (0 : UInt8) ∉ s) (rest : List UInt8) :
    strcmp (s ++ 0 :: rest) s = 0 := by
  induction s with
  | nil => rfl
  | cons c s ih =>
    rw [List.mem_cons, not_or] at hs
    have hgo : ¬(c - c ≠ 0 ∨ c = 0) := by
      rw [not_or]
      exact ⟨fun h => h (by simp), Ne.symm hs.1⟩
    rw [List.cons_append, strcmp, if_neg hgo, ih hs.2]

/-! ## `strncmp` -/

/-- The same, of at most `count` bytes. -/
def strncmp (cs ct : ℕ → UInt8) : ℕ → Int8
  | 0 => 0
  | count + 1 =>
    if cs 0 - ct 0 ≠ 0 ∨ cs 0 = 0 then (cs 0 - ct 0).toInt8
    else strncmp (fun i => cs (i + 1)) (fun i => ct (i + 1)) count

theorem strncmp_eq_zero_iff {cs ct : ℕ → UInt8} {count : ℕ} :
    strncmp cs ct count = 0 ↔ ∀ i < count, (∀ j < i, cs j ≠ 0) → cs i = ct i := by
  induction count generalizing cs ct with
  | zero => exact iff_of_true rfl fun i hi => absurd hi (Nat.not_lt_zero i)
  | succ count ih =>
    rw [strncmp]
    split_ifs with hstop
    · rcases hstop with hdiff | hend
      · refine iff_of_false (toInt8_ne_zero hdiff) fun h => hdiff ?_
        rw [h 0 (Nat.succ_pos count) fun j hj => absurd hj (Nat.not_lt_zero j)]
        exact UInt8.sub_self _
      · constructor
        · intro h i _ hbefore
          rcases Nat.eq_zero_or_pos i with rfl | hpos
          · by_contra hne
            exact toInt8_ne_zero (mt sub_eq_zero_iff.mp hne) h
          · exact absurd hend (hbefore 0 hpos)
        · intro h
          rw [h 0 (Nat.succ_pos count) fun j hj => absurd hj (Nat.not_lt_zero j), UInt8.sub_self]
          rfl
    · obtain ⟨hsame, hnul⟩ := not_or.mp hstop
      have hfirst : cs 0 = ct 0 := sub_eq_zero_iff.mp (not_not.mp hsame)
      rw [ih]
      constructor
      · intro h i hi hbefore
        cases i with
        | zero => exact hfirst
        | succ i =>
          exact h i (Nat.lt_of_succ_lt_succ hi) fun j hj => hbefore (j + 1) (Nat.succ_lt_succ hj)
      · intro h i hi hbefore
        refine h (i + 1) (Nat.succ_lt_succ hi) fun j hj => ?_
        cases j with
        | zero => exact hnul
        | succ j => exact hbefore j (Nat.lt_of_succ_lt_succ hj)

end EmevBsp
