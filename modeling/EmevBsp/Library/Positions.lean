import Mathlib.Data.List.GetD
import Mathlib.Data.List.Range
import Mathlib.Tactic.Common

/-!
# The positions of a stretch that meet a condition

`positions p a b` lists, in order, the numbers from `a` on and below `b` that meet `p`: the bytes of
a stretch of memory that are usable, say.

* `positions_append`: two stretches that meet.
* `positions_of_forall`, `positions_of_forall_not`: a stretch all of which meets the condition, and
  one none of which does.
* `length_positions_eq_iff`: a stretch has as many positions as it is long when all meet it.
* `positions_dvd_step`, `pairwise_positions_dvd`: the positions at which a block starts.
* `blockPlace_of_lt`, `blockPlace_add`: the bytes of a list of blocks, one block behind the other.
-/

namespace EmevBsp

/-- The numbers in `[a, b)` that meet `p`. -/
def positions (p : ℕ → Bool) (a b : ℕ) : List ℕ := (List.range' a (b - a)).filter p

variable {p : ℕ → Bool} {a b c : ℕ}

theorem mem_positions {x : ℕ} : x ∈ positions p a b ↔ a ≤ x ∧ x < b ∧ p x = true := by
  rw [positions, List.mem_filter, List.mem_range'_1]
  constructor
  · rintro ⟨⟨hle, hlt⟩, hp⟩
    exact ⟨hle, by omega, hp⟩
  · rintro ⟨hle, hlt, hp⟩
    exact ⟨⟨hle, by omega⟩, hp⟩

theorem positions_of_le (h : b ≤ a) : positions p a b = [] := by
  rw [positions, Nat.sub_eq_zero_of_le h]
  rfl

theorem positions_append (hab : a ≤ b) (hbc : b ≤ c) :
    positions p a c = positions p a b ++ positions p b c := by
  have hsplit : c - a = (b - a) + (c - b) := by omega
  have hmid : a + (b - a) = b := by omega
  rw [positions, hsplit, ← List.range'_append_1, List.filter_append, hmid]
  rfl

theorem positions_of_forall (h : ∀ x, a ≤ x → x < b → p x = true) :
    positions p a b = List.range' a (b - a) := by
  rw [positions, List.filter_eq_self]
  intro x hx
  rw [List.mem_range'_1] at hx
  exact h x hx.1 (by omega)

theorem positions_of_forall_not (h : ∀ x, a ≤ x → x < b → p x = false) :
    positions p a b = [] := by
  rw [positions, List.filter_eq_nil_iff]
  intro x hx
  rw [List.mem_range'_1] at hx
  rw [h x hx.1 (by omega)]
  exact Bool.false_ne_true

theorem length_positions_le : (positions p a b).length ≤ b - a :=
  (List.length_filter_le _ _).trans_eq List.length_range'

theorem length_positions_mono (h : b ≤ c) :
    (positions p a b).length ≤ (positions p a c).length := by
  rcases Nat.le_total a b with hab | hba
  · rw [positions_append hab h, List.length_append]
    exact Nat.le_add_right _ _
  · rw [positions_of_le hba]
    exact Nat.zero_le _

theorem length_positions_eq_iff :
    (positions p a b).length = b - a ↔ ∀ x, a ≤ x → x < b → p x = true := by
  constructor
  · intro h x hle hlt
    rw [positions] at h
    have hall := List.length_filter_eq_length_iff.mp (h.trans List.length_range'.symm)
    exact hall x (List.mem_range'_1.mpr ⟨hle, by omega⟩)
  · intro h
    rw [positions_of_forall h, List.length_range']

/-! ## The starts of blocks -/

section Blocks

variable {n : ℕ}

theorem positions_dvd_step (hn : 0 < n) (hdvd : n ∣ a) (hlt : a < b) :
    positions (fun x => decide (n ∣ x) && p x) a b =
      (if p a then [a] else []) ++ positions (fun x => decide (n ∣ x) && p x) (a + n) b := by
  have hfirst : positions (fun x => decide (n ∣ x) && p x) a (a + 1) = if p a then [a] else [] := by
    rw [positions, Nat.add_sub_cancel_left, List.range'_one, List.filter_singleton]
    simp [hdvd]
  -- no block starts inside a block
  have hnone : ∀ e ≤ a + n, positions (fun x => decide (n ∣ x) && p x) (a + 1) e = [] := by
    intro e he
    refine positions_of_forall_not fun x hle hx => ?_
    have hnot : ¬ n ∣ x := by
      intro hx'
      have hsub := Nat.le_of_dvd (by omega) (Nat.dvd_sub hx' hdvd)
      omega
    simp [hnot]
  have hrest : positions (fun x => decide (n ∣ x) && p x) (a + 1) b =
      positions (fun x => decide (n ∣ x) && p x) (a + n) b := by
    rcases Nat.le_total b (a + n) with hb | hb
    · rw [hnone b hb]
      exact (positions_of_le hb).symm
    · rw [positions_append (by omega : a + 1 ≤ a + n) hb]
      exact congrArg (· ++ _) (hnone _ (Nat.le_refl _))
  rw [positions_append (Nat.le_succ a) hlt]
  exact congrArg₂ _ hfirst hrest

theorem pairwise_positions_dvd (a b : ℕ) :
    (positions (fun x => decide (n ∣ x) && p x) a b).Pairwise fun x y => x + n ≤ y := by
  have hlt : (positions (fun x => decide (n ∣ x) && p x) a b).Pairwise (· < ·) :=
    (List.pairwise_lt_range').filter _
  have hstart : ∀ {x}, x ∈ positions (fun x => decide (n ∣ x) && p x) a b → n ∣ x := by
    intro x hx
    have hp := (mem_positions.mp hx).2.2
    rw [Bool.and_eq_true, decide_eq_true_iff] at hp
    exact hp.1
  refine hlt.imp_of_mem fun {x y} hx hy hxy => ?_
  have hle := Nat.le_of_dvd (by omega) (Nat.dvd_sub (hstart hy) (hstart hx))
  omega

/-- Where byte `i` of some blocks of `n` bytes is, the blocks taken one behind the other. -/
def blockPlace (n : ℕ) (starts : List ℕ) (i : ℕ) : ℕ := starts.getD (i / n) 0 + i % n

variable {s i : ℕ} {starts : List ℕ}

theorem blockPlace_of_lt (h : i < n) : blockPlace n (s :: starts) i = s + i := by
  rw [blockPlace, Nat.div_eq_of_lt h, Nat.mod_eq_of_lt h]
  rfl

theorem blockPlace_add (hn : 0 < n) :
    blockPlace n (s :: starts) (n + i) = blockPlace n starts i := by
  rw [blockPlace, Nat.add_div_left i hn, Nat.add_mod_left]
  rfl

theorem le_blockPlace (hi : i < starts.length * n) (h : ∀ s ∈ starts, a ≤ s) :
    a ≤ blockPlace n starts i := by
  have hlt : i / n < starts.length := by
    rcases Nat.eq_zero_or_pos n with rfl | hn
    · exact absurd hi (by simp)
    · exact (Nat.div_lt_iff_lt_mul hn).mpr hi
  rw [blockPlace, List.getD_eq_getElem _ _ hlt]
  exact Nat.le_add_right_of_le (h _ (List.getElem_mem hlt))

end Blocks

end EmevBsp
