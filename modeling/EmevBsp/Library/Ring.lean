import Mathlib.Data.List.DropRight
import Mathlib.Data.List.Range
import Mathlib.Logic.Function.Basic

/-!
# Rings of cells

A store of `n` cells that is used in a circle.  A position goes from the last cell back to the
first, and a segment is what is read from a position on, cell after cell.  In a ring that is not
full the cell after a segment is none of its own, so a write there makes the segment longer; in a
full one it is the first cell of the segment, which is lost.

* `segment_succ`, `segment_add`: a segment from its first cell, and in two parts.
* `segment_update`: **a write behind a segment that does not fill the ring**.
* `segment_update_full`: **a write behind a segment that does**.
-/

namespace EmevBsp
namespace Ring

variable {α : Type*}

/-- The position after `p` in a ring of `n` cells. -/
def advance (n p : ℕ) : ℕ :=
  if p + 1 = n then 0 else p + 1

/-- The `k` cells from position `p` on. -/
def segment (data : ℕ → α) (n p k : ℕ) : List α :=
  (List.range k).map fun i => data ((p + i) % n)

/-! ## Positions -/

theorem advance_lt {n p : ℕ} (hp : p < n) : advance n p < n := by
  unfold advance
  split <;> omega

theorem advance_eq_mod {n p : ℕ} (hp : p < n) : advance n p = (p + 1) % n := by
  unfold advance
  split
  · next h => rw [h, Nat.mod_self]
  · rw [Nat.mod_eq_of_lt (by omega)]

theorem advance_mod {n p k : ℕ} (hn : 0 < n) : advance n ((p + k) % n) = (p + (k + 1)) % n := by
  rw [advance_eq_mod (Nat.mod_lt _ hn), Nat.mod_add_mod, Nat.add_assoc]

theorem mod_ne_mod {n p i k : ℕ} (hik : i < k) (hk : k < n) : (p + i) % n ≠ (p + k) % n := by
  intro h
  have hdvd : n ∣ (p + k) - (p + i) :=
    Nat.dvd_of_mod_eq_zero (Nat.sub_mod_eq_zero_of_mod_eq h.symm)
  have hzero : (p + k) - (p + i) = 0 := Nat.eq_zero_of_dvd_of_lt hdvd (by omega)
  omega

/-! ## Segments -/

@[simp] theorem segment_zero (data : ℕ → α) (n p : ℕ) : segment data n p 0 = [] := rfl

@[simp] theorem length_segment (data : ℕ → α) (n p k : ℕ) : (segment data n p k).length = k := by
  rw [segment, List.length_map, List.length_range]

theorem segment_snoc (data : ℕ → α) (n p k : ℕ) :
    segment data n p (k + 1) = segment data n p k ++ [data ((p + k) % n)] := by
  rw [segment, List.range_succ, List.map_append, List.map_singleton, segment]

theorem segment_succ (data : ℕ → α) {n p : ℕ} (hp : p < n) (k : ℕ) :
    segment data n p (k + 1) = data p :: segment data n (advance n p) k := by
  rw [segment, List.range_succ_eq_map, List.map_cons, Nat.add_zero, Nat.mod_eq_of_lt hp,
    List.map_map, segment]
  congr 1
  refine List.map_congr_left fun i _ => ?_
  rw [Function.comp_apply, advance_eq_mod hp, Nat.mod_add_mod, Nat.add_assoc, Nat.add_comm 1 i]

theorem segment_add (data : ℕ → α) (n p k m : ℕ) :
    segment data n p (k + m) = segment data n p k ++ segment data n ((p + k) % n) m := by
  rw [segment, List.range_add, List.map_append, List.map_map, segment, segment]
  congr 1
  refine List.map_congr_left fun i _ => ?_
  rw [Function.comp_apply, Nat.mod_add_mod, Nat.add_assoc]

/-! ## Writes -/

theorem segment_update (data : ℕ → α) {n p k : ℕ} (hk : k < n) (x : α) :
    segment (Function.update data ((p + k) % n) x) n p (k + 1) = segment data n p k ++ [x] := by
  rw [segment_snoc, Function.update_self]
  congr 1
  refine List.map_congr_left fun i hi => ?_
  exact Function.update_of_ne (mod_ne_mod (List.mem_range.mp hi) hk) _ _

theorem segment_update_full (data : ℕ → α) {n p : ℕ} (hp : p < n) (x : α) :
    segment (Function.update data ((p + n) % n) x) n (advance n p) n
      = (segment data n p n).tail ++ [x] := by
  obtain ⟨m, rfl⟩ : ∃ m, n = m + 1 := ⟨n - 1, by omega⟩
  have hcell : (p + (m + 1)) % (m + 1) = (advance (m + 1) p + m) % (m + 1) := by
    rw [advance_eq_mod hp, Nat.mod_add_mod, Nat.add_assoc p 1 m, Nat.add_comm 1 m]
  rw [hcell, segment_update data (Nat.lt_succ_self m) x, segment_succ data hp, List.tail_cons]

/-! ## The last elements of a list -/

theorem rtake_rtake_append {n : ℕ} (l m : List α) :
    (l.rtake n ++ m).rtake n = (l ++ m).rtake n := by
  rw [List.rtake, List.rtake, List.rtake, List.length_append, List.length_append, List.length_drop,
    List.drop_append, List.drop_append, List.drop_drop, List.length_drop]
  congr 2 <;> omega

end Ring
end EmevBsp
