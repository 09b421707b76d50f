import Mathlib.Data.List.Range
import Mathlib.Tactic.Common
import Mathlib.Data.List.Basic
import Mathlib.Logic.Function.Basic

/-!
# Stretches of an array

An array without an end is a function of the index.  `stretch f s n` is the list of the `n` elements
from index `s` on, and `splice f s l` is the array with the elements of `l` from index `s` on in the
place of what was there: what `memcpy` leaves.

* `stretch_append`: two stretches that meet.
* `stretch_congr`: arrays that agree on a stretch.
* `splice_append`: two copies that meet are one.
* `splice_of_lt`, `splice_of_le`, `splice_add`: what is read after a copy.
-/

namespace EmevBsp

variable {α : Type*} {f g : ℕ → α} {s n m : ℕ} {l l' : List α}

/-- The `n` elements from index `s` on. -/
def stretch (f : ℕ → α) (s n : ℕ) : List α := (List.range' s n).map f

/-- The array with a list copied to index `s`. -/
def splice (f : ℕ → α) (s : ℕ) (l : List α) : ℕ → α := fun x =>
  if x < s then f x else (l[x - s]?).getD (f x)

@[simp] theorem length_stretch : (stretch f s n).length = n := by
  rw [stretch, List.length_map, List.length_range']

@[simp] theorem stretch_zero : stretch f s 0 = [] := rfl

theorem getElem?_stretch {i : ℕ} (h : i < n) : (stretch f s n)[i]? = some (f (s + i)) := by
  rw [stretch, List.getElem?_map, List.getElem?_range' h, Option.map_some, Nat.one_mul]

theorem stretch_append : stretch f s n ++ stretch f (s + n) m = stretch f s (n + m) := by
  rw [stretch, stretch, stretch, ← List.map_append, List.range'_append_1]

theorem stretch_congr (h : ∀ i < n, f (s + i) = g (m + i)) : stretch f s n = stretch g m n := by
  refine List.ext_getElem? fun i => ?_
  by_cases hi : i < n
  · rw [getElem?_stretch hi, getElem?_stretch hi, h i hi]
  · rw [List.getElem?_eq_none (by rw [length_stretch]; omega),
      List.getElem?_eq_none (by rw [length_stretch]; omega)]

theorem take_stretch (h : m ≤ n) : (stretch f s n).take m = stretch f s m := by
  rw [← Nat.add_sub_cancel' h, ← stretch_append, List.take_left' length_stretch]

theorem drop_stretch (h : m ≤ n) : (stretch f s n).drop m = stretch f (s + m) (n - m) := by
  conv_lhs => rw [← Nat.add_sub_cancel' h, ← stretch_append]
  exact List.drop_left' length_stretch

/-! ## Copies -/

@[simp] theorem splice_nil : splice f s [] = f := by
  funext x
  simp [splice]

theorem splice_of_lt {x : ℕ} (h : x < s) : splice f s l x = f x := if_pos h

theorem splice_of_le {x : ℕ} (h : s + l.length ≤ x) : splice f s l x = f x := by
  rw [splice, if_neg (by omega), List.getElem?_eq_none (by omega), Option.getD_none]

theorem splice_add {i : ℕ} {a : α} (h : l[i]? = some a) : splice f s l (s + i) = a := by
  rw [splice, if_neg (by omega), Nat.add_sub_cancel_left, h, Option.getD_some]

theorem splice_stretch {i : ℕ} (h : i < n) : splice f s (stretch g m n) (s + i) = g (m + i) :=
  splice_add (getElem?_stretch h)

theorem splice_append : splice (splice f s l) (s + l.length) l' = splice f s (l ++ l') := by
  funext x
  by_cases hx : x < s
  · rw [splice_of_lt (by omega), splice_of_lt hx, splice_of_lt hx]
  · by_cases hin : x < s + l.length
    · rw [splice_of_lt hin, splice, splice, if_neg hx, if_neg hx,
        List.getElem?_append_left (by omega)]
    · have hsub : x - s - l.length = x - (s + l.length) := by omega
      rw [splice, if_neg hin, splice_of_le (by omega), splice, if_neg hx,
        List.getElem?_append_right (by omega), hsub]

end EmevBsp

/-!
# Texts written over one another

A text is written from a place on, one element after the other; and several texts are written one
after another, each over what was there.  At each place stands what the last text that covers it has
there.

* `write_of_covered`, `write_of_not_covered`: one text.
* `writeAll_last`: **the last text that covers a place**.
-/

namespace EmevBsp
namespace Painting

variable {β : Type*}

/-- A text written from a place on. -/
def write (mem : ℕ → β) (pos : ℕ) : List β → ℕ → β
  | [] => mem
  | b :: bs => write (Function.update mem pos b) (pos + 1) bs

/-- A text covers a place. -/
def Covers (w : ℕ × List β) (x : ℕ) : Prop := w.1 ≤ x ∧ x < w.1 + w.2.length

variable {mem : ℕ → β} {pos x : ℕ} {bs : List β}

theorem write_of_not_covered (h : ¬ Covers (pos, bs) x) : write mem pos bs x = mem x := by
  induction bs generalizing mem pos with
  | nil => rfl
  | cons b bs ih =>
    have hne : x ≠ pos := by
      rintro rfl
      exact h ⟨Nat.le_refl _, Nat.lt_add_of_pos_right (Nat.succ_pos _)⟩
    rw [write, ih, Function.update_of_ne hne]
    rintro ⟨hle, hlt⟩
    refine h ⟨Nat.le_of_succ_le hle, ?_⟩
    rw [List.length_cons]
    dsimp only at hlt
    omega

theorem write_of_covered (h : Covers (pos, bs) x) : some (write mem pos bs x) = bs[x - pos]? := by
  induction bs generalizing mem pos with
  | nil => exact absurd h.2 (Nat.not_lt_of_le h.1)
  | cons b bs ih =>
    obtain ⟨hle, hlt⟩ := h
    dsimp only at hle hlt
    rw [List.length_cons] at hlt
    rw [write]
    rcases Nat.eq_or_lt_of_le hle with rfl | hlt'
    · rw [write_of_not_covered fun hcov => Nat.not_succ_le_self _ hcov.1, Function.update_self,
        Nat.sub_self]
      rfl
    · have hsub : x - pos = x - (pos + 1) + 1 := by omega
      rw [ih ⟨hlt', by dsimp only; omega⟩, hsub, List.getElem?_cons_succ]

/-- Texts written one after another. -/
def writeAll (mem : ℕ → β) (ws : List (ℕ × List β)) : ℕ → β :=
  ws.foldl (fun mem w => write mem w.1 w.2) mem

theorem writeAll_of_not_covered {ws : List (ℕ × List β)} (h : ∀ w ∈ ws, ¬ Covers w x) :
    writeAll mem ws x = mem x := by
  induction ws generalizing mem with
  | nil => rfl
  | cons w ws ih =>
    obtain ⟨hw, hws⟩ := List.forall_mem_cons.mp h
    exact (ih hws).trans (write_of_not_covered hw)

theorem writeAll_last {before after : List (ℕ × List β)} {w : ℕ × List β} (hw : Covers w x)
    (hafter : ∀ w' ∈ after, ¬ Covers w' x) :
    some (writeAll mem (before ++ w :: after) x) = w.2[x - w.1]? := by
  rw [writeAll, List.foldl_append, List.foldl_cons]
  show some (writeAll (write _ w.1 w.2) after x) = _
  rw [writeAll_of_not_covered hafter, write_of_covered hw]

end Painting
end EmevBsp
