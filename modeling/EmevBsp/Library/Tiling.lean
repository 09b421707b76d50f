import Mathlib.Data.List.Pairwise
import Mathlib.Tactic.Common

/-!
# Tilings of an interval

A list of pieces, each with a place and a size, tiles the interval from `a` to `b` when its
pieces are not empty and stand one behind the other without a gap (`Tiles`).  Allocators cut
and join such pieces; every edit is the replacement of a part of the list by another tiling of
the same part (`Tiles.replace`).

* `tiles_append`: a tiling of two adjacent intervals.
* `Tiles.mem_bounds`: the pieces lie in the interval.
-/

namespace EmevBsp

variable {α : Type*} {start size : α → ℕ}

/-- The pieces of `l`, in their order, fill the interval from `a` to `b`. -/
def Tiles (start size : α → ℕ) : ℕ → List α → ℕ → Prop
  | a, [], b => a = b
  | a, c :: l, b => start c = a ∧ 0 < size c ∧ Tiles start size (a + size c) l b

@[simp] theorem tiles_nil {a b : ℕ} : Tiles start size a [] b ↔ a = b := Iff.rfl

@[simp] theorem tiles_cons {a b : ℕ} {c : α} {l : List α} :
    Tiles start size a (c :: l) b ↔
      start c = a ∧ 0 < size c ∧ Tiles start size (a + size c) l b := Iff.rfl

theorem tiles_append {a b : ℕ} {l r : List α} :
    Tiles start size a (l ++ r) b ↔ ∃ m, Tiles start size a l m ∧ Tiles start size m r b := by
  induction l generalizing a with
  | nil => simp
  | cons c l ih =>
    simp only [List.cons_append, tiles_cons, ih]
    constructor
    · rintro ⟨hc, hpos, m, hl, hr⟩
      exact ⟨m, ⟨hc, hpos, hl⟩, hr⟩
    · rintro ⟨m, ⟨hc, hpos, hl⟩, hr⟩
      exact ⟨hc, hpos, m, hl, hr⟩

namespace Tiles

theorem le {a b : ℕ} {l : List α} (h : Tiles start size a l b) : a ≤ b := by
  induction l generalizing a with
  | nil => exact Nat.le_of_eq h
  | cons c l ih =>
    have hrest := ih h.2.2
    omega

theorem of_split {a b : ℕ} {l r : List α} {c : α} (h : Tiles start size a (l ++ c :: r) b) :
    Tiles start size a l (start c) ∧ 0 < size c ∧
      Tiles start size (start c + size c) r b := by
  obtain ⟨m, hl, hm, hpos, hr⟩ := tiles_append.mp h
  subst hm
  exact ⟨hl, hpos, hr⟩

theorem replace {a b : ℕ} {l r p : List α} {c : α} (h : Tiles start size a (l ++ c :: r) b)
    (hp : Tiles start size (start c) p (start c + size c)) :
    Tiles start size a (l ++ (p ++ r)) b := by
  obtain ⟨hl, -, hr⟩ := h.of_split
  exact tiles_append.mpr ⟨_, hl, tiles_append.mpr ⟨_, hp, hr⟩⟩

theorem mem_bounds {a b : ℕ} {l : List α} (h : Tiles start size a l b) {c : α} (hc : c ∈ l) :
    a ≤ start c ∧ 0 < size c ∧ start c + size c ≤ b := by
  obtain ⟨p, r, rfl⟩ := List.append_of_mem hc
  obtain ⟨hp, hpos, hr⟩ := h.of_split
  exact ⟨hp.le, hpos, hr.le⟩

theorem eq_or_disjoint {a b : ℕ} {l : List α} (h : Tiles start size a l b) {c d : α} (hc : c ∈ l)
    (hd : d ∈ l) : c = d ∨ start c + size c ≤ start d ∨ start d + size d ≤ start c := by
  induction l generalizing a with
  | nil => exact absurd hc (by simp)
  | cons e l ih =>
    have htail := h.2.2
    have hstart := h.1
    rcases List.mem_cons.mp hc with rfl | hc'
    · rcases List.mem_cons.mp hd with rfl | hd'
      · exact Or.inl rfl
      · have hbounds := htail.mem_bounds hd'
        omega
    · rcases List.mem_cons.mp hd with rfl | hd'
      · have hbounds := htail.mem_bounds hc'
        omega
      · exact ih htail hc' hd'

end Tiles

end EmevBsp
