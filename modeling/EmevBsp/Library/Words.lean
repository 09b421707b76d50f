import Mathlib.Data.List.TakeWhile
import Mathlib.Tactic.Common

/-!
# The words of a text

The words of a text are its longest stretches without a separator: split the text at every
separator and leave the empty pieces out.  A scanner finds them one after the other, by passing
over separators, taking what follows up to the next one and going on behind it; these three moves
are the rules here.

* `words_append_sep`: at a separator the words of the two sides follow each other.
* `words_dropWhile`: separators in front do not count.
* `words_cons`: the first word of a text that does not begin with a separator.
* `words_append`: the last word of a text that does not end in one.
* `mem_of_mem_words`: what is in a word is in the text.
-/

namespace EmevBsp
namespace Words

variable {α : Type*} {p : α → Bool}

/-- The words of a text, with the separators `p`. -/
def words (p : α → Bool) (l : List α) : List (List α) :=
  (l.splitOnP p).filter fun w => !w.isEmpty

@[simp] theorem words_nil : words p [] = [] := by
  simp [words]

theorem words_append_sep {s : α} (hs : p s = true) (l r : List α) :
    words p (l ++ s :: r) = words p l ++ words p r := by
  rw [words, List.splitOnP_append_cons l r hs, List.filter_append, words, words]

theorem words_cons_sep {s : α} (hs : p s = true) (r : List α) : words p (s :: r) = words p r :=
  words_append_sep hs [] r

theorem words_of_forall {w : List α} (hw : ∀ x ∈ w, p x = false) (hne : w ≠ []) :
    words p w = [w] := by
  rw [words, List.splitOnP_eq_singleton hw]
  simp [hne]

theorem words_dropWhile (l : List α) : words p (l.dropWhile p) = words p l := by
  induction l with
  | nil => rfl
  | cons x l ih =>
    by_cases hx : p x = true
    · rw [List.dropWhile_cons_of_pos hx, words_cons_sep hx, ih]
    · rw [List.dropWhile_cons_of_neg hx]

theorem dropWhile_not_eq {l : List α} :
    l.dropWhile (fun x => !p x) = [] ∨
      ∃ s r, p s = true ∧ l.dropWhile (fun x => !p x) = s :: r := by
  cases hrest : l.dropWhile (fun x => !p x) with
  | nil => exact Or.inl rfl
  | cons s r =>
    have hhead := List.head_dropWhile_not (fun x => !p x) (l := l) (by rw [hrest]; simp)
    simp only [hrest, List.head_cons, Bool.not_eq_eq_eq_not, Bool.not_false] at hhead
    exact Or.inr ⟨s, r, hhead, rfl⟩

theorem words_cons {x : α} {l : List α} (hx : p x = false) :
    words p (x :: l) = (x :: l).takeWhile (fun y => !p y) ::
      words p ((x :: l).dropWhile fun y => !p y) := by
  have hword : ∀ y ∈ (x :: l).takeWhile (fun y => !p y), p y = false := by
    intro y hy
    simpa using List.mem_takeWhile_imp hy
  have hne : (x :: l).takeWhile (fun y => !p y) ≠ [] := by
    rw [List.takeWhile_cons_of_pos (by simp [hx])]
    exact List.cons_ne_nil _ _
  conv_lhs => rw [← List.takeWhile_append_dropWhile (p := fun y => !p y) (l := x :: l)]
  rcases dropWhile_not_eq (p := p) (l := x :: l) with hrest | ⟨s, r, hs, hrest⟩
  · rw [hrest, List.append_nil, words_of_forall hword hne, words_nil]
  · rw [hrest, words_append_sep hs, words_of_forall hword hne, words_cons_sep hs,
      List.singleton_append]

theorem words_append {l w : List α} (hl : ∀ h : l ≠ [], p (l.getLast h) = true)
    (hw : ∀ x ∈ w, p x = false) (hne : w ≠ []) : words p (l ++ w) = words p l ++ [w] := by
  rcases List.eq_nil_or_concat l with rfl | ⟨front, s, rfl⟩
  · rw [List.nil_append, words_of_forall hw hne, words_nil, List.nil_append]
  · have hs : p s = true := by simpa using hl (by simp)
    rw [List.concat_eq_append, List.append_assoc, List.singleton_append, words_append_sep hs,
      words_append_sep hs, words_of_forall hw hne, words_nil, List.append_nil]

theorem forall_of_words_eq_nil {l : List α} (h : words p l = []) : ∀ x ∈ l, p x = true := by
  induction l with
  | nil => exact fun x hx => absurd hx List.not_mem_nil
  | cons y l ih =>
    by_cases hy : p y = true
    · rw [words_cons_sep hy] at h
      exact List.forall_mem_cons.mpr ⟨hy, ih h⟩
    · rw [words_cons (Bool.not_eq_true _ ▸ hy)] at h
      exact absurd h (List.cons_ne_nil _ _)

theorem mem_of_mem_splitOnP {l w : List α} (hw : w ∈ l.splitOnP p) : ∀ x ∈ w, x ∈ l := by
  induction l generalizing w with
  | nil =>
    rw [List.splitOnP_nil, List.mem_singleton] at hw
    exact hw ▸ fun x hx => hx
  | cons y l ih =>
    rw [List.splitOnP_cons_eq_if_modifyHead] at hw
    split_ifs at hw
    · rcases List.mem_cons.mp hw with rfl | hw
      · exact fun x hx => absurd hx List.not_mem_nil
      · exact fun x hx => List.mem_cons_of_mem y (ih hw x hx)
    · cases hsplit : l.splitOnP p with
      | nil => exact absurd hsplit (List.splitOnP_ne_nil p l)
      | cons v ws =>
        rw [hsplit] at hw
        rcases List.mem_cons.mp hw with rfl | hw
        · intro x hx
          rcases List.mem_cons.mp hx with rfl | hx
          · exact List.mem_cons_self
          · exact List.mem_cons_of_mem y (ih (hsplit ▸ List.mem_cons_self) x hx)
        · exact fun x hx => List.mem_cons_of_mem y (ih (hsplit ▸ List.mem_cons_of_mem v hw) x hx)

theorem mem_of_mem_words {l w : List α} (hw : w ∈ words p l) : ∀ x ∈ w, x ∈ l :=
  mem_of_mem_splitOnP (List.mem_filter.mp hw).1

theorem ne_nil_of_mem_words {l w : List α} (hw : w ∈ words p l) : w ≠ [] := by
  have hne := (List.mem_filter.mp hw).2
  rw [Bool.not_eq_true', List.isEmpty_eq_false_iff] at hne
  exact hne

end Words
end EmevBsp
