import Mathlib.Data.Set.Lattice
import Mathlib.Order.CompletePartialOrder
import Mathlib.Order.Interval.Set.LinearOrder

/-!
# Lists of intervals

A table of address ranges is a list of half-open intervals over a linear order.  What it
stands for is the set of points it covers; that it is kept well means that no interval is
empty and each one ends strictly before the next begins, so two neighbours never touch.

An update of such a table replaces a stretch of it, so every list here is written as a
prefix, the stretch and a suffix.

* `cover_append`, `cover_cons`: the cover of a list in parts.
* `cover_carve`: taking points out of one interval takes them out of the cover, because no
  other interval holds them.
* `Separated.replace`: a stretch may be replaced by a separated one that keeps clear of what
  stands before and after it.
* `Separated.le_or_le`: an interval that shares no point with the cover lies on one side of
  every interval of the list.
-/

namespace EmevBsp
namespace IntervalList

variable {ι : Type*} {α : Type*} [LinearOrder α] (lo hi : ι → α)

/-- The points of the intervals of a list. -/
def cover (l : List ι) : Set α :=
  {a | ∃ x ∈ l, lo x ≤ a ∧ a < hi x}

/-- No interval is empty and each ends before the next begins. -/
structure Separated (l : List ι) : Prop where
  lt : ∀ x ∈ l, lo x < hi x
  gaps : l.Pairwise fun x y => hi x < lo y

variable {lo hi}

/-! ## The cover -/

theorem mem_cover {l : List ι} {a : α} : a ∈ cover lo hi l ↔ ∃ x ∈ l, lo x ≤ a ∧ a < hi x :=
  Iff.rfl

@[simp] theorem cover_nil : cover lo hi [] = ∅ := by
  ext a
  simp [mem_cover]

@[simp] theorem cover_cons (x : ι) (l : List ι) :
    cover lo hi (x :: l) = Set.Ico (lo x) (hi x) ∪ cover lo hi l := by
  ext a
  simp [mem_cover]

@[simp] theorem cover_append (l r : List ι) :
    cover lo hi (l ++ r) = cover lo hi l ∪ cover lo hi r := by
  ext a
  simp only [mem_cover, List.mem_append, Set.mem_union]
  constructor
  · rintro ⟨x, hx | hx, hax⟩
    · exact Or.inl ⟨x, hx, hax⟩
    · exact Or.inr ⟨x, hx, hax⟩
  · rintro (⟨x, hx, hax⟩ | ⟨x, hx, hax⟩)
    · exact ⟨x, Or.inl hx, hax⟩
    · exact ⟨x, Or.inr hx, hax⟩

/-! ## Separated lists -/

theorem separated_nil : Separated lo hi [] :=
  ⟨by simp, List.Pairwise.nil⟩

theorem separated_singleton {x : ι} (h : lo x < hi x) : Separated lo hi [x] :=
  ⟨by simpa using h, List.pairwise_singleton _ _⟩

theorem separated_append {l r : List ι} :
    Separated lo hi (l ++ r) ↔
      Separated lo hi l ∧ Separated lo hi r ∧ ∀ x ∈ l, ∀ y ∈ r, hi x < lo y := by
  constructor
  · rintro ⟨hlt, hgaps⟩
    obtain ⟨hl, hr, hlr⟩ := List.pairwise_append.mp hgaps
    exact ⟨⟨fun x hx => hlt x (List.mem_append_left r hx), hl⟩,
      ⟨fun x hx => hlt x (List.mem_append_right l hx), hr⟩, hlr⟩
  · rintro ⟨hl, hr, hlr⟩
    refine ⟨fun x hx => ?_, List.pairwise_append.mpr ⟨hl.gaps, hr.gaps, hlr⟩⟩
    rcases List.mem_append.mp hx with hx | hx
    · exact hl.lt x hx
    · exact hr.lt x hx

theorem separated_cons {x : ι} {l : List ι} :
    Separated lo hi (x :: l) ↔ lo x < hi x ∧ (∀ y ∈ l, hi x < lo y) ∧ Separated lo hi l := by
  constructor
  · rintro ⟨hlt, hgaps⟩
    obtain ⟨hx, hl⟩ := List.pairwise_cons.mp hgaps
    exact ⟨hlt x List.mem_cons_self, hx, fun y hy => hlt y (List.mem_cons_of_mem x hy), hl⟩
  · rintro ⟨hx, hxl, hl⟩
    refine ⟨fun y hy => ?_, List.pairwise_cons.mpr ⟨hxl, hl.gaps⟩⟩
    rcases List.mem_cons.mp hy with rfl | hy
    · exact hx
    · exact hl.lt y hy

theorem Separated.replace {l m n r : List ι} (h : Separated lo hi (l ++ (m ++ r)))
    (hn : Separated lo hi n) (hln : ∀ x ∈ l, ∀ y ∈ n, hi x < lo y)
    (hnr : ∀ x ∈ n, ∀ y ∈ r, hi x < lo y) : Separated lo hi (l ++ (n ++ r)) := by
  obtain ⟨hl, hmr, hlmr⟩ := separated_append.mp h
  obtain ⟨-, hr, -⟩ := separated_append.mp hmr
  refine separated_append.mpr ⟨hl, separated_append.mpr ⟨hn, hr, hnr⟩, fun x hx y hy => ?_⟩
  rcases List.mem_append.mp hy with hy | hy
  · exact hln x hx y hy
  · exact hlmr x hx y (List.mem_append_right m hy)

theorem Separated.insert {l r : List ι} {x : ι} (h : Separated lo hi (l ++ r))
    (hx : lo x < hi x) (hl : ∀ y ∈ l, hi y < lo x) (hr : ∀ y ∈ r, hi x < lo y) :
    Separated lo hi (l ++ x :: r) := by
  refine h.replace (m := []) (n := [x]) (separated_singleton hx) (fun y hy z hz => ?_)
    fun y hy z hz => ?_
  · rw [List.mem_singleton.mp hz]
    exact hl y hy
  · rw [List.mem_singleton.mp hy]
    exact hr z hz

theorem Separated.erase {l r : List ι} {x : ι} (h : Separated lo hi (l ++ x :: r)) :
    Separated lo hi (l ++ r) :=
  h.replace (m := [x]) (n := []) separated_nil (by simp) (by simp)

theorem Separated.le_or_le {l : List ι} (h : Separated lo hi l) {a b : α} (hab : a < b)
    (hdisj : Disjoint (Set.Ico a b) (cover lo hi l)) {x : ι} (hx : x ∈ l) :
    hi x ≤ a ∨ b ≤ lo x := by
  by_contra hcon
  obtain ⟨hax, hxb⟩ := not_or.mp hcon
  have hmem : max a (lo x) ∈ Set.Ico a b :=
    ⟨le_max_left _ _, max_lt hab (not_le.mp hxb)⟩
  have hcover : max a (lo x) ∈ cover lo hi l :=
    ⟨x, hx, le_max_right _ _, max_lt (not_le.mp hax) (h.lt x hx)⟩
  exact Set.disjoint_left.mp hdisj hmem hcover

theorem Separated.eq_of_mem {l : List ι} (h : Separated lo hi l) {x y : ι} (hx : x ∈ l)
    (hy : y ∈ l) {a : α} (hax : a ∈ Set.Ico (lo x) (hi x)) (hay : a ∈ Set.Ico (lo y) (hi y)) :
    x = y := by
  induction l with
  | nil => exact absurd hx List.not_mem_nil
  | cons z l ih =>
    obtain ⟨-, hzl, hl⟩ := separated_cons.mp h
    rcases List.mem_cons.mp hx with rfl | hxl
    · rcases List.mem_cons.mp hy with rfl | hyl
      · rfl
      · exact absurd (hax.2.trans (hzl y hyl)) (not_lt.mpr hay.1)
    · rcases List.mem_cons.mp hy with rfl | hyl
      · exact absurd (hay.2.trans (hzl x hxl)) (not_lt.mpr hax.1)
      · exact ih hl hxl hyl

theorem Separated.lo_le_getLast {l : List ι} (h : Separated lo hi l) {x y : ι}
    (hlast : l.getLast? = some y) (hx : x ∈ l) : lo x ≤ lo y := by
  obtain ⟨m, rfl⟩ := List.getLast?_eq_some_iff.mp hlast
  obtain ⟨hm, -, hmy⟩ := separated_append.mp h
  rcases List.mem_append.mp hx with hx | hx
  · exact ((hm.lt x hx).trans (hmy x hx y List.mem_cons_self)).le
  · rw [List.mem_singleton.mp hx]

theorem cover_carve {l m r : List ι} {x : ι} (h : Separated lo hi (l ++ x :: r)) {s : Set α}
    (hs : s ⊆ Set.Ico (lo x) (hi x)) (hm : cover lo hi m = Set.Ico (lo x) (hi x) \ s) :
    cover lo hi (l ++ (m ++ r)) = cover lo hi (l ++ x :: r) \ s := by
  obtain ⟨hl, hxr, hlx⟩ := separated_append.mp h
  obtain ⟨hx, hxr, -⟩ := separated_cons.mp hxr
  have hdisjl : Disjoint (cover lo hi l) s := by
    refine Set.disjoint_left.mpr fun a ⟨y, hy, hya⟩ has => ?_
    exact absurd (hya.2.trans (hlx y hy x List.mem_cons_self)) (not_lt.mpr (hs has).1)
  have hdisjr : Disjoint (cover lo hi r) s := by
    refine Set.disjoint_left.mpr fun a ⟨y, hy, hya⟩ has => ?_
    exact absurd ((hs has).2.trans (hxr y hy)) (not_lt.mpr hya.1)
  simp only [cover_append, cover_cons, hm, Set.union_sdiff_distrib, hdisjl.sdiff_eq_left,
    hdisjr.sdiff_eq_left]

theorem sdiff_Ico_union_Ico {s : Set α} {a b c : α} (hab : a ≤ b) (hbc : b ≤ c)
    (hs : Set.Ico b c ⊆ s) : s \ Set.Ico a c ∪ Set.Ico b c = s \ Set.Ico a b := by
  have hsplit : Set.Ico a c = Set.Ico a b ∪ Set.Ico b c :=
    (Set.Ico_union_Ico_eq_Ico hab hbc).symm
  ext x
  constructor
  · rintro (⟨hx, hxac⟩ | hx)
    · exact ⟨hx, fun hxab => hxac (hsplit ▸ Or.inl hxab)⟩
    · exact ⟨hs hx, fun hxab => absurd hxab.2 (not_lt.mpr hx.1)⟩
  · rintro ⟨hx, hxab⟩
    by_cases hxbc : x ∈ Set.Ico b c
    · exact Or.inr hxbc
    · refine Or.inl ⟨hx, fun hxac => ?_⟩
      rw [hsplit] at hxac
      exact hxac.elim hxab hxbc

end IntervalList
end EmevBsp
