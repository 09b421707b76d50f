import Mathlib.Data.List.Nodup
import Mathlib.Tactic.Common
import Mathlib.Data.List.Basic
import Mathlib.Order.Basic

/-!
# Ordered finite maps

A finite map that remembers the order in which its keys were last set: a list of pairs with
distinct keys, the distinctness being part of the type.  Setting a key removes its old pair
and adds the new one at the end, so a key that is set again moves to the back and every other
pair keeps its place.

* `lookup_set_self`, `lookup_erase_self`, `lookup_erase_of_ne`: what the
  operations do to the values.
* `erase_set`: setting a key leaves the other pairs, in their order, as they were.
* `exists_split_of_lookup`: where a key stands, and what erasing it leaves.
-/

namespace EmevBsp

universe u v

/-- A list of pairs with distinct keys. -/
structure OrderedMap (K : Type u) (V : Type v) where
  entries : List (K × V)
  nodup : (entries.map Prod.fst).Nodup

namespace OrderedMap

variable {K : Type u} {V : Type v} [DecidableEq K]

omit [DecidableEq K] in
@[ext] theorem ext {m m' : OrderedMap K V} (h : m.entries = m'.entries) : m = m' := by
  cases m; cases m'; simp_all

/-- The map without pairs. -/
def empty : OrderedMap K V := ⟨[], List.nodup_nil⟩

/-- The value of a key. -/
def lookup (m : OrderedMap K V) (k : K) : Option V :=
  (m.entries.find? fun e => e.1 = k).map Prod.snd

/-- Remove a key. -/
def erase (m : OrderedMap K V) (k : K) : OrderedMap K V where
  entries := m.entries.filter fun e => e.1 ≠ k
  nodup := (List.filter_sublist.map Prod.fst).nodup m.nodup

theorem notMem_keys_erase (m : OrderedMap K V) (k : K) :
    k ∉ (m.erase k).entries.map Prod.fst := by
  intro hk
  obtain ⟨e, he, rfl⟩ := List.mem_map.mp hk
  simpa [erase] using (List.mem_filter.mp he).2

/-- Set a key: its pair goes to the end. -/
def set (m : OrderedMap K V) (k : K) (v : V) : OrderedMap K V where
  entries := (m.erase k).entries ++ [(k, v)]
  nodup := by
    rw [List.map_append, List.nodup_append]
    refine ⟨(m.erase k).nodup, List.nodup_singleton k, ?_⟩
    intro a ha b hb
    have hbk : b = k := by simpa using hb
    rintro rfl
    rw [hbk] at ha
    exact notMem_keys_erase m k ha

/-! ## Values -/

@[simp] theorem lookup_erase_self (m : OrderedMap K V) (k : K) : (m.erase k).lookup k = none := by
  rw [lookup, Option.map_eq_none_iff, List.find?_eq_none]
  intro e he
  have hne := (List.mem_filter.mp he).2
  simpa using hne

theorem lookup_erase_of_ne (m : OrderedMap K V) {k k' : K} (h : k' ≠ k) :
    (m.erase k).lookup k' = m.lookup k' := by
  rw [lookup, lookup, erase, List.find?_filter]
  congr 2
  funext e
  by_cases he : e.1 = k'
  · simp [he, h]
  · simp [he]

@[simp] theorem lookup_set_self (m : OrderedMap K V) (k : K) (v : V) :
    (m.set k v).lookup k = some v := by
  have hnone : (m.erase k).entries.find? (fun e => e.1 = k) = none := by
    have h := lookup_erase_self m k
    rwa [lookup, Option.map_eq_none_iff] at h
  rw [lookup, set, List.find?_append, hnone]
  simp

theorem erase_set (m : OrderedMap K V) (k : K) (v : V) : (m.set k v).erase k = m.erase k := by
  apply ext
  simp [erase, set, List.filter_append, List.filter_filter]

theorem erase_eq_self {m : OrderedMap K V} {k : K} (h : m.lookup k = none) : m.erase k = m := by
  rw [lookup, Option.map_eq_none_iff, List.find?_eq_none] at h
  apply ext
  exact List.filter_eq_self.mpr fun e he => by simpa using h e he

/-! ## Where a key stands -/

omit [DecidableEq K] in
theorem mem_keys_of_split {m : OrderedMap K V} {l r : List (K × V)} {k : K} {v : V}
    (h : m.entries = l ++ (k, v) :: r) : (∀ e ∈ l, e.1 ≠ k) ∧ ∀ e ∈ r, e.1 ≠ k := by
  have hnodup := m.nodup
  rw [h, List.map_append, List.map_cons, List.nodup_append, List.nodup_cons] at hnodup
  obtain ⟨-, ⟨hr, -⟩, hl⟩ := hnodup
  refine ⟨fun e he hek => ?_, fun e he hek => hr ?_⟩
  · exact hl e.1 (List.mem_map_of_mem he) k List.mem_cons_self hek
  · exact List.mem_map.mpr ⟨e, he, hek⟩

theorem entries_erase_of_split {m : OrderedMap K V} {l r : List (K × V)} {k : K} {v : V}
    (h : m.entries = l ++ (k, v) :: r) : (m.erase k).entries = l ++ r := by
  obtain ⟨hl, hr⟩ := mem_keys_of_split h
  show m.entries.filter (fun e => decide (e.1 ≠ k)) = l ++ r
  rw [h, List.filter_append, List.filter_cons]
  have hl' : l.filter (fun e => decide (e.1 ≠ k)) = l :=
    List.filter_eq_self.mpr fun e he => by simpa using hl e he
  have hr' : r.filter (fun e => decide (e.1 ≠ k)) = r :=
    List.filter_eq_self.mpr fun e he => by simpa using hr e he
  rw [hl', hr']
  simp

theorem lookup_of_split {m : OrderedMap K V} {l r : List (K × V)} {k : K} {v : V}
    (h : m.entries = l ++ (k, v) :: r) : m.lookup k = some v := by
  have hl : l.find? (fun e => decide (e.1 = k)) = none :=
    List.find?_eq_none.mpr fun e he => by simpa using (mem_keys_of_split h).1 e he
  rw [lookup, h, List.find?_append, hl]
  simp

theorem exists_split_of_lookup {m : OrderedMap K V} {k : K} {v : V} (h : m.lookup k = some v) :
    ∃ l r, m.entries = l ++ (k, v) :: r := by
  obtain ⟨e, he, rfl⟩ := Option.map_eq_some_iff.mp h
  have hk : e.1 = k := by simpa using List.find?_some he
  obtain ⟨l, r, hlr⟩ := List.append_of_mem (List.mem_of_find?_eq_some he)
  exact ⟨l, r, by rw [hlr, ← hk]⟩

theorem ne_of_lookup_eq_none {m : OrderedMap K V} {k : K} (h : m.lookup k = none) :
    ∀ e ∈ m.entries, e.1 ≠ k := by
  rw [lookup, Option.map_eq_none_iff, List.find?_eq_none] at h
  exact fun e he => by simpa using h e he

end OrderedMap
end EmevBsp

/-!
# Lists in the order of a key

Elements of one key form a group.  A list in the order of its keys is known from its groups, so two
such lists with the same groups are the same, and a list whose groups are turned around is the list
itself just when each group reads the same backwards.

* `perm_of_group_perm`: lists with the same groups, up to order, are the same up to order.
* `eq_of_group_eq`: **a list in order is determined by its groups**.
* `eq_iff_of_group_reverse`: when turning the groups around changes nothing.
-/

namespace EmevBsp
namespace KeyGroups

variable {α : Type*} {κ : Type*}

/-! ## Groups -/

section Group

variable [DecidableEq κ] (key : α → κ)

/-- The elements of a key. -/
def group (k : κ) (l : List α) : List α := l.filter fun a => key a = k

variable {key}

theorem group_append (k : κ) (l l' : List α) :
    group key k (l ++ l') = group key k l ++ group key k l' :=
  List.filter_append l l'

theorem group_cons_self (a : α) (l : List α) :
    group key (key a) (a :: l) = a :: group key (key a) l :=
  List.filter_cons_of_pos (decide_eq_true rfl)

theorem group_cons_of_ne {k : κ} {a : α} (hne : key a ≠ k) (l : List α) :
    group key k (a :: l) = group key k l :=
  List.filter_cons_of_neg fun h => hne (of_decide_eq_true h)

theorem group_eq_nil {k : κ} {l : List α} (hne : ∀ a ∈ l, key a ≠ k) : group key k l = [] :=
  List.filter_eq_nil_iff.mpr fun a ha h => hne a ha (of_decide_eq_true h)

theorem mem_group {k : κ} {l : List α} {a : α} : a ∈ group key k l ↔ a ∈ l ∧ key a = k := by
  rw [group, List.mem_filter, decide_eq_true_eq]

variable (key) in
theorem count_group [DecidableEq α] (a : α) (l : List α) :
    (group key (key a) l).count a = l.count a := by
  rw [group]
  exact List.count_filter (by simp)

variable (key) in
theorem perm_of_group_perm [DecidableEq α] {l l' : List α}
    (hgroup : ∀ k, (group key k l).Perm (group key k l')) : l.Perm l' := by
  refine List.perm_iff_count.mpr fun a => ?_
  rw [← count_group key a l, (hgroup (key a)).count_eq a, count_group]

end Group

/-! ## Order -/

/-- The keys do not go down. -/
def Ordered [LE κ] (key : α → κ) (l : List α) : Prop := l.Pairwise fun a b => key a ≤ key b

theorem Ordered.head_le [Preorder κ] {key : α → κ} {a : α} {l : List α} (h : Ordered key (a :: l)) :
    ∀ b ∈ a :: l, key a ≤ key b :=
  List.forall_mem_cons.mpr ⟨le_rfl, (List.pairwise_cons.mp h).1⟩

variable [PartialOrder κ] [DecidableEq κ] {key : α → κ}

theorem eq_of_group_eq {l l' : List α} (h : Ordered key l) (h' : Ordered key l')
    (hgroup : ∀ k, group key k l = group key k l') : l = l' := by
  -- a list whose groups are empty is empty
  have hnil : ∀ {a : α} {l : List α}, ¬ ∀ k, group key k (a :: l) = group key k [] := by
    intro a l heq
    have hself := heq (key a)
    rw [group_cons_self] at hself
    exact List.cons_ne_nil _ _ hself
  induction l generalizing l' with
  | nil =>
    cases l' with
    | nil => rfl
    | cons b l' => exact absurd (fun k => (hgroup k).symm) hnil
  | cons a l ih =>
    cases l' with
    | nil => exact absurd hgroup hnil
    | cons b l' =>
      -- the first keys are the smallest ones, and they occur in both lists
      have hab : key a = key b := by
        have ha : a ∈ group key (key a) (b :: l') := by
          rw [← hgroup]
          exact mem_group.mpr ⟨List.mem_cons_self, rfl⟩
        have hb : b ∈ group key (key b) (a :: l) := by
          rw [hgroup]
          exact mem_group.mpr ⟨List.mem_cons_self, rfl⟩
        exact le_antisymm (h.head_le b (mem_group.mp hb).1) (h'.head_le a (mem_group.mp ha).1)
      have hself := hgroup (key a)
      rw [group_cons_self, hab, group_cons_self, ← hab] at hself
      obtain ⟨rfl, htail⟩ := List.cons.inj hself
      rw [ih h.of_cons h'.of_cons fun k => ?_]
      by_cases hk : key a = k
      · rw [← hk]
        exact htail
      · have hother := hgroup k
        rwa [group_cons_of_ne hk, group_cons_of_ne hk] at hother

theorem eq_iff_of_group_reverse {l l' : List α} (h : Ordered key l) (h' : Ordered key l')
    (hgroup : ∀ k, group key k l' = (group key k l).reverse) :
    l' = l ↔ ∀ k, (group key k l).reverse = group key k l := by
  constructor
  · rintro rfl k
    exact (hgroup k).symm
  · intro hreverse
    exact eq_of_group_eq h' h fun k => (hgroup k).trans (hreverse k)

end KeyGroups
end EmevBsp
