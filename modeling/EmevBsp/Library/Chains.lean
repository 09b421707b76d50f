import Mathlib.Data.Finite.Prod
import Mathlib.Data.Fintype.Card
import Mathlib.Data.List.Basic
import Mathlib.Logic.Relation

/-!
# Chains with an end, and walks that run in circles

A linked structure is followed from a node by links until a node that ends it.  `Chain R E a l`
says that the nodes of `l` are those from `a` on: `R` is the relation between a node and the next
one, and `E` holds of the last one.  A chain is finite, so a structure that runs in a circle has
none.

A recursion that goes from a node to all those that a relation leads to ends exactly when the node
is accessible against the relation.  With finitely many nodes the only way not to end is to come
back to a node.  A node may carry more than its way depends on, such as a counter, and then there
are infinitely many.

* `Chain.eq_of_agree`: two notions of links that agree give the same nodes.
* `Chain.prefix_or_prefix`: of two chains that may end anywhere one goes on where the other ends.
* `Chain.imp_of_mem`: a chain for other links that hold along it.
* `acc_flip_iff`: **a walk over finitely many nodes ends**, unless it runs in circles.
* `acc_flip_map_iff`: the same through a map that forgets what does not matter.
-/

namespace EmevBsp

section Chain

variable {α : Type*} {R S : α → α → Prop} {E F : α → Prop} {P : α → Prop} {a : α} {l l' : List α}

/-- The nodes from one on, up to the end. -/
inductive Chain (R : α → α → Prop) (E : α → Prop) : α → List α → Prop
  | last {a : α} : E a → Chain R E a [a]
  | link {a b : α} {l : List α} : R a b → Chain R E b l → Chain R E a (a :: l)

theorem Chain.length_pos (h : Chain R E a l) : 0 < l.length := by
  cases h with
  | last _ => exact Nat.one_pos
  | link _ _ => exact Nat.succ_pos _

theorem Chain.head_mem (h : Chain R E a l) : a ∈ l := by
  cases h with
  | last _ => exact List.mem_singleton_self a
  | link _ _ => exact List.mem_cons_self

theorem Chain.eq_of_agree (hlink : ∀ a b c, R a b → S a c → b = c) (hend : ∀ a b, R a b → ¬ F a)
    (hend' : ∀ a c, E a → ¬ S a c) (h : Chain R E a l) (h' : Chain S F a l') : l = l' := by
  induction h generalizing l' with
  | last he =>
    cases h' with
    | last _ => rfl
    | link hs _ => exact absurd hs (hend' _ _ he)
  | link hr _ ih =>
    cases h' with
    | last hf => exact absurd hf (hend _ _ hr)
    | link hs h' =>
      obtain rfl := hlink _ _ _ hr hs
      rw [ih h']

theorem Chain.prefix_or_prefix (hlink : ∀ a b c, R a b → R a c → b = c) (h : Chain R E a l)
    (h' : Chain R F a l') : l <+: l' ∨ l' <+: l := by
  induction h generalizing l' with
  | last _ =>
    cases h' with
    | last _ => exact Or.inl (List.prefix_refl _)
    | link _ _ => exact Or.inl (List.cons_prefix_cons.mpr ⟨rfl, List.nil_prefix⟩)
  | link hr _ ih =>
    cases h' with
    | last _ => exact Or.inr (List.cons_prefix_cons.mpr ⟨rfl, List.nil_prefix⟩)
    | link hr' h' =>
      obtain rfl := hlink _ _ _ hr hr'
      exact (ih h').imp (fun h => List.cons_prefix_cons.mpr ⟨rfl, h⟩)
        fun h => List.cons_prefix_cons.mpr ⟨rfl, h⟩

theorem Chain.imp_of_mem (h : Chain R E a l) (hlink : ∀ c ∈ l, ∀ b ∈ l, R c b → S c b)
    (hend : ∀ c ∈ l, E c → F c) : Chain S F a l := by
  induction h with
  | last he => exact .last (hend _ (List.mem_singleton_self _) he)
  | link hr h ih =>
    refine .link (hlink _ List.mem_cons_self _ (List.mem_cons_of_mem _ h.head_mem) hr)
      (ih (fun c hc b hb => ?_) fun c hc => ?_)
    · exact hlink c (List.mem_cons_of_mem _ hc) b (List.mem_cons_of_mem _ hb)
    · exact hend c (List.mem_cons_of_mem _ hc)

theorem Chain.forall_mem (hlink : ∀ c b, R c b → P c) (hend : ∀ c, E c → P c)
    (h : Chain R E a l) : ∀ c ∈ l, P c := by
  induction h with
  | last he =>
    intro c hc
    rw [List.mem_singleton.mp hc]
    exact hend _ he
  | link hr _ ih =>
    intro c hc
    rcases List.mem_cons.mp hc with rfl | hc
    · exact hlink _ _ hr
    · exact ih c hc

end Chain

/-! ## Walks that run in circles -/

section RunsInCircles

open Relation

variable {α β : Type*} {r : α → α → Prop} {s : β → β → Prop} {a : α}

/-- A node is reached that is reached from itself. -/
def RunsInCircles (r : α → α → Prop) (a : α) : Prop :=
  ∃ b, ReflTransGen r a b ∧ TransGen r b b

theorem acc_of_reflTransGen {b : α} (h : Acc (flip r) a) (hwalk : ReflTransGen r a b) :
    Acc (flip r) b := by
  induction hwalk with
  | refl => exact h
  | tail _ hlast ih => exact ih.inv hlast

theorem not_transGen_of_acc (h : Acc (flip r) a) : ¬ TransGen r a a := by
  have hirrefl : ∀ b, Acc (TransGen (flip r)) b → ¬ TransGen (flip r) b b := by
    intro b hb
    induction hb with
    | intro b _ ih => exact fun hcircle => ih b hcircle hcircle
  exact fun hcircle => hirrefl a h.transGen (transGen_swap.mp hcircle)

theorem acc_flip_iff [Finite α] : Acc (flip r) a ↔ ¬ RunsInCircles r a := by
  constructor
  · rintro h ⟨b, hwalk, hcircle⟩
    exact not_transGen_of_acc (acc_of_reflTransGen h hwalk) hcircle
  · intro h
    -- among the nodes that are reached the relation has no circles
    let Reached := { b // ReflTransGen r a b }
    let back : Reached → Reached → Prop := fun b c => TransGen r c.1 b.1
    have htrans : IsTrans Reached back := ⟨fun _ _ _ hbc hcd => hcd.trans hbc⟩
    have hfinite : Finite Reached := inferInstanceAs (Finite { b // ReflTransGen r a b })
    have hirrefl : Std.Irrefl back := ⟨fun b hb => h ⟨b.1, b.2, hb⟩⟩
    have hwf : WellFounded back := Finite.wellFounded_of_trans_of_irrefl back
    have hacc : ∀ b : Reached, Acc (flip r) b.1 := by
      intro b
      induction hwf.apply b with
      | intro b _ ih =>
        exact Acc.intro b.1 fun c hc => ih ⟨c, b.2.tail hc⟩ (TransGen.single hc)
    exact hacc ⟨a, ReflTransGen.refl⟩

theorem acc_flip_map_iff {f : α → β} (hmap : ∀ {a a'}, r a a' → s (f a) (f a'))
    (hlift : ∀ {a b}, s (f a) b → ∃ a', r a a' ∧ f a' = b) :
    Acc (flip r) a ↔ Acc (flip s) (f a) := by
  constructor
  · intro h
    induction h with
    | intro a _ ih =>
      refine Acc.intro (f a) fun b hb => ?_
      obtain ⟨a', ha', rfl⟩ := hlift hb
      exact ih a' ha'
  · intro h
    have hinv : Acc (InvImage (flip s) f) a := InvImage.accessible f h
    exact Subrelation.accessible (fun hr => hmap hr) hinv

end RunsInCircles

end EmevBsp
