import Mathlib.Data.Nat.Notation
import Mathlib.Tactic.Basic
import Mathlib.Tactic.Common

/-!
# Labelled transition systems

A system is a set of initial states and a labelled step relation.  A run is a list of
labels, so what was done in it (which call, with which arguments, which packet) can be
talked about; a reachable state is the end of some run.

* `Reachable.invariant`: a property of the initial states that every step preserves holds
  in every reachable state.  Every run theorem of the development is an instance.
* `restrict`: the system in which only the steps that meet a condition are taken.  A
  defect that one kind of step reaches is stated by the restriction: the property holds in
  every reachable state of `T.restrict ok`, and `reachable_of_restrict` says that these are
  states of `T`.
* `exists_run_of_lt`: a measure that falls brings a run to its end;
  `Reachable.exists_run_to_end`: without choice, every reachable state is on the way there.
* `Simulation`: a relation to the states of a second system that follows every step of the
  first; `Simulation.exists_reachable` carries reachable states across.
* `Run.exists_follow`: where each label of the first stands for labels of the second, a run is
  followed by the run that its labels stand for.
-/

namespace EmevBsp

universe u v w

/-- Initial states and a step relation labelled with what is done in the step. -/
structure TransitionSystem (σ : Type u) (α : Type v) where
  init : σ → Prop
  step : σ → α → σ → Prop

namespace TransitionSystem

variable {σ : Type u} {α : Type v} {τ : Type w}

/-- `T.Run s l t`: the steps labelled by `l`, taken in order, lead from `s` to `t`. -/
inductive Run (T : TransitionSystem σ α) : σ → List α → σ → Prop where
  | nil (s : σ) : Run T s [] s
  | cons {s t r : σ} {a : α} {l : List α} : T.step s a t → Run T t l r → Run T s (a :: l) r

/-- The states some run from an initial state ends in. -/
inductive Reachable (T : TransitionSystem σ α) : σ → Prop where
  | init {s : σ} : T.init s → Reachable T s
  | step {s t : σ} {a : α} : Reachable T s → T.step s a t → Reachable T t

/-- The system that takes only the steps meeting `ok`. -/
def restrict (T : TransitionSystem σ α) (ok : σ → α → Prop) : TransitionSystem σ α where
  init := T.init
  step s a t := ok s a ∧ T.step s a t

variable {T : TransitionSystem σ α}

/-! ## Invariants -/

theorem Reachable.invariant {I : σ → Prop} (hinit : ∀ s, T.init s → I s)
    (hstep : ∀ s a t, I s → T.step s a t → I t) {s : σ} (h : T.Reachable s) : I s := by
  induction h with
  | init hs => exact hinit _ hs
  | step _ hst ih => exact hstep _ _ _ ih hst

theorem Reachable.invariant_restrict {ok : σ → α → Prop} {I : σ → Prop}
    (hinit : ∀ s, T.init s → I s)
    (hstep : ∀ s a t, I s → ok s a → T.step s a t → I t) {s : σ}
    (h : (T.restrict ok).Reachable s) : I s :=
  Reachable.invariant (T := T.restrict ok) hinit
    (fun s a t hs hst => hstep s a t hs hst.1 hst.2) h

theorem reachable_of_restrict {ok : σ → α → Prop} {s : σ}
    (h : (T.restrict ok).Reachable s) : T.Reachable s := by
  induction h with
  | init hs => exact .init hs
  | step _ hst ih => exact .step ih hst.2

/-! ## Runs -/

theorem Run.reachable {s t : σ} {l : List α} (h : T.Run s l t) :
    T.Reachable s → T.Reachable t := by
  induction h with
  | nil s => exact id
  | cons hst _ ih => exact fun hs => ih (.step hs hst)

theorem Run.append {s t r : σ} {l m : List α} (h : T.Run s l t) :
    T.Run t m r → T.Run s (l ++ m) r := by
  induction h with
  | nil s => exact id
  | cons hst _ ih => exact fun hm => .cons hst (ih hm)

theorem Run.single {s t : σ} {a : α} (h : T.step s a t) : T.Run s [a] t :=
  .cons h (.nil t)

theorem Run.invariant {I : σ → Prop} (hstep : ∀ s a t, I s → T.step s a t → I t)
    {s t : σ} {l : List α} (h : T.Run s l t) : I s → I t := by
  induction h with
  | nil s => exact id
  | cons hst _ ih => exact fun hs => ih (hstep _ _ _ hs hst)

theorem Run.history {I : List α → σ → Prop}
    (hstep : ∀ m s a t, I m s → T.step s a t → I (m ++ [a]) t) {s t : σ} {l : List α}
    (h : T.Run s l t) : ∀ m, I m s → I (m ++ l) t := by
  induction h with
  | nil s =>
    intro m hm
    rwa [List.append_nil]
  | cons hst _ ih =>
    intro m hm
    rw [List.append_cons]
    exact ih _ (hstep m _ _ _ hm hst)

theorem exists_run_of_lt {I fin : σ → Prop} (μ : σ → ℕ)
    (hstep : ∀ s, I s → fin s ∨ ∃ a t, T.step s a t ∧ I t ∧ μ t < μ s) (s : σ) (hs : I s) :
    ∃ l t, T.Run s l t ∧ fin t := by
  induction hn : μ s using Nat.strongRecOn generalizing s with
  | ind n ih =>
    obtain hfin | ⟨a, t, hst, ht, hlt⟩ := hstep s hs
    · exact ⟨[], s, .nil s, hfin⟩
    · obtain ⟨l, r, hrun, hr⟩ := ih (μ t) (hn ▸ hlt) t ht rfl
      exact ⟨a :: l, r, .cons hst hrun, hr⟩

theorem Reachable.exists_run_to_end {s e t : σ} {l : List α}
    (hdet : ∀ s a t b u, T.step s a t → T.step s b u → t = u) (hinit : ∀ s', T.init s' → s' = s)
    (hend : ∀ a t, ¬ T.step e a t) (hrun : T.Run s l e) (h : T.Reachable t) :
    ∃ m, T.Run t m e := by
  induction h with
  | init hs => exact ⟨l, hinit _ hs ▸ hrun⟩
  | step _ hst ih =>
    obtain ⟨m, hm⟩ := ih
    cases hm with
    | nil => exact absurd hst (hend _ _)
    | cons hst' hrest => exact ⟨_, hdet _ _ _ _ _ hst' hst ▸ hrest⟩

/-! ## Simulations -/

/-- `R` relates every initial state of `T` to one of `U`, and every step of `T` is followed
by a run of `U` from any related state that `U` reaches. -/
structure Simulation {β : Type*} (T : TransitionSystem σ α) (U : TransitionSystem τ β)
    (R : σ → τ → Prop) : Prop where
  init : ∀ s, T.init s → ∃ u, U.init u ∧ R s u
  step : ∀ s a t u, U.Reachable u → R s u → T.step s a t → ∃ l u', U.Run u l u' ∧ R t u'

theorem Simulation.exists_reachable {β : Type*} {U : TransitionSystem τ β} {R : σ → τ → Prop}
    (hR : Simulation T U R) {s : σ} (h : T.Reachable s) : ∃ u, U.Reachable u ∧ R s u := by
  induction h with
  | init hs =>
    obtain ⟨u, hu, hsu⟩ := hR.init _ hs
    exact ⟨u, .init hu, hsu⟩
  | step _ hst ih =>
    obtain ⟨u, hu, hsu⟩ := ih
    obtain ⟨l, u', hrun, htu⟩ := hR.step _ _ _ _ hu hsu hst
    exact ⟨u', hrun.reachable hu, htu⟩

theorem Run.exists_follow {β : Type*} {U : TransitionSystem τ β} {R : σ → τ → Prop}
    (label : α → List β)
    (hstep : ∀ s a t u, R s u → T.step s a t → ∃ u', U.Run u (label a) u' ∧ R t u')
    {s t : σ} {l : List α} (h : T.Run s l t) :
    ∀ u, R s u → ∃ u', U.Run u (l.flatMap label) u' ∧ R t u' := by
  induction h with
  | nil s => exact fun u hu => ⟨u, .nil u, hu⟩
  | cons hst _ ih =>
    intro u hu
    obtain ⟨v, hrun, hv⟩ := hstep _ _ _ u hu hst
    obtain ⟨u', hrest, hu'⟩ := ih v hv
    exact ⟨u', hrun.append hrest, hu'⟩

end TransitionSystem

end EmevBsp

/-!
# Loops that may fail, or never end

A loop is given by its round: from a state it goes on with another one, leaves the loop with a
result, or fails.  `rounds n` takes at most `n` of them.

* `Ends`: some number of rounds leads out of the loop.
* `ends_of_measure`: **a loop ends** when its rounds keep an invariant and a measure goes down.
* `not_ends_of_invariant`: **a loop that can always go on does not end**.
-/

namespace EmevBsp
namespace Rounds

variable {σ ρ ε : Type*} (round : σ → Except ε (σ ⊕ ρ))

/-- At most `n` rounds from `s` on; `none` when the loop is not over by then. -/
def rounds : ℕ → σ → Option (Except ε ρ)
  | 0, _ => none
  | n + 1, s =>
    match round s with
    | .error e => some (.error e)
    | .ok (.inr r) => some (.ok r)
    | .ok (.inl t) => rounds n t

/-- The loop is left with a result after some rounds. -/
def Ends (s : σ) : Prop := ∃ n r, rounds round n s = some (.ok r)

/-- One round leads from `s` to `t`. -/
def Next (s t : σ) : Prop := round s = .ok (.inl t)

variable {round} {s t : σ} {r : ρ} {e : ε}

theorem ends_of_result (h : round s = .ok (.inr r)) : Ends round s :=
  ⟨1, r, by rw [rounds, h]⟩

theorem not_ends_of_error (h : round s = .error e) : ¬ Ends round s := by
  rintro ⟨n, r, hn⟩
  cases n with
  | zero => cases hn
  | succ n =>
    rw [rounds, h] at hn
    cases hn

theorem ends_iff_of_next (h : Next round s t) : Ends round s ↔ Ends round t := by
  constructor
  · rintro ⟨n, r, hn⟩
    cases n with
    | zero => cases hn
    | succ n =>
      rw [rounds, h] at hn
      exact ⟨n, r, hn⟩
  · rintro ⟨n, r, hn⟩
    exact ⟨n + 1, r, by rw [rounds, h]; exact hn⟩

theorem not_ends_of_invariant {I : σ → Prop} (hstep : ∀ s, I s → ∃ t, Next round s t ∧ I t)
    (hs : I s) : ¬ Ends round s := by
  rintro ⟨n, r, hn⟩
  induction n generalizing s with
  | zero => cases hn
  | succ n ih =>
    obtain ⟨t, hnext, ht⟩ := hstep s hs
    rw [rounds, hnext] at hn
    exact ih ht hn

theorem ends_of_measure {I : σ → Prop} (μ : σ → ℕ)
    (hstep : ∀ s, I s → (∃ r, round s = .ok (.inr r)) ∨ ∃ t, Next round s t ∧ I t ∧ μ t < μ s)
    (hs : I s) : Ends round s := by
  induction hμ : μ s using Nat.strongRecOn generalizing s with
  | ind m ih =>
    rcases hstep s hs with ⟨r, hr⟩ | ⟨t, hnext, ht, hlt⟩
    · exact ends_of_result hr
    · exact (ends_iff_of_next hnext).mpr (ih (μ t) (hμ ▸ hlt) ht rfl)

end Rounds
end EmevBsp
