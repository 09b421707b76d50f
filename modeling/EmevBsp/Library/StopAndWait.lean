import EmevBsp.Library.LossyChannel
import EmevBsp.Library.TransitionSystem
import Mathlib.Data.Nat.Basic

/-!
# The stop-and-wait protocol

A sender has `total` items, numbered from `0`, and a receiver asks for them one after the
other: request number `m` asks for item `m`, and thereby says that all items before it have
arrived.  The sender sends item `m` for the first time when it receives request `m`, and may
repeat the item it sent last; the receiver sends request `m + 1` when item `m` arrives, and
may repeat the request it sent last.  Both channels lose and duplicate.

Here the numbers are unbounded.  The point of the invariant is that they need not be: what is
in flight to the receiver is the item it waits for or the one before (`Inv.item_cases`), what is
in flight to the sender is the request it waits for or the one before
(`Inv.request_cases`), so an implementation that sends the numbers modulo anything above `1`
can tell them apart.

* `reachable_inv`: the invariant holds in every reachable state.
* `Inv.received_lt`, `Inv.eq_of_next`: when the next item arrives the receiver was exactly one
  behind, when the next request arrives the two were level.
-/

namespace EmevBsp

namespace StopAndWait

/-- How far both parties are, and the numbers of what is in flight. -/
structure State where
  /-- the number of items sent at least once -/
  sent : ℕ
  /-- the number of items received -/
  received : ℕ
  items : List ℕ
  requests : List ℕ

/-- Before anything is sent but the first request. -/
def start : State := ⟨0, 0, [], [0]⟩

namespace State

/-- The receiver repeats its request. -/
def ask (s : State) : State := { s with requests := s.requests ++ [s.received] }

/-- The sender repeats its last item. -/
def resend (s : State) : State := { s with items := s.items ++ [s.sent - 1] }

/-- The sender takes request `m`, the oldest one in flight. -/
def answer (s : State) (m : ℕ) (requests : List ℕ) : State :=
  if m = s.sent then
    { s with requests := requests, sent := s.sent + 1, items := s.items ++ [s.sent] }
  else { s with requests := requests }

/-- The receiver takes item `i`, the oldest one in flight. -/
def accept (s : State) (i : ℕ) (items : List ℕ) : State :=
  if i = s.received then
    { s with
      items := items, received := s.received + 1, requests := s.requests ++ [s.received + 1] }
  else { s with items := items }

end State

/-- What is done in a step. -/
inductive Action where
  | ask
  | resend
  | answer
  | accept
  | network

/-- The steps.  The sender answers no request past its last item. -/
inductive Step (total : ℕ) : State → Action → State → Prop where
  | ask (s : State) : Step total s .ask s.ask
  | resend (s : State) : 0 < s.sent → Step total s .resend s.resend
  | answer (s : State) (m : ℕ) (ms : List ℕ) : s.requests = m :: ms → m < total →
      Step total s .answer (s.answer m ms)
  | ignore (s : State) (m : ℕ) (ms : List ℕ) : s.requests = m :: ms → (m = s.sent → total ≤ m) →
      Step total s .answer { s with requests := ms }
  | accept (s : State) (i : ℕ) (is : List ℕ) : s.items = i :: is →
      Step total s .accept (s.accept i is)
  | items (s : State) (is : List ℕ) : Lossy s.items is →
      Step total s .network { s with items := is }
  | requests (s : State) (ms : List ℕ) : Lossy s.requests ms →
      Step total s .network { s with requests := ms }

/-- The protocol for `total` items. -/
def system (total : ℕ) : TransitionSystem State Action where
  init s := s = start
  step := Step total

/-! ## The invariant -/

/-- The receiver is level with the sender or one behind, and so is everything in flight. -/
structure Inv (total : ℕ) (s : State) : Prop where
  sent_le : s.sent ≤ s.received + 1
  received_le : s.received ≤ s.sent
  sent_le_total : s.sent ≤ total
  items_sorted : s.items.Pairwise (· ≤ ·)
  items_mem : ∀ i ∈ s.items, s.received ≤ i + 1 ∧ i < s.sent
  requests_sorted : s.requests.Pairwise (· ≤ ·)
  requests_mem : ∀ m ∈ s.requests, s.sent ≤ m + 1 ∧ m ≤ s.received

namespace Inv

variable {total : ℕ} {s : State}

theorem item_cases (h : Inv total s) {i : ℕ} (hi : i ∈ s.items) :
    i = s.received ∨ i + 1 = s.received := by
  have hmem := h.items_mem i hi
  have hsent := h.sent_le
  omega

theorem request_cases (h : Inv total s) {m : ℕ} (hm : m ∈ s.requests) :
    m = s.sent ∨ m + 1 = s.sent := by
  have hmem := h.requests_mem m hm
  have hreceived := h.received_le
  omega

theorem received_lt (h : Inv total s) (hi : s.received ∈ s.items) :
    s.received < total :=
  lt_of_lt_of_le (h.items_mem _ hi).2 h.sent_le_total

theorem eq_of_next (h : Inv total s) (hm : s.sent ∈ s.requests) : s.sent = s.received :=
  le_antisymm (h.requests_mem _ hm).2 h.received_le

end Inv

theorem inv_start (total : ℕ) : Inv total start where
  sent_le := Nat.zero_le _
  received_le := le_refl _
  sent_le_total := Nat.zero_le _
  items_sorted := List.Pairwise.nil
  items_mem i hi := absurd hi (List.not_mem_nil)
  requests_sorted := List.pairwise_singleton _ _
  requests_mem m hm := by
    rw [List.mem_singleton.mp hm]
    exact ⟨Nat.zero_le _, le_refl _⟩

theorem sorted_append {l : List ℕ} {b : ℕ} (hl : l.Pairwise (· ≤ ·)) (hb : ∀ a ∈ l, a ≤ b) :
    (l ++ [b]).Pairwise (· ≤ ·) := by
  refine List.pairwise_append.mpr ⟨hl, List.pairwise_singleton _ _, ?_⟩
  intro a ha c hc
  rw [List.mem_singleton.mp hc]
  exact hb a ha

section StepLemmas

variable {total : ℕ} {s : State}

theorem inv_ask (h : Inv total s) : Inv total s.ask where
  __ := h
  requests_sorted := sorted_append h.requests_sorted fun m hm => (h.requests_mem m hm).2
  requests_mem m hm := by
    rcases List.mem_append.mp hm with hm | hm
    · exact h.requests_mem m hm
    · rw [List.mem_singleton.mp hm]
      exact ⟨h.sent_le, le_refl _⟩

theorem inv_resend (h : Inv total s) (hsent : 0 < s.sent) : Inv total s.resend where
  __ := h
  items_sorted := sorted_append h.items_sorted fun i hi =>
    Nat.le_sub_one_of_lt (h.items_mem i hi).2
  items_mem i hi := by
    rcases List.mem_append.mp hi with hi | hi
    · exact h.items_mem i hi
    · have hreceived := h.received_le
      rw [List.mem_singleton.mp hi]
      show s.received ≤ s.sent - 1 + 1 ∧ s.sent - 1 < s.sent
      omega

theorem inv_dropRequest (h : Inv total s) {m : ℕ} {ms : List ℕ} (hms : s.requests = m :: ms) :
    Inv total { s with requests := ms } where
  __ := h
  requests_sorted := (List.pairwise_cons.mp (hms ▸ h.requests_sorted)).2
  requests_mem k hk := h.requests_mem k (hms ▸ List.mem_cons_of_mem m hk)

theorem inv_dropItem (h : Inv total s) {i : ℕ} {is : List ℕ} (his : s.items = i :: is) :
    Inv total { s with items := is } where
  __ := h
  items_sorted := (List.pairwise_cons.mp (his ▸ h.items_sorted)).2
  items_mem k hk := h.items_mem k (his ▸ List.mem_cons_of_mem i hk)

theorem inv_answer (h : Inv total s) {m : ℕ} {ms : List ℕ} (hms : s.requests = m :: ms)
    (hm : m < total) : Inv total (s.answer m ms) := by
  unfold State.answer
  split
  · next heq =>
    subst heq
    have hlevel := h.eq_of_next (hms ▸ List.mem_cons_self)
    have hdrop := inv_dropRequest h hms
    have hlater := (List.pairwise_cons.mp (hms ▸ h.requests_sorted)).1
    exact
      { sent_le := Nat.succ_le_succ (le_of_eq hlevel)
        received_le := Nat.le_succ_of_le h.received_le
        sent_le_total := hm
        items_sorted := sorted_append h.items_sorted fun i hi => le_of_lt (h.items_mem i hi).2
        items_mem := by
          intro i hi
          rcases List.mem_append.mp hi with hi | hi
          · exact ⟨(h.items_mem i hi).1, Nat.lt_succ_of_lt (h.items_mem i hi).2⟩
          · rw [List.mem_singleton.mp hi]
            exact ⟨Nat.le_succ_of_le h.received_le, Nat.lt_succ_self _⟩
        requests_sorted := hdrop.requests_sorted
        requests_mem := fun k hk =>
          ⟨Nat.succ_le_succ (hlater k hk), (hdrop.requests_mem k hk).2⟩ }
  · exact inv_dropRequest h hms

theorem inv_accept (h : Inv total s) {i : ℕ} {is : List ℕ} (his : s.items = i :: is) :
    Inv total (s.accept i is) := by
  unfold State.accept
  split
  · next heq =>
    subst heq
    have hsent := (h.items_mem _ (his ▸ List.mem_cons_self)).2
    have hdrop := inv_dropItem h his
    have hlater := (List.pairwise_cons.mp (his ▸ h.items_sorted)).1
    exact
      { sent_le := Nat.le_succ_of_le h.sent_le
        received_le := hsent
        sent_le_total := h.sent_le_total
        items_sorted := hdrop.items_sorted
        items_mem := fun k hk => ⟨Nat.succ_le_succ (hlater k hk), (hdrop.items_mem k hk).2⟩
        requests_sorted := sorted_append h.requests_sorted fun m hm =>
          Nat.le_succ_of_le (h.requests_mem m hm).2
        requests_mem := by
          intro m hm
          rcases List.mem_append.mp hm with hm | hm
          · exact ⟨(h.requests_mem m hm).1, Nat.le_succ_of_le (h.requests_mem m hm).2⟩
          · rw [List.mem_singleton.mp hm]
            exact ⟨Nat.le_succ_of_le h.sent_le, le_refl _⟩ }
  · exact inv_dropItem h his

end StepLemmas

theorem inv_step {total : ℕ} (s : State) (a : Action) (t : State) (h : Inv total s)
    (hst : Step total s a t) : Inv total t := by
  cases hst with
  | ask => exact inv_ask h
  | resend hsent => exact inv_resend h hsent
  | answer m ms hms hm => exact inv_answer h hms hm
  | ignore m ms hms _ => exact inv_dropRequest h hms
  | accept i is his => exact inv_accept h his
  | items is hl =>
    exact
      { h with
        items_sorted := hl.pairwise le_refl h.items_sorted
        items_mem := fun i hi => h.items_mem i (hl.mem hi) }
  | requests ms hl =>
    exact
      { h with
        requests_sorted := hl.pairwise le_refl h.requests_sorted
        requests_mem := fun m hm => h.requests_mem m (hl.mem hm) }

/-- **The invariant.**  Receiver and sender are never more than one item apart, and nothing
older than one item is in flight. -/
theorem reachable_inv {total : ℕ} {s : State} (h : (system total).Reachable s) :
    Inv total s := by
  refine TransitionSystem.Reachable.invariant (I := Inv total) ?_ inv_step h
  intro s hs
  rw [show s = start from hs]
  exact inv_start total

end StopAndWait

end EmevBsp
