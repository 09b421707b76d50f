import Mathlib.Data.List.Basic
import Mathlib.Data.List.Pairwise
import Mathlib.Logic.Relation
import Mathlib.Tactic.Common
import Mathlib.Data.BitVec

/-!
# A channel that loses and duplicates

The packets in flight are a list, oldest first: a packet is sent by appending it and received
by removing the head.  In between the channel may drop any packet and may double any packet
where it stands, as often as it likes; it does not reorder.

* `Lossy.mem`: nothing is in flight that was not sent.
* `Lossy.pairwise`: what holds of every two packets in their order, and of a packet and its
  own copy, keeps holding.
* `Lossy.exists_map`, `Lossy.filterMap`: a channel of encoded packets is the encoding of a
  channel, and a channel seen through a filter is again one.
-/

namespace EmevBsp

/-- What the channel does to the packets in flight. -/
inductive Lossy {α : Type*} : List α → List α → Prop where
  | lose (p q : List α) (x : α) : Lossy (p ++ x :: q) (p ++ q)
  | duplicate (p q : List α) (x : α) : Lossy (p ++ x :: q) (p ++ x :: x :: q)

namespace Lossy

variable {α β : Type*} {l l' : List α}

theorem mem (h : Lossy l l') {y : α} (hy : y ∈ l') : y ∈ l := by
  cases h with
  | lose p q x => simp only [List.mem_append, List.mem_cons] at hy ⊢; tauto
  | duplicate p q x => simp only [List.mem_append, List.mem_cons] at hy ⊢; tauto

theorem pairwise {R : α → α → Prop} (hR : ∀ x, R x x) (h : Lossy l l')
    (hl : l.Pairwise R) : l'.Pairwise R := by
  cases h with
  | lose p q x =>
    exact hl.sublist (List.Sublist.append_left (List.sublist_cons_self x q) p)
  | duplicate p q x =>
    obtain ⟨hp, hxq, hpxq⟩ := List.pairwise_append.mp hl
    refine List.pairwise_append.mpr ⟨hp, List.pairwise_cons.mpr ⟨?_, hxq⟩, ?_⟩
    · intro y hy
      rcases List.mem_cons.mp hy with rfl | hy
      · exact hR y
      · exact (List.pairwise_cons.mp hxq).1 y hy
    · intro y hy z hz
      rcases List.mem_cons.mp hz with rfl | hz
      · exact hpxq y hy z List.mem_cons_self
      · exact hpxq y hy z hz

theorem exists_map (f : α → β) {m' : List β} (h : Lossy (l.map f) m') :
    ∃ k, Lossy l k ∧ m' = k.map f := by
  generalize hm : l.map f = m at h
  cases h with
  | lose p q x =>
    obtain ⟨a, t, rfl, rfl, ht⟩ := List.map_eq_append_iff.mp hm
    obtain ⟨b, c, rfl, rfl, rfl⟩ := List.map_eq_cons_iff.mp ht
    exact ⟨a ++ c, .lose a c b, by rw [List.map_append]⟩
  | duplicate p q x =>
    obtain ⟨a, t, rfl, rfl, ht⟩ := List.map_eq_append_iff.mp hm
    obtain ⟨b, c, rfl, rfl, rfl⟩ := List.map_eq_cons_iff.mp ht
    exact ⟨a ++ b :: b :: c, .duplicate a c b, by simp only [List.map_append, List.map_cons]⟩

theorem filterMap (f : α → Option β) (h : Lossy l l') :
    l.filterMap f = l'.filterMap f ∨ Lossy (l.filterMap f) (l'.filterMap f) := by
  cases h with
  | lose p q x =>
    rw [List.filterMap_append, List.filterMap_append]
    cases hx : f x with
    | none => exact .inl (by rw [List.filterMap_cons_none hx])
    | some y => exact .inr (by rw [List.filterMap_cons_some hx]; exact .lose _ _ y)
  | duplicate p q x =>
    rw [List.filterMap_append, List.filterMap_append]
    cases hx : f x with
    | none =>
      refine .inl ?_
      rw [List.filterMap_cons_none hx, List.filterMap_cons_none hx, List.filterMap_cons_none hx]
    | some y =>
      refine .inr ?_
      rw [List.filterMap_cons_some hx, List.filterMap_cons_some hx, List.filterMap_cons_some hx]
      exact .duplicate _ _ y

end Lossy

end EmevBsp

/-!
# Requests with transaction numbers

A client numbers its requests one after another, in a word of `w` bits, from any number on.  As long
as the numbers have not run around, a number tells which request it is of.  So an answer that bears
the number of the last request answers that one, whenever it arrives and however often.

* `Numbered.append`: the next request gets the next number.
* `Numbered.eq_last`: **the number of the last request**.
-/

namespace EmevBsp
namespace Transactions

variable {δ : Type*} {w : ℕ} {number : δ → BitVec w} {base : BitVec w} {sent : List δ}

/-- The requests that were sent are numbered from `base + 1` on. -/
def Numbered (number : δ → BitVec w) (base : BitVec w) (sent : List δ) : Prop :=
  ∀ j d, sent[j]? = some d → number d = base + BitVec.ofNat w (j + 1)

theorem Numbered.nil : Numbered number base [] := fun _ _ h => (nomatch h)

theorem Numbered.append (h : Numbered number base sent) {d : δ}
    (hd : number d = base + BitVec.ofNat w (sent.length + 1)) :
    Numbered number base (sent ++ [d]) := by
  intro j c hc
  by_cases hj : j < sent.length
  · rw [List.getElem?_append_left hj] at hc
    exact h j c hc
  · rw [List.getElem?_append_right (Nat.le_of_not_lt hj)] at hc
    have hlt := (List.getElem?_eq_some_iff.mp hc).1
    rw [List.length_singleton] at hlt
    obtain rfl : j = sent.length := by omega
    rw [Nat.sub_self] at hc
    rw [← Option.some.inj hc, hd]

theorem ofNat_inj {i j : ℕ} (hi : i < 2 ^ w) (hj : j < 2 ^ w)
    (h : base + BitVec.ofNat w i = base + BitVec.ofNat w j) : i = j := by
  have hnat := congrArg BitVec.toNat ((BitVec.add_right_inj base).mp h)
  rwa [BitVec.toNat_ofNat, BitVec.toNat_ofNat, Nat.mod_eq_of_lt hi, Nat.mod_eq_of_lt hj] at hnat

theorem Numbered.eq_last (h : Numbered number base sent) (hlen : sent.length < 2 ^ w) {d : δ}
    (hd : d ∈ sent) (hnumber : number d = base + BitVec.ofNat w sent.length) :
    sent.getLast? = some d := by
  obtain ⟨j, hj⟩ := List.mem_iff_getElem?.mp hd
  have hlt : j < sent.length := (List.getElem?_eq_some_iff.mp hj).1
  have hlast : j + 1 = sent.length :=
    ofNat_inj (by omega) hlen ((h j d hj).symm.trans hnumber)
  rw [List.getLast?_eq_getElem?, show sent.length - 1 = j by omega, hj]

end Transactions
end EmevBsp
