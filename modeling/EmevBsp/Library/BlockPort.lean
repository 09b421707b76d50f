import Mathlib.Data.List.GetD
import Mathlib.Logic.Function.Basic
import Mathlib.Tactic.SplitIfs

/-!
# A port that takes blocks in pieces

A store of blocks behind a port: a transfer of some blocks is open, the items of a block are given
piece by piece, and the block is stored when it is full.  What the owner of the port notes then is
a parameter.  The loops that wait for a port are `poll`.

* `put_of_lt`, `put_of_eq`: a piece that does not fill the block, and one that does.
* `foldl_put`: **the pieces of a block, in order, store the block.**
* `overwrite_apply`, `overwrite_inj`: what a run of blocks leaves in the store.
* `poll_of_countdown`, `poll_eq_none`: a loop that waits for something that comes, and for
  something that never comes.
-/

namespace EmevBsp

universe u v

/-! ## The store -/

section Overwrite

variable {β : Type v}

/-- The store with the blocks of `data` from `first` on. -/
def overwrite (blocks : ℕ → β) (first : ℕ) (data : List β) : ℕ → β :=
  fun b => if first ≤ b then data.getD (b - first) (blocks b) else blocks b

@[simp] theorem overwrite_nil (blocks : ℕ → β) (first : ℕ) :
    overwrite blocks first [] = blocks := by
  funext b
  simp [overwrite]

theorem overwrite_cons (blocks : ℕ → β) (first : ℕ) (block : β) (data : List β) :
    overwrite blocks first (block :: data) =
      overwrite (Function.update blocks first block) (first + 1) data := by
  funext b
  rcases Nat.lt_trichotomy b first with h | rfl | h
  · rw [overwrite, if_neg (by omega), overwrite, if_neg (by omega),
      Function.update_of_ne (by omega)]
  · rw [overwrite, if_pos (Nat.le_refl b), overwrite, if_neg (by omega),
      Function.update_self, Nat.sub_self, List.getD_cons_zero]
  · obtain ⟨d, rfl⟩ : ∃ d, b = first + 1 + d := ⟨b - (first + 1), by omega⟩
    rw [overwrite, if_pos (by omega), overwrite, if_pos (by omega),
      Function.update_of_ne (by omega), Nat.add_sub_cancel_left,
      show first + 1 + d - first = d + 1 by omega, List.getD_cons_succ]

theorem overwrite_apply (blocks : ℕ → β) (first : ℕ) (data : List β) (b : ℕ) :
    (∀ k (hk : k < data.length), b = first + k → overwrite blocks first data b = data[k]) ∧
      (b < first ∨ first + data.length ≤ b → overwrite blocks first data b = blocks b) := by
  refine ⟨fun k hk hb => ?_, fun hb => ?_⟩
  · rw [overwrite, if_pos (by omega), show b - first = k by omega,
      List.getD_eq_getElem data _ hk]
  · rw [overwrite]
    split_ifs with h
    · exact List.getD_eq_default data _ (by omega)
    · rfl

theorem overwrite_inj {blocks : ℕ → β} {first : ℕ} {data data' : List β}
    (hlen : data.length = data'.length)
    (h : overwrite blocks first data = overwrite blocks first data') : data = data' := by
  refine List.ext_getElem hlen fun k hk hk' => ?_
  rw [← (overwrite_apply blocks first data (first + k)).1 k hk rfl,
    ← (overwrite_apply blocks first data' (first + k)).1 k hk' rfl, h]

end Overwrite

/-! ## The port -/

/-- A store with a port: the block that is next, the blocks that are still to come, and the items
of the next block that are there. -/
structure Port (ρ : Type u) (β : Type v) where
  regs : ρ
  blocks : ℕ → List β
  next : ℕ
  left : ℕ
  fifo : List β

namespace Port

variable {ρ : Type u} {β : Type v}

/-- A full block is stored. -/
def store (noted : ℕ → ρ → ρ) (s : Port ρ β) (block : List β) : Port ρ β where
  regs := noted (s.left - 1) s.regs
  blocks := Function.update s.blocks s.next block
  next := s.next + 1
  left := s.left - 1
  fifo := []

/-- The second state has one block more in the store, and nothing of the next one. -/
structure Stores (s t : Port ρ β) (block : List β) : Prop where
  blocks : t.blocks = Function.update s.blocks s.next block
  next : t.next = s.next + 1
  left : t.left = s.left - 1
  fifo : t.fifo = []

/-- A piece comes in; without a transfer it is dropped. -/
def put (len : ℕ) (noted : ℕ → ρ → ρ) (s : Port ρ β) (piece : List β) : Port ρ β :=
  if s.left = 0 then s
  else if (s.fifo ++ piece).length < len then { s with fifo := s.fifo ++ piece }
  else s.store noted (s.fifo ++ piece)

variable {len : ℕ} {noted : ℕ → ρ → ρ} {s : Port ρ β}

theorem stores_store (block : List β) : s.Stores (s.store noted block) block :=
  ⟨rfl, rfl, rfl, rfl⟩

theorem put_of_lt {piece : List β} (hleft : s.left ≠ 0)
    (hlen : (s.fifo ++ piece).length < len) :
    s.put len noted piece = { s with fifo := s.fifo ++ piece } := by
  rw [put, if_neg hleft, if_pos hlen]

theorem put_of_eq {piece : List β} (hleft : s.left ≠ 0)
    (hlen : (s.fifo ++ piece).length = len) :
    s.put len noted piece = s.store noted (s.fifo ++ piece) := by
  rw [put, if_neg hleft, if_neg (by omega)]

theorem foldl_put (noted : ℕ → ρ → ρ) (pieces : List (List β)) (hleft : s.left ≠ 0)
    (hne : pieces ≠ []) (hpos : ∀ piece ∈ pieces, piece ≠ [])
    (hlen : (s.fifo ++ pieces.flatten).length = len) :
    pieces.foldl (put len noted) s = s.store noted (s.fifo ++ pieces.flatten) := by
  induction pieces generalizing s with
  | nil => exact absurd rfl hne
  | cons piece rest ih =>
    rw [List.foldl_cons]
    cases rest with
    | nil =>
      rw [List.flatten_singleton] at hlen ⊢
      exact put_of_eq hleft hlen
    | cons piece' rest' =>
      have hpiece' : 0 < piece'.length :=
        List.length_pos_iff.mpr (hpos piece' (by simp))
      rw [List.flatten_cons, ← List.append_assoc] at hlen ⊢
      have hlt : (s.fifo ++ piece).length < len := by
        simp only [List.length_append, List.flatten_cons] at hlen ⊢
        omega
      rw [put_of_lt hleft hlt]
      exact ih hleft (List.cons_ne_nil _ _) (fun x hx => hpos x (List.mem_cons_of_mem _ hx)) hlen

end Port

/-! ## Waiting -/

section Poll

variable {σ : Type u} {γ : Type v}

/-- A loop that looks at the state until a look gives a result; a look may change the state. -/
def poll (look : σ → Option γ × σ) : ℕ → σ → Option (γ × σ)
  | 0, _ => none
  | fuel + 1, s =>
    match look s with
    | (some r, s') => some (r, s')
    | (none, s') => poll look fuel s'

theorem poll_of_some {look : σ → Option γ × σ} {fuel : ℕ} {s t : σ} {r : γ}
    (h : look s = (some r, t)) : poll look (fuel + 1) s = some (r, t) := by
  rw [poll, h]

theorem poll_of_countdown {look : σ → Option γ × σ} (waiting : ℕ → σ) {r : γ} {t : σ}
    (hlate : ∀ n, ∃ m ≤ n, look (waiting (n + 1)) = (none, waiting m))
    (hdone : look (waiting 0) = (some r, t)) {n fuel : ℕ} (hfuel : n < fuel) :
    poll look fuel (waiting n) = some (r, t) := by
  induction fuel generalizing n with
  | zero => exact absurd hfuel (Nat.not_lt_zero n)
  | succ fuel ih =>
    cases n with
    | zero => exact poll_of_some hdone
    | succ n =>
      obtain ⟨m, hm, hlook⟩ := hlate n
      rw [poll, hlook]
      exact ih (by omega)

theorem poll_eq_none {look : σ → Option γ × σ} {P : σ → Prop}
    (hlook : ∀ s, P s → (look s).1 = none ∧ P (look s).2) {fuel : ℕ} {s : σ} (hs : P s) :
    poll look fuel s = none := by
  induction fuel generalizing s with
  | zero => rfl
  | succ fuel ih =>
    obtain ⟨hnone, hP⟩ := hlook s hs
    rw [poll, show look s = (none, (look s).2) from Prod.ext hnone rfl]
    exact ih hP

end Poll

end EmevBsp
