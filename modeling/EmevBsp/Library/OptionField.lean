import Mathlib.Data.List.Basic
import Mathlib.Tactic.Common

/-!
# Fields of options with a code, a length and a value

An option field is a sequence of pad bytes and options, closed by an end byte.  An option is a
code, a byte that counts the value, and the value; pads have a code alone.  A field lies in a
memory that holds other things around it.

* `HoldsAt`: some bytes lie at a place of the memory, with its append lemma.
* `OptionField.options`: the options of a field, in order.
* `OptionField.StopsAt`: every option begins before an offset, and every pad at it or behind it.
  This is what a walk needs that takes pads for options and does not look behind the offset.
-/

namespace EmevBsp

/-- The bytes `l` lie at `p`. -/
def HoldsAt (m : ℕ → UInt8) : ℕ → List UInt8 → Prop
  | _, [] => True
  | p, x :: l => m p = x ∧ HoldsAt m (p + 1) l

instance decidableHoldsAt (m : ℕ → UInt8) : ∀ p l, Decidable (HoldsAt m p l)
  | _, [] => .isTrue trivial
  | p, x :: l =>
    have := decidableHoldsAt m (p + 1) l
    inferInstanceAs (Decidable (m p = x ∧ HoldsAt m (p + 1) l))

theorem holdsAt_append {m : ℕ → UInt8} {p : ℕ} {l l' : List UInt8} :
    HoldsAt m p (l ++ l') ↔ HoldsAt m p l ∧ HoldsAt m (p + l.length) l' := by
  induction l generalizing p with
  | nil => simp [HoldsAt]
  | cons x l ih =>
    rw [List.cons_append, HoldsAt, ih, HoldsAt, List.length_cons, and_assoc,
      Nat.add_right_comm p 1, Nat.add_assoc p]

theorem HoldsAt.map_range {m : ℕ → UInt8} {p : ℕ} {l : List UInt8} (h : HoldsAt m p l) :
    (List.range l.length).map (fun k => m (p + k)) = l := by
  induction l generalizing p with
  | nil => rfl
  | cons x l ih =>
    have hrest := ih h.2
    rw [List.length_cons, List.range_succ_eq_map, List.map_cons, List.map_map, Nat.add_zero, h.1]
    congr 1
    refine Eq.trans (List.map_congr_left fun k _ => ?_) hrest
    rw [Function.comp_apply, Nat.succ_eq_add_one, Nat.add_right_comm, Nat.add_assoc p]

namespace OptionField

/-- An option; its value is what one byte can count. -/
structure Opt where
  code : UInt8
  value : List UInt8
  code_ne_pad : code ≠ 0
  code_ne_end : code ≠ 255
  length_lt : value.length < 256

/-- What a field consists of. -/
inductive Item where
  | pad
  | opt (o : Opt)

def Item.bytes : Item → List UInt8
  | .pad => [0]
  | .opt o => o.code :: UInt8.ofNat o.value.length :: o.value

/-- The bytes of the field. -/
def encode : List Item → List UInt8
  | [] => [255]
  | item :: items => item.bytes ++ encode items

/-- The codes and the values of the options. -/
def options : List Item → List (UInt8 × List UInt8)
  | [] => []
  | .pad :: items => options items
  | .opt o :: items => (o.code, o.value) :: options items

/-- Seen from the offset `p` of the first item: the options begin before `n`, the pads do not. -/
def StopsAt (n : ℕ) : ℕ → List Item → Prop
  | _, [] => True
  | p, .pad :: items => n ≤ p ∧ StopsAt n (p + 1) items
  | p, .opt o :: items => p < n ∧ StopsAt n (p + o.value.length + 2) items

theorem toNat_length (o : Opt) : (UInt8.ofNat o.value.length).toNat = o.value.length := by
  rw [UInt8.toNat_ofNat']
  exact Nat.mod_eq_of_lt o.length_lt

variable {m : ℕ → UInt8} {p : ℕ} {items : List Item} {o : Opt}

theorem holdsAt_end (h : HoldsAt m p (encode [])) : m p = 255 := h.1

theorem holdsAt_pad (h : HoldsAt m p (encode (.pad :: items))) :
    m p = 0 ∧ HoldsAt m (p + 1) (encode items) :=
  holdsAt_append.mp h |>.imp_left And.left

theorem holdsAt_opt (h : HoldsAt m p (encode (.opt o :: items))) :
    m p = o.code ∧ (m (p + 1)).toNat = o.value.length ∧ HoldsAt m (p + 2) o.value ∧
      HoldsAt m (p + o.value.length + 2) (encode items) := by
  obtain ⟨hopt, hrest⟩ := holdsAt_append.mp h
  obtain ⟨hcode, hlen, hvalue⟩ := hopt
  refine ⟨hcode, by rw [hlen, toNat_length], hvalue, ?_⟩
  rwa [Item.bytes, List.length_cons, List.length_cons, ← Nat.add_assoc] at hrest

theorem options_eq_nil_of_le {n : ℕ} (h : StopsAt n p items) (hp : n ≤ p) : options items = [] := by
  induction items generalizing p with
  | nil => rfl
  | cons item items ih =>
    cases item with
    | pad => exact ih h.2 (Nat.le_succ_of_le hp)
    | opt o => exact absurd h.1 (Nat.not_lt.mpr hp)

theorem code_ne_pad_of_mem {code : UInt8} {value : List UInt8}
    (h : (code, value) ∈ options items) : code ≠ 0 := by
  induction items with
  | nil => exact absurd h List.not_mem_nil
  | cons item items ih =>
    cases item with
    | pad => exact ih h
    | opt o =>
      rcases List.mem_cons.mp h with hhead | htail
      · obtain ⟨rfl, -⟩ := Prod.mk.inj hhead
        exact o.code_ne_pad
      · exact ih htail

end OptionField
end EmevBsp
