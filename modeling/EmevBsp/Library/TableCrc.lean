import Mathlib.Data.List.GetD
import Mathlib.Data.List.Nodup
import Mathlib.Tactic.Common

/-!
# Table-driven cyclic redundancy checks

A byte-wise 32-bit check folds `tableStep T` over the bytes: the register is shifted down by
one byte and the table entry of its low byte, exclusive-or the next byte, is added.  All that
is used of the table is that it has 256 entries whose top bytes are pairwise distinct
(`IsCrcTable`): the top byte of the new register names the entry,
so the old register can be read back.

* `tableStep_left_injective`, `tableStep_right_injective`: the step loses neither the register
  nor the byte.
* `foldl_tableStep_ne`: two byte strings that differ in exactly one position never have the
  same check.
-/

namespace EmevBsp
namespace TableCrc

/-- One byte of a table-driven check. -/
def tableStep (T : List UInt32) (c : UInt32) (b : UInt8) : UInt32 :=
  T.getD ((c ^^^ b.toUInt32) &&& 0xff).toNat 0 ^^^ (c >>> 8)

/-- 256 entries, told apart by their top bytes. -/
def IsCrcTable (T : List UInt32) : Prop :=
  T.length = 256 ∧ (T.map fun e => e.toNat / 16777216).Nodup

/-- A quick test that the numbers of a list are distinct: a bit mask of those seen so far. -/
def distinctFrom : ℕ → List ℕ → Bool
  | _, [] => true
  | seen, x :: l => !seen.testBit x && distinctFrom (seen ||| 1 <<< x) l

theorem distinctFrom_spec (l : List ℕ) (seen : ℕ) (h : distinctFrom seen l = true) :
    l.Nodup ∧ ∀ x ∈ l, seen.testBit x = false := by
  induction l generalizing seen with
  | nil => exact ⟨List.nodup_nil, fun x hx => absurd hx (List.not_mem_nil)⟩
  | cons x l ih =>
    rw [distinctFrom, Bool.and_eq_true, Bool.not_eq_true'] at h
    obtain ⟨hnodup, hseen⟩ := ih _ h.2
    have hbit : ∀ y ∈ l, seen.testBit y = false ∧ x ≠ y := by
      intro y hy
      have hy' := hseen y hy
      rw [Nat.testBit_or, Bool.or_eq_false_iff, Nat.one_shiftLeft, Nat.testBit_two_pow] at hy'
      exact ⟨hy'.1, by simpa using hy'.2⟩
    refine ⟨List.nodup_cons.mpr ⟨fun hx => (hbit x hx).2 rfl, hnodup⟩, fun y hy => ?_⟩
    rcases List.mem_cons.mp hy with rfl | hy
    · exact h.1
    · exact (hbit y hy).1

theorem isCrcTable_of_distinct {T : List UInt32} (hlen : T.length = 256)
    (hT : distinctFrom 0 (T.map fun e => e.toNat / 16777216) = true) : IsCrcTable T :=
  ⟨hlen, (distinctFrom_spec _ _ hT).1⟩

/-! ## Registers and their low bytes -/

theorem toNat_and_ff (x : UInt32) : (x &&& 0xff).toNat = x.toNat % 256 := by
  rw [UInt32.toNat_and]
  exact Nat.and_two_pow_sub_one_eq_mod x.toNat 8

theorem toNat_shiftRight_eight (x : UInt32) : (x >>> 8).toNat = x.toNat / 256 := by
  rw [UInt32.toNat_shiftRight, Nat.shiftRight_eq_div_pow]
  rfl

theorem toNat_shiftRight_top (x : UInt32) : (x >>> 24).toNat = x.toNat / 16777216 := by
  rw [UInt32.toNat_shiftRight, Nat.shiftRight_eq_div_pow]
  rfl

theorem shiftRight_eight_shiftRight (x : UInt32) : x >>> 8 >>> 24 = 0 := by
  rw [← UInt32.toNat_inj, toNat_shiftRight_top, toNat_shiftRight_eight]
  have hx : x.toNat < 4294967296 := x.toNat_lt
  show x.toNat / 256 / 16777216 = 0
  omega

theorem eq_of_shiftRight_eq {x y : UInt32} (hhi : x >>> 8 = y >>> 8)
    (hlo : x &&& 0xff = y &&& 0xff) : x = y := by
  have h1 := congrArg UInt32.toNat hhi
  have h2 := congrArg UInt32.toNat hlo
  rw [toNat_shiftRight_eight, toNat_shiftRight_eight] at h1
  rw [toNat_and_ff, toNat_and_ff] at h2
  rw [← UInt32.toNat_inj]
  omega

theorem toNat_xor_and_ff (x y : UInt32) :
    ((x ^^^ y) &&& 0xff).toNat = x.toNat % 256 ^^^ y.toNat % 256 := by
  rw [toNat_and_ff, UInt32.toNat_xor]
  exact Nat.xor_mod_two_pow (n := 8)

theorem xor_left_cancel {a b c : UInt32} (h : c ^^^ a = c ^^^ b) : a = b := by
  have h' := congrArg (c ^^^ ·) h
  simpa [← UInt32.xor_assoc] using h'

theorem nat_xor_left_cancel {a b c : ℕ} (h : c ^^^ a = c ^^^ b) : a = b := by
  have h' := congrArg (c ^^^ ·) h
  simpa [← Nat.xor_assoc] using h'

/-! ## The step -/

variable {T : List UInt32}

theorem tableStep_index_lt (hT : IsCrcTable T) (c : UInt32) (b : UInt8) :
    ((c ^^^ b.toUInt32) &&& 0xff).toNat < T.length := by
  rw [toNat_and_ff, hT.1]
  exact Nat.mod_lt _ (by decide)

theorem index_eq_of_tableStep_eq (hT : IsCrcTable T) {c d : UInt32} {a b : UInt8}
    (h : tableStep T c a = tableStep T d b) :
    ((c ^^^ a.toUInt32) &&& 0xff).toNat = ((d ^^^ b.toUInt32) &&& 0xff).toNat := by
  have hi := tableStep_index_lt hT c a
  have hj := tableStep_index_lt hT d b
  rw [tableStep, tableStep, List.getD_eq_getElem _ _ hi, List.getD_eq_getElem _ _ hj] at h
  have htop := congrArg (· >>> (24 : UInt32)) h
  simp only [UInt32.shiftRight_xor, shiftRight_eight_shiftRight, UInt32.xor_zero] at htop
  have htop' := congrArg UInt32.toNat htop
  simp only [toNat_shiftRight_top] at htop'
  have hnth : (T.map fun e => e.toNat / 16777216)[((c ^^^ a.toUInt32) &&& 0xff).toNat]? =
      (T.map fun e => e.toNat / 16777216)[((d ^^^ b.toUInt32) &&& 0xff).toNat]? := by
    rw [List.getElem?_map, List.getElem?_map, List.getElem?_eq_getElem hi,
      List.getElem?_eq_getElem hj, Option.map_some, Option.map_some, htop']
  exact (List.getElem?_inj (by rwa [List.length_map]) hT.2).mp hnth

theorem tableStep_left_injective (hT : IsCrcTable T) (b : UInt8) :
    Function.Injective fun c => tableStep T c b := by
  intro c d h
  have hidx := index_eq_of_tableStep_eq hT h
  have hhi : c >>> 8 = d >>> 8 := by
    simp only [tableStep, hidx] at h
    exact xor_left_cancel h
  refine eq_of_shiftRight_eq hhi (UInt32.toNat_inj.mp ?_)
  rw [toNat_xor_and_ff, toNat_xor_and_ff] at hidx
  rw [toNat_and_ff, toNat_and_ff]
  refine nat_xor_left_cancel (c := b.toUInt32.toNat % 256) ?_
  rw [Nat.xor_comm, hidx, Nat.xor_comm]

theorem tableStep_right_injective (hT : IsCrcTable T) (c : UInt32) :
    Function.Injective (tableStep T c) := by
  intro a b h
  have hidx := index_eq_of_tableStep_eq hT h
  rw [toNat_xor_and_ff, toNat_xor_and_ff] at hidx
  have hbytes := nat_xor_left_cancel hidx
  simp only [UInt8.toNat_toUInt32] at hbytes
  have ha := a.toNat_lt
  have hb := b.toNat_lt
  exact UInt8.toNat_inj.mp (by omega)

/-! ## The fold -/

theorem foldl_tableStep_injective (hT : IsCrcTable T) (l : List UInt8) :
    Function.Injective fun c => l.foldl (tableStep T) c := by
  induction l with
  | nil => exact fun _ _ h => h
  | cons b l ih => exact fun c d h => tableStep_left_injective hT b (ih h)

theorem foldl_tableStep_ne (hT : IsCrcTable T) (c : UInt32) (p q : List UInt8) {a b : UInt8}
    (hab : a ≠ b) :
    (p ++ a :: q).foldl (tableStep T) c ≠ (p ++ b :: q).foldl (tableStep T) c := by
  intro h
  rw [List.foldl_append, List.foldl_append, List.foldl_cons, List.foldl_cons] at h
  exact hab (tableStep_right_injective hT _ (foldl_tableStep_injective hT q h))

end TableCrc
end EmevBsp
