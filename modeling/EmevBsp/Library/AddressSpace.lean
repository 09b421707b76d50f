import Mathlib.Data.BitVec
import Mathlib.Tactic.Common

/-!
# Address spaces

The addresses of a machine are numbers of `w` bits, and behind the last one comes the first one.
`cells mem a n` are the contents of the `n` cells from address `a` on, and `patch mem a l` is the
memory with the elements of `l` from address `a` on in the place of what was there.

* `patch_append`: **two patches that meet are one**.
* `patch_add`, `patch_add_of_le`, `patch_of_forall_ne`: what is read of a patch.
* `patch_surrounded`: a patch between cells that stay what they are.
-/

namespace EmevBsp
namespace AddressSpace

variable {α : Type*} {w : ℕ} {mem mem' : BitVec w → α} {a x : BitVec w} {l l' : List α} {i k n : ℕ}

/-- The contents of the `n` cells from `a` on. -/
def cells (mem : BitVec w → α) (a : BitVec w) (n : ℕ) : List α :=
  (List.range n).map fun i => mem (a + BitVec.ofNat w i)

/-- The memory with the elements of a list from `a` on. -/
def patch (mem : BitVec w → α) (a : BitVec w) (l : List α) : BitVec w → α := fun x =>
  l[(x - a).toNat]?.getD (mem x)

/-! ## Addresses -/

theorem toNat_add_sub (h : i < 2 ^ w) : (a + BitVec.ofNat w i - a).toNat = i := by
  rw [BitVec.add_comm, BitVec.add_sub_cancel, BitVec.toNat_ofNat, Nat.mod_eq_of_lt h]

theorem add_toNat_sub : a + BitVec.ofNat w (x - a).toNat = x := by
  rw [BitVec.ofNat_toNat, BitVec.setWidth_eq, BitVec.add_comm, BitVec.sub_add_cancel]

theorem add_add : a + BitVec.ofNat w i + BitVec.ofNat w k = a + BitVec.ofNat w (i + k) := by
  rw [BitVec.ofNat_add, BitVec.add_assoc]

theorem toNat_add_sub_add_of_le (hle : k ≤ i) (h : i < 2 ^ w) :
    (a + BitVec.ofNat w i - (a + BitVec.ofNat w k)).toNat = i - k := by
  obtain ⟨e, rfl⟩ := Nat.exists_eq_add_of_le hle
  rw [← add_add, toNat_add_sub (by omega), Nat.add_sub_cancel_left]

theorem toNat_add_sub_add_of_lt (hlt : i < k) (h : k < 2 ^ w) :
    (a + BitVec.ofNat w i - (a + BitVec.ofNat w k)).toNat = 2 ^ w - k + i := by
  have hway : 2 ^ w - k + i < 2 ^ w := by omega
  rw [add_sub_add_left_eq_sub, BitVec.toNat_sub, BitVec.toNat_ofNat, BitVec.toNat_ofNat,
    Nat.mod_eq_of_lt h, Nat.mod_eq_of_lt (Nat.lt_trans hlt h), Nat.mod_eq_of_lt hway]

theorem sub_and_not (a m : BitVec w) : a - (a &&& ~~~m) = a &&& m := by
  have hdisjoint : a &&& m &&& (a &&& ~~~m) = 0 := by
    refine BitVec.eq_of_getLsbD_eq fun i hi => ?_
    rw [BitVec.getLsbD_and, BitVec.getLsbD_and, BitVec.getLsbD_and, BitVec.getLsbD_not]
    simp +contextual [hi]
  have hjoin : a &&& m ||| a &&& ~~~m = a := by
    refine BitVec.eq_of_getLsbD_eq fun i hi => ?_
    rw [BitVec.getLsbD_or, BitVec.getLsbD_and, BitVec.getLsbD_and, BitVec.getLsbD_not,
      ← Bool.and_or_distrib_left]
    simp [hi]
  rw [sub_eq_iff_eq_add, BitVec.add_eq_or_of_and_eq_zero _ _ hdisjoint, hjoin]

/-! ## Cells -/

@[simp] theorem length_cells : (cells mem a n).length = n := by
  rw [cells, List.length_map, List.length_range]

theorem getElem_cells (h : i < (cells mem a n).length) :
    (cells mem a n)[i] = mem (a + BitVec.ofNat w i) := by
  simp only [cells, List.getElem_map, List.getElem_range]

theorem cells_congr (h : ∀ i < n, mem (a + BitVec.ofNat w i) = mem' (a + BitVec.ofNat w i)) :
    cells mem a n = cells mem' a n :=
  List.map_congr_left fun i hi => h i (List.mem_range.mp hi)

/-! ## Patches -/

theorem patch_of_lt (h : (x - a).toNat < l.length) : patch mem a l x = l[(x - a).toNat] := by
  rw [patch, List.getElem?_eq_getElem h, Option.getD_some]

theorem patch_of_le (h : l.length ≤ (x - a).toNat) : patch mem a l x = mem x := by
  rw [patch, List.getElem?_eq_none h, Option.getD_none]

@[simp] theorem patch_nil : patch mem a [] = mem := rfl

theorem patch_add (hi : i < l.length) (h : l.length ≤ 2 ^ w) :
    patch mem a l (a + BitVec.ofNat w i) = l[i] := by
  have hsub : (a + BitVec.ofNat w i - a).toNat = i := toNat_add_sub (Nat.lt_of_lt_of_le hi h)
  rw [patch, hsub, List.getElem?_eq_getElem hi, Option.getD_some]

theorem patch_add_of_le (hi : l.length ≤ i) (h : i < 2 ^ w) :
    patch mem a l (a + BitVec.ofNat w i) = mem (a + BitVec.ofNat w i) :=
  patch_of_le (by rwa [toNat_add_sub h])

theorem patch_of_forall_ne (h : ∀ i < l.length, x ≠ a + BitVec.ofNat w i) :
    patch mem a l x = mem x :=
  patch_of_le (Nat.le_of_not_lt fun hlt => h _ hlt add_toNat_sub.symm)

theorem patch_cells : patch mem a (cells mem a n) = mem := by
  funext x
  rcases Nat.lt_or_ge (x - a).toNat (cells mem a n).length with hlt | hge
  · rw [patch_of_lt hlt, getElem_cells, add_toNat_sub]
  · exact patch_of_le hge

theorem patch_append (h : l.length + l'.length ≤ 2 ^ w) :
    patch (patch mem a l) (a + BitVec.ofNat w l.length) l' = patch mem a (l ++ l') := by
  funext x
  obtain ⟨d, hd, rfl⟩ : ∃ d < 2 ^ w, x = a + BitVec.ofNat w d :=
    ⟨_, (x - a).isLt, add_toNat_sub.symm⟩
  have hsub : (a + BitVec.ofNat w d - a).toNat = d := toNat_add_sub hd
  rcases Nat.lt_or_ge d l.length with hlt | hge
  · -- from the end of the first patch on, the way to its cells is longer than the second one
    have hback : l'.length ≤
        (a + BitVec.ofNat w d - (a + BitVec.ofNat w l.length)).toNat := by
      rcases Nat.eq_zero_or_pos l'.length with hnil | hpos
      · exact hnil ▸ Nat.zero_le _
      · rw [toNat_add_sub_add_of_lt hlt (by omega)]
        omega
    rw [patch_of_le hback, patch_add hlt (by omega),
      patch_add (by rw [List.length_append]; omega) (by rw [List.length_append]; omega),
      List.getElem_append_left hlt]
  · obtain ⟨e, rfl⟩ := Nat.exists_eq_add_of_le hge
    have hsub' : (a + BitVec.ofNat w (l.length + e) - (a + BitVec.ofNat w l.length)).toNat = e := by
      rw [toNat_add_sub_add_of_le hge hd, Nat.add_sub_cancel_left]
    rw [patch, hsub', patch_add_of_le hge hd, patch, hsub, List.getElem?_append_right hge,
      Nat.add_sub_cancel_left]

theorem patch_surrounded (h : k + l.length + n ≤ 2 ^ w) :
    patch mem a (cells mem a k ++ l ++ cells mem (a + BitVec.ofNat w (k + l.length)) n) =
      patch mem (a + BitVec.ofNat w k) l := by
  have hbefore : patch mem a (cells mem a k ++ l) = patch mem (a + BitVec.ofNat w k) l := by
    rw [← patch_append (by rw [length_cells]; omega), patch_cells, length_cells]
  have hbehind : cells mem (a + BitVec.ofNat w (k + l.length)) n =
      cells (patch mem (a + BitVec.ofNat w k) l) (a + BitVec.ofNat w (k + l.length)) n := by
    refine cells_congr fun i hi => ?_
    rw [← add_add, add_add, patch_add_of_le (Nat.le_add_right _ _) (by omega)]
  have hlength : (cells mem a k ++ l).length = k + l.length := by
    rw [List.length_append, length_cells]
  rw [← patch_append (by rw [hlength, length_cells]; omega), hbefore, hlength, hbehind, patch_cells]

/-! ## Moves -/

/-- The memory with the `n` cells from `src` on also at `dst`. -/
def move (mem : BitVec w → α) (dst src : BitVec w) (n : ℕ) : BitVec w → α :=
  patch mem dst (cells mem src n)

section

variable {dst src : BitVec w}

theorem move_add (hi : i < n) (h : n ≤ 2 ^ w) :
    move mem dst src n (dst + BitVec.ofNat w i) = mem (src + BitVec.ofNat w i) := by
  rw [move, patch_add (by rwa [length_cells]) (by rwa [length_cells]), getElem_cells]

theorem move_of_le (h : n ≤ (x - dst).toNat) : move mem dst src n x = mem x :=
  patch_of_le (by rwa [length_cells])

theorem move_self : move mem dst dst n = mem := patch_cells

end

end AddressSpace
end EmevBsp
