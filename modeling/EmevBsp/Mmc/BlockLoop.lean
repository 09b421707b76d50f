import EmevBsp.Mmc.Controllers
import Mathlib.Tactic.Common

/-!
# The blocks of a buffer

What the two drivers that write blocks share: the bytes of the buffer in the pieces that a data
register takes, the address of a block, and the loop over the blocks of a transfer.
-/

namespace EmevBsp
namespace Mmc

/-! ## Bytes -/

/-- `n` pieces of `w` bytes each. -/
def Memory.pieces (mem : Memory) (w : ℕ) : ℕ → Word → List (List (BitVec 8))
  | 0, _ => []
  | n + 1, p =>
    ((List.range w).map fun i => mem (p + BitVec.ofNat 32 i)) ::
      mem.pieces w n (p + BitVec.ofNat 32 w)

theorem Memory.flatten_pieces (mem : Memory) (w n : ℕ) (p : Word) :
    (mem.pieces w n p).flatten = (List.range (n * w)).map fun i => mem (p + BitVec.ofNat 32 i) := by
  induction n generalizing p with
  | zero => simp [pieces]
  | succ n ih =>
    rw [pieces, List.flatten_cons, ih, Nat.succ_mul, Nat.add_comm (n * w) w, List.range_add,
      List.map_append, List.map_map]
    congr 1
    refine List.map_congr_left fun i _ => ?_
    rw [Function.comp_apply, BitVec.ofNat_add, BitVec.add_assoc]

theorem Memory.ne_nil_of_mem_pieces (mem : Memory) {w : ℕ} (hw : w ≠ 0) {n : ℕ} {p : Word} :
    ∀ piece ∈ mem.pieces w n p, piece ≠ [] := by
  induction n generalizing p with
  | zero => simp [pieces]
  | succ n ih =>
    intro piece hpiece
    rw [pieces, List.mem_cons] at hpiece
    obtain rfl | hpiece := hpiece
    · simpa using hw
    · exact ih piece hpiece

theorem Memory.block_eq (mem : Memory) (w n : ℕ) (h : n * w = 512) (p : Word) :
    (mem.pieces w n p).flatten = mem.block p := by
  rw [flatten_pieces, h, block]

theorem Memory.length_block (mem : Memory) (p : Word) : (mem.block p).length = 512 := by
  rw [block, List.length_map, List.length_range]

/-- The block for a place of the buffer: a null pointer stands for zeros. -/
def Memory.given (mem : Memory) (buf : Word) : List (BitVec 8) :=
  if buf = 0 then List.replicate 512 0 else mem.block buf

theorem wordBytes_word (mem : Memory) (p : Word) :
    Sdio.wordBytes (mem.word p) = (List.range 4).map fun i => mem (p + BitVec.ofNat 32 i) := by
  have h0 : (mem.word p).extractLsb' 0 8 = mem p := by
    ext i hi
    grind [Memory.word]
  have h1 : (mem.word p).extractLsb' 8 8 = mem (p + 1) := by
    ext i hi
    grind [Memory.word]
  have h2 : (mem.word p).extractLsb' 16 8 = mem (p + 2) := by
    ext i hi
    grind [Memory.word]
  have h3 : (mem.word p).extractLsb' 24 8 = mem (p + 3) := by
    ext i hi
    grind [Memory.word]
  rw [Sdio.wordBytes, h0, h1, h2, h3]
  simp [List.range_succ]

theorem halfBytes_half (mem : Memory) (p : Word) :
    Sdc.halfBytes ((mem.half p).setWidth 32) =
      (List.range 2).map fun i => mem (p + BitVec.ofNat 32 i) := by
  have h0 : ((mem.half p).setWidth 32).extractLsb' 0 8 = mem p := by
    ext i hi
    grind [Memory.half]
  have h1 : ((mem.half p).setWidth 32).extractLsb' 8 8 = mem (p + 1) := by
    ext i hi
    grind [Memory.half]
  rw [Sdc.halfBytes, h0, h1]
  simp [List.range_succ]

/-- The next place of the buffer; a null pointer stays. -/
def nextBuf (buf p : Word) : Word := if buf = 0 then p else p + 512

/-- What a round stores. -/
def roundData (mem : Memory) (buf p : Word) : List (BitVec 8) :=
  if buf = 0 then List.replicate 512 0 else mem.block p

theorem iterate_add_block (k : ℕ) (p : Word) :
    (· + (512 : Word))^[k] p = p + BitVec.ofNat 32 (512 * k) := by
  induction k generalizing p with
  | zero => simp
  | succ k ih =>
    rw [Function.iterate_succ_apply, ih, BitVec.add_assoc, Nat.mul_succ, Nat.add_comm (512 * k),
      BitVec.ofNat_add]
    rfl

theorem iterate_nextBuf (buf : Word) (k : ℕ) (p : Word) :
    (nextBuf buf)^[k] p = if buf = 0 then p else p + BitVec.ofNat 32 (512 * k) := by
  by_cases hbuf : buf = 0
  · rw [if_pos hbuf, show nextBuf buf = id from funext fun p => if_pos hbuf,
      Function.iterate_id, id]
  · rw [if_neg hbuf, show nextBuf buf = (· + 512) from funext fun p => if_neg hbuf,
      iterate_add_block]

/-! ## Addresses and counts -/

theorem blockOfArg_argOfBlock {accMode : Bool} {addr : Word}
    (h : accMode = false → addr.toNat < 2 ^ 23) :
    blockOfArg accMode (argOfBlock accMode addr) = addr.toNat := by
  cases accMode with
  | true => rfl
  | false =>
    have haddr := h rfl
    change (addr * mmcBlockLen).toNat / 512 = addr.toNat
    rw [BitVec.toNat_mul, show mmcBlockLen.toNat = 512 from rfl, Nat.mod_eq_of_lt (by omega),
      Nat.mul_div_cancel _ (by decide)]

theorem high_half (val num : Word) :
    ((val &&& (0xffff : Word) ||| num <<< 16) >>> 16).toNat = num.toNat % 65536 := by
  have hlow : (val &&& (0xffff : Word)) >>> 16 = 0#32 := by
    apply BitVec.eq_of_toNat_eq
    have hle : val.toNat &&& 0xffff ≤ 0xffff := Nat.and_le_right
    rw [BitVec.toNat_ushiftRight, BitVec.toNat_and, Nat.shiftRight_eq_div_pow]
    exact Nat.div_eq_of_lt (by change _ &&& 0xffff < _; omega)
  rw [BitVec.ushiftRight_or_distrib, hlow, BitVec.zero_or, BitVec.toNat_ushiftRight,
    BitVec.toNat_shiftLeft, Nat.shiftLeft_eq, Nat.shiftRight_eq_div_pow]
  omega

theorem low_half (val num : Word) :
    (val &&& (0xffff : Word) ||| num <<< 16) &&& 0xfff = val &&& 0xfff := by
  have hhigh : num <<< 16 &&& (0xfff : Word) = 0#32 := by
    apply BitVec.eq_of_toNat_eq
    rw [BitVec.toNat_and, BitVec.toNat_shiftLeft, Nat.shiftLeft_eq,
      show (0xfff : Word).toNat = 2 ^ 12 - 1 from rfl, Nat.and_two_pow_sub_one_eq_mod]
    change _ = 0
    omega
  rw [BitVec.and_or_distrib_right, hhigh, BitVec.or_zero, BitVec.and_assoc]
  rfl

/-! ## A loop over blocks -/

section BlockLoop

variable {ρ : Type} {round : Word → Port ρ (BitVec 8) → Option (Bool × Word × Port ρ (BitVec 8))}
  {P : Port ρ (BitVec 8) → Prop} {f : Word → Word} {d : Word → List (BitVec 8)}

theorem blockLoop_eq
    (hround : ∀ p s, P s → s.left ≠ 0 →
      ∃ t, round p s = some (true, f p, t) ∧ P t ∧ s.Stores t (d p))
    {n : ℕ} {p : Word} {s : Port ρ (BitVec 8)} (hs : P s) (hn : n ≤ s.left) :
    ∃ t, blockLoop round n p s = some (true, t) ∧ P t ∧ t.left = s.left - n ∧
      t.blocks = overwrite s.blocks s.next ((List.range n).map fun k => d (f^[k] p)) := by
  induction n generalizing p s with
  | zero => exact ⟨s, rfl, hs, rfl, by simp⟩
  | succ n ih =>
    obtain ⟨t, hrun, ht, hstores⟩ := hround p s hs (by omega)
    obtain ⟨u, hloop, hu, hleft, hblocks⟩ := ih (p := f p) ht (by rw [hstores.left]; omega)
    refine ⟨u, by rw [blockLoop, hrun]; exact hloop, hu, by rw [hleft, hstores.left]; omega, ?_⟩
    rw [hblocks, hstores.blocks, hstores.next, List.range_succ_eq_map, List.map_cons,
      overwrite_cons, List.map_map]
    rfl

theorem blockLoop_eq_none
    (hround : ∀ p s, P s → s.left ≠ 0 →
      ∃ t, round p s = some (true, f p, t) ∧ P t ∧ s.Stores t (d p))
    (hstuck : ∀ p s, P s → s.left = 0 → round p s = none)
    {n : ℕ} {p : Word} {s : Port ρ (BitVec 8)} (hs : P s) (hn : s.left < n) :
    blockLoop round n p s = none := by
  induction n generalizing p s with
  | zero => exact absurd hn (Nat.not_lt_zero _)
  | succ n ih =>
    by_cases hleft : s.left = 0
    · rw [blockLoop, hstuck p s hs hleft]
      rfl
    · obtain ⟨t, hrun, ht, hstores⟩ := hround p s hs hleft
      rw [blockLoop, hrun]
      exact ih ht (by rw [hstores.left]; omega)

end BlockLoop

end Mmc
end EmevBsp
