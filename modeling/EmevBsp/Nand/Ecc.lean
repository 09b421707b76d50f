import EmevBsp.Library.TwoRail
import Mathlib.Logic.Function.Basic
import Mathlib.Tactic.IntervalCases

/-!
# `drivers/mtd/nand/nand_ecc.c`: three bytes that guard 256

`nand_calculate_ecc` computes three bytes from a block of 256.  `nand_correct_data` gets the block
that was read, the three bytes that were stored beside it and the three that are computed from what
was read, and puts the block right where it can.  The bytes are in the order that the code has
without `CONFIG_MTD_NAND_ECC_SMC`.
-/

namespace EmevBsp
namespace Nand

/-! ## The functions of the source -/

def nandEccPrecalcTable : Array (BitVec 8) := #[
  0x00, 0x55, 0x56, 0x03, 0x59, 0x0c, 0x0f, 0x5a, 0x5a, 0x0f, 0x0c, 0x59, 0x03, 0x56, 0x55, 0x00,
  0x65, 0x30, 0x33, 0x66, 0x3c, 0x69, 0x6a, 0x3f, 0x3f, 0x6a, 0x69, 0x3c, 0x66, 0x33, 0x30, 0x65,
  0x66, 0x33, 0x30, 0x65, 0x3f, 0x6a, 0x69, 0x3c, 0x3c, 0x69, 0x6a, 0x3f, 0x65, 0x30, 0x33, 0x66,
  0x03, 0x56, 0x55, 0x00, 0x5a, 0x0f, 0x0c, 0x59, 0x59, 0x0c, 0x0f, 0x5a, 0x00, 0x55, 0x56, 0x03,
  0x69, 0x3c, 0x3f, 0x6a, 0x30, 0x65, 0x66, 0x33, 0x33, 0x66, 0x65, 0x30, 0x6a, 0x3f, 0x3c, 0x69,
  0x0c, 0x59, 0x5a, 0x0f, 0x55, 0x00, 0x03, 0x56, 0x56, 0x03, 0x00, 0x55, 0x0f, 0x5a, 0x59, 0x0c,
  0x0f, 0x5a, 0x59, 0x0c, 0x56, 0x03, 0x00, 0x55, 0x55, 0x00, 0x03, 0x56, 0x0c, 0x59, 0x5a, 0x0f,
  0x6a, 0x3f, 0x3c, 0x69, 0x33, 0x66, 0x65, 0x30, 0x30, 0x65, 0x66, 0x33, 0x69, 0x3c, 0x3f, 0x6a,
  0x6a, 0x3f, 0x3c, 0x69, 0x33, 0x66, 0x65, 0x30, 0x30, 0x65, 0x66, 0x33, 0x69, 0x3c, 0x3f, 0x6a,
  0x0f, 0x5a, 0x59, 0x0c, 0x56, 0x03, 0x00, 0x55, 0x55, 0x00, 0x03, 0x56, 0x0c, 0x59, 0x5a, 0x0f,
  0x0c, 0x59, 0x5a, 0x0f, 0x55, 0x00, 0x03, 0x56, 0x56, 0x03, 0x00, 0x55, 0x0f, 0x5a, 0x59, 0x0c,
  0x69, 0x3c, 0x3f, 0x6a, 0x30, 0x65, 0x66, 0x33, 0x33, 0x66, 0x65, 0x30, 0x6a, 0x3f, 0x3c, 0x69,
  0x03, 0x56, 0x55, 0x00, 0x5a, 0x0f, 0x0c, 0x59, 0x59, 0x0c, 0x0f, 0x5a, 0x00, 0x55, 0x56, 0x03,
  0x66, 0x33, 0x30, 0x65, 0x3f, 0x6a, 0x69, 0x3c, 0x3c, 0x69, 0x6a, 0x3f, 0x65, 0x30, 0x33, 0x66,
  0x65, 0x30, 0x33, 0x66, 0x3c, 0x69, 0x6a, 0x3f, 0x3f, 0x6a, 0x69, 0x3c, 0x66, 0x33, 0x30, 0x65,
  0x00, 0x55, 0x56, 0x03, 0x59, 0x0c, 0x0f, 0x5a, 0x5a, 0x0f, 0x0c, 0x59, 0x03, 0x56, 0x55, 0x00]

/-- The registers of `nand_calculate_ecc`. -/
structure Parity where
  reg1 : BitVec 8
  reg2 : BitVec 8
  reg3 : BitVec 8
deriving DecidableEq

/-- The loop of `nand_calculate_ecc`, the first bytes of the block. -/
def columnParity (dat : ℕ → BitVec 8) : ℕ → Parity
  | 0 => ⟨0, 0, 0⟩
  | i + 1 =>
    let r := columnParity dat i
    let idx := nandEccPrecalcTable.getD (dat i).toNat 0
    let reg1 := r.reg1 ^^^ (idx &&& 0x3f#8)
    if idx &&& 0x40#8 ≠ 0 then
      ⟨reg1, r.reg2 ^^^ ~~~BitVec.ofNat 8 i, r.reg3 ^^^ BitVec.ofNat 8 i⟩
    else ⟨reg1, r.reg2, r.reg3⟩

/-- `tmp1`, the high halves of the line parity with their bits alternating. -/
def Parity.tmp1 (r : Parity) : BitVec 8 :=
  (r.reg3 &&& 0x80#8) >>> 0 ||| (r.reg2 &&& 0x80#8) >>> 1 |||
  (r.reg3 &&& 0x40#8) >>> 1 ||| (r.reg2 &&& 0x40#8) >>> 2 |||
  (r.reg3 &&& 0x20#8) >>> 2 ||| (r.reg2 &&& 0x20#8) >>> 3 |||
  (r.reg3 &&& 0x10#8) >>> 3 ||| (r.reg2 &&& 0x10#8) >>> 4

/-- `tmp2`, the low halves. -/
def Parity.tmp2 (r : Parity) : BitVec 8 :=
  (r.reg3 &&& 0x08#8) <<< 4 ||| (r.reg2 &&& 0x08#8) <<< 3 |||
  (r.reg3 &&& 0x04#8) <<< 3 ||| (r.reg2 &&& 0x04#8) <<< 2 |||
  (r.reg3 &&& 0x02#8) <<< 2 ||| (r.reg2 &&& 0x02#8) <<< 1 |||
  (r.reg3 &&& 0x01#8) <<< 1 ||| (r.reg2 &&& 0x01#8) <<< 0

/-- `ecc_code`, `read_ecc`, `calc_ecc`. -/
structure EccCode where
  code0 : BitVec 8
  code1 : BitVec 8
  code2 : BitVec 8
deriving DecidableEq

/-- The bytes that the registers come to. -/
def Parity.code (r : Parity) : EccCode := ⟨~~~r.tmp1, ~~~r.tmp2, (~~~r.reg1) <<< 2 ||| 0x03#8⟩

def nandCalculateEcc (dat : ℕ → BitVec 8) : EccCode := (columnParity dat 256).code

/-- The loop of `countbits`; a word of 32 bits is zero after 32 rounds. -/
def countbitsLoop : ℕ → BitVec 32 → ℕ
  | 0, _ => 0
  | n + 1, byte => if byte = 0 then 0 else (byte &&& 0x01#32).toNat + countbitsLoop n (byte >>> 1)

def countbits (byte : BitVec 32) : ℕ := countbitsLoop 32 byte

/-- A bit of the block turned over: `dat[byteoffs] ^= (1 << bitnum)`. -/
def flip (dat : ℕ → BitVec 8) (byteoffs bitnum : ℕ) : ℕ → BitVec 8 :=
  Function.update dat byteoffs (dat byteoffs ^^^ (1#8 <<< bitnum))

/-- `byteoffs`: the even bits of the two bytes are masked away. -/
def byteoffs (s0 s1 : BitVec 8) : BitVec 8 :=
  ((s1 <<< 0) &&& 0x80#8) ||| ((s1 <<< 1) &&& 0x40#8) ||| ((s1 <<< 2) &&& 0x20#8) |||
  ((s1 <<< 3) &&& 0x10#8) |||
  ((s0 >>> 4) &&& 0x08#8) ||| ((s0 >>> 3) &&& 0x04#8) ||| ((s0 >>> 2) &&& 0x02#8) |||
  ((s0 >>> 1) &&& 0x01#8)

def bitnum (s2 : BitVec 8) : BitVec 8 :=
  ((s2 >>> 5) &&& 0x04#8) ||| ((s2 >>> 4) &&& 0x02#8) ||| ((s2 >>> 3) &&& 0x01#8)

def ebadmsg : ℤ := -74

/-- `nand_correct_data`: the result, and the block afterwards. -/
def nandCorrectData (dat : ℕ → BitVec 8) (readEcc calcEcc : EccCode) : ℤ × (ℕ → BitVec 8) :=
  let s1 := calcEcc.code0 ^^^ readEcc.code0
  let s0 := calcEcc.code1 ^^^ readEcc.code1
  let s2 := calcEcc.code2 ^^^ readEcc.code2
  if s0 ||| s1 ||| s2 = 0 then (0, dat)
  else if (s0 ^^^ (s0 >>> 1)) &&& 0x55#8 = 0x55#8 ∧ (s1 ^^^ (s1 >>> 1)) &&& 0x55#8 = 0x55#8 ∧
      (s2 ^^^ (s2 >>> 1)) &&& 0x54#8 = 0x54#8 then
    (1, flip dat (byteoffs s0 s1).toNat (bitnum s2).toNat)
  else if countbits (s0.setWidth 32 ||| (s1.setWidth 32) <<< 8 ||| (s2.setWidth 32) <<< 16) = 1 then
    (1, dat)
  else (ebadmsg, dat)

/-! ## The table -/

/-- A bit of the byte takes its column into the entry. -/
def column (b : Bool) (c : BitVec 8) : BitVec 8 := if b then c else 0

/-- The entry of a byte, from the columns of its bits. -/
def entry (x : BitVec 8) : BitVec 8 :=
  column (x.getLsbD 0) 0x55#8 ^^^ column (x.getLsbD 1) 0x56#8 ^^^ column (x.getLsbD 2) 0x59#8 ^^^
  column (x.getLsbD 3) 0x5a#8 ^^^ column (x.getLsbD 4) 0x65#8 ^^^ column (x.getLsbD 5) 0x66#8 ^^^
  column (x.getLsbD 6) 0x69#8 ^^^ column (x.getLsbD 7) 0x6a#8

theorem toList_nandEccPrecalcTable :
    nandEccPrecalcTable.toList = (List.range 256).map fun n => entry (BitVec.ofNat 8 n) := by
  decide +kernel

theorem getD_nandEccPrecalcTable (x : BitVec 8) :
    nandEccPrecalcTable.getD x.toNat 0 = entry x := by
  rw [Array.getD_eq_getD_getElem?, ← Array.getElem?_toList, toList_nandEccPrecalcTable,
    List.getElem?_map, List.getElem?_range x.isLt, Option.map_some, Option.getD_some,
    BitVec.ofNat_toNat, BitVec.setWidth_eq]

theorem column_xor (b c : Bool) (m : BitVec 8) : column (b ^^ c) m = column b m ^^^ column c m := by
  cases b <;> cases c <;> simp [column]

theorem entry_xor (x y : BitVec 8) : entry (x ^^^ y) = entry x ^^^ entry y := by
  simp only [entry, BitVec.getLsbD_xor, column_xor]
  ac_rfl

/-! ## One bit of the block -/

theorem xor_and (x y m : BitVec 8) : (x ^^^ y) &&& m = (x &&& m) ^^^ (y &&& m) := by
  apply BitVec.eq_of_getLsbD_eq
  intro i _
  rw [BitVec.getLsbD_and, BitVec.getLsbD_xor, BitVec.getLsbD_xor, BitVec.getLsbD_and,
    BitVec.getLsbD_and, Bool.and_xor_distrib_right]

/-- Register by register. -/
def Parity.xor (r m : Parity) : Parity :=
  ⟨r.reg1 ^^^ m.reg1, r.reg2 ^^^ m.reg2, r.reg3 ^^^ m.reg3⟩

/-- What a bit of the block adds to the registers. -/
def mark (b : BitVec 8) (k : BitVec 3) : Parity :=
  ⟨entry (1#8 <<< k.toNat) &&& 0x3f#8, ~~~b, b⟩

theorem entry_parity : ∀ k : BitVec 3, entry (1#8 <<< k.toNat) &&& 0x40#8 = 0x40#8 := by
  decide

theorem entry_flip_parity (x : BitVec 8) (k : BitVec 3) :
    entry (x ^^^ (1#8 <<< k.toNat)) &&& 0x40#8 ≠ 0 ↔ entry x &&& 0x40#8 = 0 := by
  have hbit : ∀ e : BitVec 8, (e &&& 0x40#8) ^^^ 0x40#8 ≠ 0 ↔ e &&& 0x40#8 = 0 := by decide
  rw [entry_xor, xor_and, entry_parity, hbit]

theorem xor_right_comm (x y z : BitVec 8) : x ^^^ y ^^^ z = x ^^^ z ^^^ y := by
  rw [BitVec.xor_assoc, BitVec.xor_comm y, ← BitVec.xor_assoc]

theorem flip_of_ne (dat : ℕ → BitVec 8) {b k i : ℕ} (h : i ≠ b) : flip dat b k i = dat i :=
  Function.update_of_ne h _ _

theorem flip_self (dat : ℕ → BitVec 8) (b k : ℕ) : flip dat b k b = dat b ^^^ (1#8 <<< k) :=
  Function.update_self _ _ _

theorem flip_flip (dat : ℕ → BitVec 8) (b k : ℕ) : flip (flip dat b k) b k = dat := by
  rw [flip, flip_self, BitVec.xor_assoc, BitVec.xor_self, BitVec.xor_zero, flip,
    Function.update_idem, Function.update_eq_self]

theorem columnParity_flip (dat : ℕ → BitVec 8) (b : BitVec 8) (k : BitVec 3) (n : ℕ) :
    columnParity (flip dat b.toNat k.toNat) n =
      if b.toNat < n then (columnParity dat n).xor (mark b k) else columnParity dat n := by
  induction n with
  | zero => rfl
  | succ n ih =>
    rcases Nat.lt_trichotomy b.toNat n with hlt | heq | hgt
    · rw [if_pos (by omega)]
      rw [if_pos hlt] at ih
      rw [columnParity, columnParity, ih, flip_of_ne dat (by omega)]
      split
      · rw [Parity.xor, Parity.xor, xor_right_comm, xor_right_comm (columnParity dat n).reg2,
          xor_right_comm (columnParity dat n).reg3]
      · rw [Parity.xor, Parity.xor, xor_right_comm]
    · rw [if_pos (by omega)]
      rw [if_neg (by omega)] at ih
      have hb : BitVec.ofNat 8 n = b := by
        rw [← heq, BitVec.ofNat_toNat, BitVec.setWidth_eq]
      rw [columnParity, columnParity, ih, ← heq, flip_self, getD_nandEccPrecalcTable,
        getD_nandEccPrecalcTable, heq, hb]
      by_cases hodd : entry (dat n) &&& 0x40#8 = 0
      · have hflip := (entry_flip_parity (dat n) k).mpr hodd
        rw [if_pos hflip, if_neg (not_not.mpr hodd), entry_xor, xor_and, ← BitVec.xor_assoc]
        rfl
      · have hflip := mt (entry_flip_parity (dat n) k).mp hodd
        rw [if_neg hflip, if_pos hodd, entry_xor, xor_and, ← BitVec.xor_assoc, Parity.xor, mark,
          BitVec.xor_assoc (columnParity dat n).reg2, BitVec.xor_self, BitVec.xor_zero,
          BitVec.xor_assoc (columnParity dat n).reg3, BitVec.xor_self, BitVec.xor_zero]
    · rw [if_neg (by omega)]
      rw [if_neg (by omega)] at ih
      rw [columnParity, columnParity, ih, flip_of_ne dat (by omega)]

/-! ## The rails in the three bytes -/

/-- Byte by byte. -/
def EccCode.xor (c d : EccCode) : EccCode :=
  ⟨c.code0 ^^^ d.code0, c.code1 ^^^ d.code1, c.code2 ^^^ d.code2⟩

/-- A half byte from its bits. -/
def nibble (a b c d : Bool) : BitVec 4 :=
  BitVec.ofBool a ++ BitVec.ofBool b ++ BitVec.ofBool c ++ BitVec.ofBool d

/-- Three bits. -/
def triple (a b c : Bool) : BitVec 3 := BitVec.ofBool a ++ BitVec.ofBool b ++ BitVec.ofBool c

/-- The bits of a byte that hold a rail, and those that hold the other. -/
def odds (x : BitVec 8) : BitVec 4 :=
  nibble (x.getLsbD 7) (x.getLsbD 5) (x.getLsbD 3) (x.getLsbD 1)

def evens (x : BitVec 8) : BitVec 4 :=
  nibble (x.getLsbD 6) (x.getLsbD 4) (x.getLsbD 2) (x.getLsbD 0)

/-- The third byte has a pair less. -/
def odds3 (x : BitVec 8) : BitVec 3 := triple (x.getLsbD 7) (x.getLsbD 5) (x.getLsbD 3)

def evens3 (x : BitVec 8) : BitVec 3 := triple (x.getLsbD 6) (x.getLsbD 4) (x.getLsbD 2)

/-- The two bits that hold nothing. -/
def EccCode.spare (c : EccCode) : BitVec 2 := c.code2.setWidth 2

/-- An address: the number of a byte in two halves, then the number of a bit. -/
def address (a b : BitVec 4) (c : BitVec 3) : BitVec 11 := a ++ b ++ c

/-- The rails. -/
def EccCode.rails (c : EccCode) : TwoRail.Rails 11 :=
  ⟨address (odds c.code0) (odds c.code1) (odds3 c.code2),
   address (evens c.code0) (evens c.code1) (evens3 c.code2)⟩

theorem nibble_xor : ∀ a b c d a' b' c' d' : Bool,
    nibble (a ^^ a') (b ^^ b') (c ^^ c') (d ^^ d') = nibble a b c d ^^^ nibble a' b' c' d' := by
  decide

theorem triple_xor : ∀ a b c a' b' c' : Bool,
    triple (a ^^ a') (b ^^ b') (c ^^ c') = triple a b c ^^^ triple a' b' c' := by
  decide

theorem address_xor (a b a' b' : BitVec 4) (c c' : BitVec 3) :
    address (a ^^^ a') (b ^^^ b') (c ^^^ c') = address a b c ^^^ address a' b' c' := by
  rw [address, ← BitVec.xor_append, ← BitVec.xor_append]
  rfl

theorem address_not (a b : BitVec 4) (c : BitVec 3) :
    ~~~address a b c = address (~~~a) (~~~b) (~~~c) := by
  rw [address, address, ← BitVec.not_append, ← BitVec.not_append]

theorem address_inj {a b a' b' : BitVec 4} {c c' : BitVec 3} :
    address a b c = address a' b' c' ↔ a = a' ∧ b = b' ∧ c = c' := by
  constructor
  · intro h
    have hc := congrArg (fun x => x.extractLsb' 0 3) h
    have hab := congrArg (fun x => x.extractLsb' 3 8) h
    simp only [address, BitVec.extractLsb'_append_eq_right] at hc
    have hab' : a ++ b = a' ++ b' := by
      simpa only [address, BitVec.extractLsb'_append_eq_left] using hab
    have hb := congrArg (fun x => x.extractLsb' 0 4) hab'
    have ha := congrArg (fun x => x.extractLsb' 4 4) hab'
    simp only [BitVec.extractLsb'_append_eq_right] at hb
    simp only [BitVec.extractLsb'_append_eq_left] at ha
    exact ⟨ha, hb, hc⟩
  · rintro ⟨rfl, rfl, rfl⟩
    rfl

theorem rails_xor (c d : EccCode) : (c.xor d).rails = c.rails.xor d.rails := by
  simp only [EccCode.rails, EccCode.xor, TwoRail.Rails.xor, odds, evens, odds3, evens3,
    BitVec.getLsbD_xor, nibble_xor, triple_xor, address_xor]

theorem spare_xor (c d : EccCode) : (c.xor d).spare = c.spare ^^^ d.spare := by
  rw [EccCode.spare, EccCode.xor, BitVec.setWidth_xor, EccCode.spare, EccCode.spare]

/-- The difference that a difference of the registers makes in the three bytes. -/
def Parity.diff (m : Parity) : EccCode := ⟨m.tmp1, m.tmp2, m.reg1 <<< 2⟩

theorem tmp1_xor (r m : Parity) : (r.xor m).tmp1 = r.tmp1 ^^^ m.tmp1 := by
  apply BitVec.eq_of_getLsbD_eq
  intro i hi
  interval_cases i <;> simp [Parity.tmp1, Parity.xor]

theorem tmp2_xor (r m : Parity) : (r.xor m).tmp2 = r.tmp2 ^^^ m.tmp2 := by
  apply BitVec.eq_of_getLsbD_eq
  intro i hi
  interval_cases i <;> simp [Parity.tmp2, Parity.xor]

theorem code_xor (r m : Parity) : (r.xor m).code.xor r.code = m.diff := by
  have hnot : ∀ x y : BitVec 8, ~~~(x ^^^ y) ^^^ ~~~x = y := by
    intro x y
    rw [← BitVec.not_xor_left, ← BitVec.not_xor_right, BitVec.not_not, BitVec.xor_comm,
      ← BitVec.xor_assoc, BitVec.xor_self, BitVec.zero_xor]
  have hor : ∀ x y : BitVec 8, ((~~~(x ^^^ y)) <<< 2 ||| 0x03#8) ^^^
      ((~~~x) <<< 2 ||| 0x03#8) = y <<< 2 := by
    intro x y
    have hbit : ∀ a b : Bool, (a != (b != a)) = b := by decide
    apply BitVec.eq_of_getLsbD_eq
    intro i hi
    interval_cases i <;> simp [hbit]
  rw [Parity.code, Parity.code, EccCode.xor, tmp1_xor, tmp2_xor, hnot, hnot]
  dsimp only [Parity.xor]
  rw [hor, Parity.diff]

theorem nandCalculateEcc_flip (dat : ℕ → BitVec 8) (b : BitVec 8) (k : BitVec 3) :
    (nandCalculateEcc (flip dat b.toNat k.toNat)).xor (nandCalculateEcc dat) = (mark b k).diff := by
  rw [nandCalculateEcc, nandCalculateEcc, columnParity_flip, if_pos b.isLt, code_xor]

/-! ## Where a bit is -/

def high (x : BitVec 8) : BitVec 4 :=
  nibble (x.getLsbD 7) (x.getLsbD 6) (x.getLsbD 5) (x.getLsbD 4)

def low (x : BitVec 8) : BitVec 4 :=
  nibble (x.getLsbD 3) (x.getLsbD 2) (x.getLsbD 1) (x.getLsbD 0)

theorem high_not (x : BitVec 8) : high (~~~x) = ~~~high x := by
  have hnot : ∀ a b c d : Bool, nibble (!a) (!b) (!c) (!d) = ~~~nibble a b c d := by decide
  simp [high, hnot]

theorem low_not (x : BitVec 8) : low (~~~x) = ~~~low x := by
  have hnot : ∀ a b c d : Bool, nibble (!a) (!b) (!c) (!d) = ~~~nibble a b c d := by decide
  simp [low, hnot]

theorem odds_tmp1 (r : Parity) : odds r.tmp1 = high r.reg3 := by
  simp [odds, Parity.tmp1, high]

theorem evens_tmp1 (r : Parity) : evens r.tmp1 = high r.reg2 := by
  simp [evens, Parity.tmp1, high]

theorem odds_tmp2 (r : Parity) : odds r.tmp2 = low r.reg3 := by
  simp [odds, Parity.tmp2, low]

theorem evens_tmp2 (r : Parity) : evens r.tmp2 = low r.reg2 := by
  simp [evens, Parity.tmp2, low]

/-- The address of a bit of the block. -/
def addressOf (b : BitVec 8) (k : BitVec 3) : BitVec 11 := address (high b) (low b) k

theorem rails_diff (b : BitVec 8) (k : BitVec 3) :
    (mark b k).diff.rails = ⟨addressOf b k, ~~~addressOf b k⟩ := by
  have hodd : ∀ k : BitVec 3, odds3 ((entry (1#8 <<< k.toNat) &&& 0x3f#8) <<< 2) = k := by decide
  have heven : ∀ k : BitVec 3, evens3 ((entry (1#8 <<< k.toNat) &&& 0x3f#8) <<< 2) = ~~~k := by
    decide
  rw [Parity.diff, EccCode.rails, odds_tmp1, evens_tmp1, odds_tmp2, evens_tmp2]
  dsimp only [mark]
  rw [hodd, heven, high_not, low_not, addressOf, address_not]

theorem spare_diff (b : BitVec 8) (k : BitVec 3) : (mark b k).diff.spare = 0#2 := by
  have hspare : ∀ k : BitVec 3,
      ((entry (1#8 <<< k.toNat) &&& 0x3f#8) <<< 2).setWidth 2 = 0#2 := by decide
  exact hspare k

/-! ## The correction -/

theorem odds_eq_iff :
    ∀ s : BitVec 8, (s ^^^ (s >>> 1)) &&& 0x55#8 = 0x55#8 ↔ odds s = ~~~evens s := by
  decide +kernel

theorem odds3_eq_iff :
    ∀ s : BitVec 8, (s ^^^ (s >>> 1)) &&& 0x54#8 = 0x54#8 ↔ odds3 s = ~~~evens3 s := by
  decide +kernel

theorem byteoffs_eq (s0 s1 : BitVec 8) : byteoffs s0 s1 = odds s1 ++ odds s0 := by
  have hs1 : ∀ s : BitVec 8, ((s <<< 0) &&& 0x80#8) ||| ((s <<< 1) &&& 0x40#8) |||
      ((s <<< 2) &&& 0x20#8) ||| ((s <<< 3) &&& 0x10#8) = odds s ++ 0#4 := by
    decide +kernel
  have hs0 : ∀ s : BitVec 8, ((s >>> 4) &&& 0x08#8) ||| ((s >>> 3) &&& 0x04#8) |||
      ((s >>> 2) &&& 0x02#8) ||| ((s >>> 1) &&& 0x01#8) = 0#4 ++ odds s := by
    decide +kernel
  have hor : (odds s1 ++ 0#4) ||| (0#4 ++ odds s0) = odds s1 ++ odds s0 := by
    rw [BitVec.or_append, BitVec.or_zero, BitVec.zero_or]
  rw [← hs1, ← hs0] at hor
  rw [byteoffs, ← hor]
  ac_rfl

theorem bitnum_eq : ∀ s2 : BitVec 8, bitnum s2 = (odds3 s2).setWidth 8 := by
  decide +kernel

theorem high_append_low : ∀ b : BitVec 8, high b ++ low b = b := by
  decide +kernel

theorem toNat_of_line {s : EccCode} {b : BitVec 8} {k : BitVec 3}
    (h : s.rails.line = addressOf b k) :
    (byteoffs s.code1 s.code0).toNat = b.toNat ∧ (bitnum s.code2).toNat = k.toNat := by
  obtain ⟨hhigh, hlow, hbit⟩ := address_inj.mp h
  constructor
  · rw [byteoffs_eq, hhigh, hlow, high_append_low]
  · rw [bitnum_eq, hbit, BitVec.toNat_setWidth_of_le (by decide)]

/-! ## Counting -/

theorem countbitsLoop_eq (n : ℕ) (x : BitVec 32) :
    countbitsLoop n x = ∑ i ∈ Finset.range n, (x.getLsbD i).toNat := by
  induction n generalizing x with
  | zero => rfl
  | succ n ih =>
    rw [countbitsLoop, Finset.sum_range_succ']
    split
    · next hzero =>
      subst hzero
      simp
    · rw [ih]
      have hlow : (x &&& 0x01#32).toNat = (x.getLsbD 0).toNat := by
        rw [BitVec.and_one_eq_setWidth_ofBool_getLsbD]
        cases x.getLsbD 0 <;> rfl
      rw [hlow, add_comm]
      congr 1
      refine Finset.sum_congr rfl fun i _ => ?_
      rw [BitVec.getLsbD_ushiftRight, add_comm]

theorem countbits_eq (x : BitVec 32) : countbits x = TwoRail.weight x := by
  rw [countbits, countbitsLoop_eq, TwoRail.weight_eq_sum]

theorem weight_nibble : ∀ a b c d : Bool,
    TwoRail.weight (nibble a b c d) = a.toNat + b.toNat + c.toNat + d.toNat := by
  decide

theorem weight_triple : ∀ a b c : Bool,
    TwoRail.weight (triple a b c) = a.toNat + b.toNat + c.toNat := by
  decide

theorem weight_byte (x : BitVec 8) :
    TwoRail.weight x = TwoRail.weight (odds x) + TwoRail.weight (evens x) := by
  rw [odds, evens, weight_nibble, weight_nibble, TwoRail.weight_eq_sum]
  simp only [Finset.sum_range_succ, Finset.sum_range_zero]
  omega

theorem weight_byte3 (x : BitVec 8) :
    TwoRail.weight x =
      TwoRail.weight (odds3 x) + TwoRail.weight (evens3 x) + TwoRail.weight (x.setWidth 2) := by
  have hlow : TwoRail.weight (x.setWidth 2) = (x.getLsbD 0).toNat + (x.getLsbD 1).toNat := by
    rw [TwoRail.weight_eq_sum, Finset.sum_range_succ, Finset.sum_range_one,
      BitVec.getLsbD_setWidth, BitVec.getLsbD_setWidth]
    rfl
  rw [odds3, evens3, weight_triple, weight_triple, hlow, TwoRail.weight_eq_sum]
  simp only [Finset.sum_range_succ, Finset.sum_range_zero]
  omega

theorem countbits_code (s : EccCode) :
    countbits (s.code1.setWidth 32 ||| (s.code0.setWidth 32) <<< 8 |||
      (s.code2.setWidth 32) <<< 16) =
      TwoRail.weight s.rails.line + TwoRail.weight s.rails.prime + TwoRail.weight s.spare := by
  have hcat : s.code1.setWidth 32 ||| (s.code0.setWidth 32) <<< 8 ||| (s.code2.setWidth 32) <<< 16 =
      (s.code2 ++ s.code0 ++ s.code1).setWidth 32 := by
    rw [BitVec.setWidth_append_append_eq_shiftLeft_setWidth_or, BitVec.or_comm,
      BitVec.or_comm (s.code1.setWidth 32), BitVec.or_assoc]
  rw [hcat, countbits_eq, TwoRail.weight_setWidth (by decide), TwoRail.weight_append,
    TwoRail.weight_append, EccCode.rails, EccCode.spare, address, address, TwoRail.weight_append,
    TwoRail.weight_append, TwoRail.weight_append, TwoRail.weight_append, weight_byte3,
    weight_byte s.code0, weight_byte s.code1]
  omega

/-- The code for a block that was read as it was written. -/
def EccCode.none : EccCode := ⟨0#8, 0#8, 0#8⟩

theorem nandCorrectData_eq (dat : ℕ → BitVec 8) {readEcc calcEcc s : EccCode}
    (hs : calcEcc.xor readEcc = s) :
    nandCorrectData dat readEcc calcEcc =
      if s = .none then (0, dat)
      else if s.rails.line = ~~~s.rails.prime then
        (1, flip dat (byteoffs s.code1 s.code0).toNat (bitnum s.code2).toNat)
      else if TwoRail.weight s.rails.line + TwoRail.weight s.rails.prime +
          TwoRail.weight s.spare = 1 then (1, dat)
      else (ebadmsg, dat) := by
  have hzero : s.code1 ||| s.code0 ||| s.code2 = 0 ↔ s = .none := by
    obtain ⟨c0, c1, c2⟩ := s
    rw [EccCode.none, EccCode.mk.injEq]
    refine BitVec.or_eq_zero_iff.trans ((and_congr_left' BitVec.or_eq_zero_iff).trans ?_)
    tauto
  have hrails : s.rails.line = ~~~s.rails.prime ↔
      (s.code1 ^^^ (s.code1 >>> 1)) &&& 0x55#8 = 0x55#8 ∧
        (s.code0 ^^^ (s.code0 >>> 1)) &&& 0x55#8 = 0x55#8 ∧
        (s.code2 ^^^ (s.code2 >>> 1)) &&& 0x54#8 = 0x54#8 := by
    rw [EccCode.rails, address_not, address_inj, odds_eq_iff, odds_eq_iff, odds3_eq_iff]
    tauto
  subst hs
  rw [← countbits_code]
  simp only [hrails, ← hzero]
  rfl

theorem eq_none_iff {s : EccCode} (h : s.spare = 0#2) :
    s = .none ↔ s.rails.line = 0#11 ∧ s.rails.prime = 0#11 := by
  have hbyte : ∀ x : BitVec 8, x = 0#8 ↔ odds x = 0#4 ∧ evens x = 0#4 := by decide +kernel
  have hbyte3 : ∀ x : BitVec 8, x.setWidth 2 = 0#2 →
      (x = 0#8 ↔ odds3 x = 0#3 ∧ evens3 x = 0#3) := by decide +kernel
  have hzero : (0#11) = address 0#4 0#4 0#3 := by decide
  obtain ⟨c0, c1, c2⟩ := s
  rw [EccCode.none, EccCode.mk.injEq, hbyte c0, hbyte c1, hbyte3 c2 h, hzero, EccCode.rails,
    address_inj, address_inj]
  tauto

theorem nandCorrectData_verdict (dat : ℕ → BitVec 8) {readEcc calcEcc s : EccCode}
    (hs : calcEcc.xor readEcc = s) (h : s.spare = 0#2) :
    nandCorrectData dat readEcc calcEcc =
      match TwoRail.verdict s.rails with
      | .clean => (0, dat)
      | .data _ => (1, flip dat (byteoffs s.code1 s.code0).toNat (bitnum s.code2).toNat)
      | .check => (1, dat)
      | .many => (ebadmsg, dat) := by
  rw [nandCorrectData_eq dat hs, TwoRail.verdict, h, TwoRail.weight_zero, Nat.add_zero]
  simp only [eq_none_iff h]
  split_ifs <;> rfl

/-! ## Bits that are turned over between the write and the read -/

/-- A bit of the block, or of the bytes that are stored beside it. -/
inductive Fault where
  | data (byteoffs : BitVec 8) (bitnum : BitVec 3)
  | ecc (byte : Fin 3) (bit : Fin 8)
deriving DecidableEq

/-- The code with one bit set. -/
def EccCode.unit : Fin 3 → Fin 8 → EccCode
  | 0, bit => ⟨1#8 <<< bit.val, 0#8, 0#8⟩
  | 1, bit => ⟨0#8, 1#8 <<< bit.val, 0#8⟩
  | 2, bit => ⟨0#8, 0#8, 1#8 <<< bit.val⟩

/-- The block and the stored bytes with the bit turned over. -/
def Fault.turn (b : (ℕ → BitVec 8) × EccCode) : Fault → (ℕ → BitVec 8) × EccCode
  | .data byteoffs bitnum => (flip b.1 byteoffs.toNat bitnum.toNat, b.2)
  | .ecc byte bit => (b.1, b.2.xor (.unit byte bit))

/-- A block and the bytes stored with it, after some bits were turned over. -/
def afterFaults (dat : ℕ → BitVec 8) (fs : List Fault) : (ℕ → BitVec 8) × EccCode :=
  fs.foldl Fault.turn (dat, nandCalculateEcc dat)

/-- The block and the stored bytes are read, and the block is put right. -/
def readBack (dat : ℕ → BitVec 8) (fs : List Fault) : ℤ × (ℕ → BitVec 8) :=
  let b := afterFaults dat fs
  nandCorrectData b.1 b.2 (nandCalculateEcc b.1)

/-- A bit of the block. -/
def Fault.isData : Fault → Bool
  | .data _ _ => true
  | .ecc _ _ => false

/-- One of the two bits that hold nothing. -/
def Fault.idle : Fault → Bool
  | .data _ _ => false
  | .ecc byte bit => byte.val = 2 && bit.val < 2

/-- The difference that the bit makes. -/
def Fault.diff : Fault → EccCode
  | .data b k => (mark b k).diff
  | .ecc byte bit => .unit byte bit

theorem EccCode.xor_assoc (c d e : EccCode) : (c.xor d).xor e = c.xor (d.xor e) := by
  simp only [EccCode.xor, BitVec.xor_assoc]

theorem EccCode.xor_comm (c d : EccCode) : c.xor d = d.xor c := by
  simp only [EccCode.xor, BitVec.xor_comm]

theorem EccCode.xor_self (c : EccCode) : c.xor c = .none := by
  simp only [EccCode.xor, BitVec.xor_self]
  rfl

theorem EccCode.none_xor (c : EccCode) : EccCode.none.xor c = c := by
  simp only [EccCode.xor, EccCode.none, BitVec.zero_xor]

theorem xor_turn (b : (ℕ → BitVec 8) × EccCode) (f : Fault) :
    (nandCalculateEcc (f.turn b).1).xor (f.turn b).2 =
      ((nandCalculateEcc b.1).xor b.2).xor f.diff := by
  cases f with
  | data byteoffs bitnum =>
    rw [Fault.turn, Fault.diff, ← nandCalculateEcc_flip b.1, EccCode.xor_comm _ (EccCode.xor _ _),
      EccCode.xor_assoc, ← EccCode.xor_assoc (nandCalculateEcc b.1), EccCode.xor_self,
      EccCode.none_xor]
  | ecc byte bit => rw [Fault.turn, Fault.diff, EccCode.xor_assoc]

theorem xor_afterFaults_nil (dat : ℕ → BitVec 8) :
    (nandCalculateEcc (afterFaults dat []).1).xor (afterFaults dat []).2 = .none :=
  EccCode.xor_self _

theorem xor_afterFaults_singleton (dat : ℕ → BitVec 8) (f : Fault) :
    (nandCalculateEcc (afterFaults dat [f]).1).xor (afterFaults dat [f]).2 = f.diff := by
  have h := xor_turn (afterFaults dat []) f
  rw [xor_afterFaults_nil, EccCode.none_xor] at h
  exact h

theorem xor_afterFaults_pair (dat : ℕ → BitVec 8) (f g : Fault) :
    (nandCalculateEcc (afterFaults dat [f, g]).1).xor (afterFaults dat [f, g]).2 =
      f.diff.xor g.diff := by
  have h := xor_turn (afterFaults dat [f]) g
  rw [xor_afterFaults_singleton] at h
  exact h

/-- The position on its rail of a bit of the stored bytes. -/
def railPosition : Fin 3 → Fin 8 → ℕ
  | 0, bit => 7 + bit / 2
  | 1, bit => 3 + bit / 2
  | 2, bit => bit / 2 - 1

/-- Where on the rails the bit is; the idle bits are on neither. -/
def Fault.rail : Fault → Option (TwoRail.Fault 11)
  | .data b k => some (.data (addressOf b k))
  | .ecc byte bit =>
    if byte.val = 2 ∧ bit.val < 2 then none
    else if bit.val % 2 = 1 then some (.line (Fin.ofNat 11 (railPosition byte bit)))
    else some (.prime (Fin.ofNat 11 (railPosition byte bit)))

theorem addressOf_inj {b b' : BitVec 8} {k k' : BitVec 3} :
    addressOf b k = addressOf b' k' ↔ b = b' ∧ k = k' := by
  constructor
  · intro h
    obtain ⟨hhigh, hlow, hk⟩ := address_inj.mp h
    rw [← high_append_low b, ← high_append_low b', hhigh, hlow]
    exact ⟨rfl, hk⟩
  · rintro ⟨rfl, rfl⟩
    rfl

theorem diff_of_rail {f : Fault} {t : TwoRail.Fault 11} (h : f.rail = some t) :
    f.diff.rails = t.mark ∧ f.diff.spare = 0#2 := by
  cases f with
  | data b k =>
    cases h
    exact ⟨rails_diff b k, spare_diff b k⟩
  | ecc byte bit =>
    have hall : ∀ byte : Fin 3, ∀ bit : Fin 8, ∀ t ∈ (Fault.ecc byte bit).rail,
        (EccCode.unit byte bit).rails = t.mark ∧ (EccCode.unit byte bit).spare = 0#2 := by
      decide
    exact hall byte bit t h

theorem diff_of_idle {f : Fault} (h : f.idle = true) :
    f.diff.rails = ⟨0#11, 0#11⟩ ∧ TwoRail.weight f.diff.spare = 1 := by
  cases f with
  | data b k => cases h
  | ecc byte bit =>
    have hall : ∀ byte : Fin 3, ∀ bit : Fin 8, (Fault.ecc byte bit).idle = true →
        (EccCode.unit byte bit).rails = ⟨0#11, 0#11⟩ ∧
          TwoRail.weight (EccCode.unit byte bit).spare = 1 := by
      decide
    exact hall byte bit h

theorem weight_idle_pair {f g : Fault} (hf : f.idle = true) (hg : g.idle = true) (hne : f ≠ g) :
    TwoRail.weight (f.diff.xor g.diff).spare = 2 := by
  cases f with
  | data b k => cases hf
  | ecc byte bit =>
    cases g with
    | data b k => cases hg
    | ecc byte' bit' =>
      have hall : ∀ byte byte' : Fin 3, ∀ bit bit' : Fin 8,
          (Fault.ecc byte bit).idle = true → (Fault.ecc byte' bit').idle = true →
          (byte, bit) ≠ (byte', bit') →
          TwoRail.weight ((EccCode.unit byte bit).xor (.unit byte' bit')).spare = 2 := by
        decide
      refine hall byte byte' bit bit' hf hg fun heq => hne ?_
      rw [(Prod.mk.inj heq).1, (Prod.mk.inj heq).2]

theorem rail_of_not_idle {f : Fault} (h : f.idle = false) : ∃ t, f.rail = some t := by
  cases f with
  | data b k => exact ⟨_, rfl⟩
  | ecc byte bit =>
    have hall : ∀ byte : Fin 3, ∀ bit : Fin 8, (Fault.ecc byte bit).idle = false →
        (Fault.ecc byte bit).rail.isSome := by
      decide
    exact Option.isSome_iff_exists.mp (hall byte bit h)

theorem rail_ecc_ne (byte : Fin 3) (bit : Fin 8) (a : BitVec 11) :
    (Fault.ecc byte bit).rail ≠ some (.data a) := by
  rw [Fault.rail]
  split_ifs <;> simp

theorem rail_injective {f g : Fault} {t : TwoRail.Fault 11} (hf : f.rail = some t)
    (hg : g.rail = some t) : f = g := by
  have hecc : ∀ byte byte' : Fin 3, ∀ bit bit' : Fin 8, (Fault.ecc byte bit).rail.isSome →
      (Fault.ecc byte bit).rail = (Fault.ecc byte' bit').rail → (byte, bit) = (byte', bit') := by
    decide +kernel
  cases f with
  | data b k =>
    cases g with
    | data b' k' =>
      rw [Fault.rail, Option.some.injEq] at hf hg
      obtain ⟨rfl, rfl⟩ := addressOf_inj.mp (TwoRail.Fault.data.inj (hf.trans hg.symm))
      rfl
    | ecc byte bit => exact absurd (hg.trans hf.symm) (rail_ecc_ne byte bit _)
  | ecc byte bit =>
    cases g with
    | data b k => exact absurd (hf.trans hg.symm) (rail_ecc_ne byte bit _)
    | ecc byte' bit' =>
      have heq := hecc byte byte' bit bit' (by rw [hf]; rfl) (hf.trans hg.symm)
      rw [(Prod.mk.inj heq).1, (Prod.mk.inj heq).2]

/-! ## One bit and two -/

theorem readBack_nil (dat : ℕ → BitVec 8) : readBack dat [] = (0, dat) := by
  rw [readBack, nandCorrectData_eq _ (xor_afterFaults_nil dat), if_pos rfl]
  rfl

theorem nandCorrectData_data (dat : ℕ → BitVec 8) {readEcc calcEcc s : EccCode} {b : BitVec 8}
    {k : BitVec 3} (hs : calcEcc.xor readEcc = s)
    (h : s.rails = ⟨addressOf b k, ~~~addressOf b k⟩) :
    nandCorrectData (flip dat b.toNat k.toNat) readEcc calcEcc = (1, dat) := by
  have hline : s.rails.line = addressOf b k := congrArg TwoRail.Rails.line h
  have hprime : s.rails.prime = ~~~addressOf b k := congrArg TwoRail.Rails.prime h
  obtain ⟨hbyte, hbit⟩ := toNat_of_line hline
  rw [nandCorrectData_eq _ hs, if_neg, if_pos, hbyte, hbit, flip_flip]
  · rw [hline, hprime, BitVec.not_not]
  · rintro rfl
    have hzero : EccCode.none.rails = ⟨0#11, 0#11⟩ := by decide
    rw [hzero] at hline hprime
    rw [← hline] at hprime
    exact TwoRail.ne_not (by decide) _ hprime

theorem nandCorrectData_check (dat : ℕ → BitVec 8) {readEcc calcEcc s : EccCode}
    (hs : calcEcc.xor readEcc = s) (hne : s.rails.line ≠ ~~~s.rails.prime)
    (hweight : TwoRail.weight s.rails.line + TwoRail.weight s.rails.prime +
      TwoRail.weight s.spare = 1) :
    nandCorrectData dat readEcc calcEcc = (1, dat) := by
  have hzero : s ≠ .none := by
    rintro rfl
    revert hweight
    decide
  rw [nandCorrectData_eq _ hs, if_neg hzero, if_neg hne, if_pos hweight]

theorem nandCorrectData_many (dat : ℕ → BitVec 8) {readEcc calcEcc s : EccCode}
    (hs : calcEcc.xor readEcc = s) (hne : s.rails.line ≠ ~~~s.rails.prime)
    (hweight : 2 ≤ TwoRail.weight s.rails.line + TwoRail.weight s.rails.prime +
      TwoRail.weight s.spare) :
    nandCorrectData dat readEcc calcEcc = (ebadmsg, dat) := by
  have hzero : s ≠ .none := by
    rintro rfl
    revert hweight
    decide
  rw [nandCorrectData_eq _ hs, if_neg hzero, if_neg hne, if_neg (by omega)]

theorem zero_ne_not : (0#11) ≠ ~~~0#11 := by
  decide

theorem readBack_singleton (dat : ℕ → BitVec 8) (f : Fault) : readBack dat [f] = (1, dat) := by
  have hs := xor_afterFaults_singleton dat f
  cases hidle : f.idle with
  | true =>
    obtain ⟨hrails, hspare⟩ := diff_of_idle hidle
    cases f with
    | data b k => cases hidle
    | ecc byte bit =>
      refine nandCorrectData_check dat hs ?_ ?_
      · rw [hrails]
        exact zero_ne_not
      · rw [hrails, hspare, TwoRail.weight_zero]
  | false =>
    obtain ⟨t, ht⟩ := rail_of_not_idle hidle
    obtain ⟨hrails, hspare⟩ := diff_of_rail ht
    cases f with
    | data b k => exact nandCorrectData_data dat hs (rails_diff b k)
    | ecc byte bit =>
      have hverdict := TwoRail.verdict_singleton (by decide : 2 ≤ 11) t
      rw [TwoRail.syndrome_singleton, ← hrails] at hverdict
      rw [readBack, nandCorrectData_verdict _ hs hspare, hverdict]
      cases t with
      | data a => exact absurd ht (rail_ecc_ne byte bit a)
      | line i => rfl
      | prime i => rfl

theorem readBack_rails (dat : ℕ → BitVec 8) {f g : Fault} {t u : TwoRail.Fault 11}
    (hf : f.rail = some t) (hg : g.rail = some u) (hne : f ≠ g) :
    readBack dat [f, g] = (ebadmsg, (afterFaults dat [f, g]).1) := by
  have hs := xor_afterFaults_pair dat f g
  obtain ⟨hrails, hspare⟩ := diff_of_rail hf
  obtain ⟨hrails', hspare'⟩ := diff_of_rail hg
  have hpair : t ≠ u := by
    rintro rfl
    exact hne (rail_injective hf hg)
  have hverdict := TwoRail.verdict_pair (by decide : 3 ≤ 11) hpair
  rw [TwoRail.syndrome_pair, ← hrails, ← hrails', ← rails_xor] at hverdict
  have hnone : (f.diff.xor g.diff).spare = 0#2 := by
    rw [spare_xor, hspare, hspare', BitVec.xor_self]
  rw [readBack, nandCorrectData_verdict _ hs hnone, hverdict]

theorem afterFaults_comm (dat : ℕ → BitVec 8) (f : Fault) (byte : Fin 3) (bit : Fin 8) :
    (afterFaults dat [f, .ecc byte bit]).1 = (afterFaults dat [f]).1 ∧
      (afterFaults dat [.ecc byte bit, f]).1 = (afterFaults dat [f]).1 := by
  cases f <;> exact ⟨rfl, rfl⟩

theorem nandCorrectData_idle (dat : ℕ → BitVec 8) {readEcc calcEcc : EccCode} {f g : Fault}
    {t : TwoRail.Fault 11} (hf : f.rail = some t) (hg : g.idle = true)
    (hs : calcEcc.xor readEcc = f.diff.xor g.diff) :
    nandCorrectData (afterFaults dat [f]).1 readEcc calcEcc =
      if f.isData then (1, dat) else (ebadmsg, (afterFaults dat [f]).1) := by
  obtain ⟨hrails, hspare⟩ := diff_of_rail hf
  obtain ⟨hrails', hweight⟩ := diff_of_idle hg
  have hsum : (f.diff.xor g.diff).rails = t.mark := by
    rw [rails_xor, hrails, hrails', TwoRail.Rails.xor, BitVec.xor_zero, BitVec.xor_zero]
  cases f with
  | data b k =>
    cases hf
    exact nandCorrectData_data dat hs hsum
  | ecc byte bit =>
    have hidle : TwoRail.weight (((Fault.ecc byte bit).diff.xor g.diff).spare) = 1 := by
      rw [spare_xor, hspare, BitVec.zero_xor, hweight]
    cases t with
    | data a => exact absurd hf (rail_ecc_ne byte bit a)
    | line i =>
      refine nandCorrectData_many dat hs ?_ ?_
      · rw [hsum]
        exact TwoRail.twoPow_ne_not_zero (by decide) i
      · rw [hsum, hidle, TwoRail.Fault.mark, TwoRail.weight_twoPow]
        omega
    | prime i =>
      refine nandCorrectData_many dat hs ?_ ?_
      · rw [hsum]
        exact TwoRail.zero_ne_not_twoPow (by decide) i
      · rw [hsum, hidle, TwoRail.Fault.mark, TwoRail.weight_twoPow]
        omega

theorem readBack_idle_idle (dat : ℕ → BitVec 8) {f g : Fault} (hf : f.idle = true)
    (hg : g.idle = true) (hne : f ≠ g) :
    readBack dat [f, g] = (ebadmsg, (afterFaults dat [f, g]).1) := by
  have hrails : (f.diff.xor g.diff).rails = ⟨0#11, 0#11⟩ := by
    rw [rails_xor, (diff_of_idle hf).1, (diff_of_idle hg).1, TwoRail.Rails.xor, BitVec.xor_self]
  refine nandCorrectData_many _ (xor_afterFaults_pair dat f g) ?_ ?_
  · rw [hrails]
    exact zero_ne_not
  · rw [weight_idle_pair hf hg hne]
    omega

theorem isData_of_idle {f : Fault} (h : f.idle = true) : f.isData = false := by
  cases f with
  | data b k => cases h
  | ecc byte bit => rfl

/-- Of a block with its three bytes, one bit that was turned over is always put right.  Two are
always noticed, and the block is then left as it was read; a bit of the block beside one of the two
bits that hold nothing is still put right. -/
theorem nand_correct_data_two (dat : ℕ → BitVec 8) (f g : Fault) (hne : f ≠ g) :
    readBack dat [] = (0, dat) ∧ readBack dat [f] = (1, dat) ∧
      readBack dat [f, g] =
        if f.isData && g.idle || f.idle && g.isData then (1, dat)
        else (ebadmsg, (afterFaults dat [f, g]).1) := by
  refine ⟨readBack_nil dat, readBack_singleton dat f, ?_⟩
  cases hf : f.idle with
  | true =>
    rw [isData_of_idle hf, Bool.false_and, Bool.true_and, Bool.false_or]
    cases hg : g.idle with
    | true => rw [isData_of_idle hg, if_neg Bool.false_ne_true, readBack_idle_idle dat hf hg hne]
    | false =>
      obtain ⟨t, ht⟩ := rail_of_not_idle hg
      cases f with
      | data b k => cases hf
      | ecc byte bit =>
        have hs := xor_afterFaults_pair dat (.ecc byte bit) g
        rw [EccCode.xor_comm (Fault.diff _)] at hs
        have hblock := (afterFaults_comm dat g byte bit).2
        rw [readBack, hblock, nandCorrectData_idle dat ht hf (hblock ▸ hs)]
  | false =>
    obtain ⟨t, ht⟩ := rail_of_not_idle hf
    rw [Bool.false_and, Bool.or_false]
    cases hg : g.idle with
    | true =>
      rw [Bool.and_true]
      cases g with
      | data b k => cases hg
      | ecc byte bit =>
        have hs := xor_afterFaults_pair dat f (.ecc byte bit)
        have hblock := (afterFaults_comm dat f byte bit).1
        rw [readBack, hblock, nandCorrectData_idle dat ht hg (hblock ▸ hs)]
    | false =>
      obtain ⟨u, hu⟩ := rail_of_not_idle hg
      rw [Bool.and_false, if_neg Bool.false_ne_true, readBack_rails dat ht hu hne]

/-- An erased block with a bit turned over, and beside it one of the bytes. -/
theorem nand_correct_data_two_erased :
    (Fault.data 7 3 ≠ Fault.ecc 0 4) ∧
      readBack (fun _ => 0xff) [.data 7 3, .ecc 0 4] =
        (ebadmsg, (afterFaults (fun _ => 0xff) [.data 7 3, .ecc 0 4]).1) :=
  ⟨by decide, (nand_correct_data_two (fun _ => 0xff) (.data 7 3) (.ecc 0 4) (by decide)).2.2⟩

end Nand
end EmevBsp
