import EmevBsp.Library.Positions
import Mathlib.Algebra.Order.Ring.Nat
import Mathlib.Tactic.Ring

/-!
# `drivers/mtd/nand/nand_util.c`: writing and reading past bad blocks

A device is an array of bytes in blocks, some of which are bad.  `nand_write` and `nand_read` of
drivers/mtd/nand/nand_base.c do not look for bad blocks; what programming or reading one does is a
parameter, `OnBad`.

`nand_block_isbad` refuses an address that is greater than the size of the device.  For the size
itself, and for an address that is negative as an `off_t`, it reads outside the table of bad blocks:
there `nandBlockIsbad` has no result, and neither has a function that asks.
-/

namespace EmevBsp
namespace Nand

/-! ## The device -/

/-- A device.  Sizes are powers of two, up to the 2 GiB of the largest chips in `nand_ids.c`, so that
an offset in the device is an `off_t` that is not negative. -/
structure Device where
  eraseShift : ℕ
  sizeShift : ℕ
  writeShift : ℕ
  write_le_erase : writeShift ≤ eraseShift
  erase_le_size : eraseShift ≤ sizeShift
  erase_le : eraseShift ≤ 30
  size_le : sizeShift ≤ 31
  bad : ℕ → Bool

variable (d : Device)

/-- `nand->size`. -/
def Device.size : ℕ := 2 ^ d.sizeShift

/-- `nand->erasesize`. -/
def Device.erasesize : ℕ := 2 ^ d.eraseShift

/-- `nand->writesize`. -/
def Device.writesize : ℕ := 2 ^ d.writeShift

/-- A byte in a good block. -/
def Device.good (x : ℕ) : Bool := !d.bad (x / d.erasesize)

/-- `offset & (nand->erasesize - 1)`. -/
def Device.blockOffset (offset : ℕ) : ℕ := offset &&& (d.erasesize - 1)

/-- `offset & ~(nand->erasesize - 1)`. -/
def Device.blockStart (offset : ℕ) : ℕ := offset - d.blockOffset offset

/-- The contents, and the address and length of everything that was programmed. -/
structure Flash where
  mem : ℕ → UInt8
  programmed : List (ℕ × ℕ)

/-- What the chip does with a stretch in which a block is bad: the contents afterwards, `retlen` and
the result; and the bytes read, `retlen` and the result. -/
structure OnBad where
  write : ℕ → List UInt8 → (ℕ → UInt8) → (ℕ → UInt8) × ℕ × ℤ
  read : ℕ → ℕ → (ℕ → UInt8) → List UInt8 × ℕ × ℤ

variable (onBad : OnBad)

/-! ## The functions of the source -/

def nandBlockIsbad (offs : ℕ) : Option Bool :=
  if 2 ^ 31 ≤ offs then none
  else if d.size < offs then some true
  else if offs = d.size then none
  else some (d.bad (offs / d.erasesize))

/-- All of a stretch is in good blocks. -/
def Device.AllGood (start len : ℕ) : Prop := ∀ k < len, d.good (start + k) = true

instance (start len : ℕ) : Decidable (d.AllGood start len) :=
  inferInstanceAs (Decidable (∀ k < len, _))

/-- The contents with some bytes stored. -/
def storeAt (mem : ℕ → UInt8) (start : ℕ) (data : List UInt8) : ℕ → UInt8 := fun x =>
  if start ≤ x ∧ x < start + data.length then data.getD (x - start) 0 else mem x

/-- What a write leaves: the device, the number of bytes, and the result. -/
structure Written where
  flash : Flash
  length : ℕ
  rval : ℤ

/-- `nand_write`, of all the data. -/
def nandWrite (start : ℕ) (data : List UInt8) (f : Flash) : Written :=
  if d.size < start + data.length then ⟨f, data.length, -22⟩
  else if data = [] then ⟨f, 0, 0⟩
  else if d.AllGood start data.length then
    ⟨⟨storeAt f.mem start data, f.programmed ++ [(start, data.length)]⟩, data.length, 0⟩
  else
    let r := onBad.write start data f.mem
    ⟨⟨r.1, f.programmed ++ [(start, data.length)]⟩, r.2.1, r.2.2⟩

/-- `nand_read`: the bytes, their number and the result. -/
def nandRead (start len : ℕ) (mem : ℕ → UInt8) : List UInt8 × ℕ × ℤ :=
  if d.size < start + len then ([], len, -22)
  else if len = 0 then ([], 0, 0)
  else if d.AllGood start len then ((List.range' start len).map mem, len, 0)
  else onBad.read start len mem

theorem Device.erasesize_pos : 0 < d.erasesize := Nat.two_pow_pos _

theorem Device.erasesize_le : d.erasesize ≤ 2 ^ 30 :=
  Nat.pow_le_pow_right (by decide) d.erase_le

theorem Device.blockOffset_eq (offset : ℕ) : d.blockOffset offset = offset % d.erasesize :=
  Nat.and_two_pow_sub_one_eq_mod _ _

theorem Device.blockOffset_lt (offset : ℕ) : d.blockOffset offset < d.erasesize := by
  rw [blockOffset_eq]
  exact Nat.mod_lt _ d.erasesize_pos

theorem lt_of_nandBlockIsbad {offset : ℕ} {b : Bool}
    (h : nandBlockIsbad d (d.blockStart offset) = some b) : offset < 2 ^ 32 := by
  have hlt := d.blockOffset_lt offset
  have hle := d.erasesize_le
  rw [nandBlockIsbad] at h
  split_ifs at h
  all_goals
    unfold Device.blockStart at *
    omega

/-- The loop of `get_len_incl_bad`. -/
def getLenLoop (length offset lenInclBad lenExclBad : ℕ) : Option ℕ :=
  if length ≤ lenExclBad then some lenInclBad
  else
    match _h : nandBlockIsbad d (d.blockStart offset) with
    | none => none
    | some isbad =>
      let blockLen := d.erasesize - d.blockOffset offset
      if d.size ≤ offset + blockLen + (lenInclBad + blockLen) then some (lenInclBad + blockLen)
      else
        getLenLoop length (offset + blockLen) (lenInclBad + blockLen)
          (if isbad then lenExclBad else lenExclBad + blockLen)
termination_by 2 ^ 32 - offset
decreasing_by
  have hlt := d.blockOffset_lt offset
  have hoffset := lt_of_nandBlockIsbad d _h
  omega

def getLenInclBad (offset length : ℕ) : Option ℕ := getLenLoop d length offset 0 0

/-- The loop of `nand_write_skip_bad`, with the data that is left to write. -/
def writeLoop (length offset : ℕ) (data : List UInt8) (f : Flash) : Option Written :=
  if data = [] then some ⟨f, length, 0⟩
  else
    match _h : nandBlockIsbad d (d.blockStart offset) with
    | none => none
    | some true => writeLoop length (offset + (d.erasesize - d.blockOffset offset)) data f
    | some false =>
      let writeSize := min data.length (d.erasesize - d.blockOffset offset)
      let r := nandWrite d onBad offset (data.take writeSize) f
      if r.rval ≠ 0 then some ⟨r.flash, length - data.length, r.rval⟩
      else writeLoop length (offset + writeSize) (data.drop writeSize) r.flash
termination_by 2 ^ 32 - offset
decreasing_by
  · have hlt := d.blockOffset_lt offset
    have hoffset := lt_of_nandBlockIsbad d _h
    omega
  · have hlt := d.blockOffset_lt offset
    have hoffset := lt_of_nandBlockIsbad d _h
    have hpos := List.length_pos_iff.mpr ‹¬data = []›
    omega

def nandWriteSkipBad (offset : ℕ) (data : List UInt8) (f : Flash) : Option Written :=
  if offset &&& (d.writesize - 1) ≠ 0 ∨ data.length &&& (d.writesize - 1) ≠ 0 then
    some ⟨f, data.length, -22⟩
  else
    match getLenInclBad d offset data.length with
    | none => none
    | some lenInclBad =>
      if d.size ≤ offset + lenInclBad then some ⟨f, data.length, -22⟩
      else if lenInclBad = data.length then some (nandWrite d onBad offset data f)
      else writeLoop d onBad data.length offset data f

/-- The loop of `nand_read_skip_bad`, with the number of bytes left and the bytes that were read. -/
def readLoop (mem : ℕ → UInt8) (length offset leftToRead : ℕ) (buffer : List UInt8) :
    Option (List UInt8 × ℕ × ℤ) :=
  if leftToRead = 0 then some (buffer, length, 0)
  else
    match _h : nandBlockIsbad d (d.blockStart offset) with
    | none => none
    | some true =>
      readLoop mem length (offset + (d.erasesize - d.blockOffset offset)) leftToRead buffer
    | some false =>
      let readLength := min leftToRead (d.erasesize - d.blockOffset offset)
      let r := nandRead d onBad offset readLength mem
      if r.2.2 ≠ 0 then some (buffer ++ r.1, length - leftToRead, r.2.2)
      else
        readLoop mem length (offset + readLength) (leftToRead - readLength) (buffer ++ r.1)
termination_by 2 ^ 32 - offset
decreasing_by
  · have hlt := d.blockOffset_lt offset
    have hoffset := lt_of_nandBlockIsbad d _h
    omega
  · have hlt := d.blockOffset_lt offset
    have hoffset := lt_of_nandBlockIsbad d _h
    have hpos := Nat.pos_of_ne_zero ‹¬leftToRead = 0›
    omega

def nandReadSkipBad (offset length : ℕ) (mem : ℕ → UInt8) : Option (List UInt8 × ℕ × ℤ) :=
  match getLenInclBad d offset length with
  | none => none
  | some lenInclBad =>
    if d.size ≤ offset + lenInclBad then some ([], length, -22)
    else if lenInclBad = length then some (nandRead d onBad offset length mem)
    else readLoop d onBad mem length offset length []

end Nand
end EmevBsp
