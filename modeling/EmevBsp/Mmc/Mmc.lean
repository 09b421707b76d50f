import EmevBsp.Library.Alignment
import Mathlib.Logic.Function.Basic

/-!
# Erase, write and protect of mini-boot/mmc/mmc.c

The blocks of a card are grouped into protect sectors of `mmc_protect_blk` blocks, and a table
at a fixed address holds a byte for each: a sector whose byte is not zero is protected.
`mmc_flash_init` chooses the sector size from the size of the card, so that the table is long
enough, and protects every sector.

Block numbers and byte counts are 32 bits wide.  The calls into the controller driver
(`hw_if`) are recorded, and what they return is a parameter: the commands that select and
start an erase are numbered in the order they are sent, and `send` gives their results.

The values are those of include/configs/emev.h.
-/

namespace EmevBsp
namespace Mmc

/-- `unsigned long` and `unsigned int`. -/
abbrev Word := BitVec 32

/-! ## The card -/

/-- What `mmc_flash_init` reads from the registers of a card: its size in blocks, its erase
size, and whether it is addressed by block (`acc_mode`).  A card addressed by byte has at most
`2 ^ 32` bytes. -/
structure Card where
  totalBlk : Word
  eraseBlocks : Word
  accMode : Bool
  byteAddressed : accMode = false → totalBlk.toNat ≤ 2 ^ 23

/-- The static variables of mmc.c and the protect table. -/
structure Device where
  devTotalBlk : Word
  protectBlk : Word
  eraseBlocks : Word
  accMode : Bool
  wpTbl : ℕ → BitVec 8

/-- `CONFIG_MMC_BLOCKS`. -/
def mmcBlocks : Word := 0x1000000

/-- `CONFIG_MMC_SECT_OF_BLOCKS`. -/
def mmcSectOfBlocks : Word := 0x2000

/-- `EMXX_MMC_MAXBLK`. -/
def mmcMaxBlk : Word := 0x80000000

/-- `MMC_BLOCKLEN_VAL`. -/
def mmcBlockLen : Word := 512

/-- The loop of `mmc_flash_init` that doubles the sector size: the number of rounds, seven
when the size `EMXX_MMC_MAXBLK` is reached. -/
def protectShift (total : Word) : ℕ :=
  ((List.range 7).find? fun i => total ≤ mmcBlocks <<< i).getD 7

/-- The end of `mmc_flash_init`. -/
def mmcFlashInit (card : Card) : Device where
  devTotalBlk := if protectShift card.totalBlk = 7 then mmcMaxBlk else card.totalBlk
  protectBlk := mmcSectOfBlocks <<< protectShift card.totalBlk
  eraseBlocks := card.eraseBlocks
  accMode := card.accMode
  wpTbl := fun _ => 1

/-! ## The commands -/

/-- The arguments of the two commands that select the blocks to erase, once the erase command
was sent. -/
structure EraseCmd where
  start : Word
  stop : Word

/-- The arguments of `multi_write`. -/
structure WriteCmd where
  block : Word
  num : Word

/-- The blocks a card erases: addresses count blocks or bytes. -/
def EraseCmd.blocks (accMode : Bool) (c : EraseCmd) : Set ℕ :=
  if accMode then {b | c.start.toNat ≤ b ∧ b ≤ c.stop.toNat}
  else {b | c.start.toNat ≤ 512 * b + 511 ∧ 512 * b ≤ c.stop.toNat}

/-- The blocks a card writes. -/
def WriteCmd.blocks (c : WriteCmd) : Set ℕ :=
  {b | c.block.toNat ≤ b ∧ b < c.block.toNat + c.num.toNat}

/-! ## The functions -/

variable (d : Device)

/-- `mmc_check_protect`, where it does not print. -/
def mmcCheckProtect (sBlk eBlk : Word) : ℤ :=
  if sBlk &&& (d.protectBlk - 1) ≠ 0 ∨ d.devTotalBlk ≤ sBlk then -1
  else if (eBlk &&& (d.protectBlk - 1) ≠ 0 ∧ eBlk ≠ d.devTotalBlk) ∨ eBlk ≤ sBlk ∨
      d.devTotalBlk < eBlk then -2
  else if (List.range (eBlk / d.protectBlk - sBlk / d.protectBlk).toNat).any
      fun j => d.wpTbl ((sBlk / d.protectBlk).toNat + j) ≠ 0 then -4
  else 0

/-- The start of the range that is checked. -/
def chkSblk (sBlk : Word) : Word :=
  sBlk / d.protectBlk * d.protectBlk

/-- Its end. -/
def chkEblk (eBlk : Word) : Word :=
  let chk := (eBlk + d.protectBlk - 1) / d.protectBlk * d.protectBlk
  if d.devTotalBlk < chk then d.devTotalBlk else chk

/-- `mmc_multi_block_erase`; `n` commands were sent before. -/
def mmcMultiBlockErase (send : ℕ → ℤ) (n : ℕ) (address size : Word) : ℤ × List EraseCmd :=
  if size = 0 then (-1, [])
  else
    let cmd : EraseCmd :=
      if d.accMode then
        ⟨address, address + size / mmcBlockLen - 1 +
          (if size &&& (mmcBlockLen - 1) ≠ 0 then 1 else 0)⟩
      else ⟨address * mmcBlockLen, address * mmcBlockLen + size - 1⟩
    if send n ≠ 0 then (send n, [])
    else if send (n + 1) ≠ 0 then (send (n + 1), [])
    else (send (n + 2), [cmd])

/-- `EMXX_ERASE_MAXBLK`. -/
def eraseMaxBlk : Word := 0x400000

/-- `EMXX_ERASE_MAXBYTE`. -/
def eraseMaxByte : Word := 0x80000000

/-- The loop of `mmc_erase_sect`. -/
def mmcEraseLoop (send : ℕ → ℤ) (n : ℕ) (sBlk size : Word) : ℤ × List EraseCmd :=
  if size = 0 then (0, [])
  else if _h : eraseMaxBlk < size then
    let (ret, cmds) := mmcMultiBlockErase d send n sBlk eraseMaxByte
    if ret ≠ 0 then (ret, cmds)
    else
      let (ret', cmds') := mmcEraseLoop send (n + 3) (sBlk + eraseMaxBlk) (size - eraseMaxBlk)
      (ret', cmds ++ cmds')
  else mmcMultiBlockErase d send n sBlk (size * mmcBlockLen)
termination_by size.toNat
decreasing_by
  have hmax : eraseMaxBlk.toNat = 0x400000 := rfl
  rw [BitVec.lt_def, hmax] at _h
  rw [BitVec.toNat_sub_of_le (BitVec.le_def.mpr (by omega)), hmax]
  omega

/-- `mmc_erase_sect`: its result and the erase commands. -/
def mmcEraseSect (send : ℕ → ℤ) (sBlk eBlk : Word) : ℤ × List EraseCmd :=
  if sBlk &&& (d.eraseBlocks - 1) ≠ 0 ∨ d.devTotalBlk ≤ sBlk then (-1, [])
  else if eBlk &&& (d.eraseBlocks - 1) ≠ 0 ∨ eBlk ≤ sBlk ∨ d.devTotalBlk < eBlk then (-2, [])
  else if mmcCheckProtect d (chkSblk d sBlk) (chkEblk d eBlk) ≠ 0 then (-4, [])
  else mmcEraseLoop d send 0 sBlk (eBlk - sBlk)

/-- `mmc_multi_block_write`; `write` is what `multi_write` returns. -/
def mmcMultiBlockWrite (write : ℤ) (address size : Word) : ℤ × List WriteCmd :=
  if size = 0 then (-1, [])
  else
    (write, [⟨address, size / mmcBlockLen +
      (if size &&& (mmcBlockLen - 1) ≠ 0 then 1 else 0)⟩])

def physSdram1 : Word := 0x40000000

/-- `PHYS_SDRAM_2 + PHYS_SDRAM_2_SIZE`. -/
def physSdramEnd : Word := 0x50000000

/-- `mmc_write_sect`: its result and the write command. -/
def mmcWriteSect (write : ℤ) (addr sBlk eBlk : Word) : ℤ × List WriteCmd :=
  let size := (eBlk - sBlk) * mmcBlockLen
  if addr < physSdram1 then (-9, [])
  else if physSdramEnd < addr + size then (-9, [])
  else if d.devTotalBlk < sBlk then (-1, [])
  else if d.devTotalBlk < eBlk then (-2, [])
  else if mmcCheckProtect d (chkSblk d sBlk) (chkEblk d eBlk) ≠ 0 then (-4, [])
  else
    let (ret, cmds) := mmcMultiBlockWrite write sBlk size
    if ret ≠ 0 then (-5, cmds) else ((eBlk - sBlk).toInt, cmds)

/-- The loop of `mmc_protect_sect`, `n` rounds from entry `i` on. -/
def mmcProtectLoop (mode : BitVec 8) (wpTbl : ℕ → BitVec 8) (i : ℕ) : ℕ → ℕ → BitVec 8
  | 0 => wpTbl
  | n + 1 => mmcProtectLoop mode (Function.update wpTbl i mode) (i + 1) n

/-- `mmc_protect_sect`: its result and the table.  The command calls it with `mode` one
(protect on) or zero (protect off). -/
def mmcProtectSect (sBlk eBlk mode : Word) : ℤ × (ℕ → BitVec 8) :=
  if sBlk &&& (d.protectBlk - 1) ≠ 0 ∨ d.devTotalBlk ≤ sBlk then (-1, d.wpTbl)
  else if (eBlk &&& (d.protectBlk - 1) ≠ 0 ∧ eBlk ≠ d.devTotalBlk) ∨ eBlk ≤ sBlk ∨
      d.devTotalBlk < eBlk then (-2, d.wpTbl)
  else if mode &&& 0xfffffffe ≠ 0 then (-9, d.wpTbl)
  else
    let sect := sBlk / d.protectBlk
    let eSect := eBlk / d.protectBlk - sect
    let eSect := if eSect = 0 then 1 else eSect
    (eSect.toInt, mmcProtectLoop (mode.setWidth 8) d.wpTbl sect.toNat eSect.toNat)

end Mmc
end EmevBsp
