import Mathlib.Algebra.Group.Nat.Defs
import Mathlib.Data.Int.Notation
import Mathlib.Logic.Relation
import Mathlib.Tactic.Common

/-!
# `disk/part_dos.c`: DOS partition tables

`print_part_dos` lists the partitions of a disk, and `get_partition_info_dos` looks one up by its
number.  Both start at the table of sector 0 and go on to the tables that extended entries point to.
The recursion has no bound, so the functions are given fuel, and have no result when it runs out.

A disk is what `block_read` returns for each sector; a table entry is its type and its two numbers.
-/

namespace EmevBsp
namespace Disk

/-! ## Disks and tables -/

/-- `if_type`, as far as names depend on it. -/
inductive IfType where
  | ide
  | sata
  | atapi
  | scsi
  | usb
  | doc
  | other
  deriving DecidableEq

/-- `block_dev_desc_t`.  A sector is the bytes of the buffer that it is read to. -/
structure BlockDev where
  ifType : IfType
  dev : ℕ
  lba : ℕ
  blockRead : BitVec 32 → Option (ℕ → UInt8)

/-- `dos_partition_t`: `sys_ind`, and the values of `start4` and `size4`. -/
structure DosPartition where
  sysInd : UInt8
  start4 : BitVec 32
  size4 : BitVec 32

/-- `le32_to_int`, of the four bytes from an offset on. -/
def le32ToInt (buffer : ℕ → UInt8) (i : ℕ) : BitVec 32 :=
  BitVec.ofNat 32 (2 ^ 24 * (buffer (i + 3)).toNat + 2 ^ 16 * (buffer (i + 2)).toNat +
    2 ^ 8 * (buffer (i + 1)).toNat + (buffer i).toNat)

/-- The four entries at `DOS_PART_TBL_OFFSET`. -/
def partTable (buffer : ℕ → UInt8) : List DosPartition :=
  (List.range 4).map fun i =>
    ⟨buffer (0x1be + 16 * i + 4), le32ToInt buffer (0x1be + 16 * i + 8),
      le32ToInt buffer (0x1be + 16 * i + 12)⟩

def isExtended (partType : UInt8) : Bool := partType = 0x5 || partType = 0xf || partType = 0x85

/-- `DOS_MBR` and `DOS_PBR`. -/
inductive BlockType where
  | mbr
  | pbr
  deriving DecidableEq

/-- `test_block_type`; `none` for `-1`. -/
def testBlockType (buffer : ℕ → UInt8) : Option BlockType :=
  if buffer 0x1fe ≠ 0x55 ∨ buffer 0x1ff ≠ 0xaa then none
  else if buffer 0x36 = 70 ∧ buffer 0x37 = 65 ∧ buffer 0x38 = 84 then some .pbr
  else some .mbr

/-! ## Printing -/

/-- What is printed. -/
inductive Line where
  | cantRead (sector : BitVec 32)
  | badSignature (a b : UInt8)
  | bootRecord (lba : ℕ) (media : UInt8)
  | part (num : ℕ) (start size : BitVec 32) (sysInd : UInt8)

/-- `part_num` behind an entry: "Reverse engr the fdisk part# assignment rule!" -/
def nextNum (extPartSector : BitVec 32) (pt : DosPartition) (partNum : ℕ) : ℕ :=
  if extPartSector = 0 ∨ (pt.sysInd ≠ 0 ∧ ¬isExtended pt.sysInd) then partNum + 1 else partNum

/-- The first loop of `print_partition_extended`: the lines, and `part_num` behind them. -/
def printLoop (extPartSector : BitVec 32) : List DosPartition → ℕ → List Line × ℕ
  | [], partNum => ([], partNum)
  | pt :: pts, partNum =>
    let rest := printLoop extPartSector pts (nextNum extPartSector pt partNum)
    if pt.sysInd ≠ 0 ∧ (extPartSector = 0 ∨ ¬isExtended pt.sysInd) then
      (.part partNum (extPartSector + pt.start4) pt.size4 pt.sysInd :: rest.1, rest.2)
    else rest

/-- The lines of some calls, one after the other. -/
def collect {α : Type} (f : α → Option (List Line)) : List α → Option (List Line)
  | [] => some []
  | a :: as =>
    match f a, collect f as with
    | some lines, some rest => some (lines ++ rest)
    | _, _ => none

def printPartitionExtended (d : BlockDev) :
    (fuel : ℕ) → (extPartSector relative : BitVec 32) → (partNum : ℕ) → Option (List Line)
  | 0, _, _, _ => none
  | fuel + 1, extPartSector, relative, partNum =>
    match d.blockRead extPartSector with
    | none => some [.cantRead extPartSector]
    | some buffer =>
      match testBlockType buffer with
      | none => some [.badSignature (buffer 0x1fe) (buffer 0x1ff)]
      | some .pbr => some [.bootRecord d.lba (buffer 0x15)]
      | some .mbr =>
        let r := printLoop extPartSector (partTable buffer) partNum
        match collect (fun pt =>
            let lbaStart := pt.start4 + relative
            printPartitionExtended d fuel lbaStart
              (if extPartSector = 0 then lbaStart else relative) r.2)
            ((partTable buffer).filter fun pt => isExtended pt.sysInd) with
        | none => none
        | some below => some (r.1 ++ below)

def printPartDos (d : BlockDev) (fuel : ℕ) : Option (List Line) :=
  printPartitionExtended d fuel 0 0 1

/-! ## Looking up -/

/-- `disk_partition_t`. -/
structure DiskPartition where
  blksz : ℕ
  start : BitVec 32
  size : BitVec 32
  name : String
  type : String
  deriving DecidableEq

/-- The name of a partition. -/
def partName (d : BlockDev) (partNum : ℕ) : String :=
  let unit := (Char.ofNat (97 + d.dev)).toString ++ toString partNum ++ "\n"
  match d.ifType with
  | .ide | .sata | .atapi => "hd" ++ unit
  | .scsi => "sd" ++ unit
  | .usb => "usbd" ++ unit
  | .doc => "docd" ++ unit
  | .other => "xx" ++ unit

/-- The first loop of `get_partition_info_extended`: what was found, or `part_num` behind it. -/
def getLoop (d : BlockDev) (extPartSector : BitVec 32) (whichPart : ℤ) :
    List DosPartition → ℕ → DiskPartition ⊕ ℕ
  | [], partNum => .inr partNum
  | pt :: pts, partNum =>
    if pt.sysInd ≠ 0 ∧ (partNum : ℤ) = whichPart ∧ isExtended pt.sysInd = false then
      .inl ⟨512, extPartSector + pt.start4, pt.size4, partName d partNum, "U-Boot"⟩
    else getLoop d extPartSector whichPart pts (nextNum extPartSector pt partNum)

/-- `get_partition_info_extended`; the inner `none` for `-1`. -/
def getPartitionInfoExtended (d : BlockDev) :
    (fuel : ℕ) → (extPartSector relative : BitVec 32) → (partNum : ℕ) → (whichPart : ℤ) →
      Option (Option DiskPartition)
  | 0, _, _, _, _ => none
  | fuel + 1, extPartSector, relative, partNum, whichPart =>
    match d.blockRead extPartSector with
    | none => some none
    | some buffer =>
      if buffer 0x1fe ≠ 0x55 ∨ buffer 0x1ff ≠ 0xaa then some none
      else
        match getLoop d extPartSector whichPart (partTable buffer) partNum with
        | .inl info => some (some info)
        | .inr partNum =>
          match (partTable buffer).filter fun pt => isExtended pt.sysInd with
          | [] => some none
          | pt :: _ =>
            let lbaStart := pt.start4 + relative
            getPartitionInfoExtended d fuel lbaStart
              (if extPartSector = 0 then lbaStart else relative) partNum whichPart

def getPartitionInfoDos (d : BlockDev) (fuel : ℕ) (part : ℤ) : Option (Option DiskPartition) :=
  getPartitionInfoExtended d fuel 0 0 1 part

/-! ## The partitions of one table -/

/-- A partition that is not extended, with its number. -/
structure Part where
  num : ℕ
  start : BitVec 32
  size : BitVec 32
  deriving DecidableEq

/-- What is returned for a partition. -/
def infoOf (d : BlockDev) (p : Part) : DiskPartition :=
  ⟨512, p.start, p.size, partName d p.num, "U-Boot"⟩

/-- The lines list a partition, which is not extended. -/
def ListsPart (lines : List Line) (p : Part) : Prop :=
  ∃ sysInd, isExtended sysInd = false ∧ Line.part p.num p.start p.size sysInd ∈ lines

/-- An entry of a partition that is not extended. -/
def IsPart (pt : DosPartition) : Prop := pt.sysInd ≠ 0 ∧ isExtended pt.sysInd = false

instance (pt : DosPartition) : Decidable (IsPart pt) := inferInstanceAs (Decidable (_ ∧ _))

/-- The partitions of a table that are not extended, numbered from `n` on. -/
def partsOf (sector : BitVec 32) : List DosPartition → ℕ → List Part
  | [], _ => []
  | pt :: pts, n =>
    if IsPart pt then ⟨n, sector + pt.start4, pt.size4⟩ :: partsOf sector pts (nextNum sector pt n)
    else partsOf sector pts (nextNum sector pt n)

/-- The number behind a table. -/
def numAfter (sector : BitVec 32) (pts : List DosPartition) (n : ℕ) : ℕ :=
  pts.foldl (fun n pt => nextNum sector pt n) n

theorem nextNum_of_isPart {pt : DosPartition} (h : IsPart pt) (sector : BitVec 32) (n : ℕ) :
    nextNum sector pt n = n + 1 := by
  have hext : ¬isExtended pt.sysInd := by
    rw [h.2]
    exact Bool.false_ne_true
  exact if_pos (.inr ⟨h.1, hext⟩)

theorem le_nextNum (sector : BitVec 32) (pt : DosPartition) (n : ℕ) : n ≤ nextNum sector pt n := by
  rw [nextNum]
  split_ifs
  · exact Nat.le_succ n
  · exact Nat.le_refl n

theorem le_numAfter (sector : BitVec 32) (pts : List DosPartition) (n : ℕ) :
    n ≤ numAfter sector pts n := by
  induction pts generalizing n with
  | nil => exact Nat.le_refl n
  | cons pt pts ih => exact Nat.le_trans (le_nextNum sector pt n) (ih _)

theorem num_of_mem_partsOf {sector : BitVec 32} {pts : List DosPartition} {n : ℕ} {p : Part}
    (h : p ∈ partsOf sector pts n) : n ≤ p.num ∧ p.num < numAfter sector pts n := by
  induction pts generalizing n with
  | nil => exact absurd h List.not_mem_nil
  | cons pt pts ih =>
    have hnext := le_nextNum sector pt n
    have hin (hrest : p ∈ partsOf sector pts (nextNum sector pt n)) :
        n ≤ p.num ∧ p.num < numAfter sector (pt :: pts) n :=
      ⟨Nat.le_trans hnext (ih hrest).1, (ih hrest).2⟩
    rw [partsOf] at h
    split_ifs at h with hpart
    · rcases List.mem_cons.mp h with rfl | hrest
      · have hlt : n < nextNum sector pt n := by
          rw [nextNum_of_isPart hpart]
          exact Nat.lt_succ_self n
        exact ⟨Nat.le_refl n, Nat.lt_of_lt_of_le hlt (le_numAfter sector pts _)⟩
      · exact hin hrest
    · exact hin h

theorem printLoop_snd (sector : BitVec 32) (pts : List DosPartition) (n : ℕ) :
    (printLoop sector pts n).2 = numAfter sector pts n := by
  induction pts generalizing n with
  | nil => rfl
  | cons pt pts ih =>
    rw [printLoop]
    split_ifs
    · exact ih _
    · exact ih _

theorem listsPart_cons {l : Line} {lines : List Line} {p : Part} :
    ListsPart (l :: lines) p ↔
      (∃ sysInd, isExtended sysInd = false ∧ Line.part p.num p.start p.size sysInd = l) ∨
        ListsPart lines p := by
  constructor
  · rintro ⟨sysInd, hext, hmem⟩
    rcases List.mem_cons.mp hmem with heq | hrest
    · exact .inl ⟨sysInd, hext, heq⟩
    · exact .inr ⟨sysInd, hext, hrest⟩
  · rintro (⟨sysInd, hext, heq⟩ | ⟨sysInd, hext, hrest⟩)
    · exact ⟨sysInd, hext, heq ▸ List.mem_cons_self⟩
    · exact ⟨sysInd, hext, List.mem_cons_of_mem l hrest⟩

theorem listsPart_printLoop {sector : BitVec 32} {pts : List DosPartition} {n : ℕ} {p : Part} :
    ListsPart (printLoop sector pts n).1 p ↔ p ∈ partsOf sector pts n := by
  induction pts generalizing n with
  | nil => exact ⟨fun ⟨_, _, h⟩ => absurd h List.not_mem_nil, fun h => absurd h List.not_mem_nil⟩
  | cons pt pts ih =>
    rw [printLoop, partsOf]
    by_cases hpart : IsPart pt
    · have hshown : pt.sysInd ≠ 0 ∧ (sector = 0 ∨ ¬isExtended pt.sysInd) := by
        refine ⟨hpart.1, .inr ?_⟩
        rw [hpart.2]
        exact Bool.false_ne_true
      rw [if_pos hshown, if_pos hpart, listsPart_cons, List.mem_cons, ih]
      refine or_congr_left ⟨?_, ?_⟩
      · rintro ⟨sysInd, _, heq⟩
        obtain ⟨hnum, hstart, hsize, -⟩ := Line.part.inj heq
        cases p
        exact Part.mk.injEq _ _ _ _ _ _ ▸ ⟨hnum, hstart, hsize⟩
      · rintro rfl
        exact ⟨pt.sysInd, hpart.2, rfl⟩
    · rw [if_neg hpart]
      split_ifs with hshown
      · -- An extended entry of sector 0 is printed, and is not one of the partitions.
        rw [listsPart_cons, ih]
        refine or_iff_right ?_
        rintro ⟨sysInd, hext, heq⟩
        rw [(Line.part.inj heq).2.2.2] at hext
        exact hpart ⟨hshown.1, hext⟩
      · exact ih

theorem getLoop_spec (d : BlockDev) (sector : BitVec 32) (which : ℤ) (pts : List DosPartition)
    (n : ℕ) :
    (∃ p ∈ partsOf sector pts n, (p.num : ℤ) = which ∧
        getLoop d sector which pts n = .inl (infoOf d p)) ∨
      ((∀ p ∈ partsOf sector pts n, (p.num : ℤ) ≠ which) ∧
        getLoop d sector which pts n = .inr (numAfter sector pts n)) := by
  induction pts generalizing n with
  | nil => exact .inr ⟨fun p h => absurd h List.not_mem_nil, rfl⟩
  | cons pt pts ih =>
    rw [partsOf]
    by_cases hpart : IsPart pt
    · rw [if_pos hpart]
      by_cases hwhich : (n : ℤ) = which
      · exact .inl ⟨_, List.mem_cons_self, hwhich, if_pos ⟨hpart.1, hwhich, hpart.2⟩⟩
      · have hskip : getLoop d sector which (pt :: pts) n =
            getLoop d sector which pts (nextNum sector pt n) := if_neg fun h => hwhich h.2.1
        rw [hskip]
        rcases ih (nextNum sector pt n) with ⟨p, hp, hpnum, hget⟩ | ⟨hnone, hget⟩
        · exact .inl ⟨p, List.mem_cons_of_mem _ hp, hpnum, hget⟩
        · exact .inr ⟨List.forall_mem_cons.mpr ⟨hwhich, hnone⟩, hget⟩
    · have hskip : getLoop d sector which (pt :: pts) n =
          getLoop d sector which pts (nextNum sector pt n) := if_neg fun h => hpart ⟨h.1, h.2.2⟩
      rw [if_neg hpart, hskip]
      exact ih _

end Disk
end EmevBsp
