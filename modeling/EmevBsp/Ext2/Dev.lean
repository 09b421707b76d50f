import EmevBsp.Library.Stretch
import Mathlib.Data.BitVec
import Mathlib.Data.List.Basic

/-!
# `fs/ext2/dev.c`: pieces of a partition

A piece of the partition is read in up to three reads of the device: the end of a sector, whole
sectors, and the beginning of one more.  Any read of the device may fail, at any time; what is in
the buffer afterwards is then anything.  What was read so far is kept as the list of the outcomes,
and its length is the time.

When all that is left is shorter than a sector, the outcome of its read is not looked at.
-/

namespace EmevBsp
namespace Ext2

/-! ## The device -/

abbrev sectorSize : ℕ := 512

/-- A mounted volume: `part_info`, the bytes of the device, and `log2_block_size`. -/
structure Volume where
  start : BitVec 32
  size : BitVec 32
  disk : ℕ → UInt8
  log2BlockSize : ℕ

/-- What happens during a call: which reads of the device fail, what they leave in the buffer, and
what `malloc` gives. -/
structure Env where
  fails : ℕ → BitVec 32 → ℕ → Bool
  left : ℕ → ℕ → UInt8
  malloc : ℕ → Option (ℕ → UInt8)

variable (v : Volume) (e : Env)

/-- `block_read` of the device: whether all was read, and what is in the buffer. -/
def blockRead (log : List Bool) (sector : BitVec 32) (count : ℕ) : Bool × List UInt8 :=
  if e.fails log.length sector count then (false, stretch (e.left log.length) 0 (512 * count))
  else (true, stretch v.disk (512 * sector.toNat) (512 * count))

/-- What `ext2fs_devread` returns: the outcomes so far, what was written to the buffer, and whether
it is 1. -/
structure Outcome where
  log : List Bool
  bytes : List UInt8
  ok : Bool

/-- `ext2fs_devread`, from a sector boundary on. -/
def devreadAligned (log : List Bool) (sector : BitVec 32) (byteLen : ℕ) : Outcome :=
  if byteLen = 0 then ⟨log, [], true⟩
  else
    let blockLen := byteLen / sectorSize * sectorSize
    if blockLen = 0 then
      -- what `block_read` returns is not looked at
      let p := blockRead v e log (v.start + sector) 1
      ⟨log ++ [p.1], p.2.take byteLen, true⟩
    else
      let r := blockRead v e log (v.start + sector) (blockLen / sectorSize)
      if r.1 = false then ⟨log ++ [r.1], r.2, false⟩
      else if byteLen - blockLen = 0 then ⟨log ++ [r.1], r.2, true⟩
      else
        let q := blockRead v e (log ++ [r.1])
          (v.start + (sector + BitVec.ofNat 32 (blockLen / sectorSize))) 1
        if q.1 = false then ⟨log ++ [r.1] ++ [q.1], r.2, false⟩
        else ⟨log ++ [r.1] ++ [q.1], r.2 ++ q.2.take (byteLen - blockLen), true⟩

/-- `ext2fs_devread`. -/
def devread (log : List Bool) (sector : BitVec 32) (byteOffset byteLen : ℕ) : Outcome :=
  if sector.msb ∨
      v.size ≤ sector + (BitVec.ofNat 32 (byteOffset + byteLen) - 1).sshiftRight 9 then
    ⟨log, [], false⟩
  else
    let sector := sector + BitVec.ofNat 32 (byteOffset / sectorSize)
    let byteOffset := byteOffset % sectorSize
    if byteOffset ≠ 0 then
      let r := blockRead v e log (v.start + sector) 1
      if r.1 = false then ⟨log ++ [r.1], [], false⟩
      else
        let n := min (sectorSize - byteOffset) byteLen
        let rest := devreadAligned v e (log ++ [r.1]) (sector + 1) (byteLen - n)
        { rest with bytes := (r.2.drop byteOffset).take n ++ rest.bytes }
    else devreadAligned v e log sector byteLen

/-! ## What is read -/

variable {v e}

/-- The bytes of the partition. -/
def Volume.part (v : Volume) : ℕ → UInt8 := fun x => v.disk (512 * v.start.toNat + x)

/-- The partition lies on the device. -/
def Volume.Fits (v : Volume) : Prop := v.start.toNat + v.size.toNat ≤ 2 ^ 32

theorem toNat_add_ofNat {x : BitVec 32} {k : ℕ} (h : x.toNat + k < 2 ^ 32) :
    (x + BitVec.ofNat 32 k).toNat = x.toNat + k := by
  rw [BitVec.toNat_add, BitVec.toNat_ofNat, Nat.add_mod_mod, Nat.mod_eq_of_lt h]

/-- All of a piece was read and 1 is returned; or one of the reads has failed and 0 is returned. -/
def Outcome.Reads (o : Outcome) (log : List Bool) (piece : List UInt8) : Prop :=
  ∃ l, o.log = log ++ l ∧
    ((o.ok = true ∧ false ∉ l ∧ o.bytes = piece) ∨
      (o.ok = false ∧ false ∈ l ∧ o.bytes.length ≤ piece.length))

theorem blockRead_of_fails {log : List Bool} {sector : BitVec 32} {count : ℕ}
    (h : e.fails log.length sector count = true) :
    blockRead v e log sector count = (false, stretch (e.left log.length) 0 (512 * count)) :=
  if_pos h

theorem blockRead_of_reads (hfits : v.Fits) {log : List Bool} {sector : BitVec 32} {count : ℕ}
    (hin : sector.toNat < v.size.toNat) (h : e.fails log.length (v.start + sector) count = false) :
    blockRead v e log (v.start + sector) count =
      (true, stretch v.part (512 * sector.toNat) (512 * count)) := by
  have hsector : (v.start + sector).toNat = v.start.toNat + sector.toNat := by
    rw [Volume.Fits] at hfits
    rw [BitVec.toNat_add, Nat.mod_eq_of_lt (by omega)]
  rw [blockRead, if_neg (Bool.eq_false_iff.mp h), hsector]
  refine congrArg (Prod.mk true) (stretch_congr fun i _ => ?_)
  rw [Volume.part, Nat.mul_add, Nat.add_assoc]

theorem devreadAligned_spec (hfits : v.Fits) {sector : BitVec 32} {byteLen : ℕ}
    (hin : 512 * sector.toNat + byteLen ≤ 512 * v.size.toNat)
    (log : List Bool) (hshort : 0 < byteLen → byteLen < 512 →
      e.fails log.length (v.start + sector) 1 = false) :
    (devreadAligned v e log sector byteLen).Reads log
      (stretch v.part (512 * sector.toNat) byteLen) := by
  have hsize := v.size.isLt
  rw [devreadAligned]
  by_cases hzero : byteLen = 0
  · rw [if_pos hzero, hzero]
    exact ⟨[], (List.append_nil log).symm, .inl ⟨rfl, List.not_mem_nil, rfl⟩⟩
  rw [if_neg hzero]
  simp only [sectorSize]
  by_cases hnone : byteLen / 512 * 512 = 0
  · -- a short piece
    have hlast : e.fails log.length (v.start + sector) 1 = false := hshort (by omega) (by omega)
    have hread := blockRead_of_reads hfits (by omega) hlast
    rw [if_pos hnone, hread]
    refine ⟨[true], rfl, .inl ⟨rfl, by simp, ?_⟩⟩
    rw [take_stretch (by omega)]
  rw [if_neg hnone, Nat.mul_div_cancel _ (Nat.succ_pos 511)]
  cases hfirst : e.fails log.length (v.start + sector) (byteLen / 512) with
  | true =>
    rw [blockRead_of_fails hfirst, if_pos rfl]
    refine ⟨[false], rfl, .inr ⟨rfl, List.mem_singleton_self _, ?_⟩⟩
    dsimp only
    rw [length_stretch, length_stretch]
    omega
  | false =>
    rw [blockRead_of_reads hfits (by omega) hfirst, if_neg (by simp)]
    dsimp only
    by_cases hwhole : byteLen - byteLen / 512 * 512 = 0
    · rw [if_pos hwhole]
      refine ⟨[true], rfl, .inl ⟨rfl, by simp, ?_⟩⟩
      dsimp only
      congr 1
      omega
    rw [if_neg hwhole]
    have hnext : (sector + BitVec.ofNat 32 (byteLen / 512)).toNat =
        sector.toNat + byteLen / 512 := toNat_add_ofNat (by omega)
    cases hlast : e.fails (log ++ [true]).length
        (v.start + (sector + BitVec.ofNat 32 (byteLen / 512))) 1 with
    | true =>
      rw [blockRead_of_fails hlast, if_pos rfl]
      refine ⟨[true, false], List.append_assoc log [true] [false], .inr ⟨rfl, by simp, ?_⟩⟩
      dsimp only
      rw [length_stretch, length_stretch]
      omega
    | false =>
      rw [blockRead_of_reads hfits (by rw [hnext]; omega) hlast, if_neg (by simp), hnext]
      refine ⟨[true, true], List.append_assoc log [true] [true], .inl ⟨rfl, by simp, ?_⟩⟩
      dsimp only
      rw [take_stretch (by omega), Nat.mul_add, stretch_append]
      congr 1
      omega

theorem toNat_lastSector {n : ℕ} (hpos : 0 < n) (hsmall : n ≤ 2 ^ 31) :
    ((BitVec.ofNat 32 n - 1).sshiftRight 9).toNat = (n - 1) / 512 := by
  have hone : (BitVec.ofNat 32 n - 1).toNat = n - 1 := by bv_omega
  have hmsb : (BitVec.ofNat 32 n - 1).msb = false := by
    rw [BitVec.msb_eq_false_iff_two_mul_lt, hone]
    omega
  rw [BitVec.sshiftRight_eq_of_msb_false hmsb, BitVec.toNat_ushiftRight, hone,
    Nat.shiftRight_eq_div_pow]

theorem not_outside {sector : BitVec 32} {byteOffset byteLen : ℕ} (hpos : 0 < byteOffset + byteLen)
    (hlow : sector.toNat < 2 ^ 31)
    (hin : 512 * sector.toNat + (byteOffset + byteLen) ≤ 512 * v.size.toNat)
    (hsmall : byteOffset + byteLen < 2 ^ 31) :
    ¬ (sector.msb ∨
      v.size ≤ sector + (BitVec.ofNat 32 (byteOffset + byteLen) - 1).sshiftRight 9) := by
  have hsize := v.size.isLt
  have hlast := toNat_lastSector hpos hsmall.le
  rintro (hneg | hle)
  · rw [BitVec.msb_eq_true_iff_two_mul_ge] at hneg
    omega
  · rw [BitVec.le_def, BitVec.toNat_add, hlast, Nat.mod_eq_of_lt (by omega)] at hle
    omega

theorem devread_sectors (hfits : v.Fits) {sector : BitVec 32} {n : ℕ} (hpos : 0 < n)
    (hlow : sector.toNat < 2 ^ 31) (hin : sector.toNat + n ≤ v.size.toNat) (hsmall : n < 2 ^ 22)
    (log : List Bool) :
    (e.fails log.length (v.start + sector) n = false ∧
        devread v e log sector 0 (512 * n) =
          ⟨log ++ [true], stretch v.part (512 * sector.toNat) (512 * n), true⟩) ∨
      (e.fails log.length (v.start + sector) n = true ∧
        ∃ bytes, devread v e log sector 0 (512 * n) = ⟨log ++ [false], bytes, false⟩) := by
  have hzero : sector + BitVec.ofNat 32 (0 / 512) = sector := by
    rw [Nat.zero_div]
    exact BitVec.add_zero sector
  have hwhole : 512 * n / sectorSize = n := Nat.mul_div_cancel_left n (Nat.succ_pos 511)
  have hlen : n * sectorSize = 512 * n := Nat.mul_comm n 512
  rw [devread, if_neg (not_outside (by omega) hlow (by omega) (by omega))]
  dsimp only
  rw [if_neg (not_not_intro (Nat.zero_mod 512)), hzero, devreadAligned, if_neg (by omega)]
  dsimp only
  rw [hwhole, hlen, hwhole, if_neg (by omega), Nat.sub_self, if_pos rfl]
  cases hfails : e.fails log.length (v.start + sector) n with
  | true =>
    rw [blockRead_of_fails hfails, if_pos rfl]
    exact .inr ⟨rfl, _, rfl⟩
  | false =>
    rw [blockRead_of_reads hfits (by omega) hfails, if_neg (by simp)]
    exact .inl ⟨rfl, rfl⟩

/-- The range is not refused. -/
def Volume.Admits (v : Volume) (sector : BitVec 32) (byteOffset byteLen : ℕ) : Prop :=
  ¬ (sector.msb ∨
    v.size ≤ sector + (BitVec.ofNat 32 (byteOffset + byteLen) - 1).sshiftRight 9)

/-- The read of a short piece does not fail: the only read, or the one after the end of a sector
was read. -/
def ShortReads (v : Volume) (e : Env) (log : List Bool) (sector : BitVec 32)
    (byteOffset byteLen : ℕ) : Prop :=
  (byteOffset % 512 = 0 → 0 < byteLen → byteLen < 512 →
    e.fails log.length (v.start + (sector + BitVec.ofNat 32 (byteOffset / 512))) 1 = false) ∧
  (byteOffset % 512 ≠ 0 →
    e.fails log.length (v.start + (sector + BitVec.ofNat 32 (byteOffset / 512))) 1 = false →
    512 < byteOffset % 512 + byteLen → byteOffset % 512 + byteLen < 1024 →
    e.fails (log.length + 1) (v.start + (sector + BitVec.ofNat 32 (byteOffset / 512) + 1)) 1 =
      false)

theorem devread_of_admits (hfits : v.Fits) {sector : BitVec 32} {byteOffset byteLen : ℕ}
    (hadmits : v.Admits sector byteOffset byteLen)
    (hin : 512 * sector.toNat + (byteOffset + byteLen) ≤ 512 * v.size.toNat) (log : List Bool)
    (hshort : ShortReads v e log sector byteOffset byteLen) :
    (devread v e log sector byteOffset byteLen).Reads log
      (stretch v.part (512 * sector.toNat + byteOffset) byteLen) := by
  have hsize := v.size.isLt
  have hsector : (sector + BitVec.ofNat 32 (byteOffset / 512)).toNat =
      sector.toNat + byteOffset / 512 := toNat_add_ofNat (by omega)
  rw [devread, if_neg hadmits]
  dsimp only
  by_cases hoffset : byteOffset % 512 = 0
  · rw [if_neg (not_not_intro hoffset)]
    have hin' : 512 * (sector + BitVec.ofNat 32 (byteOffset / 512)).toNat + byteLen ≤
        512 * v.size.toNat := by
      rw [hsector]
      omega
    have h := devreadAligned_spec (e := e) hfits hin' log (hshort.1 hoffset)
    rw [hsector] at h
    convert h using 3
    omega
  · rw [if_pos hoffset]
    cases hfirst : e.fails log.length
        (v.start + (sector + BitVec.ofNat 32 (byteOffset / 512))) 1 with
    | true =>
      rw [blockRead_of_fails hfirst, if_pos rfl]
      exact ⟨[false], rfl, .inr ⟨rfl, List.mem_singleton_self _, Nat.zero_le _⟩⟩
    | false =>
      have hread := blockRead_of_reads hfits (by rw [hsector]; omega) hfirst
      rw [hread, if_neg (by simp), hsector]
      dsimp only
      generalize hn : min (512 - byteOffset % 512) byteLen = n
      have hnext : (sector + BitVec.ofNat 32 (byteOffset / 512) + 1).toNat =
          sector.toNat + byteOffset / 512 + 1 := by
        rw [← hsector]
        exact toNat_add_ofNat (k := 1) (by rw [hsector]; omega)
      have hin' : 512 * (sector + BitVec.ofNat 32 (byteOffset / 512) + 1).toNat + (byteLen - n) ≤
          512 * v.size.toNat := by
        rw [hnext]
        omega
      have hrest := devreadAligned_spec (e := e) hfits hin' (log ++ [true]) fun hpos hlt => by
        rw [List.length_append]
        exact hshort.2 hoffset hfirst (by omega) (by omega)
      rw [hnext] at hrest
      have hpiece : stretch v.part (512 * sector.toNat + byteOffset) byteLen =
          ((stretch v.part (512 * (sector.toNat + byteOffset / 512)) (512 * 1)).drop
            (byteOffset % 512)).take n ++
            stretch v.part (512 * (sector.toNat + byteOffset / 512 + 1)) (byteLen - n) := by
        have hhead : 512 * (sector.toNat + byteOffset / 512) + byteOffset % 512 =
            512 * sector.toNat + byteOffset := by omega
        rw [drop_stretch (by omega), take_stretch (by omega), hhead]
        by_cases hall : byteLen ≤ n
        · rw [Nat.sub_eq_zero_of_le hall, stretch_zero, List.append_nil]
          congr 1
          omega
        · have hmeet : 512 * (sector.toNat + byteOffset / 512 + 1) =
              512 * sector.toNat + byteOffset + n := by omega
          rw [hmeet, stretch_append, Nat.add_sub_cancel' (Nat.le_of_not_le hall)]
      obtain ⟨l, hlog, hl⟩ := hrest
      refine ⟨true :: l, by rw [hlog, List.append_assoc]; rfl, ?_⟩
      rw [hpiece]
      rcases hl with ⟨hok, hnot, hbytes⟩ | ⟨hok, hmem, hlen⟩
      · exact .inl ⟨hok, by simpa using hnot, by rw [hbytes]⟩
      · refine .inr ⟨hok, List.mem_cons_of_mem true hmem, ?_⟩
        rw [List.length_append, List.length_append]
        exact Nat.add_le_add_left hlen _

/-- The sector of a short piece: the one that is read when less than a sector is left, and it is
not the end of the sector that is read first. -/
def ShortSector (sector : BitVec 32) (byteOffset byteLen : ℕ) (s : BitVec 32) : Prop :=
  ∃ k, byteOffset ≤ 512 * k ∧ 512 * k < byteOffset + 512 ∧ 512 * k < byteOffset + byteLen ∧
    byteOffset + byteLen < 512 * k + 512 ∧ s = sector + BitVec.ofNat 32 k

theorem devread_spec (hfits : v.Fits) {sector : BitVec 32} {byteOffset byteLen : ℕ}
    (hpos : 0 < byteOffset + byteLen) (hlow : sector.toNat < 2 ^ 31)
    (hin : 512 * sector.toNat + (byteOffset + byteLen) ≤ 512 * v.size.toNat)
    (hsmall : byteOffset + byteLen < 2 ^ 31)
    (hshort : ∀ s, ShortSector sector byteOffset byteLen s → ∀ t, e.fails t (v.start + s) 1 = false)
    (log : List Bool) :
    (devread v e log sector byteOffset byteLen).Reads log
      (stretch v.part (512 * sector.toNat + byteOffset) byteLen) := by
  refine devread_of_admits hfits (not_outside hpos hlow hin hsmall) hin log ⟨?_, ?_⟩
  · intro hoffset hpos hlt
    exact hshort _ ⟨byteOffset / 512, by omega, by omega, by omega, by omega, rfl⟩ _
  · intro hoffset _ hmore hlt
    refine hshort _ ⟨byteOffset / 512 + 1, by omega, by omega, by omega, by omega, ?_⟩ _
    rw [BitVec.ofNat_add, ← BitVec.add_assoc]
    rfl

end Ext2
end EmevBsp

/-!
# `fs/ext2/ext2fs.c`: the blocks of a file

A file has twelve direct blocks, a block of pointers to blocks, and a block of pointers to such
blocks.  The last block of pointers that was read is kept in one of two buffers; they stay from one
call to the next, with the sector the block was read from.

Blocks and sectors are 32 bits.  A position and a length are numbers, of which the sum is below
`2 ^ 32`; `log2_block_size` is at most 6, as `ext2` has it, so that the numbers of blocks are small.

* `prepare`, `load`: the buffer of a block of pointers, and the block in it.
* `readBlock`, `readFile`: the functions of the source.
-/

namespace EmevBsp
namespace Ext2

/-! ## The data -/

/-- `struct ext2_inode`: its size, and the 60 bytes of the union of block pointers and symbolic
link. -/
structure Inode where
  size : BitVec 32
  b : ℕ → UInt8

/-- `__le32_to_cpu`, of a word of an array. -/
def le32ToCpu (buf : ℕ → UInt8) (k : ℕ) : BitVec 32 :=
  BitVec.ofNat 32 (2 ^ 24 * (buf (4 * k + 3)).toNat + 2 ^ 16 * (buf (4 * k + 2)).toNat +
    2 ^ 8 * (buf (4 * k + 1)).toNat + (buf (4 * k)).toNat)

abbrev indirectBlocks : ℕ := 12

def Inode.dirBlocks (inode : Inode) (k : ℕ) : BitVec 32 := le32ToCpu inode.b k

def Inode.indirBlock (inode : Inode) : BitVec 32 := le32ToCpu inode.b indirectBlocks

def Inode.doubleIndirBlock (inode : Inode) : BitVec 32 := le32ToCpu inode.b (indirectBlocks + 1)

/-- A buffer for a block of pointers: `indir1_block` or `indir2_block`, with its size, and the
sector the block comes from. -/
structure Indir where
  block : Option (ℕ → UInt8)
  size : ℕ
  blkno : BitVec 32

/-- The globals. -/
structure Globals where
  indir1 : Indir
  indir2 : Indir

/-- The globals at the start, and after `ext2fs_close`. -/
def noBlocks : Globals := ⟨⟨none, 0, -1⟩, ⟨none, 0, -1⟩⟩

/-- The globals, with the outcomes of the reads of the device. -/
structure State extends Globals where
  log : List Bool

/-! ## The blocks -/

variable (v : Volume) (e : Env)

def Volume.log2Ext2BlockSize : ℕ := v.log2BlockSize + 1

def Volume.ext2BlockSize : ℕ := 2 ^ (v.log2BlockSize + 10)

/-- The buffer of a block of pointers, of the size of a block; or there is no memory. -/
def prepare (log : List Bool) (c : Indir) : Indir × Bool :=
  match c.block with
  | none =>
    match e.malloc log.length with
    | none => (c, false)
    | some b => (⟨some b, v.ext2BlockSize, -1⟩, true)
  | some _ =>
    if v.ext2BlockSize ≠ c.size then
      match e.malloc log.length with
      | none => (⟨none, 0, -1⟩, false)
      | some b => (⟨some b, v.ext2BlockSize, -1⟩, true)
    else (c, true)

/-- The bytes in a buffer. -/
def Indir.bytes (c : Indir) : ℕ → UInt8 := c.block.getD fun _ => 0

/-- A block of pointers is read, unless its sector is the one that `blkno` says. -/
def load (log : List Bool) (c : Indir) (sector blkno : BitVec 32) : Indir × List Bool × Bool :=
  if sector ≠ blkno then
    let r := devread v e log sector 0 v.ext2BlockSize
    (⟨some (splice c.bytes 0 r.bytes), c.size, if r.ok then sector else c.blkno⟩, r.log, r.ok)
  else (c, log, true)

/-- `ext2fs_read_block`: -1 for an error, and 0 for a hole. -/
def readBlock (inode : Inode) (fileblock : ℕ) (s : State) : State × BitVec 32 :=
  let perblock := v.ext2BlockSize / 4
  if fileblock < indirectBlocks then (s, inode.dirBlocks fileblock)
  else if fileblock < indirectBlocks + perblock then
    let p := prepare v e s.log s.indir1
    if p.2 = false then ({ s with indir1 := p.1 }, -1)
    else
      let l := load v e s.log p.1 (inode.indirBlock <<< v.log2Ext2BlockSize) p.1.blkno
      -- a read that fails is taken for a hole
      if l.2.2 = false then ({ s with indir1 := l.1, log := l.2.1 }, 0)
      else
        ({ s with indir1 := l.1, log := l.2.1 }, le32ToCpu l.1.bytes (fileblock - indirectBlocks))
  else if fileblock < indirectBlocks + perblock * (perblock + 1) then
    let rblock := fileblock - (indirectBlocks + perblock)
    let p := prepare v e s.log s.indir1
    if p.2 = false then ({ s with indir1 := p.1 }, -1)
    else
      let l := load v e s.log p.1 (inode.doubleIndirBlock <<< v.log2Ext2BlockSize) p.1.blkno
      if l.2.2 = false then ({ s with indir1 := l.1, log := l.2.1 }, -1)
      else
        let p2 := prepare v e l.2.1 s.indir2
        if p2.2 = false then (⟨⟨l.1, p2.1⟩, l.2.1⟩, -1)
        else
          -- the sector is compared with the one of the first buffer
          let l2 := load v e l.2.1 p2.1
            (le32ToCpu l.1.bytes (rblock / perblock) <<< v.log2Ext2BlockSize) l.1.blkno
          if l2.2.2 = false then (⟨⟨l.1, l2.1⟩, l2.2.1⟩, -1)
          else (⟨⟨l.1, l2.1⟩, l2.2.1⟩, le32ToCpu l2.1.bytes (rblock % perblock))
  else (s, -1)

/-! ## The file -/

/-- The loop of `ext2fs_read_file`, with the number of blocks that are left: whether the end is
reached.  `buf` is where the next block goes. -/
def readLoop (inode : Inode) (pos len : ℕ) :
    ℕ → ℕ → ℕ → State → (ℕ → UInt8) → State × (ℕ → UInt8) × Bool
  | 0, _, _, s, mem => (s, mem, true)
  | n + 1, i, buf, s, mem =>
    let blocksize := v.ext2BlockSize
    let r := readBlock v e inode i s
    if r.2.msb then (r.1, mem, false)
    else
      let blknr := r.2 <<< v.log2Ext2BlockSize
      let blockend :=
        if n = 0 then
          if (len + pos) % blocksize = 0 then blocksize else (len + pos) % blocksize
        else blocksize
      let skipfirst := if i = pos / blocksize then pos % blocksize else 0
      if blknr ≠ 0 then
        let d := devread v e r.1.log blknr skipfirst (blockend - skipfirst)
        let s' := { r.1 with log := d.log }
        if d.ok = false then (s', splice mem buf d.bytes, false)
        else readLoop inode pos len n (i + 1) (buf + (blocksize - skipfirst)) s'
          (splice mem buf d.bytes)
      else
        readLoop inode pos len n (i + 1) (buf + (blocksize - skipfirst)) r.1
          (splice mem buf (List.replicate (blocksize - skipfirst) 0))

/-- `ext2fs_read_file`: the globals, the memory from `buf` on, and the value that is returned. -/
def readFile (inode : Inode) (pos len : ℕ) (g : Globals) (mem : ℕ → UInt8) :
    State × (ℕ → UInt8) × ℤ :=
  let len := if len > inode.size.toNat then inode.size.toNat else len
  let blockcnt := (len + pos + v.ext2BlockSize - 1) % 2 ^ 32 / v.ext2BlockSize
  let r := readLoop v e inode pos len (blockcnt - pos / v.ext2BlockSize) (pos / v.ext2BlockSize) 0
    ⟨g, []⟩ mem
  (r.1, r.2.1, if r.2.2 then (BitVec.ofNat 32 len).toInt else -1)

end Ext2
end EmevBsp
