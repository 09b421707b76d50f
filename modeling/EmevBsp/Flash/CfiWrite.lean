import EmevBsp.Flash.CfiStatus
import EmevBsp.Library.AddressSpace
import Mathlib.Data.List.GetD

/-!
# `drivers/mtd/cfi_flash.c`: `write_buff`

A range is written in words of the port.  A word of which only some bytes belong to the range is
filled up with what the flash holds.  The build with buffered writes hands the words in between to
`flash_write_cfibuffer`, up to the next boundary of the write buffers at a time.  Before a buffer is
written, a loop looks whether its words can be programmed; it goes on while `flag == 0`, where
`flag` says that a word can be.  So it stops at the first word that can be programmed, and the
words behind it are not looked at.

The source is in RAM and the port is little endian.  Programming leaves `old & new`, whatever the
status check then makes of the answers of the chips.  A buffer is programmed as a whole, when its
last word is there.
-/

namespace EmevBsp
namespace Flash
namespace CfiWrite

open Cfi AddressSpace

/-! ## The bank -/

abbrev Addr := BitVec 32

abbrev Memory := Addr → UInt8

/-- `flash_info_t` of a bank that `flash_get_size` has accepted.  Other command sets are refused
there; the size of the buffers is a divisor. -/
structure Bank extends Cfi.Info where
  bufferSize : ℕ
  bufferWriteTout : ℕ
  knownWidth : toInfo.KnownWidth
  knownVendor : vendor.isIntel = true ∨ vendor.isAmd = true
  buffered_pos : 0 < portwidth / chipwidth * bufferSize

variable (bank : Bank)

/-- `shift`, in `flash_write_cfibuffer` -/
def Bank.shift : ℕ :=
  match bank.portwidth with
  | 1 => 0
  | 2 => 1
  | 4 => 2
  | _ => 3

/-- What the status checks read: of operation `n`, before the buffer is filled and at the end. -/
structure Chips where
  ready : ℕ → Answers
  done : ℕ → Answers

/-- A program operation: for each word what the flash held and what it is to hold, and the code with
which the operation was over. -/
structure Operation where
  words : List (Port × Port)
  code : ℕ

/-- The flash, and the operations so far. -/
structure Programming where
  mem : Memory
  log : List Operation

/-- `flash_read8` to `flash_read64` -/
def flashRead (mem : Memory) (a : Addr) : Port := fun i =>
  if i < bank.portwidth then mem (a + BitVec.ofNat 32 i) else 0

/-- A word is programmed: bits are cleared, and none is set. -/
def program (mem : Memory) (dest : Addr) (word : Port) : Memory := fun x =>
  if (x - dest).toNat < bank.portwidth then mem x &&& word (x - dest).toNat else mem x

/-! ## One word -/

/-- `cfiword_t` -/
abbrev Cfiword := BitVec (8 * bank.portwidth)

/-- `flash_add_byte`, of a little-endian port. -/
def flashAddByte (cword : Cfiword bank) (c : UInt8) : Cfiword bank :=
  cword >>> 8 ||| c.toBitVec.setWidth (8 * bank.portwidth) <<< (8 * bank.portwidth - 8)

/-- The bytes of a word, as they stand in memory. -/
def bytesOf {m : ℕ} (cword : BitVec m) : Port := fun i => ⟨cword.extractLsb' (8 * i) 8⟩

/-- The word to which these bytes are added.  They are as many as it has, so it does not matter what
it held before. -/
def cwordOf (bytes : List UInt8) : Cfiword bank := bytes.foldl (flashAddByte bank) 0

variable (chips : Chips)

def flashWriteCfiword (s : Programming) (dest : Addr) (cword : Cfiword bank) : ℕ × Programming :=
  let old := flashRead bank s.mem dest
  let word := bytesOf cword
  let rc := Cfi.flashWriteCfiword bank.toInfo old word (chips.done s.log.length)
  if Cfi.Fits bank.toInfo old word then
    (rc, ⟨program bank s.mem dest word, s.log ++ [⟨[(old, word)], rc⟩]⟩)
  else (rc, s)

/-! ## A buffer -/

/-- The first `cnt` words of the source. -/
def sourceWords (src : List UInt8) : ℕ → List Port
  | 0 => []
  | cnt + 1 => (fun i => src.getD i 0) :: sourceWords (src.drop bank.portwidth) cnt

/-- Each word beside what the flash holds at its place. -/
def wordsAt (mem : Memory) : Addr → List Port → List (Port × Port)
  | _, [] => []
  | dst, word :: words =>
    (flashRead bank mem dst, word) :: wordsAt mem (dst + BitVec.ofNat 32 bank.portwidth) words

/-- The loop that looks whether the words can be programmed: `flag`, at its end. -/
def checkErased : List (Port × Port) → Bool → Bool
  | [], flag => flag
  | w :: ws, flag => if flag then flag else checkErased ws (decide (Cfi.Fits bank.toInfo w.1 w.2))

/-- The loop that writes the words, and the command that confirms them. -/
def programWords (mem : Memory) : Addr → List Port → Memory
  | _, [] => mem
  | dst, word :: words =>
    programWords (program bank mem dst word) (dst + BitVec.ofNat 32 bank.portwidth) words

/-- The code of a buffered operation: on the Intel command sets the buffer has to be available. -/
def bufferReady (n : ℕ) : ℕ :=
  if bank.vendor.isIntel then
    (flashStatusCheck bank.toInfo (chips.ready n) bank.bufferWriteTout 0 0).1
  else errOk

def flashWriteCfibuffer (s : Programming) (dest : Addr) (src : List UInt8) (len : ℕ) :
    ℕ × Programming :=
  let words := sourceWords bank src (len >>> bank.shift)
  let pairs := wordsAt bank s.mem dest words
  if checkErased bank pairs false then
    let ready := bufferReady bank chips s.log.length
    if ready ≠ errOk then (ready, ⟨s.mem, s.log ++ [⟨pairs, ready⟩]⟩)
    else
      let rc := flashFullStatusCheck bank.toInfo (chips.done s.log.length) bank.bufferWriteTout
      (rc, ⟨programWords bank s.mem dest words, s.log ++ [⟨pairs, rc⟩]⟩)
  else (errNotErased, s)

/-- `i`: up to the next boundary of a buffer. -/
def bufferLength (wp : Addr) (cnt : ℕ) : ℕ :=
  let bufferedSize := bank.portwidth / bank.chipwidth * bank.bufferSize
  min (bufferedSize - wp.toNat % bufferedSize) cnt

theorem Bank.portwidth_eq : bank.portwidth = 2 ^ bank.shift := by
  have hknown : bank.portwidth ∈ [1, 2, 4, 8] := bank.knownWidth
  simp only [List.mem_cons, List.not_mem_nil, or_false] at hknown
  rcases hknown with h | h | h | h <;>
  · rw [shift, h]
    rfl

theorem Bank.portwidth_pos : 0 < bank.portwidth := bank.portwidth_eq ▸ Nat.two_pow_pos _

theorem Bank.portwidth_le : bank.portwidth ≤ 8 := by
  have hknown : bank.portwidth ∈ [1, 2, 4, 8] := bank.knownWidth
  simp only [List.mem_cons, List.not_mem_nil, or_false] at hknown
  omega

theorem shiftRight_shift (len : ℕ) : len >>> bank.shift = len / bank.portwidth := by
  rw [Nat.shiftRight_eq_div_pow, bank.portwidth_eq]

theorem sub_and_portwidth (len : ℕ) :
    len - (len &&& (bank.portwidth - 1)) = len / bank.portwidth * bank.portwidth := by
  rw [bank.portwidth_eq, Nat.and_two_pow_sub_one_eq_mod, ← bank.portwidth_eq]
  have hdiv := Nat.div_add_mod' len bank.portwidth
  omega

theorem div_pos_of_flashWriteCfibuffer {s : Programming} {dest : Addr} {src : List UInt8} {len : ℕ}
    (h : (flashWriteCfibuffer bank chips s dest src len).1 = errOk) : 0 < len / bank.portwidth := by
  refine Nat.pos_of_ne_zero fun hzero => ?_
  have hne : errNotErased ≠ errOk := by decide
  rw [flashWriteCfibuffer, shiftRight_shift, hzero] at h
  exact hne h

/-! ## The range -/

/-- The part at the end that is less than a word. -/
def writeTail (s : Programming) (wp : Addr) (src : List UInt8) : ℕ × Programming :=
  if src.length = 0 then (errOk, s)
  else
    flashWriteCfiword bank chips s wp (cwordOf bank
      (src ++ cells s.mem (wp + BitVec.ofNat 32 src.length) (bank.portwidth - src.length)))

/-- The aligned part, and what follows it; `buffered` is `CONFIG_SYS_FLASH_USE_BUFFER_WRITE`. -/
def writeAligned (buffered : Bool) (s : Programming) (wp : Addr) (src : List UInt8) :
    ℕ × Programming :=
  if bank.portwidth ≤ src.length then
    -- the loop of the other build has the same body as a buffer of size 1
    if buffered = false ∨ bank.bufferSize = 1 then
      let r := flashWriteCfiword bank chips s wp (cwordOf bank (src.take bank.portwidth))
      if r.1 ≠ errOk then r
      else
        writeAligned buffered r.2 (wp + BitVec.ofNat 32 bank.portwidth) (src.drop bank.portwidth)
    else
      let i := bufferLength bank wp src.length
      let r := flashWriteCfibuffer bank chips s wp src i
      if r.1 ≠ errOk then r
      else
        let i := i - (i &&& (bank.portwidth - 1))
        writeAligned buffered r.2 (wp + BitVec.ofNat 32 i) (src.drop i)
  else writeTail bank chips s wp src
termination_by src.length
decreasing_by
  · have hpos := bank.portwidth_pos
    rw [List.length_drop]
    omega
  · next _ _ hok =>
    have hdiv := div_pos_of_flashWriteCfibuffer bank chips (not_not.mp hok)
    have hpos : 0 < bufferLength bank wp src.length / bank.portwidth * bank.portwidth :=
      Nat.mul_pos hdiv bank.portwidth_pos
    have hsrc := bank.portwidth_pos
    rw [List.length_drop, sub_and_portwidth]
    omega

/-- "get lower aligned address" -/
def alignedAddr (addr : Addr) : Addr := addr &&& ~~~BitVec.ofNat 32 (bank.portwidth - 1)

/-- `aln` -/
def alnOf (addr : Addr) : ℕ := (addr - alignedAddr bank addr).toNat

def writeBuff (buffered : Bool) (mem : Memory) (addr : Addr) (src : List UInt8) :
    ℕ × Programming :=
  let wp := alignedAddr bank addr
  let aln := alnOf bank addr
  if aln ≠ 0 then
    let bytes := cells mem wp aln ++ src.take (bank.portwidth - aln)
    let r := flashWriteCfiword bank chips ⟨mem, []⟩ wp (cwordOf bank
      (bytes ++ cells mem (wp + BitVec.ofNat 32 bytes.length) (bank.portwidth - bytes.length)))
    if r.1 ≠ errOk then r
    else
      writeAligned bank chips buffered r.2 (wp + BitVec.ofNat 32 bank.portwidth)
        (src.drop (bank.portwidth - aln))
  else writeAligned bank chips buffered ⟨mem, []⟩ wp src

theorem alnOf_lt (addr : Addr) : alnOf bank addr < bank.portwidth := by
  have hpos := bank.portwidth_pos
  have hwide := bank.portwidth_le
  have hle : (addr &&& BitVec.ofNat 32 (bank.portwidth - 1)).toNat ≤ bank.portwidth - 1 := by
    rw [BitVec.toNat_and, BitVec.toNat_ofNat, Nat.mod_eq_of_lt (by omega)]
    exact Nat.and_le_right
  rw [alnOf, alignedAddr, sub_and_not]
  omega

/-! ## What a write should do -/

/-- No bit of these bytes has to be set from 0 to 1. -/
def Fitting (mem : Memory) (a : Addr) (l : List UInt8) : Prop :=
  ∀ i (h : i < l.length), mem (a + BitVec.ofNat 32 i) &&& l[i] = l[i]

/-- **What a write should do.**  When it returns 0, the range is the source, and nothing else has
changed; every word that is programmed fits; and a range that does not fit is reported as not
erased, unless the status of an operation is reported before the word is reached. -/
structure Programs (mem : Memory) (addr : Addr) (src : List UInt8) (r : ℕ × Programming) :
    Prop where
  written : r.1 = errOk → ∀ i (h : i < src.length), r.2.mem (addr + BitVec.ofNat 32 i) = src[i]
  kept : r.1 = errOk → ∀ x, (∀ i < src.length, x ≠ addr + BitVec.ofNat 32 i) → r.2.mem x = mem x
  fits : ∀ op ∈ r.2.log, ∀ w ∈ op.words, Cfi.Fits bank.toInfo w.1 w.2
  reported : ¬Fitting mem addr src →
    r.1 = errNotErased ∨ ∃ op ∈ r.2.log, op.code ≠ errOk ∧ r.1 = op.code

/-! ## Bytes that fit -/

section Fitting

variable {mem mem' : Memory} {a : Addr} {l l' : List UInt8} {k n : ℕ}

theorem fitting_append : Fitting mem a (l ++ l') ↔
    Fitting mem a l ∧ Fitting mem (a + BitVec.ofNat 32 l.length) l' := by
  constructor
  · refine fun h => ⟨fun i hi => ?_, fun i hi => ?_⟩
    · have hfit := h i (by rw [List.length_append]; omega)
      rwa [List.getElem_append_left hi] at hfit
    · have hfit := h (l.length + i) (by rw [List.length_append]; omega)
      rw [List.getElem_append_right (Nat.le_add_right _ _)] at hfit
      simp only [Nat.add_sub_cancel_left] at hfit
      rwa [add_add]
  · rintro ⟨h, h'⟩ i hi
    rcases Nat.lt_or_ge i l.length with hlt | hge
    · rw [List.getElem_append_left hlt]
      exact h i hlt
    · obtain ⟨j, rfl⟩ := Nat.exists_eq_add_of_le hge
      rw [List.getElem_append_right hge]
      simp only [Nat.add_sub_cancel_left]
      rw [← add_add]
      exact h' j (by rw [List.length_append] at hi; omega)

theorem fitting_congr
    (h : ∀ i < l.length, mem (a + BitVec.ofNat 32 i) = mem' (a + BitVec.ofNat 32 i)) :
    Fitting mem a l ↔ Fitting mem' a l :=
  forall₂_congr fun i hi => by rw [h i hi]

theorem fitting_cells : Fitting mem a (cells mem a n) := fun i hi => by
  rw [getElem_cells]
  exact UInt8.and_self

theorem fitting_surrounded :
    Fitting mem a (cells mem a k ++ l ++ cells mem (a + BitVec.ofNat 32 (k + l.length)) n) ↔
      Fitting mem (a + BitVec.ofNat 32 k) l := by
  have hbehind : Fitting mem (a + BitVec.ofNat 32 (cells mem a k ++ l).length)
      (cells mem (a + BitVec.ofNat 32 (k + l.length)) n) := by
    rw [List.length_append, length_cells]
    exact fitting_cells
  rw [fitting_append, and_iff_left hbehind, fitting_append, and_iff_right fitting_cells,
    length_cells]

end Fitting

/-! ## The bytes of a word -/

/-- The bytes stand at the beginning of what the port shows. -/
def Spells (word : Port) (l : List UInt8) : Prop := ∀ i (h : i < l.length), word i = l[i]

section Word

variable {bank} {mem : Memory} {a : Addr} {l : List UInt8} {word : Port}

theorem bytesOf_flashAddByte (cword : Cfiword bank) (c : UInt8) {j : ℕ} (hj : j < bank.portwidth) :
    bytesOf (flashAddByte bank cword c) j =
      if j + 1 = bank.portwidth then c else bytesOf cword (j + 1) := by
  have hbits : (flashAddByte bank cword c).extractLsb' (8 * j) 8 =
      if j + 1 = bank.portwidth then c.toBitVec else cword.extractLsb' (8 * (j + 1)) 8 := by
    refine BitVec.eq_of_getLsbD_eq fun k hk => ?_
    rw [BitVec.getLsbD_extractLsb', decide_eq_true hk, Bool.true_and, flashAddByte,
      BitVec.getLsbD_or, BitVec.getLsbD_ushiftRight, BitVec.getLsbD_shiftLeft,
      BitVec.getLsbD_setWidth]
    split_ifs with hlast
    · have hout : cword.getLsbD (8 + (8 * j + k)) = false := BitVec.getLsbD_of_ge _ _ (by omega)
      have hk' : 8 * j + k - (8 * bank.portwidth - 8) = k := by omega
      rw [hout, hk', decide_eq_true (by omega : 8 * j + k < 8 * bank.portwidth),
        decide_eq_false (by omega : ¬8 * j + k < 8 * bank.portwidth - 8),
        decide_eq_true (by omega : k < 8 * bank.portwidth)]
      simp
    · have hk' : 8 + (8 * j + k) = 8 * (j + 1) + k := by omega
      rw [decide_eq_true (by omega : 8 * j + k < 8 * bank.portwidth - 8), hk',
        BitVec.getLsbD_extractLsb', decide_eq_true hk]
      simp
  rw [bytesOf, hbits]
  split_ifs
  · rfl
  · rfl

theorem bytesOf_foldl (cword : Cfiword bank) (hl : l.length ≤ bank.portwidth) {j : ℕ}
    (hj : j < bank.portwidth) :
    bytesOf (l.foldl (flashAddByte bank) cword) j =
      if j + l.length < bank.portwidth then bytesOf cword (j + l.length)
      else l.getD (j + l.length - bank.portwidth) 0 := by
  induction l generalizing cword with
  | nil =>
    rw [if_pos (by rwa [List.length_nil])]
    rfl
  | cons c l ih =>
    rw [List.length_cons] at hl
    rw [List.foldl_cons, ih _ (by omega), List.length_cons]
    by_cases hin : j + l.length < bank.portwidth
    · rw [if_pos hin, bytesOf_flashAddByte _ _ hin]
      by_cases hlast : j + l.length + 1 = bank.portwidth
      · rw [if_pos hlast, if_neg (by omega), ← Nat.add_assoc, hlast, Nat.sub_self]
        rfl
      · rw [if_neg hlast, if_pos (by omega), Nat.add_assoc]
    · have hsub : j + (l.length + 1) - bank.portwidth = j + l.length - bank.portwidth + 1 := by
        omega
      rw [if_neg hin, if_neg (by omega), hsub, List.getD_cons_succ]

theorem spells_cwordOf (hl : l.length = bank.portwidth) : Spells (bytesOf (cwordOf bank l)) l := by
  intro i hi
  have hsub : i + l.length - bank.portwidth = i := by omega
  rw [cwordOf, bytesOf_foldl 0 hl.le (hl ▸ hi), if_neg (by omega), hsub,
    List.getD_eq_getElem _ _ hi]

theorem fits_iff (hl : l.length = bank.portwidth) (h : Spells word l) :
    Cfi.Fits bank.toInfo (flashRead bank mem a) word ↔ Fitting mem a l := by
  rw [Cfi.Fits, and_iff_right bank.knownWidth, Fitting, ← hl]
  refine forall₂_congr fun i hi => ?_
  rw [h i hi, flashRead, if_pos (hl ▸ hi)]

theorem program_eq_patch (hl : l.length = bank.portwidth) (h : Spells word l)
    (hfit : Fitting mem a l) : program bank mem a word = patch mem a l := by
  funext x
  rw [program]
  split_ifs with hx
  · have hx' : (x - a).toNat < l.length := hl ▸ hx
    have hbyte := hfit _ hx'
    rw [add_toNat_sub] at hbyte
    rw [h _ hx', patch_of_lt hx', hbyte]
  · exact (patch_of_le (by omega)).symm

end Word

end CfiWrite
end Flash
end EmevBsp
