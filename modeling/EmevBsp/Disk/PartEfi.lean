import EmevBsp.Disk.PartDos
import EmevBsp.LibGeneric.Crc32

/-!
# `disk/part_efi.c`: GPT partition tables

`get_partition_info_efi` answers for one partition number, and `print_part_efi` lists the table.
Both leave the checks of the header and of the array of entries to `is_gpt_valid`, which is to set
`*pgpt_pte` to the array; but `pgpt_pte` is `NULL` in both, so that the pointer is kept at address
0.  The number is not compared with the number of entries, nor is the entry looked at: what is
behind the array is answered for as well.

The array is allocated, and its whole blocks are read; entries are taken at every 128 bytes.
-/

namespace EmevBsp
namespace Disk

/-! ## Headers and entries -/

/-- A device: the number of its blocks, what is on it, and the blocks that can be read. -/
structure EfiDisk where
  lba : BitVec 32
  bytes : ℕ → UInt8
  readable : ℕ → Bool

/-- What the functions find in memory: behind `gpt_head` on the stack, in and behind a block that
`malloc` gives, and whether address 0 keeps what is stored there. -/
structure EfiEnv where
  stack : ℕ → UInt8
  malloc : BitVec 32 → Option (ℕ → UInt8)
  lowMemory : Bool

/-- `le64_to_int`, of the eight bytes from an offset on. -/
def le64ToInt (buffer : ℕ → UInt8) (i : ℕ) : BitVec 64 :=
  BitVec.ofNat 64 (2 ^ 56 * (buffer (i + 7)).toNat + 2 ^ 48 * (buffer (i + 6)).toNat +
    2 ^ 40 * (buffer (i + 5)).toNat + 2 ^ 32 * (buffer (i + 4)).toNat +
    2 ^ 24 * (buffer (i + 3)).toNat + 2 ^ 16 * (buffer (i + 2)).toNat +
    2 ^ 8 * (buffer (i + 1)).toNat + (buffer i).toNat)

/-! A `gpt_header` is its bytes. -/

namespace GptHeader

variable (h : ℕ → UInt8)

def signature : BitVec 64 := le64ToInt h 0
def headerSize : BitVec 32 := le32ToInt h 12
def headerCrc32 : BitVec 32 := le32ToInt h 16
def myLba : BitVec 64 := le64ToInt h 24
def firstUsableLba : BitVec 64 := le64ToInt h 40
def lastUsableLba : BitVec 64 := le64ToInt h 48
def partitionEntryLba : BitVec 64 := le64ToInt h 72
def numPartitionEntries : BitVec 32 := le32ToInt h 80
def sizeofPartitionEntry : BitVec 32 := le32ToInt h 84
def partitionEntryArrayCrc32 : BitVec 32 := le32ToInt h 88

/-- The check over a header: `header_crc32` counts as zeros. -/
def calcCrc32 : BitVec 32 :=
  (crc32 0 ((List.range (headerSize h).toNat).map fun i =>
    if 16 ≤ i ∧ i < 20 then 0 else h i)).toBitVec

end GptHeader

open GptHeader

def gptHeaderSignature : BitVec 64 := 0x5452415020494645

/-- The check over an array of entries of a size in bytes. -/
def arrayCrc32 (pte : ℕ → UInt8) (size : ℕ) : BitVec 32 :=
  (crc32 0 ((List.range size).map pte)).toBitVec

/-- `is_pte_valid`, of the entry at an offset. -/
def isPteValid (pte : ℕ → UInt8) (off : ℕ) : Bool := (List.range 16).any fun i => pte (off + i) ≠ 0

def startingLba (pte : ℕ → UInt8) (off : ℕ) : BitVec 64 := le64ToInt pte (off + 32)

def endingLba (pte : ℕ → UInt8) (off : ℕ) : BitVec 64 := le64ToInt pte (off + 40)

/-- Where `(*pgpt_pte)[i]` is from the start of the array; addresses have 32 bits. -/
def entryOff (i : ℕ) : ℕ := 128 * i % 2 ^ 32

/-! ## The checks -/

/-- What is printed when something is not in order, with the numbers in it. -/
inductive GptError where
  | invalidArgument
  | cantReadHeader
  | signature (found : BitVec 64)
  | headerCrc (found computed : BitVec 32)
  | myLba (found : BitVec 64)
  | firstUsableLba (found : BitVec 64) (lastlba : BitVec 32)
  | lastUsableLba (found : BitVec 64) (lastlba : BitVec 32)
  | cantAllocate (count : BitVec 32)
  | cantReadEntries
  | arrayCrc (found computed : BitVec 32)
  deriving DecidableEq

/-- How a call ends. -/
inductive EfiResult (α : Type) where
  | error (err : GptError)
  | fault
  | ok (a : α)

def EfiResult.map {α β : Type} (f : α → β) : EfiResult α → EfiResult β
  | error err => error err
  | fault => fault
  | ok a => ok (f a)

/-- `gpt_head`, read from block 1, and the stack behind it. -/
def gptHead (d : EfiDisk) (e : EfiEnv) (i : ℕ) : UInt8 :=
  if i < 512 then d.bytes (512 + i) else e.stack (i - 512)

/-- The checks of `is_gpt_valid` on a header. -/
def checkHeader (lba : BitVec 32) (h : ℕ → UInt8) : Option GptError :=
  if signature h ≠ gptHeaderSignature then some (.signature (signature h))
  else if calcCrc32 h ≠ headerCrc32 h then some (.headerCrc (headerCrc32 h) (calcCrc32 h))
  else if myLba h ≠ 1 then some (.myLba (myLba h))
  else if lba.setWidth 64 < firstUsableLba h then some (.firstUsableLba (firstUsableLba h) lba)
  else if lba.setWidth 64 < lastUsableLba h then some (.lastUsableLba (lastUsableLba h) lba)
  else none

/-- `count` of `alloc_read_gpt_entries`. -/
def countOf (h : ℕ → UInt8) : BitVec 32 := numPartitionEntries h * sizeofPartitionEntry h

/-- `block_read`, of all the blocks asked for. -/
def EfiDisk.blockRead (d : EfiDisk) (start : BitVec 32) (blkcnt : ℕ) : Bool :=
  (List.range blkcnt).all fun i => d.readable (start.toNat + i)

/-- `alloc_read_gpt_entries`: blocks from the disk, and behind them what `malloc` has left. -/
def allocReadGptEntries (d : EfiDisk) (e : EfiEnv) (h : ℕ → UInt8) : Except GptError (ℕ → UInt8) :=
  let count := countOf h
  let lba := (partitionEntryLba h).setWidth 32
  if count = 0 then .error (.cantAllocate count)
  else
    match e.malloc count with
    | none => .error (.cantAllocate count)
    | some heap =>
      if d.blockRead lba (count.toNat / 512) then
        .ok fun i =>
          if i < 512 * (count.toNat / 512) then d.bytes (512 * lba.toNat + i) else heap i
      else .error .cantReadEntries

/-- `is_gpt_valid`, for the header in block 1 and a `pgpt_pte` that is `NULL`. -/
def isGptValid (d : EfiDisk) (e : EfiEnv) : EfiResult (ℕ → UInt8) :=
  let h := gptHead d e
  if d.readable 1 = false then .error .cantReadHeader
  else
    match checkHeader d.lba h with
    | some err => .error err
    | none =>
      -- the store through `pgpt_pte`
      if e.lowMemory = false then .fault
      else
        match allocReadGptEntries d e h with
        | .error err => .error err
        | .ok pte =>
          let computed := arrayCrc32 pte (countOf h).toNat
          if computed ≠ partitionEntryArrayCrc32 h then
            .error (.arrayCrc (partitionEntryArrayCrc32 h) computed)
          else .ok pte

/-! ## The two callers -/

/-- What is answered for a number: the range is cut to 32 bits, "limits the maximum disk size to
2 TB". -/
def efiPartition (pte : ℕ → UInt8) (part : BitVec 32) : DiskPartition :=
  let off := entryOff (part.toNat - 1)
  let start := (startingLba pte off).setWidth 32
  ⟨512, start, (endingLba pte off).setWidth 32 + 1 - start, "gpt" ++ toString part.toNat ++ "\n",
    "U-Boot"⟩

def getPartitionInfoEfi (d : EfiDisk) (e : EfiEnv) (part : BitVec 32) : EfiResult DiskPartition :=
  if part.toInt < 1 then .error .invalidArgument
  else (isGptValid d e).map fun pte => efiPartition pte part

/-- A line of the table that is printed. -/
structure GptLine where
  num : ℕ
  startingLba : BitVec 64
  endingLba : BitVec 64

/-- The loop of `print_part_efi`, for the entries from `i` on. -/
def printEntries (pte : ℕ → UInt8) : ℕ → ℕ → List GptLine
  | 0, _ => []
  | n + 1, i =>
    let off := entryOff i
    if isPteValid pte off then
      ⟨i + 1, startingLba pte off, endingLba pte off⟩ :: printEntries pte n (i + 1)
    else []

def printPartEfi (d : EfiDisk) (e : EfiEnv) : EfiResult (List GptLine) :=
  (isGptValid d e).map fun pte => printEntries pte (numPartitionEntries (gptHead d e)).toNat 0

/-! ## Partitions on the disk -/

/-- A header that passes its checks. -/
structure HeaderPasses (lba : BitVec 32) (h : ℕ → UInt8) : Prop where
  signature : signature h = gptHeaderSignature
  crc : calcCrc32 h = headerCrc32 h
  myLba : myLba h = 1
  firstUsable : firstUsableLba h ≤ lba.setWidth 64
  lastUsable : lastUsableLba h ≤ lba.setWidth 64

namespace EfiDisk

variable (d : EfiDisk)

/-- The header: block 1. -/
def header (i : ℕ) : UInt8 := d.bytes (512 + i)

/-- The array, where the header says that it is. -/
def entries (i : ℕ) : UInt8 := d.bytes (512 * (partitionEntryLba d.header).toNat + i)

/-- The number of bytes of the array. -/
def arraySize : ℕ :=
  (numPartitionEntries d.header).toNat * (sizeofPartitionEntry d.header).toNat

/-- Where the entry of a partition is in the array. -/
def entryAt (part : BitVec 32) : ℕ :=
  (sizeofPartitionEntry d.header).toNat * (part.toNat - 1)

/-- The header and the array are there, and pass their checks. -/
structure Passes : Prop where
  readsHeader : d.readable 1 = true
  inBlock : (headerSize d.header).toNat ≤ 512
  header : HeaderPasses d.lba d.header
  nonempty : 0 < d.arraySize
  readsArray : ∀ i < d.arraySize, d.readable ((partitionEntryLba d.header).toNat + i / 512) = true
  array : arrayCrc32 d.entries d.arraySize = partitionEntryArrayCrc32 d.header

/-- The partition of a number is there and in use. -/
structure Valid (part : BitVec 32) : Prop where
  passes : d.Passes
  one_le : 1 ≤ part.toInt
  le_num : part.toNat ≤ (numPartitionEntries d.header).toNat
  inUse : ∃ i < 16, d.entries (d.entryAt part + i) ≠ 0

end EfiDisk

/-- `print_part_efi` lists a number. -/
def Listed (d : EfiDisk) (e : EfiEnv) (part : BitVec 32) : Prop :=
  1 ≤ part.toInt ∧ ∃ lines, printPartEfi d e = .ok lines ∧ part.toNat ∈ lines.map GptLine.num

/-- The bytes of an entry up to its range are in the array. -/
def InArray (d : EfiDisk) (i : ℕ) : Prop := entryOff i + 48 ≤ (countOf d.header).toNat

/-- What is asked of a call for a number. -/
structure InOrder (d : EfiDisk) (e : EfiEnv) (part : BitVec 32) : Prop where
  answers : (∃ info, getPartitionInfoEfi d e part = .ok info) ↔ d.Valid part
  noFault : getPartitionInfoEfi d e part ≠ .fault
  range : ∀ info, getPartitionInfoEfi d e part = .ok info →
    info.start.toNat = (startingLba d.entries (d.entryAt part)).toNat ∧
      (info.size.toNat : ℤ) = (endingLba d.entries (d.entryAt part)).toNat -
        (startingLba d.entries (d.entryAt part)).toNat + 1
  inArray : (∃ info, getPartitionInfoEfi d e part = .ok info) → InArray d (part.toNat - 1)
  listed : d.Valid part ↔ Listed d e part
  listedInArray : Listed d e part → ∀ i < part.toNat, InArray d i

/-! ## The header in memory -/

variable {d : EfiDisk} {e : EfiEnv} {part : BitVec 32} {pte : ℕ → UInt8}

theorem gptHead_of_lt {i : ℕ} (hi : i < 512) : gptHead d e i = d.header i := by
  rw [gptHead, if_pos hi, EfiDisk.header]

theorem le32ToInt_gptHead {i : ℕ} (hi : i + 4 ≤ 512) :
    le32ToInt (gptHead d e) i = le32ToInt d.header i := by
  simp only [le32ToInt]
  rw [gptHead_of_lt (by omega), gptHead_of_lt (by omega), gptHead_of_lt (by omega),
    gptHead_of_lt (by omega)]

theorem le64ToInt_gptHead {i : ℕ} (hi : i + 8 ≤ 512) :
    le64ToInt (gptHead d e) i = le64ToInt d.header i := by
  simp only [le64ToInt]
  rw [gptHead_of_lt (by omega), gptHead_of_lt (by omega), gptHead_of_lt (by omega),
    gptHead_of_lt (by omega), gptHead_of_lt (by omega), gptHead_of_lt (by omega),
    gptHead_of_lt (by omega), gptHead_of_lt (by omega)]

@[simp] theorem headerSize_gptHead : headerSize (gptHead d e) = headerSize d.header :=
  le32ToInt_gptHead (by decide)

@[simp] theorem partitionEntryLba_gptHead :
    partitionEntryLba (gptHead d e) = partitionEntryLba d.header :=
  le64ToInt_gptHead (by decide)

@[simp] theorem numPartitionEntries_gptHead :
    numPartitionEntries (gptHead d e) = numPartitionEntries d.header :=
  le32ToInt_gptHead (by decide)

@[simp] theorem sizeofPartitionEntry_gptHead :
    sizeofPartitionEntry (gptHead d e) = sizeofPartitionEntry d.header :=
  le32ToInt_gptHead (by decide)

@[simp] theorem partitionEntryArrayCrc32_gptHead :
    partitionEntryArrayCrc32 (gptHead d e) = partitionEntryArrayCrc32 d.header :=
  le32ToInt_gptHead (by decide)

@[simp] theorem countOf_gptHead : countOf (gptHead d e) = countOf d.header := by
  simp [countOf]

theorem calcCrc32_gptHead (h : (headerSize d.header).toNat ≤ 512) :
    calcCrc32 (gptHead d e) = calcCrc32 d.header := by
  rw [calcCrc32, calcCrc32, headerSize_gptHead]
  have hbytes : ∀ i ∈ List.range (headerSize d.header).toNat,
      (if 16 ≤ i ∧ i < 20 then 0 else gptHead d e i) =
        if 16 ≤ i ∧ i < 20 then 0 else d.header i := by
    intro i hi
    rw [gptHead_of_lt (Nat.lt_of_lt_of_le (List.mem_range.mp hi) h)]
  rw [List.map_congr_left hbytes]

theorem HeaderPasses.gptHead (hblock : (headerSize d.header).toNat ≤ 512)
    (h : HeaderPasses d.lba d.header) : HeaderPasses d.lba (gptHead d e) where
  signature := (le64ToInt_gptHead (by decide)).trans h.signature
  crc := by
    rw [calcCrc32_gptHead hblock, h.crc]
    exact (le32ToInt_gptHead (by decide)).symm
  myLba := (le64ToInt_gptHead (by decide)).trans h.myLba
  firstUsable := (le64ToInt_gptHead (d := d) (e := e) (i := 40) (by decide)).trans_le h.firstUsable
  lastUsable := (le64ToInt_gptHead (d := d) (e := e) (i := 48) (by decide)).trans_le h.lastUsable

theorem checkHeader_eq_none_iff {lba : BitVec 32} {h : ℕ → UInt8} :
    checkHeader lba h = none ↔ HeaderPasses lba h := by
  constructor
  · intro hnone
    unfold checkHeader at hnone
    split_ifs at hnone with hsig hcrc hlba hfirst hlast
    exact ⟨not_not.mp hsig, not_not.mp hcrc, not_not.mp hlba, BitVec.not_lt.mp hfirst,
      BitVec.not_lt.mp hlast⟩
  · intro hpasses
    rw [checkHeader, if_neg (not_not.mpr hpasses.signature), if_neg (not_not.mpr hpasses.crc),
      if_neg (not_not.mpr hpasses.myLba), if_neg (BitVec.not_lt.mpr hpasses.firstUsable),
      if_neg (BitVec.not_lt.mpr hpasses.lastUsable)]

/-! ## The array in memory -/

/-- The header is read and passes its checks, over the stack behind it if it is that long. -/
def HeaderAccepted (d : EfiDisk) (e : EfiEnv) : Prop :=
  d.readable 1 = true ∧ HeaderPasses d.lba (gptHead d e)

/-- The array is allocated and read, and what is in memory passes its check. -/
def Loads (d : EfiDisk) (e : EfiEnv) (pte : ℕ → UInt8) : Prop :=
  allocReadGptEntries d e d.header = .ok pte ∧
    arrayCrc32 pte (countOf d.header).toNat = partitionEntryArrayCrc32 d.header

theorem EfiDisk.Passes.headerAccepted (h : d.Passes) : HeaderAccepted d e :=
  ⟨h.readsHeader, h.header.gptHead h.inBlock⟩

theorem allocReadGptEntries_gptHead :
    allocReadGptEntries d e (gptHead d e) = allocReadGptEntries d e d.header := by
  simp only [allocReadGptEntries, countOf_gptHead, partitionEntryLba_gptHead]

theorem isGptValid_of_not_accepted (h : ¬ HeaderAccepted d e) :
    ∃ err, isGptValid d e = .error err := by
  rw [isGptValid]
  dsimp only
  by_cases hread : d.readable 1 = false
  · exact ⟨_, if_pos hread⟩
  · rw [if_neg hread]
    cases hcheck : checkHeader d.lba (gptHead d e) with
    | some err => exact ⟨err, rfl⟩
    | none =>
      exact absurd ⟨Bool.of_not_eq_false hread, checkHeader_eq_none_iff.mp hcheck⟩ h

theorem isGptValid_of_accepted (h : HeaderAccepted d e) :
    isGptValid d e =
      if e.lowMemory = false then .fault
      else
        match allocReadGptEntries d e d.header with
        | .error err => .error err
        | .ok pte =>
          if arrayCrc32 pte (countOf d.header).toNat ≠ partitionEntryArrayCrc32 d.header then
            .error (.arrayCrc (partitionEntryArrayCrc32 d.header)
              (arrayCrc32 pte (countOf d.header).toNat))
          else .ok pte := by
  rw [isGptValid]
  dsimp only
  rw [if_neg (by rw [h.1]; decide), checkHeader_eq_none_iff.mpr h.2, allocReadGptEntries_gptHead,
    countOf_gptHead, partitionEntryArrayCrc32_gptHead]

theorem isGptValid_of_loads (h : HeaderAccepted d e) (hlow : e.lowMemory = true)
    (hloads : Loads d e pte) : isGptValid d e = .ok pte := by
  rw [isGptValid_of_accepted h, if_neg (by rw [hlow]; decide), hloads.1]
  exact if_neg (not_not.mpr hloads.2)

theorem isGptValid_of_not_loads (h : HeaderAccepted d e) (hlow : e.lowMemory = true)
    (hloads : ∀ pte, ¬ Loads d e pte) : ∃ err, isGptValid d e = .error err := by
  rw [isGptValid_of_accepted h, if_neg (by rw [hlow]; decide)]
  cases halloc : allocReadGptEntries d e d.header with
  | error err => exact ⟨err, rfl⟩
  | ok pte => exact ⟨_, if_pos fun hcrc => hloads pte ⟨halloc, hcrc⟩⟩

/-! ## Answers -/

theorem mem_printEntries {n i k : ℕ} :
    k ∈ (printEntries pte n i).map GptLine.num ↔
      i < k ∧ k ≤ i + n ∧ ∀ j, i ≤ j → j < k → isPteValid pte (entryOff j) = true := by
  induction n generalizing i with
  | zero =>
    simp only [printEntries, List.map_nil, List.not_mem_nil, false_iff, not_and]
    omega
  | succ n ih =>
    rw [printEntries]
    by_cases hvalid : isPteValid pte (entryOff i) = true
    · rw [if_pos hvalid, List.map_cons, List.mem_cons, ih]
      constructor
      · rintro (hk | ⟨hlt, hle, hall⟩)
        · have hk : k = i + 1 := hk
          refine ⟨by omega, by omega, fun j hij hj => ?_⟩
          have hj : j = i := by omega
          rwa [hj]
        · refine ⟨by omega, by omega, fun j hij hj => ?_⟩
          rcases Nat.eq_or_lt_of_le hij with rfl | hij
          · exact hvalid
          · exact hall j hij hj
      · rintro ⟨hlt, hle, hall⟩
        rcases Nat.eq_or_lt_of_le (Nat.succ_le_of_lt hlt) with heq | hlt
        · exact Or.inl heq.symm
        · exact Or.inr ⟨hlt, by omega, fun j hij hj => hall j (by omega) hj⟩
    · rw [if_neg hvalid]
      simp only [List.map_nil, List.not_mem_nil, false_iff]
      rintro ⟨hlt, -, hall⟩
      exact hvalid (hall i le_rfl hlt)

/-- The array in memory answers for a partition of the disk: what is taken for its entry has the
range of the entry up to 2^32, the range fits in 32 bits, and all entries up to it are in the array
and in use. -/
structure Answered (d : EfiDisk) (part : BitVec 32) (pte : ℕ → UInt8) : Prop where
  valid : d.Valid part
  starting : (startingLba pte (entryOff (part.toNat - 1))).toNat % 2 ^ 32 =
    (startingLba d.entries (d.entryAt part)).toNat
  ending : (endingLba pte (entryOff (part.toNat - 1))).toNat % 2 ^ 32 =
    (endingLba d.entries (d.entryAt part)).toNat % 2 ^ 32
  starts : (startingLba d.entries (d.entryAt part)).toNat ≤
    (endingLba d.entries (d.entryAt part)).toNat + 1
  fits : (endingLba d.entries (d.entryAt part)).toNat + 1 <
    (startingLba d.entries (d.entryAt part)).toNat + 2 ^ 32
  inArray : ∀ i < part.toNat, InArray d i
  inUse : ∀ i < part.toNat, isPteValid pte (entryOff i) = true

theorem range_iff {s t s' t' : BitVec 64} :
    ((s.setWidth 32).toNat = s'.toNat ∧
      ((t.setWidth 32 + 1 - s.setWidth 32).toNat : ℤ) = t'.toNat - s'.toNat + 1) ↔
      s.toNat % 2 ^ 32 = s'.toNat ∧ t.toNat % 2 ^ 32 = t'.toNat % 2 ^ 32 ∧
        s'.toNat ≤ t'.toNat + 1 ∧ t'.toNat + 1 < s'.toNat + 2 ^ 32 := by
  rw [BitVec.toNat_sub, BitVec.toNat_add, BitVec.toNat_setWidth, BitVec.toNat_setWidth]
  have hone : (1 : BitVec 32).toNat = 1 := rfl
  rw [hone]
  omega

theorem one_le_toNat (hpart : ¬ part.toInt < 1) : 1 ≤ part.toNat := by
  have := BitVec.toInt_eq_toNat_cond part
  split_ifs at this <;> omega

theorem listed_of_ok (hpart : ¬ part.toInt < 1) (h : isGptValid d e = .ok pte) :
    Listed d e part ↔ part.toNat ≤ (numPartitionEntries d.header).toNat ∧
      ∀ i < part.toNat, isPteValid pte (entryOff i) = true := by
  have hpos : 1 ≤ part.toNat := one_le_toNat hpart
  have hprint : printPartEfi d e =
      .ok (printEntries pte (numPartitionEntries d.header).toNat 0) := by
    rw [printPartEfi, h, numPartitionEntries_gptHead]
    rfl
  rw [Listed, hprint]
  constructor
  · rintro ⟨-, lines, hlines, hmem⟩
    rw [← EfiResult.ok.inj hlines, mem_printEntries] at hmem
    exact ⟨by omega, fun i hi => hmem.2.2 i (Nat.zero_le i) hi⟩
  · rintro ⟨hle, hall⟩
    exact ⟨by omega, _, rfl, mem_printEntries.mpr ⟨hpos, by omega, fun i _ hi => hall i hi⟩⟩

theorem inOrder_iff_of_error {err : GptError} (hget : getPartitionInfoEfi d e part = .error err)
    (hlisted : ¬ Listed d e part) : InOrder d e part ↔ ¬ d.Valid part := by
  have hnone : ¬ ∃ info, getPartitionInfoEfi d e part = .ok info := by
    rintro ⟨info, hinfo⟩
    rw [hget] at hinfo
    cases hinfo
  constructor
  · exact fun h hvalid => hnone (h.answers.mpr hvalid)
  · intro hvalid
    exact {
      answers := iff_of_false hnone hvalid
      noFault := by rw [hget]; nofun
      range := fun info hinfo => absurd ⟨info, hinfo⟩ hnone
      inArray := fun hinfo => absurd hinfo hnone
      listed := iff_of_false hvalid hlisted
      listedInArray := fun h => absurd h hlisted }

theorem inOrder_iff_of_invalid {err : GptError} (hpart : ¬ part.toInt < 1)
    (h : isGptValid d e = .error err) : InOrder d e part ↔ ¬ d.Valid part := by
  have hget : getPartitionInfoEfi d e part = .error err := by
    rw [getPartitionInfoEfi, if_neg hpart, h]
    rfl
  refine inOrder_iff_of_error hget ?_
  rintro ⟨-, lines, hlines, -⟩
  rw [printPartEfi, h] at hlines
  cases hlines

theorem not_inOrder_of_fault (hpart : ¬ part.toInt < 1) (h : isGptValid d e = .fault) :
    ¬ InOrder d e part := by
  intro horder
  apply horder.noFault
  rw [getPartitionInfoEfi, if_neg hpart, h]
  rfl

theorem inOrder_iff_of_ok (hpart : ¬ part.toInt < 1) (h : isGptValid d e = .ok pte) :
    InOrder d e part ↔ Answered d part pte := by
  have hpos : 1 ≤ part.toNat := one_le_toNat hpart
  have hget : getPartitionInfoEfi d e part = .ok (efiPartition pte part) := by
    rw [getPartitionInfoEfi, if_neg hpart, h]
    rfl
  have hlisted := listed_of_ok hpart h
  constructor
  · intro horder
    have hvalid : d.Valid part := horder.answers.mp ⟨_, hget⟩
    have hl : Listed d e part := horder.listed.mp hvalid
    obtain ⟨hstart, hend, hstarts, hfits⟩ := range_iff.mp (horder.range _ hget)
    exact ⟨hvalid, hstart, hend, hstarts, hfits, horder.listedInArray hl, (hlisted.mp hl).2⟩
  · intro hanswered
    have hl : Listed d e part := hlisted.mpr ⟨hanswered.valid.le_num, hanswered.inUse⟩
    exact {
      answers := iff_of_true ⟨_, hget⟩ hanswered.valid
      noFault := by rw [hget]; nofun
      range := by
        intro info hinfo
        rw [hget] at hinfo
        rw [← EfiResult.ok.inj hinfo]
        exact range_iff.mpr
          ⟨hanswered.starting, hanswered.ending, hanswered.starts, hanswered.fits⟩
      inArray := fun _ => hanswered.inArray _ (Nat.sub_lt hpos Nat.one_pos)
      listed := iff_of_true hanswered.valid hl
      listedInArray := fun _ => hanswered.inArray }

/-- **A number is answered as it is on the disk** if and only if it is less than 1, or the header is
refused, or address 0 is memory and: if the array is loaded the number is a partition's and the
array answers for it, and if it is not, the number is no partition's. -/
theorem inOrder_iff (d : EfiDisk) (e : EfiEnv) (part : BitVec 32) :
    InOrder d e part ↔ part.toInt < 1 ∨ ¬ HeaderAccepted d e ∨
      (e.lowMemory = true ∧ (∀ pte, Loads d e pte → Answered d part pte) ∧
        ((∀ pte, ¬ Loads d e pte) → ¬ d.Valid part)) := by
  by_cases hpart : part.toInt < 1
  · have hvalid : ¬ d.Valid part := fun h => absurd h.one_le (not_le.mpr hpart)
    refine iff_of_true ?_ (Or.inl hpart)
    exact (inOrder_iff_of_error (if_pos hpart) fun h => absurd h.1 (not_le.mpr hpart)).mpr hvalid
  rw [or_iff_right hpart]
  by_cases haccepted : HeaderAccepted d e
  swap
  · obtain ⟨err, herr⟩ := isGptValid_of_not_accepted haccepted
    refine iff_of_true ?_ (Or.inl haccepted)
    exact (inOrder_iff_of_invalid hpart herr).mpr fun h => haccepted h.passes.headerAccepted
  rw [or_iff_right (not_not.mpr haccepted)]
  by_cases hlow : e.lowMemory = true
  swap
  · refine iff_of_false (not_inOrder_of_fault hpart ?_) fun h => hlow h.1
    rw [isGptValid_of_accepted haccepted, if_pos (Bool.eq_false_iff.mpr hlow)]
  by_cases hloads : ∃ pte, Loads d e pte
  · obtain ⟨pte, hpte⟩ := hloads
    rw [inOrder_iff_of_ok hpart (isGptValid_of_loads haccepted hlow hpte)]
    constructor
    · refine fun h => ⟨hlow, fun pte' hpte' => ?_, fun hnone => absurd hpte (hnone pte)⟩
      have hsame : pte = pte' := Except.ok.inj (hpte.1.symm.trans hpte'.1)
      rwa [← hsame]
    · exact fun h => h.2.1 pte hpte
  · have hnone : ∀ pte, ¬ Loads d e pte := not_exists.mp hloads
    obtain ⟨err, herr⟩ := isGptValid_of_not_loads haccepted hlow hnone
    rw [inOrder_iff_of_invalid hpart herr]
    exact ⟨fun h => ⟨hlow, fun pte hpte => absurd hpte (hnone pte), fun _ => h⟩,
      fun h => h.2.2 hnone⟩

/-! ## A disk that is answered wrongly -/

/-- Block 1 of `sparseDisk`: four entries, from block 2 on. -/
def sparseHeader : List UInt8 :=
  [69, 70, 73, 32, 80, 65, 82, 84, 0, 0, 1, 0, 92, 0, 0, 0, 69, 186, 81, 85, 0, 0, 0, 0,
   1, 0, 0, 0, 0, 0, 0, 0, 99, 0, 0, 0, 0, 0, 0, 0, 6, 0, 0, 0, 0, 0, 0, 0,
   94, 0, 0, 0, 0, 0, 0, 0, 0, 0, 0, 0, 0, 0, 0, 0, 0, 0, 0, 0, 0, 0, 0, 0,
   2, 0, 0, 0, 0, 0, 0, 0, 4, 0, 0, 0, 128, 0, 0, 0, 255, 255, 255, 255]

/-- A disk of 100 blocks; only the first entry of its table is in use. -/
def sparseDisk : EfiDisk where
  lba := 100
  bytes i :=
    if i < 512 then 0 else if i < 1024 then sparseHeader.getD (i - 512) 0
    else if i < 1028 then 255 else 0
  readable _ := true

/-- All of memory is 0, and there is enough of it. -/
def roomyEnv : EfiEnv := ⟨fun _ => 0, fun _ => some fun _ => 0, true⟩

theorem headerAccepted_sparseDisk : HeaderAccepted sparseDisk roomyEnv :=
  ⟨rfl, checkHeader_eq_none_iff.mp (by decide +kernel)⟩

/-- The array in memory: a block of the disk. -/
def sparseEntries (i : ℕ) : UInt8 := if i < 512 then sparseDisk.bytes (1024 + i) else 0

theorem loads_sparseDisk : Loads sparseDisk roomyEnv sparseEntries := ⟨rfl, by decide +kernel⟩

/-- There is one partition, and number 2 is answered for. -/
theorem not_inOrder : ¬ ∀ d e part, InOrder d e part := by
  intro h
  have hloaded : isGptValid sparseDisk roomyEnv = .ok sparseEntries :=
    isGptValid_of_loads headerAccepted_sparseDisk rfl loads_sparseDisk
  have hget : getPartitionInfoEfi sparseDisk roomyEnv 2 = .ok (efiPartition sparseEntries 2) := by
    rw [getPartitionInfoEfi, if_neg (by decide), hloaded]
    rfl
  obtain ⟨i, hi, hused⟩ := ((h sparseDisk roomyEnv 2).answers.mp ⟨_, hget⟩).inUse
  revert i
  decide

end Disk
end EmevBsp
