import EmevBsp.LibGeneric.Vsprintf
import Mathlib.Algebra.Group.Nat.Defs
import Mathlib.Data.List.Basic
import Mathlib.Data.List.TakeWhile

/-!
# `common/cmd_jffs2.c`: partitions, and how they are read from a string

A list of devices, each with its partitions in the order of their offsets, is described by a string
`mtdparts=<mtd-id>:<part>,<part>;<mtd-id>:<part>`.  A partition is a size, an offset behind `@`, a
name in parentheses and the letters `ro`; all but the size may be left out.

Partitions and devices are objects of their own, with addresses: the current partition is kept as
a device and a number, and which object that is, is what matters.  The objects of one call of the
parser get the addresses from a given one on.
-/

namespace EmevBsp
namespace Mtd

/-! ## The data -/

/-- `MTD_DEV_TYPE_NOR` and so on. -/
inductive DevType where
  | nor
  | nand
  | onenand
  deriving DecidableEq

/-- `MTD_DEV_TYPE`. -/
def DevType.text : DevType → List UInt8
  | .nor => [110, 111, 114]
  | .nand => [110, 97, 110, 100]
  | .onenand => [111, 110, 101, 110, 97, 110, 100]

/-- `struct mtdids`. -/
structure MtdId where
  addr : ℕ
  type : DevType
  num : ℕ
  size : ℕ
  mtdId : List UInt8
  deriving DecidableEq

/-- `struct part_info`.  Its `mask_flags` hold the read-only flag. -/
structure PartInfo where
  addr : ℕ
  name : List UInt8
  autoName : Bool
  size : ℕ
  offset : ℕ
  readOnly : Bool
  deriving DecidableEq

/-- `struct mtd_device`. -/
structure MtdDevice where
  addr : ℕ
  id : MtdId
  parts : List PartInfo
  deriving DecidableEq

/-- `num_parts`, a `u16`. -/
def MtdDevice.numParts (dev : MtdDevice) : ℕ := dev.parts.length % 2 ^ 16

/-- The environment variables that are read here. -/
inductive EnvVar where
  | mtdids
  | mtdparts
  | partition
  deriving DecidableEq

/-- What the commands find on the board: the devices that exist, with their sizes, and where their
erase blocks begin; the default strings; when the environment has no room for a value; and what lies
where the value of `mtdparts` was, once `partition` was taken out in front of it. -/
structure Board where
  norSize : ℕ → Option ℕ
  norStarts : ℕ → List ℕ
  nandSize : ℕ → Option ℕ
  nandErasesize : ℕ → ℕ
  onenandSize : Option ℕ
  onenandErasesize : ℕ
  mtdidsDefault : Option (List UInt8)
  mtdpartsDefault : Option (List UInt8)
  noRoom : (EnvVar → Option (List UInt8)) → EnvVar → List UInt8 → Bool
  stale : (EnvVar → Option (List UInt8)) → List UInt8

def sizeRemaining : ℕ := 0xFFFFFFFF

def offsetNotSpecified : ℕ := 0xFFFFFFFF

def minPartSize : ℕ := 4096

/-! ## One partition -/

/-- `memsize_parse`: the number, and the text behind it. -/
def memsizeParse (ptr : List UInt8) : ℕ × List UInt8 :=
  let r := simpleStrtoul ptr 0
  match r.2 with
  | c :: rest =>
    if c = 71 ∨ c = 103 then (r.1 * 2 ^ 30 % 2 ^ 32, rest)
    else if c = 77 ∨ c = 109 then (r.1 * 2 ^ 20 % 2 ^ 32, rest)
    else if c = 75 ∨ c = 107 then (r.1 * 2 ^ 10 % 2 ^ 32, rest)
    else (r.1, c :: rest)
  | [] => (r.1, [])

/-- `%08lx`. -/
def hexLower (n : ℕ) : List UInt8 :=
  (hexFixed 8 n).map fun c => if c ≥ 65 then c + 32 else c

/-- The name that is made up from the size and the offset, as they were given. -/
def generatedName (size offset : ℕ) : List UInt8 :=
  [48, 120] ++ hexLower size ++ [64, 48, 120] ++ hexLower offset

/-- The size at the start of a partition. -/
def partSize : List UInt8 → Option (ℕ × List UInt8)
  | 45 :: p => some (sizeRemaining, p)
  | p => if (memsizeParse p).1 < minPartSize then none else some (memsizeParse p)

/-- The offset behind `@`. -/
def partOffset : List UInt8 → ℕ × List UInt8
  | 64 :: p => memsizeParse p
  | p => (offsetNotSpecified, p)

/-- The name in parentheses; `none` is a name that is not closed or empty. -/
def partName : List UInt8 → Option (Option (List UInt8) × List UInt8)
  | 40 :: p =>
    match p.dropWhile (· ≠ 41) with
    | [] => none
    | _ :: rest =>
      if p.takeWhile (· ≠ 41) = [] then none else some (some (p.takeWhile (· ≠ 41)), rest)
  | p => some (none, p)

/-- The option `ro`. -/
def partFlags : List UInt8 → Bool × List UInt8
  | 114 :: 111 :: p => (true, p)
  | p => (false, p)

/-- The end of a partition: the text where the next one, or the next device, begins. -/
def partEnd (size : ℕ) : List UInt8 → Option (List UInt8)
  | [] => some []
  | c :: p =>
    if c = 44 then if size = sizeRemaining then none else some p
    else if c = 59 then some (c :: p)
    else none

/-- `part_parse`, of a partition that gets the address `addr`. -/
def partParse (addr : ℕ) (partdef : List UInt8) : Option (PartInfo × List UInt8) :=
  (partSize partdef).bind fun size =>
    (partName (partOffset size.2).2).bind fun name =>
      (partEnd size.1 (partFlags name.2).2).map fun ret =>
        ({ addr := addr
           name := name.1.getD (generatedName size.1 (partOffset size.2).1)
           autoName := name.1.isNone
           size := size.1
           offset := (partOffset size.2).1
           readOnly := (partFlags name.2).1 }, ret)

variable (B : Board)

/-- `part_validate_nor`, `part_validate_nand` and `part_validate_onenand`: where a partition may
begin and end. -/
def aligned (id : MtdId) (offset size : ℕ) : Bool :=
  match id.type with
  | .nor =>
    offset ∈ B.norStarts id.num &&
      ((offset + size) % 2 ^ 32 ∈ B.norStarts id.num ||
        B.norSize id.num = some ((offset + size) % 2 ^ 32))
  | .nand => offset % B.nandErasesize id.num = 0 && size % B.nandErasesize id.num = 0
  | .onenand => offset % B.onenandErasesize = 0 && size % B.onenandErasesize = 0

/-- The checks of `part_validate`, of a size that is known. -/
def partFits (id : MtdId) (offset size : ℕ) : Bool :=
  offset ≤ id.size && offset < (offset + size) % 2 ^ 32 && (offset + size) % 2 ^ 32 ≤ id.size &&
    aligned B id offset size

/-- `part_validate`: the partition with its size filled in. -/
def partValidate (id : MtdId) (part : PartInfo) : Option PartInfo :=
  let size :=
    if part.size = sizeRemaining then (id.size + 2 ^ 32 - part.offset) % 2 ^ 32 else part.size
  if partFits B id part.offset size then some { part with size := size } else none

/-- The list of `part_sort_add`, and the partition in front of which the new one was put; `none`
for a second partition at offset 0. -/
def insertSorted (new : PartInfo) : List PartInfo → Option (List PartInfo × Option PartInfo)
  | [] => some ([new], none)
  | pi :: parts =>
    if new.offset = pi.offset ∧ pi.offset = 0 then none
    else if new.offset ≤ pi.offset then some (new :: pi :: parts, some pi)
    else (insertSorted new parts).map fun r => (pi :: r.1, r.2)

/-! ## A device -/

/-- The loop of `device_parse` over the partitions: the partitions, in the order of the text, the
text behind them, and the next address.  A partition takes up a byte of the text at least, so the
length of the text and one more are rounds enough. -/
def partsLoop (id : MtdId) :
    ℕ → ℕ → ℕ → List UInt8 → Option (List PartInfo × List UInt8 × ℕ)
  | 0, _, _, _ => none
  | fuel + 1, addr, offset, p =>
    if p.head?.all (· = 59) then some ([], p, addr)
    else
      (partParse addr p).bind fun parsed =>
        let part :=
          if parsed.1.offset = offsetNotSpecified then { parsed.1 with offset := offset }
          else parsed.1
        (partValidate B id part).bind fun part =>
          (partsLoop id fuel (addr + 1) ((part.offset + part.size) % 2 ^ 32) parsed.2).map fun r =>
            (part :: r.1, r.2)

/-- The partitions of a new device, put in one after the other. -/
def sortAll (parts : List PartInfo) : Option (List PartInfo) :=
  parts.foldlM (fun l new => (insertSorted new l).map Prod.fst) []

def idFindByMtdId (ids : List MtdId) (mtdId : List UInt8) : Option MtdId :=
  ids.find? fun id => id.mtdId = mtdId

def deviceFind (devices : List MtdDevice) (type : DevType) (num : ℕ) : Option MtdDevice :=
  devices.find? fun dev => dev.id.type = type ∧ dev.id.num = num

/-- The offset at which the partitions of a device go on. -/
def startOffset (devices : List MtdDevice) (id : MtdId) : ℕ :=
  match (deviceFind devices id.type id.num).bind fun dev => dev.parts.getLast? with
  | some part => (part.offset + part.size) % 2 ^ 32
  | none => 0

/-- What stands behind a `:`. -/
def behindColon (p : List UInt8) : Option (List UInt8) :=
  match p.dropWhile (· ≠ 58) with
  | [] => none
  | _ :: rest => some rest

/-- The text at `*ret`, behind the `;` of a device. -/
def behindDevice : List UInt8 → List UInt8
  | 59 :: p => p
  | p => p

/-- `device_parse`, with the addresses from `addr` on: the device, the text behind it and the next
address. -/
def deviceParse (ids : List MtdId) (devices : List MtdDevice) (addr : ℕ) (p : List UInt8) :
    Option (MtdDevice × List UInt8 × ℕ) :=
  (behindColon p).bind fun text =>
    (idFindByMtdId ids (p.takeWhile (· ≠ 58))).bind fun id =>
      (partsLoop B id (text.length + 1) (addr + 1) (startOffset devices id) text).bind fun r =>
        if r.1 = [] then none
        else
          (sortAll r.1).map fun parts => (⟨addr, id, parts⟩, behindDevice r.2.1, r.2.2)

/-! ## What was read -/

theorem strtoulDigits_lt (base : ℕ) {result : ℕ} (hresult : result < 2 ^ 32) (cp : List UInt8) :
    (strtoulDigits base result cp).1 < 2 ^ 32 := by
  induction cp generalizing result with
  | nil => exact hresult
  | cons c cp ih =>
    rw [strtoulDigits]
    split_ifs
    · exact ih (Nat.mod_lt _ (by decide))
    · exact hresult

theorem simpleStrtoul_lt (cp : List UInt8) (base : ℕ) : (simpleStrtoul cp base).1 < 2 ^ 32 :=
  strtoulDigits_lt _ (by decide) _

theorem memsizeParse_lt (ptr : List UInt8) : (memsizeParse ptr).1 < 2 ^ 32 := by
  rw [memsizeParse]
  split
  · split_ifs
    · exact Nat.mod_lt _ (by decide)
    · exact Nat.mod_lt _ (by decide)
    · exact Nat.mod_lt _ (by decide)
    · exact simpleStrtoul_lt ptr 0
  · exact simpleStrtoul_lt ptr 0

theorem partSize_lt {p rest : List UInt8} {size : ℕ} (h : partSize p = some (size, rest)) :
    size < 2 ^ 32 := by
  unfold partSize at h
  split at h
  · obtain rfl := (Prod.mk.inj (Option.some.inj h)).1
    decide
  · split_ifs at h
    rw [← (Prod.mk.inj (Option.some.inj h)).1]
    exact memsizeParse_lt _

theorem partOffset_lt (p : List UInt8) : (partOffset p).1 < 2 ^ 32 := by
  unfold partOffset
  split
  · exact memsizeParse_lt _
  · exact show offsetNotSpecified < 2 ^ 32 by decide

theorem partName_spec {p rest name : List UInt8} (h : partName p = some (some name, rest)) :
    name ≠ [] ∧ 41 ∉ name := by
  unfold partName at h
  split at h
  · split at h
    · cases h
    · split_ifs at h with hempty
      obtain rfl := Option.some.inj (Prod.mk.inj (Option.some.inj h)).1
      refine ⟨hempty, fun hmem => ?_⟩
      have hne := List.mem_takeWhile_imp hmem
      simp at hne
  · cases (Prod.mk.inj (Option.some.inj h)).1

/-- A partition that was accepted on a device. -/
structure PartOk (id : MtdId) (part : PartInfo) : Prop where
  fits : partFits B id part.offset part.size = true
  noWrap : part.offset + part.size < 2 ^ 32
  size_pos : 0 < part.size
  name : part.autoName = false → part.name ≠ [] ∧ 41 ∉ part.name

variable {B}

theorem partParse_spec {addr : ℕ} {p ret : List UInt8} {part : PartInfo}
    (h : partParse addr p = some (part, ret)) :
    part.addr = addr ∧ part.size < 2 ^ 32 ∧ part.offset < 2 ^ 32 ∧
      (part.autoName = false → part.name ≠ [] ∧ 41 ∉ part.name) := by
  rw [partParse] at h
  obtain ⟨size, hsize, h⟩ := Option.bind_eq_some_iff.mp h
  obtain ⟨name, hname, h⟩ := Option.bind_eq_some_iff.mp h
  obtain ⟨ret', hret, h⟩ := Option.map_eq_some_iff.mp h
  obtain ⟨rfl, rfl⟩ := Prod.mk.inj h
  refine ⟨rfl, partSize_lt hsize, partOffset_lt _, fun hauto => ?_⟩
  obtain ⟨name, rest⟩ := name
  cases name with
  | none => cases hauto
  | some name => exact partName_spec hname

theorem partValidate_spec {id : MtdId} {part part' : PartInfo} (hsize : part.size < 2 ^ 32)
    (hoffset : part.offset < 2 ^ 32)
    (hname : part.autoName = false → part.name ≠ [] ∧ 41 ∉ part.name)
    (h : partValidate B id part = some part') :
    PartOk B id part' ∧ part'.addr = part.addr ∧ part'.offset = part.offset := by
  rw [partValidate] at h
  split_ifs at h with hremaining hfits hfits
  all_goals
    obtain rfl := Option.some.inj h
    have hparts := hfits
    simp only [partFits, Bool.and_eq_true, decide_eq_true_eq] at hparts
    refine ⟨⟨hfits, ?_, ?_, hname⟩, rfl, rfl⟩
  · dsimp only
    omega
  · dsimp only
    omega
  · dsimp only
    omega
  · dsimp only
    omega

/-- **What the loop of `device_parse` gives**: partitions that were accepted, at the addresses from
the given one on. -/
theorem partsLoop_spec {id : MtdId} {fuel addr offset : ℕ} {p : List UInt8}
    {parts : List PartInfo} {ret : List UInt8} {addr' : ℕ} (hoffset : offset < 2 ^ 32)
    (h : partsLoop B id fuel addr offset p = some (parts, ret, addr')) :
    (∀ part ∈ parts, PartOk B id part) ∧ parts.map PartInfo.addr = List.range' addr parts.length ∧
      addr' = addr + parts.length := by
  induction fuel generalizing addr offset p parts with
  | zero => cases h
  | succ fuel ih =>
    rw [partsLoop] at h
    split_ifs at h with hend
    · obtain ⟨rfl, hrest⟩ := Prod.mk.inj (Option.some.inj h)
      obtain ⟨-, rfl⟩ := Prod.mk.inj hrest
      exact ⟨fun part hpart => absurd hpart List.not_mem_nil, rfl, rfl⟩
    · obtain ⟨parsed, hparsed, h⟩ := Option.bind_eq_some_iff.mp h
      obtain ⟨part, hpart, h⟩ := Option.bind_eq_some_iff.mp h
      obtain ⟨⟨rest, ret', next⟩, hr, hmade⟩ := Option.map_eq_some_iff.mp h
      obtain ⟨rfl, hrest⟩ := Prod.mk.inj hmade
      obtain ⟨rfl, rfl⟩ := Prod.mk.inj hrest
      obtain ⟨haddr, hsize, hoff, hname⟩ := partParse_spec (p := p) hparsed
      have hok : PartOk B id part ∧ part.addr = addr := by
        have hfilled : (if parsed.1.offset = offsetNotSpecified
            then { parsed.1 with offset := offset } else parsed.1).offset < 2 ^ 32 := by
          split_ifs
          · exact hoffset
          · exact hoff
        refine (partValidate_spec ?_ hfilled ?_ hpart).imp_right fun h => h.1.trans ?_
        · split_ifs
          · exact hsize
          · exact hsize
        · split_ifs
          · exact hname
          · exact hname
        · split_ifs
          · exact haddr
          · exact haddr
      obtain ⟨hall, haddrs, hnext⟩ := ih (Nat.mod_lt _ (by decide)) hr
      refine ⟨List.forall_mem_cons.mpr ⟨hok.1, hall⟩, ?_, ?_⟩
      · rw [List.map_cons, haddrs, hok.2, List.length_cons, List.range'_succ]
      · show next = addr + (rest.length + 1)
        omega

/-! ## How much text was read -/

theorem length_strtoulDigits (base result : ℕ) (cp : List UInt8) :
    (strtoulDigits base result cp).2.length < cp.length ∨
      strtoulDigits base result cp = (result, cp) := by
  induction cp generalizing result with
  | nil => exact .inr rfl
  | cons c cp ih =>
    rw [strtoulDigits]
    split_ifs
    · refine .inl ?_
      rcases ih ((result * base + digitValue c) % 2 ^ 32) with hlt | heq
      · exact Nat.lt_succ_of_lt hlt
      · rw [heq]
        exact Nat.lt_succ_self _
    · exact .inr rfl

theorem length_simpleStrtoul (cp : List UInt8) (base : ℕ) :
    (simpleStrtoul cp base).2.length < cp.length ∨
      ((simpleStrtoul cp base).1 = 0 ∧ (simpleStrtoul cp base).2 = cp) := by
  have hprefix : (strtoulPrefix base cp).2.length < cp.length ∨ (strtoulPrefix base cp).2 = cp := by
    unfold strtoulPrefix
    split
    · split_ifs
      all_goals exact .inl (by simp only [List.length_cons]; omega)
    · exact .inl (Nat.lt_succ_self _)
    · exact .inr rfl
  have hdigits := length_strtoulDigits
    (if (strtoulPrefix base cp).1 = 0 then 10 else (strtoulPrefix base cp).1) 0
    (strtoulPrefix base cp).2
  have hsimple : simpleStrtoul cp base = strtoulDigits
      (if (strtoulPrefix base cp).1 = 0 then 10 else (strtoulPrefix base cp).1) 0
      (strtoulPrefix base cp).2 := rfl
  rw [hsimple]
  rcases hprefix with hlt | heq
  · refine .inl ?_
    rcases hdigits with hlt' | heq'
    · exact hlt'.trans hlt
    · rw [heq']
      exact hlt
  · rw [heq] at hdigits ⊢
    exact hdigits.imp_right fun h => by rw [h]; exact ⟨rfl, rfl⟩

theorem length_memsizeParse (ptr : List UInt8) :
    (memsizeParse ptr).2.length < ptr.length ∨
      ((memsizeParse ptr).1 = 0 ∧ (memsizeParse ptr).2.length ≤ ptr.length) := by
  have hle : (simpleStrtoul ptr 0).2.length ≤ ptr.length :=
    (length_simpleStrtoul ptr 0).elim Nat.le_of_lt fun h => by rw [h.2]
  rw [memsizeParse]
  split
  · next c rest hrest =>
    rw [hrest, List.length_cons] at hle
    split_ifs
    · exact .inl hle
    · exact .inl hle
    · exact .inl hle
    · rcases length_simpleStrtoul ptr 0 with hlt | ⟨hzero, heq⟩
      · exact .inl (hrest ▸ hlt)
      · exact .inr ⟨hzero, hle⟩
  · next hrest =>
    rcases length_simpleStrtoul ptr 0 with hlt | ⟨hzero, heq⟩
    · exact .inl (hrest ▸ hlt)
    · exact .inr ⟨hzero, Nat.zero_le _⟩

theorem length_partSize {p : List UInt8} {size : ℕ × List UInt8} (h : partSize p = some size) :
    size.2.length < p.length := by
  unfold partSize at h
  split at h
  · obtain rfl := Option.some.inj h
    exact Nat.lt_succ_self _
  · split_ifs at h with hsmall
    obtain rfl := Option.some.inj h
    refine (length_memsizeParse p).resolve_right fun hzero => hsmall ?_
    rw [hzero.1]
    decide

theorem length_partOffset (p : List UInt8) : (partOffset p).2.length ≤ p.length := by
  unfold partOffset
  split
  · next p =>
    exact Nat.le_succ_of_le ((length_memsizeParse p).elim Nat.le_of_lt And.right)
  · exact le_rfl

theorem length_partName {p : List UInt8} {name : Option (List UInt8) × List UInt8}
    (h : partName p = some name) : name.2.length ≤ p.length := by
  unfold partName at h
  split at h
  · next p =>
    split at h
    · cases h
    · next c rest hrest =>
      split_ifs at h
      obtain rfl := Option.some.inj h
      have hle := List.length_dropWhile_le (fun c : UInt8 => decide (c ≠ 41)) p
      rw [hrest, List.length_cons] at hle
      show rest.length ≤ p.length + 1
      omega
  · obtain rfl := Option.some.inj h
    exact le_rfl

theorem length_partFlags (p : List UInt8) : (partFlags p).2.length ≤ p.length := by
  unfold partFlags
  split
  · simp only [List.length_cons]
    omega
  · exact le_rfl

theorem length_partEnd {size : ℕ} {p ret : List UInt8} (h : partEnd size p = some ret) :
    ret.length ≤ p.length ∧ (ret.head?.all (· = 59) = false → ret.length < p.length) := by
  cases p with
  | nil =>
    obtain rfl := Option.some.inj h
    exact ⟨le_rfl, fun hend => absurd hend Bool.true_eq_false.mp⟩
  | cons c p =>
    rw [partEnd] at h
    split_ifs at h with hcomma hlast hsemicolon
    · obtain rfl := Option.some.inj h
      exact ⟨Nat.le_succ _, fun _ => Nat.lt_succ_self _⟩
    · obtain rfl := Option.some.inj h
      refine ⟨le_rfl, fun hend => ?_⟩
      rw [hsemicolon] at hend
      exact absurd hend (by simp)

theorem length_partParse {addr : ℕ} {p : List UInt8} {r : PartInfo × List UInt8}
    (h : partParse addr p = some r) :
    r.2.length < p.length ∧ (r.2.head?.all (· = 59) = false → r.2.length + 2 ≤ p.length) := by
  rw [partParse] at h
  obtain ⟨size, hsize, h⟩ := Option.bind_eq_some_iff.mp h
  obtain ⟨name, hname, h⟩ := Option.bind_eq_some_iff.mp h
  obtain ⟨ret, hret, rfl⟩ := Option.map_eq_some_iff.mp h
  have h₁ := length_partSize hsize
  have h₂ := length_partOffset size.2
  have h₃ := length_partName hname
  have h₄ := length_partFlags name.2
  have h₅ := length_partEnd hret
  dsimp only
  refine ⟨by omega, fun hend => ?_⟩
  have h₆ := h₅.2 hend
  omega

theorem length_partsLoop {id : MtdId} {fuel addr offset : ℕ} {p : List UInt8}
    {r : List PartInfo × List UInt8 × ℕ} (h : partsLoop B id fuel addr offset p = some r) :
    2 * r.1.length ≤ p.length + 1 ∧ r.2.1.length ≤ p.length := by
  induction fuel generalizing addr offset p r with
  | zero => cases h
  | succ fuel ih =>
    rw [partsLoop] at h
    split_ifs at h with hend
    · obtain rfl := Option.some.inj h
      exact ⟨Nat.zero_le _, le_rfl⟩
    · obtain ⟨parsed, hparsed, h⟩ := Option.bind_eq_some_iff.mp h
      obtain ⟨part, -, h⟩ := Option.bind_eq_some_iff.mp h
      obtain ⟨r', hr', rfl⟩ := Option.map_eq_some_iff.mp h
      obtain ⟨hcount, hleft⟩ := ih hr'
      obtain ⟨hlt, hmore⟩ := length_partParse hparsed
      refine ⟨?_, hleft.trans hlt.le⟩
      show 2 * (r'.1.length + 1) ≤ p.length + 1
      cases hlast : parsed.2.head?.all (· = 59) with
      | true =>
        cases fuel with
        | zero => cases hr'
        | succ fuel =>
          rw [partsLoop, if_pos hlast] at hr'
          obtain rfl := Option.some.inj hr'
          show 2 * (0 + 1) ≤ p.length + 1
          omega
      | false =>
        have hmore' := hmore hlast
        omega

/-! ## The order of the partitions -/

/-- The partitions of a device: in the order of their offsets, with one at offset 0 at most. -/
structure Sorted (parts : List PartInfo) : Prop where
  ordered : parts.Pairwise fun p q => p.offset ≤ q.offset
  zero : parts.Pairwise fun p q => ¬ (p.offset = 0 ∧ q.offset = 0)

theorem Sorted.tail {p : PartInfo} {parts : List PartInfo} (h : Sorted (p :: parts)) :
    Sorted parts :=
  ⟨h.ordered.of_cons, h.zero.of_cons⟩

/-- **Where `part_sort_add` puts a partition**: behind the ones of smaller offsets, and in front of
the first other one. -/
theorem insertSorted_split {new : PartInfo} {parts : List PartInfo}
    {r : List PartInfo × Option PartInfo} (h : insertSorted new parts = some r) :
    ∃ before after, parts = before ++ after ∧ r = (before ++ new :: after, after.head?) ∧
      (∀ p ∈ before, p.offset < new.offset) ∧
      (∀ p ∈ after.head?, new.offset ≤ p.offset) ∧
      (∀ p ∈ after.head?, ¬ (new.offset = p.offset ∧ p.offset = 0)) := by
  induction parts generalizing r with
  | nil =>
    obtain rfl := Option.some.inj h
    exact ⟨[], [], rfl, rfl, fun p hp => absurd hp List.not_mem_nil,
      fun p hp => absurd hp (by simp), fun p hp => absurd hp (by simp)⟩
  | cons pi parts ih =>
    rw [insertSorted] at h
    split_ifs at h with hzero hle
    · obtain rfl := Option.some.inj h
      refine ⟨[], pi :: parts, rfl, rfl, fun p hp => absurd hp List.not_mem_nil, fun p hp => ?_,
        fun p hp => ?_⟩
      · obtain rfl := Option.some.inj hp
        exact hle
      · obtain rfl := Option.some.inj hp
        exact hzero
    · obtain ⟨r', hr', rfl⟩ := Option.map_eq_some_iff.mp h
      obtain ⟨before, after, rfl, rfl, hbefore, hafter, hnone⟩ := ih hr'
      exact ⟨pi :: before, after, rfl, rfl,
        List.forall_mem_cons.mpr ⟨Nat.lt_of_not_le hle, hbefore⟩, hafter, hnone⟩

theorem Sorted.insert {new : PartInfo} {before after : List PartInfo}
    (h : Sorted (before ++ after)) (hbefore : ∀ p ∈ before, p.offset < new.offset)
    (hafter : ∀ p ∈ after.head?, new.offset ≤ p.offset)
    (hnone : ∀ p ∈ after.head?, ¬ (new.offset = p.offset ∧ p.offset = 0)) :
    Sorted (before ++ new :: after) := by
  have hle : ∀ q ∈ after, new.offset ≤ q.offset := by
    cases after with
    | nil => exact fun q hq => absurd hq List.not_mem_nil
    | cons a after =>
      have ha : new.offset ≤ a.offset := hafter a rfl
      refine List.forall_mem_cons.mpr ⟨ha, fun q hq => ha.trans ?_⟩
      exact (List.pairwise_cons.mp (List.pairwise_append.mp h.ordered).2.1).1 q hq
  constructor
  · rw [List.pairwise_append, List.pairwise_cons]
    obtain ⟨hb, ha, hba⟩ := List.pairwise_append.mp h.ordered
    refine ⟨hb, ⟨hle, ha⟩, fun p hp q hq => ?_⟩
    rcases List.mem_cons.mp hq with rfl | hq
    · exact (hbefore p hp).le
    · exact hba p hp q hq
  · rw [List.pairwise_append, List.pairwise_cons]
    obtain ⟨hb, ha, hba⟩ := List.pairwise_append.mp h.zero
    refine ⟨hb, ⟨fun q hq hboth => ?_, ha⟩, fun p hp q hq hboth => ?_⟩
    · -- the first one behind has the offset 0 then
      cases after with
      | nil => exact List.not_mem_nil hq
      | cons a after =>
        have hafirst := hnone a rfl
        have hanew := hafter a rfl
        rcases List.mem_cons.mp hq with rfl | hq
        · exact hafirst ⟨hboth.1.trans hboth.2.symm, hboth.2⟩
        · have haq : a.offset ≤ q.offset :=
            (List.pairwise_cons.mp (List.pairwise_append.mp h.ordered).2.1).1 q hq
          exact hafirst ⟨by omega, by omega⟩
    · rcases List.mem_cons.mp hq with rfl | hq
      · have hlt := hbefore p hp
        omega
      · exact hba p hp q hq hboth

theorem insertSorted_perm {new : PartInfo} {parts : List PartInfo}
    {r : List PartInfo × Option PartInfo} (h : insertSorted new parts = some r) :
    r.1.Perm (new :: parts) := by
  obtain ⟨before, after, rfl, rfl, -⟩ := insertSorted_split h
  exact List.perm_middle

theorem insertSorted_sorted {new : PartInfo} {parts : List PartInfo}
    {r : List PartInfo × Option PartInfo} (hsorted : Sorted parts)
    (h : insertSorted new parts = some r) : Sorted r.1 := by
  obtain ⟨before, after, rfl, rfl, hbefore, hafter, hnone⟩ := insertSorted_split h
  exact hsorted.insert hbefore hafter hnone

theorem sortAll_spec {parts sorted : List PartInfo} (h : sortAll parts = some sorted) :
    sorted.Perm parts ∧ Sorted sorted := by
  have hgen : ∀ (parts l sorted : List PartInfo), Sorted l →
      parts.foldlM (fun l new => (insertSorted new l).map Prod.fst) l = some sorted →
        sorted.Perm (parts ++ l) ∧ Sorted sorted := by
    intro parts
    induction parts with
    | nil =>
      rintro l sorted hl h
      obtain rfl := Option.some.inj h
      exact ⟨List.Perm.refl _, hl⟩
    | cons new parts ih =>
      rintro l sorted hl h
      rw [List.foldlM_cons] at h
      obtain ⟨l', hl', h⟩ := Option.bind_eq_some_iff.mp h
      obtain ⟨r, hr, rfl⟩ := Option.map_eq_some_iff.mp hl'
      obtain ⟨hperm, hsorted⟩ := ih r.1 sorted (insertSorted_sorted hl hr) h
      refine ⟨hperm.trans ?_, hsorted⟩
      exact ((insertSorted_perm hr).append_left parts).trans List.perm_middle
  have hnil := hgen parts [] sorted ⟨List.Pairwise.nil, List.Pairwise.nil⟩ h
  rwa [List.append_nil] at hnil

/-- A device that was read. -/
structure DeviceOk (dev : MtdDevice) : Prop where
  nonempty : dev.parts ≠ []
  sorted : Sorted dev.parts
  parts : ∀ part ∈ dev.parts, PartOk B dev.id part

/-- **What `device_parse` gives.** -/
theorem deviceParse_spec {ids : List MtdId} {devices : List MtdDevice} {addr : ℕ}
    {p ret : List UInt8} {dev : MtdDevice} {addr' : ℕ}
    (h : deviceParse B ids devices addr p = some (dev, ret, addr')) :
    DeviceOk (B := B) dev ∧ idFindByMtdId ids (p.takeWhile (· ≠ 58)) = some dev.id ∧
      dev.addr = addr ∧ (dev.parts.map PartInfo.addr).Nodup ∧ addr < addr' ∧
      (∀ part ∈ dev.parts, addr < part.addr ∧ part.addr < addr') ∧
      2 * dev.parts.length ≤ p.length ∧ ret.length ≤ p.length := by
  rw [deviceParse] at h
  obtain ⟨text, htext, h⟩ := Option.bind_eq_some_iff.mp h
  obtain ⟨id, hid, h⟩ := Option.bind_eq_some_iff.mp h
  obtain ⟨⟨raw, rest, next⟩, hloop, h⟩ := Option.bind_eq_some_iff.mp h
  split_ifs at h with hempty
  obtain ⟨parts, hparts, hmade⟩ := Option.map_eq_some_iff.mp h
  obtain ⟨rfl, hrest⟩ := Prod.mk.inj hmade
  obtain ⟨rfl, rfl⟩ := Prod.mk.inj hrest
  have hlong : text.length < p.length := by
    rw [behindColon] at htext
    split at htext
    · cases htext
    · next c rest hdrop =>
      obtain rfl := Option.some.inj htext
      have hle := List.length_dropWhile_le (fun c : UInt8 => decide (c ≠ 58)) p
      rw [hdrop, List.length_cons] at hle
      exact hle
  obtain ⟨hcount, hleft⟩ := length_partsLoop hloop
  have hstart : startOffset devices id < 2 ^ 32 := by
    rw [startOffset]
    split
    · exact Nat.mod_lt _ (by decide)
    · decide
  obtain ⟨hall, haddrs, hnext⟩ := partsLoop_spec hstart hloop
  obtain ⟨hperm, hsorted⟩ := sortAll_spec hparts
  have hmem : ∀ part ∈ parts, part.addr ∈ List.range' (addr + 1) raw.length := by
    intro part hpart
    rw [← haddrs]
    exact List.mem_map_of_mem (hperm.mem_iff.mp hpart)
  refine ⟨⟨?_, hsorted, fun part hpart => hall part (hperm.mem_iff.mp hpart)⟩, hid, rfl, ?_, ?_,
    fun part hpart => ?_, ?_, ?_⟩
  · exact fun hnil => hempty (List.nil_perm.mp (hnil ▸ hperm))
  · refine (hperm.map PartInfo.addr).nodup_iff.mpr ?_
    rw [haddrs]
    exact List.nodup_range'
  · show addr < next
    omega
  · have hrange := List.mem_range'_1.mp (hmem part hpart)
    show addr < part.addr ∧ part.addr < next
    omega
  · show 2 * parts.length ≤ p.length
    rw [hperm.length_eq]
    show 2 * raw.length ≤ p.length
    dsimp only at hcount
    omega
  · have hskip : (behindDevice rest).length ≤ rest.length := by
      unfold behindDevice
      split
      · exact Nat.le_succ _
      · exact le_rfl
    dsimp only at hleft
    show (behindDevice rest).length ≤ p.length
    omega

end Mtd
end EmevBsp
