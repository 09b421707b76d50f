import EmevBsp.Jffs2.Fragments
import EmevBsp.Jffs2.NandCache
import EmevBsp.Library.Stretch

/-!
# `fs/jffs2/jffs2_1pass.c`: the scan that builds the lists

For each sector the scan looks at the last eight bytes, where the marker of a summary may stand, and
takes the nodes from the summary.  Without one it walks from node to node, in a buffer of 4 KiB that
is read anew wherever the walk comes to its end: with what is left of the sector at the head of the
loop and in erased flash, with the length it had before when a node is not in it as a whole.

The states are the places of the source where it goes round; an access behind the buffer, or behind
the memory of a summary, is the state `fault`.  Offsets are 32 bits wide and wrap.  Reads of the
flash succeed, and the 4096 bytes of the buffer are there.  The lists are in the order of the
insertions (without `CONFIG_SYS_JFFS2_SORT_FRAGMENTS`), and what the scan prints is left out.
-/

namespace EmevBsp
namespace Jffs2
namespace BuildLists

open NandCache (Device)

/-! ## Nodes -/

/-- `DEFAULT_EMPTY_SCAN_SIZE`, which is `buf_size`. -/
abbrev bufSize : ℕ := 4096

/-- The bytes of a word, the lowest first. -/
def u16At (f : ℕ → UInt8) (x : ℕ) : BitVec 16 :=
  BitVec.ofNat 16 ((f x).toNat + 256 * (f (x + 1)).toNat)

def u32At (f : ℕ → UInt8) (x : ℕ) : BitVec 32 :=
  BitVec.ofNat 32 ((f x).toNat + 256 * (f (x + 1)).toNat + 65536 * (f (x + 2)).toNat +
    16777216 * (f (x + 3)).toNat)

/-- `crc32_no_comp (0, ..)` is what the word says. -/
def crcIs (w : BitVec 32) (bytes : List UInt8) : Bool := w = (crc32NoComp 0 bytes).toBitVec

/-- `JFFS2_MAGIC_BITMASK` -/
abbrev magicBitmask : BitVec 16 := 0x1985

/-- The nodes that are put into a list, `pL->frag` or `pL->dir`. -/
inductive Kind where
  | inode
  | dirent
  deriving DecidableEq

/-- `JFFS2_NODETYPE_INODE`, `JFFS2_NODETYPE_DIRENT`; no other type has a list. -/
def kindOf (nodetype : BitVec 16) : Option Kind :=
  if nodetype = 0xe002 then some .inode else if nodetype = 0xe001 then some .dirent else none

/-- `struct jffs2_unknown_node` -/
def nodetype (node : ℕ → UInt8) : BitVec 16 := u16At node 2

def totlen (node : ℕ → UInt8) : BitVec 32 := u32At node 4

/-- `struct jffs2_raw_dirent` -/
def nsize (node : ℕ → UInt8) : ℕ := (node 28).toNat

def hdrCrc (node : ℕ → UInt8) : Bool := crcIs (u32At node 8) (stretch node 0 8)

def inodeCrc (node : ℕ → UInt8) : Bool := crcIs (u32At node 64) (stretch node 0 60)

def direntCrc (node : ℕ → UInt8) : Bool := crcIs (u32At node 32) (stretch node 0 32)

def direntNameCrc (node : ℕ → UInt8) : Bool :=
  crcIs (u32At node 36) (stretch node 40 (nsize node))

/-! ## What is found -/

/-- `struct b_lists`, and `max_totlen`. -/
structure Found where
  frag : List (BitVec 32)
  dir : List (BitVec 32)
  maxTotlen : BitVec 32

def Found.list (found : Found) : Kind → List (BitVec 32)
  | .inode => found.frag
  | .dirent => found.dir

/-- The partition, what the flash holds, for which lengths `malloc` has memory, for which number of
nodes `add_node` has, and what is in the buffer before the first read. -/
structure Setting where
  offset : BitVec 32
  size : BitVec 32
  sectorSize : BitVec 32
  sectorSize_ne : sectorSize ≠ 0
  flash : Device
  malloc : BitVec 32 → Bool
  addNode : ℕ → Bool
  buf : ℕ → UInt8

variable (p : Setting)

def insertNode (k : Kind) (offset : BitVec 32) (found : Found) : Option Found :=
  if p.addNode (found.frag.length + found.dir.length) then
    match k with
    | .inode => some { found with frag := found.frag ++ [offset] }
    | .dirent => some { found with dir := found.dir ++ [offset] }
  else none

/-- `get_fl_mem`, with a buffer. -/
def getFlMem (off : BitVec 32) (size dst : ℕ) (mem : ℕ → UInt8) : ℕ → UInt8 := fun x =>
  if dst ≤ x ∧ x < dst + size then p.flash (off + BitVec.ofNat 32 (x - dst)) else mem x

/-- What the flash holds from an offset of the partition on. -/
def Setting.bytes (ofs : BitVec 32) (k : ℕ) : UInt8 := p.flash (p.offset + ofs + BitVec.ofNat 32 k)

def Setting.nrSectors : ℕ := (p.size / p.sectorSize).toNat

def Setting.sectorOfs (i : ℕ) : BitVec 32 := BitVec.ofNat 32 i * p.sectorSize

/-- Where the sector ends. -/
def Setting.stop (i : ℕ) : BitVec 32 := p.sectorOfs i + p.sectorSize

def Setting.emptyScanSize : ℕ :=
  if p.sectorSize.toNat < bufSize then p.sectorSize.toNat else bufSize

/-! ## The summary -/

/-- What `jffs2_sum_scan_sumnode` comes to: an access behind the summary, -1, 0 or 1. -/
inductive SumResult where
  | fault
  | failed (found : Found)
  | corrupt
  | taken (found : Found)

/-- Where an entry has its `offset`. -/
def entryOffset : Kind → ℕ
  | .inode => 10
  | .dirent => 6

/-- How much of an entry is read for its length: the `nsize` of a `dirent`. -/
def entryRead : Kind → ℕ
  | .inode => 0
  | .dirent => 23

/-- `JFFS2_SUMMARY_INODE_SIZE`, `JFFS2_SUMMARY_DIRENT_SIZE` -/
def entrySize (sum : ℕ → UInt8) (sp : ℕ) : Kind → ℕ
  | .inode => 18
  | .dirent => 24 + (sum (sp + 22)).toNat

/-- `jffs2_sum_process_sum_data`, with `sum_num` entries to go.  An entry of a type that it does not
know is looked at again. -/
def processSumData (offset : BitVec 32) (sum : ℕ → UInt8) (sumsize : ℕ) :
    ℕ → ℕ → Found → SumResult
  | 0, _, found => .taken found
  | n + 1, sp, found =>
    if sumsize < sp + 2 then .fault
    else
      match kindOf (u16At sum sp) with
      | none => processSumData offset sum sumsize n sp found
      | some k =>
        if sumsize < sp + entryOffset k + 4 then .fault
        else
          match insertNode p k (p.offset + offset + u32At sum (sp + entryOffset k)) found with
          | none => .failed found
          | some found =>
            if sumsize < sp + entryRead k then .fault
            else processSumData offset sum sumsize n (sp + entrySize sum sp k) found

/-- The header of a summary, and its length, are right. -/
def sumHeader (sum : ℕ → UInt8) (sumsize : BitVec 32) : Bool :=
  crcIs (u32At sum 8) ([0x85, 0x19, 0x06, 0x20] ++ stretch sum 4 4) && (totlen sum = sumsize : Bool)

/-- The two other sums of a summary are right. -/
def sumCrc (sum : ℕ → UInt8) (sumsize : BitVec 32) : Bool :=
  crcIs (u32At sum 28) (stretch sum 0 24) &&
    crcIs (u32At sum 24) (stretch sum 32 (sumsize.toNat - 32))

/-- `jffs2_sum_scan_sumnode` -/
def scanSumnode (offset : BitVec 32) (sum : ℕ → UInt8) (sumsize : BitVec 32) (found : Found) :
    SumResult :=
  if sumsize.toNat < 12 then .fault
  else if ¬sumHeader sum sumsize then .corrupt
  else if sumsize.toNat < 32 then .fault
  else if ¬sumCrc sum sumsize then .corrupt
  else processSumData p offset sum sumsize.toNat (u32At sum 12).toNat 32 found

/-! ## The walk -/

/-- The variables of the walk through a sector. -/
structure Walk where
  ofs : BitVec 32
  prevofs : BitVec 32
  bufOfs : BitVec 32
  bufLen : BitVec 32
  buf : ℕ → UInt8
  found : Found

/-- The places where the scan goes round: the head of the loop over the sectors, the one over the
first 4 KiB, the head of the walk, its `switch`, and the loop over erased flash; and its ends. -/
inductive State where
  | sector (i : ℕ) (buf : ℕ → UInt8) (found : Found)
  | erased (i ofs : ℕ) (buf : ℕ → UInt8) (found : Found)
  | scan (i : ℕ) (w : Walk)
  | node (i : ℕ) (w : Walk)
  | empty (i scanEnd : ℕ) (w : Walk)
  | returned (found : Found)
  | failed (found : Found)
  | fault

/-- What a step is: the walk has reached a node with a list, or anything else. -/
inductive Label where
  | reach (k : Kind) (ofs : BitVec 32)
  | go
  deriving DecidableEq

/-- `sm`, in the last bytes of the buffer. -/
def Setting.marker (i : ℕ) (buf : ℕ → UInt8) : ℕ → UInt8 :=
  getFlMem p (p.offset + p.sectorOfs i + p.sectorSize - 8) 8 (bufSize - 8) buf

/-- `JFFS2_SUM_MAGIC`, behind the offset. -/
def hasSummary (buf : ℕ → UInt8) : Bool := u32At buf (bufSize - 4) = 0x02851885

def Setting.sumlen (buf : ℕ → UInt8) : BitVec 32 := p.sectorSize - u32At buf (bufSize - 8)

/-- The buffer when a summary has been read that fits into it. -/
def Setting.fillSum (i : ℕ) (buf : ℕ → UInt8) : ℕ → UInt8 :=
  let n := (p.sumlen buf).toNat
  if 8 < n ∧ n ≤ bufSize then
    getFlMem p (p.offset + p.sectorOfs i + p.sectorSize - p.sumlen buf) (n - 8) (bufSize - n) buf
  else buf

/-- The bytes at `sumptr`: in the buffer, or in memory of their own with the marker copied to its
end. -/
def Setting.sumBytes (i : ℕ) (buf : ℕ → UInt8) : ℕ → UInt8 :=
  let n := (p.sumlen buf).toNat
  if n ≤ bufSize then fun x => p.fillSum i buf (bufSize - n + x)
  else
    getFlMem p (p.offset + p.sectorOfs i + p.sectorSize - p.sumlen buf) (n - 8) 0
      fun x => buf (bufSize - 8 + (x - (n - 8)))

/-- The sector has to be walked. -/
def beginSector (i : ℕ) (buf : ℕ → UInt8) (found : Found) : State :=
  .erased i 0 (getFlMem p (p.offset + p.sectorOfs i) p.emptyScanSize 0 buf) found

/-- The sector up to the walk, with the marker in the buffer. -/
def sectorStep (i : ℕ) (buf : ℕ → UInt8) (found : Found) : State :=
  if ¬hasSummary buf then beginSector p i buf found
  else if bufSize < (p.sumlen buf).toNat ∧ p.malloc (p.sumlen buf) = false then .failed found
  else
    match scanSumnode p (p.sectorOfs i) (p.sumBytes i buf) (p.sumlen buf) found with
    | .fault => .fault
    | .failed found => .failed found
    | .corrupt => beginSector p i (p.fillSum i buf) found
    | .taken found => .sector (i + 1) (p.fillSum i buf) found

/-- The walk begins. -/
def beginWalk (i ofs : ℕ) (buf : ℕ → UInt8) (found : Found) : State :=
  let start := p.sectorOfs i + BitVec.ofNat 32 ofs
  .scan i ⟨start, start - 1, p.sectorOfs i, BitVec.ofNat 32 p.emptyScanSize, buf, found⟩

/-- "Scan only 4KiB of 0xFF before declaring it's empty" -/
def erasedStep (i ofs : ℕ) (buf : ℕ → UInt8) (found : Found) : State :=
  if ofs < p.emptyScanSize then
    if bufSize < ofs + 4 then .fault
    else if u32At buf ofs = 0xffffffff then .erased i (ofs + 4) buf found
    else beginWalk p i ofs buf found
  else if ofs = p.emptyScanSize then .sector (i + 1) buf found
  else beginWalk p i ofs buf found

/-- `ofs - buf_ofs` -/
def Walk.index (w : Walk) : ℕ := (w.ofs - w.bufOfs).toNat

def Walk.node (w : Walk) (k : ℕ) : UInt8 := w.buf (w.index + k)

/-- So many bytes of the node are in the buffer. -/
def Walk.Inside (w : Walk) (n : ℕ) : Prop := w.index + n ≤ bufSize

instance (w : Walk) (n : ℕ) : Decidable (w.Inside n) := inferInstanceAs (Decidable (_ ≤ _))

/-- The buffer is read from the position on. -/
def Walk.fetch (w : Walk) (len : BitVec 32) : Walk :=
  { w with
    bufOfs := w.ofs
    bufLen := len
    buf := getFlMem p (p.offset + w.ofs) len.toNat 0 w.buf }

/-- What is left of the sector, or of it what fits into the buffer. -/
def rest (i : ℕ) (w : Walk) : BitVec 32 :=
  if (p.stop i - w.ofs).toNat < bufSize then p.stop i - w.ofs else BitVec.ofNat 32 bufSize

/-- The window at the head of the walk. -/
def refill (i : ℕ) (w : Walk) : Walk :=
  if w.bufOfs + w.bufLen < w.ofs + 12 then w.fetch p (rest p i w) else w

/-- The node is not at the position. -/
def skip (i : ℕ) (w : Walk) : State := .scan i { w with ofs := w.ofs + 4 }

/-- From the window on. -/
def headerStep (i : ℕ) (w : Walk) : State :=
  if ¬w.Inside 4 then .fault
  else if u32At w.node 0 = 0xffffffff then
    .empty i (min (p.emptyScanSize / 8) w.bufLen.toNat) { w with ofs := w.ofs + 4 }
  else if u16At w.node 0 ≠ magicBitmask then skip i w
  else if ¬w.Inside 12 then .fault
  else if ¬hdrCrc w.node then skip i w
  else if p.stop i < w.ofs + totlen w.node then skip i w
  else .node i w

/-- The head of the walk. -/
def scanStep (i : ℕ) (w : Walk) : State :=
  if p.stop i ≤ w.ofs then .sector (i + 1) w.buf w.found
  else if w.ofs = w.prevofs then skip i w
  else if p.stop i < w.ofs + 12 then .sector (i + 1) w.buf w.found
  else headerStep p i (refill p i { w with prevofs := w.ofs })

/-- A node that is not in the window as a whole is read, with the length of the window. -/
def Walk.fetchNode (w : Walk) (n : ℕ) : Walk :=
  if w.bufOfs + w.bufLen < w.ofs + BitVec.ofNat 32 n then w.fetch p w.bufLen else w

/-- The sums of a node; `none` is an access behind the buffer. -/
def checkNode (w : Walk) : Kind → Option (Walk × Bool)
  | .inode =>
    let w := w.fetchNode p 68
    if w.Inside 68 then some (w, inodeCrc w.node) else none
  | .dirent =>
    if w.Inside 29 then
      let w := w.fetchNode p (40 + nsize w.node)
      if ¬w.Inside 36 then none
      else if ¬direntCrc w.node then some (w, false)
      else if w.Inside (40 + nsize w.node) then some (w, direntNameCrc w.node)
      else none
    else none

/-- `(node->totlen + 3) & ~3` -/
def aligned (len : BitVec 32) : BitVec 32 := (len + 3) &&& ~~~3

/-- Behind the node. -/
def advance (i : ℕ) (w : Walk) : State :=
  .scan i { w with ofs := w.ofs + aligned (totlen w.node) }

/-- What is found, with the length of the new node. -/
def Found.longest (found : Found) (len : BitVec 32) : Found :=
  { found with maxTotlen := if found.maxTotlen < len then len else found.maxTotlen }

/-- The `switch` of the walk. -/
def nodeStep (i : ℕ) (w : Walk) : Label × State :=
  match kindOf (nodetype w.node) with
  | none => (.go, advance i w)
  | some k =>
    (.reach k w.ofs,
      match checkNode p w k with
      | none => .fault
      | some (w, false) => advance i w
      | some (w, true) =>
        match insertNode p k (p.offset + w.ofs) w.found with
        | none => .failed w.found
        | some found => advance i { w with found := found.longest (totlen w.node) })

/-- `more_empty` -/
def emptyStep (i scanEnd : ℕ) (w : Walk) : State :=
  if w.index < scanEnd then
    if ¬w.Inside 4 then .fault
    else if u32At w.node 0 ≠ 0xffffffff then .scan i w
    else .empty i scanEnd { w with ofs := w.ofs + 4 }
  else if rest p i w = 0 then .sector (i + 1) w.buf w.found
  else .empty i (rest p i w).toNat (w.fetch p (rest p i w))

/-! ## The scan -/

/-- From one place to the next. -/
def next : State → Option (Label × State)
  | .sector i buf found =>
    some (.go, if i < p.nrSectors then sectorStep p i (p.marker i buf) found else .returned found)
  | .erased i ofs buf found => some (.go, erasedStep p i ofs buf found)
  | .scan i w => some (.go, scanStep p i w)
  | .node i w => some (nodeStep p i w)
  | .empty i scanEnd w => some (.go, emptyStep p i scanEnd w)
  | .returned _ => none
  | .failed _ => none
  | .fault => none

/-- The scan of a partition begins. -/
def start : State := .sector 0 p.buf ⟨[], [], 0⟩

/-- `jffs2_1pass_build_lists` -/
def buildLists : TransitionSystem State Label where
  init s := s = start p
  step s a t := next p s = some (a, t)

end BuildLists
end Jffs2
end EmevBsp
