import EmevBsp.LibGeneric.Crc32
import EmevBsp.Library.Stretch
import EmevBsp.Library.TransitionSystem
import Mathlib.Algebra.Group.Nat.Defs
import Mathlib.Data.List.TakeWhile

/-!
# `fs/jffs2/jffs2_1pass.c`: the list of fragments, and how an inode is read from it

The scan puts the inode nodes it finds into a list, in the order of their versions
(`CONFIG_SYS_JFFS2_SORT_FRAGMENTS`).  The place of a new one is looked for behind the tail, or
behind the node in front of which the last one was put, or from the head.  A file is read by writing
its nodes over one another, in the order of the list.

The flash is a table of nodes; what a node gives when it is decompressed is a parameter.  A `b_node`
comes from `malloc`, and nothing sets its `datacrc`: what stands there is part of the insertion.
The pointer of the tail is the end of the list.
-/

namespace EmevBsp
namespace Jffs2

/-! ## Nodes -/

/-- `struct jffs2_raw_inode`, with the bytes behind it. -/
structure RawInode where
  ino : ℕ
  version : ℕ
  isize : ℕ
  offset : ℕ
  csize : ℕ
  dsize : ℕ
  compr : ℕ
  dataCrc : UInt32
  data : List UInt8

/-- The decompressors, and whether `CONFIG_JFFS2_LZO_LZARI` is set. -/
structure Decompressors where
  rtime : List UInt8 → ℕ → ℕ → List UInt8
  dynrubin : List UInt8 → ℕ → ℕ → List UInt8
  zlib : List UInt8 → ℕ → ℕ → List UInt8
  lzo : List UInt8 → ℕ → ℕ → List UInt8
  lzari : List UInt8 → ℕ → ℕ → List UInt8
  lzoLzari : Bool

def crc32NoComp (crc : UInt32) (buf : List UInt8) : UInt32 := buf.foldl do1 crc

/-- `data_crc`. -/
def dataCrcOk (node : RawInode) : Bool := node.dataCrc = crc32NoComp 0 (node.data.take node.csize)

/-- The `switch` over the compression; `none` is an unknown one. -/
def decompressed (D : Decompressors) (node : RawInode) : Option (List UInt8) :=
  match node.compr with
  | 0 => some (node.data.take node.dsize)
  | 1 => some (List.replicate node.dsize 0)
  | 2 => some (D.rtime node.data node.csize node.dsize)
  | 5 => some (D.dynrubin node.data node.csize node.dsize)
  | 6 => some (D.zlib node.data node.csize node.dsize)
  | 7 => if D.lzoLzari then some (D.lzo node.data node.csize node.dsize) else none
  | 8 => if D.lzoLzari then some (D.lzari node.data node.csize node.dsize) else none
  | _ => none

/-! ## The list -/

/-- `struct b_node`, at its address. -/
structure BNode where
  addr : ℕ
  offset : ℕ
  datacrc : ℕ

/-- `CRC_UNKNOWN`, `CRC_OK` and `CRC_BAD`. -/
def crcUnknown : ℕ := 0

def crcOk : ℕ := 1

def crcBad : ℕ := 2

/-- `struct b_list`. -/
structure BList where
  nodes : List BNode
  listLast : Option ℕ
  listCount : ℕ

/-- The list before the scan. -/
def emptyList : BList := ⟨[], none, 0⟩

variable (flash : ℕ → RawInode)

def compareInodes (new old : BNode) : Bool :=
  (flash new.offset).version > (flash old.offset).version

/-- A list up to the node of an address, and behind it. -/
def splitBehind (addr : ℕ) : List BNode → List BNode × List BNode
  | [] => ([], [])
  | b :: bs =>
    if b.addr = addr then ([b], bs) else (b :: (splitBehind addr bs).1, (splitBehind addr bs).2)

/-- Where the search begins: the nodes up to `prev`, and the ones behind it. -/
def searchFrom (list : BList) (new : BNode) : List BNode × List BNode :=
  if list.nodes.getLast?.any (compareInodes flash new) then (list.nodes, [])
  else
    match list.listLast with
    | some addr =>
      if (list.nodes.find? fun b => b.addr = addr).any (compareInodes flash new) then
        splitBehind addr list.nodes
      else ([], list.nodes)
    | none => ([], list.nodes)

/-- `insert_node`, of a node that is found at `datacrc` in memory; without memory the list stays. -/
def insertNode (list : BList) (offset : ℕ) (memory : Option ℕ) : BList :=
  match memory with
  | none => list
  | some datacrc =>
    let new : BNode := ⟨list.listCount, offset, datacrc⟩
    let start := searchFrom flash list new
    let front := start.1 ++ start.2.takeWhile (compareInodes flash new)
    match start.2.dropWhile (compareInodes flash new) with
    | [] => { list with nodes := front ++ [new], listCount := list.listCount + 1 }
    | b :: bs => ⟨front ++ new :: b :: bs, front.getLast?.map BNode.addr, list.listCount + 1⟩

/-! ## Reading -/

variable (D : Decompressors)

/-- The first loop of `jffs2_1pass_read_inode`: `totalSize` and `latestVersion`. -/
def findSize (inode : ℕ) (nodes : List BNode) : ℕ × ℕ :=
  nodes.foldl (fun r b =>
    if inode = (flash b.offset).ino then
      if r.2 ≤ (flash b.offset).version then ((flash b.offset).isize, (flash b.offset).version)
      else r
    else r) (0, 0)

/-- The bytes at `lDest`, a 32-bit address. -/
def copyOut (mem : ℕ → UInt8) (lDest : ℕ) : List UInt8 → ℕ → UInt8
  | [] => mem
  | b :: bs => copyOut (Function.update mem lDest b) ((lDest + 1) % 2 ^ 32) bs

/-- The node with its data checked, if that was not done before. -/
def checked (b : BNode) : BNode :=
  if b.datacrc = crcUnknown then
    { b with datacrc := if dataCrcOk (flash b.offset) then crcOk else crcBad }
  else b

/-- The second loop: the nodes, with their checks, the memory, and whether the end was reached. -/
def readLoop (inode : ℕ) (dest : Option ℕ) (totalSize : ℕ) :
    (ℕ → UInt8) → List BNode → List BNode × (ℕ → UInt8) × Bool
  | mem, [] => ([], mem, true)
  | mem, b :: bs =>
    if inode = (flash b.offset).ino then
      match dest with
      | none =>
        let r := readLoop inode dest totalSize mem bs
        (b :: r.1, r.2)
      | some dst =>
        if totalSize < (flash b.offset).offset then
          let r := readLoop inode dest totalSize mem bs
          (b :: r.1, r.2)
        else if (checked flash b).datacrc = crcBad then
          let r := readLoop inode dest totalSize mem bs
          (checked flash b :: r.1, r.2)
        else
          match decompressed D (flash b.offset) with
          | none => (checked flash b :: bs, mem, false)
          | some bytes =>
            let r := readLoop inode dest totalSize
              (copyOut mem ((dst + (flash b.offset).offset) % 2 ^ 32) bytes) bs
            (checked flash b :: r.1, r.2)
    else
      let r := readLoop inode dest totalSize mem bs
      (b :: r.1, r.2)

/-- A `u32` as a `long`. -/
def asLong (n : ℕ) : ℤ := (n : ℤ).bmod (2 ^ 32)

/-- `jffs2_1pass_read_inode`: the list, the memory, and the value that is returned.  A `dest` of 0
is no destination. -/
def readInode (list : BList) (inode dest : ℕ) (mem : ℕ → UInt8) : BList × (ℕ → UInt8) × ℤ :=
  let totalSize := (findSize flash inode list.nodes).1
  let r := readLoop flash D inode (if dest = 0 then none else some dest) totalSize mem list.nodes
  ({ list with nodes := r.1 }, r.2.1, if r.2.2 then asLong totalSize else -1)

/-! ## The order of the list -/

variable {flash}

/-- The nodes are in the order of their versions. -/
def Sorted (flash : ℕ → RawInode) (nodes : List BNode) : Prop :=
  nodes.Pairwise fun b b' => (flash b.offset).version ≤ (flash b'.offset).version

theorem compareInodes_iff {new old : BNode} : compareInodes flash new old = true ↔
    (flash old.offset).version < (flash new.offset).version :=
  decide_eq_true_iff

theorem splitBehind_spec {addr : ℕ} {l : List BNode} {b : BNode}
    (h : (l.find? fun b => b.addr = addr) = some b) :
    (splitBehind addr l).1 ++ (splitBehind addr l).2 = l ∧
      ∃ front, (splitBehind addr l).1 = front ++ [b] := by
  induction l with
  | nil => exact nomatch h
  | cons c l ih =>
    rw [splitBehind]
    by_cases hc : c.addr = addr
    · rw [List.find?_cons, show decide (c.addr = addr) = true from decide_eq_true hc] at h
      obtain rfl := Option.some.inj h
      rw [if_pos hc]
      exact ⟨rfl, [], rfl⟩
    · rw [List.find?_cons, show decide (c.addr = addr) = false from decide_eq_false hc] at h
      obtain ⟨happend, front, hfront⟩ := ih h
      rw [if_neg hc]
      exact ⟨congrArg (List.cons c) happend, c :: front, congrArg (List.cons c) hfront⟩

theorem newer_of_newer_last {front : List BNode} {last new : BNode}
    (hsorted : Sorted flash (front ++ [last])) (hnew : compareInodes flash new last = true) :
    ∀ b ∈ front ++ [last], compareInodes flash new b = true := by
  intro b hb
  rw [compareInodes_iff] at hnew ⊢
  rcases List.mem_append.mp hb with hfront | hlast
  · have hle := (List.pairwise_append.mp hsorted).2.2 b hfront last (List.mem_singleton_self last)
    omega
  · rw [List.mem_singleton.mp hlast]
    exact hnew

theorem searchFrom_spec {list : BList} (hsorted : Sorted flash list.nodes) (new : BNode) :
    (searchFrom flash list new).1 ++ (searchFrom flash list new).2 = list.nodes ∧
      ∀ b ∈ (searchFrom flash list new).1, compareInodes flash new b = true := by
  have hhead : ([] : List BNode) ++ list.nodes = list.nodes ∧
      ∀ b ∈ ([] : List BNode), compareInodes flash new b = true :=
    ⟨rfl, fun b hb => absurd hb List.not_mem_nil⟩
  rw [searchFrom]
  split_ifs with htail
  · obtain ⟨last, hlast, hnew⟩ := (Option.any_eq_true _ _).mp htail
    obtain ⟨front, hfront⟩ := List.getLast?_eq_some_iff.mp hlast
    refine ⟨List.append_nil _, ?_⟩
    rw [hfront] at hsorted ⊢
    exact newer_of_newer_last hsorted hnew
  · split
    · next addr _ =>
      split_ifs with hlast
      · obtain ⟨b, hb, hnew⟩ := (Option.any_eq_true _ _).mp hlast
        obtain ⟨happend, front, hfront⟩ := splitBehind_spec hb
        refine ⟨happend, ?_⟩
        rw [hfront]
        refine newer_of_newer_last ?_ hnew
        rw [← happend, hfront] at hsorted
        exact (List.pairwise_append.mp hsorted).1
      · exact hhead
    · exact hhead

theorem insertNode_split {list : BList} (hsorted : Sorted flash list.nodes) (offset datacrc : ℕ) :
    ∃ front rest, list.nodes = front ++ rest ∧
      (insertNode flash list offset (some datacrc)).nodes =
        front ++ ⟨list.listCount, offset, datacrc⟩ :: rest ∧
      (∀ b ∈ front, (flash b.offset).version < (flash offset).version) ∧
      ∀ b ∈ rest, (flash offset).version ≤ (flash b.offset).version := by
  generalize hnew : (⟨list.listCount, offset, datacrc⟩ : BNode) = new
  have hoffset : new.offset = offset := by rw [← hnew]
  obtain ⟨hnodes, hfront⟩ := searchFrom_spec hsorted new
  have hsplit := List.takeWhile_append_dropWhile (p := compareInodes flash new)
    (l := (searchFrom flash list new).2)
  refine ⟨(searchFrom flash list new).1 ++
    (searchFrom flash list new).2.takeWhile (compareInodes flash new),
    (searchFrom flash list new).2.dropWhile (compareInodes flash new), ?_, ?_, ?_, ?_⟩
  · rw [List.append_assoc, hsplit, hnodes]
  · rw [insertNode, hnew]
    split
    · next hnil => rw [hnil]
    · next b bs hcons => rw [hcons]
  · intro b hb
    rw [← hoffset, ← compareInodes_iff]
    rcases List.mem_append.mp hb with hb | hb
    · exact hfront b hb
    · exact List.mem_takeWhile_imp hb
  · have hhead := List.head?_dropWhile_not (compareInodes flash new)
      (searchFrom flash list new).2
    have hrest : Sorted flash
        ((searchFrom flash list new).2.dropWhile (compareInodes flash new)) := by
      rw [← hnodes, ← hsplit] at hsorted
      exact (List.pairwise_append.mp (List.pairwise_append.mp hsorted).2.1).2.1
    generalize (searchFrom flash list new).2.dropWhile (compareInodes flash new) = rest
      at hhead hrest
    cases rest with
    | nil => exact fun b hb => absurd hb List.not_mem_nil
    | cons c rest =>
      have hc : (flash offset).version ≤ (flash c.offset).version := by
        rw [← hoffset]
        refine Nat.le_of_not_lt fun hlt => ?_
        exact Bool.false_ne_true (hhead.symm.trans (compareInodes_iff.mpr hlt))
      refine List.forall_mem_cons.mpr ⟨hc, fun b hb => hc.trans ?_⟩
      exact (List.pairwise_cons.mp hrest).1 b hb

theorem insertNode_sorted {list : BList} (hsorted : Sorted flash list.nodes) (offset : ℕ)
    (memory : Option ℕ) : Sorted flash (insertNode flash list offset memory).nodes := by
  cases memory with
  | none => exact hsorted
  | some datacrc =>
    obtain ⟨front, rest, hnodes, hinsert, hfront, hrest⟩ :=
      insertNode_split hsorted offset datacrc
    rw [hnodes] at hsorted
    rw [hinsert]
    obtain ⟨hf, hr, hacross⟩ := List.pairwise_append.mp hsorted
    refine List.pairwise_append.mpr ⟨hf, List.pairwise_cons.mpr ⟨hrest, hr⟩, fun b hb b' hb' => ?_⟩
    rcases List.mem_cons.mp hb' with rfl | hb'
    · exact (hfront b hb).le
    · exact hacross b hb b' hb'

end Jffs2
end EmevBsp
