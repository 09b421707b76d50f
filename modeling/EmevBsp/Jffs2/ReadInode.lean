import EmevBsp.Jffs2.Fragments
import Mathlib.Data.List.Induction

/-!
# What is read of an inode

The nodes of an inode are written over one another from the oldest to the newest.  So at each byte
stands what the newest node that covers it has there, of the nodes whose data were found good.

A node of a compression that is not known ends the read, which returns -1.  And a check of the data
counts as done when the memory of the `b_node` happens to say so; the nodes are taken to come from
memory that says `CRC_UNKNOWN`.
-/

namespace EmevBsp
namespace Jffs2

open Painting

variable {flash : ℕ → RawInode} {D : Decompressors}

/-! ## The size -/

theorem findSize_eq {inode : ℕ} {nodes : List BNode} (hsorted : Sorted flash nodes) :
    findSize flash inode nodes =
      match (nodes.filter fun b => inode = (flash b.offset).ino).getLast? with
      | some b => ((flash b.offset).isize, (flash b.offset).version)
      | none => (0, 0) := by
  induction nodes using List.reverseRecOn with
  | nil => rfl
  | append_singleton nodes b ih =>
    obtain ⟨hnodes, -, hlast⟩ := List.pairwise_append.mp hsorted
    have hold := ih hnodes
    rw [findSize] at hold ⊢
    rw [List.foldl_append, hold, List.filter_append, List.foldl_cons, List.foldl_nil]
    by_cases hino : inode = (flash b.offset).ino
    · have hfilter : [b].filter (fun b => decide (inode = (flash b.offset).ino)) = [b] :=
        List.filter_cons_of_pos (decide_eq_true hino)
      rw [if_pos hino, hfilter, List.getLast?_concat, if_pos]
      split
      · next c hc =>
        have hmem := List.mem_of_getLast? hc
        exact hlast c (List.mem_filter.mp hmem).1 b (List.mem_singleton_self b)
      · exact Nat.zero_le _
    · have hfilter : [b].filter (fun b => decide (inode = (flash b.offset).ino)) = [] :=
        List.filter_cons_of_neg (by simpa using hino)
      rw [if_neg hino, hfilter, List.append_nil]

/-- No two nodes of one inode have the same version. -/
def Distinct (flash : ℕ → RawInode) (nodes : List BNode) : Prop :=
  nodes.Pairwise fun b b' =>
    (flash b.offset).ino = (flash b'.offset).ino →
      (flash b.offset).version ≠ (flash b'.offset).version

theorem Distinct.older {nodes : List BNode} (hdistinct : Distinct flash nodes)
    (hsorted : Sorted flash nodes) : nodes.Pairwise fun b b' =>
      (flash b.offset).ino = (flash b'.offset).ino →
        (flash b.offset).version < (flash b'.offset).version :=
  (hdistinct.and hsorted).imp fun h hino => Nat.lt_of_le_of_ne h.2 (h.1 hino)

theorem findSize_newest {inode : ℕ} {nodes : List BNode} (hsorted : Sorted flash nodes)
    (hdistinct : Distinct flash nodes) {newest : BNode} (hmem : newest ∈ nodes)
    (hino : inode = (flash newest.offset).ino)
    (hmax : ∀ b ∈ nodes, inode = (flash b.offset).ino →
      (flash b.offset).version ≤ (flash newest.offset).version) :
    (findSize flash inode nodes).1 = (flash newest.offset).isize := by
  obtain ⟨front, rest, rfl⟩ := List.append_of_mem hmem
  have holder := (List.pairwise_append.mp (hdistinct.older hsorted)).2.1
  have hrest : ∀ b ∈ rest, ¬ inode = (flash b.offset).ino := by
    intro b hb hsame
    have hlt := (List.pairwise_cons.mp holder).1 b hb (hino.symm.trans hsame)
    have hle := hmax b (List.mem_append_right front (List.mem_cons_of_mem newest hb)) hsame
    omega
  have hfilter : (newest :: rest).filter (fun b => decide (inode = (flash b.offset).ino)) =
      [newest] := by
    rw [List.filter_cons, if_pos (decide_eq_true hino), List.filter_eq_nil_iff.mpr]
    exact fun b hb h => hrest b hb (of_decide_eq_true h)
  rw [findSize_eq hsorted, List.filter_append, hfilter, List.getLast?_concat]

/-! ## What is written -/

theorem copyOut_eq {mem : ℕ → UInt8} {lDest : ℕ} {bytes : List UInt8}
    (hfits : lDest + bytes.length ≤ 2 ^ 32) : copyOut mem lDest bytes = write mem lDest bytes := by
  induction bytes generalizing mem lDest with
  | nil => rfl
  | cons b bytes ih =>
    rw [List.length_cons] at hfits
    rw [copyOut, write]
    cases bytes with
    | nil => rfl
    | cons c bytes =>
      rw [List.length_cons] at hfits
      rw [Nat.mod_eq_of_lt (by omega), ih (by rw [List.length_cons]; omega)]

/-- A node that is looked at: of the inode, and not behind its end. -/
def Read (flash : ℕ → RawInode) (inode totalSize : ℕ) (b : BNode) : Prop :=
  inode = (flash b.offset).ino ∧ (flash b.offset).offset ≤ totalSize

instance (inode totalSize : ℕ) (b : BNode) : Decidable (Read flash inode totalSize b) :=
  inferInstanceAs (Decidable (_ ∧ _))

/-- What a node writes; nothing, if its data count as bad. -/
def written (flash : ℕ → RawInode) (D : Decompressors) (inode totalSize dst : ℕ) (b : BNode) :
    Option (ℕ × List UInt8) :=
  if Read flash inode totalSize b ∧ (checked flash b).datacrc ≠ crcBad then
    (decompressed D (flash b.offset)).map fun bytes => (dst + (flash b.offset).offset, bytes)
  else none

/-- A node that is read has a known compression, and its bytes have a place in memory. -/
def Placed (flash : ℕ → RawInode) (D : Decompressors) (dst : ℕ) (b : BNode) : Prop :=
  ∃ bytes, decompressed D (flash b.offset) = some bytes ∧
    bytes.length = (flash b.offset).dsize ∧
    dst + (flash b.offset).offset + (flash b.offset).dsize ≤ 2 ^ 32

/-- **What is written**: the nodes that are read and do not count as bad, in the order of the
list. -/
theorem readLoop_eq {inode totalSize dst : ℕ} {nodes : List BNode} (mem : ℕ → UInt8)
    (hplaced : ∀ b ∈ nodes, Read flash inode totalSize b → (checked flash b).datacrc ≠ crcBad →
      Placed flash D dst b) :
    (readLoop flash D inode (some dst) totalSize mem nodes).2 =
      (writeAll mem (nodes.filterMap (written flash D inode totalSize dst)), true) := by
  induction nodes generalizing mem with
  | nil => rfl
  | cons b nodes ih =>
    obtain ⟨hb, hnodes⟩ := List.forall_mem_cons.mp hplaced
    rw [readLoop]
    by_cases hino : inode = (flash b.offset).ino
    · rw [if_pos hino]
      dsimp only
      by_cases hbehind : totalSize < (flash b.offset).offset
      · have hnone : written flash D inode totalSize dst b = none :=
          if_neg fun h => Nat.not_le_of_lt hbehind h.1.2
        rw [if_pos hbehind, List.filterMap_cons_none hnone]
        exact ih mem hnodes
      · have hread : Read flash inode totalSize b := ⟨hino, Nat.le_of_not_lt hbehind⟩
        rw [if_neg hbehind]
        by_cases hbad : (checked flash b).datacrc = crcBad
        · have hnone : written flash D inode totalSize dst b = none := if_neg fun h => h.2 hbad
          rw [if_pos hbad, List.filterMap_cons_none hnone]
          exact ih mem hnodes
        · obtain ⟨bytes, hbytes, hlen, hfits⟩ := hb hread hbad
          have hsome : written flash D inode totalSize dst b =
              some (dst + (flash b.offset).offset, bytes) := by
            rw [written, if_pos ⟨hread, hbad⟩, hbytes]
            rfl
          have hcopy : copyOut mem ((dst + (flash b.offset).offset) % 2 ^ 32) bytes =
              write mem (dst + (flash b.offset).offset) bytes := by
            cases bytes with
            | nil => rfl
            | cons c bytes =>
              rw [← hlen, List.length_cons] at hfits
              rw [Nat.mod_eq_of_lt (by omega), copyOut_eq (by rw [List.length_cons]; omega)]
          rw [if_neg hbad, hbytes, List.filterMap_cons_some hsome]
          dsimp only
          rw [hcopy]
          exact ih _ hnodes
    · have hnone : written flash D inode totalSize dst b = none := if_neg fun h => hino h.1.1
      rw [if_neg hino, List.filterMap_cons_none hnone]
      exact ih mem hnodes

theorem readLoop_unknown {inode totalSize dst : ℕ} {nodes : List BNode} (mem : ℕ → UInt8)
    {b : BNode} (hmem : b ∈ nodes) (hread : Read flash inode totalSize b)
    (hgood : (checked flash b).datacrc ≠ crcBad) (hunknown : decompressed D (flash b.offset) = none) :
    (readLoop flash D inode (some dst) totalSize mem nodes).2.2 = false := by
  induction nodes generalizing mem with
  | nil => exact absurd hmem List.not_mem_nil
  | cons c nodes ih =>
    rw [readLoop]
    rcases List.mem_cons.mp hmem with rfl | hmem
    · rw [if_pos hread.1]
      dsimp only
      rw [if_neg (Nat.not_lt_of_le hread.2), if_neg hgood, hunknown]
    · split_ifs
      · exact ih mem hmem
      · exact ih mem hmem
      · split
        · rfl
        · exact ih _ hmem
      · exact ih mem hmem

theorem readLoop_none {inode totalSize : ℕ} (mem : ℕ → UInt8) (nodes : List BNode) :
    readLoop flash D inode none totalSize mem nodes = (nodes, mem, true) := by
  induction nodes with
  | nil => rfl
  | cons b nodes ih =>
    rw [readLoop, ih]
    split_ifs
    · rfl
    · rfl

theorem readLoop_nodes {inode totalSize : ℕ} (dest : Option ℕ) (mem : ℕ → UInt8)
    (nodes : List BNode) :
    List.Forall₂ (fun b b' => b' = b ∨ b' = checked flash b) nodes
      (readLoop flash D inode dest totalSize mem nodes).1 := by
  cases dest with
  | none =>
    rw [readLoop_none]
    exact List.forall₂_same.mpr fun _ _ => .inl rfl
  | some dst =>
    induction nodes generalizing mem with
    | nil => exact .nil
    | cons b nodes ih =>
      rw [readLoop]
      split_ifs
      · exact .cons (.inl rfl) (ih mem)
      · exact .cons (.inr rfl) (ih mem)
      · split
        · exact .cons (.inr rfl) (List.forall₂_same.mpr fun _ _ => .inl rfl)
        · exact .cons (.inr rfl) (ih _)
      · exact .cons (.inl rfl) (ih mem)

theorem mem_readLoop {inode totalSize : ℕ} {dest : Option ℕ} {mem : ℕ → UInt8}
    {nodes : List BNode} {b' : BNode}
    (hb' : b' ∈ (readLoop flash D inode dest totalSize mem nodes).1) :
    ∃ b ∈ nodes, b' = b ∨ b' = checked flash b := by
  have hnodes : List.Forall₂ _ nodes (readLoop flash D inode dest totalSize mem nodes).1 :=
    readLoop_nodes dest mem nodes
  generalize (readLoop flash D inode dest totalSize mem nodes).1 = nodes' at hnodes hb'
  induction hnodes with
  | nil => exact absurd hb' List.not_mem_nil
  | cons hb _ ih =>
    rcases List.mem_cons.mp hb' with rfl | hb'
    · exact ⟨_, List.mem_cons_self, hb⟩
    · obtain ⟨b, hmem, hsame⟩ := ih hb'
      exact ⟨b, List.mem_cons_of_mem _ hmem, hsame⟩

theorem checked_offset (b : BNode) : (checked flash b).offset = b.offset := by
  rw [checked]
  split_ifs
  all_goals rfl

theorem map_offset_readLoop {inode totalSize : ℕ} (dest : Option ℕ) (mem : ℕ → UInt8)
    (nodes : List BNode) :
    (readLoop flash D inode dest totalSize mem nodes).1.map BNode.offset =
      nodes.map BNode.offset := by
  have hnodes : List.Forall₂ _ nodes (readLoop flash D inode dest totalSize mem nodes).1 :=
    readLoop_nodes dest mem nodes
  generalize (readLoop flash D inode dest totalSize mem nodes).1 = nodes' at hnodes
  induction hnodes with
  | nil => rfl
  | cons hb _ ih =>
    rw [List.map_cons, List.map_cons, ih]
    rcases hb with rfl | rfl
    · rfl
    · rw [checked_offset]

/-- The check of a node is not done, or was done right. -/
def CrcRight (flash : ℕ → RawInode) (b : BNode) : Prop :=
  b.datacrc = crcUnknown ∨ b.datacrc = if dataCrcOk (flash b.offset) then crcOk else crcBad

theorem CrcRight.checked {b : BNode} (h : CrcRight flash b) : CrcRight flash (checked flash b) := by
  rw [Jffs2.checked]
  split_ifs with hunknown hok
  · exact .inr (by rw [if_pos hok])
  · exact .inr (by rw [if_neg hok])
  · exact h

theorem CrcRight.checked_ne_bad {b : BNode} (h : CrcRight flash b) :
    (Jffs2.checked flash b).datacrc ≠ crcBad ↔ dataCrcOk (flash b.offset) = true := by
  rw [Jffs2.checked]
  by_cases hunknown : b.datacrc = crcUnknown
  · rw [if_pos hunknown]
    split_ifs with hok
    · exact iff_of_true (show crcOk ≠ crcBad by decide) hok
    · exact iff_of_false (fun hne => hne rfl) hok
  · rw [if_neg hunknown, h.resolve_left hunknown]
    split_ifs with hok
    · exact iff_of_true (show crcOk ≠ crcBad by decide) hok
    · exact iff_of_false (fun hne => hne rfl) hok

/-! ## Insertions and reads -/

/-- What is done with the list. -/
inductive ScanStep where
  | insert (offset : ℕ) (memory : Option ℕ)
  | read (inode dest : ℕ) (mem : ℕ → UInt8)

variable (flash D)

/-- Insertions and reads in any order. -/
def scan : TransitionSystem BList ScanStep where
  init list := list = emptyList
  step list a list' :=
    match a with
    | .insert offset memory => list' = insertNode flash list offset memory
    | .read inode dest mem => list' = (readInode flash D list inode dest mem).1

/-- A node is put in once, from memory in which no check is noted. -/
def ScanOk (list : BList) : ScanStep → Prop
  | .insert offset memory =>
    (∀ datacrc ∈ memory, datacrc = crcUnknown) ∧
      ∀ b ∈ list.nodes, (flash b.offset).ino = (flash offset).ino →
        (flash b.offset).version ≠ (flash offset).version
  | .read .. => True

variable {flash D}

theorem sorted_iff_map {nodes : List BNode} : Sorted flash nodes ↔
    (nodes.map BNode.offset).Pairwise fun o o' => (flash o).version ≤ (flash o').version := by
  rw [List.pairwise_map]
  rfl

theorem distinct_iff_map {nodes : List BNode} : Distinct flash nodes ↔
    (nodes.map BNode.offset).Pairwise fun o o' =>
      (flash o).ino = (flash o').ino → (flash o).version ≠ (flash o').version := by
  rw [List.pairwise_map]
  rfl

theorem sorted_of_reachable {list : BList} (hs : (scan flash D).Reachable list) :
    Sorted flash list.nodes := by
  refine TransitionSystem.Reachable.invariant (I := fun list => Sorted flash list.nodes) ?_ ?_ hs
  · rintro _ rfl
    exact List.Pairwise.nil
  · intro list a list' hsorted hst
    cases a with
    | insert offset memory =>
      obtain rfl := hst
      exact insertNode_sorted hsorted offset memory
    | read inode dest mem =>
      obtain rfl := hst
      rw [sorted_iff_map] at hsorted ⊢
      show List.Pairwise _ ((readLoop flash D inode _ _ mem list.nodes).1.map BNode.offset)
      rw [map_offset_readLoop]
      exact hsorted

/-- What the condition on the insertions gives. -/
structure Scanned (flash : ℕ → RawInode) (list : BList) : Prop where
  sorted : Sorted flash list.nodes
  distinct : Distinct flash list.nodes
  right : ∀ b ∈ list.nodes, CrcRight flash b

theorem Scanned.insertNode {list : BList} (h : Scanned flash list) {offset : ℕ}
    {memory : Option ℕ} (hok : ScanOk flash list (.insert offset memory)) :
    Scanned flash (insertNode flash list offset memory) := by
  have hsorted := insertNode_sorted h.sorted offset memory
  cases memory with
  | none => exact h
  | some datacrc =>
    obtain rfl := hok.1 datacrc rfl
    obtain ⟨front, rest, hnodes, hinsert, -⟩ := insertNode_split h.sorted offset crcUnknown
    have hdistinct := h.distinct
    have hnew := hok.2
    have hright := h.right
    rw [hnodes] at hdistinct hnew hright
    refine ⟨hsorted, ?_, ?_⟩
    · obtain ⟨hf, hr, hacross⟩ := List.pairwise_append.mp hdistinct
      rw [hinsert]
      refine List.pairwise_append.mpr ⟨hf, List.pairwise_cons.mpr ⟨fun b hb hino heq => ?_, hr⟩,
        fun b hb b' hb' => ?_⟩
      · exact hnew b (List.mem_append_right front hb) hino.symm heq.symm
      · rcases List.mem_cons.mp hb' with rfl | hb'
        · exact hnew b (List.mem_append_left rest hb)
        · exact hacross b hb b' hb'
    · rw [hinsert]
      intro b hb
      rcases List.mem_append.mp hb with hb | hb
      · exact hright b (List.mem_append_left rest hb)
      · rcases List.mem_cons.mp hb with rfl | hb
        · exact .inl rfl
        · exact hright b (List.mem_append_right front hb)

theorem Scanned.readInode {list : BList} (h : Scanned flash list) (inode dest : ℕ)
    (mem : ℕ → UInt8) : Scanned flash (readInode flash D list inode dest mem).1 := by
  refine ⟨?_, ?_, ?_⟩
  · rw [sorted_iff_map]
    show List.Pairwise _ ((readLoop flash D inode _ _ mem list.nodes).1.map BNode.offset)
    rw [map_offset_readLoop]
    exact sorted_iff_map.mp h.sorted
  · rw [distinct_iff_map]
    show List.Pairwise _ ((readLoop flash D inode _ _ mem list.nodes).1.map BNode.offset)
    rw [map_offset_readLoop]
    exact distinct_iff_map.mp h.distinct
  · intro b' hb'
    obtain ⟨b, hb, rfl | rfl⟩ := mem_readLoop hb'
    · exact h.right _ hb
    · exact (h.right b hb).checked

theorem scanned {list : BList} (hs : ((scan flash D).restrict (ScanOk flash)).Reachable list) :
    Scanned flash list := by
  refine TransitionSystem.Reachable.invariant_restrict ?_ ?_ hs
  · rintro _ rfl
    exact ⟨List.Pairwise.nil, List.Pairwise.nil, fun b hb => absurd hb List.not_mem_nil⟩
  · intro list a list' h hok hst
    cases a with
    | insert offset memory =>
      obtain rfl := hst
      exact h.insertNode hok
    | read inode dest mem =>
      obtain rfl := hst
      exact h.readInode inode dest mem

/-! ## The newest node -/

/-- A node of the inode with good data covers a byte of the file. -/
def CoversByte (flash : ℕ → RawInode) (inode x : ℕ) (b : BNode) : Prop :=
  inode = (flash b.offset).ino ∧ dataCrcOk (flash b.offset) = true ∧
    (flash b.offset).offset ≤ x ∧ x < (flash b.offset).offset + (flash b.offset).dsize

/-- The newest node of the inode. -/
def Newest (flash : ℕ → RawInode) (inode : ℕ) (nodes : List BNode) (b : BNode) : Prop :=
  b ∈ nodes ∧ inode = (flash b.offset).ino ∧
    ∀ b' ∈ nodes, inode = (flash b'.offset).ino →
      (flash b'.offset).version ≤ (flash b.offset).version

/-- The newest node with good data that covers the byte. -/
def NewestAt (flash : ℕ → RawInode) (inode x : ℕ) (nodes : List BNode) (b : BNode) : Prop :=
  b ∈ nodes ∧ CoversByte flash inode x b ∧
    ∀ b' ∈ nodes, CoversByte flash inode x b' →
      (flash b'.offset).version ≤ (flash b.offset).version

/-- A node with good data that is read. -/
def Used (flash : ℕ → RawInode) (inode totalSize : ℕ) (b : BNode) : Prop :=
  Read flash inode totalSize b ∧ dataCrcOk (flash b.offset) = true

theorem byte_of_newestAt {list : BList} (h : Scanned flash list) {inode totalSize dst x : ℕ}
    {mem : ℕ → UInt8} (hx : x < totalSize)
    (hplaced : ∀ b ∈ list.nodes, Used flash inode totalSize b → Placed flash D dst b) {b : BNode}
    (hb : NewestAt flash inode x list.nodes b) :
    ∃ bytes, decompressed D (flash b.offset) = some bytes ∧
      some (writeAll mem (list.nodes.filterMap (written flash D inode totalSize dst)) (dst + x)) =
        bytes[x - (flash b.offset).offset]? := by
  obtain ⟨hmem, ⟨hino, hgood, hle, hlt⟩, hmax⟩ := hb
  have hread : Read flash inode totalSize b := ⟨hino, by omega⟩
  obtain ⟨bytes, hbytes, hlen, -⟩ := hplaced b hmem ⟨hread, hgood⟩
  refine ⟨bytes, hbytes, ?_⟩
  have hwritten : written flash D inode totalSize dst b =
      some (dst + (flash b.offset).offset, bytes) := by
    rw [written, if_pos ⟨hread, (h.right b hmem).checked_ne_bad.mpr hgood⟩, hbytes]
    rfl
  obtain ⟨front, rest, hnodes⟩ := List.append_of_mem hmem
  have holder := h.distinct.older h.sorted
  rw [hnodes] at holder
  rw [hnodes, List.filterMap_append, List.filterMap_cons_some hwritten, writeAll_last]
  · dsimp only
    rw [Nat.add_sub_add_left]
  · exact ⟨by dsimp only; omega, by dsimp only; omega⟩
  · intro w hw hcovers
    -- a later node of the inode is newer, and would be the newest one
    obtain ⟨c, hc, hcw⟩ := List.mem_filterMap.mp hw
    have hcmem : c ∈ list.nodes := by
      rw [hnodes]
      exact List.mem_append_right front (List.mem_cons_of_mem b hc)
    rw [written] at hcw
    split_ifs at hcw with hused
    obtain ⟨cbytes, hcbytes, rfl⟩ := Option.map_eq_some_iff.mp hcw
    have hcgood := (h.right c hcmem).checked_ne_bad.mp hused.2
    obtain ⟨bytes', hbytes', hclen, -⟩ := hplaced c hcmem ⟨hused.1, hcgood⟩
    obtain rfl := Option.some.inj (hcbytes.symm.trans hbytes')
    obtain ⟨hcle, hclt⟩ := hcovers
    dsimp only at hcle hclt
    have hnewer := (List.pairwise_cons.mp (List.pairwise_append.mp holder).2.1).1 c hc
      (hino.symm.trans hused.1.1)
    have hno := hmax c hcmem ⟨hused.1.1, hcgood, by omega, by omega⟩
    omega

/-- **What is read of an inode**: the list is always in the order of the versions; and with nodes
from memory in which no check is noted, the size of the newest node is returned, and at each byte
below it stands the one of the newest node with good data that covers it, unless a node with good
data has a compression that is not known. -/
theorem readInode_newest {list : BList} (hs : (scan flash D).Reachable list) :
    Sorted flash list.nodes ∧ (((scan flash D).restrict (ScanOk flash)).Reachable list →
      ∀ inode newest, Newest flash inode list.nodes newest → ∀ (mem : ℕ → UInt8),
        (readInode flash D list inode 0 mem).2.2 = asLong (flash newest.offset).isize ∧
        ∀ dst ≠ 0, ((∃ b ∈ list.nodes, Used flash inode (flash newest.offset).isize b ∧
            decompressed D (flash b.offset) = none) →
          (readInode flash D list inode dst mem).2.2 = -1) ∧
        ((∀ b ∈ list.nodes, Used flash inode (flash newest.offset).isize b →
            Placed flash D dst b) →
          (readInode flash D list inode dst mem).2.2 = asLong (flash newest.offset).isize ∧
            ∀ x < (flash newest.offset).isize, ∀ b, NewestAt flash inode x list.nodes b →
              ∃ bytes, decompressed D (flash b.offset) = some bytes ∧
                some ((readInode flash D list inode dst mem).2.1 (dst + x)) =
                  bytes[x - (flash b.offset).offset]?)) := by
  refine ⟨sorted_of_reachable hs, fun hok inode newest hnewest mem => ?_⟩
  have h := scanned hok
  have hsize := findSize_newest h.sorted h.distinct hnewest.1 hnewest.2.1 hnewest.2.2
  simp only [readInode, hsize]
  refine ⟨?_, fun dst hdst => ⟨?_, fun hplaced => ?_⟩⟩
  · rw [if_pos trivial, readLoop_none, if_pos rfl]
  · rintro ⟨b, hmem, ⟨hread, hgood⟩, hunknown⟩
    rw [if_neg hdst, readLoop_unknown mem hmem hread
      ((h.right b hmem).checked_ne_bad.mpr hgood) hunknown, if_neg Bool.false_ne_true]
  · have hplaced' : ∀ b ∈ list.nodes, Read flash inode (flash newest.offset).isize b →
        (checked flash b).datacrc ≠ crcBad → Placed flash D dst b :=
      fun b hmem hread hne => hplaced b hmem ⟨hread, (h.right b hmem).checked_ne_bad.mp hne⟩
    rw [if_neg hdst, readLoop_eq mem hplaced']
    exact ⟨if_pos rfl, fun x hx b hb => byte_of_newestAt h hx hplaced hb⟩

/-! ## Two flashes -/

/-- No decompressor gives anything. -/
def noDecompressors : Decompressors where
  rtime _ _ _ := []
  dynrubin _ _ _ := []
  zlib _ _ _ := []
  lzo _ _ _ := []
  lzari _ _ _ := []
  lzoLzari := false

/-- A node of inode 1, in a file of four bytes. -/
def nodeOf (version offset compr : ℕ) (data : List UInt8) : RawInode where
  ino := 1
  version := version
  isize := 4
  offset := offset
  csize := data.length
  dsize := data.length
  compr := compr
  dataCrc := crc32NoComp 0 data
  data := data

/-- Four bytes, and two newer ones in the middle. -/
def twoNodes (offset : ℕ) : RawInode :=
  if offset = 0 then nodeOf 1 0 0 [1, 2, 3, 4] else nodeOf 2 1 0 [8, 9]

/-- The newer node is found first. -/
def twoScanned : BList :=
  insertNode twoNodes (insertNode twoNodes emptyList 1 (some crcUnknown)) 0 (some crcUnknown)

theorem readInode_newest_two : Sorted twoNodes twoScanned.nodes ∧
    (readInode twoNodes noDecompressors twoScanned 1 4096 fun _ => 0).2.2 = 4 ∧
      some ((readInode twoNodes noDecompressors twoScanned 1 4096 fun _ => 0).2.1 (4096 + 2)) =
        some 9 := by
  have hreach : ((scan twoNodes noDecompressors).restrict (ScanOk twoNodes)).Reachable
      twoScanned := by
    refine .step (a := .insert 0 (some crcUnknown))
      (.step (a := .insert 1 (some crcUnknown)) (.init rfl) ⟨⟨?_, ?_⟩, rfl⟩) ⟨⟨?_, ?_⟩, rfl⟩
    · exact fun datacrc hmem => (Option.some.inj hmem).symm
    · exact fun b hb => absurd hb List.not_mem_nil
    · exact fun datacrc hmem => (Option.some.inj hmem).symm
    · intro b hb
      rw [List.mem_singleton.mp hb]
      decide
  have hnodes : twoScanned.nodes = [⟨1, 0, 0⟩, ⟨0, 1, 0⟩] := rfl
  have hall : ∀ {P : BNode → Prop}, P ⟨1, 0, 0⟩ → P ⟨0, 1, 0⟩ → ∀ b ∈ twoScanned.nodes, P b := by
    intro P hfirst hsecond b hb
    rw [hnodes] at hb
    rcases List.mem_cons.mp hb with rfl | hb
    · exact hfirst
    · rw [List.mem_singleton.mp hb]
      exact hsecond
  have hlast : (⟨0, 1, 0⟩ : BNode) ∈ twoScanned.nodes := List.mem_cons_of_mem _ List.mem_cons_self
  obtain ⟨hsorted, hread⟩ := readInode_newest (TransitionSystem.reachable_of_restrict hreach)
  have hnewest : Newest twoNodes 1 twoScanned.nodes ⟨0, 1, 0⟩ :=
    ⟨hlast, rfl, hall (fun _ => by decide) fun _ => by decide⟩
  obtain ⟨-, hused⟩ := (hread hreach 1 ⟨0, 1, 0⟩ hnewest fun _ => 0).2 4096 (by decide)
  obtain ⟨hret, hbytes⟩ := hused (hall (fun _ => ⟨_, rfl, rfl, by decide⟩)
    fun _ => ⟨_, rfl, rfl, by decide⟩)
  obtain ⟨bytes, hdec, hbyte⟩ := hbytes 2 (by decide) ⟨0, 1, 0⟩
    ⟨hlast, ⟨rfl, by decide +kernel, by decide, by decide⟩,
      hall (fun _ => by decide) fun _ => by decide⟩
  obtain rfl := Option.some.inj hdec
  have hfour : asLong 4 = 4 := by decide +kernel
  exact ⟨hsorted, hret.trans hfour, hbyte⟩

/-- A node whose compression is `JFFS2_COMPR_RUBINMIPS`. -/
def unknownNode (_ : ℕ) : RawInode := nodeOf 1 0 3 [1, 2, 3, 4]

/-- **The read of an unknown compression** returns -1, and not the size. -/
theorem not_readInode_newest :
    ¬ ∀ flash D list, ((scan flash D).restrict (ScanOk flash)).Reachable list →
      ∀ inode newest, Newest flash inode list.nodes newest → ∀ dst ≠ 0, ∀ mem : ℕ → UInt8,
        (readInode flash D list inode dst mem).2.2 = asLong (flash newest.offset).isize := by
  intro hsize
  have hreach : ((scan unknownNode noDecompressors).restrict (ScanOk unknownNode)).Reachable
      (insertNode unknownNode emptyList 0 (some crcUnknown)) := by
    refine .step (a := .insert 0 (some crcUnknown)) (.init rfl) ⟨⟨?_, ?_⟩, rfl⟩
    · exact fun datacrc hmem => (Option.some.inj hmem).symm
    · exact fun b hb => absurd hb List.not_mem_nil
  have hnewest : Newest unknownNode 1
      (insertNode unknownNode emptyList 0 (some crcUnknown)).nodes ⟨0, 0, 0⟩ :=
    ⟨List.mem_singleton_self _, rfl, fun b hb _ => by rw [List.mem_singleton.mp hb]⟩
  have hfour := hsize _ _ _ hreach 1 _ hnewest 4096 (by decide) fun _ => 0
  revert hfour
  decide +kernel

end Jffs2
end EmevBsp
