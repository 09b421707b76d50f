import EmevBsp.Jffs2.Fragments
import EmevBsp.LibGeneric.String
import EmevBsp.Library.CString
import Mathlib.Data.List.Induction
import Mathlib.Data.List.Pairwise

/-!
# `fs/jffs2/jffs2_1pass.c`: the inode of a name

A name that was created, removed and created again has an entry of its own for each of these, in the
order in which the scan found them, or sorted (`CONFIG_SYS_JFFS2_SORT_FRAGMENTS`).  Of the entries
of a name the one with the highest version counts, and an entry with inode 0 says that the name was
removed.

`jffs2_1pass_find_inode` looks for the highest version, but passes over the entries with inode 0.
So a removal is not seen.  The comparison for the sorted list is meant to mark the older one of two
entries as dead; it does so in a copy on its stack, and the entry on the flash stays what it is.

* `compareDirents`, `insertDirent`, `findInode`: the functions of the source.
* `Resolves`: what should be found.
* `resolves_iff`: **exactly when the right inode is found**.
* `offsets_insertDirents`: the list holds what was found, sorted or not.
* `not_resolves`: a file that was removed.
-/

namespace EmevBsp
namespace Jffs2

/-! ## The entries of a directory -/

/-- `struct jffs2_raw_dirent`, with the bytes behind it. -/
structure RawDirent where
  pino : BitVec 32
  version : BitVec 32
  ino : BitVec 32
  nsize : UInt8
  name : ℕ → UInt8

/-- `compare_dirents`: the result, and the copy of the old entry.  The copies have no room for the
names; what is compared is what stands behind them on the stack. -/
def compareDirents (behindNew behindOld : ℕ → UInt8) (jNew jOld : RawDirent) : Bool × RawDirent :=
  let cmp := strncmp behindNew behindOld jNew.nsize.toNat
  if jNew.pino ≠ jOld.pino then (decide (jOld.pino < jNew.pino), jOld)
  else if jNew.nsize ≠ jOld.nsize then (decide (jOld.nsize < jNew.nsize), jOld)
  else if cmp ≠ 0 then (decide (0 < cmp), jOld)
  else if jOld.version < jNew.version then (true, { jOld with ino := 0 })
  else (false, jOld)

variable (flash : ℕ → RawDirent)

/-- The entries in front of which a new one is put, when the list is sorted; `stack` is what stands
behind the two copies. -/
def newer (stack : BNode → BNode → (ℕ → UInt8) × (ℕ → UInt8)) (new old : BNode) : Bool :=
  (compareDirents (stack new old).1 (stack new old).2 (flash new.offset) (flash old.offset)).1

/-- Where the search for the place begins: the nodes up to `prev`, and the ones behind it. -/
def placeFrom (compare : BNode → BNode → Bool) (list : BList) (new : BNode) :
    List BNode × List BNode :=
  if list.nodes.getLast?.any (compare new) then (list.nodes, [])
  else
    match list.listLast with
    | some addr =>
      if (list.nodes.find? fun b => b.addr = addr).any (compare new) then
        splitBehind addr list.nodes
      else ([], list.nodes)
    | none => ([], list.nodes)

/-- `insert_node`, into the list of the entries; `compare` is `none` when it is not sorted. -/
def insertDirent (compare : Option (BNode → BNode → Bool)) (list : BList) (offset datacrc : ℕ) :
    BList :=
  let new : BNode := ⟨list.listCount, offset, datacrc⟩
  match compare with
  | none => { list with nodes := list.nodes ++ [new], listCount := list.listCount + 1 }
  | some compare =>
    let start := placeFrom compare list new
    let front := start.1 ++ start.2.takeWhile (compare new)
    match start.2.dropWhile (compare new) with
    | [] => { list with nodes := front ++ [new], listCount := list.listCount + 1 }
    | b :: bs => ⟨front ++ new :: b :: bs, front.getLast?.map BNode.addr, list.listCount + 1⟩

/-- The bytes of a string, from a pointer to it on. -/
def stringBytes (s : CString) (i : ℕ) : UInt8 := s.bytes.getD i 0

/-- The test of an entry. -/
def isMatch (name : CString) (pino : BitVec 32) (jDir : RawDirent) : Prop :=
  pino = jDir.pino ∧ name.length = jDir.nsize.toNat ∧ jDir.ino ≠ 0 ∧
    strncmp jDir.name (stringBytes name) name.length = 0

instance (name : CString) (pino : BitVec 32) (jDir : RawDirent) :
    Decidable (isMatch name pino jDir) := inferInstanceAs (Decidable (_ ∧ _))

/-- One round of the loop: `inode` and `version`. -/
def findRound (name : CString) (pino : BitVec 32) (r : BitVec 32 × BitVec 32) (b : BNode) :
    BitVec 32 × BitVec 32 :=
  if isMatch name pino (flash b.offset) then
    if (flash b.offset).version < r.2 then r
    else ((flash b.offset).ino, (flash b.offset).version)
  else r

/-- `jffs2_1pass_find_inode` -/
def findInode (name : CString) (pino : BitVec 32) (nodes : List BNode) : BitVec 32 :=
  (nodes.foldl (findRound flash name pino) (0, 0)).1

/-! ## What should be found -/

/-- An entry of this name in this directory. -/
def Named (name : CString) (pino : BitVec 32) (jDir : RawDirent) : Prop :=
  jDir.pino = pino ∧ jDir.nsize.toNat = name.length ∧
    ∀ i < name.length, jDir.name i = stringBytes name i

/-- The newest entry of a name. -/
structure NewestDirent (name : CString) (pino : BitVec 32) (nodes : List BNode) (b : BNode) : Prop where
  mem : b ∈ nodes
  named : Named name pino (flash b.offset)
  newest : ∀ b' ∈ nodes, Named name pino (flash b'.offset) →
    (flash b'.offset).version ≤ (flash b.offset).version

/-- **The inode of the newest entry**, which is 0 when it is a removal; and 0 when there is none. -/
structure Resolves (name : CString) (pino : BitVec 32) (nodes : List BNode) (ino : BitVec 32) :
    Prop where
  newest : ∀ b, NewestDirent flash name pino nodes b → ino = (flash b.offset).ino
  none : (∀ b ∈ nodes, ¬Named name pino (flash b.offset)) → ino = 0

/-- The entries of one name have different versions. -/
def Versioned (nodes : List BNode) : Prop :=
  nodes.Pairwise fun b b' => ∀ name pino, Named name pino (flash b.offset) →
    Named name pino (flash b'.offset) → (flash b.offset).version ≠ (flash b'.offset).version

variable {flash} {name : CString} {pino : BitVec 32} {nodes : List BNode}

theorem isMatch_iff {jDir : RawDirent} :
    isMatch name pino jDir ↔ Named name pino jDir ∧ jDir.ino ≠ 0 := by
  have hbytes : strncmp jDir.name (stringBytes name) name.length = 0 ↔
      ∀ i < name.length, jDir.name i = stringBytes name i := by
    rw [strncmp_eq_zero_iff]
    refine ⟨fun h => ?_, fun h i hi _ => h i hi⟩
    -- a byte of the name is not the terminator
    intro i
    induction i using Nat.strong_induction_on with
    | _ i ih =>
      intro hi
      refine h i hi fun j hj => ?_
      have hjlen : j < name.bytes.length := hj.trans hi
      rw [ih j hj hjlen, stringBytes, List.getD_eq_getElem _ _ hjlen]
      exact CString.ne_zero_of_mem (List.getElem_mem hjlen)
  rw [isMatch, Named, hbytes]
  constructor
  · rintro ⟨hpino, hlen, hino, hname⟩
    exact ⟨⟨hpino.symm, hlen.symm, hname⟩, hino⟩
  · rintro ⟨⟨hpino, hlen, hname⟩, hino⟩
    exact ⟨hpino.symm, hlen.symm, hino, hname⟩

theorem findLoop_spec (flash : ℕ → RawDirent) (name : CString) (pino : BitVec 32)
    (nodes : List BNode) :
    (∀ b ∈ nodes, ¬isMatch name pino (flash b.offset)) ∧
        nodes.foldl (findRound flash name pino) (0, 0) = (0, 0) ∨
      ∃ b ∈ nodes, isMatch name pino (flash b.offset) ∧
        nodes.foldl (findRound flash name pino) (0, 0) =
          ((flash b.offset).ino, (flash b.offset).version) ∧
        ∀ b' ∈ nodes, isMatch name pino (flash b'.offset) →
          (flash b'.offset).version ≤ (flash b.offset).version := by
  induction nodes using List.reverseRecOn with
  | nil => exact Or.inl ⟨fun b hb => absurd hb List.not_mem_nil, rfl⟩
  | append_singleton nodes last ih =>
    rw [List.foldl_append, List.foldl_cons, List.foldl_nil, findRound]
    by_cases hlast : isMatch name pino (flash last.offset)
    · rw [if_pos hlast]
      refine Or.inr ?_
      rcases ih with ⟨hnone, hr⟩ | ⟨b, hb, hmatch, hr, hnewest⟩
      · refine ⟨last, List.mem_append_right _ (List.mem_singleton_self _), hlast, ?_, ?_⟩
        · rw [hr]
          exact if_neg BitVec.not_lt_zero
        · intro b' hb' hmatch'
          rcases List.mem_append.mp hb' with hb' | hb'
          · exact absurd hmatch' (hnone b' hb')
          · rw [List.mem_singleton.mp hb']
            exact BitVec.le_refl _
      · rw [hr]
        by_cases hold : (flash last.offset).version < (flash b.offset).version
        · refine ⟨b, List.mem_append_left _ hb, hmatch, if_pos hold, fun b' hb' hmatch' => ?_⟩
          rcases List.mem_append.mp hb' with hb' | hb'
          · exact hnewest b' hb' hmatch'
          · rw [List.mem_singleton.mp hb']
            exact BitVec.le_of_lt hold
        · have hle := BitVec.not_lt.mp hold
          refine ⟨last, List.mem_append_right _ (List.mem_singleton_self _), hlast, if_neg hold,
            fun b' hb' hmatch' => ?_⟩
          rcases List.mem_append.mp hb' with hb' | hb'
          · exact BitVec.le_trans (hnewest b' hb' hmatch') hle
          · rw [List.mem_singleton.mp hb']
            exact BitVec.le_refl _
    · rw [if_neg hlast]
      rcases ih with ⟨hnone, hr⟩ | ⟨b, hb, hmatch, hr, hnewest⟩
      · refine Or.inl ⟨fun b hb => ?_, hr⟩
        rcases List.mem_append.mp hb with hb | hb
        · exact hnone b hb
        · rwa [List.mem_singleton.mp hb]
      · refine Or.inr ⟨b, List.mem_append_left _ hb, hmatch, hr, fun b' hb' hmatch' => ?_⟩
        rcases List.mem_append.mp hb' with hb' | hb'
        · exact hnewest b' hb' hmatch'
        · rw [List.mem_singleton.mp hb'] at hmatch'
          exact absurd hmatch' hlast

theorem Versioned.eq (h : Versioned flash nodes) {b b' : BNode} (hb : b ∈ nodes) (hb' : b' ∈ nodes)
    (hn : Named name pino (flash b.offset)) (hn' : Named name pino (flash b'.offset))
    (heq : (flash b.offset).version = (flash b'.offset).version) : b = b' := by
  by_contra hne
  have hsymm : Std.Symm fun b b' : BNode => ∀ name pino, Named name pino (flash b.offset) →
      Named name pino (flash b'.offset) → (flash b.offset).version ≠ (flash b'.offset).version :=
    ⟨fun b b' h name pino hn hn' => (h name pino hn' hn).symm⟩
  exact List.Pairwise.forall h hb hb' hne name pino hn hn' heq

/-- **Exactly when the right inode is found**: when a name whose newest entry is a removal has no
entry with an inode. -/
theorem resolves_iff (flash : ℕ → RawDirent) (name : CString) (pino : BitVec 32)
    (nodes : List BNode) (hversions : Versioned flash nodes) :
    Resolves flash name pino nodes (findInode flash name pino nodes) ↔
      ∀ b, NewestDirent flash name pino nodes b → (flash b.offset).ino = 0 →
        ∀ b' ∈ nodes, Named name pino (flash b'.offset) → (flash b'.offset).ino = 0 := by
  rw [findInode]
  rcases findLoop_spec flash name pino nodes with
    ⟨hnone, hr⟩ | ⟨found, hfound, hmatch, hr, hnewest⟩
  · -- no entry has an inode
    have hremoved : ∀ b ∈ nodes, Named name pino (flash b.offset) → (flash b.offset).ino = 0 := by
      intro b hb hnamed
      by_contra hino
      exact hnone b hb (isMatch_iff.mpr ⟨hnamed, hino⟩)
    rw [hr]
    exact iff_of_true ⟨fun b hb => (hremoved b hb.mem hb.named).symm, fun _ => rfl⟩
      fun _ _ _ => hremoved
  · obtain ⟨hnamed, hino⟩ := isMatch_iff.mp hmatch
    rw [hr]
    constructor
    · intro h b hb hremoved
      exact absurd ((h.newest b hb).trans hremoved) hino
    · intro h
      refine ⟨fun b hb => ?_, fun hnone => absurd hnamed (hnone found hfound)⟩
      have hlive : (flash b.offset).ino ≠ 0 := fun hremoved =>
        hino (h b hb hremoved found hfound hnamed)
      have hversion := BitVec.le_antisymm (hb.newest found hfound hnamed)
        (hnewest b hb.mem (isMatch_iff.mpr ⟨hb.named, hlive⟩))
      rw [hversions.eq hfound hb.mem hnamed hb.named hversion]

/-! ## The list of the entries -/

theorem placeFrom_append (compare : BNode → BNode → Bool) (list : BList) (new : BNode) :
    (placeFrom compare list new).1 ++ (placeFrom compare list new).2 = list.nodes := by
  rw [placeFrom]
  split_ifs
  · exact List.append_nil _
  · split
    · split_ifs with hlast
      · obtain ⟨b, hb, -⟩ := (Option.any_eq_true _ _).mp hlast
        exact (splitBehind_spec hb).1
      · rfl
    · rfl

theorem insertDirent_perm (compare : Option (BNode → BNode → Bool)) (list : BList)
    (offset datacrc : ℕ) :
    (insertDirent compare list offset datacrc).nodes.Perm
      (⟨list.listCount, offset, datacrc⟩ :: list.nodes) := by
  cases compare with
  | none => exact List.perm_append_singleton _ _
  | some compare =>
    generalize hnew : (⟨list.listCount, offset, datacrc⟩ : BNode) = new
    have hsplit := List.takeWhile_append_dropWhile (p := compare new)
      (l := (placeFrom compare list new).2)
    have hnodes := placeFrom_append compare list new
    rw [← hsplit, ← List.append_assoc] at hnodes
    rw [insertDirent, hnew]
    split
    · next hnil =>
      rw [hnil, List.append_nil] at hnodes
      rw [hnodes]
      exact List.perm_append_singleton _ _
    · next b bs hcons =>
      rw [hcons] at hnodes
      rw [← hnodes]
      exact List.perm_middle

/-- The entries that a scan finds, one after the other. -/
def insertDirents (compare : Option (BNode → BNode → Bool)) (found : List (ℕ × ℕ)) : BList :=
  found.foldl (fun list f => insertDirent compare list f.1 f.2) emptyList

/-- **The list holds the entries that were found**, sorted or not. -/
theorem offsets_insertDirents (compare : Option (BNode → BNode → Bool)) (found : List (ℕ × ℕ)) :
    ((insertDirents compare found).nodes.map BNode.offset).Perm (found.map Prod.fst) := by
  induction found using List.reverseRecOn with
  | nil => exact .refl _
  | append_singleton found last ih =>
    rw [insertDirents, List.foldl_append, List.foldl_cons, List.foldl_nil, ← insertDirents,
      List.map_append]
    refine ((insertDirent_perm compare _ last.1 last.2).map BNode.offset).trans ?_
    rw [List.map_cons]
    exact (ih.cons _).trans (List.perm_append_singleton _ _).symm

/-! ## Two histories -/

/-- The entries of the name "a" in the root directory, by their versions. -/
def history (inodes : ℕ → BitVec 32) (offset : ℕ) : RawDirent :=
  ⟨1, BitVec.ofNat 32 offset, inodes offset, 1, fun _ => 0x61⟩

/-- "a" -/
def nameA : CString := ⟨[0x61], by decide⟩

/-- Removed with version 1, and created again with version 2: found. -/
theorem resolves_iff_created :
    Resolves (history fun offset => if offset = 2 then 7 else 0) nameA 1 [⟨0, 1, 0⟩, ⟨1, 2, 0⟩]
      (findInode (history fun offset => if offset = 2 then 7 else 0) nameA 1
        [⟨0, 1, 0⟩, ⟨1, 2, 0⟩]) := by
  refine (resolves_iff _ _ _ _ ?_).mpr fun b hb hremoved => ?_
  · refine List.pairwise_pair.mpr fun name pino _ _ => ?_
    decide
  · have hlast := hb.newest ⟨1, 2, 0⟩ (List.mem_pair.mpr (Or.inr rfl)) ⟨rfl, rfl, by decide⟩
    rcases List.mem_pair.mp hb.mem with rfl | rfl
    · exact absurd hlast (by decide)
    · exact absurd hremoved (by decide)

/-- **Created with version 1, and removed with version 2**: the inode is still found. -/
theorem not_resolves : ¬∀ flash name pino nodes, Versioned flash nodes →
    Resolves flash name pino nodes (findInode flash name pino nodes) := by
  intro h
  have hright := h (history fun offset => if offset = 1 then 7 else 0) nameA 1
    [⟨0, 1, 0⟩, ⟨1, 2, 0⟩] (List.pairwise_pair.mpr fun name pino _ _ => by decide)
  have hnewest : NewestDirent (history fun offset => if offset = 1 then 7 else 0) nameA 1
      [⟨0, 1, 0⟩, ⟨1, 2, 0⟩] ⟨1, 2, 0⟩ := by
    refine ⟨List.mem_pair.mpr (Or.inr rfl), ⟨rfl, rfl, by decide⟩, fun b hb _ => ?_⟩
    rcases List.mem_pair.mp hb with rfl | rfl
    · decide
    · decide
  exact absurd (hright.newest _ hnewest) (by decide)

end Jffs2
end EmevBsp
