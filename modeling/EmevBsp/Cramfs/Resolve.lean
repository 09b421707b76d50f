import EmevBsp.LibGeneric.String
import EmevBsp.Library.CString
import EmevBsp.Library.Words
import Mathlib.Algebra.Group.Nat.Defs
import Mathlib.Data.List.GetD

/-!
# `fs/cramfs/cramfs.c`: `cramfs_resolve`

A directory is a row of inodes, each followed by its name, which is padded with zeros.
`cramfs_resolve` goes through a directory until `strncmp` finds a name at the beginning of the
current component of the path, and goes on with the next component in the directory of that entry.
The components are what `strtok` returns, call by call; behind the last one it returns `NULL`.

Beside the bytes stands the tree of what they hold.
-/

namespace EmevBsp
namespace Cramfs

open Words

/-! ## Inodes -/

/-- A little-endian word. -/
def word (img : ℕ → UInt8) (p : ℕ) : ℕ :=
  (img p).toNat + 2 ^ 8 * (img (p + 1)).toNat + 2 ^ 16 * (img (p + 2)).toNat +
    2 ^ 24 * (img (p + 3)).toNat

/-- `struct cramfs_inode`, as far as a lookup reads it. -/
structure Inode where
  mode : ℕ
  size : ℕ
  namelen : ℕ
  offset : ℕ

/-- The inode at an address, counted from `begin`. -/
def inodeAt (img : ℕ → UInt8) (p : ℕ) : Inode where
  mode := word img p % 2 ^ 16
  size := word img (p + 4) % 2 ^ 24
  namelen := word img (p + 8) % 2 ^ 6
  offset := word img (p + 8) / 2 ^ 6

/-- `sizeof (struct cramfs_inode)`. -/
def inodeSize : ℕ := 12

def sIsDir (mode : ℕ) : Bool := mode &&& 0o170000 = 0o040000

def sIsReg (mode : ℕ) : Bool := mode &&& 0o170000 = 0o100000

/-! ## The functions of the source -/

/-- The loop that takes the padding off a name; 0 is a name of zeros only. -/
def nameLength (img : ℕ → UInt8) (name : ℕ) : ℕ → ℕ
  | 0 => 0
  | namelen + 1 => if img (name + namelen) ≠ 0 then namelen + 1 else nameLength img name namelen

/-- A string in memory. -/
def cString (s : List UInt8) : ℕ → UInt8 := fun i => s.getD i 0

/-- What the loop over a directory comes to: an entry, the end, a name of zeros only, or a
comparison with `NULL`. -/
inductive Scan where
  | hit (inodeoffset : ℕ)
  | absent
  | corrupt
  | missing
  deriving DecidableEq

/-- The loop of `cramfs_resolve`. -/
def scanDir (img : ℕ → UInt8) (filename : Option (List UInt8)) (offset size inodeoffset : ℕ) :
    Scan :=
  if inodeoffset < size then
    let namelen := (inodeAt img (offset + inodeoffset)).namelen <<< 2
    let name := offset + inodeoffset + inodeSize
    let length := nameLength img name namelen
    if length = 0 then .corrupt
    else
      match filename with
      | none => .missing
      | some filename =>
        if strncmp (cString filename) (fun i => img (name + i)) length = 0 then .hit inodeoffset
        else scanDir img (some filename) offset size (inodeoffset + inodeSize + namelen)
  else .absent
termination_by size - inodeoffset
decreasing_by
  rw [inodeSize]
  omega

/-- What `cramfs_resolve` comes to: it returns the place of an entry, 0 or -1, or it has used a
component that is not there. -/
inductive Outcome where
  | entry (place : ℕ)
  | absent
  | corrupt
  | missing
  deriving DecidableEq

/-- `cramfs_resolve`, with the components that are left. -/
def cramfsResolve (img : ℕ → UInt8) (raw : Bool) : List (List UInt8) → ℕ → ℕ → Outcome
  | [], offset, size =>
    match scanDir img none offset size 0 with
    | .corrupt => .corrupt
    | .missing => .missing
    | _ => .absent
  | filename :: rest, offset, size =>
    match scanDir img (some filename) offset size 0 with
    | .absent => .absent
    | .corrupt => .corrupt
    | .missing => .missing
    | .hit inodeoffset =>
      let inode := inodeAt img (offset + inodeoffset)
      if raw ∧ rest = [] then .entry (offset + inodeoffset)
      else if sIsDir inode.mode then cramfsResolve img raw rest (inode.offset <<< 2) inode.size
      else if sIsReg inode.mode then .entry (offset + inodeoffset)
      -- "unsupported file type"
      else .absent

/-- `/`, the separator of the components. -/
def isSlash (c : UInt8) : Bool := c = 47

/-- `strtok (s, "/")` of what `___strtok` points to: what it returns, and what it leaves. -/
def strtok : Option (List UInt8) → Option (List UInt8 × Option (List UInt8))
  | none => none
  | some s =>
    match s.dropWhile isSlash with
    | [] => none
    | sbegin => some (sbegin.takeWhile fun c => !isSlash c,
        (sbegin.dropWhile fun c => !isSlash c).tail?)

/-- What one call of `strtok` after the other returns, up to `NULL`. -/
def tokens : Option (List UInt8) → List (List UInt8)
  | none => []
  | some s => words isSlash s

/-- The components of a path. -/
def components (path : CString) : List (List UInt8) := tokens (some path.bytes)

/-- **One call of `strtok`** returns the first component that is left. -/
theorem tokens_eq (s : Option (List UInt8)) :
    tokens s = match strtok s with
      | none => []
      | some (token, rest) => token :: tokens rest := by
  cases s with
  | none => rfl
  | some s =>
    rw [tokens, strtok, ← words_dropWhile]
    cases hbegin : s.dropWhile isSlash with
    | nil => exact words_nil
    | cons c sbegin =>
      have hc : isSlash c = false := by
        have hhead := List.head_dropWhile_not isSlash (l := s) (by rw [hbegin]; simp)
        simpa only [hbegin, List.head_cons] using hhead
      dsimp only
      rw [words_cons hc]
      refine congrArg (List.cons _) ?_
      rcases dropWhile_not_eq (p := isSlash) (l := c :: sbegin) with hrest | ⟨d, send, hd, hrest⟩
      · rw [hrest]
        exact words_nil
      · rw [hrest]
        exact words_cons_sep hd send

/-! ## What an image holds -/

/-- An entry of a directory, with what is in it if it is a directory. -/
inductive Entry where
  | mk (place : ℕ) (name : List UInt8) (mode : ℕ) (children : List Entry)

namespace Entry

def place : Entry → ℕ
  | mk place _ _ _ => place

def name : Entry → List UInt8
  | mk _ name _ _ => name

def mode : Entry → ℕ
  | mk _ _ mode _ => mode

def children : Entry → List Entry
  | mk _ _ _ children => children

end Entry

/-- The bytes from a place on hold an inode and a name: the name is not empty and has no zero, and
it is padded with less than four of them. -/
structure HoldsName (img : ℕ → UInt8) (place : ℕ) (name : List UInt8) (mode : ℕ) : Prop where
  place_pos : 0 < place
  nonempty : name ≠ []
  no_zero : 0 ∉ name
  mode_eq : (inodeAt img place).mode = mode
  length_le : name.length ≤ (inodeAt img place).namelen <<< 2
  lt_length : (inodeAt img place).namelen <<< 2 < name.length + 4
  bytes : ∀ i (hi : i < name.length), img (place + inodeSize + i) = name[i]
  padding : ∀ i, name.length ≤ i → i < (inodeAt img place).namelen <<< 2 →
    img (place + inodeSize + i) = 0

mutual

/-- The image holds an entry, and everything in it. -/
def Entry.OnDisk (img : ℕ → UInt8) : Entry → Prop
  | .mk place name mode children =>
    HoldsName img place name mode ∧ (children.map Entry.name).Nodup ∧
      if sIsDir mode then
        DirOnDisk img ((inodeAt img place).offset <<< 2) (inodeAt img place).size children
      else children = []

/-- The image holds a directory: its entries stand one behind the other. -/
def DirOnDisk (img : ℕ → UInt8) (offset size : ℕ) : List Entry → Prop
  | [] => size = 0
  | e :: es =>
    e.place = offset ∧ e.OnDisk img ∧
      inodeSize + (inodeAt img offset).namelen <<< 2 ≤ size ∧
      DirOnDisk img (offset + inodeSize + (inodeAt img offset).namelen <<< 2)
        (size - (inodeSize + (inodeAt img offset).namelen <<< 2)) es

end

theorem Entry.onDisk_iff {img : ℕ → UInt8} (e : Entry) :
    e.OnDisk img ↔ HoldsName img e.place e.name e.mode ∧ (e.children.map Entry.name).Nodup ∧
      if sIsDir e.mode then
        DirOnDisk img ((inodeAt img e.place).offset <<< 2) (inodeAt img e.place).size e.children
      else e.children = [] := by
  cases e
  rw [Entry.OnDisk]
  rfl

/-! ## One directory -/

variable {img : ℕ → UInt8} {place : ℕ} {name : List UInt8} {mode : ℕ}

theorem HoldsName.nameLength_eq (h : HoldsName img place name mode) :
    nameLength img (place + inodeSize) ((inodeAt img place).namelen <<< 2) = name.length := by
  have hpos : 0 < name.length := List.length_pos_iff.mpr h.nonempty
  obtain ⟨k, hk⟩ := Nat.exists_eq_add_of_le h.length_le
  have hpadding := h.padding
  rw [hk] at hpadding ⊢
  clear hk
  induction k with
  | zero =>
    obtain ⟨n, hn⟩ := Nat.exists_eq_add_of_lt hpos
    have hlast : img (place + inodeSize + n) ≠ 0 := by
      rw [h.bytes n (by omega)]
      exact fun h0 => h.no_zero (h0 ▸ List.getElem_mem _)
    rw [Nat.add_zero, hn, Nat.zero_add, nameLength, if_pos hlast]
  | succ k ih =>
    rw [← Nat.add_assoc, nameLength,
      if_neg (not_not_intro (hpadding (name.length + k) (by omega) (by omega)))]
    exact ih fun i hlow hhigh => hpadding i hlow (by omega)

/-- **`strncmp` finds the name** at the beginning of a component. -/
theorem strncmp_name_eq_zero_iff {filename : List UInt8} (hfilename : 0 ∉ filename)
    (h : HoldsName img place name mode) :
    strncmp (cString filename) (fun i => img (place + inodeSize + i)) name.length = 0 ↔
      name <+: filename := by
  rw [strncmp_eq_zero_iff]
  have hread : ∀ i (hi : i < filename.length), cString filename i = filename[i] := fun i hi =>
    List.getD_eq_getElem _ _ hi
  constructor
  · intro hsame
    have hbytes : ∀ i (hi : i < name.length), ∃ hi' : i < filename.length,
        filename[i] = name[i] := by
      intro i hi
      induction i using Nat.strongRecOn with
      | ind i ih =>
        have hbefore : ∀ j < i, cString filename j ≠ 0 := by
          intro j hj
          obtain ⟨hj', _⟩ := ih j hj (by omega)
          rw [hread j hj']
          exact fun h0 => hfilename (h0 ▸ List.getElem_mem _)
        have hi' := hsame i hi hbefore
        rw [h.bytes i hi] at hi'
        by_cases hin : i < filename.length
        · exact ⟨hin, by rw [← hread i hin, hi']⟩
        · rw [cString, List.getD_eq_default _ _ (by omega)] at hi'
          exact absurd (hi' ▸ List.getElem_mem _) h.no_zero
    refine List.prefix_iff_eq_take.mpr (List.ext_getElem ?_ fun i hi _ => ?_)
    · rw [List.length_take]
      rcases Nat.eq_zero_or_pos name.length with hzero | hpos
      · omega
      · obtain ⟨hlast, _⟩ := hbytes (name.length - 1) (by omega)
        omega
    · obtain ⟨hi', hsame'⟩ := hbytes i hi
      rw [List.getElem_take, hsame']
  · rintro ⟨rest, rfl⟩ i hi _
    rw [hread i (by rw [List.length_append]; omega), List.getElem_append_left hi, h.bytes i hi]

/-- **The loop over a directory** comes to the first entry whose name is a prefix of the
component. -/
theorem scanDir_eq {filename : List UInt8} (hfilename : 0 ∉ filename) {offset size : ℕ}
    {es : List Entry} {inodeoffset : ℕ} (hle : inodeoffset ≤ size)
    (h : DirOnDisk img (offset + inodeoffset) (size - inodeoffset) es) :
    match es.find? fun e => e.name <+: filename with
    | none => scanDir img (some filename) offset size inodeoffset = .absent
    | some e => ∃ found, scanDir img (some filename) offset size inodeoffset = .hit found ∧
        offset + found = e.place := by
  induction es generalizing inodeoffset with
  | nil =>
    rw [DirOnDisk] at h
    rw [List.find?_nil, scanDir, if_neg (by omega)]
  | cons e es ih =>
    rw [DirOnDisk] at h
    obtain ⟨hplace, hdisk, hsize, hrest⟩ := h
    have hname := ((Entry.onDisk_iff e).mp hdisk).1
    rw [hplace] at hname
    have hlength := hname.nameLength_eq
    have hpos : e.name.length ≠ 0 := fun h0 => hname.nonempty (List.length_eq_zero_iff.mp h0)
    have hin : inodeoffset < size := by
      rw [inodeSize] at hsize
      omega
    rw [List.find?_cons]
    by_cases hbegins : e.name <+: filename
    · have hzero := (strncmp_name_eq_zero_iff hfilename hname).mpr hbegins
      rw [decide_eq_true hbegins]
      refine ⟨inodeoffset, ?_, hplace.symm⟩
      rw [scanDir, if_pos hin]
      dsimp only
      rw [hlength, if_neg hpos, if_pos hzero]
    · have hne := mt (strncmp_name_eq_zero_iff hfilename hname).mp hbegins
      rw [decide_eq_false hbegins, scanDir, if_pos hin]
      dsimp only
      rw [hlength, if_neg hpos, if_neg hne]
      refine ih (by omega) ?_
      convert hrest using 1 <;> omega

theorem scanDir_none {offset size : ℕ} {es : List Entry} (h : DirOnDisk img offset size es) :
    scanDir img none offset size 0 = if es = [] then .absent else .missing := by
  cases es with
  | nil =>
    rw [DirOnDisk] at h
    rw [if_pos rfl, scanDir, if_neg (by omega)]
  | cons e es =>
    rw [DirOnDisk] at h
    obtain ⟨hplace, hdisk, hsize, -⟩ := h
    have hname := ((Entry.onDisk_iff e).mp hdisk).1
    rw [hplace] at hname
    have hpos : e.name.length ≠ 0 := fun h0 => hname.nonempty (List.length_eq_zero_iff.mp h0)
    rw [inodeSize] at hsize
    rw [if_neg (List.cons_ne_nil _ _), scanDir, if_pos (by omega)]
    dsimp only
    rw [Nat.add_zero, hname.nameLength_eq, if_neg hpos]

/-! ## The walk -/

/-- The walk through the tree: from each directory to the first entry whose name is a prefix of
the component. -/
def walk (raw : Bool) : List (List UInt8) → List Entry → Outcome
  | [], es => if es = [] then .absent else .missing
  | filename :: rest, es =>
    match es.find? fun e => e.name <+: filename with
    | none => .absent
    | some e =>
      if raw ∧ rest = [] then .entry e.place
      else if sIsDir e.mode then walk raw rest e.children
      else if sIsReg e.mode then .entry e.place
      else .absent

theorem onDisk_of_mem {offset size : ℕ} {es : List Entry} (h : DirOnDisk img offset size es)
    {e : Entry} (he : e ∈ es) : e.OnDisk img := by
  induction es generalizing offset size with
  | nil => exact absurd he List.not_mem_nil
  | cons e' es ih =>
    rw [DirOnDisk] at h
    rcases List.mem_cons.mp he with rfl | he
    · exact h.2.1
    · exact ih h.2.2.2 he

/-- **`cramfs_resolve` walks through the tree** that the image holds. -/
theorem cramfsResolve_eq_walk (raw : Bool) {path : List (List UInt8)} (hpath : ∀ c ∈ path, 0 ∉ c)
    {offset size : ℕ} {es : List Entry} (h : DirOnDisk img offset size es) :
    cramfsResolve img raw path offset size = walk raw path es := by
  induction path generalizing offset size es with
  | nil =>
    rw [cramfsResolve, walk, scanDir_none h]
    by_cases hnil : es = []
    · rw [if_pos hnil, if_pos hnil]
    · rw [if_neg hnil, if_neg hnil]
  | cons filename rest ih =>
    have hscan := scanDir_eq (hpath filename List.mem_cons_self) (Nat.zero_le size)
      (by rwa [Nat.add_zero, Nat.sub_zero])
    rw [cramfsResolve, walk]
    cases hfind : es.find? fun e => e.name <+: filename with
    | none =>
      rw [hfind] at hscan
      rw [hscan]
    | some e =>
      rw [hfind] at hscan
      obtain ⟨found, hhit, hplace⟩ := hscan
      obtain ⟨hname, _, hchildren⟩ :=
        (Entry.onDisk_iff e).mp (onDisk_of_mem h (List.mem_of_find?_eq_some hfind))
      rw [hhit]
      dsimp only
      rw [hplace, hname.mode_eq]
      by_cases hend : raw = true ∧ rest = []
      · rw [if_pos hend, if_pos hend]
      · rw [if_neg hend, if_neg hend]
        by_cases hdir : sIsDir e.mode = true
        · rw [if_pos hdir, if_pos hdir]
          rw [if_pos hdir] at hchildren
          exact ih (fun c hc => hpath c (List.mem_cons_of_mem _ hc)) hchildren
        · rw [if_neg hdir, if_neg hdir]

end Cramfs
end EmevBsp
