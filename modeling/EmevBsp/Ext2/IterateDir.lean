import EmevBsp.Ext2.ReadFile

/-!
# `ext2fs_iterate_dir`: the entries of a directory

A directory is a file of records.  The search goes from one to the next by the length that each of
them has; the records of deleted entries, with inode 0, are searched as well.  Without a name the
entries are listed.

The functions that are called are a `Reader`, with a state of its own: what it keeps between two
calls.  The loop has no bound, so it is given fuel.
-/

namespace EmevBsp
namespace Ext2

/-! ## Entries -/

/-- `FILETYPE_UNKNOWN` and the others. -/
inductive FileType
  | unknown
  | reg
  | directory
  | symlink
  deriving DecidableEq

/-- `struct ext2_dirent`. -/
structure Dirent where
  inode : BitVec 32
  direntlen : BitVec 16
  namelen : UInt8
  filetype : UInt8

/-- An entry, of its eight bytes. -/
def direntOf (l : List UInt8) : Dirent where
  inode := le32ToCpu (fun x => l.getD x 0) 0
  direntlen := BitVec.ofNat 16 (2 ^ 8 * (l.getD 5 0).toNat + (l.getD 4 0).toNat)
  namelen := l.getD 6 0
  filetype := l.getD 7 0

/-- The type that an entry says. -/
def Dirent.type (dirent : Dirent) : FileType :=
  if dirent.filetype = 2 then .directory
  else if dirent.filetype = 7 then .symlink
  else if dirent.filetype = 1 then .reg
  else .unknown

/-- What is looked at of an inode: its mode and its size. -/
structure InodeInfo where
  mode : BitVec 16
  size : BitVec 32

/-- The type that an inode says, with `FILETYPE_INO_MASK`. -/
def InodeInfo.type (inode : InodeInfo) : FileType :=
  if inode.mode &&& 0xf000 = 0x4000 then .directory
  else if inode.mode &&& 0xf000 = 0xa000 then .symlink
  else if inode.mode &&& 0xf000 = 0x8000 then .reg
  else .unknown

/-- A name in a buffer ends before the first 0. -/
def cString (filename : List UInt8) : List UInt8 := filename.takeWhile (· ≠ 0)

/-- `struct ext2fs_node`: an inode number, and the inode if it was read. -/
structure Node where
  ino : BitVec 32
  inode : Option InodeInfo

/-! ## The functions that are called -/

/-- What `ext2fs_read_file` does with a buffer: an error is returned; the buffer is filled; or more
than the buffer is written. -/
inductive ReadResult
  | fails
  | fills (bytes : List UInt8)
  | overruns

/-- `ext2fs_read_file` of the directory, `ext2fs_read_inode` and `malloc`. -/
structure Reader (σ : Type) where
  readFile : σ → (pos : BitVec 32) → (len : ℕ) → σ × ReadResult
  readInode : σ → (ino : BitVec 32) → σ × Option InodeInfo
  malloc : σ → σ × Bool

variable {σ : Type}

/-! ## The search -/

/-- A line of a listing. -/
structure DirLine where
  type : FileType
  size : BitVec 32
  filename : List UInt8

/-- How a call ends: with what was printed and the node that was found, or in memory that is not
its own. -/
inductive DirOutcome
  | returned (lines : List DirLine) (found : Option (Node × FileType))
  | overrun

/-- 0 is returned. -/
abbrev notFound : DirOutcome := .returned [] none

def DirOutcome.print (line : Option DirLine) : DirOutcome → DirOutcome
  | returned lines found => returned (line.toList ++ lines) found
  | overrun => overrun

/-- The type of an entry, and its inode if the type is not in the entry. -/
def entryType (r : Reader σ) (s : σ) (dirent : Dirent) : σ × Option (FileType × Option InodeInfo) :=
  if dirent.filetype ≠ 0 then (s, some (dirent.type, none))
  else
    match r.readInode s dirent.inode with
    | (s, none) => (s, none)
    | (s, some inode) => (s, some (inode.type, some inode))

/-- What the loop does with a record: the call ends, or the loop goes on behind it. -/
inductive Visit
  | ends (outcome : DirOutcome)
  | goes (direntlen : BitVec 16) (line : Option DirLine)

/-- A record with a name is compared, or listed. -/
def visitName (r : Reader σ) (name : Option (List UInt8)) (dirent : Dirent) (filename : List UInt8)
    (s : σ) : σ × Visit :=
  match r.malloc s with
  | (s, false) => (s, .ends notFound)
  | (s, true) =>
    match entryType r s dirent with
    | (s, none) => (s, .ends notFound)
    | (s, some (type, inode)) =>
      match name with
      | some name =>
        if cString filename = name then
          (s, .ends (.returned [] (some (⟨dirent.inode, inode⟩, type))))
        else (s, .goes dirent.direntlen none)
      | none =>
        match inode with
        | some inode => (s, .goes dirent.direntlen (some ⟨type, inode.size, cString filename⟩))
        | none =>
          match r.readInode s dirent.inode with
          | (s, none) => (s, .ends notFound)
          | (s, some inode) =>
            (s, .goes dirent.direntlen (some ⟨type, inode.size, cString filename⟩))

/-- The name of a record is read, if it has one. -/
def visitDirent (r : Reader σ) (name : Option (List UInt8)) (fpos : BitVec 32) (dirent : Dirent)
    (s : σ) : σ × Visit :=
  if dirent.namelen ≠ 0 then
    match r.readFile s (fpos + 8) dirent.namelen.toNat with
    | (s, .fails) => (s, .ends notFound)
    | (s, .overruns) => (s, .ends .overrun)
    | (s, .fills filename) => visitName r name dirent filename s
  else (s, .goes dirent.direntlen none)

/-- The body of the loop. -/
def visit (r : Reader σ) (name : Option (List UInt8)) (fpos : BitVec 32) (s : σ) : σ × Visit :=
  match r.readFile s fpos 8 with
  | (s, .fails) => (s, .ends notFound)
  | (s, .overruns) => (s, .ends .overrun)
  | (s, .fills bytes) => visitDirent r name fpos (direntOf bytes) s

/-- The loop of `ext2fs_iterate_dir`. -/
def search (r : Reader σ) (size : BitVec 32) (name : Option (List UInt8)) :
    ℕ → BitVec 32 → σ → Option DirOutcome
  | 0, _, _ => none
  | fuel + 1, fpos, s =>
    if fpos < size then
      match visit r name fpos s with
      | (_, .ends outcome) => some outcome
      | (s, .goes direntlen line) =>
        (search r size name fuel (fpos + direntlen.setWidth 32) s).map (DirOutcome.print line)
    else some notFound

/-- `ext2fs_iterate_dir`; without a name the entries are listed. -/
def iterateDir (r : Reader σ) (diro : Node) (name : Option (List UInt8)) (fuel : ℕ) (s : σ) :
    Option DirOutcome :=
  match diro.inode with
  | some inode => search r inode.size name fuel 0 s
  | none =>
    match r.readInode s diro.ino with
    | (_, none) => some notFound
    | (s, some inode) => search r inode.size name fuel 0 s

/-! ## Directories -/

/-- A directory: its node, its bytes, and the inodes of the volume. -/
structure Dir where
  node : Node
  bytes : ℕ → UInt8
  inodes : BitVec 32 → InodeInfo

namespace Dir

variable (d : Dir)

/-- The size that its inode says. -/
def size : BitVec 32 := (d.node.inode.getD (d.inodes d.node.ino)).size

/-- Where what is read has to end: at the end of the directory, and an `int` is not negative. -/
def limit : ℕ := min d.size.toNat (2 ^ 31)

/-- The entry at a position. -/
def direntAt (p : ℕ) : Dirent := direntOf (stretch d.bytes p 8)

/-- The bytes of the name of the entry at a position. -/
def filenameAt (p : ℕ) : List UInt8 := stretch d.bytes (p + 8) (d.direntAt p).namelen.toNat

/-- The record is in the directory, as far as it is read. -/
def Inside (p : ℕ) : Prop := p + 8 + (d.direntAt p).namelen.toNat ≤ d.limit

end Dir

/-- **A reader of a directory**, from a state that fulfils `I` on: it reads a piece of the
directory, or fails; nothing is said about reads that leave the directory. -/
structure Serves (r : Reader σ) (d : Dir) (I : σ → Prop) : Prop where
  readFile : ∀ {s}, I s → ∀ {pos : BitVec 32} {len : ℕ}, 0 < len → len < 256 →
    pos.toNat + len ≤ d.limit → I (r.readFile s pos len).1 ∧ ((r.readFile s pos len).2 = .fails ∨
      (r.readFile s pos len).2 = .fills (stretch d.bytes pos.toNat len))
  readInode : ∀ {s}, I s → ∀ ino, I (r.readInode s ino).1 ∧
    ((r.readInode s ino).2 = none ∨ (r.readInode s ino).2 = some (d.inodes ino))
  malloc : ∀ {s}, I s → I (r.malloc s).1

/-- Nothing fails that is there; there is no inode 0.  The inode of the directory itself is read
from the state `s`. -/
structure NeverFails (r : Reader σ) (d : Dir) (I : σ → Prop) (s : σ) : Prop where
  own : d.node.inode = none → (r.readInode s d.node.ino).2 ≠ none
  readFile : ∀ {s}, I s → ∀ {pos : BitVec 32} {len : ℕ}, 0 < len → len < 256 →
    pos.toNat + len ≤ d.limit → (r.readFile s pos len).2 ≠ .fails
  readInode : ∀ {s}, I s → ∀ {ino}, ino ≠ 0 → (r.readInode s ino).2 ≠ none
  malloc : ∀ {s}, I s → (r.malloc s).2 = true

/-! ## Well-formed directories -/

/-- A record: its entry and the bytes of its name. -/
structure Record where
  dirent : Dirent
  filename : List UInt8

/-- The records of a directory from a position on, up to its end. -/
inductive Dir.RecordsAt (d : Dir) : ℕ → List Record → Prop
  | nil {p : ℕ} (hend : p = d.size.toNat) : RecordsAt d p []
  | cons {p : ℕ} {rs : List Record}
      (hlen : 8 + (d.direntAt p).namelen.toNat ≤ (d.direntAt p).direntlen.toNat)
      (hrest : RecordsAt d (p + (d.direntAt p).direntlen.toNat) rs) :
      RecordsAt d p (⟨d.direntAt p, d.filenameAt p⟩ :: rs)

namespace Record

variable (rec : Record)

/-- The entry is not deleted. -/
def Live : Prop := rec.dirent.inode ≠ 0

/-- The record counts as one with a name. -/
def Named : Prop := rec.dirent.namelen ≠ 0

/-- The type of an entry: its own, or that of its inode. -/
def type (d : Dir) : FileType :=
  if rec.dirent.filetype ≠ 0 then rec.dirent.type else (d.inodes rec.dirent.inode).type

end Record

/-- **A well-formed directory**, of at most 2 GiB: records up to its end, and live entries with
different names. -/
structure Dir.WellFormed (d : Dir) (rs : List Record) : Prop where
  records : d.RecordsAt 0 rs
  size_le : d.size.toNat ≤ 2 ^ 31
  named : ∀ rec ∈ rs, rec.Live → rec.Named ∧ 0 ∉ rec.filename
  distinct : rs.Pairwise fun a b => a.Live → b.Live → a.filename ≠ b.filename

/-- The right answer of a search among records: the live entry with the name, if there is one. -/
structure Answers (d : Dir) (rs : List Record) (name : List UInt8)
    (found : Option (Node × FileType)) : Prop where
  isSome_iff : found.isSome = true ↔ ∃ rec ∈ rs, rec.Live ∧ rec.filename = name
  entry : ∀ node type, found = some (node, type) → ∃ rec ∈ rs, rec.Live ∧ rec.filename = name ∧
    node.ino = rec.dirent.inode ∧ type = rec.type d

/-- **What is asked of a call**: it returns, whatever fails; and if nothing fails, a name is found
in a well-formed directory if and only if a live entry has it. -/
structure IteratesRight (d : Dir) (name : Option (List UInt8)) : Prop where
  returns : ∀ {σ : Type} {r : Reader σ} {I : σ → Prop}, Serves r d I → ∀ {s}, I s →
    ∃ fuel lines found, iterateDir r d.node name fuel s = some (.returned lines found)
  finds : ∀ {n}, name = some n → ∀ {σ : Type} {r : Reader σ} {I : σ → Prop}, Serves r d I →
    ∀ {s}, I s → NeverFails r d I s → ∀ {rs}, d.WellFormed rs → ∀ {fuel lines found},
      iterateDir r d.node name fuel s = some (.returned lines found) → Answers d rs n found

/-! ## One record -/

variable {r : Reader σ} {d : Dir} {I : σ → Prop} {s : σ} {name : Option (List UInt8)}

/-- The search ends with the record at a position. -/
def Dir.Stops (d : Dir) (name : Option (List UInt8)) (p : ℕ) : Prop :=
  (d.direntAt p).namelen ≠ 0 ∧ name = some (cString (d.filenameAt p))

/-- The record at a position, as one of the list. -/
def Dir.recordAt (d : Dir) (p : ℕ) : Record := ⟨d.direntAt p, d.filenameAt p⟩

theorem entryType_spec (hserves : Serves r d I) (hs : I s) (rec : Record) :
    I (entryType r s rec.dirent).1 ∧
      ((rec.dirent.filetype = 0 ∧ (r.readInode s rec.dirent.inode).2 = none ∧
          (entryType r s rec.dirent).2 = none) ∨
        ∃ inode, (entryType r s rec.dirent).2 = some (rec.type d, inode)) := by
  rw [entryType, Record.type]
  by_cases htype : rec.dirent.filetype = 0
  · rw [if_neg (not_not.mpr htype), if_neg (not_not.mpr htype)]
    obtain ⟨hI, hread⟩ := hserves.readInode hs rec.dirent.inode
    generalize r.readInode s rec.dirent.inode = a at hI hread
    obtain ⟨t, _ | inode⟩ := a
    · exact ⟨hI, .inl ⟨htype, rfl, rfl⟩⟩
    · obtain hread | hread := hread
      · cases hread
      · exact ⟨hI, .inr ⟨some inode, by rw [← Option.some.inj hread]⟩⟩
  · rw [if_pos htype, if_pos htype]
    exact ⟨hs, .inr ⟨none, rfl⟩⟩

/-- Something fails on the way through a record. -/
inductive CanFail (r : Reader σ) (d : Dir) (I : σ → Prop) (name : Option (List UInt8)) (p : ℕ) :
    Prop
  | readFile {t : σ} {pos : BitVec 32} {len : ℕ} (ht : I t) (hpos : 0 < len) (hlen : len < 256)
      (hin : pos.toNat + len ≤ d.limit) (hfails : (r.readFile t pos len).2 = .fails)
  | malloc {t : σ} (ht : I t) (hfails : (r.malloc t).2 = false)
  | readInode {t : σ} (ht : I t) (hnamed : (d.recordAt p).Named)
      (hneeded : (d.direntAt p).filetype = 0 ∨ name = none)
      (hfails : (r.readInode t (d.direntAt p).inode).2 = none)

/-- What comes of a record. -/
inductive Visited (r : Reader σ) (d : Dir) (I : σ → Prop) (name : Option (List UInt8)) (p : ℕ) :
    Visit → Prop
  | fails (hfails : CanFail r d I name p) : Visited r d I name p (.ends notFound)
  | found (inode : Option InodeInfo) (hstops : d.Stops name p) : Visited r d I name p
      (.ends (.returned [] (some (⟨(d.direntAt p).inode, inode⟩, (d.recordAt p).type d))))
  | goes (line : Option DirLine) (hstops : ¬ d.Stops name p) :
      Visited r d I name p (.goes (d.direntAt p).direntlen line)

theorem visitName_spec (hserves : Serves r d I) (hs : I s) {p : ℕ} (hnamed : (d.recordAt p).Named) :
    I (visitName r name (d.direntAt p) (d.filenameAt p) s).1 ∧
      Visited r d I name p (visitName r name (d.direntAt p) (d.filenameAt p) s).2 := by
  have hmalloc := hserves.malloc hs
  rw [visitName]
  rcases hm : r.malloc s with ⟨s₁, _ | _⟩
  · rw [hm] at hmalloc
    exact ⟨hmalloc, .fails (.malloc hs (congrArg Prod.snd hm))⟩
  rw [hm] at hmalloc
  obtain ⟨htype, hentry⟩ := entryType_spec hserves hmalloc (d.recordAt p)
  have hdirent : (d.recordAt p).dirent = d.direntAt p := rfl
  rw [hdirent] at htype hentry
  dsimp only at htype hentry ⊢
  rcases he : entryType r s₁ (d.direntAt p) with ⟨s₂, _ | ⟨type, inode⟩⟩
  · rw [he] at htype hentry
    obtain ⟨hzero, hnone, -⟩ | ⟨inode, hsome⟩ := hentry
    · exact ⟨htype, .fails (.readInode hmalloc hnamed (.inl hzero) hnone)⟩
    · cases hsome
  rw [he] at htype hentry
  obtain ⟨-, -, hnone⟩ | ⟨inode', hsome⟩ := hentry
  · cases hnone
  obtain ⟨rfl, rfl⟩ := Prod.mk.inj (Option.some.inj hsome)
  cases name with
  | some name =>
    dsimp only
    by_cases hname : cString (d.filenameAt p) = name
    · rw [if_pos hname]
      exact ⟨htype, .found inode ⟨hnamed, by rw [hname]⟩⟩
    · rw [if_neg hname]
      exact ⟨htype, .goes none fun h => hname (Option.some.inj h.2).symm⟩
  | none =>
    have hstops : ¬ d.Stops none p := fun h => by cases h.2
    cases inode with
    | some inode => exact ⟨htype, .goes _ hstops⟩
    | none =>
      obtain ⟨hinode, -⟩ := hserves.readInode htype (d.direntAt p).inode
      dsimp only at hinode ⊢
      rcases hi : r.readInode s₂ (d.direntAt p).inode with ⟨s₃, _ | inode⟩
      · rw [hi] at hinode
        exact ⟨hinode, .fails (.readInode htype hnamed (.inr rfl) (congrArg Prod.snd hi))⟩
      · rw [hi] at hinode
        exact ⟨hinode, .goes _ hstops⟩

theorem namelen_lt (dirent : Dirent) : dirent.namelen.toNat < 256 := dirent.namelen.toNat_lt

theorem namelen_pos {dirent : Dirent} (h : dirent.namelen ≠ 0) : 0 < dirent.namelen.toNat :=
  Nat.pos_of_ne_zero fun hzero => h (UInt8.toNat_inj.mp hzero)

theorem toNat_add_eight {fpos : BitVec 32} {p : ℕ} (hpos : fpos.toNat = p)
    (hin : p + 8 ≤ d.limit) : (fpos + 8).toNat = p + 8 := by
  have hlimit : d.limit ≤ 2 ^ 31 := Nat.min_le_right _ _
  have height : (8 : BitVec 32).toNat = 8 := rfl
  rw [BitVec.toNat_add, hpos, height]
  exact Nat.mod_eq_of_lt (by omega)

theorem visitDirent_spec (hserves : Serves r d I) (hs : I s) {fpos : BitVec 32} {p : ℕ}
    (hpos : fpos.toNat = p) (hin : d.Inside p) :
    I (visitDirent r name fpos (d.direntAt p) s).1 ∧
      Visited r d I name p (visitDirent r name fpos (d.direntAt p) s).2 := by
  rw [visitDirent]
  by_cases hnamed : (d.direntAt p).namelen = 0
  · rw [if_neg (not_not.mpr hnamed)]
    exact ⟨hs, .goes none fun h => h.1 hnamed⟩
  rw [if_pos hnamed]
  have hnext : (fpos + 8).toNat = p + 8 :=
    toNat_add_eight hpos ((Nat.le_add_right _ _).trans hin)
  have hname : (fpos + 8).toNat + (d.direntAt p).namelen.toNat ≤ d.limit := by
    rw [hnext]
    exact hin
  obtain ⟨hI, hread⟩ := hserves.readFile hs (namelen_pos hnamed) (namelen_lt _) hname
  rcases hr : r.readFile s (fpos + 8) (d.direntAt p).namelen.toNat with ⟨s₁, _ | filename | _⟩
  · rw [hr] at hI
    exact ⟨hI, .fails
      (.readFile hs (namelen_pos hnamed) (namelen_lt _) hname (congrArg Prod.snd hr))⟩
  · rw [hr] at hI hread
    rcases hread with hread | hread
    · cases hread
    obtain rfl := ReadResult.fills.inj hread
    rw [hnext]
    exact visitName_spec hserves hI hnamed
  · rw [hr] at hread
    rcases hread with hread | hread <;> cases hread

theorem visit_spec (name : Option (List UInt8)) (hserves : Serves r d I) (hs : I s)
    {fpos : BitVec 32} {p : ℕ} (hpos : fpos.toNat = p) (hin : d.Inside p) :
    I (visit r name fpos s).1 ∧ Visited r d I name p (visit r name fpos s).2 := by
  have hheader : fpos.toNat + 8 ≤ d.limit := by
    rw [hpos]
    exact (Nat.le_add_right _ _).trans hin
  obtain ⟨hI, hread⟩ := hserves.readFile hs (by decide) (by decide) hheader
  rw [visit]
  rcases hr : r.readFile s fpos 8 with ⟨s₁, _ | bytes | _⟩
  · rw [hr] at hI
    exact ⟨hI, .fails (.readFile hs (by decide) (by decide) hheader (congrArg Prod.snd hr))⟩
  · rw [hr] at hI hread
    rcases hread with hread | hread
    · cases hread
    obtain rfl := ReadResult.fills.inj hread
    rw [hpos]
    exact visitDirent_spec hserves hI hpos hin
  · rw [hr] at hread
    rcases hread with hread | hread <;> cases hread

theorem toNat_next {fpos : BitVec 32} {p : ℕ} (hpos : fpos.toNat = p) (hin : d.Inside p) :
    (fpos + (d.direntAt p).direntlen.setWidth 32).toNat = p + (d.direntAt p).direntlen.toNat := by
  have hlimit : d.limit ≤ 2 ^ 31 := Nat.min_le_right _ _
  have hlen : (d.direntAt p).direntlen.toNat < 2 ^ 16 := (d.direntAt p).direntlen.isLt
  rw [Dir.Inside] at hin
  rw [BitVec.toNat_add, hpos, BitVec.toNat_setWidth, Nat.mod_eq_of_lt (by omega),
    Nat.mod_eq_of_lt (by omega)]

/-! ## `ext2fs_read_file` -/

/-- The directory is read with `ext2fs_read_file`.  The buffer and what is behind it are 0xff
before; what is something else behind it afterwards was overwritten. -/
def fileReader (v : Volume) (e : Env) (inode : Inode)
    (readInode : BitVec 32 → Option InodeInfo) : Reader Globals where
  readFile g pos len :=
    let r := readFile v e inode pos.toNat len g fun _ => 0xff
    let overruns := (List.range v.ext2BlockSize).any fun x => r.2.1 (len + x) ≠ 0xff
    (r.1.toGlobals,
      if overruns then .overruns else if r.2.2 < 1 then .fails else .fills (stretch r.2.1 0 len))
  readInode g ino := (g, readInode ino)
  malloc g := (g, (e.malloc 0).isSome)

variable {v : Volume} {e : Env} {inode : Inode} {readInode : BitVec 32 → Option InodeInfo}

/-- A well-formed inode without holes, on a device that does not fail. -/
structure Solid (v : Volume) (e : Env) (inode : Inode) : Prop where
  wellFormed : WellFormed v inode
  reads : ∀ t sector count, e.fails t sector count = false
  memory : ∀ t, (e.malloc t).isSome = true
  stored : ∀ i, i * v.ext2BlockSize < inode.size.toNat →
    fileBlock v inode i ≠ 0 ∧ BlockLow v inode i ∧ 0 ∉ indirects v inode i

theorem Solid.safe (h : Solid v e inode) {g : Globals} {pos len : ℕ} (hlen : len < 256)
    (hsize : pos + len ≤ inode.size.toNat) (hsigned : pos + len ≤ 2 ^ 31) :
    Safe v g e inode pos len where
  unsigned := by
    have hblock : v.ext2BlockSize ≤ 2 ^ 16 :=
      Nat.pow_le_pow_right (Nat.succ_pos 1) (Nat.add_le_add_right h.wellFormed.log2_le 10)
    omega
  signed := by omega
  readable i hi := by
    have hin : i * v.ext2BlockSize < inode.size.toNat := hi.2.trans_le hsize
    obtain ⟨hne, hlow, hreached⟩ := h.stored i hin
    exact ⟨⟨h.wellFormed.stored i hin, hlow, hreached, fun _ => h.memory,
      fun _ _ _ => h.reads _ _ _⟩, fun hhole => absurd hhole hne, fun _ _ _ _ => h.reads _ _ _⟩
  double _ _ _ := .inl fun _ => h.reads _ _ _

/-- A directory whose bytes are those of a file. -/
structure Dir.IsFile (d : Dir) (v : Volume) (inode : Inode)
    (readInode : BitVec 32 → Option InodeInfo) : Prop where
  size : d.size = inode.size
  bytes : d.bytes = fileByte v inode
  inodes : ∀ ino, readInode ino = none ∨ readInode ino = some (d.inodes ino)

theorem fileReader_readFile (h : Solid v e inode) (hfile : d.IsFile v inode readInode)
    {g : Globals} (hcache : CacheOk v g.indir1) {pos : BitVec 32} {len : ℕ} (hpos : 0 < len)
    (hlen : len < 256) (hin : pos.toNat + len ≤ d.limit) :
    CacheOk v ((fileReader v e inode readInode).readFile g pos len).1.indir1 ∧
      (((fileReader v e inode readInode).readFile g pos len).2 = .fails ∨
        ((fileReader v e inode readInode).readFile g pos len).2 =
          .fills (stretch d.bytes pos.toNat len)) := by
  have hsize : pos.toNat + len ≤ inode.size.toNat := by
    rw [← hfile.size]
    exact hin.trans (Nat.min_le_left _ _)
  have hlimit : d.limit ≤ 2 ^ 31 := Nat.min_le_right _ _
  obtain ⟨hright, hcache'⟩ := readFile_spec hcache ⟨h.wellFormed, by omega, hsize⟩
    (h.safe hlen hsize (hin.trans (Nat.min_le_right _ _))) fun _ => 0xff
  refine ⟨hcache', ?_⟩
  rw [fileReader]
  dsimp only
  generalize readFile v e inode pos.toNat len g (fun _ => 0xff) = r at hright
  rw [if_neg]
  swap
  · simp only [List.any_eq_true, decide_eq_true_eq, not_exists, not_and, not_not]
    exact fun x _ => hright.beyond _ (Nat.le_add_right len x)
  by_cases hshort : r.2.2 < 1
  · exact .inl (if_pos hshort)
  · refine .inr ?_
    have hlog : false ∉ r.1.log := by
      intro hmem
      rw [hright.fails hmem] at hshort
      exact hshort (by decide)
    rw [if_neg hshort, hfile.bytes]
    refine congrArg ReadResult.fills (stretch_congr fun i hi => ?_)
    rw [Nat.zero_add]
    exact (hright.reads hlog).2 i hi

/-- **`ext2fs_read_file` reads a directory.** -/
theorem serves_fileReader (h : Solid v e inode) (hfile : d.IsFile v inode readInode) :
    Serves (fileReader v e inode readInode) d fun g => CacheOk v g.indir1 where
  readFile := fun {_} hcache {_ _} hpos hlen hin =>
    fileReader_readFile h hfile hcache hpos hlen hin
  readInode hcache ino := ⟨hcache, hfile.inodes ino⟩
  malloc hcache := hcache

/-! ## A device that does not fail -/

section Reads

variable (hreads : ∀ t sector count, e.fails t sector count = false)

include hreads

theorem blockRead_ok {log : List Bool} {sector : BitVec 32} {count : ℕ} :
    (blockRead v e log sector count).1 = true := by
  rw [blockRead, if_neg (by rw [hreads]; exact Bool.false_ne_true)]

theorem devreadAligned_log {log : List Bool} {sector : BitVec 32} {byteLen : ℕ}
    (hlog : false ∉ log) : false ∉ (devreadAligned v e log sector byteLen).log := by
  rw [devreadAligned]
  dsimp only
  split_ifs
  all_goals
    simp only [blockRead_ok hreads, List.mem_append, List.mem_singleton, Bool.false_eq_true,
      or_false]
    exact hlog

theorem devread_log {log : List Bool} {sector : BitVec 32} {byteOffset byteLen : ℕ}
    (hlog : false ∉ log) : false ∉ (devread v e log sector byteOffset byteLen).log := by
  have hone : false ∉ log ++ [true] := by simp [hlog]
  rw [devread]
  dsimp only
  split_ifs
  · exact hlog
  · rw [blockRead_ok hreads]
    exact hone
  · refine devreadAligned_log hreads ?_
    rw [blockRead_ok hreads]
    exact hone
  · exact devreadAligned_log hreads hlog

theorem load_log {log : List Bool} {c : Indir} {sector blkno : BitVec 32} (hlog : false ∉ log) :
    false ∉ (load v e log c sector blkno).2.1 := by
  rw [load]
  split_ifs
  · exact devread_log hreads hlog
  · exact hlog

theorem readBlock_log {i : ℕ} {s : State} (hlog : false ∉ s.log) :
    false ∉ (readBlock v e inode i s).1.log := by
  rw [readBlock]
  dsimp only
  split_ifs
  all_goals
    first
    | exact hlog
    | exact load_log hreads hlog
    | exact load_log hreads (load_log hreads hlog)

theorem readLoop_log {pos len n i buf : ℕ} {s : State} {mem : ℕ → UInt8} (hlog : false ∉ s.log) :
    false ∉ (readLoop v e inode pos len n i buf s mem).1.log := by
  induction n generalizing i buf s mem with
  | zero => exact hlog
  | succ n ih =>
    rw [readLoop]
    dsimp only
    split_ifs
    all_goals
      first
      | exact readBlock_log hreads hlog
      | exact devread_log hreads (readBlock_log hreads hlog)
      | exact ih (readBlock_log hreads hlog)
      | exact ih (devread_log hreads (readBlock_log hreads hlog))

end Reads

/-- **`ext2fs_read_file` does not fail.** -/
theorem neverFails_fileReader (h : Solid v e inode) (hfile : d.IsFile v inode readInode)
    (hinodes : ∀ ino, readInode ino = none → ino = 0)
    (hown : d.node.inode = none → readInode d.node.ino ≠ none) (g : Globals) :
    NeverFails (fileReader v e inode readInode) d (fun g => CacheOk v g.indir1) g where
  own := hown
  readFile := by
    intro g hcache pos len hpos hlen hin
    have hsize : pos.toNat + len ≤ inode.size.toNat := by
      rw [← hfile.size]
      exact hin.trans (Nat.min_le_left _ _)
    have hlimit : d.limit ≤ 2 ^ 31 := Nat.min_le_right _ _
    obtain ⟨hright, -⟩ := readFile_spec hcache ⟨h.wellFormed, by omega, hsize⟩
      (h.safe hlen hsize (hin.trans (Nat.min_le_right _ _))) fun _ => 0xff
    have hlog : false ∉ (readFile v e inode pos.toNat len g fun _ => 0xff).1.log :=
      readLoop_log h.reads List.not_mem_nil
    have hvalue := (hright.reads hlog).1
    rw [fileReader]
    dsimp only
    rw [hvalue, if_neg (show ¬ (len : ℤ) < 1 by omega)]
    split_ifs
    all_goals nofun
  readInode _ _ hne hnone := hne (hinodes _ hnone)
  malloc _ := h.memory 0

end Ext2
end EmevBsp
