import EmevBsp.Fat.Fat

/-!
# `fs/fat/fat.c`: the boot sector and the root directory

A directory is an array of bytes, 32 for each entry.  `do_fat_read` reads a cluster's worth of
blocks into a buffer, looks at the entries of the first of them, and goes on with the next block.
It looks at the file names of the root directory only; a path below it is not modelled, nor is the
listing.

A long name is in slots before the entry it belongs to.  `get_vfatname` follows them in the buffer;
past the buffer it looks for the rest in a cluster of the table.  It reads and writes where the
slots send it: it has no result where that is outside the buffers.
-/

namespace EmevBsp
namespace Fat

/-! ## The boot sector -/

/-- The fields of `boot_sector` that are used. -/
structure BootSector where
  sectorSize : ℕ
  clusterSize : UInt8
  reserved : BitVec 16
  fats : UInt8
  dirEntries : ℕ
  fatLength : BitVec 16
  fat32Length : BitVec 32
  rootCluster : BitVec 32

/-- Two bytes of a block as a number. -/
def word16 (b : ℕ → UInt8) (i : ℕ) : ℕ := (b i).toNat + 256 * (b (i + 1)).toNat

/-- Four bytes of a block as a number. -/
def word32 (b : ℕ → UInt8) (i : ℕ) : ℕ := word16 b i + 65536 * word16 b (i + 2)

/-- The fields of a boot sector, at their places. -/
def BootSector.read (b : ℕ → UInt8) : BootSector where
  sectorSize := word16 b 11
  clusterSize := b 13
  reserved := BitVec.ofNat 16 (word16 b 14)
  fats := b 16
  dirEntries := word16 b 17
  fatLength := BitVec.ofNat 16 (word16 b 22)
  fat32Length := BitVec.ofNat 32 (word32 b 36)
  rootCluster := BitVec.ofNat 32 (word32 b 44)

/-- `FAT12_SIGN`, `FAT16_SIGN` and `FAT32_SIGN`. -/
def FatSize.sign : FatSize → List UInt8
  | .fat12 => [0x46, 0x41, 0x54, 0x31, 0x32, 0x20, 0x20, 0x20]
  | .fat16 => [0x46, 0x41, 0x54, 0x31, 0x36, 0x20, 0x20, 0x20]
  | .fat32 => [0x46, 0x41, 0x54, 0x33, 0x32, 0x20, 0x20, 0x20]

/-- `read_bootsectandvi`: the boot sector and the size of a FAT entry. -/
def readBootsectandvi (d : Disk) : Option (BootSector × FatSize) :=
  (diskRead d 0 1).bind fun bytes =>
    let block := splice (fun _ => 0) 0 bytes
    let bs := BootSector.read block
    if bs.fatLength = 0 then
      if stretch block 82 8 = FatSize.fat32.sign then some (bs, .fat32) else none
    else if stretch block 54 8 = FatSize.fat12.sign then some (bs, .fat12)
    else if stretch block 54 8 = FatSize.fat16.sign then some (bs, .fat16)
    else none

/-- `rootdir_size` of FAT12 and FAT16, in blocks. -/
def BootSector.rootdirSize (bs : BootSector) : ℕ := bs.dirEntries * 32 / fsBlockSize

/-- What `do_fat_read` takes from the boot sector. -/
def mount (bs : BootSector) (fatsize : FatSize) : Volume :=
  let fatlength := if fatsize = .fat32 then bs.fat32Length.setWidth 16 else bs.fatLength
  let rootdirSect := bs.reserved + fatlength * BitVec.ofNat 16 bs.fats.toNat
  let clustSize := BitVec.ofNat 16 bs.clusterSize.toNat
  { fatsize := fatsize
    fatlength := fatlength
    fatSect := bs.reserved
    rootdirSect := rootdirSect
    clustSize := clustSize
    dataBegin :=
      if fatsize = .fat32 then rootdirSect - clustSize * 2
      else rootdirSect + BitVec.ofNat 16 bs.rootdirSize - clustSize * 2 }

/-! ## Names -/

def attrVolume : UInt8 := 8

def attrVfat : UInt8 := 15

def lastLongEntryMask : UInt8 := 0x40

def deletedFlag : UInt8 := 0xe5

def aRing : UInt8 := 0x05

def toLower (c : UInt8) : UInt8 := if 0x41 ≤ c ∧ c ≤ 0x5a then c + 0x20 else c

/-- The first character of a name marks a deleted entry, or stands for another character. -/
def fixFirst : List UInt8 → List UInt8
  | [] => []
  | c :: name =>
    if c = deletedFlag then [] else if c = aRing then deletedFlag :: name else c :: name

/-- A character that is part of a short name. -/
def inName (c : UInt8) : Bool := c ≠ 0 && c ≠ 0x20

/-- An entry of a directory. -/
def DirEntry.read (dir : ℕ → UInt8) (i : ℕ) : DirEntry where
  name := stretch dir (32 * i) 8
  ext := stretch dir (32 * i + 8) 3
  attr := dir (32 * i + 11)
  starthi := BitVec.ofNat 16 (word16 dir (32 * i + 20))
  start := BitVec.ofNat 16 (word16 dir (32 * i + 26))
  size := BitVec.ofNat 32 (word32 dir (32 * i + 28))

def getName (dirent : DirEntry) : List UInt8 :=
  let ext := if inName (dirent.ext.headD 0) then 0x2e :: dirent.ext.takeWhile inName else []
  (fixFirst (dirent.name.takeWhile inName ++ ext)).map toLower

/-- `slotptr->id`. -/
def slotId (dir : ℕ → UInt8) (i : ℕ) : UInt8 := dir (32 * i)

/-- `dentptr->attr`. -/
def slotAttr (dir : ℕ → UInt8) (i : ℕ) : UInt8 := dir (32 * i + 11)

/-- The number of a slot. -/
def slotNumber (dir : ℕ → UInt8) (i : ℕ) : ℕ := (slotId dir i &&& ~~~lastLongEntryMask).toNat

/-- The characters of a slot: the low bytes of `name0_4`, `name5_10` and `name11_12`. -/
def slotChars (dir : ℕ → UInt8) (i : ℕ) : List UInt8 :=
  [1, 3, 5, 7, 9, 14, 16, 18, 20, 22, 24, 28, 30].map fun o => dir (32 * i + o)

/-- The size of `l_name`. -/
def nameSize : ℕ := 256

/-- `slot2str`, after the characters that are in the name: the name, and whether the terminator was
found.  The terminator is stored too. -/
def slot2str (dir : ℕ → UInt8) (i : ℕ) (name : List UInt8) : Option (List UInt8 × Bool) :=
  let chars := (slotChars dir i).takeWhile (· ≠ 0)
  let found := decide ((0 : UInt8) ∈ slotChars dir i)
  if name.length + chars.length + (if found then 1 else 0) ≤ nameSize then
    some (name ++ chars, found)
  else none

/-! ## `get_vfatname` -/

/-- The variables of the walk: the file system, and the buffers `do_fat_read_block` and
`get_vfatname_block`. -/
structure Walk where
  fs : Fsdata
  block : ℕ → UInt8
  vfatBlock : ℕ → UInt8

/-- The first loop: the slot it ends at, or nothing when a number does not fit. -/
def scanSlots (dir : ℕ → UInt8) (last : ℕ) : ℕ → ℕ → Option ℕ
  | 0, slot => some slot
  | counter + 1, slot =>
    if slot < last then
      if slotNumber dir slot = counter + 1 then scanSlots dir last counter (slot + 1) else none
    else some slot

/-- The last loop: the names of the slots before a slot, up to the flag or a terminator. -/
def backNames (dir : ℕ → UInt8) : ℕ → List UInt8 → Option (List UInt8)
  | 0, _ => none
  | slot + 1, name => do
    let r ← slot2str dir slot name
    if r.2 then some r.1
    else if slotId dir slot &&& lastLongEntryMask ≠ 0 then some r.1
    else backNames dir slot r.1

/-- The slots of `get_vfatname_block`. -/
def vfatBlockSlots : ℕ := 65536 / 32

/-- `while (slotptr2->id > 0x01) slotptr2++`, in the buffer. -/
def firstSlot (dir : ℕ → UInt8) : Option ℕ :=
  (List.range vfatBlockSlots).find? fun i => slotId dir i ≤ 1

/-- The names of the slots of `get_vfatname_block` before a slot. -/
def crossNames (dir : ℕ → UInt8) : ℕ → List UInt8 → Option (List UInt8)
  | 0, name => some name
  | slot + 1, name => do
    let r ← slot2str dir slot name
    crossNames dir slot r.1

/-- "Return the real directory entry": the buffer with the entry in the place of the slot. -/
def copyEntry (block : ℕ → UInt8) (i : ℕ) (dir : ℕ → UInt8) (real : ℕ) : ℕ → UInt8 :=
  splice block (32 * i) (stretch dir (32 * real) 32)

/-- What `get_vfatname` leaves: the variables and `l_name`.  On failure the name is empty. -/
abbrev VfatName := Walk × List UInt8

/-- The end of `get_vfatname`. -/
def finishName (st : Walk) (i : ℕ) (dir : ℕ → UInt8) (real : ℕ) (name : List UInt8) :
    Option VfatName :=
  if name.length < nameSize then
    some ({ st with block := copyEntry st.block i dir real }, (fixFirst name).map toLower)
  else none

/-- The slots go on in another cluster. -/
def crossVfatname (d : Disk) (st : Walk) (curclust : BitVec 32) (i slot : ℕ) : Option VfatName :=
  let clust := getFatent d st.fs curclust
  let st := { st with fs := clust.2 }
  if checkClust clust.1 st.fs.fatsize then some (st, [])
  else
    let read := getCluster d st.fs.toVolume clust.1 st.vfatBlock 0
      (st.fs.clustSize.toNat * fsBlockSize)
    let st := { st with vfatBlock := read.1 }
    if read.2 ≠ 0 then some (st, [])
    else do
      let slot2 ← firstSlot st.vfatBlock
      if slot2 + 1 < vfatBlockSlots then
        let name ← crossNames st.vfatBlock (slot2 + 1) []
        let name ← backNames st.block (slot - 1) name
        finishName st i st.vfatBlock (slot2 + 1) name
      else none

def getVfatname (d : Disk) (st : Walk) (curclust : BitVec 32) (i : ℕ) : Option VfatName :=
  let last := 16 * st.fs.clustSize.toNat
  match scanSlots st.block last (slotNumber st.block i) i with
  | none => some (st, [])
  | some slot =>
    if last ≤ slot then crossVfatname d st curclust i slot
    else do
      let name ← backNames st.block slot []
      finishName st i st.block slot name

/-! ## The walk -/

/-- What looking for a name gives. -/
inductive Lookup
  | found (dent : DirEntry)
  | absent
  | error
  deriving DecidableEq

/-- What becomes of an entry: it is passed, or it ends the walk. -/
inductive Verdict
  | next
  | done (r : Lookup)
  deriving DecidableEq

/-- The comparison of the names. -/
def compareNames (fnamecopy : List UInt8) (st : Walk) (i : ℕ) (lname : List UInt8) :
    Walk × Verdict :=
  let dent := DirEntry.read st.block i
  if fnamecopy ≠ getName dent ∧ fnamecopy ≠ lname then (st, .next) else (st, .done (.found dent))

/-- The body of the loop over the entries of a block. -/
def lookEntry (d : Disk) (fnamecopy : List UInt8) (st : Walk) (i : ℕ) : Option (Walk × Verdict) :=
  if slotAttr st.block i &&& attrVolume ≠ 0 then
    if slotAttr st.block i &&& attrVfat ≠ 0 ∧ slotId st.block i &&& lastLongEntryMask ≠ 0 then
      (getVfatname d st 0 i).map fun r => compareNames fnamecopy r.1 i r.2
    else some (st, .next)
  else if slotId st.block i = 0 then some (st, .done .absent)
  else some (compareNames fnamecopy st i [])

def direntsPerBlock : ℕ := fsBlockSize / 32

/-- `disk_read (cursect, mydata->clust_size, do_fat_read_block)`. -/
def readBlock (d : Disk) (cursect : BitVec 32) (st : Walk) : Option Walk :=
  (diskRead d cursect st.fs.clustSize.toNat).map fun bytes =>
    { st with block := splice st.block 0 bytes }

/-- What a walk gives: the places that were looked at, and the result. -/
structure Walked where
  examined : List (BitVec 32 × ℕ)
  result : Lookup

/-- The two loops, an entry at a time: a block is read when its first entry is next.  Nothing when
the turns do not suffice, or when a buffer is left. -/
def rootLoop (d : Disk) (fnamecopy : List UInt8) :
    ℕ → BitVec 32 → ℕ → Walk → Option Walked
  | 0, _, _, _ => none
  | n + 1, cursect, i, st =>
    match (if i = 0 then readBlock d cursect st else some st) with
    | none => some ⟨[], .error⟩
    | some st =>
      match lookEntry d fnamecopy st i with
      | none => none
      | some (_, .done r) => some ⟨[(cursect, i)], r⟩
      | some (st, .next) =>
        (if i + 1 < direntsPerBlock then rootLoop d fnamecopy n cursect (i + 1) st
          else rootLoop d fnamecopy n (cursect + 1) 0 st).map
          fun w => ⟨(cursect, i) :: w.examined, w.result⟩

def isDirDelim (c : UInt8) : Bool := c = 0x2f || c = 0x5c

/-- The path of a file in the root directory: there is a name after the delimiters it begins with,
there is no other delimiter, and the name fits in `fnamecopy`. -/
structure RootPath where
  filename : List UInt8
  noNul : (0 : UInt8) ∉ filename
  ne_nil : filename.dropWhile isDirDelim ≠ []
  noDelim : ∀ c ∈ filename.dropWhile isDirDelim, isDirDelim c = false
  length_lt : (filename.dropWhile isDirDelim).length < 2048

def RootPath.fnamecopy (path : RootPath) : List UInt8 :=
  (path.filename.dropWhile isDirDelim).map toLower

/-- The walk of `do_fat_read` over the root directory. -/
def lookupRoot (d : Disk) (path : RootPath) (st : Walk) (fuel : ℕ) : Option Walked :=
  rootLoop d path.fnamecopy fuel (st.fs.rootdirSect.setWidth 32) 0 st

/-- `do_fat_read`, of a file in the root directory; `st` has what was in the buffers before. -/
def doFatRead (d : Disk) (path : RootPath) (st : Walk) (mem : ℕ → UInt8) (maxsize : BitVec 32)
    (fuel : ℕ) : Option (ℤ × (ℕ → UInt8)) :=
  match readBootsectandvi d with
  | none => some (-1, mem)
  | some (bs, fatsize) =>
    let fs : Fsdata := { mount bs fatsize with fatbuf := st.fs.fatbuf, fatbufnum := -1 }
    match lookupRoot d path { st with fs := fs } fuel with
    | none => none
    | some ⟨_, .found dent⟩ => getContents d fs dent mem maxsize fuel
    | some _ => some (-1, mem)

end Fat
end EmevBsp
