import EmevBsp.Library.Stretch
import Mathlib.Data.BitVec

/-!
# `fs/fat/fat.c`: the table and the contents of a file

The numbers of blocks and of clusters are 32 bits, as are the `unsigned long` of the machine.  The
device is what its blocks hold and which reads fail; `disk_read` looks at nothing but the sign of
what the driver returns.  Memory is an array of bytes with the index counted from the buffer of the
caller.
-/

namespace EmevBsp
namespace Fat

/-! ## The device -/

def fsBlockSize : ℕ := 512

/-- A device with a partition. -/
structure Disk where
  partOffset : BitVec 32
  block : BitVec 32 → ℕ → UInt8
  fails : BitVec 32 → ℕ → Bool

/-- The bytes of the partition from a block on. -/
def Disk.bytes (d : Disk) (startblock : BitVec 32) : ℕ → UInt8 := fun k =>
  d.block (startblock + d.partOffset + BitVec.ofNat 32 (k / fsBlockSize)) (k % fsBlockSize)

/-- `disk_read`, into a buffer of its own. -/
def diskRead (d : Disk) (startblock : BitVec 32) (getsize : ℕ) : Option (List UInt8) :=
  if d.fails (startblock + d.partOffset) getsize then none
  else some (stretch (d.bytes startblock) 0 (fsBlockSize * getsize))

/-! ## The volume -/

/-- `fatsize`: the size of a FAT entry in bits. -/
inductive FatSize
  | fat12
  | fat16
  | fat32
  deriving DecidableEq

/-- The part of `fsdata` that describes the volume.  `data_begin` is signed. -/
structure Volume where
  fatsize : FatSize
  fatlength : BitVec 16
  fatSect : BitVec 16
  rootdirSect : BitVec 16
  clustSize : BitVec 16
  dataBegin : BitVec 16

/-- `fsdata`: the volume, and the cache of `get_fatent`. -/
structure Fsdata extends Volume where
  fatbuf : ℕ → UInt8
  fatbufnum : BitVec 32

/-- The fields of `dir_entry` that are used. -/
structure DirEntry where
  name : List UInt8
  ext : List UInt8
  attr : UInt8
  starthi : BitVec 16
  start : BitVec 16
  size : BitVec 32
  deriving DecidableEq

/-- `START`. -/
def startClust (v : Volume) (dent : DirEntry) : BitVec 32 :=
  dent.start.setWidth 32 +
    if v.fatsize ≠ .fat32 then 0 else dent.starthi.setWidth 32 <<< (16 : ℕ)

def checkClust (x : BitVec 32) (fatsize : FatSize) : Bool :=
  x ≤ 1 || (if fatsize ≠ .fat32 then 0xfff0 else 0xffffff0) ≤ x

/-! ## `get_fatent` -/

def fatBufBlocks : ℕ := 6

def fatBufSize : ℕ := fsBlockSize * fatBufBlocks

/-- `FAT12BUFSIZE`, `FAT16BUFSIZE` and `FAT32BUFSIZE`: the entries of a block of the cache. -/
def FatSize.bufSize : FatSize → ℕ
  | .fat12 => fatBufSize * 2 / 3
  | .fat16 => fatBufSize / 2
  | .fat32 => fatBufSize / 4

/-- `((__u16 *) buf)[i]`. -/
def le16 (buf : ℕ → UInt8) (i : ℕ) : ℕ := (buf (2 * i)).toNat + 256 * (buf (2 * i + 1)).toNat

/-- `((__u32 *) buf)[i]`. -/
def le32 (buf : ℕ → UInt8) (i : ℕ) : ℕ := le16 buf (2 * i) + 65536 * le16 buf (2 * i + 1)

/-- "Get the actual entry from the table". -/
def entryAt (fatsize : FatSize) (fatbuf : ℕ → UInt8) (offset : ℕ) : ℕ :=
  match fatsize with
  | .fat32 => le32 fatbuf offset
  | .fat16 => le16 fatbuf offset
  | .fat12 =>
    let off16 := offset * 3 / 4
    if offset &&& 3 = 0 then le16 fatbuf off16 &&& 0xfff
    else if offset &&& 3 = 1 then
      ((le16 fatbuf (off16 + 1) &&& 0xff) <<< 4) ||| ((le16 fatbuf off16 &&& 0xf000) >>> 12)
    else if offset &&& 3 = 2 then
      ((le16 fatbuf (off16 + 1) &&& 0xf) <<< 8) ||| ((le16 fatbuf off16 &&& 0xff00) >>> 8)
    else (le16 fatbuf off16 &&& 0xfff0) >>> 4

/-- "Read a new block of FAT entries into the cache". -/
def readFatbuf (d : Disk) (fs : Fsdata) (bufnum : BitVec 32) : Option Fsdata :=
  let getsize := min fatBufBlocks (fs.fatlength.toNat * fsBlockSize)
  (diskRead d (bufnum * BitVec.ofNat 32 fatBufBlocks + fs.fatSect.setWidth 32) getsize).map
    fun block => { fs with fatbuf := splice fs.fatbuf 0 block, fatbufnum := bufnum }

def getFatent (d : Disk) (fs : Fsdata) (entry : BitVec 32) : BitVec 32 × Fsdata :=
  let bufnum := entry / BitVec.ofNat 32 fs.fatsize.bufSize
  let offset := entry - bufnum * BitVec.ofNat 32 fs.fatsize.bufSize
  if bufnum ≠ fs.fatbufnum then
    match readFatbuf d fs bufnum with
    | none => (0, fs)
    | some fs' => (BitVec.ofNat 32 (entryAt fs.fatsize fs'.fatbuf offset.toNat), fs')
  else (BitVec.ofNat 32 (entryAt fs.fatsize fs.fatbuf offset.toNat), fs)

/-! ## `get_cluster` -/

/-- The first block of a cluster, or of the root directory. -/
def startSect (v : Volume) (clustnum : BitVec 32) : BitVec 32 :=
  if 0 < clustnum then v.dataBegin.signExtend 32 + clustnum * v.clustSize.setWidth 32
  else v.rootdirSect.setWidth 32

/-- `get_cluster`: the memory, and the result.  What does not fill a block is read into a buffer of
its own first. -/
def getCluster (d : Disk) (v : Volume) (clustnum : BitVec 32) (mem : ℕ → UInt8) (buffer size : ℕ) :
    (ℕ → UInt8) × ℤ :=
  let startsect := startSect v clustnum
  match diskRead d startsect (size / fsBlockSize) with
  | none => (mem, -1)
  | some whole =>
    let mem := splice mem buffer whole
    if size % fsBlockSize ≠ 0 then
      let idx := size / fsBlockSize
      match diskRead d (startsect + BitVec.ofNat 32 idx) 1 with
      | none => (mem, -1)
      | some tmpbuf =>
        (splice mem (buffer + idx * fsBlockSize) (tmpbuf.take (size % fsBlockSize)), 0)
    else (mem, 0)

/-! ## `get_contents` -/

/-- The variables of the loop; `buffer` counts from the buffer of the caller. -/
structure Contents where
  fs : Fsdata
  mem : ℕ → UInt8
  curclust : BitVec 32
  endclust : BitVec 32
  actsize : BitVec 32
  filesize : BitVec 32
  gotsize : BitVec 32
  buffer : ℕ

def bytesperclust (v : Volume) : BitVec 32 :=
  v.clustSize.setWidth 32 * BitVec.ofNat 32 fsBlockSize

/-- "get remaining clusters" and "get remaining bytes". -/
def Contents.finish (d : Disk) (s : Contents) : BitVec 32 × (ℕ → UInt8) :=
  let actsize := s.actsize - bytesperclust s.fs.toVolume
  let clusters := getCluster d s.fs.toVolume s.curclust s.mem s.buffer actsize.toNat
  if clusters.2 ≠ 0 then (-1, clusters.1)
  else
    let filesize := s.filesize - actsize
    let rest := getCluster d s.fs.toVolume s.endclust clusters.1 (s.buffer + actsize.toNat)
      filesize.toNat
    if rest.2 ≠ 0 then (-1, rest.1) else (s.gotsize + actsize + filesize, rest.1)

/-- The loop: an iteration looks at one entry of the table.  It gives the result and the memory, or
nothing when the iterations do not suffice. -/
def getContentsLoop (d : Disk) : ℕ → Contents → Option (BitVec 32 × (ℕ → UInt8))
  | 0, _ => none
  | n + 1, s =>
    let v := s.fs.toVolume
    if s.actsize < s.filesize then
      let fatent := getFatent d s.fs s.endclust
      if fatent.1 - 1 ≠ s.endclust then
        let run := getCluster d v s.curclust s.mem s.buffer s.actsize.toNat
        if run.2 ≠ 0 then some (-1, run.1)
        else
          let curclust := getFatent d fatent.2 s.endclust
          if checkClust curclust.1 v.fatsize then some (s.gotsize + s.actsize, run.1)
          else getContentsLoop d n
            { fs := curclust.2, mem := run.1, curclust := curclust.1, endclust := curclust.1,
              actsize := bytesperclust v, filesize := s.filesize - s.actsize,
              gotsize := s.gotsize + s.actsize, buffer := s.buffer + s.actsize.toNat }
      else if checkClust fatent.1 v.fatsize then some (s.gotsize, s.mem)
      else getContentsLoop d n
        { s with fs := fatent.2, endclust := fatent.1, actsize := s.actsize + bytesperclust v }
    else some (s.finish d)

/-- The number of bytes that are asked for. -/
def wanted (dent : DirEntry) (maxsize : BitVec 32) : BitVec 32 :=
  if 0 < maxsize ∧ maxsize < dent.size then maxsize else dent.size

/-- `get_contents`, of which the result is a `long`. -/
def getContents (d : Disk) (fs : Fsdata) (dent : DirEntry) (mem : ℕ → UInt8) (maxsize : BitVec 32)
    (fuel : ℕ) : Option (ℤ × (ℕ → UInt8)) :=
  (getContentsLoop d fuel
    { fs := fs, mem := mem, curclust := startClust fs.toVolume dent,
      endclust := startClust fs.toVolume dent, actsize := bytesperclust fs.toVolume,
      filesize := wanted dent maxsize, gotsize := 0, buffer := 0 }).map
    fun r => (r.1.toInt, r.2)

end Fat
end EmevBsp
