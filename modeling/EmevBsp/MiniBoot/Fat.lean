import EmevBsp.Fat.Root

/-!
# `mini-boot/mmc/mmc.c`: a file from a FAT card

The first boot stage of the card looks for a file in the root directory and copies it to memory.
Numbers of sectors and of clusters are the `int`s of the machine; sizes are natural numbers, since
no caller asks for more than 28 megabytes.  Memory is an array of bytes with the index counted from
the start of the buffer.

The card is what its sectors hold.  A read returns what the driver returns; a read that fails may
have delivered some bytes before.
-/

namespace EmevBsp
namespace MiniBoot

/-! ## The card -/

def mmcBlocklenVal : ℕ := 512

/-- What the sectors hold. -/
abbrev Card := BitVec 32 → ℕ → UInt8

/-- How the reads end, in their order: what the driver returns, and how many bytes were delivered
when that is not 0. -/
structure Io where
  ret : ℕ → ℤ
  got : ℕ → ℕ

/-- Every read succeeds. -/
def Io.ok : Io := ⟨fun _ => 0, fun _ => 0⟩

/-- The bytes of the card from a sector on. -/
def Card.bytes (card : Card) (sector : BitVec 32) : ℕ → UInt8 := fun k =>
  card (sector + BitVec.ofNat 32 (k / mmcBlocklenVal)) (k % mmcBlocklenVal)

/-- `hw_if->multi_read`, the read with number `calls`: what it returns, and the memory. -/
def multiRead (card : Card) (io : Io) (calls : ℕ) (addr : BitVec 32) (mem : ℕ → UInt8)
    (buf num : ℕ) : ℤ × (ℕ → UInt8) :=
  let data := stretch (card.bytes addr) 0 (mmcBlocklenVal * num)
  (io.ret calls, splice mem buf (if io.ret calls = 0 then data else data.take (io.got calls)))

/-- `hw_if->single_read`. -/
def singleRead (card : Card) (io : Io) (calls : ℕ) (addr : BitVec 32) (mem : ℕ → UInt8) :
    ℤ × (ℕ → UInt8) :=
  multiRead card io calls addr mem 0 1

/-! ## The volume -/

/-- The fields of `fat_info_t` that stay as they are.  In FAT32 `rde_sec_pos` is the first cluster
of the root directory. -/
structure FatInfo where
  fatSecPos : BitVec 32
  rdeSecPos : BitVec 32
  userSecPos : BitVec 32
  secPerClus : ℕ
  rootEntry : BitVec 32
  secPerFat : ℕ
  secRdeSize : ℕ
  secPerClus_pos : 0 < secPerClus

/-- The fields of `fat_info_t` that change, the buffers `read_data` and `rde_clus_data`, and the
number of reads so far. -/
structure Boot where
  dataNumClus : BitVec 32
  nowFatSec : BitVec 32
  readData : ℕ → UInt8
  rdeClusData : ℕ → UInt8
  calls : ℕ

/-- `fat32_flag`. -/
def FatInfo.fat32 (info : FatInfo) : Bool := info.rootEntry = 0

def FatInfo.clusSize (info : FatInfo) : ℕ := mmcBlocklenVal * info.secPerClus

def FatInfo.readClusSec (info : FatInfo) (clus : BitVec 32) : BitVec 32 :=
  info.userSecPos + (clus - 2) * BitVec.ofNat 32 info.secPerClus

/-! ## The table -/

def fatSecNum (fat32 : Bool) (clus : BitVec 32) : BitVec 32 :=
  clus.sshiftRight (if fat32 then 7 else 8)

/-- `get_clus`, out of `read_fat32_buf` or `read_fat_buf`. -/
def getClus (fat32 : Bool) (buf : ℕ → UInt8) (clus : BitVec 32) : BitVec 32 :=
  if fat32 then BitVec.ofNat 32 (Fat.le32 buf (clus &&& 0x7f).toNat)
  else BitVec.ofNat 32 (Fat.le16 buf (clus &&& 0xff).toNat)

/-- Not `get_clus < 2 || get_clus > 0x0FFFFFF6`, and for FAT16 with `0xFFF6`. -/
def isData (fat32 : Bool) (clus : BitVec 32) : Bool :=
  2 ≤ clus.toInt && clus.toInt ≤ if fat32 then 0x0ffffff6 else 0xfff6

/-- `get_clus >= 0x0FFFFFF8 && get_clus <= 0x0FFFFFFF`, and for FAT16 with `0xFFF8` and `0xFFFF`. -/
def isLast (fat32 : Bool) (clus : BitVec 32) : Bool :=
  (if fat32 then 0x0ffffff8 else 0xfff8) ≤ clus.toInt &&
    clus.toInt ≤ if fat32 then 0x0fffffff else 0xffff

/-- The sector of the table with the entry of a cluster is brought into `read_data`, unless it is
there. -/
def lookFat (card : Card) (io : Io) (info : FatInfo) (s : Boot) (clus : BitVec 32) : ℤ × Boot :=
  let num := fatSecNum info.fat32 clus
  if s.nowFatSec ≠ num then
    let r := singleRead card io s.calls (info.fatSecPos + num) s.readData
    let s := { s with readData := r.2, calls := s.calls + 1 }
    if r.1 ≠ 0 then (r.1, s) else (0, { s with nowFatSec := num })
  else (0, s)

/-! ## `fat_cpy_data` -/

/-- The loop: what it returns, the memory, and the variables. -/
def cpyLoop (card : Card) (io : Io) (info : FatInfo) (maxSize : ℕ) (s : Boot) (mem : ℕ → UInt8)
    (writeSize : ℕ) : ℤ × (ℕ → UInt8) × Boot :=
  if h : writeSize + info.clusSize ≤ maxSize then
    let r := multiRead card io s.calls (info.readClusSec s.dataNumClus) mem writeSize
      info.secPerClus
    let s := { s with calls := s.calls + 1 }
    if r.1 ≠ 0 then (r.1, r.2, s)
    else
      let f := lookFat card io info s s.dataNumClus
      if f.1 ≠ 0 then (f.1, r.2, f.2)
      else
        let clus := getClus info.fat32 f.2.readData s.dataNumClus
        if isData info.fat32 clus then
          cpyLoop card io info maxSize { f.2 with dataNumClus := clus } r.2
            (writeSize + info.clusSize)
        else (if isLast info.fat32 clus then 0 else -1, r.2, f.2)
  else (-1, mem, s)
termination_by maxSize - writeSize
decreasing_by
  have hpos : 0 < info.clusSize := Nat.mul_pos (by decide) info.secPerClus_pos
  omega

/-- `fat_cpy_data`; `mem` is the memory from `start_addr` on. -/
def fatCpyData (card : Card) (io : Io) (info : FatInfo) (s : Boot) (mem : ℕ → UInt8)
    (maxSize : ℕ) : ℤ × (ℕ → UInt8) × Boot :=
  cpyLoop card io info maxSize s mem 0

/-- `SD_BOOT_MAX_LOADSIZE`: the room for the boot loader. -/
def sdBootMaxLoadsize : ℕ := 0x40000

/-! ## `fat_get_cluster` -/

/-- `LOAD_TYPE_UBOOT`, `LOAD_TYPE_KERNEL` and `LOAD_TYPE_FS`. -/
inductive LoadType
  | uboot
  | kernel
  | fs
  deriving DecidableEq

/-- `match_name`: "uboot-sd", "uImage  " and "cramfs  ". -/
def matchName : LoadType → List UInt8
  | .uboot => [0x75, 0x62, 0x6f, 0x6f, 0x74, 0x2d, 0x73, 0x64]
  | .kernel => [0x75, 0x49, 0x6d, 0x61, 0x67, 0x65, 0x20, 0x20]
  | .fs => [0x63, 0x72, 0x61, 0x6d, 0x66, 0x73, 0x20, 0x20]

/-- `MATCH_NAME`: "UBOOT-SD", "UIMAGE  " and "CRAMFS  ". -/
def matchNameUpper : LoadType → List UInt8
  | .uboot => [0x55, 0x42, 0x4f, 0x4f, 0x54, 0x2d, 0x53, 0x44]
  | .kernel => [0x55, 0x49, 0x4d, 0x41, 0x47, 0x45, 0x20, 0x20]
  | .fs => [0x43, 0x52, 0x41, 0x4d, 0x46, 0x53, 0x20, 0x20]

def matchExet : List UInt8 := [0x62, 0x69, 0x6e]

/-- `MACTH_EXET`. -/
def matchExetUpper : List UInt8 := [0x42, 0x49, 0x4e]

/-- The fields of `RDEntry` that are used. -/
structure RDEntry where
  name : List UInt8
  extension : List UInt8
  attr : UInt8
  clusterHighWord : BitVec 16
  cluster : BitVec 16
  deriving DecidableEq

/-- An entry of a directory, at its place. -/
def RDEntry.read (dir : ℕ → UInt8) (j : ℕ) : RDEntry where
  name := stretch dir (32 * j) 8
  extension := stretch dir (32 * j + 8) 3
  attr := dir (32 * j + 11)
  clusterHighWord := BitVec.ofNat 16 (Fat.word16 dir (32 * j + 20))
  cluster := BitVec.ofNat 16 (Fat.word16 dir (32 * j + 26))

/-- The comparisons with the name of the file. -/
def RDEntry.matches (type : LoadType) (rde : RDEntry) : Bool :=
  (rde.name = matchName type || rde.name = matchNameUpper type) &&
    (type ≠ .uboot || rde.extension = matchExet || rde.extension = matchExetUpper)

/-- What `data_num_clus` is set to. -/
def RDEntry.firstClus (fat32 : Bool) (rde : RDEntry) : BitVec 32 :=
  if fat32 then rde.cluster.setWidth 32 ||| rde.clusterHighWord.setWidth 32 <<< (16 : ℕ)
  else rde.cluster.setWidth 32

/-- The first `n` entries of a directory. -/
def entries (dir : ℕ → UInt8) (n : ℕ) : List RDEntry := (List.range n).map (RDEntry.read dir)

/-- The loop over the sectors of the root directory of FAT16, from sector `i` on. -/
def rootArea (card : Card) (io : Io) (info : FatInfo) (type : LoadType) : ℕ → ℕ → Boot → ℤ × Boot
  | 0, _, s => (-1, s)
  | n + 1, i, s =>
    let r := singleRead card io s.calls (info.rdeSecPos + BitVec.ofNat 32 i) s.readData
    let s := { s with readData := r.2, calls := s.calls + 1 }
    if r.1 ≠ 0 then (r.1, s)
    else
      match (entries s.readData 16).find? (RDEntry.matches type) with
      | some rde => (0, { s with dataNumClus := rde.firstClus info.fat32 })
      | none => rootArea card io info type n (i + 1) s

/-- The loop over the clusters of the root directory of FAT32.  It gives nothing when the iterations
do not suffice. -/
def rootChain (card : Card) (io : Io) (info : FatInfo) (type : LoadType) :
    ℕ → BitVec 32 → Boot → Option (ℤ × Boot)
  | 0, _, _ => none
  | n + 1, rdeClus, s =>
    let r := multiRead card io s.calls (info.readClusSec rdeClus) s.rdeClusData 0 info.secPerClus
    let s := { s with rdeClusData := r.2, calls := s.calls + 1 }
    if r.1 ≠ 0 then some (r.1, s)
    else
      match (entries s.rdeClusData (16 * info.secPerClus)).find? (RDEntry.matches type) with
      | some rde => some (0, { s with dataNumClus := rde.firstClus info.fat32 })
      | none =>
        let f := lookFat card io info s rdeClus
        if f.1 ≠ 0 then some f
        else
          let clus := getClus info.fat32 f.2.readData rdeClus
          if isData info.fat32 clus then rootChain card io info type n clus f.2 else some (-1, f.2)

def fatGetCluster (card : Card) (io : Io) (info : FatInfo) (type : LoadType) (s : Boot)
    (fuel : ℕ) : Option (ℤ × Boot) :=
  if info.fat32 then rootChain card io info type fuel info.rdeSecPos s
  else some (rootArea card io info type info.secRdeSize 0 s)

end MiniBoot
end EmevBsp
