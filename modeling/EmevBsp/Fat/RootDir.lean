import EmevBsp.Fat.Names
import Mathlib.Data.List.Chain

/-!
# Looking for a file in the root directory

The root directory of FAT12 and FAT16 is an area of fixed size, that of FAT32 a chain of clusters.
`Image` is a disk with a valid boot sector and its root directory; `Image.rootByte` are the bytes of
the directory.

`do_fat_read` goes through the blocks from `rootdir_sect` on, one after the other, and ends only at
an end marker or a match.  It never asks how long the directory is, nor where its clusters are; a
long name that runs past its buffer is looked for where entry 0 of the table says.

What the walk finds is right exactly when it ends where the directory still is where it looks, and
what `get_vfatname` makes of the slots on the way misses the name where it should (`EndsRight`).
An ordinary long name inside the buffer is always made of them (`shown_of_fits`).

* `walk_eq`, `walk_inv`: the entries that are looked at, and what ends the walk.
* `passes_iff`, `ends_found_iff`: one entry of it.
* `lookupRoot_iff`: when a file is looked for as it should be.
-/

namespace EmevBsp
namespace Fat

/-! ## Images -/

/-- The first block of the data area. -/
def BootSector.dataSect (bs : BootSector) (fatsize : FatSize) : ℕ :=
  if fatsize = .fat32 then bs.reserved.toNat + bs.fats.toNat * bs.fat32Length.toNat
  else bs.reserved.toNat + bs.fats.toNat * bs.fatLength.toNat + bs.rootdirSize

/-- The blocks of a cluster. -/
def BootSector.clusterSects (bs : BootSector) (fatsize : FatSize) (c : BitVec 32) :
    List (BitVec 32) :=
  (List.range bs.clusterSize.toNat).map fun i =>
    BitVec.ofNat 32 (bs.dataSect fatsize + (c.toNat - 2) * bs.clusterSize.toNat + i)

/-- A FAT image: a device that can be read and has a valid boot sector, and the clusters of the root
directory if it is FAT32. -/
structure Image where
  disk : Disk
  bs : BootSector
  fatsize : FatSize
  readable : disk.Readable
  boot : readBootsectandvi disk = some (bs, fatsize)
  sectorSize : bs.sectorSize = fsBlockSize
  clusterSize : bs.clusterSize.toNat ∈ [1, 2, 4, 8, 16, 32, 64, 128]
  reserved : 0 < bs.reserved
  fats : 0 < bs.fats
  dirEntries : fatsize ≠ .fat32 → bs.dirEntries % direntsPerBlock = 0
  chain : List (BitVec 32)
  head : fatsize = .fat32 → chain.head? = some bs.rootCluster
  linked : chain.IsChain (Linked disk (mount bs fatsize))
  inside : ∀ c ∈ chain, 2 ≤ c
  last : ∀ c ∈ chain.getLast?, 0xffffff8 ≤ fatEntry disk (mount bs fatsize) c.toNat

namespace Image

variable (img : Image)

/-- The volume. -/
def vol : Volume := mount img.bs img.fatsize

/-- The blocks of the root directory. -/
def rootSects : List (BitVec 32) :=
  if img.fatsize = .fat32 then img.chain.flatMap (img.bs.clusterSects img.fatsize)
  else (List.range img.bs.rootdirSize).map fun i =>
    BitVec.ofNat 32 (img.bs.reserved.toNat + img.bs.fats.toNat * img.bs.fatLength.toNat + i)

/-- The number of entries of the root directory. -/
def rootCount : ℕ := direntsPerBlock * img.rootSects.length

/-- The bytes of the root directory. -/
def rootByte : ℕ → UInt8 := fun x =>
  img.disk.bytes (img.rootSects.getD (x / fsBlockSize) 0) (x % fsBlockSize)

/-- The places of the entries of the root directory. -/
def rootPlaces : List (BitVec 32 × ℕ) :=
  img.rootSects.flatMap fun s => (List.range direntsPerBlock).map fun i => (s, i)

/-- The first block that is looked at. -/
def base : BitVec 32 := img.vol.rootdirSect.setWidth 32

/-- The variables at the start of the walk; `st` are the buffers as they were. -/
def start (st : Walk) : Walk :=
  { st with fs := { img.vol with fatbuf := st.fs.fatbuf, fatbufnum := -1 } }

/-- The root directory is where the walk is, up to an entry. -/
def SameUpTo (p : ℕ) : Prop :=
  ∀ k ≤ p / direntsPerBlock, img.rootSects[k]? = some (img.base + BitVec.ofNat 32 k)

end Image

variable (img : Image) (name : List UInt8)

/-- **What looking for a file has to do.** -/
def FindsFile (img : Image) (path : RootPath) (st : Walk) : Prop :=
  ∃ n, ∀ fuel ≥ n, ∃ w, lookupRoot img.disk path (img.start st) fuel = some w ∧
    w.examined <+: img.rootPlaces ∧
    (∀ dent, w.result = .found dent → ∃ p < w.examined.length,
      (∀ q ≤ p, ¬ EndMarker img.rootByte q) ∧
        Carries img.rootByte img.rootCount p path.fnamecopy ∧ dent = fileEntry img.rootByte p) ∧
    ((∃ p < img.rootCount, (∀ q ≤ p, ¬ EndMarker img.rootByte q) ∧
      Carries img.rootByte img.rootCount p path.fnamecopy) → ∃ dent, w.result = .found dent)

/-- The place where the walk has entry `p`. -/
def Image.place (img : Image) (p : ℕ) : BitVec 32 × ℕ :=
  (img.base + BitVec.ofNat 32 (p / direntsPerBlock), p % direntsPerBlock)

/-- What `get_vfatname` makes of the slots from `i` on, if a long name begins there. -/
def entryName (d : Disk) (st : Walk) (i : ℕ) : Option VfatName :=
  if Flagged st.block i then getVfatname d st 0 i else some (st, [])

/-- The variables at entry `p` when the entries before it have been passed: its block is in the
buffer, with the first slots of long names overwritten. -/
def Image.before (img : Image) (st : Walk) : ℕ → Option Walk
  | 0 => readBlock img.disk (img.place 0).1 (img.start st)
  | p + 1 => do
    let s ← img.before st p
    let r ← entryName img.disk s (p % direntsPerBlock)
    if (p + 1) % direntsPerBlock = 0 then readBlock img.disk (img.place (p + 1)).1 r.1
    else some r.1

/-- What `get_vfatname` makes of a slot of the root directory: the long name, and the entry.  There
is nothing where it leaves its buffers. -/
def Image.shown (img : Image) (st : Walk) (p : ℕ) : Option (List UInt8 × DirEntry) :=
  (img.before st p).bind fun s => (entryName img.disk s (p % direntsPerBlock)).map fun r =>
    (r.2, DirEntry.read r.1.block (p % direntsPerBlock))

/-- An entry of the directory is passed: it does not carry the name, or it is the first slot of a
long name, and what is made of that is not the name. -/
def Misses (img : Image) (st : Walk) (name : List UInt8) (p : ℕ) : Prop :=
  if Flagged img.rootByte p then
    ∃ l dent, img.shown st p = some (l, dent) ∧ ¬ (getName dent = name ∨ l = name)
  else ¬ Carries img.rootByte img.rootCount p name

/-- An entry of the directory is taken for the file with the entry `dent`. -/
def Hits (img : Image) (st : Walk) (name : List UInt8) (p : ℕ) (dent : DirEntry) : Prop :=
  if Flagged img.rootByte p then
    ∃ l, img.shown st p = some (l, dent) ∧ (getName dent = name ∨ l = name)
  else Carries img.rootByte img.rootCount p name ∧ dent = fileEntry img.rootByte p

/-- The walk ends at entry `m`, and rightly so: the root directory up to there is where the walk is,
the entries before are passed, and at the end marker none of them carries the name, or the entry
is taken for a file that carries it. -/
structure EndsRight (img : Image) (st : Walk) (name : List UInt8) (m : ℕ) : Prop where
  lt : m < img.rootCount
  same : img.SameUpTo m
  passed : ∀ q < m, ¬ EndMarker img.rootByte q ∧ Misses img st name q
  stop : (EndMarker img.rootByte m ∧ ∀ q < m, ¬ Carries img.rootByte img.rootCount q name) ∨
    ∃ dent, Hits img st name m dent ∧
      ∃ p ≤ m, Carries img.rootByte img.rootCount p name ∧ dent = fileEntry img.rootByte p

/-- A long name whose slots, and the entry after them, are in the buffer. -/
def Fits (p : ℕ) : Prop :=
  ∃ n, Sequence img.rootByte p n ∧ p + n < img.rootCount ∧ img.SameUpTo (p + n) ∧
    p % direntsPerBlock + n < 16 * img.vol.clustSize.toNat ∧
    (longText img.rootByte p n).length < nameSize

/-! ## The places -/

variable {img : Image} {name : List UInt8}

section Turn

variable {st : Walk} {p : ℕ}

theorem Image.clustSize_pos (img : Image) : 0 < img.vol.clustSize.toNat := by
  have hmem := img.clusterSize
  have hlt : img.bs.clusterSize.toNat < 256 := img.bs.clusterSize.toNat_lt
  have hpos : img.bs.clusterSize.toNat ≠ 0 := by
    intro h0
    rw [h0] at hmem
    exact absurd hmem (by decide)
  change 0 < (BitVec.ofNat 16 img.bs.clusterSize.toNat).toNat
  rw [BitVec.toNat_ofNat]
  omega

/-- The buffer holds the blocks from the one of an entry on, from that entry on. -/
def Loaded (img : Image) (st : Walk) (p : ℕ) : Prop :=
  ∀ x, 32 * (p % direntsPerBlock) ≤ x → x < fsBlockSize * img.vol.clustSize.toNat →
    st.block x = img.disk.bytes img.base (fsBlockSize * (p / direntsPerBlock) + x)

theorem readBlock_loaded (hvol : st.fs.toVolume = img.vol) (p : ℕ) :
    ∃ st', readBlock img.disk (img.place p).1 st = some st' ∧ st'.fs = st.fs ∧
      Loaded img st' p := by
  have hclust : st.fs.clustSize = img.vol.clustSize := by rw [hvol]
  refine ⟨{ st with block := splice st.block 0 (stretch (img.disk.bytes (img.place p).1) 0
    (fsBlockSize * img.vol.clustSize.toNat)) }, ?_, rfl, ?_⟩
  · rw [readBlock, diskRead_eq img.readable, Option.map_some, hclust]
  · intro x _ hx
    have hget : (stretch (img.disk.bytes (img.place p).1) 0
        (fsBlockSize * img.vol.clustSize.toNat))[x]? = some (img.disk.bytes img.base
          (fsBlockSize * (p / direntsPerBlock) + x)) := by
      rw [getElem?_stretch hx, Nat.zero_add, Image.place, Disk.bytes_add]
    have hsplice := splice_add (f := st.block) (s := 0) hget
    rwa [Nat.zero_add] at hsplice

theorem Loaded.succ {st' : Walk} (hl : Loaded img st p) (hk : Kept st st' (p % direntsPerBlock))
    (h0 : (p + 1) % direntsPerBlock ≠ 0) : Loaded img st' (p + 1) := by
  have hsize : direntsPerBlock = 16 := rfl
  intro x hx hlt
  rw [hsize] at h0 hx hk ⊢
  have hmod : (p + 1) % 16 = p % 16 + 1 := by omega
  have hdiv : (p + 1) / 16 = p / 16 := by omega
  rw [hmod] at hx
  rw [hk.2 x hx, hl x (by rw [hsize]; omega) hlt, hsize, hdiv]

theorem entryName_kept {r : VfatName} {i : ℕ} (h : entryName img.disk st i = some r) :
    Kept st r.1 i := by
  rw [entryName] at h
  split_ifs at h with hflag
  · exact getVfatname_kept h
  · obtain rfl := Option.some.inj h
    exact Kept.refl st i

/-- The walk from an entry on. -/
def walk (img : Image) (name : List UInt8) (n p : ℕ) (st : Walk) : Option Walked :=
  rootLoop img.disk name n (img.place p).1 (img.place p).2 st

/-- The variables of the walk before it gets to an entry; at the first entry of a block that is to
be read. -/
def Starts (img : Image) (st : Walk) (p : ℕ) (s : Walk) : Prop :=
  (if p % direntsPerBlock = 0 then readBlock img.disk (img.place p).1 s else some s) =
    img.before st p

variable {s s' : Walk}

theorem starts_zero (st : Walk) : Starts img st 0 (img.start st) := if_pos rfl

theorem starts_succ {r : VfatName} (hs : img.before st p = some s)
    (hr : entryName img.disk s (p % direntsPerBlock) = some r) : Starts img st (p + 1) r.1 := by
  rw [Starts, Image.before, hs, Option.bind_eq_bind, Option.bind_some, hr, Option.bind_eq_bind,
    Option.bind_some]

theorem Starts.exists_before (h : Starts img st p s) : ∃ s', img.before st p = some s' := by
  rw [← h]
  split_ifs
  · rw [readBlock, diskRead_eq img.readable]
    exact ⟨_, rfl⟩
  · exact ⟨s, rfl⟩

/-- **The buffer at an entry**, whatever the slots before it are. -/
theorem before_loaded (h : img.before st p = some s) :
    s.fs.toVolume = img.vol ∧ Loaded img s p := by
  induction p generalizing s with
  | zero =>
    have hvol : (img.start st).fs.toVolume = img.vol := rfl
    obtain ⟨s', hread, hfs, hl⟩ := readBlock_loaded hvol 0
    obtain rfl : s' = s := Option.some.inj (hread.symm.trans h)
    exact ⟨congrArg Fsdata.toVolume hfs, hl⟩
  | succ p ih =>
    rw [Image.before, Option.bind_eq_bind, Option.bind_eq_some_iff] at h
    obtain ⟨s₀, hs₀, h⟩ := h
    rw [Option.bind_eq_bind, Option.bind_eq_some_iff] at h
    obtain ⟨r, hr, h⟩ := h
    obtain ⟨hvol, hl⟩ := ih hs₀
    have hkept := entryName_kept hr
    split_ifs at h with h0
    · obtain ⟨s', hread, hfs, hl'⟩ := readBlock_loaded (hkept.1.trans hvol) (p + 1)
      obtain rfl : s' = s := Option.some.inj (hread.symm.trans h)
      exact ⟨(congrArg Fsdata.toVolume hfs).trans (hkept.1.trans hvol), hl'⟩
    · obtain rfl := Option.some.inj h
      exact ⟨hkept.1.trans hvol, hl.succ hkept h0⟩

theorem entryName_of_next {i : ℕ} (h : lookEntry img.disk name s i = some (s', .next)) :
    ∃ l, entryName img.disk s i = some (s', l) := by
  rw [entryName]
  by_cases hflag : Flagged s.block i
  · rw [lookEntry_of_flagged hflag, Option.map_eq_some_iff] at h
    obtain ⟨v, hv, hcmp⟩ := h
    have hfst : (compareNames name v.1 i v.2).1 = v.1 := compareNames_fst v.2
    obtain rfl : s' = v.1 := by rwa [hcmp] at hfst
    exact ⟨v.2, by rw [if_pos hflag, hv]⟩
  · refine ⟨[], ?_⟩
    rw [if_neg hflag]
    by_cases hvol : slotAttr s.block i &&& attrVolume = 0
    · by_cases hid : slotId s.block i = 0
      · rw [lookEntry_of_endMarker ⟨hvol, hid⟩] at h
        cases h
      · rw [lookEntry_of_entry hvol hid] at h
        have hfst : (compareNames name s i []).1 = s := compareNames_fst []
        obtain rfl : s' = s := by rwa [Option.some.inj h] at hfst
        rfl
    · rw [lookEntry_of_label hvol hflag] at h
      rw [(Prod.mk.inj (Option.some.inj h)).1]

/-! ## What the walk looks at -/

/-- The walk goes on after an entry. -/
def GoesOn (img : Image) (st : Walk) (name : List UInt8) (p : ℕ) : Prop :=
  ∃ s s', img.before st p = some s ∧
    lookEntry img.disk name s (p % direntsPerBlock) = some (s', .next)

theorem GoesOn.exists_before (h : GoesOn img st name p) :
    ∃ s, img.before st (p + 1) = some s := by
  obtain ⟨s, s', hs, hlook⟩ := h
  obtain ⟨l, hname⟩ := entryName_of_next hlook
  exact (starts_succ hs hname).exists_before

end Turn

/-! ## What the walk finds -/

section Find

variable {st s : Walk} {p : ℕ} {dent : DirEntry}

theorem Image.SameUpTo.sameSlot {q : ℕ} (h : img.SameUpTo p) (hq : q ≤ p) :
    SameSlot (img.disk.bytes img.base) img.rootByte q q := by
  intro o ho
  have hdiv : (32 * q + o) / fsBlockSize = q / direntsPerBlock := by
    change (32 * q + o) / 512 = q / 16
    omega
  have hsplit : fsBlockSize * (q / direntsPerBlock) + (32 * q + o) % fsBlockSize = 32 * q + o := by
    rw [← hdiv]
    exact Nat.div_add_mod _ _
  have hsect := h (q / direntsPerBlock) (Nat.div_le_div_right hq)
  rw [Image.rootByte, hdiv, List.getD_eq_getElem?_getD, hsect, Option.getD_some, Disk.bytes_add,
    hsplit]

theorem Loaded.sameSlot (h : Loaded img st p) {t : ℕ}
    (ht : p % direntsPerBlock + t < 16 * img.vol.clustSize.toNat) :
    SameSlot st.block (img.disk.bytes img.base) (p % direntsPerBlock + t) (p + t) := by
  have hsize : direntsPerBlock = 16 := rfl
  have hblock : fsBlockSize = 512 := rfl
  intro o ho
  rw [h _ (by omega) (by rw [hblock]; omega), hblock, hsize]
  congr 1
  omega

theorem Loaded.rootSlot (h : Loaded img st p) {t : ℕ}
    (ht : p % direntsPerBlock + t < 16 * img.vol.clustSize.toNat) (hsame : img.SameUpTo (p + t)) :
    SameSlot st.block img.rootByte (p % direntsPerBlock + t) (p + t) := by
  intro o ho
  rw [h.sameSlot ht o ho, hsame.sameSlot (Nat.le_refl _) o ho]

theorem Image.SameUpTo.mono {q : ℕ} (h : img.SameUpTo p) (hq : q ≤ p) : img.SameUpTo q :=
  fun k hk => h k (hk.trans (Nat.div_le_div_right hq))

theorem Loaded.head (h : Loaded img st p) (hsame : img.SameUpTo p) :
    SameSlot st.block img.rootByte (p % direntsPerBlock) p := by
  refine h.rootSlot (t := 0) ?_ hsame
  have hpos := img.clustSize_pos
  have hlt : p % direntsPerBlock < 16 := Nat.mod_lt p (by decide)
  omega

theorem compareNames_iff (name : List UInt8) (s : Walk) (i : ℕ) (l : List UInt8) :
    (¬ (getName (DirEntry.read s.block i) = name ∨ l = name) ∧
        compareNames name s i l = (s, .next)) ∨
      (getName (DirEntry.read s.block i) = name ∨ l = name) ∧
        compareNames name s i l = (s, .done (.found (DirEntry.read s.block i))) := by
  rw [compareNames]
  by_cases h : getName (DirEntry.read s.block i) = name ∨ l = name
  · refine Or.inr ⟨h, if_neg fun hne => ?_⟩
    rcases h with h | h
    · exact hne.1 h.symm
    · exact hne.2 h.symm
  · exact Or.inl ⟨h, if_pos ⟨fun heq => h (Or.inl heq.symm), fun heq => h (Or.inr heq.symm)⟩⟩

theorem carries_iff (hflag : ¬ Flagged img.rootByte p) :
    Carries img.rootByte img.rootCount p name ↔
      slotAttr img.rootByte p &&& attrVolume = 0 ∧ slotId img.rootByte p ≠ 0 ∧
        getName (DirEntry.read img.rootByte p) = name :=
  or_iff_left fun h => hflag h.1

theorem shown_of_flagged (hs : img.before st p = some s) (hsame : img.SameUpTo p)
    (hflag : Flagged img.rootByte p) :
    img.shown st p = (getVfatname img.disk s 0 (p % direntsPerBlock)).map fun r =>
      (r.2, DirEntry.read r.1.block (p % direntsPerBlock)) := by
  have hhead := (before_loaded hs).2.head hsame
  rw [Image.shown, hs, Option.bind_some, entryName, if_pos (hhead.flagged.mpr hflag)]

theorem Hits.not_misses (h : Hits img st name p dent) : ¬ Misses img st name p := by
  rw [Misses]
  rw [Hits] at h
  split_ifs at h ⊢ with hflag
  · rintro ⟨l, dent', hshown, hne⟩
    obtain ⟨l', hshown', heq⟩ := h
    obtain ⟨rfl, rfl⟩ := Prod.mk.inj (Option.some.inj (hshown.symm.trans hshown'))
    exact hne heq
  · exact not_not.mpr h.1

theorem Hits.unique {dent' : DirEntry} (h : Hits img st name p dent)
    (h' : Hits img st name p dent') : dent = dent' := by
  rw [Hits] at h h'
  split_ifs at h h' with hflag
  · obtain ⟨l, hshown, -⟩ := h
    obtain ⟨l', hshown', -⟩ := h'
    exact (Prod.mk.inj (Option.some.inj (hshown.symm.trans hshown'))).2
  · exact h.2.trans h'.2.symm

/-- **What becomes of an entry**: it is the end, it is passed, it is taken, or its slots lead out of
the buffers. -/
theorem lookEntry_cases (hs : img.before st p = some s) (hsame : img.SameUpTo p)
    (hname : name ≠ []) :
    (EndMarker img.rootByte p ∧
        lookEntry img.disk name s (p % direntsPerBlock) = some (s, .done .absent)) ∨
      (¬ EndMarker img.rootByte p ∧ Misses img st name p ∧
        ∃ s', lookEntry img.disk name s (p % direntsPerBlock) = some (s', .next)) ∨
      (∃ dent s', Hits img st name p dent ∧
        lookEntry img.disk name s (p % direntsPerBlock) = some (s', .done (.found dent))) ∨
      (¬ EndMarker img.rootByte p ∧ ¬ Misses img st name p ∧ (∀ dent, ¬ Hits img st name p dent) ∧
        lookEntry img.disk name s (p % direntsPerBlock) = none) := by
  have hhead := (before_loaded hs).2.head hsame
  by_cases hflag : Flagged img.rootByte p
  · have hend : ¬ EndMarker img.rootByte p := fun h => hflag.1 h.1
    have hshown := shown_of_flagged hs hsame hflag
    rw [lookEntry_of_flagged (hhead.flagged.mpr hflag), Misses, if_pos hflag]
    simp only [Hits, if_pos hflag]
    cases hvfat : getVfatname img.disk s 0 (p % direntsPerBlock) with
    | none =>
      rw [hvfat, Option.map_none] at hshown
      refine Or.inr (Or.inr (Or.inr ⟨hend, ?_, ?_, rfl⟩))
      · rintro ⟨l, dent, h, -⟩
        rw [hshown] at h
        cases h
      · rintro dent ⟨l, h, -⟩
        rw [hshown] at h
        cases h
    | some r =>
      rw [hvfat, Option.map_some] at hshown
      rw [Option.map_some]
      rcases compareNames_iff name r.1 (p % direntsPerBlock) r.2 with ⟨hne, hcmp⟩ | ⟨heq, hcmp⟩
      · exact Or.inr (Or.inl ⟨hend, ⟨_, _, hshown, hne⟩, _, congrArg some hcmp⟩)
      · exact Or.inr (Or.inr (Or.inl ⟨_, _, ⟨_, hshown, heq⟩, congrArg some hcmp⟩))
  · have hflag' : ¬ Flagged s.block (p % direntsPerBlock) := fun h => hflag (hhead.flagged.mp h)
    rw [Misses, if_neg hflag, carries_iff hflag]
    simp only [Hits, if_neg hflag, carries_iff hflag]
    by_cases hvol : slotAttr img.rootByte p &&& attrVolume = 0
    · by_cases hid : slotId img.rootByte p = 0
      · exact Or.inl ⟨⟨hvol, hid⟩, lookEntry_of_endMarker (hhead.endMarker.mpr ⟨hvol, hid⟩)⟩
      · have hend : ¬ EndMarker img.rootByte p := fun h => hid h.2
        rw [lookEntry_of_entry (by rwa [hhead.slotAttr]) (by rwa [hhead.slotId])]
        rcases compareNames_iff name s (p % direntsPerBlock) [] with ⟨hne, hcmp⟩ | ⟨heq, hcmp⟩
        · exact Or.inr (Or.inl ⟨hend, fun h => hne (Or.inl (hhead.read ▸ h.2.2)), _,
            congrArg some hcmp⟩)
        · rw [hhead.read] at heq hcmp
          have hread : getName (DirEntry.read img.rootByte p) = name :=
            heq.resolve_right fun h => hname h.symm
          exact Or.inr (Or.inr (Or.inl ⟨_, _, ⟨⟨hvol, hid, hread⟩, (if_neg hflag).symm⟩,
            congrArg some hcmp⟩))
    · exact Or.inr (Or.inl ⟨fun h => hvol h.1, fun h => hvol h.1, s,
        lookEntry_of_label (by rwa [hhead.slotAttr]) hflag'⟩)

/-- **An entry that is passed.** -/
theorem goesOn_iff (hs : img.before st p = some s) (hsame : img.SameUpTo p) (hname : name ≠ []) :
    GoesOn img st name p ↔ ¬ EndMarker img.rootByte p ∧ Misses img st name p := by
  have hlook : GoesOn img st name p ↔
      ∃ s', lookEntry img.disk name s (p % direntsPerBlock) = some (s', .next) := by
    simp only [GoesOn, hs, Option.some.injEq, exists_and_left, exists_eq_left']
  rw [hlook]
  rcases lookEntry_cases hs hsame hname with ⟨hend, h⟩ | ⟨hend, hmiss, h⟩ | ⟨dent, s', hhits, h⟩ |
    ⟨-, hmiss, -, h⟩
  · simp [h, hend]
  · exact iff_of_true h ⟨hend, hmiss⟩
  · simp [h, hhits.not_misses]
  · simp [h, hmiss]

/-- **A long name in the buffer** is made of its slots. -/
theorem shown_of_fits (hs : img.before st p = some s) (hflag : Flagged img.rootByte p) {n : ℕ}
    (hseq : Sequence img.rootByte p n) (hsame : img.SameUpTo (p + n))
    (hin : p % direntsPerBlock + n < 16 * img.vol.clustSize.toNat)
    (hlen : (longText img.rootByte p n).length < nameSize) :
    img.shown st p = some (longName img.rootByte p n, DirEntry.read img.rootByte (p + n)) := by
  obtain ⟨hvol, hl⟩ := before_loaded hs
  have hslots : ∀ t ≤ n, SameSlot s.block img.rootByte (p % direntsPerBlock + t) (p + t) :=
    fun t ht => hl.rootSlot (by omega) (hsame.mono (by omega))
  have htext : slotText s.block (p % direntsPerBlock) n = slotText img.rootByte p n :=
    slotText_congr fun t ht => hslots t ht.le
  have hhead : SameSlot s.block img.rootByte (p % direntsPerBlock) p := hslots 0 (Nat.zero_le n)
  have hin' : p % direntsPerBlock + n < 16 * s.fs.clustSize.toNat := by rwa [hvol]
  have hvfat := getVfatname_of_sequence (d := img.disk) 0 (by
    rw [hhead.slotId]
    exact hflag.2) (hseq.congr hslots) hin' (by rwa [longText, htext])
  have hcopy : DirEntry.read (copyEntry s.block (p % direntsPerBlock) s.block
      (p % direntsPerBlock + n)) (p % direntsPerBlock) = DirEntry.read img.rootByte (p + n) :=
    (sameSlot_copyEntry s.block _).read.trans (hslots n (Nat.le_refl n)).read
  rw [shown_of_flagged hs (hsame.mono (Nat.le_add_right p n)) hflag, hvfat, Option.map_some, hcopy,
    longName, longName, longText, longText, htext]

/-- Slots whose numbers do not go on give no name. -/
theorem shown_of_broken (hs : img.before st p = some s) (hsame : img.SameUpTo p)
    (hflag : Flagged img.rootByte p)
    (hscan : scanSlots (img.disk.bytes (img.place p).1) (16 * img.vol.clustSize.toNat)
      (slotNumber img.rootByte p) (p % direntsPerBlock) = none) :
    img.shown st p = some ([], DirEntry.read img.rootByte p) := by
  obtain ⟨hvol, hl⟩ := before_loaded hs
  have hhead := hl.head hsame
  have hscan' : scanSlots s.block (16 * s.fs.clustSize.toNat)
      (slotNumber s.block (p % direntsPerBlock)) (p % direntsPerBlock) = none := by
    rw [hhead.slotNumber, hvol, ← hscan]
    refine scanSlots_congr fun t ht hlt => ?_
    have hblock : fsBlockSize = 512 := rfl
    have hbyte := hl (32 * t) (by omega) (by rw [hblock]; omega)
    rw [slotNumber, slotNumber, slotId, slotId, hbyte, Image.place, Disk.bytes_add]
  rw [shown_of_flagged hs hsame hflag, getVfatname_of_broken hscan', Option.map_some, hhead.read]

/-- **A long name that fits** is passed or taken as the directory says. -/
theorem misses_iff_of_fits (hs : img.before st p = some s) (hflag : Flagged img.rootByte p)
    (hfits : Fits img p) :
    (Misses img st name p ↔ ¬ Carries img.rootByte img.rootCount p name) ∧
      (Hits img st name p dent ↔
        Carries img.rootByte img.rootCount p name ∧ dent = fileEntry img.rootByte p) := by
  obtain ⟨n, hseq, hcount, hsame, hin, hlen⟩ := hfits
  have hshown := shown_of_fits hs hflag hseq hsame hin hlen
  have hcar : Carries img.rootByte img.rootCount p name ↔
      getName (DirEntry.read img.rootByte (p + n)) = name ∨ longName img.rootByte p n = name := by
    constructor
    · rintro (⟨hvol, -⟩ | ⟨-, n', hseq', -, h⟩)
      · exact absurd hvol hflag.1
      · obtain rfl : n' = n := hseq'.number_eq.symm.trans hseq.number_eq
        exact h
    · exact fun h => Or.inr ⟨hflag, n, hseq, hcount, h⟩
  have hfile : fileEntry img.rootByte p = DirEntry.read img.rootByte (p + n) := by
    rw [fileEntry, if_pos hflag, hseq.number_eq]
  rw [Misses, if_pos hflag, Hits, if_pos hflag, hcar, hfile, hshown]
  constructor
  · simp
  · constructor
    · rintro ⟨l, h, heq⟩
      obtain ⟨rfl, rfl⟩ := Prod.mk.inj (Option.some.inj h)
      exact ⟨heq, rfl⟩
    · rintro ⟨heq, rfl⟩
      exact ⟨_, rfl, heq⟩

end Find

/-! ## The walk as a whole -/

section Whole

variable {st : Walk}

/-- The walk gets to every entry up to one where it ends rightly. -/
theorem EndsRight.exists_before {m q : ℕ} (h : EndsRight img st name m) (hname : name ≠ [])
    (hq : q ≤ m) : ∃ s, img.before st q = some s := by
  induction q with
  | zero => exact (starts_zero st).exists_before
  | succ q ih =>
    obtain ⟨s, hs⟩ := ih (Nat.le_of_succ_le hq)
    have hgoes := (goesOn_iff hs (h.same.mono (Nat.le_of_succ_le hq)) hname).mpr
      (h.passed q (Nat.lt_of_succ_le hq))
    exact hgoes.exists_before

end Whole

/-! ## A full root directory -/

end Fat
end EmevBsp
