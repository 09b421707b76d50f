import EmevBsp.Fat.Fat
import Mathlib.Tactic.Ring

/-!
# The file allocation table

The table is the bytes from block `fat_sect` on.  `rawEntry` is an entry with all its bits, as the
layout of each format has it: three bytes for two entries, two bytes, four bytes.  A FAT32 entry has
four bits on top that are not part of the number; `fatEntry` is without them.
-/

namespace EmevBsp
namespace Fat

variable {d : Disk} {v : Volume}

/-! ## The bytes -/

theorem Disk.bytes_add (s : BitVec 32) (a k : ℕ) :
    d.bytes (s + BitVec.ofNat 32 a) k = d.bytes s (fsBlockSize * a + k) := by
  have hdiv : (fsBlockSize * a + k) / fsBlockSize = a + k / fsBlockSize :=
    Nat.mul_add_div (by decide) _ _
  have hmod : (fsBlockSize * a + k) % fsBlockSize = k % fsBlockSize := Nat.mul_add_mod _ _ _
  rw [bytes, bytes, hdiv, hmod, BitVec.ofNat_add]
  congr 1
  ring

/-- The device answers every request. -/
def Disk.Readable (d : Disk) : Prop := ∀ startblock getsize, d.fails startblock getsize = false

theorem diskRead_eq (hd : d.Readable) (s : BitVec 32) (n : ℕ) :
    diskRead d s n = some (stretch (d.bytes s) 0 (fsBlockSize * n)) := by
  rw [diskRead, hd, if_neg Bool.false_ne_true]

/-- The bytes of the table. -/
def tableByte (d : Disk) (v : Volume) : ℕ → UInt8 := d.bytes (v.fatSect.setWidth 32)

/-! ## Entries -/

/-- An entry of the table whose bytes are `b`, with all its bits. -/
def tableEntry (fatsize : FatSize) (b : ℕ → UInt8) (c : ℕ) : ℕ :=
  match fatsize with
  | .fat12 =>
    let pair := (b (3 * c / 2)).toNat + 256 * (b (3 * c / 2 + 1)).toNat
    if c % 2 = 0 then pair % 4096 else pair / 16
  | .fat16 => (b (2 * c)).toNat + 256 * (b (2 * c + 1)).toNat
  | .fat32 => (b (4 * c)).toNat + 256 * (b (4 * c + 1)).toNat + 65536 * (b (4 * c + 2)).toNat +
      16777216 * (b (4 * c + 3)).toNat

/-- The entry of a cluster, with all its bits. -/
def rawEntry (d : Disk) (v : Volume) (c : ℕ) : ℕ := tableEntry v.fatsize (tableByte d v) c

/-- The entry of a cluster. -/
def fatEntry (d : Disk) (v : Volume) (c : ℕ) : ℕ :=
  if v.fatsize = .fat32 then rawEntry d v c % 2 ^ 28 else rawEntry d v c

theorem tableEntry_lt (fatsize : FatSize) (b : ℕ → UInt8) (c : ℕ) :
    tableEntry fatsize b c < 2 ^ 32 := by
  have hb : ∀ i, (b i).toNat < 256 := fun i => (b i).toNat_lt
  cases fatsize with
  | fat12 =>
    have h0 := hb (3 * c / 2)
    have h1 := hb (3 * c / 2 + 1)
    simp only [tableEntry]
    split_ifs <;> omega
  | fat16 =>
    have h0 := hb (2 * c)
    have h1 := hb (2 * c + 1)
    simp only [tableEntry]
    omega
  | fat32 =>
    have h0 := hb (4 * c)
    have h1 := hb (4 * c + 1)
    have h2 := hb (4 * c + 2)
    have h3 := hb (4 * c + 3)
    simp only [tableEntry]
    omega

theorem le16_lt (b : ℕ → UInt8) (i : ℕ) : le16 b i < 2 ^ 16 := by
  have h0 := (b (2 * i)).toNat_lt
  have h1 := (b (2 * i + 1)).toNat_lt
  rw [le16]
  omega

theorem le32_lt (b : ℕ → UInt8) (i : ℕ) : le32 b i < 2 ^ 32 := by
  have h0 := le16_lt b (2 * i)
  have h1 := le16_lt b (2 * i + 1)
  rw [le32]
  omega

theorem and_shiftRight {x m i : ℕ} (hx : x < 2 ^ 16) (hi : i ≤ 16)
    (hm : m >>> i = 2 ^ (16 - i) - 1) : (x &&& m) >>> i = x / 2 ^ i := by
  rw [Nat.shiftRight_and_distrib, hm, Nat.and_two_pow_sub_one_eq_mod, Nat.shiftRight_eq_div_pow]
  refine Nat.mod_eq_of_lt (Nat.div_lt_of_lt_mul ?_)
  rwa [← pow_add, Nat.add_sub_cancel' hi]

theorem shiftLeft_or {a b i : ℕ} (hb : b < 2 ^ i) : (a <<< i) ||| b = 2 ^ i * a + b := by
  rw [← Nat.shiftLeft_add_eq_or_of_lt hb, Nat.shiftLeft_eq, Nat.mul_comm]

theorem entryAt_fat12 (b : ℕ → UInt8) (o : ℕ) :
    entryAt .fat12 b o = tableEntry .fat12 b o := by
  have hand : o &&& 3 = o % 4 := Nat.and_two_pow_sub_one_eq_mod o 2
  have hdiv := Nat.div_add_mod o 4
  have hbytes : ∀ i, (b i).toNat < 256 := fun i => (b i).toNat_lt
  have hlt : o % 4 < 4 := Nat.mod_lt _ (by decide)
  simp only [entryAt, tableEntry, hand]
  generalize hq : o / 4 = q at hdiv
  by_cases h0 : o % 4 = 0
  · have hoff : o * 3 / 4 = 3 * q := by omega
    have hpos : 3 * o / 2 = 2 * (3 * q) := by omega
    rw [if_pos h0, if_pos (by omega : o % 2 = 0), hoff, hpos]
    exact Nat.and_two_pow_sub_one_eq_mod _ 12
  · by_cases h1 : o % 4 = 1
    · have hoff : o * 3 / 4 = 3 * q := by omega
      have hpos : 3 * o / 2 = 2 * (3 * q) + 1 := by omega
      have hnext : 2 * (3 * q + 1) = 2 * (3 * q) + 1 + 1 := by omega
      have hlow := le16_lt b (3 * q)
      have hx := hbytes (2 * (3 * q))
      have hy := hbytes (2 * (3 * q) + 1)
      have hz := hbytes (2 * (3 * q) + 1 + 1)
      have hmask : le16 b (3 * q + 1) &&& 0xff = le16 b (3 * q + 1) % 256 :=
        Nat.and_two_pow_sub_one_eq_mod _ 8
      rw [if_neg h0, if_pos h1, if_neg (by omega : ¬ o % 2 = 0), hoff, hpos,
        and_shiftRight hlow (by decide) (by decide), hmask, shiftLeft_or (by omega), le16, le16,
        hnext]
      omega
    · by_cases h2 : o % 4 = 2
      · have hoff : o * 3 / 4 = 3 * q + 1 := by omega
        have hpos : 3 * o / 2 = 2 * (3 * q + 1) + 1 := by omega
        have hnext : 2 * (3 * q + 1 + 1) = 2 * (3 * q + 1) + 1 + 1 := by omega
        have hlow := le16_lt b (3 * q + 1)
        have hx := hbytes (2 * (3 * q + 1))
        have hy := hbytes (2 * (3 * q + 1) + 1)
        have hz := hbytes (2 * (3 * q + 1) + 1 + 1)
        have hmask : le16 b (3 * q + 1 + 1) &&& 0xf = le16 b (3 * q + 1 + 1) % 16 :=
          Nat.and_two_pow_sub_one_eq_mod _ 4
        rw [if_neg h0, if_neg h1, if_pos h2, if_pos (by omega : o % 2 = 0), hoff, hpos,
          and_shiftRight hlow (by decide) (by decide), hmask, shiftLeft_or (by omega), le16, le16,
          hnext]
        omega
      · have hoff : o * 3 / 4 = 3 * q + 2 := by omega
        have hpos : 3 * o / 2 = 2 * (3 * q + 2) := by omega
        rw [if_neg h0, if_neg h1, if_neg h2, if_neg (by omega : ¬ o % 2 = 0), hoff, hpos,
          and_shiftRight (le16_lt b _) (by decide) (by decide)]
        rfl

theorem entryAt_eq (fatsize : FatSize) (b : ℕ → UInt8) (o : ℕ) :
    entryAt fatsize b o = tableEntry fatsize b o := by
  cases fatsize with
  | fat12 => exact entryAt_fat12 b o
  | fat16 => rfl
  | fat32 =>
    have h0 : 2 * (2 * o) = 4 * o := by omega
    have h1 : 2 * (2 * o + 1) = 4 * o + 2 := by omega
    have h3 : 4 * o + 2 + 1 = 4 * o + 3 := rfl
    simp only [entryAt, tableEntry, le32, le16, h0, h1, h3]
    omega

theorem tableEntry_window {fatsize : FatSize} {buf b : ℕ → UInt8} {w o : ℕ}
    (hbuf : ∀ k < fatBufSize, buf k = b (fatBufSize * w + k)) (ho : o < fatsize.bufSize) :
    tableEntry fatsize buf o = tableEntry fatsize b (fatsize.bufSize * w + o) := by
  have hsize : fatBufSize = 3072 := rfl
  rw [hsize] at hbuf
  cases fatsize with
  | fat12 =>
    have ho' : o < 2048 := ho
    have hpos : 3 * (2048 * w + o) / 2 = 3072 * w + 3 * o / 2 := by omega
    have hmod : (2048 * w + o) % 2 = o % 2 := by omega
    have h0 := hbuf (3 * o / 2) (by omega)
    have h1 : buf (3 * o / 2 + 1) = b (3072 * w + 3 * o / 2 + 1) := hbuf _ (by omega)
    change tableEntry .fat12 buf o = tableEntry .fat12 b (2048 * w + o)
    simp only [tableEntry]
    rw [hpos, hmod, h0, h1]
  | fat16 =>
    have ho' : o < 1536 := ho
    have hpos : 2 * (1536 * w + o) = 3072 * w + 2 * o := by omega
    have h0 := hbuf (2 * o) (by omega)
    have h1 : buf (2 * o + 1) = b (3072 * w + 2 * o + 1) := hbuf _ (by omega)
    change tableEntry .fat16 buf o = tableEntry .fat16 b (1536 * w + o)
    simp only [tableEntry]
    rw [hpos, h0, h1]
  | fat32 =>
    have ho' : o < 768 := ho
    have hpos : 4 * (768 * w + o) = 3072 * w + 4 * o := by omega
    have h0 := hbuf (4 * o) (by omega)
    have h1 : buf (4 * o + 1) = b (3072 * w + 4 * o + 1) := hbuf _ (by omega)
    have h2 : buf (4 * o + 2) = b (3072 * w + 4 * o + 2) := hbuf _ (by omega)
    have h3 : buf (4 * o + 3) = b (3072 * w + 4 * o + 3) := hbuf _ (by omega)
    change tableEntry .fat32 buf o = tableEntry .fat32 b (768 * w + o)
    simp only [tableEntry]
    rw [hpos, h0, h1, h2, h3]

/-! ## The cache -/

/-- The cache is empty or holds a window of the table. -/
def CacheOk (d : Disk) (fs : Fsdata) : Prop :=
  fs.fatbufnum = -1 ∨
    ∀ k < fatBufSize, fs.fatbuf k = tableByte d fs.toVolume (fatBufSize * fs.fatbufnum.toNat + k)

theorem readFatbuf_eq (hd : d.Readable) {fs : Fsdata} (hlen : 0 < fs.fatlength)
    (bufnum : BitVec 32) :
    ∃ fs', readFatbuf d fs bufnum = some fs' ∧ fs'.toVolume = fs.toVolume ∧
      fs'.fatbufnum = bufnum ∧
      ∀ k < fatBufSize, fs'.fatbuf k = tableByte d fs.toVolume (fatBufSize * bufnum.toNat + k) := by
  have hlen' : 0 < fs.fatlength.toNat := hlen
  have hmin : min fatBufBlocks (fs.fatlength.toNat * fsBlockSize) = fatBufBlocks :=
    Nat.min_eq_left (by unfold fatBufBlocks fsBlockSize; omega)
  refine ⟨{ fs with fatbuf := splice fs.fatbuf 0 (stretch (d.bytes (bufnum *
    BitVec.ofNat 32 fatBufBlocks + fs.fatSect.setWidth 32)) 0 fatBufSize), fatbufnum := bufnum },
    ?_, rfl, rfl, ?_⟩
  · rw [readFatbuf, hmin, diskRead_eq hd]
    rfl
  · intro k hk
    have hnum : bufnum * BitVec.ofNat 32 fatBufBlocks =
        BitVec.ofNat 32 (bufnum.toNat * fatBufBlocks) := by
      rw [BitVec.ofNat_mul, BitVec.ofNat_toNat, BitVec.setWidth_eq]
    have hsize : fsBlockSize * (bufnum.toNat * fatBufBlocks) = fatBufSize * bufnum.toNat := by
      unfold fatBufSize
      ring
    have hread : d.bytes (bufnum * BitVec.ofNat 32 fatBufBlocks + fs.fatSect.setWidth 32) k =
        tableByte d fs.toVolume (fatBufSize * bufnum.toNat + k) := by
      rw [BitVec.add_comm, hnum, Disk.bytes_add, hsize]
      rfl
    have hsplice := splice_stretch (f := fs.fatbuf) (s := 0) (m := 0) (g := d.bytes (bufnum *
      BitVec.ofNat 32 fatBufBlocks + fs.fatSect.setWidth 32)) hk
    rw [Nat.zero_add, hread] at hsplice
    exact hsplice

theorem FatSize.bufSize_pos (fatsize : FatSize) : 0 < fatsize.bufSize := by
  cases fatsize <;> decide

theorem FatSize.two_le_bufSize (fatsize : FatSize) : 2 ≤ fatsize.bufSize := by
  cases fatsize <;> decide

theorem FatSize.toNat_bufSize (fatsize : FatSize) :
    (BitVec.ofNat 32 fatsize.bufSize).toNat = fatsize.bufSize := by
  cases fatsize <;> decide

theorem toNat_bufnum (fatsize : FatSize) (entry : BitVec 32) :
    (entry / BitVec.ofNat 32 fatsize.bufSize).toNat = entry.toNat / fatsize.bufSize := by
  rw [BitVec.toNat_udiv, fatsize.toNat_bufSize]

theorem bufnum_ne (fatsize : FatSize) (entry : BitVec 32) :
    entry / BitVec.ofNat 32 fatsize.bufSize ≠ -1 := by
  intro h
  have hnum := toNat_bufnum fatsize entry
  have hhalf : entry.toNat / fatsize.bufSize ≤ entry.toNat / 2 :=
    Nat.div_le_div_left fatsize.two_le_bufSize (by decide)
  have hlt := entry.isLt
  have hmax : (-1 : BitVec 32).toNat = 4294967295 := rfl
  rw [h, hmax] at hnum
  omega

theorem toNat_offset (fatsize : FatSize) (entry : BitVec 32) :
    (entry - entry / BitVec.ofNat 32 fatsize.bufSize * BitVec.ofNat 32 fatsize.bufSize).toNat =
      entry.toNat % fatsize.bufSize := by
  have hle : entry.toNat / fatsize.bufSize * fatsize.bufSize ≤ entry.toNat :=
    Nat.div_mul_le_self _ _
  have hlt := entry.isLt
  have hmul : (entry / BitVec.ofNat 32 fatsize.bufSize * BitVec.ofNat 32 fatsize.bufSize).toNat =
      entry.toNat / fatsize.bufSize * fatsize.bufSize := by
    rw [BitVec.toNat_mul, BitVec.toNat_udiv, fatsize.toNat_bufSize]
    exact Nat.mod_eq_of_lt (by omega)
  rw [BitVec.toNat_sub_of_le (by rw [BitVec.le_def, hmul]; exact hle), hmul, Nat.mod_eq_sub_div_mul]

/-- **`get_fatent` gives the entry with all its bits**, and the cache stays in order. -/
theorem getFatent_eq (hd : d.Readable) {fs : Fsdata} (hlen : 0 < fs.fatlength) (hc : CacheOk d fs)
    (entry : BitVec 32) :
    (getFatent d fs entry).1 = BitVec.ofNat 32 (rawEntry d fs.toVolume entry.toNat) ∧
      (getFatent d fs entry).2.toVolume = fs.toVolume ∧ CacheOk d (getFatent d fs entry).2 := by
  have hnum := toNat_bufnum fs.fatsize entry
  have hlt : entry.toNat % fs.fatsize.bufSize < fs.fatsize.bufSize :=
    Nat.mod_lt _ fs.fatsize.bufSize_pos
  -- the entry, when the buffer holds the window it is in
  have hentry : ∀ buf : ℕ → UInt8, (∀ k < fatBufSize, buf k =
      tableByte d fs.toVolume (fatBufSize * (entry.toNat / fs.fatsize.bufSize) + k)) →
      entryAt fs.fatsize buf (entry.toNat % fs.fatsize.bufSize) =
        rawEntry d fs.toVolume entry.toNat := by
    intro buf hbuf
    rw [entryAt_eq, tableEntry_window hbuf hlt, Nat.div_add_mod, rawEntry]
  by_cases hhit : entry / BitVec.ofNat 32 fs.fatsize.bufSize = fs.fatbufnum
  · have hbuf := hc.resolve_left (hhit ▸ bufnum_ne fs.fatsize entry)
    rw [← hhit, hnum] at hbuf
    have heq : getFatent d fs entry =
        (BitVec.ofNat 32 (rawEntry d fs.toVolume entry.toNat), fs) := by
      simp only [getFatent]
      rw [if_neg (not_not.mpr hhit), toNat_offset, hentry _ hbuf]
    rw [heq]
    exact ⟨rfl, rfl, hc⟩
  · obtain ⟨fs', hread, hvol, hbufnum, hbuf⟩ := readFatbuf_eq hd hlen
      (entry / BitVec.ofNat 32 fs.fatsize.bufSize)
    have heq : getFatent d fs entry =
        (BitVec.ofNat 32 (rawEntry d fs.toVolume entry.toNat), fs') := by
      simp only [getFatent]
      rw [if_pos hhit, hread, toNat_offset]
      simp only
      rw [hentry _ (hnum ▸ hbuf)]
    rw [heq]
    refine ⟨rfl, hvol, Or.inr ?_⟩
    rw [hvol, hbufnum]
    exact hbuf

theorem getFatent_toVolume (d : Disk) (fs : Fsdata) (entry : BitVec 32) :
    (getFatent d fs entry).2.toVolume = fs.toVolume := by
  rw [getFatent]
  split_ifs
  · cases hread : readFatbuf d fs (entry / BitVec.ofNat 32 fs.fatsize.bufSize) with
    | none => rfl
    | some fs' =>
      rw [readFatbuf, Option.map_eq_some_iff] at hread
      obtain ⟨block, -, rfl⟩ := hread
      rfl
  · rfl

/-! ## Chains -/

/-- A cluster is the entry of another. -/
def Linked (d : Disk) (v : Volume) (c c' : BitVec 32) : Prop :=
  fatEntry d v c.toNat = c'.toNat

/-- `CHECK_CLUST` lets the entry of a cluster pass. -/
def Accepted (d : Disk) (v : Volume) (c : BitVec 32) : Prop :=
  checkClust (BitVec.ofNat 32 (rawEntry d v c.toNat)) v.fatsize = false

instance (c : BitVec 32) : Decidable (Accepted d v c) := inferInstanceAs (Decidable (_ = _))

end Fat
end EmevBsp
