import EmevBsp.Ext2.Dev

/-!
# Which block of a file is found

The blocks of a file, with the holes at any level, are `fileBlock`; the bytes of the file are
`fileByte`.  What `ext2fs_read_block` gives is compared with them: the block of pointers is the one
whose sector the buffer says, in whatever order blocks of pointers were read before.

A zero pointer to a block of pointers is followed, to block 0.  A read of an indirect block that
fails is taken for a hole.  And when the read of a double indirect block fails, the buffer still
says that it holds the block from before.
-/

namespace EmevBsp
namespace Ext2

/-! ## The file -/

section File

variable (v : Volume) (inode : Inode)

/-- The pointers in a block. -/
def Volume.perblock : ℕ := v.ext2BlockSize / 4

/-- The sectors of a block. -/
def Volume.sectors : ℕ := 2 ^ v.log2Ext2BlockSize

/-- A pointer of a block of pointers; there are only holes in a hole. -/
def Volume.pointer (block : BitVec 32) (k : ℕ) : BitVec 32 :=
  if block = 0 then 0 else le32ToCpu (fun x => v.part (v.ext2BlockSize * block.toNat + x)) k

/-- The blocks of pointers on the way to a block of the file. -/
def indirects (i : ℕ) : List (BitVec 32) :=
  if i < indirectBlocks then []
  else if i < indirectBlocks + v.perblock then [inode.indirBlock]
  else
    [inode.doubleIndirBlock,
      v.pointer inode.doubleIndirBlock ((i - (indirectBlocks + v.perblock)) / v.perblock)]

/-- A block of the file; 0 is a hole. -/
def fileBlock (i : ℕ) : BitVec 32 :=
  if i < indirectBlocks then inode.dirBlocks i
  else if i < indirectBlocks + v.perblock then v.pointer inode.indirBlock (i - indirectBlocks)
  else
    v.pointer
      (v.pointer inode.doubleIndirBlock ((i - (indirectBlocks + v.perblock)) / v.perblock))
      ((i - (indirectBlocks + v.perblock)) % v.perblock)

/-- A byte of the file. -/
def fileByte (x : ℕ) : UInt8 :=
  let block := fileBlock v inode (x / v.ext2BlockSize)
  if block = 0 then 0 else v.part (v.ext2BlockSize * block.toNat + x % v.ext2BlockSize)

/-- A block of the file is on the volume, as are the blocks of pointers on the way to it; and no
block of pointers points to itself. -/
structure BlockStored (i : ℕ) : Prop where
  inside : ∀ b ∈ fileBlock v inode i :: indirects v inode i, b ≠ 0 →
    (b.toNat + 1) * v.sectors ≤ v.size.toNat
  apart : 0 ∉ indirects v inode i → (indirects v inode i).Nodup

/-- **A well-formed inode**, whose blocks are direct, indirect or double indirect. -/
structure WellFormed : Prop where
  fits : v.Fits
  log2_le : v.log2BlockSize ≤ 6
  size_le : inode.size.toNat ≤
    (indirectBlocks + v.perblock * (v.perblock + 1)) * v.ext2BlockSize
  stored : ∀ i, i * v.ext2BlockSize < inode.size.toNat → BlockStored v inode i

end File

/-! ## Sizes -/

variable {v : Volume} {e : Env} {inode : Inode}

theorem Volume.ext2BlockSize_eq (v : Volume) : v.ext2BlockSize = 512 * v.sectors := by
  rw [ext2BlockSize, sectors, log2Ext2BlockSize, show 512 = 2 ^ 9 from rfl, ← Nat.pow_add]
  congr 1
  omega

theorem Volume.perblock_eq (v : Volume) : v.ext2BlockSize = 4 * v.perblock := by
  rw [perblock, ext2BlockSize, Nat.pow_add, show 2 ^ 10 = 4 * 256 from rfl, Nat.mul_left_comm,
    Nat.mul_div_cancel_left _ (Nat.succ_pos 3)]

theorem Volume.sectors_pos (v : Volume) : 0 < v.sectors := Nat.two_pow_pos _

theorem Volume.perblock_pos (v : Volume) : 0 < v.perblock := by
  have hsize := v.perblock_eq
  have hpos : 0 < v.ext2BlockSize := Nat.two_pow_pos _
  omega

theorem toNat_sector {b : BitVec 32} (hlow : b.toNat * v.sectors < 2 ^ 31) :
    (b <<< v.log2Ext2BlockSize).toNat = b.toNat * v.sectors := by
  rw [BitVec.toNat_shiftLeft, Nat.shiftLeft_eq]
  exact Nat.mod_eq_of_lt (hlow.trans (by decide))

theorem sector_ne_zero {b : BitVec 32} (hlow : b.toNat * v.sectors < 2 ^ 31) (hb : b ≠ 0) :
    b <<< v.log2Ext2BlockSize ≠ 0 := by
  intro hzero
  have hnat := congrArg BitVec.toNat hzero
  rw [toNat_sector hlow] at hnat
  rcases Nat.mul_eq_zero.mp hnat with h | h
  · exact hb (BitVec.eq_of_toNat_eq h)
  · exact absurd h v.sectors_pos.ne'

theorem sector_inj {b c : BitVec 32} (hb : b.toNat * v.sectors < 2 ^ 31)
    (hc : c.toNat * v.sectors < 2 ^ 31)
    (h : b <<< v.log2Ext2BlockSize = c <<< v.log2Ext2BlockSize) : b = c := by
  have hnat := congrArg BitVec.toNat h
  rw [toNat_sector hb, toNat_sector hc] at hnat
  exact BitVec.eq_of_toNat_eq (Nat.eq_of_mul_eq_mul_right v.sectors_pos hnat)

theorem sector_ne_neg_one {b : BitVec 32} (hlow : b.toNat * v.sectors < 2 ^ 31) :
    b <<< v.log2Ext2BlockSize ≠ -1 := by
  intro h
  have hnat := congrArg BitVec.toNat h
  rw [toNat_sector hlow] at hnat
  rw [hnat] at hlow
  exact absurd hlow (by decide)

theorem le32ToCpu_congr {f g : ℕ → UInt8} {n k : ℕ} (h : ∀ x < 4 * n, f x = g x) (hk : k < n) :
    le32ToCpu f k = le32ToCpu g k := by
  rw [le32ToCpu, le32ToCpu, h _ (by omega), h _ (by omega), h _ (by omega), h _ (by omega)]

/-! ## The buffers -/

/-- The buffer holds the block of a sector. -/
def Holds (v : Volume) (c : Indir) (sector : BitVec 32) : Prop :=
  ∀ x < v.ext2BlockSize, c.bytes x = v.part (512 * sector.toNat + x)

/-- **The buffer holds what it says**, if it is used at all. -/
def CacheOk (v : Volume) (c : Indir) : Prop :=
  c.block.isSome = true → c.size = v.ext2BlockSize → c.blkno ≠ -1 → Holds v c c.blkno

theorem prepare_spec (hmemory : ∀ t, (e.malloc t).isSome = true) (log : List Bool) (c : Indir) :
    (prepare v e log c).2 = true ∧ (CacheOk v c → CacheOk v (prepare v e log c).1) ∧
      (prepare v e log c).1.block.isSome = true ∧
      (prepare v e log c).1.size = v.ext2BlockSize ∧
      ((prepare v e log c).1.blkno = c.blkno ∨ (prepare v e log c).1.blkno = -1) := by
  obtain ⟨b, hb⟩ := Option.isSome_iff_exists.mp (hmemory log.length)
  have hnew : CacheOk v ⟨some b, v.ext2BlockSize, -1⟩ := fun _ _ hne => absurd rfl hne
  rw [prepare]
  cases hblock : c.block with
  | none =>
    rw [hb]
    exact ⟨rfl, fun _ => hnew, rfl, rfl, .inr rfl⟩
  | some old =>
    dsimp only
    by_cases hsize : v.ext2BlockSize = c.size
    · rw [if_neg (not_not_intro hsize)]
      exact ⟨rfl, id, by rw [hblock]; rfl, hsize.symm, .inl rfl⟩
    · rw [if_pos hsize, hb]
      exact ⟨rfl, fun _ => hnew, rfl, rfl, .inr rfl⟩

/-- What `load` gives: the block is in the buffer; or a read of the device has failed. -/
def Loads (v : Volume) (r : Indir × List Bool × Bool) (log : List Bool) (c : Indir)
    (sector blkno : BitVec 32) : Prop :=
  ∃ l, r.2.1 = log ++ l ∧
    ((r.2.2 = true ∧ false ∉ l ∧ Holds v r.1 sector ∧ r.1.block.isSome = true ∧
        (sector ≠ blkno → r.1.blkno = sector) ∧ (sector = blkno → r.1 = c)) ∨
      (r.2.2 = false ∧ false ∈ l ∧ sector ≠ blkno ∧ r.1.blkno = c.blkno))

theorem load_spec (hfits : v.Fits) (hlog2 : v.log2BlockSize ≤ 6) {c : Indir}
    (hsome : c.block.isSome = true) {sector blkno : BitVec 32} (hlow : sector.toNat < 2 ^ 31)
    (hin : sector.toNat + v.sectors ≤ v.size.toNat) (hheld : sector = blkno → Holds v c sector)
    (log : List Bool) : Loads v (load v e log c sector blkno) log c sector blkno := by
  rw [load]
  by_cases hne : sector = blkno
  · rw [if_neg (not_not_intro hne)]
    exact ⟨[], (List.append_nil log).symm, .inl ⟨rfl, List.not_mem_nil, hheld hne, hsome,
      fun h => absurd hne h, fun _ => rfl⟩⟩
  rw [if_pos hne]
  dsimp only
  have hsmall : v.sectors < 2 ^ 22 :=
    Nat.pow_lt_pow_right (Nat.lt_succ_self 1) (by rw [Volume.log2Ext2BlockSize]; omega)
  rw [v.ext2BlockSize_eq]
  rcases devread_sectors (e := e) hfits v.sectors_pos hlow hin hsmall log with
    ⟨-, hread⟩ | ⟨-, bytes, hread⟩
  · rw [hread]
    refine ⟨[true], rfl, .inl ⟨rfl, by simp, fun x hx => ?_, rfl, fun _ => rfl,
      fun h => absurd h hne⟩⟩
    rw [v.ext2BlockSize_eq] at hx
    have hbyte := splice_add (f := c.bytes) (s := 0) (getElem?_stretch (f := v.part)
      (s := 512 * sector.toNat) hx)
    rw [Nat.zero_add] at hbyte
    exact hbyte
  · rw [hread]
    exact ⟨[false], rfl, .inr ⟨rfl, List.mem_singleton_self _, hne, rfl⟩⟩

theorem load_of_reliable (hfits : v.Fits) (hlog2 : v.log2BlockSize ≤ 6) {c : Indir}
    {sector blkno : BitVec 32} (hlow : sector.toNat < 2 ^ 31)
    (hin : sector.toNat + v.sectors ≤ v.size.toNat)
    (hreads : ∀ t, e.fails t (v.start + sector) v.sectors = false) (log : List Bool) :
    (load v e log c sector blkno).2.2 = true := by
  rw [load]
  have hsmall : v.sectors < 2 ^ 22 :=
    Nat.pow_lt_pow_right (Nat.lt_succ_self 1) (by rw [Volume.log2Ext2BlockSize]; omega)
  by_cases hne : sector = blkno
  · rw [if_neg (not_not_intro hne)]
  · rw [if_pos hne, v.ext2BlockSize_eq]
    rcases devread_sectors (e := e) hfits v.sectors_pos hlow hin hsmall log with
      ⟨-, hread⟩ | ⟨hfails, -⟩
    · rw [hread]
    · exact absurd (hfails.symm.trans (hreads _)) (by simp)

theorem Loads.cacheOk {r : Indir × List Bool × Bool} {log : List Bool} {c : Indir}
    {sector : BitVec 32} (h : Loads v r log c sector c.blkno) (hok : r.2.2 = true) :
    r.1.blkno = sector ∧ CacheOk v r.1 := by
  obtain ⟨l, -, ⟨-, -, hholds, -, hread, hsame⟩ | ⟨hfailed, -⟩⟩ := h
  · have hblkno : r.1.blkno = sector := by
      by_cases hne : sector = c.blkno
      · rw [hsame hne, hne]
      · exact hread hne
    refine ⟨hblkno, fun _ _ _ => ?_⟩
    rw [hblkno]
    exact hholds
  · exact absurd (hok.symm.trans hfailed) (by simp)

theorem load_own (hfits : v.Fits) (hlog2 : v.log2BlockSize ≤ 6) {c : Indir} (hcache : CacheOk v c)
    (hsome : c.block.isSome = true) (hsize : c.size = v.ext2BlockSize) {b : BitVec 32}
    (hlow : b.toNat * v.sectors < 2 ^ 31) (hin : b.toNat * v.sectors + v.sectors ≤ v.size.toNat)
    (log : List Bool) : Loads v (load v e log c (b <<< v.log2Ext2BlockSize) c.blkno) log c
      (b <<< v.log2Ext2BlockSize) c.blkno := by
  have hholds : b <<< v.log2Ext2BlockSize = c.blkno → Holds v c (b <<< v.log2Ext2BlockSize) := by
    intro hsame
    rw [hsame]
    exact hcache hsome hsize (hsame ▸ sector_ne_neg_one hlow)
  exact load_spec hfits hlog2 hsome (by rw [toNat_sector hlow]; exact hlow)
    (by rw [toNat_sector hlow]; exact hin) hholds log

theorem pointer_of_holds {c : Indir} {b : BitVec 32} {k : ℕ} (hb : b ≠ 0)
    (hlow : b.toNat * v.sectors < 2 ^ 31) (hk : k < v.perblock)
    (h : Holds v c (b <<< v.log2Ext2BlockSize)) : le32ToCpu c.bytes k = v.pointer b k := by
  rw [Volume.pointer, if_neg hb]
  refine le32ToCpu_congr (n := v.perblock) (fun x hx => ?_) hk
  rw [h x (by rw [v.perblock_eq]; exact hx), toNat_sector hlow, v.ext2BlockSize_eq,
    Nat.mul_assoc, Nat.mul_comm v.sectors]

/-! ## The search for a block -/

/-- The blocks on the way to a block of the file have a sector below `2 ^ 31`. -/
def BlockLow (v : Volume) (inode : Inode) (i : ℕ) : Prop :=
  ∀ b ∈ fileBlock v inode i :: indirects v inode i, b.toNat * v.sectors < 2 ^ 31

/-- The read of the indirect block does not fail. -/
def SingleSafe (v : Volume) (e : Env) (inode : Inode) : Prop :=
  ∀ t, e.fails t (v.start + inode.indirBlock <<< v.log2Ext2BlockSize) v.sectors = false

/-- The read of the double indirect block does not fail; or nothing but it is in the buffer, nor is
another block read into it before. -/
def DoubleSafe (v : Volume) (e : Env) (inode : Inode) (i : ℕ) (c : Indir) : Prop :=
  (∀ t, e.fails t (v.start + inode.doubleIndirBlock <<< v.log2Ext2BlockSize) v.sectors = false) ∨
    indirectBlocks + v.perblock ≤ i ∧
      (c.blkno = -1 ∨ c.blkno = inode.doubleIndirBlock <<< v.log2Ext2BlockSize)

/-- What is needed to find a block of the file. -/
structure Findable (v : Volume) (e : Env) (inode : Inode) (i : ℕ) : Prop where
  stored : BlockStored v inode i
  low : BlockLow v inode i
  reached : 0 ∉ indirects v inode i
  memory : indirectBlocks ≤ i → ∀ t, (e.malloc t).isSome = true
  single : indirectBlocks ≤ i → i < indirectBlocks + v.perblock → SingleSafe v e inode

/-- What `ext2fs_read_block` gives: the block; or a read of the device has failed, and it is -1. -/
def Finds (v : Volume) (inode : Inode) (i : ℕ) (s : State) (r : State × BitVec 32) : Prop :=
  ∃ l, r.1.log = s.log ++ l ∧ CacheOk v r.1.indir1 ∧
    ((false ∉ l ∧ r.2 = fileBlock v inode i ∧ (indirectBlocks + v.perblock ≤ i →
        r.1.indir1.blkno = inode.doubleIndirBlock <<< v.log2Ext2BlockSize)) ∨
      (false ∈ l ∧ r.2 = -1))

theorem readBlock_single (hfits : v.Fits) (hlog2 : v.log2BlockSize ≤ 6) {i : ℕ} {s : State}
    (hcache : CacheOk v s.indir1) (h : Findable v e inode i) (hlo : indirectBlocks ≤ i)
    (hhi : i < indirectBlocks + v.perblock) : Finds v inode i s (readBlock v e inode i s) := by
  have hindirects : indirects v inode i = [inode.indirBlock] := by
    rw [indirects, if_neg (by omega), if_pos hhi]
  have hmem : inode.indirBlock ∈ fileBlock v inode i :: indirects v inode i := by
    rw [hindirects]
    exact List.mem_cons_of_mem _ (List.mem_singleton_self _)
  have hne : inode.indirBlock ≠ 0 := by
    intro hzero
    refine h.reached ?_
    rw [hindirects, hzero]
    exact List.mem_singleton_self _
  have hlow := h.low _ hmem
  have hin := h.stored.inside _ hmem hne
  rw [Nat.succ_mul] at hin
  obtain ⟨hp, hpcache, hpsome, hpsize, -⟩ :=
    prepare_spec (v := v) (h.memory (by omega)) s.log s.indir1
  replace hpcache := hpcache hcache
  rw [readBlock, ← Volume.perblock]
  dsimp only
  rw [if_neg (by omega), if_pos hhi, hp, if_neg (by simp)]
  generalize (prepare v e s.log s.indir1).1 = c at hpcache hpsome hpsize
  have hload := load_own (e := e) hfits hlog2 hpcache hpsome hpsize hlow hin s.log
  have hok : (load v e s.log c (inode.indirBlock <<< v.log2Ext2BlockSize) c.blkno).2.2 = true :=
    load_of_reliable hfits hlog2 (by rw [toNat_sector hlow]; exact hlow)
      (by rw [toNat_sector hlow]; exact hin) (h.single hlo hhi) s.log
  obtain ⟨hblkno, hcache'⟩ := hload.cacheOk hok
  rw [hok, if_neg (by simp)]
  obtain ⟨l, hlog, ⟨-, hnot, hholds, -⟩ | ⟨hfailed, -⟩⟩ := hload
  · refine ⟨l, hlog, hcache', .inl ⟨hnot, ?_, fun hge => by omega⟩⟩
    rw [fileBlock, if_neg (by omega), if_pos hhi]
    exact pointer_of_holds hne hlow (by omega) hholds
  · exact absurd (hok.symm.trans hfailed) (by simp)

theorem readBlock_double (hfits : v.Fits) (hlog2 : v.log2BlockSize ≤ 6) {i : ℕ} {s : State}
    (hcache : CacheOk v s.indir1) (h : Findable v e inode i)
    (hlo : indirectBlocks + v.perblock ≤ i)
    (hhi : i < indirectBlocks + v.perblock * (v.perblock + 1))
    (hdouble : DoubleSafe v e inode i s.indir1) :
    Finds v inode i s (readBlock v e inode i s) := by
  have hpos := v.perblock_pos
  generalize hr : i - (indirectBlocks + v.perblock) = r
  have hrow : r / v.perblock < v.perblock := by
    rw [Nat.mul_succ] at hhi
    exact Nat.div_lt_of_lt_mul (by omega)
  have hcol : r % v.perblock < v.perblock := Nat.mod_lt r hpos
  generalize htable : v.pointer inode.doubleIndirBlock (r / v.perblock) = table
  have hindirects : indirects v inode i = [inode.doubleIndirBlock, table] := by
    rw [indirects, if_neg (by omega), if_neg (by omega), hr, htable]
  have hreached := h.reached
  have happart := h.stored.apart hreached
  rw [hindirects] at hreached happart
  have hmem : inode.doubleIndirBlock ∈ fileBlock v inode i :: indirects v inode i := by
    rw [hindirects]
    simp
  have hmem' : table ∈ fileBlock v inode i :: indirects v inode i := by
    rw [hindirects]
    simp
  have hne : inode.doubleIndirBlock ≠ 0 := fun hzero => hreached (by rw [hzero]; simp)
  have hne' : table ≠ 0 := fun hzero => hreached (by rw [hzero]; simp)
  have hlow := h.low _ hmem
  have hlow' := h.low _ hmem'
  have hin := h.stored.inside _ hmem hne
  have hin' := h.stored.inside _ hmem' hne'
  rw [Nat.succ_mul] at hin hin'
  obtain ⟨hp, hpcache, hpsome, hpsize, hpblkno⟩ :=
    prepare_spec (v := v) (h.memory (by omega)) s.log s.indir1
  replace hpcache := hpcache hcache
  rw [readBlock, ← Volume.perblock]
  dsimp only
  rw [if_neg (by omega), if_neg (by omega), if_pos hhi, hp, if_neg (by simp), hr]
  generalize (prepare v e s.log s.indir1).1 = c at hpcache hpsome hpsize hpblkno
  have hload := load_own (e := e) hfits hlog2 hpcache hpsome hpsize hlow hin s.log
  have hreliable : (∀ t, e.fails t (v.start + inode.doubleIndirBlock <<< v.log2Ext2BlockSize)
      v.sectors = false) → (load v e s.log c (inode.doubleIndirBlock <<< v.log2Ext2BlockSize)
        c.blkno).2.2 = true := fun hreads =>
    load_of_reliable hfits hlog2 (by rw [toNat_sector hlow]; exact hlow)
      (by rw [toNat_sector hlow]; exact hin) hreads s.log
  generalize load v e s.log c (inode.doubleIndirBlock <<< v.log2Ext2BlockSize) c.blkno = first
    at hload hreliable
  cases hok : first.2.2 with
  | false =>
    rw [if_pos rfl]
    obtain ⟨l, hlog, ⟨hread, -⟩ | ⟨-, hmemFalse, hdiffers, hkept⟩⟩ := hload
    · exact absurd (hok.symm.trans hread) (by simp)
    · refine ⟨l, hlog, fun _ _ hused => absurd ?_ hused, .inr ⟨hmemFalse, rfl⟩⟩
      -- nothing else was in the buffer
      rcases hdouble with hreads | ⟨-, hheld⟩
      · exact absurd (hok.symm.trans (hreliable hreads)) (by simp)
      · rcases hpblkno with hblkno | hblkno
        · rcases hheld with hheld | hheld
          · exact hkept.trans (hblkno.trans hheld)
          · exact absurd (hheld.symm.trans hblkno.symm) hdiffers
        · exact hkept.trans hblkno
  | true =>
    rw [if_neg (by simp)]
    obtain ⟨hblkno, hcache'⟩ := hload.cacheOk hok
    obtain ⟨l, hlog, ⟨-, hnot, hholds, -⟩ | ⟨hfailed, -⟩⟩ := hload
    swap
    · exact absurd (hok.symm.trans hfailed) (by simp)
    have hentry : le32ToCpu first.1.bytes (r / v.perblock) = table := by
      rw [pointer_of_holds hne hlow hrow hholds, htable]
    have hdiffers : table <<< v.log2Ext2BlockSize ≠ first.1.blkno := by
      intro hsame
      rw [hblkno] at hsame
      have heq := sector_inj hlow' hlow hsame
      rw [heq] at happart
      simp at happart
    obtain ⟨hp2, -, hp2some, -⟩ := prepare_spec (v := v) (h.memory (by omega)) first.2.1 s.indir2
    rw [hp2, if_neg (by simp), hentry]
    generalize (prepare v e first.2.1 s.indir2).1 = c2 at hp2some
    have hholds2 : table <<< v.log2Ext2BlockSize = first.1.blkno →
        Holds v c2 (table <<< v.log2Ext2BlockSize) := fun hsame => absurd hsame hdiffers
    have hload2 := load_spec (e := e) hfits hlog2 hp2some
      (by rw [toNat_sector hlow']; exact hlow') (by rw [toNat_sector hlow']; exact hin')
      hholds2 first.2.1
    generalize load v e first.2.1 c2 (table <<< v.log2Ext2BlockSize) first.1.blkno = second
      at hload2
    obtain ⟨l2, hlog2', ⟨hok2, hnot2, hholds2, -⟩ | ⟨hok2, hmem2, -⟩⟩ := hload2
    · rw [hok2, if_neg (by simp)]
      refine ⟨l ++ l2, by rw [hlog2', hlog, List.append_assoc], hcache',
        .inl ⟨?_, ?_, fun _ => hblkno⟩⟩
      · exact fun hmem => (List.mem_append.mp hmem).elim hnot hnot2
      · rw [fileBlock, if_neg (by omega), if_neg (by omega), hr, htable]
        exact pointer_of_holds hne' hlow' hcol hholds2
    · rw [hok2, if_pos rfl]
      exact ⟨l ++ l2, by rw [hlog2', hlog, List.append_assoc], hcache',
        .inr ⟨List.mem_append_right l hmem2, rfl⟩⟩

theorem readBlock_spec (hfits : v.Fits) (hlog2 : v.log2BlockSize ≤ 6) {i : ℕ} {s : State}
    (hcache : CacheOk v s.indir1) (h : Findable v e inode i)
    (hhi : i < indirectBlocks + v.perblock * (v.perblock + 1))
    (hdouble : indirectBlocks + v.perblock ≤ i → DoubleSafe v e inode i s.indir1) :
    Finds v inode i s (readBlock v e inode i s) := by
  by_cases hdirect : i < indirectBlocks
  · rw [readBlock]
    dsimp only
    rw [if_pos hdirect]
    refine ⟨[], (List.append_nil _).symm, hcache, .inl ⟨List.not_mem_nil, ?_, fun hge => ?_⟩⟩
    · rw [fileBlock, if_pos hdirect]
    · omega
  · by_cases hsingle : i < indirectBlocks + v.perblock
    · exact readBlock_single hfits hlog2 hcache h (by omega) hsingle
    · exact readBlock_double hfits hlog2 hcache h (by omega) hhi (hdouble (by omega))

end Ext2
end EmevBsp
