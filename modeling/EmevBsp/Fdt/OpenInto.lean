import Mathlib.Data.BitVec
import Mathlib.Order.Interval.Set.Basic

/-!
# `libfdt/fdt_rw.c`: what `fdt_open_into` writes

A device tree is moved into a larger buffer.  Which bytes are written depends on the header of
the tree alone: a tree whose blocks stand in order is copied as it is, any other one is packed
block after block, behind the old tree when the two overlap, and then moved to the front of the
buffer.

The header is the record of its fields, the two sizes that are counted in the tree included, and
the writes are listed in the order in which they are made.
-/

namespace EmevBsp
namespace Fdt

/-- `len` bytes that are written from `base` on. -/
structure Write where
  base : BitVec 32
  len : ℕ

/-- The addresses of the bytes. -/
def Write.addrs (w : Write) : Set ℕ :=
  Set.Ico w.base.toNat (w.base.toNat + w.len)

/-- `struct fdt_header`, as far as it is read here. -/
structure Header where
  /-- `fdt_check_header` returns zero. -/
  ok : Bool
  totalsize : BitVec 32
  offDtStruct : BitVec 32
  offDtStrings : BitVec 32
  offMemRsvmap : BitVec 32
  sizeDtStrings : BitVec 32
  /-- `(fdt_num_mem_rsv(fdt)+1) * sizeof(struct fdt_reserve_entry)`. -/
  memRsvSize : BitVec 32
  /-- The size of the structure block, from the header or, in a tree of a version below 17, from
  the tags. -/
  structSize : BitVec 32

/-- `FDT_ALIGN(sizeof(struct fdt_header), 8)`; the header has 40 bytes. -/
def headerSize : BitVec 32 := 40

def fdtBlocksMisordered (t : Header) : Bool :=
  t.offMemRsvmap < headerSize ||
  t.offDtStruct < t.offMemRsvmap + t.memRsvSize ||
  t.offDtStrings < t.offDtStruct + t.structSize ||
  t.totalsize < t.offDtStrings + t.sizeDtStrings

/-- A word of the header at `new`, at its offset there. -/
def setWord (new : BitVec 32) (offset : BitVec 32) : Write :=
  ⟨new + offset, 4⟩

def fdtPackblocks (t : Header) (new : BitVec 32) : List Write :=
  let memRsvOff := headerSize
  let structOff := memRsvOff + t.memRsvSize
  let stringsOff := structOff + t.structSize
  [⟨new + memRsvOff, t.memRsvSize.toNat⟩, setWord new 16,
    ⟨new + structOff, t.structSize.toNat⟩, setWord new 8, setWord new 36,
    ⟨new + stringsOff, t.sizeDtStrings.toNat⟩, setWord new 12, setWord new 32]

/-- The size of the packed tree. -/
def newSize (t : Header) : BitVec 32 :=
  headerSize + t.memRsvSize + t.structSize + t.sizeDtStrings

/-- The end of `fdt_open_into`, once the packed tree is to be built at `tmp`. -/
def fdtReorder (t : Header) (buf tmp : BitVec 32) : List Write :=
  fdtPackblocks t tmp ++
    [⟨buf, (newSize t).toNat⟩, setWord buf 0, setWord buf 4, setWord buf 20, setWord buf 24,
      setWord buf 28]

/-- `fdt_open_into` of the tree at `fdt`: what it writes. -/
def fdtOpenInto (t : Header) (fdt buf bufsize : BitVec 32) : Option (List Write) :=
  if ¬ t.ok then none
  else if ¬ fdtBlocksMisordered t then
    -- no further work necessary
    if bufsize < t.totalsize then none
    else some [⟨buf, t.totalsize.toNat⟩, setWord buf 20, setWord buf 36, setWord buf 4]
  else if bufsize.slt (newSize t) then none
  -- First attempt to build converted tree at beginning of buffer, but if that overlaps with
  -- the old tree try right after it instead
  else if fdt < buf + newSize t ∧ buf < fdt + t.totalsize then
    if buf + bufsize < fdt + t.totalsize + newSize t then none
    else some (fdtReorder t buf (fdt + t.totalsize))
  else some (fdtReorder t buf buf)

/-! ## Inside the buffer -/

/-- The sum of the sizes of the blocks, without wrapping. -/
def packedSize (t : Header) : ℕ :=
  40 + t.memRsvSize.toNat + t.structSize.toNat + t.sizeDtStrings.toNat

/-- The tree at `fdt` can be opened into `bufsize` bytes: the buffer has room for a header, and
for a tree that is packed the sizes are numbers of an `int` and do not lead past the top of the
address space. -/
structure Opens (t : Header) (fdt bufsize : BitVec 32) : Prop where
  header : 40 ≤ bufsize.toNat
  bufsize_lt : bufsize.toNat < 2 ^ 31
  packed : fdtBlocksMisordered t → packedSize t < 2 ^ 31 ∧
    fdt.toNat + t.totalsize.toNat + packedSize t < 2 ^ 32

section

variable {t : Header} {fdt buf bufsize : BitVec 32}

/-- The addresses from `buf` on. -/
def buffer (buf bufsize : BitVec 32) : Set ℕ :=
  Set.Ico buf.toNat (buf.toNat + bufsize.toNat)

theorem addrs_subset {new offset : BitVec 32} {len n : ℕ}
    (hlo : buf.toNat ≤ new.toNat) (hwrap : new.toNat + n < 2 ^ 32)
    (hhi : new.toNat + n ≤ buf.toNat + bufsize.toNat) (hlen : offset.toNat + len ≤ n) :
    (⟨new + offset, len⟩ : Write).addrs ⊆ buffer buf bufsize := by
  have hadd : (new + offset).toNat = new.toNat + offset.toNat :=
    BitVec.toNat_add_of_lt (by omega)
  have hlower : buf.toNat ≤ (new + offset).toNat := by omega
  have hupper : (new + offset).toNat + len ≤ buf.toNat + bufsize.toNat := by omega
  exact Set.Ico_subset_Ico hlower hupper

theorem toNat_newSize (h : packedSize t < 2 ^ 31) : (newSize t).toNat = packedSize t := by
  unfold newSize packedSize headerSize at *
  bv_omega

theorem fdtPackblocks_inside {new : BitVec 32} (hsize : packedSize t < 2 ^ 31)
    (hlo : buf.toNat ≤ new.toNat) (hwrap : new.toNat + packedSize t < 2 ^ 32)
    (hhi : new.toNat + packedSize t ≤ buf.toNat + bufsize.toNat) :
    ∀ w ∈ fdtPackblocks t new, w.addrs ⊆ buffer buf bufsize := by
  have hword : ∀ offset : BitVec 32, offset.toNat ≤ 36 →
      (setWord new offset).addrs ⊆ buffer buf bufsize := by
    intro offset hle
    refine addrs_subset hlo hwrap hhi ?_
    unfold packedSize
    omega
  have hstruct : (headerSize + t.memRsvSize).toNat = 40 + t.memRsvSize.toNat := by
    unfold packedSize headerSize at *
    bv_omega
  have hstrings : (headerSize + t.memRsvSize + t.structSize).toNat =
      40 + t.memRsvSize.toNat + t.structSize.toNat := by
    unfold packedSize headerSize at *
    bv_omega
  intro w hw
  simp only [fdtPackblocks, List.mem_cons, List.not_mem_nil, or_false] at hw
  rcases hw with rfl | rfl | rfl | rfl | rfl | rfl | rfl | rfl
  · refine addrs_subset hlo hwrap hhi ?_
    rw [show headerSize.toNat = 40 from rfl, packedSize]
    omega
  · exact hword 16 (by decide)
  · refine addrs_subset hlo hwrap hhi ?_
    rw [hstruct, packedSize]
    omega
  · exact hword 8 (by decide)
  · exact hword 36 (by decide)
  · refine addrs_subset hlo hwrap hhi ?_
    rw [hstrings, packedSize]
  · exact hword 12 (by decide)
  · exact hword 32 (by decide)

theorem setWord_inside (hbuf : buf.toNat + bufsize.toNat < 2 ^ 32) (hheader : 40 ≤ bufsize.toNat)
    {offset : BitVec 32} (hle : offset.toNat ≤ 36) :
    (setWord buf offset).addrs ⊆ buffer buf bufsize :=
  addrs_subset le_rfl hbuf le_rfl (by omega)

theorem fdtReorder_inside {tmp : BitVec 32} (hbuf : buf.toNat + bufsize.toNat < 2 ^ 32)
    (hheader : 40 ≤ bufsize.toNat) (hsize : packedSize t < 2 ^ 31) (hlo : buf.toNat ≤ tmp.toNat)
    (hhi : tmp.toNat + packedSize t ≤ buf.toNat + bufsize.toNat) :
    ∀ w ∈ fdtReorder t buf tmp, w.addrs ⊆ buffer buf bufsize := by
  intro w hw
  rw [fdtReorder, List.mem_append] at hw
  rcases hw with hw | hw
  · exact fdtPackblocks_inside hsize hlo (by omega) hhi w hw
  · simp only [List.mem_cons, List.not_mem_nil, or_false] at hw
    rcases hw with rfl | rfl | rfl | rfl | rfl | rfl
    · have hnew : buf.toNat + (newSize t).toNat ≤ buf.toNat + bufsize.toNat := by
        rw [toNat_newSize hsize]
        omega
      exact Set.Ico_subset_Ico le_rfl hnew
    · exact setWord_inside hbuf hheader (by decide)
    · exact setWord_inside hbuf hheader (by decide)
    · exact setWord_inside hbuf hheader (by decide)
    · exact setWord_inside hbuf hheader (by decide)
    · exact setWord_inside hbuf hheader (by decide)

theorem fdtOpenInto_inside {ws : List Write} (hopens : Opens t fdt bufsize)
    (hbuf : buf.toNat + bufsize.toNat < 2 ^ 32) (h : fdtOpenInto t fdt buf bufsize = some ws) :
    ∀ w ∈ ws, w.addrs ⊆ buffer buf bufsize := by
  have hheader := hopens.header
  rw [fdtOpenInto] at h
  split_ifs at h with hok horder hroom hover hend hsmall
  · -- behind the old tree, which ends above the start of the buffer
    obtain rfl := Option.some.inj h
    obtain ⟨hsize, hwrap⟩ := hopens.packed horder
    have hnew := toNat_newSize hsize
    have hfdt : (fdt + t.totalsize).toNat = fdt.toNat + t.totalsize.toNat :=
      BitVec.toNat_add_of_lt (by omega)
    have hsum : (fdt + t.totalsize + newSize t).toNat =
        fdt.toNat + t.totalsize.toNat + packedSize t := by
      rw [BitVec.toNat_add_of_lt (by rw [hfdt, hnew]; exact hwrap), hfdt, hnew]
    have hbufend : (buf + bufsize).toNat = buf.toNat + bufsize.toNat :=
      BitVec.toNat_add_of_lt hbuf
    have hbelow := BitVec.lt_def.mp hover.2
    rw [BitVec.lt_def, hsum, hbufend, not_lt] at hend
    rw [hfdt] at hbelow
    exact fdtReorder_inside hbuf hheader hsize (by omega) (by omega)
  · -- at the front of the buffer
    obtain rfl := Option.some.inj h
    obtain ⟨hsize, -⟩ := hopens.packed horder
    have hnew := toNat_newSize hsize
    have hfit : packedSize t ≤ bufsize.toNat := by
      have hlt := hopens.bufsize_lt
      rw [← hnew] at hsize ⊢
      rw [Bool.not_eq_true, BitVec.slt_eq_ult_of_msb_eq] at hroom
      · simpa [BitVec.ult] using hroom
      · rw [BitVec.msb_eq_false_iff_two_mul_lt.mpr (by omega),
          BitVec.msb_eq_false_iff_two_mul_lt.mpr (by omega)]
    exact fdtReorder_inside hbuf hheader hsize le_rfl (by omega)
  · obtain rfl := Option.some.inj h
    intro w hw
    simp only [List.mem_cons, List.not_mem_nil, or_false] at hw
    rcases hw with rfl | rfl | rfl | rfl
    · exact Set.Ico_subset_Ico le_rfl (Nat.add_le_add_left (not_lt.mp hsmall) _)
    · exact setWord_inside hbuf hheader (by decide)
    · exact setWord_inside hbuf hheader (by decide)
    · exact setWord_inside hbuf hheader (by decide)

end

end Fdt
end EmevBsp
