import EmevBsp.LibGeneric.Crc32
import EmevBsp.Uimage.MultiRoundTrip

/-!
# `common/image.c`: the checks of an image in memory

The writer takes the crc of the header and of the data in one shot.  The reader works on the
memory that the image was loaded to: it copies the header to blank the field of the check, and
goes through the data in chunks.
-/

namespace EmevBsp
namespace Uimage

variable {mem : Memory} {hdr : UInt32} {image : UImage}

/-! ## The reader -/

/-- `uimage_to_cpu` of the number at `p`. -/
def uimageToCpu (mem : Memory) (p : UInt32) : UInt32 :=
  UInt32.ofNat (ntohl (mem p) (mem (p + 1)) (mem (p + 2)) (mem (p + 3)))

/-- The memory with the copy of the header at `header`: "Copy header so we can blank CRC field for
re-calculation". -/
def blankedCopy (mem : Memory) (header hdr : UInt32) : Memory := fun p =>
  let i := p - header
  if 64 ≤ i then mem p
  else if 4 ≤ i ∧ i < 8 then 0
  else mem (hdr + i)

/-- `image_check_hcrc`; the copy of the header is at `header`. -/
def imageCheckHcrcAt (mem : Memory) (header hdr : UInt32) : Bool :=
  crc32At (blankedCopy mem header hdr) 0 header 64 == uimageToCpu mem (hdr + 4)

def chunkszCrc32 : ChunkSize := ⟨64 * 1024, by decide⟩

/-- `image_check_dcrc` -/
def imageCheckDcrcAt (mem : Memory) (watchdog : Bool) (hdr : UInt32) : Bool :=
  crc32WdAt mem watchdog 0 (hdr + 64) (uimageToCpu mem (hdr + 12)) chunkszCrc32 ==
    uimageToCpu mem (hdr + 24)

/-! ## An image in memory -/

/-- The image lies in memory at `hdr`, all of it. -/
structure Placed (mem : Memory) (hdr : UInt32) (image : UImage) : Prop where
  fits : hdr.toNat + image.bytes.length < 2 ^ 32
  bytes : bytesAt mem hdr image.bytes.length = image.bytes

theorem length_bytesAt (mem : Memory) (buf : UInt32) (n : ℕ) : (bytesAt mem buf n).length = n := by
  induction n generalizing buf with
  | zero => rfl
  | succ n ih => rw [bytesAt, List.length_cons, ih]

theorem getElem_bytesAt (mem : Memory) (buf : UInt32) {n i : ℕ}
    (h : i < (bytesAt mem buf n).length) :
    (bytesAt mem buf n)[i] = mem (buf + UInt32.ofNat i) := by
  induction n generalizing buf i with
  | zero => exact absurd h (Nat.not_lt_zero i)
  | succ n ih =>
    cases i with
    | zero => rw [show UInt32.ofNat 0 = 0 from rfl, UInt32.add_zero]; rfl
    | succ i =>
      have h' : i < (bytesAt mem (buf + 1) n).length := Nat.lt_of_succ_lt_succ h
      show (bytesAt mem (buf + 1) n)[i] = _
      rw [ih _ h', UInt32.add_assoc, UInt32.add_comm 1, UInt32.ofNat_add, UInt32.ofNat_one]

theorem Placed.parts (h : Placed mem hdr image) :
    bytesAt mem hdr 64 = image.hdr.bytes ∧
      bytesAt mem (hdr + 64) image.data.length = image.data := by
  have hbytes := h.bytes
  rw [UImage.length_bytes, bytesAt_add, UImage.bytes] at hbytes
  have hlength : (bytesAt mem hdr headerSize).length = image.hdr.bytes.length := by
    rw [length_bytesAt, ImageHeader.length_bytes]
  exact List.append_inj hbytes hlength

theorem Placed.getD_header (h : Placed mem hdr image) {i : ℕ} (hi : i < 64) :
    mem (hdr + UInt32.ofNat i) = image.hdr.bytes.getD i 0 := by
  have hlen : i < (bytesAt mem hdr 64).length := by rwa [length_bytesAt]
  rw [← h.parts.1, List.getD_eq_getElem _ _ hlen, getElem_bytesAt]

theorem Placed.uimageToCpu (h : Placed mem hdr image) {i : ℕ} (hi : i + 3 < 64) (n : UInt32)
    (hn : (image.hdr.bytes.drop i).take 4 = htonl n.toNat) :
    uimageToCpu mem (hdr + UInt32.ofNat i) = n := by
  have hbyte : ∀ k (hk : k < 4), mem (hdr + UInt32.ofNat i + UInt32.ofNat k) =
      (htonl n.toNat).getD k 0 := by
    intro k hk
    rw [UInt32.add_assoc, ← UInt32.ofNat_add, h.getD_header (by omega), ← hn,
      List.getD_eq_getElem?_getD, List.getD_eq_getElem?_getD, List.getElem?_take_of_lt hk,
      List.getElem?_drop]
  have h0 := hbyte 0 (by decide)
  rw [show UInt32.ofNat 0 = 0 from rfl, UInt32.add_zero] at h0
  rw [Uimage.uimageToCpu, h0]
  show UInt32.ofNat (ntohl _ (mem (_ + UInt32.ofNat 1)) (mem (_ + UInt32.ofNat 2))
    (mem (_ + UInt32.ofNat 3))) = n
  rw [hbyte 1 (by decide), hbyte 2 (by decide), hbyte 3 (by decide)]
  calc UInt32.ofNat _ = UInt32.ofNat (n.toNat % 2 ^ 32) :=
        congrArg UInt32.ofNat (ntohl_htonl n.toNat)
    _ = n := by rw [Nat.mod_eq_of_lt n.toNat_lt, UInt32.ofNat_toNat]

theorem Placed.fields (h : Placed mem hdr image) :
    Uimage.uimageToCpu mem (hdr + 4) = image.hdr.hcrc ∧
      Uimage.uimageToCpu mem (hdr + 12) = image.hdr.size ∧
      Uimage.uimageToCpu mem (hdr + 24) = image.hdr.dcrc :=
  ⟨h.uimageToCpu (i := 4) (by decide) _ rfl, h.uimageToCpu (i := 12) (by decide) _ rfl,
    h.uimageToCpu (i := 24) (by decide) _ rfl⟩

theorem getD_blank (hdr : ImageHeader) (i : ℕ) :
    (if 4 ≤ i ∧ i < 8 then 0 else hdr.bytes.getD i 0) =
      { hdr with hcrc := 0 }.bytes.getD i 0 := by
  match i with
  | 0 | 1 | 2 | 3 => rfl
  | 4 | 5 | 6 | 7 => simp [ImageHeader.bytes, htonl]
  | i + 8 =>
    rw [if_neg (by omega)]
    rfl

theorem Placed.bytesAt_blankedCopy (h : Placed mem hdr image) (header : UInt32) :
    bytesAt (blankedCopy mem header hdr) header 64 = { image.hdr with hcrc := 0 }.bytes := by
  apply List.ext_getElem
  · rw [length_bytesAt, ImageHeader.length_bytes]
    rfl
  · intro i hi hi'
    rw [length_bytesAt] at hi
    have hlen : i < (bytesAt mem hdr 64).length := by rwa [length_bytesAt]
    have hi32 : (UInt32.ofNat i).toNat = i := by
      rw [UInt32.toNat_ofNat']
      exact Nat.mod_eq_of_lt (by omega)
    have hcopy : blankedCopy mem header hdr (header + UInt32.ofNat i) =
        if 4 ≤ i ∧ i < 8 then 0 else image.hdr.bytes.getD i 0 := by
      rw [blankedCopy, UInt32.add_comm header, UInt32.add_sub_cancel]
      simp only [UInt32.le_iff_toNat_le, UInt32.lt_iff_toNat_lt, hi32, h.getD_header hi]
      exact if_neg (Nat.not_le.mpr hi)
    rw [getElem_bytesAt, hcopy, ← List.getD_eq_getElem _ 0 hi']
    exact getD_blank image.hdr i

/-! ## What the checks compare -/

theorem Placed.imageCheckHcrcAt_iff (h : Placed mem hdr image) (header : UInt32) :
    imageCheckHcrcAt mem header hdr = true ↔
      image.hdr.hcrc = crc32 0 { image.hdr with hcrc := 0 }.bytes := by
  rw [imageCheckHcrcAt, crc32At_eq, h.fields.1, beq_iff_eq,
    show (64 : UInt32).toNat = 64 from rfl, h.bytesAt_blankedCopy]
  exact eq_comm

theorem Placed.fits_buffer (h : Placed mem hdr image)
    (hsize : image.hdr.size.toNat = image.data.length) :
    (hdr + 64).toNat + image.hdr.size.toNat < 2 ^ 32 := by
  have hfits := h.fits
  rw [UImage.length_bytes, headerSize] at hfits
  rw [UInt32.toNat_add, hsize, show (64 : UInt32).toNat = 64 from rfl]
  omega

/-- The data of an image, when the header says how long they are. -/
def Placed.buffer (h : Placed mem hdr image)
    (hsize : image.hdr.size.toNat = image.data.length) : Buffer where
  buf := hdr + 64
  len := image.hdr.size
  fits := h.fits_buffer hsize

theorem Placed.imageCheckDcrcAt_iff (h : Placed mem hdr image)
    (hsize : image.hdr.size.toNat = image.data.length) (watchdog : Bool) :
    imageCheckDcrcAt mem watchdog hdr = true ↔ image.hdr.dcrc = crc32 0 image.data := by
  have hchunks := crc32WdAt_eq mem watchdog 0 (h.buffer hsize) chunkszCrc32
  have hdata : bytesAt mem (hdr + 64) image.hdr.size.toNat = image.data := by
    rw [hsize, h.parts.2]
  rw [imageCheckDcrcAt, h.fields.2.1, h.fields.2.2, beq_iff_eq]
  rw [show crc32WdAt mem watchdog 0 (hdr + 64) image.hdr.size chunkszCrc32 = _ from hchunks,
    crc32At_eq, show bytesAt mem (h.buffer hsize).buf (h.buffer hsize).len.toNat = _ from hdata]
  exact eq_comm

/-! ## The writer -/

theorem crcs_of_mkimage {behind : UInt8} {o : Options} {files : List (List UInt8)} {mtime : UInt32}
    (h : mkimage behind o files mtime = some image) (hlen : image.data.length < 2 ^ 32) :
    image.hdr.size.toNat = image.data.length ∧
      image.hdr.hcrc = crc32 0 { image.hdr with hcrc := 0 }.bytes ∧
      image.hdr.dcrc = crc32 0 image.data := by
  rw [mkimage] at h
  split_ifs at h
  obtain ⟨data, -, rfl⟩ := Option.map_eq_some_iff.mp h
  have hmod : data.length % 2 ^ 32 = data.length := Nat.mod_eq_of_lt hlen
  refine ⟨?_, rfl, ?_⟩
  · show (UInt32.ofNat data.length).toNat = data.length
    rw [UInt32.toNat_ofNat', hmod]
  · show crc32 0 (data.take (data.length % 2 ^ 32)) = crc32 0 data
    rw [hmod, List.take_length]

/-- **A string may be checked in pieces**, of any size and at any place, and in chunks.  So the
two checks of an image in memory say whether the header holds the one-shot crcs, which are those
that the tool writes. -/
theorem crc32_pieces (mem : Memory) :
    (∀ (crc : UInt32) (a b ab : Buffer), ab.bytes mem = a.bytes mem ++ b.bytes mem →
      crc32At mem (crc32At mem crc a.buf a.len) b.buf b.len = crc32At mem crc ab.buf ab.len) ∧
    (∀ (watchdog : Bool) (crc : UInt32) (b : Buffer) (chunkSz : ChunkSize),
      crc32WdAt mem watchdog crc b.buf b.len chunkSz = crc32At mem crc b.buf b.len) ∧
    ∀ (hdr : UInt32) (image : UImage), Placed mem hdr image →
      (∀ header, imageCheckHcrcAt mem header hdr = true ↔
        image.hdr.hcrc = crc32 0 { image.hdr with hcrc := 0 }.bytes) ∧
      (image.hdr.size.toNat = image.data.length → ∀ watchdog,
        (imageCheckDcrcAt mem watchdog hdr = true ↔ image.hdr.dcrc = crc32 0 image.data)) ∧
      ∀ behind o files mtime, mkimage behind o files mtime = some image → ∀ header watchdog,
        imageCheckHcrcAt mem header hdr = true ∧ imageCheckDcrcAt mem watchdog hdr = true := by
  refine ⟨fun crc a b ab hab => ?_, crc32WdAt_eq mem, fun hdr image h => ?_⟩
  · rw [Buffer.bytes, Buffer.bytes, Buffer.bytes] at hab
    rw [crc32At_eq, crc32At_eq, crc32At_eq, hab, crc32_append]
  · refine ⟨h.imageCheckHcrcAt_iff, h.imageCheckDcrcAt_iff, ?_⟩
    intro behind o files mtime hmk header watchdog
    have hlen : image.data.length < 2 ^ 32 := by
      have hfits := h.fits
      rw [UImage.length_bytes] at hfits
      omega
    obtain ⟨hsize, hhcrc, hdcrc⟩ := crcs_of_mkimage hmk hlen
    exact ⟨(h.imageCheckHcrcAt_iff header).mpr hhcrc,
      (h.imageCheckDcrcAt_iff hsize watchdog).mpr hdcrc⟩

/-- An image of two files. -/
def twoFiles : UImage := multiImage false [0, 0, 0, 3, 0, 0, 0, 2, 0, 0, 0, 0, 1, 2, 3, 0, 4, 5]

/-- The memory that it was loaded to. -/
def loaded : Memory := fun p => twoFiles.bytes.getD (p - 0x31000000).toNat 0

theorem placed_twoFiles : Placed loaded 0x31000000 twoFiles where
  fits := by decide
  bytes := by decide +kernel

theorem crc32_pieces_twoFiles :
    imageCheckHcrcAt loaded 0x33000000 0x31000000 = true ∧
      imageCheckDcrcAt loaded true 0x31000000 = true :=
  ((crc32_pieces loaded).2.2 _ _ placed_twoFiles).2.2 0 (multiOptions false) [[1, 2, 3], [4, 5]] 0
    rfl 0x33000000 true

end Uimage
end EmevBsp
