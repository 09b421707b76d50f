import EmevBsp.Uimage.Mkimage
import Mathlib.Algebra.GroupWithZero.Nat

/-!
# `common/image.c`: images of several files

The reader finds the table of the sizes behind the header, counts its entries up to the zero, and
adds up the sizes before an entry, each filled up to a multiple of four, to find where its file
begins.  What it returns is an address and a length; an address is 32 bits wide.

An image lies in memory at `hdr`.  Its bytes are all that is known of the memory, so the model has
no value for what is read outside of it.
-/

namespace EmevBsp
namespace Uimage

theorem chunksz_pos : 0 < 64 * 1024 := by decide

def chunksz : ℕ+ := ⟨64 * 1024, chunksz_pos⟩

def imageCheckHcrc (hdr : ImageHeader) : Bool :=
  crc32 0 { hdr with hcrc := 0 }.bytes == hdr.hcrc

def imageCheckDcrc (image : UImage) : Bool :=
  crc32Wd 0 (image.data.take image.hdr.size.toNat) chunksz == image.hdr.dcrc

def ntohl (a b c d : UInt8) : ℕ :=
  a.toNat * 2 ^ 24 + b.toNat * 2 ^ 16 + c.toNat * 2 ^ 8 + d.toNat

/-- The loop "count non empty slots". -/
def countSlots : List UInt8 → Option ℕ
  | a :: b :: c :: d :: data =>
    if ntohl a b c d = 0 then some 0 else (countSlots data).map (· + 1)
  | _ => none

def imageMultiCount (image : UImage) : Option ℕ := countSlots image.data

/-- `uimage_to_cpu (size[i])` -/
def sizeAt (data : List UInt8) (i : ℕ) : Option ℕ :=
  match data.drop (4 * i) with
  | a :: b :: c :: d :: _ => some (ntohl a b c d)
  | _ => none

/-- `(size + 3) & ~3` -/
def roundUp (size : ℕ) : ℕ := 4 * ((size + 3) % 2 ^ 32 / 4)

/-- "go over all indices preceding requested component idx" -/
def addSizes (data : List UInt8) : ℕ → Option ℕ
  | 0 => some 0
  | i + 1 => do
    let offset ← addSizes data i
    let size ← sizeAt data i
    some ((offset + roundUp size) % 2 ^ 32)

def imageGetData (hdr : ℕ) : ℕ := (hdr + headerSize) % 2 ^ 32

/-- `image_multi_getimg`: `data` and `len`. -/
def imageMultiGetimg (hdr : ℕ) (image : UImage) (idx : ℕ) : Option (ℕ × ℕ) := do
  let count ← imageMultiCount image
  let imgData := (imageGetData hdr + (count + 1) * 4) % 2 ^ 32
  if idx < count then
    let len ← sizeAt image.data idx
    let offset ← addSizes image.data idx
    some ((imgData + offset) % 2 ^ 32, len)
  else some (0, 0)

/-- The image in the file, and in memory. -/
def UImage.bytes (image : UImage) : List UInt8 := image.hdr.bytes ++ image.data

/-- The memory at an address, as far as it belongs to the image at `hdr`. -/
def UImage.bytesAt (image : UImage) (hdr data len : ℕ) : Option (List UInt8) :=
  if hdr ≤ data ∧ data + len ≤ hdr + image.bytes.length then
    some ((image.bytes.drop (data - hdr)).take len)
  else none

theorem UImage.length_bytes (image : UImage) :
    image.bytes.length = headerSize + image.data.length := by
  rw [bytes, List.length_append, ImageHeader.length_bytes]

end Uimage
end EmevBsp

/-!
# Images of several files, there and back

The writer makes the table of the sizes and copies the files; the reader finds the files by the
table.  The two agree when what is copied of a file has the size that the table says.

With `-x` it is 64 bytes less.  Behind the first file everything is found 64 bytes too late for
each file before it, and what the reader takes for the last file goes past the end of the image.

* `imageMultiGetimg_of_table`: what the reader makes of a table.
* `exists_split_of_copyFiles`, `length_of_copyFiles`: where the writer puts a file, and how much it
  writes.
* `mkimage_roundTrip_iff`: **the files come back**, exactly when `-x` is not given and each of them
  has a size that the table can hold.
* `not_roundTrip`: a file of 68 bytes, with `-x`.
-/

namespace EmevBsp
namespace Uimage

/-! ## The reader and a table -/

theorem ntohl_htonl (n : ℕ) :
    ntohl (UInt8.ofNat (n / 2 ^ 24)) (UInt8.ofNat (n / 2 ^ 16)) (UInt8.ofNat (n / 2 ^ 8))
      (UInt8.ofNat n) = n % 2 ^ 32 := by
  simp only [ntohl, UInt8.toNat_ofNat']
  omega

/-- The room of a file that is filled up. -/
def filled (size : ℕ) : ℕ := size + (padding size).length

theorem filled_eq (size : ℕ) : filled size = 4 * ((size + 3) / 4) := by
  rw [filled, padding]
  split_ifs with hsize
  · rw [List.length_replicate]
    omega
  · rw [List.length_nil]
    omega

theorem roundUp_eq {size : ℕ} (h : size + 3 < 2 ^ 32) : roundUp (size % 2 ^ 32) = filled size := by
  rw [roundUp, filled_eq, Nat.mod_eq_of_lt (by omega : size < 2 ^ 32), Nat.mod_eq_of_lt h]

/-- Where a file begins, behind the table. -/
def start (sizes : List ℕ) (i : ℕ) : ℕ := ((sizes.take i).map filled).sum

theorem start_cons_succ (size : ℕ) (sizes : List ℕ) (i : ℕ) :
    start (size :: sizes) (i + 1) = filled size + start sizes i := by
  rw [start, List.take_succ_cons, List.map_cons, List.sum_cons]
  rfl

theorem start_succ {sizes : List ℕ} {i : ℕ} (h : i < sizes.length) :
    start sizes (i + 1) = start sizes i + filled sizes[i] := by
  rw [start, List.take_succ_eq_append_getElem h, List.map_append, List.sum_append]
  simp [start]

theorem start_mod_four (sizes : List ℕ) (i : ℕ) : start sizes i % 4 = 0 := by
  induction i with
  | zero => rfl
  | succ i ih =>
    rcases Nat.lt_or_ge i sizes.length with hi | hi
    · rw [start_succ hi, filled_eq]
      omega
    · rwa [start, List.take_of_length_le (by omega : sizes.length ≤ i + 1),
        ← List.take_of_length_le hi]

theorem sizeAt_zero (n : ℕ) (data : List UInt8) :
    sizeAt (htonl n ++ data) 0 = some (n % 2 ^ 32) :=
  congrArg some (ntohl_htonl n)

theorem sizeAt_succ (n : ℕ) (data : List UInt8) (i : ℕ) :
    sizeAt (htonl n ++ data) (i + 1) = sizeAt data i := by
  rw [sizeAt, sizeAt, Nat.mul_succ]
  rfl

theorem sizeAt_table (sizes : List ℕ) (data : List UInt8) {i : ℕ} (h : i < sizes.length) :
    sizeAt (sizes.flatMap htonl ++ data) i = some (sizes[i] % 2 ^ 32) := by
  induction sizes generalizing i with
  | nil => exact absurd h (Nat.not_lt_zero i)
  | cons n sizes ih =>
    rw [List.flatMap_cons, List.append_assoc]
    cases i with
    | zero => exact sizeAt_zero n _
    | succ i => rw [sizeAt_succ, ih (Nat.lt_of_succ_lt_succ h), List.getElem_cons_succ]

theorem countSlots_htonl (n : ℕ) (data : List UInt8) :
    countSlots (htonl n ++ data) =
      if n % 2 ^ 32 = 0 then some 0 else (countSlots data).map (· + 1) := by
  rw [htonl]
  simp only [List.cons_append, List.nil_append, countSlots, ntohl_htonl]

theorem countSlots_table {sizes : List ℕ} (h : ∀ n ∈ sizes, n % 2 ^ 32 ≠ 0) (data : List UInt8) :
    countSlots (sizes.flatMap htonl ++ (htonl 0 ++ data)) = some sizes.length := by
  induction sizes with
  | nil =>
    rw [List.flatMap_nil, List.nil_append, countSlots_htonl, if_pos (Nat.zero_mod _)]
    rfl
  | cons n sizes ih =>
    rw [List.flatMap_cons, List.append_assoc, countSlots_htonl, if_neg (h n List.mem_cons_self),
      ih fun m hm => h m (List.mem_cons_of_mem n hm)]
    rfl

theorem addSizes_table {sizes : List ℕ} (h : ∀ n ∈ sizes, n + 3 < 2 ^ 32) (data : List UInt8)
    {i : ℕ} (hi : i ≤ sizes.length) :
    addSizes (sizes.flatMap htonl ++ data) i = some (start sizes i % 2 ^ 32) := by
  induction i with
  | zero => rfl
  | succ i ih =>
    rw [addSizes, ih (by omega), sizeAt_table sizes data hi]
    change some ((start sizes i % 2 ^ 32 + roundUp (sizes[i] % 2 ^ 32)) % 2 ^ 32) = _
    rw [roundUp_eq (h _ (List.getElem_mem hi)), start_succ hi, Nat.mod_add_mod]

theorem imageMultiGetimg_of_table {sizes : List ℕ} (h : ∀ n ∈ sizes, 0 < n ∧ n + 3 < 2 ^ 32)
    {image : UImage} {body : List UInt8}
    (hdata : image.data = sizes.flatMap htonl ++ (htonl 0 ++ body)) (hdr : ℕ) :
    imageMultiCount image = some sizes.length ∧
      ∀ i (hi : i < sizes.length), imageMultiGetimg hdr image i =
        some ((hdr + headerSize + 4 * (sizes.length + 1) + start sizes i) % 2 ^ 32, sizes[i]) := by
  have hcount : imageMultiCount image = some sizes.length := by
    rw [imageMultiCount, hdata]
    refine countSlots_table (fun n hn => ?_) body
    obtain ⟨hpos, hlt⟩ := h n hn
    omega
  refine ⟨hcount, fun i hi => ?_⟩
  have hsize : sizes[i] % 2 ^ 32 = sizes[i] :=
    Nat.mod_eq_of_lt (by have := (h _ (List.getElem_mem hi)).2; omega)
  rw [imageMultiGetimg, hcount, hdata]
  dsimp only [Option.bind_eq_bind, Option.bind_some]
  rw [if_pos hi, sizeAt_table sizes _ hi, addSizes_table (fun n hn => (h n hn).2) _ hi.le, hsize]
  dsimp only [Option.bind_some]
  rw [imageGetData]
  congr 2
  omega

/-! ## What the writer copies -/

/-- The room of a list of files; the last one is not filled up. -/
def extent : List ℕ → ℕ
  | [] => 0
  | [n] => n
  | n :: sizes => filled n + extent sizes

theorem extent_eq {sizes : List ℕ} (h : sizes ≠ []) :
    extent sizes = start sizes (sizes.length - 1) + sizes.getLast h := by
  induction sizes with
  | nil => exact absurd rfl h
  | cons n sizes ih =>
    cases sizes with
    | nil => exact (Nat.zero_add n).symm
    | cons m sizes =>
      change filled n + extent (m :: sizes) = start (n :: m :: sizes) (sizes.length + 1) + _
      rw [ih (List.cons_ne_nil m sizes), start_cons_succ, List.getLast_cons_cons]
      exact (Nat.add_assoc _ _ _).symm

theorem copyFile_eq_some {behind : UInt8} {xflag pad : Bool} {file out : List UInt8}
    (h : copyFile behind xflag pad file = some out) (hlen : file.length < 2 ^ 32 - 1) :
    0 < file.length ∧ xipOffset xflag ≤ file.length ∧
      file.length - xipOffset xflag < 2 ^ 31 ∧
      out = file.drop (xipOffset xflag) ++
        if pad then padding (file.length - xipOffset xflag) else [] := by
  have hmod : (file.length - xipOffset xflag) % 2 ^ 32 = file.length - xipOffset xflag :=
    Nat.mod_eq_of_lt (by omega)
  rw [copyFile, hmod] at h
  by_cases hnil : file = []
  · rw [if_pos hnil] at h
    exact absurd h (Option.some_ne_none out).symm
  by_cases hbad : xflag = true ∧ BadXip file
  · rw [if_neg hnil, if_pos hbad] at h
    exact absurd h (Option.some_ne_none out).symm
  have hone : ¬ file.length - xipOffset xflag = 2 ^ 32 - 1 := by omega
  by_cases hsize : 2 ^ 31 ≤ file.length - xipOffset xflag
  · rw [if_neg hnil, if_neg hbad, if_neg hone, if_pos hsize] at h
    exact absurd h (Option.some_ne_none out).symm
  rw [if_neg hnil, if_neg hbad, if_neg hone, if_neg hsize] at h
  have hoffset : xipOffset xflag ≤ file.length := by
    cases xflag with
    | false => exact Nat.zero_le _
    | true =>
      have hgood : ¬ BadXip file := fun hb => hbad ⟨rfl, hb⟩
      rw [BadXip, not_or, Nat.mod_eq_of_lt (by omega)] at hgood
      exact Nat.le_of_not_lt hgood.1
  refine ⟨List.length_pos_iff.mpr hnil, hoffset, Nat.lt_of_not_le hsize, ?_⟩
  obtain rfl := Option.some.inj h
  rw [List.take_of_length_le (by rw [List.length_drop])]

theorem copyFiles_cons_eq_some {behind : UInt8} {xflag : Bool} {file : List UInt8} {files : List (List UInt8)}
    {body : List UInt8} (hne : files ≠ [])
    (h : copyFiles behind xflag (file :: files) = some body) :
    ∃ first rest, copyFile behind xflag true file = some first ∧
      copyFiles behind xflag files = some rest ∧ body = first ++ rest := by
  obtain ⟨file', files, rfl⟩ := List.exists_cons_of_ne_nil hne
  rw [copyFiles] at h
  obtain ⟨first, hfirst, h⟩ := Option.bind_eq_some_iff.mp h
  obtain ⟨rest, hrest, h⟩ := Option.bind_eq_some_iff.mp h
  exact ⟨first, rest, hfirst, hrest, (Option.some.inj h).symm⟩
  exact List.cons_ne_nil file' files

/-- What is copied of the files. -/
structure Copied (xflag : Bool) (files : List (List UInt8)) (body : List UInt8) : Prop where
  sizes : ∀ file ∈ files, 0 < file.length ∧ xipOffset xflag ≤ file.length ∧
    file.length - xipOffset xflag < 2 ^ 31
  length : body.length = extent (files.map fun file => file.length - xipOffset xflag)
  split : ∀ i (hi : i < files.length), ∃ front back,
    body = front ++ files[i].drop (xipOffset xflag) ++ back ∧
      front.length = start (files.map fun file => file.length - xipOffset xflag) i

theorem copied_of_copyFiles {behind : UInt8} {xflag : Bool} {files : List (List UInt8)}
    {body : List UInt8} (h : copyFiles behind xflag files = some body)
    (hlen : ∀ file ∈ files, file.length < 2 ^ 32 - 1) : Copied xflag files body := by
  induction files generalizing body with
  | nil => exact absurd h (Option.some_ne_none body).symm
  | cons file files ih =>
    by_cases hne : files = []
    · -- the last file
      subst hne
      obtain ⟨hpos, hoffset, hsize, rfl⟩ :=
        copyFile_eq_some h (hlen file List.mem_cons_self)
      refine ⟨fun f hf => ?_, ?_, fun i hi => ?_⟩
      · obtain rfl := List.mem_singleton.mp hf
        exact ⟨hpos, hoffset, hsize⟩
      · simp [extent]
      · obtain rfl := Nat.lt_one_iff.mp hi
        exact ⟨[], [], by simp, rfl⟩
    · obtain ⟨first, rest, hfirst, hrest, rfl⟩ := copyFiles_cons_eq_some hne h
      obtain ⟨hpos, hoffset, hsize, rfl⟩ :=
        copyFile_eq_some hfirst (hlen file List.mem_cons_self)
      have hcopied := ih hrest fun f hf => hlen f (List.mem_cons_of_mem file hf)
      have hfilled : (file.drop (xipOffset xflag) ++
          padding (file.length - xipOffset xflag)).length =
          filled (file.length - xipOffset xflag) := by
        rw [List.length_append, List.length_drop, filled]
      rw [if_pos rfl]
      refine ⟨fun f hf => ?_, ?_, fun i hi => ?_⟩
      · rcases List.mem_cons.mp hf with rfl | hf
        · exact ⟨hpos, hoffset, hsize⟩
        · exact hcopied.sizes f hf
      · rw [List.length_append, hfilled, hcopied.length]
        obtain ⟨file', files, rfl⟩ := List.exists_cons_of_ne_nil hne
        rfl
      · cases i with
        | zero =>
          exact ⟨[], padding (file.length - xipOffset xflag) ++ rest, by simp, rfl⟩
        | succ i =>
          obtain ⟨front, back, hsplit, hfront⟩ := hcopied.split i (Nat.lt_of_succ_lt_succ hi)
          refine ⟨file.drop (xipOffset xflag) ++ padding (file.length - xipOffset xflag) ++ front,
            back, ?_, ?_⟩
          · rw [hsplit, List.getElem_cons_succ, ← List.append_assoc, ← List.append_assoc]
          · rw [List.length_append, hfilled, hfront, List.map_cons, start_cons_succ]

/-! ## There and back -/

/-- **What the reader has to find**: the checks pass, and each file is where the reader looks for
it, with its length. -/
structure RoundTrip (hdr : ℕ) (image : UImage) (files : List (List UInt8)) : Prop where
  hcrc : imageCheckHcrc image.hdr = true
  dcrc : imageCheckDcrc image = true
  count : imageMultiCount image = some files.length
  getimg : ∀ i (hi : i < files.length), ∃ data len,
    imageMultiGetimg hdr image i = some (data, len) ∧ image.bytesAt hdr data len = some files[i]

theorem mkimage_eq_some {behind : UInt8} {o : Options} (hmulti : o.optType = ihTypeMulti)
    {files : List (List UInt8)} {mtime : UInt32} {image : UImage}
    (h : mkimage behind o files mtime = some image) :
    ∃ body, copyFiles behind o.xflag files = some body ∧
      image.data = (files.map List.length).flatMap htonl ++ (htonl 0 ++ body) ∧
      image.hdr = newHeader o image.data mtime := by
  have himage : imageData behind o files =
      (copyFiles behind o.xflag files).map fun body => sizeTable files ++ body := by
    unfold imageData
    exact if_pos (Or.inl hmulti)
  rw [mkimage, himage] at h
  split_ifs at h
  obtain ⟨data, hdata, rfl⟩ := Option.map_eq_some_iff.mp h
  obtain ⟨body, hbody, rfl⟩ := Option.map_eq_some_iff.mp hdata
  refine ⟨body, hbody, ?_, rfl⟩
  rw [sizeTable, List.flatMap_map, List.append_assoc]

theorem checks_of_mkimage {image : UImage} {o : Options} {mtime : UInt32}
    (h : image.hdr = newHeader o image.data mtime) :
    imageCheckHcrc image.hdr = true ∧ imageCheckDcrc image = true := by
  rw [imageCheckHcrc, imageCheckDcrc, h, crc32Wd_eq]
  constructor
  · exact beq_self_eq_true _
  · rw [newHeader, UInt32.toNat_ofNat']
    exact beq_self_eq_true _

theorem bytesAt_eq_some {image : UImage} {hdr data len : ℕ} {bytes : List UInt8}
    (h : image.bytesAt hdr data len = some bytes) :
    hdr ≤ data ∧ data + len ≤ hdr + headerSize + image.data.length ∧ bytes.length = len := by
  rw [UImage.bytesAt] at h
  split_ifs at h with hin
  obtain ⟨hlow, hhigh⟩ := hin
  have hlen := image.length_bytes
  obtain rfl := Option.some.inj h
  refine ⟨hlow, by omega, ?_⟩
  rw [List.length_take, List.length_drop]
  omega

theorem bytesAt_of_split {image : UImage} {hdr : ℕ} {front file back : List UInt8}
    (h : image.data = front ++ file ++ back) :
    image.bytesAt hdr (hdr + headerSize + front.length) file.length = some file := by
  have hbytes : image.bytes = image.hdr.bytes ++ front ++ (file ++ back) := by
    rw [UImage.bytes, h, List.append_assoc, List.append_assoc]
  have hlen : (image.hdr.bytes ++ front).length = headerSize + front.length := by
    rw [List.length_append, ImageHeader.length_bytes]
  rw [UImage.bytesAt, if_pos]
  · rw [hbytes, show hdr + headerSize + front.length - hdr = (image.hdr.bytes ++ front).length by
      omega, List.drop_left, List.take_left]
  · have htotal := congrArg List.length hbytes
    rw [List.length_append, hlen, List.length_append] at htotal
    exact ⟨by omega, by omega⟩

theorem length_table (sizes : List ℕ) : (sizes.flatMap htonl).length = 4 * sizes.length := by
  induction sizes with
  | nil => rfl
  | cons n sizes ih =>
    rw [List.flatMap_cons, List.length_append, ih, List.length_cons, htonl]
    simp only [List.length_cons, List.length_nil]
    omega

theorem getimg_of_files {image : UImage} {files : List (List UInt8)} {body : List UInt8}
    (hsizes : ∀ file ∈ files, 0 < file.length ∧ file.length + 3 < 2 ^ 32)
    (hdata : image.data = (files.map List.length).flatMap htonl ++ (htonl 0 ++ body)) (hdr : ℕ) :
    imageMultiCount image = some files.length ∧
      ∀ i (hi : i < files.length), imageMultiGetimg hdr image i =
        some ((hdr + headerSize + 4 * (files.length + 1) + start (files.map List.length) i) %
          2 ^ 32, files[i].length) := by
  have htable : ∀ n ∈ files.map List.length, 0 < n ∧ n + 3 < 2 ^ 32 := by
    intro n hn
    obtain ⟨file, hfile, rfl⟩ := List.mem_map.mp hn
    exact hsizes file hfile
  obtain ⟨hcount, hgetimg⟩ := imageMultiGetimg_of_table htable hdata hdr
  refine ⟨by rw [hcount, List.length_map], fun i hi => ?_⟩
  rw [hgetimg i (by rwa [List.length_map])]
  simp only [List.getElem_map, List.length_map]

theorem getimg_of_copied {hdr : ℕ} {image : UImage} {files : List (List UInt8)}
    {body : List UInt8} (hcopied : Copied false files body)
    (hdata : image.data = (files.map List.length).flatMap htonl ++ (htonl 0 ++ body))
    (hfits : hdr + image.bytes.length ≤ 2 ^ 32) :
    imageMultiCount image = some files.length ∧
      ∀ i (hi : i < files.length), ∃ data len,
        imageMultiGetimg hdr image i = some (data, len) ∧
          image.bytesAt hdr data len = some files[i] := by
  have hsizes : ∀ file ∈ files, 0 < file.length ∧ file.length + 3 < 2 ^ 32 := by
    intro file hfile
    obtain ⟨hpos, -, hlt⟩ := hcopied.sizes file hfile
    change file.length < 2 ^ 31 at hlt
    exact ⟨hpos, by omega⟩
  obtain ⟨hcount, hgetimg⟩ := getimg_of_files hsizes hdata hdr
  refine ⟨hcount, fun i hi => ⟨_, _, hgetimg i hi, ?_⟩⟩
  obtain ⟨front, back, hsplit, hfront⟩ := hcopied.split i hi
  change body = front ++ files[i] ++ back at hsplit
  change front.length = start (files.map List.length) i at hfront
  have hwhole : image.data =
      ((files.map List.length).flatMap htonl ++ htonl 0 ++ front) ++ files[i] ++ back := by
    rw [hdata, hsplit]
    simp only [List.append_assoc]
  have hlen : ((files.map List.length).flatMap htonl ++ htonl 0 ++ front).length =
      4 * (files.length + 1) + start (files.map List.length) i := by
    rw [List.length_append, List.length_append, length_table, List.length_map, hfront]
    rfl
  have hbytes : image.bytesAt hdr (hdr + headerSize + _) files[i].length = some files[i] :=
    bytesAt_of_split hwhole
  rw [hlen] at hbytes
  obtain ⟨-, hend, -⟩ := bytesAt_eq_some hbytes
  have hpos := (hsizes _ (List.getElem_mem hi)).1
  rw [UImage.length_bytes] at hfits
  rw [Nat.mod_eq_of_lt (by omega), Nat.add_assoc (hdr + headerSize)]
  exact hbytes

theorem extent_sub_lt {sizes : List ℕ} (hne : sizes ≠ [])
    (h : ∀ n ∈ sizes, headerSize ≤ n) : extent (sizes.map (· - headerSize)) < extent sizes := by
  induction sizes with
  | nil => exact absurd rfl hne
  | cons n sizes ih =>
    have hn : headerSize ≤ n := h n List.mem_cons_self
    rw [headerSize] at hn ⊢
    cases sizes with
    | nil => exact Nat.sub_lt_self (by decide) hn
    | cons m sizes =>
      have hrest := ih (List.cons_ne_nil m sizes) fun m hm => h m (List.mem_cons_of_mem n hm)
      rw [headerSize] at hrest
      change filled (n - 64) + extent ((m :: sizes).map (· - 64)) <
        filled n + extent (m :: sizes)
      rw [filled_eq, filled_eq]
      omega

theorem not_getimg_of_xip {hdr : ℕ} {image : UImage} {files : List (List UInt8)}
    {body : List UInt8} (hne : files ≠ []) (hcopied : Copied true files body)
    (hdata : image.data = (files.map List.length).flatMap htonl ++ (htonl 0 ++ body))
    (halign : hdr % 4 = 0) (hnull : 0 < hdr) (hfits : hdr + image.bytes.length ≤ 2 ^ 32) :
    ¬ ∀ i (hi : i < files.length), ∃ data len,
        imageMultiGetimg hdr image i = some (data, len) ∧
          image.bytesAt hdr data len = some files[i] := by
  intro hall
  have hxip : ∀ file ∈ files, headerSize ≤ file.length := fun file hfile =>
    (hcopied.sizes file hfile).2.1
  have hsizes : ∀ file ∈ files, 0 < file.length ∧ file.length + 3 < 2 ^ 32 := by
    intro file hfile
    obtain ⟨hpos, hoffset, hlt⟩ := hcopied.sizes file hfile
    rw [xipOffset, if_pos rfl, headerSize] at hoffset hlt
    exact ⟨hpos, by omega⟩
  obtain ⟨-, hgetimg⟩ := getimg_of_files hsizes hdata hdr
  have hlength : image.data.length = 4 * (files.length + 1) + body.length := by
    rw [hdata, List.length_append, List.length_append, length_table, List.length_map]
    change 4 * files.length + (4 + body.length) = _
    omega
  rw [UImage.length_bytes, hlength] at hfits
  -- a file that begins in the image, or at its end, is inside of it
  have hinside : ∀ i (hi : i < files.length),
      start (files.map List.length) i ≤ body.length + 3 →
        start (files.map List.length) i + files[i].length ≤ body.length := by
    intro i hi hstart
    obtain ⟨data, len, hget, hbytes⟩ := hall i hi
    rw [hgetimg i hi, Option.some.injEq, Prod.mk.injEq] at hget
    obtain ⟨rfl, rfl⟩ := hget
    obtain ⟨hlow, hhigh, -⟩ := bytesAt_eq_some hbytes
    have hmod := start_mod_four (files.map List.length) i
    rw [hlength] at hhigh
    rw [headerSize] at hlow hhigh hfits
    omega
  have hstarts : ∀ i, i < files.length →
      start (files.map List.length) i ≤ body.length + 3 := by
    intro i
    induction i with
    | zero => exact fun _ => Nat.zero_le _
    | succ i ih =>
      intro hi
      have hi' : i < files.length := Nat.lt_of_succ_lt hi
      have hend := hinside i hi' (ih hi')
      rw [start_succ (by rwa [List.length_map]), List.getElem_map, filled_eq]
      omega
  have hmap : files.map List.length ≠ [] := by simpa using hne
  have hpos : files.length - 1 < files.length :=
    Nat.sub_lt (List.length_pos_iff.mpr hne) Nat.one_pos
  have hlast := hinside _ hpos (hstarts _ hpos)
  have hextent : extent (files.map List.length) ≤ body.length := by
    rw [extent_eq hmap, List.length_map, List.getLast_map, List.getLast_eq_getElem]
    exact hlast
  have hless : extent ((files.map List.length).map (· - headerSize)) <
      extent (files.map List.length) := by
    refine extent_sub_lt hmap fun n hn => ?_
    obtain ⟨file, hfile, rfl⟩ := List.mem_map.mp hn
    exact hxip file hfile
  rw [List.map_map] at hless
  have hbody : body.length = extent (files.map ((· - headerSize) ∘ List.length)) := hcopied.length
  omega

/-- **When an image of several files can be read back.** -/
theorem mkimage_roundTrip_iff {behind : UInt8} {o : Options} (hmulti : o.optType = ihTypeMulti)
    {files : List (List UInt8)} (hne : files ≠ []) {mtime : UInt32} {image : UImage}
    (h : mkimage behind o files mtime = some image) {hdr : ℕ} (halign : hdr % 4 = 0) (hnull : 0 < hdr)
    (hfits : hdr + image.bytes.length ≤ 2 ^ 32) :
    RoundTrip hdr image files ↔
      o.xflag = false ∧ ∀ file ∈ files, file.length < 2 ^ 32 - 1 := by
  obtain ⟨body, hbody, hdata, hhdr⟩ := mkimage_eq_some hmulti h
  constructor
  · intro hround
    -- a longer file has no room below 2^32
    have hlen : ∀ file ∈ files, file.length < 2 ^ 32 - 1 := by
      intro file hfile
      obtain ⟨i, hi, rfl⟩ := List.getElem_of_mem hfile
      obtain ⟨data, len, hget, hbytes⟩ := hround.getimg i hi
      obtain ⟨hlow, hhigh, heq⟩ := bytesAt_eq_some hbytes
      rw [UImage.length_bytes] at hfits
      omega
    refine ⟨?_, hlen⟩
    rw [Bool.eq_false_iff]
    intro hxflag
    rw [hxflag] at hbody
    exact not_getimg_of_xip hne (copied_of_copyFiles hbody hlen) hdata halign hnull hfits
      hround.getimg
  · rintro ⟨hxflag, hlen⟩
    rw [hxflag] at hbody
    obtain ⟨hhcrc, hdcrc⟩ := checks_of_mkimage hhdr
    obtain ⟨hcount, hgetimg⟩ := getimg_of_copied (copied_of_copyFiles hbody hlen) hdata hfits
    exact ⟨hhcrc, hdcrc, hcount, hgetimg⟩

/-! ## With and without `-x` -/

/-- `-A arm -O linux -T multi -C none -d ... image`, with `-x` or without. -/
def multiOptions (xflag : Bool) : Options where
  dflag := true
  eflag := false
  fflag := false
  lflag := false
  xflag := xflag
  optOs := 5
  optArch := 2
  optType := ihTypeMulti
  optComp := 0
  addr := 0x30008000
  ep := 0
  name := CString.ofString "image"

/-- The image with this behind the header. -/
def multiImage (xflag : Bool) (data : List UInt8) : UImage :=
  ⟨newHeader (multiOptions xflag) data 0, data⟩

/-- Files of three and of two bytes. -/
theorem mkimage_roundTrip_iff_two :
    RoundTrip 0x31000000
      (multiImage false [0, 0, 0, 3, 0, 0, 0, 2, 0, 0, 0, 0, 1, 2, 3, 0, 4, 5])
      [[1, 2, 3], [4, 5]] := by
  have himage : mkimage 0 (multiOptions false) [[1, 2, 3], [4, 5]] 0 =
      some (multiImage false [0, 0, 0, 3, 0, 0, 0, 2, 0, 0, 0, 0, 1, 2, 3, 0, 4, 5]) := rfl
  refine (mkimage_roundTrip_iff rfl (List.cons_ne_nil _ _) himage (by decide) (by decide) ?_).mpr
    ⟨rfl, by decide⟩
  rw [UImage.length_bytes]
  decide

/-- A file of 68 bytes, whose first 64 are the room for the header. -/
def xipFile : List UInt8 := List.replicate 64 0xff ++ [1, 2, 3, 4]

set_option maxRecDepth 2000 in
/-- Four bytes are copied of it, and the table says 68. -/
theorem not_roundTrip :
    mkimage 0 (multiOptions true) [xipFile] 0 =
        some (multiImage true [0, 0, 0, 68, 0, 0, 0, 0, 1, 2, 3, 4]) ∧
      ¬ RoundTrip 0x31000000 (multiImage true [0, 0, 0, 68, 0, 0, 0, 0, 1, 2, 3, 4])
        [xipFile] := by
  refine ⟨rfl, fun h => ?_⟩
  obtain ⟨data, len, hget, hbytes⟩ := h.getimg 0 Nat.one_pos
  obtain ⟨-, hend, hlen⟩ := bytesAt_eq_some hbytes
  have hdata : data = 0x31000048 := by
    have hfst := congrArg (Option.map Prod.fst) hget
    exact (Option.some.inj hfst).symm
  rw [← hlen, hdata] at hend
  revert hend
  decide

end Uimage
end EmevBsp
