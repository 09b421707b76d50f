import EmevBsp.Library.CString
import EmevBsp.LibGeneric.Crc32
import Mathlib.Data.Vector.Basic

/-!
# `tools/mkimage.c`

The tool puts a header of 64 bytes in front of its data files.  An image of several files begins
with a table of their sizes, which is closed by a zero; the files follow, each but the last one
filled up to a multiple of four bytes.

With `-x` the first 64 bytes of a file are the room for the header, and are not copied.  The table
is written before the files are, and from their full sizes.

A file is the list of its bytes.  The sizes go through `off_t`, `uint32_t` and `int`, so the model
reduces them where the tool does.
-/

namespace EmevBsp
namespace Uimage

/-! ## The header -/

/-- `htonl`, for the low 32 bits. -/
def htonl (n : ℕ) : List UInt8 :=
  [UInt8.ofNat (n / 2 ^ 24), UInt8.ofNat (n / 2 ^ 16), UInt8.ofNat (n / 2 ^ 8), UInt8.ofNat n]

def ihMagic : UInt32 := 0x27051956

abbrev ihNmlen : ℕ := 32

def ihTypeMulti : UInt8 := 4

def ihTypeScript : UInt8 := 6

/-- `image_header_t` -/
structure ImageHeader where
  magic : UInt32
  hcrc : UInt32
  time : UInt32
  size : UInt32
  load : UInt32
  ep : UInt32
  dcrc : UInt32
  os : UInt8
  arch : UInt8
  type : UInt8
  comp : UInt8
  name : Vector UInt8 ihNmlen

/-- `image_get_header_size` -/
def headerSize : ℕ := 64

/-- The header in the file. -/
def ImageHeader.bytes (hdr : ImageHeader) : List UInt8 :=
  htonl hdr.magic.toNat ++ htonl hdr.hcrc.toNat ++ htonl hdr.time.toNat ++ htonl hdr.size.toNat ++
    htonl hdr.load.toNat ++ htonl hdr.ep.toNat ++ htonl hdr.dcrc.toNat ++
    [hdr.os, hdr.arch, hdr.type, hdr.comp] ++ hdr.name.toList

theorem ImageHeader.length_bytes (hdr : ImageHeader) : hdr.bytes.length = headerSize := by
  simp [bytes, htonl, headerSize]

/-- An image: the header, and what is behind it. -/
structure UImage where
  hdr : ImageHeader
  data : List UInt8

/-! ## The options -/

/-- The flags and the values of the command line. -/
structure Options where
  dflag : Bool
  eflag : Bool
  fflag : Bool
  lflag : Bool
  xflag : Bool
  optOs : UInt8
  optArch : UInt8
  optType : UInt8
  optComp : UInt8
  addr : UInt32
  ep : UInt32
  name : CString

/-- `ep`, behind "If XIP, entry point must be after the U-Boot header". -/
def Options.entry (o : Options) : UInt32 :=
  if o.eflag then o.ep
  else if o.xflag then o.addr + UInt32.ofNat headerSize
  else o.addr

/-- The combinations that `usage` is called for. -/
def Options.conflict (o : Options) : Bool :=
  (o.dflag && (o.fflag || o.lflag)) || (o.fflag && (o.dflag || o.lflag)) ||
    (o.lflag && (o.dflag || o.fflag))

/-! ## The files -/

/-- The bytes that fill up a file. -/
def padding (size : ℕ) : List UInt8 :=
  if size % 4 ≠ 0 then List.replicate (4 - size % 4) 0 else []

/-- "has invalid buffer for XIP", or "is too small for XIP". -/
def BadXip (file : List UInt8) : Prop :=
  file.length % 2 ^ 32 < headerSize ∨ ¬ ∀ b ∈ file.take headerSize, b = 0xff

instance (file : List UInt8) : Decidable (BadXip file) :=
  inferInstanceAs (Decidable (_ ∨ _))

/-- `offset`: "consume the space reserved for it". -/
def xipOffset (xflag : Bool) : ℕ := if xflag then headerSize else 0

/-- `copy_file`: what is written.  A `size` of -1 is what `write` returns for it, so the tool goes on
with nothing written, and fills up with five bytes: those of `zero`, and the one `behind` it. -/
def copyFile (behind : UInt8) (xflag pad : Bool) (file : List UInt8) : Option (List UInt8) :=
  -- nothing can be mapped of an empty file
  if file = [] then none
  else if xflag = true ∧ BadXip file then none
  else
    let size := (file.length - xipOffset xflag) % 2 ^ 32
    if size = 2 ^ 32 - 1 then some (if pad then [0, 0, 0, 0, behind] else [])
    -- `size` is an `int`; any other negative one is not what `write` returns
    else if 2 ^ 31 ≤ size then none
    else some ((file.drop (xipOffset xflag)).take size ++ if pad then padding size else [])

/-- The second loop over the names: the last file is not filled up. -/
def copyFiles (behind : UInt8) (xflag : Bool) : List (List UInt8) → Option (List UInt8)
  | [] => none
  | [file] => copyFile behind xflag false file
  | file :: files => do
    let first ← copyFile behind xflag true file
    let rest ← copyFiles behind xflag files
    some (first ++ rest)

/-- The first loop over the names. -/
def sizeTable (files : List (List UInt8)) : List UInt8 :=
  (files.flatMap fun file => htonl file.length) ++ htonl 0

/-- What is written behind the header. -/
def imageData (behind : UInt8) (o : Options) (files : List (List UInt8)) : Option (List UInt8) :=
  if o.optType = ihTypeMulti ∨ o.optType = ihTypeScript then
    (copyFiles behind o.xflag files).map fun body => sizeTable files ++ body
  else
    match files with
    | [file] => copyFile behind o.xflag false file
    | _ => none

/-! ## The image -/

/-- `strncpy` into `ih_name`. -/
def imageSetName (name : CString) : Vector UInt8 ihNmlen :=
  Vector.ofFn fun i => name.bytes.getD i 0

/-- "Build new header". -/
def newHeader (o : Options) (data : List UInt8) (mtime : UInt32) : ImageHeader :=
  let hdr : ImageHeader :=
    { magic := ihMagic
      hcrc := 0
      time := mtime
      size := UInt32.ofNat data.length
      load := o.addr
      ep := o.entry
      -- the length is an `unsigned int`
      dcrc := crc32 0 (data.take (data.length % 2 ^ 32))
      os := o.optOs
      arch := o.optArch
      type := o.optType
      comp := o.optComp
      name := imageSetName o.name }
  { hdr with hcrc := crc32 0 hdr.bytes }

/-- `main`: the image that is made of the files, and `none` where none is. -/
def mkimage (behind : UInt8) (o : Options) (files : List (List UInt8)) (mtime : UInt32) : Option UImage :=
  if o.conflict then none
  -- an image is listed, or made of a tree
  else if o.lflag || o.fflag then none
  else if o.xflag = true ∧ o.entry ≠ o.addr + UInt32.ofNat headerSize then none
  else (imageData behind o files).map fun data => ⟨newHeader o data mtime, data⟩

end Uimage
end EmevBsp
