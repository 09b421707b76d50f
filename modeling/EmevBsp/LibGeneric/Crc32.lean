import EmevBsp.Library.TableCrc
import Mathlib.Data.PNat.Notation
import Mathlib.Data.PNat.Defs
import Mathlib.Algebra.Group.Nat.Defs
import Mathlib.Logic.Function.Iterate

/-!
# `lib_generic/crc32.c`

The check that guards stored environments and images.  `crcTable` is the table of the source,
`makeCrcTable` the way `DYNAMIC_CRC_TABLE` builds compute it; `crcTable_eq` says that the two
builds use the same numbers.  The eight-fold unrolled loop of `crc32` and the byte loop behind
it both apply `DO1` to the bytes in order, so `crc32` is a fold.  The loops themselves, over a
memory, are in the second half of this file.
-/

namespace EmevBsp

open TableCrc

/-- Table of CRC-32's of all single-byte values. -/
def crcTable : List UInt32 :=
  [0x00000000, 0x77073096, 0xee0e612c, 0x990951ba, 0x076dc419, 0x706af48f, 0xe963a535, 0x9e6495a3,
   0x0edb8832, 0x79dcb8a4, 0xe0d5e91e, 0x97d2d988, 0x09b64c2b, 0x7eb17cbd, 0xe7b82d07, 0x90bf1d91,
   0x1db71064, 0x6ab020f2, 0xf3b97148, 0x84be41de, 0x1adad47d, 0x6ddde4eb, 0xf4d4b551, 0x83d385c7,
   0x136c9856, 0x646ba8c0, 0xfd62f97a, 0x8a65c9ec, 0x14015c4f, 0x63066cd9, 0xfa0f3d63, 0x8d080df5,
   0x3b6e20c8, 0x4c69105e, 0xd56041e4, 0xa2677172, 0x3c03e4d1, 0x4b04d447, 0xd20d85fd, 0xa50ab56b,
   0x35b5a8fa, 0x42b2986c, 0xdbbbc9d6, 0xacbcf940, 0x32d86ce3, 0x45df5c75, 0xdcd60dcf, 0xabd13d59,
   0x26d930ac, 0x51de003a, 0xc8d75180, 0xbfd06116, 0x21b4f4b5, 0x56b3c423, 0xcfba9599, 0xb8bda50f,
   0x2802b89e, 0x5f058808, 0xc60cd9b2, 0xb10be924, 0x2f6f7c87, 0x58684c11, 0xc1611dab, 0xb6662d3d,
   0x76dc4190, 0x01db7106, 0x98d220bc, 0xefd5102a, 0x71b18589, 0x06b6b51f, 0x9fbfe4a5, 0xe8b8d433,
   0x7807c9a2, 0x0f00f934, 0x9609a88e, 0xe10e9818, 0x7f6a0dbb, 0x086d3d2d, 0x91646c97, 0xe6635c01,
   0x6b6b51f4, 0x1c6c6162, 0x856530d8, 0xf262004e, 0x6c0695ed, 0x1b01a57b, 0x8208f4c1, 0xf50fc457,
   0x65b0d9c6, 0x12b7e950, 0x8bbeb8ea, 0xfcb9887c, 0x62dd1ddf, 0x15da2d49, 0x8cd37cf3, 0xfbd44c65,
   0x4db26158, 0x3ab551ce, 0xa3bc0074, 0xd4bb30e2, 0x4adfa541, 0x3dd895d7, 0xa4d1c46d, 0xd3d6f4fb,
   0x4369e96a, 0x346ed9fc, 0xad678846, 0xda60b8d0, 0x44042d73, 0x33031de5, 0xaa0a4c5f, 0xdd0d7cc9,
   0x5005713c, 0x270241aa, 0xbe0b1010, 0xc90c2086, 0x5768b525, 0x206f85b3, 0xb966d409, 0xce61e49f,
   0x5edef90e, 0x29d9c998, 0xb0d09822, 0xc7d7a8b4, 0x59b33d17, 0x2eb40d81, 0xb7bd5c3b, 0xc0ba6cad,
   0xedb88320, 0x9abfb3b6, 0x03b6e20c, 0x74b1d29a, 0xead54739, 0x9dd277af, 0x04db2615, 0x73dc1683,
   0xe3630b12, 0x94643b84, 0x0d6d6a3e, 0x7a6a5aa8, 0xe40ecf0b, 0x9309ff9d, 0x0a00ae27, 0x7d079eb1,
   0xf00f9344, 0x8708a3d2, 0x1e01f268, 0x6906c2fe, 0xf762575d, 0x806567cb, 0x196c3671, 0x6e6b06e7,
   0xfed41b76, 0x89d32be0, 0x10da7a5a, 0x67dd4acc, 0xf9b9df6f, 0x8ebeeff9, 0x17b7be43, 0x60b08ed5,
   0xd6d6a3e8, 0xa1d1937e, 0x38d8c2c4, 0x4fdff252, 0xd1bb67f1, 0xa6bc5767, 0x3fb506dd, 0x48b2364b,
   0xd80d2bda, 0xaf0a1b4c, 0x36034af6, 0x41047a60, 0xdf60efc3, 0xa867df55, 0x316e8eef, 0x4669be79,
   0xcb61b38c, 0xbc66831a, 0x256fd2a0, 0x5268e236, 0xcc0c7795, 0xbb0b4703, 0x220216b9, 0x5505262f,
   0xc5ba3bbe, 0xb2bd0b28, 0x2bb45a92, 0x5cb36a04, 0xc2d7ffa7, 0xb5d0cf31, 0x2cd99e8b, 0x5bdeae1d,
   0x9b64c2b0, 0xec63f226, 0x756aa39c, 0x026d930a, 0x9c0906a9, 0xeb0e363f, 0x72076785, 0x05005713,
   0x95bf4a82, 0xe2b87a14, 0x7bb12bae, 0x0cb61b38, 0x92d28e9b, 0xe5d5be0d, 0x7cdcefb7, 0x0bdbdf21,
   0x86d3d2d4, 0xf1d4e242, 0x68ddb3f8, 0x1fda836e, 0x81be16cd, 0xf6b9265b, 0x6fb077e1, 0x18b74777,
   0x88085ae6, 0xff0f6a70, 0x66063bca, 0x11010b5c, 0x8f659eff, 0xf862ae69, 0x616bffd3, 0x166ccf45,
   0xa00ae278, 0xd70dd2ee, 0x4e048354, 0x3903b3c2, 0xa7672661, 0xd06016f7, 0x4969474d, 0x3e6e77db,
   0xaed16a4a, 0xd9d65adc, 0x40df0b66, 0x37d83bf0, 0xa9bcae53, 0xdebb9ec5, 0x47b2cf7f, 0x30b5ffe9,
   0xbdbdf21c, 0xcabac28a, 0x53b39330, 0x24b4a3a6, 0xbad03605, 0xcdd70693, 0x54de5729, 0x23d967bf,
   0xb3667a2e, 0xc4614ab8, 0x5d681b02, 0x2a6f2b94, 0xb40bbe37, 0xc30c8ea1, 0x5a05df1b, 0x2d02ef8d]

/-- The inner loop of `make_crc_table`: `k` shifts of the register. -/
def shiftCrc (poly : UInt32) : ℕ → UInt32 → UInt32
  | 0, c => c
  | k + 1, c => shiftCrc poly k (if c &&& 1 ≠ 0 then poly ^^^ (c >>> 1) else c >>> 1)

/-- Terms of the polynomial defining this crc (except x^32). -/
def crcTerms : List ℕ := [0, 1, 2, 4, 5, 7, 8, 10, 11, 12, 16, 22, 23, 26]

/-- The exclusive-or pattern of the polynomial. -/
def crcPoly : UInt32 :=
  crcTerms.foldl (fun poly t => poly ||| (1 <<< UInt32.ofNat (31 - t))) 0

def makeCrcTable : List UInt32 :=
  (List.range 256).map fun n => shiftCrc crcPoly 8 (UInt32.ofNat n)

/-- `DO1`: one byte. -/
def do1 (crc : UInt32) (b : UInt8) : UInt32 := tableStep crcTable crc b

def crc32 (crc : UInt32) (buf : List UInt8) : UInt32 :=
  buf.foldl do1 (crc ^^^ 0xffffffff) ^^^ 0xffffffff

/-- `crc32_wd`, in a build with a watchdog: piece by piece.  The size of a piece is not 0. -/
def crc32Wd (crc : UInt32) (buf : List UInt8) (chunkSz : ℕ+) : UInt32 :=
  if buf = [] then crc
  else crc32Wd (crc32 crc (buf.take chunkSz)) (buf.drop chunkSz) chunkSz
termination_by buf.length
decreasing_by
  next h =>
  rw [List.length_drop]
  exact Nat.sub_lt (List.length_pos_iff.mpr h) chunkSz.pos

/-! ## The table -/

theorem crcTable_eq : crcTable = makeCrcTable := by decide +kernel

theorem isCrcTable_crcTable : IsCrcTable crcTable :=
  isCrcTable_of_distinct (by decide +kernel) (by decide +kernel)

/-! ## What the check tells apart -/

theorem crc32_ne (crc : UInt32) (p q : List UInt8) {a b : UInt8} (hab : a ≠ b) :
    crc32 crc (p ++ a :: q) ≠ crc32 crc (p ++ b :: q) := by
  intro h
  have h' : (p ++ a :: q).foldl do1 (crc ^^^ 0xffffffff) =
      (p ++ b :: q).foldl do1 (crc ^^^ 0xffffffff) := by
    refine xor_left_cancel (c := 0xffffffff) ?_
    rw [UInt32.xor_comm, UInt32.xor_comm 0xffffffff]
    exact h
  exact foldl_tableStep_ne isCrcTable_crcTable _ p q hab h'

/-! ## Pieces -/

theorem crc32_nil (crc : UInt32) : crc32 crc [] = crc := by
  rw [crc32, List.foldl_nil, UInt32.xor_assoc, UInt32.xor_self, UInt32.xor_zero]

theorem crc32_append (crc : UInt32) (p q : List UInt8) :
    crc32 crc (p ++ q) = crc32 (crc32 crc p) q := by
  rw [crc32, crc32, crc32, List.foldl_append, UInt32.xor_assoc _ 0xffffffff 0xffffffff,
    UInt32.xor_self, UInt32.xor_zero]

theorem crc32Wd_eq (crc : UInt32) (buf : List UInt8) (chunkSz : ℕ+) :
    crc32Wd crc buf chunkSz = crc32 crc buf := by
  fun_induction crc32Wd crc buf chunkSz with
  | case1 crc => exact (crc32_nil crc).symm
  | case2 crc buf h ih => rw [ih, ← crc32_append, List.take_append_drop]

end EmevBsp

/-!
# `lib_generic/crc32.c`: the loops over memory

`crc32` takes its bytes through a pointer, eight of them at a time and what is left over one by
one.  `crc32_wd` cuts the bytes into chunks and calls `crc32` for each, so a chunk may end at any
phase of the eightfold loop.  Here both are as the source has them, over a memory of bytes.

* `crc32At`, `crc32WdAt`: the two functions.
* `crc32At_eq`: `crc32At` is the fold `crc32` over the bytes of the buffer.
* `crc32WdAt_eq`: the chunks do not change the check.

A chunk is an `int`, and chunk sizes are unsigned.  Both are 32 bits wide, and the comparison
takes them as unsigned, so the loop is right for a chunk size of 2^31 or more as well.
-/

namespace EmevBsp

/-- What a pointer of 32 bits reaches. -/
abbrev Memory := UInt32 → UInt8

/-- `n` bytes at `buf`. -/
def bytesAt (mem : Memory) (buf : UInt32) : ℕ → List UInt8
  | 0 => []
  | n + 1 => mem buf :: bytesAt mem (buf + 1) n

/-- An object in memory.  One past its end there is an address. -/
structure Buffer where
  buf : UInt32
  len : UInt32
  fits : buf.toNat + len.toNat < 2 ^ 32

/-- The bytes of an object. -/
def Buffer.bytes (b : Buffer) (mem : Memory) : List UInt8 := bytesAt mem b.buf b.len.toNat

/-! ## `crc32` -/

/-- The variables that `DO1` changes. -/
structure Register where
  crc : UInt32
  buf : UInt32

section Loops

variable (mem : Memory)

/-- `DO1(buf)` -/
def do1At (r : Register) : Register := ⟨do1 r.crc (mem r.buf), r.buf + 1⟩

/-- `DO2(buf)` -/
def do2At (r : Register) : Register := do1At mem (do1At mem r)

/-- `DO4(buf)` -/
def do4At (r : Register) : Register := do2At mem (do2At mem r)

/-- `DO8(buf)` -/
def do8At (r : Register) : Register := do4At mem (do4At mem r)

/-- `while (len >= 8)`: the register and the `len` behind the loop. -/
def eightfold (r : Register) (len : UInt32) : Register × UInt32 :=
  if h : 8 ≤ len then eightfold (do8At mem r) (len - 8) else (r, len)
termination_by len.toNat
decreasing_by
  rw [UInt32.toNat_sub_of_le _ _ h]
  have h8 : 8 ≤ len.toNat := UInt32.le_iff_toNat_le.mp h
  exact Nat.sub_lt (by omega) (by decide)

/-- `do ... while (--len)` -/
def oneByOne (r : Register) (len : UInt32) : Register :=
  if h : len - 1 ≠ 0 then oneByOne (do1At mem r) (len - 1) else do1At mem r
termination_by (len - 1).toNat
decreasing_by
  have hle : 1 ≤ len - 1 := by
    rw [UInt32.le_iff_toNat_le]
    exact Nat.one_le_iff_ne_zero.mpr fun h0 => h (UInt32.toNat_inj.mp h0)
  rw [UInt32.toNat_sub_of_le _ _ hle]
  have hle : 1 ≤ (len - 1).toNat := UInt32.le_iff_toNat_le.mp hle
  exact Nat.sub_lt (by omega) (by decide)

/-- `crc32` -/
def crc32At (crc buf len : UInt32) : UInt32 :=
  let (r, len) := eightfold mem ⟨crc ^^^ 0xffffffff, buf⟩ len
  (if len ≠ 0 then oneByOne mem r len else r).crc ^^^ 0xffffffff

/-! ## `crc32_wd` -/

/-- The size of a chunk is not 0. -/
abbrev ChunkSize := { chunkSz : UInt32 // chunkSz ≠ 0 }

/-- `chunk`, which is an `int`. -/
def nextChunk (chunkSz curr end' : UInt32) : Int32 :=
  let chunk := (end' - curr).toInt32
  -- compared with an unsigned number, it is one
  if chunkSz < chunk.toUInt32 then chunkSz.toInt32 else chunk

theorem toNat_nextChunk {chunkSz curr end' : UInt32} (h : curr < end') :
    (nextChunk chunkSz curr end').toUInt32.toNat =
      min chunkSz.toNat (end'.toNat - curr.toNat) := by
  have hsub : (end' - curr).toNat = end'.toNat - curr.toNat :=
    UInt32.toNat_sub_of_le _ _ (UInt32.le_of_lt h)
  rw [nextChunk]
  simp only [UInt32.toUInt32_toInt32, UInt32.lt_iff_toNat_lt]
  split
  · next hlt => rw [UInt32.toUInt32_toInt32]; omega
  · next hle => rw [UInt32.toUInt32_toInt32]; omega

theorem toNat_add_nextChunk {chunkSz curr end' : UInt32} (h : curr < end') :
    (curr + (nextChunk chunkSz curr end').toUInt32).toNat =
      curr.toNat + min chunkSz.toNat (end'.toNat - curr.toNat) := by
  have hend := end'.toNat_lt
  have hlt : curr.toNat < end'.toNat := UInt32.lt_iff_toNat_lt.mp h
  rw [UInt32.toNat_add, toNat_nextChunk h]
  exact Nat.mod_eq_of_lt (by omega)

/-- `while (curr < end)` -/
def chunks (chunkSz : ChunkSize) (crc curr end' : UInt32) : UInt32 :=
  if curr < end' then
    let chunk := (nextChunk chunkSz curr end').toUInt32
    chunks chunkSz (crc32At mem crc curr chunk) (curr + chunk) end'
  else crc
termination_by end'.toNat - curr.toNat
decreasing_by
  next h =>
  have hlt : curr.toNat < end'.toNat := UInt32.lt_iff_toNat_lt.mp h
  have hpos : chunkSz.1.toNat ≠ 0 := fun h0 => chunkSz.2 (UInt32.toNat_inj.mp h0)
  rw [toNat_add_nextChunk h]
  omega

/-- `crc32_wd`.  Only a build with a watchdog has the loop. -/
def crc32WdAt (watchdog : Bool) (crc buf len : UInt32) (chunkSz : ChunkSize) : UInt32 :=
  if watchdog then chunks mem chunkSz crc buf (buf + len) else crc32At mem crc buf len

/-! ## What `DO1` does, again and again -/

theorem do1At_iterate (n : ℕ) (r : Register) :
    (do1At mem)^[n] r = ⟨(bytesAt mem r.buf n).foldl do1 r.crc, r.buf + UInt32.ofNat n⟩ := by
  induction n generalizing r with
  | zero => rw [Function.iterate_zero_apply, bytesAt, List.foldl_nil,
      show UInt32.ofNat 0 = 0 from rfl, UInt32.add_zero]
  | succ n ih =>
    rw [Function.iterate_succ_apply, ih, bytesAt, List.foldl_cons, do1At, UInt32.add_assoc,
      UInt32.add_comm 1, UInt32.ofNat_add, UInt32.ofNat_one]

theorem do8At_eq (r : Register) : do8At mem r = (do1At mem)^[8] r := rfl

theorem eightfold_eq (r : Register) (len : UInt32) :
    eightfold mem r len = ((do1At mem)^[8 * (len.toNat / 8)] r, len % 8) := by
  fun_induction eightfold mem r len with
  | case1 r len h ih =>
    have h8 : 8 ≤ len.toNat := UInt32.le_iff_toNat_le.mp h
    have hsub : (len - 8).toNat = len.toNat - 8 := UInt32.toNat_sub_of_le _ _ h
    have htimes : 8 * (len.toNat / 8) = 8 * ((len - 8).toNat / 8) + 8 := by rw [hsub]; omega
    have hmod : (len - 8) % 8 = len % 8 := by
      apply UInt32.toNat_inj.mp
      rw [UInt32.toNat_mod, UInt32.toNat_mod, hsub]
      exact (Nat.mod_eq_sub_mod h8).symm
    rw [ih, hmod, htimes, Function.iterate_add_apply, ← do8At_eq]
  | case2 r len h =>
    have h8 : len.toNat < 8 := by
      have := UInt32.le_iff_toNat_le.not.mp h
      exact Nat.lt_of_not_le this
    have hmod : len % 8 = len := by
      apply UInt32.toNat_inj.mp
      rw [UInt32.toNat_mod]
      exact Nat.mod_eq_of_lt h8
    rw [Nat.div_eq_of_lt h8, hmod]
    rfl

theorem oneByOne_eq (r : Register) {len : UInt32} (hlen : len ≠ 0) :
    oneByOne mem r len = (do1At mem)^[len.toNat] r := by
  have hsub : ∀ len : UInt32, len ≠ 0 → len.toNat = (len - 1).toNat + 1 := by
    intro len hlen
    have hpos : len.toNat ≠ 0 := fun h0 => hlen (UInt32.toNat_inj.mp h0)
    have hle : 1 ≤ len := UInt32.le_iff_toNat_le.mpr (Nat.one_le_iff_ne_zero.mpr hpos)
    rw [UInt32.toNat_sub_of_le _ _ hle]
    exact (Nat.sub_add_cancel (UInt32.le_iff_toNat_le.mp hle)).symm
  fun_induction oneByOne mem r len with
  | case1 r len h ih => rw [ih h, hsub len hlen, Function.iterate_succ_apply]
  | case2 r len h =>
    have hlast : len - 1 = 0 := not_not.mp h
    rw [hsub len hlen, hlast]
    rfl

theorem crc32At_eq (crc buf len : UInt32) :
    crc32At mem crc buf len = crc32 crc (bytesAt mem buf len.toNat) := by
  have hfold : ∀ r : Register, (do1At mem)^[len.toNat] r =
      if len % 8 ≠ 0 then oneByOne mem ((do1At mem)^[8 * (len.toNat / 8)] r) (len % 8)
      else (do1At mem)^[8 * (len.toNat / 8)] r := by
    intro r
    have hmod : (len % 8).toNat = len.toNat % 8 := UInt32.toNat_mod _ _
    split_ifs with h
    · rw [oneByOne_eq mem _ h, ← Function.iterate_add_apply, hmod, Nat.mod_add_div]
    · have h0 : len.toNat % 8 = 0 := by rw [← hmod, not_not.mp h]; rfl
      rw [Nat.mul_div_cancel' (Nat.dvd_of_mod_eq_zero h0)]
  rw [crc32At, eightfold_eq]
  dsimp only
  rw [← hfold, do1At_iterate, crc32]

/-! ## Parts of a buffer -/

theorem bytesAt_add (buf : UInt32) (m n : ℕ) :
    bytesAt mem buf (m + n) = bytesAt mem buf m ++ bytesAt mem (buf + UInt32.ofNat m) n := by
  induction m generalizing buf with
  | zero => rw [Nat.zero_add, bytesAt, List.nil_append,
      show UInt32.ofNat 0 = 0 from rfl, UInt32.add_zero]
  | succ m ih =>
    rw [Nat.succ_add, bytesAt, bytesAt, ih, List.cons_append, UInt32.add_assoc,
      UInt32.add_comm 1, UInt32.ofNat_add, UInt32.ofNat_one]

/-! ## The chunks -/

theorem chunks_eq (chunkSz : ChunkSize) (crc curr end' : UInt32) :
    chunks mem chunkSz crc curr end' =
      crc32 crc (bytesAt mem curr (end'.toNat - curr.toNat)) := by
  fun_induction chunks mem chunkSz crc curr end' with
  | case1 crc curr h chunk ih =>
    have hsplit : end'.toNat - curr.toNat =
        chunk.toNat + (end'.toNat - (curr + chunk).toNat) := by
      rw [toNat_add_nextChunk h, toNat_nextChunk h]
      omega
    rw [ih, crc32At_eq, ← crc32_append, hsplit, bytesAt_add, UInt32.ofNat_toNat]
  | case2 crc curr h =>
    have hle : end'.toNat - curr.toNat = 0 :=
      Nat.sub_eq_zero_of_le (UInt32.le_iff_toNat_le.mp (UInt32.not_lt.mp h))
    rw [hle, bytesAt, crc32_nil]

theorem crc32WdAt_eq (watchdog : Bool) (crc : UInt32) (b : Buffer) (chunkSz : ChunkSize) :
    crc32WdAt mem watchdog crc b.buf b.len chunkSz = crc32At mem crc b.buf b.len := by
  rw [crc32WdAt]
  split_ifs
  · have hend : (b.buf + b.len).toNat = b.buf.toNat + b.len.toNat := by
      rw [UInt32.toNat_add]
      exact Nat.mod_eq_of_lt b.fits
    rw [chunks_eq, crc32At_eq, hend, Nat.add_sub_cancel_left]
  · rfl

end Loops

end EmevBsp
