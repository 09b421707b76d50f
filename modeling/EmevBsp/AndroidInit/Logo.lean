import EmevBsp.Library.Pieces
import Mathlib.Data.BitVec

/-!
# `system/core/init/logo.c`: the boot logo

An image is a list of records, a count and a pixel of 16 bits.  `load_565rle_image` writes each
pixel so many times, in the format of the screen, until a count is more than what is left of it.
The sizes of the file and of the screen are kept in 32 bits.
-/

namespace EmevBsp
namespace AndroidInit
namespace Logo

open Budget

/-! ## The function -/

/-- The screen: `xres`, `yres`, `bits_per_pixel` and `red.offset`. -/
structure Screen where
  xres : BitVec 32
  yres : BitVec 32
  bitsPerPixel : BitVec 32
  redOffset : BitVec 32
  bits_mem : bitsPerPixel = 16 ∨ bitsPerPixel = 24 ∨ bitsPerPixel = 32

def fbSize (s : Screen) : BitVec 32 := s.xres * s.yres * (s.bitsPerPixel / 8)

/-- A 16-bit word of the file; `none` is outside. -/
def read16 (file : List UInt8) (pos : ℕ) : Option (BitVec 16) :=
  file[pos]?.bind fun lo => file[pos + 1]?.map fun hi => hi.toBitVec ++ lo.toBitVec

/-- Bytes are written one behind the other; `none` is outside the memory. -/
def storeBytes : List UInt8 → ℕ → List UInt8 → Option (List UInt8)
  | [], _, mem => some mem
  | b :: bytes, p, mem => if p < mem.length then storeBytes bytes (p + 1) (mem.set p b) else none

/-- The loop of the `memset`s: so many times the bytes of a value. -/
def fillLoop (bytes : List UInt8) : ℕ → ℕ → List UInt8 → Option (List UInt8)
  | 0, _, mem => some mem
  | count + 1, p, mem =>
    (storeBytes bytes p mem).bind (fillLoop bytes count (p + bytes.length))

/-- A byte of a word. -/
def byte {w : ℕ} (v : BitVec w) (k : ℕ) : UInt8 := ⟨v.extractLsb' (8 * k) 8⟩

def androidMemset16 (mem : List UInt8) (p : ℕ) (val : BitVec 16) (count : BitVec 32) :
    Option (List UInt8) :=
  fillLoop [byte val 0, byte val 1] (count >>> 1).toNat p mem

def androidMemset24 (mem : List UInt8) (p : ℕ) (val count : BitVec 32) : Option (List UInt8) :=
  fillLoop [byte val 0, byte val 1, byte val 2] (count / 3).toNat p mem

/-- `R`, `G` and `B`, in 32 bits. -/
def red (px : BitVec 16) : BitVec 32 := ((px &&& 0xF800#16) >>> 11).setWidth 32 <<< 3

def green (px : BitVec 16) : BitVec 32 := ((px &&& 0x07E0#16) >>> 5).setWidth 32 <<< 2

def blue (px : BitVec 16) : BitVec 32 := (px &&& 0x001F#16).setWidth 32 <<< 3

/-- The colours of `tmp`. -/
def tmp (s : Screen) (px : BitVec 16) : BitVec 32 :=
  if s.redOffset = 16 then red px <<< 16 ||| green px <<< 8 ||| blue px
  else blue px <<< 16 ||| green px <<< 8 ||| red px

variable (memset32 : List UInt8 → ℕ → BitVec 32 → BitVec 32 → Option (List UInt8))

/-- One record is drawn, at an offset of the frame buffer: the memory, and the next offset. -/
def draw (s : Screen) (px : BitVec 16) (n : BitVec 32) (p : ℕ) (mem : List UInt8) :
    Option (List UInt8) × ℕ :=
  if s.bitsPerPixel = 32 then
    (memset32 mem p (0xff000000 ||| tmp s px) (n <<< 2), p + 4 * n.toNat)
  else if s.bitsPerPixel = 24 then
    (androidMemset24 mem p (tmp s px) (n * 3), p + (n * 3).toNat)
  else (androidMemset16 mem p px (n <<< 1), p + 2 * n.toNat)

/-- The loop over the records, with `count` bytes of the file left. -/
def decodeLoop (file : List UInt8) (s : Screen) :
    ℕ → ℕ → ℕ → BitVec 32 → List UInt8 → Option (List UInt8)
  | count + 4, ptr, p, max, mem =>
    (read16 file ptr).bind fun count16 =>
      let n := count16.setWidth 32
      if max < n then some mem
      else
        (read16 file (ptr + 2)).bind fun px =>
          let (mem, p) := draw memset32 s px n p mem
          mem.bind (decodeLoop file s count (ptr + 4) p (max - n))
  | _, _, _, _, mem => some mem

/-- `load_565rle_image`, once the file and the screen are open: the result and the frame buffer.
There is no map of 0 bytes. -/
def load565rleImage (file : List UInt8) (s : Screen) (mem : List UInt8) :
    Option (ℤ × List UInt8) :=
  let count := BitVec.ofNat 32 file.length
  if count = 0 then some (-1, mem)
  else if fbSize s = 0 then some (-1, mem)
  else (decodeLoop memset32 file s count.toNat 0 0 (s.xres * s.yres) mem).map fun mem => (0, mem)

/-! ## What it should be -/

/-- A count and a pixel. -/
abbrev Record : Type := BitVec 16 × BitVec 16

/-- The complete records of a file. -/
def records : List UInt8 → List Record
  | a :: b :: c :: d :: rest =>
    (b.toBitVec ++ a.toBitVec, d.toBitVec ++ c.toBitVec) :: records rest
  | _ => []

/-- How many pixels a record stands for. -/
def weight (r : Record) : ℕ := r.1.toNat

/-- The colours of a pixel, with 5, 6 and 5 bits; the low bits of a byte are filled up with 0. -/
def colours (s : Screen) (px : BitVec 16) : List UInt8 :=
  let r := UInt8.ofNat (px.toNat / 2048 * 8)
  let g := UInt8.ofNat (px.toNat / 32 % 64 * 4)
  let b := UInt8.ofNat (px.toNat % 32 * 8)
  if s.redOffset = 16 then [b, g, r] else [r, g, b]

/-- The bytes of a pixel on the screen. -/
def convert (s : Screen) (px : BitVec 16) : List UInt8 :=
  if s.bitsPerPixel = 32 then colours s px ++ [0xff]
  else if s.bitsPerPixel = 24 then colours s px
  else [.ofNat (px.toNat % 256), .ofNat (px.toNat / 256)]

/-- The bytes that records stand for. -/
def expand (s : Screen) (rs : List Record) : List UInt8 :=
  rs.flatMap fun r => (List.replicate (weight r) (convert s r.2)).flatten

/-- The image is decoded, whatever was on the screen. -/
def Right (file : List UInt8) (s : Screen) : Prop :=
  ∃ rs, IsLongest weight (s.xres.toNat * s.yres.toNat) (records file) rs ∧
    ∀ mem : List UInt8, mem.length = (fbSize s).toNat →
      ∃ ret, load565rleImage memset32 file s mem =
        some (ret, expand s rs ++ mem.drop (expand s rs).length)

/-- `android_memset32`, from outside: so many times the bytes of a word. -/
def Memset32 : Prop :=
  ∀ mem p val (n : BitVec 32), n.toNat < 2 ^ 16 →
    memset32 mem p val (n <<< 2) =
      fillLoop [byte val 0, byte val 1, byte val 2, byte val 3] n.toNat p mem

/-! ## The memory -/

theorem storeBytes_append (a b : List UInt8) (p : ℕ) (mem : List UInt8) :
    storeBytes (a ++ b) p mem = (storeBytes a p mem).bind (storeBytes b (p + a.length)) := by
  induction a generalizing p mem with
  | nil => rfl
  | cons x a ih =>
    rw [List.cons_append, storeBytes, storeBytes]
    split
    · rw [ih, List.length_cons, Nat.add_assoc, Nat.add_comm 1]
    · rfl

theorem fillLoop_eq (bytes : List UInt8) (count p : ℕ) (mem : List UInt8) :
    fillLoop bytes count p mem = storeBytes (List.replicate count bytes).flatten p mem := by
  induction count generalizing p mem with
  | zero => rfl
  | succ count ih =>
    rw [fillLoop, List.replicate_succ, List.flatten_cons, storeBytes_append]
    exact congrArg _ (funext fun mem => ih _ mem)

theorem storeBytes_eq (bytes : List UInt8) {p : ℕ} {mem : List UInt8}
    (h : p + bytes.length ≤ mem.length) :
    storeBytes bytes p mem =
      some (mem.take p ++ bytes ++ mem.drop (p + bytes.length)) := by
  induction bytes generalizing p mem with
  | nil => simp [storeBytes]
  | cons b bytes ih =>
    rw [List.length_cons] at h
    have hbefore : (mem.set p b).take (p + 1) = mem.take p ++ [b] := by
      rw [List.set_eq_take_append_cons_drop, if_pos (by omega), List.take_append,
        List.length_take, min_eq_left (by omega)]
      simp
    rw [storeBytes, if_pos (by omega), ih (by rw [List.length_set]; omega), hbefore,
      List.drop_set_of_lt (by omega), List.length_cons]
    simp [Nat.add_assoc, Nat.add_comm 1]

/-! ## The pixels -/

theorem byte_eq {w : ℕ} (v : BitVec w) (k : ℕ) :
    byte v k = UInt8.ofNat (v.toNat / 2 ^ (8 * k) % 256) := by
  apply UInt8.toNat_inj.mp
  change (v.extractLsb' (8 * k) 8).toNat = _
  rw [BitVec.extractLsb'_toNat, Nat.shiftRight_eq_div_pow, UInt8.toNat_ofNat']
  omega

theorem toNat_red (px : BitVec 16) : (red px).toNat = px.toNat / 2048 * 8 := by
  have hlt := px.isLt
  have hmask : ((px &&& 0xF800#16) >>> 11).toNat = px.toNat / 2048 := by
    rw [BitVec.toNat_ushiftRight, BitVec.toNat_and, Nat.shiftRight_and_distrib]
    change px.toNat >>> 11 &&& 2 ^ 5 - 1 = _
    rw [Nat.and_two_pow_sub_one_eq_mod, Nat.shiftRight_eq_div_pow]
    omega
  rw [red, BitVec.toNat_shiftLeft, BitVec.toNat_setWidth, hmask, Nat.shiftLeft_eq]
  omega

theorem toNat_green (px : BitVec 16) : (green px).toNat = px.toNat / 32 % 64 * 4 := by
  have hlt := px.isLt
  have hmask : ((px &&& 0x07E0#16) >>> 5).toNat = px.toNat / 32 % 64 := by
    rw [BitVec.toNat_ushiftRight, BitVec.toNat_and, Nat.shiftRight_and_distrib]
    change px.toNat >>> 5 &&& 2 ^ 6 - 1 = _
    rw [Nat.and_two_pow_sub_one_eq_mod, Nat.shiftRight_eq_div_pow]
  rw [green, BitVec.toNat_shiftLeft, BitVec.toNat_setWidth, hmask, Nat.shiftLeft_eq]
  omega

theorem toNat_blue (px : BitVec 16) : (blue px).toNat = px.toNat % 32 * 8 := by
  have hlt := px.isLt
  have hmask : (px &&& 0x001F#16).toNat = px.toNat % 32 := by
    rw [BitVec.toNat_and]
    exact Nat.and_two_pow_sub_one_eq_mod px.toNat 5
  rw [blue, BitVec.toNat_shiftLeft, BitVec.toNat_setWidth, hmask, Nat.shiftLeft_eq]
  omega

theorem toNat_colours {r g b : BitVec 32} (hr : r.toNat < 256) (hg : g.toNat < 256)
    (hb : b.toNat < 256) :
    (r <<< 16 ||| g <<< 8 ||| b).toNat = r.toNat * 65536 + g.toNat * 256 + b.toNat := by
  have hred : (r <<< 16).toNat = r.toNat <<< 16 := by
    rw [BitVec.toNat_shiftLeft, Nat.shiftLeft_eq]
    omega
  have hgreen : (g <<< 8).toNat = g.toNat <<< 8 := by
    rw [BitVec.toNat_shiftLeft, Nat.shiftLeft_eq]
    omega
  have hlow : g.toNat <<< 8 < 2 ^ 16 := by
    rw [Nat.shiftLeft_eq]
    omega
  have hhigh : r.toNat <<< 16 + g.toNat <<< 8 = (r.toNat * 256 + g.toNat) <<< 8 := by
    simp only [Nat.shiftLeft_eq]
    omega
  rw [BitVec.toNat_or, BitVec.toNat_or, hred, hgreen,
    ← Nat.shiftLeft_add_eq_or_of_lt hlow, hhigh, ← Nat.shiftLeft_add_eq_or_of_lt hb,
    Nat.shiftLeft_eq]
  omega

theorem toNat_alpha {v : BitVec 32} (hv : v.toNat < 2 ^ 24) :
    (0xff000000 ||| v).toNat = 0xff000000 + v.toNat := by
  rw [BitVec.toNat_or]
  exact (Nat.shiftLeft_add_eq_or_of_lt hv 0xff).symm

theorem byte_colours {r g b : BitVec 32} (hr : r.toNat < 256) (hg : g.toNat < 256)
    (hb : b.toNat < 256) :
    [byte (r <<< 16 ||| g <<< 8 ||| b) 0, byte (r <<< 16 ||| g <<< 8 ||| b) 1,
      byte (r <<< 16 ||| g <<< 8 ||| b) 2] =
    [.ofNat b.toNat, .ofNat g.toNat, .ofNat r.toNat] := by
  simp only [byte_eq, toNat_colours hr hg hb, List.cons.injEq, and_true]
  refine ⟨congrArg _ ?_, congrArg _ ?_, congrArg _ ?_⟩ <;> omega

theorem byte_alpha {v : BitVec 32} (hv : v.toNat < 2 ^ 24) :
    [byte (0xff000000 ||| v) 0, byte (0xff000000 ||| v) 1, byte (0xff000000 ||| v) 2,
      byte (0xff000000 ||| v) 3] = [byte v 0, byte v 1, byte v 2, 0xff] := by
  simp only [byte_eq, toNat_alpha hv, List.cons.injEq, and_true]
  refine ⟨congrArg _ ?_, congrArg _ ?_, congrArg _ ?_,
    (congrArg UInt8.ofNat ?_ : UInt8.ofNat _ = UInt8.ofNat 255)⟩ <;> omega

/-! ## The loop over the records -/

variable {memset32}

theorem length_colours (s : Screen) (px : BitVec 16) : (colours s px).length = 3 := by
  unfold colours
  dsimp only
  split <;> rfl

theorem length_convert (s : Screen) (px : BitVec 16) :
    8 * (convert s px).length = s.bitsPerPixel.toNat := by
  unfold convert
  obtain h | h | h := s.bits_mem
  · rw [h, if_neg (by decide), if_neg (by decide)]
    rfl
  · rw [h, if_neg (by decide), if_pos rfl, length_colours]
    rfl
  · rw [h, if_pos rfl, List.length_append, length_colours]
    rfl

theorem length_replicate_convert (s : Screen) (px : BitVec 16) (n : ℕ) :
    (List.replicate n (convert s px)).flatten.length = n * (s.bitsPerPixel.toNat / 8) := by
  have hlength := length_convert s px
  rw [List.length_flatten, List.map_replicate, List.sum_replicate_nat]
  exact congrArg _ (by omega)

theorem byte_tmp (s : Screen) (px : BitVec 16) :
    (tmp s px).toNat < 2 ^ 24 ∧
      [byte (tmp s px) 0, byte (tmp s px) 1, byte (tmp s px) 2] = colours s px := by
  have hlt := px.isLt
  have hr : (red px).toNat < 256 := by rw [toNat_red]; omega
  have hg : (green px).toNat < 256 := by rw [toNat_green]; omega
  have hb : (blue px).toNat < 256 := by rw [toNat_blue]; omega
  unfold tmp colours
  dsimp only
  split
  · rw [byte_colours hr hg hb, toNat_colours hr hg hb, toNat_red, toNat_green, toNat_blue]
    exact ⟨by omega, rfl⟩
  · rw [byte_colours hb hg hr, toNat_colours hb hg hr, toNat_red, toNat_green, toNat_blue]
    exact ⟨by omega, rfl⟩

theorem draw_eq (hmemset : Memset32 memset32) (s : Screen) (px : BitVec 16) {n : BitVec 32}
    (hn : n.toNat < 2 ^ 16) (p : ℕ) (mem : List UInt8) :
    draw memset32 s px n p mem =
      (storeBytes (List.replicate n.toNat (convert s px)).flatten p mem,
        p + (List.replicate n.toNat (convert s px)).flatten.length) := by
  obtain ⟨htmp, hcolours⟩ := byte_tmp s px
  rw [length_replicate_convert, draw, convert]
  obtain h | h | h := s.bits_mem
  · have hcount : (n <<< 1 >>> 1).toNat = n.toNat := by
      rw [BitVec.toNat_ushiftRight, BitVec.toNat_shiftLeft, Nat.shiftLeft_eq,
        Nat.shiftRight_eq_div_pow]
      omega
    have hpx : [byte px 0, byte px 1] = [.ofNat (px.toNat % 256), .ofNat (px.toNat / 256)] := by
      have hlt := px.isLt
      simp only [byte_eq, List.cons.injEq, and_true]
      refine ⟨congrArg _ ?_, congrArg _ ?_⟩ <;> omega
    rw [h, if_neg (by decide), if_neg (by decide), if_neg (by decide), if_neg (by decide),
      androidMemset16, fillLoop_eq, hcount, hpx, Nat.mul_comm]
    rfl
  · have htriple : (n * 3).toNat = n.toNat * 3 := by
      rw [BitVec.toNat_mul]
      change _ * 3 % _ = _
      omega
    have hcount : (n * 3 / 3).toNat = n.toNat := by
      rw [BitVec.toNat_udiv, htriple]
      exact Nat.mul_div_cancel _ (by decide)
    rw [h, if_neg (by decide), if_pos rfl, if_neg (by decide), if_pos rfl, androidMemset24,
      fillLoop_eq, hcount, hcolours, htriple]
    rfl
  · rw [h, if_pos rfl, if_pos rfl, hmemset _ _ _ _ hn, fillLoop_eq, byte_alpha htmp, ← hcolours,
      Nat.mul_comm]
    rfl

theorem records_eq_nil : ∀ {l : List UInt8}, l.length < 4 → records l = []
  | [], _ => rfl
  | [_], _ => rfl
  | [_, _], _ => rfl
  | [_, _, _], _ => rfl
  | _ :: _ :: _ :: _ :: _, h => absurd h (by simp)

theorem exists_four :
    ∀ {l : List UInt8}, 4 ≤ l.length → ∃ a b c d rest, l = a :: b :: c :: d :: rest
  | a :: b :: c :: d :: rest, _ => ⟨a, b, c, d, rest, rfl⟩
  | [], h | [_], h | [_, _], h | [_, _, _], h => absurd h (by simp)

theorem read16_eq {file : List UInt8} {pos : ℕ} {a b : UInt8} {rest : List UInt8}
    (h : file.drop pos = a :: b :: rest) :
    read16 file pos = some (b.toBitVec ++ a.toBitVec) ∧ file.drop (pos + 2) = rest := by
  have ha : file[pos]? = some a := by
    rw [← Nat.add_zero pos, ← List.getElem?_drop, h]
    rfl
  have hb : file[pos + 1]? = some b := by
    rw [← List.getElem?_drop, h]
    rfl
  refine ⟨by rw [read16, ha, hb]; rfl, ?_⟩
  rw [← List.drop_drop, h]
  rfl

theorem expand_cons (s : Screen) (r : Record) (rs : List Record) :
    expand s (r :: rs) =
      (List.replicate (weight r) (convert s r.2)).flatten ++ expand s rs := List.flatMap_cons

theorem decodeLoop_eq (hmemset : Memset32 memset32) (file : List UInt8) (s : Screen) :
    ∀ (count ptr p : ℕ) (max : BitVec 32) (mem : List UInt8), ptr + count ≤ file.length →
      decodeLoop memset32 file s count ptr p max mem = storeBytes
        (expand s (greedy weight max.toNat (records ((file.drop ptr).take count)))) p mem
  | count + 4, ptr, p, max, mem, hle => by
    obtain ⟨a, b, c, d, rest, hdrop⟩ := exists_four (l := file.drop ptr)
      (by rw [List.length_drop]; omega)
    obtain ⟨hn, hdrop2⟩ := read16_eq hdrop
    obtain ⟨hpx, hdrop4⟩ := read16_eq hdrop2
    have hcount : ((b.toBitVec ++ a.toBitVec).setWidth 32).toNat =
        weight (b.toBitVec ++ a.toBitVec, d.toBitVec ++ c.toBitVec) := by
      rw [BitVec.toNat_setWidth]
      exact Nat.mod_eq_of_lt ((b.toBitVec ++ a.toBitVec).isLt.trans (by decide))
    have hrecords : records ((file.drop ptr).take (count + 4)) =
        (b.toBitVec ++ a.toBitVec, d.toBitVec ++ c.toBitVec) :: records (rest.take count) := by
      rw [hdrop]
      rfl
    rw [decodeLoop, hn, Option.bind_some, hrecords]
    dsimp only
    by_cases hmax : max < (b.toBitVec ++ a.toBitVec).setWidth 32
    · rw [if_pos hmax, greedy_cons_of_lt (hcount ▸ BitVec.lt_def.mp hmax)]
      rfl
    · have hle' : weight (b.toBitVec ++ a.toBitVec, d.toBitVec ++ c.toBitVec) ≤ max.toNat :=
        hcount ▸ not_lt.mp (mt BitVec.lt_def.mpr hmax)
      rw [if_neg hmax, hpx, Option.bind_some, draw_eq hmemset, greedy_cons_of_le hle', expand_cons,
        storeBytes_append, hcount]
      · dsimp only
        congr 1
        funext mem
        rw [decodeLoop_eq hmemset file s count _ _ _ _ (by omega), hdrop4,
          BitVec.toNat_sub_of_le (BitVec.le_def.mpr (hcount.trans_le hle')), hcount]
      · exact hcount ▸ (b.toBitVec ++ a.toBitVec).isLt
  | 0, _, _, _, _, _ => rfl
  | 1, ptr, _, _, _, _ => by
    rw [records_eq_nil ((List.length_take_le 1 _).trans_lt (by decide))]
    rfl
  | 2, ptr, _, _, _, _ => by
    rw [records_eq_nil ((List.length_take_le 2 _).trans_lt (by decide))]
    rfl
  | 3, ptr, _, _, _, _ => by
    rw [records_eq_nil ((List.length_take_le 3 _).trans_lt (by decide))]
    rfl

/-! ## The image -/

theorem records_take : ∀ (l : List UInt8) (k : ℕ), records (l.take k) <+: records l
  | a :: b :: c :: d :: rest, k + 4 => List.cons_prefix_cons.mpr ⟨rfl, records_take rest k⟩
  | l, 0 | l, 1 | l, 2 | l, 3 => by
    rw [records_eq_nil ((List.length_take_le _ l).trans_lt (by decide))]
    exact List.nil_prefix
  | [], k + 4 | [_], k + 4 | [_, _], k + 4 | [_, _, _], k + 4 => List.prefix_rfl

theorem length_expand (s : Screen) (rs : List Record) :
    (expand s rs).length = total weight rs * (s.bitsPerPixel.toNat / 8) := by
  induction rs with
  | nil => exact (Nat.zero_mul _).symm
  | cons r rs ih =>
    rw [expand_cons, List.length_append, ih, length_replicate_convert, total_cons, Nat.add_mul]

theorem length_of_storeBytes {bytes : List UInt8} {p : ℕ} {mem mem' : List UInt8}
    (h : storeBytes bytes p mem = some mem') : mem'.length = mem.length := by
  induction bytes generalizing p mem with
  | nil => rw [← Option.some.inj h]
  | cons b bytes ih =>
    rw [storeBytes] at h
    split at h
    · rw [ih h, List.length_set]
    · exact nomatch h

theorem bytes_pos (s : Screen) : 0 < s.bitsPerPixel.toNat / 8 := by
  obtain h | h | h := s.bits_mem <;> rw [h] <;> decide

theorem le_budget {s : Screen} {K : ℕ} (hK : K * (s.bitsPerPixel.toNat / 8) ≤ (fbSize s).toNat) :
    K ≤ (s.xres * s.yres).toNat := by
  have hsize : (fbSize s).toNat ≤ (s.xres * s.yres).toNat * (s.bitsPerPixel.toNat / 8) := by
    rw [fbSize, BitVec.toNat_mul, BitVec.toNat_udiv]
    exact Nat.mod_le _ _
  exact Nat.le_of_mul_le_mul_right (hK.trans hsize) (bytes_pos s)

/-- The longest prefix of the records of some bytes that fits on the screen. -/
def fitting (s : Screen) (bytes : List UInt8) : List Record :=
  greedy weight (s.xres.toNat * s.yres.toNat) (records bytes)

/-- The bytes of the file before its 32-bit size. -/
def counted (file : List UInt8) : List UInt8 := file.take (file.length % 2 ^ 32)

theorem fitting_counted (file : List UInt8) (s : Screen) :
    fitting s (counted file) <+: fitting s file :=
  greedy_of_isPrefix (records_take file _)

theorem total_fitting_counted (file : List UInt8) (s : Screen) :
    ∃ rest, fitting s file = fitting s (counted file) ++ rest ∧
      total weight (fitting s file) =
        total weight (fitting s (counted file)) + total weight rest := by
  obtain ⟨rest, hrest⟩ := fitting_counted file s
  refine ⟨rest, hrest.symm, ?_⟩
  rw [← hrest, total, total, total, List.map_append, List.sum_append]

theorem load565rleImage_eq (hmemset : Memset32 memset32) {file : List UInt8} {s : Screen}
    (hfits : total weight (fitting s file) * (s.bitsPerPixel.toNat / 8) ≤ (fbSize s).toNat)
    {mem : List UInt8} (hmem : mem.length = (fbSize s).toNat) :
    ∃ ret, load565rleImage memset32 file s mem = some (ret,
      expand s (fitting s (counted file)) ++
        mem.drop (expand s (fitting s (counted file))).length) := by
  obtain ⟨rest, -, htotal⟩ := total_fitting_counted file s
  have hle : total weight (fitting s (counted file)) * (s.bitsPerPixel.toNat / 8) ≤
      (fbSize s).toNat := (Nat.mul_le_mul_right _ (by omega)).trans hfits
  have hsmall : (s.xres * s.yres).toNat ≤ s.xres.toNat * s.yres.toNat := by
    rw [BitVec.toNat_mul]
    exact Nat.mod_le _ _
  have hnone : total weight (fitting s (counted file)) = 0 →
      mem = expand s (fitting s (counted file)) ++
        mem.drop (expand s (fitting s (counted file))).length := by
    intro hzero
    have hlength := length_expand s (fitting s (counted file))
    rw [hzero, Nat.zero_mul] at hlength
    rw [List.length_eq_zero_iff.mp hlength]
    rfl
  rw [load565rleImage]
  by_cases hcount : BitVec.ofNat 32 file.length = 0
  · rw [if_pos hcount]
    refine ⟨-1, congrArg (fun mem => some (-1, mem)) (hnone ?_)⟩
    have hzero : file.length % 2 ^ 32 = 0 := by
      rw [← BitVec.toNat_ofNat, hcount]
      rfl
    rw [fitting, counted, hzero]
    rfl
  rw [if_neg hcount]
  by_cases hsize : fbSize s = 0
  · rw [if_pos hsize]
    refine ⟨-1, congrArg (fun mem => some (-1, mem)) (hnone ?_)⟩
    rw [hsize] at hle
    exact (Nat.mul_eq_zero.mp (Nat.le_zero.mp hle)).resolve_right (bytes_pos s).ne'
  · rw [if_neg hsize, BitVec.toNat_ofNat,
      decodeLoop_eq hmemset file s _ 0 0 _ _ (by rw [Nat.zero_add]; exact Nat.mod_le _ _),
      List.drop_zero, ← counted, greedy_of_le hsmall (le_budget hle), ← fitting,
      storeBytes_eq _ (by rw [Nat.zero_add, length_expand, hmem]; exact hle)]
    exact ⟨0, by simp⟩

theorem length_of_load (hmemset : Memset32 memset32) {file : List UInt8} {s : Screen} {ret : ℤ}
    {mem mem' : List UInt8} (h : load565rleImage memset32 file s mem = some (ret, mem')) :
    mem'.length = mem.length := by
  rw [load565rleImage] at h
  split at h
  · cases h
    rfl
  split at h
  · cases h
    rfl
  · rw [BitVec.toNat_ofNat, decodeLoop_eq hmemset file s _ 0 0 _ _
      (by rw [Nat.zero_add]; exact Nat.mod_le _ _), Option.map_eq_some_iff] at h
    obtain ⟨stored, hstore, heq⟩ := h
    cases heq
    exact length_of_storeBytes hstore

theorem Right.fits (hmemset : Memset32 memset32) {file : List UInt8} {s : Screen}
    (h : Right memset32 file s) :
    total weight (fitting s file) * (s.bitsPerPixel.toNat / 8) ≤ (fbSize s).toNat := by
  obtain ⟨rs, hlongest, hright⟩ := h
  rw [hlongest.eq_greedy, ← fitting] at hright
  obtain ⟨ret, hload⟩ := hright (List.replicate (fbSize s).toNat 0) List.length_replicate
  have hlength := length_of_load hmemset hload
  rw [List.length_append, List.length_drop, List.length_replicate, length_expand] at hlength
  omega

/-- **It is right exactly when these sizes do not cut the image off.** -/
theorem load565rleImage_right_iff (hmemset : Memset32 memset32) (file : List UInt8) (s : Screen) :
    Right memset32 file s ↔
      total weight (fitting s file) * (s.bitsPerPixel.toNat / 8) ≤ (fbSize s).toNat ∧
        total weight (fitting s (counted file)) = total weight (fitting s file) := by
  obtain ⟨rest, happend, htotal⟩ := total_fitting_counted file s
  constructor
  · intro h
    have hfits := h.fits hmemset
    obtain ⟨rs, hlongest, hright⟩ := h
    rw [hlongest.eq_greedy, ← fitting] at hright
    refine ⟨hfits, ?_⟩
    by_contra hcut
    -- a screen that shows where the drawing stops
    obtain ⟨c, more, hmore⟩ := List.exists_cons_of_length_pos (l := expand s rest) (by
      rw [length_expand]
      exact Nat.mul_pos (by omega) (bytes_pos s))
    obtain ⟨x, hx⟩ : ∃ x : UInt8, c ≠ x := by
      by_cases hc : c = 0
      · exact ⟨1, by rw [hc]; decide⟩
      · exact ⟨0, hc⟩
    have hmem : (List.replicate (fbSize s).toNat x).length = (fbSize s).toNat :=
      List.length_replicate
    obtain ⟨ret, hload⟩ := hright _ hmem
    obtain ⟨ret', hload'⟩ := load565rleImage_eq hmemset hfits hmem
    have hexpand : expand s (fitting s file) =
        expand s (fitting s (counted file)) ++ c :: more := by
      rw [happend, expand, List.flatMap_append]
      exact congrArg _ hmore
    rw [hload', Option.some.injEq, Prod.mk.injEq, hexpand, List.append_assoc] at hload
    have hrest := List.append_cancel_left hload.2
    have hmemc : c ∈ (List.replicate (fbSize s).toNat x).drop
        (expand s (fitting s (counted file))).length := by
      rw [hrest]
      exact List.mem_cons_self
    exact hx (List.eq_of_mem_replicate (List.mem_of_mem_drop hmemc))
  · rintro ⟨hfits, hall⟩
    refine ⟨fitting s file, greedy_isLongest _ _, fun mem hmem => ?_⟩
    obtain ⟨ret, hload⟩ := load565rleImage_eq hmemset hfits hmem
    have hrest : expand s rest = [] := by
      rw [← List.length_eq_zero_iff, length_expand, show total weight rest = 0 by omega,
        Nat.zero_mul]
    have hexpand : expand s (fitting s file) = expand s (fitting s (counted file)) := by
      rw [happend, expand, List.flatMap_append]
      exact (congrArg _ hrest).trans (List.append_nil _)
    exact ⟨ret, by rw [hload, hexpand]⟩

/-- A `memset32` as it is documented. -/
def fillMemset32 (mem : List UInt8) (p : ℕ) (val count : BitVec 32) : Option (List UInt8) :=
  fillLoop [byte val 0, byte val 1, byte val 2, byte val 3] (count >>> 2).toNat p mem

theorem memset32_fillMemset32 : Memset32 fillMemset32 := by
  intro mem p val n hn
  have hcount : (n <<< 2 >>> 2).toNat = n.toNat := by
    rw [BitVec.toNat_ushiftRight, BitVec.toNat_shiftLeft, Nat.shiftLeft_eq,
      Nat.shiftRight_eq_div_pow]
    omega
  rw [fillMemset32, hcount]

/-- An image of two records on a screen of three pixels. -/
theorem right_threePixels :
    Right fillMemset32 [2, 0, 0x00, 0xf8, 1, 0, 0x1f, 0x00] ⟨3, 1, 32, 16, .inr (.inr rfl)⟩ :=
  (load565rleImage_right_iff memset32_fillMemset32 _ _).mpr ⟨by decide, by decide⟩

/-- A frame buffer of 2³² + 65536 bytes: 65536 are mapped, and 65538 are written. -/
theorem not_right_largeScreen :
    ¬ ∀ memset32, Memset32 memset32 → ∀ (file : List UInt8) (s : Screen),
      Right memset32 file s := by
  intro h
  have hfits := (h fillMemset32 memset32_fillMemset32 [0x01, 0x80, 0x1f, 0x00]
    ⟨65537, 32768, 16, 11, .inl rfl⟩).fits memset32_fillMemset32
  exact absurd hfits (by decide)

end Logo
end AndroidInit
end EmevBsp
