import EmevBsp.Load.SRecord
import Mathlib.Tactic.IntervalCases

/-!
# `tools/img2srec.c`: writing an S-record

The tool on the host writes records of every type but the counting one.  It sums up what it writes
in sixteen bits and takes the low byte of the complement, where the decoder sums up in eight.
-/

namespace EmevBsp
namespace Load

def byteToHex : List UInt8 := [48, 49, 50, 51, 52, 53, 54, 55, 56, 57, 65, 66, 67, 68, 69, 70]

/-- `WriteHex`, with the text written so far and `*pCheckSum`. -/
def writeHex (s : List UInt8 × BitVec 16) (value : UInt8) : List UInt8 × BitVec 16 :=
  (s.1 ++ [byteToHex.getD (value.toNat / 16) 0, byteToHex.getD (value.toNat % 16) 0],
    s.2 + value.toBitVec.setWidth 16)

/-- `addrLen`, by the type. -/
def addrLength (sType : ℕ) : Option ℕ :=
  match sType with
  | 0 | 1 | 9 => some 2
  | 2 | 8 => some 3
  | 3 | 7 => some 4
  | _ => none

/-- The bytes of the address field, the highest first. -/
def addrField (addrLen : ℕ) (addr : BitVec 32) : List UInt8 :=
  (List.range' 1 addrLen).map fun i => UInt8.ofBitVec ((addr >>> (8 * (addrLen - i))).setWidth 8)

/-- `BuildSRecord`: what is written at `pa`, up to the terminator. -/
def buildSRecord (sType : ℕ) (addr : BitVec 32) (data : List UInt8) : List UInt8 :=
  match addrLength sType with
  | none => []
  | some addrLen =>
    let sRLen := addrLen + data.length + 1
    let s := writeHex ([83, UInt8.ofNat (sType + 48)], 0) (UInt8.ofNat sRLen)
    let s := (addrField addrLen addr).foldl writeHex s
    let s := data.foldl writeHex s
    let checkSum := ~~~s.2
    (writeHex (s.1, checkSum) (UInt8.ofBitVec (checkSum.setWidth 8))).1

/-- The value of a record type in `s_record.h`. -/
def SrecType.code : SrecType → ℕ
  | .start => 0
  | .data2 => 1
  | .data3 => 2
  | .data4 => 3
  | .count => 5
  | .end4 => 7
  | .end3 => 8
  | .end2 => 9
  | .empty => 10

/-! ## What is written -/

theorem byteToHex_eq {d : ℕ} (hd : d < 16) : byteToHex.getD d 0 = hexDigit d := by
  interval_cases d <;> rfl

theorem writeHex_eq (s : List UInt8 × BitVec 16) (value : UInt8) :
    writeHex s value = (s.1 ++ hexByte value, s.2 + value.toBitVec.setWidth 16) := by
  have hlt : value.toNat < 256 := value.toNat_lt
  rw [writeHex, byteToHex_eq (by omega), byteToHex_eq (by omega), hexByte]

theorem writeHexs_fst (l : List UInt8) (s : List UInt8 × BitVec 16) :
    (l.foldl writeHex s).1 = s.1 ++ hexBytes l := by
  induction l generalizing s with
  | nil => rw [List.foldl_nil, hexBytes, List.flatMap_nil, List.append_nil]
  | cons b l ih =>
    rw [List.foldl_cons, ih, writeHex_eq, List.append_assoc]
    rfl

/-- The low byte of a sum. -/
def lowByte (checkSum : BitVec 16) : UInt8 := UInt8.ofBitVec (checkSum.setWidth 8)

theorem lowByte_add (checkSum : BitVec 16) (value : UInt8) :
    lowByte (checkSum + value.toBitVec.setWidth 16) = lowByte checkSum + value := by
  apply UInt8.toBitVec_inj.mp
  change (checkSum + value.toBitVec.setWidth 16).setWidth 8 = checkSum.setWidth 8 + value.toBitVec
  rw [BitVec.setWidth_add _ _ (by decide), BitVec.setWidth_setWidth_of_le _ (by decide),
    BitVec.setWidth_eq]

theorem lowByte_not (checkSum : BitVec 16) : lowByte (~~~checkSum) = ~~~lowByte checkSum := by
  apply UInt8.toBitVec_inj.mp
  change (~~~checkSum).setWidth 8 = ~~~(checkSum.setWidth 8)
  exact BitVec.setWidth_not (by decide)

theorem foldl_add_eq (l : List UInt8) (b : UInt8) : l.foldl (· + ·) b = b + byteSum l := by
  induction l generalizing b with
  | nil => rw [List.foldl_nil, byteSum, List.foldl_nil, UInt8.add_zero]
  | cons c l ih =>
    have hcons : byteSum (c :: l) = c + byteSum l := by
      rw [byteSum, List.foldl_cons, ih, UInt8.zero_add]
    rw [List.foldl_cons, ih, hcons, UInt8.add_assoc]

theorem lowByte_writeHexs (l : List UInt8) (s : List UInt8 × BitVec 16) :
    lowByte (l.foldl writeHex s).2 = lowByte s.2 + byteSum l := by
  rw [← foldl_add_eq]
  induction l generalizing s with
  | nil => rfl
  | cons b l ih => rw [List.foldl_cons, List.foldl_cons, ih, writeHex_eq, lowByte_add]

theorem length_addrField (addrLen : ℕ) (addr : BitVec 32) :
    (addrField addrLen addr).length = addrLen := by
  rw [addrField, List.length_map, List.length_range']

/-- **What `BuildSRecord` writes** is a record with a right checksum. -/
theorem buildSRecord_eq {sType addrLen : ℕ} (h : addrLength sType = some addrLen) (addr : BitVec 32)
    (data : List UInt8) :
    buildSRecord sType addr data =
      recordText (UInt8.ofNat (sType + 48)) (addrField addrLen addr) data := by
  set count := UInt8.ofNat (addrLen + data.length + 1) with hcount
  set s := data.foldl writeHex ((addrField addrLen addr).foldl writeHex
    (writeHex ([83, UInt8.ofNat (sType + 48)], 0) count)) with hs
  have hbuild : buildSRecord sType addr data =
      (writeHex (s.1, ~~~s.2) (lowByte (~~~s.2))).1 := by
    rw [buildSRecord, h]
    rfl
  have htext : s.1 = 83 :: UInt8.ofNat (sType + 48) ::
      (hexByte count ++ hexBytes (addrField addrLen addr) ++ hexBytes data) := by
    rw [hs, writeHexs_fst, writeHexs_fst, writeHex_eq]
    rfl
  have hsum : lowByte s.2 = count + byteSum (addrField addrLen addr) + byteSum data := by
    have hzero : lowByte 0 + count = count := UInt8.zero_add _
    rw [hs, lowByte_writeHexs, lowByte_writeHexs, writeHex_eq, lowByte_add, hzero]
  rw [hbuild, writeHex_eq, htext, lowByte_not, hsum, recordText_eq, length_addrField, ← hcount]
  simp only [List.append_assoc, List.append_nil, List.cons_append]

/-! ## What is decoded -/

theorem srecAddr_addrField {sType addrLen : ℕ} (h : addrLength sType = some addrLen)
    {addr : BitVec 32} (haddr : addr.toNat < 2 ^ (8 * addrLen)) :
    srecAddr (addrField addrLen addr) = addr := by
  have hwidth : addrLen = 2 ∨ addrLen = 3 ∨ addrLen = 4 := by
    unfold addrLength at h
    split at h <;> simp at h <;> omega
  rcases hwidth with rfl | rfl | rfl <;>
  · apply BitVec.eq_of_toNat_eq
    simp only [srecAddr, addrField, List.range', List.map_cons, List.map_nil, List.foldl_cons,
      List.foldl_nil, BitVec.toNat_add, BitVec.toNat_shiftLeft, Nat.shiftLeft_eq,
      BitVec.toNat_setWidth, BitVec.toNat_ushiftRight,
      Nat.shiftRight_eq_div_pow, show (0 : BitVec 32).toNat = 0 from rfl]
    omega

theorem srecLayout_of_addrLength {sType addrLen : ℕ} (h : addrLength sType = some addrLen) :
    ∃ type, type.code = sType ∧
      srecLayout (UInt8.ofNat (sType + 48)) = some (type, addrLen, some ((addrLen : ℤ) + 1)) := by
  unfold addrLength at h
  split at h <;> cases h
  · exact ⟨.start, rfl, rfl⟩
  · exact ⟨.data2, rfl, rfl⟩
  · exact ⟨.end2, rfl, rfl⟩
  · exact ⟨.data3, rfl, rfl⟩
  · exact ⟨.end3, rfl, rfl⟩
  · exact ⟨.data4, rfl, rfl⟩
  · exact ⟨.end4, rfl, rfl⟩

/-- **A record that was written is decoded to what it was written from**: for every type, every
address of the type's width, and as many data as the length field can count. -/
theorem srecDecode_buildSRecord (sType addrLen : ℕ) (h : addrLength sType = some addrLen)
    (addr : BitVec 32) (haddr : addr.toNat < 2 ^ (8 * addrLen)) (data : List UInt8)
    (hdata : addrLen + data.length + 1 ≤ 255) :
    ∃ type, type.code = sType ∧
      srecDecode (buildSRecord sType addr data) = .ok ⟨type, data.length, addr, data⟩ := by
  obtain ⟨type, hcode, hlayout⟩ := srecLayout_of_addrLength h
  refine ⟨type, hcode, ?_⟩
  have hlength := length_addrField addrLen addr
  have hdecode := srecDecode_recordText
    (show srecLayout (UInt8.ofNat (sType + 48)) = some (type, (addrField addrLen addr).length,
      some (((addrField addrLen addr).length : ℤ) + 1)) by rw [hlength]; exact hlayout) data
    (by omega)
  rw [buildSRecord_eq h, hdecode, srecAddr_addrField h haddr]

/-- A data record with a three-byte address. -/
theorem srecDecode_buildSRecord_two : addrLength 2 = some 3 ∧
    ∃ type, type.code = 2 ∧ srecDecode (buildSRecord 2 0x123456 [7, 255]) =
      .ok ⟨type, 2, 0x123456, [7, 255]⟩ :=
  ⟨rfl, srecDecode_buildSRecord 2 3 rfl 0x123456 (by decide) [7, 255] (by decide)⟩

end Load
end EmevBsp
