import EmevBsp.LibGeneric.Vsprintf
import Mathlib.Data.BitVec
import Mathlib.Tactic.IntervalCases

/-!
# `common/s_record.c`: decoding an S-record

A line is the list of its characters, without the terminator.  A record is a letter `S`, a type,
and pairs of hexadecimal digits: the count of the bytes that follow, the address, the data, and
the complement of the sum of all these.
-/

namespace EmevBsp
namespace Load

/-- `SREC_START` and its kind. -/
inductive SrecType where
  | start
  | data2
  | data3
  | data4
  | count
  | end4
  | end3
  | end2
  | empty
  deriving DecidableEq

/-- `SREC_E_BADTYPE` and its kind. -/
inductive SrecError where
  | badtype
  | nosrec
  | badchks
  deriving DecidableEq

/-- What `srec_decode` leaves in its arguments.  An empty line leaves them as they were. -/
structure Srec where
  type : SrecType
  count : ℤ
  addr : BitVec 32
  data : List UInt8
  deriving DecidableEq

/-! ## Hexadecimal digits -/

/-- `hex1_bin`, with `none` for `-1`. -/
def hex1Bin (c : UInt8) : Option ℕ :=
  if 48 ≤ c ∧ c ≤ 57 then some (c.toNat - 48)
  else if 97 ≤ c ∧ c ≤ 102 then some (c.toNat + 10 - 97)
  else if 65 ≤ c ∧ c ≤ 70 then some (c.toNat + 10 - 65)
  else none

/-- `hex2_bin`; the terminator is no digit. -/
def hex2Bin (s : List UInt8) : Option ℕ :=
  match hex1Bin (s.getD 0 0) with
  | none => none
  | some i =>
    match hex1Bin (s.getD 1 0) with
    | none => none
    | some j => some (16 * i + j)

/-- Read `n` pairs of digits: the bytes, and the rest of the line. -/
def readBytes : ℕ → List UInt8 → Option (List UInt8 × List UInt8)
  | 0, input => some ([], input)
  | n + 1, input =>
    match hex2Bin input with
    | none => none
    | some v =>
      match readBytes n (input.drop 2) with
      | none => none
      | some r => some (UInt8.ofNat v :: r.1, r.2)

/-! ## The decoder -/

/-- The bytes of the address field, and what the count says beyond the data, by the type. -/
def srecLayout (v : UInt8) : Option (SrecType × ℕ × Option ℤ) :=
  if v = 48 then some (.start, 2, some 3)
  else if v = 49 then some (.data2, 2, some 3)
  else if v = 50 then some (.data3, 3, some 4)
  else if v = 51 then some (.data4, 4, some 5)
  else if v = 53 then some (.count, 2, none)
  else if v = 55 then some (.end4, 4, some 5)
  else if v = 56 then some (.end3, 3, some 4)
  else if v = 57 then some (.end2, 2, some 3)
  else none

/-- `*addr <<= 8; *addr += v`, for each byte of the address. -/
def srecAddr (bytes : List UInt8) : BitVec 32 :=
  bytes.foldl (fun addr v => (addr <<< 8) + v.toBitVec.setWidth 32) 0

/-- The sum of some bytes, in an `unsigned char`. -/
def byteSum (bytes : List UInt8) : UInt8 := bytes.foldl (· + ·) 0

/-- `srec_decode`, from the type on. -/
def srecDecodeFrom (input : List UInt8) : Except SrecError Srec :=
  match hex2Bin input.tail with
  | none => .error .nosrec
  | some length =>
    match srecLayout (input.getD 0 0) with
    | none => .error .badtype
    | some (type, addrLen, extra) =>
      let count : ℤ := match extra with
        | none => 0
        | some extra => length - extra
      match readBytes addrLen (input.drop 3) with
      | none => .error .nosrec
      | some addr =>
        match readBytes count.toNat addr.2 with
        | none => .error .nosrec
        | some data =>
          match hex2Bin data.2 with
          | none => .error .nosrec
          | some v =>
            if UInt8.ofNat v ≠ ~~~(UInt8.ofNat length + byteSum addr.1 + byteSum data.1) then
              .error .badchks
            else .ok ⟨type, count, srecAddr addr.1, data.1⟩

/-- `srec_decode`: what stands before the letter is skipped. -/
def srecDecode (input : List UInt8) : Except SrecError Srec :=
  match (input.dropWhile (· ≠ 83)).tail with
  | [] => .ok ⟨.empty, 0, 0, []⟩
  | c :: rest => srecDecodeFrom (c :: rest)

/-! ## Reading digits back -/

theorem hex1Bin_hexDigit {d : ℕ} (hd : d < 16) : hex1Bin (hexDigit d) = some d := by
  interval_cases d <;> decide

/-- The two digits of a byte. -/
def hexByte (b : UInt8) : List UInt8 := [hexDigit (b.toNat / 16), hexDigit (b.toNat % 16)]

/-- The digits of some bytes. -/
def hexBytes (l : List UInt8) : List UInt8 := l.flatMap hexByte

theorem hex2Bin_hexByte (b : UInt8) (rest : List UInt8) :
    hex2Bin (hexByte b ++ rest) = some b.toNat := by
  have hlt : b.toNat < 256 := b.toNat_lt
  have hhi : hex1Bin ((hexByte b ++ rest).getD 0 0) = some (b.toNat / 16) :=
    hex1Bin_hexDigit (by omega)
  have hlo : hex1Bin ((hexByte b ++ rest).getD 1 0) = some (b.toNat % 16) :=
    hex1Bin_hexDigit (by omega)
  rw [hex2Bin, hhi]
  simp only
  rw [hlo]
  simp only
  rw [Nat.div_add_mod]

theorem readBytes_hexBytes (l rest : List UInt8) :
    readBytes l.length (hexBytes l ++ rest) = some (l, rest) := by
  induction l with
  | nil => rfl
  | cons b l ih =>
    have happ : hexBytes (b :: l) ++ rest = hexByte b ++ (hexBytes l ++ rest) := by
      rw [hexBytes, List.flatMap_cons, List.append_assoc]
      rfl
    have hdrop : (hexByte b ++ (hexBytes l ++ rest)).drop 2 = hexBytes l ++ rest := rfl
    rw [List.length_cons, readBytes, happ, hex2Bin_hexByte]
    simp only
    rw [hdrop, ih, UInt8.ofNat_toNat]

/-! ## Records -/

/-- The text of a record with the address bytes `addr`. -/
def recordText (v : UInt8) (addr data : List UInt8) : List UInt8 :=
  83 :: v :: hexBytes ([UInt8.ofNat (addr.length + data.length + 1)] ++ addr ++ data ++
    [~~~(UInt8.ofNat (addr.length + data.length + 1) + byteSum addr + byteSum data)])

theorem recordText_eq (v : UInt8) (addr data : List UInt8) :
    recordText v addr data = 83 :: v :: (hexByte (UInt8.ofNat (addr.length + data.length + 1)) ++
      (hexBytes addr ++ (hexBytes data ++ (hexByte
        (~~~(UInt8.ofNat (addr.length + data.length + 1) + byteSum addr + byteSum data)) ++ [])))) := by
  simp only [recordText, hexBytes, List.flatMap_append, List.flatMap_singleton, List.append_assoc,
    List.append_nil]

theorem srecDecode_recordText {v : UInt8} {type : SrecType} {addr : List UInt8}
    (hv : srecLayout v = some (type, addr.length, some ((addr.length : ℤ) + 1))) (data : List UInt8)
    (hlen : addr.length + data.length + 1 < 256) :
    srecDecode (recordText v addr data) = .ok ⟨type, data.length, srecAddr addr, data⟩ := by
  have hlength : (UInt8.ofNat (addr.length + data.length + 1)).toNat =
      addr.length + data.length + 1 := by
    rw [UInt8.toNat_ofNat']
    exact Nat.mod_eq_of_lt hlen
  have hcount : ((addr.length + data.length + 1 : ℕ) : ℤ) - (addr.length + 1) = data.length := by
    omega
  rw [recordText_eq, srecDecode]
  have hskip (rest : List UInt8) : (List.dropWhile (· ≠ 83) (83 :: v :: rest)).tail = v :: rest := rfl
  rw [hskip]
  simp only
  rw [srecDecodeFrom, List.tail_cons, hex2Bin_hexByte]
  simp only
  rw [List.getD_cons_zero, hv]
  simp only
  have hdrop (b : UInt8) (rest : List UInt8) : (v :: (hexByte b ++ rest)).drop 3 = rest := rfl
  rw [hdrop, readBytes_hexBytes]
  simp only
  rw [hlength, hcount, Int.toNat_natCast, readBytes_hexBytes]
  simp only
  rw [hex2Bin_hexByte]
  simp only
  rw [if_neg (not_not.mpr UInt8.ofNat_toNat)]

/-! ## Records with a four-byte address -/

/-- The bytes of an address, the highest first. -/
def addrBytes (addr : BitVec 32) : List UInt8 :=
  [UInt8.ofNat (addr.toNat / 2 ^ 24), UInt8.ofNat (addr.toNat / 2 ^ 16),
    UInt8.ofNat (addr.toNat / 2 ^ 8), UInt8.ofNat addr.toNat]

theorem srecAddr_addrBytes (addr : BitVec 32) : srecAddr (addrBytes addr) = addr := by
  have hlt : addr.toNat < 2 ^ 32 := addr.isLt
  apply BitVec.eq_of_toNat_eq
  simp only [srecAddr, addrBytes, List.foldl_cons, List.foldl_nil, BitVec.toNat_add,
    BitVec.toNat_shiftLeft, Nat.shiftLeft_eq, BitVec.toNat_setWidth, UInt8.toNat_toBitVec,
    UInt8.toNat_ofNat']
  omega

/-- The text of a record with a four-byte address. -/
def srecText (v : UInt8) (addr : BitVec 32) (data : List UInt8) : List UInt8 :=
  83 :: v :: hexBytes ([UInt8.ofNat (data.length + 5)] ++ addrBytes addr ++ data ++
    [~~~(UInt8.ofNat (data.length + 5) + byteSum (addrBytes addr) + byteSum data)])

theorem srecDecode_text {v : UInt8} {type : SrecType} (hv : srecLayout v = some (type, 4, some 5))
    (addr : BitVec 32) (data : List UInt8) (hlen : data.length + 5 < 256) :
    srecDecode (srecText v addr data) = .ok ⟨type, data.length, addr, data⟩ := by
  have hlength : (addrBytes addr).length + data.length + 1 = data.length + 5 := by
    change 4 + data.length + 1 = data.length + 5
    omega
  have htext : srecText v addr data = recordText v (addrBytes addr) data := by
    rw [srecText, recordText, hlength]
  have hdecode := srecDecode_recordText
    (show srecLayout v = some (type, (addrBytes addr).length, some (((addrBytes addr).length : ℤ) + 1))
      from hv) data (hlength ▸ hlen)
  rw [htext, hdecode, srecAddr_addrBytes]

end Load
end EmevBsp
