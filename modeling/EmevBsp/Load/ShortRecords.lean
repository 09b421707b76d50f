import EmevBsp.Load.Serial

/-!
# What the decoder makes of the length field

The length field counts the address, the data and the checksum.  `srec_decode` takes from it what
the address and the checksum have, and never asks whether it was that much.  A record with a smaller
length field is read as one without data, so it has a right checksum as easily as any other; it is
accepted with a negative count, and `load_serial` copies that many bytes.
-/

namespace EmevBsp
namespace Load

open Flash

def srecMaxbinlen : ℕ := 255

/-- The data records. -/
def SrecType.isData : SrecType → Bool
  | .data2 | .data3 | .data4 => true
  | _ => false

/-- The data records and the end records. -/
def SrecType.isDataOrEnd : SrecType → Bool
  | .data2 | .data3 | .data4 | .end2 | .end3 | .end4 => true
  | _ => false

/-- The line from the type on. -/
def recordOf (line : List UInt8) : List UInt8 := (line.dropWhile (· ≠ 83)).tail

/-- A record of the type, with what its length field says and the digits from the data on: the
length of its address, and the address. -/
def HeaderOf (line : List UInt8) (type : SrecType) (length n : ℕ) (addr rest : List UInt8) : Prop :=
  hex2Bin (recordOf line).tail = some length ∧
    srecLayout ((recordOf line).getD 0 0) = some (type, n, some ((n : ℤ) + 1)) ∧
    readBytes n ((recordOf line).drop 3) = some (addr, rest)

/-- The digits of the checksum are next, and it is right. -/
def ChecksumOf (rest : List UInt8) (length : ℕ) (addr data : List UInt8) : Prop :=
  ∃ check, hex2Bin rest = some check ∧
    UInt8.ofNat check = ~~~(UInt8.ofNat length + byteSum addr + byteSum data)

/-- The count of a record is what its length field says beyond the address and the checksum, it is
in range, and so many data bytes were there and are right by the checksum. -/
def GoodCount (line : List UInt8) (r : Srec) : Prop :=
  0 ≤ r.count ∧ r.count ≤ srecMaxbinlen ∧
    ∃ length n addr rest after, HeaderOf line r.type length n addr rest ∧
      r.count = (length : ℤ) - (n + 1) ∧ (r.data.length : ℤ) = r.count ∧
      readBytes r.data.length rest = some (r.data, after) ∧ ChecksumOf after length addr r.data

/-- A record with a length field that does not even count the address and the checksum, and the
checksum right behind the address. -/
def Short (line : List UInt8) (type : SrecType) : Prop :=
  ∃ length n addr rest, HeaderOf line type length n addr rest ∧ length < n + 1 ∧
    ChecksumOf rest length addr []

/-! ## The decoder -/

theorem hex1Bin_lt {c : UInt8} {d : ℕ} (h : hex1Bin c = some d) : d < 16 := by
  unfold hex1Bin at h
  split_ifs at h with h₁ h₂ h₃
  · have hle : c.toNat ≤ 57 := h₁.2
    have := Option.some.inj h
    omega
  · have hle : c.toNat ≤ 102 := h₂.2
    have := Option.some.inj h
    omega
  · have hle : c.toNat ≤ 70 := h₃.2
    have := Option.some.inj h
    omega

theorem hex2Bin_lt {s : List UInt8} {v : ℕ} (h : hex2Bin s = some v) : v < 256 := by
  unfold hex2Bin at h
  split at h
  · exact absurd h.symm (Option.some_ne_none v)
  · next i hi =>
    split at h
    · exact absurd h.symm (Option.some_ne_none v)
    · next j hj =>
      have hi := hex1Bin_lt hi
      have hj := hex1Bin_lt hj
      have := Option.some.inj h
      omega

theorem readBytes_length {n : ℕ} {input : List UInt8} {r : List UInt8 × List UInt8}
    (h : readBytes n input = some r) : r.1.length = n := by
  induction n generalizing input r with
  | zero => rw [← Option.some.inj h, List.length_nil]
  | succ n ih =>
    rw [readBytes] at h
    split at h
    · exact absurd h.symm (Option.some_ne_none r)
    · split at h
      · exact absurd h.symm (Option.some_ne_none r)
      · next r' hr' => rw [← Option.some.inj h, List.length_cons, ih hr']

theorem srecLayout_extra {v : UInt8} {type : SrecType} {n : ℕ} {extra : Option ℤ}
    (h : srecLayout v = some (type, n, extra)) (htype : type.isDataOrEnd = true) :
    extra = some ((n : ℤ) + 1) := by
  unfold srecLayout at h
  split_ifs at h <;> cases h <;> first | rfl | cases htype

/-- **What an accepted record looks like.**  The count is negative when the length field is too
small, and then no data were read. -/
theorem srecDecode_ok {line : List UInt8} {r : Srec} (h : srecDecode line = .ok r)
    (htype : r.type.isDataOrEnd = true) :
    ∃ length n addr rest after, HeaderOf line r.type length n addr rest ∧
      r.count = (length : ℤ) - (n + 1) ∧
      readBytes r.count.toNat rest = some (r.data, after) ∧
      ChecksumOf after length addr r.data := by
  unfold srecDecode at h
  split at h
  · rw [← Except.ok.inj h] at htype
    cases htype
  · next c rest hline =>
    have hrecord : recordOf line = c :: rest := hline
    rw [← hrecord] at h
    unfold srecDecodeFrom at h
    split at h
    · cases h
    · next length hlength =>
      split at h
      · cases h
      · next type n extra hlayout =>
        simp only at h
        split at h
        · cases h
        · next addr haddr =>
          split at h
          · cases h
          · next data hdata =>
            split at h
            · cases h
            · next check hcheck =>
              split_ifs at h with hsum
              obtain rfl := Except.ok.inj h
              obtain rfl := srecLayout_extra hlayout htype
              exact ⟨length, n, addr.1, addr.2, data.2, ⟨hlength, hlayout, haddr⟩, rfl, hdata,
                check, hcheck, not_not.mp hsum⟩

theorem srecDecode_eq {line : List UInt8} {type : SrecType} {length n : ℕ}
    {addr rest data after : List UInt8} (hheader : HeaderOf line type length n addr rest)
    (hdata : readBytes ((length : ℤ) - (n + 1)).toNat rest = some (data, after))
    (hcheck : ChecksumOf after length addr data) :
    srecDecode line = .ok ⟨type, (length : ℤ) - (n + 1), srecAddr addr, data⟩ := by
  obtain ⟨hlength, hlayout, haddr⟩ := hheader
  obtain ⟨check, hdigits, hsum⟩ := hcheck
  have hfrom : srecDecodeFrom (recordOf line) =
      .ok ⟨type, (length : ℤ) - (n + 1), srecAddr addr, data⟩ := by
    rw [srecDecodeFrom, hlength]
    simp only
    rw [hlayout]
    simp only
    rw [haddr]
    simp only
    rw [hdata]
    simp only
    rw [hdigits]
    simp only
    rw [if_neg (not_not.mpr hsum)]
  unfold srecDecode
  split
  · next hnil =>
    -- an empty record has no length field
    have hempty : recordOf line = [] := hnil
    rw [hempty] at hlength
    cases hlength
  · next c rest hline =>
    have hrecord : recordOf line = c :: rest := hline
    rw [← hrecord, hfrom]

theorem goodCount_iff (line : List UInt8) :
    (∀ r, srecDecode line = .ok r → r.type.isDataOrEnd = true → GoodCount line r) ↔
      ∀ type, SrecType.isDataOrEnd type = true → ¬ Short line type := by
  constructor
  · rintro h type htype ⟨length, n, addr, rest, hheader, hshort, hcheck⟩
    have hnone : ((length : ℤ) - (n + 1)).toNat = 0 := by omega
    have hok := srecDecode_eq hheader (by rw [hnone, readBytes]) hcheck
    have hnonneg := (h _ hok htype).1
    simp only at hnonneg
    omega
  · intro h r hok htype
    obtain ⟨length, n, addr, rest, after, hheader, hcount, hdata, hcheck⟩ := srecDecode_ok hok htype
    have hlt : length < 256 := hex2Bin_lt hheader.1
    have hread := readBytes_length hdata
    simp only at hread
    have hle : n + 1 ≤ length := by
      by_contra hshort
      have hnone : r.count.toNat = 0 := by omega
      rw [hnone, readBytes] at hdata
      obtain ⟨hnil, hafter⟩ := Prod.mk.inj (Option.some.inj hdata)
      rw [← hnil, ← hafter] at hcheck
      exact h r.type htype ⟨length, n, addr, rest, hheader, by omega, hcheck⟩
    refine ⟨by omega, ?_, length, n, addr, rest, after, hheader, hcount, by omega, ?_, hcheck⟩
    · change r.count ≤ ((255 : ℕ) : ℤ)
      omega
    · rw [hread]
      exact hdata

/-! ## The load -/

section Load

variable (writeBuff : FlashInfo → (ℕ → UInt8) → BitVec 32 → BitVec 32 → Memory → Memory × ℕ)
  (banks : List FlashInfo) (offset : BitVec 32)

/-- The lines that the loop of `load_serial` reads and gives to `srec_decode`. -/
inductive Decoded : LoadState → List UInt8 → List UInt8 → Prop where
  | first {st : LoadState} {input record rest : List UInt8} :
      readRecord srecMaxreclen input = some (some record, rest) → Decoded st input record
  | later {st st' : LoadState} {input record rest line : List UInt8} :
      readRecord srecMaxreclen input = some (some record, rest) →
      loadRecord writeBuff banks offset st record rest = .ok st' →
      Decoded st' rest line → Decoded st input line

/-- The lengths that a load hands to `flash_write` or `memcpy`, in an `int` as the code has them. -/
def Copied (mem : Memory) (binbuf : ℕ → UInt8) (input : List UInt8) (count : ℤ) : Prop :=
  ∃ line r, Decoded writeBuff banks offset ⟨mem, binbuf, -1, 0⟩ input line ∧
    srecDecode line = .ok r ∧ r.type.isData = true ∧ r.count = count

end Load

theorem SrecType.isDataOrEnd_of_isData {type : SrecType} (h : type.isData = true) :
    type.isDataOrEnd = true := by
  cases type <;> first | rfl | cases h

/-- **The decoder and the load are safe exactly when there are no short records**: a line is decoded
with a count in range that its length field and its data bear out, unless it is one; and every
length that a load copies is in range, unless one of its lines is a short data record. -/
theorem srecDecode_safe_iff (line : List UInt8)
    (writeBuff : FlashInfo → (ℕ → UInt8) → BitVec 32 → BitVec 32 → Memory → Memory × ℕ)
    (banks : List FlashInfo) (offset : BitVec 32) (mem : Memory) (binbuf : ℕ → UInt8)
    (input : List UInt8) :
    ((∀ r, srecDecode line = .ok r → r.type.isDataOrEnd = true → GoodCount line r) ↔
      ∀ type, SrecType.isDataOrEnd type = true → ¬ Short line type) ∧
    ((∀ count, Copied writeBuff banks offset mem binbuf input count →
        0 ≤ count ∧ count ≤ srecMaxbinlen) ↔
      ∀ line, Decoded writeBuff banks offset ⟨mem, binbuf, -1, 0⟩ input line →
        ∀ type, SrecType.isData type = true → ¬ Short line type) := by
  refine ⟨goodCount_iff line, ?_, ?_⟩
  · rintro h line hline type htype ⟨length, n, addr, rest, hheader, hshort, hcheck⟩
    have hnone : ((length : ℤ) - (n + 1)).toNat = 0 := by omega
    have hok := srecDecode_eq hheader (by rw [hnone, readBytes]) hcheck
    have hnonneg := (h _ ⟨line, _, hline, hok, htype, rfl⟩).1
    simp only at hnonneg
    omega
  · rintro h count ⟨line, r, hline, hok, htype, rfl⟩
    have hgood : GoodCount line r := by
      obtain ⟨length, n, addr, rest, after, hheader, hcount, hdata, hcheck⟩ :=
        srecDecode_ok hok (SrecType.isDataOrEnd_of_isData htype)
      refine (goodCount_iff line).mpr ?_ r hok (SrecType.isDataOrEnd_of_isData htype)
      rintro type - ⟨length', n', addr', rest', hheader', hshort, hcheck'⟩
      -- the type of the line is that of the record
      have hsame := hheader.2.1.symm.trans hheader'.2.1
      obtain rfl : r.type = type := (Prod.mk.inj (Option.some.inj hsame)).1
      exact h line hline r.type htype ⟨length', n', addr', rest', hheader', hshort, hcheck'⟩
    exact ⟨hgood.1, hgood.2.1⟩

/-- The line `S1000000FF` is accepted with a count of minus three. -/
theorem not_safe_count : ¬ ∀ line r, srecDecode line = .ok r → r.type.isDataOrEnd = true →
    GoodCount line r := by
  intro h
  have hgood := h [83, 49, 48, 48, 48, 48, 48, 48, 70, 70] ⟨.data2, -3, 0, []⟩ (by decide) rfl
  exact absurd hgood.1 (by decide)

end Load
end EmevBsp
