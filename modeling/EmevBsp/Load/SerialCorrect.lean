import EmevBsp.Load.Serial
import Mathlib.Data.List.GetD

/-!
# `common/cmd_load.c`: what `save_serial` dumps, `load_serial` stores

The dump is a header, data records of up to sixteen bytes, and an end record.  The proof follows
the loop of the dump, from any point in the middle of a record on: what is collected is the text
and the sum of the bytes read so far (`Collected`), a full record is one that `srec_decode`
reads back, and loading it stores these bytes.
-/

namespace EmevBsp
namespace Load

open Flash

/-! ## The text of a record -/

/-- The bytes of memory from an address on. -/
def memBytes (m : Memory) (a : BitVec 32) (n : ℕ) : List UInt8 :=
  (List.range n).map fun k => m (a + BitVec.ofNat 32 k)

variable {m : Memory} {a : BitVec 32} {n : ℕ}

theorem length_memBytes : (memBytes m a n).length = n := by
  rw [memBytes, List.length_map, List.length_range]

theorem memBytes_succ :
    memBytes m a (n + 1) = memBytes m a n ++ [m (a + BitVec.ofNat 32 n)] := by
  rw [memBytes, List.range_succ, List.map_append]
  rfl

theorem hexBytes_append (l l' : List UInt8) : hexBytes (l ++ l') = hexBytes l ++ hexBytes l' :=
  List.flatMap_append

theorem byteSum_append (l : List UInt8) (b : UInt8) : byteSum (l ++ [b]) = byteSum l + b := by
  rw [byteSum, List.foldl_append]
  rfl

theorem hexFixed_add_two (w n : ℕ) :
    hexFixed (w + 2) n = hexFixed w (n / 2 ^ 8) ++ hexByte (UInt8.ofNat n) := by
  have hlow : (UInt8.ofNat n).toNat = n % 2 ^ 8 := UInt8.toNat_ofNat'
  have hdiv : n / 16 / 16 = n / 2 ^ 8 := Nat.div_div_eq_div_mul n 16 16
  have hhi : n / 16 % 16 = n % 2 ^ 8 / 16 := by omega
  have hlo : n % 16 = n % 2 ^ 8 % 16 := by omega
  rw [hexFixed, hexFixed, List.append_assoc, hexByte, hlow, hdiv, hhi, hlo]
  rfl

theorem zeroPad_two {n : ℕ} (hn : n < 256) : zeroPad 2 (hexUpper n) = hexByte (UInt8.ofNat n) := by
  rw [zeroPad_hexUpper (by decide) hn, hexFixed_add_two]
  rfl

theorem zeroPad_eight (a : BitVec 32) :
    zeroPad 8 (hexUpper a.toNat) = hexBytes (addrBytes a) := by
  have h16 : a.toNat / 2 ^ 8 / 2 ^ 8 = a.toNat / 2 ^ 16 := Nat.div_div_eq_div_mul _ _ _
  have h24 : a.toNat / 2 ^ 16 / 2 ^ 8 = a.toNat / 2 ^ 24 := Nat.div_div_eq_div_mul _ _ _
  rw [zeroPad_hexUpper (by decide) a.isLt, hexFixed_add_two, hexFixed_add_two, hexFixed_add_two,
    hexFixed_add_two, h16, h24]
  simp only [hexFixed, addrBytes, hexBytes, List.flatMap_cons, List.flatMap_nil, List.append_nil,
    List.nil_append, List.append_assoc]

/-- What is collected in the middle of a record: the text and the sum of the bytes so far. -/
structure Collected (m : Memory) (s : SaveState) : Prop where
  data : s.data = hexBytes (memBytes m s.address s.reclen)
  checksum : UInt8.ofNat s.checksum = byteSum (memBytes m s.address s.reclen)
  reclen : s.reclen ≤ srecBytesPerRecord

variable {s : SaveState}

theorem Collected.collect (h : Collected m s) (hlen : s.reclen < srecBytesPerRecord) :
    Collected m (s.collect m) := by
  have hc := (m (s.address + BitVec.ofNat 32 s.reclen)).toNat_lt
  have hdigit : (m (s.address + BitVec.ofNat 32 s.reclen)).toNat / 16 % 16 =
      (m (s.address + BitVec.ofNat 32 s.reclen)).toNat / 16 := Nat.mod_eq_of_lt (by omega)
  refine ⟨?_, ?_, hlen⟩
  · show s.data ++ _ = hexBytes (memBytes m s.address (s.reclen + 1))
    rw [memBytes_succ, hexBytes_append, h.data, hdigit]
    rfl
  · show UInt8.ofNat (s.checksum + _) = byteSum (memBytes m s.address (s.reclen + 1))
    rw [memBytes_succ, byteSum_append, UInt8.ofNat_add, h.checksum, UInt8.ofNat_toNat]

theorem collected_next (m : Memory) (s : SaveState) : Collected m s.next :=
  ⟨rfl, rfl, Nat.zero_le _⟩

theorem ofNat_sumOfBytes (a : BitVec 32) :
    UInt8.ofNat (sumOfBytes a.toNat 4) = byteSum (addrBytes a) := by
  apply UInt8.toNat_inj.mp
  simp only [sumOfBytes, byteSum, addrBytes, List.foldl_cons, List.foldl_nil, UInt8.toNat_add,
    UInt8.toNat_ofNat', UInt8.toNat_zero]
  omega

theorem record_eq (h : Collected m s) :
    s.record = srecText 51 s.address (memBytes m s.address s.reclen) ++ [10] := by
  have hmax : s.reclen ≤ 16 := h.reclen
  have hlength : 4 + s.reclen + 1 = (memBytes m s.address s.reclen).length + 5 := by
    rw [length_memBytes]
    omega
  have hsmall : (memBytes m s.address s.reclen).length + 5 < 256 := by
    rw [length_memBytes]
    omega
  have hlen2 : sumOfBytes ((memBytes m s.address s.reclen).length + 5) 2 =
      (memBytes m s.address s.reclen).length + 5 := by
    rw [sumOfBytes, sumOfBytes, sumOfBytes]
    omega
  have hsum : UInt8.ofNat (s.checksum + sumOfBytes (4 + s.reclen + 1) 2 +
      sumOfBytes s.address.toNat 4) =
        UInt8.ofNat ((memBytes m s.address s.reclen).length + 5) + byteSum (addrBytes s.address) +
          byteSum (memBytes m s.address s.reclen) := by
    rw [hlength, hlen2, UInt8.ofNat_add, UInt8.ofNat_add, h.checksum, ofNat_sumOfBytes,
      UInt8.add_comm (byteSum (memBytes m s.address s.reclen)), UInt8.add_assoc,
      UInt8.add_comm (byteSum (memBytes m s.address s.reclen)), ← UInt8.add_assoc]
  have hcheck (b : UInt8) : zeroPad 2 (hexUpper b.toNat) = hexByte b := by
    rw [zeroPad_two b.toNat_lt, UInt8.ofNat_toNat]
  rw [SaveState.record, hsum, hlength, zeroPad_two hsmall, zeroPad_eight, hcheck, h.data, srecText,
    hexBytes_append, hexBytes_append, hexBytes_append]
  simp only [hexBytes, List.flatMap_singleton, List.append_assoc, List.cons_append, List.nil_append]

/-! ## Reading a line -/

/-- A character that is part of a line. -/
def inLine (c : UInt8) : Bool := ¬(c = 13 ∨ c = 10) ∧ ¬(c = 0 ∨ c = 3)

theorem readRecord_line {len : ℕ} {l : List UInt8} (hl : ∀ c ∈ l, inLine c = true)
    (hlen : l.length < len) (rest : List UInt8) :
    readRecord len (l ++ 10 :: rest) = some (some l, rest) := by
  induction l generalizing len with
  | nil =>
    cases len with
    | zero => exact absurd hlen (Nat.lt_irrefl 0)
    | succ len => rw [List.nil_append, readRecord, if_pos (.inr rfl)]
  | cons c l ih =>
    cases len with
    | zero => exact absurd hlen (Nat.not_lt_zero _)
    | succ len =>
      obtain ⟨hend, habort⟩ := of_decide_eq_true (hl c List.mem_cons_self)
      have hrest := ih (fun c' hc' => hl c' (List.mem_cons_of_mem c hc')) (Nat.lt_of_succ_lt_succ hlen)
      rw [List.cons_append, readRecord, if_neg hend, if_neg habort, hrest]
      rfl

theorem inLine_hexDigit {d : ℕ} (hd : d < 16) : inLine (hexDigit d) = true := by
  interval_cases d <;> decide

theorem inLine_of_mem_hexBytes {l : List UInt8} {c : UInt8} (h : c ∈ hexBytes l) :
    inLine c = true := by
  obtain ⟨b, -, hb⟩ := List.mem_flatMap.mp h
  have hlt : b.toNat < 256 := b.toNat_lt
  rcases List.mem_cons.mp hb with rfl | hb
  · exact inLine_hexDigit (by omega)
  · rw [List.mem_singleton.mp hb]
    exact inLine_hexDigit (by omega)

theorem length_hexBytes (l : List UInt8) : (hexBytes l).length = 2 * l.length := by
  induction l with
  | nil => rfl
  | cons b l ih =>
    have happ : hexBytes (b :: l) = hexByte b ++ hexBytes l := List.flatMap_cons
    have htwo : (hexByte b).length = 2 := rfl
    rw [happ, List.length_append, ih, htwo, List.length_cons]
    omega

theorem readRecord_srecText {v : UInt8} (hv : inLine v = true) {data : List UInt8}
    (hlen : data.length ≤ 16) (rest : List UInt8) :
    readRecord srecMaxreclen (srecText v a data ++ 10 :: rest) =
      some (some (srecText v a data), rest) := by
  refine readRecord_line (fun c hc => ?_) ?_ rest
  · rcases List.mem_cons.mp hc with rfl | hc
    · decide
    rcases List.mem_cons.mp hc with rfl | hc
    · exact hv
    · exact inLine_of_mem_hexBytes hc
  · have hmax : srecMaxreclen = 516 := rfl
    rw [srecText, List.length_cons, List.length_cons, length_hexBytes]
    simp only [List.length_append, addrBytes, List.length_cons, List.length_nil]
    omega

/-! ## Loading a record -/

section Loading

variable {writeBuff : FlashInfo → (ℕ → UInt8) → BitVec 32 → BitVec 32 → Memory → Memory × ℕ}
  {banks : List FlashInfo} {st : LoadState} {rest : List UInt8}

theorem loadSerialFrom_of_line {input record : List UInt8}
    (hline : readRecord srecMaxreclen input = some (some record, rest)) :
    loadSerialFrom writeBuff banks 0 st input =
      match loadRecord writeBuff banks 0 st record rest with
      | .error result => some result
      | .ok st => loadSerialFrom writeBuff banks 0 st rest := by
  rw [loadSerialFrom]
  split
  · next h => exact absurd (h.symm.trans hline) (Option.some_ne_none _).symm
  · next h =>
    exact absurd (Prod.mk.inj (Option.some.inj (h.symm.trans hline))).1.symm (Option.some_ne_none _)
  · next record' rest' h =>
    obtain ⟨hrecord, rfl⟩ := Prod.mk.inj (Option.some.inj (h.symm.trans hline))
    obtain rfl := Option.some.inj hrecord
    rfl

/-- The bytes of `m` from `a` on, in another memory. -/
def storeRange (mem m : Memory) (a : BitVec 32) (n : ℕ) : Memory := fun x =>
  if (x - a).toNat < n then m x else mem x

theorem storeRange_zero (mem m : Memory) (a : BitVec 32) : storeRange mem m a 0 = mem := rfl

theorem toNat_sub_add (x a : BitVec 32) (k : ℕ) (hk : k < 2 ^ 32) :
    (x - (a + BitVec.ofNat 32 k)).toNat =
      if k ≤ (x - a).toNat then (x - a).toNat - k else (x - a).toNat + 2 ^ 32 - k := by
  have hx : x.toNat < 2 ^ 32 := x.isLt
  have ha : a.toNat < 2 ^ 32 := a.isLt
  rw [BitVec.toNat_sub, BitVec.toNat_sub, BitVec.toNat_add, BitVec.toNat_ofNat]
  split <;> omega

theorem storeRange_add {mem : Memory} {k : ℕ} (hk : k < 2 ^ 32) (hwrap : k + n ≤ 2 ^ 32) :
    storeRange (storeRange mem m a k) m (a + BitVec.ofNat 32 k) n = storeRange mem m a (k + n) := by
  funext x
  have hplace := toNat_sub_add x a k hk
  simp only [storeRange]
  split at hplace
  · next hle =>
    by_cases hn : (x - a).toNat < k + n
    · rw [if_pos (by omega), if_pos hn]
    · rw [if_neg (by omega), if_neg (by omega), if_neg hn]
  · next hlt =>
    rw [if_neg (by omega), if_pos (by omega), if_pos (by omega)]

theorem copyTo_memBytes {mem : Memory} {buf : ℕ → UInt8} (hn : n < 2 ^ 32) :
    copyTo mem a (overwrite buf (memBytes m a n)) (BitVec.ofNat 32 n) = storeRange mem m a n := by
  funext x
  have hiff : x - a < BitVec.ofNat 32 n ↔ (x - a).toNat < n := by
    rw [BitVec.lt_def, BitVec.toNat_ofNat, Nat.mod_eq_of_lt hn]
  rw [copyTo, storeRange]
  by_cases hx : (x - a).toNat < n
  · have hplace : a + BitVec.ofNat 32 (x - a).toNat = x := by
      rw [BitVec.ofNat_toNat, BitVec.setWidth_eq, BitVec.add_comm, BitVec.sub_add_cancel]
    rw [if_pos (hiff.mpr hx), if_pos hx, overwrite, memBytes,
      List.getD_eq_getElem _ _ (by simpa using hx),
      List.getElem_map, List.getElem_range, hplace]
  · rw [if_neg (fun h => hx (hiff.mp h)), if_neg hx]

section Records

variable (writeBuff banks st rest)

theorem load_data (m : Memory) (hn : n ≤ 16) (hflash : addr2info banks a = none) :
    ∃ st', loadSerialFrom writeBuff banks 0 st (srecText 51 a (memBytes m a n) ++ 10 :: rest) =
        loadSerialFrom writeBuff banks 0 st' rest ∧
      st'.mem = storeRange st.mem m a n := by
  have hlen : (memBytes m a n).length ≤ 16 := by rwa [length_memBytes]
  have hdecode := srecDecode_text (v := 51) rfl a (memBytes m a n) (by omega)
  have hline : readRecord srecMaxreclen (srecText 51 a (memBytes m a n) ++ 10 :: rest) =
      some (some (srecText 51 a (memBytes m a n)), rest) := readRecord_srecText (by decide) hlen rest
  have hcount : BitVec.ofInt 32 ((memBytes m a n).length : ℤ) = BitVec.ofNat 32 n := by
    rw [BitVec.ofInt_natCast, length_memBytes]
  have hzero : a + 0 = a := BitVec.add_zero a
  rw [loadSerialFrom_of_line hline, loadRecord, hdecode]
  simp only
  rw [hcount, hzero, storeRecord, hflash]
  exact ⟨_, rfl, copyTo_memBytes (by omega)⟩

theorem load_start : ∃ st', loadSerialFrom writeBuff banks 0 st (srec3Start ++ rest) =
    loadSerialFrom writeBuff banks 0 st' rest ∧ st'.mem = st.mem := by
  have hchars : ∀ c ∈ srec3Start.dropLast, inLine c = true := List.all_eq_true.mp (by decide)
  have hline : readRecord srecMaxreclen (srec3Start ++ rest) =
      some (some srec3Start.dropLast, rest) :=
    readRecord_line hchars (by decide) rest
  have hdecode : srecDecode srec3Start.dropLast = .ok ⟨.start, 0, 0, []⟩ := by decide
  rw [loadSerialFrom_of_line hline, loadRecord, hdecode]
  exact ⟨_, rfl, rfl⟩

theorem load_end : ∃ size, loadSerialFrom writeBuff banks 0 st (srec3End ++ rest) =
    some ⟨st.mem, 0, some size, rest⟩ := by
  have hchars : ∀ c ∈ srec3End.dropLast, inLine c = true := List.all_eq_true.mp (by decide)
  have hline : readRecord srecMaxreclen (srec3End ++ rest) = some (some srec3End.dropLast, rest) :=
    readRecord_line hchars (by decide) rest
  have hdecode : srecDecode srec3End.dropLast = .ok ⟨.end4, 0, 0, []⟩ := by decide
  rw [loadSerialFrom_of_line hline, loadRecord, hdecode]
  exact ⟨_, rfl⟩

end Records

/-! ## The loop -/

theorem saveBody_cases (h : Collected m s) (hlen : s.reclen < srecBytesPerRecord)
    (hcount : s.count ≠ 0) :
    (saveBody m s = (s.collect m, []) ∧ (s.collect m).reclen < srecBytesPerRecord ∧
      (s.collect m).count ≠ 0) ∨
    saveBody m s = ((s.collect m).next,
      srecText 51 s.address (memBytes m s.address (s.reclen + 1)) ++ [10]) := by
  have hcollect : s.collectNext m = s.collect m := if_pos hcount
  have hrecord := record_eq (h.collect hlen)
  rw [saveBody, hcollect]
  by_cases hfull : (s.collect m).reclen = srecBytesPerRecord ∨ (s.collect m).count = 0
  · have hnonzero : (s.collect m).reclen ≠ 0 := Nat.succ_ne_zero _
    rw [if_pos hfull, if_pos hnonzero, hrecord]
    exact .inr rfl
  · rw [if_neg hfull]
    obtain ⟨hreclen, hleft⟩ := not_or.mp hfull
    exact .inl ⟨rfl, Nat.lt_of_le_of_ne hlen hreclen, hleft⟩

variable (writeBuff rest) in
theorem load_saveLoop (s : SaveState) (st : LoadState) (h : Collected m s)
    (hlen : s.reclen < srecBytesPerRecord) (hopen : s.count = 0 → s.reclen = 0)
    (hwrap : s.address.toNat + (s.reclen + s.count) ≤ 2 ^ 32)
    (hflash : ∀ k < s.reclen + s.count, addr2info banks (s.address + BitVec.ofNat 32 k) = none) :
    ∃ st', loadSerialFrom writeBuff banks 0 st (saveLoop m s ++ rest) =
        loadSerialFrom writeBuff banks 0 st' rest ∧
      st'.mem = storeRange st.mem m s.address (s.reclen + s.count) := by
  have hmax : srecBytesPerRecord = 16 := rfl
  by_cases hcount : s.count = 0
  · -- nothing is left, and nothing was collected
    have hnone : s.collectNext m = s := if_neg (not_not.mpr hcount)
    have hbody : saveBody m s = (s.next, []) := by
      rw [saveBody, hnone, if_pos (.inr hcount), if_neg (not_not.mpr (hopen hcount))]
    have hnext : ¬(saveBody m s).1.count ≠ 0 := by
      rw [saveBody_count, hcount]
      exact not_not.mpr rfl
    rw [saveLoop, if_neg hnext, hbody, hcount, hopen hcount]
    exact ⟨st, rfl, (storeRange_zero _ _ _).symm⟩
  have hcollectCount : (s.collect m).count = s.count - 1 := rfl
  have hcollectReclen : (s.collect m).reclen = s.reclen + 1 := rfl
  have hcollectAddress : (s.collect m).address = s.address := rfl
  have htotal : (s.collect m).reclen + (s.collect m).count = s.reclen + s.count := by omega
  rcases saveBody_cases h hlen hcount with ⟨hbody, hroom, hleft⟩ | hbody
  · -- the record stays open
    obtain ⟨st', hload, hmem⟩ := load_saveLoop (s.collect m) st (h.collect hlen) hroom
      (fun h0 => absurd h0 hleft) (by rwa [hcollectAddress, htotal]) (by rwa [htotal])
    have hnext : (saveBody m s).1.count ≠ 0 := by rwa [hbody]
    rw [saveLoop, if_pos hnext, hbody, List.nil_append]
    exact ⟨st', hload, by rw [hmem, htotal]; rfl⟩
  · -- a record is printed
    have hnoFlash : addr2info banks s.address = none := by
      have h0 := hflash 0 (by omega)
      rwa [show BitVec.ofNat 32 0 = 0#32 from rfl, BitVec.add_zero] at h0
    obtain ⟨st₁, hrecord, hmem₁⟩ := load_data writeBuff banks st
      ((if (s.collect m).next.count ≠ 0 then saveLoop m (s.collect m).next else []) ++ rest) m
      (show s.reclen + 1 ≤ 16 from hlen) hnoFlash
    have htext : saveLoop m s ++ rest = srecText 51 s.address (memBytes m s.address (s.reclen + 1)) ++
        10 :: ((if (s.collect m).next.count ≠ 0 then saveLoop m (s.collect m).next else []) ++
          rest) := by
      rw [saveLoop, hbody]
      split <;> simp only [List.append_assoc, List.cons_append, List.nil_append]
    have hnextCount : (s.collect m).next.count = s.count - 1 := rfl
    have hnextReclen : (s.collect m).next.reclen = 0 := rfl
    have hnextAddress : (s.collect m).next.address = s.address + BitVec.ofNat 32 (s.reclen + 1) := rfl
    rw [htext, hrecord]
    by_cases hleft : (s.collect m).next.count ≠ 0
    · rw [if_pos hleft]
      have haddr : (s.address + BitVec.ofNat 32 (s.reclen + 1)).toNat =
          s.address.toNat + (s.reclen + 1) := by
        rw [BitVec.toNat_add, BitVec.toNat_ofNat]
        omega
      obtain ⟨st', hload, hmem⟩ := load_saveLoop (s.collect m).next st₁ (collected_next m _)
        (by rw [hnextReclen]; decide) (fun h0 => absurd h0 hleft)
        (by rw [hnextAddress, haddr, hnextReclen, hnextCount]; omega)
        (fun k hk => by
          have hk' := hflash (s.reclen + 1 + k) (by omega)
          rwa [BitVec.ofNat_add, ← BitVec.add_assoc] at hk')
      refine ⟨st', hload, ?_⟩
      rw [hmem, hmem₁, hnextAddress, storeRange_add (by omega) (by omega), hnextReclen, hnextCount]
      congr 1
      omega
    · have hlast : s.reclen + 1 = s.reclen + s.count := by omega
      rw [if_neg hleft]
      exact ⟨st₁, rfl, by rw [hmem₁, hlast]⟩
termination_by s.count

/-- **The round trip**, when the range touches no flash bank.  What follows the end record is
left for the next reader. -/
theorem loadSerial_saveSerial (mem : Memory) (binbuf : ℕ → UInt8) (address count : BitVec 32)
    (hwrap : address.toNat + count.toNat ≤ 2 ^ 32)
    (hflash : ∀ k < count.toNat, addr2info banks (address + BitVec.ofNat 32 k) = none) :
    ∃ size, loadSerial writeBuff banks 0 mem binbuf (saveSerial m address count ++ rest) =
      some ⟨storeRange mem m address count.toNat, 0, some size, rest⟩ := by
  have hempty : Collected m ⟨address, count.toNat, 0, 0, []⟩ := ⟨rfl, rfl, Nat.zero_le _⟩
  rw [loadSerial, saveSerial, List.append_assoc, List.append_assoc]
  obtain ⟨st₁, hstart, hmem₁⟩ := load_start writeBuff banks ⟨mem, binbuf, -1, 0⟩
    (saveLoop m ⟨address, count.toNat, 0, 0, []⟩ ++ (srec3End ++ rest))
  obtain ⟨st₂, hloop, hmem₂⟩ := load_saveLoop writeBuff (srec3End ++ rest)
    ⟨address, count.toNat, 0, 0, []⟩ st₁ hempty (Nat.zero_lt_succ _) (fun _ => rfl)
    (by rwa [Nat.zero_add]) (by rwa [Nat.zero_add])
  obtain ⟨size, hend⟩ := load_end writeBuff banks st₂ rest
  refine ⟨size, ?_⟩
  rw [hstart, hloop, hend, hmem₂, hmem₁, Nat.zero_add]

end Loading

/-- Twenty bytes, and no flash. -/
theorem loadSerial_saveSerial_twenty : ∃ size,
    loadSerial (fun _ _ _ _ mem => (mem, errOk)) [] 0 (fun _ => 0) (fun _ => 0)
        (saveSerial (fun a => UInt8.ofNat a.toNat) 16 20 ++ []) =
      some ⟨storeRange (fun _ => 0) (fun a => UInt8.ofNat a.toNat) 16 20, 0, some size, []⟩ :=
  loadSerial_saveSerial _ _ 16 20 (by decide) (fun _ _ => rfl)

/-- A bank at 0 with a protected sector. -/
def protectedBank : FlashInfo := ⟨0x20000, 1, 1, fun _ => 0, fun _ => 1⟩

/-- **The flash refuses** a byte for a protected sector, and the load is given up. -/
theorem not_loadSerial_saveSerial : ¬∀ (writeBuff :
      FlashInfo → (ℕ → UInt8) → BitVec 32 → BitVec 32 → Memory → Memory × ℕ)
    (banks : List FlashInfo) (m mem : Memory) (binbuf : ℕ → UInt8) (address count : BitVec 32),
    address.toNat + count.toNat ≤ 2 ^ 32 →
      ∃ size, loadSerial writeBuff banks 0 mem binbuf (saveSerial m address count) =
        some ⟨storeRange mem m address count.toNat, 0, some size, []⟩ := by
  intro hall
  obtain ⟨size, hload⟩ := hall (fun _ _ _ _ mem => (mem, errOk)) [protectedBank] (fun _ => 0)
    (fun _ => 0) (fun _ => 0) 0 1 (by decide)
  have hopen : Collected (fun _ => 0) ⟨0, 1, 0, 0, []⟩ := ⟨rfl, rfl, Nat.zero_le _⟩
  have hloop : saveLoop (fun _ => 0) ⟨0, 1, 0, 0, []⟩ =
      srecText 51 0 (memBytes (fun _ => 0) 0 1) ++ [10] := by
    rcases saveBody_cases hopen (Nat.zero_lt_succ _) Nat.one_ne_zero with ⟨-, -, hleft⟩ | hbody
    · exact absurd rfl hleft
    · rw [saveLoop, hbody]
      exact if_neg (not_not.mpr rfl)
  obtain ⟨st, hstart, -⟩ := load_start (fun _ _ _ _ mem => (mem, errOk)) [protectedBank]
    ⟨fun _ => 0, fun _ => 0, -1, 0⟩ (srecText 51 0 (memBytes (fun _ => 0) 0 1) ++ 10 :: srec3End)
  have hdecode := srecDecode_text (v := 51) rfl 0 (memBytes (fun _ => 0) 0 1) (by decide)
  have hrefused : loadRecord (fun _ _ _ _ mem => (mem, errOk)) [protectedBank] 0 st
      (srecText 51 0 (memBytes (fun _ => 0) 0 1)) srec3End = .error ⟨st.mem, -1, none, srec3End⟩ := by
    rw [loadRecord, hdecode]
    rfl
  have hcount : (1 : BitVec 32).toNat = 1 := rfl
  rw [loadSerial, saveSerial, hcount, hloop, List.append_assoc, List.append_assoc,
    List.singleton_append, hstart,
    loadSerialFrom_of_line (readRecord_srecText (by decide) (by decide) _), hrefused] at hload
  have hsize : none = some size := congrArg LoadResult.filesize (Option.some.inj hload)
  exact Option.some_ne_none size hsize.symm

end Load
end EmevBsp
