import EmevBsp.Load.SRecord
import EmevBsp.Flash.Flash

/-!
# `common/cmd_load.c`: S-records over the serial line

`save_serial` dumps memory as a text of S-records, and `load_serial` stores the data of such a
text.  The console is a list of characters: those that were printed, or those that are still to
be read.  Nobody interrupts, so the checks for a hangup of the console are left out, and so are
the echo and the dots.

Data for an address in flash go through `flash_write`.  A build with `CONFIG_SYS_NO_FLASH` is the
case of no banks.
-/

namespace EmevBsp
namespace Load

open Flash

/-- Memory by address. -/
abbrev Memory := BitVec 32 → UInt8

/-! ## Dumping -/

def srecBytesPerRecord : ℕ := 16

/-- `SREC3_START`: `"S0030000FC\n"`. -/
def srec3Start : List UInt8 := [83, 48, 48, 51, 48, 48, 48, 48, 70, 67, 10]

/-- `SREC3_END`: `"S70500000000FA\n"`. -/
def srec3End : List UInt8 := [83, 55, 48, 53, 48, 48, 48, 48, 48, 48, 48, 48, 70, 65, 10]

/-- The variables of the loop; `data` is the text collected so far. -/
structure SaveState where
  address : BitVec 32
  count : ℕ
  reclen : ℕ
  checksum : ℕ
  data : List UInt8

/-- Collect one byte. -/
def SaveState.collect (m : Memory) (s : SaveState) : SaveState :=
  let c := m (s.address + BitVec.ofNat 32 s.reclen)
  { s with
    checksum := s.checksum + c.toNat
    data := s.data ++ [hexDigit (c.toNat / 16 % 16), hexDigit (c.toNat % 16)]
    reclen := s.reclen + 1
    count := s.count - 1 }

/-- Collect one byte, if there is one left. -/
def SaveState.collectNext (m : Memory) (s : SaveState) : SaveState :=
  if s.count ≠ 0 then s.collect m else s

/-- The sum of the lowest `n` bytes of `v`. -/
def sumOfBytes (v : ℕ) : ℕ → ℕ
  | 0 => 0
  | n + 1 => sumOfBytes v n + v / 2 ^ (8 * n) % 256

/-- The record, by `SREC3_FORMAT`. -/
def SaveState.record (s : SaveState) : List UInt8 :=
  let length := 4 + s.reclen + 1
  let checksum := s.checksum + sumOfBytes length 2 + sumOfBytes s.address.toNat 4
  [83, 51] ++ zeroPad 2 (hexUpper length) ++ zeroPad 8 (hexUpper s.address.toNat) ++ s.data ++
    zeroPad 2 (hexUpper (~~~UInt8.ofNat checksum).toNat) ++ [10]

/-- Start the next record. -/
def SaveState.next (s : SaveState) : SaveState :=
  { s with address := s.address + BitVec.ofNat 32 s.reclen, reclen := 0, checksum := 0, data := [] }

/-- The body of the loop, with what it prints. -/
def saveBody (m : Memory) (s : SaveState) : SaveState × List UInt8 :=
  let s := s.collectNext m
  if s.reclen = srecBytesPerRecord ∨ s.count = 0 then
    (s.next, if s.reclen ≠ 0 then s.record else [])
  else (s, [])

theorem saveBody_count (m : Memory) (s : SaveState) : (saveBody m s).1.count = s.count - 1 := by
  have hcollect : (s.collectNext m).count = s.count - 1 := by
    rw [SaveState.collectNext]
    split
    · rfl
    · next h => rw [not_not.mp h]
  rw [saveBody]
  split
  · exact hcollect
  · exact hcollect

/-- The loop. -/
def saveLoop (m : Memory) (s : SaveState) : List UInt8 :=
  if (saveBody m s).1.count ≠ 0 then (saveBody m s).2 ++ saveLoop m (saveBody m s).1
  else (saveBody m s).2
termination_by s.count
decreasing_by
  rw [saveBody_count] at *
  omega

/-- `save_serial`: the text that it prints. -/
def saveSerial (m : Memory) (address count : BitVec 32) : List UInt8 :=
  srec3Start ++ saveLoop m ⟨address, count.toNat, 0, 0, []⟩ ++ srec3End

/-! ## Loading -/

def srecMaxreclen : ℕ := 516

/-- The loop of `read_record`, with room for `len` characters: the line, or `none` for `-1`, and
what is still to be read.  It waits when there is nothing to read. -/
def readRecord : ℕ → List UInt8 → Option (Option (List UInt8) × List UInt8)
  | 0, input => some (some [], input)
  | _ + 1, [] => none
  | len + 1, c :: input =>
    if c = 13 ∨ c = 10 then some (some [], input)
    else if c = 0 ∨ c = 3 then some (none, input)
    else (readRecord len input).map fun r => (r.1.map (c :: ·), r.2)

theorem readRecord_length_le {len : ℕ} {input : List UInt8} {r : Option (List UInt8) × List UInt8}
    (h : readRecord len input = some r) : r.2.length ≤ input.length := by
  induction input generalizing len r with
  | nil =>
    cases len with
    | zero => rw [← Option.some.inj h]
    | succ len => exact absurd h.symm (Option.some_ne_none r)
  | cons c input ih =>
    cases len with
    | zero => rw [← Option.some.inj h]
    | succ len =>
      rw [readRecord] at h
      split_ifs at h
      · rw [← Option.some.inj h]
        exact Nat.le_succ _
      · rw [← Option.some.inj h]
        exact Nat.le_succ _
      · obtain ⟨r', hr', hr⟩ := Option.map_eq_some_iff.mp h
        rw [← hr]
        have hle := ih hr'
        exact Nat.le_succ_of_le hle

theorem readRecord_length {len : ℕ} {input : List UInt8} {r : Option (List UInt8) × List UInt8}
    (h : readRecord (len + 1) input = some r) : r.2.length < input.length := by
  cases input with
  | nil => exact absurd h.symm (Option.some_ne_none r)
  | cons c input =>
    rw [readRecord] at h
    split_ifs at h
    · rw [← Option.some.inj h]
      exact Nat.lt_succ_self _
    · rw [← Option.some.inj h]
      exact Nat.lt_succ_self _
    · obtain ⟨r', hr', hr⟩ := Option.map_eq_some_iff.mp h
      rw [← hr]
      have hle := readRecord_length_le hr'
      exact Nat.lt_succ_of_le hle

/-- The variables of `load_serial`, and memory. -/
structure LoadState where
  mem : Memory
  binbuf : ℕ → UInt8
  startAddr : BitVec 32
  endAddr : BitVec 32

/-- What `load_serial` returns, what `filesize` was set to, and the rest of the input. -/
structure LoadResult where
  mem : Memory
  ret : BitVec 32
  filesize : Option (BitVec 32)
  unread : List UInt8

/-- `memcpy`. -/
def copyTo (mem : Memory) (dst : BitVec 32) (src : ℕ → UInt8) (n : BitVec 32) : Memory := fun a =>
  if a - dst < n then src (a - dst).toNat else mem a

/-- Some bytes at the start of a buffer. -/
def overwrite (buf : ℕ → UInt8) (l : List UInt8) : ℕ → UInt8 := fun k => l.getD k (buf k)

section Load

variable (writeBuff : FlashInfo → (ℕ → UInt8) → BitVec 32 → BitVec 32 → Memory → Memory × ℕ)
  (banks : List FlashInfo)

/-- A data record is stored, or `none` when the flash refuses it. -/
def storeRecord (st : LoadState) (storeAddr binlen : BitVec 32) : Option LoadState :=
  let written : Option Memory :=
    if (addr2info banks storeAddr).isSome then
      let r := flashWrite writeBuff banks st.binbuf storeAddr binlen st.mem
      if r.2 ≠ 0 then none else some r.1
    else some (copyTo st.mem storeAddr st.binbuf binlen)
  written.map fun mem =>
    { st with
      mem := mem
      startAddr := if storeAddr < st.startAddr then storeAddr else st.startAddr
      endAddr :=
        if st.endAddr < storeAddr + binlen - 1 then storeAddr + binlen - 1 else st.endAddr }

/-- The body of the loop of `load_serial`, for one line: the function returns, or goes on. -/
def loadRecord (offset : BitVec 32) (st : LoadState) (record rest : List UInt8) :
    Except LoadResult LoadState :=
  match srecDecode record with
  | .error _ => .error ⟨st.mem, -1, none, rest⟩
  | .ok r =>
    let st := { st with binbuf := overwrite st.binbuf r.data }
    match r.type with
    | .data2 | .data3 | .data4 =>
      match storeRecord writeBuff banks st (r.addr + offset) (BitVec.ofInt 32 r.count) with
      | none => .error ⟨st.mem, -1, none, rest⟩
      | some st => .ok st
    | .end2 | .end3 | .end4 =>
      .error ⟨st.mem, r.addr, some (st.endAddr - st.startAddr + 1), rest⟩
    | .start | .count | .empty => .ok st

/-- The loop of `load_serial`; `none` when it waits for more input. -/
def loadSerialFrom (offset : BitVec 32) (st : LoadState) (input : List UInt8) : Option LoadResult :=
  match h : readRecord srecMaxreclen input with
  | none => none
  | some (none, rest) => some ⟨st.mem, -1, none, rest⟩
  | some (some record, rest) =>
    match loadRecord writeBuff banks offset st record rest with
    | .error result => some result
    | .ok st => loadSerialFrom offset st rest
termination_by input.length
decreasing_by exact readRecord_length h

/-- `load_serial`, with what the stack held in `binbuf`. -/
def loadSerial (offset : BitVec 32) (mem : Memory) (binbuf : ℕ → UInt8) (input : List UInt8) :
    Option LoadResult :=
  loadSerialFrom writeBuff banks offset ⟨mem, binbuf, -1, 0⟩ input

end Load

end Load
end EmevBsp
