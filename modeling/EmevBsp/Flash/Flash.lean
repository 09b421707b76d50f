import Mathlib.Data.BitVec

/-!
# `common/flash.c`: writing to flash by address

The banks are those of `flash_info`, in their order.  `write_buff` belongs to the driver of the
chips and is a parameter; the machine it works on is a type of its own.
-/

namespace EmevBsp
namespace Flash

def flashUnknown : BitVec 32 := 0xffff

/-- `ERR_OK` and its kind. -/
def errOk : ℕ := 0

def errProtected : ℕ := 4

def errInval : ℕ := 8

/-- `flash_info_t`, as far as common/flash.c reads it. -/
structure FlashInfo where
  size : BitVec 32
  sectorCount : ℕ
  flashId : BitVec 32
  start : ℕ → BitVec 32
  protect : ℕ → UInt8

/-- The test of `addr2info`. -/
def FlashInfo.contains (info : FlashInfo) (addr : BitVec 32) : Bool :=
  info.flashId ≠ flashUnknown ∧ info.start 0 ≤ addr ∧ addr ≤ info.start 0 + info.size - 1

/-- The index of the bank of an address. -/
def addr2info (banks : List FlashInfo) (addr : BitVec 32) : Option ℕ :=
  banks.findIdx? fun info => info.contains addr

/-- A protected sector of the bank lies in the range from `addr` to `last`. -/
def FlashInfo.hitsProtected (info : FlashInfo) (addr last : BitVec 32) : Bool :=
  (List.range info.sectorCount).any fun i =>
    let eAddr := if i + 1 = info.sectorCount then info.start 0 + info.size else info.start (i + 1)
    info.start i ≤ last ∧ addr < eAddr ∧ info.protect i ≠ 0

section Write

variable {σ : Type} (writeBuff : FlashInfo → (ℕ → UInt8) → BitVec 32 → BitVec 32 → σ → σ × ℕ)

/-- The second loop of `flash_write`: each bank takes what it has room for. -/
def flashWriteBanks : List FlashInfo → (ℕ → UInt8) → BitVec 32 → BitVec 32 → σ → σ × ℕ
  | [], _, _, _, s => (s, errOk)
  | info :: banks, src, addr, cnt, s =>
    if cnt = 0 then (s, errOk)
    else
      let room := info.start 0 + info.size - addr
      let len := if cnt < room then cnt else room
      let r := writeBuff info src addr len s
      if r.2 ≠ 0 then r
      else flashWriteBanks banks (fun k => src (len.toNat + k)) (addr + len) (cnt - len) r.1

def flashWrite (banks : List FlashInfo) (src : ℕ → UInt8) (addr cnt : BitVec 32) (s : σ) : σ × ℕ :=
  let last := addr + cnt - 1
  if cnt = 0 then (s, errOk)
  else
    match addr2info banks addr, addr2info banks last with
    | some infoFirst, some infoLast =>
      let range := (banks.drop infoFirst).take (infoLast + 1 - infoFirst)
      if range.any fun info => info.hitsProtected addr last then (s, errProtected)
      else flashWriteBanks writeBuff range src addr cnt s
    | _, _ => (s, errInval)

end Write

end Flash
end EmevBsp
