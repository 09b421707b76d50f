import EmevBsp.Library.BlockPort
import EmevBsp.Mmc.Mmc

/-!
# `mini-boot/mmc/sdio.c` and `sdc.c`: writing blocks

The two drivers behind `hw_if`, as far as they write blocks, and the controllers they talk to.  A
controller is a port to the blocks of its card: a command with data opens a transfer, the data
register takes four bytes (`sdio.c`) or two (`sdc.c`), and the status shows that a block is wanted
and that the transfer is over.  A status shows what happened some reads later, at most `pause` of
them.  No transfer fails: no error bit is ever set, and the branches of the drivers for one are
here without the reset of the controller.

`acc_mode` is the way the card is addressed, so it is a register of the controllers here.  The
commands are sent with `MMC_RSP_R1` and without a place for the response.
-/

namespace EmevBsp
namespace Mmc

/-! ## The memory -/

/-- The bytes of the memory. -/
abbrev Memory : Type := Word → BitVec 8

/-- A word of the memory, the low byte first. -/
def Memory.word (mem : Memory) (p : Word) : Word :=
  (mem p).setWidth 32 ||| (mem (p + 1)).setWidth 32 <<< 8 ||| (mem (p + 2)).setWidth 32 <<< 16 |||
    (mem (p + 3)).setWidth 32 <<< 24

/-- A half word of the memory. -/
def Memory.half (mem : Memory) (p : Word) : BitVec 16 :=
  (mem p).setWidth 16 ||| (mem (p + 1)).setWidth 16 <<< 8

/-- `MMC_BLOCKLEN_VAL` bytes of the memory. -/
def Memory.block (mem : Memory) (p : Word) : List (BitVec 8) :=
  (List.range 512).map fun i => mem (p + BitVec.ofNat 32 i)

/-- The block of an address: `acc_mode` is set for a card that is addressed by block. -/
def blockOfArg (accMode : Bool) (arg : Word) : ℕ :=
  if accMode then arg.toNat else arg.toNat / 512

/-- The address of a block. -/
def argOfBlock (accMode : Bool) (addr : Word) : Word :=
  if accMode then addr else addr * mmcBlockLen

/-- A block loop of a driver, with the pointer into the buffer: a round gives up or goes on. -/
def blockLoop {σ : Type} (round : Word → σ → Option (Bool × Word × σ)) :
    ℕ → Word → σ → Option (Bool × σ)
  | 0, _, s => some (true, s)
  | n + 1, p, s =>
    (round p s).bind fun (ok, p', s') =>
      if ok then blockLoop round n p' s' else some (false, s')

/-! ## The controller of `sdio.c` -/

namespace Sdio

/-- The registers; `late` is the number of reads of a status until it shows. -/
structure Regs where
  block : Word
  arg : Word
  modeCmd : Word
  intSts : Word
  accMode : Bool
  late : ℕ
  pause : ℕ

abbrev Host : Type := Port Regs (BitVec 8)

inductive Reg where
  | block | arg | modeCmd | buf | state | intSts

/-- `SDIO_INT_CMDCOMP`, `SDIO_INT_TRANCOMP`, `SDIO_INT_WREADY`, `SDIO_INT_ALLERR` and
`SDIO_INT_CMD_TOUT` -/
def intCmdcomp : Word := 1 <<< 0
def intTrancomp : Word := 1 <<< 1
def intWready : Word := 1 <<< 4
def intAllerr : Word := 0x017f8000
def intCmdTout : Word := 1 <<< 16

/-- `SDIO_STATE_WREN` -/
def stateWren : Word := 1 <<< 10

/-- `SDIO_CMD_DATA`, `SDIO_MODE_READ` and `SDIO_MODE_MULTI` -/
def cmdData : Word := 1 <<< 21
def modeRead : Word := 1 <<< 4
def modeMulti : Word := 1 <<< 5

/-- `SDIO_MODE_ACMD12 | SDIO_MODE_MULTI | SDIO_MODE_BLK_COUNT_EN` -/
def modeMultiCount : Word := 1 <<< 2 ||| modeMulti ||| 1 <<< 1

/-- `SDIO_CMD_CRC_CHK | SDIO_CMD_INDEX_CHK | SDIO_CMD_RESP_48` -/
def cmdR1 : Word := 1 <<< 19 ||| 1 <<< 20 ||| 2 <<< 16

/-- A block was stored, `left` are still wanted. -/
def blockDone (left : ℕ) (r : Regs) : Regs :=
  { r with
    intSts := r.intSts ||| (if left = 0 then intTrancomp else intWready)
    late := r.pause }

/-- The blocks a command wants: one, or the number in the high half of `SDIO_BLOCK`. -/
def wanted (r : Regs) (cmd : Word) : ℕ :=
  if cmd &&& cmdData = 0 ∨ cmd &&& modeRead ≠ 0 then 0
  else if cmd &&& modeMulti = 0 then 1
  else (r.block >>> 16).toNat

/-- A command is started. -/
def start (s : Host) (cmd : Word) : Host :=
  { s with
    regs := { s.regs with
      modeCmd := cmd
      intSts := s.regs.intSts ||| intCmdcomp |||
        (if wanted s.regs cmd = 0 then 0 else intWready)
      late := s.regs.pause }
    next := blockOfArg s.regs.accMode s.regs.arg
    left := wanted s.regs cmd
    fifo := [] }

/-- The low bits of `SDIO_BLOCK` are the length of a block. -/
def blockLen (r : Regs) : ℕ := (r.block &&& 0xfff).toNat

/-- A word at the data register. -/
def wordBytes (v : Word) : List (BitVec 8) :=
  [v.extractLsb' 0 8, v.extractLsb' 8 8, v.extractLsb' 16 8, v.extractLsb' 24 8]

/-- One read less until the status shows. -/
def sooner (s : Host) : Host :=
  { s with regs := { s.regs with late := s.regs.late - 1 } }

def sdioRead (reg : Reg) (s : Host) : Word × Host :=
  match reg with
  | .block => (s.regs.block, s)
  | .arg => (s.regs.arg, s)
  | .modeCmd => (s.regs.modeCmd, s)
  | .buf => (0, s)
  | .state =>
    if s.regs.late = 0 then (if s.left = 0 then 0 else stateWren, s) else (0, sooner s)
  | .intSts => if s.regs.late = 0 then (s.regs.intSts, s) else (0, sooner s)

/-- `sdio_write`; a one clears a bit of the status. -/
def sdioWrite (val : Word) (reg : Reg) (s : Host) : Host :=
  match reg with
  | .block => { s with regs := { s.regs with block := val } }
  | .arg => { s with regs := { s.regs with arg := val } }
  | .modeCmd => start s val
  | .buf => s.put (blockLen s.regs) blockDone (wordBytes val)
  | .state => s
  | .intSts => { s with regs := { s.regs with intSts := s.regs.intSts &&& ~~~val } }

/-! ### The driver -/

/-- The loop of `sdio_wait_response`. -/
def lookResponse (s : Host) : Option Unit × Host :=
  let (val, s) := sdioRead .intSts s
  if val &&& intCmdcomp ≠ 0 then (some (), s)
  else
    let (val, s) := sdioRead .intSts s
    if val &&& intAllerr ≠ 0 then (some (), s) else (none, s)

def sdioWaitResponse (fuel : ℕ) (s : Host) : Option (Word × Host) :=
  (poll lookResponse fuel s).map fun (_, s) =>
    let (intStatus, s) := sdioRead .intSts s
    let ret := intStatus &&& intAllerr
    if ret ≠ 0 then (if ret &&& intCmdTout ≠ 0 then 0x40 else ret, s)
    else
      let (val, s) := sdioRead .modeCmd s
      (0, sdioWrite (if val &&& cmdData ≠ 0 then intCmdcomp else intStatus) .intSts s)

/-- The bits of a command in `sdio_send_cmd`. -/
def cmdBits (cmd : Word) : Word :=
  if cmd = 8 ∨ cmd = 17 then cmdData ||| modeRead
  else if cmd = 18 then cmdData ||| modeRead ||| modeMultiCount
  else if cmd = 24 then cmdData
  else if cmd = 25 then cmdData ||| modeMultiCount
  else 0

/-- `sdio_send_cmd`, for a command that does not end in a wait for the card. -/
def sdioSendCmd (fuel : ℕ) (cmd arg : Word) (s : Host) : Option (Word × Host) :=
  let s := sdioWrite 0xffffffff .intSts s
  let s := sdioWrite arg .arg s
  let s := sdioWrite ((cmd &&& 0x3f) <<< 24 ||| cmdR1 ||| cmdBits cmd) .modeCmd s
  sdioWaitResponse fuel s

/-- The loop that waits for `SDIO_INT_WREADY`. -/
def lookWready (s : Host) : Option Word × Host :=
  let (intStatus, s) := sdioRead .intSts s
  if intStatus &&& (intWready ||| intAllerr) ≠ 0 then (some intStatus, s) else (none, s)

/-- The loop that waits for `SDIO_STATE_WREN`: the result is false at an error. -/
def lookWren (s : Host) : Option Bool × Host :=
  let (val, s) := sdioRead .state s
  if val &&& stateWren ≠ 0 then (some true, s)
  else
    let (intStatus, s) := sdioRead .intSts s
    if intStatus &&& intAllerr ≠ 0 then (some false, s) else (none, s)

/-- The loop that waits for `SDIO_INT_TRANCOMP`: no status is the result at an error. -/
def lookEnd (s : Host) : Option (Option Word) × Host :=
  let (intStatus, s) := sdioRead .intSts s
  if intStatus &&& intAllerr ≠ 0 then (some none, s)
  else if intStatus &&& intTrancomp ≠ 0 then (some (some intStatus), s)
  else (none, s)

/-- The end of a write; the first status is not looked at for an error. -/
def waitEnd (fuel : ℕ) (s : Host) : Option (Word × Host) :=
  let (intStatus, s) := sdioRead .intSts s
  if intStatus &&& intTrancomp ≠ 0 then some (0, sdioWrite intStatus .intSts s)
  else
    (poll lookEnd fuel s).map fun (r, s) =>
      r.elim (-1, s) fun intStatus => (0, sdioWrite intStatus .intSts s)

/-- `sdio_write(*tmp_buf++, SDIO_BUF)`, for `n` words. -/
def bufLoop (mem : Memory) : ℕ → Word → Host → Word × Host
  | 0, p, s => (p, s)
  | n + 1, p, s => bufLoop mem n (p + 4) (sdioWrite (mem.word p) .buf s)

/-- `sdio_write(0, SDIO_BUF)`, for `n` words. -/
def clearLoop : ℕ → Host → Host
  | 0, s => s
  | n + 1, s => clearLoop n (sdioWrite 0 .buf s)

def sdioSingleWrite (fuel : ℕ) (mem : Memory) (addr buf : Word) (s : Host) :
    Option (Word × Host) :=
  (sdioSendCmd fuel 24 (argOfBlock s.regs.accMode addr) s).bind fun (ret, s) =>
    if ret ≠ 0 then some (ret, s)
    else
      (poll lookWready fuel s).bind fun (intStatus, s) =>
        let s := sdioWrite intWready .intSts s
        if intStatus &&& intAllerr ≠ 0 then some (-1, s)
        else waitEnd fuel (if buf ≠ 0 then (bufLoop mem 128 buf s).2 else clearLoop 128 s)

/-- A round of the block loop of `sdio_multi_write`. -/
def multiRound (fuel : ℕ) (mem : Memory) (buf tmpBuf : Word) (s : Host) :
    Option (Bool × Word × Host) :=
  (poll lookWren fuel s).map fun (ok, s) =>
    if !ok then (false, tmpBuf, s)
    -- the two branches of the source are the same
    else if buf ≠ 0 then (true, bufLoop mem 128 tmpBuf s)
    else (true, bufLoop mem 128 tmpBuf s)

def sdioMultiWrite (fuel : ℕ) (mem : Memory) (addr buf num : Word) (s : Host) :
    Option (Word × Host) :=
  let (val, s) := sdioRead .block s
  let s := sdioWrite (val &&& (0xffff : Word) ||| num <<< 16) .block s
  (sdioSendCmd fuel 25 (argOfBlock s.regs.accMode addr) s).bind fun (ret, s) =>
    if ret ≠ 0 then some (ret, s)
    else
      (poll lookWready fuel s).bind fun (intStatus, s) =>
        let s := sdioWrite intWready .intSts s
        if intStatus &&& intAllerr ≠ 0 then some (-1, s)
        else
          (blockLoop (multiRound fuel mem buf) num.toInt.toNat buf s).bind fun (ok, s) =>
            if !ok then some (-1, s) else waitEnd fuel s

end Sdio

/-! ## The controller of `sdc.c` -/

namespace Sdc

/-- The registers; `secBits` is the number of bits that `SDM_SECCNT` has. -/
structure Regs where
  arg0 : Word
  arg1 : Word
  stop : Word
  seccnt : Word
  size : Word
  info1 : Word
  info2 : Word
  secBits : ℕ
  accMode : Bool
  late : ℕ
  pause : ℕ

abbrev Host : Type := Port Regs (BitVec 8)

inductive Reg where
  | cmd | arg0 | arg1 | stop | seccnt | info1 | info2 | buf0

/-- `SDM_INFO1_RES_END`, `SDM_INFO1_RES_RW_END`, `SDM_INFO2_BWE_BIT`, `SDM_INFO2_ERR_ALL` and
`SDM_STOP_SEC_BIT` -/
def info1ResEnd : Word := 0x0001
def info1ResRwEnd : Word := 0x0004
def info2Bwe : Word := 0x0200
def info2ErrAll : Word := 0x807f
def stopSec : Word := 0x0100

/-- A block was stored, `left` are still wanted. -/
def blockDone (left : ℕ) (r : Regs) : Regs :=
  if left = 0 then { r with info1 := r.info1 ||| info1ResRwEnd, late := r.pause }
  else { r with info2 := r.info2 ||| info2Bwe, late := r.pause }

/-- The blocks a command wants: bit 11 is a command with data, bit 12 a read and bit 13 a command
with the number of blocks that `SDM_SECCNT` holds, where `SDM_STOP` has it used. -/
def wanted (r : Regs) (cmd : Word) : ℕ :=
  if cmd &&& 0x0800 = 0 ∨ cmd &&& 0x1000 ≠ 0 then 0
  else if cmd &&& 0x2000 = 0 then 1
  else if r.stop &&& stopSec = 0 then 0
  else r.seccnt.toNat % 2 ^ r.secBits

/-- A command is started. -/
def start (s : Host) (cmd : Word) : Host :=
  { s with
    regs := { s.regs with
      info1 := s.regs.info1 ||| info1ResEnd
      info2 := s.regs.info2 ||| (if wanted s.regs cmd = 0 then 0 else info2Bwe)
      late := s.regs.pause }
    next := blockOfArg s.regs.accMode (s.regs.arg1 <<< 16 ||| s.regs.arg0)
    left := wanted s.regs cmd
    fifo := [] }

/-- A half word at the data register. -/
def halfBytes (v : Word) : List (BitVec 8) := [v.extractLsb' 0 8, v.extractLsb' 8 8]

/-- One read less until the status shows. -/
def sooner (s : Host) : Host :=
  { s with regs := { s.regs with late := s.regs.late - 1 } }

def inl (reg : Reg) (s : Host) : Word × Host :=
  match reg with
  | .cmd | .buf0 => (0, s)
  | .arg0 => (s.regs.arg0, s)
  | .arg1 => (s.regs.arg1, s)
  | .stop => (s.regs.stop, s)
  | .seccnt => (s.regs.seccnt, s)
  | .info1 => if s.regs.late = 0 then (s.regs.info1, s) else (0, sooner s)
  | .info2 => if s.regs.late = 0 then (s.regs.info2, s) else (0, sooner s)

/-- `outl`; a zero clears a bit of `SDM_INFO1` and `SDM_INFO2`. -/
def outl (val : Word) (reg : Reg) (s : Host) : Host :=
  match reg with
  | .cmd => start s val
  | .arg0 => { s with regs := { s.regs with arg0 := val } }
  | .arg1 => { s with regs := { s.regs with arg1 := val } }
  | .stop => { s with regs := { s.regs with stop := val } }
  | .seccnt => { s with regs := { s.regs with seccnt := val } }
  | .info1 => { s with regs := { s.regs with info1 := s.regs.info1 &&& val } }
  | .info2 => { s with regs := { s.regs with info2 := s.regs.info2 &&& val } }
  | .buf0 => s.put s.regs.size.toNat blockDone (halfBytes val)

/-! ### The driver -/

/-- The loop of `sdc_wait_response`: the result is the error, if there is one. -/
def lookResponse (s : Host) : Option Word × Host :=
  let (val, s) := inl .info1 s
  if val &&& info1ResEnd ≠ 0 then (some 0, s)
  else
    let (val, s) := inl .info2 s
    if val &&& info2ErrAll ≠ 0 then
      (some (val &&& info2ErrAll), outl (val &&& info2ErrAll &&& ~~~info2ErrAll) .info2 s)
    else (none, s)

def sdcWaitResponse (fuel : ℕ) (s : Host) : Option (Word × Host) :=
  (poll lookResponse fuel s).map fun (ret, s) =>
    if ret ≠ 0 then (ret, s)
    else
      let (val, s) := inl .info2 s
      if val &&& info2ErrAll ≠ 0 then
        (val &&& info2ErrAll, outl (val &&& info2ErrAll &&& ~~~info2ErrAll) .info2 s)
      else
        let (val, s) := inl .info1 s
        (0, outl (val &&& ~~~info1ResEnd) .info1 s)

/-- The value for `SDM_CMD`. -/
def cmdBits (cmd : Word) : Word :=
  if cmd = 17 then 0x1800 ||| cmd
  else if cmd = 18 then 0x3800 ||| cmd
  else if cmd = 24 then 0x0800 ||| cmd
  else if cmd = 25 then 0x2800 ||| cmd
  else cmd

/-- `sdc_send_cmd`, for a command that does not end in a wait for the card. -/
def sdcSendCmd (fuel : ℕ) (cmd arg : Word) (s : Host) : Option (Word × Host) :=
  let s := outl 0 .info1 s
  let s := outl 0 .info2 s
  let s := outl (arg &&& 0xffff) .arg0 s
  let s := outl ((arg.sshiftRight 16) &&& 0xffff) .arg1 s
  let s := outl (cmdBits (cmd &&& 0xff)) .cmd s
  sdcWaitResponse fuel s

/-- The loop that waits for `SDM_INFO2_BWE_BIT`. -/
def lookBwe (s : Host) : Option Word × Host :=
  let (info2, s) := inl .info2 s
  if info2 &&& (info2Bwe ||| info2ErrAll) ≠ 0 then (some info2, s) else (none, s)

/-- The loop that waits for `SDM_INFO1_RES_RW_END`: the result is false at an error. -/
def lookEnd (s : Host) : Option Bool × Host :=
  let (val, s) := inl .info1 s
  if val &&& info1ResRwEnd ≠ 0 then (some true, s)
  else
    let (val, s) := inl .info2 s
    if val &&& info2ErrAll ≠ 0 then
      let (val, s) := inl .info2 s
      (some false, outl (val &&& ~~~info2ErrAll) .info2 s)
    else (none, s)

/-- The end of a write. -/
def waitEnd (fuel : ℕ) (s : Host) : Option (Word × Host) :=
  (poll lookEnd fuel s).map fun (ok, s) =>
    if !ok then (-1, s)
    else
      let (val, s) := inl .info1 s
      (0, outl (val &&& ~~~(info1ResEnd ||| info1ResRwEnd)) .info1 s)

/-- `outl(*tmp_buf++, SDM_BUF0)`, for `n` half words. -/
def bufLoop (mem : Memory) : ℕ → Word → Host → Word × Host
  | 0, p, s => (p, s)
  | n + 1, p, s => bufLoop mem n (p + 2) (outl ((mem.half p).setWidth 32) .buf0 s)

/-- `outl(0, SDM_BUF0)`, for `n` half words. -/
def clearLoop : ℕ → Host → Host
  | 0, s => s
  | n + 1, s => clearLoop n (outl 0 .buf0 s)

def sdcSingleWrite (fuel : ℕ) (mem : Memory) (addr buf : Word) (s : Host) :
    Option (Word × Host) :=
  let s := outl 0 .stop s
  (sdcSendCmd fuel 24 (argOfBlock s.regs.accMode addr) s).bind fun (ret, s) =>
    if ret ≠ 0 then some (ret, s)
    else
      (poll lookBwe fuel s).bind fun (info2, s) =>
        if info2 &&& info2ErrAll ≠ 0 then some (-1, outl (info2 &&& ~~~info2ErrAll) .info2 s)
        else waitEnd fuel (if buf ≠ 0 then (bufLoop mem 256 buf s).2 else clearLoop 256 s)

/-- A round of the block loop of `sdc_multi_write`. -/
def multiRound (fuel : ℕ) (mem : Memory) (buf tmpBuf : Word) (s : Host) :
    Option (Bool × Word × Host) :=
  (poll lookBwe fuel s).map fun (info2, s) =>
    if info2 &&& info2ErrAll ≠ 0 then (false, tmpBuf, s)
    else
      let (val, s) := inl .info2 s
      let s := outl (val &&& ~~~info2Bwe) .info2 s
      if buf ≠ 0 then (true, bufLoop mem 256 tmpBuf s)
      else (true, tmpBuf, clearLoop 256 s)

def sdcMultiWrite (fuel : ℕ) (mem : Memory) (addr buf num : Word) (s : Host) :
    Option (Word × Host) :=
  let (val, s) := inl .stop s
  let s := outl (val ||| stopSec) .stop s
  let s := outl num .seccnt s
  (sdcSendCmd fuel 25 (argOfBlock s.regs.accMode addr) s).bind fun (ret, s) =>
    if ret ≠ 0 then some (ret, s)
    else
      (blockLoop (multiRound fuel mem buf) num.toInt.toNat buf s).bind fun (ok, s) =>
        if !ok then some (-1, s) else waitEnd fuel s

end Sdc

end Mmc
end EmevBsp
