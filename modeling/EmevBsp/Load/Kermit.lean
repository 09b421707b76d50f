import EmevBsp.Library.TransitionSystem
import Mathlib.Data.UInt
import Mathlib.Logic.Function.Basic

/-!
# `common/cmd_load.c`: `k_recv`

The receiver of the Kermit protocol stores the data of a packet as it comes in, when nothing is
known yet of its checksum.  So it remembers where a packet began: when the sequence number has been
read, the state is saved if the number is new, and restored if it is the last one again.  At an
error the state is restored.

The line is the list of the characters to come, and a receiver that waits for more of them waits
for ever.  `char` is unsigned, and addresses are distances from the load address.
-/

namespace EmevBsp
namespace Kermit

/-! ## Characters -/

abbrev startChar : UInt8 := 0x01
abbrev etxChar : UInt8 := 0x03
abbrev endChar : UInt8 := 0x0d
abbrev kEscape : UInt8 := 0x23

/-- `'S'` -/
abbrev sendType : UInt8 := 83

/-- `'D'` -/
abbrev dataType : UInt8 := 68

/-- `'Y'` -/
abbrev ackType : UInt8 := 89

/-- `'N'` -/
abbrev nackType : UInt8 := 78

/-- `'B'` -/
abbrev breakType : UInt8 := 66

def tochar (x : ℕ) : UInt8 := UInt8.ofNat (x + 0x20)

def untochar (x : UInt8) : ℕ := (x - 0x20).toNat

/-- "converts escaped kermit char to binary char" -/
def ktrans (c : UInt8) : UInt8 :=
  if c &&& 0x60 = 0x40 then c &&& ~~~0x40
  else if c &&& 0x7f = 0x3f then c ||| 0x40
  else c

/-- "If a character less than SPACE (0x20) is received - error." -/
def isControl (c : UInt8) : Bool := c &&& 0xe0 == 0

/-- The check of the characters with this sum. -/
def checkOf (total : ℕ) : ℕ := (total + total / 64 % 4) % 64

/-- The check of a string. -/
def chk1 (buffer : List UInt8) : ℕ := checkOf ((buffer.takeWhile (· ≠ 0)).map UInt8.toNat).sum

/-! ## The receiver -/

/-- The variables.  `addr` is the distance of `os_data_addr` from the load address, and `lastN` is
`none` for -1.  `os_data_state` is always 0. -/
structure Receiver where
  hisEol : UInt8
  hisPadCount : ℕ
  hisPadChar : UInt8
  hisQuote : UInt8
  kState : UInt8
  kStateSaved : UInt8
  escape : Bool
  escapeSaved : Bool
  addr : ℕ
  addrSaved : ℕ
  memory : ℕ → UInt8
  sendParms : ℕ → UInt8
  sendPtr : ℕ
  n : ℕ
  lastN : Option ℕ

namespace Receiver

variable (r : Receiver)

/-- `bin_data_char` -/
def osDataChar (c : UInt8) : Receiver :=
  { r with memory := Function.update r.memory r.addr c, addr := r.addr + 1 }

def kDataChar (c : UInt8) : Receiver :=
  if r.escape then { r.osDataChar (ktrans c) with escape := false }
  else if c = r.hisQuote then { r with escape := true }
  else r.osDataChar c

/-- `k_data_save`, and `k_state_saved`. -/
def save : Receiver :=
  { r with kStateSaved := r.kState, escapeSaved := r.escape, addrSaved := r.addr }

/-- `k_data_restore`, and `k_state`. -/
def restore : Receiver :=
  { r with kState := r.kStateSaved, escape := r.escapeSaved, addr := r.addrSaved }

/-- "check sequence numbers for retried packets" -/
def checkSequence (n : ℕ) : Receiver :=
  if r.lastN = some n then { r.restore with n := n }
  else { r.save with n := n, lastN := some n }

/-- "save send pack in buffer as is"; the buffer has 20 places. -/
def saveParm (c : UInt8) : Receiver :=
  { r with
    sendParms := Function.update r.sendParms r.sendPtr c
    sendPtr := if 20 ≤ r.sendPtr + 1 then r.sendPtr else r.sendPtr + 1 }

/-- A character of the data field. -/
def packetChar (c : UInt8) : Receiver :=
  if r.kState = dataType then r.kDataChar c
  else if r.kState = sendType then r.saveParm c
  else r

/-- The packet `a_b`, as it is sent behind the padding. -/
def reply (type : UInt8) (data : List UInt8) : List UInt8 :=
  let field := tochar (3 + data.length) :: tochar r.n :: type :: data
  List.replicate r.hisPadCount r.hisPadChar ++
    (startChar :: field ++ [tochar (chk1 field), r.hisEol]).takeWhile (· ≠ 0)

def sendAck : List UInt8 := r.reply ackType []

def sendNack : List UInt8 := r.reply nackType []

/-- What the acknowledgement of the parameters may hold, from MAXL on. -/
def ackParms : List UInt8 :=
  [tochar 94, tochar 1, tochar 0, 0x40, tochar endChar.toNat, 0x23, 0x4e, 0x31, 0x4e, tochar 2,
    tochar 0, tochar 94, tochar 94]

/-- `handle_send_packet`: the receiver, and what it sends.  The last character of a buffer that is
full is ignored, and the four characters from CAPAS on go together. -/
def handleSendPacket : Receiver × List UInt8 :=
  let bytes := if r.sendPtr = 19 then 18 else r.sendPtr
  let r := { r with
    hisPadCount := if 3 ≤ bytes then untochar (r.sendParms 2) else 0
    hisPadChar := if 4 ≤ bytes then ktrans (r.sendParms 3) else 0
    hisEol := if 5 ≤ bytes then r.sendParms 4 - 0x20 else endChar
    hisQuote := if 6 ≤ bytes then r.sendParms 5 else kEscape }
  (r, r.reply ackType (if bytes < 10 then ackParms.take bytes else ackParms))

/-- What is done behind a good packet. -/
def accept : Receiver × List UInt8 :=
  if r.kState = sendType then r.handleSendPacket else (r, r.sendAck)

/-- The variables before the main loop. -/
def fresh : Receiver :=
  { r with
    hisEol := endChar
    hisPadCount := 0
    hisPadChar := 0
    hisQuote := kEscape
    kState := 0
    kStateSaved := 0
    escape := false
    escapeSaved := false
    addr := 0
    addrSaved := 0
    n := 0
    lastN := none }

end Receiver

/-! ## A packet -/

/-- The type and the data field of a packet. -/
structure Message where
  type : UInt8
  data : List UInt8
deriving DecidableEq

/-- A packet as it was received: the sequence number, when it was read, and what was accepted. -/
structure Reception where
  seq : Option ℕ
  accepted : Option Message

/-- The receiver behind a packet, what is left of the line, and what was answered. -/
structure PacketEnd where
  receiver : Receiver
  rest : List UInt8
  answer : List UInt8
  reception : Reception

def packetError (r : Receiver) (line : List UInt8) : PacketEnd :=
  ⟨r.restore, line, r.restore.sendNack, none, none⟩

/-- A character that must not be a control character. -/
def getGood (r : Receiver) (line : List UInt8) (next : UInt8 → List UInt8 → Option PacketEnd) :
    Option PacketEnd :=
  match line with
  | [] => none
  | c :: line => if isControl c then some (packetError r line) else next c line

/-- "get and validate checksum character", and `END_CHAR`. -/
def recvEnd (r : Receiver) (sum : ℕ) (data line : List UInt8) : Option PacketEnd :=
  getGood r line fun c line =>
    if c ≠ tochar (checkOf sum) then some (packetError r line)
    else
      match line with
      | [] => none
      | c :: line =>
        if c ≠ endChar then some (packetError r line)
        else some ⟨r.accept.1, line, r.accept.2, none, some ⟨r.kState, data⟩⟩

/-- "bring in rest of packet": `left` characters, behind those of `data`. -/
def recvData : ℕ → Receiver → ℕ → List UInt8 → List UInt8 → Option PacketEnd
  | 0, r, sum, data, line => recvEnd r sum data line
  | left + 1, r, sum, data, line =>
    getGood r line fun c line =>
      recvData left (r.packetChar c) (sum + c.toNat) (data ++ [c]) line

/-- "get the two length bytes", and "check header checksum". -/
def recvLong (r : Receiver) (sum : ℕ) (line : List UInt8) : Option PacketEnd :=
  getGood r line fun hi line =>
    getGood r line fun lo line =>
      getGood r line fun c line =>
        let sum := sum + hi.toNat + lo.toNat
        if c ≠ tochar (checkOf sum) then some (packetError r line)
        else recvData (untochar hi * 95 + untochar lo - 1) r (sum + c.toNat) [] line

/-- "get packet type"; a length of 0 is an extended one. -/
def recvType (r : Receiver) (sum length : ℕ) (line : List UInt8) : Option PacketEnd :=
  getGood r line fun c line =>
    if length = 0 then recvLong { r with kState := c } (sum + c.toNat) line
    else recvData (length - 3) { r with kState := c } (sum + c.toNat) [] line

/-- A packet, from `START` on. -/
def recvPacket (r : Receiver) (line : List UInt8) : Option PacketEnd :=
  getGood r line fun length line =>
    getGood r line fun seq line =>
      (recvType (r.checkSequence (untochar seq)) (length.toNat + seq.toNat) (untochar length)
        line).map fun e => { e with reception.seq := some (untochar seq) }

/-! ## The main loop -/

/-- "wait for the starting character or ^C": the line behind the one, or `none` at the other. -/
def findStart : List UInt8 → Option (Option (List UInt8))
  | [] => none
  | c :: line =>
    if c = startChar then some (some line)
    else if c = etxChar then some none
    else findStart line

/-- How the receiver ends. -/
inductive Ending where
  | broken
  | cancelled
deriving DecidableEq

/-- What is left at the end. -/
structure Download where
  ending : Ending
  receiver : Receiver
  sent : List UInt8
  receptions : List Reception

/-- The main loop: the receiver, the line, what was sent, and the record of the packets. -/
structure KLoop where
  receiver : Receiver
  line : List UInt8
  sent : List UInt8
  receptions : List Reception

/-- The loop that waits for a character that does not come. -/
inductive Stuck where
  | waits

/-- One round of the main loop, which ends behind a break packet. -/
def recvRound (s : KLoop) : Except Stuck (KLoop ⊕ Download) :=
  match findStart s.line with
  | none => .error .waits
  | some none => .ok (.inr ⟨.cancelled, s.receiver, s.sent, s.receptions⟩)
  | some (some rest) =>
    match recvPacket { s.receiver with sendPtr := 0 } rest with
    | none => .error .waits
    | some e =>
      let sent := s.sent ++ e.answer
      let receptions := s.receptions ++ [e.reception]
      if e.reception.accepted.any (·.type = breakType) then
        .ok (.inr ⟨.broken, e.receiver, sent, receptions⟩)
      else .ok (.inl ⟨e.receiver, e.rest, sent, receptions⟩)

/-- `k_recv`, for `n` packets at most. -/
def kRecv (r : Receiver) (line : List UInt8) (n : ℕ) : Option (Except Stuck Download) :=
  Rounds.rounds recvRound n ⟨r.fresh, line, [], []⟩

/-- What `k_recv` returns. -/
def Download.size (d : Download) : ℕ :=
  match d.ending with
  | .broken => d.receiver.addr
  | .cancelled => 0

end Kermit
end EmevBsp
