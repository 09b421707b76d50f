import EmevBsp.LibGeneric.Vsprintf
import EmevBsp.Net.NetLoop
import Mathlib.Data.BitVec

/-!
# `net/tftp.c`

The TFTP client of the boot loader in the unicast build, with memory as the destination:
neither `CONFIG_MCAST_TFTP` nor `CONFIG_SYS_DIRECT_FLASH_TFTP`.  `CONFIG_TFTP_PORT` and
`CONFIG_NET_RETRY_COUNT` are not set.

A function that sends returns the datagrams it passes to `NetSendUDPPacket` next to the new
state.  The state holds the static variables of the file and the globals the functions use;
`ulong` is 32 bits wide, and memory is a function of the address.  The addresses of the hosts
and what is printed are left out.
-/

namespace EmevBsp
namespace Tftp

open Net

/-- `ulong` and `unsigned`. -/
abbrev ULong := BitVec 32

def wellKnownPort : ℕ := 69

/-- `TIMEOUT`, in milliseconds. -/
def timeout : ℕ := 5000

/-- `TIMEOUT_COUNT`. -/
def timeoutCountDefault : ℕ := 10

/-- `TFTP_RRQ`. -/
def opRrq : ℕ := 1

/-- `TFTP_DATA`. -/
def opData : ℕ := 3

/-- `TFTP_ACK`. -/
def opAck : ℕ := 4

/-- `TFTP_ERROR`. -/
def opError : ℕ := 5

/-- `TFTP_OACK`. -/
def opOack : ℕ := 6

def tftpBlockSize : BitVec 16 := 512

def tftpSequenceSize : ULong := 65536

/-- `MAX_LEN`, the size of `tftp_filename`. -/
def maxLen : ℕ := 128

/-- The values of `TftpState`. -/
inductive TftpState where
  | rrq
  | data
  | tooLarge
  | badMagic
  | oack
  deriving DecidableEq

/-- The static variables of tftp.c and the globals it works on. -/
structure Client where
  timeoutMSecs : ℕ
  timeoutCountMax : ℕ
  rrqTimeoutMSecs : ℕ
  rrqTimeoutCountMax : ℕ
  serverPort : ℕ
  ourPort : ℕ
  timeoutCount : ℕ
  block : ULong
  lastBlock : ULong
  blockWrap : ULong
  blockWrapOffset : ULong
  state : TftpState
  filename : List UInt8
  blkSize : BitVec 16
  blkSizeOption : BitVec 16
  bootFile : List UInt8
  netOurIP : ULong
  loadAddr : ULong
  memory : ULong → UInt8
  netBootFileXferSize : ULong
  net : NetLoop

/-! ## Strings -/

/-- `"octet"`. -/
def octetText : List UInt8 := [111, 99, 116, 101, 116]

/-- `"timeout"`. -/
def timeoutText : List UInt8 := [116, 105, 109, 101, 111, 117, 116]

/-- `"blksize"`. -/
def blksizeText : List UInt8 := [98, 108, 107, 115, 105, 122, 101]

/-- `"File too large"`. -/
def tooLargeText : List UInt8 :=
  [70, 105, 108, 101, 32, 116, 111, 111, 32, 108, 97, 114, 103, 101]

/-- `"File has bad magic"`. -/
def badMagicText : List UInt8 :=
  [70, 105, 108, 101, 32, 104, 97, 115, 32, 98, 97, 100, 32, 109, 97, 103, 105, 99]

/-- `".img"`. -/
def imgText : List UInt8 := [46, 105, 109, 103]

/-- One digit of `%X`. -/
def hexDigit (d : ℕ) : UInt8 := if d < 10 then UInt8.ofNat (48 + d) else UInt8.ofNat (55 + d)

/-- `%02lX` of a byte. -/
def hexByte (n : ℕ) : List UInt8 := [hexDigit (n / 16), hexDigit (n % 16)]

/-- `default_filename`: our address in hexadecimal. -/
def defaultFilename (ip : ULong) : List UInt8 :=
  hexByte (ip &&& 0xFF).toNat ++ hexByte ((ip >>> 8) &&& 0xFF).toNat ++
    hexByte ((ip >>> 16) &&& 0xFF).toNat ++ hexByte ((ip >>> 24) &&& 0xFF).toNat ++ imgText

/-- The file name `TftpStart` asks for: what stands behind the first `:` of `BootFile`. -/
def tftpFilename (t : Client) : List UInt8 :=
  let name :=
    if t.bootFile = [] then defaultFilename t.netOurIP
    else if 58 ∈ t.bootFile then (t.bootFile.dropWhile (· ≠ 58)).tail
    else t.bootFile
  name.take (maxLen - 1)

/-! ## Sending -/

/-- What `TftpSend` puts in the packet. -/
def packetOf (t : Client) : List UInt8 :=
  match t.state with
  | .rrq =>
    htons opRrq ++ t.filename ++ 0 :: octetText ++ 0 :: timeoutText ++
      0 :: decimal (timeout / 1000) ++ 0 :: blksizeText ++ 0 :: decimal t.blkSizeOption.toNat ++ [0]
  | .oack | .data => htons opAck ++ htons t.block.toNat
  | .tooLarge => htons opError ++ htons 3 ++ tooLargeText ++ [0]
  | .badMagic => htons opError ++ htons 2 ++ badMagicText ++ [0]

def tftpSend (t : Client) : List UdpPacket := [⟨t.serverPort, t.ourPort, packetOf t⟩]

/-! ## Storing -/

/-- `memcpy` to memory. -/
def memcpy (memory : ULong → UInt8) (dst : ULong) (src : List UInt8) : ULong → UInt8 := fun a =>
  if h : (a - dst).toNat < src.length then src[(a - dst).toNat] else memory a

def storeBlock (t : Client) (block : ULong) (src : List UInt8) : Client :=
  let offset := block * t.blkSize.setWidth 32 + t.blockWrapOffset
  let newsize := offset + BitVec.ofNat 32 src.length
  { t with
    memory := memcpy t.memory (t.loadAddr + offset) src
    netBootFileXferSize :=
      if t.netBootFileXferSize < newsize then newsize else t.netBootFileXferSize }

/-! ## Receiving -/

/-- The loop that looks for the option `blksize`, at the places `i` with `i + 8 < len`. -/
def oackBlksize : List UInt8 → Option (BitVec 16)
  | [] => none
  | c :: pkt =>
    if 8 < (c :: pkt).length then
      if strcmp (c :: pkt) blksizeText = 0 then
        some (BitVec.ofNat 16 (simpleStrtoul ((c :: pkt).drop 8) 10).1)
      else oackBlksize pkt
    else none

/-- `case TFTP_OACK`. -/
def handleOack (t : Client) (src : ℕ) (pkt : List UInt8) : Client × List UdpPacket :=
  let t :=
    { t with state := .oack, serverPort := src, blkSize := (oackBlksize pkt).getD t.blkSize }
  (t, tftpSend t)

/-- The new block is not the last one again. -/
def newBlock (t : Client) : Client :=
  { t with
    lastBlock := t.block
    timeoutMSecs := timeout
    timeoutCountMax := timeoutCountDefault
    net := t.net.netSetTimeout .tftpTimeout }

/-- `case TFTP_DATA` from the comparison with `TftpLastBlock` on. -/
def acceptBlock (t : Client) (data : List UInt8) : Client × List UdpPacket :=
  if t.block = t.lastBlock then (t, [])
  else
    let t := storeBlock (newBlock t) (t.block - 1) data
    let sent := tftpSend t
    if data.length < t.blkSize.toNat then ({ t with net.netState := .success }, sent)
    else (t, sent)

/-- `TftpBlock` is read from the packet; zero means that it has wrapped around. -/
def readBlock (t : Client) (block : ULong) : Client :=
  if block = 0 then
    { t with
      block := block
      blockWrap := t.blockWrap + 1
      blockWrapOffset := t.blockWrapOffset + t.blkSize.setWidth 32 * tftpSequenceSize }
  else { t with block := block }

/-- The first block has been received. -/
def firstBlock (t : Client) (src : ℕ) : Client :=
  { t with
    state := .data
    serverPort := src
    lastBlock := 0
    blockWrap := 0
    blockWrapOffset := 0 }

/-- `NetStartAgain`. -/
def startAgain (t : Client) : Client := { t with net := t.net.netStartAgain }

/-- `case TFTP_DATA`. -/
def handleData (t : Client) (src : ℕ) : List UInt8 → Client × List UdpPacket
  | hi :: lo :: data =>
    let t := readBlock t (BitVec.ofNat 32 (ntohs hi lo))
    if t.state = .rrq ∨ t.state = .oack then
      let t := firstBlock t src
      if t.block ≠ 1 then (startAgain t, []) else acceptBlock t data
    else acceptBlock t data
  | _ => (t, [])

/-- The payload has length `len`. -/
def tftpHandler (t : Client) (pkt : List UInt8) (dest src : ℕ) : Client × List UdpPacket :=
  if dest ≠ t.ourPort then (t, [])
  else if t.state ≠ .rrq ∧ src ≠ t.serverPort then (t, [])
  else
    match pkt with
    | hi :: lo :: pkt =>
      let proto := ntohs hi lo
      if proto = opOack then handleOack t src pkt
      else if proto = opData then handleData t src pkt
      else if proto = opError then (startAgain t, [])
      else (t, [])
    | _ => (t, [])

def tftpTimeout (t : Client) : Client × List UdpPacket :=
  let t := { t with timeoutCount := t.timeoutCount + 1 }
  if t.timeoutCount > t.timeoutCountMax then (startAgain t, [])
  else
    let t := { t with net := t.net.netSetTimeout .tftpTimeout }
    (t, tftpSend t)

/-- `TftpStart`; `now` is `get_timer(0)`. -/
def tftpStart (t : Client) (now : ℕ) : Client × List UdpPacket :=
  let t :=
    { t with
      filename := tftpFilename t
      timeoutMSecs := t.rrqTimeoutMSecs
      timeoutCountMax := t.rrqTimeoutCountMax
      net := (t.net.netSetTimeout .tftpTimeout).netSetHandler .tftpHandler
      serverPort := wellKnownPort
      timeoutCount := 0
      state := .rrq
      ourPort := 1024 + now % 3072
      block := 0
      blkSize := tftpBlockSize }
  (t, tftpSend t)

/-! ## The calls made by `NetLoop` -/

/-- `NetLoop` up to its reception loop, for the protocol `TFTP`. -/
def netLoopStart (t : Client) (now : ℕ) : Client × List UdpPacket :=
  let (t, sent) := tftpStart { t with net.netState := .continue } now
  ({ t with netBootFileXferSize := 0 }, sent)

/-- A received datagram, while the loop runs. -/
def netReceiveUdp (t : Client) (p : UdpPacket) : Client × List UdpPacket :=
  if t.net.listens .tftpHandler then tftpHandler t p.data p.dest p.src else (t, [])

/-- The timer has run out, while the loop runs. -/
def netTimeout (t : Client) : Client × List UdpPacket :=
  if t.net.netState = .continue then
    let t' := { t with net.timeHandler := none }
    match t.net.timeHandler with
    | none => (t, [])
    | some .startAgainTimeout => ({ t' with net := t'.net.startAgainTimeout }, [])
    | some .tftpTimeout => tftpTimeout t'
  else (t, [])

end Tftp
end EmevBsp
