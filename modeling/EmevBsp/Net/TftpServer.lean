import EmevBsp.Library.StopAndWait
import EmevBsp.Net.Tftp

/-!
# A TFTP server and the network between it and the client

A server that conforms to the protocol: it answers the first request it gets with an OACK
packet when it acknowledges options, else with DATA number 1, and it sends DATA number `n + 1`
for the first time when it receives ACK number `n`.  It may repeat the packet it sent last, and
may give up with an ERROR packet.  Its block count is unbounded; the packets carry it modulo
`2 ^ 16`.

The client and the server are joined by two channels that lose and duplicate.  A run begins with
`TftpStart`, from any values of the static variables and any memory.
-/

namespace EmevBsp
namespace Tftp

open Net

/-! ## The server -/

/-- An option the server acknowledges. -/
inductive OackOption where
  | timeout (seconds : ℕ)
  | blksize (size : ℕ)
  deriving DecidableEq

/-- The option and its value, each with its terminator. -/
def OackOption.text : OackOption → List UInt8
  | .timeout seconds => timeoutText ++ 0 :: (decimal seconds ++ [0])
  | .blksize size => blksizeText ++ 0 :: (decimal size ++ [0])

/-- The block size among acknowledged options. -/
def acknowledgedBlksize : List OackOption → Option ℕ
  | [] => none
  | .timeout _ :: options => acknowledgedBlksize options
  | .blksize size :: _ => some size

/-- The file a server sends, the options it acknowledges (none, if it sends no OACK), and the
port of the transfer. -/
structure Server where
  file : List UInt8
  options : List OackOption
  tid : ℕ
  blksize_range : ∀ size, acknowledgedBlksize options = some size → 0 < size ∧ size < 2 ^ 16

namespace Server

variable (S : Server)

/-- The block size of the transfer. -/
def blkSize : ℕ := (acknowledgedBlksize S.options).getD 512

/-- The number of DATA packets; the last one is shorter than a block. -/
def blocks : ℕ := S.file.length / S.blkSize + 1

/-- The data of DATA packet number `k + 1`. -/
def chunk (k : ℕ) : List UInt8 := (S.file.drop (k * S.blkSize)).take S.blkSize

/-- The number of OACK packets ahead of the DATA packets. -/
def oacks : ℕ := if S.options = [] then 0 else 1

/-- The packets the server sends in order, OACK included. -/
def payload (i : ℕ) : List UInt8 :=
  if i < S.oacks then htons opOack ++ S.options.flatMap OackOption.text
  else htons opData ++ htons (i + 1 - S.oacks) ++ S.chunk (i - S.oacks)

/-- The block number after `c` of these packets. -/
def number (c : ℕ) : ℕ := c - S.oacks

/-- The number of packets. -/
def total : ℕ := S.blocks + S.oacks

def packet (peer i : ℕ) : UdpPacket := ⟨peer, S.tid, S.payload i⟩

end Server

/-- The number of packets sent so far, and the port of the client. -/
structure ServerState where
  sent : ℕ
  peer : ℕ

/-- The server receives a request or an acknowledgement; it does nothing on any but the one it
waits for. -/
def Server.receive (S : Server) (v : ServerState) (p : UdpPacket) :
    ServerState × List UdpPacket :=
  match p.data with
  | hi :: lo :: rest =>
    if v.sent = 0 then
      if ntohs hi lo = opRrq ∧ p.dest = wellKnownPort then
        (⟨1, p.src⟩, [S.packet p.src 0])
      else (v, [])
    else if ntohs hi lo = opAck ∧ p.dest = S.tid ∧ rest = htons (S.number v.sent) ∧
        v.sent < S.total then
      ({ v with sent := v.sent + 1 }, [S.packet v.peer v.sent])
    else (v, [])
  | _ => (v, [])

/-! ## The network -/

/-- Both parties and what is in flight between them. -/
structure Network where
  client : Client
  server : ServerState
  toServer : List UdpPacket
  toClient : List UdpPacket

/-- What is done in a step. -/
inductive Action where
  | clientReceive
  | clientTimeout
  | serverReceive
  | serverResend
  | serverError
  | network
  deriving DecidableEq

/-- The client has done something: its new state, and what it sent. -/
def Network.clientDid (s : Network) (r : Client × List UdpPacket) : Network :=
  { s with client := r.1, toServer := s.toServer ++ r.2 }

/-- The server has done something. -/
def Network.serverDid (s : Network) (r : ServerState × List UdpPacket) : Network :=
  { s with server := r.1, toClient := s.toClient ++ r.2 }

inductive Step (S : Server) : Network → Action → Network → Prop where
  | clientReceive (s : Network) (p : UdpPacket) (ps : List UdpPacket) : s.toClient = p :: ps →
      Step S s .clientReceive ({ s with toClient := ps }.clientDid (netReceiveUdp s.client p))
  | clientTimeout (s : Network) : Step S s .clientTimeout (s.clientDid (netTimeout s.client))
  | serverReceive (s : Network) (p : UdpPacket) (ps : List UdpPacket) : s.toServer = p :: ps →
      Step S s .serverReceive ({ s with toServer := ps }.serverDid (S.receive s.server p))
  | serverResend (s : Network) : s.server.sent ≠ 0 →
      Step S s .serverResend
        (s.serverDid (s.server, [S.packet s.server.peer (s.server.sent - 1)]))
  | serverError (s : Network) (rest : List UInt8) : s.server.sent ≠ 0 →
      Step S s .serverError
        (s.serverDid (s.server, [⟨s.server.peer, S.tid, htons opError ++ rest⟩]))
  | toServer (s : Network) (ps : List UdpPacket) : Lossy s.toServer ps →
      Step S s .network { s with toServer := ps }
  | toClient (s : Network) (ps : List UdpPacket) : Lossy s.toClient ps →
      Step S s .network { s with toClient := ps }

/-- `NetLoop` has called `TftpStart`. -/
def Network.start (t : Client) (now : ℕ) : Network :=
  let (t, sent) := netLoopStart t now
  ⟨t, ⟨0, 0⟩, sent, []⟩

/-- A load of the file of `S`. -/
def load (S : Server) : TransitionSystem Network Action where
  init s := ∃ t now, s = Network.start t now
  step := Step S

/-! ## What the load is for -/

/-- The bytes at the load address are the file, and the size is its length. -/
structure Correct (S : Server) (t : Client) : Prop where
  bytes : ∀ (i : ℕ) (h : i < S.file.length),
    t.memory (t.loadAddr + BitVec.ofNat 32 i) = S.file[i]
  size : t.netBootFileXferSize.toNat = S.file.length

/-- The next packet is DATA number zero, and the last DATA packet the client has stored had that
number, too: this is a copy of it. -/
def CopyOfZero (s : Network) : Prop :=
  s.client.net.listens .tftpHandler = true ∧ s.client.state = .data ∧ s.client.lastBlock = 0 ∧
    ∃ p ps data, s.toClient = p :: ps ∧ p.data = htons opData ++ htons 0 ++ data

/-! ## Lemmas about the server -/

namespace Server

variable {S : Server}

theorem blkSize_pos (S : Server) : 0 < S.blkSize := by
  unfold blkSize
  cases h : acknowledgedBlksize S.options with
  | none => exact Nat.zero_lt_succ 511
  | some size => exact (S.blksize_range size h).1

theorem blkSize_lt (S : Server) : S.blkSize < 2 ^ 16 := by
  unfold blkSize
  cases h : acknowledgedBlksize S.options with
  | none => exact Nat.lt_of_sub_pos (Nat.zero_lt_succ 65023)
  | some size => exact (S.blksize_range size h).2

theorem oacks_le_one (S : Server) : S.oacks ≤ 1 := by
  unfold oacks
  split <;> omega

theorem mul_blkSize_le {k : ℕ} (hk : k < S.blocks) : k * S.blkSize ≤ S.file.length :=
  (Nat.le_div_iff_mul_le S.blkSize_pos).mp (Nat.le_of_lt_succ hk)

theorem length_chunk (k : ℕ) :
    (S.chunk k).length = min S.blkSize (S.file.length - k * S.blkSize) := by
  rw [chunk, List.length_take, List.length_drop]

theorem length_chunk_lt_iff {k : ℕ} (hk : k < S.blocks) :
    (S.chunk k).length < S.blkSize ↔ S.file.length < (k + 1) * S.blkSize := by
  have hle := mul_blkSize_le hk
  rw [length_chunk, Nat.succ_mul]
  omega

theorem succ_eq_blocks_iff {k : ℕ} (hk : k < S.blocks) :
    k + 1 = S.blocks ↔ (S.chunk k).length < S.blkSize := by
  rw [length_chunk_lt_iff hk, ← Nat.div_lt_iff_lt_mul S.blkSize_pos]
  rw [blocks] at hk ⊢
  omega

theorem add_length_chunk {k : ℕ} (hk : k < S.blocks) :
    k * S.blkSize + (S.chunk k).length = min ((k + 1) * S.blkSize) S.file.length := by
  have hle := mul_blkSize_le hk
  rw [length_chunk, Nat.succ_mul]
  omega

theorem getElem_chunk {k i : ℕ} (hi : i < (S.chunk k).length)
    (hfile : k * S.blkSize + i < S.file.length) :
    (S.chunk k)[i] = S.file[k * S.blkSize + i] := by
  simp only [chunk, List.getElem_take, List.getElem_drop]

theorem payload_oack (h : S.options ≠ []) :
    S.payload 0 = htons opOack ++ S.options.flatMap OackOption.text := by
  rw [payload, oacks, if_neg h, if_pos Nat.one_pos]

theorem payload_data {i : ℕ} (h : S.oacks ≤ i) :
    S.payload i = htons opData ++ htons (S.number i + 1) ++ S.chunk (S.number i) := by
  have hnum : i + 1 - S.oacks = i - S.oacks + 1 := by omega
  rw [payload, if_neg (not_lt.mpr h), hnum]
  rfl

end Server

end Tftp
end EmevBsp
