import EmevBsp.Net.Ethernet

/-!
# `net/net.c`: `NetReceive`

The switch over the kinds of a received frame, and the checks of an IP datagram on its way to
the handler.  The build has `CONFIG_CMD_PING` and none of `CONFIG_CMD_CDP`, `CONFIG_API`,
`CONFIG_MCAST_TFTP`, `CONFIG_UDP_CHECKSUM` and `CONFIG_NETCONSOLE`.

The frame is a buffer and a length; what lies in the buffer past the length is whatever was
there before.  `NetReceive` is a function of the interface and the frame, to the interface and
what it does: frames it sends, and calls of the packet handler.
-/

namespace EmevBsp
namespace Net

/-- What `NetReceive` does. -/
inductive NetEvent where
  /-- `eth_send` -/
  | ethSend (frame : List UInt8)
  /-- the handler is called for a UDP datagram: the offset of the payload, the ports, the length -/
  | udp (pkt dest src : ℕ) (len : ℤ)
  /-- the handler is called for an ICMP echo reply, with the offset of the IP header -/
  | echoReply (pkt : ℕ)
  /-- the handler is called without a packet -/
  | wakeUp
  deriving DecidableEq

/-- An `int` compared with a `size_t`. -/
def ulongOf (len : ℤ) : ℕ := (len % 2 ^ 32).toNat

/-! ## ARP and RARP -/

/-- `case PROT_ARP`: the packet is at offset `arp` of the frame, `len` bytes are left. -/
def receiveArp (n : NetIf) (et : Buf) (arp : ℕ) (len : ℤ) : NetIf × List NetEvent :=
  if len < arpHdrSize then (n, [])
  else if get16 et arp ≠ 1 ∨ get16 et (arp + 2) ≠ protIp ∨ et (arp + 4) ≠ 6 ∨ et (arp + 5) ≠ 4 then
    (n, [])
  else if n.netOurIp = 0 ∨ netReadIp et (arp + 24) ≠ n.netOurIp then (n, [])
  else if get16 et (arp + 6) = 1 then
    -- a request: the reply is built in place
    let (pkt, size) := netSetEther n et (Vector.ofFn fun i => et (6 + i)) protArp
    let pkt := put pkt (arp + 6) (htons 2)
    let pkt := put pkt (arp + 18) (bytesAt pkt (arp + 8) 6)
    let pkt := put pkt (arp + 24) (bytesAt pkt (arp + 14) 4)
    let pkt := put pkt (arp + 8) n.netOurEther.toList
    let pkt := put pkt (arp + 14) (ipBytes n.netOurIp)
    (n, [.ethSend (bytesAt pkt 0 (size + arpHdrSize))])
  else if get16 et (arp + 6) = 2 then
    match n.netArpWaitPacketMac with
    | none => (n, [])
    | some ptr =>
      if n.netArpWaitPacketIp = 0 ∨ netReadIp et (arp + 14) ≠ n.netArpWaitReplyIp then (n, [])
      else
        let mac : EtherAddr := Vector.ofFn fun i => et (arp + 8 + i)
        let frame := put n.netArpWaitTxPacket 0 mac.toList
        ({ n with
            netServerEther := if ptr = .netServerEther then mac else n.netServerEther
            netArpWaitTxPacket := frame
            netArpWaitPacketIp := 0
            netArpWaitTxPacketSize := 0
            netArpWaitPacketMac := none },
          [.ethSend (bytesAt frame 0 n.netArpWaitTxPacketSize)])
  else (n, [])

/-- `case PROT_RARP`. -/
def receiveRarp (n : NetIf) (et : Buf) (arp : ℕ) (len : ℤ) : NetIf × List NetEvent :=
  if len < arpHdrSize then (n, [])
  else if get16 et (arp + 6) ≠ 4 ∨ get16 et arp ≠ 1 ∨ get16 et (arp + 2) ≠ protIp ∨
      et (arp + 4) ≠ 6 ∨ et (arp + 5) ≠ 4 then (n, [])
  else
    ({ n with
        netOurIp := netReadIp et (arp + 24)
        netServerIp := if n.netServerIp = 0 then netReadIp et (arp + 14) else n.netServerIp
        netServerEther := Vector.ofFn fun i => et (arp + 8 + i) },
      [.wakeUp])

/-! ## IP -/

/-- The reply to an ICMP echo request, built in place.  The number of bytes to sum is computed
in a `size_t`. -/
def receiveEchoRequest (n : NetIf) (et : Buf) (ip len : ℕ) : List NetEvent :=
  let et := put et 0 (bytesAt et 6 6)
  let et := put et 6 n.netOurEther.toList
  let et := put et (ip + 10) [0, 0]
  let et := put et (ip + 6) [0, 0]
  let et := put et (ip + 16) (bytesAt et (ip + 12) 4)
  let et := put et (ip + 12) (ipBytes n.netOurIp)
  let et := put et (ip + 10) (cksumBytes (netCksum et ip (ipHdrSizeNoUdp / 2)))
  let et := put et (ip + 20) [0]
  let et := put et (ip + 22) [0, 0]
  let et := put et (ip + 22)
    (cksumBytes (netCksum et (ip + 20) ((2 ^ 32 + len - ipHdrSizeNoUdp) % 2 ^ 32 / 2)))
  [.ethSend (bytesAt et 0 (etherHdrSize + len))]

/-- `IPPROTO_ICMP`. -/
def receiveIcmp (n : NetIf) (et : Buf) (ip len : ℕ) : List NetEvent :=
  if et (ip + 20) = 0 then [.echoReply ip]
  else if et (ip + 20) = 8 then receiveEchoRequest n et ip len
  else []

/-- The checks of the IP header at offset `ip`, of which `len` bytes were received. -/
def ipHeaderOk (n : NetIf) (et : Buf) (ip : ℕ) (len : ℤ) : Bool :=
  ¬ulongOf len < ipHdrSize ∧ ¬len < get16 et (ip + 2) ∧
    (et ip &&& 0xf0 = 0x40) ∧ get16 et (ip + 6) &&& 0x3fff = 0 ∧ ¬(et ip &&& 0x0f > 5) ∧
    netCksumOk et ip (ipHdrSizeNoUdp / 2) ∧
    (n.netOurIp = 0 ∨ netReadIp et (ip + 16) = n.netOurIp ∨ netReadIp et (ip + 16) = 0xffffffff)

/-- The call of the handler for the UDP datagram in the IP datagram at offset `ip`. -/
def udpEvent (et : Buf) (ip : ℕ) : NetEvent :=
  .udp (ip + ipHdrSize) (get16 et (ip + 22)) (get16 et (ip + 20)) ((get16 et (ip + 24) : ℤ) - 8)

/-- `case PROT_IP`. -/
def receiveIp (n : NetIf) (et : Buf) (ip : ℕ) (len : ℤ) : NetIf × List NetEvent :=
  if ipHeaderOk n et ip len then
    if et (ip + 9) = 1 then (n, receiveIcmp n et ip (get16 et (ip + 2)))
    else if et (ip + 9) = 17 then (n, [udpEvent et ip])
    else (n, [])
  else (n, [])

/-! ## The frame -/

/-- The link header of a frame: the size, the protocol, and the VLAN it is tagged with. -/
structure LinkHeader where
  size : ℕ
  prot : ℕ
  vlan : ℕ

/-- Where the three kinds of frames have their headers.  A frame too short for its kind, and a
tagged one when no VLAN is set, has none. -/
def linkHeader (n : NetIf) (et : Buf) (len : ℤ) : Option LinkHeader :=
  if len < etherHdrSize then none
  else if get16 et 12 < 1514 then some ⟨e802HdrSize, get16 et 20, vlanNone⟩
  else if get16 et 12 ≠ protVlan then some ⟨etherHdrSize, get16 et 12, vlanNone⟩
  else if len < vlanEtherHdrSize then none
  else if n.netOurVlan.toNat &&& vlanIdMask = vlanNone then none
  else some ⟨vlanEtherHdrSize, get16 et 16, get16 et 14 &&& vlanIdMask⟩

/-- The frame belongs to our VLAN. -/
def vlanMatches (n : NetIf) (vlan : ℕ) : Bool :=
  n.untagged ∨
    (if vlan = vlanNone then vlanId n.netOurNativeVlan &&& vlanIdMask else vlan) =
      vlanId n.netOurVlan &&& vlanIdMask

/-- `NetReceive` of the frame `inpkt` of `len` bytes. -/
def netReceive (n : NetIf) (inpkt : Buf) (len : ℤ) : NetIf × List NetEvent :=
  match linkHeader n inpkt len with
  | none => (n, [])
  | some h =>
    let len := len - h.size
    if vlanMatches n h.vlan then
      if h.prot = protArp then receiveArp n inpkt h.size len
      else if h.prot = protRarp then receiveRarp n inpkt h.size len
      else if h.prot = protIp then receiveIp n inpkt h.size len
      else (n, [])
    else (n, [])

/-! ## Which frames reach the handler -/

/-- The frame carries a UDP datagram for us behind its link header `h`. -/
def CarriesUdp (n : NetIf) (inpkt : Buf) (len : ℤ) (h : LinkHeader) : Prop :=
  linkHeader n inpkt len = some h ∧ vlanMatches n h.vlan = true ∧ h.prot = protIp ∧
    ipHeaderOk n inpkt h.size (len - h.size) = true ∧ inpkt (h.size + 9) = 17

theorem udp_notMem_receiveArp {n : NetIf} {et : Buf} {arp pkt dest src : ℕ} {len l : ℤ} :
    NetEvent.udp pkt dest src l ∉ (receiveArp n et arp len).2 := by
  unfold receiveArp
  split
  · exact List.not_mem_nil
  split
  · exact List.not_mem_nil
  split
  · exact List.not_mem_nil
  split
  · simp
  split
  · split
    · exact List.not_mem_nil
    · split
      · exact List.not_mem_nil
      · simp
  · exact List.not_mem_nil

theorem udp_notMem_receiveRarp {n : NetIf} {et : Buf} {arp pkt dest src : ℕ} {len l : ℤ} :
    NetEvent.udp pkt dest src l ∉ (receiveRarp n et arp len).2 := by
  unfold receiveRarp
  split
  · exact List.not_mem_nil
  split
  · exact List.not_mem_nil
  · simp

theorem udp_notMem_receiveIcmp {n : NetIf} {et : Buf} {ip len pkt dest src : ℕ} {l : ℤ} :
    NetEvent.udp pkt dest src l ∉ receiveIcmp n et ip len := by
  unfold receiveIcmp
  split
  · simp
  split
  · simp [receiveEchoRequest]
  · exact List.not_mem_nil

theorem udp_mem_receiveIp_iff {n : NetIf} {et : Buf} {ip pkt dest src : ℕ} {len l : ℤ} :
    NetEvent.udp pkt dest src l ∈ (receiveIp n et ip len).2 ↔
      ipHeaderOk n et ip len = true ∧ et (ip + 9) = 17 ∧
        NetEvent.udp pkt dest src l = udpEvent et ip := by
  unfold receiveIp
  split
  · next hok =>
    split
    · next hicmp =>
      have hne : ¬(1 : UInt8) = 17 := by decide
      constructor
      · intro h
        exact absurd h udp_notMem_receiveIcmp
      · rintro ⟨-, hudp, -⟩
        exact absurd (hicmp.symm.trans hudp) hne
    split
    · next hudp => simp [hok, hudp]
    · next hudp => simp [hudp]
  · next hok => simp [hok]

theorem udp_mem_netReceive_iff {n : NetIf} {inpkt : Buf} {pkt dest src : ℕ} {len l : ℤ} :
    NetEvent.udp pkt dest src l ∈ (netReceive n inpkt len).2 ↔
      ∃ h, CarriesUdp n inpkt len h ∧
        NetEvent.udp pkt dest src l = udpEvent inpkt h.size := by
  unfold netReceive CarriesUdp
  cases hlink : linkHeader n inpkt len with
  | none => simp
  | some h =>
    have harp : ¬protIp = protArp := by decide
    have hrarp : ¬protIp = protRarp := by decide
    simp only [Option.some.injEq]
    constructor
    · intro hmem
      split at hmem
      · next hvlan =>
        split at hmem
        · exact absurd hmem udp_notMem_receiveArp
        split at hmem
        · exact absurd hmem udp_notMem_receiveRarp
        split at hmem
        · next hprot =>
          obtain ⟨hok, hudp, heq⟩ := udp_mem_receiveIp_iff.mp hmem
          exact ⟨h, ⟨rfl, hvlan, hprot, hok, hudp⟩, heq⟩
        · exact absurd hmem List.not_mem_nil
      · exact absurd hmem List.not_mem_nil
    · rintro ⟨h', ⟨rfl, hvlan, hprot, hok, hudp⟩, heq⟩
      rw [if_pos hvlan, hprot, if_neg harp, if_neg hrarp, if_pos rfl]
      exact udp_mem_receiveIp_iff.mpr ⟨hok, hudp, heq⟩

/-! ## The length handed to the handler -/

/-- **The length handed to the handler** lies within the frame exactly when the UDP length field
does: it counts its own header of eight bytes, and no more than the bytes received behind the IP
header. -/
theorem netReceive_length_iff (n : NetIf) (inpkt : Buf) (len : ℤ) :
    (∀ (pkt dest src : ℕ) (l : ℤ), NetEvent.udp pkt dest src l ∈ (netReceive n inpkt len).2 →
      0 ≤ l ∧ l ≤ len - pkt) ↔
    ∀ h, CarriesUdp n inpkt len h →
      8 ≤ get16 inpkt (h.size + 24) ∧
        (get16 inpkt (h.size + 24) : ℤ) ≤ len - h.size - ipHdrSizeNoUdp := by
  have hhdr : (ipHdrSize : ℤ) = ipHdrSizeNoUdp + 8 := rfl
  constructor
  · intro hall h hcarries
    have hcall := hall _ _ _ _ (udp_mem_netReceive_iff.mpr ⟨h, hcarries, rfl⟩)
    push_cast at hcall
    omega
  · intro hall pkt dest src l hmem
    obtain ⟨h, hcarries, heq⟩ := udp_mem_netReceive_iff.mp hmem
    obtain ⟨rfl, -, -, rfl⟩ := NetEvent.udp.inj heq
    have hlen := hall h hcarries
    push_cast
    omega

theorem size_exampleEther : #[(2 : UInt8), 0, 0, 0, 0, 1].size = 6 := rfl

theorem size_noEther : #[(0 : UInt8), 0, 0, 0, 0, 0].size = 6 := rfl

/-- An interface with the address 10.0.0.2 and no VLAN. -/
def exampleIf : NetIf where
  netOurVlan := 0xffff
  netOurNativeVlan := 0xffff
  netOurEther := ⟨#[2, 0, 0, 0, 0, 1], size_exampleEther⟩
  netOurIp := 0x0a000002
  netServerEther := ⟨#[0, 0, 0, 0, 0, 0], size_noEther⟩
  netServerIp := 0
  netIpId := 0
  netArpWaitPacketIp := 0
  netArpWaitReplyIp := 0
  netArpWaitPacketMac := none
  netArpWaitTxPacket := fun _ => 0
  netArpWaitTxPacketSize := 0

/-- A frame of 42 bytes, all of them headers, whose UDP length field says 1000. -/
def overlongFrame : List UInt8 :=
  [2, 0, 0, 0, 0, 1, 2, 0, 0, 0, 0, 2, 8, 0] ++
    [0x45, 0, 0, 28, 0, 0, 0x40, 0, 255, 17, 0x67, 0xce, 10, 0, 0, 1, 10, 0, 0, 2] ++
    [0x10, 0, 0, 69, 0x03, 0xe8, 0, 0]

/-- **The UDP length is not checked**: the handler is told of 992 bytes that are not there. -/
theorem not_netReceive_length :
    ¬∀ (n : NetIf) (inpkt : Buf) (len : ℤ) (pkt dest src : ℕ) (l : ℤ),
      NetEvent.udp pkt dest src l ∈ (netReceive n inpkt len).2 → 0 ≤ l ∧ l ≤ len - pkt := by
  intro hall
  have hmem : NetEvent.udp 42 69 4096 992 ∈
      (netReceive exampleIf (fun i => overlongFrame.getD i 0) 42).2 := by decide
  have hlen := (hall _ _ _ _ _ _ _ hmem).2
  omega

end Net
end EmevBsp
