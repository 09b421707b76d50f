import EmevBsp.Net.NetLoop
import Mathlib.Data.BitVec
import Mathlib.Logic.Function.Basic

/-!
# `net/net.c`: building Ethernet, IP and UDP headers

A packet buffer is a function of the offset.  The fields of the headers are read and written at
their offsets in the packed structures of include/net.h, in network byte order; the checksum is
taken over native shorts, which are little endian.
-/

namespace EmevBsp
namespace Net

/-- The bytes from a pointer on. -/
abbrev Buf := ℕ → UInt8

/-- `IPaddr_t`, the address as it is read from left to right. -/
abbrev IPaddr := BitVec 32

/-- An Ethernet address. -/
abbrev EtherAddr := Vector UInt8 6

/-! ## Access to a buffer -/

/-- `ntohs` of the field at `i`. -/
def get16 (b : Buf) (i : ℕ) : ℕ := ntohs (b i) (b (i + 1))

def netReadIp (b : Buf) (i : ℕ) : IPaddr :=
  BitVec.ofNat 32 (2 ^ 24 * (b i).toNat + 2 ^ 16 * (b (i + 1)).toNat + 2 ^ 8 * (b (i + 2)).toNat +
    (b (i + 3)).toNat)

/-- The bytes of an address. -/
def ipBytes (ip : IPaddr) : List UInt8 :=
  [UInt8.ofNat (ip.toNat / 2 ^ 24), UInt8.ofNat (ip.toNat / 2 ^ 16),
    UInt8.ofNat (ip.toNat / 2 ^ 8), UInt8.ofNat ip.toNat]

/-- Write some bytes at `i`. -/
def put (b : Buf) (i : ℕ) (l : List UInt8) : Buf := fun j =>
  if h : i ≤ j ∧ j - i < l.length then l.get ⟨j - i, h.2⟩ else b j

/-- The `n` bytes at `i`. -/
def bytesAt (b : Buf) (i n : ℕ) : List UInt8 := (List.range n).map fun k => b (i + k)

theorem put_of_lt {b : Buf} {i j : ℕ} {l : List UInt8} (h : j < i) : put b i l j = b j :=
  dif_neg fun hj => absurd hj.1 (not_le.mpr h)

theorem put_of_ge {b : Buf} {i j : ℕ} {l : List UInt8} (h : i + l.length ≤ j) :
    put b i l j = b j :=
  dif_neg fun hj => by omega

theorem put_add {b : Buf} {i k : ℕ} {l : List UInt8} (h : k < l.length) :
    put b i l (i + k) = l.get ⟨k, h⟩ := by
  have hk : i + k - i = k := Nat.add_sub_cancel_left i k
  rw [put, dif_pos ⟨Nat.le_add_right i k, hk.symm ▸ h⟩]
  simp only [hk]

/-! ## The interface -/

def etherHdrSize : ℕ := 14

def vlanEtherHdrSize : ℕ := 18

def e802HdrSize : ℕ := 22

/-- `IP_HDR_SIZE`, the UDP header included. -/
def ipHdrSize : ℕ := 28

def ipHdrSizeNoUdp : ℕ := 20

def arpHdrSize : ℕ := 28

def protIp : ℕ := 0x0800

def protArp : ℕ := 0x0806

def protRarp : ℕ := 0x8035

def protVlan : ℕ := 0x8100

def vlanNone : ℕ := 4095

def vlanIdMask : ℕ := 0x0fff

/-- What `NetArpWaitPacketMAC` can point to. -/
inductive EtherPtr where
  | netServerEther
  /-- a variable of the caller -/
  | other
  deriving DecidableEq

/-- The globals of net.c that describe the interface and the ARP request that is pending. -/
structure NetIf where
  /-- `ntohs(NetOurVLAN)` -/
  netOurVlan : BitVec 16
  /-- `ntohs(NetOurNativeVLAN)` -/
  netOurNativeVlan : BitVec 16
  netOurEther : EtherAddr
  netOurIp : IPaddr
  netServerEther : EtherAddr
  netServerIp : IPaddr
  netIpId : ℕ
  netArpWaitPacketIp : IPaddr
  netArpWaitReplyIp : IPaddr
  netArpWaitPacketMac : Option EtherPtr
  netArpWaitTxPacket : Buf
  netArpWaitTxPacketSize : ℕ

/-- `myvlanid`: the value `0xffff` stands for no VLAN. -/
def vlanId (v : BitVec 16) : ℕ := if v = 0xffff then vlanNone else v.toNat

/-- No VLAN is set. -/
def NetIf.untagged (n : NetIf) : Bool := vlanId n.netOurVlan &&& vlanIdMask = vlanNone

def netEthHdrSize (n : NetIf) : ℕ := if n.untagged then etherHdrSize else vlanEtherHdrSize

/-- `NetSetEther`: the new buffer and the size of the header. -/
def netSetEther (n : NetIf) (xet : Buf) (addr : EtherAddr) (prot : ℕ) : Buf × ℕ :=
  let et := put (put xet 0 addr.toList) 6 n.netOurEther.toList
  if n.untagged then (put et 12 (htons prot), etherHdrSize)
  else
    (put et 12 (htons protVlan ++ htons (vlanId n.netOurVlan &&& vlanIdMask) ++ htons prot),
      vlanEtherHdrSize)

/-! ## The checksum -/

/-- A native short. -/
def getShort (b : Buf) (i : ℕ) : ℕ := (b i).toNat + 256 * (b (i + 1)).toNat

/-- The sum of `len` native shorts. -/
def cksumSum (b : Buf) : ℕ → ℕ → ℕ
  | _, 0 => 0
  | i, len + 1 => getShort b i + cksumSum b (i + 2) len

/-- The carries are added twice. -/
def cksumFold (xsum : ℕ) : ℕ := xsum % 2 ^ 16 + xsum / 2 ^ 16

/-- `NetCksum` of the `len` shorts at `i`. -/
def netCksum (b : Buf) (i len : ℕ) : ℕ :=
  cksumFold (cksumFold (cksumSum b i len % 2 ^ 32)) % 2 ^ 16

def netCksumOk (b : Buf) (i len : ℕ) : Bool := (netCksum b i len + 1) &&& 0xfffe = 0

/-- `~NetCksum`, stored in a native short. -/
def cksumBytes (c : ℕ) : List UInt8 := [UInt8.ofNat (0xffff - c), UInt8.ofNat ((0xffff - c) / 256)]

/-- The IP and UDP headers, with a checksum of zero. -/
def ipHeader (n : NetIf) (dest : IPaddr) (dport sport len : ℕ) : List UInt8 :=
  [0x45, 0] ++ htons (ipHdrSize + len) ++ htons n.netIpId ++ htons 0x4000 ++ [255, 17] ++ [0, 0] ++
    ipBytes n.netOurIp ++ ipBytes dest ++ htons sport ++ htons dport ++ htons (8 + len) ++ [0, 0]

/-- `NetSetIP` at `xip`; the payload of `len` bytes stands behind the header.  The caller sees
the counter of the packets, too. -/
def netSetIp (n : NetIf) (b : Buf) (xip : ℕ) (dest : IPaddr) (dport sport len : ℕ) :
    NetIf × Buf :=
  let b := if len % 2 = 1 then put b (xip + ipHdrSize + len) [0] else b
  let b := put b xip (ipHeader n dest dport sport len)
  let b := put b (xip + 10) (cksumBytes (netCksum b xip (ipHdrSizeNoUdp / 2)))
  ({ n with netIpId := n.netIpId + 1 }, b)

end Net
end EmevBsp
