import EmevBsp.Net.Ethernet
import EmevBsp.Library.OptionField

/-!
# `net/bootp.c`: the DHCP client

`BootpRequest` broadcasts a DISCOVER and waits for an OFFER, the first packet that passes
`BootpCheckPkt` is answered with a REQUEST, and an ACK binds the address and starts the load.
Received options go to the globals of net.c.

The build has `CONFIG_CMD_DHCP` and `CONFIG_CMD_NFS`, and no `CONFIG_BOOTP_*`, `CONFIG_CMD_SNTP`,
`CONFIG_SYS_BOOTFILE_PREFIX` and `PRODUCTION_CODE`.  `BootpVendorProcess` is the walk of the
build without DHCP.  A packet is a buffer that begins with the `Bootp_t`; the code also writes
to it.  Messages on the console are left out.
-/

namespace EmevBsp
namespace Net

/-! ## Constants -/

def portBootps : ℕ := 67

def portBootpc : ℕ := 68

def optSize : ℕ := 312

/-- `BOOTP_HDR_SIZE`, the size of `Bootp_t`. -/
def bootpHdrSize : ℕ := 548

/-- `TIMEOUT_COUNT`. -/
def bootpTimeoutCount : ℕ := 5

def opBootrequest : UInt8 := 1

def opBootreply : UInt8 := 2

def dhcpDiscover : UInt8 := 1

def dhcpOffer : UInt8 := 2

def dhcpRequest : UInt8 := 3

def dhcpAck : UInt8 := 5

def dhcpNak : UInt8 := 6

/-- `BOOTP_VENDOR_MAGIC`, as it lies in the packet. -/
def bootpVendorMagic : List UInt8 := [99, 130, 83, 99]

/-- The offset of `bp_id`. -/
def bpId : ℕ := 4

/-- The offset of `bp_yiaddr`. -/
def bpYiaddr : ℕ := 16

/-- The offset of `bp_siaddr`. -/
def bpSiaddr : ℕ := 20

/-- The offset of `bp_file`. -/
def bpFile : ℕ := 108

/-- `sizeof(bp->bp_file)`, and `sizeof(BootFile)`. -/
def bpFileSize : ℕ := 128

/-- The offset of `bp_vend`. -/
def bpVend : ℕ := 236

/-! ## The state -/

/-- `dhcp_state_t`. -/
inductive DhcpState where
  | init
  | initReboot
  | rebooting
  | selecting
  | requesting
  | rebinding
  | bound
  | renewing
  deriving DecidableEq

/-- The globals of bootp.c and of net.c that a DHCP exchange works on, and three variables of the
environment.  `BootpID` is kept in the byte order of the packet; the last two fields are set by
`BootpVendorFieldProcess` alone. -/
structure Dhcp where
  net : NetLoop
  /-- `timeHandler` is `BootpTimeout`, and the timer runs -/
  timer : Bool
  dhcpState : DhcpState
  bootpId : BitVec 32
  bootpTry : ℕ
  dhcpLeasetime : BitVec 32
  netDhcpServerIp : IPaddr
  netOurEther : EtherAddr
  netOurIp : IPaddr
  netServerIp : IPaddr
  netServerEther : EtherAddr
  netOurSubnetMask : IPaddr
  netOurGatewayIp : IPaddr
  netOurDnsIp : IPaddr
  netOurHostName : List UInt8
  netOurRootPath : List UInt8
  bootFile : List UInt8
  autoloadEnv : Option (List UInt8)
  bootfileEnv : Option (List UInt8)
  netOurNisDomain : List UInt8
  netBootFileSize : BitVec 16

/-- What the client does besides. -/
inductive DhcpAction where
  /-- a UDP datagram from port 68 to port 67 of everyone -/
  | broadcast (payload : List UInt8)
  | tftpStart
  | nfsStart
  deriving DecidableEq

/-- A packet, from its `Bootp_t` on. -/
abbrev BootpPkt := Buf

def truncateSz (maxlen curlen : ℕ) : ℕ := if curlen ≥ maxlen then maxlen - 1 else curlen

/-- The loop of `copy_filename`. -/
def copyFilenameFrom : ℕ → List UInt8 → List UInt8
  | size + 2, c :: src => if c = 0 ∨ c = 34 then [] else c :: copyFilenameFrom (size + 1) src
  | _, _ => []

/-- `copy_filename`: a leading quote is skipped, and the name ends at the next one. -/
def copyFilename (src : List UInt8) (size : ℕ) : List UInt8 :=
  if src.head? = some 34 then copyFilenameFrom (size - 1) src.tail else copyFilenameFrom size src

/-! ## Received packets -/

def bootpCheckPkt (s : Dhcp) (pkt : BootpPkt) (dest src len : ℕ) : Int :=
  if dest ≠ portBootpc ∨ src ≠ portBootps then -1
  else if len < bootpHdrSize - optSize then -2
  else if pkt 0 ≠ opBootrequest ∧ pkt 0 ≠ opBootreply ∧ pkt 0 ≠ dhcpOffer ∧ pkt 0 ≠ dhcpAck ∧
      pkt 0 ≠ dhcpNak then -3
  else if pkt 1 ≠ 1 then -4
  else if pkt 2 ≠ 6 then -5
  else if netReadIp pkt bpId ≠ s.bootpId then -6
  else 0

/-- `BootpCopyNetParams`; `ether` is the sender of the frame. -/
def bootpCopyNetParams (s : Dhcp) (pkt : BootpPkt) (ether : EtherAddr) : Dhcp :=
  let file := copyFilename (bytesAt pkt bpFile bpFileSize) bpFileSize
  let named := pkt bpFile ≠ 0 ∧ s.bootfileEnv = none
  { s with
    netOurIp := netReadIp pkt bpYiaddr
    netServerIp := if netReadIp pkt bpSiaddr ≠ 0 then netReadIp pkt bpSiaddr else s.netServerIp
    netServerEther := ether
    bootFile := if named then file else s.bootFile
    bootfileEnv := if named then some file else s.bootfileEnv }

/-- The bytes that an option with a text is copied with. -/
def optionText (pkt : BootpPkt) (popt maxlen : ℕ) : List UInt8 :=
  bytesAt pkt (popt + 2) (truncateSz maxlen (pkt (popt + 1)).toNat)

/-- The boot file of an option goes to the packet, when that has none. -/
def vendorBootFile (pkt : BootpPkt) (popt : ℕ) : BootpPkt :=
  let name := optionText pkt popt bpFileSize
  if pkt bpFile = 0 ∧ 0 < name.length then put pkt bpFile (name ++ [0]) else pkt

/-- The `switch` of `DhcpOptionsProcess`. -/
def dhcpOption (s : Dhcp × BootpPkt) (popt : ℕ) : Dhcp × BootpPkt :=
  let ip := netReadIp s.2 (popt + 2)
  if s.2 popt = 1 then ({ s.1 with netOurSubnetMask := ip }, s.2)
  else if s.2 popt = 3 then ({ s.1 with netOurGatewayIp := ip }, s.2)
  else if s.2 popt = 6 then ({ s.1 with netOurDnsIp := ip }, s.2)
  else if s.2 popt = 12 then ({ s.1 with netOurHostName := optionText s.2 popt 32 }, s.2)
  else if s.2 popt = 17 then ({ s.1 with netOurRootPath := optionText s.2 popt 64 }, s.2)
  else if s.2 popt = 51 then ({ s.1 with dhcpLeasetime := ip }, s.2)
  else if s.2 popt = 54 then ({ s.1 with netDhcpServerIp := ip }, s.2)
  else if s.2 popt = 67 then (s.1, vendorBootFile s.2 popt)
  else s

/-- The loop of `DhcpOptionsProcess`. -/
def dhcpOptionsFrom (s : Dhcp × BootpPkt) (popt endp : ℕ) : Dhcp × BootpPkt :=
  if popt < endp ∧ s.2 popt ≠ 255 then
    dhcpOptionsFrom (dhcpOption s popt) (popt + (s.2 (popt + 1)).toNat + 2) endp
  else s
termination_by endp - popt

/-- `DhcpOptionsProcess`: the end is that of a `Bootp_t` which begins at the options. -/
def dhcpOptionsProcess (s : Dhcp × BootpPkt) (popt : ℕ) : Dhcp × BootpPkt :=
  dhcpOptionsFrom s popt (popt + bootpHdrSize)

/-- The loop of `DhcpMessageType`, without a bound of its own.  As it goes on by at least two
bytes, it has seen the whole address space when the fuel is used up. -/
def dhcpMessageTypeFrom (pkt : BootpPkt) : ℕ → ℕ → Option Int
  | 0, _ => none
  | fuel + 1, popt =>
    if pkt popt = 255 then some (-1)
    else if pkt popt = 53 then some (pkt (popt + 2)).toNat
    else dhcpMessageTypeFrom pkt fuel (popt + (pkt (popt + 1)).toNat + 2)

/-- `DhcpMessageType`, or `none` when it does not return. -/
def dhcpMessageType (pkt : BootpPkt) (popt : ℕ) : Option Int :=
  if bytesAt pkt popt 4 ≠ bootpVendorMagic then some (-1)
  else dhcpMessageTypeFrom pkt (2 ^ 31) (popt + 4)

/-! ## The walk of the build without DHCP -/

/-- `BootpVendorFieldProcess`. -/
def bootpVendorField (pkt : BootpPkt) (s : Dhcp) (ext : ℕ) : Dhcp :=
  let s := { s with netBootFileSize := 0 }
  let ip := netReadIp pkt (ext + 2)
  if pkt ext = 1 then
    { s with netOurSubnetMask := if s.netOurSubnetMask = 0 then ip else s.netOurSubnetMask }
  else if pkt ext = 3 then
    { s with netOurGatewayIp := if s.netOurGatewayIp = 0 then ip else s.netOurGatewayIp }
  else if pkt ext = 6 then
    { s with netOurDnsIp := if s.netOurDnsIp = 0 then ip else s.netOurDnsIp }
  else if pkt ext = 12 then
    { s with netOurHostName :=
        if s.netOurHostName.headD 0 = 0 then optionText pkt ext 32 else s.netOurHostName }
  else if pkt ext = 13 then
    { s with netBootFileSize :=
        if pkt (ext + 1) = 2 then BitVec.ofNat 16 (get16 pkt (ext + 2))
        else if pkt (ext + 1) = 4 then BitVec.ofNat 16 ip.toNat else 0 }
  else if pkt ext = 17 then
    { s with netOurRootPath :=
        if s.netOurRootPath.headD 0 = 0 then optionText pkt ext 64 else s.netOurRootPath }
  else if pkt ext = 40 then
    { s with netOurNisDomain :=
        if s.netOurNisDomain.headD 0 = 0 then optionText pkt ext 32 else s.netOurNisDomain }
  else s

/-- The loop of `BootpVendorProcess`. -/
def bootpVendorFrom (pkt : BootpPkt) (s : Dhcp) (ext endp : ℕ) : Dhcp :=
  if ext < endp ∧ pkt ext ≠ 255 then
    if pkt ext = 0 then bootpVendorFrom pkt s (ext + 1) endp
    else
      let next := ext + ((pkt (ext + 1)).toNat + 2)
      bootpVendorFrom pkt (if next ≤ endp then bootpVendorField pkt s ext else s) next endp
  else s
termination_by endp - ext

def bootpVendorProcess (pkt : BootpPkt) (s : Dhcp) (ext size : ℕ) : Dhcp :=
  bootpVendorFrom pkt s ext (ext + size)

/-! ## Requests -/

def dhcpExtended (messageType : UInt8) (serverId requestedIp : IPaddr) : List UInt8 :=
  let e := bootpVendorMagic ++ [53, 1, messageType] ++ [57, 2, 2, 64] ++
    (if serverId ≠ 0 then [54, 4] ++ ipBytes serverId else []) ++
    (if requestedIp ≠ 0 then [50, 4] ++ ipBytes requestedIp else []) ++ [55, 0] ++ [255]
  e ++ List.replicate (65 - e.length) 0

/-- A request: the fields of the `Bootp_t`, and what `DhcpExtended` appends. -/
def bootpPayload (id : BitVec 32) (secs : ℕ) (chaddr : EtherAddr) (file ext : List UInt8) :
    List UInt8 :=
  [opBootrequest, 1, 6, 0] ++ ipBytes id ++ htons secs ++ List.replicate 18 0 ++ chaddr.toList ++
    List.replicate 10 0 ++ List.replicate 64 0 ++ file ++ List.replicate (128 - file.length) 0 ++ ext

/-- The identifier: the last four bytes of the Ethernet address, plus the time. -/
def newBootpId (ether : EtherAddr) (timer : ℕ) : BitVec 32 :=
  BitVec.ofNat 32 (2 ^ 24 * ether[2].toNat + 2 ^ 16 * ether[3].toNat + 2 ^ 8 * ether[4].toNat +
    ether[5].toNat + timer)

/-- `BootpRequest`, when `get_timer(0)` is `timer`. -/
def bootpRequest (s : Dhcp) (timer : ℕ) : Dhcp × List DhcpAction :=
  let id := newBootpId s.netOurEther timer
  ({ s with
      bootpTry := s.bootpTry + 1
      bootpId := id
      timer := true
      dhcpState := .selecting
      net := s.net.netSetHandler .dhcpHandler },
    [.broadcast (bootpPayload id (timer / 1000) s.netOurEther
      (copyFilename (s.bootFile ++ [0]) bpFileSize) (dhcpExtended dhcpDiscover 0 0))])

def bootpTimeout (s : Dhcp) (timer : ℕ) : Dhcp × List DhcpAction :=
  if s.bootpTry ≥ bootpTimeoutCount then ({ s with net := s.net.netStartAgain }, [])
  else bootpRequest s timer

def dhcpSendRequestPkt (s : Dhcp) (offer : BootpPkt) (timer : ℕ) : List DhcpAction :=
  [.broadcast (bootpPayload (netReadIp offer bpId) (timer / 1000) s.netOurEther []
    (dhcpExtended dhcpRequest s.netDhcpServerIp (netReadIp offer bpYiaddr)))]

/-! ## The handler -/

/-- The options are processed when the magic cookie stands before them. -/
def dhcpOptionsOf (s : Dhcp) (pkt : BootpPkt) : Dhcp × BootpPkt :=
  if bytesAt pkt bpVend 4 = bootpVendorMagic then dhcpOptionsProcess (s, pkt) (bpVend + 4)
  else (s, pkt)

def Dhcp.setState (s : Dhcp) (state : DhcpState) : Dhcp := { s with dhcpState := state }

/-- The string `"NFS"`. -/
def nfsText : List UInt8 := [78, 70, 83]

/-- Obey the `autoload` setting. -/
def dhcpAutoload (s : Dhcp) : Dhcp × List DhcpAction :=
  match s.autoloadEnv with
  | none => ({ s with net := s.net.netSetHandler .tftpHandler }, [.tftpStart])
  | some autoload =>
    if autoload.headD 0 = 110 then ({ s with net := { s.net with netState := .success } }, [])
    else if strcmp autoload nfsText = 0 then
      ({ s with net := s.net.netSetHandler .nfsHandler }, [.nfsStart])
    else ({ s with net := s.net.netSetHandler .tftpHandler }, [.tftpStart])

/-- `case SELECTING`: any packet that passed the check is taken for an offer. -/
def dhcpSelect (s : Dhcp) (pkt : BootpPkt) (timer : ℕ) : Dhcp × List DhcpAction :=
  let r := dhcpOptionsOf (s.setState .requesting) pkt
  ({ r.1 with timer := true }, dhcpSendRequestPkt r.1 r.2 timer)

/-- `case REQUESTING`, for an ACK. -/
def dhcpBind (s : Dhcp) (pkt : BootpPkt) (ether : EtherAddr) : Dhcp × List DhcpAction :=
  let r := dhcpOptionsOf s pkt
  dhcpAutoload ((bootpCopyNetParams r.1 r.2 ether).setState .bound)

/-- `DhcpHandler`, or `none` when it does not return.  The frame came from `ether`, and
`get_timer(0)` is `timer`. -/
def dhcpHandler (s : Dhcp) (pkt : BootpPkt) (dest src len : ℕ) (ether : EtherAddr) (timer : ℕ) :
    Option (Dhcp × List DhcpAction) :=
  if bootpCheckPkt s pkt dest src len ≠ 0 then some (s, [])
  else
    match s.dhcpState with
    | .selecting => some (dhcpSelect s pkt timer)
    | .requesting =>
      (dhcpMessageType pkt bpVend).map fun (type : Int) =>
        if type = dhcpAck.toNat then dhcpBind s pkt ether else (s, [])
    | _ => some (s, [])

end Net
end EmevBsp
