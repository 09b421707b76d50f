import EmevBsp.Net.Ethernet

/-!
# `net/nfs.c`: the NFS client

The client asks the portmapper for two ports, mounts the directory, looks the file up, reads it
block by block, and unmounts.  One request is outstanding at a time, and its transaction
identifier is `rpc_id`.

The build has no `CONFIG_SYS_DIRECT_FLASH_NFS`.  Memory appears in three places: the load
address, the path buffer (offsets from `nfs_path_buff`, so that `basename` and `dirname` may step
before it), and the `struct rpc_t` on the stack of each reply function, whose bytes behind the
received ones are whatever was there before.  Messages on the console are left out, and so is
`NetServerEther`, which the datagrams are addressed to.
-/

namespace EmevBsp
namespace Net

/-! ## Constants -/

def nfsReadSize : BitVec 32 := 1024

def nfsFhsize : ℕ := 32

def sunrpcPort : BitVec 32 := 111

def progPortmap : ℕ := 100000

def progNfs : ℕ := 100003

def progMount : ℕ := 100005

def portmapGetport : ℕ := 3

def mountAddentry : ℕ := 1

def mountUmountall : ℕ := 4

def nfsLookup : ℕ := 4

def nfsReadlink : ℕ := 5

def nfsRead : ℕ := 6

def nfserrIsdir : BitVec 32 := 21

def nfserrInval : BitVec 32 := 22

def nfsRetryCount : ℕ := 30

/-! ## The state -/

/-- `STATE_PRCLOOKUP_PROG_MOUNT_REQ` and its kind. -/
inductive NfsState where
  | prclookupProgMountReq
  | prclookupProgNfsReq
  | mountReq
  | umountReq
  | lookupReq
  | readReq
  | readlinkReq
  deriving DecidableEq

/-- A file handle. -/
abbrev FileHandle := Vector UInt8 32

/-- The globals of nfs.c, those of the loop that it sets, and what is loaded. -/
structure Nfs where
  netState : NetState
  /-- `timeHandler` is `NfsTimeout`, and the timer runs -/
  timer : Bool
  fsMounted : Bool
  rpcId : BitVec 32
  nfsOffset : BitVec 32
  nfsLen : BitVec 32
  dirfh : FileHandle
  filefh : FileHandle
  nfsDownloadState : NetState
  nfsServerIp : IPaddr
  nfsSrvMountPort : BitVec 32
  nfsSrvNfsPort : BitVec 32
  nfsOurPort : BitVec 32
  nfsTimeoutCount : ℕ
  nfsState : NfsState
  /-- the bytes at and around `nfs_path_buff` -/
  nfsPathBuff : ℤ → UInt8
  nfsPath : ℤ
  nfsFilename : ℤ
  mem : BitVec 32 → UInt8
  loadAddr : BitVec 32
  netBootFileXferSize : BitVec 32

/-- What `NetSendUDPPacket` is given. -/
structure NfsDatagram where
  dest : IPaddr
  dport : BitVec 32
  sport : BitVec 32
  data : List UInt8
  deriving DecidableEq

/-! ## Strings and memory -/

/-- `strlen`; the address space bounds the search. -/
def strlenFrom (m : ℤ → UInt8) (p : ℤ) : ℕ → ℕ
  | 0 => 0
  | fuel + 1 => if m p = 0 then 0 else strlenFrom m (p + 1) fuel + 1

def strlen (m : ℤ → UInt8) (p : ℤ) : ℕ := strlenFrom m p (2 ^ 32)

/-- The loop of `basename`, `k` characters behind the start. -/
def basenameFrom (m : ℤ → UInt8) (path : ℤ) : ℕ → ℤ
  | 0 => path - 1
  | k + 1 => if m (path + k) = 47 then path + k + 1 else basenameFrom m path k

def basename (m : ℤ → UInt8) (path : ℤ) : ℤ := basenameFrom m path (strlen m path)

/-- `dirname` ends the path before the last slash. -/
def dirname (m : ℤ → UInt8) (path : ℤ) : ℤ → UInt8 :=
  Function.update m (basename m path - 1) 0

/-- `memcpy` into the path buffer. -/
def copyPath (m : ℤ → UInt8) (p : ℤ) (src : Buf) (n : ℕ) : ℤ → UInt8 := fun a =>
  if p ≤ a ∧ a < p + n then src (a - p).toNat else m a

/-- The string at `p`. -/
def stringAt (m : ℤ → UInt8) (p : ℤ) : List UInt8 :=
  (List.range (strlen m p)).map fun k => m (p + k)

def storeBlock (s : Nfs) (src : Buf) (offset len : BitVec 32) : Nfs :=
  { s with
    mem := fun a =>
      let k := (a - (s.loadAddr + offset)).toNat
      if k < len.toNat then src k else s.mem a
    netBootFileXferSize :=
      if s.netBootFileXferSize < offset + len then offset + len else s.netBootFileXferSize }

/-! ## Requests -/

/-- The four bytes of `htonl`. -/
def htonl (n : ℕ) : List UInt8 := ipBytes (BitVec.ofNat 32 n)

/-- `ntohl` of the field at `i`. -/
def ntohl (b : Buf) (i : ℕ) : BitVec 32 := netReadIp b i

/-- The host name is empty. -/
def rpcAddCredentials : List UInt8 :=
  htonl 1 ++ htonl 20 ++ htonl 0 ++ htonl 0 ++ htonl 0 ++ htonl 0 ++ htonl 0 ++ htonl 0 ++ htonl 0

/-- A string with its length, padded to whole words. -/
def rpcString (str : List UInt8) : List UInt8 :=
  htonl str.length ++ str ++ List.replicate ((str.length + 3) / 4 * 4 - str.length) 0

/-- `rpc_req`: the request gets the next transaction identifier. -/
def rpcReq (s : Nfs) (rpcProg rpcProc : ℕ) (data : List UInt8) : Nfs × List NfsDatagram :=
  let id := s.rpcId + 1
  let pkt := ipBytes id ++ htonl 0 ++ htonl 2 ++ htonl rpcProg ++ htonl 2 ++ htonl rpcProc ++ data
  let sport :=
    if rpcProg = progPortmap then sunrpcPort
    else if rpcProg = progMount then s.nfsSrvMountPort
    else s.nfsSrvNfsPort
  ({ s with rpcId := id }, [⟨s.nfsServerIp, sport, s.nfsOurPort, pkt⟩])

def rpcLookupReq (s : Nfs) (prog ver : ℕ) : Nfs × List NfsDatagram :=
  rpcReq s progPortmap portmapGetport
    (htonl 0 ++ htonl 0 ++ htonl 0 ++ htonl 0 ++ htonl prog ++ htonl ver ++ htonl 17 ++ htonl 0)

def nfsMountReq (s : Nfs) (path : ℤ) : Nfs × List NfsDatagram :=
  rpcReq s progMount mountAddentry (rpcAddCredentials ++ rpcString (stringAt s.nfsPathBuff path))

def nfsUmountallReq (s : Nfs) : Nfs × List NfsDatagram :=
  if s.nfsSrvMountPort = -1 ∨ s.fsMounted = false then (s, [])
  else rpcReq s progMount mountUmountall rpcAddCredentials

def nfsReadlinkReq (s : Nfs) : Nfs × List NfsDatagram :=
  rpcReq s progNfs nfsReadlink (rpcAddCredentials ++ s.filefh.toList)

def nfsLookupReq (s : Nfs) (fname : ℤ) : Nfs × List NfsDatagram :=
  rpcReq s progNfs nfsLookup
    (rpcAddCredentials ++ s.dirfh.toList ++ rpcString (stringAt s.nfsPathBuff fname))

def nfsReadReq (s : Nfs) (offset readlen : BitVec 32) : Nfs × List NfsDatagram :=
  rpcReq s progNfs nfsRead
    (rpcAddCredentials ++ s.filefh.toList ++ ipBytes offset ++ ipBytes readlen ++ htonl 0)

def nfsSend (s : Nfs) : Nfs × List NfsDatagram :=
  match s.nfsState with
  | .prclookupProgMountReq => rpcLookupReq s progMount 1
  | .prclookupProgNfsReq => rpcLookupReq s progNfs 2
  | .mountReq => nfsMountReq s s.nfsPath
  | .umountReq => nfsUmountallReq s
  | .lookupReq => nfsLookupReq s s.nfsFilename
  | .readReq => nfsReadReq s s.nfsOffset s.nfsLen
  | .readlinkReq => nfsReadlinkReq s

/-! ## Replies -/

/-- The `struct rpc_t` after `memcpy` of the `len` received bytes. -/
def rpcPkt (stack pkt : Buf) (len : ℕ) : Buf := fun i => if i < len then pkt i else stack i

/-- The offset of `u.reply.data[i]`. -/
def replyData (i : ℕ) : ℕ := 24 + 4 * i

/-- One of `rstatus`, `verifier` and `astatus` is set. -/
def replyStatus (rpc : Buf) : Bool :=
  ntohl rpc 8 ≠ 0 ∨ ntohl rpc 12 ≠ 0 ∨ ntohl rpc 20 ≠ 0

/-- A file handle in a reply. -/
def replyHandle (rpc : Buf) : FileHandle := Vector.ofFn fun i => rpc (replyData 1 + i)

/-- `rpc_lookup_reply`, for the program that was asked for. -/
def rpcLookupReply (s : Nfs) (prog : ℕ) (rpc : Buf) : Nfs × Int :=
  if ntohl rpc 0 ≠ s.rpcId then (s, -1)
  else if replyStatus rpc then (s, -1)
  else if prog = progMount then ({ s with nfsSrvMountPort := ntohl rpc (replyData 0) }, 0)
  else if prog = progNfs then ({ s with nfsSrvNfsPort := ntohl rpc (replyData 0) }, 0)
  else (s, 0)

def nfsMountReply (s : Nfs) (rpc : Buf) : Nfs × Int :=
  if ntohl rpc 0 ≠ s.rpcId then (s, -1)
  else if replyStatus rpc ∨ ntohl rpc (replyData 0) ≠ 0 then (s, -1)
  else ({ s with fsMounted := true, dirfh := replyHandle rpc }, 0)

def nfsUmountallReply (s : Nfs) (rpc : Buf) : Nfs × Int :=
  if ntohl rpc 0 ≠ s.rpcId then (s, -1)
  else if replyStatus rpc then (s, -1)
  else ({ s with fsMounted := false, dirfh := Vector.replicate 32 0 }, 0)

def nfsLookupReply (s : Nfs) (rpc : Buf) : Nfs × Int :=
  if ntohl rpc 0 ≠ s.rpcId then (s, -1)
  else if replyStatus rpc ∨ ntohl rpc (replyData 0) ≠ 0 then (s, -1)
  else ({ s with filefh := replyHandle rpc }, 0)

/-- `nfs_readlink_reply`: a relative target is appended to the path, after a slash. -/
def nfsReadlinkReply (s : Nfs) (rpc : Buf) : Nfs × Int :=
  if ntohl rpc 0 ≠ s.rpcId then (s, -1)
  else if replyStatus rpc ∨ ntohl rpc (replyData 0) ≠ 0 then (s, -1)
  else
    let rlen := ntohl rpc (replyData 1)
    let target : Buf := fun i => rpc (replyData 2 + i)
    if rpc (replyData 2) ≠ 47 then
      let m := s.nfsPathBuff
      let slash := s.nfsPath + strlen m s.nfsPath
      let m := Function.update (Function.update m slash 47) (slash + 1) 0
      let pathlen := strlen m s.nfsPath
      let m := copyPath m (s.nfsPath + pathlen) target rlen.toNat
      ({ s with nfsPathBuff := Function.update m (s.nfsPath + (pathlen + rlen.toInt + 1)) 0 }, 0)
    else
      let m := copyPath s.nfsPathBuff s.nfsPath target rlen.toNat
      ({ s with nfsPathBuff := Function.update m (s.nfsPath + rlen.toInt) 0 }, 0)

/-- `nfs_read_reply`; `sizeof(rpc_pkt.u.reply)` bytes are copied, whatever the length, and the
data are stored from behind them. -/
def nfsReadReply (s : Nfs) (pkt : Buf) : Nfs × BitVec 32 :=
  if ntohl pkt 0 ≠ s.rpcId then (s, -1)
  else if replyStatus pkt ∨ ntohl pkt (replyData 0) ≠ 0 then
    if ntohl pkt 8 ≠ 0 then (s, -9999)
    else if ntohl pkt 20 ≠ 0 then (s, -9999)
    else (s, -ntohl pkt (replyData 0))
  else
    let rlen := ntohl pkt (replyData 18)
    (storeBlock s (fun i => pkt (replyData 19 + i)) s.nfsOffset rlen, rlen)

/-! ## The handlers -/

/-- The loop ends. -/
def Nfs.finish (s : Nfs) (state : NetState) : Nfs := { s with netState := state }

def Nfs.netSetTimeout (s : Nfs) : Nfs := { s with timer := true }

def nfsTimeout (s : Nfs) : Nfs × List NfsDatagram :=
  if s.nfsTimeoutCount < nfsRetryCount then
    nfsSend { s with nfsTimeoutCount := s.nfsTimeoutCount + 1 }
  else ({ s with nfsTimeoutCount := s.nfsTimeoutCount + 1 }.finish .fail, [])

/-- Go on with the request of `state`. -/
def Nfs.goto (s : Nfs) (state : NfsState) : Nfs × List NfsDatagram :=
  nfsSend { s with nfsState := state }

/-- The file is found; reading begins. -/
def Nfs.startRead (s : Nfs) : Nfs := { s with nfsOffset := 0, nfsLen := nfsReadSize }

/-- The target of a link is split into the directory and the file. -/
def Nfs.splitPath (s : Nfs) : Nfs :=
  { s with
    nfsFilename := basename s.nfsPathBuff s.nfsPath
    nfsPathBuff := dirname s.nfsPathBuff s.nfsPath }

/-- A block of `rlen` bytes was stored. -/
def Nfs.advance (s : Nfs) (rlen : BitVec 32) : Nfs := { s with nfsOffset := s.nfsOffset + rlen }

/-- The file is read, or there was an error. -/
def Nfs.downloaded (s : Nfs) (rlen : BitVec 32) : Nfs :=
  { s with nfsDownloadState := if rlen = 0 then .success else s.nfsDownloadState }

/-- What `NfsHandler` does after `nfs_read_reply`. -/
def afterRead (s : Nfs) (rlen : BitVec 32) : Nfs × List NfsDatagram :=
  if 0 < rlen.toInt then nfsSend (s.advance rlen)
  else if rlen = -nfserrIsdir ∨ rlen = -nfserrInval then s.goto .readlinkReq
  else (s.downloaded rlen).goto .umountReq

def nfsHandler (s : Nfs) (stack pkt : Buf) (dest : BitVec 32) (len : ℕ) : Nfs × List NfsDatagram :=
  if dest ≠ s.nfsOurPort then (s, [])
  else
    let rpc := rpcPkt stack pkt len
    match s.nfsState with
    | .prclookupProgMountReq => (rpcLookupReply s progMount rpc).1.goto .prclookupProgNfsReq
    | .prclookupProgNfsReq => (rpcLookupReply s progNfs rpc).1.goto .mountReq
    | .mountReq =>
      let reply := nfsMountReply s rpc
      if reply.2 ≠ 0 then reply.1.goto .umountReq else reply.1.goto .lookupReq
    | .umountReq =>
      let reply := nfsUmountallReply s rpc
      if reply.2 ≠ 0 then (reply.1.finish .fail, [])
      else (reply.1.finish reply.1.nfsDownloadState, [])
    | .lookupReq =>
      let reply := nfsLookupReply s rpc
      if reply.2 ≠ 0 then reply.1.goto .umountReq else reply.1.startRead.goto .readReq
    | .readlinkReq =>
      let reply := nfsReadlinkReply s rpc
      if reply.2 ≠ 0 then reply.1.goto .umountReq else reply.1.splitPath.goto .mountReq
    | .readReq =>
      let reply := nfsReadReply s pkt
      afterRead reply.1.netSetTimeout reply.2

end Net
end EmevBsp
