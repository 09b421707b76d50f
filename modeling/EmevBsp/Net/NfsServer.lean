import EmevBsp.Library.TransitionSystem
import EmevBsp.Library.LossyChannel
import EmevBsp.Net.NfsStale
import EmevBsp.Net.RoundTrip

/-!
# An NFS server and the network between it and the client

A server that conforms to the protocol answers a request with its transaction identifier; the
answers to the requests for ports, to MOUNT and to UMOUNTALL may be anything else.  A READ is
answered with an error, or with some of the bytes that were asked for, and with none only at the end
of the file.  What is read is a regular file, so that an answer to a READ does not say that it is a
directory or a link.  The results stand behind the verifier of the answer, which is `AUTH_NONE` or
one that the server has chosen, such as `AUTH_SHORT`; the client looks for them where they are behind
an empty one.  So of an answer with a verifier nothing is said here but its identifier.

The network may lose, duplicate, delay and reorder: at any time any answer to any request that was
sent may arrive, and as often as it likes.
-/

namespace EmevBsp
namespace Net

open Transactions

/-! ## Requests as the server sees them -/

/-- A call, with its transaction identifier. -/
def rpcCall (id : BitVec 32) (rpcProg rpcProc : ℕ) (data : List UInt8) : List UInt8 :=
  ipBytes id ++ htonl 0 ++ htonl 2 ++ htonl rpcProg ++ htonl 2 ++ htonl rpcProc ++ data

/-- A READ call. -/
def readCall (id : BitVec 32) (fh : FileHandle) (offset count : BitVec 32) : List UInt8 :=
  rpcCall id progNfs nfsRead
    (rpcAddCredentials ++ fh.toList ++ ipBytes offset ++ ipBytes count ++ htonl 0)

/-- A LOOKUP call. -/
def lookupCall (id : BitVec 32) (dir : FileHandle) (name : List UInt8) : List UInt8 :=
  rpcCall id progNfs nfsLookup (rpcAddCredentials ++ dir.toList ++ rpcString name)

/-- The transaction identifier of a request. -/
def requestId (d : NfsDatagram) : BitVec 32 := ntohl (fun i => d.data.getD i 0) 0

theorem requestId_rpcCall {d : NfsDatagram} {id : BitVec 32} {rpcProg rpcProc : ℕ}
    {data : List UInt8} (h : d.data = rpcCall id rpcProg rpcProc data) : requestId d = id := by
  rw [requestId, ntohl]
  refine netReadIp_ipBytes fun j hj => ?_
  have hbytes : d.data = ipBytes id ++ (htonl 0 ++ htonl 2 ++ htonl rpcProg ++ htonl 2 ++
      htonl rpcProc ++ data) := by
    rw [h, rpcCall]
    simp only [List.append_assoc]
  have hlen : (ipBytes id).length = 4 := rfl
  rw [hbytes, Nat.zero_add, List.getD_eq_getElem?_getD, List.getElem?_append_left (hlen ▸ hj),
    List.getElem?_eq_getElem, Option.getD_some, List.get_eq_getElem]

/-! ## The server -/

/-- The file of each handle; a file fits in the memory of the board. -/
structure NfsServer where
  file : FileHandle → List UInt8
  fits : ∀ fh, (file fh).length + 64 ≤ 2 ^ 32

/-- An error: the call was not accepted, or there is an NFS error other than the ones of a directory
or a link. -/
def ReadFails (pkt : Buf) : Prop :=
  ntohl pkt 8 ≠ 0 ∨ ntohl pkt 20 ≠ 0 ∨
    0 < (ntohl pkt (replyData 0)).toInt ∧ ntohl pkt (replyData 0) ≠ nfserrIsdir ∧
      ntohl pkt (replyData 0) ≠ nfserrInval

/-- Some of the bytes that were asked for; none only at the end of the file. -/
def ReadGives (file : List UInt8) (offset count : BitVec 32) (pkt : Buf) : Prop :=
  ntohl pkt 8 = 0 ∧ ntohl pkt 20 = 0 ∧ ntohl pkt (replyData 0) = 0 ∧
    ntohl pkt (replyData 18) ≤ count ∧
    (ntohl pkt (replyData 18) = 0 → file.length ≤ offset.toNat) ∧
    ∀ k < (ntohl pkt (replyData 18)).toNat,
      some (pkt (replyData 19 + k)) = file[offset.toNat + k]?

/-- The verifier is `AUTH_NONE`, with nothing behind it. -/
def NoVerifier (pkt : Buf) : Prop := ntohl pkt 12 = 0 ∧ ntohl pkt 16 = 0

/-- An answer of `len` bytes with a handle: the call was accepted, and there is no NFS error. -/
def LookupGives (pkt : Buf) (len : ℕ) : Prop :=
  ntohl pkt 8 = 0 ∧ ntohl pkt 20 = 0 ∧ ntohl pkt (replyData 0) = 0 ∧ 60 ≤ len

/-- The request is a LOOKUP. -/
def IsLookup (d : NfsDatagram) : Prop := ∃ dir name, d.data = lookupCall (requestId d) dir name

/-- **An answer to a request**, of `len` bytes. -/
structure NfsServer.Answers (S : NfsServer) (d : NfsDatagram) (pkt : Buf) (len : ℕ) : Prop where
  id : ntohl pkt 0 = requestId d
  long : 24 ≤ len
  lookup : NoVerifier pkt → IsLookup d → ntohl pkt 8 ≠ 0 ∨ ntohl pkt 20 ≠ 0 ∨
    (28 ≤ len ∧ ntohl pkt (replyData 0) ≠ 0) ∨ LookupGives pkt len
  read : NoVerifier pkt → ∀ fh offset count, d.data = readCall (requestId d) fh offset count →
    ReadFails pkt ∨ ReadGives (S.file fh) offset count pkt

/-! ## Runs -/

/-- What `NetLoop` and `NfsStart` have set before the first request is sent. -/
structure NfsStarted (s : Nfs) : Prop where
  netState : s.netState = .continue
  netBootFileXferSize : s.netBootFileXferSize = 0
  nfsDownloadState : s.nfsDownloadState = .fail
  nfsTimeoutCount : s.nfsTimeoutCount = 0
  nfsState : s.nfsState = .prclookupProgMountReq

/-- The client, all the requests that it sent, and the answers that have arrived. -/
structure NfsWorld where
  client : Nfs
  sent : List NfsDatagram
  arrived : List (NfsDatagram × Buf)

/-- A handler was called. -/
def NfsWorld.after (w : NfsWorld) (r : Nfs × List NfsDatagram) (arrived : List (NfsDatagram × Buf)) :
    NfsWorld := ⟨r.1, w.sent ++ r.2, w.arrived ++ arrived⟩

/-- An answer arrives, or the timer runs out. -/
inductive NfsEvent where
  | receive (d : NfsDatagram) (stack pkt : Buf) (dest : BitVec 32) (len : ℕ)
  | timeout

/-- **The client and the network.** -/
def nfsRuns (S : NfsServer) : TransitionSystem NfsWorld NfsEvent where
  init w := ∃ s, NfsStarted s ∧ w = ⟨(nfsSend s).1, (nfsSend s).2, []⟩
  step w a w' :=
    match a with
    | .receive d stack pkt dest len =>
      d ∈ w.sent ∧ S.Answers d pkt len ∧
        w' = w.after (nfsHandler w.client stack pkt dest len) [(d, pkt)]
    | .timeout => w' = w.after (nfsTimeout w.client) []

/-- **The answer is not misread**: the answer to a LOOKUP or a READ that the client waits for has no
verifier, or the client takes it for an error. -/
def Understood (w : NfsWorld) (a : NfsEvent) : Prop :=
  match a with
  | .receive _ stack pkt dest len =>
    dest = w.client.nfsOurPort → ntohl pkt 0 = w.client.rpcId → NoVerifier pkt ∨
      (w.client.nfsState = .lookupReq → (nfsLookupReply w.client (rpcPkt stack pkt len)).2 ≠ 0) ∧
      (w.client.nfsState = .readReq → ReadFails pkt)
  | .timeout => True

/-! ## What a request is -/

theorem rpcReq_eq (s : Nfs) (rpcProg rpcProc : ℕ) (data : List UInt8) :
    ∃ d, rpcReq s rpcProg rpcProc data = ({ s with rpcId := s.rpcId + 1 }, [d]) ∧
      d.data = rpcCall (s.rpcId + 1) rpcProg rpcProc data :=
  ⟨_, rfl, rfl⟩

/-- The next request, if there is one to send. -/
def SendsNext (s : Nfs) : Prop :=
  (∃ d, nfsSend s = ({ s with rpcId := s.rpcId + 1 }, [d]) ∧ requestId d = s.rpcId + 1 ∧
      (s.nfsState = .lookupReq → ∃ dir name, d.data = lookupCall (s.rpcId + 1) dir name) ∧
      (s.nfsState = .readReq →
        d.data = readCall (s.rpcId + 1) s.filefh s.nfsOffset s.nfsLen)) ∨
    s.nfsState = .umountReq ∧ nfsSend s = (s, [])

theorem sendsNext_of_other {s : Nfs} {rpcProg rpcProc : ℕ} {data : List UInt8}
    (h : nfsSend s = rpcReq s rpcProg rpcProc data) (hlookup : s.nfsState ≠ .lookupReq)
    (hread : s.nfsState ≠ .readReq) : SendsNext s := by
  obtain ⟨d, hreq, hd⟩ := rpcReq_eq s rpcProg rpcProc data
  exact .inl ⟨d, h.trans hreq, requestId_rpcCall hd, fun hs => absurd hs hlookup,
    fun hs => absurd hs hread⟩

theorem nfsSend_cases (s : Nfs) : SendsNext s := by
  have hstate : ∀ st, s.nfsState = st → SendsNext s := by
    intro st hst
    have hne : ∀ {st'}, st ≠ st' → s.nfsState ≠ st' := fun h h' => h (hst.symm.trans h')
    cases st with
    | prclookupProgMountReq =>
      have hsend : nfsSend s = rpcLookupReq s progMount 1 := by rw [nfsSend, hst]
      exact sendsNext_of_other hsend (hne (by decide)) (hne (by decide))
    | prclookupProgNfsReq =>
      have hsend : nfsSend s = rpcLookupReq s progNfs 2 := by rw [nfsSend, hst]
      exact sendsNext_of_other hsend (hne (by decide)) (hne (by decide))
    | mountReq =>
      have hsend : nfsSend s = nfsMountReq s s.nfsPath := by rw [nfsSend, hst]
      exact sendsNext_of_other hsend (hne (by decide)) (hne (by decide))
    | umountReq =>
      have hsend : nfsSend s = nfsUmountallReq s := by rw [nfsSend, hst]
      rw [nfsUmountallReq] at hsend
      split_ifs at hsend
      · exact .inr ⟨hst, hsend⟩
      · exact sendsNext_of_other hsend (hne (by decide)) (hne (by decide))
    | lookupReq =>
      have hsend : nfsSend s = nfsLookupReq s s.nfsFilename := by rw [nfsSend, hst]
      obtain ⟨d, hreq, hd⟩ := rpcReq_eq s progNfs nfsLookup _
      exact .inl ⟨d, hsend.trans hreq, requestId_rpcCall hd, fun _ => ⟨_, _, hd⟩,
        fun h => absurd h (hne (by decide))⟩
    | readReq =>
      have hsend : nfsSend s = nfsReadReq s s.nfsOffset s.nfsLen := by rw [nfsSend, hst]
      obtain ⟨d, hreq, hd⟩ := rpcReq_eq s progNfs nfsRead _
      exact .inl ⟨d, hsend.trans hreq, requestId_rpcCall hd, fun h => absurd h (hne (by decide)),
        fun _ => hd⟩
    | readlinkReq =>
      have hsend : nfsSend s = nfsReadlinkReq s := by rw [nfsSend, hst]
      exact sendsNext_of_other hsend (hne (by decide)) (hne (by decide))
  exact hstate _ rfl

end Net
end EmevBsp
