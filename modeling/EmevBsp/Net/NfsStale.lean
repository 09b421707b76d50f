import EmevBsp.Net.Nfs

/-!
# `net/nfs.c`: replies to earlier requests

Every reply function compares the transaction identifier and returns an error when it is not that
of the outstanding request.  `NfsHandler` takes that error for a failure of the outstanding
request, or does not look at it, and goes on to another request.
-/

namespace EmevBsp
namespace Net

variable {s : Nfs} {stack pkt : Buf} {dest : BitVec 32} {len : ℕ}

/-! ## What a stale reply leads to -/

theorem rpcReq_fst (s : Nfs) (rpcProg rpcProc : ℕ) (data : List UInt8) :
    (rpcReq s rpcProg rpcProc data).1 = { s with rpcId := s.rpcId + 1 } := rfl

theorem nfsSend_fst (s : Nfs) : ∃ id, (nfsSend s).1 = { s with rpcId := id } := by
  rw [nfsSend]
  split
  case h_4 =>
    rw [nfsUmountallReq]
    split
    · exact ⟨s.rpcId, rfl⟩
    · exact ⟨_, rpcReq_fst s _ _ _⟩
  all_goals exact ⟨_, rpcReq_fst s _ _ _⟩

theorem ntohl_rpcPkt {i : ℕ} (hlen : i + 4 ≤ len) :
    ntohl (rpcPkt stack pkt len) i = ntohl pkt i := by
  rw [ntohl, netReadIp, rpcPkt, rpcPkt, rpcPkt, rpcPkt, if_pos (by omega), if_pos (by omega),
    if_pos (by omega), if_pos (by omega)]
  rfl

/-- The state that the handler goes on to when the reply is not the one it waits for. -/
def staleNext : NfsState → NfsState
  | .prclookupProgMountReq => .prclookupProgNfsReq
  | .prclookupProgNfsReq => .mountReq
  | .mountReq | .umountReq | .lookupReq | .readReq | .readlinkReq => .umountReq

theorem staleNext_eq_iff (st : NfsState) : staleNext st = st ↔ st = .umountReq := by
  cases st <;> decide

theorem minus_one_ne_zero : (-1 : ℤ) ≠ 0 := by decide

/-- **A stale reply moves the client on**, as if the outstanding request had been answered or
had failed. -/
theorem nfsHandler_stale (hport : dest = s.nfsOurPort) (hlen : 4 ≤ len)
    (hstale : ntohl pkt 0 ≠ s.rpcId) (hstate : s.nfsState ≠ .umountReq) :
    (nfsHandler s stack pkt dest len).1.nfsState = staleNext s.nfsState := by
  have hrpc : ntohl (rpcPkt stack pkt len) 0 ≠ s.rpcId := by rwa [ntohl_rpcPkt hlen]
  have hgoto : ∀ (t : Nfs) (st : NfsState), (t.goto st).1.nfsState = st := by
    intro t st
    obtain ⟨id, hsend⟩ := nfsSend_fst { t with nfsState := st }
    rw [Nfs.goto, hsend]
  rw [nfsHandler, if_neg (not_not.mpr hport)]
  cases hst : s.nfsState with
  | prclookupProgMountReq => exact hgoto _ _
  | prclookupProgNfsReq => exact hgoto _ _
  | mountReq =>
    have hreply : nfsMountReply s (rpcPkt stack pkt len) = (s, -1) := if_pos hrpc
    simp only [hreply]
    rw [if_pos minus_one_ne_zero]
    exact hgoto _ _
  | umountReq => exact absurd hst hstate
  | lookupReq =>
    have hreply : nfsLookupReply s (rpcPkt stack pkt len) = (s, -1) := if_pos hrpc
    simp only [hreply]
    rw [if_pos minus_one_ne_zero]
    exact hgoto _ _
  | readReq =>
    -- `-1` is no length, and none of the errors that a symbolic link gives
    have hreply : nfsReadReply s pkt = (s, -1) := if_pos hstale
    simp only [hreply]
    rw [afterRead, if_neg (by decide), if_neg (by decide)]
    exact hgoto _ _
  | readlinkReq =>
    have hreply : nfsReadlinkReply s (rpcPkt stack pkt len) = (s, -1) := if_pos hrpc
    simp only [hreply]
    rw [if_pos minus_one_ne_zero]
    exact hgoto _ _

theorem nfsHandler_stale_umount (hport : dest = s.nfsOurPort) (hlen : 4 ≤ len)
    (hstale : ntohl pkt 0 ≠ s.rpcId) (hstate : s.nfsState = .umountReq) :
    (nfsHandler s stack pkt dest len).1 = s.finish .fail := by
  have hrpc : ntohl (rpcPkt stack pkt len) 0 ≠ s.rpcId := by rwa [ntohl_rpcPkt hlen]
  rw [nfsHandler, if_neg (not_not.mpr hport)]
  have hreply : nfsUmountallReply s (rpcPkt stack pkt len) = (s, -1) := if_pos hrpc
  simp only [hstate, hreply]
  rw [if_pos minus_one_ne_zero]

/-! ## Where a stale reply changes nothing -/

/-- What the client has learned, and where it is. -/
structure SameProgress (s t : Nfs) : Prop where
  nfsState : t.nfsState = s.nfsState
  nfsSrvMountPort : t.nfsSrvMountPort = s.nfsSrvMountPort
  nfsSrvNfsPort : t.nfsSrvNfsPort = s.nfsSrvNfsPort
  dirfh : t.dirfh = s.dirfh
  filefh : t.filefh = s.filefh
  nfsOffset : t.nfsOffset = s.nfsOffset
  mem : t.mem = s.mem
  netBootFileXferSize : t.netBootFileXferSize = s.netBootFileXferSize

/-- **When a stale reply is ignored.**  The state, the ports, the handles, the offset and the
loaded bytes stay exactly when the packet is not for the client, or the client unmounts.  In the
second case the load fails, so that with `NetState` the packet must not be for the client, as
long as the loop runs. -/
theorem nfsHandler_stale_iff (s : Nfs) (stack pkt : Buf) (dest : BitVec 32) (len : ℕ)
    (hlen : 4 ≤ len) (hstale : ntohl pkt 0 ≠ s.rpcId) :
    (SameProgress s (nfsHandler s stack pkt dest len).1 ↔
      dest ≠ s.nfsOurPort ∨ s.nfsState = .umountReq) ∧
    (SameProgress s (nfsHandler s stack pkt dest len).1 ∧
        (nfsHandler s stack pkt dest len).1.netState = s.netState ↔
      dest ≠ s.nfsOurPort ∨ s.nfsState = .umountReq ∧ s.netState = .fail) := by
  by_cases hport : dest = s.nfsOurPort
  · by_cases hstate : s.nfsState = .umountReq
    · have hsame : SameProgress s (s.finish .fail) := by constructor <;> rfl
      rw [nfsHandler_stale_umount hport hlen hstale hstate]
      refine ⟨iff_of_true hsame (.inr hstate), ?_⟩
      constructor
      · rintro ⟨-, hnet⟩
        exact .inr ⟨hstate, hnet.symm⟩
      · rintro (hother | ⟨-, hnet⟩)
        · exact absurd hport hother
        · exact ⟨hsame, hnet.symm⟩
    · have hchanged : ¬SameProgress s (nfsHandler s stack pkt dest len).1 := by
        intro hsame
        have hnext : (nfsHandler s stack pkt dest len).1.nfsState = staleNext s.nfsState :=
          nfsHandler_stale hport hlen hstale hstate
        exact hstate ((staleNext_eq_iff _).mp (hnext.symm.trans hsame.nfsState))
      refine ⟨iff_of_false hchanged ?_, iff_of_false (fun h => hchanged h.1) ?_⟩
      · rintro (hother | hum)
        · exact hother hport
        · exact hstate hum
      · rintro (hother | ⟨hum, -⟩)
        · exact hother hport
        · exact hstate hum
  · have hdrop : (nfsHandler s stack pkt dest len).1 = s := by rw [nfsHandler, if_pos hport]
    have hsame : SameProgress s s := by constructor <;> rfl
    rw [hdrop]
    exact ⟨iff_of_true hsame (.inl hport), iff_of_true ⟨hsame, rfl⟩ (.inl hport)⟩

/-- A client that reads its file and waits for the reply to request 7. -/
def exampleNfs : Nfs where
  netState := .continue
  timer := true
  fsMounted := true
  rpcId := 7
  nfsOffset := 1024
  nfsLen := nfsReadSize
  dirfh := Vector.replicate 32 0
  filefh := Vector.replicate 32 0
  nfsDownloadState := .fail
  nfsServerIp := 0x0a000001
  nfsSrvMountPort := 635
  nfsSrvNfsPort := 2049
  nfsOurPort := 1000
  nfsTimeoutCount := 0
  nfsState := .readReq
  nfsPathBuff := fun _ => 0
  nfsPath := 0
  nfsFilename := 0
  mem := fun _ => 0
  loadAddr := 0
  netBootFileXferSize := 1024

theorem nfsHandler_stale_iff_read :
    (SameProgress exampleNfs (nfsHandler exampleNfs (fun _ => 0) (fun _ => 0) 1000 128).1 ↔
      (1000 : BitVec 32) ≠ exampleNfs.nfsOurPort ∨ exampleNfs.nfsState = .umountReq) ∧
    (SameProgress exampleNfs (nfsHandler exampleNfs (fun _ => 0) (fun _ => 0) 1000 128).1 ∧
        (nfsHandler exampleNfs (fun _ => 0) (fun _ => 0) 1000 128).1.netState =
          exampleNfs.netState ↔
      (1000 : BitVec 32) ≠ exampleNfs.nfsOurPort ∨
        exampleNfs.nfsState = .umountReq ∧ exampleNfs.netState = .fail) :=
  nfsHandler_stale_iff exampleNfs _ _ 1000 128 (by decide) (by decide)

/-- **A stale reply is not ignored**: the client gives up reading. -/
theorem not_nfsHandler_stale :
    ¬∀ (s : Nfs) (stack pkt : Buf) (dest : BitVec 32) (len : ℕ), 4 ≤ len →
      ntohl pkt 0 ≠ s.rpcId → SameProgress s (nfsHandler s stack pkt dest len).1 := by
  intro hall
  have hsame := hall exampleNfs (fun _ => 0) (fun _ => 0) 1000 128 (by decide) (by decide)
  have hnext : (nfsHandler exampleNfs (fun _ => 0) (fun _ => 0) 1000 128).1.nfsState = .umountReq :=
    nfsHandler_stale rfl (by decide) (by decide) (by decide)
  exact absurd (hnext.symm.trans hsame.nfsState) (by decide)

end Net
end EmevBsp
