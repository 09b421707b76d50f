import EmevBsp.Net.NfsServer

/-!
# What the NFS client has loaded

While the client reads, its last request is the READ at `nfs_offset`, and the bytes in front of
`nfs_offset` are loaded.  An answer to an earlier request has another transaction identifier; the
client takes it for an error, or goes on as if it were the answer it waits for, but not to a success.

The identifiers do not run around: each state sends one request, each READ moves the client on, and
there are no more than `NFS_RETRY_COUNT` repetitions in all.

* `NfsInv`: what holds in each state; `inv_receive`: a datagram keeps it.
* `nfs_loaded`: **at a success the file is loaded**, in every run whose answers are understood.
* `nfs_loaded_hi`: two bytes in two blocks; `not_nfs_loaded`: an answer with a verifier.
-/

namespace EmevBsp
namespace Net

open Transactions

/-! ## The invariant -/

/-- Nothing is loaded yet. -/
def Waits (c : Nfs) : Prop :=
  c.nfsDownloadState = .fail ∧ c.netState ≠ .success ∧ c.netBootFileXferSize = 0

/-- The first `n` bytes of a file are loaded, and no more. -/
def Stored (c : Nfs) (file : List UInt8) (n : ℕ) : Prop :=
  n ≤ file.length ∧ c.netBootFileXferSize.toNat = n ∧
    ∀ x < n, some (c.mem (c.loadAddr + BitVec.ofNat 32 x)) = file[x]?

/-- A handle is the one that an answer to a LOOKUP has returned. -/
def FoundBy (arrived : List (NfsDatagram × Buf)) (fh : FileHandle) : Prop :=
  ∃ d pkt, (d, pkt) ∈ arrived ∧ IsLookup d ∧ NoVerifier pkt ∧
    (∃ len, LookupGives pkt len) ∧ fh = replyHandle pkt

/-- The requests that were repeated. -/
def retries (c : Nfs) : ℕ := min c.nfsTimeoutCount nfsRetryCount

theorem retries_le (c : Nfs) : retries c ≤ 30 := Nat.min_le_right _ _

/-- **What holds in each state**, when `slack` requests may still be sent. -/
def Progress (S : NfsServer) (arrived : List (NfsDatagram × Buf)) (c : Nfs)
    (sent : List NfsDatagram) (slack : ℕ) : Prop :=
  match c.nfsState with
  | .prclookupProgMountReq => Waits c ∧ sent.length + slack ≤ 1 + retries c
  | .prclookupProgNfsReq => Waits c ∧ sent.length + slack ≤ 2 + retries c
  | .mountReq => Waits c ∧ sent.length + slack ≤ 3 + retries c
  | .lookupReq => Waits c ∧ sent.length + slack ≤ 4 + retries c
  | .readReq =>
    (c.nfsDownloadState = .fail ∧ c.netState ≠ .success) ∧ FoundBy arrived c.filefh ∧
      Stored c (S.file c.filefh) c.nfsOffset.toNat ∧ c.nfsLen = nfsReadSize ∧
      sent.length + slack ≤ 5 + retries c + c.nfsOffset.toNat
  | .umountReq =>
    (c.netState = .success → c.nfsDownloadState = .success) ∧
      (c.nfsDownloadState = .success →
        FoundBy arrived c.filefh ∧ Stored c (S.file c.filefh) (S.file c.filefh).length)
  | .readlinkReq => False

/-- **The invariant.**  The last request is the one of the state. -/
structure NfsInv (S : NfsServer) (arrived : List (NfsDatagram × Buf)) (base : BitVec 32) (c : Nfs)
    (sent : List NfsDatagram) : Prop where
  numbered : Numbered requestId base sent
  rpcId : c.rpcId = base + BitVec.ofNat 32 sent.length
  progress : Progress S arrived c sent 0
  lookup : c.nfsState = .lookupReq →
    ∃ d, sent.getLast? = some d ∧ ∃ dir name, d.data = lookupCall c.rpcId dir name
  read : c.nfsState = .readReq →
    ∃ d, sent.getLast? = some d ∧ d.data = readCall c.rpcId c.filefh c.nfsOffset c.nfsLen

variable {S : NfsServer} {arrived : List (NfsDatagram × Buf)} {base : BitVec 32} {c : Nfs}
  {sent : List NfsDatagram}

theorem FoundBy.append {fh : FileHandle} (h : FoundBy arrived fh)
    (l : List (NfsDatagram × Buf)) : FoundBy (arrived ++ l) fh := by
  obtain ⟨d, pkt, hmem, hfound⟩ := h
  exact ⟨d, pkt, List.mem_append_left l hmem, hfound⟩

theorem Progress.append (h : Progress S arrived c sent 1) (d : NfsDatagram) :
    Progress S arrived c (sent ++ [d]) 0 := by
  have hlen : (sent ++ [d]).length = sent.length + 1 := List.length_append
  rw [Progress] at h ⊢
  rw [hlen]
  split at h
  · exact h
  · exact h
  · exact h
  · exact h
  · exact h
  · exact h
  · exact h

theorem inv_send (hnumbered : Numbered requestId base sent)
    (hid : c.rpcId = base + BitVec.ofNat 32 sent.length) (hprogress : Progress S arrived c sent 1) :
    NfsInv S arrived base (nfsSend c).1 (sent ++ (nfsSend c).2) := by
  have hnext : c.rpcId + 1 = base + BitVec.ofNat 32 (sent.length + 1) := by
    rw [hid, BitVec.ofNat_add, ← BitVec.add_assoc]
    rfl
  rcases nfsSend_cases c with ⟨d, hsend, hd, hlookup, hread⟩ | ⟨hstate, hsend⟩
  · rw [hsend]
    refine ⟨hnumbered.append (hd.trans hnext), ?_, hprogress.append d, fun hs => ?_, fun hs => ?_⟩
    · rw [List.length_append]
      exact hnext
    · exact ⟨d, List.getLast?_concat, hlookup hs⟩
    · exact ⟨d, List.getLast?_concat, hread hs⟩
  · rw [hsend, List.append_nil]
    refine ⟨hnumbered, hid, ?_, fun hs => ?_, fun hs => ?_⟩
    · rw [Progress, hstate] at hprogress ⊢
      exact hprogress
    · exact absurd (hstate.symm.trans hs) (by simp)
    · exact absurd (hstate.symm.trans hs) (by simp)

theorem inv_timeout (h : NfsInv S arrived base c sent) :
    NfsInv S arrived base (nfsTimeout c).1 (sent ++ (nfsTimeout c).2) := by
  have hprogress := h.progress
  rw [nfsTimeout]
  split_ifs with hretry
  · refine inv_send h.numbered h.rpcId ?_
    have hretries : retries { c with nfsTimeoutCount := c.nfsTimeoutCount + 1 } = retries c + 1 := by
      rw [retries, retries]
      dsimp only
      omega
    rw [Progress] at hprogress ⊢
    rw [hretries]
    split at hprogress
    all_goals rename_i hst
    all_goals simp only [hst]
    · exact ⟨hprogress.1, by omega⟩
    · exact ⟨hprogress.1, by omega⟩
    · exact ⟨hprogress.1, by omega⟩
    · exact ⟨hprogress.1, by omega⟩
    · obtain ⟨hfail, hfound, hstored, hsize, hcount⟩ := hprogress
      exact ⟨hfail, hfound, hstored, hsize, by omega⟩
    · exact hprogress
    · exact hprogress
  · rw [List.append_nil]
    refine ⟨h.numbered, h.rpcId, ?_, h.lookup, h.read⟩
    have hretries : retries ({ c with nfsTimeoutCount := c.nfsTimeoutCount + 1 }.finish .fail) =
        retries c := by
      rw [retries, retries, Nfs.finish]
      dsimp only
      omega
    rw [Progress] at hprogress ⊢
    rw [hretries]
    rw [Nfs.finish]
    split at hprogress
    all_goals rename_i hst
    all_goals simp only [hst]
    · exact ⟨⟨hprogress.1.1, by simp, hprogress.1.2.2⟩, hprogress.2⟩
    · exact ⟨⟨hprogress.1.1, by simp, hprogress.1.2.2⟩, hprogress.2⟩
    · exact ⟨⟨hprogress.1.1, by simp, hprogress.1.2.2⟩, hprogress.2⟩
    · exact ⟨⟨hprogress.1.1, by simp, hprogress.1.2.2⟩, hprogress.2⟩
    · exact ⟨⟨hprogress.1.1, by simp⟩, hprogress.2⟩
    · exact ⟨by simp, hprogress.2⟩
    · exact hprogress

theorem NfsInv.eq_last (h : NfsInv S arrived base c sent) (hlen : sent.length < 2 ^ 32) {d : NfsDatagram}
    (hd : d ∈ sent) {pkt : Buf} (hnumber' : ntohl pkt 0 = requestId d)
    (hid : ntohl pkt 0 = c.rpcId) :
    sent.getLast? = some d ∧ requestId d = c.rpcId := by
  have hnumber : requestId d = c.rpcId := hnumber'.symm.trans hid
  exact ⟨h.numbered.eq_last hlen hd (hnumber.trans h.rpcId), hnumber⟩

/-! ## The answers -/

theorem inv_giveUp (hnumbered : Numbered requestId base sent)
    (hid : c.rpcId = base + BitVec.ofNat 32 sent.length) (hfail : c.nfsDownloadState = .fail)
    (hnet : c.netState ≠ .success) :
    NfsInv S arrived base (c.goto .umountReq).1 (sent ++ (c.goto .umountReq).2) := by
  refine inv_send hnumbered hid ?_
  rw [Progress]
  exact ⟨fun h => absurd h hnet, fun h => absurd (hfail.symm.trans h) (by simp)⟩

theorem rpcLookupReply_fst (c : Nfs) (prog : ℕ) (rpc : Buf) : ∃ p q,
    (rpcLookupReply c prog rpc).1 = { c with nfsSrvMountPort := p, nfsSrvNfsPort := q } := by
  rw [rpcLookupReply]
  split_ifs
  · exact ⟨_, _, rfl⟩
  · exact ⟨_, _, rfl⟩
  · exact ⟨_, _, rfl⟩
  · exact ⟨_, _, rfl⟩
  · exact ⟨_, _, rfl⟩

theorem nfsMountReply_cases (c : Nfs) (rpc : Buf) :
    nfsMountReply c rpc = (c, -1) ∨
      nfsMountReply c rpc = ({ c with fsMounted := true, dirfh := replyHandle rpc }, 0) := by
  rw [nfsMountReply]
  split_ifs
  · exact .inl rfl
  · exact .inl rfl
  · exact .inr rfl

theorem nfsLookupReply_cases (c : Nfs) (rpc : Buf) :
    nfsLookupReply c rpc = (c, -1) ∨
      ntohl rpc 0 = c.rpcId ∧ nfsLookupReply c rpc = ({ c with filefh := replyHandle rpc }, 0) := by
  rw [nfsLookupReply]
  split_ifs with hid
  · exact .inl rfl
  · exact .inl rfl
  · exact .inr ⟨not_not.mp hid, rfl⟩

theorem nfsLookupReply_zero {rpc : Buf} (h : (nfsLookupReply c rpc).2 = 0) :
    ntohl rpc 8 = 0 ∧ ntohl rpc 20 = 0 ∧ ntohl rpc (replyData 0) = 0 := by
  rw [nfsLookupReply] at h
  split_ifs at h with hid hbad
  · exact absurd h minus_one_ne_zero
  · exact absurd h minus_one_ne_zero
  · rw [not_or, replyStatus, decide_eq_true_iff] at hbad
    tauto

theorem nfsUmountallReply_cases (c : Nfs) (rpc : Buf) :
    nfsUmountallReply c rpc = (c, -1) ∨ nfsUmountallReply c rpc =
      ({ c with fsMounted := false, dirfh := Vector.replicate 32 0 }, 0) := by
  rw [nfsUmountallReply]
  split_ifs
  · exact .inl rfl
  · exact .inl rfl
  · exact .inr rfl

/-! ## The answer to a READ -/

theorem stored_storeBlock {file : List UInt8} {src : Buf} {rlen : BitVec 32}
    (hstored : Stored c file c.nfsOffset.toNat) (hfits : file.length + 64 ≤ 2 ^ 32)
    (hle : c.nfsOffset.toNat + rlen.toNat ≤ file.length)
    (hbytes : ∀ k < rlen.toNat, some (src k) = file[c.nfsOffset.toNat + k]?) :
    Stored (storeBlock c src c.nfsOffset rlen) file (c.nfsOffset.toNat + rlen.toNat) := by
  obtain ⟨-, hsize, hmem⟩ := hstored
  have hend : (c.nfsOffset + rlen).toNat = c.nfsOffset.toNat + rlen.toNat := by
    rw [BitVec.toNat_add]
    exact Nat.mod_eq_of_lt (by omega)
  refine ⟨hle, ?_, fun x hx => ?_⟩
  · rw [storeBlock]
    dsimp only
    split_ifs with hlt
    · exact hend
    · rw [BitVec.lt_def, hend] at hlt
      omega
  · have haddr : (c.loadAddr + BitVec.ofNat 32 x - (c.loadAddr + c.nfsOffset)).toNat =
        (x + (2 ^ 32 - c.nfsOffset.toNat)) % 2 ^ 32 := by
      have hsub : c.loadAddr + BitVec.ofNat 32 x - (c.loadAddr + c.nfsOffset) =
          BitVec.ofNat 32 x - c.nfsOffset := by bv_omega
      rw [hsub, BitVec.toNat_sub, BitVec.toNat_ofNat, Nat.add_mod_mod, Nat.add_comm]
    rw [storeBlock]
    dsimp only
    rw [haddr]
    by_cases hbefore : x < c.nfsOffset.toNat
    · rw [if_neg (by omega)]
      exact hmem x hbefore
    · obtain ⟨k, rfl⟩ := Nat.exists_eq_add_of_le (Nat.le_of_not_lt hbefore)
      have hk : (c.nfsOffset.toNat + k + (2 ^ 32 - c.nfsOffset.toNat)) % 2 ^ 32 = k := by omega
      rw [hk, if_pos (by omega)]
      exact hbytes k (by omega)

theorem inv_readError (hnumbered : Numbered requestId base sent)
    (hid : c.rpcId = base + BitVec.ofNat 32 sent.length) (hfail : c.nfsDownloadState = .fail)
    (hnet : c.netState ≠ .success) {rlen : BitVec 32} (hpos : ¬ 0 < rlen.toInt) (hzero : rlen ≠ 0)
    (hlink : ¬ (rlen = -nfserrIsdir ∨ rlen = -nfserrInval)) :
    NfsInv S arrived base (afterRead c rlen).1 (sent ++ (afterRead c rlen).2) := by
  have hsame : c.downloaded rlen = c := by
    rw [Nfs.downloaded, if_neg hzero]
  rw [afterRead, if_neg hpos, if_neg hlink, hsame]
  exact inv_giveUp hnumbered hid hfail hnet

theorem neg_status {status : BitVec 32} (h : 0 < status.toInt) :
    ¬ 0 < (-status).toInt ∧ -status ≠ 0 := by
  have hneg : (-status).toNat = (2 ^ 32 - status.toNat) % 2 ^ 32 := BitVec.toNat_neg status
  have hlt := status.isLt
  rw [BitVec.toInt_eq_toNat_cond] at h ⊢
  refine ⟨?_, fun hzero => ?_⟩
  · split_ifs at h ⊢
    all_goals omega
  · have hnat := congrArg BitVec.toNat hzero
    rw [hneg] at hnat
    split_ifs at h
    all_goals simp at hnat
    all_goals omega

/-- **A block of the file** is stored behind the ones before it; an empty one ends the file. -/
theorem inv_block (h : NfsInv S arrived base c sent) (hst : c.nfsState = .readReq) {src : Buf}
    {rlen : BitVec 32} (hshort : rlen.toNat ≤ 1024)
    (hend : rlen = 0 → (S.file c.filefh).length ≤ c.nfsOffset.toNat)
    (hbytes : ∀ k < rlen.toNat, some (src k) = (S.file c.filefh)[c.nfsOffset.toNat + k]?) :
    NfsInv S arrived base (afterRead (storeBlock c src c.nfsOffset rlen).netSetTimeout rlen).1
      (sent ++ (afterRead (storeBlock c src c.nfsOffset rlen).netSetTimeout rlen).2) := by
  have hprogress := h.progress
  rw [Progress, hst] at hprogress
  obtain ⟨⟨hfail, hnet⟩, hfound, hstored, hsize, hcount⟩ := hprogress
  have hfits := S.fits c.filefh
  have hle := hstored.1
  have hretries := retries_le c
  have hin : c.nfsOffset.toNat + rlen.toNat ≤ (S.file c.filefh).length := by
    by_cases hnone : rlen.toNat = 0
    · omega
    · have hlastByte := hbytes (rlen.toNat - 1) (by omega)
      have := (List.getElem?_eq_some_iff.mp hlastByte.symm).1
      omega
  have hstored' := stored_storeBlock hstored hfits hin hbytes
  have hint : rlen.toInt = rlen.toNat := BitVec.toInt_eq_toNat_of_lt (by omega)
  rw [afterRead]
  by_cases hpos : 0 < rlen.toInt
  · rw [if_pos hpos]
    refine inv_send h.numbered h.rpcId ?_
    have hadd : (c.nfsOffset + rlen).toNat = c.nfsOffset.toNat + rlen.toNat := by
      rw [BitVec.toNat_add]
      exact Nat.mod_eq_of_lt (by omega)
    have hstate : ((storeBlock c src c.nfsOffset rlen).netSetTimeout.advance rlen).nfsState =
        .readReq := hst
    rw [Progress, hstate]
    refine ⟨⟨hfail, hnet⟩, hfound, ?_, hsize, ?_⟩
    · show Stored _ _ (c.nfsOffset + rlen).toNat
      rw [hadd]
      exact hstored'
    · show sent.length + 1 ≤ 5 + retries c + (c.nfsOffset + rlen).toNat
      omega
  · have hzero : rlen = 0 := BitVec.eq_of_toNat_eq (by rw [hint] at hpos; simp; omega)
    have hall : (S.file c.filefh).length = c.nfsOffset.toNat + (0 : BitVec 32).toNat :=
      Nat.le_antisymm (hend hzero) hle
    subst hzero
    rw [if_neg hpos, if_neg (by decide)]
    refine inv_send h.numbered h.rpcId ?_
    rw [Progress]
    refine ⟨fun hs => absurd hs hnet, fun _ => ⟨hfound, ?_⟩⟩
    show Stored _ _ (S.file c.filefh).length
    rw [hall]
    exact hstored'

theorem inv_read (h : NfsInv S arrived base c sent) (hst : c.nfsState = .readReq) {d : NfsDatagram}
    (hd : d ∈ sent) {pkt : Buf} {len : ℕ} (hanswers : S.Answers d pkt len)
    (hunderstood : ntohl pkt 0 = c.rpcId → NoVerifier pkt ∨ ReadFails pkt) :
    NfsInv S arrived base (afterRead (nfsReadReply c pkt).1.netSetTimeout (nfsReadReply c pkt).2).1
      (sent ++ (afterRead (nfsReadReply c pkt).1.netSetTimeout (nfsReadReply c pkt).2).2) := by
  have hprogress := h.progress
  rw [Progress, hst] at hprogress
  obtain ⟨⟨hfail, hnet⟩, -, hstored, hsize, hcount⟩ := hprogress
  have hfits := S.fits c.filefh
  have hle := hstored.1
  have hretries := retries_le c
  have herror : ∀ rlen : BitVec 32, ¬ 0 < rlen.toInt → rlen ≠ 0 →
      ¬ (rlen = -nfserrIsdir ∨ rlen = -nfserrInval) →
        NfsInv S arrived base (afterRead c.netSetTimeout rlen).1
          (sent ++ (afterRead c.netSetTimeout rlen).2) := fun rlen hpos hzero hlink =>
    inv_readError (c := c.netSetTimeout) h.numbered h.rpcId hfail hnet hpos hzero hlink
  rw [nfsReadReply]
  by_cases hid : ntohl pkt 0 = c.rpcId
  swap
  · rw [if_pos hid]
    exact herror (-1) (by decide) (by decide) (by decide)
  rw [if_neg (not_not_intro hid)]
  -- the answer is the one to the last request
  obtain ⟨hlast, hnumber⟩ := h.eq_last (by omega) hd hanswers.id hid
  obtain ⟨d', hlast', hdata⟩ := h.read hst
  obtain rfl := Option.some.inj (hlast.symm.trans hlast')
  rw [← hnumber] at hdata
  have hread : ReadFails pkt ∨ ntohl pkt 12 = 0 ∧
      ReadGives (S.file c.filefh) c.nfsOffset c.nfsLen pkt := by
    rcases hunderstood hid with hnone | hfails
    · exact (hanswers.read hnone _ _ _ hdata).imp_right fun hgives => ⟨hnone.1, hgives⟩
    · exact .inl hfails
  split_ifs with hbad hrstatus hastatus
  · exact herror (-9999) (by decide) (by decide) (by decide)
  · exact herror (-9999) (by decide) (by decide) (by decide)
  · rcases hread with hfails | ⟨hverifier, hgives⟩
    · obtain hpos : 0 < (ntohl pkt (replyData 0)).toInt ∧ _ ∧ _ := by
        rcases hfails with hf | hf | hf
        · exact absurd hf hrstatus
        · exact absurd hf hastatus
        · exact hf
      obtain ⟨hnpos, hnzero⟩ := neg_status hpos.1
      refine herror _ hnpos hnzero ?_
      rw [neg_inj, neg_inj]
      exact fun hlink => hlink.elim hpos.2.1 hpos.2.2
    · rcases hbad with hbad | hbad
      · rw [replyStatus, decide_eq_true_iff] at hbad
        tauto
      · exact absurd hgives.2.2.1 hbad
  · obtain ⟨hstatus, herr⟩ := not_or.mp hbad
    rw [replyStatus, decide_eq_true_iff] at hstatus
    obtain ⟨-, -, -, hlen, hend, hbytes⟩ : ReadGives (S.file c.filefh) c.nfsOffset c.nfsLen pkt := by
      rcases hread with (hf | hf | hf) | ⟨-, hgives⟩
      · exact absurd (.inl hf) hstatus
      · exact absurd (.inr (.inr hf)) hstatus
      · rw [not_not.mp herr] at hf
        exact absurd hf.1 (by decide)
      · exact hgives
    rw [hsize] at hlen
    exact inv_block h hst hlen hend hbytes

theorem NfsInv.arrive (h : NfsInv S arrived base c sent) (l : List (NfsDatagram × Buf)) :
    NfsInv S (arrived ++ l) base c sent := by
  refine ⟨h.numbered, h.rpcId, ?_, h.lookup, h.read⟩
  have hprogress := h.progress
  rw [Progress] at hprogress ⊢
  split at hprogress
  · exact hprogress
  · exact hprogress
  · exact hprogress
  · exact hprogress
  · exact ⟨hprogress.1, hprogress.2.1.append l, hprogress.2.2⟩
  · exact ⟨hprogress.1, fun hs => ⟨(hprogress.2 hs).1.append l, (hprogress.2 hs).2⟩⟩
  · exact hprogress

theorem replyHandle_rpcPkt (stack pkt : Buf) {len : ℕ} (h : 60 ≤ len) :
    replyHandle (rpcPkt stack pkt len) = replyHandle pkt := by
  ext i hi
  rw [replyHandle, replyHandle, Vector.getElem_ofFn, Vector.getElem_ofFn, rpcPkt, replyData,
    if_pos (by dsimp only; omega)]

/-- **An answer taken for the one to the `LOOKUP`** gives the file. -/
theorem NfsInv.foundBy (h : NfsInv S arrived base c sent) (hst : c.nfsState = .lookupReq)
    {d : NfsDatagram} (hd : d ∈ sent) {stack pkt : Buf} {len : ℕ} (hanswers : S.Answers d pkt len)
    (hid : ntohl pkt 0 = c.rpcId) (hnone : NoVerifier pkt) {c' : Nfs}
    (hreply : nfsLookupReply c (rpcPkt stack pkt len) = (c', 0)) :
    FoundBy (arrived ++ [(d, pkt)]) (replyHandle (rpcPkt stack pkt len)) := by
  have hlen := hanswers.long
  have hprogress := h.progress
  rw [Progress, hst] at hprogress
  have hcount := hprogress.2
  have hretries := retries_le c
  obtain ⟨hlast, hnumber⟩ := h.eq_last (by omega) hd hanswers.id hid
  obtain ⟨d', hlast', dir, name, hdata⟩ := h.lookup hst
  obtain rfl := Option.some.inj (hlast.symm.trans hlast')
  rw [← hnumber] at hdata
  obtain ⟨hrstatus, hastatus, hstatus⟩ := nfsLookupReply_zero (congrArg Prod.snd hreply)
  have hgives : LookupGives pkt len := by
    rcases hanswers.lookup hnone ⟨dir, name, hdata⟩ with hfails | hfails | ⟨hlong, hfails⟩ | h
    · exact absurd ((ntohl_rpcPkt (by omega)).symm.trans hrstatus) hfails
    · exact absurd ((ntohl_rpcPkt (by omega)).symm.trans hastatus) hfails
    · exact absurd ((ntohl_rpcPkt (by rw [replyData]; omega)).symm.trans hstatus) hfails
    · exact h
  exact ⟨d, pkt, List.mem_append_right _ (List.mem_singleton_self _), ⟨dir, name, hdata⟩,
    hnone, ⟨len, hgives⟩, replyHandle_rpcPkt stack pkt hgives.2.2.2⟩

theorem inv_receive (h : NfsInv S arrived base c sent) {d : NfsDatagram} (hd : d ∈ sent)
    {stack pkt : Buf} {dest : BitVec 32} {len : ℕ} (hanswers : S.Answers d pkt len)
    (hunderstood : dest = c.nfsOurPort → ntohl pkt 0 = c.rpcId → NoVerifier pkt ∨
      (c.nfsState = .lookupReq → (nfsLookupReply c (rpcPkt stack pkt len)).2 ≠ 0) ∧
      (c.nfsState = .readReq → ReadFails pkt)) :
    NfsInv S (arrived ++ [(d, pkt)]) base (nfsHandler c stack pkt dest len).1
      (sent ++ (nfsHandler c stack pkt dest len).2) := by
  have hlen := hanswers.long
  have hbefore := h
  replace h := h.arrive [(d, pkt)]
  have hprogress := h.progress
  rw [nfsHandler]
  split_ifs with hport
  · rw [List.append_nil]
    exact h
  rw [Progress] at hprogress
  dsimp only
  split at hprogress
  all_goals rename_i hst
  all_goals simp only [hst]
  · obtain ⟨p, q, hreply⟩ := rpcLookupReply_fst c progMount (rpcPkt stack pkt len)
    rw [hreply]
    refine inv_send h.numbered h.rpcId ?_
    exact ⟨hprogress.1, by have := hprogress.2; exact (by omega : sent.length + 1 ≤ 2 + retries c)⟩
  · obtain ⟨p, q, hreply⟩ := rpcLookupReply_fst c progNfs (rpcPkt stack pkt len)
    rw [hreply]
    refine inv_send h.numbered h.rpcId ?_
    exact ⟨hprogress.1, by have := hprogress.2; exact (by omega : sent.length + 1 ≤ 3 + retries c)⟩
  · rcases nfsMountReply_cases c (rpcPkt stack pkt len) with hreply | hreply
    · simp only [hreply]
      rw [if_pos minus_one_ne_zero]
      exact inv_giveUp h.numbered h.rpcId hprogress.1.1 hprogress.1.2.1
    · simp only [hreply]
      rw [if_neg (by simp)]
      refine inv_send h.numbered h.rpcId ?_
      have hsent := hprogress.2
      exact ⟨hprogress.1, (by omega : sent.length + 1 ≤ 4 + retries c)⟩
  · rcases nfsLookupReply_cases c (rpcPkt stack pkt len) with hreply | ⟨hid, hreply⟩
    · simp only [hreply]
      rw [if_pos minus_one_ne_zero]
      exact inv_giveUp h.numbered h.rpcId hprogress.1.1 hprogress.1.2.1
    · simp only [hreply]
      rw [if_neg (by simp)]
      have hid' : ntohl pkt 0 = c.rpcId := (ntohl_rpcPkt (by omega)).symm.trans hid
      have hnone : NoVerifier pkt := by
        rcases hunderstood (not_not.mp hport) hid' with hnone | ⟨hrefused, -⟩
        · exact hnone
        · exact absurd (congrArg Prod.snd hreply) (hrefused hst)
      have hfound := hbefore.foundBy hst hd hanswers hid' hnone hreply
      refine inv_send h.numbered h.rpcId ?_
      refine ⟨⟨hprogress.1.1, hprogress.1.2.1⟩, hfound,
        ⟨Nat.zero_le _, ?_, fun x hx => absurd hx (Nat.not_lt_zero x)⟩, rfl, ?_⟩
      · exact congrArg BitVec.toNat hprogress.1.2.2
      · have hcount := hprogress.2
        exact (by omega : sent.length + 1 ≤ 5 + retries c + 0)
  · exact inv_read h hst hd hanswers fun hid =>
      (hunderstood (not_not.mp hport) hid).imp_right fun hread => hread.2 hst
  · rcases nfsUmountallReply_cases c (rpcPkt stack pkt len) with hreply | hreply
    · simp only [hreply]
      rw [if_pos minus_one_ne_zero, List.append_nil]
      refine ⟨h.numbered, h.rpcId, ?_, h.lookup, h.read⟩
      rw [Progress, Nfs.finish, hst]
      exact ⟨by simp, hprogress.2⟩
    · simp only [hreply]
      rw [if_neg (by simp), List.append_nil]
      refine ⟨h.numbered, h.rpcId, ?_, h.lookup, h.read⟩
      rw [Progress, Nfs.finish, hst]
      exact ⟨id, hprogress.2⟩
  · exact hprogress.elim

/-! ## Runs -/

theorem inv_of_reachable {w : NfsWorld} (hw : ((nfsRuns S).restrict Understood).Reachable w) :
    ∃ base, NfsInv S w.arrived base w.client w.sent := by
  refine TransitionSystem.Reachable.invariant_restrict
    (I := fun w => ∃ base, NfsInv S w.arrived base w.client w.sent) ?_ ?_ hw
  · rintro _ ⟨s, hs, rfl⟩
    refine ⟨s.rpcId, ?_⟩
    have hnone : s.rpcId = s.rpcId + BitVec.ofNat 32 ([] : List NfsDatagram).length :=
      (BitVec.add_zero _).symm
    have hempty : Numbered requestId s.rpcId [] := .nil
    refine inv_send hempty hnone ?_
    have hwaits : Waits s :=
      ⟨hs.nfsDownloadState, by rw [hs.netState]; simp, hs.netBootFileXferSize⟩
    rw [Progress, hs.nfsState]
    exact ⟨hwaits, Nat.le_add_right 1 _⟩
  · rintro w a w' ⟨base, hinv⟩ hunderstood hstep
    refine ⟨base, ?_⟩
    cases a with
    | receive d stack pkt dest len =>
      obtain ⟨hd, hanswers, rfl⟩ := hstep
      exact inv_receive hinv hd hanswers hunderstood
    | timeout =>
      obtain rfl := hstep
      exact inv_timeout (hinv.arrive [])

/-- **At a success the file is loaded**, the one of the handle that a LOOKUP returned; and its
length is `NetBootFileXferSize`. -/
theorem nfs_loaded {w : NfsWorld} (hw : ((nfsRuns S).restrict Understood).Reachable w)
    (hsuccess : w.client.netState = .success) :
    FoundBy w.arrived w.client.filefh ∧
      Stored w.client (S.file w.client.filefh) (S.file w.client.filefh).length := by
  obtain ⟨base, hinv⟩ := inv_of_reachable hw
  have hprogress := hinv.progress
  rw [Progress] at hprogress
  split at hprogress
  · exact absurd hsuccess hprogress.1.2.1
  · exact absurd hsuccess hprogress.1.2.1
  · exact absurd hsuccess hprogress.1.2.1
  · exact absurd hsuccess hprogress.1.2.1
  · exact absurd hsuccess hprogress.1.2
  · exact hprogress.2 (hprogress.1 hsuccess)
  · exact hprogress.elim

/-! ## A file of two bytes -/

/-- A server whose files all have the bytes "hi". -/
def hiServer : NfsServer := ⟨fun _ => [104, 105], fun _ => by decide⟩

/-- An answer of zeros, with a verifier of no bytes, and, where the answer to a READ has them, the
bytes of the file in `count` bytes. -/
def hiAnswer (id verifier count : BitVec 32) : Buf := fun i =>
  (ipBytes id ++ htonl 1 ++ htonl 0 ++ ipBytes verifier ++ List.replicate 80 0 ++
    (ipBytes count ++ [104, 105])).getD i 0

def lastSent (w : NfsWorld) : NfsDatagram := w.sent.getLast?.getD ⟨0, 0, 0, []⟩

/-- The last request is answered. -/
def answerLast (verifier count : BitVec 32) (w : NfsWorld) : NfsWorld :=
  w.after (nfsHandler w.client (fun _ => 0) (hiAnswer w.client.rpcId verifier count)
    w.client.nfsOurPort 128) [(lastSent w, hiAnswer w.client.rpcId verifier count)]

/-- The word of a request at `i`. -/
def requestWord (d : NfsDatagram) (i : ℕ) : BitVec 32 := ntohl (fun k => d.data.getD k 0) i

/-- The last request can be answered with `count` bytes. -/
def CanGive (w : NfsWorld) (count : BitVec 32) : Prop :=
  w.sent ≠ [] ∧ requestId (lastSent w) = w.client.rpcId ∧
    (requestWord (lastSent w) 20 = 6 → count ≤ requestWord (lastSent w) 96 ∧
      (count = 0 → 2 ≤ (requestWord (lastSent w) 92).toNat) ∧
      (count ≠ 0 → requestWord (lastSent w) 92 = 0 ∧ count = 2))

instance decidableCanGive (w : NfsWorld) (count : BitVec 32) : Decidable (CanGive w count) :=
  inferInstanceAs (Decidable (_ ∧ _ ∧ (_ → _)))

theorem ntohl_append {l r : List UInt8} {x : BitVec 32} {i : ℕ} (hi : l.length = i) :
    ntohl (fun k => (l ++ (ipBytes x ++ r)).getD k 0) i = x := by
  rw [ntohl]
  refine netReadIp_ipBytes fun j hj => ?_
  have hlen : (ipBytes x).length = 4 := rfl
  rw [List.getD_eq_getElem?_getD, List.getElem?_append_right (by omega), hi,
    Nat.add_sub_cancel_left, List.getElem?_append_left (hlen ▸ hj),
    List.getElem?_eq_getElem (hlen ▸ hj), Option.getD_some, List.get_eq_getElem]

theorem requestWord_readCall {d : NfsDatagram} {id offset count : BitVec 32} {fh : FileHandle}
    (h : d.data = readCall id fh offset count) :
    requestWord d 20 = 6 ∧ requestWord d 92 = offset ∧ requestWord d 96 = count := by
  let head := ipBytes id ++ htonl 0 ++ htonl 2 ++ htonl progNfs ++ htonl 2
  let handle := head ++ htonl nfsRead ++ rpcAddCredentials ++ fh.toList
  have hproc : d.data = head ++ (ipBytes 6 ++
      (rpcAddCredentials ++ fh.toList ++ ipBytes offset ++ ipBytes count ++ htonl 0)) := by
    rw [h, readCall, rpcCall, List.append_assoc _ (htonl nfsRead)]
    rfl
  have hoffset : d.data = handle ++ (ipBytes offset ++ (ipBytes count ++ htonl 0)) := by
    rw [h]
    simp only [readCall, rpcCall, handle, head, List.append_assoc]
  have hcount : d.data = (handle ++ ipBytes offset) ++ (ipBytes count ++ htonl 0) := by
    exact hoffset.trans (List.append_assoc ..).symm
  have hlen : handle.length = 92 := by
    rw [List.length_append, Vector.length_toList]
    rfl
  refine ⟨?_, ?_, ?_⟩
  · rw [requestWord, hproc]
    exact ntohl_append rfl
  · rw [requestWord, hoffset]
    exact ntohl_append hlen
  · rw [requestWord, hcount]
    exact ntohl_append (by rw [List.length_append, hlen]; rfl)

theorem hiServer_answers {w : NfsWorld} {count : BitVec 32} (verifier : BitVec 32)
    (hgive : CanGive w count) :
    hiServer.Answers (lastSent w) (hiAnswer w.client.rpcId verifier count) 128 := by
  obtain ⟨-, hid, hread⟩ := hgive
  refine ⟨?_, by decide, fun _ _ => ?_, fun _ fh offset n hdata => ?_⟩
  · rw [hid]
    exact ntohl_append (l := []) rfl
  · exact .inr (.inr (.inr ⟨rfl, rfl, rfl, by decide⟩))
  · obtain ⟨hproc, rfl, rfl⟩ := requestWord_readCall hdata
    obtain ⟨hcount, hend, hbytes⟩ := hread hproc
    have hword : ntohl (hiAnswer w.client.rpcId verifier count) (replyData 18) = count :=
      ntohl_append rfl
    refine .inr ⟨rfl, rfl, rfl, ?_, ?_, ?_⟩
    · rwa [hword]
    · rw [hword]
      exact hend
    · rw [hword]
      intro k hk
      by_cases hzero : count = 0
      · rw [hzero] at hk
        exact absurd hk (Nat.not_lt_zero k)
      obtain ⟨hfirst, rfl⟩ := hbytes hzero
      rw [hfirst]
      have hcases : k = 0 ∨ k = 1 := by
        have : k < 2 := hk
        omega
      rcases hcases with rfl | rfl <;> rfl

/-- A client before its first request. -/
def idleNfs : Nfs :=
  { exampleNfs with
    rpcId := 0, nfsOffset := 0, nfsState := .prclookupProgMountReq, netBootFileXferSize := 0 }

/-- The client that reads: its first READ is lost, and the timer has sent it again. -/
def readingNfs : NfsWorld :=
  let w := answerLast 0 0 (answerLast 0 0 (answerLast 0 0 (answerLast 0 0
    ⟨(nfsSend idleNfs).1, (nfsSend idleNfs).2, []⟩)))
  w.after (nfsTimeout w.client) []

theorem lastSent_mem {w : NfsWorld} (h : w.sent ≠ []) : lastSent w ∈ w.sent := by
  rw [lastSent, List.getLast?_eq_some_getLast h]
  exact List.getLast_mem h

theorem reachable_answerLast (count : BitVec 32) {w : NfsWorld}
    (h : ((nfsRuns hiServer).restrict Understood).Reachable w) (hgive : CanGive w count) :
    ((nfsRuns hiServer).restrict Understood).Reachable (answerLast 0 count w) :=
  .step (a := .receive (lastSent w) (fun _ => 0) (hiAnswer w.client.rpcId 0 count)
    w.client.nfsOurPort 128) h
      ⟨fun _ _ => .inl ⟨rfl, rfl⟩, lastSent_mem hgive.1, hiServer_answers 0 hgive, rfl⟩

theorem reachable_readingNfs : ((nfsRuns hiServer).restrict Understood).Reachable readingNfs := by
  have hstarted : NfsStarted idleNfs := ⟨rfl, rfl, rfl, rfl, rfl⟩
  have hstart : ((nfsRuns hiServer).restrict Understood).Reachable
      ⟨(nfsSend idleNfs).1, (nfsSend idleNfs).2, []⟩ := .init ⟨idleNfs, hstarted, rfl⟩
  have hports := reachable_answerLast 0 (reachable_answerLast 0 hstart (by decide +kernel))
    (by decide +kernel)
  have hfound := reachable_answerLast 0 (reachable_answerLast 0 hports (by decide +kernel))
    (by decide +kernel)
  exact .step (a := .timeout) hfound ⟨trivial, rfl⟩

/-- The two bytes, the end of the file, and the answer to UMOUNTALL. -/
def loadedNfs : NfsWorld := answerLast 0 0 (answerLast 0 0 (answerLast 0 2 readingNfs))

theorem nfs_loaded_hi : FoundBy loadedNfs.arrived loadedNfs.client.filefh ∧
    Stored loadedNfs.client [104, 105] 2 := by
  have hread := reachable_answerLast 0 (reachable_answerLast 2 reachable_readingNfs
    (by decide +kernel)) (by decide +kernel)
  have hloaded := reachable_answerLast 0 hread (by decide +kernel)
  have hsuccess : loadedNfs.client.netState = .success := by decide +kernel
  exact nfs_loaded hloaded hsuccess

/-- The READ is answered with the verifier `AUTH_SHORT`, which has no bytes, and UMOUNTALL as
before. -/
def misreadNfs : NfsWorld := answerLast 0 0 (answerLast 2 2 readingNfs)

/-- **A verifier ends the file**: nothing is loaded, and the transfer is a success. -/
theorem not_nfs_loaded : ¬ ∀ (S : NfsServer) (w : NfsWorld), (nfsRuns S).Reachable w →
    w.client.netState = .success → FoundBy w.arrived w.client.filefh ∧
      Stored w.client (S.file w.client.filefh) (S.file w.client.filefh).length := by
  intro hall
  have hreading := TransitionSystem.reachable_of_restrict reachable_readingNfs
  have hgive : CanGive readingNfs 2 := by decide +kernel
  have hread : (nfsRuns hiServer).Reachable (answerLast 2 2 readingNfs) :=
    .step (a := .receive (lastSent readingNfs) (fun _ => 0)
      (hiAnswer readingNfs.client.rpcId 2 2) readingNfs.client.nfsOurPort 128) hreading
        ⟨lastSent_mem hgive.1, hiServer_answers 2 hgive, rfl⟩
  have hgive' : CanGive (answerLast 2 2 readingNfs) 0 := by decide +kernel
  have hmisread : (nfsRuns hiServer).Reachable misreadNfs :=
    .step (a := .receive (lastSent (answerLast 2 2 readingNfs)) (fun _ => 0)
      (hiAnswer (answerLast 2 2 readingNfs).client.rpcId 0 0)
        (answerLast 2 2 readingNfs).client.nfsOurPort 128) hread
          ⟨lastSent_mem hgive'.1, hiServer_answers 0 hgive', rfl⟩
  have hsuccess : misreadNfs.client.netState = .success := by decide +kernel
  have hsize := (hall hiServer misreadNfs hmisread hsuccess).2.2.1
  have hnone : misreadNfs.client.netBootFileXferSize.toNat = 0 := by decide +kernel
  exact absurd (hnone.symm.trans hsize) (by decide)

end Net
end EmevBsp
