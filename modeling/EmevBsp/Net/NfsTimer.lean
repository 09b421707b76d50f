import EmevBsp.Library.TransitionSystem
import EmevBsp.Net.NfsPath

/-!
# `net/nfs.c`: the timer of the client

`NetLoop` takes the timeout handler away before it calls it.  `NfsTimeout` sends the request again,
and does not arm the timer again; the only other place where the client does that is the reply to a
read request.  So when a request is lost, and then its copy, the loop waits for ever.

* `nfs_armed`: **as long as no timeout fires with a retry left after it**, a handler is armed
  whenever the transfer is in progress and the retries are not used up; and any such timeout leaves
  the client without one.
-/

namespace EmevBsp
namespace Net

/-! ## Runs -/

/-- A packet comes in, or the timer runs out. -/
inductive NfsCall where
  | packet (stack pkt : Buf) (dest : BitVec 32) (len : ℕ)
  | timeout

/-- `NetLoop` disarms the timer and calls the handler that it had. -/
def fireTimeout (s : Nfs) : Nfs := (nfsTimeout { s with timer := false }).1

/-- The client under `NetLoop`, from any call of `NfsStart` on. -/
def nfsClient : TransitionSystem Nfs NfsCall where
  init t := ∃ s netServerIp netOurIp bootFile, s.netState = .continue ∧
    t = (nfsStart s netServerIp netOurIp bootFile).1
  step s a t :=
    match a with
    | .packet stack pkt dest len => t = (nfsHandler s stack pkt dest len).1
    | .timeout => s.timer = true ∧ t = fireTimeout s

/-- The transfer is in progress and the retry limit is not exhausted. -/
def InProgress (s : Nfs) : Prop := s.netState = .continue ∧ s.nfsTimeoutCount < nfsRetryCount

/-- A timeout handler is armed when there is something left to do. -/
def Armed (s : Nfs) : Prop := InProgress s → s.timer = true

/-- The step is not a timeout with a retry left after it. -/
def NoRetry (s : Nfs) (a : NfsCall) : Prop :=
  a = .timeout → ¬ (s.netState = .continue ∧ s.nfsTimeoutCount + 1 < nfsRetryCount)

/-! ## The variables of the loop -/

/-- The variables that belong to the loop are the same. -/
structure SameLoop (s t : Nfs) : Prop where
  netState : t.netState = s.netState
  timer : t.timer = s.timer
  nfsTimeoutCount : t.nfsTimeoutCount = s.nfsTimeoutCount
  nfsDownloadState : t.nfsDownloadState = s.nfsDownloadState

variable {s t u : Nfs}

theorem SameLoop.refl (s : Nfs) : SameLoop s s := ⟨rfl, rfl, rfl, rfl⟩

theorem SameLoop.trans (h : SameLoop s t) (h' : SameLoop t u) : SameLoop s u :=
  ⟨h'.netState.trans h.netState, h'.timer.trans h.timer,
    h'.nfsTimeoutCount.trans h.nfsTimeoutCount, h'.nfsDownloadState.trans h.nfsDownloadState⟩

theorem nfsSend_loop (s : Nfs) : SameLoop s (nfsSend s).1 := by
  obtain ⟨id, hid⟩ := nfsSend_fst s
  rw [hid]
  exact ⟨rfl, rfl, rfl, rfl⟩

theorem goto_loop (s : Nfs) (state : NfsState) : SameLoop s (s.goto state).1 :=
  SameLoop.trans (t := { s with nfsState := state }) ⟨rfl, rfl, rfl, rfl⟩ (nfsSend_loop _)

theorem rpcLookupReply_loop (s : Nfs) (prog : ℕ) (rpc : Buf) :
    SameLoop s (rpcLookupReply s prog rpc).1 := by
  unfold rpcLookupReply
  split_ifs <;> exact ⟨rfl, rfl, rfl, rfl⟩

theorem nfsMountReply_loop (s : Nfs) (rpc : Buf) : SameLoop s (nfsMountReply s rpc).1 := by
  unfold nfsMountReply
  split_ifs <;> exact ⟨rfl, rfl, rfl, rfl⟩

theorem nfsUmountallReply_loop (s : Nfs) (rpc : Buf) :
    SameLoop s (nfsUmountallReply s rpc).1 := by
  unfold nfsUmountallReply
  split_ifs <;> exact ⟨rfl, rfl, rfl, rfl⟩

theorem nfsLookupReply_loop (s : Nfs) (rpc : Buf) : SameLoop s (nfsLookupReply s rpc).1 := by
  unfold nfsLookupReply
  split_ifs <;> exact ⟨rfl, rfl, rfl, rfl⟩

theorem nfsReadlinkReply_loop (s : Nfs) (rpc : Buf) :
    SameLoop s (nfsReadlinkReply s rpc).1 := by
  unfold nfsReadlinkReply
  split
  · exact SameLoop.refl s
  split
  · exact SameLoop.refl s
  simp only
  split <;> exact ⟨rfl, rfl, rfl, rfl⟩

theorem nfsReadReply_loop (s : Nfs) (pkt : Buf) : SameLoop s (nfsReadReply s pkt).1 := by
  unfold nfsReadReply
  split_ifs <;> exact ⟨rfl, rfl, rfl, rfl⟩

/-- What a packet does to the variables of the loop: the timer is never taken away, and the loop
goes on only when it did before. -/
structure PacketStep (s t : Nfs) : Prop where
  netState : t.netState = s.netState ∨ t.netState = .fail ∨ t.netState = s.nfsDownloadState
  timer : s.timer = true → t.timer = true
  nfsTimeoutCount : t.nfsTimeoutCount = s.nfsTimeoutCount
  nfsDownloadState : t.nfsDownloadState = s.nfsDownloadState ∨ t.nfsDownloadState = .success

theorem SameLoop.packetStep (h : SameLoop s t) : PacketStep s t :=
  ⟨.inl h.netState, fun ht => h.timer.trans ht, h.nfsTimeoutCount, .inl h.nfsDownloadState⟩

theorem PacketStep.trans_sameLoop (h : PacketStep s t) (h' : SameLoop t u) : PacketStep s u :=
  ⟨by rw [h'.netState]; exact h.netState, fun hs => h'.timer.trans (h.timer hs),
    h'.nfsTimeoutCount.trans h.nfsTimeoutCount, by
      rw [h'.nfsDownloadState]
      exact h.nfsDownloadState⟩

theorem afterRead_loop (h : SameLoop s t) (rlen : BitVec 32) :
    PacketStep s (afterRead t.netSetTimeout rlen).1 := by
  have harmed : PacketStep s t.netSetTimeout :=
    ⟨.inl h.netState, fun _ => rfl, h.nfsTimeoutCount, .inl h.nfsDownloadState⟩
  unfold afterRead
  split
  · exact harmed.trans_sameLoop
      (SameLoop.trans (t := t.netSetTimeout.advance rlen) ⟨rfl, rfl, rfl, rfl⟩ (nfsSend_loop _))
  split
  · exact harmed.trans_sameLoop (goto_loop _ _)
  · refine PacketStep.trans_sameLoop (t := t.netSetTimeout.downloaded rlen) ?_ (goto_loop _ _)
    refine ⟨harmed.netState, harmed.timer, harmed.nfsTimeoutCount, ?_⟩
    by_cases hzero : rlen = 0
    · exact .inr (if_pos hzero)
    · exact .inl ((if_neg hzero).trans h.nfsDownloadState)

theorem nfsHandler_loop (s : Nfs) (stack pkt : Buf) (dest : BitVec 32) (len : ℕ) :
    PacketStep s (nfsHandler s stack pkt dest len).1 := by
  rw [nfsHandler]
  by_cases hport : dest ≠ s.nfsOurPort
  · rw [if_pos hport]
    exact (SameLoop.refl s).packetStep
  rw [if_neg hport]
  simp only
  cases s.nfsState with
  | prclookupProgMountReq =>
    exact ((rpcLookupReply_loop s _ _).trans (goto_loop _ _)).packetStep
  | prclookupProgNfsReq =>
    exact ((rpcLookupReply_loop s _ _).trans (goto_loop _ _)).packetStep
  | mountReq =>
    simp only
    split <;> exact ((nfsMountReply_loop s _).trans (goto_loop _ _)).packetStep
  | umountReq =>
    have hreply := nfsUmountallReply_loop s (rpcPkt stack pkt len)
    simp only
    split
    · exact ⟨.inr (.inl rfl), fun ht => hreply.timer.trans ht, hreply.nfsTimeoutCount,
        .inl hreply.nfsDownloadState⟩
    · exact ⟨.inr (.inr hreply.nfsDownloadState), fun ht => hreply.timer.trans ht,
        hreply.nfsTimeoutCount, .inl hreply.nfsDownloadState⟩
  | lookupReq =>
    have hreply := nfsLookupReply_loop s (rpcPkt stack pkt len)
    simp only
    split
    · exact (hreply.trans (goto_loop _ _)).packetStep
    · exact ((hreply.trans (u := (nfsLookupReply s _).1.startRead) ⟨rfl, rfl, rfl, rfl⟩).trans
        (goto_loop _ _)).packetStep
  | readReq => exact afterRead_loop (nfsReadReply_loop s pkt) _
  | readlinkReq =>
    have hreply := nfsReadlinkReply_loop s (rpcPkt stack pkt len)
    simp only
    split
    · exact (hreply.trans (goto_loop _ _)).packetStep
    · exact ((hreply.trans (u := (nfsReadlinkReply s _).1.splitPath) ⟨rfl, rfl, rfl, rfl⟩).trans
        (goto_loop _ _)).packetStep

theorem fireTimeout_loop (s : Nfs) :
    (fireTimeout s).timer = false ∧
      (fireTimeout s).nfsTimeoutCount = s.nfsTimeoutCount + 1 ∧
      (fireTimeout s).nfsDownloadState = s.nfsDownloadState ∧
      (fireTimeout s).netState =
        if s.nfsTimeoutCount < nfsRetryCount then s.netState else .fail := by
  rw [fireTimeout, nfsTimeout]
  by_cases hretry : s.nfsTimeoutCount < nfsRetryCount
  · rw [if_pos hretry, if_pos hretry]
    have hsend := nfsSend_loop
      { s with timer := false, nfsTimeoutCount := s.nfsTimeoutCount + 1 }
    exact ⟨hsend.timer, hsend.nfsTimeoutCount, hsend.nfsDownloadState, hsend.netState⟩
  · rw [if_neg hretry, if_neg hretry]
    exact ⟨rfl, rfl, rfl, rfl⟩

theorem nfsStart_loop (s : Nfs) (netServerIp netOurIp : IPaddr) (bootFile : List UInt8) :
    (nfsStart s netServerIp netOurIp bootFile).1.timer = true ∧
      (nfsStart s netServerIp netOurIp bootFile).1.nfsDownloadState = .fail := by
  rw [nfsStart]
  exact ⟨(nfsSend_loop _).timer, (nfsSend_loop _).nfsDownloadState⟩

/-! ## The guard -/

/-- The invariant: with it goes that the loop, once left, is not entered again. -/
def TimerInv (s : Nfs) : Prop := Armed s ∧ s.nfsDownloadState ≠ .continue

theorem timerInv_packet (h : TimerInv s) (hstep : PacketStep s t) : TimerInv t := by
  obtain ⟨harmed, hdown⟩ := h
  refine ⟨fun ⟨hcontinue, hcount⟩ => hstep.timer (harmed ⟨?_, hstep.nfsTimeoutCount ▸ hcount⟩), ?_⟩
  · rcases hstep.netState with hsame | hfail | hend
    · exact hsame.symm.trans hcontinue
    · exact absurd (hfail.symm.trans hcontinue) (by decide)
    · exact absurd (hend.symm.trans hcontinue) hdown
  · rcases hstep.nfsDownloadState with hsame | hsuccess
    · rwa [hsame]
    · rw [hsuccess]
      decide

theorem timerInv_timeout (h : TimerInv s) (hretry : NoRetry s .timeout) :
    TimerInv (fireTimeout s) := by
  obtain ⟨-, hcount, hdown, hstate⟩ := fireTimeout_loop s
  refine ⟨fun ⟨hcontinue, hlt⟩ => ?_, hdown ▸ h.2⟩
  rw [hcount] at hlt
  rw [hstate, if_pos (Nat.lt_of_succ_lt hlt)] at hcontinue
  exact absurd ⟨hcontinue, hlt⟩ (hretry rfl)

theorem not_armed_of_retry {s t : Nfs} (hstep : nfsClient.step s .timeout t)
    (hretry : ¬ NoRetry s .timeout) : InProgress t ∧ ¬ Armed t := by
  obtain ⟨-, rfl⟩ := hstep
  obtain ⟨hcontinue, hlt⟩ : s.netState = .continue ∧ s.nfsTimeoutCount + 1 < nfsRetryCount := by
    by_contra hnot
    exact hretry fun _ => hnot
  obtain ⟨htimer, hcount, -, hstate⟩ := fireTimeout_loop s
  rw [if_pos (Nat.lt_of_succ_lt hlt)] at hstate
  have hprogress : InProgress (fireTimeout s) := ⟨hstate.trans hcontinue, hcount ▸ hlt⟩
  refine ⟨hprogress, fun harmed => ?_⟩
  exact absurd ((harmed hprogress).symm.trans htimer) (by decide)

/-- **The guard.**  In every run in which no timeout fires with a retry left after it, every state
has a handler armed while the transfer is in progress and the retries are not used up.  A timeout
that does fire so leaves a state that has none. -/
theorem nfs_armed (s : Nfs) :
    ((nfsClient.restrict NoRetry).Reachable s → Armed s) ∧
    ∀ t, nfsClient.step s .timeout t → ¬ NoRetry s .timeout → InProgress t ∧ ¬ Armed t := by
  refine ⟨fun h => And.left (b := s.nfsDownloadState ≠ .continue) ?_,
    fun t => not_armed_of_retry⟩
  · refine TransitionSystem.Reachable.invariant_restrict (I := TimerInv) ?_ ?_ h
    · rintro t ⟨s, netServerIp, netOurIp, bootFile, -, rfl⟩
      obtain ⟨htimer, hdown⟩ := nfsStart_loop s netServerIp netOurIp bootFile
      exact ⟨fun _ => htimer, by rw [hdown]; decide⟩
    · rintro s a t hs hretry hstep
      cases a with
      | packet stack pkt dest len =>
        have ht : t = (nfsHandler s stack pkt dest len).1 := hstep
        exact ht ▸ timerInv_packet hs (nfsHandler_loop s stack pkt dest len)
      | timeout =>
        obtain ⟨-, ht⟩ := hstep
        exact ht ▸ timerInv_timeout hs hretry

/-- The last request is answered, with its identifier and zeros. -/
def answered (s : Nfs) : Nfs :=
  (nfsHandler s (fun _ => 0) (fun i => (ipBytes s.rpcId).getD i 0) s.nfsOurPort 128).1

/-- The answers for the ports, to MOUNT, to LOOKUP, and to a READ at the end of the file. -/
def fiveAnswers : Nfs :=
  answered (answered (answered (answered (answered
    (nfsStart exampleNfs 0x0a000001 0x0a000002 [47, 102]).1))))

theorem reachable_answered {s : Nfs} (h : (nfsClient.restrict NoRetry).Reachable s) :
    (nfsClient.restrict NoRetry).Reachable (answered s) :=
  .step (a := .packet (fun _ => 0) (fun i => (ipBytes s.rpcId).getD i 0) s.nfsOurPort 128) h
    ⟨fun hcall => absurd hcall (by simp), rfl⟩

/-- The client waits for the answer to UMOUNTALL, with its handler armed; when a timeout fires there,
it is not armed again; and when the answer comes in first, a timeout behind it is harmless. -/
theorem nfs_armed_answers :
    (InProgress fiveAnswers ∧ Armed fiveAnswers) ∧
      ¬ Armed (fireTimeout fiveAnswers) ∧
      Armed (fireTimeout (answered fiveAnswers)) := by
  have hstart : (nfsClient.restrict NoRetry).Reachable
      (nfsStart exampleNfs 0x0a000001 0x0a000002 [47, 102]).1 :=
    .init ⟨exampleNfs, _, _, _, rfl, rfl⟩
  have hfive : (nfsClient.restrict NoRetry).Reachable fiveAnswers :=
    reachable_answered (reachable_answered (reachable_answered (reachable_answered
      (reachable_answered hstart))))
  have hprogress : InProgress fiveAnswers := ⟨by decide +kernel, by decide +kernel⟩
  have harmed := (nfs_armed fiveAnswers).1 hfive
  have hretry : fiveAnswers.nfsTimeoutCount + 1 < nfsRetryCount := by decide +kernel
  have hdone : (answered fiveAnswers).netState ≠ .continue := by decide +kernel
  have htimer : (answered fiveAnswers).timer = true := by decide +kernel
  refine ⟨⟨hprogress, harmed⟩, ?_, ?_⟩
  · exact ((nfs_armed fiveAnswers).2 _ ⟨harmed hprogress, rfl⟩
      fun hno => hno rfl ⟨hprogress.1, hretry⟩).2
  · exact (nfs_armed _).1 (.step (a := .timeout) (reachable_answered hfive)
      ⟨fun _ hcontinue => hdone hcontinue.1, htimer, rfl⟩)

/-- **One lost packet is enough**: the first timeout leaves the client waiting with no handler. -/
theorem not_nfs_armed : ¬∀ s, nfsClient.Reachable s → Armed s := by
  intro hall
  have hstart := nfsStart_loop exampleNfs 0x0a000001 0x0a000002 [47, 102]
  have hinit : nfsClient.init (nfsStart exampleNfs 0x0a000001 0x0a000002 [47, 102]).1 :=
    ⟨exampleNfs, _, _, _, rfl, rfl⟩
  have hfire : nfsClient.step _ .timeout (fireTimeout _) := ⟨hstart.1, rfl⟩
  refine (not_armed_of_retry hfire fun hretry => hretry rfl ⟨?_, ?_⟩).2
    (hall _ (.step (.init hinit) hfire))
  · exact (nfsSend_loop _).netState
  · rw [nfsStart, (nfsSend_loop _).nfsTimeoutCount]
    decide

end Net
end EmevBsp
