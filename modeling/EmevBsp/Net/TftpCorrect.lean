import EmevBsp.Net.TftpClient

/-!
# TFTP loads are correct

The client and a conforming server, over channels that lose and duplicate, follow the
stop-and-wait protocol: `simulation` relates the packets in flight to the unbounded numbers of
items and requests.  A conforming server never has two different packets in flight, so the
sixteen bits of the block number are enough; what is not enough is that the client counts a
wrap-around before it knows whether a packet is new.
-/

namespace EmevBsp
namespace Tftp

open Net

variable {S : Server}

/-! ## Packets and numbers -/

/-- A packet in flight to the client. -/
inductive Message where
  | item (i : ℕ)
  | error (rest : List UInt8)

namespace Message

def packet (S : Server) (port : ℕ) : Message → UdpPacket
  | item i => S.packet port i
  | error rest => ⟨port, S.tid, htons opError ++ rest⟩

/-- The number of the item, if it is one. -/
def item? : Message → Option ℕ
  | item i => some i
  | error _ => none

end Message

/-- The packet that asks for item `c`: the request for the file, or the acknowledgement of the
packets before. -/
def requestPacket (S : Server) (port : ℕ) (name : List UInt8) : ℕ → UdpPacket
  | 0 => ⟨wellKnownPort, port, htons opRrq ++ name⟩
  | c + 1 => ackPacket S port (c + 1)

/-- The state of the network and the state of the protocol. -/
structure Coupled (S : Server) (s : Network) (u : StopAndWait.State) : Prop where
  client : At S u.received s.client
  sent : s.server.sent = u.sent
  peer : 0 < u.sent → s.server.peer = s.client.ourPort
  toServer : ∃ name, (u.received = 0 → packetOf s.client = htons opRrq ++ name) ∧
    s.toServer = u.requests.map (requestPacket S s.client.ourPort name)
  toClient : ∃ ms : List Message, s.toClient = ms.map (Message.packet S s.client.ourPort) ∧
    ms.filterMap Message.item? = u.items

/-- The protocol is followed while the client listens; after a success the load is correct. -/
structure Refines (S : Server) (s : Network) (u : StopAndWait.State) : Prop where
  coupled : s.client.net.listens .tftpHandler = true → Coupled S s u
  correct : s.client.net.netState = .success → Correct S s.client

/-- A step is admitted unless it hands the client a copy of a stored DATA packet number zero. -/
def NoCopyOfZero (s : Network) (a : Action) : Prop := a = .clientReceive → ¬CopyOfZero s

/-! ## The server -/

theorem htons_mod_inj {a b : ℕ} (h : htons a = htons b) : a % 2 ^ 16 = b % 2 ^ 16 := by
  obtain ⟨hhi, hlo⟩ := List.cons.inj h
  rw [← ntohs_htons a, ← ntohs_htons b, hhi, (List.cons.inj hlo).1]

theorem Server.total_pos (S : Server) : 0 < S.total :=
  Nat.lt_of_lt_of_le (Nat.succ_pos _) (Nat.le_add_right S.blocks S.oacks)

theorem Server.receive_rrq (v : ServerState) (port : ℕ) (name : List UInt8) :
    S.receive v (requestPacket S port name 0) =
      if v.sent = 0 then (⟨1, port⟩, [S.packet port 0]) else (v, []) := by
  have hop : ntohs (UInt8.ofNat (opRrq / 256)) (UInt8.ofNat opRrq) = opRrq := ntohs_htons opRrq
  have hno : ¬opRrq = opAck := by decide
  by_cases hsent : v.sent = 0
  · simp only [Server.receive, requestPacket, htons, List.cons_append, List.nil_append, hop,
      hsent, and_self, if_true]
  · simp only [Server.receive, requestPacket, htons, List.cons_append, List.nil_append, hop,
      if_neg hsent, hno, false_and, if_false]

theorem Server.receive_ack (v : ServerState) (port : ℕ) {c : ℕ} (hsent : v.sent ≠ 0) :
    S.receive v (ackPacket S port c) =
      if htons (S.number c) = htons (S.number v.sent) ∧ v.sent < S.total then
        ({ v with sent := v.sent + 1 }, [S.packet v.peer v.sent])
      else (v, []) := by
  have hop : ntohs (UInt8.ofNat (opAck / 256)) (UInt8.ofNat opAck) = opAck := ntohs_htons opAck
  unfold Server.receive ackPacket
  simp only [htons, List.cons_append, List.nil_append, hop, if_neg hsent, true_and]
  rfl

theorem Server.receive_next (v : ServerState) (port : ℕ) (name : List UInt8)
    (hpeer : 0 < v.sent → v.peer = port) (htotal : v.sent < S.total) :
    S.receive v (requestPacket S port name v.sent) =
      (⟨v.sent + 1, port⟩, [S.packet port v.sent]) := by
  obtain ⟨sent, peer⟩ := v
  cases sent with
  | zero => rw [Server.receive_rrq, if_pos rfl]
  | succ c =>
    have hp : peer = port := hpeer (Nat.succ_pos c)
    rw [requestPacket, Server.receive_ack _ _ (Nat.succ_ne_zero c), if_pos ⟨rfl, htotal⟩, hp]

theorem Server.receive_old (v : ServerState) (port : ℕ) (name : List UInt8) {m : ℕ}
    (hm : m = v.sent ∨ m + 1 = v.sent) (hend : m = v.sent → S.total ≤ m) :
    S.receive v (requestPacket S port name m) = (v, []) := by
  have honce := S.oacks_le_one
  have htotal := S.total_pos
  cases m with
  | zero =>
    have hsent : v.sent ≠ 0 := by
      rcases hm with h | h
      · exact absurd (hend h) (by omega)
      · omega
    rw [Server.receive_rrq, if_neg hsent]
  | succ c =>
    have hsent : v.sent ≠ 0 := by omega
    rw [requestPacket, Server.receive_ack _ _ hsent, if_neg]
    rintro ⟨hnumber, hlt⟩
    rcases hm with h | h
    · exact absurd (hend h) (by omega)
    · have hmod := htons_mod_inj hnumber
      rw [← h, Server.number, Server.number] at hmod
      omega

/-! ## The client -/

theorem At.tftpSend_eq {c : ℕ} {t : Client} {name : List UInt8} (h : At S c t)
    (hname : c = 0 → packetOf t = htons opRrq ++ name) :
    Tftp.tftpSend t = [requestPacket S t.ourPort name c] := by
  cases c with
  | zero =>
    rw [Tftp.tftpSend, hname rfl, h.serverPort, if_pos rfl]
    rfl
  | succ c => exact h.tftpSend (Nat.succ_pos c)

theorem listens_iff (n : NetLoop) (f : PacketHandler) :
    n.listens f = true ↔ n.netState = .continue ∧ n.packetHandler = f := by
  rw [NetLoop.listens, decide_eq_true_eq]

theorem netTimeout_cases {t : Client} (h : t.net.listens .tftpHandler = true) :
    netTimeout t = (t, []) ∨
    ((netTimeout t).1.net.listens .tftpHandler = false ∧
      (netTimeout t).1.net.netState ≠ .success ∧ (netTimeout t).2 = []) ∨
    ∃ n count, n.listens .tftpHandler = true ∧
      netTimeout t = ({ t with net := n, timeoutCount := count },
        Tftp.tftpSend { t with net := n, timeoutCount := count }) := by
  have hcontinue := ((listens_iff _ _).mp h).1
  rw [netTimeout, if_pos hcontinue]
  cases htime : t.net.timeHandler with
  | none => exact .inl rfl
  | some f =>
    cases f with
    | startAgainTimeout => exact .inr (.inl ⟨rfl, NetState.noConfusion, rfl⟩)
    | tftpTimeout =>
      refine .inr ?_
      unfold tftpTimeout
      dsimp only
      split
      · refine .inl ⟨?_, ?_, rfl⟩
        · exact NetLoop.netStartAgain_listens _ (by decide)
        · exact NetLoop.netStartAgain_not_success _ hcontinue
      · exact .inr ⟨{ t.net with timeHandler := none }.netSetTimeout .tftpTimeout,
          t.timeoutCount + 1, h, rfl⟩

theorem netTimeout_of_not_listens {t : Client} (h : t.net.listens .tftpHandler = false) :
    (netTimeout t).1.net.listens .tftpHandler = false ∧
      ((netTimeout t).1.net.netState = .success → netTimeout t = (t, [])) := by
  unfold netTimeout
  split
  · next hcontinue =>
    cases htime : t.net.timeHandler with
    | none => exact ⟨h, fun _ => rfl⟩
    | some f =>
      cases f with
      | startAgainTimeout => exact ⟨rfl, fun hs => absurd hs NetState.noConfusion⟩
      | tftpTimeout =>
        dsimp only
        unfold tftpTimeout
        dsimp only
        split
        · refine ⟨NetLoop.netStartAgain_listens _ (by decide), fun hs => ?_⟩
          exact absurd hs (NetLoop.netStartAgain_not_success _ hcontinue)
        · exact ⟨h, fun hs => absurd (hcontinue.symm.trans hs) NetState.noConfusion⟩
  · exact ⟨h, fun _ => rfl⟩

/-! ## The simulation, action by action -/

/-- The protocol followed from `u` to a state that `t` is related to. -/
def Follows (S : Server) (u : StopAndWait.State) (t : Network) : Prop :=
  ∃ l u', (StopAndWait.system S.total).Run u l u' ∧ Refines S t u'

theorem follows_of_not_listens {u : StopAndWait.State} {t : Network}
    (hl : t.client.net.listens .tftpHandler = false)
    (hc : t.client.net.netState = .success → Correct S t.client) : Follows S u t :=
  ⟨[], u, .nil u, fun h => absurd h (by rw [hl]; exact Bool.false_ne_true), hc⟩

theorem follows_of_coupled {u u' : StopAndWait.State} {a : StopAndWait.Action} {t : Network}
    (hstep : StopAndWait.Step S.total u a u')
    (hl : t.client.net.listens .tftpHandler = true) (h : Coupled S t u') : Follows S u t := by
  refine ⟨[a], u', .single hstep, fun _ => h, fun hs => ?_⟩
  exact absurd (((listens_iff _ _).mp hl).1.symm.trans hs) NetState.noConfusion

theorem follows_of_client_eq {u v : StopAndWait.State} {a : StopAndWait.Action} {s t : Network}
    (hR : Refines S s u) (hclient : t.client = s.client)
    (hstep : Coupled S s u → StopAndWait.Step S.total u a v ∧ Coupled S t v) :
    Follows S u t := by
  by_cases hl : s.client.net.listens .tftpHandler = true
  · obtain ⟨hs, ht⟩ := hstep (hR.coupled hl)
    exact follows_of_coupled hs (hclient ▸ hl) ht
  · exact follows_of_not_listens (by rw [hclient]; exact Bool.eq_false_of_not_eq_true hl)
      (by rw [hclient]; exact hR.correct)

theorem follows_of_taken {s : Network} {u u' : StopAndWait.State} {l : List StopAndWait.Action}
    {r : Client × List UdpPacket} {ps : List UdpPacket} {ms : List Message} {c : ℕ}
    (h : Coupled S s u) (hc : 0 < c) (htaken : Taken S c s.client r)
    (hps : ps = ms.map (Message.packet S s.client.ourPort))
    (hrun : (StopAndWait.system S.total).Run u l u') (hreceived : u'.received = c)
    (hsent : u'.sent = u.sent) (hitems : ms.filterMap Message.item? = u'.items)
    (hrequests : u'.requests = u.requests ++ [c]) :
    Follows S u ({ s with toClient := ps }.clientDid r) := by
  obtain ⟨name, -, htoServer⟩ := h.toServer
  have hname : u'.received = 0 → packetOf r.1 = htons opRrq ++ name :=
    fun h0 => absurd (hreceived ▸ h0) (Nat.pos_iff_ne_zero.mp hc)
  rcases htaken.state with ⟨-, hat⟩ | ⟨-, hsuccess, hcorrect⟩
  · refine ⟨l, u', hrun, fun _ => ?_, fun hs => ?_⟩
    · refine ⟨hreceived ▸ hat, h.sent.trans hsent.symm, fun hpos => ?_, ⟨name, hname, ?_⟩,
        ms, ?_, hitems⟩
      · show s.server.peer = r.1.ourPort
        rw [htaken.ourPort]
        exact h.peer (hsent ▸ hpos)
      · obtain ⟨c, rfl⟩ := Nat.exists_eq_succ_of_ne_zero (Nat.pos_iff_ne_zero.mp hc)
        show s.toServer ++ r.2 = u'.requests.map (requestPacket S r.1.ourPort name)
        rw [htaken.ourPort, htoServer, htaken.sent, hrequests, List.map_append]
        rfl
      · show ps = ms.map (Message.packet S r.1.ourPort)
        rw [htaken.ourPort]
        exact hps
    · exact absurd (((listens_iff _ _).mp hat.listens).1.symm.trans hs) NetState.noConfusion
  · refine follows_of_not_listens (Bool.eq_false_of_not_eq_true fun hl => ?_) fun _ => hcorrect
    exact absurd (((listens_iff _ _).mp hl).1.symm.trans hsuccess) NetState.noConfusion

theorem follows_clientReceive {s : Network} {u : StopAndWait.State} {p : UdpPacket}
    {ps : List UdpPacket} (hfile : S.file.length < 2 ^ 32) (hI : StopAndWait.Inv S.total u)
    (hR : Refines S s u) (hps : s.toClient = p :: ps) (hok : ¬CopyOfZero s) :
    Follows S u ({ s with toClient := ps }.clientDid (netReceiveUdp s.client p)) := by
  by_cases hl : s.client.net.listens .tftpHandler = true
  swap
  · have hr : netReceiveUdp s.client p = (s.client, []) := if_neg hl
    rw [hr]
    exact follows_of_not_listens (Bool.eq_false_of_not_eq_true hl) hR.correct
  have h := hR.coupled hl
  obtain ⟨name, hname, htoServer⟩ := h.toServer
  obtain ⟨ms, hms, hitems⟩ := h.toClient
  rw [hps] at hms
  obtain ⟨m, ms, rfl, rfl, rfl⟩ := List.map_eq_cons_iff.mp hms.symm
  cases m with
  | error rest =>
    have hr : netReceiveUdp s.client (Message.packet S s.client.ourPort (.error rest)) =
        (startAgain s.client, []) := by
      rw [netReceiveUdp, if_pos hl]
      exact tftpHandler_error h.client.hears rest
    rw [hr]
    refine follows_of_not_listens (NetLoop.netStartAgain_listens _ (by decide)) fun hs => ?_
    exact absurd hs (NetLoop.netStartAgain_not_success _ ((listens_iff _ _).mp hl).1)
  | item i =>
    have his : u.items = i :: ms.filterMap Message.item? := by rw [← hitems]; rfl
    have hstep : StopAndWait.Step S.total u .accept (u.accept i (ms.filterMap Message.item?)) :=
      .accept u i _ his
    rcases hI.item_cases (his ▸ List.mem_cons_self) with rfl | hi
    · -- the item waited for
      have hlt := hI.received_lt (his ▸ List.mem_cons_self)
      have htaken := netReceiveUdp_next hfile h.client hlt
      exact follows_of_taken h (Nat.succ_pos _) htaken rfl (.single hstep)
        (by rw [StopAndWait.State.accept, if_pos rfl])
        (by rw [StopAndWait.State.accept, if_pos rfl])
        (by rw [StopAndWait.State.accept, if_pos rfl])
        (by rw [StopAndWait.State.accept, if_pos rfl])
    · -- a copy of the last one
      have hne : i ≠ u.received := by omega
      rw [StopAndWait.State.accept, if_neg hne] at hstep
      by_cases hoack : i < S.oacks
      · have honce := S.oacks_le_one
        have hi0 : i = 0 := by omega
        subst hi0
        have hone : u.received = 1 := hi.symm
        have htaken := netReceiveUdp_oackAgain (hone ▸ h.client) hoack
        refine follows_of_taken h Nat.one_pos htaken rfl
          (.cons hstep (.single (.ask _))) hone rfl rfl ?_
        show u.requests ++ [u.received] = u.requests ++ [1]
        rw [hone]
      · have hle : S.oacks ≤ i := not_lt.mp hoack
        have hat : At S (i + 1) s.client := hi ▸ h.client
        have hsucc : S.number (i + 1) = S.number i + 1 := Nat.succ_sub hle
        have hpos : 0 < S.number (i + 1) := by rw [hsucc]; exact Nat.succ_pos _
        have hzero : (S.number i + 1) % 2 ^ 16 ≠ 0 := by
          intro h0
          refine hok ⟨hl, ?_, ?_, _, _, S.chunk (S.number i), hps, ?_⟩
          · rw [hat.state, if_neg (Nat.succ_ne_zero i), if_neg (Nat.pos_iff_ne_zero.mp hpos)]
          · rw [hat.lastBlock hpos, hat.block, hsucc, h0]
            rfl
          · show S.payload i = _
            rw [S.payload_data hle, ← htons_mod (S.number i + 1), h0]
        have hr : netReceiveUdp s.client (Message.packet S s.client.ourPort (.item i)) =
            (s.client, []) := netReceiveUdp_again hat hle hzero
        rw [hr]
        refine follows_of_coupled hstep hl
          ⟨h.client, h.sent, h.peer, ⟨name, hname, ?_⟩, ms, rfl, rfl⟩
        exact (List.append_nil _).trans htoServer

theorem follows_clientTimeout {s : Network} {u : StopAndWait.State} (hR : Refines S s u) :
    Follows S u (s.clientDid (netTimeout s.client)) := by
  by_cases hl : s.client.net.listens .tftpHandler = true
  swap
  · obtain ⟨hstill, hsuccess⟩ := netTimeout_of_not_listens (Bool.eq_false_of_not_eq_true hl)
    refine follows_of_not_listens hstill fun hs => ?_
    have hsame := hsuccess hs
    show Correct S (netTimeout s.client).1
    have hsc : (netTimeout s.client).1.net.netState = .success := hs
    rw [hsame] at hsc ⊢
    exact hR.correct hsc
  have h := hR.coupled hl
  obtain ⟨name, hname, htoServer⟩ := h.toServer
  rcases netTimeout_cases hl with hr | ⟨hstill, hno, -⟩ | ⟨n, count, hn, hr⟩
  · refine ⟨[], u, .nil u, fun _ => ?_, ?_⟩
    · rw [hr]
      refine ⟨h.client, h.sent, h.peer, ⟨name, hname, ?_⟩, h.toClient⟩
      exact (List.append_nil _).trans htoServer
    · rw [hr]
      exact hR.correct
  · exact follows_of_not_listens hstill fun hs => absurd hs hno
  · have hat : At S u.received { s.client with net := n, timeoutCount := count } :=
      { h.client with
        listens := hn
        loaded := ⟨h.client.loaded.size, h.client.loaded.bytes⟩ }
    rw [hr]
    refine follows_of_coupled (.ask u) hn
      ⟨hat, h.sent, h.peer, ⟨name, hname, ?_⟩, h.toClient⟩
    show s.toServer ++ Tftp.tftpSend { s.client with net := n, timeoutCount := count } =
      (u.requests ++ [u.received]).map _
    rw [At.tftpSend_eq hat hname, htoServer, List.map_append]
    rfl

theorem follows_serverReceive {s : Network} {u : StopAndWait.State} {p : UdpPacket}
    {ps : List UdpPacket} (hI : StopAndWait.Inv S.total u) (hR : Refines S s u)
    (hps : s.toServer = p :: ps) :
    Follows S u ({ s with toServer := ps }.serverDid (S.receive s.server p)) := by
  by_cases hl : s.client.net.listens .tftpHandler = true
  swap
  · exact follows_of_not_listens (Bool.eq_false_of_not_eq_true hl) hR.correct
  have h := hR.coupled hl
  obtain ⟨name, hname, htoServer⟩ := h.toServer
  obtain ⟨ms, hms, hitems⟩ := h.toClient
  rw [hps] at htoServer
  obtain ⟨m, ks, hms', rfl, rfl⟩ := List.map_eq_cons_iff.mp htoServer.symm
  have hcases := hI.request_cases (hms' ▸ List.mem_cons_self)
  by_cases hnext : m = u.sent ∧ u.sent < S.total
  · obtain ⟨rfl, htotal⟩ := hnext
    have hreceive := Server.receive_next (S := S) s.server s.client.ourPort name
      (fun hpos => h.peer (h.sent ▸ hpos)) (h.sent ▸ htotal)
    rw [h.sent] at hreceive
    rw [hreceive]
    refine follows_of_coupled (.answer u u.sent ks hms' htotal) hl ?_
    rw [StopAndWait.State.answer, if_pos rfl]
    refine ⟨h.client, rfl, fun _ => rfl, ⟨name, hname, rfl⟩, ms ++ [.item u.sent], ?_, ?_⟩
    · show s.toClient ++ [S.packet s.client.ourPort u.sent] = _
      rw [hms, List.map_append]
      rfl
    · rw [List.filterMap_append, hitems]
      rfl
  · have hend : m = u.sent → S.total ≤ m := by
      intro heq
      by_contra hlt
      exact hnext ⟨heq, heq ▸ not_le.mp hlt⟩
    have hreceive := Server.receive_old (S := S) s.server s.client.ourPort name
      (h.sent ▸ hcases) (h.sent ▸ hend)
    rw [hreceive]
    refine follows_of_coupled (.ignore u m ks hms' hend) hl
      ⟨h.client, h.sent, h.peer, ⟨name, hname, rfl⟩, ms, ?_, hitems⟩
    exact (List.append_nil _).trans hms

theorem follows_serverResend {s : Network} {u : StopAndWait.State} (hR : Refines S s u)
    (hsent : s.server.sent ≠ 0) :
    Follows S u
      (s.serverDid (s.server, [S.packet s.server.peer (s.server.sent - 1)])) := by
  refine follows_of_client_eq (a := .resend) (v := u.resend) hR rfl fun h => ?_
  have hpos : 0 < u.sent := h.sent ▸ Nat.pos_of_ne_zero hsent
  obtain ⟨ms, hms, hitems⟩ := h.toClient
  refine ⟨.resend u hpos, h.client, h.sent, h.peer, h.toServer, ms ++ [.item (u.sent - 1)],
    ?_, ?_⟩
  · show s.toClient ++ [S.packet s.server.peer (s.server.sent - 1)] = _
    rw [hms, h.peer hpos, h.sent, List.map_append]
    rfl
  · rw [List.filterMap_append, hitems]
    rfl

theorem follows_serverError {s : Network} {u : StopAndWait.State} (hR : Refines S s u)
    (hsent : s.server.sent ≠ 0) (rest : List UInt8) :
    Follows S u
      (s.serverDid (s.server, [⟨s.server.peer, S.tid, htons opError ++ rest⟩])) := by
  refine ⟨[], u, .nil u, fun hl => ?_, hR.correct⟩
  have h := hR.coupled hl
  have hpos : 0 < u.sent := h.sent ▸ Nat.pos_of_ne_zero hsent
  obtain ⟨ms, hms, hitems⟩ := h.toClient
  refine ⟨h.client, h.sent, h.peer, h.toServer, ms ++ [.error rest], ?_, ?_⟩
  · show s.toClient ++ [⟨s.server.peer, S.tid, htons opError ++ rest⟩] = _
    rw [hms, h.peer hpos, List.map_append]
    rfl
  · rw [List.filterMap_append, hitems]
    exact List.append_nil _

theorem follows_toServer {s : Network} {u : StopAndWait.State} {ps : List UdpPacket}
    (hR : Refines S s u) (hl : Lossy s.toServer ps) :
    Follows S u { s with toServer := ps } := by
  by_cases hlistens : s.client.net.listens .tftpHandler = true
  swap
  · exact follows_of_not_listens (Bool.eq_false_of_not_eq_true hlistens) hR.correct
  have h := hR.coupled hlistens
  obtain ⟨name, hname, htoServer⟩ := h.toServer
  rw [htoServer] at hl
  obtain ⟨ks, hks, rfl⟩ := hl.exists_map
  exact follows_of_coupled (.requests u ks hks) hlistens
    ⟨h.client, h.sent, h.peer, ⟨name, hname, rfl⟩, h.toClient⟩

theorem follows_toClient {s : Network} {u : StopAndWait.State} {ps : List UdpPacket}
    (hR : Refines S s u) (hl : Lossy s.toClient ps) :
    Follows S u { s with toClient := ps } := by
  by_cases hlistens : s.client.net.listens .tftpHandler = true
  swap
  · exact follows_of_not_listens (Bool.eq_false_of_not_eq_true hlistens) hR.correct
  have h := hR.coupled hlistens
  obtain ⟨ms, hms, hitems⟩ := h.toClient
  rw [hms] at hl
  obtain ⟨ks, hks, rfl⟩ := hl.exists_map
  rcases hks.filterMap Message.item? with heq | hlossy
  · exact ⟨[], u, .nil u,
      fun _ => ⟨h.client, h.sent, h.peer, h.toServer, ks, rfl, heq.symm.trans hitems⟩,
      hR.correct⟩
  · rw [hitems] at hlossy
    exact follows_of_coupled (.items u _ hlossy) hlistens
      ⟨h.client, h.sent, h.peer, h.toServer, ks, rfl, rfl⟩

/-! ## Runs -/

theorem at_start (S : Server) (t : Client) (now : ℕ) : At S 0 (netLoopStart t now).1 where
  listens := rfl
  state := rfl
  serverPort := rfl
  blkSize := rfl
  block := by
    rw [Server.number, Nat.zero_sub]
    rfl
  lastBlock h := by
    rw [Server.number, Nat.zero_sub] at h
    exact absurd h (lt_irrefl 0)
  wrapOffset h := by
    rw [Server.number, Nat.zero_sub] at h
    exact absurd h (lt_irrefl 0)
  loaded := by
    rw [Server.number, Nat.zero_sub, Nat.zero_mul, Nat.zero_min]
    exact ⟨rfl, fun i _ h => absurd h (Nat.not_lt_zero i)⟩

theorem coupled_start (S : Server) (t : Client) (now : ℕ) :
    Coupled S (Network.start t now) StopAndWait.start where
  client := at_start S t now
  sent := rfl
  peer h := absurd h (lt_irrefl 0)
  toServer := ⟨_, fun _ => rfl, rfl⟩
  toClient := ⟨[], rfl, rfl⟩

/-- **The simulation.**  While no copy of a stored DATA packet number zero is received, the
client and the server follow the stop-and-wait protocol, and a load that finishes is correct. -/
theorem simulation (hfile : S.file.length < 2 ^ 32) :
    TransitionSystem.Simulation ((load S).restrict NoCopyOfZero)
      (StopAndWait.system S.total) (Refines S) where
  init s hs := by
    obtain ⟨t, now, rfl⟩ := hs
    refine ⟨StopAndWait.start, rfl, fun _ => coupled_start S t now, fun h => ?_⟩
    exact absurd h NetState.noConfusion
  step s a t u hu hR hst := by
    obtain ⟨hok, hst⟩ := hst
    have hI := StopAndWait.reachable_inv hu
    cases hst with
    | clientReceive p ps hps => exact follows_clientReceive hfile hI hR hps (hok rfl)
    | clientTimeout => exact follows_clientTimeout hR
    | serverReceive p ps hps => exact follows_serverReceive hI hR hps
    | serverResend hsent => exact follows_serverResend hR hsent
    | serverError rest hsent => exact follows_serverError hR hsent rest
    | toServer ps hl => exact follows_toServer hR hl
    | toClient ps hl => exact follows_toClient hR hl

/-! ## Runs without faults -/

/-- The two have exchanged `c` packets, and the next request is all that is in flight. -/
structure Level (S : Server) (c : ℕ) (s : Network) : Prop where
  listens : s.client.net.listens .tftpHandler = true
  coupled : Coupled S s ⟨c, c, [], [c]⟩
  toClient : s.toClient = []

theorem step_answer {s : Network} {c : ℕ} (h : Level S c s) (hc : c < S.total) :
    Step S s .serverReceive
      { s with
        server := ⟨c + 1, s.client.ourPort⟩, toServer := []
        toClient := [S.packet s.client.ourPort c] } := by
  obtain ⟨name, -, htoServer⟩ := h.coupled.toServer
  have hsent : s.server.sent = c := h.coupled.sent
  have hreceive := Server.receive_next (S := S) s.server s.client.ourPort name
    (fun hpos => h.coupled.peer (hsent ▸ hpos)) (hsent ▸ hc)
  rw [hsent] at hreceive
  have hstep := Step.serverReceive (S := S) s _ [] htoServer
  rw [hreceive] at hstep
  simpa only [Network.serverDid, h.toClient, List.nil_append] using hstep

theorem noCopyOfZero_next {s : Network} {c : ℕ} (h : At S c s.client)
    (hs : s.toClient = [S.packet s.client.ourPort c]) : NoCopyOfZero s .clientReceive := by
  rintro - ⟨-, hstate, hlast, p, ps, data, hps, hp⟩
  have hc0 : c ≠ 0 := by
    rintro rfl
    have := h.state
    rw [hstate, if_pos rfl] at this
    exact TftpState.noConfusion this
  have hpos : 0 < S.number c := by
    by_contra hzero
    have := h.state
    rw [hstate, if_neg hc0, if_pos (Nat.eq_zero_of_not_pos hzero)] at this
    exact TftpState.noConfusion this
  have hle : S.oacks ≤ c := by
    rw [Server.number] at hpos
    omega
  have hpacket : p = S.packet s.client.ourPort c := by
    rw [hs] at hps
    exact (List.cons.inj hps).1.symm
  rw [hpacket] at hp
  have hp' : S.payload c = _ := hp
  rw [S.payload_data hle, List.append_assoc, List.append_assoc, List.append_right_inj] at hp'
  have hzero : (S.number c + 1) % 2 ^ 16 = 0 :=
    htons_mod_inj (b := 0) (List.append_inj hp' rfl).1
  rw [h.lastBlock hpos, h.block, number_mod_eq_zero_iff] at hlast
  omega

theorem exists_level (hfile : S.file.length < 2 ^ 32) (t : Client) (now c : ℕ)
    (hc : c < S.total) :
    ∃ s, ((load S).restrict NoCopyOfZero).Reachable s ∧ Level S c s := by
  induction c with
  | zero =>
    exact ⟨Network.start t now, .init ⟨t, now, rfl⟩, rfl, coupled_start S t now, rfl⟩
  | succ c ih =>
    obtain ⟨s, hs, h⟩ := ih (Nat.lt_of_succ_lt hc)
    have hanswer := step_answer h (Nat.lt_of_succ_lt hc)
    have htaken := netReceiveUdp_next hfile h.coupled.client (Nat.lt_of_succ_lt hc)
    have hat : At S (c + 1) (netReceiveUdp s.client (S.packet s.client.ourPort c)).1 := by
      rcases htaken.state with ⟨-, hat⟩ | ⟨hend, -⟩
      · exact hat
      · exact absurd hend (Nat.ne_of_lt hc)
    have hreceive := Step.clientReceive (S := S)
      { s with
        server := ⟨c + 1, s.client.ourPort⟩, toServer := []
        toClient := [S.packet s.client.ourPort c] } _ [] rfl
    refine ⟨_, .step (.step hs ⟨fun h => Action.noConfusion h, hanswer⟩)
      ⟨noCopyOfZero_next h.coupled.client rfl, hreceive⟩, hat.listens, ?_, rfl⟩
    refine ⟨hat, rfl, fun _ => htaken.ourPort.symm, ⟨[], fun h => absurd h (Nat.succ_ne_zero c), ?_⟩,
      [], rfl, rfl⟩
    show [] ++ (netReceiveUdp s.client (S.packet s.client.ourPort c)).2 =
      [requestPacket S (netReceiveUdp s.client (S.packet s.client.ourPort c)).1.ourPort [] (c + 1)]
    rw [htaken.sent, htaken.ourPort]
    rfl

theorem exists_success (hfile : S.file.length < 2 ^ 32) (t : Client) (now : ℕ) :
    ∃ s, ((load S).restrict NoCopyOfZero).Reachable s ∧
      s.client.net.netState = .success := by
  have hlast : S.total - 1 < S.total := Nat.sub_lt S.total_pos Nat.one_pos
  obtain ⟨s, hs, h⟩ := exists_level hfile t now (S.total - 1) hlast
  have hanswer := step_answer h hlast
  have htaken := netReceiveUdp_next hfile h.coupled.client hlast
  have hreceive := Step.clientReceive (S := S)
    { s with
      server := ⟨S.total - 1 + 1, s.client.ourPort⟩, toServer := []
      toClient := [S.packet s.client.ourPort (S.total - 1)] } _ [] rfl
  refine ⟨_, .step (.step hs ⟨fun h => Action.noConfusion h, hanswer⟩)
    ⟨noCopyOfZero_next h.coupled.client rfl, hreceive⟩, ?_⟩
  rcases htaken.state with ⟨hlt, -⟩ | ⟨-, hsuccess, -⟩
  · have hlt' : S.total - 1 + 1 < S.total := hlt
    omega
  · exact hsuccess

/-! ## The main theorem -/

/-- **Correctness of loads.**  In every run in which no copy of a stored DATA packet number zero
is received, a load of a file of less than `2 ^ 32` bytes that finishes has the bytes of the
file at the load address and its length as the size. -/
theorem load_correct (S : Server) (hfile : S.file.length < 2 ^ 32) (s : Network)
    (hs : ((load S).restrict NoCopyOfZero).Reachable s)
    (hsuccess : s.client.net.netState = .success) : Correct S s.client := by
  obtain ⟨u, -, hR⟩ := (simulation hfile).exists_reachable hs
  exact hR.correct hsuccess

/-- The server of a file of three bytes, with blocks of two. -/
def smallServer : Server where
  file := [1, 2, 3]
  options := [.timeout 5, .blksize 2]
  tid := 1069
  blksize_range size h := by
    rw [← Option.some.inj h]
    decide

/-- A client before its first load. -/
def idleClient : Client where
  timeoutMSecs := timeout
  timeoutCountMax := timeoutCountDefault
  rrqTimeoutMSecs := timeout
  rrqTimeoutCountMax := timeoutCountDefault
  serverPort := 0
  ourPort := 0
  timeoutCount := 0
  block := 0
  lastBlock := 0
  blockWrap := 0
  blockWrapOffset := 0
  state := .rrq
  filename := []
  blkSize := tftpBlockSize
  blkSizeOption := 1468
  bootFile := []
  netOurIP := 0xC0A80001
  loadAddr := 0x81000000
  memory := fun _ => 0
  netBootFileXferSize := 0
  net := ⟨.continue, .startAgainHandler, none, none⟩

theorem load_correct_small :
    ∃ s : Network, s.client.net.netState = .success ∧ Correct smallServer s.client := by
  have hfile : smallServer.file.length < 2 ^ 32 := by decide
  obtain ⟨s, hs, hsuccess⟩ := exists_success hfile idleClient 0
  exact ⟨s, hsuccess, load_correct smallServer hfile s hs hsuccess⟩

/-! ## A copy of DATA number zero -/

/-- The server of a file that needs one packet more than there are block numbers. -/
def wrapServer : Server where
  file := List.replicate (2 ^ 25 + 1) 0
  options := []
  tid := 1069
  blksize_range size h := absurd h (Option.some_ne_none size).symm

theorem wrapServer_length : wrapServer.file.length = 2 ^ 25 + 1 := List.length_replicate

theorem wrapServer_total : wrapServer.total = 2 ^ 16 + 1 := by
  have hblkSize : wrapServer.blkSize = 512 := rfl
  have hoacks : wrapServer.oacks = 0 := rfl
  rw [Server.total, Server.blocks, wrapServer_length, hblkSize, hoacks]
  norm_num

theorem netReceiveUdp_copyOfZero {t : Client} (h : At wrapServer (2 ^ 16) t) :
    netReceiveUdp t (wrapServer.packet t.ourPort (2 ^ 16 - 1)) =
      (readBlock t 0, []) := by
  have hnumber : wrapServer.number (2 ^ 16) = 2 ^ 16 := rfl
  have hstate : t.state = .data := h.state
  have hlast : t.lastBlock = 0 := by
    rw [h.lastBlock (hnumber ▸ Nat.two_pow_pos 16), h.block]
    rfl
  have hle : wrapServer.oacks ≤ 2 ^ 16 - 1 := Nat.zero_le _
  have hsame : (readBlock t 0).block = (readBlock t 0).lastBlock := hlast.symm
  rw [netReceiveUdp, if_pos h.listens]
  show tftpHandler t (wrapServer.payload (2 ^ 16 - 1)) t.ourPort wrapServer.tid = _
  rw [wrapServer.payload_data hle, List.append_assoc, tftpHandler_data h.hears,
    handleData_of_data hstate]
  exact if_pos hsame

theorem acceptBlock_last {t : Client} {data : List UInt8} (hnew : t.block ≠ t.lastBlock)
    (hshort : data.length < t.blkSize.toNat) :
    (acceptBlock t data).1.net.netState = .success ∧
      (acceptBlock t data).1.netBootFileXferSize =
        (storeBlock t (t.block - 1) data).netBootFileXferSize := by
  have hshort' : data.length < (storeBlock (newBlock t) (t.block - 1) data).blkSize.toNat := hshort
  rw [acceptBlock, if_neg hnew]
  dsimp only
  rw [if_pos hshort']
  exact ⟨rfl, rfl⟩

theorem netReceiveUdp_misplaced {t : Client} (h : At wrapServer (2 ^ 16) t) :
    (netReceiveUdp (readBlock t 0)
        (wrapServer.packet t.ourPort (2 ^ 16))).1.net.netState = .success ∧
      (netReceiveUdp (readBlock t 0)
        (wrapServer.packet t.ourPort (2 ^ 16))).1.netBootFileXferSize = 2 ^ 26 + 1 := by
  have hnumber : wrapServer.number (2 ^ 16) = 2 ^ 16 := rfl
  have hpos : 0 < wrapServer.number (2 ^ 16) := hnumber ▸ Nat.two_pow_pos 16
  have hblkSize : wrapServer.blkSize = 512 := rfl
  have hlast : t.lastBlock = 0 := by
    rw [h.lastBlock hpos, h.block]
    rfl
  have hwrap : t.blockWrapOffset = 2 ^ 25 := by
    rw [h.wrapOffset hpos, hnumber, hblkSize]
    rfl
  have hblk : t.blkSize = 512 := h.blkSize
  have hsize : t.netBootFileXferSize = 2 ^ 25 := by
    rw [h.loaded.size, hnumber, hblkSize, wrapServer_length]
    rfl
  have hchunk : (wrapServer.chunk (2 ^ 16)).length = 1 := by
    rw [Server.length_chunk, wrapServer_length, hblkSize]
    norm_num
  have hle : wrapServer.oacks ≤ 2 ^ 16 := Nat.zero_le _
  have hlistens : (readBlock t 0).net.listens .tftpHandler = true := h.listens
  have hstate : (readBlock t 0).state = .data := h.state
  have hport : (readBlock t 0).serverPort = wrapServer.tid := h.serverPort
  have hears : ¬((readBlock t 0).state ≠ .rrq ∧
      wrapServer.tid ≠ (readBlock t 0).serverPort) := fun hno => hno.2 hport.symm
  have hresult : netReceiveUdp (readBlock t 0) (wrapServer.packet t.ourPort (2 ^ 16)) =
      acceptBlock (readBlock (readBlock t 0) 1) (wrapServer.chunk (2 ^ 16)) := by
    rw [netReceiveUdp, if_pos hlistens]
    show tftpHandler (readBlock t 0) (wrapServer.payload (2 ^ 16)) (readBlock t 0).ourPort
      wrapServer.tid = _
    rw [wrapServer.payload_data hle, List.append_assoc, tftpHandler_data hears,
      handleData_of_data hstate, hnumber]
    rfl
  have hnew : (readBlock (readBlock t 0) 1).block ≠ (readBlock (readBlock t 0) 1).lastBlock := by
    show (1 : ULong) ≠ t.lastBlock
    rw [hlast]
    decide
  have hshort : (wrapServer.chunk (2 ^ 16)).length <
      (readBlock (readBlock t 0) 1).blkSize.toNat := by
    show _ < t.blkSize.toNat
    rw [hchunk, hblk]
    decide
  obtain ⟨hsuccess, hstored⟩ := acceptBlock_last hnew hshort
  rw [hresult]
  refine ⟨hsuccess, hstored.trans ?_⟩
  -- the place is `0 * 512` behind a wrap offset that was advanced twice
  have hoffset : (readBlock (readBlock t 0) 1).blockWrapOffset =
      t.blockWrapOffset + t.blkSize.setWidth 32 * tftpSequenceSize := rfl
  have hblock : (readBlock (readBlock t 0) 1).block = 1 := rfl
  have hblk' : (readBlock (readBlock t 0) 1).blkSize = t.blkSize := rfl
  have hsize' : (readBlock (readBlock t 0) 1).netBootFileXferSize = t.netBootFileXferSize := rfl
  simp only [storeBlock, hoffset, hblock, hblk', hsize', hwrap, hblk, hsize, hchunk]
  decide

/-- **Duplicates of DATA number zero.**  Loads are not correct in every run. -/
theorem not_load_correct :
    ¬∀ (S : Server) (s : Network), S.file.length < 2 ^ 32 → (load S).Reachable s →
      s.client.net.netState = .success → Correct S s.client := by
  intro hall
  have hfile : wrapServer.file.length < 2 ^ 32 := by
    rw [wrapServer_length]
    decide
  have htotal : 2 ^ 16 - 1 < wrapServer.total := by
    rw [wrapServer_total]
    decide
  obtain ⟨s, hs, h⟩ := exists_level hfile idleClient 0 (2 ^ 16 - 1) htotal
  have hanswer := step_answer h htotal
  have htaken := netReceiveUdp_next hfile h.coupled.client htotal
  have hat : At wrapServer (2 ^ 16)
      (netReceiveUdp s.client (wrapServer.packet s.client.ourPort (2 ^ 16 - 1))).1 := by
    rcases htaken.state with ⟨-, hat⟩ | ⟨hend, -⟩
    · exact hat
    · rw [wrapServer_total] at hend
      exact absurd hend (by decide)
  generalize hr : netReceiveUdp s.client (wrapServer.packet s.client.ourPort (2 ^ 16 - 1)) = r
    at htaken hat
  obtain ⟨t, sent⟩ := r
  have hport : t.ourPort = s.client.ourPort := htaken.ourPort
  have hsent : sent = [ackPacket wrapServer t.ourPort (2 ^ 16)] := by
    rw [hport]
    exact htaken.sent
  rw [← hport] at hr hanswer
  -- the channel doubles DATA number zero
  have hdouble : Step wrapServer _ .network _ :=
    .toClient { s with
      server := ⟨2 ^ 16 - 1 + 1, t.ourPort⟩, toServer := []
      toClient := [wrapServer.packet t.ourPort (2 ^ 16 - 1)] } _ (.duplicate [] [] _)
  have hfirst := Step.clientReceive (S := wrapServer)
    { s with
      server := ⟨2 ^ 16, t.ourPort⟩, toServer := []
      toClient := [wrapServer.packet t.ourPort (2 ^ 16 - 1),
        wrapServer.packet t.ourPort (2 ^ 16 - 1)] } _ _ rfl
  rw [hr] at hfirst
  have hcopy := Step.clientReceive (S := wrapServer)
    ⟨t, ⟨2 ^ 16, t.ourPort⟩, sent, [wrapServer.packet t.ourPort (2 ^ 16 - 1)]⟩ _ _ rfl
  rw [netReceiveUdp_copyOfZero hat] at hcopy
  have hmore := Step.serverReceive (S := wrapServer)
    ⟨readBlock t 0, ⟨2 ^ 16, t.ourPort⟩, [ackPacket wrapServer t.ourPort (2 ^ 16)], []⟩ _ _ rfl
  have htotal' : 2 ^ 16 < wrapServer.total := by
    rw [wrapServer_total]
    exact Nat.lt_succ_self _
  have hreceive : wrapServer.receive ⟨2 ^ 16, t.ourPort⟩ (ackPacket wrapServer t.ourPort (2 ^ 16)) =
      (⟨2 ^ 16 + 1, t.ourPort⟩, [wrapServer.packet t.ourPort (2 ^ 16)]) :=
    Server.receive_next ⟨2 ^ 16, t.ourPort⟩ t.ourPort [] (fun _ => rfl) htotal'
  rw [hreceive] at hmore
  have hlast := Step.clientReceive (S := wrapServer)
    ⟨readBlock t 0, ⟨2 ^ 16 + 1, t.ourPort⟩, [], [wrapServer.packet t.ourPort (2 ^ 16)]⟩ _ _ rfl
  obtain ⟨hsuccess, hsize⟩ := netReceiveUdp_misplaced hat
  have hreach : (load wrapServer).Reachable _ :=
    .step (.step (.step (.step (.step (.step (TransitionSystem.reachable_of_restrict hs) hanswer)
      hdouble) hfirst) (by rw [hsent]; rw [hsent] at hcopy; exact hcopy)) hmore) hlast
  have hcorrect := (hall wrapServer _ hfile hreach hsuccess).size
  rw [wrapServer_length] at hcorrect
  have hsize' : (2 ^ 26 + 1 : ULong).toNat = 2 ^ 25 + 1 := hsize ▸ hcorrect
  exact absurd hsize' (by decide)

end Tftp
end EmevBsp
