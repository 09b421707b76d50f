import EmevBsp.Net.DhcpOptions
import EmevBsp.Library.TransitionSystem

/-!
# `net/bootp.c`: runs of the DHCP client

A run is a sequence of requests, timeouts and received packets, in any order; every packet may
come in every state, whoever sent it.

* `dhcpHandler_cases`: what the handler does, once for all packets and states.
* `dhcp_run`: in every run, the client begins to request on a packet that passes the check while
  it selects, and is bound, and starts the load, on a packet that carries an ACK while it
  requests.  Both packets have the current identifier.
* `not_dhcp_run_offer`: the first of the two need not be an offer.
-/

namespace EmevBsp
namespace Net

open OptionField

/-! ## What the handler changes -/

/-- The state of the exchange and the loop are the same. -/
structure SameExchange (s t : Dhcp) : Prop where
  dhcpState : t.dhcpState = s.dhcpState
  bootpId : t.bootpId = s.bootpId
  net : t.net = s.net

theorem SameExchange.refl (s : Dhcp) : SameExchange s s := ⟨rfl, rfl, rfl⟩

theorem SameExchange.trans {s t r : Dhcp} (h : SameExchange s t) (h' : SameExchange t r) :
    SameExchange s r :=
  ⟨h'.dhcpState.trans h.dhcpState, h'.bootpId.trans h.bootpId, h'.net.trans h.net⟩

theorem dhcpOption_sameExchange (s : Dhcp × BootpPkt) (popt : ℕ) :
    SameExchange s.1 (dhcpOption s popt).1 := by
  unfold dhcpOption
  repeat' split
  all_goals exact ⟨rfl, rfl, rfl⟩

theorem dhcpOptionsFrom_sameExchange (s : Dhcp × BootpPkt) (popt endp : ℕ) :
    SameExchange s.1 (dhcpOptionsFrom s popt endp).1 := by
  induction s, popt using dhcpOptionsFrom.induct endp with
  | case1 s popt hgo ih =>
    rw [dhcpOptionsFrom, if_pos hgo]
    exact (dhcpOption_sameExchange s popt).trans ih
  | case2 s popt hstop =>
    rw [dhcpOptionsFrom, if_neg hstop]
    exact .refl _

theorem dhcpOptionsOf_sameExchange (s : Dhcp) (pkt : BootpPkt) :
    SameExchange s (dhcpOptionsOf s pkt).1 := by
  rw [dhcpOptionsOf]
  split
  · exact dhcpOptionsFrom_sameExchange (s, pkt) _ _
  · exact .refl s

/-- The load is started. -/
def StartsLoad (actions : List DhcpAction) : Prop := .tftpStart ∈ actions ∨ .nfsStart ∈ actions

theorem not_startsLoad_nil : ¬StartsLoad [] := by
  rintro (h | h) <;> exact List.not_mem_nil h

theorem not_startsLoad_broadcast (payload : List UInt8) : ¬StartsLoad [.broadcast payload] := by
  rintro (h | h) <;> exact DhcpAction.noConfusion (List.mem_singleton.mp h)

theorem dhcpSelect_spec (s : Dhcp) (pkt : BootpPkt) (timer : ℕ) :
    (dhcpSelect s pkt timer).1.dhcpState = .requesting ∧
      (dhcpSelect s pkt timer).1.bootpId = s.bootpId ∧
      (dhcpSelect s pkt timer).1.net = s.net ∧ ¬StartsLoad (dhcpSelect s pkt timer).2 := by
  have hsame := dhcpOptionsOf_sameExchange (s.setState .requesting) pkt
  exact ⟨hsame.dhcpState, hsame.bootpId, hsame.net, not_startsLoad_broadcast _⟩

theorem dhcpAutoload_spec (s : Dhcp) :
    (dhcpAutoload s).1.dhcpState = s.dhcpState ∧ (dhcpAutoload s).1.bootpId = s.bootpId := by
  rw [dhcpAutoload]
  split
  · exact ⟨rfl, rfl⟩
  · split
    · exact ⟨rfl, rfl⟩
    · split <;> exact ⟨rfl, rfl⟩

theorem dhcpBind_spec (s : Dhcp) (pkt : BootpPkt) (ether : EtherAddr) :
    (dhcpBind s pkt ether).1.dhcpState = .bound ∧
      (dhcpBind s pkt ether).1.bootpId = s.bootpId := by
  have hsame := dhcpOptionsOf_sameExchange s pkt
  obtain ⟨hstate, hid⟩ := dhcpAutoload_spec
    ((bootpCopyNetParams (dhcpOptionsOf s pkt).1 (dhcpOptionsOf s pkt).2 ether).setState .bound)
  exact ⟨hstate, hid.trans hsame.bootpId⟩

theorem bpId_of_bootpCheckPkt {s : Dhcp} {pkt : BootpPkt} {dest src len : ℕ}
    (h : bootpCheckPkt s pkt dest src len = 0) : netReadIp pkt bpId = s.bootpId := by
  unfold bootpCheckPkt at h
  by_contra hid
  rw [if_pos hid] at h
  split_ifs at h

/-- **What the handler does**: it goes on to request when it selects, binds on an ACK when it
requests, and otherwise leaves everything as it is. -/
theorem dhcpHandler_cases {s : Dhcp} {pkt : BootpPkt} {dest src len : ℕ} {ether : EtherAddr}
    {timer : ℕ} {t : Dhcp × List DhcpAction}
    (h : dhcpHandler s pkt dest src len ether timer = some t) :
    t = (s, []) ∨
    (bootpCheckPkt s pkt dest src len = 0 ∧ s.dhcpState = .selecting ∧ t = dhcpSelect s pkt timer) ∨
    (bootpCheckPkt s pkt dest src len = 0 ∧ s.dhcpState = .requesting ∧
      dhcpMessageType pkt bpVend = some (dhcpAck.toNat : ℤ) ∧ t = dhcpBind s pkt ether) := by
  rw [dhcpHandler] at h
  split at h
  · exact .inl (Option.some.inj h).symm
  · next hcheck =>
    have hcheck : bootpCheckPkt s pkt dest src len = 0 := not_not.mp hcheck
    split at h
    · next hstate => exact .inr (.inl ⟨hcheck, hstate, (Option.some.inj h).symm⟩)
    · next hstate =>
      obtain ⟨type, htype, hresult⟩ := Option.map_eq_some_iff.mp h
      by_cases hack : type = dhcpAck.toNat
      · rw [if_pos hack] at hresult
        exact .inr (.inr ⟨hcheck, hstate, hack ▸ htype, hresult.symm⟩)
      · rw [if_neg hack] at hresult
        exact .inl hresult.symm
    · exact .inl (Option.some.inj h).symm

/-! ## Packets with an ACK -/

theorem dhcpMessageTypeFrom_none {pkt : BootpPkt} {p n fuel : ℕ} {items : List Item}
    (h : HoldsAt pkt p (encode items)) (hstops : StopsAt n p items)
    (hpads : ∀ item ∈ items, item ≠ .pad) (htype : messageType items = none)
    (hfuel : n - p + 1 < fuel) : dhcpMessageTypeFrom pkt fuel p = some (-1) := by
  induction items generalizing p fuel with
  | nil =>
    cases fuel with
    | zero => exact absurd hfuel (Nat.not_lt_zero _)
    | succ fuel => rw [dhcpMessageTypeFrom, if_pos (holdsAt_end h)]
  | cons item items ih =>
    cases item with
    | pad => exact absurd rfl (hpads _ List.mem_cons_self)
    | opt o =>
      obtain ⟨hcode, hsize, -, hrest⟩ := holdsAt_opt h
      cases fuel with
      | zero => exact absurd hfuel (Nat.not_lt_zero _)
      | succ fuel =>
        rw [messageType, options, List.lookup_cons] at htype
        have h53 : ¬o.code = 53 := by
          intro h53
          rw [h53, beq_self_eq_true] at htype
          exact absurd htype (Option.some_ne_none _)
        have hne : ((53 : UInt8) == o.code) = false := beq_false_of_ne (Ne.symm h53)
        rw [hne] at htype
        have hlt := hstops.1
        rw [dhcpMessageTypeFrom, if_neg (by rw [hcode]; exact o.code_ne_end), hcode, if_neg h53,
          hsize]
        exact ih hrest hstops.2 (fun item hitem => hpads item (List.mem_cons_of_mem _ hitem)) htype
          (by omega)

/-- The packet carries an ACK: the scan finds it behind the cookie.  If an option field without
pads stands there, within 548 bytes, it has a message type, and that is ACK. -/
structure CarriesAck (pkt : BootpPkt) : Prop where
  scan : dhcpMessageType pkt bpVend = some (dhcpAck.toNat : ℤ)
  cookie : bytesAt pkt bpVend 4 = bootpVendorMagic
  option : ∀ items, HoldsAt pkt (bpVend + 4) (encode items) → (∀ item ∈ items, item ≠ .pad) →
    StopsAt (bpVend + 4 + bootpHdrSize) (bpVend + 4) items →
      ∃ value, messageType items = some value ∧ ∀ v rest, value = v :: rest → v = dhcpAck

theorem carriesAck_of_scan {pkt : BootpPkt}
    (h : dhcpMessageType pkt bpVend = some (dhcpAck.toNat : ℤ)) : CarriesAck pkt := by
  have hcookie : bytesAt pkt bpVend 4 = bootpVendorMagic := by
    by_contra hno
    rw [dhcpMessageType, if_pos hno] at h
    exact absurd (Option.some.inj h) (by decide)
  refine ⟨h, hcookie, fun items hfield hpads hstops => ?_⟩
  rw [dhcpMessageType, if_neg (not_not.mpr hcookie)] at h
  cases htype : messageType items with
  | none =>
    rw [dhcpMessageTypeFrom_none hfield hstops hpads htype
      (by rw [Nat.add_sub_cancel_left, bootpHdrSize]; decide)] at h
    exact absurd (Option.some.inj h) (by decide)
  | some value =>
    refine ⟨value, rfl, fun v rest hvalue => ?_⟩
    rw [hvalue] at htype
    rw [dhcpMessageTypeFrom_eq hfield hstops htype
      (by rw [Nat.add_sub_cancel_left, bootpHdrSize]; decide)] at h
    exact UInt8.toNat_inj.mp (Int.ofNat.inj (Option.some.inj h))

/-! ## Runs -/

/-- What happens in a run. -/
inductive DhcpEvent where
  /-- the loop, or the user, begins an exchange -/
  | request (timer : ℕ)
  | timeout (timer : ℕ)
  | packet (pkt : BootpPkt) (dest src len : ℕ) (ether : EtherAddr) (timer : ℕ)

/-- The client, and the packet that it took for the offer since its last request. -/
structure DhcpRun where
  dhcp : Dhcp
  offer : Option BootpPkt

/-- One event: the globals after it, and what the client does. -/
def dhcpEvent (s : Dhcp) : DhcpEvent → Option (Dhcp × List DhcpAction)
  | .request timer => some (bootpRequest s timer)
  | .timeout timer => some (bootpTimeout s timer)
  | .packet pkt dest src len ether timer => dhcpHandler s pkt dest src len ether timer

/-- The packet taken for the offer. -/
def noteOffer (s t : Dhcp) (offer : Option BootpPkt) : DhcpEvent → Option BootpPkt
  | .packet pkt _ _ _ _ _ =>
    if s.dhcpState = .selecting ∧ t.dhcpState = .requesting then some pkt else offer
  | _ => offer

/-- The client, with whatever happens to it. -/
def dhcpSystem : TransitionSystem DhcpRun DhcpEvent where
  init s := s.dhcp.dhcpState = .init ∧ s.offer = none
  step s a t := ∃ actions, dhcpEvent s.dhcp a = some (t.dhcp, actions) ∧
    t.offer = noteOffer s.dhcp t.dhcp s.offer a

/-- The event is a packet that the check lets through while the client is in `state`. -/
def OnPacket (s : Dhcp) (a : DhcpEvent) (state : DhcpState) (P : BootpPkt → Prop) : Prop :=
  ∃ pkt dest src len ether timer, a = .packet pkt dest src len ether timer ∧
    s.dhcpState = state ∧ bootpCheckPkt s pkt dest src len = 0 ∧
    netReadIp pkt bpId = s.bootpId ∧ P pkt

theorem dhcpEvent_cases {s : Dhcp} {a : DhcpEvent} {t : Dhcp × List DhcpAction}
    (h : dhcpEvent s a = some t) :
    (∃ timer, t = bootpRequest s timer) ∨
    (t.1.dhcpState = s.dhcpState ∧ t.1.bootpId = s.bootpId ∧ t.2 = [] ∧
      (t.1.net = s.net ∨ t.1.net = s.net.netStartAgain)) ∨
    (∃ pkt timer, OnPacket s a .selecting (· = pkt) ∧ t = dhcpSelect s pkt timer) ∨
    (∃ pkt ether, OnPacket s a .requesting (fun p => p = pkt ∧ CarriesAck p) ∧
      t = dhcpBind s pkt ether) := by
  cases a with
  | request timer => exact .inl ⟨timer, (Option.some.inj h).symm⟩
  | timeout timer =>
    have ht : bootpTimeout s timer = t := Option.some.inj h
    rw [bootpTimeout] at ht
    split at ht
    · rw [← ht]
      exact .inr (.inl ⟨rfl, rfl, rfl, .inr rfl⟩)
    · exact .inl ⟨timer, ht.symm⟩
  | packet pkt dest src len ether timer =>
    rcases dhcpHandler_cases h with hsame | ⟨hcheck, hstate, ht⟩ | ⟨hcheck, hstate, htype, ht⟩
    · rw [hsame]
      exact .inr (.inl ⟨rfl, rfl, rfl, .inl rfl⟩)
    · exact .inr (.inr (.inl ⟨pkt, timer, ⟨pkt, dest, src, len, ether, timer, rfl, hstate, hcheck,
        bpId_of_bootpCheckPkt hcheck, rfl⟩, ht⟩))
    · exact .inr (.inr (.inr ⟨pkt, ether, ⟨pkt, dest, src, len, ether, timer, rfl, hstate, hcheck,
        bpId_of_bootpCheckPkt hcheck, rfl, carriesAck_of_scan htype⟩, ht⟩))

/-- A client that requests has an offer for the current identifier. -/
def OfferInv (s : DhcpRun) : Prop :=
  s.dhcp.dhcpState = .requesting →
    ∃ offer, s.offer = some offer ∧ netReadIp offer bpId = s.dhcp.bootpId

theorem offerInv_step {s t : DhcpRun} {a : DhcpEvent} (hs : OfferInv s)
    (hstep : dhcpSystem.step s a t) : OfferInv t := by
  obtain ⟨actions, hevent, hoffer⟩ := hstep
  intro hrequesting
  rcases dhcpEvent_cases hevent with ⟨timer, ht⟩ | ⟨hstate, hid, -, -⟩ | ⟨pkt, timer, hon, ht⟩ |
    ⟨pkt, ether, -, ht⟩
  · have hselecting : t.dhcp.dhcpState = .selecting := congrArg (fun r => r.1.dhcpState) ht
    exact absurd (hselecting.symm.trans hrequesting) (by decide)
  · obtain ⟨offer, hsome, hofferId⟩ := hs (hstate.symm.trans hrequesting)
    have hnot : ¬(s.dhcp.dhcpState = .selecting ∧ t.dhcp.dhcpState = .requesting) := fun hb =>
      absurd ((hstate.symm.trans hrequesting).symm.trans hb.1) (by decide)
    refine ⟨offer, ?_, hofferId.trans hid.symm⟩
    rw [hoffer]
    cases a with
    | packet => rw [noteOffer, if_neg hnot, hsome]
    | _ => exact hsome
  · obtain ⟨p, dest, src, len, ether, timer', rfl, hselecting, -, hpid, rfl⟩ := hon
    have hid : t.dhcp.bootpId = s.dhcp.bootpId :=
      (congrArg (fun r => r.1.bootpId) ht).trans (dhcpSelect_spec s.dhcp p timer).2.1
    refine ⟨p, ?_, hpid.trans hid.symm⟩
    rw [hoffer, noteOffer, if_pos ⟨hselecting, hrequesting⟩]
  · have hbound : t.dhcp.dhcpState = .bound :=
      (congrArg (fun r => r.1.dhcpState) ht).trans (dhcpBind_spec s.dhcp pkt ether).1
    exact absurd (hbound.symm.trans hrequesting) (by decide)

/-! ## The state machine -/

/-- **The DHCP state machine.**  In every run, the client begins to request only on a packet with
the current identifier that passes the check while it selects.  It is bound only on a packet with
the current identifier that carries an ACK while it requests, and it requests only after a packet
with the same identifier; the load is started only in that step. -/
theorem dhcp_run {s : DhcpRun} {a : DhcpEvent} {t : Dhcp} {actions : List DhcpAction}
    (hs : dhcpSystem.Reachable s) (hevent : dhcpEvent s.dhcp a = some (t, actions)) :
    (t.dhcpState = .requesting → s.dhcp.dhcpState ≠ .requesting →
      OnPacket s.dhcp a .selecting fun _ => True) ∧
    (t.dhcpState = .bound → s.dhcp.dhcpState ≠ .bound →
      OnPacket s.dhcp a .requesting CarriesAck ∧
        ∃ offer, s.offer = some offer ∧ netReadIp offer bpId = s.dhcp.bootpId) ∧
    (StartsLoad actions → OnPacket s.dhcp a .requesting CarriesAck ∧ t.dhcpState = .bound) ∧
    (t.net.netState = .success → s.dhcp.net.netState = .continue →
      OnPacket s.dhcp a .requesting CarriesAck ∧ t.dhcpState = .bound) := by
  have hinv : OfferInv s := by
    refine TransitionSystem.Reachable.invariant (I := OfferInv) (fun s hinit hrequesting => ?_)
      (fun s a t => offerInv_step) hs
    exact absurd (hinit.1.symm.trans hrequesting) (by decide)
  rcases dhcpEvent_cases hevent with ⟨timer, ht⟩ | ⟨hstate, -, hactions, hnet⟩ |
    ⟨pkt, timer, hon, ht⟩ | ⟨pkt, ether, hon, ht⟩
  · -- a request selects, and sends one packet
    obtain ⟨rfl, rfl⟩ := Prod.mk.inj ht
    refine ⟨fun h => ?_, fun h => ?_, fun h => ?_, fun h hcontinue => ?_⟩
    · exact DhcpState.noConfusion h
    · exact DhcpState.noConfusion h
    · exact absurd h (not_startsLoad_broadcast _)
    · exact absurd (hcontinue.symm.trans h) (by decide)
  · subst hactions
    refine ⟨fun h hne => absurd (hstate.symm.trans h) hne,
      fun h hne => absurd (hstate.symm.trans h) hne, fun h => absurd h not_startsLoad_nil,
      fun h hcontinue => ?_⟩
    rcases hnet with hsame | hagain
    · exact absurd (hcontinue.symm.trans ((congrArg NetLoop.netState hsame).symm.trans h)) (by decide)
    · exact absurd ((congrArg NetLoop.netState hagain).symm.trans h)
        (NetLoop.netStartAgain_not_success _ hcontinue)
  · obtain ⟨hrequesting, -, hnet, hload⟩ := dhcpSelect_spec s.dhcp pkt timer
    obtain ⟨rfl, rfl⟩ := Prod.mk.inj ht
    refine ⟨fun _ _ => ?_, fun h => ?_, fun h => absurd h hload, fun h hcontinue => ?_⟩
    · obtain ⟨p, dest, src, len, ether, timer, ha, hselecting, hcheck, hid, -⟩ := hon
      exact ⟨p, dest, src, len, ether, timer, ha, hselecting, hcheck, hid, trivial⟩
    · exact absurd (hrequesting.symm.trans h) (by decide)
    · exact absurd (hcontinue.symm.trans ((congrArg NetLoop.netState hnet).symm.trans h)) (by decide)
  · obtain ⟨hbound, -⟩ := dhcpBind_spec s.dhcp pkt ether
    obtain ⟨rfl, rfl⟩ := Prod.mk.inj ht
    have hack : OnPacket s.dhcp a .requesting CarriesAck := by
      obtain ⟨p, dest, src, len, ether, timer, ha, hrequesting, hcheck, hid, -, hcarries⟩ := hon
      exact ⟨p, dest, src, len, ether, timer, ha, hrequesting, hcheck, hid, hcarries⟩
    refine ⟨fun h => absurd (hbound.symm.trans h) (by decide), fun _ _ => ⟨hack, hinv ?_⟩,
      fun _ => ⟨hack, hbound⟩, fun _ _ => ⟨hack, hbound⟩⟩
    obtain ⟨_, _, _, _, _, _, _, hrequesting, -⟩ := hack
    exact hrequesting

/-- A client with nothing configured. -/
def exampleDhcp : Dhcp where
  net := ⟨.continue, .startAgainHandler, none, none⟩
  timer := false
  dhcpState := .init
  bootpId := 0
  bootpTry := 0
  dhcpLeasetime := 0
  netDhcpServerIp := 0
  netOurEther := #v[2, 0, 0, 0, 0, 1]
  netOurIp := 0
  netServerIp := 0
  netServerEther := #v[0, 0, 0, 0, 0, 0]
  netOurSubnetMask := 0
  netOurGatewayIp := 0
  netOurDnsIp := 0
  netOurHostName := []
  netOurRootPath := []
  bootFile := []
  autoloadEnv := none
  bootfileEnv := none
  netOurNisDomain := []
  netBootFileSize := 0

/-- The client after its request, which has the identifier 1. -/
def selectingRun : DhcpRun := ⟨(bootpRequest exampleDhcp 0).1, none⟩

theorem selectingRun_reachable : dhcpSystem.Reachable selectingRun :=
  .step (s := ⟨exampleDhcp, none⟩) (a := .request 0) (.init ⟨rfl, rfl⟩)
    ⟨(bootpRequest exampleDhcp 0).2, rfl, rfl⟩

theorem dhcpMessageType_ne_pad : (53 : UInt8) ≠ 0 := by decide

theorem dhcpMessageType_ne_end : (53 : UInt8) ≠ 255 := by decide

def nakItem : Item := .opt ⟨53, [6], dhcpMessageType_ne_pad, dhcpMessageType_ne_end, by decide⟩

/-- A refusal with the identifier 1. -/
def nakPkt : BootpPkt := fun i =>
  if i < bpVend then [2, 1, 6, 0, 0, 0, 0, 1].getD i 0
  else (bootpVendorMagic ++ encode [nakItem]).getD (i - bpVend) 0

theorem nakPkt_check : bootpCheckPkt selectingRun.dhcp nakPkt 68 67 300 = 0 := by decide

theorem dhcpEvent_nakPkt :
    dhcpEvent selectingRun.dhcp (.packet nakPkt 68 67 300 #v[2, 0, 0, 0, 0, 9] 0) =
      some (dhcpSelect selectingRun.dhcp nakPkt 0) := by
  rw [dhcpEvent, dhcpHandler, if_neg (not_not.mpr nakPkt_check)]
  rfl

theorem dhcp_run_nak :
    OnPacket selectingRun.dhcp (.packet nakPkt 68 67 300 #v[2, 0, 0, 0, 0, 9] 0) .selecting
      fun _ => True :=
  (dhcp_run selectingRun_reachable dhcpEvent_nakPkt).1
    (dhcpSelect_spec selectingRun.dhcp nakPkt 0).1 (by decide)

/-- The message type of the packet, if an option field stands behind the cookie. -/
def MessageTypeIs (v : UInt8) (pkt : BootpPkt) : Prop :=
  ∀ items, HoldsAt pkt bpVend bootpVendorMagic → HoldsAt pkt (bpVend + 4) (encode items) →
    messageType items = some [v]

/-- **The packet need not be an offer**: a client that selects goes on to request on a refusal. -/
theorem not_dhcp_run_offer :
    ¬∀ (s : DhcpRun) (a : DhcpEvent) (t : Dhcp) (actions : List DhcpAction),
      dhcpSystem.Reachable s → dhcpEvent s.dhcp a = some (t, actions) →
      (t.dhcpState = .requesting → s.dhcp.dhcpState ≠ .requesting →
        OnPacket s.dhcp a .selecting (MessageTypeIs dhcpOffer)) ∧
      (t.dhcpState = .bound → s.dhcp.dhcpState ≠ .bound →
        OnPacket s.dhcp a .requesting (MessageTypeIs dhcpAck)) := by
  intro hall
  obtain ⟨pkt, dest, src, len, ether, timer, ha, -, -, -, htype⟩ :=
    (hall selectingRun _ _ _ selectingRun_reachable dhcpEvent_nakPkt).1
      (dhcpSelect_spec selectingRun.dhcp nakPkt 0).1 (by decide)
  obtain ⟨rfl, -⟩ := DhcpEvent.packet.inj ha
  exact absurd (htype [nakItem] (by decide) (by decide)) (by decide)

end Net
end EmevBsp
