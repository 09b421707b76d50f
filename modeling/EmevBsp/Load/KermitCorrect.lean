import EmevBsp.Load.KermitPackets
import Mathlib.Data.List.Dedup

/-!
# Downloads over the Kermit protocol

The sender has a list of messages, which it sends one after the other, each until it is accepted;
it may send the last one again, when the acknowledgement was lost.

The receiver goes back to where a packet began by its sequence number, and assumes that this
number is received as it was sent.  When it is, the state saved is always that behind the messages
before the one that is being sent.
-/

namespace EmevBsp
namespace Kermit

/-! ## The places of a run -/

section

variable {messages : ℕ → Message} {k : ℕ} {r : Receiver}

/-- The receiver is ready for message `k`: it stands behind the messages before it, or has seen its
number and can go back. -/
structure Ready (messages : ℕ → Message) (k : ℕ) (r : Receiver) : Prop where
  quote : (messages k).type ≠ sendType → r.hisQuote = (decoded messages k).quote
  place : r.lastN = some (k % 64) ∧ r.Saves (decoded messages k) ∨
    r.lastN ≠ some (k % 64) ∧ r.Holds (decoded messages k)

theorem ready_fresh (r : Receiver) : Ready messages 0 r.fresh :=
  ⟨fun _ => rfl, .inr ⟨(Option.some_ne_none _).symm, rfl, rfl,
    fun _ hi => absurd hi (Nat.not_lt_zero _)⟩⟩

theorem Ready.sendPtr (h : Ready messages k r) : Ready messages k { r with sendPtr := 0 } := by
  refine ⟨h.quote, h.place.imp (fun hback => ⟨hback.1, ?_⟩) fun hnew => ⟨hnew.1, ?_⟩⟩
  · exact ⟨hback.2.escape, hback.2.addr, hback.2.stored⟩
  · exact ⟨hnew.2.escape, hnew.2.addr, hnew.2.stored⟩

theorem Ready.checkSequence (h : Ready messages k r) :
    (r.checkSequence (k % 64)).Holds (decoded messages k) ∧
      (r.checkSequence (k % 64)).Saves (decoded messages k) ∧
      (r.checkSequence (k % 64)).lastN = some (k % 64) ∧
      (r.checkSequence (k % 64)).hisQuote = r.hisQuote ∧
      (r.checkSequence (k % 64)).sendPtr = r.sendPtr := by
  rw [Receiver.checkSequence]
  rcases h.place with ⟨hlast, hsaves⟩ | ⟨hlast, hholds⟩
  · rw [if_pos hlast]
    exact ⟨⟨hsaves.escape, hsaves.addr, hsaves.stored⟩,
      ⟨hsaves.escape, hsaves.addr, hsaves.stored⟩, hlast, rfl, rfl⟩
  · rw [if_neg hlast]
    exact ⟨⟨hholds.escape, hholds.addr, hholds.stored⟩,
      ⟨hholds.escape, hholds.addr, hholds.stored⟩, rfl, rfl, rfl⟩

theorem leaves_recvPacket {line : List UInt8} {e : PacketEnd} (h : Ready messages k r)
    (hptr : r.sendPtr = 0) (hpacket : recvPacket r line = some e)
    (hseq : e.reception.seq = some (k % 64)) :
    Leaves (decoded messages k) r.hisQuote (k % 64) e := by
  have hearly : ∀ line, e ≠ packetError r line := by
    rintro line rfl
    cases hseq
  cases line with
  | nil => cases hpacket
  | cons length line =>
    rw [recvPacket, getGood] at hpacket
    split_ifs at hpacket
    · exact absurd (Option.some.inj hpacket).symm (hearly line)
    cases line with
    | nil => cases hpacket
    | cons seq line =>
      rw [getGood] at hpacket
      split_ifs at hpacket
      · exact absurd (Option.some.inj hpacket).symm (hearly line)
      obtain ⟨e', htype, rfl⟩ := Option.map_eq_some_iff.mp hpacket
      have hn : untochar seq = k % 64 := Option.some.inj hseq
      rw [hn] at htype
      obtain ⟨hholds, hsaves, hlast, hquote, hsame⟩ := h.checkSequence
      have hleaves := leaves_recvType hholds hsaves (hsame.trans hptr) hlast htype
      rw [hquote] at hleaves
      exact ⟨hleaves.lastN, hleaves.saves, hleaves.error, hleaves.accepted⟩

theorem Ready.accepted {e : PacketEnd} (h : Ready messages k r)
    (hleaves : Leaves (decoded messages k) r.hisQuote (k % 64) e)
    (hm : e.reception.accepted = some (messages k)) :
    e.receiver.Holds (decoded messages (k + 1)) ∧
      e.receiver.hisQuote = (decoded messages (k + 1)).quote := by
  have hboth := hleaves.accepted _ hm
  rwa [Decoder.message_with_quote h.quote] at hboth

theorem Ready.of_error {e : PacketEnd} (h : Ready messages k r)
    (hleaves : Leaves (decoded messages k) r.hisQuote (k % 64) e)
    (hnone : e.reception.accepted = none) : Ready messages k e.receiver :=
  ⟨fun hne => (hleaves.error hnone).trans (h.quote hne), .inl ⟨hleaves.lastN, hleaves.saves⟩⟩

theorem Ready.of_lost {e : PacketEnd} (h : Ready messages k r)
    (hleaves : Leaves (decoded messages k) r.hisQuote (k % 64) e)
    (hm : e.reception.accepted = some (messages k)) : Ready messages k e.receiver := by
  refine ⟨fun hne => ?_, .inl ⟨hleaves.lastN, hleaves.saves⟩⟩
  rw [(h.accepted hleaves hm).2, decoded, Decoder.message_quote hne]

theorem Ready.of_accepted {e : PacketEnd} (h : Ready messages k r)
    (hleaves : Leaves (decoded messages k) r.hisQuote (k % 64) e)
    (hm : e.reception.accepted = some (messages k)) : Ready messages (k + 1) e.receiver := by
  obtain ⟨hholds, hquote⟩ := h.accepted hleaves hm
  refine ⟨fun _ => hquote, .inr ⟨?_, hholds⟩⟩
  rw [hleaves.lastN]
  intro hsame
  have hmod := Option.some.inj hsame
  omega

/-- What a conforming sender and the line do: `(k, p)` is a packet received while message `k` was
sent.  A damaged packet is not accepted; then the message is sent again, and so it may be when the
acknowledgement of a good one is lost. -/
inductive Conforms (messages : ℕ → Message) : ℕ → List (ℕ × Reception) → Prop
  | nil (k : ℕ) : Conforms messages k []
  | error {k : ℕ} {ps : List (ℕ × Reception)} (seq : Option ℕ) (h : Conforms messages k ps) :
      Conforms messages k ((k, ⟨seq, none⟩) :: ps)
  | accepted {k : ℕ} {ps : List (ℕ × Reception)} (h : Conforms messages (k + 1) ps) :
      Conforms messages k ((k, ⟨some (k % 64), some (messages k)⟩) :: ps)
  | lost {k : ℕ} {ps : List (ℕ × Reception)} (h : Conforms messages k ps) :
      Conforms messages k ((k, ⟨some (k % 64), some (messages k)⟩) :: ps)

/-- The sequence number of every packet is received as it was sent. -/
def NumbersReceived (ps : List (ℕ × Reception)) : Prop :=
  ∀ x ∈ ps, x.2.seq = some (x.1 % 64)

instance (ps : List (ℕ × Reception)) : Decidable (NumbersReceived ps) :=
  inferInstanceAs (Decidable (∀ x ∈ ps, x.2.seq = some (x.1 % 64)))

theorem NumbersReceived.tail {x : ℕ × Reception} {ps : List (ℕ × Reception)}
    (h : NumbersReceived (x :: ps)) : NumbersReceived ps :=
  fun y hy => h y (List.mem_cons_of_mem x hy)

/-- The messages that were accepted, with their places. -/
def acceptedAll (ps : List (ℕ × Reception)) : List (ℕ × Message) :=
  ps.filterMap fun x => x.2.accepted.map fun m => (x.1, m)

/-- The accepted messages, each counted once. -/
def acceptedOnce (ps : List (ℕ × Reception)) : List Message :=
  (acceptedAll ps).dedup.map Prod.snd

variable {ps : List (ℕ × Reception)}

theorem Conforms.le_of_mem (h : Conforms messages k ps) {x : ℕ × Message}
    (hx : x ∈ acceptedAll ps) : k ≤ x.1 := by
  induction h with
  | nil => cases hx
  | error seq h ih => exact ih hx
  | accepted h ih =>
    rcases List.mem_cons.mp hx with rfl | hx
    · exact le_rfl
    · exact (Nat.le_succ _).trans (ih hx)
  | lost h ih =>
    rcases List.mem_cons.mp hx with rfl | hx
    · exact le_rfl
    · exact ih hx

theorem Conforms.mem_acceptedAll (h : Conforms messages k ps)
    (hsome : ∃ p ∈ ps.map Prod.snd, p.accepted ≠ none) : (k, messages k) ∈ acceptedAll ps := by
  induction h with
  | nil =>
    obtain ⟨p, hp, -⟩ := hsome
    cases hp
  | error seq h ih =>
    obtain ⟨p, hp, hne⟩ := hsome
    rcases List.mem_cons.mp hp with rfl | hp
    · exact absurd rfl hne
    · exact ih ⟨p, hp, hne⟩
  | accepted h ih => exact List.mem_cons_self
  | lost h ih => exact List.mem_cons_self

theorem acceptedOnce_accepted (h : Conforms messages (k + 1) ps) (seq : Option ℕ) :
    acceptedOnce ((k, ⟨seq, some (messages k)⟩) :: ps) = messages k :: acceptedOnce ps := by
  have hnot : (k, messages k) ∉ acceptedAll ps := fun hmem => absurd (h.le_of_mem hmem) (by simp)
  have hcons : acceptedAll ((k, ⟨seq, some (messages k)⟩) :: ps) =
      (k, messages k) :: acceptedAll ps := rfl
  rw [acceptedOnce, hcons, List.dedup_cons_of_notMem hnot, List.map_cons, acceptedOnce]

theorem acceptedOnce_lost (h : Conforms messages k ps) (seq : Option ℕ)
    (hsome : ∃ p ∈ ps.map Prod.snd, p.accepted ≠ none) :
    acceptedOnce ((k, ⟨seq, some (messages k)⟩) :: ps) = acceptedOnce ps := by
  have hcons : acceptedAll ((k, ⟨seq, some (messages k)⟩) :: ps) =
      (k, messages k) :: acceptedAll ps := rfl
  rw [acceptedOnce, hcons, List.dedup_cons_of_mem (h.mem_acceptedAll hsome), acceptedOnce]

/-! ### The main loop -/

theorem rounds_succ {n : ℕ} {s : KLoop} {d : Download}
    (hrun : Rounds.rounds recvRound (n + 1) s = some (.ok d)) (hbroken : d.ending = .broken) :
    ∃ rest e, recvPacket { s.receiver with sendPtr := 0 } rest = some e ∧
      ((e.reception.accepted ≠ none ∧
          d = ⟨.broken, e.receiver, s.sent ++ e.answer, s.receptions ++ [e.reception]⟩) ∨
        Rounds.rounds recvRound n ⟨e.receiver, e.rest, s.sent ++ e.answer,
          s.receptions ++ [e.reception]⟩ = some (.ok d)) := by
  rw [Rounds.rounds, recvRound] at hrun
  rcases hstart : findStart s.line with _ | _ | rest
  · rw [hstart] at hrun
    cases hrun
  · rw [hstart] at hrun
    cases hrun
    cases hbroken
  rw [hstart] at hrun
  dsimp only at hrun
  cases hpacket : recvPacket { s.receiver with sendPtr := 0 } rest with
  | none =>
    rw [hpacket] at hrun
    cases hrun
  | some e =>
    rw [hpacket] at hrun
    refine ⟨rest, e, hpacket, ?_⟩
    dsimp only at hrun
    by_cases hbreak : e.reception.accepted.any (·.type = breakType) = true
    · rw [if_pos hbreak] at hrun
      obtain rfl := Except.ok.inj (Option.some.inj hrun)
      refine .inl ⟨fun hnone => ?_, rfl⟩
      rw [hnone] at hbreak
      exact absurd hbreak Bool.false_ne_true
    · rw [if_neg hbreak] at hrun
      exact .inr hrun

theorem receptions_of_rounds {n : ℕ} {s : KLoop} {d : Download}
    (hrun : Rounds.rounds recvRound n s = some (.ok d)) (hbroken : d.ending = .broken) :
    ∃ qs, d.receptions = s.receptions ++ qs ∧ ∃ p ∈ qs, p.accepted ≠ none := by
  induction n generalizing s with
  | zero => cases hrun
  | succ n ih =>
    obtain ⟨rest, e, -, ⟨hne, rfl⟩ | hrest⟩ := rounds_succ hrun hbroken
    · exact ⟨[e.reception], rfl, e.reception, List.mem_singleton_self _, hne⟩
    · obtain ⟨qs, hqs, p, hp, hne⟩ := ih hrest
      exact ⟨e.reception :: qs, by rw [hqs, List.append_assoc, List.singleton_append], p,
        List.mem_cons_of_mem _ hp, hne⟩

theorem holds_of_rounds {n : ℕ} {s : KLoop} {d : Download} (hconf : Conforms messages k ps)
    (hnum : NumbersReceived ps) (hready : Ready messages k s.receiver)
    (hrun : Rounds.rounds recvRound n s = some (.ok d)) (hbroken : d.ending = .broken)
    (hps : d.receptions = s.receptions ++ ps.map Prod.snd) :
    d.receiver.Holds ((acceptedOnce ps).foldl Decoder.message (decoded messages k)) := by
  induction n generalizing s k ps with
  | zero => cases hrun
  | succ n ih =>
    obtain ⟨rest, e, hpacket, hcases⟩ := rounds_succ hrun hbroken
    -- the first packet is the one that was received, and the break is the last
    obtain ⟨qs, hqs, hlast⟩ : ∃ qs, ps.map Prod.snd = e.reception :: qs ∧
        (e.reception.accepted ≠ none ∧ qs = [] ∧ d.receiver = e.receiver ∨
          (∃ p ∈ qs, p.accepted ≠ none) ∧ Rounds.rounds recvRound n ⟨e.receiver, e.rest,
            s.sent ++ e.answer, s.receptions ++ [e.reception]⟩ = some (.ok d)) := by
      rcases hcases with ⟨hne, rfl⟩ | hrest
      · exact ⟨[], (List.append_cancel_left hps).symm, .inl ⟨hne, rfl, rfl⟩⟩
      · obtain ⟨qs, hqs, hsome⟩ := receptions_of_rounds hrest hbroken
        have hsame := hps
        rw [hqs, List.append_assoc, List.singleton_append] at hsame
        exact ⟨qs, (List.append_cancel_left hsame).symm, .inr ⟨hsome, hrest⟩⟩
    have hleaves (hseq : e.reception.seq = some (k % 64)) :=
      leaves_recvPacket hready.sendPtr rfl hpacket hseq
    cases hconf with
    | nil => cases hqs
    | @error _ tail seq h =>
      obtain ⟨hp, rfl⟩ := List.cons.inj hqs
      have hsame : acceptedOnce ((k, ⟨seq, none⟩) :: tail) = acceptedOnce tail := rfl
      rw [hsame]
      have hseq := hnum _ List.mem_cons_self
      rw [← hp] at hleaves hlast
      rcases hlast with ⟨hne, -⟩ | ⟨-, hrest⟩
      · exact absurd rfl hne
      · refine ih h hnum.tail (hready.sendPtr.of_error (hleaves hseq) (by rw [← hp])) hrest ?_
        rw [hps, List.append_assoc]
        rfl
    | @accepted _ tail h =>
      obtain ⟨hp, rfl⟩ := List.cons.inj hqs
      have hm : e.reception.accepted = some (messages k) := by rw [← hp]
      rw [acceptedOnce_accepted h, List.foldl_cons]
      rw [← hp] at hleaves hlast
      rcases hlast with ⟨-, hnil, hd⟩ | ⟨-, hrest⟩
      · obtain rfl := List.map_eq_nil_iff.mp hnil
        rw [hd]
        exact (hready.sendPtr.accepted (hleaves rfl) hm).1
      · refine ih h hnum.tail (hready.sendPtr.of_accepted (hleaves rfl) hm) hrest ?_
        rw [hps, List.append_assoc]
        rfl
    | @lost _ tail h =>
      obtain ⟨hp, rfl⟩ := List.cons.inj hqs
      have hm : e.reception.accepted = some (messages k) := by rw [← hp]
      rw [← hp] at hleaves hlast
      rcases hlast with ⟨-, hnil, hd⟩ | ⟨hsome, hrest⟩
      · obtain rfl := List.map_eq_nil_iff.mp hnil
        rw [acceptedOnce_accepted (.nil (k + 1)), List.foldl_cons, hd]
        exact (hready.sendPtr.accepted (hleaves rfl) hm).1
      · rw [acceptedOnce_lost h _ hsome]
        refine ih h hnum.tail (hready.sendPtr.of_lost (hleaves rfl) hm) hrest ?_
        rw [hps, List.append_assoc]
        rfl

/-- **A download stores the accepted data.**  In every run with a conforming sender in which the
sequence numbers are received as they were sent, when the receiver ends with a break: the bytes at
the load address, as many as it returns, are what the accepted messages stand for, each counted
once; and when the data fields are complete, that is one decoded field after the other. -/
theorem kRecv_stores (r : Receiver) (line : List UInt8) (n : ℕ) (d : Download)
    (messages : ℕ → Message) (ps : List (ℕ × Reception))
    (hrun : kRecv r line n = some (.ok d)) (hbroken : d.ending = .broken)
    (hps : d.receptions = ps.map Prod.snd) (hconf : Conforms messages 0 ps)
    (hnum : NumbersReceived ps) :
    Stored d.receiver.memory ((acceptedOnce ps).foldl Decoder.message .start).out ∧
      d.size = ((acceptedOnce ps).foldl Decoder.message .start).out.length ∧
      (CompleteFields kEscape (acceptedOnce ps) →
        ((acceptedOnce ps).foldl Decoder.message .start).out =
          decodedFields kEscape (acceptedOnce ps)) := by
  have hholds := holds_of_rounds hconf hnum (ready_fresh r) hrun hbroken hps
  refine ⟨hholds.stored, ?_, fun hcomplete => ?_⟩
  · rw [Download.size, hbroken]
    exact hholds.addr
  · exact foldl_message_of_complete hcomplete []

end

/-! ### A number that is damaged -/

/-- Two packets of data, with one byte each, and a break. -/
def exampleMessages : ℕ → Message
  | 0 => ⟨dataType, [97]⟩
  | 1 => ⟨dataType, [98]⟩
  | _ => ⟨breakType, []⟩

def exampleReceiver : Receiver :=
  { hisEol := 0, hisPadCount := 0, hisPadChar := 0, hisQuote := 0, kState := 0, kStateSaved := 0,
    escape := false, escapeSaved := false, addr := 0, addrSaved := 0, memory := fun _ => 0,
    sendParms := fun _ => 0, sendPtr := 0, n := 0, lastN := none }

/-- A message of 100 bytes, which needs an extended packet. -/
def longMessage : Message := ⟨dataType, List.replicate 100 97⟩

theorem recvPacket_sendPacket_long :
    ∃ e, recvPacket exampleReceiver (sendPacket true 5 longMessage ++ [startChar]) = some e ∧
      e.rest = [startChar] ∧ e.reception = ⟨some 5, some longMessage⟩ :=
  recvPacket_sendPacket (by decide)
    ⟨by decide, by decide, fun _ hc => List.eq_of_mem_replicate hc ▸ by decide⟩

/-- The first packet is sent twice, and the check of the second is damaged at first. -/
def goodLine : List UInt8 :=
  startChar :: sendPacket false 0 (exampleMessages 0) ++ startChar :: sendPacket false 0 (exampleMessages 0) ++
    [startChar, 36, 33, dataType, 98, 32, endChar] ++
      startChar :: sendPacket false 1 (exampleMessages 1) ++ startChar :: sendPacket false 2 (exampleMessages 2)

def goodReceptions : List (ℕ × Reception) :=
  [(0, ⟨some 0, some (exampleMessages 0)⟩), (0, ⟨some 0, some (exampleMessages 0)⟩),
    (1, ⟨some 1, none⟩), (1, ⟨some 1, some (exampleMessages 1)⟩),
    (2, ⟨some 2, some (exampleMessages 2)⟩)]

theorem kRecv_stores_twoBytes :
    ∃ d, kRecv exampleReceiver goodLine 5 = some (.ok d) ∧
      Stored d.receiver.memory
        ((acceptedOnce goodReceptions).foldl Decoder.message .start).out ∧
      d.size = ((acceptedOnce goodReceptions).foldl Decoder.message .start).out.length ∧
      (CompleteFields kEscape (acceptedOnce goodReceptions) →
        ((acceptedOnce goodReceptions).foldl Decoder.message .start).out =
          decodedFields kEscape (acceptedOnce goodReceptions)) :=
  ⟨_, rfl, kRecv_stores exampleReceiver goodLine 5 _ exampleMessages goodReceptions rfl rfl rfl
    (.lost (.accepted (.error _ (.accepted (.accepted (.nil _)))))) (by decide)⟩

/-- The number of the second packet is damaged at first, and is that of the first one. -/
def damagedLine : List UInt8 :=
  startChar :: sendPacket false 0 (exampleMessages 0) ++ [startChar, 36, 32, dataType, 98, 32, endChar] ++
    startChar :: sendPacket false 1 (exampleMessages 1) ++ startChar :: sendPacket false 2 (exampleMessages 2)

def damagedReceptions : List (ℕ × Reception) :=
  [(0, ⟨some 0, some (exampleMessages 0)⟩), (1, ⟨some 0, none⟩),
    (1, ⟨some 1, some (exampleMessages 1)⟩), (2, ⟨some 2, some (exampleMessages 2)⟩)]

/-- **A damaged number loses a packet**: the receiver goes back to where the one before it began,
and stores the next one over it. -/
theorem not_kRecv_stores :
    ¬∀ (r : Receiver) (line : List UInt8) (n : ℕ) (d : Download) (messages : ℕ → Message)
      (ps : List (ℕ × Reception)), kRecv r line n = some (.ok d) → d.ending = .broken →
      d.receptions = ps.map Prod.snd → Conforms messages 0 ps →
      Stored d.receiver.memory ((acceptedOnce ps).foldl Decoder.message .start).out ∧
        d.size = ((acceptedOnce ps).foldl Decoder.message .start).out.length := by
  intro hall
  obtain ⟨-, hsize⟩ := hall exampleReceiver damagedLine 4 _ exampleMessages damagedReceptions rfl
    rfl rfl (.accepted (.error _ (.accepted (.accepted (.nil _)))))
  exact absurd hsize (by decide)

end Kermit
end EmevBsp
