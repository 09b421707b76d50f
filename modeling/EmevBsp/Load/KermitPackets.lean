import EmevBsp.Load.Kermit
import Mathlib.Data.List.GetD
import Mathlib.Data.List.TakeWhile
import Mathlib.Data.Nat.Basic
import Mathlib.Order.Basic

/-!
# The packets of a Kermit download

What the receiver stores are the data fields of the messages, each decoded from where the one
before it ended.  Within a packet it writes only behind what the earlier messages left, so that the
saved state stays one it can go back to.
-/

namespace EmevBsp
namespace Kermit

/-! ## What the messages stand for -/

/-- The quote, whether the last character was one, and the bytes so far. -/
structure Decoder where
  quote : UInt8
  escape : Bool
  out : List UInt8

namespace Decoder

/-- Before the first message. -/
def start : Decoder := ⟨kEscape, false, []⟩

/-- A character of a data field. -/
def char (d : Decoder) (c : UInt8) : Decoder :=
  if d.escape then { d with out := d.out ++ [ktrans c], escape := false }
  else if c = d.quote then { d with escape := true }
  else { d with out := d.out ++ [c] }

/-- A message: data are decoded, and the parameters may name the quote. -/
def message (d : Decoder) (m : Message) : Decoder :=
  if m.type = dataType then m.data.foldl char d
  else if m.type = sendType then { d with quote := m.data.getD 5 kEscape }
  else d

theorem char_quote (d : Decoder) (c : UInt8) : (d.char c).quote = d.quote := by
  rw [char]
  split_ifs <;> rfl

theorem foldl_char_quote (data : List UInt8) (d : Decoder) :
    (data.foldl char d).quote = d.quote := by
  induction data generalizing d with
  | nil => rfl
  | cons c data ih => rw [List.foldl_cons, ih, char_quote]

theorem message_quote {d : Decoder} {m : Message} (hm : m.type ≠ sendType) :
    (d.message m).quote = d.quote := by
  rw [message, if_neg hm]
  split_ifs
  · exact foldl_char_quote m.data d
  · rfl

theorem message_with_quote {d : Decoder} {m : Message} {quote : UInt8}
    (h : m.type ≠ sendType → quote = d.quote) :
    ({ d with quote := quote } : Decoder).message m = d.message m := by
  by_cases hsend : m.type = sendType
  · have hdata : ¬ m.type = dataType := by
      rw [hsend]
      decide
    rw [message, message, if_neg hdata, if_neg hdata, if_pos hsend, if_pos hsend]
  · rw [h hsend]

theorem length_out_char (d : Decoder) (c : UInt8) : d.out.length ≤ (d.char c).out.length := by
  rw [char]
  split_ifs <;> simp

theorem length_out_foldl (data : List UInt8) (d : Decoder) :
    d.out.length ≤ (data.foldl char d).out.length := by
  induction data generalizing d with
  | nil => exact le_rfl
  | cons c data ih => exact (length_out_char d c).trans (ih (d.char c))

end Decoder

/-- The decoder behind the first messages. -/
def decoded (messages : ℕ → Message) : ℕ → Decoder
  | 0 => .start
  | i + 1 => (decoded messages i).message (messages i)

/-- The bytes of a data field. -/
def decode (quote : UInt8) : List UInt8 → List UInt8
  | [] => []
  | [c] => if c = quote then [] else [c]
  | c :: d :: cs => if c = quote then ktrans d :: decode quote cs else c :: decode quote (d :: cs)

/-- No quote is left open at the end of the field. -/
def Complete (quote : UInt8) : List UInt8 → Prop
  | [] => True
  | [c] => c ≠ quote
  | c :: d :: cs => if c = quote then Complete quote cs else Complete quote (d :: cs)

/-- The data fields one after the other. -/
def decodedFields : UInt8 → List Message → List UInt8
  | _, [] => []
  | quote, m :: ms =>
    if m.type = dataType then decode quote m.data ++ decodedFields quote ms
    else if m.type = sendType then decodedFields (m.data.getD 5 kEscape) ms
    else decodedFields quote ms

/-- All data fields are complete. -/
def CompleteFields : UInt8 → List Message → Prop
  | _, [] => True
  | quote, m :: ms =>
    if m.type = dataType then Complete quote m.data ∧ CompleteFields quote ms
    else if m.type = sendType then CompleteFields (m.data.getD 5 kEscape) ms
    else CompleteFields quote ms

theorem foldl_char_of_complete {quote : UInt8} {data : List UInt8} (h : Complete quote data)
    (out : List UInt8) :
    data.foldl Decoder.char ⟨quote, false, out⟩ = ⟨quote, false, out ++ decode quote data⟩ := by
  induction data using decode.induct quote generalizing out with
  | case1 => simp [decode]
  | case2 => exact absurd rfl h
  | case3 c hc => simp [decode, Decoder.char, hc]
  | case4 d cs ih =>
    rw [Complete, if_pos rfl] at h
    have hfield := ih h (out ++ [ktrans d])
    simp only [List.foldl_cons, Decoder.char, decode]
    simpa using hfield
  | case5 c d cs hc ih =>
    rw [Complete, if_neg hc] at h
    have hfield := ih h (out ++ [c])
    rw [List.foldl_cons, Decoder.char, if_neg Bool.false_ne_true, if_neg hc]
    simpa [decode, hc] using hfield

theorem foldl_message_of_complete {quote : UInt8} {ms : List Message}
    (h : CompleteFields quote ms) (out : List UInt8) :
    (ms.foldl Decoder.message ⟨quote, false, out⟩).out = out ++ decodedFields quote ms := by
  induction ms generalizing quote out with
  | nil => simp [decodedFields]
  | cons m ms ih =>
    rw [CompleteFields] at h
    rw [List.foldl_cons, Decoder.message, decodedFields]
    split_ifs at h ⊢ with hdata hsend
    · rw [foldl_char_of_complete h.1, ih h.2, List.append_assoc]
    · exact ih h out
    · exact ih h out

/-! ## What the receiver stores -/

/-- The bytes of the memory are those of the list. -/
def Stored (memory : ℕ → UInt8) (out : List UInt8) : Prop :=
  ∀ i (hi : i < out.length), memory i = out[i]

theorem Stored.update_append {memory : ℕ → UInt8} {out : List UInt8} (h : Stored memory out)
    (c : UInt8) : Stored (Function.update memory out.length c) (out ++ [c]) := by
  intro i hi
  rw [List.length_append, List.length_singleton] at hi
  rcases Nat.lt_succ_iff_lt_or_eq.mp hi with hlt | rfl
  · rw [Function.update_of_ne hlt.ne, List.getElem_append_left hlt, h i hlt]
  · rw [Function.update_self, List.getElem_append_right le_rfl]
    simp

theorem Stored.update {memory : ℕ → UInt8} {out : List UInt8} (h : Stored memory out) {addr : ℕ}
    (haddr : out.length ≤ addr) (c : UInt8) : Stored (Function.update memory addr c) out := by
  intro i hi
  rw [Function.update_of_ne (hi.trans_le haddr).ne, h i hi]

namespace Receiver

/-- The receiver is where the decoder is. -/
structure Holds (r : Receiver) (d : Decoder) : Prop where
  escape : r.escape = d.escape
  addr : r.addr = d.out.length
  stored : Stored r.memory d.out

/-- What the receiver can go back to. -/
structure Saves (r : Receiver) (d : Decoder) : Prop where
  escape : r.escapeSaved = d.escape
  addr : r.addrSaved = d.out.length
  stored : Stored r.memory d.out

variable {r : Receiver} {d saved : Decoder}

theorem Saves.restore (h : r.Saves d) : r.restore.Holds d := ⟨h.escape, h.addr, h.stored⟩

theorem Saves.restore_saves (h : r.Saves d) : r.restore.Saves d := ⟨h.escape, h.addr, h.stored⟩

theorem Holds.save (h : r.Holds d) : r.save.Saves d := ⟨h.escape, h.addr, h.stored⟩

theorem Holds.kDataChar (h : r.Holds d) (hquote : r.hisQuote = d.quote) (c : UInt8) :
    (r.kDataChar c).Holds (d.char c) := by
  have hput : ∀ c, Stored (r.osDataChar c).memory (d.out ++ [c]) := by
    intro c
    rw [osDataChar, h.addr]
    exact h.stored.update_append c
  have haddr : ∀ c, (r.osDataChar c).addr = (d.out ++ [c]).length := by
    intro c
    rw [osDataChar, h.addr, List.length_append, List.length_singleton]
  rw [Receiver.kDataChar, Decoder.char, h.escape, hquote]
  split_ifs with hescape hc
  · exact ⟨rfl, haddr _, hput _⟩
  · exact ⟨rfl, h.addr, h.stored⟩
  · exact ⟨h.escape, haddr _, hput _⟩

theorem Saves.kDataChar (h : r.Saves saved) (haddr : saved.out.length ≤ r.addr) (c : UInt8) :
    (r.kDataChar c).Saves saved := by
  have hput : ∀ c, Stored (r.osDataChar c).memory saved.out := fun c => h.stored.update haddr c
  rw [Receiver.kDataChar]
  split_ifs
  · exact ⟨h.escape, h.addr, hput _⟩
  · exact ⟨h.escape, h.addr, h.stored⟩
  · exact ⟨h.escape, h.addr, hput _⟩

@[simp] theorem kDataChar_hisQuote (c : UInt8) : (r.kDataChar c).hisQuote = r.hisQuote := by
  rw [Receiver.kDataChar]
  split_ifs <;> rfl

@[simp] theorem kDataChar_kState (c : UInt8) : (r.kDataChar c).kState = r.kState := by
  rw [Receiver.kDataChar]
  split_ifs <;> rfl

@[simp] theorem kDataChar_lastN (c : UInt8) : (r.kDataChar c).lastN = r.lastN := by
  rw [Receiver.kDataChar]
  split_ifs <;> rfl

/-! ### Within a packet -/

/-- The receiver within a packet that began behind the messages of `d`: `data` is what came of its
data field. -/
structure Reading (r : Receiver) (d : Decoder) (data : List UInt8) : Prop where
  saves : r.Saves d
  inData : r.kState = dataType →
    r.Holds (data.foldl Decoder.char { d with quote := r.hisQuote })
  inSend : r.kState = sendType →
    r.sendPtr = min data.length 19 ∧ (6 ≤ data.length → r.sendParms 5 = data.getD 5 kEscape)
  other : r.kState ≠ dataType → r.Holds d

theorem Reading.packetChar {data : List UInt8} (h : r.Reading d data) (c : UInt8) :
    (r.packetChar c).Reading d (data ++ [c]) := by
  rw [Receiver.packetChar]
  split_ifs with hdata hsend
  · have hholds := h.inData hdata
    have haddr : d.out.length ≤ r.addr := by
      rw [hholds.addr]
      exact Decoder.length_out_foldl data { d with quote := r.hisQuote }
    have hquote : r.hisQuote =
        (data.foldl Decoder.char { d with quote := r.hisQuote }).quote := by
      rw [Decoder.foldl_char_quote]
    refine ⟨h.saves.kDataChar haddr c, fun _ => ?_, fun hs => ?_, fun hne => ?_⟩
    · rw [kDataChar_hisQuote, List.foldl_append]
      exact hholds.kDataChar hquote c
    · rw [kDataChar_kState, hdata] at hs
      exact absurd hs (by decide)
    · exact absurd ((kDataChar_kState c).trans hdata) hne
  · obtain ⟨hptr, hparm⟩ := h.inSend hsend
    refine ⟨⟨h.saves.escape, h.saves.addr, h.saves.stored⟩, fun hd => absurd hd hdata,
      fun _ => ⟨?_, fun hlength => ?_⟩, fun _ => ?_⟩
    · rw [saveParm]
      dsimp only
      rw [List.length_append, List.length_singleton]
      split_ifs with hfull <;> omega
    · rw [List.length_append, List.length_singleton] at hlength
      rw [saveParm]
      dsimp only
      by_cases hsix : 6 ≤ data.length
      · rw [Function.update_of_ne (by omega), hparm hsix, List.getD_append _ _ _ _ (by omega)]
      · have hfive : r.sendPtr = 5 := by omega
        have hlen : data.length = 5 := by omega
        rw [hfive, Function.update_self, List.getD_append_right _ _ _ _ (by omega), hlen]
        rfl
    · exact ⟨(h.other hdata).escape, (h.other hdata).addr, (h.other hdata).stored⟩
  · exact ⟨h.saves, fun hd => absurd hd hdata, fun hs => absurd hs hsend, fun _ => h.other hdata⟩

@[simp] theorem packetChar_hisQuote (c : UInt8) : (r.packetChar c).hisQuote = r.hisQuote := by
  rw [packetChar]
  split_ifs
  · exact kDataChar_hisQuote c
  · rfl
  · rfl

@[simp] theorem packetChar_lastN (c : UInt8) : (r.packetChar c).lastN = r.lastN := by
  rw [packetChar]
  split_ifs
  · exact kDataChar_lastN c
  · rfl
  · rfl

theorem Reading.accept {data : List UInt8} (h : r.Reading d data) :
    r.accept.1.Saves d ∧ r.accept.1.lastN = r.lastN ∧
      r.accept.1.Holds (({ d with quote := r.hisQuote } : Decoder).message ⟨r.kState, data⟩) ∧
      r.accept.1.hisQuote =
        (({ d with quote := r.hisQuote } : Decoder).message ⟨r.kState, data⟩).quote := by
  rw [Receiver.accept, Decoder.message]
  by_cases hdata : r.kState = dataType
  · have hsend : ¬ r.kState = sendType := by
      rw [hdata]
      decide
    rw [if_neg hsend, if_pos hdata, Decoder.foldl_char_quote]
    exact ⟨h.saves, rfl, h.inData hdata, rfl⟩
  have hother := h.other hdata
  rw [if_neg hdata]
  by_cases hsend : r.kState = sendType
  · rw [if_pos hsend, if_pos hsend]
    refine ⟨⟨h.saves.escape, h.saves.addr, h.saves.stored⟩, rfl,
      ⟨hother.escape, hother.addr, hother.stored⟩, ?_⟩
    obtain ⟨hptr, hparm⟩ := h.inSend hsend
    rw [handleSendPacket]
    dsimp only
    by_cases hsix : 6 ≤ data.length
    · rw [← hparm hsix, if_pos]
      split_ifs <;> omega
    · rw [List.getD_eq_default _ _ (by omega), if_neg]
      split_ifs <;> omega
  · rw [if_neg hsend, if_neg hsend]
    exact ⟨h.saves, rfl, ⟨hother.escape, hother.addr, hother.stored⟩, rfl⟩

end Receiver

/-! ## A packet -/

/-- What a packet leaves that began behind the messages of `d` and has the number `n`. -/
structure Leaves (d : Decoder) (quote : UInt8) (n : ℕ) (e : PacketEnd) : Prop where
  lastN : e.receiver.lastN = some n
  saves : e.receiver.Saves d
  error : e.reception.accepted = none → e.receiver.hisQuote = quote
  accepted : ∀ m, e.reception.accepted = some m →
    e.receiver.Holds (({ d with quote := quote } : Decoder).message m) ∧
      e.receiver.hisQuote = (({ d with quote := quote } : Decoder).message m).quote

section

variable {r : Receiver} {d : Decoder} {n : ℕ} {e : PacketEnd} {data line : List UInt8}

theorem leaves_packetError (hsaves : r.Saves d) (hlast : r.lastN = some n) (line : List UInt8) :
    Leaves d r.hisQuote n (packetError r line) :=
  ⟨hlast, hsaves.restore_saves, fun _ => rfl, fun _ h => absurd h.symm (Option.some_ne_none _)⟩

theorem leaves_getGood (hsaves : r.Saves d) (hlast : r.lastN = some n)
    {next : UInt8 → List UInt8 → Option PacketEnd} (h : getGood r line next = some e)
    (hnext : ∀ c rest, next c rest = some e → Leaves d r.hisQuote n e) :
    Leaves d r.hisQuote n e := by
  cases line with
  | nil => cases h
  | cons c line =>
    rw [getGood] at h
    split_ifs at h
    · obtain rfl := Option.some.inj h
      exact leaves_packetError hsaves hlast line
    · exact hnext c line h

theorem leaves_recvEnd {sum : ℕ} (hr : r.Reading d data) (hlast : r.lastN = some n)
    (h : recvEnd r sum data line = some e) : Leaves d r.hisQuote n e := by
  refine leaves_getGood hr.saves hlast h fun c line h => ?_
  split_ifs at h
  · obtain rfl := Option.some.inj h
    exact leaves_packetError hr.saves hlast line
  cases line with
  | nil => cases h
  | cons c line =>
    dsimp only at h
    split_ifs at h
    · obtain rfl := Option.some.inj h
      exact leaves_packetError hr.saves hlast line
    · obtain rfl := Option.some.inj h
      obtain ⟨hsaves, hsame, hholds, hquote⟩ := hr.accept
      refine ⟨hsame.trans hlast, hsaves, fun h => absurd h (Option.some_ne_none _),
        fun m hm => ?_⟩
      obtain rfl := Option.some.inj hm
      exact ⟨hholds, hquote⟩

theorem leaves_recvData {left sum : ℕ} (hr : r.Reading d data) (hlast : r.lastN = some n)
    (h : recvData left r sum data line = some e) : Leaves d r.hisQuote n e := by
  induction left generalizing r sum data line with
  | zero => exact leaves_recvEnd hr hlast h
  | succ left ih =>
    refine leaves_getGood hr.saves hlast h fun c line h => ?_
    have hleaves := ih (hr.packetChar c) ((Receiver.packetChar_lastN c).trans hlast) h
    rwa [Receiver.packetChar_hisQuote] at hleaves

theorem Receiver.Holds.reading (hholds : r.Holds d) (hsaves : r.Saves d)
    (hptr : r.sendPtr = 0) : r.Reading d [] :=
  ⟨hsaves, fun _ => ⟨hholds.escape, hholds.addr, hholds.stored⟩,
    fun _ => ⟨hptr, fun h => absurd h (by decide)⟩, fun _ => hholds⟩

theorem leaves_recvLong {sum : ℕ} (hr : r.Reading d []) (hlast : r.lastN = some n)
    (h : recvLong r sum line = some e) : Leaves d r.hisQuote n e := by
  refine leaves_getGood hr.saves hlast h fun hi line h => ?_
  refine leaves_getGood hr.saves hlast h fun lo line h => ?_
  refine leaves_getGood hr.saves hlast h fun c line h => ?_
  dsimp only at h
  split_ifs at h
  · obtain rfl := Option.some.inj h
    exact leaves_packetError hr.saves hlast line
  · exact leaves_recvData hr hlast h

theorem leaves_recvType {sum length : ℕ} (hholds : r.Holds d) (hsaves : r.Saves d)
    (hptr : r.sendPtr = 0) (hlast : r.lastN = some n)
    (h : recvType r sum length line = some e) : Leaves d r.hisQuote n e := by
  refine leaves_getGood hsaves hlast h fun c line h => ?_
  have hreading : Receiver.Reading { r with kState := c } d [] :=
    Receiver.Holds.reading ⟨hholds.escape, hholds.addr, hholds.stored⟩
      ⟨hsaves.escape, hsaves.addr, hsaves.stored⟩ hptr
  split_ifs at h
  · exact leaves_recvLong (r := { r with kState := c }) hreading hlast h
  · exact leaves_recvData (r := { r with kState := c }) hreading hlast h

end

/-! ### A packet that is not damaged -/

/-- The header of a packet: the length, which counts from the number on, the number and the type.
An extended packet has 0 for the length, and two more characters for the length from behind the
header on, and a check of the header. -/
def packetHeader (extended : Bool) (n : ℕ) (m : Message) : List UInt8 :=
  if extended then
    let fields := [tochar 0, tochar n, m.type, tochar ((m.data.length + 1) / 95),
      tochar ((m.data.length + 1) % 95)]
    fields ++ [tochar (chk1 fields)]
  else [tochar (m.data.length + 3), tochar n, m.type]

/-- A message as it is sent with the number `n`, behind the start character. -/
def sendPacket (extended : Bool) (n : ℕ) (m : Message) : List UInt8 :=
  let field := packetHeader extended n m ++ m.data
  field ++ [tochar (chk1 field), endChar]

/-- It fits into a packet, and holds no control character. -/
structure Sendable (extended : Bool) (m : Message) : Prop where
  length : m.data.length ≤ if extended then 9023 else 91
  type : isControl m.type = false
  data : ∀ c ∈ m.data, isControl c = false

theorem isControl_tochar {x : ℕ} (hx : x < 128) : isControl (tochar x) = false := by
  have hall : ∀ x < 128, isControl (tochar x) = false := by decide
  exact hall x hx

theorem untochar_tochar {x : ℕ} (hx : x < 128) : untochar (tochar x) = x := by
  have hall : ∀ x < 128, untochar (tochar x) = x := by decide
  exact hall x hx

theorem checkOf_lt (total : ℕ) : checkOf total < 64 := Nat.mod_lt _ (by decide)

theorem chk1_of_good {l : List UInt8} (h : ∀ c ∈ l, isControl c = false) :
    chk1 l = checkOf (l.map UInt8.toNat).sum := by
  have hall : l.takeWhile (· ≠ 0) = l := List.takeWhile_eq_self_iff.mpr fun c hc => by
    refine decide_eq_true ?_
    rintro rfl
    exact absurd (h 0 hc) (by decide)
  rw [chk1, hall]

section

variable {r : Receiver} {line : List UInt8}

theorem getGood_cons {next : UInt8 → List UInt8 → Option PacketEnd} {c : UInt8}
    (hc : isControl c = false) : getGood r (c :: line) next = next c line := by
  rw [getGood, hc, if_neg Bool.false_ne_true]

theorem recvEnd_good (data : List UInt8) (sum : ℕ) :
    recvEnd r sum data (tochar (checkOf sum) :: endChar :: line) =
      some ⟨r.accept.1, line, r.accept.2, none, some ⟨r.kState, data⟩⟩ := by
  have hcheck := isControl_tochar ((checkOf_lt sum).trans (by decide))
  rw [recvEnd, getGood_cons hcheck, if_neg (not_not.mpr rfl)]
  exact if_neg (not_not.mpr rfl)

@[simp] theorem packetChar_kState (c : UInt8) : (r.packetChar c).kState = r.kState := by
  rw [Receiver.packetChar]
  split_ifs
  · exact Receiver.kDataChar_kState c
  · rfl
  · rfl

theorem recvData_good {data : List UInt8} (h : ∀ c ∈ data, isControl c = false)
    (before : List UInt8) (sum : ℕ) :
    ∃ r' answer, recvData data.length r sum before
        (data ++ tochar (checkOf (sum + (data.map UInt8.toNat).sum)) :: endChar :: line) =
      some ⟨r', line, answer, none, some ⟨r.kState, before ++ data⟩⟩ := by
  induction data generalizing r before sum with
  | nil =>
    rw [List.append_nil]
    exact ⟨_, _, recvEnd_good before sum⟩
  | cons c data ih =>
    obtain ⟨r', answer, hrest⟩ := @ih (r.packetChar c)
      (fun x hx => h x (List.mem_cons_of_mem c hx)) (before ++ [c]) (sum + c.toNat)
    refine ⟨r', answer, ?_⟩
    rw [List.length_cons, recvData, List.cons_append, getGood_cons (h c List.mem_cons_self),
      List.map_cons, List.sum_cons, ← Nat.add_assoc, hrest, packetChar_kState, List.append_assoc,
      List.singleton_append]

theorem recvType_short {sum : ℕ} {m : Message} (hm : Sendable false m) :
    ∃ r' answer, recvType r sum (m.data.length + 3) (m.type :: m.data ++
        tochar (checkOf (sum + m.type.toNat + (m.data.map UInt8.toNat).sum)) :: endChar :: line) =
      some ⟨r', line, answer, none, some m⟩ := by
  obtain ⟨r', answer, hdata⟩ := @recvData_good { r with kState := m.type } line m.data hm.data []
    (sum + m.type.toNat)
  refine ⟨r', answer, ?_⟩
  rw [List.cons_append, recvType, getGood_cons hm.type, if_neg (Nat.succ_ne_zero _),
    Nat.add_sub_cancel, hdata]
  rfl

/-- The header of an extended packet has its own check. -/
theorem recvType_extended {sum : ℕ} {m : Message} (hm : Sendable true m) :
    let hi := tochar ((m.data.length + 1) / 95)
    let lo := tochar ((m.data.length + 1) % 95)
    let head := tochar (checkOf (sum + m.type.toNat + hi.toNat + lo.toNat))
    ∃ r' answer, recvType r sum 0 (m.type :: hi :: lo :: head :: (m.data ++
        tochar (checkOf (sum + m.type.toNat + hi.toNat + lo.toNat + head.toNat +
          (m.data.map UInt8.toNat).sum)) :: endChar :: line)) =
      some ⟨r', line, answer, none, some m⟩ := by
  have hlength : m.data.length ≤ 9023 := hm.length
  intro hi lo head
  obtain ⟨r', answer, hdata⟩ := @recvData_good { r with kState := m.type } line m.data hm.data []
    (sum + m.type.toNat + hi.toNat + lo.toNat + head.toNat)
  refine ⟨r', answer, ?_⟩
  have hhead := isControl_tochar
    ((checkOf_lt (sum + m.type.toNat + hi.toNat + lo.toNat)).trans (by decide))
  have hleft : untochar hi * 95 + untochar lo - 1 = m.data.length := by
    rw [untochar_tochar (by omega), untochar_tochar (by omega), Nat.div_add_mod' (m.data.length + 1),
      Nat.add_sub_cancel]
  rw [recvType, getGood_cons hm.type, if_pos rfl, recvLong,
    getGood_cons (isControl_tochar (by omega)), getGood_cons (isControl_tochar (by omega)),
    getGood_cons hhead]
  dsimp only
  rw [if_neg (not_not.mpr rfl), hleft, hdata]
  rfl

theorem recvPacket_sendPacket_short {n : ℕ} (hn : n < 64) {m : Message}
    (hm : Sendable false m) :
    ∃ e, recvPacket r (sendPacket false n m ++ line) = some e ∧ e.rest = line ∧
      e.reception = ⟨some n, some m⟩ := by
  have hseq := isControl_tochar (show n < 128 by omega)
  have hlength := hm.length
  rw [if_neg Bool.false_ne_true] at hlength
  have hfield : ∀ c ∈ tochar (m.data.length + 3) :: tochar n :: m.type :: m.data,
      isControl c = false := by
    intro c hc
    simp only [List.mem_cons] at hc
    rcases hc with rfl | rfl | rfl | hc
    · exact isControl_tochar (by omega)
    · exact hseq
    · exact hm.type
    · exact hm.data c hc
  obtain ⟨r', answer, hrest⟩ := @recvType_short (r.checkSequence n) line
    ((tochar (m.data.length + 3)).toNat + (tochar n).toNat) m hm
  refine ⟨⟨r', line, answer, some n, some m⟩, ?_, rfl, rfl⟩
  have hline : sendPacket false n m ++ line = tochar (m.data.length + 3) :: tochar n ::
      (m.type :: m.data ++ tochar (checkOf ((tochar (m.data.length + 3)).toNat +
        (tochar n).toNat + m.type.toNat + (m.data.map UInt8.toNat).sum)) :: endChar :: line) := by
    have hsum := chk1_of_good hfield
    simp only [List.map_cons, List.sum_cons, ← Nat.add_assoc] at hsum
    rw [← hsum]
    simp [sendPacket, packetHeader]
  rw [hline, recvPacket, getGood_cons (isControl_tochar (by omega)), getGood_cons hseq,
    untochar_tochar (by omega : n < 128), untochar_tochar (by omega : m.data.length + 3 < 128),
    hrest]
  rfl

theorem recvPacket_sendPacket_extended {n : ℕ} (hn : n < 64) {m : Message}
    (hm : Sendable true m) :
    ∃ e, recvPacket r (sendPacket true n m ++ line) = some e ∧ e.rest = line ∧
      e.reception = ⟨some n, some m⟩ := by
  have hseq := isControl_tochar (show n < 128 by omega)
  have hlength := hm.length
  rw [if_pos rfl] at hlength
  obtain ⟨r', answer, hrest⟩ := @recvType_extended (r.checkSequence n) line
    ((tochar 0).toNat + (tochar n).toNat) m hm
  refine ⟨⟨r', line, answer, some n, some m⟩, ?_, rfl, rfl⟩
  let hi := tochar ((m.data.length + 1) / 95)
  let lo := tochar ((m.data.length + 1) % 95)
  have hfields : ∀ c ∈ [tochar 0, tochar n, m.type, hi, lo], isControl c = false := by
    simp only [List.mem_cons, List.not_mem_nil, or_false, forall_eq_or_imp, forall_eq]
    exact ⟨rfl, hseq, hm.type, isControl_tochar (by omega), isControl_tochar (by omega)⟩
  have hhead : chk1 [tochar 0, tochar n, m.type, hi, lo] = checkOf ((tochar 0).toNat +
      (tochar n).toNat + m.type.toNat + hi.toNat + lo.toNat) := by
    have hsum := chk1_of_good hfields
    simp only [List.map_cons, List.map_nil, List.sum_cons, List.sum_nil, Nat.add_zero,
      ← Nat.add_assoc] at hsum
    exact hsum
  have hheader : packetHeader true n m = [tochar 0, tochar n, m.type, hi, lo] ++
      [tochar (checkOf ((tochar 0).toNat + (tochar n).toNat + m.type.toNat + hi.toNat +
        lo.toNat))] := by
    rw [← hhead]
    rfl
  have hcheck : chk1 (packetHeader true n m ++ m.data) = checkOf ((tochar 0).toNat +
      (tochar n).toNat + m.type.toNat + hi.toNat + lo.toNat + (tochar (checkOf ((tochar 0).toNat +
        (tochar n).toNat + m.type.toNat + hi.toNat + lo.toNat))).toNat +
          (m.data.map UInt8.toNat).sum) := by
    rw [hheader, chk1_of_good]
    · simp [← Nat.add_assoc]
    · intro c hc
      rcases List.mem_append.mp hc with hc | hc
      · rcases List.mem_append.mp hc with hc | hc
        · exact hfields c hc
        · rw [List.mem_singleton.mp hc]
          exact isControl_tochar ((checkOf_lt _).trans (by decide))
      · exact hm.data c hc
  have hline : sendPacket true n m ++ line = tochar 0 :: tochar n :: (m.type :: hi :: lo ::
      tochar (checkOf ((tochar 0).toNat + (tochar n).toNat + m.type.toNat + hi.toNat + lo.toNat)) ::
        (m.data ++ tochar (chk1 (packetHeader true n m ++ m.data)) :: endChar :: line)) := by
    rw [sendPacket, hcheck, hheader]
    simp
  rw [hline, hcheck, recvPacket, getGood_cons (by decide), getGood_cons hseq,
    untochar_tochar (by omega : n < 128), untochar_tochar (by decide : 0 < 128), hrest]
  rfl

/-- **A packet that is not damaged is accepted**, short or extended. -/
theorem recvPacket_sendPacket {extended : Bool} {n : ℕ} (hn : n < 64) {m : Message}
    (hm : Sendable extended m) :
    ∃ e, recvPacket r (sendPacket extended n m ++ line) = some e ∧ e.rest = line ∧
      e.reception = ⟨some n, some m⟩ := by
  cases extended with
  | false => exact recvPacket_sendPacket_short hn hm
  | true => exact recvPacket_sendPacket_extended hn hm

end

end Kermit
end EmevBsp
