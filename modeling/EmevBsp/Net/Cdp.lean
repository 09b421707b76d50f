import EmevBsp.Library.TransitionSystem
import EmevBsp.Net.NetLoop
import Mathlib.Data.BitVec

/-!
# `net/net.c`: received CDP packets

A packet is a header, a version, a time to live and a checksum, and then records, each with a type,
a length and a value.  The length counts the type and the length as well, and `CDPHandler` takes it
as it comes: it compares it with what is left of the packet, and never with the four bytes that it
counts at least.

A packet is the list of the bytes that were received, and a read behind them is an error.  The build
has no `CONFIG_CDP_APPLIANCE_VLAN_TYPE`.
-/

namespace EmevBsp
namespace Net

/-! ## The handler -/

/-- A byte behind the received ones is read. -/
inductive CdpFault where
  | beyond
  deriving DecidableEq

/-- How the handler is left: by `pkt_short`, by a `return` before the records, or with the values of
`CDPApplianceVLAN` and `CDPNativeVLAN`. -/
inductive CdpEnd where
  | short
  | ignored
  | done (vlan nvlan : ℕ)
  deriving DecidableEq

def readByte (pkt : List UInt8) (i : ℕ) : Except CdpFault UInt8 :=
  match pkt[i]? with
  | some b => .ok b
  | none => .error .beyond

/-- A short at `i`, the byte at `i` the higher one. -/
def readShort (pkt : List UInt8) (i : ℕ) : Except CdpFault ℕ :=
  match readByte pkt i, readByte pkt (i + 1) with
  | .ok hi, .ok lo => .ok (ntohs hi lo)
  | .error e, _ => .error e
  | _, .error e => .error e

def cdpSnapHdr : List UInt8 := [0xAA, 0xAA, 0x03, 0x00, 0x00, 0x0C, 0x20, 0x00]

def cdpNativeVlanTlv : ℕ := 0x000a

def cdpApplianceVlanTlv : ℕ := 0x000e

/-- The loop of `CDP_compute_csum` and what it does with an odd last byte, in an `ulong`. -/
def cdpSum : ℕ → List UInt8 → ℕ
  | result, a :: b :: rest =>
    let result := (result + (a.toNat + 256 * b.toNat)) % 2 ^ 32
    cdpSum (if result ≥ 2 ^ 31 then result % 2 ^ 16 + result / 2 ^ 16 else result) rest
  | result, [a] =>
    let leftover := if a.toNat ≥ 128 then a.toNat + 0xff00 else a.toNat
    result / 2 ^ 16 * 2 ^ 16 + (result + leftover) % 2 ^ 16
  | result, [] => result

/-- `result = (result & 0xffff) + (result >> 16)`. -/
def cdpFold (result : ℕ) : ℕ := result % 2 ^ 16 + result / 2 ^ 16

/-- The two bytes of a short, the other way round. -/
def swapShort (v : ℕ) : ℕ := v / 256 % 256 + v % 256 * 256

/-- `CDP_compute_csum` of the bytes at `buff`, whose address is odd or not.  The `while` that adds
up the carries takes two rounds at most, and after it the three further additions do nothing. -/
def cdpComputeCsum (odd : Bool) (buff : List UInt8) : ℕ :=
  let result :=
    match odd, buff with
    | true, a :: rest => swapShort (cdpFold (cdpFold (cdpSum (256 * a.toNat) rest)))
    | _, _ => cdpFold (cdpFold (cdpSum 0 buff))
  swapShort (0xffff - result)

/-- The loop over the data of an appliance VLAN record, with `t` and `tlen`; `none` is
`pkt_short`. -/
def cdpVlans (pkt : List UInt8) (t tlen vlan : ℕ) : Except CdpFault (Option ℕ) :=
  if tlen = 0 then .ok (some vlan)
  else if tlen < 3 then .ok none
  else
    match readByte pkt t, readShort pkt (t + 1) with
    | .ok _, .ok vlan => cdpVlans pkt (t + 3) (tlen - 3) vlan
    | .error e, _ => .error e
    | _, .error e => .error e
termination_by tlen

/-- The variables of the loop over the records. -/
structure CdpLoop where
  pkt : ℕ
  len : ℕ
  vlan : ℕ
  nvlan : ℕ

/-- A round of that loop, with its condition. -/
def cdpRound (pkt : List UInt8) (s : CdpLoop) : Except CdpFault (CdpLoop ⊕ CdpEnd) :=
  if s.len = 0 then .ok (.inr (.done s.vlan s.nvlan))
  else if s.len < 4 then .ok (.inr .short)
  else
    match readShort pkt s.pkt, readShort pkt (s.pkt + 2) with
    | .ok type, .ok tlen =>
      if tlen > s.len then .ok (.inr .short)
      else
        let t := { s with pkt := s.pkt + tlen, len := s.len - tlen }
        if type = cdpNativeVlanTlv then
          -- `nvlan = *ss`, without an `ntohs`: the board is little-endian
          (readShort pkt (s.pkt + 4)).map fun nvlan => .inl { t with nvlan := swapShort nvlan }
        else if type = cdpApplianceVlanTlv then
          -- `tlen -= 4`, in an `ushort`
          (cdpVlans pkt (s.pkt + 4) ((tlen + 2 ^ 16 - 4) % 2 ^ 16) s.vlan).map fun r =>
            match r with
            | none => .inr .short
            | some vlan => .inl { t with vlan := vlan }
        else .ok (.inl t)
    | .error e, _ => .error e
    | _, .error e => .error e

/-- The packet is long enough, has the header, a version of two at least, a time to live and a right
checksum. -/
def cdpAccepted (odd : Bool) (pkt : List UInt8) : Bool :=
  12 ≤ pkt.length ∧ pkt.take 8 = cdpSnapHdr ∧ 2 ≤ pkt.getD 8 0 ∧ pkt.getD 9 0 ≠ 0 ∧
    cdpComputeCsum odd ((pkt.drop 8).take ((pkt.length - 8) % 2 ^ 16)) = 0

/-- The variables at the first record. -/
def cdpFirst (pkt : List UInt8) : CdpLoop := ⟨12, pkt.length - 12, 0xffff, 0xffff⟩

/-- `CDPHandler`, with at most `n` rounds of its loop; `none` when it is not over by then. -/
def cdpHandler (odd : Bool) (pkt : List UInt8) (n : ℕ) : Option (Except CdpFault CdpEnd) :=
  if pkt.length < 12 then some (.ok .short)
  else if cdpAccepted odd pkt then Rounds.rounds (cdpRound pkt) n (cdpFirst pkt)
  else some (.ok .ignored)

/-! ## Records -/

/-- The type of the record at `p`. -/
def cdpType (pkt : List UInt8) (p : ℕ) : ℕ := ntohs (pkt.getD p 0) (pkt.getD (p + 1) 0)

/-- The length of the record at `p`. -/
def cdpLength (pkt : List UInt8) (p : ℕ) : ℕ := ntohs (pkt.getD (p + 2) 0) (pkt.getD (p + 3) 0)

/-- The length of the data, as the handler has it. -/
def cdpDataLength (pkt : List UInt8) (p : ℕ) : ℕ := (cdpLength pkt p + 2 ^ 16 - 4) % 2 ^ 16

/-- There is a whole record at `p`. -/
def RecordAt (pkt : List UInt8) (p : ℕ) : Prop :=
  p + 4 ≤ pkt.length ∧ p + cdpLength pkt p ≤ pkt.length

/-- The bytes that the handler reads of the record at `p` were received. -/
def ReadsWithin (pkt : List UInt8) (p : ℕ) : Prop :=
  (cdpType pkt p = cdpNativeVlanTlv → p + 6 ≤ pkt.length) ∧
    (cdpType pkt p = cdpApplianceVlanTlv → p + 4 + cdpDataLength pkt p / 3 * 3 ≤ pkt.length)

/-- The data of the record at `p` do not come out even. -/
def UnevenAt (pkt : List UInt8) (p : ℕ) : Prop :=
  cdpType pkt p = cdpApplianceVlanTlv ∧ cdpDataLength pkt p % 3 ≠ 0

/-- The record behind the one at `p`. -/
def NextRecord (pkt : List UInt8) (p q : ℕ) : Prop :=
  RecordAt pkt p ∧ ¬ UnevenAt pkt p ∧ q = p + cdpLength pkt p

/-- A record at `p` has a length, and its bytes are there. -/
def GoodRecord (pkt : List UInt8) (p : ℕ) : Prop :=
  RecordAt pkt p → cdpLength pkt p ≠ 0 ∧ ReadsWithin pkt p

/-! ## Reads -/

variable {pkt : List UInt8} {i t tlen vlan : ℕ}

theorem readByte_of_lt (h : i < pkt.length) : readByte pkt i = .ok (pkt.getD i 0) := by
  rw [readByte, List.getElem?_eq_getElem h, List.getD_eq_getElem?_getD, List.getElem?_eq_getElem h,
    Option.getD_some]

theorem readByte_of_ge (h : pkt.length ≤ i) : readByte pkt i = .error .beyond := by
  rw [readByte, List.getElem?_eq_none h]

theorem readShort_of_lt (h : i + 1 < pkt.length) :
    readShort pkt i = .ok (ntohs (pkt.getD i 0) (pkt.getD (i + 1) 0)) := by
  rw [readShort, readByte_of_lt (Nat.lt_of_succ_lt h), readByte_of_lt h]

theorem readShort_of_ge (h : pkt.length ≤ i + 1) : readShort pkt i = .error .beyond := by
  rw [readShort, readByte_of_ge h]
  by_cases hi : i < pkt.length
  · rw [readByte_of_lt hi]
  · rw [readByte_of_ge (Nat.le_of_not_lt hi)]

theorem cdpVlans_of_le (vlan : ℕ) (h : t + tlen / 3 * 3 ≤ pkt.length) :
    ∃ vlan', cdpVlans pkt t tlen vlan = .ok (if tlen % 3 = 0 then some vlan' else none) := by
  induction tlen using Nat.strongRecOn generalizing t vlan with
  | ind tlen ih =>
    rw [cdpVlans]
    by_cases h0 : tlen = 0
    · exact ⟨vlan, by rw [if_pos h0, h0, if_pos (Nat.zero_mod 3)]⟩
    by_cases h3 : tlen < 3
    · exact ⟨vlan, by rw [if_neg h0, if_pos h3, if_neg (by omega)]⟩
    obtain ⟨vlan', hrest⟩ := ih (tlen - 3) (by omega) (t := t + 3)
      (ntohs (pkt.getD (t + 1) 0) (pkt.getD (t + 1 + 1) 0)) (by omega)
    refine ⟨vlan', ?_⟩
    rw [if_neg h0, if_neg h3, readByte_of_lt (by omega), readShort_of_lt (by omega)]
    simp only
    rw [hrest, show (tlen - 3) % 3 = tlen % 3 by omega]

theorem cdpVlans_of_lt (h : pkt.length < t + tlen / 3 * 3) :
    t ≤ pkt.length → cdpVlans pkt t tlen vlan = .error .beyond := by
  induction tlen using Nat.strongRecOn generalizing t vlan with
  | ind tlen ih =>
    intro ht
    rw [cdpVlans, if_neg (by omega), if_neg (by omega)]
    by_cases hlast : t + 3 ≤ pkt.length
    · rw [readByte_of_lt (by omega), readShort_of_lt (by omega)]
      exact ih (tlen - 3) (by omega) (by omega) hlast
    · rw [readShort_of_ge (by omega)]
      by_cases hbyte : t < pkt.length
      · rw [readByte_of_lt hbyte]
      · rw [readByte_of_ge (Nat.le_of_not_lt hbyte)]

/-! ## A round -/

variable {s : CdpLoop} {odd : Bool}

/-- The packet ends where the loop says. -/
def AtPlace (pkt : List UInt8) (s : CdpLoop) : Prop := s.pkt + s.len = pkt.length

theorem cdpRound_of_not_record (hs : AtPlace pkt s) (h : ¬ RecordAt pkt s.pkt) :
    ∃ r, cdpRound pkt s = .ok (.inr r) := by
  have hend : s.pkt + s.len = pkt.length := hs
  rw [cdpRound]
  by_cases h0 : s.len = 0
  · exact ⟨_, if_pos h0⟩
  by_cases h4 : s.len < 4
  · exact ⟨_, by rw [if_neg h0, if_pos h4]⟩
  have hlong : cdpLength pkt s.pkt > s.len := by
    by_contra hle
    exact h ⟨by omega, by omega⟩
  refine ⟨.short, ?_⟩
  rw [if_neg h0, if_neg h4, readShort_of_lt (by omega), readShort_of_lt (by omega)]
  exact if_pos hlong

theorem cdpRound_of_whole (hs : AtPlace pkt s) (h : RecordAt pkt s.pkt) :
    cdpRound pkt s =
      let t := { s with
        pkt := s.pkt + cdpLength pkt s.pkt
        len := s.len - cdpLength pkt s.pkt }
      if cdpType pkt s.pkt = cdpNativeVlanTlv then
        (readShort pkt (s.pkt + 4)).map fun nvlan => .inl { t with nvlan := swapShort nvlan }
      else if cdpType pkt s.pkt = cdpApplianceVlanTlv then
        (cdpVlans pkt (s.pkt + 4) (cdpDataLength pkt s.pkt) s.vlan).map fun r =>
          match r with
          | none => .inr .short
          | some vlan => .inl { t with vlan := vlan }
      else .ok (.inl t) := by
  have hend : s.pkt + s.len = pkt.length := hs
  obtain ⟨h4, hlength⟩ := h
  have hlong : ¬ cdpLength pkt s.pkt > s.len := by omega
  rw [cdpRound, if_neg (by omega), if_neg (by omega), readShort_of_lt (by omega),
    readShort_of_lt (by omega)]
  exact if_neg hlong

/-- **A round with a record whose bytes are there** goes on behind it, unless its data do not come
out even. -/
theorem cdpRound_of_record (hs : AtPlace pkt s) (h : RecordAt pkt s.pkt)
    (hreads : ReadsWithin pkt s.pkt) :
    (UnevenAt pkt s.pkt → ∃ r, cdpRound pkt s = .ok (.inr r)) ∧
      (¬ UnevenAt pkt s.pkt → ∃ t, Rounds.Next (cdpRound pkt) s t ∧
        t.pkt = s.pkt + cdpLength pkt s.pkt ∧ AtPlace pkt t) := by
  have hplace : s.pkt + cdpLength pkt s.pkt + (s.len - cdpLength pkt s.pkt) = pkt.length := by
    have hend : s.pkt + s.len = pkt.length := hs
    have hle := h.2
    omega
  have hround := cdpRound_of_whole hs h
  by_cases hnative : cdpType pkt s.pkt = cdpNativeVlanTlv
  · have hle := hreads.1 hnative
    rw [if_pos hnative, readShort_of_lt (by omega)] at hround
    refine ⟨fun huneven => ?_, fun _ => ⟨_, hround, rfl, hplace⟩⟩
    exact absurd (hnative.symm.trans huneven.1) (by decide)
  by_cases happliance : cdpType pkt s.pkt = cdpApplianceVlanTlv
  · obtain ⟨vlan, hvlans⟩ := cdpVlans_of_le s.vlan (hreads.2 happliance)
    rw [if_neg hnative, if_pos happliance, hvlans] at hround
    refine ⟨fun huneven => ?_, fun heven => ?_⟩
    · rw [if_neg huneven.2] at hround
      exact ⟨_, hround⟩
    · rw [if_pos (not_not.mp fun hne => heven ⟨happliance, hne⟩)] at hround
      exact ⟨_, hround, rfl, hplace⟩
  · rw [if_neg hnative, if_neg happliance] at hround
    exact ⟨fun huneven => absurd huneven.1 happliance, fun _ => ⟨_, hround, rfl, hplace⟩⟩

theorem cdpRound_of_beyond (hs : AtPlace pkt s) (h : RecordAt pkt s.pkt)
    (hreads : ¬ ReadsWithin pkt s.pkt) : cdpRound pkt s = .error .beyond := by
  have hround := cdpRound_of_whole hs h
  have hfour := h.1
  by_cases hnative : cdpType pkt s.pkt = cdpNativeVlanTlv
  · have hlt : pkt.length ≤ s.pkt + 4 + 1 := by
      by_contra hle
      refine hreads ⟨fun _ => by omega, fun happliance => ?_⟩
      exact absurd (hnative.symm.trans happliance) (by decide)
    rw [if_pos hnative, readShort_of_ge hlt] at hround
    exact hround
  by_cases happliance : cdpType pkt s.pkt = cdpApplianceVlanTlv
  · have hlt : pkt.length < s.pkt + 4 + cdpDataLength pkt s.pkt / 3 * 3 := by
      by_contra hle
      exact hreads ⟨fun h => absurd h hnative, fun _ => by omega⟩
    rw [if_neg hnative, if_pos happliance, cdpVlans_of_lt hlt hfour] at hround
    exact hround
  · exact absurd ⟨fun h => absurd h hnative, fun h => absurd h happliance⟩ hreads

/-! ## The walk -/

theorem not_ends_of_length_eq_zero (hs : AtPlace pkt s) (h : RecordAt pkt s.pkt)
    (hzero : cdpLength pkt s.pkt = 0) : ¬ Rounds.Ends (cdpRound pkt) s := by
  by_cases hreads : ReadsWithin pkt s.pkt
  · have heven : ¬ UnevenAt pkt s.pkt := fun huneven =>
      huneven.2 (by rw [cdpDataLength, hzero]; rfl)
    refine Rounds.not_ends_of_invariant (I := fun t => t.pkt = s.pkt ∧ AtPlace pkt t) ?_ ⟨rfl, hs⟩
    rintro t ⟨hpkt, ht⟩
    rw [← hpkt] at h heven hreads hzero
    obtain ⟨u, hu, hupkt, hplace⟩ := (cdpRound_of_record ht h hreads).2 heven
    rw [hzero] at hupkt
    exact ⟨u, hu, hupkt.trans hpkt, hplace⟩
  · exact Rounds.not_ends_of_error (cdpRound_of_beyond hs h hreads)

theorem goodRecord_of_ends (hends : Rounds.Ends (cdpRound pkt) s) (hs : AtPlace pkt s) {p : ℕ}
    (hp : Relation.ReflTransGen (NextRecord pkt) s.pkt p) : GoodRecord pkt p := by
  -- the loop comes to the place of the record
  have hreached : ∃ t, Rounds.Ends (cdpRound pkt) t ∧ AtPlace pkt t ∧ t.pkt = p := by
    induction hp with
    | refl => exact ⟨s, hends, hs, rfl⟩
    | tail _ hnext ih =>
      obtain ⟨t, ht, htplace, htpkt⟩ := ih
      obtain ⟨hrecord, heven, hq⟩ := hnext
      rw [← htpkt] at hrecord heven hq
      have hreads : ReadsWithin pkt t.pkt := by
        by_contra hbeyond
        exact Rounds.not_ends_of_error (cdpRound_of_beyond htplace hrecord hbeyond) ht
      obtain ⟨u, hu, hupkt, huplace⟩ := (cdpRound_of_record htplace hrecord hreads).2 heven
      exact ⟨u, (Rounds.ends_iff_of_next hu).mp ht, huplace, hupkt.trans hq.symm⟩
  obtain ⟨t, ht, htplace, rfl⟩ := hreached
  intro hrecord
  refine ⟨fun hzero => not_ends_of_length_eq_zero htplace hrecord hzero ht, ?_⟩
  by_contra hbeyond
  exact Rounds.not_ends_of_error (cdpRound_of_beyond htplace hrecord hbeyond) ht

theorem ends_of_goodRecord (hs : AtPlace pkt s)
    (hgood : ∀ p, Relation.ReflTransGen (NextRecord pkt) s.pkt p → GoodRecord pkt p) :
    Rounds.Ends (cdpRound pkt) s := by
  refine Rounds.ends_of_measure (I := fun t => AtPlace pkt t ∧
    Relation.ReflTransGen (NextRecord pkt) s.pkt t.pkt) (fun t => pkt.length - t.pkt) ?_
    ⟨hs, .refl⟩
  rintro t ⟨ht, hpath⟩
  by_cases hrecord : RecordAt pkt t.pkt
  · obtain ⟨hne, hreads⟩ := hgood t.pkt hpath hrecord
    by_cases huneven : UnevenAt pkt t.pkt
    · exact .inl ((cdpRound_of_record ht hrecord hreads).1 huneven)
    · obtain ⟨u, hu, hupkt, huplace⟩ := (cdpRound_of_record ht hrecord hreads).2 huneven
      refine .inr ⟨u, hu, ⟨huplace, hupkt ▸ hpath.tail ⟨hrecord, huneven, rfl⟩⟩, ?_⟩
      have hfour := hrecord.1
      omega
  · exact .inl (cdpRound_of_not_record ht hrecord)

theorem cdpHandler_of_accepted {odd : Bool} (haccepted : cdpAccepted odd pkt = true) (n : ℕ) :
    cdpHandler odd pkt n = Rounds.rounds (cdpRound pkt) n (cdpFirst pkt) := by
  have hlength := (of_decide_eq_true haccepted).1
  rw [cdpHandler, if_neg (by omega), if_pos haccepted]

theorem atPlace_cdpFirst {odd : Bool} (haccepted : cdpAccepted odd pkt = true) :
    AtPlace pkt (cdpFirst pkt) := by
  have hlength := (of_decide_eq_true haccepted).1
  change 12 + (pkt.length - 12) = pkt.length
  omega

/-- **When the handler ends and stays within the packet.**  For every packet, of any length and
contents: exactly when it is not taken at all, or every record that the walk comes to has a length
other than zero, and the bytes that are read of it were received. -/
theorem cdpHandler_iff (odd : Bool) (pkt : List UInt8) :
    (∃ n r, cdpHandler odd pkt n = some (.ok r)) ↔
      (cdpAccepted odd pkt = true →
        ∀ p, Relation.ReflTransGen (NextRecord pkt) 12 p → GoodRecord pkt p) := by
  by_cases haccepted : cdpAccepted odd pkt = true
  · have hplace := atPlace_cdpFirst haccepted
    simp only [cdpHandler_of_accepted haccepted]
    exact ⟨fun hends _ p hp => goodRecord_of_ends hends hplace hp,
      fun hgood => ends_of_goodRecord hplace (hgood haccepted)⟩
  refine iff_of_true ?_ fun h => absurd h haccepted
  by_cases hshort : pkt.length < 12
  · exact ⟨0, .short, by rw [cdpHandler, if_pos hshort]⟩
  · exact ⟨0, .ignored, by rw [cdpHandler, if_neg hshort, if_neg haccepted]⟩

/-- A packet with one record, whose type and length are zero. -/
def endlessPkt : List UInt8 := cdpSnapHdr ++ [2, 1, 253, 254, 0, 0, 0, 0]

/-- **A record of the length zero keeps the handler in its loop.** -/
theorem not_cdpHandler_ends :
    ¬∀ odd pkt, ∃ n r, cdpHandler odd pkt n = some (.ok r) := by
  intro hall
  have haccepted : cdpAccepted false endlessPkt = true := by decide
  have hends := hall false endlessPkt
  simp only [cdpHandler_of_accepted haccepted] at hends
  exact not_ends_of_length_eq_zero (atPlace_cdpFirst haccepted) ⟨by decide, by decide⟩ (by decide)
    hends

end Net
end EmevBsp
