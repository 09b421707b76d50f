import EmevBsp.Library.TransitionSystem
import Mathlib.Data.Nat.Cast.Order.Ring
import Mathlib.Algebra.Order.Ring.Int

/-!
# `common/usb.c`: the configuration of a device

`usb_parse_config` goes through the descriptors by the lengths that they state, and copies each
interface and each endpoint, with the length that it states, into the next entry of the device.
`usb_set_maxpacket` then goes by the counts of interfaces and endpoints that the device states.

The device is the memory from `dev->config` on, in bytes, with the layout of the packed structures.

* `next`: one step of the parser; `fault` is an access outside the buffer or the entries.
* `Inv`: what every step keeps: the counters are what was parsed.
* `StepOk`: the condition on a state that the step goes on inside.
* `parseConfig_right_iff`: **the parser is bounded exactly when each state meets the condition** and
  the stated counts are at most what was parsed.
-/

namespace EmevBsp
namespace Usb

open TransitionSystem

/-! ## The memory -/

/-- A descriptor buffer of `USB_BUFSIZ` bytes. -/
abbrev Buffer : Type := Fin 512 → UInt8

abbrev usbMaxinterfaces : ℕ := 8

abbrev usbMaxendpoints : ℕ := 16

/-- The memory from `dev->config` on. -/
abbrev Mem : Type := ℕ → UInt8

/-- The size of a `struct usb_endpoint_descriptor`. -/
abbrev epSize : ℕ := 10

/-- The size of a `struct usb_interface_descriptor`. -/
abbrev ifSize : ℕ := 172

/-- `if_desc[i]` -/
def ifDesc (i : ℕ) : ℕ := 10 + ifSize * i

/-- `if_desc[i].ep_desc[ii]` -/
def epDesc (i ii : ℕ) : ℕ := ifDesc i + 12 + epSize * ii

namespace Mem

/-- A byte is stored. -/
def set (mem : Mem) (at' : ℕ) (b : UInt8) : Mem := fun k => if k = at' then b else mem k

def wTotalLength (mem : Mem) : ℕ := (mem 2).toNat + 256 * (mem 3).toNat

def bNumInterfaces (mem : Mem) : ℕ := (mem 4).toNat

def noOfIf (mem : Mem) : ℕ := (mem 9).toNat

def bInterfaceNumber (mem : Mem) (i : ℕ) : ℕ := (mem (ifDesc i + 2)).toNat

def bNumEndpoints (mem : Mem) (i : ℕ) : ℕ := (mem (ifDesc i + 4)).toNat

def noOfEp (mem : Mem) (i : ℕ) : ℕ := (mem (ifDesc i + 9)).toNat

/-- One is added to a byte. -/
def incr (mem : Mem) (k : ℕ) : Mem := mem.set k (mem k + 1)

end Mem

/-- A byte of the buffer; `none` is outside. -/
def read (buffer : Buffer) (k : ℕ) : Option UInt8 :=
  if h : k < 512 then some (buffer ⟨k, h⟩) else none

/-- `memcpy` from the buffer; `none` is a read outside. -/
def memcpy (mem : Mem) (dst : ℕ) (buffer : Buffer) (src len : ℕ) : Option Mem :=
  if src + len ≤ 512 then
    some fun k => if dst ≤ k ∧ k < dst + len then (read buffer (src + (k - dst))).getD 0 else mem k
  else none

/-! ## The parser -/

/-- What is parsed in a step. -/
inductive Label where
  | interface (i : ℕ)
  | endpoint (i ii : ℕ)
  | other
  deriving DecidableEq

/-- Before the header, and at the head of the loop. -/
inductive State where
  | header (mem : Mem)
  | descr (index : ℕ) (ifno currIfNum : ℤ) (mem : Mem)

/-- What a step comes to. -/
inductive Outcome where
  | fault
  | ends (ret : ℤ) (mem : Mem)
  | goes (a : Label) (s : State)

/-- The header: the configuration is copied. -/
def parseHeader (buffer : Buffer) (mem : Mem) : Outcome :=
  if buffer 1 ≠ 2 then .ends (-1) mem
  else
    match memcpy mem 0 buffer 0 (buffer 0).toNat with
    | none => .fault
    | some mem =>
      let mem := mem.set 9 0
      .goes .other (.descr (mem 0).toNat (-1) (-1) mem)

/-- An interface: a new one is copied, and another setting of the last one is counted. -/
def parseInterface (buffer : Buffer) (index len : ℕ) (ifno currIfNum : ℤ) (mem : Mem) : Outcome :=
  match read buffer (index + 2) with
  | none => .fault
  | some bInterfaceNumber =>
    if (bInterfaceNumber.toNat : ℤ) ≠ currIfNum then
      let i := mem.noOfIf
      let mem := mem.incr 9
      if i < usbMaxinterfaces ∧ ifSize * i + len ≤ ifSize * usbMaxinterfaces then
        match memcpy mem (ifDesc i) buffer index len with
        | none => .fault
        | some mem =>
          let mem := (mem.set (ifDesc i + 9) 0).set (ifDesc i + 10) 1
          .goes (.interface i) (.descr (index + len) i (mem.bInterfaceNumber i) mem)
      else .fault
    else if 0 ≤ ifno ∧ ifno < usbMaxinterfaces then
      .goes .other (.descr (index + len) ifno currIfNum (mem.incr (ifDesc ifno.toNat + 10)))
    else .fault

/-- An endpoint is copied to the last interface. -/
def parseEndpoint (buffer : Buffer) (index len : ℕ) (ifno currIfNum : ℤ) (mem : Mem) : Outcome :=
  if 0 ≤ ifno ∧ ifno < usbMaxinterfaces then
    let i := ifno.toNat
    let epno := mem.noOfEp i
    let mem := mem.incr (ifDesc i + 9)
    if epno < usbMaxendpoints ∧ epSize * epno + len ≤ epSize * usbMaxendpoints then
      match memcpy mem (epDesc i epno) buffer index len with
      | none => .fault
      | some mem => .goes (.endpoint i epno) (.descr (index + len) ifno currIfNum mem)
    else .fault
  else .fault

/-- One step of `usb_parse_config`. -/
def next (buffer : Buffer) : State → Outcome
  | .header mem => parseHeader buffer mem
  | .descr index ifno currIfNum mem =>
    if index + 1 < mem.wTotalLength then
      match read buffer index, read buffer (index + 1) with
      | some len, some type =>
        if type = 4 then parseInterface buffer index len.toNat ifno currIfNum mem
        else if type = 5 then parseEndpoint buffer index len.toNat ifno currIfNum mem
        else if len = 0 then .ends 1 mem
        else .goes .other (.descr (index + len.toNat) ifno currIfNum mem)
      | _, _ => .fault
    else .ends 1 mem

/-- The runs of `usb_parse_config` on a device. -/
def parser (buffer : Buffer) (dev : Mem) : TransitionSystem State Label where
  init s := s = .header dev
  step s a t := next buffer s = .goes a t

/-! ## The packet sizes -/

/-- The endpoints that `usb_set_maxpacket` visits. -/
def visits (mem : Mem) : List (ℕ × ℕ) :=
  (List.range mem.bNumInterfaces).flatMap fun i =>
    (List.range (mem.bNumEndpoints i)).map fun ii => (i, ii)

/-- `epmaxpacketin` and `epmaxpacketout` -/
structure MaxPackets where
  epmaxpacketin : Fin 16 → ℤ
  epmaxpacketout : Fin 16 → ℤ

/-- `usb_set_maxpacket_ep`, for the descriptor at an offset. -/
def usbSetMaxpacketEp (mem : Mem) (m : MaxPackets) (ep : ℕ) : MaxPackets :=
  let b := Fin.ofNat 16 (mem (ep + 2) &&& 0x0f).toNat
  let wMaxPacketSize : ℤ := (mem (ep + 4)).toNat + 256 * (mem (ep + 5)).toNat
  if mem (ep + 3) &&& 3 = 0 then
    ⟨Function.update m.epmaxpacketin b wMaxPacketSize,
      Function.update m.epmaxpacketout b wMaxPacketSize⟩
  else if mem (ep + 2) &&& 0x80 = 0 then
    if m.epmaxpacketout b < wMaxPacketSize then
      { m with epmaxpacketout := Function.update m.epmaxpacketout b wMaxPacketSize }
    else m
  else if m.epmaxpacketin b < wMaxPacketSize then
    { m with epmaxpacketin := Function.update m.epmaxpacketin b wMaxPacketSize }
  else m

def usbSetMaxpacket (mem : Mem) (m : MaxPackets) : MaxPackets :=
  (visits mem).foldl (fun m (i, ii) => usbSetMaxpacketEp mem m (epDesc i ii)) m

/-! ## What it should be -/

/-- The parser comes to its end without an access outside, and afterwards only interfaces and
endpoints are visited that it has parsed. -/
def Right (buffer : Buffer) (dev : Mem) : Prop :=
  ∃ l s ret mem, (parser buffer dev).Run (.header dev) l s ∧ next buffer s = .ends ret mem ∧
    (∀ i < mem.bNumInterfaces, .interface i ∈ l) ∧
    ∀ v ∈ visits mem, .endpoint v.1 v.2 ∈ l

/-! ## Reads and stores -/

variable {buffer : Buffer} {mem mem' : Mem}

theorem memcpy_of_le (mem : Mem) (dst : ℕ) (buffer : Buffer) {src len : ℕ}
    (h : src + len ≤ 512) : ∃ mem', memcpy mem dst buffer src len = some mem' := ⟨_, if_pos h⟩

theorem memcpy_before {dst src len : ℕ} (h : memcpy mem dst buffer src len = some mem') {k : ℕ}
    (hk : k < dst) : mem' k = mem k := by
  unfold memcpy at h
  split at h
  · cases h
    exact if_neg fun hin => absurd hin.1 (not_le.mpr hk)
  · exact nomatch h

theorem Mem.set_of_ne {k j : ℕ} {b : UInt8} (h : k ≠ j) : mem.set j b k = mem k := if_neg h

@[simp] theorem Mem.set_self {k : ℕ} {b : UInt8} : mem.set k b k = b := if_pos rfl

theorem Mem.incr_of_ne {k j : ℕ} (h : k ≠ j) : mem.incr j k = mem k := if_neg h

theorem Mem.incr_self {k : ℕ} (h : (mem k).toNat < 255) :
    (mem.incr k k).toNat = (mem k).toNat + 1 := by
  unfold Mem.incr
  rw [Mem.set_self, UInt8.toNat_add]
  exact Nat.mod_eq_of_lt (Nat.succ_lt_succ h)

/-! ## What a step does -/

/-- The memory behind a new interface. -/
def Mem.begin (mem : Mem) (i : ℕ) : Mem := (mem.set (ifDesc i + 9) 0).set (ifDesc i + 10) 1

/-- **What a step in the loop does.** -/
inductive Goes (buffer : Buffer) (index len : ℕ) (type : UInt8) (ifno currIfNum : ℤ) (mem : Mem) :
    Label → State → Prop where
  /-- A new interface. -/
  | interface {num : UInt8} {mem' : Mem} : type = 4 → read buffer (index + 2) = some num →
      (num.toNat : ℤ) ≠ currIfNum → mem.noOfIf < usbMaxinterfaces →
      memcpy (mem.incr 9) (ifDesc mem.noOfIf) buffer index len = some mem' →
      Goes buffer index len type ifno currIfNum mem (.interface mem.noOfIf)
        (.descr (index + len) mem.noOfIf
          ((mem'.begin mem.noOfIf).bInterfaceNumber mem.noOfIf) (mem'.begin mem.noOfIf))
  /-- Another setting. -/
  | setting {i : ℕ} : type = 4 → ifno = i →
      Goes buffer index len type ifno currIfNum mem .other
        (.descr (index + len) ifno currIfNum (mem.incr (ifDesc i + 10)))
  | endpoint {i : ℕ} {mem' : Mem} : type = 5 → ifno = i → mem.noOfEp i < usbMaxendpoints →
      memcpy (mem.incr (ifDesc i + 9)) (epDesc i (mem.noOfEp i)) buffer index len = some mem' →
      Goes buffer index len type ifno currIfNum mem (.endpoint i (mem.noOfEp i))
        (.descr (index + len) ifno currIfNum mem')
  | skip : type ≠ 4 → type ≠ 5 → len ≠ 0 →
      Goes buffer index len type ifno currIfNum mem .other
        (.descr (index + len) ifno currIfNum mem)

theorem goes_of_parseInterface {index len : ℕ} {ifno currIfNum : ℤ} {a : Label} {t : State}
    (h : parseInterface buffer index len ifno currIfNum mem = .goes a t) :
    Goes buffer index len 4 ifno currIfNum mem a t := by
  unfold parseInterface at h
  cases hnum : read buffer (index + 2) with
  | none => rw [hnum] at h; exact nomatch h
  | some num =>
    rw [hnum] at h
    dsimp only at h
    split at h
    · rename_i hnew
      split at h
      · rename_i hroom
        cases hcopy : memcpy (mem.incr 9) (ifDesc mem.noOfIf) buffer index len with
        | none => rw [hcopy] at h; exact nomatch h
        | some mem' =>
          rw [hcopy] at h
          cases h
          exact .interface rfl hnum hnew hroom.1 hcopy
      · exact nomatch h
    · split at h
      · rename_i hifno
        cases h
        exact .setting rfl (Int.toNat_of_nonneg hifno.1).symm
      · exact nomatch h

theorem goes_of_parseEndpoint {index len : ℕ} {ifno currIfNum : ℤ} {a : Label} {t : State}
    (h : parseEndpoint buffer index len ifno currIfNum mem = .goes a t) :
    Goes buffer index len 5 ifno currIfNum mem a t := by
  unfold parseEndpoint at h
  split at h
  · rename_i hifno
    dsimp only at h
    split at h
    · rename_i hroom
      cases hcopy : memcpy (mem.incr (ifDesc ifno.toNat + 9))
          (epDesc ifno.toNat (mem.noOfEp ifno.toNat)) buffer index len with
      | none => rw [hcopy] at h; exact nomatch h
      | some mem' =>
        rw [hcopy] at h
        cases h
        exact .endpoint rfl (Int.toNat_of_nonneg hifno.1).symm hroom.1 hcopy
    · exact nomatch h
  · exact nomatch h

theorem goes_of_next {index : ℕ} {ifno currIfNum : ℤ} {a : Label} {t : State}
    (h : next buffer (.descr index ifno currIfNum mem) = .goes a t) :
    index + 1 < mem.wTotalLength ∧ ∃ len type, read buffer index = some len ∧
      read buffer (index + 1) = some type ∧
      Goes buffer index len.toNat type ifno currIfNum mem a t := by
  rw [next] at h
  split at h
  · rename_i hlt
    refine ⟨hlt, ?_⟩
    cases hlen : read buffer index with
    | none => rw [hlen] at h; exact nomatch h
    | some len =>
      cases htype : read buffer (index + 1) with
      | none => rw [hlen, htype] at h; exact nomatch h
      | some type =>
        rw [hlen, htype] at h
        dsimp only at h
        refine ⟨len, type, rfl, rfl, ?_⟩
        split at h
        · rename_i hif
          exact hif ▸ goes_of_parseInterface h
        · rename_i hif
          split at h
          · rename_i hep
            exact hep ▸ goes_of_parseEndpoint h
          · rename_i hep
            split at h
            · exact nomatch h
            · rename_i hne
              cases h
              exact .skip hif hep fun hzero => hne (UInt8.toNat_inj.mp hzero)
  · exact nomatch h

/-! ## The invariant -/

/-- The counters are what was parsed, and another setting has an interface. -/
def Inv (m : List Label) : State → Prop
  | .header _ => (∀ i, .interface i ∉ m) ∧ ∀ i ii, .endpoint i ii ∉ m
  | .descr _ ifno currIfNum mem =>
    (ifno + 1 = mem.noOfIf ∧ mem.noOfIf ≤ usbMaxinterfaces ∧ -1 ≤ currIfNum ∧
      (0 ≤ currIfNum → 0 ≤ ifno)) ∧
    (∀ i, .interface i ∈ m ↔ i < mem.noOfIf) ∧
    ∀ i ii, .endpoint i ii ∈ m ↔ i < mem.noOfIf ∧ ii < mem.noOfEp i

theorem ifDesc_lt {i j : ℕ} (h : i < j) : ifDesc i + ifSize ≤ ifDesc j := by
  unfold ifDesc ifSize
  omega

theorem begin_counters {i len src : ℕ} (hcopy : memcpy mem (ifDesc i) buffer src len = some mem') :
    (mem'.begin i).noOfIf = mem.noOfIf ∧ (mem'.begin i).noOfEp i = 0 ∧
      ∀ j < i, (mem'.begin i).noOfEp j = mem.noOfEp j := by
  have hset : ∀ k < ifDesc i, mem'.begin i k = mem k := fun k hk => by
    rw [Mem.begin, Mem.set_of_ne (by omega), Mem.set_of_ne (by omega), memcpy_before hcopy hk]
  refine ⟨congrArg UInt8.toNat (hset 9 (by unfold ifDesc; omega)), ?_, fun j hj => ?_⟩
  · unfold Mem.noOfEp
    rw [Mem.begin, Mem.set_of_ne (by omega), Mem.set_self]
    rfl
  · have hlt := ifDesc_lt hj
    exact congrArg UInt8.toNat (hset _ (by unfold ifSize at hlt; omega))

theorem endpoint_counters {i len src : ℕ} (hep : mem.noOfEp i < usbMaxendpoints)
    (hcopy : memcpy (mem.incr (ifDesc i + 9)) (epDesc i (mem.noOfEp i)) buffer src len =
      some mem') :
    mem'.noOfIf = mem.noOfIf ∧ mem'.noOfEp i = mem.noOfEp i + 1 ∧
      ∀ j < i, mem'.noOfEp j = mem.noOfEp j := by
  have hbefore : ∀ k < ifDesc i + 12, k ≠ ifDesc i + 9 → mem' k = mem k := fun k hk hne => by
    rw [memcpy_before hcopy (by unfold epDesc; omega), Mem.incr_of_ne hne]
  refine ⟨congrArg UInt8.toNat (hbefore 9 (by unfold ifDesc; omega) (by unfold ifDesc; omega)), ?_,
    fun j hj => ?_⟩
  · unfold Mem.noOfEp usbMaxendpoints at *
    rw [memcpy_before hcopy (by unfold epDesc; omega), Mem.incr_self (by omega)]
  · have hlt := ifDesc_lt hj
    unfold ifSize at hlt
    exact congrArg UInt8.toNat (hbefore _ (by omega) (by omega))

theorem Inv.goes {m : List Label} {index len : ℕ} {type : UInt8} {ifno currIfNum : ℤ}
    {a : Label} {t : State} (hinv : Inv m (.descr index ifno currIfNum mem))
    (h : Goes buffer index len type ifno currIfNum mem a t) : Inv (m ++ [a]) t := by
  obtain ⟨⟨hifno, hmax, hcurr, hpos⟩, hifs, heps⟩ := hinv
  cases h with
  | @interface num mem' _ _ hnew hroom hcopy =>
    have hincr : (mem.incr 9).noOfIf = mem.noOfIf + 1 :=
      Mem.incr_self (by unfold usbMaxinterfaces Mem.noOfIf at *; omega)
    have hother : ∀ j, (mem.incr 9).noOfEp j = mem.noOfEp j := fun j =>
      congrArg UInt8.toNat (Mem.incr_of_ne (by unfold ifDesc; omega))
    obtain ⟨hif, hep, hbefore⟩ := begin_counters hcopy
    rw [hincr] at hif
    refine ⟨⟨by rw [hif]; rfl, by omega, by omega, fun _ => by omega⟩, fun i => ?_, fun i ii => ?_⟩
    · simp only [List.mem_append, List.mem_singleton, Label.interface.injEq, hifs, hif]
      omega
    · simp only [List.mem_append, List.mem_singleton, reduceCtorEq, or_false, heps, hif]
      constructor
      · rintro ⟨hi, hii⟩
        rw [hbefore i hi, hother]
        exact ⟨by omega, hii⟩
      · rintro ⟨hi, hii⟩
        obtain hi | rfl := Nat.lt_succ_iff_lt_or_eq.mp hi
        · rw [hbefore i hi, hother] at hii
          exact ⟨hi, hii⟩
        · rw [hep] at hii
          exact absurd hii (Nat.not_lt_zero _)
  | @setting i _ hi =>
    have hif : (mem.incr (ifDesc i + 10)).noOfIf = mem.noOfIf :=
      congrArg UInt8.toNat (Mem.incr_of_ne (by unfold ifDesc; omega))
    have hep : ∀ j, (mem.incr (ifDesc i + 10)).noOfEp j = mem.noOfEp j := fun j =>
      congrArg UInt8.toNat (Mem.incr_of_ne (by unfold ifDesc ifSize; omega))
    refine ⟨⟨by rw [hif]; exact hifno, by rw [hif]; exact hmax, hcurr, hpos⟩, fun j => ?_,
      fun j ii => ?_⟩
    · simp only [List.mem_append, List.mem_singleton, reduceCtorEq, or_false, hifs, hif]
    · simp only [List.mem_append, List.mem_singleton, reduceCtorEq, or_false, heps, hif, hep]
  | @endpoint i mem' _ hi hroom hcopy =>
    obtain ⟨hif, hep, hbefore⟩ := endpoint_counters hroom hcopy
    refine ⟨⟨by rw [hif]; exact hifno, by rw [hif]; exact hmax, hcurr, hpos⟩, fun j => ?_,
      fun j ii => ?_⟩
    · simp only [List.mem_append, List.mem_singleton, reduceCtorEq, or_false, hifs, hif]
    · simp only [List.mem_append, List.mem_singleton, Label.endpoint.injEq, heps, hif]
      obtain hj | rfl | hj := Nat.lt_trichotomy j i
      · rw [hbefore j hj]
        omega
      · rw [hep]
        omega
      · omega
  | skip =>
    refine ⟨⟨hifno, hmax, hcurr, hpos⟩, fun j => ?_, fun j ii => ?_⟩
    · simp only [List.mem_append, List.mem_singleton, reduceCtorEq, or_false, hifs]
    · simp only [List.mem_append, List.mem_singleton, reduceCtorEq, or_false, heps]

/-! ## The condition -/

/-- **The condition on a state**: a descriptor of an interface or an endpoint is not empty and lies
inside the buffer; a new interface has an entry, and so has an endpoint, behind an interface. -/
def StepOk (buffer : Buffer) : State → Prop
  | .header _ => True
  | .descr index ifno currIfNum mem =>
    index + 1 < mem.wTotalLength →
      ∃ len type, read buffer index = some len ∧ read buffer (index + 1) = some type ∧
        (type = 4 → len ≠ 0 ∧ ∃ num, read buffer (index + 2) = some num ∧
          ((num.toNat : ℤ) ≠ currIfNum → index + len.toNat ≤ 512 ∧
            mem.noOfIf < usbMaxinterfaces ∧
            ifSize * mem.noOfIf + len.toNat ≤ ifSize * usbMaxinterfaces)) ∧
        (type = 5 → len ≠ 0 ∧ index + len.toNat ≤ 512 ∧ 0 ≤ ifno ∧
          mem.noOfEp ifno.toNat < usbMaxendpoints ∧
          epSize * mem.noOfEp ifno.toNat + len.toNat ≤ epSize * usbMaxendpoints)

/-- The entries that are parsed when the parser comes to its end in a state. -/
def parsedIfs : State → ℕ
  | .header _ => 0
  | .descr _ _ _ mem => mem.noOfIf

/-- The device. -/
def State.device : State → Mem
  | .header mem => mem
  | .descr _ _ _ mem => mem

/-- The condition on the counts that the device states. -/
def CountsOk (s : State) : Prop :=
  s.device.bNumInterfaces ≤ parsedIfs s ∧
    ∀ i < s.device.bNumInterfaces, s.device.bNumEndpoints i ≤ s.device.noOfEp i

/-- A descriptor of an interface or an endpoint without a length. -/
def Stuck (buffer : Buffer) : State → Prop
  | .header _ => False
  | .descr index _ _ mem => index + 1 < mem.wTotalLength ∧ read buffer index = some 0 ∧
    (read buffer (index + 1) = some 4 ∨ read buffer (index + 1) = some 5)

theorem next_header (buffer : Buffer) (mem : Mem) :
    (∃ ret, next buffer (.header mem) = .ends ret mem) ∨
      ∃ index mem', next buffer (.header mem) = .goes .other (.descr index (-1) (-1) mem') ∧
        mem'.noOfIf = 0 := by
  rw [next, parseHeader]
  split
  · exact .inl ⟨-1, rfl⟩
  · have hlt := (buffer 0).toNat_lt
    obtain ⟨mem', hcopy⟩ := memcpy_of_le mem 0 buffer
      (show 0 + (buffer 0).toNat ≤ 512 by omega)
    rw [hcopy]
    exact .inr ⟨_, _, rfl, rfl⟩

theorem next_of_stepOk {m : List Label} {s : State} (hinv : Inv m s) (h : StepOk buffer s) :
    (∃ ret, next buffer s = .ends ret s.device) ∨ ∃ a t, next buffer s = .goes a t := by
  cases s with
  | header mem =>
    obtain hend | ⟨index, mem', hgoes, -⟩ := next_header buffer mem
    · exact .inl hend
    · exact .inr ⟨_, _, hgoes⟩
  | descr index ifno currIfNum mem =>
    by_cases hlt : index + 1 < mem.wTotalLength
    swap
    · exact .inl ⟨1, by rw [next, if_neg hlt]; rfl⟩
    obtain ⟨⟨hifno, hmax, hcurr, hpos⟩, -, -⟩ := hinv
    obtain ⟨len, type, hlen, htype, hif, hep⟩ := h hlt
    rw [next, if_pos hlt, hlen, htype]
    dsimp only
    by_cases h4 : type = 4
    · obtain ⟨-, num, hnum, hnew⟩ := hif h4
      rw [if_pos h4, parseInterface, hnum]
      dsimp only
      by_cases hne : (num.toNat : ℤ) ≠ currIfNum
      · obtain ⟨hin, hroom⟩ := hnew hne
        obtain ⟨mem', hcopy⟩ := memcpy_of_le (mem.incr 9) (ifDesc mem.noOfIf) buffer hin
        rw [if_pos hne, if_pos hroom, hcopy]
        exact .inr ⟨_, _, rfl⟩
      · rw [if_neg hne, if_pos (by unfold usbMaxinterfaces at *; omega)]
        exact .inr ⟨_, _, rfl⟩
    rw [if_neg h4]
    by_cases h5 : type = 5
    · obtain ⟨-, hin, hge, hroom⟩ := hep h5
      obtain ⟨mem', hcopy⟩ := memcpy_of_le (mem.incr (ifDesc ifno.toNat + 9))
        (epDesc ifno.toNat (mem.noOfEp ifno.toNat)) buffer hin
      rw [if_pos h5, parseEndpoint, if_pos (by unfold usbMaxinterfaces at *; omega)]
      dsimp only
      rw [if_pos hroom, hcopy]
      exact .inr ⟨_, _, rfl⟩
    rw [if_neg h5]
    by_cases h0 : len = 0
    · exact .inl ⟨1, if_pos h0⟩
    · exact .inr ⟨_, _, if_neg h0⟩

theorem stepOk_of_next {s : State} (hstuck : ¬ Stuck buffer s) (h : next buffer s ≠ .fault) :
    StepOk buffer s := by
  cases s with
  | header mem => trivial
  | descr index ifno currIfNum mem =>
    intro hlt
    rw [next, if_pos hlt] at h
    cases hlen : read buffer index with
    | none => rw [hlen] at h; exact absurd rfl h
    | some len =>
      cases htype : read buffer (index + 1) with
      | none => rw [hlen, htype] at h; exact absurd rfl h
      | some type =>
        rw [hlen, htype] at h
        dsimp only at h
        refine ⟨len, type, rfl, rfl, fun h4 => ?_, fun h5 => ?_⟩
        · refine ⟨fun h0 => hstuck ⟨hlt, h0 ▸ hlen, .inl (h4 ▸ htype)⟩, ?_⟩
          rw [if_pos h4, parseInterface] at h
          cases hnum : read buffer (index + 2) with
          | none => rw [hnum] at h; exact absurd rfl h
          | some num =>
            refine ⟨num, rfl, fun hne => ?_⟩
            rw [hnum] at h
            dsimp only at h
            rw [if_pos hne] at h
            split at h
            · rename_i hroom
              refine ⟨?_, hroom⟩
              by_contra hout
              rw [memcpy, if_neg hout] at h
              exact h rfl
            · exact absurd rfl h
        · refine ⟨fun h0 => hstuck ⟨hlt, h0 ▸ hlen, .inr (h5 ▸ htype)⟩, ?_⟩
          rw [if_neg (by rw [h5]; decide), if_pos h5, parseEndpoint] at h
          split at h
          · rename_i hifno
            dsimp only at h
            split at h
            · rename_i hroom
              refine ⟨?_, hifno.1, hroom⟩
              by_contra hout
              rw [memcpy, if_neg hout] at h
              exact h rfl
            · exact absurd rfl h
          · exact absurd rfl h

/-! ## Runs -/

variable {dev : Mem}

theorem inv_next {m : List Label} {s t : State} {a : Label} (hinv : Inv m s)
    (h : next buffer s = .goes a t) : Inv (m ++ [a]) t := by
  cases s with
  | header mem =>
    obtain ⟨ret, hend⟩ | ⟨index, mem', hgoes, hzero⟩ := next_header buffer mem
    · rw [hend] at h
      exact nomatch h
    · rw [hgoes] at h
      cases h
      refine ⟨⟨by rw [hzero]; rfl, by omega, le_rfl, fun h => by omega⟩, fun i => ?_,
        fun i ii => ?_⟩
      · simp [hinv.1, hzero]
      · simp [hinv.2, hzero]
  | descr index ifno currIfNum mem =>
    obtain ⟨-, len, type, -, -, hgoes⟩ := goes_of_next h
    exact hinv.goes hgoes

theorem inv_of_run {l : List Label} {s : State} (h : (parser buffer dev).Run (.header dev) l s) :
    Inv l s :=
  h.history (fun _ _ _ _ hinv hst => inv_next hinv hst) []
    ⟨fun _ => List.not_mem_nil, fun _ _ => List.not_mem_nil⟩

theorem exists_inv_of_reachable {s : State} (h : (parser buffer dev).Reachable s) :
    ∃ m, Inv m s := by
  refine h.invariant (I := fun s => ∃ m, Inv m s) (fun s hs => ⟨[], ?_⟩)
    fun s a t ⟨m, hm⟩ hst => ⟨_, inv_next hm hst⟩
  rw [show s = .header dev from hs]
  exact ⟨fun _ => List.not_mem_nil, fun _ _ => List.not_mem_nil⟩

theorem Goes.frame {index len : ℕ} {type : UInt8} {ifno currIfNum : ℤ} {a : Label} {t : State}
    (h : Goes buffer index len type ifno currIfNum mem a t) :
    ∃ ifno' curr' mem', t = .descr (index + len) ifno' curr' mem' ∧ ∀ k < 9, mem' k = mem k := by
  cases h with
  | interface _ _ _ _ hcopy =>
    refine ⟨_, _, _, rfl, fun k hk => ?_⟩
    rw [Mem.begin, Mem.set_of_ne (by unfold ifDesc; omega), Mem.set_of_ne (by unfold ifDesc; omega),
      memcpy_before hcopy (by unfold ifDesc; omega), Mem.incr_of_ne (by omega)]
  | setting => exact ⟨_, _, _, rfl, fun k hk => Mem.incr_of_ne (by unfold ifDesc; omega)⟩
  | endpoint _ _ _ hcopy =>
    refine ⟨_, _, _, rfl, fun k hk => ?_⟩
    rw [memcpy_before hcopy (by unfold epDesc ifDesc; omega),
      Mem.incr_of_ne (by unfold ifDesc; omega)]
  | skip => exact ⟨_, _, _, rfl, fun _ _ => rfl⟩

theorem wTotalLength_congr (h : ∀ k < 9, mem' k = mem k) :
    mem'.wTotalLength = mem.wTotalLength := by
  unfold Mem.wTotalLength
  rw [h 2 (by decide), h 3 (by decide)]

theorem Stuck.stays {s t : State} {a : Label} (hs : Stuck buffer s)
    (h : next buffer s = .goes a t) : Stuck buffer t := by
  cases s with
  | header => exact absurd hs id
  | descr index ifno currIfNum mem =>
    obtain ⟨hlt, hzero, htype⟩ := hs
    obtain ⟨-, len, type, hlen, -, hgoes⟩ := goes_of_next h
    obtain ⟨ifno', curr', mem', rfl, hframe⟩ := hgoes.frame
    rw [hzero, Option.some.injEq] at hlen
    rw [← hlen]
    exact ⟨(wTotalLength_congr hframe).symm ▸ hlt, hzero, htype⟩

theorem parseInterface_ne_ends {index len : ℕ} {ifno currIfNum ret : ℤ} :
    parseInterface buffer index len ifno currIfNum mem ≠ .ends ret mem' := by
  unfold parseInterface
  split
  · nofun
  · dsimp only
    split
    · split
      · split <;> nofun
      · nofun
    · split <;> nofun

theorem parseEndpoint_ne_ends {index len : ℕ} {ifno currIfNum ret : ℤ} :
    parseEndpoint buffer index len ifno currIfNum mem ≠ .ends ret mem' := by
  unfold parseEndpoint
  split
  · dsimp only
    split
    · split <;> nofun
    · nofun
  · nofun

theorem Stuck.not_ends {s : State} (hs : Stuck buffer s) {ret : ℤ} :
    next buffer s ≠ .ends ret mem := by
  cases s with
  | header => exact absurd hs id
  | descr index ifno currIfNum mem =>
    obtain ⟨hlt, hzero, htype | htype⟩ := hs
    · rw [next, if_pos hlt, hzero, htype]
      exact parseInterface_ne_ends
    · rw [next, if_pos hlt, hzero, htype]
      exact parseEndpoint_ne_ends

theorem ends_device {s : State} {ret : ℤ} (h : next buffer s = .ends ret mem) :
    mem = s.device := by
  cases s with
  | header mem =>
    obtain ⟨ret, hend⟩ | ⟨index, mem', hgoes, -⟩ := next_header buffer mem
    · rw [hend] at h
      cases h
      rfl
    · rw [hgoes] at h
      exact nomatch h
  | descr index ifno currIfNum mem =>
    rw [next] at h
    split at h
    · split at h
      · split at h
        · exact absurd h parseInterface_ne_ends
        · split at h
          · exact absurd h parseEndpoint_ne_ends
          · split at h
            · cases h
              rfl
            · exact nomatch h
      · exact nomatch h
    · cases h
      rfl

/-- What is left of the buffer. -/
def toGo : State → ℕ
  | .header _ => 2 ^ 16 + 1
  | .descr index _ _ _ => 2 ^ 16 - index

theorem toGo_lt {s t : State} {a : Label} (hok : StepOk buffer s) (h : next buffer s = .goes a t) :
    toGo t < toGo s := by
  cases s with
  | header mem =>
    obtain ⟨ret, hend⟩ | ⟨index, mem', hgoes, hzero⟩ := next_header buffer mem
    · rw [hend] at h
      exact nomatch h
    · rw [hgoes] at h
      cases h
      rw [toGo, toGo]
      omega
  | descr index ifno currIfNum mem =>
    obtain ⟨hlt, len, type, hlen, htype, hgoes⟩ := goes_of_next h
    obtain ⟨ifno', curr', mem', rfl, hframe⟩ := hgoes.frame
    have hpos : len ≠ 0 := by
      obtain ⟨len', type', hlen', htype', hif, hep⟩ := hok hlt
      rw [hlen, Option.some.injEq] at hlen'
      rw [htype, Option.some.injEq] at htype'
      cases hgoes with
      | interface h4 => exact hlen' ▸ (hif (htype' ▸ h4)).1
      | setting h4 => exact hlen' ▸ (hif (htype' ▸ h4)).1
      | endpoint h5 => exact hlen' ▸ (hep (htype' ▸ h5)).1
      | skip _ _ hne => exact fun h0 => hne (congrArg UInt8.toNat h0)
    have hpos' : 0 < len.toNat := Nat.pos_of_ne_zero fun h0 => hpos (UInt8.toNat_inj.mp h0)
    have htotal : mem.wTotalLength < 2 ^ 16 := by
      have h2 := (mem 2).toNat_lt
      have h3 := (mem 3).toNat_lt
      unfold Mem.wTotalLength
      omega
    rw [toGo, toGo]
    omega

/-! ## The parser is bounded -/

theorem countsOk_iff {l : List Label} {s : State} (hinv : Inv l s) :
    (∀ i < s.device.bNumInterfaces, .interface i ∈ l) ∧
      (∀ v ∈ visits s.device, .endpoint v.1 v.2 ∈ l) ↔ CountsOk s := by
  have hvisits : ∀ mem : Mem, (∀ v ∈ visits mem, .endpoint v.1 v.2 ∈ l) ↔
      ∀ i < mem.bNumInterfaces, ∀ ii < mem.bNumEndpoints i, .endpoint i ii ∈ l := by
    intro mem
    constructor
    · exact fun h i hi ii hii => h (i, ii) (List.mem_flatMap.mpr
        ⟨i, List.mem_range.mpr hi, List.mem_map.mpr ⟨ii, List.mem_range.mpr hii, rfl⟩⟩)
    · intro h v hv
      obtain ⟨i, hi, hv⟩ := List.mem_flatMap.mp hv
      obtain ⟨ii, hii, rfl⟩ := List.mem_map.mp hv
      exact h i (List.mem_range.mp hi) ii (List.mem_range.mp hii)
  rw [hvisits]
  cases s with
  | header mem =>
    obtain ⟨hif, hep⟩ := hinv
    constructor
    · rintro ⟨hifs, -⟩
      have hzero : mem.bNumInterfaces = 0 := by
        by_contra hne
        exact hif 0 (hifs 0 (Nat.pos_of_ne_zero hne))
      exact ⟨hzero.le, fun i hi => absurd (hzero ▸ hi) (Nat.not_lt_zero i)⟩
    · rintro ⟨hle, -⟩
      exact ⟨fun i hi => absurd (hi.trans_le hle) (Nat.not_lt_zero i),
        fun i hi => absurd (hi.trans_le hle) (Nat.not_lt_zero i)⟩
  | descr index ifno currIfNum mem =>
    obtain ⟨-, hif, hep⟩ := hinv
    simp only [hif, hep]
    constructor
    · rintro ⟨hifs, heps⟩
      refine ⟨?_, fun i hi => ?_⟩
      · by_contra hlt
        exact absurd (hifs _ (not_le.mp hlt)) (lt_irrefl _)
      · by_contra hlt
        exact absurd (heps i hi _ (not_le.mp hlt)).2 (lt_irrefl _)
    · rintro ⟨hle, heps⟩
      exact ⟨fun i hi => hi.trans_le hle,
        fun i hi ii hii => ⟨hi.trans_le hle, hii.trans_le (heps i hi)⟩⟩

theorem exists_run_to_ends {l : List Label} {s e : State} {ret : ℤ}
    (hrun : (parser buffer dev).Run (.header dev) l e) (hend : next buffer e = .ends ret mem)
    (hs : (parser buffer dev).Reachable s) : ∃ m, (parser buffer dev).Run s m e := by
  refine hs.exists_run_to_end (fun s a t b u ht hu => ?_) (fun _ h => h) (fun a t hst => ?_) hrun
  · have heq := (show next buffer s = .goes a t from ht).symm.trans hu
    cases heq
    rfl
  · rw [show next buffer e = .goes a t from hst] at hend
    exact nomatch hend

theorem Right.stepOk (h : Right buffer dev) {s : State} (hs : (parser buffer dev).Reachable s) :
    StepOk buffer s := by
  obtain ⟨l, e, ret, mem, hrun, hend, -⟩ := h
  obtain ⟨m, hm⟩ := exists_run_to_ends hrun hend hs
  refine stepOk_of_next (fun hstuck => ?_) fun hfault => ?_
  · exact (hm.invariant (I := Stuck buffer) (fun _ _ _ hst h => hst.stays h) hstuck).not_ends hend
  · cases hm with
    | nil => rw [hfault] at hend; exact nomatch hend
    | cons hst _ =>
      rw [show next buffer s = .goes _ _ from hst] at hfault
      exact nomatch hfault

/-- **The parser is bounded exactly when each state meets the condition** and the stated counts are
at most what was parsed. -/
theorem parseConfig_right_iff (buffer : Buffer) (dev : Mem) :
    Right buffer dev ↔
      ∀ s, (parser buffer dev).Reachable s → StepOk buffer s ∧
        ∀ ret mem, next buffer s = .ends ret mem → CountsOk s := by
  constructor
  · intro h s hs
    refine ⟨h.stepOk hs, fun ret mem hend => ?_⟩
    obtain ⟨l, e, ret', mem', hrun, hend', hcounts⟩ := h
    obtain ⟨m, hm⟩ := exists_run_to_ends hrun hend' hs
    cases hm with
    | nil => exact (countsOk_iff (inv_of_run hrun)).mp (ends_device hend' ▸ hcounts)
    | cons hst _ =>
      rw [show next buffer s = .goes _ _ from hst] at hend
      exact nomatch hend
  · intro h
    have hstep : ∀ s, (parser buffer dev).Reachable s →
        (∃ ret, next buffer s = .ends ret s.device) ∨ ∃ a t, (parser buffer dev).step s a t ∧
          (parser buffer dev).Reachable t ∧ toGo t < toGo s := by
      intro s hs
      obtain ⟨m, hinv⟩ := exists_inv_of_reachable hs
      obtain hend | ⟨a, t, hgoes⟩ := next_of_stepOk hinv (h s hs).1
      · exact .inl hend
      · exact .inr ⟨a, t, hgoes, .step hs hgoes, toGo_lt (h s hs).1 hgoes⟩
    obtain ⟨l, e, hrun, ret, hend⟩ := exists_run_of_lt toGo hstep (.header dev) (.init rfl)
    exact ⟨l, e, ret, e.device, hrun, hend, (countsOk_iff (inv_of_run hrun)).mpr
      ((h e (hrun.reachable (.init rfl))).2 _ _ hend)⟩

/-- An endpoint before the first interface is copied before the entries. -/
theorem not_right_endpointFirst :
    ¬ ∀ (buffer : Buffer) (dev : Mem), (buffer 2).toNat + 256 * (buffer 3).toNat ≤ 512 →
      Right buffer dev := by
  intro h
  let buffer : Buffer := fun i =>
    [9, 2, 16, 0, 1, 1, 0, 0x80, 50, 7, 5, 0x81, 2, 64, 0, 0].getD i 0
  have hright : Right buffer fun _ => 0 := h buffer _ (by decide)
  obtain ⟨mem, hgoes, htotal⟩ : ∃ mem : Mem, next buffer (.header fun _ => 0) =
      .goes .other (.descr 9 (-1) (-1) mem) ∧ mem.wTotalLength = 16 := ⟨_, rfl, rfl⟩
  obtain ⟨len, type, -, htype, -, hep⟩ := hright.stepOk (.step (.init rfl) hgoes) (by omega)
  have hfive : read buffer 10 = some 5 := rfl
  rw [hfive, Option.some.injEq] at htype
  exact absurd (hep htype.symm).2.2.1 (by decide)

end Usb
end EmevBsp
