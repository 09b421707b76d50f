import EmevBsp.Mtd.Commands
import Mathlib.Algebra.Group.Nat.Defs
import Mathlib.Data.List.Nodup

/-!
# The device lists, and the current partition in them

The current partition is a device and a number in its list, and the list is kept in the order of
the offsets.  So an insertion or a deletion in front of it moves its number, and the code decides by
the offsets alone which side of it a partition is on.  That is right for an insertion, and for the
deletion of a partition at another offset; a partition at the same offset may be on either side.
-/

namespace EmevBsp
namespace Mtd

/-! ## A number in a list in order -/

/-- **An insertion.**  The partition in front of which the new one goes has no larger an offset than
the current one exactly when the current one is behind the new one. -/
theorem offset_le_iff_of_insert {before after : List PartInfo} {new pi curr : PartInfo} {i : ℕ}
    (hsorted : Sorted (before ++ after)) (hbefore : ∀ p ∈ before, p.offset < new.offset)
    (hpi : after.head? = some pi) (hnew : new.offset ≤ pi.offset)
    (hcurr : (before ++ after)[i]? = some curr) :
    pi.offset ≤ curr.offset ↔ before.length ≤ i := by
  constructor
  · intro hle
    by_contra hlt
    rw [List.getElem?_append_left (Nat.lt_of_not_le hlt)] at hcurr
    have hsmall := hbefore curr (List.mem_of_getElem? hcurr)
    omega
  · intro hi
    rw [List.getElem?_append_right hi] at hcurr
    cases after with
    | nil => exact nomatch hpi
    | cons a after =>
      obtain rfl := Option.some.inj hpi
      have hordered := (List.pairwise_append.mp hsorted.ordered).2.1
      cases hk : i - before.length with
      | zero =>
        rw [hk] at hcurr
        obtain rfl := Option.some.inj hcurr
        exact le_rfl
      | succ k =>
        rw [hk] at hcurr
        exact (List.pairwise_cons.mp hordered).1 curr (List.mem_of_getElem? hcurr)

theorem getElem?_insert (before after : List PartInfo) (new : PartInfo) (i : ℕ) :
    (before ++ new :: after)[if before.length ≤ i then i + 1 else i]? = (before ++ after)[i]? := by
  split_ifs with hi
  · rw [List.getElem?_append_right (Nat.le_succ_of_le hi), List.getElem?_append_right hi,
      Nat.succ_sub hi, List.getElem?_cons_succ]
  · rw [List.getElem?_append_left (Nat.lt_of_not_le hi),
      List.getElem?_append_left (Nat.lt_of_not_le hi)]

theorem getElem?_delete (before after : List PartInfo) (part : PartInfo) {i : ℕ}
    (hi : i ≠ before.length) :
    (before ++ after)[if before.length < i then i - 1 else i]? =
      (before ++ part :: after)[i]? := by
  split_ifs with hlt
  · rw [List.getElem?_append_right (by omega), List.getElem?_append_right hlt.le,
      show i - before.length = i - 1 - before.length + 1 by omega, List.getElem?_cons_succ]
  · rw [List.getElem?_append_left (by omega), List.getElem?_append_left (by omega)]

/-- **A deletion.**  The deleted partition has no larger an offset than the current one exactly when
it is in front of it, unless it is behind at the same offset. -/
theorem offset_le_iff_of_delete {before after : List PartInfo} {part curr : PartInfo} {i : ℕ}
    (hsorted : Sorted (before ++ part :: after)) (hi : i ≠ before.length)
    (hcurr : (before ++ part :: after)[i]? = some curr)
    (hother : i < before.length → part.offset ≠ curr.offset) :
    part.offset ≤ curr.offset ↔ before.length < i := by
  obtain ⟨-, hordered, hacross⟩ := List.pairwise_append.mp hsorted.ordered
  constructor
  · intro hle
    by_contra hge
    have hlt : i < before.length := by omega
    rw [List.getElem?_append_left hlt] at hcurr
    have hsmall := hacross curr (List.mem_of_getElem? hcurr) part List.mem_cons_self
    exact hother hlt (by omega)
  · intro hlt
    rw [List.getElem?_append_right hlt.le,
      show i - before.length = i - before.length - 1 + 1 by omega,
      List.getElem?_cons_succ] at hcurr
    exact (List.pairwise_cons.mp hordered).1 curr (List.mem_of_getElem? hcurr)

theorem filter_addr {before after : List PartInfo} {part : PartInfo}
    (hnodup : ((before ++ part :: after).map PartInfo.addr).Nodup) :
    (before ++ part :: after).filter (fun p => p.addr ≠ part.addr) = before ++ after := by
  rw [List.map_append, List.map_cons, List.nodup_append] at hnodup
  obtain ⟨-, hafter, hdisjoint⟩ := hnodup
  rw [List.filter_append, List.filter_cons_of_neg (by simp)]
  congr 1
  · refine List.filter_eq_self.mpr fun p hp => decide_eq_true fun heq => ?_
    exact hdisjoint p.addr (List.mem_map_of_mem hp) part.addr List.mem_cons_self heq
  · refine List.filter_eq_self.mpr fun p hp => decide_eq_true fun heq => ?_
    exact (List.nodup_cons.mp hafter).1 (heq ▸ List.mem_map_of_mem hp)

/-! ## The lists -/

/-- A device of the list. -/
structure DeviceWf (next : ℕ) (dev : MtdDevice) : Prop where
  nonempty : dev.parts ≠ []
  sorted : Sorted dev.parts
  nodup : (dev.parts.map PartInfo.addr).Nodup
  fresh : dev.addr < next
  partsFresh : ∀ part ∈ dev.parts, part.addr < next
  short : dev.parts.length ≤ 256
  num : dev.id.num < 256

/-- The devices, and the current partition among them. -/
structure Wf (s : State) : Prop where
  ids : ∀ id ∈ s.ids, id.num < 256 ∧ id.mtdId.length ≤ 128
  devices : ∀ dev ∈ s.devices, DeviceWf s.next dev
  nodup : (s.devices.map MtdDevice.addr).Nodup
  current : ∀ addr, s.currentDev = some addr →
    ∃ dev ∈ s.devices, dev.addr = addr ∧ s.currentPartnum < dev.parts.length

theorem deviceAt_eq_some {devices : List MtdDevice} (hnodup : (devices.map MtdDevice.addr).Nodup)
    {dev : MtdDevice} (hdev : dev ∈ devices) : deviceAt devices dev.addr = some dev := by
  induction devices with
  | nil => exact absurd hdev List.not_mem_nil
  | cons d devices ih =>
    rw [List.map_cons, List.nodup_cons] at hnodup
    rw [deviceAt, List.find?_cons]
    rcases List.mem_cons.mp hdev with rfl | hmem
    · rw [decide_eq_true rfl]
    · have hne : d.addr ≠ dev.addr := fun heq => hnodup.1 (heq ▸ List.mem_map_of_mem hmem)
      rw [decide_eq_false hne]
      exact ih hnodup.2 hmem

/-- The current partition, with the address of its device. -/
def currentObject (s : State) : Option (ℕ × PartInfo) :=
  s.currentDev.bind fun addr => (currentPart s).map fun part => (addr, part)

theorem currentPart_eq {s : State} (hs : Wf s) {dev : MtdDevice} (hdev : dev ∈ s.devices)
    (hcurrent : s.currentDev = some dev.addr) : currentPart s = dev.parts[s.currentPartnum]? := by
  rw [currentPart, hcurrent, Option.bind_some, deviceAt_eq_some hs.nodup hdev, Option.bind_some]

/-- What the lists are made of. -/
structure SameLists (s t : State) : Prop where
  ids : t.ids = s.ids
  devices : t.devices = s.devices
  currentDev : t.currentDev = s.currentDev
  currentPartnum : t.currentPartnum = s.currentPartnum
  next : t.next = s.next

theorem SameLists.wf {s t : State} (h : SameLists s t) (hs : Wf s) : Wf t := by
  obtain ⟨hids, hdevices, hdev, hnum, hnext⟩ := h
  constructor
  · rw [hids]
    exact hs.ids
  · rw [hdevices, hnext]
    exact hs.devices
  · rw [hdevices]
    exact hs.nodup
  · rw [hdev, hnum, hdevices]
    exact hs.current

theorem SameLists.currentPart_eq {s t : State} (h : SameLists s t) :
    currentPart t = currentPart s := by
  rw [currentPart, currentPart, h.currentDev, h.devices, h.currentPartnum]

theorem SameLists.currentObject_eq {s t : State} (h : SameLists s t) :
    currentObject t = currentObject s := by
  rw [currentObject, currentObject, h.currentPart_eq, h.currentDev]

theorem SameLists.trans {s t r : State} (h : SameLists s t) (h' : SameLists t r) :
    SameLists s r :=
  ⟨h'.ids.trans h.ids, h'.devices.trans h.devices, h'.currentDev.trans h.currentDev,
    h'.currentPartnum.trans h.currentPartnum, h'.next.trans h.next⟩

variable (B : Board)

theorem sameLists_setenv (s : State) (var : EnvVar) (val : List UInt8) :
    SameLists s (setenv B s var val) := by
  rw [setenv]
  split_ifs
  · exact ⟨rfl, rfl, rfl, rfl, rfl⟩
  · exact ⟨rfl, rfl, rfl, rfl, rfl⟩

theorem sameLists_currentSave (s : State) : SameLists s (currentSave B s) := by
  rw [currentSave]
  split
  · exact ⟨(sameLists_setenv B s _ _).ids, (sameLists_setenv B s _ _).devices,
      (sameLists_setenv B s _ _).currentDev, (sameLists_setenv B s _ _).currentPartnum,
      (sameLists_setenv B s _ _).next⟩
  · exact ⟨rfl, rfl, rfl, rfl, rfl⟩

theorem sameLists_generateSave (s : State) : SameLists s (generateSave B s).1 := by
  rw [generateSave]
  split
  · exact ⟨rfl, rfl, rfl, rfl, rfl⟩
  · exact ⟨rfl, rfl, rfl, rfl, rfl⟩
  · next buf _ _ =>
    have hset := sameLists_setenv B { s with lastParts := buf } .mtdparts buf
    exact ⟨hset.ids, hset.devices, hset.currentDev, hset.currentPartnum, hset.next⟩

/-! ## Other partitions at a device -/

/-- A device with other partitions, when it is the one at the address. -/
def withParts (addr : ℕ) (parts : List PartInfo) (dev : MtdDevice) : MtdDevice :=
  if dev.addr = addr then { dev with parts := parts } else dev

theorem withParts_addr (addr : ℕ) (parts : List PartInfo) (dev : MtdDevice) :
    (withParts addr parts dev).addr = dev.addr := by
  rw [withParts]
  split_ifs
  · rfl
  · rfl

theorem setParts_eq_map (devices : List MtdDevice) (addr : ℕ) (parts : List PartInfo) :
    setParts devices addr parts = devices.map (withParts addr parts) := rfl

theorem map_addr_setParts (devices : List MtdDevice) (addr : ℕ) (parts : List PartInfo) :
    (setParts devices addr parts).map MtdDevice.addr = devices.map MtdDevice.addr := by
  rw [setParts_eq_map, List.map_map]
  exact List.map_congr_left fun dev _ => withParts_addr addr parts dev

/-- A state with other partitions at a device. -/
def partsAt (s : State) (addr : ℕ) (parts : List PartInfo) (partnum : ℕ) : State :=
  { s with devices := setParts s.devices addr parts, currentPartnum := partnum }

variable {s : State} {dev : MtdDevice} {parts : List PartInfo} {partnum : ℕ}

theorem eq_of_addr_eq {devices : List MtdDevice} (hnodup : (devices.map MtdDevice.addr).Nodup)
    {d d' : MtdDevice} (hd : d ∈ devices) (hd' : d' ∈ devices) (heq : d.addr = d'.addr) :
    d = d' :=
  List.inj_on_of_nodup_map hnodup hd hd' heq

/-- **Other partitions at a device** keep the lists well formed, when the current partition is one
of them. -/
theorem Wf.partsAt (hs : Wf s) (hdev : dev ∈ s.devices)
    (hwf : DeviceWf s.next { dev with parts := parts })
    (hin : s.currentDev = some dev.addr → partnum < parts.length)
    (hout : s.currentDev ≠ some dev.addr → partnum = s.currentPartnum) :
    Wf (partsAt s dev.addr parts partnum) := by
  refine ⟨hs.ids, fun d hd => ?_, ?_, fun addr haddr => ?_⟩
  · obtain ⟨d', hd', rfl⟩ := List.mem_map.mp hd
    show DeviceWf s.next (if d'.addr = dev.addr then { d' with parts := parts } else d')
    split_ifs with hsame
    · rw [eq_of_addr_eq hs.nodup hd' hdev hsame]
      exact hwf
    · exact hs.devices d' hd'
  · show ((setParts s.devices dev.addr parts).map MtdDevice.addr).Nodup
    rw [map_addr_setParts]
    exact hs.nodup
  · replace haddr : s.currentDev = some addr := haddr
    obtain ⟨d, hd, rfl, hlt⟩ := hs.current addr haddr
    refine ⟨withParts dev.addr parts d, List.mem_map_of_mem hd, withParts_addr _ _ _, ?_⟩
    show partnum < (withParts dev.addr parts d).parts.length
    rw [withParts]
    split_ifs with hsame
    · exact hin (haddr.trans (congrArg some hsame))
    · rw [hout fun heq => hsame (Option.some.inj (haddr.symm.trans heq))]
      exact hlt

theorem currentPart_partsAt (hs : Wf s) (hdev : dev ∈ s.devices)
    (hcurrent : s.currentDev = some dev.addr) :
    currentPart (partsAt s dev.addr parts partnum) = parts[partnum]? := by
  have hmem : withParts dev.addr parts dev ∈ setParts s.devices dev.addr parts :=
    List.mem_map_of_mem hdev
  have hnodup : ((setParts s.devices dev.addr parts).map MtdDevice.addr).Nodup := by
    rw [map_addr_setParts]
    exact hs.nodup
  have hat := deviceAt_eq_some hnodup hmem
  rw [withParts_addr] at hat
  show (s.currentDev.bind fun addr => deviceAt (setParts s.devices dev.addr parts) addr).bind
    (fun dev => dev.parts[partnum]?) = _
  rw [hcurrent, Option.bind_some, hat, Option.bind_some, withParts, if_pos rfl]

theorem currentPart_partsAt_of_ne (hs : Wf s) {addr : ℕ} (hcurrent : s.currentDev = some addr)
    (hne : addr ≠ dev.addr) :
    currentPart (partsAt s dev.addr parts s.currentPartnum) = currentPart s := by
  obtain ⟨d, hd, rfl, -⟩ := hs.current addr hcurrent
  have hmem : withParts dev.addr parts d ∈ setParts s.devices dev.addr parts :=
    List.mem_map_of_mem hd
  have hnodup : ((setParts s.devices dev.addr parts).map MtdDevice.addr).Nodup := by
    rw [map_addr_setParts]
    exact hs.nodup
  have hat := deviceAt_eq_some hnodup hmem
  rw [withParts_addr, withParts, if_neg hne] at hat
  rw [currentPart_eq hs hd hcurrent]
  show (s.currentDev.bind fun addr => deviceAt (setParts s.devices dev.addr parts) addr).bind
    (fun dev => dev.parts[s.currentPartnum]?) = _
  rw [hcurrent, Option.bind_some, hat, Option.bind_some]

theorem currentObject_partsAt_of_ne (hs : Wf s) (hne : s.currentDev ≠ some dev.addr) :
    currentObject (partsAt s dev.addr parts s.currentPartnum) = currentObject s := by
  show (s.currentDev.bind fun addr =>
    (currentPart (partsAt s dev.addr parts s.currentPartnum)).map fun part => (addr, part)) =
      s.currentDev.bind fun addr => (currentPart s).map fun part => (addr, part)
  cases hcurrent : s.currentDev with
  | none => rfl
  | some addr =>
    rw [currentPart_partsAt_of_ne hs hcurrent fun heq => hne (heq ▸ hcurrent)]

theorem currentObject_partsAt (hs : Wf s) (hdev : dev ∈ s.devices)
    (hcurrent : s.currentDev = some dev.addr)
    (hsame : parts[partnum]? = dev.parts[s.currentPartnum]?) :
    currentObject (partsAt s dev.addr parts partnum) = currentObject s := by
  show (s.currentDev.bind fun addr =>
    (currentPart (partsAt s dev.addr parts partnum)).map fun part => (addr, part)) =
      s.currentDev.bind fun addr => (currentPart s).map fun part => (addr, part)
  rw [currentPart_partsAt hs hdev hcurrent, hsame, currentPart_eq hs hdev hcurrent]

/-! ## One partition more or less -/

variable {t : State} {part : PartInfo}

theorem DeviceWf.insert (hs : Wf s) (hdev : dev ∈ s.devices) (hnew : part.addr < s.next)
    (hfresh : part.addr ∉ dev.parts.map PartInfo.addr) (hroom : dev.parts.length < 256)
    {r : List PartInfo × Option PartInfo} (hr : insertSorted part dev.parts = some r) :
    DeviceWf s.next { dev with parts := r.1 } := by
  have hwf := hs.devices dev hdev
  have hperm := insertSorted_perm hr
  refine ⟨fun hnil => ?_, insertSorted_sorted hwf.sorted hr, ?_, hwf.fresh, fun p hp => ?_, ?_,
    hwf.num⟩
  · have hnil' : r.1 = [] := hnil
    rw [hnil'] at hperm
    exact List.cons_ne_nil _ _ (List.nil_perm.mp hperm)
  · refine ((hperm.map PartInfo.addr).nodup_iff).mpr ?_
    exact List.nodup_cons.mpr ⟨hfresh, hwf.nodup⟩
  · rcases List.mem_cons.mp (hperm.mem_iff.mp hp) with rfl | hold
    · exact hnew
    · exact hwf.partsFresh p hold
  · show r.1.length ≤ 256
    rw [hperm.length_eq, List.length_cons]
    exact hroom

/-- **`part_sort_add`** keeps the current partition. -/
theorem Wf.partSortAdd (hs : Wf s) (hdev : dev ∈ s.devices) (hnew : part.addr < s.next)
    (hfresh : part.addr ∉ dev.parts.map PartInfo.addr) (hroom : dev.parts.length < 256)
    (h : partSortAdd B s dev part = some t) :
    Wf t ∧ currentObject t = currentObject s ∧ t.next = s.next := by
  obtain ⟨r, hr, hmade⟩ := Option.map_eq_some_iff.mp h
  have hwf := DeviceWf.insert hs hdev hnew hfresh hroom hr
  have hlen : r.1.length = dev.parts.length + 1 := by
    rw [(insertSorted_perm hr).length_eq, List.length_cons]
  by_cases hcurrent : s.currentDev = some dev.addr
  · obtain ⟨d, hd, haddr, hlt⟩ := hs.current _ hcurrent
    obtain rfl := eq_of_addr_eq hs.nodup hd hdev haddr
    obtain ⟨before, after, hparts, rfl, hbefore, hafter, -⟩ := insertSorted_split hr
    have hcurr : (before ++ after)[s.currentPartnum]? = currentPart s := by
      rw [currentPart_eq hs hdev hcurrent, hparts]
    have hstep : t = currentSave B (Mtd.partsAt s d.addr (before ++ part :: after)
          (s.currentPartnum + 1)) ∧ before.length ≤ s.currentPartnum ∨
        t = Mtd.partsAt s d.addr (before ++ part :: after) s.currentPartnum ∧
          ¬ before.length ≤ s.currentPartnum := by
      rw [if_pos hcurrent] at hmade
      have hget : currentPart s = some d.parts[s.currentPartnum] := by
        rw [currentPart_eq hs hdev hcurrent]
        exact List.getElem?_eq_getElem hlt
      rw [hget] at hmade
      cases hhead : after.head? with
      | none =>
        rw [hhead] at hmade
        refine .inr ⟨hmade.symm, ?_⟩
        rw [List.head?_eq_none_iff.mp hhead, List.append_nil] at hparts
        rw [← hparts]
        exact Nat.not_le_of_lt hlt
      | some pi =>
        have hiff := offset_le_iff_of_insert (hparts ▸ (hs.devices d hdev).sorted) hbefore hhead
          (hafter pi hhead) (hcurr.trans hget)
        rw [hhead] at hmade
        dsimp only at hmade
        split_ifs at hmade with hle
        · refine .inl ⟨?_, hiff.mp hle⟩
          have hshort := (hs.devices d hdev).short
          rw [← hmade, Nat.mod_eq_of_lt (by omega)]
          rfl
        · exact .inr ⟨hmade.symm, fun hi => hle (hiff.mpr hi)⟩
    have hlen' : (before ++ part :: after).length = d.parts.length + 1 := hlen
    have hmoved := getElem?_insert before after part s.currentPartnum
    rcases hstep with ⟨rfl, hi⟩ | ⟨rfl, hi⟩
    · rw [if_pos hi] at hmoved
      have hsave := sameLists_currentSave B (Mtd.partsAt s d.addr (before ++ part :: after)
        (s.currentPartnum + 1))
      refine ⟨hsave.wf (hs.partsAt hdev hwf (fun _ => ?_) fun hne => absurd hcurrent hne), ?_, ?_⟩
      · show s.currentPartnum + 1 < (before ++ part :: after).length
        omega
      · rw [hsave.currentObject_eq]
        exact currentObject_partsAt hs hdev hcurrent (by rw [hmoved, hparts])
      · exact hsave.next
    · rw [if_neg hi] at hmoved
      refine ⟨hs.partsAt hdev hwf (fun _ => ?_) fun _ => rfl, ?_, rfl⟩
      · show s.currentPartnum < (before ++ part :: after).length
        omega
      · exact currentObject_partsAt hs hdev hcurrent (by rw [hmoved, hparts])
  · rw [if_neg hcurrent] at hmade
    obtain rfl := hmade
    exact ⟨hs.partsAt hdev hwf (fun heq => absurd heq hcurrent) fun _ => rfl,
      currentObject_partsAt_of_ne hs hcurrent, rfl⟩

theorem Wf.filterDevices (hs : Wf s) (addr : ℕ) :
    (∀ d ∈ s.devices.filter (fun d => d.addr ≠ addr), DeviceWf s.next d ∧ d ∈ s.devices ∧
      d.addr ≠ addr) ∧
      ((s.devices.filter fun d => d.addr ≠ addr).map MtdDevice.addr).Nodup := by
  refine ⟨fun d hd => ?_, ?_⟩
  · obtain ⟨hmem, hne⟩ := List.mem_filter.mp hd
    exact ⟨hs.devices d hmem, hmem, of_decide_eq_true hne⟩
  · exact hs.nodup.sublist ((List.filter_sublist).map _)

/-- **`device_del`** keeps the current partition of another device. -/
theorem Wf.deviceDel (hs : Wf s) (dev : MtdDevice) :
    Wf (deviceDel B s dev) ∧
      (s.currentDev ≠ some dev.addr → currentObject (deviceDel B s dev) = currentObject s) ∧
      (Mtd.deviceDel B s dev).next = s.next := by
  obtain ⟨hother, hnodup⟩ := hs.filterDevices dev.addr
  by_cases hcurrent : s.currentDev = some dev.addr
  · rw [Mtd.deviceDel, if_pos hcurrent]
    split
    · next hnil =>
      have hsave := sameLists_currentSave B { s with devices := [], currentDev := none }
      refine ⟨hsave.wf ⟨hs.ids, fun d hd => absurd hd List.not_mem_nil, List.nodup_nil,
        fun addr h => (nomatch h)⟩, fun hne => absurd hcurrent hne, hsave.next⟩
    · next first rest hcons =>
      have hsave := sameLists_currentSave B { s with
        devices := first :: rest, currentDev := some first.addr, currentPartnum := 0 }
      rw [hcons] at hother hnodup
      refine ⟨hsave.wf ⟨hs.ids, fun d hd => (hother d hd).1, hnodup, fun addr h => ?_⟩,
        fun hne => absurd hcurrent hne, hsave.next⟩
      obtain rfl := Option.some.inj h
      exact ⟨first, List.mem_cons_self, rfl,
        List.length_pos_of_ne_nil (hother first List.mem_cons_self).1.nonempty⟩
  · have hdel : Mtd.deviceDel B s dev =
        { s with devices := s.devices.filter fun d => d.addr ≠ dev.addr } := if_neg hcurrent
    rw [hdel]
    refine ⟨⟨hs.ids, fun d hd => (hother d hd).1, hnodup, fun addr haddr => ?_⟩, fun _ => ?_, rfl⟩
    · obtain ⟨d, hd, rfl, hlt⟩ := hs.current addr haddr
      have hne : d.addr ≠ dev.addr := fun heq => hcurrent (haddr.trans (congrArg some heq))
      exact ⟨d, List.mem_filter.mpr ⟨hd, decide_eq_true hne⟩, rfl, hlt⟩
    · rcases Option.eq_none_or_eq_some s.currentDev with hnone | ⟨addr, haddr⟩
      · rw [currentObject, currentObject, hnone]
        rfl
      · obtain ⟨d, hd, rfl, hlt⟩ := hs.current addr haddr
        have hne : d.addr ≠ dev.addr := fun heq => hcurrent (haddr.trans (congrArg some heq))
        have hat := deviceAt_eq_some hnodup (List.mem_filter.mpr ⟨hd, decide_eq_true hne⟩)
        have hpart : currentPart { s with devices := s.devices.filter fun d => d.addr ≠ dev.addr } =
            d.parts[s.currentPartnum]? := by
          show (s.currentDev.bind fun addr =>
            deviceAt (s.devices.filter fun d => d.addr ≠ dev.addr) addr).bind
              (fun dev => dev.parts[s.currentPartnum]?) = _
          rw [haddr, Option.bind_some, hat, Option.bind_some]
        rw [currentObject, currentObject, hpart, currentPart_eq hs hd haddr]

/-- What `part_del` must not be called with: a partition behind the current one, at its offset. -/
def DelOk (s : State) (dev : MtdDevice) (part : PartInfo) : Prop :=
  s.currentDev = some dev.addr → ∀ j, s.currentPartnum < j → dev.parts[j]? = some part →
    ∀ curr, currentPart s = some curr → part.offset ≠ curr.offset

theorem DeviceWf.delete {n : ℕ} {before after : List PartInfo} (h : DeviceWf n dev)
    (hparts : dev.parts = before ++ part :: after) (hmany : dev.parts.length ≠ 1) :
    DeviceWf n { dev with parts := before ++ after } := by
  have hsub : (before ++ after).Sublist dev.parts := by
    rw [hparts]
    exact (List.Sublist.refl before).append (List.sublist_cons_self part after)
  have hlen : (before ++ after).length + 1 = dev.parts.length := by
    rw [hparts, List.length_append, List.length_append, List.length_cons]
    omega
  refine ⟨fun hnil => ?_, ⟨h.sorted.ordered.sublist hsub, h.sorted.zero.sublist hsub⟩,
    h.nodup.sublist (hsub.map _), h.fresh, fun p hp => h.partsFresh p (hsub.subset hp),
    hsub.length_le.trans h.short, h.num⟩
  have hnil' : before ++ after = [] := hnil
  rw [hnil'] at hlen
  exact hmany hlen.symm

/-- **`part_del`** keeps the current partition, if it is another one. -/
theorem Wf.partDel (hs : Wf s) (hdev : dev ∈ s.devices) (hpart : part ∈ dev.parts)
    (hok : DelOk s dev part) :
    Wf (partDel B s dev part) ∧
      (∀ cur, currentObject s = some cur → cur ≠ (dev.addr, part) →
        currentObject (partDel B s dev part) = some cur) ∧
      (Mtd.partDel B s dev part).next = s.next := by
  have hwf := hs.devices dev hdev
  have hnum : dev.numParts = dev.parts.length :=
    Nat.mod_eq_of_lt (Nat.lt_of_le_of_lt hwf.short (by decide))
  rw [Mtd.partDel, hnum]
  by_cases hone : dev.parts.length = 1
  · obtain ⟨hdel, hkeep, hnext⟩ := hs.deviceDel B dev
    rw [if_pos hone]
    refine ⟨hdel, fun cur hcur hne => ?_, hnext⟩
    rw [hkeep fun hcurrent => hne ?_, hcur]
    -- the only partition of the device is the current one
    obtain ⟨d, hd, haddr, hlt⟩ := hs.current _ hcurrent
    obtain rfl := eq_of_addr_eq hs.nodup hd hdev haddr
    obtain ⟨only, honly⟩ := List.length_eq_one_iff.mp hone
    rw [honly] at hpart hlt
    have hzero : s.currentPartnum = 0 := Nat.lt_one_iff.mp hlt
    rw [currentObject, currentPart_eq hs hdev hcurrent, hcurrent, hzero, honly] at hcur
    rw [List.mem_singleton.mp hpart]
    exact (Option.some.inj hcur).symm
  · rw [if_neg hone]
    obtain ⟨before, after, hparts⟩ := List.append_of_mem hpart
    have hfilter : dev.parts.filter (fun p => p.addr ≠ part.addr) = before ++ after := by
      rw [hparts]
      exact filter_addr (hparts ▸ hwf.nodup)
    have hleft : DeviceWf s.next { dev with parts := before ++ after } := hwf.delete hparts hone
    rw [hfilter]
    dsimp only
    by_cases hcurrent : s.currentDev = some dev.addr
    · obtain ⟨d, hd, haddr, hlt⟩ := hs.current _ hcurrent
      obtain rfl := eq_of_addr_eq hs.nodup hd hdev haddr
      have hget : currentPart s = some d.parts[s.currentPartnum] := by
        rw [currentPart_eq hs hdev hcurrent]
        exact List.getElem?_eq_getElem hlt
      have hcurr : (before ++ part :: after)[s.currentPartnum]? =
          some d.parts[s.currentPartnum] := by
        rw [← hparts]
        exact List.getElem?_eq_getElem hlt
      rw [if_pos hcurrent, hget]
      dsimp only
      generalize d.parts[s.currentPartnum] = curr at hget hcurr
      by_cases hself : curr.addr = part.addr
      · rw [if_pos hself]
        have hsave := sameLists_currentSave B (Mtd.partsAt s d.addr (before ++ after) 0)
        refine ⟨hsave.wf (hs.partsAt hdev hleft (fun _ => ?_) fun hne => absurd hcurrent hne),
          fun cur hcur hne => absurd ?_ hne, hsave.next⟩
        · exact List.length_pos_of_ne_nil hleft.nonempty
        · rw [currentPart_eq hs hdev hcurrent] at hget
          have heq : curr = part :=
            List.inj_on_of_nodup_map hwf.nodup (List.mem_of_getElem? hget) hpart hself
          rw [currentObject, hcurrent, currentPart_eq hs hdev hcurrent, hget] at hcur
          rw [← Option.some.inj hcur]
          exact congrArg (Prod.mk d.addr) heq
      · rw [if_neg hself]
        have hi : s.currentPartnum ≠ before.length := by
          intro heq
          rw [heq, List.getElem?_append_right le_rfl, Nat.sub_self] at hcurr
          exact hself (congrArg PartInfo.addr (Option.some.inj hcurr)).symm
        have hiff := offset_le_iff_of_delete (hparts ▸ hwf.sorted) hi hcurr fun hbehind =>
          hok hcurrent before.length hbehind (by
            rw [hparts, List.getElem?_append_right le_rfl, Nat.sub_self]
            rfl) curr hget
        have hmoved := getElem?_delete before after part hi
        have hshort := hwf.short
        have hnumber : (if part.offset ≤ curr.offset then (s.currentPartnum + 255) % 2 ^ 8
            else s.currentPartnum) =
              if before.length < s.currentPartnum then s.currentPartnum - 1
              else s.currentPartnum := by
          split_ifs with hle hlt' hlt'
          · omega
          · exact absurd (hiff.mp hle) hlt'
          · exact absurd (hiff.mpr hlt') hle
          · rfl
        rw [hnumber]
        have hsave := sameLists_currentSave B (Mtd.partsAt s d.addr (before ++ after)
          (if before.length < s.currentPartnum then s.currentPartnum - 1 else s.currentPartnum))
        refine ⟨hsave.wf (hs.partsAt hdev hleft (fun _ => ?_) fun hne => absurd hcurrent hne),
          fun cur hcur _ => ?_, hsave.next⟩
        · refine (List.getElem?_eq_some_iff.mp (hmoved.trans hcurr)).1
        · refine (hsave.currentObject_eq).trans (Eq.trans ?_ hcur)
          exact currentObject_partsAt hs hdev hcurrent (by rw [hmoved, hparts])
    · rw [if_neg hcurrent]
      refine ⟨hs.partsAt hdev hleft (fun heq => absurd heq hcurrent) fun _ => rfl,
        fun cur hcur _ => ?_, rfl⟩
      rw [← hcur]
      exact currentObject_partsAt_of_ne hs hcurrent

/-- **`device_add`** keeps the current partition. -/
theorem Wf.deviceAdd (hs : Wf s) (hdev : DeviceWf s.next dev)
    (hnew : dev.addr ∉ s.devices.map MtdDevice.addr) :
    Wf (deviceAdd B s dev) ∧
      (∀ cur, currentObject s = some cur → currentObject (deviceAdd B s dev) = some cur) ∧
      (Mtd.deviceAdd B s dev).next = s.next := by
  rw [Mtd.deviceAdd]
  split_ifs with hnil
  · have hsave := sameLists_currentSave B { s with
      devices := [dev], currentDev := some dev.addr, currentPartnum := 0 }
    refine ⟨hsave.wf ⟨hs.ids, fun d hd => ?_, List.nodup_singleton _, fun addr haddr => ?_⟩,
      fun cur hcur => ?_, hsave.next⟩
    · rw [List.mem_singleton.mp hd]
      exact hdev
    · obtain rfl := Option.some.inj haddr
      exact ⟨dev, List.mem_singleton_self dev, rfl, List.length_pos_of_ne_nil hdev.nonempty⟩
    · -- without a device there is no current partition
      rw [currentObject] at hcur
      obtain ⟨addr, haddr, -⟩ := Option.bind_eq_some_iff.mp hcur
      obtain ⟨d, hd, -⟩ := hs.current addr haddr
      rw [hnil] at hd
      exact absurd hd List.not_mem_nil
  · have hnodup : ((s.devices ++ [dev]).map MtdDevice.addr).Nodup := by
      rw [List.map_append, List.map_singleton]
      refine List.nodup_append.mpr ⟨hs.nodup, List.nodup_singleton _, fun a ha b hb heq => hnew ?_⟩
      rw [← List.mem_singleton.mp hb, ← heq]
      exact ha
    refine ⟨⟨hs.ids, fun d hd => ?_, hnodup, fun addr haddr => ?_⟩, fun cur hcur => ?_, rfl⟩
    · rcases List.mem_append.mp hd with hold | hlast
      · exact hs.devices d hold
      · rw [List.mem_singleton.mp hlast]
        exact hdev
    · obtain ⟨d, hd, hat⟩ := hs.current addr haddr
      exact ⟨d, List.mem_append_left _ hd, hat⟩
    · rcases Option.eq_none_or_eq_some s.currentDev with hnone | ⟨addr, haddr⟩
      · rw [currentObject, hnone] at hcur
        exact nomatch hcur
      · obtain ⟨d, hd, rfl, -⟩ := hs.current addr haddr
        have hat := deviceAt_eq_some hnodup (List.mem_append_left [dev] hd)
        have hpart : currentPart { s with devices := s.devices ++ [dev] } =
            d.parts[s.currentPartnum]? := by
          show (s.currentDev.bind fun addr => deviceAt (s.devices ++ [dev]) addr).bind
            (fun dev => dev.parts[s.currentPartnum]?) = _
          rw [haddr, Option.bind_some, hat, Option.bind_some]
        rw [currentObject, hpart, ← currentPart_eq hs hd haddr]
        exact hcur

end Mtd
end EmevBsp
