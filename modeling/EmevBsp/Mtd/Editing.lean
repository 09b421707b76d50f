import EmevBsp.Mtd.RoundTrip
import EmevBsp.Mtd.Tracking

/-!
# Device lists that are parsed and edited, and their strings

The lists come from strings, and from `mtdparts add` and `mtdparts del`.  In all of them the
partitions of a device were accepted on it and are in order, the devices are different ones, and
each is found under its name.  So the string of a list can be read back; but not always as that
list.
-/

namespace EmevBsp
namespace Mtd

variable (B : Board)

/-- The lists, with the address of the next object. -/
structure Listed (ids : List MtdId) (devices : List MtdDevice) (next : ℕ) : Prop where
  sizes : ∀ id ∈ ids, id.size < 2 ^ 32
  named : ∀ dev ∈ devices, Named B ids dev
  distinct : devices.Pairwise fun dev dev' => ¬ SameDevice dev.id dev'.id
  nodup : (devices.map MtdDevice.addr).Nodup
  partsNodup : ∀ dev ∈ devices, (dev.parts.map PartInfo.addr).Nodup
  fresh : ∀ dev ∈ devices, dev.addr < next
  partsFresh : ∀ dev ∈ devices, ∀ part ∈ dev.parts, part.addr < next

variable {B} {ids : List MtdId} {devices : List MtdDevice} {next : ℕ}

theorem listed_nil (hsizes : ∀ id ∈ ids, id.size < 2 ^ 32) : Listed B ids [] next :=
  ⟨hsizes, fun _ h => absurd h List.not_mem_nil, .nil, .nil, fun _ h => absurd h List.not_mem_nil,
    fun _ h => absurd h List.not_mem_nil, fun _ h => absurd h List.not_mem_nil⟩

theorem Listed.mono (h : Listed B ids devices next) {next' : ℕ} (hle : next ≤ next') :
    Listed B ids devices next' :=
  { h with
    fresh := fun dev hdev => (h.fresh dev hdev).trans_le hle
    partsFresh := fun dev hdev part hpart => (h.partsFresh dev hdev part hpart).trans_le hle }

theorem Listed.sublist (h : Listed B ids devices next) {devices' : List MtdDevice}
    (hsub : devices'.Sublist devices) : Listed B ids devices' next :=
  ⟨h.sizes, fun dev hdev => h.named dev (hsub.subset hdev), h.distinct.sublist hsub,
    h.nodup.sublist (hsub.map _), fun dev hdev => h.partsNodup dev (hsub.subset hdev),
    fun dev hdev => h.fresh dev (hsub.subset hdev),
    fun dev hdev => h.partsFresh dev (hsub.subset hdev)⟩

/-! ## Devices -/

theorem Listed.named_of_deviceParse (h : Listed B ids devices next) {p ret : List UInt8}
    {dev : MtdDevice} {next' : ℕ} {others : List MtdDevice}
    (hparse : deviceParse B ids others next p = some (dev, ret, next')) : Named B ids dev := by
  obtain ⟨hok, hid, -⟩ := deviceParse_spec hparse
  have hfound := List.find?_some hid
  have hname : dev.id.mtdId = p.takeWhile (· ≠ 58) := of_decide_eq_true hfound
  refine ⟨hok, by rw [hname]; exact hid, fun hmem => ?_, h.sizes _ (List.mem_of_find?_eq_some hid)⟩
  rw [hname] at hmem
  have hne := List.mem_takeWhile_imp hmem
  exact of_decide_eq_true hne rfl

theorem Listed.append (h : Listed B ids devices next) {p ret : List UInt8} {dev : MtdDevice}
    {next' : ℕ} {others : List MtdDevice}
    (hparse : deviceParse B ids others next p = some (dev, ret, next'))
    (hnone : deviceFind devices dev.id.type dev.id.num = none) :
    Listed B ids (devices ++ [dev]) next' := by
  have hnamed := h.named_of_deviceParse hparse
  obtain ⟨-, -, haddr, hnodup, hlt, hparts, -⟩ := deviceParse_spec hparse
  have hold := h.mono hlt.le
  have hsplit : ∀ {P : MtdDevice → Prop}, (∀ d ∈ devices, P d) → P dev →
      ∀ d ∈ devices ++ [dev], P d := by
    intro P hall hdev d hd
    rcases List.mem_append.mp hd with hd | hd
    · exact hall d hd
    · rw [List.mem_singleton.mp hd]
      exact hdev
  refine ⟨h.sizes, hsplit h.named hnamed, ?_, ?_, hsplit h.partsNodup hnodup,
    hsplit hold.fresh (haddr.trans_lt hlt), hsplit hold.partsFresh fun q hq => (hparts q hq).2⟩
  · refine List.pairwise_append.mpr ⟨h.distinct, List.pairwise_singleton _ _, fun d hd d' hd' => ?_⟩
    rw [List.mem_singleton.mp hd']
    intro hsame
    exact List.find?_eq_none.mp hnone d hd (decide_eq_true hsame)
  · rw [List.map_append, List.map_singleton, haddr]
    refine List.nodup_append.mpr ⟨h.nodup, List.nodup_singleton _, fun a ha b hb heq => ?_⟩
    obtain ⟨d, hd, rfl⟩ := List.mem_map.mp ha
    rw [List.mem_singleton.mp hb] at heq
    exact absurd (h.fresh d hd) (by omega)

theorem Listed.devicesLoop {fuel : ℕ} {p : List UInt8} {r : List MtdDevice × ℕ}
    (h : Listed B ids devices next) (hr : devicesLoop B ids fuel next devices p = some r) :
    Listed B ids r.1 r.2 := by
  induction fuel generalizing next devices p with
  | zero => cases hr
  | succ fuel ih =>
    rw [Mtd.devicesLoop] at hr
    obtain ⟨⟨dev, ret, next'⟩, hparse, hr⟩ := Option.bind_eq_some_iff.mp hr
    split_ifs at hr with hfound hend
    · obtain rfl := Option.some.inj hr
      exact h.append hparse (Option.not_isSome_iff_eq_none.mp hfound)
    · exact ih (h.append hparse (Option.not_isSome_iff_eq_none.mp hfound)) hr

theorem Listed.setParts (h : Listed B ids devices next) {dev : MtdDevice} (hdev : dev ∈ devices)
    {parts : List PartInfo} (hne : parts ≠ []) (hsorted : Sorted parts)
    (hok : ∀ part ∈ parts, PartOk B dev.id part) (hnodup : (parts.map PartInfo.addr).Nodup)
    (hfresh : ∀ part ∈ parts, part.addr < next) :
    Listed B ids (setParts devices dev.addr parts) next := by
  have hall : ∀ {P : MtdDevice → Prop}, (∀ d ∈ devices, P d) → P { dev with parts := parts } →
      ∀ d ∈ Mtd.setParts devices dev.addr parts, P d := by
    intro P hold hnew d hd
    obtain ⟨d', hd', rfl⟩ := List.mem_map.mp hd
    show P (if d'.addr = dev.addr then { d' with parts := parts } else d')
    split_ifs with hsame
    · rw [eq_of_addr_eq h.nodup hd' hdev hsame]
      exact hnew
    · exact hold d' hd'
  have hnamed := h.named dev hdev
  refine ⟨h.sizes, hall h.named ⟨⟨hne, hsorted, hok⟩, hnamed.found, hnamed.colon, hnamed.size⟩,
    ?_, ?_, hall h.partsNodup hnodup, hall h.fresh (h.fresh dev hdev), hall h.partsFresh hfresh⟩
  · refine List.pairwise_map.mpr (h.distinct.imp fun {d d'} hne => ?_)
    have hid : ∀ d : MtdDevice,
        (if d.addr = dev.addr then { d with parts := parts } else d).id = d.id := by
      intro d
      split_ifs
      · rfl
      · rfl
    rw [hid, hid]
    exact hne
  · rw [map_addr_setParts]
    exact h.nodup

/-! ## One edit -/

theorem Listed.insert (h : Listed B ids devices next) {dev : MtdDevice} (hdev : dev ∈ devices)
    {part : PartInfo} (hok : PartOk B dev.id part) (hnew : part.addr < next)
    (hfresh : part.addr ∉ dev.parts.map PartInfo.addr) {r : List PartInfo × Option PartInfo}
    (hr : insertSorted part dev.parts = some r) :
    Listed B ids (Mtd.setParts devices dev.addr r.1) next := by
  have hperm := insertSorted_perm hr
  have hnamed := h.named dev hdev
  refine h.setParts hdev (fun hnil => ?_) (insertSorted_sorted hnamed.ok.sorted hr)
    (fun p hp => ?_) ?_ fun p hp => ?_
  · rw [hnil] at hperm
    exact List.cons_ne_nil _ _ (List.nil_perm.mp hperm)
  · rcases List.mem_cons.mp (hperm.mem_iff.mp hp) with rfl | hold
    · exact hok
    · exact hnamed.ok.parts p hold
  · exact (hperm.map PartInfo.addr).nodup_iff.mpr
      (List.nodup_cons.mpr ⟨hfresh, h.partsNodup dev hdev⟩)
  · rcases List.mem_cons.mp (hperm.mem_iff.mp hp) with rfl | hold
    · exact hnew
    · exact h.partsFresh dev hdev p hold

theorem Listed.delete (h : Listed B ids devices next) {dev : MtdDevice} (hdev : dev ∈ devices)
    {part : PartInfo} (hpart : part ∈ dev.parts) (hmore : dev.parts.length ≠ 1) :
    Listed B ids
      (Mtd.setParts devices dev.addr (dev.parts.filter fun p => p.addr ≠ part.addr)) next := by
  have hnamed := h.named dev hdev
  have hsub := List.filter_sublist (p := fun p : PartInfo => p.addr ≠ part.addr) (l := dev.parts)
  refine h.setParts hdev ?_
    ⟨hnamed.ok.sorted.ordered.sublist hsub, hnamed.ok.sorted.zero.sublist hsub⟩
    (fun p hp => hnamed.ok.parts p (hsub.subset hp)) ((h.partsNodup dev hdev).sublist (hsub.map _))
    fun p hp => h.partsFresh dev hdev p (hsub.subset hp)
  obtain ⟨before, after, hparts⟩ := List.append_of_mem hpart
  have hfilter : dev.parts.filter (fun p => p.addr ≠ part.addr) = before ++ after := by
    rw [hparts]
    exact filter_addr (hparts ▸ h.partsNodup dev hdev)
  rw [hfilter]
  intro hnil
  obtain ⟨rfl, rfl⟩ := List.append_eq_nil_iff.mp hnil
  rw [hparts] at hmore
  exact hmore rfl

theorem findName_mem {name : List UInt8} {dev : MtdDevice} {pnum : ℕ} {part : PartInfo}
    (h : findName name devices = some (dev, pnum, part)) : dev ∈ devices ∧ part ∈ dev.parts := by
  induction devices with
  | nil => cases h
  | cons d devices ih =>
    rw [findName] at h
    split at h
    · next part' hfind =>
      obtain ⟨rfl, hrest⟩ := Prod.mk.inj (Option.some.inj h)
      obtain ⟨-, rfl⟩ := Prod.mk.inj hrest
      exact ⟨List.mem_cons_self, List.mem_of_find?_eq_some hfind⟩
    · exact (ih h).imp_left (List.mem_cons_of_mem d)

theorem findDevAndPart_mem {s : State} {id : List UInt8} {dev : MtdDevice} {pnum : ℕ}
    {part : PartInfo} (h : findDevAndPart s id = some (dev, pnum, part)) :
    dev ∈ s.devices ∧ part ∈ dev.parts := by
  rw [findDevAndPart] at h
  split at h
  · next r hname =>
    obtain rfl := Option.some.inj h
    exact findName_mem hname
  · split at h
    · cases h
    · split at h
      · dsimp only at h
        split_ifs at h
        obtain ⟨d, hd, h⟩ := Option.bind_eq_some_iff.mp h
        obtain ⟨p, hp, hmade⟩ := Option.map_eq_some_iff.mp h
        obtain ⟨rfl, hrest⟩ := Prod.mk.inj hmade
        obtain ⟨-, rfl⟩ := Prod.mk.inj hrest
        exact ⟨List.mem_of_find?_eq_some hd, List.mem_of_getElem? hp⟩
      · cases h

variable (B) in
/-- The lists of a state. -/
def StateListed (s : State) : Prop := Listed B s.ids s.devices s.next

theorem StateListed.of_same {s t : State} (h : StateListed B s) (hsame : SameLists s t) :
    StateListed B t := by
  rw [StateListed, hsame.ids, hsame.devices, hsame.next]
  exact h

theorem StateListed.currentSave {s : State} (h : StateListed B s) :
    StateListed B (currentSave B s) :=
  h.of_same (sameLists_currentSave B s)

theorem StateListed.parseMtdparts {s : State} (h : StateListed B s) (mtdparts : List UInt8) :
    StateListed B (parseMtdparts B s mtdparts).1 := by
  have hids : (devicesInit B s).ids = s.ids :=
    (sameLists_currentSave B { s with lastParts := [], currentDev := none }).ids
  have hsizes : ∀ id ∈ (devicesInit B s).ids, id.size < 2 ^ 32 := by
    rw [hids]
    exact h.sizes
  rw [Mtd.parseMtdparts]
  split
  · exact listed_nil hsizes
  · next devices next hparse =>
    rw [parseDevices] at hparse
    split_ifs at hparse
    exact Listed.devicesLoop (listed_nil hsizes) hparse

theorem StateListed.deviceDel {s : State} (h : StateListed B s) (dev : MtdDevice) :
    StateListed B (deviceDel B s dev) := by
  have hsub := List.filter_sublist (p := fun d : MtdDevice => d.addr ≠ dev.addr) (l := s.devices)
  rw [Mtd.deviceDel]
  split_ifs
  · split
    · exact StateListed.currentSave (listed_nil h.sizes)
    · next first rest hrest =>
      rw [hrest] at hsub
      exact StateListed.currentSave (Listed.sublist h hsub)
  · exact Listed.sublist h hsub

theorem setParts_ne {dev : MtdDevice} (hdev : dev ∈ devices) {parts : List PartInfo}
    (hne : parts.length ≠ dev.parts.length) : Mtd.setParts devices dev.addr parts ≠ devices := by
  intro heq
  have hsame := List.map_eq_map_iff.mp (heq.trans (List.map_id devices).symm) dev hdev
  rw [if_pos rfl] at hsame
  exact hne (congrArg (fun d : MtdDevice => d.parts.length) hsame)

theorem length_filter_addr_lt {parts : List PartInfo} {part : PartInfo} (hpart : part ∈ parts) :
    (parts.filter fun p => p.addr ≠ part.addr).length < parts.length := by
  refine List.length_filter_lt_length_iff_exists.mpr ⟨part, hpart, ?_⟩
  simp

/-- **`part_del`** takes a partition, or a device, out of the list. -/
theorem StateListed.partDel {s : State} (h : StateListed B s) {dev : MtdDevice} {part : PartInfo}
    (hdev : dev ∈ s.devices) (hpart : part ∈ dev.parts) :
    StateListed B (partDel B s dev part) ∧ (Mtd.partDel B s dev part).ids = s.ids ∧
      (Mtd.partDel B s dev part).devices ≠ s.devices := by
  have hless := setParts_ne hdev (length_filter_addr_lt hpart).ne
  have hfew : s.devices.filter (fun d => d.addr ≠ dev.addr) ≠ s.devices := by
    intro heq
    exact of_decide_eq_true (List.filter_eq_self.mp heq dev hdev) rfl
  rw [Mtd.partDel]
  split_ifs with hone hcurrent
  · refine ⟨h.deviceDel dev, ?_⟩
    rw [Mtd.deviceDel]
    split_ifs
    · split
      · next hnil =>
        have hsame := sameLists_currentSave B { s with devices := [], currentDev := none }
        rw [hnil] at hfew
        exact ⟨hsame.ids, fun heq => hfew (hsame.devices.symm.trans heq)⟩
      · next first rest hrest =>
        have hsame := sameLists_currentSave B { s with
          devices := first :: rest, currentDev := some first.addr, currentPartnum := 0 }
        rw [hrest] at hfew
        exact ⟨hsame.ids, fun heq => hfew (hsame.devices.symm.trans heq)⟩
    · exact ⟨rfl, hfew⟩
  · have hmore : dev.parts.length ≠ 1 := fun heq => hone (congrArg (· % 2 ^ 16) heq)
    split
    · have hlisted := Listed.delete h hdev hpart hmore
      refine ⟨StateListed.currentSave hlisted, (sameLists_currentSave B _).ids, fun heq => ?_⟩
      exact hless ((sameLists_currentSave B _).devices.symm.trans heq)
    · exact ⟨Listed.delete h hdev hpart hmore, rfl, hless⟩
  · have hmore : dev.parts.length ≠ 1 := fun heq => hone (congrArg (· % 2 ^ 16) heq)
    exact ⟨Listed.delete h hdev hpart hmore, rfl, hless⟩

theorem StateListed.deviceAdd {s : State} {dev : MtdDevice}
    (h : Listed B s.ids (s.devices ++ [dev]) s.next) :
    StateListed B (deviceAdd B s dev) ∧ (Mtd.deviceAdd B s dev).ids = s.ids ∧
      (Mtd.deviceAdd B s dev).devices = s.devices ++ [dev] := by
  rw [Mtd.deviceAdd]
  split_ifs with hnil
  · have hsame := sameLists_currentSave B { s with
      devices := [dev], currentDev := some dev.addr, currentPartnum := 0 }
    rw [hnil] at h ⊢
    exact ⟨StateListed.currentSave h, hsame.ids, hsame.devices⟩
  · exact ⟨h, rfl, rfl⟩

theorem StateListed.partSortAdd {s t : State} {dev : MtdDevice} {part : PartInfo}
    (h : ∀ r, insertSorted part dev.parts = some r →
      Listed B s.ids (Mtd.setParts s.devices dev.addr r.1) s.next)
    (ht : partSortAdd B s dev part = some t) :
    ∃ r, insertSorted part dev.parts = some r ∧ StateListed B t ∧ t.ids = s.ids ∧
      t.devices = Mtd.setParts s.devices dev.addr r.1 := by
  obtain ⟨r, hr, rfl⟩ := Option.map_eq_some_iff.mp ht
  refine ⟨r, hr, ?_⟩
  dsimp only
  split_ifs
  · split
    · split_ifs
      · exact ⟨StateListed.currentSave (h r hr), (sameLists_currentSave B _).ids,
          (sameLists_currentSave B _).devices⟩
      · exact ⟨h r hr, rfl, rfl⟩
    · exact ⟨h r hr, rfl, rfl⟩
  · exact ⟨h r hr, rfl, rfl⟩

variable (B) in
/-- An edited list, with the entries it was before. -/
structure EditedTo (s t : State) : Prop where
  listed : StateListed B t
  ids : t.ids = s.ids
  devices : t.devices ≠ s.devices

/-- **`mtdparts del`**: the list is left, or one is made from which the string is made. -/
theorem deletePartition_cases {s : State} (h : StateListed B s) (id : List UInt8) :
    (deletePartition B s id).1 = s ∨
      ∃ t, deletePartition B s id = generateSave B t ∧ EditedTo B s t := by
  rw [deletePartition]
  split
  · exact .inl rfl
  · next dev pnum part hfind =>
    obtain ⟨hdev, hpart⟩ := findDevAndPart_mem hfind
    obtain ⟨hlisted, hids, hdevices⟩ := h.partDel hdev hpart
    exact .inr ⟨_, rfl, hlisted, hids, hdevices⟩

/-- **`mtdparts add`**: the list is left, or one is made from which the string is made. -/
theorem addParts_cases {s : State} (h : StateListed B s) (mtdDev size name : List UInt8)
    (ro : Option (List UInt8)) :
    (∃ next, s.next ≤ next ∧ (addParts B s mtdDev size name ro).1 = { s with next := next }) ∨
      ∃ t, addParts B s mtdDev size name ro = generateSave B t ∧ EditedTo B s t := by
  rw [addParts]
  split
  · exact .inl ⟨s.next, le_rfl, rfl⟩
  · split
    · exact .inl ⟨s.next, le_rfl, rfl⟩
    · split
      · exact .inl ⟨s.next, le_rfl, rfl⟩
      · next dev ret next hdev =>
        obtain ⟨text, -, hdev⟩ := Option.bind_eq_some_iff.mp hdev
        obtain ⟨hok, -, -, -, hlt, hparts, -⟩ := deviceParse_spec hdev
        have hnext : Listed B s.ids s.devices next := h.mono hlt.le
        dsimp only
        split
        · next hnone =>
          refine .inr ⟨_, rfl, ?_⟩
          obtain ⟨hlisted, hids, hdevices⟩ := StateListed.deviceAdd (s := { s with next := next })
            (Listed.append h hdev hnone)
          refine ⟨hlisted, hids, fun heq => ?_⟩
          have hlen := congrArg List.length (hdevices.symm.trans heq)
          rw [List.length_append, List.length_singleton] at hlen
          exact Nat.succ_ne_self _ hlen
        · next devTmp hfind =>
          have hmem : devTmp ∈ s.devices := List.mem_of_find?_eq_some hfind
          split
          · exact .inl ⟨next, hlt.le, rfl⟩
          · next t hadd =>
            refine .inr ⟨t, rfl, ?_⟩
            obtain ⟨p, hp, hadd⟩ := Option.bind_eq_some_iff.mp hadd
            obtain ⟨part, hpart, hadd⟩ := Option.bind_eq_some_iff.mp hadd
            have hpmem : p ∈ dev.parts := List.mem_of_mem_head? hp
            have hpok := hok.parts p hpmem
            have hwrap := hpok.noWrap
            obtain ⟨hpartOk, haddr, -⟩ :=
              partValidate_spec (by omega) (by omega) hpok.name hpart
            have hnew : part.addr ∉ devTmp.parts.map PartInfo.addr := by
              intro hin
              obtain ⟨q, hq, heq⟩ := List.mem_map.mp hin
              have hold := h.partsFresh devTmp hmem q hq
              have hlarge := (hparts p hpmem).1
              omega
            obtain ⟨r, hr, hlisted, hids, hdevices⟩ := StateListed.partSortAdd
              (fun r hr => Listed.insert hnext hmem hpartOk (haddr ▸ (hparts p hpmem).2) hnew hr)
              hadd
            refine ⟨hlisted, hids, fun heq => ?_⟩
            have hlen := (insertSorted_perm hr).length_eq
            refine setParts_ne hmem (fun hsame => ?_) (hdevices.symm.trans heq)
            rw [hlen, List.length_cons] at hsame
            exact Nat.succ_ne_self _ hsame

theorem StateListed.deletePartition {s : State} (h : StateListed B s) (id : List UInt8) :
    StateListed B (deletePartition B s id).1 := by
  rcases deletePartition_cases h id with heq | ⟨t, heq, ht⟩
  · rw [heq]
    exact h
  · rw [heq]
    exact ht.listed.of_same (sameLists_generateSave B t)

theorem StateListed.addParts {s : State} (h : StateListed B s) (mtdDev size name : List UInt8)
    (ro : Option (List UInt8)) : StateListed B (addParts B s mtdDev size name ro).1 := by
  rcases addParts_cases h mtdDev size name ro with ⟨next, hle, heq⟩ | ⟨t, heq, ht⟩
  · rw [heq]
    exact Listed.mono h hle
  · rw [heq]
    exact ht.listed.of_same (sameLists_generateSave B t)

/-! ## Runs -/

/-- What the lists are made by. -/
inductive Edit where
  | parse (mtdparts : List UInt8)
  | add (mtdDev size name : List UInt8) (ro : Option (List UInt8))
  | del (id : List UInt8)

variable (B) in
/-- Parses and edits in any order, with the identifiers of one string. -/
def edits : TransitionSystem State Edit where
  init s := ∃ env inFront mtdids,
    s = (parseMtdids B { initial env with inFront := inFront } mtdids).1
  step s e t :=
    match e with
    | .parse mtdparts => t = (parseMtdparts B s mtdparts).1
    | .add mtdDev size name ro => t = (addParts B s mtdDev size name ro).1
    | .del id => t = (deletePartition B s id).1

theorem listed {s : State} (hs : (edits B).Reachable s) : StateListed B s := by
  refine TransitionSystem.Reachable.invariant ?_ ?_ hs
  · rintro _ ⟨env, inFront, mtdids, rfl⟩
    refine listed_nil (idsLoop_forall (n := mtdids.length) (fun _ _ _ _ _ _ _ => ?_)
      (fun id hid => absurd hid List.not_mem_nil) le_rfl)
    exact Nat.mod_lt _ (by decide)
  · intro s e t hs hst
    cases e with
    | parse mtdparts =>
      obtain rfl := hst
      exact hs.parseMtdparts mtdparts
    | add mtdDev size name ro =>
      obtain rfl := hst
      exact hs.addParts mtdDev size name ro
    | del id =>
      obtain rfl := hst
      exact hs.deletePartition id

/-! ## The round trip -/

/-- A device as the commands show it: its entry among the identifiers, and its partitions. -/
def MtdDevice.desc (dev : MtdDevice) : MtdId × List PartDesc :=
  (dev.id, dev.parts.map PartInfo.desc)

variable (B) in
/-- The string gives the devices again. -/
def RoundTrips (s : State) (text : List UInt8) : Prop :=
  (parseMtdparts B s text).2 = true ∧
    (parseMtdparts B s text).1.devices.map MtdDevice.desc = s.devices.map MtdDevice.desc

theorem map_desc_eq_iff {out : List MtdDevice} (hout : List.Forall₂ TurnedDevice devices out)
    (hsorted : ∀ dev ∈ devices, Sorted dev.parts) :
    out.map MtdDevice.desc = devices.map MtdDevice.desc ↔
      ∀ dev ∈ devices, Palindromic dev.parts := by
  induction hout with
  | nil => exact ⟨fun _ _ h => absurd h List.not_mem_nil, fun _ => rfl⟩
  | cons hdev _ ih =>
    obtain ⟨hfirst, hrest⟩ := List.forall_mem_cons.mp hsorted
    rw [List.map_cons, List.map_cons, List.cons.injEq, ih hrest, List.forall_mem_cons,
      MtdDevice.desc, MtdDevice.desc, Prod.mk.injEq, hdev.2.map_desc_eq_iff hfirst]
    exact and_congr_left fun _ => ⟨And.right, fun h => ⟨hdev.1, h⟩⟩

theorem length_le_partsText (numParts cnt : ℕ) (prevPart : Option PartInfo)
    {parts : List PartInfo} (hpos : ∀ part ∈ parts, 0 < part.size) :
    parts.length ≤ (partsText numParts cnt prevPart parts).length := by
  induction parts generalizing cnt prevPart with
  | nil => exact Nat.zero_le _
  | cons part parts ih =>
    obtain ⟨hpart, hparts⟩ := List.forall_mem_cons.mp hpos
    obtain ⟨c, cp, hcons, -⟩ := memsizeFormat_eq_cons hpart
    have hrest := ih (cnt + 1) (some part) hparts
    rw [partsText, partText, hcons, List.length_append, List.length_cons, List.cons_append,
      List.length_cons]
    omega

theorem length_partsText_le {dev : MtdDevice} (hdev : dev ∈ devices) :
    (partsText dev.numParts 0 none dev.parts).length ≤ (devicesText devices).length := by
  induction devices with
  | nil => exact absurd hdev List.not_mem_nil
  | cons d devices ih =>
    rw [devicesText]
    simp only [List.length_append]
    rcases List.mem_cons.mp hdev with rfl | hmem
    · omega
    · have hle := ih hmem
      omega

theorem parseMtdparts_eq (s : State) (text : List UInt8) :
    ((parseMtdparts B s text).2 = true ↔ (parseDevices B s.ids s.next text).isSome) ∧
      ∀ r, parseDevices B s.ids s.next text = some r →
        (parseMtdparts B s text).1.devices = r.1 := by
  have hsame := sameLists_currentSave B { s with lastParts := [], currentDev := none }
  have hids : (devicesInit B s).ids = s.ids := hsame.ids
  have hnext : (devicesInit B s).next = s.next := hsame.next
  rw [parseMtdparts, hids, hnext]
  cases parseDevices B s.ids s.next text with
  | none => exact ⟨Iff.rfl, fun r hr => absurd hr (by simp)⟩
  | some r =>
    refine ⟨⟨fun _ => rfl, fun _ => rfl⟩, fun r' hr => ?_⟩
    obtain rfl := Option.some.inj hr
    rfl

/-- **When the string gives the list again**: its sizes are taken, and the partitions of each
offset read the same backwards. -/
theorem roundTrips_iff {s : State} (hs : (edits B).Reachable s) {text : List UInt8}
    (hgen : generateMtdparts s.devices 512 = some text) :
    RoundTrips B s text ↔
      s.devices ≠ [] ∧ ∀ dev ∈ s.devices, SizesTaken dev.parts ∧ Palindromic dev.parts := by
  have hlisted := listed hs
  obtain ⟨hok, hdevices⟩ := parseMtdparts_eq (B := B) s text
  rw [RoundTrips, hok]
  by_cases hne : s.devices = []
  · rw [generateMtdparts, if_pos hne] at hgen
    obtain rfl := Option.some.inj hgen
    have hnone : parseDevices B s.ids s.next [] = none := if_neg (by decide)
    rw [hnone]
    exact ⟨fun h => absurd h.1 Bool.false_ne_true, fun h => absurd hne h.1⟩
  · rw [generateMtdparts_eq hne] at hgen
    split_ifs at hgen with hlong
    obtain rfl := Option.some.inj hgen
    have hnum : ∀ dev ∈ s.devices, dev.parts.length < 2 ^ 16 := by
      intro dev hdev
      have hparts := length_le_partsText dev.numParts 0 none
        fun part hpart => ((hlisted.named dev hdev).ok.parts part hpart).size_pos
      have htext := length_partsText_le hdev
      omega
    obtain ⟨htaken, hrefused⟩ :=
      parseDevices_devicesText hne hlisted.named hnum hlisted.distinct s.next
    by_cases hsizes : ∀ dev ∈ s.devices, SizesTaken dev.parts
    · obtain ⟨out, next, hparse, hout⟩ := htaken hsizes
      rw [hdevices _ hparse, hparse,
        map_desc_eq_iff hout fun dev hdev => (hlisted.named dev hdev).ok.sorted]
      exact ⟨fun h => ⟨hne, fun dev hdev => ⟨hsizes dev hdev, h.2 dev hdev⟩⟩,
        fun h => ⟨rfl, fun dev hdev => (h.2 dev hdev).2⟩⟩
    · rw [hrefused hsizes]
      exact ⟨fun h => absurd h.1 Bool.false_ne_true,
        fun h => absurd (fun dev hdev => (h.2 dev hdev).1) hsizes⟩

/-- The list after one string, on the board with NAND devices; `mtdids` is `nand0=a`. -/
def parsed (mtdparts : List UInt8) : State :=
  (parseMtdparts nandBoard (parseMtdids nandBoard (initial fun _ => none)
    [110, 97, 110, 100, 48, 61, 97]).1 mtdparts).1

theorem reachable_parsed (mtdparts : List UInt8) :
    (edits nandBoard).Reachable (parsed mtdparts) :=
  .step (a := .parse mtdparts) (.init ⟨fun _ => none, false, _, rfl⟩) rfl

/-- `a:8k(x),4k@4k(y)ro,4k`, with the second partition inside the first one. -/
def overlapping : List UInt8 := mtdpartsPrefix ++
  [97, 58, 56, 107, 40, 120, 41, 44, 52, 107, 64, 52, 107, 40, 121, 41, 114, 111, 44, 52, 107]

theorem roundTrips_overlapping : RoundTrips nandBoard (parsed overlapping) overlapping := by
  have hdevices : (parsed overlapping).devices = [⟨1, ⟨0, .nand, 0, 2 ^ 20, [97]⟩,
      [⟨2, [120], false, 8192, 0, false⟩, ⟨3, [121], false, 4096, 4096, true⟩,
        ⟨4, generatedName 4096 offsetNotSpecified, true, 4096, 8192, false⟩]⟩] := by
    decide +kernel
  refine (roundTrips_iff (reachable_parsed overlapping) (by decide +kernel)).mpr ?_
  rw [hdevices]
  refine ⟨List.cons_ne_nil _ _, fun dev hdev => ?_⟩
  rw [List.mem_singleton.mp hdev]
  exact ⟨⟨by decide, by decide⟩, palindromic_of_nodup (by decide)⟩

/-- **Two partitions at one offset** change places. -/
theorem not_roundTrips :
    ¬ ∀ B s, (edits B).Reachable s → ∀ text, generateMtdparts s.devices 512 = some text →
      RoundTrips B s text := by
  intro htrip
  have hgen : generateMtdparts (parsed ((twoParts .mtdparts).getD [])).devices 512 =
      some (mtdpartsPrefix ++
        [97, 58, 52, 107, 64, 52, 107, 40, 121, 41, 44, 52, 107, 64, 52, 107, 40, 120, 41]) := by
    decide +kernel
  have hsame := (htrip _ _ (reachable_parsed _) _ hgen).2
  revert hsame
  decide +kernel

end Mtd
end EmevBsp
