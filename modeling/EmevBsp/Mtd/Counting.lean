import EmevBsp.Mtd.Cache

/-!
# The numbers of partitions that the commands keep

Each device has its own count, `num_parts`, beside its list: it is 0 when the device is made,
`part_sort_add` adds one to it and `part_del` takes one away.  It is a `u16`.  The lists do not
need it, except that `part_del` removes the whole device when the count is 1.
-/

namespace EmevBsp
namespace Mtd

/-- The state, and `num_parts` of the device at each address. -/
structure Counted where
  state : State
  num : ℕ → ℕ

/-! ## The counts -/

/-- `num_parts++` -/
def countUp (n : ℕ) : ℕ := (n + 1) % 2 ^ 16

/-- `num_parts--` -/
def countDown (n : ℕ) : ℕ := (n + (2 ^ 16 - 1)) % 2 ^ 16

/-- The count of a new device, after `part_sort_add` of its partitions. -/
def countNew (parts : List PartInfo) : ℕ := parts.foldl (fun n _ => countUp n) 0

/-- The counts of new devices. -/
def numNew (num : ℕ → ℕ) (devices : List MtdDevice) : ℕ → ℕ :=
  devices.foldl (fun num dev => Function.update num dev.addr (countNew dev.parts)) num

variable (B : Board)

/-- `initParts`, on the counts. -/
def numParsed (s : State) (parts : List UInt8) (idsChanged : Bool) (num : ℕ → ℕ) : ℕ → ℕ :=
  if s.lastParts = [] ∨ s.lastParts ≠ parts ∨ idsChanged = true then
    numNew num (parseMtdparts B s parts).1.devices
  else num

/-- `mtdparts_init`, on the counts. -/
def numInit (s : State) (num : ℕ → ℕ) : ℕ → ℕ :=
  let parts := s.env .mtdparts
  match initEnv B s with
  | none => num
  | some (s, ids) =>
    if 128 - 1 < ids.length then num
    else if parts.any fun parts => 512 - 1 < parts.length then num
    else
      let r := initIds B s ids
      if r.2.1 = false then num
      else
        match parts with
        | some parts => numParsed B r.1 parts r.2.2 num
        | none => num

namespace Counted

/-- `mtdparts_init` -/
def init (c : Counted) : Counted × Bool :=
  (⟨(mtdpartsInit B c.state).1, numInit B c.state c.num⟩, (mtdpartsInit B c.state).2)

def partSortAdd (c : Counted) (dev : MtdDevice) (part : PartInfo) : Option Counted :=
  (Mtd.partSortAdd B c.state dev part).map fun s =>
    ⟨s, Function.update c.num dev.addr (countUp (c.num dev.addr))⟩

def partAdd (c : Counted) (dev : MtdDevice) (part : PartInfo) : Option Counted :=
  (partValidate B dev.id part).bind fun part => c.partSortAdd B dev part

/-- `part_del`, of one partition of several. -/
def partDelOne (c : Counted) (dev : MtdDevice) (part : PartInfo) : Counted :=
  let s := c.state
  let devices := setParts s.devices dev.addr (dev.parts.filter fun p => p.addr ≠ part.addr)
  let num := Function.update c.num dev.addr (countDown (c.num dev.addr))
  if s.currentDev = some dev.addr then
    match currentPart s with
    | some curr =>
      let partnum :=
        if curr.addr = part.addr then 0
        else if part.offset ≤ curr.offset then (s.currentPartnum + 255) % 2 ^ 8
        else s.currentPartnum
      ⟨currentSave B { s with devices := devices, currentPartnum := partnum }, num⟩
    | none => ⟨{ s with devices := devices }, num⟩
  else ⟨{ s with devices := devices }, num⟩

def partDel (c : Counted) (dev : MtdDevice) (part : PartInfo) : Counted :=
  if c.num dev.addr = 1 then ⟨deviceDel B c.state dev, c.num⟩ else c.partDelOne B dev part

/-- `generate_mtdparts_save` -/
def generateSave (c : Counted) : Counted × Bool :=
  (⟨(Mtd.generateSave B c.state).1, c.num⟩, (Mtd.generateSave B c.state).2)

/-- `mtdparts add`, behind `mtdparts_init`. -/
def addParts (c : Counted) (mtdDev size name : List UInt8) (ro : Option (List UInt8)) :
    Counted × Bool :=
  match idParse mtdDev with
  | none => (c, false)
  | some (type, num, _) =>
    match idFind c.state.ids type num with
    | none => (c, false)
    | some id =>
      match (addText id.mtdId size name ro).bind
        (deviceParse B c.state.ids c.state.devices c.state.next) with
      | none => (c, false)
      | some (dev, _, next) =>
        let c : Counted :=
          ⟨{ c.state with next := next }, Function.update c.num dev.addr (countNew dev.parts)⟩
        match deviceFind c.state.devices dev.id.type dev.id.num with
        | none => generateSave B ⟨deviceAdd B c.state dev, c.num⟩
        | some devTmp =>
          match dev.parts.head?.bind (c.partAdd B devTmp) with
          | none => (c, false)
          | some c => c.generateSave B

def deletePartition (c : Counted) (id : List UInt8) : Counted × Bool :=
  match findDevAndPart c.state id with
  | none => (c, false)
  | some (dev, _, part) => (c.partDel B dev part).generateSave B

/-- One action. -/
def act (c : Counted) : Action → Counted
  | .setenv var val => ⟨setenv B c.state var val, c.num⟩
  | .unsetenv var => ⟨unsetenv c.state var, c.num⟩
  | .list => (c.init B).1
  | .command (.add mtdDev size name ro) =>
    if (c.init B).2 then ((c.init B).1.addParts B mtdDev size name ro).1 else (c.init B).1
  | .command (.del id) =>
    if (c.init B).2 then ((c.init B).1.deletePartition B id).1 else (c.init B).1
  | .command (.chpart id) => ⟨(chpart B c.state id).1, numInit B c.state c.num⟩
  | .delall => ⟨(delall B c.state).1, numInit B c.state c.num⟩
  | .default =>
    init B ⟨unsetenv (setDefault B (setDefault B c.state .mtdids B.mtdidsDefault) .mtdparts
      B.mtdpartsDefault) .partition, c.num⟩ |>.1

end Counted

/-- The actions in any order, from any environment. -/
def countedSession : TransitionSystem Counted Action where
  init c := ∃ env inFront num, c = ⟨{ initial env with inFront := inFront }, num⟩
  step c a d := d = c.act B a

/-! ## Counting -/

theorem countUp_mod (n : ℕ) : countUp (n % 2 ^ 16) = (n + 1) % 2 ^ 16 := by
  rw [countUp, Nat.mod_add_mod]

theorem foldl_countUp (parts : List PartInfo) (n : ℕ) :
    parts.foldl (fun n _ => countUp n) (n % 2 ^ 16) = (n + parts.length) % 2 ^ 16 := by
  induction parts generalizing n with
  | nil => rfl
  | cons part parts ih =>
    rw [List.foldl_cons, countUp_mod, ih, List.length_cons]
    congr 1
    omega

theorem countNew_eq (parts : List PartInfo) : countNew parts = parts.length % 2 ^ 16 := by
  have h := foldl_countUp parts 0
  rwa [Nat.zero_mod, Nat.zero_add] at h

theorem countDown_mod (n : ℕ) : countDown ((n + 1) % 2 ^ 16) = n % 2 ^ 16 := by
  rw [countDown]
  omega

theorem numNew_apply {devices : List MtdDevice} (hnodup : (devices.map MtdDevice.addr).Nodup)
    (num : ℕ → ℕ) {dev : MtdDevice} (hdev : dev ∈ devices) :
    numNew num devices dev.addr = countNew dev.parts := by
  have hother : ∀ (devices : List MtdDevice) (num : ℕ → ℕ) (addr : ℕ),
      addr ∉ devices.map MtdDevice.addr → numNew num devices addr = num addr := by
    intro devices
    induction devices with
    | nil => exact fun _ _ _ => rfl
    | cons d devices ih =>
      intro num addr hnot
      rw [List.map_cons, List.mem_cons, not_or] at hnot
      exact (ih _ addr hnot.2).trans (Function.update_of_ne hnot.1 _ _)
  induction devices generalizing num with
  | nil => exact absurd hdev List.not_mem_nil
  | cons d devices ih =>
    rw [List.map_cons, List.nodup_cons] at hnodup
    rcases List.mem_cons.mp hdev with rfl | hmem
    · exact (hother devices _ _ hnodup.1).trans (Function.update_self _ _ _)
    · exact ih hnodup.2 _ hmem

/-! ## The lists with their counts -/

/-- The entry has the size of its device. -/
def Sized (id : MtdId) : Prop :=
  ∃ size, deviceValidate B id.type id.num = some size ∧ id.size = size % 2 ^ 32

/-- The counts are the lengths of the lists, modulo 2^16. -/
def Agrees (devices : List MtdDevice) (num : ℕ → ℕ) : Prop :=
  ∀ dev ∈ devices, num dev.addr = dev.parts.length % 2 ^ 16

/-- What holds of the lists and the counts. -/
structure Good (c : Counted) : Prop where
  listed : StateListed B c.state
  agrees : Agrees c.state.devices c.num
  sized : ∀ id ∈ c.state.ids, Sized B id

variable {B} {c : Counted}

theorem Sized.size_lt {id : MtdId} (h : Sized B id) : id.size < 2 ^ 32 := by
  obtain ⟨size, -, hsize⟩ := h
  rw [hsize]
  exact Nat.mod_lt _ (by decide)

theorem Good.of_lists {s t : State} {num : ℕ → ℕ} (h : Good B ⟨s, num⟩) (hids : t.ids = s.ids)
    (hdevices : t.devices = s.devices) (hnext : t.next = s.next) : Good B ⟨t, num⟩ := by
  refine ⟨?_, ?_, ?_⟩
  · show Listed B t.ids t.devices t.next
    rw [hids, hdevices, hnext]
    exact h.listed
  · show Agrees t.devices num
    rw [hdevices]
    exact h.agrees
  · show ∀ id ∈ t.ids, Sized B id
    rw [hids]
    exact h.sized

theorem Good.of_same {s t : State} {num : ℕ → ℕ} (h : Good B ⟨s, num⟩) (hsame : SameLists s t) :
    Good B ⟨t, num⟩ :=
  h.of_lists hsame.ids hsame.devices hsame.next

theorem Good.currentSave {s : State} {num : ℕ → ℕ} (h : Good B ⟨s, num⟩) :
    Good B ⟨currentSave B s, num⟩ :=
  h.of_same (sameLists_currentSave B s)

theorem good_of_nil {s : State} (hsized : ∀ id ∈ s.ids, Sized B id) (hnil : s.devices = [])
    (num : ℕ → ℕ) : Good B ⟨s, num⟩ := by
  refine ⟨?_, ?_, hsized⟩
  · show Listed B s.ids s.devices s.next
    rw [hnil]
    exact listed_nil fun id hid => (hsized id hid).size_lt
  · show Agrees s.devices num
    rw [hnil]
    exact fun dev hdev => absurd hdev List.not_mem_nil

theorem good_devicesInit {s : State} (hsized : ∀ id ∈ s.ids, Sized B id) (num : ℕ → ℕ) :
    Good B ⟨devicesInit B s, num⟩ := by
  refine good_of_nil ?_ rfl num
  show ∀ id ∈ (Mtd.currentSave B { s with lastParts := [], currentDev := none }).ids, Sized B id
  rw [(sameLists_currentSave B _).ids]
  exact hsized

/-! ## `mtdparts_init` -/

theorem sized_idsLoop {fuel addr : ℕ} {ids : List MtdId} {p : List UInt8}
    (hids : ∀ id ∈ ids, Sized B id) : ∀ id ∈ (idsLoop B fuel addr ids p).1, Sized B id := by
  have hnone : ∀ id ∈ ([] : List MtdId), Sized B id := fun id hid => absurd hid List.not_mem_nil
  induction fuel generalizing addr ids p with
  | zero => exact hnone
  | succ fuel ih =>
    rw [idsLoop]
    split
    · exact hnone
    · next type num p' _ =>
      split
      · next mtdId _ =>
        split
        · exact hids
        · next size hsize =>
          have hmore : ∀ id ∈ ids ++
              [⟨addr, type, num, size % 2 ^ 32, mtdId.takeWhile (· ≠ 44)⟩], Sized B id := by
            intro id hid
            rcases List.mem_append.mp hid with hold | hlast
            · exact hids id hold
            · obtain rfl := List.mem_singleton.mp hlast
              exact ⟨size, hsize, rfl⟩
          split_ifs
          · exact hnone
          · dsimp only
            split
            · exact hmore
            · split_ifs
              · exact hmore
              · exact ih hmore
      · exact hnone

theorem initIds_cases (s : State) (ids : List UInt8) :
    initIds B s ids = (s, true, false) ∨
      (∃ t, initIds B s ids = (t, true, true) ∧ (∀ id ∈ t.ids, Sized B id) ∧
        t.lastParts = s.lastParts ∧ t.devices = s.devices) ∨
      ∃ t, initIds B s ids = (devicesInit B t, false, true) ∧ ∀ id ∈ t.ids, Sized B id := by
  have hsized : ∀ id ∈ (parseMtdids B s ids).1.ids, Sized B id :=
    sized_idsLoop fun id hid => absurd hid List.not_mem_nil
  rw [initIds]
  split_ifs with hlast
  · exact .inl rfl
  · dsimp only
    split_ifs with hok
    · exact .inr (.inl ⟨_, rfl, hsized, rfl, rfl⟩)
    · exact .inr (.inr ⟨_, rfl, hsized⟩)

variable (B) in
/-- **The devices lose their entries**: other identifiers are parsed while no string describes the
devices that there are, so that they are kept. -/
def Dangles (s : State) : Prop :=
  s.devices ≠ [] ∧ s.env .mtdparts = none ∧ s.lastParts = [] ∧
    ∃ t ids, initEnv B s = some (t, ids) ∧ ids.length < 128 ∧ (initIds B t ids).2 = (true, true)

theorem sameList_of_initEnv {s t : State} {ids : List UInt8} (h : initEnv B s = some (t, ids)) :
    SameList s t ∧ SameLists s t := by
  rw [initEnv] at h
  split at h
  · obtain ⟨rfl, -⟩ := Prod.mk.inj (Option.some.inj h)
    exact ⟨SameList.refl s, rfl, rfl, rfl, rfl, rfl⟩
  · obtain ⟨rfl, -⟩ := Prod.mk.inj (Option.some.inj h)
    exact ⟨sameList_setenv s (by decide) _, sameLists_setenv B s _ _⟩
  · cases h

theorem good_parseMtdparts {s : State} (hsized : ∀ id ∈ s.ids, Sized B id) (parts : List UInt8)
    (num : ℕ → ℕ) :
    Good B ⟨(parseMtdparts B s parts).1, numNew num (parseMtdparts B s parts).1.devices⟩ := by
  have hinit := good_devicesInit hsized num
  have hlisted : StateListed B (parseMtdparts B s parts).1 := by
    rw [parseMtdparts]
    split
    · exact hinit.listed
    · next devices next hparse =>
      rw [parseDevices] at hparse
      split_ifs at hparse
      exact Listed.devicesLoop (listed_nil hinit.listed.sizes) hparse
  refine ⟨hlisted, fun dev hdev => ?_, ?_⟩
  · exact (numNew_apply hlisted.nodup num hdev).trans (countNew_eq dev.parts)
  · have hids : (parseMtdparts B s parts).1.ids = (devicesInit B s).ids := by
      rw [parseMtdparts]
      split
      · rfl
      · rfl
    show ∀ id ∈ (parseMtdparts B s parts).1.ids, Sized B id
    rw [hids]
    exact hinit.sized

theorem good_initParts {s : State} (hsized : ∀ id ∈ s.ids, Sized B id) (changed : Bool)
    {num : ℕ → ℕ} (hs : changed = false → Good B ⟨s, num⟩) (parts : List UInt8) :
    Good B ⟨(initParts B s parts changed).1, numParsed B s parts changed num⟩ := by
  rw [initParts, numParsed]
  split_ifs with hparse
  · have hgood := good_parseMtdparts hsized parts num
    dsimp only
    split_ifs
    · split
      · exact hgood
      · exact Good.currentSave (hgood.of_lists rfl rfl rfl)
    · exact hgood
  · have hsame := not_or.mp (not_or.mp hparse).2
    exact hs (Bool.of_not_eq_true hsame.2)

theorem good_initPartition {s : State} {num : ℕ → ℕ} (h : Good B ⟨s, num⟩) (tmpEp : List UInt8) :
    Good B ⟨initPartition B s tmpEp, num⟩ := by
  rw [initPartition]
  split_ifs
  · split
    · next dev pnum part _ =>
      have hsame : Good B ⟨{ s with currentDev := some dev.addr, currentPartnum := pnum }, num⟩ :=
        ⟨h.listed, h.agrees, h.sized⟩
      exact hsame.currentSave
    · exact h
  · exact h.currentSave
  · exact h

/-- **`mtdparts_init`** keeps the lists and the counts. -/
theorem Good.init (h : Good B c) (hok : ¬Dangles B c.state) : Good B (c.init B).1 := by
  show Good B ⟨(mtdpartsInit B c.state).1, numInit B c.state c.num⟩
  rw [mtdpartsInit, numInit]
  dsimp only
  cases henv : initEnv B c.state with
  | none => exact h
  | some r =>
    obtain ⟨s, ids⟩ := r
    obtain ⟨hlist, hlists⟩ := sameList_of_initEnv henv
    have hs := h.of_same hlists
    dsimp only
    by_cases hlong : 128 - 1 < ids.length
    · rw [if_pos hlong, if_pos hlong]
      exact hs
    by_cases hlong' : ((c.state.env .mtdparts).any fun parts => 512 - 1 < parts.length) = true
    · rw [if_neg hlong, if_neg hlong, if_pos hlong', if_pos hlong']
      exact hs
    rw [if_neg hlong, if_neg hlong, if_neg hlong', if_neg hlong']
    rcases initIds_cases (B := B) s ids with heq | ⟨t, heq, hsized, hlast, hdevices⟩ |
        ⟨t, heq, hsized⟩
    · have hinit (parts : List UInt8) := good_initParts hs.sized false (fun _ => hs) parts
      rw [heq]
      cases hparts : c.state.env .mtdparts with
      | some parts =>
        have hgood := hinit parts
        simp only [Bool.true_eq_false, if_false]
        split_ifs
        · exact good_initPartition hgood _
        · exact hgood
      | none =>
        simp only [Bool.true_eq_false, if_false]
        split_ifs
        · exact good_devicesInit hs.sized _
        · exact hs
    · rw [heq]
      cases hparts : c.state.env .mtdparts with
      | some parts =>
        have hgood : Good B ⟨_, numParsed B t parts true c.num⟩ :=
          good_initParts hsized true (fun hchanged => absurd hchanged (by simp)) parts
        simp only [Bool.true_eq_false, if_false]
        split_ifs
        · exact good_initPartition hgood _
        · exact hgood
      | none =>
        simp only [Bool.true_eq_false, if_false]
        split_ifs with hcopy
        · exact good_devicesInit hsized _
        · -- no devices were there, as they would lose their entries
          have hempty : c.state.lastParts = [] :=
            hlist.lastParts.symm.trans (hlast.symm.trans (not_not.mp hcopy))
          refine good_of_nil hsized ?_ _
          rw [hdevices, hlist.devices]
          by_contra hne
          exact hok ⟨hne, hparts, hempty, s, ids, henv, by omega, by rw [heq]⟩
    · rw [heq]
      exact good_devicesInit hsized c.num

/-! ## Edits -/

theorem Agrees.setParts {devices : List MtdDevice} {num : ℕ → ℕ} (h : Agrees devices num)
    (addr : ℕ) {parts : List PartInfo} {n : ℕ} (hn : n = parts.length % 2 ^ 16) :
    Agrees (setParts devices addr parts) (Function.update num addr n) := by
  intro d hd
  obtain ⟨d', hd', rfl⟩ := List.mem_map.mp hd
  by_cases hsame : d'.addr = addr
  · rw [if_pos hsame]
    show Function.update num addr n d'.addr = _
    rw [hsame, Function.update_self, hn]
  · rw [if_neg hsame, Function.update_of_ne hsame]
    exact h d' hd'

theorem Agrees.update {devices : List MtdDevice} {num : ℕ → ℕ} (h : Agrees devices num)
    {addr : ℕ} (hfresh : ∀ dev ∈ devices, dev.addr ≠ addr) (n : ℕ) :
    Agrees devices (Function.update num addr n) := fun dev hdev => by
  rw [Function.update_of_ne (hfresh dev hdev)]
  exact h dev hdev

theorem Agrees.subset {devices devices' : List MtdDevice} {num : ℕ → ℕ} (h : Agrees devices num)
    (hsub : devices' ⊆ devices) : Agrees devices' num :=
  fun dev hdev => h dev (hsub hdev)

variable {s t : State} {dev : MtdDevice} {part : PartInfo}

theorem devices_partSortAdd (h : partSortAdd B s dev part = some t) :
    ∃ r, insertSorted part dev.parts = some r ∧ t.devices = setParts s.devices dev.addr r.1 := by
  obtain ⟨r, hr, rfl⟩ := Option.map_eq_some_iff.mp h
  refine ⟨r, hr, ?_⟩
  dsimp only
  split_ifs
  · split
    · split_ifs
      · exact (sameLists_currentSave B _).devices
      · rfl
    · rfl
  · rfl

theorem devices_deviceDel : (deviceDel B s dev).devices ⊆ s.devices := by
  have hsub : s.devices.filter (fun d : MtdDevice => d.addr ≠ dev.addr) ⊆ s.devices :=
    List.filter_subset_self s.devices
  rw [deviceDel]
  split_ifs
  · split
    · rw [(sameLists_currentSave B _).devices]
      exact List.nil_subset _
    · next first rest hrest =>
      rw [(sameLists_currentSave B _).devices, ← hrest]
      exact hsub
  · exact hsub

theorem devices_deviceAdd : (deviceAdd B s dev).devices = s.devices ++ [dev] := by
  rw [deviceAdd]
  split_ifs with hnil
  · rw [(sameLists_currentSave B _).devices, hnil, List.nil_append]
  · rfl

/-- **`mtdparts add`** inserts as without the counts, and keeps them. -/
theorem Good.addParts_agrees (h : Good B c) (mtdDev size name : List UInt8)
    (ro : Option (List UInt8)) :
    (c.addParts B mtdDev size name ro).1.state = (addParts B c.state mtdDev size name ro).1 ∧
      Agrees (c.addParts B mtdDev size name ro).1.state.devices
        (c.addParts B mtdDev size name ro).1.num := by
  rw [Counted.addParts, addParts]
  cases idParse mtdDev with
  | none => exact ⟨rfl, h.agrees⟩
  | some r =>
    obtain ⟨type, num, rest⟩ := r
    dsimp only
    cases idFind c.state.ids type num with
    | none => exact ⟨rfl, h.agrees⟩
    | some id =>
      dsimp only
      cases hparse : (addText id.mtdId size name ro).bind
        (deviceParse B c.state.ids c.state.devices c.state.next) with
      | none => exact ⟨rfl, h.agrees⟩
      | some r =>
        obtain ⟨dev, ret, next⟩ := r
        obtain ⟨text, -, hdev⟩ := Option.bind_eq_some_iff.mp hparse
        obtain ⟨-, -, haddr, -⟩ := deviceParse_spec hdev
        have hfresh : ∀ d ∈ c.state.devices, d.addr ≠ dev.addr := by
          intro d hd
          rw [haddr]
          exact (h.listed.fresh d hd).ne
        have hagrees := h.agrees.update hfresh (countNew dev.parts)
        dsimp only
        cases hfind : deviceFind c.state.devices dev.id.type dev.id.num with
        | none =>
          refine ⟨rfl, ?_⟩
          show Agrees (generateSave B (deviceAdd B { c.state with next := next } dev)).1.devices
            (Function.update c.num dev.addr (countNew dev.parts))
          rw [(sameLists_generateSave B _).devices, devices_deviceAdd]
          intro d hd
          rcases List.mem_append.mp hd with hd | hd
          · exact hagrees d hd
          · rw [List.mem_singleton.mp hd, Function.update_self, countNew_eq]
        | some devTmp =>
          dsimp only
          cases hhead : dev.parts.head? with
          | none => exact ⟨rfl, hagrees⟩
          | some part =>
            rw [Option.bind_some, Option.bind_some, Counted.partAdd, partAdd]
            cases partValidate B devTmp.id part with
            | none => exact ⟨rfl, hagrees⟩
            | some part =>
              rw [Option.bind_some, Option.bind_some, Counted.partSortAdd]
              dsimp only
              cases hadd : partSortAdd B { c.state with next := next } devTmp part with
              | none => exact ⟨rfl, hagrees⟩
              | some t =>
                refine ⟨rfl, ?_⟩
                show Agrees (generateSave B t).1.devices _
                obtain ⟨r, hr, hdevices⟩ := devices_partSortAdd hadd
                have hlen := (insertSorted_perm hr).length_eq
                rw [(sameLists_generateSave B t).devices, hdevices]
                refine hagrees.setParts devTmp.addr ?_
                rw [hagrees devTmp (List.mem_of_find?_eq_some hfind), countUp_mod, hlen,
                  List.length_cons]

theorem partDel_eq (c : Counted) (dev : MtdDevice) (part : PartInfo) :
    partDel B c.state dev part =
      if dev.numParts = 1 then deviceDel B c.state dev else (c.partDelOne B dev part).state := by
  rw [partDel, Counted.partDelOne]
  dsimp only
  split_ifs
  · rfl
  · cases currentPart c.state with
    | none => rfl
    | some curr => rfl
  · rfl

theorem partDelOne_num (c : Counted) (dev : MtdDevice) (part : PartInfo) :
    (c.partDelOne B dev part).num =
      Function.update c.num dev.addr (countDown (c.num dev.addr)) := by
  rw [Counted.partDelOne]
  dsimp only
  split_ifs
  · cases currentPart c.state with
    | none => rfl
    | some curr => rfl
  · rfl

theorem partDelOne_devices (c : Counted) (dev : MtdDevice) (part : PartInfo) :
    (c.partDelOne B dev part).state.devices =
      setParts c.state.devices dev.addr (dev.parts.filter fun p => p.addr ≠ part.addr) := by
  rw [Counted.partDelOne]
  dsimp only
  split_ifs
  · cases currentPart c.state with
    | none => rfl
    | some curr => exact (sameLists_currentSave B _).devices
  · rfl

/-- **`mtdparts del`** deletes as without the counts, and keeps them. -/
theorem Good.deletePartition_agrees (h : Good B c) (id : List UInt8) :
    (c.deletePartition B id).1.state = (deletePartition B c.state id).1 ∧
      Agrees (c.deletePartition B id).1.state.devices (c.deletePartition B id).1.num := by
  rw [Counted.deletePartition, deletePartition]
  cases hfind : findDevAndPart c.state id with
  | none => exact ⟨rfl, h.agrees⟩
  | some r =>
    obtain ⟨dev, pnum, part⟩ := r
    obtain ⟨hdev, hpart⟩ := findDevAndPart_mem hfind
    have hnum : c.num dev.addr = dev.numParts := h.agrees dev hdev
    dsimp only
    rw [Counted.partDel, hnum, partDel_eq]
    split_ifs with hone
    · refine ⟨rfl, ?_⟩
      show Agrees (generateSave B (deviceDel B c.state dev)).1.devices c.num
      rw [(sameLists_generateSave B _).devices]
      exact h.agrees.subset devices_deviceDel
    · refine ⟨rfl, ?_⟩
      show Agrees (generateSave B (c.partDelOne B dev part).state).1.devices
        (c.partDelOne B dev part).num
      obtain ⟨before, after, hparts⟩ := List.append_of_mem hpart
      have hnodup := h.listed.partsNodup dev hdev
      rw [(sameLists_generateSave B _).devices, partDelOne_devices, partDelOne_num]
      refine h.agrees.setParts dev.addr ?_
      rw [hparts] at hnodup
      rw [h.agrees dev hdev, hparts, filter_addr hnodup, List.length_append, List.length_append,
        List.length_cons, ← Nat.add_assoc, countDown_mod]

/-! ## One action -/

variable (B) in
/-- The state on which an action runs `mtdparts_init`. -/
def initState (s : State) : Action → Option State
  | .setenv _ _ => none
  | .unsetenv _ => none
  | .default => some (unsetenv (setDefault B (setDefault B s .mtdids B.mtdidsDefault) .mtdparts
      B.mtdpartsDefault) .partition)
  | _ => some s

theorem sameLists_setDefault (s : State) (var : EnvVar) (val : Option (List UInt8)) :
    SameLists s (setDefault B s var val) := by
  cases val with
  | none => exact ⟨rfl, rfl, rfl, rfl, rfl⟩
  | some val => exact sameLists_setenv B s var val

theorem sameLists_unsetenv (s : State) (var : EnvVar) : SameLists s (unsetenv s var) :=
  ⟨rfl, rfl, rfl, rfl, rfl⟩

theorem Good.of_erased {d : Counted} {s : State} (hstate : d.state = s) (hlisted : StateListed B s)
    (hagrees : Agrees d.state.devices d.num) (hsized : ∀ id ∈ s.ids, Sized B id) : Good B d := by
  subst hstate
  exact ⟨hlisted, hagrees, hsized⟩

theorem Good.addParts (h : Good B c) (mtdDev size name : List UInt8) (ro : Option (List UInt8)) :
    Good B (c.addParts B mtdDev size name ro).1 := by
  obtain ⟨hstate, hagrees⟩ := h.addParts_agrees mtdDev size name ro
  refine Good.of_erased hstate (h.listed.addParts mtdDev size name ro) hagrees ?_
  rcases addParts_cases h.listed mtdDev size name ro with ⟨next, -, heq⟩ | ⟨t, heq, ht⟩
  · rw [heq]
    exact h.sized
  · rw [heq, (sameLists_generateSave B t).ids, ht.ids]
    exact h.sized

theorem Good.deletePartition (h : Good B c) (id : List UInt8) :
    Good B (c.deletePartition B id).1 := by
  obtain ⟨hstate, hagrees⟩ := h.deletePartition_agrees id
  refine Good.of_erased hstate (h.listed.deletePartition id) hagrees ?_
  rcases deletePartition_cases h.listed id with heq | ⟨t, heq, ht⟩
  · rw [heq]
    exact h.sized
  · rw [heq, (sameLists_generateSave B t).ids, ht.ids]
    exact h.sized

theorem Good.act (h : Good B c) {a : Action}
    (hok : ∀ s, initState B c.state a = some s → ¬Dangles B s) :
    Good B (c.act B a) ∧ (c.act B a).state = act B c.state a := by
  cases a with
  | setenv var val => exact ⟨h.of_same (sameLists_setenv B c.state var val), rfl⟩
  | unsetenv var => exact ⟨h.of_same (sameLists_unsetenv c.state var), rfl⟩
  | list => exact ⟨h.init (hok _ rfl), rfl⟩
  | delall =>
    have hinit := (h.init (hok _ rfl)).of_same (sameLists_unsetenv _ .mtdparts)
    exact ⟨good_devicesInit hinit.sized _, rfl⟩
  | default =>
    have hids := sameLists_setDefault (B := B) c.state .mtdids B.mtdidsDefault
    have hparts := hids.trans (sameLists_setDefault (B := B) _ .mtdparts B.mtdpartsDefault)
    have hdefault := h.of_same (hparts.trans (sameLists_unsetenv _ .partition))
    exact ⟨hdefault.init (hok _ rfl), rfl⟩
  | command cmd =>
    have hinit := h.init (hok _ rfl)
    cases cmd with
    | add mtdDev size name ro =>
      have hstate := (hinit.addParts_agrees mtdDev size name ro).1
      have hsame : (c.init B).2 = (mtdpartsInit B c.state).2 := rfl
      rw [Counted.act, Mtd.act, exec, add, hsame]
      by_cases hdone : (mtdpartsInit B c.state).2 = true
      · rw [if_pos hdone, if_pos hdone]
        exact ⟨hinit.addParts mtdDev size name ro, hstate⟩
      · rw [if_neg hdone, if_neg hdone]
        exact ⟨hinit, rfl⟩
    | del id =>
      have hstate := (hinit.deletePartition_agrees id).1
      have hsame : (c.init B).2 = (mtdpartsInit B c.state).2 := rfl
      rw [Counted.act, Mtd.act, exec, del, hsame]
      by_cases hdone : (mtdpartsInit B c.state).2 = true
      · rw [if_pos hdone, if_pos hdone]
        exact ⟨hinit.deletePartition id, hstate⟩
      · rw [if_neg hdone, if_neg hdone]
        exact ⟨hinit, rfl⟩
    | chpart id =>
      refine ⟨?_, rfl⟩
      show Good B ⟨(chpart B c.state id).1, numInit B c.state c.num⟩
      rw [chpart]
      split_ifs
      · split
        · exact hinit
        · exact Good.currentSave (hinit.of_lists rfl rfl rfl)
      · exact hinit

end Mtd
end EmevBsp
