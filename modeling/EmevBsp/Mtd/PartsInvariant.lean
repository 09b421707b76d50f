import EmevBsp.Mtd.Counting
import Mathlib.Algebra.GroupWithZero.Nat

/-!
# What holds of the partitions of every device

The partitions of a device are in order, and each lies on it and on the boundaries of its blocks.
That they are counted by `num_parts` holds as long as a `u16` can count them: nothing keeps
`mtdparts add` from going on when the count is 65535, as a string that has become too long is no
reason to refuse the next partition.

Two more actions are left out of the runs.  Other identifiers may be parsed while the devices stay,
which have lost their entries then.  And a description may be written behind the end of the buffer
that `mtdparts add` has for it, since its length is a `u8`.
-/

namespace EmevBsp
namespace Mtd

variable (B : Board)

/-! ## The invariant -/

/-- Blocks of the device meet at `x`, or it ends there. -/
def OnBoundary (id : MtdId) (x : ℕ) : Prop :=
  match id.type with
  | .nor => x ∈ B.norStarts id.num ∨ B.norSize id.num = some x
  | .nand => x % B.nandErasesize id.num = 0
  | .onenand => x % B.onenandErasesize = 0

/-- A partition lies on its device. -/
structure PartInvariant (id : MtdId) (part : PartInfo) : Prop where
  nonempty : part.size ≠ 0
  noWrap : part.offset + part.size < 2 ^ 32
  inside : part.offset + part.size ≤ id.size
  begins : OnBoundary B id part.offset
  ends : OnBoundary B id (part.offset + part.size)

/-- **What holds of every device of the list.** -/
structure PartsInvariant (c : Counted) : Prop where
  counted : ∀ dev ∈ c.state.devices, c.num dev.addr = dev.parts.length
  sorted : ∀ dev ∈ c.state.devices, Sorted dev.parts
  sized : ∀ dev ∈ c.state.devices, Sized B dev.id
  parts : ∀ dev ∈ c.state.devices, ∀ part ∈ dev.parts, PartInvariant B dev.id part

variable {B} {c : Counted} {s : State}

theorem onBoundary_of_aligned {id : MtdId} {offset size : ℕ} (hwrap : offset + size < 2 ^ 32)
    (h : aligned B id offset size = true) :
    OnBoundary B id offset ∧ OnBoundary B id (offset + size) := by
  -- a multiple of the erase size, and another one behind it
  have hsum : ∀ n, offset % n = 0 → size % n = 0 → (offset + size) % n = 0 := by
    intro n hoffset hsize
    rw [Nat.add_mod, hoffset, hsize, Nat.zero_add, Nat.zero_mod]
  rw [aligned, Nat.mod_eq_of_lt hwrap] at h
  rw [OnBoundary, OnBoundary]
  cases htype : id.type with
  | nor =>
    rw [htype] at h
    simp only [Bool.and_eq_true, Bool.or_eq_true, decide_eq_true_eq] at h ⊢
    exact ⟨.inl h.1, h.2⟩
  | nand =>
    rw [htype] at h
    simp only [Bool.and_eq_true, decide_eq_true_eq] at h ⊢
    exact ⟨h.1, hsum _ h.1 h.2⟩
  | onenand =>
    rw [htype] at h
    simp only [Bool.and_eq_true, decide_eq_true_eq] at h ⊢
    exact ⟨h.1, hsum _ h.1 h.2⟩

theorem PartOk.partInvariant {id : MtdId} {part : PartInfo} (h : PartOk B id part) :
    PartInvariant B id part := by
  obtain ⟨hfits, hwrap, hpos, -⟩ := h
  simp only [partFits, Bool.and_eq_true, decide_eq_true_eq, Nat.mod_eq_of_lt hwrap] at hfits
  obtain ⟨⟨⟨-, -⟩, hinside⟩, haligned⟩ := hfits
  obtain ⟨hbegins, hends⟩ := onBoundary_of_aligned hwrap haligned
  exact ⟨hpos.ne', hwrap, hinside, hbegins, hends⟩

theorem Good.partsInvariant_iff (h : Good B c) :
    PartsInvariant B c ↔ ∀ dev ∈ c.state.devices, dev.parts.length < 2 ^ 16 := by
  constructor
  · intro hinv dev hdev
    rw [← hinv.counted dev hdev, h.agrees dev hdev]
    exact Nat.mod_lt _ (by decide)
  · intro hshort
    refine ⟨fun dev hdev => ?_, fun dev hdev => (h.listed.named dev hdev).ok.sorted,
      fun dev hdev => ?_, fun dev hdev part hpart => ?_⟩
    · rw [h.agrees dev hdev, Nat.mod_eq_of_lt (hshort dev hdev)]
    · exact h.sized dev.id (List.mem_of_find?_eq_some (h.listed.named dev hdev).found)
    · exact ((h.listed.named dev hdev).ok.parts part hpart).partInvariant

/-! ## Runs -/

/-- A `u16` can count the partitions of every device. -/
def Countable (devices : List MtdDevice) : Prop :=
  ∀ dev ∈ devices, dev.parts.length < 2 ^ 16

variable (B) in
/-- The device of the list to which `mtdparts add` adds a partition. -/
def addTarget (s : State) (mtdDev size name : List UInt8) (ro : Option (List UInt8)) :
    Option MtdDevice :=
  (idParse mtdDev).bind fun entry => (idFind s.ids entry.1 entry.2.1).bind fun id =>
    ((addText id.mtdId size name ro).bind (deviceParse B s.ids s.devices s.next)).bind fun parsed =>
      deviceFind s.devices parsed.1.id.type parsed.1.id.num

variable (B) in
/-- The partition is not one too many, and its description fits into the buffer for it. -/
structure AddOk (s : State) (mtdDev size name : List UInt8) (ro : Option (List UInt8)) : Prop where
  room : ∀ dev, addTarget B s mtdDev size name ro = some dev → dev.parts.length ≠ 2 ^ 16 - 1
  fits : ∀ id ∈ s.ids, ∀ text, addText id.mtdId size name ro = some text → text.length < 64

variable (B) in
/-- **The condition on an action.** -/
structure ActOk (c : Counted) (a : Action) : Prop where
  entries : ∀ s, initState B c.state a = some s → ¬Dangles B s
  add : ∀ mtdDev size name ro, a = .command (.add mtdDev size name ro) →
    AddOk B (mtdpartsInit B c.state).1 mtdDev size name ro

theorem Countable.subset {devices devices' : List MtdDevice} (h : Countable devices)
    (hsub : devices' ⊆ devices) : Countable devices' :=
  fun dev hdev => h dev (hsub hdev)

theorem Countable.setParts {devices : List MtdDevice} (h : Countable devices) (addr : ℕ)
    {parts : List PartInfo} (hparts : parts.length < 2 ^ 16) :
    Countable (setParts devices addr parts) := by
  intro d hd
  obtain ⟨d', hd', rfl⟩ := List.mem_map.mp hd
  split_ifs
  · exact hparts
  · exact h d' hd'

theorem countable_devicesLoop {ids : List MtdId} {fuel addr : ℕ} {devices : List MtdDevice}
    {p : List UInt8} {r : List MtdDevice × ℕ} (hp : p.length < 2 ^ 17) (h : Countable devices)
    (hr : devicesLoop B ids fuel addr devices p = some r) : Countable r.1 := by
  induction fuel generalizing addr devices p with
  | zero => exact nomatch hr
  | succ fuel ih =>
    rw [devicesLoop] at hr
    obtain ⟨⟨dev, ret, next⟩, hparse, hr⟩ := Option.bind_eq_some_iff.mp hr
    obtain ⟨-, -, -, -, -, -, hcount, hret⟩ := deviceParse_spec hparse
    have hmore : Countable (devices ++ [dev]) := by
      intro d hd
      rcases List.mem_append.mp hd with hd | hd
      · exact h d hd
      · rw [List.mem_singleton.mp hd]
        omega
    split_ifs at hr
    · obtain rfl := Option.some.inj hr
      exact hmore
    · exact ih (hret.trans_lt hp) hmore hr

theorem countable_parseMtdparts {parts : List UInt8} (hlen : parts.length < 2 ^ 17) (s : State) :
    Countable (parseMtdparts B s parts).1.devices := by
  have hnone : Countable ([] : List MtdDevice) := fun dev hdev => absurd hdev List.not_mem_nil
  rw [parseMtdparts]
  split
  · exact hnone
  · next devices next hparse =>
    rw [parseDevices] at hparse
    split_ifs at hparse
    refine countable_devicesLoop ?_ hnone hparse
    rw [List.length_drop]
    omega

theorem devices_initParts (s : State) (parts : List UInt8) (changed : Bool) :
    (initParts B s parts changed).1.devices = s.devices ∨
      (initParts B s parts changed).1.devices = (parseMtdparts B s parts).1.devices := by
  rw [initParts]
  split_ifs
  · refine .inr ?_
    dsimp only
    split_ifs
    · split
      · rfl
      · exact (sameLists_currentSave B _).devices
    · rfl
  · exact .inl rfl

theorem devices_mtdpartsInit (s : State) :
    (mtdpartsInit B s).1.devices = s.devices ∨ (mtdpartsInit B s).1.devices = [] ∨
      ∃ t parts, parts.length ≤ 511 ∧
        (mtdpartsInit B s).1.devices = (parseMtdparts B t parts).1.devices := by
  rcases mtdpartsInit_cases (B := B) s with heq | ⟨t, ids, henv, hrest⟩
  · rw [heq]
    exact .inl rfl
  have hdevices := (sameList_of_initEnv henv).1.devices
  have hids : (initIds B t ids).1.devices = s.devices ∨ (initIds B t ids).1.devices = [] := by
    rcases initIds_cases (B := B) t ids with heq | ⟨u, heq, -, -, hu⟩ | ⟨u, heq, -⟩
    · rw [heq]
      exact .inl hdevices
    · rw [heq]
      exact .inl (hu.trans hdevices)
    · rw [heq]
      exact .inr rfl
  have hkeep {v : State} (hv : v.devices = (initIds B t ids).1.devices) :
      v.devices = s.devices ∨ v.devices = [] ∨ ∃ t parts, parts.length ≤ 511 ∧
        v.devices = (parseMtdparts B t parts).1.devices :=
    hids.imp hv.trans fun h => .inl (hv.trans h)
  obtain heq | ⟨-, ⟨-, heq⟩ | ⟨-, ⟨-, heq⟩ | ⟨parts, -, hshort, heq⟩⟩⟩ := hrest
  · rw [heq]
    exact .inl hdevices
  · rw [heq]
    exact hkeep rfl
  · rw [heq]
    split_ifs
    · exact .inr (.inl rfl)
    · exact hkeep rfl
  · have hfinal {v : State} (hv : v.devices =
          (initParts B (initIds B t ids).1 parts (initIds B t ids).2.2).1.devices) :
        v.devices = s.devices ∨ v.devices = [] ∨ ∃ t parts, parts.length ≤ 511 ∧
          v.devices = (parseMtdparts B t parts).1.devices := by
      rcases devices_initParts (B := B) (initIds B t ids).1 parts (initIds B t ids).2.2 with
        heq | heq
      · exact hkeep (hv.trans heq)
      · exact .inr (.inr ⟨_, parts, hshort, hv.trans heq⟩)
    rw [heq]
    dsimp only
    split_ifs
    · exact hfinal (sameList_initPartition _ _).devices
    · exact hfinal rfl

theorem countable_mtdpartsInit (h : Countable s.devices) :
    Countable (mtdpartsInit B s).1.devices := by
  rcases devices_mtdpartsInit (B := B) s with heq | heq | ⟨t, parts, hlen, heq⟩
  · rw [heq]
    exact h
  · rw [heq]
    exact fun dev hdev => absurd hdev List.not_mem_nil
  · rw [heq]
    exact countable_parseMtdparts (by omega) t

theorem countable_addParts (h : Countable s.devices) {mtdDev size name : List UInt8}
    {ro : Option (List UInt8)} (hok : AddOk B s mtdDev size name ro) :
    Countable (addParts B s mtdDev size name ro).1.devices := by
  have hroom := hok.room
  rw [addTarget] at hroom
  rw [addParts]
  cases hid : idParse mtdDev with
  | none => exact h
  | some r =>
    obtain ⟨type, num, rest⟩ := r
    dsimp only
    cases hfound : idFind s.ids type num with
    | none => exact h
    | some id =>
      dsimp only
      cases hparse : (addText id.mtdId size name ro).bind
        (deviceParse B s.ids s.devices s.next) with
      | none => exact h
      | some r =>
        obtain ⟨dev, ret, next⟩ := r
        obtain ⟨text, htext, hdev⟩ := Option.bind_eq_some_iff.mp hparse
        obtain ⟨-, -, -, -, -, -, hcount, -⟩ := deviceParse_spec hdev
        have hfits := hok.fits id (List.mem_of_find?_eq_some hfound) text htext
        dsimp only
        cases hfind : deviceFind s.devices dev.id.type dev.id.num with
        | none =>
          show Countable (generateSave B (deviceAdd B { s with next := next } dev)).1.devices
          rw [(sameLists_generateSave B _).devices, devices_deviceAdd]
          intro d hd
          rcases List.mem_append.mp hd with hd | hd
          · exact h d hd
          · rw [List.mem_singleton.mp hd]
            omega
        | some devTmp =>
          rw [hid, Option.bind_some, hfound, Option.bind_some, hparse, Option.bind_some] at hroom
          have hshort := h devTmp (List.mem_of_find?_eq_some hfind)
          have hnot := hroom devTmp hfind
          dsimp only
          cases hadd : dev.parts.head?.bind (partAdd B { s with next := next } devTmp) with
          | none => exact h
          | some t =>
            obtain ⟨p, -, hadd⟩ := Option.bind_eq_some_iff.mp hadd
            obtain ⟨part, -, hadd⟩ := Option.bind_eq_some_iff.mp hadd
            obtain ⟨r, hr, hdevices⟩ := devices_partSortAdd hadd
            have hlen := (insertSorted_perm hr).length_eq
            show Countable (generateSave B t).1.devices
            rw [(sameLists_generateSave B t).devices, hdevices]
            refine h.setParts devTmp.addr ?_
            rw [hlen, List.length_cons]
            omega

theorem countable_deletePartition (h : Countable s.devices) (id : List UInt8) :
    Countable (deletePartition B s id).1.devices := by
  rw [deletePartition]
  cases hfind : findDevAndPart s id with
  | none => exact h
  | some r =>
    obtain ⟨dev, pnum, part⟩ := r
    have hdev := (findDevAndPart_mem hfind).1
    dsimp only
    rw [(sameLists_generateSave B _).devices, partDel_eq ⟨s, fun _ => 0⟩]
    split_ifs
    · exact h.subset devices_deviceDel
    · rw [partDelOne_devices]
      exact h.setParts dev.addr ((List.length_filter_le _ _).trans_lt (h dev hdev))

theorem countable_act (h : Countable c.state.devices) {a : Action} (hok : ActOk B c a) :
    Countable (act B c.state a).devices := by
  have hinit : Countable (mtdpartsInit B c.state).1.devices := countable_mtdpartsInit h
  cases a with
  | setenv var val =>
    rw [act, (sameLists_setenv B c.state var val).devices]
    exact h
  | unsetenv var => exact h
  | list => exact hinit
  | delall => exact fun dev hdev => absurd hdev List.not_mem_nil
  | default =>
    refine countable_mtdpartsInit ?_
    show Countable (setDefault B (setDefault B c.state .mtdids B.mtdidsDefault) .mtdparts
      B.mtdpartsDefault).devices
    rw [(sameLists_setDefault _ _ _).devices, (sameLists_setDefault _ _ _).devices]
    exact h
  | command cmd =>
    cases cmd with
    | add mtdDev size name ro =>
      rw [act, exec, add]
      split_ifs
      · exact countable_addParts hinit (hok.add mtdDev size name ro rfl)
      · exact hinit
    | del id =>
      rw [act, exec, del]
      split_ifs
      · exact countable_deletePartition hinit id
      · exact hinit
    | chpart id =>
      rw [act, exec, chpart]
      split_ifs
      · split
        · exact hinit
        · rw [(sameLists_currentSave B _).devices]
          exact hinit
      · exact hinit

theorem good_of_reachable (hc : ((countedSession B).restrict (ActOk B)).Reachable c) :
    Good B c ∧ Countable c.state.devices := by
  refine TransitionSystem.Reachable.invariant_restrict
    (I := fun c => Good B c ∧ Countable c.state.devices) ?_ ?_ hc
  · rintro _ ⟨env, inFront, num, rfl⟩
    exact ⟨good_of_nil (fun id hid => absurd hid List.not_mem_nil) rfl num,
      fun dev hdev => absurd hdev List.not_mem_nil⟩
  · rintro c a _ ⟨hgood, hshort⟩ hok rfl
    obtain ⟨hgood', hstate⟩ := hgood.act hok.entries
    refine ⟨hgood', ?_⟩
    rw [hstate]
    exact countable_act hshort hok

/-- **The invariant of the partition lists**, in every run in which no partition is one too many
for the count. -/
theorem partsInvariant (hc : ((countedSession B).restrict (ActOk B)).Reachable c) :
    PartsInvariant B c := by
  obtain ⟨hgood, hshort⟩ := good_of_reachable hc
  exact hgood.partsInvariant_iff.mpr hshort

/-- `mtdparts add nand0 4k@64k z`, on the board with NAND devices. -/
theorem partsInvariant_addZ :
    PartsInvariant nandBoard (Counted.act nandBoard ⟨initial twoParts, fun _ => 0⟩ addZ) := by
  have hinit : (countedSession nandBoard).init ⟨initial twoParts, fun _ => 0⟩ :=
    ⟨twoParts, false, _, rfl⟩
  refine partsInvariant (.step (a := addZ) (.init hinit) ⟨⟨?_, ?_⟩, rfl⟩)
  · rintro s hs hdangles
    obtain rfl := Option.some.inj hs
    exact hdangles.1 rfl
  · intro mtdDev size name ro hadd
    obtain ⟨rfl, rfl, rfl, rfl⟩ := Command.add.inj (Action.command.inj hadd)
    have hids : (mtdpartsInit nandBoard (initial twoParts)).1.ids =
        [⟨0, .nand, 0, 2 ^ 20, [97]⟩] := by decide +kernel
    have htarget : addTarget nandBoard (mtdpartsInit nandBoard (initial twoParts)).1
        [110, 97, 110, 100, 48] [52, 107, 64, 54, 52, 107] [122] none = some twoDevice := by
      decide +kernel
    refine ⟨fun dev hdev => ?_, fun id hid text htext => ?_⟩
    · obtain rfl := Option.some.inj (htarget.symm.trans hdev)
      decide
    · rw [hids, List.mem_singleton] at hid
      rw [hid] at htext
      obtain rfl := Option.some.inj htext
      decide

/-! ## One partition after the other -/

/-- The entry of `nand0=a`. -/
def nandId : MtdId := ⟨0, .nand, 0, 2 ^ 20, [97]⟩

/-- `nand0=a` -/
def nandIds : List UInt8 := [110, 97, 110, 100, 48, 61, 97]

/-- What a partition takes up in the string by its name. -/
def nameLength (part : PartInfo) : ℕ := if part.autoName then 0 else part.name.length + 2

/-- One device with `n` partitions, the string of which is too long. -/
structure Piled (s : State) (n : ℕ) : Prop where
  ids : s.ids = [nandId]
  env : s.env .mtdids = some nandIds
  lastIds : s.lastIds = nandIds
  unset : s.env .mtdparts = none
  lastParts : s.lastParts = []
  devices : ∃ dev, s.devices = [dev] ∧ dev.id = nandId ∧ dev.parts.length = n ∧
    512 ≤ (dev.parts.map nameLength).sum

theorem Piled.initEnv {n : ℕ} (h : Piled s n) : initEnv nandBoard s = some (s, nandIds) := by
  rw [Mtd.initEnv, h.env]

theorem Piled.initIds {n : ℕ} (h : Piled s n) :
    initIds nandBoard s nandIds = (s, true, false) := by
  have hne : s.lastIds ≠ [] := by
    rw [h.lastIds]
    decide
  exact if_pos ⟨hne, h.lastIds⟩

theorem Piled.init {n : ℕ} (h : Piled s n) : mtdpartsInit nandBoard s = (s, true) := by
  have hshort : ¬128 - 1 < nandIds.length := by decide
  have htrue : ¬true = false := by decide
  rw [mtdpartsInit, h.initEnv]
  dsimp only
  rw [if_neg hshort, h.initIds, h.unset, Option.any_none, if_neg Bool.false_ne_true]
  dsimp only
  rw [if_neg htrue, if_neg (not_not.mpr h.lastParts)]

/-- `4k@64k(z)` -/
def partZ (addr : ℕ) : PartInfo := ⟨addr, [122], false, 4096, 65536, false⟩

theorem partValidate_z (addr : ℕ) :
    partValidate nandBoard nandId (partZ addr) = some (partZ addr) := by
  have hfits : partFits nandBoard nandId 65536 4096 = true := by decide +kernel
  have hsize : ¬(partZ addr).size = sizeRemaining := by
    show ¬4096 = sizeRemaining
    decide
  rw [partValidate, if_neg hsize]
  exact if_pos hfits

theorem deviceParse_z (devices : List MtdDevice) (addr : ℕ) :
    deviceParse nandBoard [nandId] devices addr
      [97, 58, 52, 107, 64, 54, 52, 107, 40, 122, 41] =
        some (⟨addr, nandId, [partZ (addr + 1)]⟩, [], addr + 2) := by
  have hparse : partParse (addr + 1) [52, 107, 64, 54, 52, 107, 40, 122, 41] =
      some (partZ (addr + 1), []) := by
    have hsize : partSize [52, 107, 64, 54, 52, 107, 40, 122, 41] =
      some (4096, [64, 54, 52, 107, 40, 122, 41]) := by decide +kernel
    have hoffset : partOffset [64, 54, 52, 107, 40, 122, 41] = (65536, [40, 122, 41]) := by
      decide +kernel
    rw [partParse, hsize, Option.bind_some, hoffset]
    rfl
  have hloop (offset : ℕ) : partsLoop nandBoard nandId 10 (addr + 1) offset
      [52, 107, 64, 54, 52, 107, 40, 122, 41] = some ([partZ (addr + 1)], [], addr + 2) := by
    have hgiven : ¬(partZ (addr + 1)).offset = offsetNotSpecified := by
      show ¬65536 = offsetNotSpecified
      decide
    rw [partsLoop, if_neg (by decide), hparse, Option.bind_some]
    dsimp only
    rw [if_neg hgiven, partValidate_z, Option.bind_some, partsLoop, if_pos (by decide)]
    rfl
  have hid : idFindByMtdId [nandId] [97] = some nandId := by decide
  have hsort : sortAll [partZ (addr + 1)] = some [partZ (addr + 1)] := rfl
  have hcolon : behindColon [97, 58, 52, 107, 64, 54, 52, 107, 40, 122, 41] =
    some [52, 107, 64, 54, 52, 107, 40, 122, 41] := by decide
  have hname : ([97, 58, 52, 107, 64, 54, 52, 107, 40, 122, 41] : List UInt8).takeWhile (· ≠ 58) =
    [97] := by decide
  rw [deviceParse, hcolon, Option.bind_some, hname, hid, Option.bind_some]
  show ((partsLoop nandBoard nandId 10 (addr + 1) _ _).bind _) = _
  rw [hloop, Option.bind_some]
  dsimp only
  rw [if_neg (List.cons_ne_nil _ _), hsort]
  rfl

theorem insertSorted_of_offset {new : PartInfo} (hnew : new.offset ≠ 0) (parts : List PartInfo) :
    ∃ r, insertSorted new parts = some r := by
  induction parts with
  | nil => exact ⟨_, rfl⟩
  | cons pi parts ih =>
    obtain ⟨r, hr⟩ := ih
    rw [insertSorted, if_neg fun hzero => hnew (hzero.1.trans hzero.2), hr]
    split_ifs
    · exact ⟨_, rfl⟩
    · exact ⟨_, rfl⟩

theorem sum_nameLength_le_partsText (numParts cnt : ℕ) (prevPart : Option PartInfo)
    (parts : List PartInfo) :
    (parts.map nameLength).sum ≤ (partsText numParts cnt prevPart parts).length := by
  induction parts generalizing cnt prevPart with
  | nil => exact Nat.zero_le _
  | cons part parts ih =>
    have hrest := ih (cnt + 1) (some part)
    have hname : nameLength part ≤ (textIf (!part.autoName) (40 :: part.name ++ [41])).length := by
      rw [nameLength, textIf]
      cases part.autoName with
      | true => exact Nat.zero_le _
      | false => simp
    rw [partsText, partText, List.map_cons, List.sum_cons]
    simp only [List.length_append]
    omega

theorem ids_partSortAdd {B : Board} {t : State} {dev : MtdDevice} {part : PartInfo}
    (h : partSortAdd B s dev part = some t) :
    t.ids = s.ids ∧ t.lastIds = s.lastIds ∧ t.env .mtdids = s.env .mtdids := by
  obtain ⟨r, hr, rfl⟩ := Option.map_eq_some_iff.mp h
  dsimp only
  split_ifs
  · split
    · split_ifs
      · exact ⟨(sameLists_currentSave B _).ids, lastIds_currentSave _,
          env_currentSave _ (by decide)⟩
      · exact ⟨rfl, rfl, rfl⟩
    · exact ⟨rfl, rfl, rfl⟩
  · exact ⟨rfl, rfl, rfl⟩

theorem piled_generateSave {n : ℕ} (hids : s.ids = [nandId])
    (henv : s.env .mtdids = some nandIds) (hlast : s.lastIds = nandIds)
    (hdevices : ∃ dev, s.devices = [dev] ∧ dev.id = nandId ∧ dev.parts.length = n ∧
      512 ≤ (dev.parts.map nameLength).sum) : Piled (generateSave nandBoard s).1 n := by
  obtain ⟨dev, hdev, -, -, hlong⟩ := id hdevices
  have hgen : generateMtdparts s.devices 512 = none := by
    have hnames := sum_nameLength_le_partsText dev.numParts 0 none dev.parts
    have htext := length_partsText_le (List.mem_singleton_self dev)
    rw [hdev, generateMtdparts_eq (List.cons_ne_nil _ _), if_pos (by omega)]
  rw [generateSave, hgen]
  exact ⟨hids, (unsetenv_env_of_ne _ (by decide)).trans henv, hlast, unsetenv_env_self _ _, rfl,
    hdevices⟩

theorem Piled.addParts {n : ℕ} (h : Piled s n) :
    Piled (addParts nandBoard s [110, 97, 110, 100, 48] [52, 107, 64, 54, 52, 107] [122] none).1
      (n + 1) := by
  obtain ⟨dev, hdevices, hid, hlen, hlong⟩ := h.devices
  have hparse : idParse [110, 97, 110, 100, 48] = some (.nand, 0, []) := by decide
  have hfound : idFind s.ids .nand 0 = some nandId := by
    rw [h.ids]
    decide
  have htext : addText nandId.mtdId [52, 107, 64, 54, 52, 107] [122] none =
    some [97, 58, 52, 107, 64, 54, 52, 107, 40, 122, 41] := by decide
  have hdevice : deviceParse nandBoard s.ids s.devices s.next
      [97, 58, 52, 107, 64, 54, 52, 107, 40, 122, 41] =
        some (⟨s.next, nandId, [partZ (s.next + 1)]⟩, [], s.next + 2) := by
    rw [h.ids]
    exact deviceParse_z s.devices s.next
  have hfind : deviceFind s.devices .nand 0 = some dev := by
    have hsame : decide (dev.id.type = .nand ∧ dev.id.num = 0) = true := by
      rw [hid]
      decide
    rw [hdevices, deviceFind, List.find?_singleton, hsame]
    rfl
  rw [Mtd.addParts, hparse]
  dsimp only
  rw [hfound]
  dsimp only
  rw [htext, Option.bind_some, hdevice]
  dsimp only
  rw [show deviceFind s.devices nandId.type nandId.num = some dev from hfind]
  dsimp only
  rw [List.head?_cons, Option.bind_some, partAdd, hid, partValidate_z, Option.bind_some]
  have hoffset : (partZ (s.next + 1)).offset ≠ 0 := show 65536 ≠ 0 by decide
  obtain ⟨r, hr⟩ := insertSorted_of_offset hoffset dev.parts
  have hadd : ∃ t, partSortAdd nandBoard { s with next := s.next + 2 } dev (partZ (s.next + 1)) =
      some t := by
    rw [partSortAdd, hr]
    exact ⟨_, rfl⟩
  obtain ⟨t, hadd⟩ := hadd
  obtain ⟨hids, hlastIds, henv⟩ := ids_partSortAdd hadd
  obtain ⟨r, hr, hparts⟩ := devices_partSortAdd hadd
  have hperm := insertSorted_perm hr
  rw [hadd]
  refine piled_generateSave (hids.trans h.ids) (henv.trans h.env) (hlastIds.trans h.lastIds)
    ⟨{ dev with parts := r.1 }, ?_, hid, ?_, ?_⟩
  · rw [hparts]
    show setParts s.devices dev.addr r.1 = _
    rw [hdevices, setParts, List.map_singleton, if_pos rfl]
  · show r.1.length = n + 1
    rw [hperm.length_eq, List.length_cons, hlen]
  · show 512 ≤ (r.1.map nameLength).sum
    rw [(hperm.map nameLength).sum_nat, List.map_cons, List.sum_cons]
    omega

theorem Piled.add {n : ℕ} (h : Piled s n) : Piled (act nandBoard s addZ) (n + 1) := by
  show Piled (Mtd.add nandBoard s _ _ _ _).1 (n + 1)
  rw [Mtd.add, h.init]
  exact h.addParts

theorem Piled.not_dangles {n : ℕ} (h : Piled s n) : ¬Dangles nandBoard s := by
  rintro ⟨-, -, -, t, ids, hinit, -, hparsed⟩
  rw [h.initEnv] at hinit
  obtain ⟨rfl, rfl⟩ := Prod.mk.inj (Option.some.inj hinit)
  rw [h.initIds] at hparsed
  exact nomatch hparsed

theorem piled_addLong : Piled (act nandBoard (initial longName) addLong) 2 := by
  have hdevices : (act nandBoard (initial longName) addLong).devices = [⟨1, nandId,
      [⟨2, List.replicate 480 120, false, 4096, 0, false⟩,
        ⟨4, List.replicate 30 122, false, 4096, 65536, false⟩]⟩] := by decide +kernel
  exact ⟨by decide +kernel, by decide +kernel, by decide +kernel, by decide +kernel,
    by decide +kernel, _, hdevices, rfl, rfl, by decide +kernel⟩

theorem exists_piled (n : ℕ) :
    ∃ c, (countedSession nandBoard).Reachable c ∧ Piled c.state (n + 2) ∧ Good nandBoard c := by
  induction n with
  | zero =>
    have hok : ∀ s, initState nandBoard (initial longName) addLong = some s →
        ¬Dangles nandBoard s := by
      rintro s hs hdangles
      obtain rfl := Option.some.inj hs
      exact hdangles.1 rfl
    have hnil : Good nandBoard ⟨initial longName, fun _ => 0⟩ :=
      good_of_nil (fun id hid => absurd hid List.not_mem_nil) rfl _
    obtain ⟨hgood, hstate⟩ := hnil.act hok
    have hinit : (countedSession nandBoard).init ⟨initial longName, fun _ => 0⟩ :=
      ⟨longName, false, _, rfl⟩
    refine ⟨_, .step (.init hinit) rfl, ?_, hgood⟩
    rw [hstate]
    exact piled_addLong
  | succ n ih =>
    obtain ⟨c, hc, hpiled, hgood⟩ := ih
    have hok : ∀ s, initState nandBoard c.state addZ = some s → ¬Dangles nandBoard s := by
      rintro s hs
      obtain rfl := Option.some.inj hs
      exact hpiled.not_dangles
    obtain ⟨hgood', hstate⟩ := hgood.act hok
    refine ⟨c.act nandBoard addZ, .step hc rfl, ?_, hgood'⟩
    rw [hstate]
    exact hpiled.add

/-- **65536 partitions** are none for the count. -/
theorem not_partsInvariant :
    ¬ ∀ B c, (countedSession B).Reachable c → PartsInvariant B c := by
  intro hall
  obtain ⟨c, hc, hpiled, hgood⟩ := exists_piled 65534
  obtain ⟨dev, hdevices, -, hlen, -⟩ := hpiled.devices
  have hshort := hgood.partsInvariant_iff.mp (hall nandBoard c hc) dev
    (hdevices ▸ List.mem_singleton_self dev)
  omega

end Mtd
end EmevBsp
