import EmevBsp.Mtd.Editing

/-!
# The device list and the string it stands for

`mtdparts_init` parses the strings only where they differ from the copies it kept.  In between the
list is edited, and the string is made from it; then the copy is the new string.  If that string is
too long the variable is taken away, and the copy emptied, but the list stays.  `mtdparts_init` has
nothing to do then, and returns 0 with devices that no variable describes.

The copy is also not always of the string: it is taken from where the string was when `mtdparts_init`
read the environment, and `partition` may have been taken out in front of it since.  Such a copy, and
a text of `mtdparts add` that is too long for its buffer, are left out of the runs.

* `Coherent`: the list stands for its entries and for the variable.
* `Kept`: it stands for the copy; what every action that meets `ActionOk` keeps.
* `cache_coherent`: **the list stands for the variable whenever `mtdparts_init` returns 0**.
-/

namespace EmevBsp
namespace Mtd

open KeyGroups

variable (B : Board)

/-- The same device, with the same partitions in any order. -/
def SameParts (dev dev' : MtdDevice) : Prop :=
  dev'.id = dev.id ∧ (dev'.parts.map PartInfo.desc).Perm (dev.parts.map PartInfo.desc)

/-- The string is one of these devices, in their order, with these partitions. -/
def Describes (ids : List MtdId) (text : List UInt8) (devices : List MtdDevice) : Prop :=
  ∃ addr out next, parseDevices B ids addr text = some (out, next) ∧
    List.Forall₂ SameParts devices out

/-- The list stands for its entries and for the string. -/
structure Coherent (s : State) : Prop where
  ids : ∀ dev ∈ s.devices, dev.id ∈ s.ids
  unset : s.env .mtdparts = none → s.devices = []
  set : ∀ text, s.env .mtdparts = some text → Describes B s.ids text s.devices

/-- The list stands for the copy of the string. -/
structure Kept (s : State) : Prop where
  listed : StateListed B s
  empty : s.lastParts = [] → s.devices = []
  described : s.lastParts ≠ [] → Describes B s.ids s.lastParts s.devices

variable {B}

theorem sameParts_refl (dev : MtdDevice) : SameParts dev dev := ⟨rfl, List.Perm.refl _⟩

theorem describes_of_parse {ids : List MtdId} {text : List UInt8} {addr next : ℕ}
    {devices : List MtdDevice} (h : parseDevices B ids addr text = some (devices, next)) :
    Describes B ids text devices :=
  ⟨addr, devices, next, h, List.forall₂_same.mpr fun dev _ => sameParts_refl dev⟩

theorem TurnedDevice.sameParts {dev dev' : MtdDevice} (h : TurnedDevice dev dev') :
    SameParts dev dev' := by
  refine ⟨h.1, perm_of_group_perm PartDesc.offset fun o => ?_⟩
  rw [h.2.group]
  exact List.reverse_perm _

/-- The string of a list fits into the copy, and its sizes are taken. -/
def StringOk (devices : List MtdDevice) : Prop :=
  devices ≠ [] → (mtdpartsPrefix ++ devicesText devices).length ≤ 511 ∧
    ∀ dev ∈ devices, SizesTaken dev.parts

theorem StringOk.describes {ids : List MtdId} {devices : List MtdDevice} {next : ℕ}
    (hok : StringOk devices) (hne : devices ≠ []) (h : Listed B ids devices next) :
    generateMtdparts devices 512 = some (mtdpartsPrefix ++ devicesText devices) ∧
      Describes B ids (mtdpartsPrefix ++ devicesText devices) devices := by
  obtain ⟨hfits, htaken⟩ := hok hne
  rw [List.length_append] at hfits
  have hnum : ∀ dev ∈ devices, dev.parts.length < 2 ^ 16 := by
    intro dev hdev
    have hparts := length_le_partsText dev.numParts 0 none
      fun part hpart => ((h.named dev hdev).ok.parts part hpart).size_pos
    have htext := length_partsText_le hdev
    omega
  obtain ⟨out, next', hparse, hout⟩ :=
    (parseDevices_devicesText hne h.named hnum h.distinct next).1 htaken
  refine ⟨?_, next, out, next', hparse, hout.imp fun _ _ => TurnedDevice.sameParts⟩
  rw [generateMtdparts_eq hne, if_neg (by omega)]

/-! ## `mtdparts_init` -/

/-- A state with the same list, copy and variable. -/
structure SameList (s t : State) : Prop where
  ids : t.ids = s.ids
  devices : t.devices = s.devices
  next : t.next = s.next
  lastParts : t.lastParts = s.lastParts
  env : t.env .mtdparts = s.env .mtdparts

theorem SameList.refl (s : State) : SameList s s := ⟨rfl, rfl, rfl, rfl, rfl⟩

theorem SameList.kept {s t : State} (h : SameList s t) (hs : Kept B s) :
    Kept B t := by
  obtain ⟨hids, hdevices, hnext, hlast, -⟩ := h
  refine ⟨?_, ?_, ?_⟩
  · rw [StateListed, hids, hdevices, hnext]
    exact hs.listed
  · rw [hlast, hdevices]
    exact hs.empty
  · rw [hlast, hids, hdevices]
    exact hs.described

theorem SameList.coherent {s t : State} (h : SameList s t) (hs : Coherent B s) : Coherent B t := by
  obtain ⟨hids, hdevices, -, -, henv⟩ := h
  refine ⟨?_, ?_, ?_⟩
  · rw [hids, hdevices]
    exact hs.ids
  · rw [henv, hdevices]
    exact hs.unset
  · rw [henv, hids, hdevices]
    exact hs.set

theorem sameList_setenv (s : State) {var : EnvVar} (hvar : var ≠ .mtdparts) (val : List UInt8) :
    SameList s (setenv B s var val) := by
  have hsame := sameLists_setenv B s var val
  exact ⟨hsame.ids, hsame.devices, hsame.next, (setenv_copies s var val).2.1,
    setenv_env_of_ne s (Ne.symm hvar) val⟩

theorem sameList_currentSave (s : State) : SameList s (currentSave B s) := by
  have hsame := sameLists_currentSave B s
  exact ⟨hsame.ids, hsame.devices, hsame.next, lastParts_currentSave s,
    env_currentSave s (by decide)⟩

theorem kept_of_nil {s : State} (hsizes : ∀ id ∈ s.ids, id.size < 2 ^ 32) (hnil : s.devices = [])
    (hlast : s.lastParts = []) : Kept B s := by
  refine ⟨?_, fun _ => hnil, fun hne => absurd hlast hne⟩
  rw [StateListed, hnil]
  exact listed_nil hsizes

theorem coherent_of_nil {s : State} (hnil : s.devices = []) (henv : s.env .mtdparts = none) :
    Coherent B s := by
  refine ⟨?_, fun _ => hnil, fun text htext => ?_⟩
  · rw [hnil]
    exact fun dev hdev => absurd hdev List.not_mem_nil
  · rw [henv] at htext
    cases htext

theorem coherent_of_describes {s : State} {parts : List UInt8} (hlisted : StateListed B s)
    (hparts : Describes B s.ids parts s.devices) (henv : s.env .mtdparts = some parts) :
    Coherent B s := by
  refine ⟨fun dev hdev => List.mem_of_find?_eq_some (hlisted.named dev hdev).found,
    fun hnone => ?_, fun text htext => ?_⟩
  · rw [henv] at hnone
    cases hnone
  · rw [henv] at htext
    obtain rfl := Option.some.inj htext
    exact hparts

theorem kept_devicesInit {s : State} (hsizes : ∀ id ∈ s.ids, id.size < 2 ^ 32) :
    Kept B (devicesInit B s) ∧ (devicesInit B s).env .mtdparts = s.env .mtdparts := by
  have hsame := sameList_currentSave (B := B) { s with lastParts := [], currentDev := none }
  have hids : (devicesInit B s).ids = s.ids := hsame.ids
  refine ⟨kept_of_nil ?_ rfl hsame.lastParts, hsame.env⟩
  rw [hids]
  exact hsizes

theorem initIds_lists {s : State} (hs : Kept B s) (ids : List UInt8) :
    (initIds B s ids).1.env .mtdparts = s.env .mtdparts ∧
      ((initIds B s ids).2.1 = false → Kept B (initIds B s ids).1) ∧
      ((initIds B s ids).2.1 = true →
        (∀ id ∈ (initIds B s ids).1.ids, id.size < 2 ^ 32) ∧
          (initIds B s ids).1.devices = s.devices ∧
          (initIds B s ids).1.lastParts = s.lastParts ∧
          ((initIds B s ids).2.2 = false → (initIds B s ids).1 = s)) := by
  rw [initIds]
  split_ifs with hlast
  · exact ⟨rfl, fun _ => hs, fun _ => ⟨hs.listed.sizes, rfl, rfl, fun _ => rfl⟩⟩
  · have hloop : ∀ id ∈ (idsLoop B (ids.length + 1) s.next [] ids).1, id.size < 2 ^ 32 :=
      idsLoop_forall (fun _ _ _ _ _ _ _ => Nat.mod_lt _ (by decide))
        (fun id hid => absurd hid List.not_mem_nil) le_rfl
    dsimp only
    split_ifs with hok
    · exact ⟨rfl, fun h => absurd h (by simp), fun _ => ⟨hloop, rfl, rfl, fun h => absurd h (by simp)⟩⟩
    · obtain ⟨hkept, henv⟩ := kept_devicesInit (B := B) (s := (parseMtdids B s ids).1) hloop
      exact ⟨henv, fun _ => hkept, fun h => absurd h (by simp)⟩

theorem initParts_lists {s : State} (hsizes : ∀ id ∈ s.ids, id.size < 2 ^ 32) (changed : Bool)
    (hs : changed = false → Kept B s) (parts : List UInt8) :
    StateListed B (initParts B s parts changed).1 ∧
      (initParts B s parts changed).1.env .mtdparts = s.env .mtdparts ∧
      ((initParts B s parts changed).2 = true →
        Describes B (initParts B s parts changed).1.ids parts
          (initParts B s parts changed).1.devices) ∧
      (((s.lastParts = [] ∨ s.lastParts ≠ parts ∨ changed = true) →
        (parseMtdparts B s parts).2 = true → copyParts B s parts = parts) →
          Kept B (initParts B s parts changed).1) := by
  rw [initParts]
  split_ifs with hparse
  · obtain ⟨hkept, henv⟩ := kept_devicesInit (B := B) hsizes
    rw [parseMtdparts]
    dsimp only
    cases hdevices : parseDevices B (devicesInit B s).ids (devicesInit B s).next parts with
    | none => exact ⟨hkept.listed, henv, fun h => absurd h Bool.false_ne_true, fun _ => hkept⟩
    | some r =>
      obtain ⟨devices, next⟩ := r
      have hdescribes := describes_of_parse hdevices
      rw [parseDevices] at hdevices
      split_ifs at hdevices with hprefix
      have hne : parts ≠ [] := by
        rintro rfl
        exact absurd hprefix.length_le (by decide)
      have hlisted := Listed.devicesLoop (listed_nil hkept.listed.sizes) hdevices
      dsimp only
      rw [if_pos rfl]
      cases devices with
      | nil =>
        have hnil : Kept B { devicesInit B s with devices := [], next := next } :=
          kept_of_nil hkept.listed.sizes rfl (sameList_currentSave _).lastParts
        exact ⟨hnil.listed, henv, fun h => absurd h Bool.false_ne_true, fun _ => hnil⟩
      | cons first rest =>
        have hsame := sameList_currentSave (B := B) { devicesInit B s with
          devices := first :: rest, next := next, lastParts := copyParts B s parts
          currentDev := some first.addr, currentPartnum := 0 }
        refine ⟨?_, hsame.env.trans henv, fun _ => ?_, fun hcopy => hsame.kept ⟨hlisted, ?_, ?_⟩⟩
        · rw [StateListed, hsame.ids, hsame.devices, hsame.next]
          exact hlisted
        · rw [hsame.ids, hsame.devices]
          exact hdescribes
        · exact fun h => absurd ((hcopy hparse rfl).symm.trans h) hne
        · intro _
          rw [hcopy hparse rfl]
          exact hdescribes
  · have hsame := not_or.mp hparse
    obtain ⟨hlast, hchanged⟩ := not_or.mp hsame.2
    have hkept := hs (Bool.of_not_eq_true hchanged)
    refine ⟨hkept.listed, rfl, fun _ => ?_, fun _ => hkept⟩
    rw [← not_not.mp hlast]
    exact hkept.described hsame.1

theorem sameList_initPartition (s : State) (tmpEp : List UInt8) :
    SameList s (initPartition B s tmpEp) := by
  rw [initPartition]
  split_ifs
  · split
    · next dev pnum part _ =>
      have hsame := sameList_currentSave (B := B)
        { s with currentDev := some dev.addr, currentPartnum := pnum }
      exact ⟨hsame.ids, hsame.devices, hsame.next, hsame.lastParts, hsame.env⟩
    · exact SameList.refl s
  · exact sameList_currentSave s
  · exact SameList.refl s

theorem StateListed.of_sameList {s t : State} (h : SameList s t) (hs : StateListed B s) :
    StateListed B t := by
  rw [StateListed, h.ids, h.devices, h.next]
  exact hs

/-- **`mtdparts_init`** leaves a list that stands for the copy, where that is of the string; and
where it returns 0, for the variable. -/
theorem Kept.mtdpartsInit {s : State} (hs : Kept B s) :
    StateListed B (mtdpartsInit B s).1 ∧
      (CopyOk B s → Kept B (Mtd.mtdpartsInit B s).1) ∧
        ((Mtd.mtdpartsInit B s).2 = true → Coherent B (Mtd.mtdpartsInit B s).1) := by
  have hfail : ∀ {t : State}, Kept B t →
      StateListed B t ∧ (CopyOk B s → Kept B t) ∧ ((t, false).2 = true → Coherent B t) :=
    fun hkept => ⟨hkept.listed, fun _ => hkept, fun h => absurd h Bool.false_ne_true⟩
  have hdone : ∀ {t : State}, Kept B t → Coherent B t →
      StateListed B t ∧ (CopyOk B s → Kept B t) ∧ ((t, true).2 = true → Coherent B t) :=
    fun hkept hcoherent => ⟨hkept.listed, fun _ => hkept, fun _ => hcoherent⟩
  rcases mtdpartsInit_cases (B := B) s with heq | ⟨s', ids, henv, hrest⟩
  · rw [heq]
    exact hfail hs
  have hsame : SameList s s' := by
    rw [initEnv] at henv
    split at henv
    · obtain ⟨rfl, -⟩ := Prod.mk.inj (Option.some.inj henv)
      exact SameList.refl s
    · obtain ⟨rfl, -⟩ := Prod.mk.inj (Option.some.inj henv)
      exact sameList_setenv s (by decide) _
    · cases henv
  have hs' := hsame.kept hs
  obtain ⟨henv₁, hfailed₁, hok₁⟩ := initIds_lists hs' ids
  obtain heq | ⟨-, ⟨hfailed, heq⟩ | ⟨hok, hrest⟩⟩ := hrest
  · rw [heq]
    exact hfail hs'
  · rw [heq]
    exact hfail (hfailed₁ hfailed)
  obtain ⟨hsizes, hdevices, hlast, hunchanged⟩ := hok₁ hok
  have henv' : (initIds B s' ids).1.env .mtdparts = s.env .mtdparts := henv₁.trans hsame.env
  obtain ⟨hparts, heq⟩ | ⟨parts, hparts, -, heq⟩ := hrest
  · rw [heq]
    split_ifs with hcopy
    · obtain ⟨hkept, henv₂⟩ := kept_devicesInit (B := B) hsizes
      exact hdone hkept (coherent_of_nil rfl (henv₂.trans (henv'.trans hparts)))
    · have hempty := not_not.mp hcopy
      have hnil := hdevices.trans (hs'.empty (hlast.symm.trans hempty))
      exact hdone (kept_of_nil hsizes hnil hempty) (coherent_of_nil hnil (henv'.trans hparts))
  · obtain ⟨hlisted, henv₂, hdescribes, hkept⟩ := initParts_lists hsizes (initIds B s' ids).2.2
      (fun hchanged => (hunchanged hchanged).symm ▸ hs') parts
    rw [heq]
    dsimp only
    split_ifs with hread
    · have hsame' := sameList_initPartition (B := B)
        (initParts B (initIds B s' ids).1 parts (initIds B s' ids).2.2).1
        (((s.env .partition).getD []).take 16)
      exact ⟨hlisted.of_sameList hsame',
        fun hcopy => hsame'.kept (hkept (hcopy s' ids parts henv hparts)),
        fun _ => hsame'.coherent (coherent_of_describes hlisted (hdescribes hread)
          (henv₂.trans (henv'.trans hparts)))⟩
    · exact ⟨hlisted, fun hcopy => hkept (hcopy s' ids parts henv hparts), False.elim⟩

/-! ## One action -/

/-- What is done on the console: `setenv`, and the commands. -/
inductive Action where
  | setenv (var : EnvVar) (val : List UInt8)
  | unsetenv (var : EnvVar)
  | list
  | command (c : Command)
  | delall
  | default

variable (B) in
def act (s : State) : Action → State
  | .setenv var val => setenv B s var val
  | .unsetenv var => unsetenv s var
  | .list => (mtdpartsInit B s).1
  | .command c => (exec B s c).1
  | .delall => (delall B s).1
  | .default => (default B s).1

/-- The text of a command fits into its buffer. -/
def TextFits (s : State) : Command → Prop
  | .add mtdDev size name ro => DescFits s mtdDev size name ro
  | _ => True

variable (B) in
/-- **The condition on an action**: the copy is of the string, the text of an `add` fits into
`tmpbuf`, and a list that is edited has a string that fits. -/
def ActionOk (s : State) : Action → Prop
  | .setenv _ _ | .unsetenv _ | .delall | .default => True
  | .list => CopyOk B s
  | .command c => CopyOk B s ∧ TextFits (mtdpartsInit B s).1 c ∧
      ((exec B s c).1.devices ≠ (mtdpartsInit B s).1.devices → StringOk (exec B s c).1.devices)

theorem Kept.withEnv {s t : State} (h : Kept B s) (hsame : SameLists s t)
    (hlast : t.lastParts = s.lastParts) : Kept B t := by
  refine ⟨h.listed.of_same hsame, ?_, ?_⟩
  · rw [hlast, hsame.devices]
    exact h.empty
  · rw [hlast, hsame.ids, hsame.devices]
    exact h.described

theorem Kept.setenv {s : State} (h : Kept B s) (var : EnvVar) (val : List UInt8) :
    Kept B (setenv B s var val) :=
  h.withEnv (sameLists_setenv B s var val) (setenv_copies s var val).2.1

theorem Kept.unsetenv {s : State} (h : Kept B s) (var : EnvVar) : Kept B (unsetenv s var) :=
  h.withEnv ⟨rfl, rfl, rfl, rfl, rfl⟩ rfl

theorem Kept.setDefault {s : State} (h : Kept B s) (var : EnvVar) (val : Option (List UInt8)) :
    Kept B (setDefault B s var val) := by
  cases val with
  | none => exact h.unsetenv var
  | some val => exact h.setenv var val

theorem Kept.generateSave {t : State} (hlisted : StateListed B t) (hok : StringOk t.devices) :
    Kept B (Mtd.generateSave B t).1 := by
  by_cases hne : t.devices = []
  · rw [Mtd.generateSave, generateMtdparts, if_pos hne]
    exact kept_of_nil hlisted.sizes hne rfl
  · obtain ⟨hgen, hdescribes⟩ := hok.describes hne hlisted
    have htext : mtdpartsPrefix ++ devicesText t.devices ≠ [] := List.cons_ne_nil _ _
    rw [Mtd.generateSave, hgen]
    refine Kept.setenv (s := { t with lastParts := mtdpartsPrefix ++ devicesText t.devices })
      ⟨hlisted, fun hnil => absurd hnil htext, fun _ => hdescribes⟩ .mtdparts _

theorem Kept.edit {s t : State} (h : EditedTo B s t)
    (hok : (Mtd.generateSave B t).1.devices ≠ s.devices →
      StringOk (Mtd.generateSave B t).1.devices) :
    Kept B (Mtd.generateSave B t).1 := by
  have hdevices := (sameLists_generateSave B t).devices
  rw [hdevices] at hok
  exact Kept.generateSave h.listed (hok h.devices)

theorem Kept.act {s : State} (h : Kept B s) {a : Action} (hok : ActionOk B s a) :
    Kept B (act B s a) := by
  obtain ⟨hlisted, hkept, -⟩ := h.mtdpartsInit
  cases a with
  | setenv var val => exact h.setenv var val
  | unsetenv var => exact h.unsetenv var
  | list => exact hkept hok
  | delall =>
    exact (kept_devicesInit (s := Mtd.unsetenv (Mtd.mtdpartsInit B s).1 .mtdparts) hlisted.sizes).1
  | default =>
    have hunset := Kept.unsetenv ((h.setDefault .mtdids B.mtdidsDefault).setDefault .mtdparts
      B.mtdpartsDefault) .partition
    exact hunset.mtdpartsInit.2.1 (copyOk_of_inFront (.inr (unsetenv_env_self _ _)))
  | command c =>
    have hinit := hkept hok.1
    replace hok := hok.2.2
    rw [Mtd.act]
    cases c with
    | add mtdDev size name ro =>
      rw [exec, add] at hok ⊢
      split_ifs at hok ⊢ with hdone
      · rcases addParts_cases hinit.listed mtdDev size name ro with ⟨next, hle, heq⟩ | ⟨t, heq, ht⟩
        · rw [heq]
          exact ⟨Listed.mono hinit.listed hle, hinit.empty, hinit.described⟩
        · rw [heq] at hok ⊢
          exact Kept.edit ht hok
      · exact hinit
    | del id =>
      rw [exec, del] at hok ⊢
      split_ifs at hok ⊢ with hdone
      · rcases deletePartition_cases hinit.listed id with heq | ⟨t, heq, ht⟩
        · rw [heq]
          exact hinit
        · rw [heq] at hok ⊢
          exact Kept.edit ht hok
      · exact hinit
    | chpart id =>
      rw [exec, chpart]
      dsimp only
      split_ifs
      · split
        · exact hinit
        · exact (sameList_currentSave _).kept ⟨hinit.listed, hinit.empty, hinit.described⟩
      · exact hinit

/-! ## Runs -/

/-- `mtdparts add nand0 4k@64k z` -/
def addZ : Action :=
  .command (.add [110, 97, 110, 100, 48] [52, 107, 64, 54, 52, 107] [122] none)

/-- `mtdparts` is `mtdparts=a:4k(x…x)`, with a name of 480 bytes. -/
def longName : EnvVar → Option (List UInt8)
  | .mtdids => some [110, 97, 110, 100, 48, 61, 97]
  | .mtdparts => some (mtdpartsPrefix ++
      ([97, 58, 52, 107, 40] ++ List.replicate 480 120 ++ [41]))
  | .partition => none

/-- `mtdparts add nand0 4k@64k z…z`, with a name of 30 bytes. -/
def addLong : Action :=
  .command (.add [110, 97, 110, 100, 48] [52, 107, 64, 54, 52, 107] (List.replicate 30 122) none)

end Mtd
end EmevBsp
