import EmevBsp.Mtd.Lists

/-!
# The current partition across `mtdparts add`, `mtdparts del` and `chpart`

Each command begins with `mtdparts_init`.  Once the lists were made, the copies of the strings agree
with the environment, and `mtdparts_init` changes nothing; so the commands act on the lists they
find.

* `CopyOk`: the copy that `mtdparts_init` takes is of the string.
* `Sync`, `Idle`: the copies agree with the environment, or there are no devices.
* `Inv.mtdpartsInit`: **`mtdparts_init`** leaves one of the two.
-/

namespace EmevBsp
namespace Mtd

variable (B : Board)

/-! ## The copies and the environment -/

/-- The environment takes every value. -/
def Roomy : Prop := ∀ env var val, B.noRoom env var val = false

/-- The current partition is in the environment. -/
def Saved (s : State) : Prop :=
  s.currentDev ≠ none → s.env .partition = some s.lastPartition ∧ s.lastPartition.length ≤ 16

/-- The copies of the strings agree with the environment. -/
structure Sync (s : State) : Prop where
  ids : s.lastIds ≠ [] ∧ s.env .mtdids = some s.lastIds ∧ s.lastIds.length ≤ 127
  parts : s.env .mtdparts = if s.lastParts = [] then none else some s.lastParts
  saved : Saved s
  current : s.lastParts ≠ [] ∨ s.devices ≠ [] → s.currentDev ≠ none

/-- There are no devices yet, or none any more. -/
structure Idle (s : State) : Prop where
  devices : s.devices = []
  currentDev : s.currentDev = none
  lastParts : s.lastParts = []

/-- **The condition on `mtdparts_init`**: where it parses the string, `last_parts` gets the string. -/
def CopyOk (s : State) : Prop :=
  ∀ t ids parts, initEnv B s = some (t, ids) → s.env .mtdparts = some parts →
    ((initIds B t ids).1.lastParts = [] ∨ (initIds B t ids).1.lastParts ≠ parts ∨
      (initIds B t ids).2.2 = true) →
    (parseMtdparts B (initIds B t ids).1 parts).2 = true →
      copyParts B (initIds B t ids).1 parts = parts

/-- How a function that edits the lists leaves the strings. -/
def SavedBy (s t : State) : Prop :=
  t.lastIds = s.lastIds ∧ t.env .mtdids = s.env .mtdids ∧
    ((∃ s', t = currentSave B s') ∨
      (t.env .partition = s.env .partition ∧ t.lastPartition = s.lastPartition ∧
        t.currentDev = s.currentDev))

theorem length_decimal_le {n : ℕ} (hn : n < 256) : (decimal n).length ≤ 3 := by
  rw [decimal]
  split_ifs
  · exact Nat.le_of_ble_eq_true rfl
  · rw [decimal, List.length_append]
    split_ifs
    · exact Nat.le_of_ble_eq_true rfl
    · have hsmall : n / 10 / 10 < 10 := by omega
      rw [decimal, if_pos hsmall]
      exact Nat.le_of_ble_eq_true rfl

theorem length_partitionText {dev : MtdDevice} {partnum : ℕ} (hnum : dev.id.num < 256)
    (hpart : partnum < 256) : (partitionText dev partnum).length ≤ 16 := by
  have htype : dev.id.type.text.length ≤ 7 := by
    cases dev.id.type <;> decide
  have hlen := length_decimal_le hnum
  have hlen' := length_decimal_le hpart
  rw [partitionText]
  simp only [List.length_append, List.length_singleton]
  omega

variable {B}

theorem setenv_env_self (hroom : Roomy B) (s : State) (var : EnvVar) (val : List UInt8) :
    (setenv B s var val).env var = some val := by
  rw [setenv, hroom, if_neg Bool.false_ne_true]
  exact Function.update_self var (some val) s.env

theorem setenv_env_of_ne (s : State) {var var' : EnvVar} (hne : var' ≠ var) (val : List UInt8) :
    (setenv B s var val).env var' = s.env var' := by
  rw [setenv]
  split_ifs
  · exact Function.update_of_ne hne none s.env
  · exact Function.update_of_ne hne (some val) s.env

theorem unsetenv_env_self (s : State) (var : EnvVar) : (unsetenv s var).env var = none := by
  show Function.update s.env var none var = none
  rw [Function.update_self]

theorem unsetenv_env_of_ne (s : State) {var var' : EnvVar} (hne : var' ≠ var) :
    (unsetenv s var).env var' = s.env var' := by
  show Function.update s.env var none var' = s.env var'
  rw [Function.update_of_ne hne]

theorem setenv_copies (s : State) (var : EnvVar) (val : List UInt8) :
    (setenv B s var val).lastIds = s.lastIds ∧ (setenv B s var val).lastParts = s.lastParts ∧
      (setenv B s var val).lastPartition = s.lastPartition := by
  rw [setenv]
  split_ifs
  · exact ⟨rfl, rfl, rfl⟩
  · exact ⟨rfl, rfl, rfl⟩

theorem inFront_setenv (s : State) (val : List UInt8) :
    (setenv B s .mtdids val).inFront = s.inFront := by
  rw [setenv]
  split_ifs
  · rfl
  · rfl

theorem unset_devicesInit (s : State) : (devicesInit B s).env .partition = none :=
  unsetenv_env_self { s with lastParts := [], currentDev := none } .partition

/-- Where `partition` is not in front, the copy is of the string. -/
theorem copyOk_of_inFront {s : State} (h : s.inFront = false ∨ s.env .partition = none) :
    CopyOk B s := by
  intro t ids parts henv _ _ _
  have ht : t.inFront = false ∨ t.env .partition = none := by
    rw [initEnv] at henv
    split at henv
    · obtain ⟨rfl, -⟩ := Prod.mk.inj (Option.some.inj henv)
      exact h
    · obtain ⟨rfl, -⟩ := Prod.mk.inj (Option.some.inj henv)
      rw [inFront_setenv, setenv_env_of_ne s (by decide)]
      exact h
    · cases henv
  have hids : (initIds B t ids).1.inFront = false ∨ (initIds B t ids).1.env .partition = none := by
    rw [initIds]
    split_ifs
    · exact ht
    · dsimp only
      split_ifs
      · exact ht
      · exact .inr (unset_devicesInit _)
  rw [copyParts, if_neg]
  rintro ⟨hfront, hset⟩
  rcases hids with hids | hids
  · rw [hids] at hfront
    cases hfront
  · exact hset hids

theorem lastIds_currentSave (s : State) : (currentSave B s).lastIds = s.lastIds := by
  rw [currentSave]
  split
  · exact (setenv_copies s _ _).1
  · rfl

theorem lastParts_currentSave (s : State) : (currentSave B s).lastParts = s.lastParts := by
  rw [currentSave]
  split
  · exact (setenv_copies s _ _).2.1
  · rfl

theorem env_currentSave (s : State) {var : EnvVar} (hvar : var ≠ .partition) :
    (currentSave B s).env var = s.env var := by
  rw [currentSave]
  split
  · exact setenv_env_of_ne s hvar _
  · exact unsetenv_env_of_ne s hvar

/-- **`current_save`** puts the current partition into the environment. -/
theorem saved_currentSave (hroom : Roomy B) {s : State} (hs : Wf s) : Saved (currentSave B s) := by
  intro hcurrent
  rw [(sameLists_currentSave B s).currentDev] at hcurrent
  obtain ⟨addr, haddr⟩ := Option.ne_none_iff_exists'.mp hcurrent
  obtain ⟨dev, hdev, rfl, hlt⟩ := hs.current addr haddr
  have hwf := hs.devices dev hdev
  have hbind : (s.currentDev.bind fun addr => deviceAt s.devices addr) = some dev := by
    rw [haddr, Option.bind_some, deviceAt_eq_some hs.nodup hdev]
  rw [currentSave, hbind]
  refine ⟨setenv_env_self hroom s _ _, length_partitionText hwf.num ?_⟩
  exact Nat.lt_of_lt_of_le hlt hwf.short

theorem SavedBy.saved (hroom : Roomy B) {s t : State} (h : SavedBy B s t) (hs : Saved s)
    (ht : Wf t) : Saved t := by
  obtain ⟨-, -, ⟨s', rfl⟩ | ⟨henv, hlast, hdev⟩⟩ := h
  · have hsame := sameLists_currentSave B s'
    exact saved_currentSave hroom
      (SameLists.wf ⟨hsame.ids.symm, hsame.devices.symm, hsame.currentDev.symm,
        hsame.currentPartnum.symm, hsame.next.symm⟩ ht)
  · rw [Saved, henv, hlast, hdev]
    exact hs

theorem Sync.generateSave (hroom : Roomy B) {s t : State} (hs : Sync s) (h : SavedBy B s t)
    (ht : Wf t) (hcurrent : t.devices ≠ [] → t.currentDev ≠ none) :
    Sync (generateSave B t).1 := by
  have hsaved := h.saved hroom hs.saved ht
  obtain ⟨hids, henv, -⟩ := h
  have hids' : t.lastIds ≠ [] ∧ t.env .mtdids = some t.lastIds ∧ t.lastIds.length ≤ 127 := by
    rw [hids, henv]
    exact hs.ids
  have hunset : Sync (unsetenv { t with lastParts := [] } .mtdparts) := by
    refine ⟨⟨hids'.1, ?_, hids'.2.2⟩, ?_, ?_, fun h => h.elim (absurd rfl) hcurrent⟩
    · exact (unsetenv_env_of_ne _ (by decide)).trans hids'.2.1
    · exact unsetenv_env_self _ _
    · intro hdev
      exact ⟨(unsetenv_env_of_ne _ (by decide)).trans (hsaved hdev).1, (hsaved hdev).2⟩
  rw [Mtd.generateSave]
  split
  · exact hunset
  · exact hunset
  · next buf hne hgen =>
    have hset := setenv_copies (B := B) { t with lastParts := buf } .mtdparts buf
    have hsame := sameLists_setenv B { t with lastParts := buf } .mtdparts buf
    refine ⟨?_, ?_, ?_, ?_⟩
    · rw [hset.1, setenv_env_of_ne _ (by decide)]
      exact hids'
    · rw [hset.2.1, setenv_env_self hroom]
      exact (if_neg fun hnil => hne hnil).symm
    · intro hdev
      rw [hsame.currentDev] at hdev
      rw [hset.2.2, setenv_env_of_ne _ (by decide)]
      exact hsaved hdev
    · intro _
      rw [hsame.currentDev]
      refine hcurrent fun hnil => ?_
      rw [generateMtdparts, if_pos hnil] at hgen
      exact hne (Option.some.inj hgen).symm

/-! ## What is parsed -/

theorem idParse_spec {p rest : List UInt8} {type : DevType} {num : ℕ}
    (h : idParse p = some (type, num, rest)) : num < 256 ∧ rest.length ≤ p.length := by
  obtain ⟨r, hr, h⟩ := Option.bind_eq_some_iff.mp h
  split_ifs at h
  obtain ⟨-, hrest⟩ := Prod.mk.inj (Option.some.inj h)
  obtain ⟨rfl, rfl⟩ := Prod.mk.inj hrest
  refine ⟨Nat.mod_lt _ (by decide), ?_⟩
  have htype : r.2.length ≤ p.length := by
    unfold typeParse at hr
    split at hr
    all_goals cases hr
    all_goals
      simp only [List.length_cons]
      omega
  exact ((length_simpleStrtoul r.2 0).elim Nat.le_of_lt fun h => by rw [h.2]).trans htype

theorem idsLoop_forall {P : MtdId → Prop} {n : ℕ}
    (hnew : ∀ addr type num size mtdId, num < 256 → mtdId.length ≤ n →
      P ⟨addr, type, num, size % 2 ^ 32, mtdId⟩)
    {fuel addr : ℕ} {ids : List MtdId} {p : List UInt8} (hids : ∀ id ∈ ids, P id)
    (hp : p.length ≤ n) : ∀ id ∈ (idsLoop B fuel addr ids p).1, P id := by
  have hnone : ∀ id ∈ ([] : List MtdId), P id := fun id hid => absurd hid List.not_mem_nil
  induction fuel generalizing addr ids p with
  | zero => exact hnone
  | succ fuel ih =>
    rw [idsLoop]
    split
    · exact hnone
    · next type num p' hparse =>
      obtain ⟨hnum, hlen⟩ := idParse_spec hparse
      split
      · next mtdId =>
        rw [List.length_cons] at hlen
        split
        · exact hids
        · next size _ =>
          split_ifs
          · exact hnone
          · have hmore : ∀ id ∈ ids ++
                [⟨addr, type, num, size % 2 ^ 32, mtdId.takeWhile (· ≠ 44)⟩], P id := by
              intro id hid
              rcases List.mem_append.mp hid with hold | hlast
              · exact hids id hold
              · obtain rfl := List.mem_singleton.mp hlast
                refine hnew addr type num size _ hnum ?_
                exact (List.takeWhile_sublist _).length_le.trans (by omega)
            dsimp only
            split
            · exact hmore
            · next c rest hdrop =>
              split_ifs
              · exact hmore
              · refine ih hmore ?_
                have hle := List.length_dropWhile_le (fun c : UInt8 => decide (c ≠ 44)) mtdId
                rw [hdrop, List.length_cons] at hle
                omega
      · exact hnone

theorem DeviceWf.mono {next next' : ℕ} {dev : MtdDevice} (h : DeviceWf next dev)
    (hle : next ≤ next') : DeviceWf next' dev :=
  ⟨h.nonempty, h.sorted, h.nodup, h.fresh.trans_le hle,
    fun part hpart => (h.partsFresh part hpart).trans_le hle, h.short, h.num⟩

theorem DeviceWf.of_deviceParse {ids : List MtdId} {devices : List MtdDevice} {addr addr' : ℕ}
    {p ret : List UInt8} {dev : MtdDevice} (hids : ∀ id ∈ ids, id.num < 256)
    (hp : p.length ≤ 512) (h : deviceParse B ids devices addr p = some (dev, ret, addr')) :
    DeviceWf addr' dev ∧ dev.addr = addr ∧ addr < addr' ∧
      (∀ part ∈ dev.parts, addr < part.addr) ∧ ret.length ≤ p.length := by
  obtain ⟨hok, hid, haddr, hnodup, hlt, hparts, hcount, hret⟩ := deviceParse_spec h
  refine ⟨⟨hok.nonempty, hok.sorted, hnodup, haddr.trans_lt hlt,
    fun part hpart => (hparts part hpart).2, by omega, ?_⟩, haddr, hlt,
    fun part hpart => (hparts part hpart).1, hret⟩
  exact hids dev.id (List.mem_of_find?_eq_some hid)

theorem devicesLoop_spec {ids : List MtdId} {fuel addr : ℕ} {devices : List MtdDevice}
    {p : List UInt8} {r : List MtdDevice × ℕ} (hids : ∀ id ∈ ids, id.num < 256)
    (hp : p.length ≤ 512) (hdevices : ∀ dev ∈ devices, DeviceWf addr dev)
    (hnodup : (devices.map MtdDevice.addr).Nodup)
    (h : devicesLoop B ids fuel addr devices p = some r) :
    (∀ dev ∈ r.1, DeviceWf r.2 dev) ∧ (r.1.map MtdDevice.addr).Nodup := by
  induction fuel generalizing addr devices p with
  | zero => exact nomatch h
  | succ fuel ih =>
    rw [devicesLoop] at h
    obtain ⟨⟨dev, ret, addr'⟩, hparse, h⟩ := Option.bind_eq_some_iff.mp h
    obtain ⟨hwf, haddr, hlt, -, hret⟩ := DeviceWf.of_deviceParse hids hp hparse
    have hall : ∀ d ∈ devices ++ [dev], DeviceWf addr' d := by
      intro d hd
      rcases List.mem_append.mp hd with hold | hlast
      · exact (hdevices d hold).mono hlt.le
      · rw [List.mem_singleton.mp hlast]
        exact hwf
    have hnodup' : ((devices ++ [dev]).map MtdDevice.addr).Nodup := by
      rw [List.map_append, List.map_singleton, haddr]
      refine List.nodup_append.mpr ⟨hnodup, List.nodup_singleton _, fun a ha b hb heq => ?_⟩
      obtain ⟨d, hd, rfl⟩ := List.mem_map.mp ha
      rw [List.mem_singleton.mp hb] at heq
      exact absurd (hdevices d hd).fresh (by omega)
    split_ifs at h with hfound hend
    · obtain rfl := Option.some.inj h
      exact ⟨hall, hnodup'⟩
    · exact ih (hret.trans hp) hall hnodup' h

/-! ## `mtdparts_init` -/

/-- **The ways out of `mtdparts_init`.** -/
theorem mtdpartsInit_cases (s : State) :
    mtdpartsInit B s = (s, false) ∨ ∃ s' ids, initEnv B s = some (s', ids) ∧
      (mtdpartsInit B s = (s', false) ∨ ids.length ≤ 127 ∧
        ((initIds B s' ids).2.1 = false ∧ mtdpartsInit B s = ((initIds B s' ids).1, false) ∨
          (initIds B s' ids).2.1 = true ∧
            (s.env .mtdparts = none ∧ mtdpartsInit B s =
                (if (initIds B s' ids).1.lastParts ≠ [] then
                  (devicesInit B (initIds B s' ids).1, true) else ((initIds B s' ids).1, true)) ∨
              ∃ parts, s.env .mtdparts = some parts ∧ parts.length ≤ 511 ∧ mtdpartsInit B s =
                let t := initParts B (initIds B s' ids).1 parts (initIds B s' ids).2.2
                if t.2 then (initPartition B t.1 (((s.env .partition).getD []).take 16), true)
                else (t.1, false)))) := by
  rw [mtdpartsInit]
  dsimp only
  cases henv : initEnv B s with
  | none => exact .inl rfl
  | some r =>
    obtain ⟨s', ids⟩ := r
    refine .inr ⟨s', ids, rfl, ?_⟩
    dsimp only
    by_cases hlong : 128 - 1 < ids.length
    · exact .inl (if_pos hlong)
    rw [if_neg hlong]
    by_cases hlong' : ((s.env .mtdparts).any fun parts => 512 - 1 < parts.length) = true
    · exact .inl (if_pos hlong')
    rw [if_neg hlong']
    refine .inr ⟨Nat.le_of_not_lt hlong, ?_⟩
    by_cases hfailed : (initIds B s' ids).2.1 = false
    · exact .inl ⟨hfailed, if_pos hfailed⟩
    rw [if_neg hfailed]
    refine .inr ⟨Bool.of_not_eq_false hfailed, ?_⟩
    cases hparts : s.env .mtdparts with
    | none => exact .inl ⟨rfl, rfl⟩
    | some parts =>
      rw [hparts] at hlong'
      exact .inr ⟨parts, rfl, Nat.le_of_not_lt fun h => hlong' (decide_eq_true h), rfl⟩

/-- **Once everything agrees**, `mtdparts_init` changes nothing. -/
theorem Sync.mtdpartsInit {s : State} (hs : Sync s) : (mtdpartsInit B s).1 = s := by
  have henv : initEnv B s = some (s, s.lastIds) := by
    rw [initEnv, hs.ids.2.1]
  have hids : initIds B s s.lastIds = (s, true, false) := if_pos ⟨hs.ids.1, rfl⟩
  rw [Mtd.mtdpartsInit]
  dsimp only
  rw [henv]
  dsimp only
  rw [if_neg (Nat.not_lt_of_le hs.ids.2.2), hids]
  by_cases hlong : ((s.env .mtdparts).any fun parts => 512 - 1 < parts.length) = true
  · rw [if_pos hlong]
  · rw [if_neg hlong]
    dsimp only
    rw [if_neg Bool.true_eq_false.mp, hs.parts]
    by_cases hlast : s.lastParts = []
    · rw [if_pos hlast]
      dsimp only
      rw [if_neg fun hne => hne hlast]
    · rw [if_neg hlast]
      obtain ⟨hpartition, hshort⟩ := hs.saved (hs.current (.inl hlast))
      have hparts : initParts B s s.lastParts false = (s, true) := by
        rw [initParts, if_neg]
        rintro (hnil | hne | hchanged)
        · exact hlast hnil
        · exact hne rfl
        · exact Bool.false_ne_true hchanged
      have htake : (((s.env .partition).getD []).take 16) = s.lastPartition := by
        rw [hpartition]
        exact List.take_of_length_le hshort
      have hinit : initPartition B s s.lastPartition = s := by
        rw [initPartition, if_neg fun h => h.2 rfl, if_neg]
        rw [hpartition]
        exact Option.some_ne_none _
      dsimp only
      rw [hparts, htake, if_pos rfl, hinit]

theorem devicesInit_spec {s : State}
    (hids : ∀ id ∈ s.ids, id.num < 256 ∧ id.mtdId.length ≤ 128) :
    Wf (devicesInit B s) ∧ Idle (devicesInit B s) ∧ (devicesInit B s).ids = s.ids ∧
      (devicesInit B s).lastIds = s.lastIds ∧
      ∀ var, var ≠ .partition → (devicesInit B s).env var = s.env var := by
  have hsame := sameLists_currentSave B { s with lastParts := [], currentDev := none }
  have hcurrent : (devicesInit B s).currentDev = none := hsame.currentDev
  refine ⟨⟨?_, fun dev hdev => absurd hdev List.not_mem_nil, List.nodup_nil, fun addr haddr => ?_⟩,
    ⟨rfl, hcurrent, ?_⟩, hsame.ids, ?_, fun var hvar => ?_⟩
  · show ∀ id ∈ (currentSave B { s with lastParts := [], currentDev := none }).ids, _
    rw [hsame.ids]
    exact hids
  · rw [hcurrent] at haddr
    exact nomatch haddr
  · exact lastParts_currentSave _
  · exact lastIds_currentSave _
  · exact env_currentSave (B := B) { s with lastParts := [], currentDev := none } hvar

/-- The lists and the copies between the commands. -/
structure Inv (s : State) : Prop where
  wf : Wf s
  sync : Sync s ∨ Idle s

theorem initEnv_spec (hroom : Roomy B) {s s' : State} {ids : List UInt8} (hs : Wf s)
    (hidle : Idle s) (h : initEnv B s = some (s', ids)) :
    Wf s' ∧ Idle s' ∧ s'.env .mtdids = some ids ∧
      ∀ var, var ≠ .mtdids → s'.env var = s.env var := by
  rw [initEnv] at h
  split at h
  · next hids =>
    obtain ⟨rfl, rfl⟩ := Prod.mk.inj (Option.some.inj h)
    exact ⟨hs, hidle, hids, fun var _ => rfl⟩
  · next dflt _ _ =>
    obtain ⟨rfl, rfl⟩ := Prod.mk.inj (Option.some.inj h)
    have hsame := sameLists_setenv B s .mtdids dflt
    exact ⟨hsame.wf hs, ⟨hsame.devices.trans hidle.devices,
      hsame.currentDev.trans hidle.currentDev, (setenv_copies s _ _).2.1.trans hidle.lastParts⟩,
      setenv_env_self hroom s _ _, fun var hvar => setenv_env_of_ne s hvar _⟩
  · exact nomatch h

theorem initIds_spec {s : State} (hs : Wf s) (hidle : Idle s) {ids : List UInt8}
    (hlen : ids.length ≤ 127) :
    Wf (initIds B s ids).1 ∧ Idle (initIds B s ids).1 ∧
      (∀ var, var ≠ .partition → (initIds B s ids).1.env var = s.env var) ∧
      ((initIds B s ids).2.1 = true →
        (initIds B s ids).1.lastIds = ids ∧ ids ≠ []) := by
  rw [initIds]
  split_ifs with hlast
  · exact ⟨hs, hidle, fun var _ => rfl, fun _ => ⟨hlast.2, hlast.2 ▸ hlast.1⟩⟩
  · have hloop : ∀ id ∈ (idsLoop B (ids.length + 1) s.next [] ids).1,
        id.num < 256 ∧ id.mtdId.length ≤ 128 :=
      idsLoop_forall (fun _ _ _ _ _ hnum hname => ⟨hnum, hname⟩)
        (fun id hid => absurd hid List.not_mem_nil) (by omega)
    dsimp only
    split_ifs with hok
    · refine ⟨⟨hloop, ?_, ?_, ?_⟩, ⟨hidle.devices, hidle.currentDev, hidle.lastParts⟩,
        fun var _ => rfl, fun _ => ⟨rfl, ?_⟩⟩
      · intro dev hdev
        exact absurd (hidle.devices ▸ hdev) List.not_mem_nil
      · show (s.devices.map MtdDevice.addr).Nodup
        exact hs.nodup
      · intro addr haddr
        exact absurd (hidle.currentDev ▸ haddr) (Option.some_ne_none addr).symm
      · rintro rfl
        exact Bool.false_ne_true hok
    · obtain ⟨hwf, hidle', -, -, henv⟩ := devicesInit_spec (B := B) (s := (parseMtdids B s ids).1)
        hloop
      exact ⟨hwf, hidle', fun var hvar => henv var hvar, fun h => absurd h id⟩

theorem initParts_spec {s : State} (hs : Wf s) (hidle : Idle s) {parts : List UInt8}
    (hlen : parts.length ≤ 511) (changed : Bool)
    (hcopy : (parseMtdparts B s parts).2 = true → copyParts B s parts = parts) :
    Wf (initParts B s parts changed).1 ∧
      (∀ var, var ≠ .partition → (initParts B s parts changed).1.env var = s.env var) ∧
      (initParts B s parts changed).1.lastIds = s.lastIds ∧
      ((initParts B s parts changed).2 = false → Idle (initParts B s parts changed).1) ∧
      ((initParts B s parts changed).2 = true →
        parts ≠ [] ∧ (initParts B s parts changed).1.lastParts = parts ∧
          (initParts B s parts changed).1.currentDev ≠ none ∧
          ∃ s', (initParts B s parts changed).1 = currentSave B s') := by
  obtain ⟨hwf, hidle', hids, hlast, henv⟩ := devicesInit_spec (B := B) hs.ids
  rw [initParts, if_pos (.inl hidle.lastParts)]
  rw [parseMtdparts] at hcopy ⊢
  dsimp only
  cases hparse : parseDevices B (devicesInit B s).ids (devicesInit B s).next parts with
  | none =>
    exact ⟨hwf, henv, hlast, fun _ => hidle', fun h => absurd h Bool.false_ne_true⟩
  | some r =>
    obtain ⟨devices, next⟩ := r
    have hparse' := hparse
    rw [parseDevices] at hparse
    split_ifs at hparse with hprefix
    have hdrop : (parts.drop 9).length ≤ 512 := by
      rw [List.length_drop]
      omega
    obtain ⟨hall, hnodup⟩ := devicesLoop_spec (fun id hid => (hwf.ids id hid).1) hdrop
      (fun dev hdev => absurd hdev List.not_mem_nil) List.nodup_nil hparse
    rw [hparse'] at hcopy
    dsimp only
    rw [if_pos rfl, hcopy rfl]
    cases devices with
    | nil =>
      exact ⟨⟨hwf.ids, hall, hnodup, fun addr haddr => absurd (hidle'.currentDev ▸ haddr)
        (Option.some_ne_none addr).symm⟩, henv, hlast, fun _ => ⟨rfl, hidle'.currentDev,
        hidle'.lastParts⟩, fun h => absurd h Bool.false_ne_true⟩
    | cons first rest =>
      have hsame := sameLists_currentSave B { devicesInit B s with
        devices := first :: rest, next := next, lastParts := parts
        currentDev := some first.addr, currentPartnum := 0 }
      refine ⟨hsame.wf ⟨hwf.ids, hall, hnodup, fun addr haddr => ?_⟩, fun var hvar => ?_, ?_,
        fun h => absurd h Bool.true_eq_false.mp, fun _ => ⟨?_, ?_, ?_, _, rfl⟩⟩
      · obtain rfl := Option.some.inj haddr
        exact ⟨first, List.mem_cons_self, rfl,
          List.length_pos_of_ne_nil (hall first List.mem_cons_self).nonempty⟩
      · exact (env_currentSave _ hvar).trans (henv var hvar)
      · exact (lastIds_currentSave _).trans hlast
      · rintro rfl
        exact absurd hprefix.length_le (by decide)
      · exact lastParts_currentSave _
      · rw [hsame.currentDev]
        exact Option.some_ne_none _

theorem findName_spec {name : List UInt8} {devices : List MtdDevice} {dev : MtdDevice}
    {pnum : ℕ} {part : PartInfo} (hshort : ∀ dev ∈ devices, dev.parts.length ≤ 256)
    (h : findName name devices = some (dev, pnum, part)) :
    dev ∈ devices ∧ dev.parts[pnum]? = some part := by
  induction devices with
  | nil => exact nomatch h
  | cons d devices ih =>
    rw [findName] at h
    split at h
    · next part' hfind =>
      obtain ⟨rfl, hrest⟩ := Prod.mk.inj (Option.some.inj h)
      obtain ⟨rfl, rfl⟩ := Prod.mk.inj hrest
      refine ⟨List.mem_cons_self, ?_⟩
      have hlen := hshort d List.mem_cons_self
      have hlt : d.parts.findIdx (fun part => decide (part.name = name)) < d.parts.length := by
        have hname := List.find?_some hfind
        exact List.findIdx_lt_length_of_exists ⟨part', List.mem_of_find?_eq_some hfind, hname⟩
      rw [Nat.mod_eq_of_lt (by omega), ← hfind, List.find?_eq_getElem?_findIdx]
    · obtain ⟨hmem, hget⟩ := ih (fun dev hdev => hshort dev (List.mem_cons_of_mem d hdev)) h
      exact ⟨List.mem_cons_of_mem d hmem, hget⟩

/-- **`find_dev_and_part`** gives a partition of a device of the list, with its number. -/
theorem findDevAndPart_spec {s : State} (hs : Wf s) {id : List UInt8} {dev : MtdDevice} {pnum : ℕ}
    {part : PartInfo} (h : findDevAndPart s id = some (dev, pnum, part)) :
    dev ∈ s.devices ∧ dev.parts[pnum]? = some part := by
  rw [findDevAndPart] at h
  split at h
  · next r hname =>
    obtain rfl := Option.some.inj h
    exact findName_spec (fun dev hdev => (hs.devices dev hdev).short) hname
  · split at h
    · exact nomatch h
    · split at h
      · dsimp only at h
        split_ifs at h
        obtain ⟨d, hd, h⟩ := Option.bind_eq_some_iff.mp h
        obtain ⟨p, hp, hmade⟩ := Option.map_eq_some_iff.mp h
        obtain ⟨rfl, hrest⟩ := Prod.mk.inj hmade
        obtain ⟨rfl, rfl⟩ := Prod.mk.inj hrest
        exact ⟨List.mem_of_find?_eq_some hd, hp⟩
      · exact nomatch h

theorem Wf.setCurrent {s : State} (hs : Wf s) {dev : MtdDevice} {pnum : ℕ} {part : PartInfo}
    (hdev : dev ∈ s.devices) (hpart : dev.parts[pnum]? = some part) :
    Wf { s with currentDev := some dev.addr, currentPartnum := pnum } := by
  refine ⟨hs.ids, hs.devices, hs.nodup, fun addr haddr => ?_⟩
  obtain rfl := Option.some.inj haddr
  exact ⟨dev, hdev, rfl, (List.getElem?_eq_some_iff.mp hpart).1⟩

theorem Sync.currentSave (hroom : Roomy B) {s : State} (hs : Wf s)
    (hids : s.lastIds ≠ [] ∧ s.env .mtdids = some s.lastIds ∧ s.lastIds.length ≤ 127)
    (hparts : s.env .mtdparts = if s.lastParts = [] then none else some s.lastParts)
    (hcurrent : s.lastParts ≠ [] ∨ s.devices ≠ [] → s.currentDev ≠ none) :
    Sync (currentSave B s) := by
  refine ⟨?_, ?_, saved_currentSave hroom hs, ?_⟩
  · rw [lastIds_currentSave, env_currentSave s (by decide)]
    exact hids
  · rw [lastParts_currentSave, env_currentSave s (by decide)]
    exact hparts
  · have hsame := sameLists_currentSave B s
    rw [lastParts_currentSave, hsame.currentDev, hsame.devices]
    exact hcurrent

theorem initPartition_spec (hroom : Roomy B) {s : State} (hs : Wf s) (hsync : Sync s)
    (tmpEp : List UInt8) :
    Wf (initPartition B s tmpEp) ∧ Sync (initPartition B s tmpEp) := by
  rw [initPartition]
  split_ifs
  · split
    · next dev pnum part hfind =>
      obtain ⟨hdev, hpart⟩ := findDevAndPart_spec hs hfind
      have hwf := hs.setCurrent hdev hpart
      exact ⟨(sameLists_currentSave B _).wf hwf,
        Sync.currentSave hroom hwf hsync.ids hsync.parts fun _ => Option.some_ne_none _⟩
    · exact ⟨hs, hsync⟩
  · exact ⟨(sameLists_currentSave B s).wf hs,
      Sync.currentSave hroom hs hsync.ids hsync.parts hsync.current⟩
  · exact ⟨hs, hsync⟩

/-- **`mtdparts_init`** leaves lists that agree with the environment, or none. -/
theorem Inv.mtdpartsInit (hroom : Roomy B) {s : State} (hs : Inv s) (hcopy : CopyOk B s) :
    Inv (mtdpartsInit B s).1 ∧ ((mtdpartsInit B s).2 = true → Sync (Mtd.mtdpartsInit B s).1) := by
  obtain ⟨hwf, hsync | hidle⟩ := hs
  · rw [hsync.mtdpartsInit]
    exact ⟨⟨hwf, .inl hsync⟩, fun _ => hsync⟩
  have hfail : ∀ {t : State}, Wf t → Idle t →
      Inv t ∧ ((t, false).2 = true → Sync t) := fun hwf hidle =>
    ⟨⟨hwf, .inr hidle⟩, fun h => absurd h Bool.false_ne_true⟩
  have hdone : ∀ {t : State} {ok : Bool}, Wf t → Sync t → Inv t ∧ (ok = true → Sync t) :=
    fun hwf hsync => ⟨⟨hwf, .inl hsync⟩, fun _ => hsync⟩
  rcases mtdpartsInit_cases (B := B) s with heq | ⟨s', ids, henv, hrest⟩
  · rw [heq]
    exact hfail hwf hidle
  obtain ⟨hwf', hidle', hids, hother⟩ := initEnv_spec hroom hwf hidle henv
  obtain heq | ⟨hlong, hrest⟩ := hrest
  · rw [heq]
    exact hfail hwf' hidle'
  obtain ⟨hwf₁, hidle₁, henv₁, hok₁⟩ := initIds_spec (B := B) hwf' hidle' hlong
  obtain ⟨-, heq⟩ | ⟨hok, hrest⟩ := hrest
  · rw [heq]
    exact hfail hwf₁ hidle₁
  obtain ⟨hlast₁, hne₁⟩ := hok₁ hok
  have hids₁ : (initIds B s' ids).1.env .mtdids = some ids :=
    (henv₁ .mtdids (by decide)).trans hids
  have hparts₁ : (initIds B s' ids).1.env .mtdparts = s.env .mtdparts :=
    (henv₁ .mtdparts (by decide)).trans (hother .mtdparts (by decide))
  obtain ⟨hparts, heq⟩ | ⟨parts, hparts, hlen, heq⟩ := hrest
  · rw [heq, if_neg fun hne => hne hidle₁.lastParts]
    refine hdone hwf₁ ⟨?_, ?_, fun hne => absurd hidle₁.currentDev hne,
      fun h => h.elim (absurd hidle₁.lastParts) (absurd hidle₁.devices)⟩
    · rw [hlast₁]
      exact ⟨hne₁, hids₁, hlong⟩
    · rw [hparts₁, hparts, hidle₁.lastParts]
      rfl
  · obtain ⟨hwf₂, henv₂, hlast₂, hidle₂, hok₂⟩ :=
      initParts_spec (B := B) hwf₁ hidle₁ hlen (initIds B s' ids).2.2
        (hcopy s' ids parts henv hparts (.inl hidle₁.lastParts))
    rw [heq]
    dsimp only
    by_cases hfailed₂ : (initParts B (initIds B s' ids).1 parts (initIds B s' ids).2.2).2 = true
    · rw [if_pos hfailed₂]
      obtain ⟨hne, hlast, hcurrent, t, ht⟩ := hok₂ hfailed₂
      have hsync : Sync (initParts B (initIds B s' ids).1 parts (initIds B s' ids).2.2).1 := by
        refine ⟨?_, ?_, ?_, fun _ => hcurrent⟩
        · rw [hlast₂, hlast₁, henv₂ .mtdids (by decide)]
          exact ⟨hne₁, hids₁, hlong⟩
        · rw [henv₂ .mtdparts (by decide), hparts₁, hparts, hlast, if_neg hne]
        · rw [ht] at hwf₂ ⊢
          have hsame := sameLists_currentSave B t
          exact saved_currentSave hroom (SameLists.wf ⟨hsame.ids.symm, hsame.devices.symm,
            hsame.currentDev.symm, hsame.currentPartnum.symm, hsame.next.symm⟩ hwf₂)
      obtain ⟨hwf₃, hsync₃⟩ := initPartition_spec hroom hwf₂ hsync
        (((s.env .partition).getD []).take 16)
      exact hdone hwf₃ hsync₃
    · rw [if_neg hfailed₂]
      exact hfail hwf₂ (hidle₂ (Bool.of_not_eq_true hfailed₂))

end Mtd
end EmevBsp
