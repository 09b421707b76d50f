import EmevBsp.Env.Image
import EmevBsp.Env.SetenvSpec
import EmevBsp.Library.TransitionSystem

/-!
# Runs of `_do_setenv`

The environment over any sequence of calls.  The array stays the representation of a map,
whatever is called (`exists_envRep_of_reachable`), and a call edits that map as it should
(`setenv_orderedMap`).

The stored check is another matter.  Every return of the function comes after
`env_crc_update ()` or before the array was touched, with one exception: the overflow.  It is
noticed after the old definition was removed, and returns without the update; deleting a
variable, which leaves the same array behind, does update the check.
-/

namespace EmevBsp
namespace Env

/-- Any calls, from the environments that meet `start`. -/
def setenvSystem (cfg : SetenvConfig) (start : Globals → Prop) :
    TransitionSystem Globals SetenvCall where
  init := start
  step g c g' := ∃ err, doSetenv cfg g c = some (err, g')

/-- The array represents a map. -/
def WellFormed (g : Globals) : Prop := ∃ m : Vars, EnvRep g.env.data m

theorem wellFormed_step {cfg : SetenvConfig} {g g' : Globals} {c : SetenvCall}
    {err : Option SetenvError} (hwf : WellFormed g) (hcall : doSetenv cfg g c = some (err, g')) :
    WellFormed g' := by
  obtain ⟨m, hrep⟩ := hwf
  obtain ⟨err', g'', m', hcall', hrep', -⟩ := doSetenv_total cfg hrep c
  rw [hcall] at hcall'
  obtain ⟨-, rfl⟩ := Prod.mk.inj (Option.some.inj hcall')
  exact ⟨m', hrep'⟩

theorem exists_envRep_of_reachable {cfg : SetenvConfig} {start : Globals → Prop}
    (hstart : ∀ g, start g → WellFormed g) {g : Globals}
    (h : (setenvSystem cfg start).Reachable g) : WellFormed g :=
  h.invariant hstart fun _ _ _ hwf ⟨_, hcall⟩ => wellFormed_step hwf hcall

/-! ## The check -/

/-- The state the runs start in: a well-formed environment with the right check. -/
def GoodStart (g : Globals) : Prop := WellFormed g ∧ CrcOk g.env

/-- The call gets past the checks, its name is defined, and the new definition does not fit
once the old one is gone. -/
def OverflowAfterDelete (cfg : SetenvConfig) (g : Globals) (c : SetenvCall) : Prop :=
  ∃ (m : Vars) (s : VarName) (v : CString), EnvRep g.env.data m ∧ c.name = s.toCString ∧
    m.lookup s = some v ∧ setenvGuard cfg c v.bytes = none ∧ c.args.list ≠ [] ∧
    Vars.bytesLeft (m.erase s) g.env.data.length < setenvLen s.toCString c.args.list

theorem setenv_fst_ne_none {m : Vars} {envSize : ℕ} {s : VarName} {l : List CString}
    (h : (m.setenv envSize s l).1 ≠ none) :
    l ≠ [] ∧ Vars.bytesLeft (m.erase s) envSize < setenvLen s.toCString l := by
  cases l with
  | nil => exact absurd rfl h
  | cons v vs =>
    refine ⟨by simp, ?_⟩
    by_contra hfit
    exact h (by simp [Vars.setenv, hfit])

theorem crcOk_step {cfg : SetenvConfig} {g g' : Globals} {c : SetenvCall}
    {err : Option SetenvError} (hwf : WellFormed g) (hcrc : CrcOk g.env)
    (hok : ¬ OverflowAfterDelete cfg g c) (hcall : doSetenv cfg g c = some (err, g')) :
    CrcOk g'.env := by
  obtain ⟨m, hrep⟩ := hwf
  by_cases hname : eqSign ∈ c.name.bytes
  · rw [doSetenv_of_eqSign cfg g hname] at hcall
    obtain ⟨-, rfl⟩ := Prod.mk.inj (Option.some.inj hcall)
    exact hcrc
  · cases herr : guardError cfg c m (nameOf c.name hname) with
    | some e =>
      rw [doSetenv_of_guard cfg hrep rfl herr] at hcall
      obtain ⟨-, rfl⟩ := Prod.mk.inj (Option.some.inj hcall)
      exact hcrc
    | none =>
      obtain ⟨g'', hcall', hpost, hdata⟩ :=
        doSetenv_spec cfg hrep (s := nameOf c.name hname) rfl herr
      rw [hcall'] at hcall
      obtain ⟨-, rfl⟩ := Prod.mk.inj (Option.some.inj hcall)
      by_cases hres : (m.setenv g.env.data.length (nameOf c.name hname) c.args.list).1 = none
      · exact hpost.crcOk hres
      · -- an overflow: the name was not defined, so nothing was removed
        obtain ⟨hargs, hfit⟩ := setenv_fst_ne_none hres
        have hundef : m.lookup (nameOf c.name hname) = none := by
          by_contra hdef
          obtain ⟨v, hv⟩ := Option.ne_none_iff_exists'.mp hdef
          have hguard : setenvGuard cfg c v.bytes = none := by simpa [guardError, hv] using herr
          exact hok ⟨m, _, v, hrep, rfl, hv, hguard, hargs, hfit⟩
        rw [CrcOk, hdata hres hundef, hpost.crc hres]
        exact hcrc

/-- **The check stays right** over every run without an overflow of a defined name, so the next
`env_init` accepts what a `saveenv` writes. -/
theorem crcOk_of_reachable (cfg : SetenvConfig) {g : Globals}
    (h : ((setenvSystem cfg GoodStart).restrict
      fun g c => ¬ OverflowAfterDelete cfg g c).Reachable g) :
    CrcOk g.env ∧ (∀ c, ∃ err g', doSetenv cfg g c = some (err, g')) ∧
      ∀ envOffset w area, (saveenv envOffset w g.env area).1 = 0 →
        envInit envOffset true (saveenv envOffset w g.env area).2 = 1 := by
  have hinv : WellFormed g ∧ CrcOk g.env := by
    refine TransitionSystem.Reachable.invariant_restrict (I := fun g => WellFormed g ∧ CrcOk g.env)
      (fun _ hg => hg) (fun g c g' hg hok hstep => ?_) h
    obtain ⟨err, hcall⟩ := hstep
    exact ⟨wellFormed_step hg.1 hcall, crcOk_step hg.1 hg.2 hok hcall⟩
  obtain ⟨⟨m, hrep⟩, hcrc⟩ := hinv
  refine ⟨hcrc, fun c => ?_, fun envOffset w area hsave => (envInit_saveenv_iff hsave).mpr hcrc⟩
  obtain ⟨err, g', m', hcall, -⟩ := doSetenv_total cfg hrep c
  exact ⟨err, g', hcall⟩

/-! ### Eight bytes -/

/-- A build without the options. -/
def plainConfig : SetenvConfig where
  envOverwrite := false
  hasUid := false
  overwriteEthaddrOnce := none
  baudrateTable := [9600, 115200]
  nullText := []

/-- The globals over an array, with the right check. -/
def globalsOf (data : List UInt8) (envId : ℕ) : Globals where
  env := ⟨crc32 0 data, 0, data⟩
  envId := envId
  baudrate := 115200
  biEnetaddr := []
  biIpAddr := 0
  loadAddr := 0
  bootFile := []

/-- `a=1` in an environment of eight bytes. -/
def smallData : List UInt8 := [97, 61, 49, 0, 0, 0, 0, 0]

/-- The same array after `a` was removed. -/
def smallDataDeleted : List UInt8 := [0, 0, 49, 0, 0, 0, 0, 0]

def nameA : VarName := ⟨.ofString "a", by decide⟩

def smallVars : Vars := ⟨[(nameA, .ofString "1")], by decide⟩

theorem goodStart_smallData : GoodStart (globalsOf smallData 0) :=
  ⟨⟨smallVars, [0, 0, 0], by decide⟩, rfl⟩

/-- `setenv a 0123456789` -/
def longCall : SetenvCall := ⟨0, .ofString "a", .vals [.ofString "0123456789"], true⟩

/-- `setenv a` -/
def deleteCall : SetenvCall := ⟨0, .ofString "a", .vals [], true⟩

/-- **A run that ends with a wrong check**: `setenv a 0123456789` on the eight bytes of `a=1`.
The image a `saveenv` then writes is rejected. -/
theorem not_crcOk_of_reachable :
    ∃ g, (setenvSystem plainConfig GoodStart).Reachable g ∧ ¬ CrcOk g.env ∧
      ∀ area, (saveenv 1 .done g.env area).1 = 0 ∧
        envInit 1 true (saveenv 1 .done g.env area).2 = 0 := by
  have hcall : doSetenv plainConfig (globalsOf smallData 0) longCall =
      some (some .overflow, { globalsOf smallDataDeleted 1 with
        env := ⟨crc32 0 smallData, 0, smallDataDeleted⟩ }) := rfl
  have hcrc : ¬ CrcOk ⟨crc32 0 smallData, 0, smallDataDeleted⟩ := by decide +kernel
  refine ⟨_, .step (.init goodStart_smallData) ⟨_, hcall⟩, hcrc, fun area => ⟨rfl, ?_⟩⟩
  exact if_neg fun h => hcrc h.2.2

/-- The rule applies to the run that only deletes. -/
theorem crcOk_of_reachable_smallDataDeleted :
    CrcOk (globalsOf smallDataDeleted 1).env ∧
      envInit 1 true (saveenv 1 .done (globalsOf smallDataDeleted 1).env
        (globalsOf smallData 0).env).2 = 1 := by
  have hcall : doSetenv plainConfig (globalsOf smallData 0) deleteCall =
      some (none, globalsOf smallDataDeleted 1) := rfl
  have hok : ¬ OverflowAfterDelete plainConfig (globalsOf smallData 0) deleteCall := by
    rintro ⟨-, -, -, -, -, -, -, hargs, -⟩
    exact hargs rfl
  have h := crcOk_of_reachable plainConfig (g := globalsOf smallDataDeleted 1)
    (.step (.init goodStart_smallData) ⟨hok, _, hcall⟩)
  exact ⟨h.1, h.2.2 1 .done _ rfl⟩

/-! ## The variables -/

/-- The names `_do_setenv` has rules of its own for. -/
def specialNames : List CString :=
  [.ofString "ethaddr", .ofString "serial#", .ofString "baudrate", .ofString "stdin",
    .ofString "stdout", .ofString "stderr"]

/-- A call with a name that is not empty and not special. -/
def Ordinary (c : SetenvCall) : Prop := c.name.bytes ≠ [] ∧ c.name ∉ specialNames

theorem guardError_of_notMem (cfg : SetenvConfig) {c : SetenvCall} (hname : c.name ∉ specialNames)
    (m : Vars) (s : VarName) : guardError cfg c m s = none := by
  simp only [specialNames, List.mem_cons, List.not_mem_nil, or_false, not_or] at hname
  obtain ⟨heth, hserial, hbaud, hin, hout, herr⟩ := hname
  rw [guardError, Option.bind_eq_none_iff]
  intro v _
  simp [setenvGuard, heth, hserial, hbaud, hin, hout, herr]

theorem setenv_snd_erase (m : Vars) (envSize : ℕ) (s : VarName) (l : List CString) :
    OrderedMap.erase (m.setenv envSize s l).2 s = m.erase s := by
  have hidem : OrderedMap.erase (m.erase s) s = m.erase s :=
    OrderedMap.erase_eq_self (OrderedMap.lookup_erase_self m s)
  cases l with
  | nil => exact hidem
  | cons v vs =>
    rw [Vars.setenv]
    split
    · exact hidem
    · exact OrderedMap.erase_set m s (joinArgs v vs)

theorem setenv_fst_eq_overflow_iff (m : Vars) (envSize : ℕ) (s : VarName) (l : List CString) :
    (m.setenv envSize s l).1 = some .overflow ↔
      l ≠ [] ∧ Vars.bytesLeft (m.erase s) envSize < setenvLen s.toCString l := by
  cases l with
  | nil => simp [Vars.setenv]
  | cons v vs =>
    rw [Vars.setenv]
    split <;> simp_all

theorem setenv_fst_cases (m : Vars) (envSize : ℕ) (s : VarName) (l : List CString) :
    (m.setenv envSize s l).1 = none ∨ (m.setenv envSize s l).1 = some .overflow := by
  cases l with
  | nil => exact Or.inl rfl
  | cons v vs =>
    rw [Vars.setenv]
    split
    · exact Or.inr rfl
    · exact Or.inl rfl

theorem setenv_lookup_self (m : Vars) (envSize : ℕ) (s : VarName) (l : List CString) :
    OrderedMap.lookup (m.setenv envSize s l).2 s =
      match (m.setenv envSize s l).1, l with
      | none, v :: vs => some (joinArgs v vs)
      | _, _ => none := by
  cases l with
  | nil => exact OrderedMap.lookup_erase_self m s
  | cons v vs =>
    rw [Vars.setenv]
    split
    · exact OrderedMap.lookup_erase_self m s
    · exact OrderedMap.lookup_set_self m s _

theorem lookup_eq_of_erase_eq {m m' : Vars} {s t : VarName} (h : m'.erase s = m.erase s)
    (hne : t ≠ s) : m'.lookup t = m.lookup t := by
  rw [← OrderedMap.lookup_erase_of_ne m' hne, h, OrderedMap.lookup_erase_of_ne m hne]

/-- What the variables are after an ordinary call; `m` and `m'` are the maps before and after. -/
structure OrdinaryPost (g g' : Globals) (s : VarName) (l : List CString)
    (err : Option SetenvError) (m m' : Vars) : Prop where
  rep : EnvRep g'.env.data m'
  length : g'.env.data.length = g.env.data.length
  err_cases : err = none ∨ err = some .overflow
  overflow_iff : err = some .overflow ↔
    l ≠ [] ∧ Vars.bytesLeft (m.erase s) g.env.data.length < setenvLen s.toCString l
  getenv_set : ∀ v vs, l = v :: vs → err = none →
    getenv g'.env s.bytes = some (some (joinArgs v vs).bytes)
  getenv_delete : l = [] → getenv g'.env s.bytes = some none
  getenv_other : ∀ t : VarName, t ≠ s → getenv g'.env t.bytes = getenv g.env t.bytes
  order : m'.erase s = m.erase s

theorem doSetenv_ordinary (cfg : SetenvConfig) {g : Globals} {m : Vars}
    (hrep : EnvRep g.env.data m) {c : SetenvCall} (hc : Ordinary c) {s : VarName}
    (hs : c.name = s.toCString) :
    ∃ err g' m', doSetenv cfg g c = some (err, g') ∧ OrdinaryPost g g' s c.args.list err m m' := by
  obtain ⟨g', hcall, hpost, -⟩ := doSetenv_spec cfg hrep hs (guardError_of_notMem cfg hc.2 m s)
  have herase := setenv_snd_erase m g.env.data.length s c.args.list
  have hself := setenv_lookup_self m g.env.data.length s c.args.list
  refine ⟨_, g', _, hcall, hpost.rep, hpost.length, setenv_fst_cases _ _ _ _,
    setenv_fst_eq_overflow_iff _ _ _ _, ?_, ?_, ?_, herase⟩
  · intro v vs hargs herr
    rw [herr, hargs] at hself
    rw [hpost.rep.getenv, hargs, hself]
    rfl
  · intro hargs
    rw [hargs] at hself
    rw [hpost.rep.getenv, hargs, hself]
    cases (m.setenv g.env.data.length s []).1 <;> rfl
  · intro t hne
    rw [hpost.rep.getenv, hrep.getenv, lookup_eq_of_erase_eq herase hne]

/-- **The environment in RAM is an ordered finite map.**  After every run of ordinary calls the
array represents a map `m`, and the next call, if its name has no `'='`, edits that map and the
values `getenv` reads as `OrdinaryPost` says; a name with `'='` is refused. -/
theorem setenv_orderedMap (cfg : SetenvConfig) {g : Globals}
    (h : ((setenvSystem cfg WellFormed).restrict fun _ c => Ordinary c).Reachable g) :
    ∃ m : Vars, EnvRep g.env.data m ∧ ∀ c : SetenvCall, Ordinary c →
      (eqSign ∈ c.name.bytes → doSetenv cfg g c = some (some .illegalChar, g)) ∧
      ∀ s : VarName, c.name = s.toCString →
        ∃ err g' m', doSetenv cfg g c = some (err, g') ∧
          OrdinaryPost g g' s c.args.list err m m' := by
  obtain ⟨m, hrep⟩ := exists_envRep_of_reachable (fun _ hg => hg)
    (TransitionSystem.reachable_of_restrict h)
  exact ⟨m, hrep, fun c hc => ⟨doSetenv_of_eqSign cfg g, fun s hs =>
    doSetenv_ordinary cfg hrep hc hs⟩⟩

/-- The rule applies to the run that only deletes: the next `setenv a 1` defines `a`. -/
theorem setenv_orderedMap_smallDataDeleted :
    ∃ g' : Globals, doSetenv plainConfig (globalsOf smallDataDeleted 1)
        ⟨0, .ofString "a", .vals [.ofString "1"], true⟩ = some (none, g') ∧
      getenv g'.env nameA.bytes = some (some (CString.ofString "1").bytes) := by
  have hordinary : Ordinary deleteCall := ⟨by decide, by decide⟩
  have hcall : doSetenv plainConfig (globalsOf smallData 0) deleteCall =
      some (none, globalsOf smallDataDeleted 1) := rfl
  obtain ⟨m, hrep, hnext⟩ := setenv_orderedMap plainConfig (g := globalsOf smallDataDeleted 1)
    (.step (.init goodStart_smallData.1) ⟨hordinary, _, hcall⟩)
  obtain ⟨err, g', m', hcall', hpost⟩ := (hnext
    ⟨0, .ofString "a", .vals [.ofString "1"], true⟩ ⟨by decide, by decide⟩).2 nameA rfl
  have hempty : m = OrderedMap.empty :=
    hrep.unique (show EnvRep smallDataDeleted OrderedMap.empty from ⟨[49, 0, 0, 0, 0, 0], rfl⟩)
  have herr : err = none := by
    refine hpost.err_cases.resolve_right fun h => ?_
    have hfit := (hpost.overflow_iff.mp h).2
    rw [hempty] at hfit
    exact absurd hfit (by decide)
  refine ⟨g', herr ▸ hcall', ?_⟩
  exact hpost.getenv_set (.ofString "1") [] rfl herr

/-- **A name with `'='` can stay defined for `getenv`** after a call that should delete it:
`setenv a=b` on the environment `a=1` is refused, and `getenv ("a=b")` finds the entry. -/
theorem getenv_eqSign_after_refusal :
    ∃ (g g' : Globals) (c : SetenvCall), WellFormed g ∧ Ordinary c ∧ c.args.list = [] ∧
      doSetenv plainConfig g c = some (some .illegalChar, g') ∧
      getenv g'.env c.name.bytes = some (some (CString.ofString "1").bytes) :=
  ⟨globalsOf smallData 0, globalsOf smallData 0, ⟨0, .ofString "a=b", .vals [], true⟩,
    goodStart_smallData.1, ⟨by decide, by decide⟩, rfl, rfl, by decide⟩

end Env
end EmevBsp
