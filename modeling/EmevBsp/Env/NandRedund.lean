import EmevBsp.Env.FlashRedund
import EmevBsp.Library.TransitionSystem

/-!
# `common/env_nand.c`: the redundant environment in NAND

With `CONFIG_ENV_OFFSET_REDUND` the two copies in NAND carry a serial number of one byte in
their flags.  `saveenv` counts the serial of the environment in RAM up and writes it over the
copy that is not in use; `env_relocate_spec` takes the copy with the greater serial, with the
step from 255 to 0 as a special case.

The serial is counted up by every `saveenv`, those that fail included, but only a `saveenv`
that succeeds stores it.  So after failed saves the stored serials can be more than one apart,
and the special case for the wrap only knows serials that are one apart.

The copies are read and written as a whole; bad blocks, which `readenv` and `writeenv` skip,
do not matter here.
-/

namespace EmevBsp
namespace Env
namespace Nand

/-! ## The code -/

/-- The comparison of the serials in `env_relocate_spec`. -/
def newer (flag1 flag2 : UInt8) : Copy :=
  if flag1 = 255 ∧ flag2 = 0 then .second
  else if flag2 = 255 ∧ flag1 = 0 then .first
  else if flag1 > flag2 then .first
  else if flag2 > flag1 then .second
  else .first

/-- The copy `env_relocate_spec` takes; `none` for `use_default ()`. -/
def select (nand : Copy → EnvT) : Option Copy :=
  if ¬ CrcOk (nand .first) ∧ ¬ CrcOk (nand .second) then none
  else if CrcOk (nand .first) ∧ ¬ CrcOk (nand .second) then some .first
  else if ¬ CrcOk (nand .first) ∧ CrcOk (nand .second) then some .second
  else some (newer (nand .first).flags (nand .second).flags)

/-- U-Boot with `*env_ptr`, and `gd->env_valid` as the copy it names. -/
structure Running where
  env : EnvT
  envValid : Copy

def setDefaultEnv (dflt : List UInt8) : Running :=
  ⟨envCrcUpdate ⟨0, 0xff, dflt⟩, .first⟩

/-- `env_relocate_spec`, after `env_init` has set `gd->env_valid` to 1. -/
def envRelocateSpec (dflt : List UInt8) (nand : Copy → EnvT) : Running :=
  match select nand with
  | none => setDefaultEnv dflt
  | some c => ⟨nand c, c⟩

/-- How the erase and the write of a `saveenv` end: well, or with an error in one of them that
leaves `left` in the copy. -/
inductive NandResult where
  | ok
  | error (left : EnvT)

/-- `saveenv`: what it returns, the NAND, and what runs on; `rangeOk` is
`CONFIG_ENV_RANGE >= CONFIG_ENV_SIZE`. -/
def saveenv (rangeOk : Bool) (nand : Copy → EnvT) (r : Running) (res : NandResult) :
    ℕ × (Copy → EnvT) × Running :=
  let r := { r with env := { r.env with flags := r.env.flags + 1 } }
  if ¬ rangeOk then (1, nand, r)
  else
    let target := r.envValid.other
    match res with
    | .error left => (1, Function.update nand target left, r)
    | .ok => (0, Function.update nand target r.env, { r with envValid := target })

/-! ## Choosing -/

/-- The serial `t` of the copy just written reads as newer than the serial `s` of the other
copy. -/
def SerialOk (s t : UInt8) (target : Copy) : Prop :=
  (s = 255 ∧ t = 0) ∨ (s < t ∧ ¬ (s = 0 ∧ t = 255)) ∨ (s = t ∧ target = .first)

instance (s t : UInt8) (target : Copy) : Decidable (SerialOk s t target) :=
  inferInstanceAs (Decidable (_ ∨ _ ∨ _))

/-- The serials of the two copies in their order. -/
def serials (f : Copy → UInt8) : Copy := newer (f .first) (f .second)

theorem newer_eq_target_iff (f : Copy → UInt8) (target : Copy) :
    serials f = target ↔ SerialOk (f target.other) (f target) target := by
  have hlt : ∀ a b : UInt8, a < b ↔ a.toNat < b.toNat := fun a b => UInt8.lt_iff_toNat_lt
  have heq : ∀ a b : UInt8, a = b ↔ a.toNat = b.toNat := fun a b => UInt8.toNat_inj.symm
  have h0 : (0 : UInt8).toNat = 0 := rfl
  have h255 : (255 : UInt8).toNat = 255 := rfl
  unfold serials newer SerialOk
  cases target with
  | first =>
    show _ ↔ (f .second = 255 ∧ f .first = 0) ∨ (f .second < f .first ∧
      ¬ (f .second = 0 ∧ f .first = 255)) ∨ (f .second = f .first ∧ Copy.first = .first)
    simp only [gt_iff_lt, hlt, heq, h0, h255]
    split_ifs <;> simp <;> omega
  | second =>
    show _ ↔ (f .first = 255 ∧ f .second = 0) ∨ (f .first < f .second ∧
      ¬ (f .first = 0 ∧ f .second = 255)) ∨ (f .first = f .second ∧ Copy.second = .first)
    simp only [gt_iff_lt, hlt, heq, h0, h255]
    split_ifs <;> simp <;> omega

/-- Copy `c` is good, and the other one is bad or older. -/
structure Chosen (nand : Copy → EnvT) (c : Copy) : Prop where
  crcOk : CrcOk (nand c)
  newer : CrcOk (nand c.other) → SerialOk (nand c.other).flags (nand c).flags c

theorem select_of_chosen {nand : Copy → EnvT} {c : Copy} (h : Chosen nand c) :
    select nand = some c := by
  have hboth : CrcOk (nand c.other) → serials (fun i => (nand i).flags) = c := fun hother =>
    (newer_eq_target_iff _ c).mpr (h.newer hother)
  have hcrc := h.crcOk
  unfold select
  cases c with
  | first =>
    by_cases hother : CrcOk (nand .second)
    · have hnewer : Nand.newer (nand .first).flags (nand .second).flags = .first := hboth hother
      simp [hcrc, hother, hnewer]
    · simp [hcrc, hother]
  | second =>
    by_cases hother : CrcOk (nand .first)
    · have hnewer : Nand.newer (nand .first).flags (nand .second).flags = .second := hboth hother
      simp [hcrc, hother, hnewer]
    · simp [hcrc, hother]

/-! ## Runs -/

/-- The NAND, what runs, and the last environment whose `saveenv` returned 0. -/
structure Machine where
  nand : Copy → EnvT
  ram : Running
  saved : Option (List UInt8)

inductive Event where
  /-- any commands that change the environment, and `env_crc_update` -/
  | edit (data : List UInt8)
  | save
  /-- a `saveenv` whose erase or write fails -/
  | saveError (left : EnvT)
  | reboot

inductive Step (rangeOk : Bool) (dflt : List UInt8) : Machine → Event → Machine → Prop where
  | edit (m : Machine) (d : List UInt8) :
    Step rangeOk dflt m (.edit d)
      { m with ram := { m.ram with env := envCrcUpdate { m.ram.env with data := d } } }
  | save (m : Machine) :
    Step rangeOk dflt m .save
      { nand := (saveenv rangeOk m.nand m.ram .ok).2.1
        ram := (saveenv rangeOk m.nand m.ram .ok).2.2
        saved := if (saveenv rangeOk m.nand m.ram .ok).1 = 0 then some m.ram.env.data
          else m.saved }
  | saveError (m : Machine) (left : EnvT) :
    ¬ CrcOk left →
    Step rangeOk dflt m (.saveError left)
      { nand := (saveenv rangeOk m.nand m.ram (.error left)).2.1
        ram := (saveenv rangeOk m.nand m.ram (.error left)).2.2
        saved := m.saved }
  | reboot (m : Machine) :
    Step rangeOk dflt m .reboot { m with ram := envRelocateSpec dflt m.nand }

/-- The runs start with a boot from any contents of the NAND. -/
def redundSystem (rangeOk : Bool) (dflt : List UInt8) : TransitionSystem Machine Event where
  init m := m.ram = envRelocateSpec dflt m.nand ∧ m.saved = none
  step := Step rangeOk dflt

/-- A `saveenv` that succeeds stores a serial that reads as newer than that of the copy in use,
if that copy is good. -/
def SavesNewer (m : Machine) : Event → Prop
  | .save => CrcOk (m.nand m.ram.envValid) →
      SerialOk (m.nand m.ram.envValid).flags (m.ram.env.flags + 1) m.ram.envValid.other
  | _ => True

/-- What is saved is in the copy in use, which a boot takes. -/
structure Inv (m : Machine) : Prop where
  crcOk : CrcOk m.ram.env
  saved : ∀ e, m.saved = some e → Chosen m.nand m.ram.envValid ∧
    (m.nand m.ram.envValid).data = e

theorem crcOk_of_select {nand : Copy → EnvT} {c : Copy} (h : select nand = some c) :
    CrcOk (nand c) := by
  unfold select at h
  by_cases h1 : CrcOk (nand .first) <;> by_cases h2 : CrcOk (nand .second)
  · cases c <;> assumption
  · simp only [h1, h2, not_true_eq_false, not_false_eq_true, false_and, if_false, true_and,
      if_true, Option.some.injEq] at h
    exact h ▸ h1
  · simp only [h1, h2, not_true_eq_false, not_false_eq_true, and_false, if_false,
      true_and, if_true, Option.some.injEq] at h
    exact h ▸ h2
  · simp [h1, h2] at h

theorem crcOk_envRelocateSpec (dflt : List UInt8) (nand : Copy → EnvT) :
    CrcOk (envRelocateSpec dflt nand).env := by
  unfold envRelocateSpec
  cases h : select nand with
  | none => rfl
  | some c => exact crcOk_of_select h

theorem chosen_update_bad {nand : Copy → EnvT} {c : Copy} (h : Chosen nand c) {left : EnvT}
    (hleft : ¬ CrcOk left) : Chosen (Function.update nand c.other left) c := by
  refine ⟨?_, fun hbad => absurd ?_ hleft⟩
  · rw [Function.update_of_ne (Copy.ne_other c)]
    exact h.crcOk
  · rwa [Function.update_self] at hbad

theorem inv_step {rangeOk : Bool} {dflt : List UInt8} {m m' : Machine} {e : Event} (hm : Inv m)
    (hok : SavesNewer m e) (hstep : Step rangeOk dflt m e m') : Inv m' := by
  cases hstep with
  | edit d => exact ⟨rfl, hm.saved⟩
  | save =>
    cases rangeOk with
    | false => exact ⟨hm.crcOk, hm.saved⟩
    | true =>
      refine ⟨hm.crcOk, fun e he => ?_⟩
      obtain rfl := Option.some.inj he
      refine ⟨⟨?_, fun hother => ?_⟩, ?_⟩
      · show CrcOk (Function.update m.nand m.ram.envValid.other _ m.ram.envValid.other)
        rw [Function.update_self]
        exact hm.crcOk
      · -- the serial just stored against that of the copy that was in use
        have hother' : CrcOk (m.nand m.ram.envValid) := by
          have h : CrcOk (Function.update m.nand m.ram.envValid.other _
            m.ram.envValid.other.other) := hother
          rwa [Copy.other_other, Function.update_of_ne (Copy.ne_other _)] at h
        show SerialOk (Function.update m.nand m.ram.envValid.other _
            m.ram.envValid.other.other).flags
          (Function.update m.nand m.ram.envValid.other _ m.ram.envValid.other).flags _
        rw [Function.update_self, Copy.other_other, Function.update_of_ne (Copy.ne_other _)]
        exact hok hother'
      · show (Function.update m.nand m.ram.envValid.other _ m.ram.envValid.other).data = _
        rw [Function.update_self]
  | saveError left hleft =>
    cases rangeOk with
    | false => exact ⟨hm.crcOk, hm.saved⟩
    | true =>
      refine ⟨hm.crcOk, fun e he => ?_⟩
      obtain ⟨hchosen, hdata⟩ := hm.saved e he
      refine ⟨chosen_update_bad hchosen hleft, ?_⟩
      show (Function.update m.nand m.ram.envValid.other left m.ram.envValid).data = e
      rw [Function.update_of_ne (Copy.ne_other _)]
      exact hdata
  | reboot =>
    refine ⟨crcOk_envRelocateSpec dflt m.nand, fun e he => ?_⟩
    obtain ⟨hchosen, hdata⟩ := hm.saved e he
    have hvalid : envRelocateSpec dflt m.nand = ⟨m.nand m.ram.envValid, m.ram.envValid⟩ := by
      rw [envRelocateSpec, select_of_chosen hchosen]
    rw [hvalid]
    exact ⟨hchosen, hdata⟩

/-- **A reboot finds the last environment saved**, over every run in which each successful
`saveenv` stores a serial that reads as newer. -/
theorem select_of_reachable (rangeOk : Bool) (dflt : List UInt8) {m : Machine}
    (h : ((redundSystem rangeOk dflt).restrict SavesNewer).Reachable m) {e : List UInt8}
    (he : m.saved = some e) :
    ∃ c, select m.nand = some c ∧ (m.nand c).data = e ∧
      envRelocateSpec dflt m.nand = ⟨m.nand c, c⟩ := by
  have hinv : Inv m := by
    refine TransitionSystem.Reachable.invariant_restrict (I := Inv) (fun m hm => ?_)
      (fun _ _ _ hm hok hstep => inv_step hm hok hstep) h
    refine ⟨by rw [hm.1]; exact crcOk_envRelocateSpec dflt m.nand, fun e he => ?_⟩
    rw [hm.2] at he
    exact absurd he (by simp)
  obtain ⟨hchosen, hdata⟩ := hinv.saved e he
  have hselect := select_of_chosen hchosen
  refine ⟨m.ram.envValid, hselect, hdata, ?_⟩
  rw [envRelocateSpec, hselect]

/-- **One save, exactly.**  Over a good copy in use, the copy a `saveenv` has just written is
taken by the next boot if and only if its serial reads as newer. -/
theorem select_saveenv_iff {nand : Copy → EnvT} {r : Running} (hcrc : CrcOk r.env)
    (huse : CrcOk (nand r.envValid)) :
    select (saveenv true nand r .ok).2.1 = some r.envValid.other ↔
      SerialOk (nand r.envValid).flags (r.env.flags + 1) r.envValid.other := by
  have hnew : CrcOk ((saveenv true nand r .ok).2.1 r.envValid.other) := by
    show CrcOk (Function.update nand r.envValid.other _ r.envValid.other)
    rw [Function.update_self]
    exact hcrc
  have hold : (saveenv true nand r .ok).2.1 r.envValid = nand r.envValid :=
    Function.update_of_ne (Copy.ne_other _) _ _
  have hflags : ((saveenv true nand r .ok).2.1 r.envValid.other).flags = r.env.flags + 1 := by
    show (Function.update nand r.envValid.other _ r.envValid.other).flags = _
    rw [Function.update_self]
  have hboth : ∀ c, CrcOk ((saveenv true nand r .ok).2.1 c) := by
    intro c
    rcases eq_or_ne c r.envValid with rfl | hne
    · rw [hold]
      exact huse
    · have hc : c = r.envValid.other := by
        revert hne
        cases c <;> cases r.envValid <;> simp [Copy.other]
      exact hc ▸ hnew
  have hselect : select (saveenv true nand r .ok).2.1 =
      some (serials fun c => ((saveenv true nand r .ok).2.1 c).flags) := by
    simp [select, hboth, serials]
  rw [hselect, Option.some.injEq, newer_eq_target_iff, Copy.other_other, hflags, hold]

/-! ### Around the wrap -/

/-- A good copy. -/
def goodCopy (flags : UInt8) (data : List UInt8) : EnvT := envCrcUpdate ⟨0, flags, data⟩

/-- A copy with a wrong check. -/
def badCopy : EnvT := ⟨1, 0, []⟩

theorem not_crcOk_badCopy : ¬ CrcOk badCopy := by decide

/-- A good copy with the serial 254, in use. -/
def serial254 : Copy → EnvT
  | .first => goodCopy 254 [1]
  | .second => badCopy

/-- The machine after a boot from it. -/
def machine254 : Machine := ⟨serial254, envRelocateSpec [] serial254, none⟩

theorem envRelocateSpec_serial254 :
    envRelocateSpec [] serial254 = ⟨goodCopy 254 [1], .first⟩ := by
  have hchosen : Chosen serial254 .first := ⟨rfl, fun h => absurd h not_crcOk_badCopy⟩
  rw [envRelocateSpec, select_of_chosen hchosen]
  rfl

/-- The rule applies to one save from there. -/
theorem select_of_reachable_serial254 :
    ∃ c, select (saveenv true serial254 ⟨goodCopy 254 [1], .first⟩ .ok).2.1 = some c ∧
      ((saveenv true serial254 ⟨goodCopy 254 [1], .first⟩ .ok).2.1 c).data = [1] := by
  have hstart : ((redundSystem true []).restrict SavesNewer).Reachable machine254 :=
    .init ⟨rfl, rfl⟩
  have hok : SavesNewer machine254 .save := by
    intro _
    rw [machine254, envRelocateSpec_serial254]
    decide
  have hsave := hstart.step ⟨hok, Step.save machine254⟩
  rw [machine254, envRelocateSpec_serial254] at hsave
  obtain ⟨c, hselect, hdata, -⟩ := select_of_reachable true [] hsave (e := [1]) rfl
  exact ⟨c, hselect, hdata⟩

/-- **A run after which a boot finds an older environment.**  The serial 254 is in use, a save
fails, the environment is changed, and a save succeeds: it stores the serial 0, which reads as
older than 254. -/
theorem select_ne_saved :
    ∃ m, (redundSystem true []).Reachable m ∧ m.saved = some [2] ∧
      select m.nand = some .first ∧ (m.nand .first).data = [1] := by
  have hstart : (redundSystem true []).Reachable machine254 := .init ⟨rfl, rfl⟩
  have herror := hstart.step (Step.saveError machine254 badCopy not_crcOk_badCopy)
  have hedit := herror.step (Step.edit _ [2])
  have hsave := hedit.step (Step.save _)
  rw [machine254, envRelocateSpec_serial254] at hsave
  exact ⟨_, hsave, rfl, by decide +kernel, rfl⟩

end Nand
end Env
end EmevBsp
