import EmevBsp.Env.FlashRedundRuns

/-!
# `common/env_flash.c`: a `saveenv` whose calls may fail

`Nor.saveenv` is the one in which every call succeeds.  Here each call of `saveenv` answers with
its return value, and a call that fails leaves anything in the bytes it was to erase or to write.
With `CONFIG_ENV_SECT_SIZE > CONFIG_ENV_SIZE` the rest of the sector (`up_data` bytes) is saved
before the erase and written back at the end.

`env_init` of the next boot decides which copy counts; `Prefers` says which, and `Agrees` that
`flash_addr` points to it.
-/

namespace EmevBsp
namespace Env
namespace Nor

variable {n : ℕ}

/-! ## What the next boot selects -/

/-- Copy `c` is good, and the other one is bad or stands behind it: by the two flags, or by being
the second one, or by not being erased. -/
def Prefers (f : Flash n) (c : Copy) : Prop :=
  CrcOk (f c) ∧ (CrcOk (f c.other) →
    (f c .flags = activeFlag ∧ f c.other .flags = obsoleteFlag) ∨
    (f c .flags = f c.other .flags ∧ c = .first) ∨
    (f c .flags = 0xff ∧ f c.other .flags ≠ 0xff))

theorem flags_choice (a b : UInt8) (c : Copy) :
    (∃ v, (if a = activeFlag ∧ b = obsoleteFlag then (EnvAddr.data .first, 1)
      else if a = obsoleteFlag ∧ b = activeFlag then (.data .second, 1)
      else if a = b then (.data .first, 2)
      else if a = 0xff then (.data .first, 2)
      else if b = 0xff then (.data .second, 2)
      else (.unset, 0)) = (.data c, v)) ↔
    match c with
    | .first => (a = activeFlag ∧ b = obsoleteFlag) ∨ a = b ∨ (a = 0xff ∧ b ≠ 0xff)
    | .second => (b = activeFlag ∧ a = obsoleteFlag) ∨ (b = 0xff ∧ a ≠ 0xff) := by
  have hne : (0 : UInt8) ≠ 1 ∧ (0 : UInt8) ≠ 0xff ∧ (1 : UInt8) ≠ 0xff := by decide
  cases c <;> simp only [activeFlag, obsoleteFlag] <;> split_ifs <;> grind

/-- **The copy `env_init` selects.** -/
theorem envInit_eq_data_iff {f : Flash n} {c : Copy} :
    (∃ v, envInit f = (.data c, v)) ↔ Prefers f c := by
  by_cases h1 : CrcOk (f .first)
  · by_cases h2 : CrcOk (f .second)
    · have hchoice := flags_choice (f .first .flags) (f .second .flags) c
      rw [envInit, if_neg (fun h => h.2 h2), if_neg (fun h => h.1 h1), if_neg (fun h => h.1 h1),
        hchoice]
      cases c with
      | first => simp [Prefers, Copy.other, h1, h2]
      | second => simp [Prefers, Copy.other, h1, h2]
    · cases c <;> simp [envInit, Prefers, Copy.other, h1, h2]
  · by_cases h2 : CrcOk (f .second) <;> cases c <;> simp [envInit, Prefers, Copy.other, h1, h2]

/-- `flash_addr` points to the copy that the next `env_init` selects, if it selects one. -/
def Agrees (f : Flash n) (flashAddr : Copy) : Prop :=
  ∀ c v, envInit f = (.data c, v) → flashAddr = c

theorem agrees_iff {f : Flash n} {c : Copy} : Agrees f c ↔ ¬ Prefers f c.other := by
  constructor
  · intro h hother
    obtain ⟨v, hv⟩ := envInit_eq_data_iff.mpr hother
    exact Copy.ne_other c (h _ v hv)
  · intro h c' v hv
    by_contra hne
    have hother : c' = c.other := by
      revert hne
      cases c <;> cases c' <;> simp [Copy.other]
    exact h (hother ▸ envInit_eq_data_iff.mp ⟨v, hv⟩)

/-! ## `saveenv` -/

/-- The two sectors, the rest of each behind its `env_t`, and U-Boot. -/
structure Board (n : ℕ) where
  flash : Flash n
  rest : Copy → List UInt8
  run : Running n

/-- The return values of the calls, in their order, and what a call that fails leaves of the bytes
it is about. -/
structure Answers (n : ℕ) where
  protectOld : ℕ
  protectNew : ℕ
  malloc : Bool
  erase : ℕ
  data : ℕ
  crc : ℕ
  flagOld : ℕ
  flagNew : ℕ
  rest : ℕ
  left : Sector n
  leftRest : List UInt8

/-- `flash_write`, of the bytes of `s` at some offsets. -/
def flashWriteCall (f : Flash n) (c : Copy) (l : List (Offset n)) (s : Sector n) (ret : ℕ)
    (left : Sector n) : Flash n :=
  if ret = 0 then flashWrites f (l.map fun o => ⟨c, o, s o⟩)
  else Function.update f c fun o => if o ∈ l then left o else f c o

/-- The chain of the four `flash_write` calls: `rc` and the flash. -/
def saveenvWrites (a : Answers n) (r : Running n) (f : Flash n) : ℕ × Flash n :=
  let old := r.flashAddr
  let new := r.flashAddr.other
  let f := flashWriteCall f new (List.ofFn Offset.data) r.env a.data a.left
  if a.data ≠ 0 then (a.data, f)
  else
    let f := flashWriteCall f new (List.ofFn Offset.crc) r.env a.crc a.left
    if a.crc ≠ 0 then (a.crc, f)
    else
      let f := flashWriteCall f old [.flags] (fun _ => obsoleteFlag) a.flagOld a.left
      if a.flagOld ≠ 0 then (a.flagOld, f)
      else
        let f := flashWriteCall f new [.flags] (fun _ => activeFlag) a.flagNew a.left
        (a.flagNew, f)

/-- `saveenv`: its result, and the board behind it. -/
def saveenvCalls (upData : ℕ) (a : Answers n) (b : Board n) : ℕ × Board n :=
  let new := b.run.flashAddr.other
  if a.protectOld ≠ 0 then (1, b)
  else if a.protectNew ≠ 0 then (1, b)
  -- Unable to save the rest of sector
  else if upData ≠ 0 ∧ a.malloc = false then (1, b)
  else
    let savedData := (b.rest new).take upData
    if a.erase ≠ 0 then
      (1, { b with
        flash := Function.update b.flash new a.left
        rest := Function.update b.rest new a.leftRest })
    else
      let rest := Function.update b.rest new (List.replicate upData 0xff)
      let (rc, f) := saveenvWrites a b.run (eraseNew b.flash b.run)
      if rc ≠ 0 then (rc, { b with flash := f, rest := rest })
      else if upData ≠ 0 ∧ a.rest ≠ 0 then
        -- `rc` is the 0 of the last `flash_write`
        (rc, { b with flash := f, rest := Function.update rest new a.leftRest })
      else
        (0, { b with
          flash := f
          rest := Function.update rest new savedData
          run := { b.run with flashAddr := new } })

/-- Everything that is needed to store the environment and the rest of the sector succeeded. -/
structure Answers.AllSucceed (upData : ℕ) (a : Answers n) : Prop where
  protectOld : a.protectOld = 0
  protectNew : a.protectNew = 0
  malloc : upData ≠ 0 → a.malloc = true
  erase : a.erase = 0
  data : a.data = 0
  crc : a.crc = 0
  flagOld : a.flagOld = 0
  flagNew : a.flagNew = 0
  rest : upData ≠ 0 → a.rest = 0

/-- The calls of `saveenv` that can fail. -/
inductive Call where
  | protectOld
  | protectNew
  | malloc
  | erase
  | data
  | crc
  | flagOld
  | flagNew
  | rest
  deriving DecidableEq

/-- The call that fails first. -/
def Answers.firstFailure (upData : ℕ) (a : Answers n) : Option Call :=
  if a.protectOld ≠ 0 then some .protectOld
  else if a.protectNew ≠ 0 then some .protectNew
  else if upData ≠ 0 ∧ a.malloc = false then some .malloc
  else if a.erase ≠ 0 then some .erase
  else if a.data ≠ 0 then some .data
  else if a.crc ≠ 0 then some .crc
  else if a.flagOld ≠ 0 then some .flagOld
  else if a.flagNew ≠ 0 then some .flagNew
  else if upData ≠ 0 ∧ a.rest ≠ 0 then some .rest
  else none

/-- The new copy as a call that fails leaves it, before its check is written. -/
def Answers.newCopy (a : Answers n) (r : Running n) : Call → Sector n
  | .erase => a.left
  | .data => fun o => match o with
    | .data i => a.left (.data i)
    | _ => 0xff
  | .crc => fun o => match o with
    | .data i => r.env (.data i)
    | .crc i => a.left (.crc i)
    | .flags => 0xff
  | _ => withFlags r.env 0xff

/-- When `saveenv` tells the truth, by the call that fails first: before the erase always; up to the
check of the new copy unless what is left of this copy is preferred; at the flags of the old copy,
and of the new one, by what is left of them; at the rest of the sector never. -/
def Truthful (upData : ℕ) (a : Answers n) (b : Board n) : Prop :=
  let old := b.run.flashAddr
  match a.firstFailure upData with
  | none | some .protectOld | some .protectNew | some .malloc => True
  | some .flagOld => CrcOk (b.flash old) ∧ a.left .flags = 0xff ∧ old = .first
  | some .flagNew => CrcOk (b.flash old) ∧
      ((a.left .flags = obsoleteFlag ∧ old = .first) ∨
        (a.left .flags ≠ obsoleteFlag ∧ a.left .flags ≠ activeFlag ∧ a.left .flags ≠ 0xff))
  | some .rest => False
  | some c => ¬ Prefers (Function.update b.flash old.other (a.newCopy b.run c)) old.other

/-! ## The writes -/

theorem flashWriteCall_ok (f : Flash n) (c : Copy) (l : List (Offset n)) (s left : Sector n) :
    flashWriteCall f c l s 0 left = flashWrites f (l.map fun o => ⟨c, o, s o⟩) :=
  if_pos rfl

theorem flashWriteCall_failed (f : Flash n) (c : Copy) (l : List (Offset n)) (s left : Sector n)
    {ret : ℕ} (h : ret ≠ 0) :
    flashWriteCall f c l s ret left =
      Function.update f c fun o => if o ∈ l then left o else f c o :=
  if_neg h

theorem flash_written (f : Flash n) (r : Running n) :
    flashWrites (flashWrites (eraseNew f r)
        ((List.ofFn Offset.data).map fun o => ⟨r.flashAddr.other, o, r.env o⟩))
        ((List.ofFn Offset.crc).map fun o => ⟨r.flashAddr.other, o, r.env o⟩) =
      Function.update f r.flashAddr.other (withFlags r.env 0xff) := by
  rw [← flashWrites_append, ← List.map_append]
  show flashWrites (eraseNew f r) ((contents n).map _) = _
  rw [flashWrites_eraseNew, partly_contents]

theorem flashWriteCall_flags (f : Flash n) (c : Copy) (b : UInt8) (left : Sector n) {ret : ℕ} :
    flashWriteCall f c [.flags] (fun _ => b) ret left =
      Function.update f c
        (withFlags (f c) (if ret = 0 then f c .flags &&& b else left .flags)) := by
  by_cases hret : ret = 0
  · rw [if_pos hret, hret, flashWriteCall_ok]
    exact flashWrite_flags f c b
  · rw [if_neg hret, flashWriteCall_failed _ _ _ _ _ hret]
    congr 1
    funext o
    by_cases ho : o = .flags
    · simp [ho, withFlags]
    · simp [ho, withFlags]

section Writes

variable (a : Answers n) (f : Flash n) (r : Running n)

theorem saveenvWrites_data (hdata : a.data ≠ 0) :
    saveenvWrites a r (eraseNew f r) =
      (a.data, Function.update f r.flashAddr.other (a.newCopy r .data)) := by
  rw [saveenvWrites, if_pos hdata, flashWriteCall_failed _ _ _ _ _ hdata, eraseNew,
    Function.update_idem]
  congr 2
  funext o
  cases o with
  | data i => simp [Answers.newCopy]
  | crc i => simp [Answers.newCopy, erased]
  | flags => simp [Answers.newCopy, erased]

theorem saveenvWrites_crc (hdata : a.data = 0) (hcrc : a.crc ≠ 0) :
    saveenvWrites a r (eraseNew f r) =
      (a.crc, Function.update f r.flashAddr.other (a.newCopy r .crc)) := by
  rw [saveenvWrites, if_neg (not_not.mpr hdata), hdata, flashWriteCall_ok, if_pos hcrc,
    flashWriteCall_failed _ _ _ _ _ hcrc, flashWrites_eraseNew, Function.update_idem]
  congr 2
  funext o
  cases o with
  | data i => simp [Answers.newCopy, partly]
  | crc i => exact if_pos (List.mem_ofFn.mpr ⟨i, rfl⟩)
  | flags => simp [Answers.newCopy, partly]

theorem saveenvWrites_flags (hdata : a.data = 0) (hcrc : a.crc = 0) :
    saveenvWrites a r (eraseNew f r) =
      let g := Function.update (Function.update f r.flashAddr.other (withFlags r.env 0xff))
        r.flashAddr (withFlags (f r.flashAddr)
          (if a.flagOld = 0 then obsoleteFlag else a.left .flags))
      if a.flagOld ≠ 0 then (a.flagOld, g)
      else (a.flagNew, Function.update g r.flashAddr.other
        (withFlags r.env (if a.flagNew = 0 then activeFlag else a.left .flags))) := by
  rw [saveenvWrites, if_neg (not_not.mpr hdata), if_neg (not_not.mpr hcrc), hdata, hcrc,
    flashWriteCall_ok, flashWriteCall_ok, flash_written, flashWriteCall_flags,
    Function.update_of_ne (Copy.ne_other _), UInt8.and_zero]
  dsimp only
  rw [flashWriteCall_flags, Function.update_of_ne (Copy.other_ne _), Function.update_self,
    withFlags_flags, and_ff]
  have hnew (b : UInt8) : withFlags (withFlags r.env 0xff) b = withFlags r.env b := by
    rw [withFlags, withFlags, Function.update_idem]
    rfl
  simp only [hnew]

end Writes

/-! ## What the failures at the flags leave -/

theorem not_prefers_flagOld {f : Flash n} {r : Running n} (hcrc : CrcOk r.env) (b : UInt8) :
    ¬ Prefers (Function.update (Function.update f r.flashAddr.other (withFlags r.env 0xff))
        r.flashAddr (withFlags (f r.flashAddr) b)) r.flashAddr.other ↔
      CrcOk (f r.flashAddr) ∧ b = 0xff ∧ r.flashAddr = .first := by
  have hff : ¬ (0xff : UInt8) = activeFlag := by decide
  simp only [Prefers, Copy.other_other, Function.update_self,
    Function.update_of_ne (Copy.other_ne r.flashAddr), crcOk_withFlags, withFlags_flags, hcrc, hff,
    true_and, false_and, false_or]
  cases r.flashAddr with
  | first =>
    simp only [Copy.other, reduceCtorEq, and_false, false_or, and_true]
    grind
  | second =>
    simp only [Copy.other, and_true, reduceCtorEq, and_false]
    grind

theorem not_prefers_flagNew {f : Flash n} {r : Running n} (hcrc : CrcOk r.env) (b : UInt8)
    (s : Sector n) :
    ¬ Prefers (Function.update (Function.update (Function.update f r.flashAddr.other s)
        r.flashAddr (withFlags (f r.flashAddr) obsoleteFlag)) r.flashAddr.other
        (withFlags r.env b)) r.flashAddr.other ↔
      CrcOk (f r.flashAddr) ∧ ((b = obsoleteFlag ∧ r.flashAddr = .first) ∨
        (b ≠ obsoleteFlag ∧ b ≠ activeFlag ∧ b ≠ 0xff)) := by
  have hff : ¬ obsoleteFlag = (0xff : UInt8) ∧ ¬ obsoleteFlag = activeFlag := by decide
  simp only [Prefers, Copy.other_other, Function.update_self,
    Function.update_of_ne (Copy.ne_other r.flashAddr), crcOk_withFlags, withFlags_flags, hcrc,
    true_and]
  cases r.flashAddr <;> simp [Copy.other] <;> grind

/-! ## The result -/

/-- What the claim of a return value and of `flash_addr` is. -/
def TellsTruth (upData : ℕ) (a : Answers n) (b : Board n) : Prop :=
  ((saveenvCalls upData a b).1 = 0 → a.AllSucceed upData) ∧
    Agrees (saveenvCalls upData a b).2.flash (saveenvCalls upData a b).2.run.flashAddr

theorem tellsTruth_of_failed {upData : ℕ} {a : Answers n} {b b' : Board n} {rc : ℕ}
    (hcall : saveenvCalls upData a b = (rc, b')) (hrc : rc ≠ 0)
    (hrun : b'.run = b.run) :
    TellsTruth upData a b ↔ Agrees b'.flash b.run.flashAddr := by
  rw [TellsTruth, hcall, hrun]
  exact and_iff_right fun h => absurd h hrc

/-- **Without a failure** `saveenv` stores the environment and keeps the rest of the sector. -/
theorem saveenvCalls_all {upData : ℕ} {a : Answers n} (b : Board n) (hall : a.AllSucceed upData) :
    saveenvCalls upData a b = (0, ⟨(saveenv b.flash b.run).1,
      Function.update b.rest b.run.flashAddr.other ((b.rest b.run.flashAddr.other).take upData),
      (saveenv b.flash b.run).2⟩) := by
  obtain ⟨hpo, hpn, hm, he, hd, hc, hfo, hfn, hr⟩ := hall
  have hmalloc : ¬ (upData ≠ 0 ∧ a.malloc = false) := fun h => by simp [hm h.1] at h
  have hrest : ¬ (upData ≠ 0 ∧ a.rest ≠ 0) := fun h => h.2 (hr h.1)
  have hflash : saveenvWrites a b.run (eraseNew b.flash b.run) =
      (0, (saveenv b.flash b.run).1) := by
    rw [saveenvWrites_flags a _ _ hd hc]
    dsimp only
    rw [if_neg (not_not.mpr hfo), if_pos hfo, if_pos hfn, hfn]
    congr 1
    funext c
    rw [saveenv_flash]
    by_cases hcopy : c = b.run.flashAddr
    · subst hcopy
      rw [Function.update_of_ne (Copy.ne_other _), Function.update_self, if_pos rfl]
    · have hother : c = b.run.flashAddr.other := by
        revert hcopy
        cases c <;> cases b.run.flashAddr <;> simp [Copy.other]
      rw [hother, Function.update_self, if_neg (Copy.other_ne _)]
  rw [saveenvCalls, if_neg (not_not.mpr hpo), if_neg (not_not.mpr hpn), if_neg hmalloc]
  dsimp only
  rw [if_neg (not_not.mpr he), hflash]
  dsimp only
  rw [if_neg (not_not.mpr rfl), if_neg hrest, Function.update_idem]
  rfl

theorem tellsTruth_none {upData : ℕ} {a : Answers n} {b : Board n} (hcrc : CrcOk b.run.env)
    (hall : a.AllSucceed upData) : TellsTruth upData a b := by
  rw [TellsTruth, saveenvCalls_all b hall]
  refine ⟨fun _ => hall, ?_⟩
  have hsettled : Settled (saveenv b.flash b.run).1 b.run.flashAddr.other := by
    refine ⟨?_, ?_, fun _ => ?_⟩
    · rw [saveenv_flash, if_neg (Copy.other_ne _), crcOk_withFlags]
      exact hcrc
    · rw [saveenv_flash, if_neg (Copy.other_ne _), withFlags_flags]
    · rw [Copy.other_other, saveenv_flash, if_pos rfl, withFlags_flags]
  intro c v hv
  rw [envInit_of_settled hsettled] at hv
  exact EnvAddr.data.inj (congrArg Prod.fst hv)

theorem saveenvCalls_of_writes {upData : ℕ} {a : Answers n} {b : Board n} {rc : ℕ} {f : Flash n}
    (hpo : a.protectOld = 0) (hpn : a.protectNew = 0)
    (hm : ¬ (upData ≠ 0 ∧ a.malloc = false)) (he : a.erase = 0)
    (hwrites : saveenvWrites a b.run (eraseNew b.flash b.run) = (rc, f)) (hrc : rc ≠ 0) :
    saveenvCalls upData a b = (rc, ⟨f,
      Function.update b.rest b.run.flashAddr.other (List.replicate upData 0xff), b.run⟩) := by
  rw [saveenvCalls, if_neg (not_not.mpr hpo), if_neg (not_not.mpr hpn), if_neg hm]
  dsimp only
  rw [if_neg (not_not.mpr he), hwrites]
  dsimp only
  rw [if_pos hrc]

/-- **When `saveenv` tells the truth.**  Its return value is 0 only when everything succeeded, and
`flash_addr` points to the copy the next boot selects, exactly when the call that fails first is one
of the first four calls, or leaves the new copy behind the old one; it never is the last write. -/
theorem saveenv_truthful_iff (upData : ℕ) (a : Answers n) {b : Board n} (hcrc : CrcOk b.run.env)
    (hagree : Agrees b.flash b.run.flashAddr) : TellsTruth upData a b ↔ Truthful upData a b := by
  rw [Truthful, Answers.firstFailure]
  by_cases hpo : a.protectOld ≠ 0
  · rw [if_pos hpo]
    exact iff_of_true ((tellsTruth_of_failed (if_pos hpo) Nat.one_ne_zero rfl).mpr hagree) trivial
  by_cases hpn : a.protectNew ≠ 0
  · rw [if_neg hpo, if_pos hpn]
    have hcall : saveenvCalls upData a b = (1, b) := by
      rw [saveenvCalls, if_neg hpo, if_pos hpn]
    exact iff_of_true ((tellsTruth_of_failed hcall Nat.one_ne_zero rfl).mpr hagree) trivial
  by_cases hm : upData ≠ 0 ∧ a.malloc = false
  · rw [if_neg hpo, if_neg hpn, if_pos hm]
    have hcall : saveenvCalls upData a b = (1, b) := by
      rw [saveenvCalls, if_neg hpo, if_neg hpn, if_pos hm]
    exact iff_of_true ((tellsTruth_of_failed hcall Nat.one_ne_zero rfl).mpr hagree) trivial
  rw [if_neg hpo, if_neg hpn, if_neg hm]
  by_cases he : a.erase ≠ 0
  · rw [if_pos he]
    have hcall : saveenvCalls upData a b = (1, { b with
        flash := Function.update b.flash b.run.flashAddr.other a.left
        rest := Function.update b.rest b.run.flashAddr.other a.leftRest }) := by
      rw [saveenvCalls, if_neg hpo, if_neg hpn, if_neg hm]
      exact if_pos he
    exact (tellsTruth_of_failed hcall Nat.one_ne_zero rfl).trans agrees_iff
  rw [if_neg he]
  have hpo' := not_not.mp hpo
  have hpn' := not_not.mp hpn
  have he' := not_not.mp he
  by_cases hd : a.data ≠ 0
  · rw [if_pos hd]
    have hcall := saveenvCalls_of_writes hpo' hpn' hm he' (saveenvWrites_data a b.flash b.run hd) hd
    exact (tellsTruth_of_failed hcall hd rfl).trans agrees_iff
  by_cases hc : a.crc ≠ 0
  · rw [if_neg hd, if_pos hc]
    have hcall := saveenvCalls_of_writes hpo' hpn' hm he'
      (saveenvWrites_crc a b.flash b.run (not_not.mp hd) hc) hc
    exact (tellsTruth_of_failed hcall hc rfl).trans agrees_iff
  rw [if_neg hd, if_neg hc]
  have hflags := saveenvWrites_flags a b.flash b.run (not_not.mp hd) (not_not.mp hc)
  dsimp only at hflags
  by_cases hfo : a.flagOld ≠ 0
  · rw [if_pos hfo, if_neg hfo] at hflags
    rw [if_pos hfo]
    have hcall := saveenvCalls_of_writes hpo' hpn' hm he' hflags hfo
    exact ((tellsTruth_of_failed hcall hfo rfl).trans agrees_iff).trans
      (not_prefers_flagOld hcrc _)
  rw [if_neg hfo, if_pos (not_not.mp hfo)] at hflags
  rw [if_neg hfo]
  by_cases hfn : a.flagNew ≠ 0
  · rw [if_neg hfn] at hflags
    rw [if_pos hfn]
    have hcall := saveenvCalls_of_writes hpo' hpn' hm he' hflags hfn
    exact ((tellsTruth_of_failed hcall hfn rfl).trans agrees_iff).trans
      (not_prefers_flagNew hcrc _ _)
  rw [if_neg hfn]
  by_cases hr : upData ≠ 0 ∧ a.rest ≠ 0
  · rw [if_pos hr]
    refine iff_of_false (fun htruth => ?_) id
    -- the return value is the 0 of the last `flash_write`
    have hzero : (saveenvCalls upData a b).1 = 0 := by
      rw [saveenvCalls, if_neg hpo, if_neg hpn, if_neg hm]
      dsimp only
      rw [if_neg he, hflags]
      dsimp only
      rw [if_neg hfn, if_pos hr]
      exact not_not.mp hfn
    exact hr.2 ((htruth.1 hzero).rest hr.1)
  · rw [if_neg hr]
    refine iff_of_true (tellsTruth_none hcrc ?_) trivial
    refine ⟨hpo', hpn', fun hu => ?_, he', not_not.mp hd, not_not.mp hc, not_not.mp hfo,
      not_not.mp hfn, fun hu => ?_⟩
    · by_contra hfalse
      exact hm ⟨hu, by simpa using hfalse⟩
    · by_contra hne
      exact hr ⟨hu, hne⟩

/-- A board as an earlier `saveenv` left it: the first copy active, the second one obsolete. -/
def savedBoard (data : Fin n → UInt8) (rest : List UInt8) : Board n where
  flash
    | .first => withFlags (defaultEnv data) activeFlag
    | .second => withFlags (defaultEnv data) obsoleteFlag
  rest := fun _ => rest
  run := ⟨.first, defaultEnv data⟩

theorem crcOk_defaultEnv (data : Fin n → UInt8) : CrcOk (defaultEnv data) := fun _ => rfl

theorem agrees_savedBoard (data : Fin n → UInt8) (rest : List UInt8) :
    Agrees (savedBoard data rest).flash .first := by
  have hsettled : Settled (savedBoard data rest).flash .first :=
    ⟨(crcOk_withFlags _ _).mpr (crcOk_defaultEnv data),
      withFlags_flags (defaultEnv data) activeFlag,
      fun _ => withFlags_flags (defaultEnv data) obsoleteFlag⟩
  intro c v hv
  rw [envInit_of_settled hsettled] at hv
  exact EnvAddr.data.inj (congrArg Prod.fst hv)

/-- Every call succeeds but the last one. -/
def restFails : Answers n :=
  ⟨0, 0, true, 0, 0, 0, 0, 0, 1, erased, []⟩

theorem saveenv_truthful_iff_one :
    TellsTruth 1 restFails (savedBoard (fun _ : Fin 8 => 0) [0]) ↔
      Truthful 1 restFails (savedBoard (fun _ : Fin 8 => 0) [0]) :=
  saveenv_truthful_iff 1 restFails (crcOk_defaultEnv _) (agrees_savedBoard _ _)

/-- With one byte behind the environment that cannot be written back, `saveenv` returns 0. -/
theorem not_saveenv_truthful : ¬ ∀ (upData : ℕ) (a : Answers 8) (b : Board 8), CrcOk b.run.env →
    Agrees b.flash b.run.flashAddr → TellsTruth upData a b := by
  intro h
  have htruth := h 1 restFails (savedBoard (fun _ => 0) [0]) (crcOk_defaultEnv _)
    (agrees_savedBoard _ _)
  have hrest : (restFails : Answers 8).rest = 0 := (htruth.1 rfl).rest Nat.one_ne_zero
  exact absurd hrest Nat.one_ne_zero

end Nor
end Env
end EmevBsp
