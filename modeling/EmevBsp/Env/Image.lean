import EmevBsp.LibGeneric.Crc32
import EmevBsp.Library.CString

/-!
# The environment image, its readers and its place on the MMC

`include/environment.h`, `common/env_common.c` and the readers of `common/cmd_nvedit.c`.  The
environment is a 32-bit check over a byte array of `ENV_SIZE` bytes.  Its variables are NUL
terminated `name=value` strings, one behind the other; a second NUL ends the list.

The array is a list of bytes, whose length is `ENV_SIZE`, and pointers into it are indices.  A
function that would read or write outside it returns `none`.  The environment is the copy in
RAM (`GD_FLG_RELOC` set and `gd->env_valid` not zero), so `env_get_char (i)` is byte `i`.
-/

namespace EmevBsp
namespace Env

/-- `env_t`.  `flags` is there with `CONFIG_SYS_REDUNDAND_ENVIRONMENT` only; the other builds
never look at it. -/
structure EnvT where
  crc : UInt32
  flags : UInt8
  data : List UInt8
  deriving DecidableEq

def envCrcUpdate (e : EnvT) : EnvT := { e with crc := crc32 0 e.data }

/-- The test of every `env_init` and `env_relocate_spec`. -/
def CrcOk (e : EnvT) : Prop := crc32 0 e.data = e.crc

instance (e : EnvT) : Decidable (CrcOk e) := inferInstanceAs (Decidable (_ = _))

/-- The byte `'='`. -/
abbrev eqSign : UInt8 := 61

/-- `envmatch`: `s1` is the rest of a C string, `env` the array from index `i2` on.  The index
of the value if the names match, the inner `none` for -1. -/
def envmatch : (s1 env : List UInt8) → (i2 : ℕ) → Option (Option ℕ)
  | _, [], _ => none
  | [], c :: _, i2 =>
    -- `*s1` is the terminator; equal to another NUL, the loop would run on behind `s1`
    if c = 0 then none else if c = eqSign then some (some (i2 + 1)) else some none
  | a :: s1, c :: env, i2 =>
    if a = c then
      if a = eqSign then some (some (i2 + 1)) else envmatch s1 env (i2 + 1)
    else some none

/-- A variable found by the walk over the entries: where it starts, its terminator, its value. -/
structure Found where
  env : ℕ
  nxt : ℕ
  oldval : ℕ
  deriving DecidableEq

/-- The walk over the entries that `getenv` and `_do_setenv` share: stop at the first one that
matches.  The fuel bounds the number of entries. -/
def findEntry (name data : List UInt8) : (fuel env : ℕ) → Option (Option Found)
  | 0, _ => none
  | fuel + 1, env => do
    let c ← data[env]?
    if c = 0 then return none
    let n ← strlen (data.drop env)
    match ← envmatch name (data.drop env) env with
    | some oldval => return some ⟨env, env + n, oldval⟩
    | none => findEntry name data fuel (env + n + 1)

/-- The C string at an index. -/
def stringAt (data : List UInt8) (i : ℕ) : Option (List UInt8) := do
  let n ← strlen (data.drop i)
  return (data.drop i).take n

/-- `getenv`: the text at the address it returns, the inner `none` for NULL.  Its own bound,
`nxt >= CONFIG_ENV_SIZE`, is never reached inside the array. -/
def getenv (e : EnvT) (name : List UInt8) : Option (Option (List UInt8)) := do
  match ← findEntry name e.data (e.data.length + 1) 0 with
  | none => return none
  | some f => return some (← stringAt e.data f.oldval)

/-! ## `common/env_mmc.c`

The environment is kept in an area of the MMC that `mmc_flash_init` finds (`env_offset`, zero
when there is none).  `saveenv` writes the environment in RAM to it as it is, check included;
`env_init` reads the area and accepts it when the check is right. -/

/-- How `mmc_write` ended: with 0, or with an error that left something else in the area. -/
inductive MmcWrite where
  | done
  | error (left : EnvT)

/-- `saveenv`: what it returns, and the area. -/
def saveenv (envOffset : ℕ) (w : MmcWrite) (envPtr area : EnvT) : ℕ × EnvT :=
  if envOffset = 0 then (1, area)
  else match w with
    | .done => (0, envPtr)
    | .error left => (1, left)

/-- `gd->env_valid` after `env_init`; `readOk` is whether `mmc_read` returned 0. -/
def envInit (envOffset : ℕ) (readOk : Bool) (area : EnvT) : ℕ :=
  if envOffset ≠ 0 ∧ readOk ∧ CrcOk area then 1 else 0

/-- **`env_init` accepts what `saveenv` wrote exactly when the check in RAM was right.** -/
theorem envInit_saveenv_iff {envOffset : ℕ} {w : MmcWrite} {envPtr area : EnvT}
    (h : (saveenv envOffset w envPtr area).1 = 0) :
    envInit envOffset true (saveenv envOffset w envPtr area).2 = 1 ↔ CrcOk envPtr := by
  unfold saveenv at h ⊢
  by_cases h0 : envOffset = 0
  · simp [h0] at h
  · cases w with
    | done => simp [h0, envInit]
    | error left => simp [h0] at h

end Env
end EmevBsp
