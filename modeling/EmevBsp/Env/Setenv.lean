import EmevBsp.Env.Image
import EmevBsp.LibGeneric.Vsprintf
import Mathlib.Data.Nat.Digits.Defs

/-!
# `common/cmd_nvedit.c`: `_do_setenv`

The function edits the array in place: it looks the name up, checks the names that are treated
specially, removes the old definition by shifting what follows it down, and appends the new one
behind the last entry.

What differs between builds is a `SetenvConfig`; what a device answers is part of the call
(`consoleOk`).  `CONFIG_NET_MULTI`, `CONFIG_CONSOLE_MUX`, `CONFIG_SERIAL_MULTI` and the hooks of
single boards are not set by `include/configs/emev.h` and are left out: none of them touches
the environment.  So is the wait for a key after the baud rate was switched.
-/

namespace EmevBsp
namespace Env

/-- The build options `_do_setenv` depends on. -/
structure SetenvConfig where
  /-- `CONFIG_ENV_OVERWRITE` -/
  envOverwrite : Bool
  /-- `CONFIG_HAS_UID` -/
  hasUid : Bool
  /-- `CONFIG_ETHADDR`, with `CONFIG_OVERWRITE_ETHADDR_ONCE` -/
  overwriteEthaddrOnce : Option CString
  /-- `CONFIG_SYS_BAUDRATE_TABLE` -/
  baudrateTable : List ℕ
  /-- the text at address 0, read when `argv[2]` is NULL -/
  nullText : List UInt8

/-- `argv[2]` and what follows it. -/
inductive Args where
  /-- the strings `argv[2..argc)` -/
  | vals (l : List CString)
  /-- `argc` is 3 and `argv[2]` is NULL -/
  | null
  deriving DecidableEq

/-- One call: `flag`, `argv[1]`, the arguments, and whether `console_assign` would succeed. -/
structure SetenvCall where
  flag : ℕ
  name : CString
  args : Args
  consoleOk : Bool

/-- The calls that return 1, by their message. -/
inductive SetenvError where
  | illegalChar
  | cantOverwrite
  | cantDelete
  /-- `console_assign` failed; it printed its own message -/
  | console
  | baudrate (rate : ℕ)
  | overflow
  deriving DecidableEq

/-- The format string of the message. -/
def SetenvError.text : SetenvError → String
  | .illegalChar => "## Error: illegal character '=' in variable name \"%s\"\n"
  | .cantOverwrite => "Can't overwrite \"%s\"\n"
  | .cantDelete => "Can't delete \"%s\"\n"
  | .console => ""
  | .baudrate _ => "## Baudrate %d bps not supported\n"
  | .overflow => "## Error: environment overflow, \"%s\" deleted\n"

/-- The globals `_do_setenv` reads and writes. -/
structure Globals where
  env : EnvT
  envId : ℕ
  baudrate : ℕ
  biEnetaddr : List ℕ
  biIpAddr : ℕ
  loadAddr : ℕ
  bootFile : List UInt8

/-! ## Removing the old definition -/

/-- The shift loop: copy down from `nxt` until a double NUL has been seen. -/
def shiftDown : (fuel : ℕ) → (data : List UInt8) → (env nxt : ℕ) → Option (List UInt8 × ℕ)
  | 0, _, _, _ => none
  | fuel + 1, data, env, nxt => do
    let b ← data[nxt]?
    let data ← store data env b
    if b = 0 then
      let c ← data[nxt + 1]?
      if c = 0 then return (data, env)
    shiftDown fuel data (env + 1) (nxt + 1)

def deleteEntry (data : List UInt8) (f : Found) : Option (List UInt8) := do
  let c ← data[f.nxt + 1]?
  if c = 0 then
    if f.env > 0 then
      -- `env--` and `*++env = '\0'`
      store data f.env 0
    else
      let data ← store data 0 0
      store data 1 0
  else
    let (data, env) ← shiftDown data.length data f.env (f.nxt + 1)
    store data (env + 1) 0

/-- The array after the old definition, if there is one, was removed. -/
def removeOld (data : List UInt8) : Option Found → Option (List UInt8)
  | none => some data
  | some f => deleteEntry data f

/-! ## Appending the new definition -/

/-- `for (env=env_data; *env || *(env+1); ++env);` -/
def findEnd : List UInt8 → ℕ → Option ℕ
  | a :: b :: rest, env => if a ≠ 0 ∨ b ≠ 0 then findEnd (b :: rest) (env + 1) else some env
  | _, _ => none

/-- `strlen(name) + 2`, and `strlen(argv[i]) + 1` for every argument. -/
def setenvLen (name : CString) (vals : List CString) : ℕ :=
  name.length + 2 + (vals.map fun v => v.length + 1).sum

/-- The argument loop: `'='` before the first argument, `' '` before the others. -/
def writeArgs : (data : List UInt8) → (env : ℕ) → (sep : UInt8) → List CString →
    Option (List UInt8 × ℕ)
  | data, env, _, [] => some (data, env)
  | data, env, sep, v :: vals => do
    let data ← store data env sep
    let data ← strcpy data (env + 1) v.bytes
    writeArgs data (env + 1 + v.length) 32 vals

/-- The inner `none` is the overflow. -/
def appendEntry (data : List UInt8) (name : CString) (vals : List CString) :
    Option (Option (List UInt8)) := do
  let e ← findEnd data 0
  let env := if e > 0 then e + 1 else e
  if data.length < env + setenvLen name vals then return none
  let data ← strcpy data env name.bytes
  let (data, env) ← writeArgs data (env + name.length) eqSign vals
  let data ← store data (env + 1) 0
  return some data

/-! ## The checks on the way -/

/-- `argv[2]`, when `argc` is at least 3 and it is not NULL. -/
def Args.arg2 : Args → Option CString
  | .vals l => l.head?
  | .null => none

/-- The checks made when the name is already defined, in their order; `old` is the text of the
old definition. -/
def setenvGuard (cfg : SetenvConfig) (c : SetenvCall) (old : List UInt8) : Option SetenvError :=
  let serial := c.name = .ofString "serial#" ∧ ¬ (cfg.hasUid ∧ c.flag = 0xdeaf4add)
  let ethaddr := c.name = .ofString "ethaddr" ∧
    (cfg.overwriteEthaddrOnce.map CString.bytes) ≠ some old
  if ¬ cfg.envOverwrite ∧ (serial ∨ ethaddr) then some .cantOverwrite
  else if c.name ∈ [.ofString "stdin", .ofString "stdout", .ofString "stderr"] ∧
      c.args = .vals [] then some .cantDelete
  else if c.name ∈ [.ofString "stdin", .ofString "stdout", .ofString "stderr"] ∧
      ¬ c.consoleOk then some .console
  else if c.name = .ofString "baudrate" then
    let rate := (simpleStrtoul ((c.args.arg2.map CString.bytes).getD cfg.nullText) 10).1
    if rate ∈ cfg.baudrateTable then none else some (.baudrate rate)
  else none

/-- `gd->baudrate` after the checks. -/
def baudrateAfter (cfg : SetenvConfig) (c : SetenvCall) (old : ℕ) : ℕ :=
  if c.name = .ofString "baudrate" then
    (simpleStrtoul ((c.args.arg2.map CString.bytes).getD cfg.nullText) 10).1
  else old

/-- `n` numbers with one character between them, as `ethaddr` and `ipaddr` are read. -/
def parseFields (base : ℕ) : ℕ → List UInt8 → List ℕ
  | 0, _ => []
  | n + 1, s =>
    let (v, e) := simpleStrtoul s base
    v % 256 :: parseFields base n e.tail

/-- `copy_filename (dst, src, size)`. -/
def copyFilename (src : List UInt8) (size : ℕ) : List UInt8 :=
  match src with
  | 34 :: src => (src.take (size - 2)).takeWhile (· ≠ 34)
  | src => (src.take (size - 1)).takeWhile (· ≠ 34)

/-- The variables mirrored elsewhere, after the environment was changed.  `bi_ip_addr` holds
`htonl (addr)`, so its lowest byte in memory order is the first field. -/
def updateMirrors (g : Globals) (name : CString) (val : CString) : Globals :=
  if name = .ofString "ethaddr" then { g with biEnetaddr := parseFields 16 6 val.bytes }
  else if name = .ofString "ipaddr" then
    { g with biIpAddr := Nat.ofDigits 256 (parseFields 10 4 val.bytes) }
  else if name = .ofString "loadaddr" then
    { g with loadAddr := (simpleStrtoul val.bytes 16).1 }
  else if name = .ofString "bootfile" then
    { g with bootFile := copyFilename val.bytes 128 }
  else g

/-! ## The function -/

/-- What follows the checks: remove the old definition, then append the new one. -/
def setenvEdit (g : Globals) (c : SetenvCall) (found : Option Found) :
    Option (Option SetenvError × Globals) := do
  let data ← removeOld g.env.data found
  let g := { g with env := { g.env with data := data } }
  match c.args with
  | .null | .vals [] => return (none, { g with env := envCrcUpdate g.env })
  | .vals (v :: vals) =>
    match ← appendEntry data c.name (v :: vals) with
    | none =>
      -- `return 1` here, with the old definition gone and the check not updated
      return (some .overflow, g)
    | some data =>
      let g := { g with env := envCrcUpdate { g.env with data := data } }
      return (none, updateMirrors g c.name v)

/-- `_do_setenv`: the message of a call that returns 1, and the globals after the call. -/
def doSetenv (cfg : SetenvConfig) (g : Globals) (c : SetenvCall) :
    Option (Option SetenvError × Globals) := do
  if eqSign ∈ c.name.bytes then return (some .illegalChar, g)
  let g := { g with envId := g.envId + 1 }
  match ← findEntry c.name.bytes g.env.data (g.env.data.length + 1) 0 with
  | none => setenvEdit g c none
  | some f =>
    let old ← stringAt g.env.data f.oldval
    match setenvGuard cfg c old with
    | some err => return (some err, g)
    | none => setenvEdit { g with baudrate := baudrateAfter cfg c g.baudrate } c (some f)

/-- `setenv (varname, varvalue)`. -/
def setenv (cfg : SetenvConfig) (g : Globals) (varname : CString) (varvalue : Option CString)
    (consoleOk : Bool) : Option (Option SetenvError × Globals) :=
  doSetenv cfg g ⟨0, varname, .vals varvalue.toList, consoleOk⟩

end Env
end EmevBsp
