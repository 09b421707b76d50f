import Mathlib.Data.Int.Notation
import Mathlib.Data.Nat.Notation
import Mathlib.Logic.Function.Basic
import Mathlib.Tactic.Common

/-!
# `system/vold/Volume.cpp`: mounting, unmounting and formatting a card

`mountVol` mounts the card on a staging directory, binds its directory of secure containers to
`/mnt/secure/asec`, covers it with a tmpfs, and moves the whole to the mount point of the volume.
`unmountVol` takes the same way back, with a path of its own to restore everything.

A path has a stack of mounts.  A move takes along what is mounted below.  `umount` refuses a path
with a mount below it and one that is no mount point.  Apart from that each call may fail, and how
it does is a parameter: an answer for each call, and for a call that is retried one for each
attempt.
-/

namespace EmevBsp
namespace Vold

/-! ## The mount table -/

/-- `/mnt/secure/staging`, and the mount point of the volume. -/
inductive Spot where
  | staging
  | mountpoint
  deriving DecidableEq

/-- The paths of the calls; `secimg` is `.android_secure` below a spot, `asec` is
`/mnt/secure/asec`, and `asecSecure` is `/mnt/asec_secure`. -/
inductive Path where
  | root (s : Spot)
  | secimg (s : Spot)
  | asec
  | asecSecure
  deriving DecidableEq

/-- What is mounted: the card, its directory of secure containers, or an empty tmpfs. -/
inductive Source where
  | card
  | secureDir
  | tmpfs
  deriving DecidableEq

/-- The mounts on each path, the last one first. -/
abbrev Table := Path → List Source

inductive Errno where
  | ebusy
  | einval
  | enoent
  | other
  deriving DecidableEq

/-- A failure of a call that the state of the table does not explain. -/
inductive Fail where
  | ebusy
  | other
  deriving DecidableEq

def Fail.errno : Fail → Errno
  | ebusy => .ebusy
  | other => .other

/-- `mount`, of something new. -/
def mount (t : Table) (p : Path) (s : Source) : Option Fail → Option Errno × Table
  | some e => (some e.errno, t)
  | none => (none, Function.update t p (s :: t p))

/-- There is a mount below the path. -/
def Table.Busy (t : Table) : Path → Prop
  | .root s => t (.secimg s) ≠ []
  | _ => False

instance (t : Table) : (p : Path) → Decidable (t.Busy p)
  | .root s => inferInstanceAs (Decidable (t (.secimg s) ≠ []))
  | .secimg _ | .asec | .asecSecure => inferInstanceAs (Decidable False)

def umount (t : Table) (p : Path) (answer : Option Fail) : Option Errno × Table :=
  match t p with
  | [] => (some .einval, t)
  | _ :: rest =>
    if t.Busy p then (some .ebusy, t)
    else
      match answer with
      | some e => (some e.errno, t)
      | none => (none, Function.update t p rest)

/-- `mount` with `MS_MOVE`. -/
def move (t : Table) (src dst : Spot) (answer : Option Fail) : Option Errno × Table :=
  match t (.root src), answer with
  | [], _ => (some .einval, t)
  | _, some e => (some e.errno, t)
  | m :: rest, none => (none, fun p =>
      if p = .root src then rest
      else if p = .root dst then m :: t (.root dst)
      else if p = .secimg src then []
      else if p = .secimg dst then t (.secimg src) ++ t (.secimg dst)
      else t p)

/-! ## The volume -/

/-- The states of a volume. -/
inductive VolumeState where
  | init
  | noMedia
  | idle
  | pending
  | mounted
  | unmounting
  | checking
  | formatting
  | shared
  | sharedMnt
  deriving DecidableEq

/-- A volume and the mount table. -/
structure Volume where
  state : VolumeState
  currentlyMountedKdev : ℤ
  table : Table

def Volume.setState (v : Volume) (s : VolumeState) : Volume := { v with state := s }

/-- `isMountpointMounted`; `opened` tells whether `/proc/mounts` could be opened. -/
def Volume.isMountpointMounted (v : Volume) (opened : Bool) : Bool :=
  opened && !(v.table (.root .mountpoint)).isEmpty

/-- The answers in `formatVol`. -/
structure FormatAnswers where
  procMounts : Bool
  initializeMbr : ℤ
  format : ℤ

def Volume.formatVol (v : Volume) (a : FormatAnswers) : ℤ × Volume :=
  if v.state = .noMedia then (-1, v)
  else if v.state ≠ .idle then (-1, v)
  else if v.isMountpointMounted a.procMounts then (-1, v.setState .mounted)
  else
    let v := v.setState .formatting
    if a.initializeMbr ≠ 0 then (-1, v)
    else if a.format ≠ 0 then (-1, v)
    else (0, v.setState .idle)

/-- `access` of the directory of secure containers. -/
inductive Access where
  | ok
  | noEntry
  | refused
  deriving DecidableEq

/-- The answers in `createBindMounts`. -/
structure BindAnswers where
  access : Access
  mkdir : ℤ
  stat : ℤ
  isDir : Bool
  bind : Option Fail
  tmpfs : Option Fail
  umount : Option Fail

/-- The directory of secure containers is there, or could be made. -/
def BindAnswers.hasDir (a : BindAnswers) : Bool :=
  match a.access with
  | .noEntry => a.mkdir = 0
  | .refused => false
  | .ok => a.stat = 0 && a.isDir

/-- `createBindMounts`.  The renaming of the legacy directory shows in what `access` answers.  When
the tmpfs cannot be mounted, the path that is unmounted is not the one of the bind mount. -/
def createBindMounts (a : BindAnswers) (t : Table) : ℤ × Table :=
  if a.hasDir = false then (-1, t)
  else
    match mount t .asec .secureDir a.bind with
    | (some _, t) => (-1, t)
    | (none, t) =>
      match mount t (.secimg .staging) .tmpfs a.tmpfs with
      | (some _, t) => (-1, (umount t .asecSecure a.umount).2)
      | (none, t) => (0, t)

/-- The loop of `doMoveMount`. -/
def doMoveLoop (src dst : Spot) : ℕ → (ℕ → Option Fail) → Table → ℤ × Table
  | 0, _, t => (-1, t)
  | retries + 1, attempts, t =>
    match move t src dst (attempts 0) with
    | (none, t) => (0, t)
    | (some .ebusy, t) => doMoveLoop src dst retries (fun i => attempts (i + 1)) t
    | (some _, t) => (-1, t)

def doMoveMount (src dst : Spot) (attempts : ℕ → Option Fail) (t : Table) : ℤ × Table :=
  doMoveLoop src dst 5 attempts t

/-- The loop of `doUnmount`. -/
def doUnmountLoop (p : Path) : ℕ → (ℕ → Option Fail) → Table → ℤ × Table
  | 0, _, t => (-1, t)
  | retries + 1, attempts, t =>
    match umount t p (attempts 0) with
    | (none, t) => (0, t)
    | (some .einval, t) | (some .enoent, t) => (0, t)
    | (some _, t) => doUnmountLoop p retries (fun i => attempts (i + 1)) t

def doUnmount (p : Path) (attempts : ℕ → Option Fail) (t : Table) : ℤ × Table :=
  doUnmountLoop p 10 attempts t

/-- `Fat::check`: a good file system, none at all, or a bad one. -/
inductive Check where
  | ok
  | noFat
  | bad
  deriving DecidableEq

/-- A device node, with the answers about it. -/
structure Node where
  kdev : ℤ
  check : Check
  mount : Option Fail

/-- The other answers in `mountVol`. -/
structure MountAnswers where
  procMounts : Bool
  nodes : List Node
  bindMounts : BindAnswers
  move : ℕ → Option Fail
  umountStaging : Option Fail

/-- `umount("/mnt/secure/staging")` on the error paths of `mountVol`. -/
def Volume.giveUp (v : Volume) (a : MountAnswers) : ℤ × Volume :=
  (-1, { v with table := (umount v.table (.root .staging) a.umountStaging).2 }.setState .idle)

/-- A device that was mounted on the staging directory. -/
def Volume.publish (v : Volume) (a : MountAnswers) (n : Node) : ℤ × Volume :=
  let r := createBindMounts a.bindMounts v.table
  if r.1 ≠ 0 then { v with table := r.2 }.giveUp a
  else
    let r := doMoveMount .staging .mountpoint a.move r.2
    if r.1 ≠ 0 then { v with table := r.2 }.giveUp a
    else (0, { state := .mounted, currentlyMountedKdev := n.kdev, table := r.2 })

/-- The loop of `mountVol` over the device nodes. -/
def Volume.mountLoop (a : MountAnswers) : List Node → Volume → ℤ × Volume
  | [], v => (-1, v.setState .idle)
  | n :: ns, v =>
    let v := v.setState .checking
    match n.check with
    | .noFat => mountLoop a ns v
    | .bad => (-1, v.setState .idle)
    | .ok =>
      match mount v.table (.root .staging) .card n.mount with
      | (some _, t) => mountLoop a ns { v with table := t }
      | (none, t) => { v with table := t }.publish a n

def Volume.mountVol (v : Volume) (a : MountAnswers) : ℤ × Volume :=
  if v.state = .noMedia then (-1, v)
  else if v.state ≠ .idle then (-1, v)
  else if v.isMountpointMounted a.procMounts then (0, v.setState .mounted)
  else if a.nodes = [] then (-1, v)
  else v.mountLoop a a.nodes

/-- The answers in `unmountVol`. -/
structure UnmountAnswers where
  moveOut : ℕ → Option Fail
  umountTmpfs : ℕ → Option Fail
  umountAsec : ℕ → Option Fail
  umountStaging : ℕ → Option Fail
  bind : Option Fail
  tmpfs : Option Fail
  moveBack : ℕ → Option Fail

def Volume.outNomedia (v : Volume) : ℤ × Volume := (-1, v.setState .noMedia)

def Volume.failRepublish (v : Volume) (a : UnmountAnswers) : ℤ × Volume :=
  let r := doMoveMount .staging .mountpoint a.moveBack v.table
  if r.1 ≠ 0 then { v with table := r.2 }.outNomedia
  else (-1, { v with table := r.2 }.setState .mounted)

def Volume.failRemountTmpfs (v : Volume) (a : UnmountAnswers) : ℤ × Volume :=
  match mount v.table (.secimg .staging) .tmpfs a.tmpfs with
  | (some _, t) => { v with table := t }.outNomedia
  | (none, t) => { v with table := t }.failRepublish a

def Volume.failRecreateBindmount (v : Volume) (a : UnmountAnswers) : ℤ × Volume :=
  match mount v.table .asec .secureDir a.bind with
  | (some _, t) => { v with table := t }.outNomedia
  | (none, t) => { v with table := t }.failRemountTmpfs a

def Volume.unmountVol (v : Volume) (a : UnmountAnswers) : ℤ × Volume :=
  if v.state ≠ .mounted then (-1, v)
  else
    let v := v.setState .unmounting
    let r := doMoveMount .mountpoint .staging a.moveOut v.table
    if r.1 ≠ 0 then (-1, { v with table := r.2 }.setState .mounted)
    else
      let r := doUnmount (.secimg .staging) a.umountTmpfs r.2
      if r.1 ≠ 0 then { v with table := r.2 }.failRepublish a
      else
        let r := doUnmount .asec a.umountAsec r.2
        if r.1 ≠ 0 then { v with table := r.2 }.failRemountTmpfs a
        else
          let r := doUnmount (.root .staging) a.umountStaging r.2
          if r.1 ≠ 0 then { v with table := r.2 }.failRecreateBindmount a
          else (0, { state := .idle, currentlyMountedKdev := -1, table := r.2 })

end Vold
end EmevBsp
