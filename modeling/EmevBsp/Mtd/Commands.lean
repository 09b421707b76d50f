import EmevBsp.Mtd.Parts
import EmevBsp.Library.TransitionSystem
import Mathlib.Logic.Function.Basic

/-!
# `common/cmd_jffs2.c`: `generate_mtdparts`

The string that describes a list of devices is written piece by piece into a buffer, and each piece
is checked against the room that is left.  The first nine bytes, `mtdparts=`, are not counted.
-/

namespace EmevBsp
namespace Mtd

def memsizeFormat (size : ℕ) : List UInt8 :=
  if size % 2 ^ 30 = 0 then decimal (size / 2 ^ 30) ++ [103]
  else if size % 2 ^ 20 = 0 then decimal (size / 2 ^ 20) ++ [109]
  else if size % 2 ^ 10 = 0 then decimal (size / 2 ^ 10) ++ [107]
  else decimal size

/-- What was written, and `maxlen`. -/
structure Out where
  buf : List UInt8
  maxlen : ℕ

/-- A piece of the string; `none` is `goto cleanup`. -/
def emit (o : Out) (piece : List UInt8) : Option Out :=
  if o.maxlen < piece.length then none else some ⟨o.buf ++ piece, o.maxlen - piece.length⟩

/-- A piece that is written on a condition. -/
def emitIf (cond : Bool) (o : Out) (piece : List UInt8) : Option Out :=
  if cond then emit o piece else some o

/-- Whether the offset has to be written. -/
def gap (prevPart : Option PartInfo) (part : PartInfo) : Bool :=
  match prevPart with
  | none => part.offset ≠ 0
  | some prev => (prev.offset + prev.size) % 2 ^ 32 ≠ part.offset

/-- One partition; `more` is whether a `,` follows. -/
def formatPart (prevPart : Option PartInfo) (more : Bool) (o : Out) (part : PartInfo) :
    Option Out :=
  (emit o (memsizeFormat part.size)).bind fun o =>
    (emitIf (gap prevPart part) o (64 :: memsizeFormat part.offset)).bind fun o =>
      (emitIf (!part.autoName) o (40 :: part.name ++ [41])).bind fun o =>
        (emitIf part.readOnly o [114, 111]).bind fun o => emitIf more o [44]

/-- The loop over the partitions of a device. -/
def formatParts (numParts : ℕ) : ℕ → Option PartInfo → Out → List PartInfo → Option Out
  | _, _, o, [] => some o
  | cnt, prevPart, o, part :: parts =>
    (formatPart prevPart (cnt + 1 < numParts) o part).bind fun o =>
      formatParts numParts (cnt + 1) (some part) o parts

/-- The loop over the devices. -/
def formatDevices : Out → List MtdDevice → Option Out
  | o, [] => some o
  | o, dev :: devices =>
    (emit o (dev.id.mtdId ++ [58])).bind fun o =>
      (formatParts dev.numParts 0 none o dev.parts).bind fun o =>
        (emitIf (devices ≠ []) o [59]).bind fun o => formatDevices o devices

/-- `"mtdparts="`. -/
def mtdpartsPrefix : List UInt8 := [109, 116, 100, 112, 97, 114, 116, 115, 61]

/-- `generate_mtdparts`; `none` is a string that is too long. -/
def generateMtdparts (devices : List MtdDevice) (buflen : ℕ) : Option (List UInt8) :=
  if devices = [] then some []
  else (formatDevices ⟨mtdpartsPrefix, buflen - 1⟩ devices).map Out.buf

/-! ## The string -/

/-- The text of a piece that is written on a condition. -/
def textIf (cond : Bool) (piece : List UInt8) : List UInt8 := if cond then piece else []

/-- The text of a partition. -/
def partText (prevPart : Option PartInfo) (more : Bool) (part : PartInfo) : List UInt8 :=
  memsizeFormat part.size ++ (textIf (gap prevPart part) (64 :: memsizeFormat part.offset) ++
    (textIf (!part.autoName) (40 :: part.name ++ [41]) ++
      (textIf part.readOnly [114, 111] ++ textIf more [44])))

/-- The text of the partitions behind `prevPart`. -/
def partsText (numParts : ℕ) : ℕ → Option PartInfo → List PartInfo → List UInt8
  | _, _, [] => []
  | cnt, prevPart, part :: parts =>
    partText prevPart (cnt + 1 < numParts) part ++ partsText numParts (cnt + 1) (some part) parts

/-- The text of the devices. -/
def devicesText : List MtdDevice → List UInt8
  | [] => []
  | dev :: devices =>
    dev.id.mtdId ++ [58] ++ (partsText dev.numParts 0 none dev.parts ++
      (textIf (devices ≠ []) [59] ++ devicesText devices))

/-- A step that writes a text, when there is room for it. -/
def Writes (f : Out → Option Out) (text : List UInt8) : Prop :=
  ∀ o, f o = if o.maxlen < text.length then none
    else some ⟨o.buf ++ text, o.maxlen - text.length⟩

theorem writes_nil : Writes some [] := fun o => by
  rw [List.length_nil, if_neg (Nat.not_lt_zero _), List.append_nil, Nat.sub_zero]

theorem writes_emit (piece : List UInt8) : Writes (fun o => emit o piece) piece := fun _ => rfl

theorem writes_emitIf (cond : Bool) (piece : List UInt8) :
    Writes (fun o => emitIf cond o piece) (textIf cond piece) := by
  cases cond with
  | false => exact writes_nil
  | true => exact writes_emit piece

theorem Writes.bind {f g : Out → Option Out} {text text' : List UInt8} (hf : Writes f text)
    (hg : Writes g text') : Writes (fun o => (f o).bind g) (text ++ text') := by
  intro o
  dsimp only
  rw [hf o, List.length_append]
  by_cases hlong : o.maxlen < text.length
  · rw [if_pos hlong, if_pos (by omega)]
    rfl
  · rw [if_neg hlong, Option.bind_some, hg]
    dsimp only
    by_cases hlong' : o.maxlen < text.length + text'.length
    · rw [if_pos hlong', if_pos (by omega)]
    · rw [if_neg hlong', if_neg (by omega), List.append_assoc, Nat.sub_sub]

theorem writes_formatPart (prevPart : Option PartInfo) (more : Bool) (part : PartInfo) :
    Writes (fun o => formatPart prevPart more o part) (partText prevPart more part) :=
  (writes_emit _).bind ((writes_emitIf _ _).bind ((writes_emitIf _ _).bind
    ((writes_emitIf _ _).bind (writes_emitIf more [44]))))

theorem writes_formatParts (numParts cnt : ℕ) (prevPart : Option PartInfo)
    (parts : List PartInfo) :
    Writes (fun o => formatParts numParts cnt prevPart o parts)
      (partsText numParts cnt prevPart parts) := by
  induction parts generalizing cnt prevPart with
  | nil => exact writes_nil
  | cons part parts ih => exact (writes_formatPart _ _ _).bind (ih (cnt + 1) (some part))

theorem writes_formatDevices (devices : List MtdDevice) :
    Writes (fun o => formatDevices o devices) (devicesText devices) := by
  induction devices with
  | nil => exact writes_nil
  | cons dev devices ih =>
    exact (writes_emit _).bind ((writes_formatParts _ _ _ _).bind ((writes_emitIf _ _).bind ih))

theorem generateMtdparts_eq {devices : List MtdDevice} (hdevices : devices ≠ []) (buflen : ℕ) :
    generateMtdparts devices buflen =
      if buflen - 1 < (devicesText devices).length then none
      else some (mtdpartsPrefix ++ devicesText devices) := by
  have hwrites := writes_formatDevices devices ⟨mtdpartsPrefix, buflen - 1⟩
  dsimp only at hwrites
  rw [generateMtdparts, if_neg hdevices, hwrites]
  split_ifs
  · rfl
  · rfl

end Mtd
end EmevBsp

/-!
# `common/cmd_jffs2.c`: the commands `mtdparts` and `chpart`

The lists of identifiers and of devices are kept between the commands, with copies of the strings
they were made from.  Each command first makes sure that the lists belong to the environment;
`mtdparts add` and `mtdparts del` then edit the lists, and make the string from them.

A failed command returns 1, with the state in which it stopped.  A device that is merged into
another one is a list of its own, so releasing it changes no list here.  The variables `mtddevnum`
and `mtddevname` are written and never read here.  `mtdparts add` passes no place for the text
behind the device, and what `device_parse` writes there is left out; and so is what lies behind
the buffers that a string is too long for.

* `mtdpartsInit`: `mtdparts_init`.
* `add`, `deletePartition`, `chpart`, `delall`, `default`: the commands.
-/

namespace EmevBsp
namespace Mtd

/-! ## The state -/

/-- The variables of the file, the environment, and the address of the next object.  Where there are
both, `inFront` is whether `partition` stands in front of `mtdparts`. -/
structure State where
  env : EnvVar → Option (List UInt8)
  inFront : Bool
  lastIds : List UInt8
  lastParts : List UInt8
  lastPartition : List UInt8
  ids : List MtdId
  devices : List MtdDevice
  currentDev : Option ℕ
  currentPartnum : ℕ
  next : ℕ

variable (B : Board)

/-- `setenv` of `NULL`. -/
def unsetenv (s : State) (var : EnvVar) : State :=
  { s with env := Function.update s.env var none }

/-- `inFront`, when a variable has gone to the end. -/
def inFrontAfter (s : State) : EnvVar → Bool
  | .mtdids => s.inFront
  | .mtdparts => (s.env .partition).isSome
  | .partition => false

/-- `setenv` of a value: it goes to the end, if there is room, when the old one is gone. -/
def setenv (s : State) (var : EnvVar) (val : List UInt8) : State :=
  if B.noRoom s.env var val then unsetenv s var
  else
    { s with env := Function.update s.env var (some val), inFront := inFrontAfter s var }

/-- The device at an address. -/
def deviceAt (devices : List MtdDevice) (addr : ℕ) : Option MtdDevice :=
  devices.find? fun dev => dev.addr = addr

/-- `jffs2_part_info (current_dev, current_partnum)`. -/
def currentPart (s : State) : Option PartInfo :=
  (s.currentDev.bind fun addr => deviceAt s.devices addr).bind fun dev =>
    dev.parts[s.currentPartnum]?

/-- The text `<type><num>,<partnum>`. -/
def partitionText (dev : MtdDevice) (partnum : ℕ) : List UInt8 :=
  dev.id.type.text ++ decimal dev.id.num ++ [44] ++ decimal partnum

def currentSave (s : State) : State :=
  match s.currentDev.bind fun addr => deviceAt s.devices addr with
  | some dev =>
    { setenv B s .partition (partitionText dev s.currentPartnum) with
      lastPartition := partitionText dev s.currentPartnum }
  | none => { unsetenv s .partition with lastPartition := [] }

/-! ## The lists -/

/-- The devices with other partitions at one of them. -/
def setParts (devices : List MtdDevice) (addr : ℕ) (parts : List PartInfo) : List MtdDevice :=
  devices.map fun dev => if dev.addr = addr then { dev with parts := parts } else dev

def deviceDel (s : State) (dev : MtdDevice) : State :=
  let devices := s.devices.filter fun d => d.addr ≠ dev.addr
  if s.currentDev = some dev.addr then
    match devices with
    | [] => currentSave B { s with devices := [], currentDev := none }
    | first :: rest =>
      currentSave B { s with
        devices := first :: rest, currentDev := some first.addr, currentPartnum := 0 }
  else { s with devices := devices }

def deviceAdd (s : State) (dev : MtdDevice) : State :=
  if s.devices = [] then
    currentSave B { s with devices := [dev], currentDev := some dev.addr, currentPartnum := 0 }
  else { s with devices := s.devices ++ [dev] }

/-- `part_sort_add`, for a device of the list. -/
def partSortAdd (s : State) (dev : MtdDevice) (part : PartInfo) : Option State :=
  (insertSorted part dev.parts).map fun r =>
    let t := { s with devices := setParts s.devices dev.addr r.1 }
    if s.currentDev = some dev.addr then
      match currentPart s, r.2 with
      | some curr, some pi =>
        if pi.offset ≤ curr.offset then
          currentSave B { t with currentPartnum := (s.currentPartnum + 1) % 2 ^ 8 }
        else t
      | _, _ => t
    else t

def partAdd (s : State) (dev : MtdDevice) (part : PartInfo) : Option State :=
  (partValidate B dev.id part).bind fun part => partSortAdd B s dev part

def partDel (s : State) (dev : MtdDevice) (part : PartInfo) : State :=
  if dev.numParts = 1 then deviceDel B s dev
  else
    let devices := setParts s.devices dev.addr (dev.parts.filter fun p => p.addr ≠ part.addr)
    if s.currentDev = some dev.addr then
      match currentPart s with
      | some curr =>
        let partnum :=
          if curr.addr = part.addr then 0
          else if part.offset ≤ curr.offset then (s.currentPartnum + 255) % 2 ^ 8
          else s.currentPartnum
        currentSave B { s with devices := devices, currentPartnum := partnum }
      | none => { s with devices := devices }
    else { s with devices := devices }

/-- `jffs2_devices_init`. -/
def devicesInit (s : State) : State :=
  { currentSave B { s with lastParts := [], currentDev := none } with devices := [] }

/-! ## Identifiers -/

/-- `device_validate`: the size of a device, if it exists. -/
def deviceValidate (type : DevType) (num : ℕ) : Option ℕ :=
  match type with
  | .nor => B.norSize num
  | .nand => B.nandSize num
  | .onenand => B.onenandSize

/-- The type at the start of `id_parse`. -/
def typeParse : List UInt8 → Option (DevType × List UInt8)
  | 110 :: 97 :: 110 :: 100 :: p => some (.nand, p)
  | 110 :: 111 :: 114 :: p => some (.nor, p)
  | 111 :: 110 :: 101 :: 110 :: 97 :: 110 :: 100 :: p => some (.onenand, p)
  | _ => none

def idParse (id : List UInt8) : Option (DevType × ℕ × List UInt8) :=
  (typeParse id).bind fun type =>
    if type.2.head?.any isdigit then
      some (type.1, (simpleStrtoul type.2 0).1 % 2 ^ 8, (simpleStrtoul type.2 0).2)
    else none

def idFind (ids : List MtdId) (type : DevType) (num : ℕ) : Option MtdId :=
  ids.find? fun id => id.type = type ∧ id.num = num

/-- The loop of `parse_mtdids`: the list, and whether it was read to its end.  It is emptied after
an error, except where a device does not exist.  An entry takes up a byte at least. -/
def idsLoop : ℕ → ℕ → List MtdId → List UInt8 → List MtdId × Bool
  | 0, _, _, _ => ([], false)
  | fuel + 1, addr, ids, p =>
    match idParse p with
    | none => ([], false)
    | some (type, num, p) =>
      match p with
      | 61 :: mtdId =>
        match deviceValidate B type num with
        | none => (ids, false)
        | some size =>
          if (idFind ids type num).isSome then ([], false)
          else
            let ids := ids ++ [⟨addr, type, num, size % 2 ^ 32, mtdId.takeWhile (· ≠ 44)⟩]
            match mtdId.dropWhile (· ≠ 44) with
            | [] => (ids, true)
            | _ :: p => if p = [] then (ids, true) else idsLoop fuel (addr + 1) ids p
      | _ => ([], false)

/-- `parse_mtdids`, with whether it succeeded. -/
def parseMtdids (s : State) (ids : List UInt8) : State × Bool :=
  let r := idsLoop B (ids.length + 1) s.next [] ids
  ({ s with lastIds := [], ids := r.1, next := s.next + r.1.length }, r.2)

/-! ## Devices -/

/-- The loop of `parse_mtdparts`: the devices, and the next address.  A device takes up a byte of
the text at least. -/
def devicesLoop (ids : List MtdId) :
    ℕ → ℕ → List MtdDevice → List UInt8 → Option (List MtdDevice × ℕ)
  | 0, _, _, _ => none
  | fuel + 1, addr, devices, p =>
    (deviceParse B ids devices addr p).bind fun r =>
      if (deviceFind devices r.1.id.type r.1.id.num).isSome then none
      else if r.2.1 = [] then some (devices ++ [r.1], r.2.2)
      else devicesLoop ids fuel r.2.2 (devices ++ [r.1]) r.2.1

/-- The devices that a string describes. -/
def parseDevices (ids : List MtdId) (addr : ℕ) (mtdparts : List UInt8) :
    Option (List MtdDevice × ℕ) :=
  if mtdpartsPrefix <+: mtdparts then
    devicesLoop B ids (mtdparts.length + 1) addr [] (mtdparts.drop 9)
  else none

/-- `parse_mtdparts`, with whether it succeeded. -/
def parseMtdparts (s : State) (mtdparts : List UInt8) : State × Bool :=
  let s := devicesInit B s
  match parseDevices B s.ids s.next mtdparts with
  | none => (s, false)
  | some (devices, next) => ({ s with devices := devices, next := next }, true)

/-- The partition of a name, with its device and its number, which is a `u8`. -/
def findName (name : List UInt8) : List MtdDevice → Option (MtdDevice × ℕ × PartInfo)
  | [] => none
  | dev :: devices =>
    match dev.parts.find? fun part => part.name = name with
    | some part =>
      some (dev, dev.parts.findIdx (fun part => part.name = name) % 2 ^ 8, part)
    | none => findName name devices

def findDevAndPart (s : State) (id : List UInt8) : Option (MtdDevice × ℕ × PartInfo) :=
  match findName id s.devices with
  | some r => some r
  | none =>
    match idParse id with
    | none => none
    | some (type, num, p) =>
      match p with
      | 44 :: c :: p =>
        let pnum := (simpleStrtoul (c :: p) 0).1 % 2 ^ 8
        if (simpleStrtoul (c :: p) 0).2 ≠ [] then none
        else
          (deviceFind s.devices type num).bind fun dev =>
            dev.parts[pnum]?.map fun part => (dev, pnum, part)
      | _ => none

/-! ## `mtdparts_init` -/

/-- The part of `mtdparts_init` that parses the identifiers anew if they have changed: whether that
failed, and whether they have. -/
def initIds (s : State) (ids : List UInt8) : State × Bool × Bool :=
  if s.lastIds ≠ [] ∧ s.lastIds = ids then (s, true, false)
  else
    let r := parseMtdids B s ids
    if r.2 then ({ r.1 with lastIds := ids }, true, true) else (devicesInit B r.1, false, true)

/-- What `last_parts` gets: `parts` points into the environment, from which `jffs2_devices_init` has
taken `partition` by then. -/
def copyParts (s : State) (parts : List UInt8) : List UInt8 :=
  if s.inFront = true ∧ s.env .partition ≠ none then (B.stale s.env).take 512 else parts

/-- The part that parses the partitions anew if need be. -/
def initParts (s : State) (parts : List UInt8) (idsChanged : Bool) : State × Bool :=
  if s.lastParts = [] ∨ s.lastParts ≠ parts ∨ idsChanged = true then
    let r := parseMtdparts B s parts
    if r.2 then
      match r.1.devices with
      | [] => (r.1, false)
      | first :: _ =>
        (currentSave B { r.1 with
          lastParts := copyParts B s parts, currentDev := some first.addr
          currentPartnum := 0 }, true)
    else (r.1, false)
  else (s, true)

/-- The part that reads the current partition from the environment; `tmpEp` is the copy of its
first 16 bytes. -/
def initPartition (s : State) (tmpEp : List UInt8) : State :=
  if tmpEp ≠ [] ∧ tmpEp ≠ s.lastPartition then
    match findDevAndPart s tmpEp with
    | some (dev, pnum, _) =>
      currentSave B { s with currentDev := some dev.addr, currentPartnum := pnum }
    | none => s
  else if s.env .partition = none then currentSave B s
  else s

/-- The value of `mtdids`, set to the default if there is none. -/
def initEnv (s : State) : Option (State × List UInt8) :=
  match s.env .mtdids, B.mtdidsDefault with
  | some ids, _ => some (s, ids)
  | none, some ids => some (setenv B s .mtdids ids, ids)
  | none, none => none

/-- `mtdparts_init`, with whether it returned 0. -/
def mtdpartsInit (s : State) : State × Bool :=
  let parts := s.env .mtdparts
  let tmpEp := ((s.env .partition).getD []).take 16
  match initEnv B s with
  | none => (s, false)
  | some (s, ids) =>
    if 128 - 1 < ids.length then (s, false)
    else if parts.any fun parts => 512 - 1 < parts.length then (s, false)
    else
      let r := initIds B s ids
      if r.2.1 = false then (r.1, false)
      else
        match parts with
        | some parts =>
          let t := initParts B r.1 parts r.2.2
          if t.2 then (initPartition B t.1 tmpEp, true) else (t.1, false)
        | none => if r.1.lastParts ≠ [] then (devicesInit B r.1, true) else (r.1, true)

/-! ## The commands -/

/-- `generate_mtdparts_save (last_parts, MTDPARTS_MAXLEN)`, with whether it returned 0. -/
def generateSave (s : State) : State × Bool :=
  match generateMtdparts s.devices 512 with
  | none => (unsetenv { s with lastParts := [] } .mtdparts, false)
  | some [] => (unsetenv { s with lastParts := [] } .mtdparts, true)
  | some buf => (setenv B { s with lastParts := buf } .mtdparts buf, true)

/-- The text for `device_parse` in `mtdparts add`; `none` is one that is too long by its length, a
`u8`.  A text of 64 bytes or more is written behind the end of `tmpbuf`, and nothing that follows is
said of the source. -/
def addText (mtdId size name : List UInt8) (ro : Option (List UInt8)) : Option (List UInt8) :=
  let len := mtdId.length + 1 + size.length + (name.length + 2) +
    if ro.any fun ro => ro.length = 2 then 2 else 0
  if 64 ≤ len % 2 ^ 8 then none
  else some (mtdId ++ [58] ++ size ++ [40] ++ name ++ [41] ++ ro.getD [])

/-- The text of `mtdparts add` fits into `tmpbuf`. -/
def DescFits (s : State) (mtdDev size name : List UInt8) (ro : Option (List UInt8)) : Prop :=
  ∀ type num rest id text, idParse mtdDev = some (type, num, rest) →
    idFind s.ids type num = some id → addText id.mtdId size name ro = some text → text.length < 64

/-- `mtdparts add`, behind `mtdparts_init`. -/
def addParts (s : State) (mtdDev size name : List UInt8) (ro : Option (List UInt8)) :
    State × Bool :=
  match idParse mtdDev with
  | none => (s, false)
  | some (type, num, _) =>
    match idFind s.ids type num with
    | none => (s, false)
    | some id =>
      match (addText id.mtdId size name ro).bind (deviceParse B s.ids s.devices s.next) with
      | none => (s, false)
      | some (dev, _, next) =>
        let s := { s with next := next }
        match deviceFind s.devices dev.id.type dev.id.num with
        | none => generateSave B (deviceAdd B s dev)
        | some devTmp =>
          match dev.parts.head?.bind (partAdd B s devTmp) with
          | none => (s, false)
          | some s => generateSave B s

/-- `mtdparts add`. -/
def add (s : State) (mtdDev size name : List UInt8) (ro : Option (List UInt8)) : State × Bool :=
  let r := mtdpartsInit B s
  if r.2 then addParts B r.1 mtdDev size name ro else r

def deletePartition (s : State) (id : List UInt8) : State × Bool :=
  match findDevAndPart s id with
  | none => (s, false)
  | some (dev, _, part) => generateSave B (partDel B s dev part)

/-- `mtdparts del`. -/
def del (s : State) (id : List UInt8) : State × Bool :=
  let r := mtdpartsInit B s
  if r.2 then deletePartition B r.1 id else r

def chpart (s : State) (id : List UInt8) : State × Bool :=
  let r := mtdpartsInit B s
  if r.2 then
    match findDevAndPart r.1 id with
    | none => (r.1, false)
    | some (dev, pnum, _) =>
      (currentSave B { r.1 with currentDev := some dev.addr, currentPartnum := pnum }, true)
  else r

/-- `mtdparts delall`. -/
def delall (s : State) : State × Bool :=
  (devicesInit B (unsetenv (mtdpartsInit B s).1 .mtdparts), true)

/-- `setenv` of a default, which may be `NULL`. -/
def setDefault (s : State) (var : EnvVar) : Option (List UInt8) → State
  | none => unsetenv s var
  | some val => setenv B s var val

/-- `mtdparts default`. -/
def default (s : State) : State × Bool :=
  ((mtdpartsInit B (unsetenv (setDefault B (setDefault B s .mtdids B.mtdidsDefault) .mtdparts
    B.mtdpartsDefault) .partition)).1, true)

/-- The lists and copies before the first command. -/
def initial (env : EnvVar → Option (List UInt8)) : State where
  env := env
  inFront := false
  lastIds := []
  lastParts := []
  lastPartition := []
  ids := []
  devices := []
  currentDev := none
  currentPartnum := 0
  next := 0

end Mtd
end EmevBsp
