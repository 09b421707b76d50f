import EmevBsp.Mtd.Commands

/-!
# `common/cmd_jffs2.c`: where the strings are written

`generate_mtdparts` checks each piece against the room that is left, but the nine bytes in front are
not counted: up to nine bytes are written behind the buffer.  `mtdparts add` makes the description
of a partition in 64 bytes, and adds its length up in eight bits; an argument behind the name only
counts if it has two letters.
-/

namespace EmevBsp
namespace Mtd

/-! ## What is written before there is no room -/

/-- A piece of the string; the error is what was written at `goto cleanup`. -/
def emitOr (o : Out) (piece : List UInt8) : Except Out Out :=
  if o.maxlen < piece.length then .error o else .ok ⟨o.buf ++ piece, o.maxlen - piece.length⟩

def emitIfOr (cond : Bool) (o : Out) (piece : List UInt8) : Except Out Out :=
  if cond then emitOr o piece else .ok o

/-- One partition; `more` is whether a `,` follows. -/
def formatPartOr (prevPart : Option PartInfo) (more : Bool) (o : Out) (part : PartInfo) :
    Except Out Out :=
  (emitOr o (memsizeFormat part.size)).bind fun o =>
    (emitIfOr (gap prevPart part) o (64 :: memsizeFormat part.offset)).bind fun o =>
      (emitIfOr (!part.autoName) o (40 :: part.name ++ [41])).bind fun o =>
        (emitIfOr part.readOnly o [114, 111]).bind fun o => emitIfOr more o [44]

/-- The loop over the partitions of a device. -/
def formatPartsOr (numParts : ℕ) : ℕ → Option PartInfo → Out → List PartInfo → Except Out Out
  | _, _, o, [] => .ok o
  | cnt, prevPart, o, part :: parts =>
    (formatPartOr prevPart (cnt + 1 < numParts) o part).bind fun o =>
      formatPartsOr numParts (cnt + 1) (some part) o parts

/-- The loop over the devices. -/
def formatDevicesOr : Out → List MtdDevice → Except Out Out
  | o, [] => .ok o
  | o, dev :: devices =>
    (emitOr o (dev.id.mtdId ++ [58])).bind fun o =>
      (formatPartsOr dev.numParts 0 none o dev.parts).bind fun o =>
        (emitIfOr (devices ≠ []) o [59]).bind fun o => formatDevicesOr o devices

/-- The number of bytes that `generate_mtdparts` writes, from the start of `buf` on: with the `\0`
at the end, or with the one that `sprintf` has written behind `mtdparts=`. -/
def written (devices : List MtdDevice) (buflen : ℕ) : ℕ :=
  if devices = [] then 1
  else
    match formatDevicesOr ⟨mtdpartsPrefix, buflen - 1⟩ devices with
    | .ok o => o.buf.length + 1
    | .error o => max 10 o.buf.length

/-- `generate_mtdparts` writes in its buffer. -/
def InBuf (devices : List MtdDevice) (buflen : ℕ) : Prop := written devices buflen ≤ buflen

/-- `mtdparts add` makes the description, with its `\0`, in `PART_ADD_DESC_MAXLEN` bytes. -/
def InTmpbuf (mtdId size name : List UInt8) (ro : Option (List UInt8)) : Prop :=
  ∀ text, addText mtdId size name ro = some text → text.length + 1 ≤ 64

/-! ## Pieces -/

/-- The pieces, one after the other. -/
def emitAll : Out → List (List UInt8) → Except Out Out
  | o, [] => .ok o
  | o, piece :: pieces => (emitOr o piece).bind fun o => emitAll o pieces

/-- A piece that is written on a condition. -/
def pieceIf (cond : Bool) (piece : List UInt8) : List (List UInt8) := if cond then [piece] else []

/-- The pieces of a partition. -/
def partPieces (prevPart : Option PartInfo) (more : Bool) (part : PartInfo) : List (List UInt8) :=
  [memsizeFormat part.size] ++ (pieceIf (gap prevPart part) (64 :: memsizeFormat part.offset) ++
    (pieceIf (!part.autoName) (40 :: part.name ++ [41]) ++
      (pieceIf part.readOnly [114, 111] ++ pieceIf more [44])))

/-- The pieces of the partitions behind `prevPart`. -/
def partsPieces (numParts : ℕ) : ℕ → Option PartInfo → List PartInfo → List (List UInt8)
  | _, _, [] => []
  | cnt, prevPart, part :: parts =>
    partPieces prevPart (cnt + 1 < numParts) part ++
      partsPieces numParts (cnt + 1) (some part) parts

/-- The pieces of the devices. -/
def devicesPieces : List MtdDevice → List (List UInt8)
  | [] => []
  | dev :: devices =>
    [dev.id.mtdId ++ [58]] ++ (partsPieces dev.numParts 0 none dev.parts ++
      (pieceIf (devices ≠ []) [59] ++ devicesPieces devices))

/-- A step that writes pieces, as far as there is room. -/
def Emits (f : Out → Except Out Out) (pieces : List (List UInt8)) : Prop :=
  ∀ o, f o = emitAll o pieces

theorem emits_emitOr (piece : List UInt8) : Emits (fun o => emitOr o piece) [piece] := by
  intro o
  rw [emitAll]
  dsimp only
  cases emitOr o piece <;> rfl

theorem emits_emitIfOr (cond : Bool) (piece : List UInt8) :
    Emits (fun o => emitIfOr cond o piece) (pieceIf cond piece) := by
  cases cond with
  | false => exact fun _ => rfl
  | true => exact emits_emitOr piece

theorem emitAll_append (o : Out) (pieces pieces' : List (List UInt8)) :
    emitAll o (pieces ++ pieces') = (emitAll o pieces).bind fun o => emitAll o pieces' := by
  induction pieces generalizing o with
  | nil => rfl
  | cons piece pieces ih =>
    rw [List.cons_append, emitAll, emitAll]
    cases emitOr o piece with
    | error _ => rfl
    | ok o => exact ih o

theorem Emits.bind {f g : Out → Except Out Out} {pieces pieces' : List (List UInt8)}
    (hf : Emits f pieces) (hg : Emits g pieces') :
    Emits (fun o => (f o).bind g) (pieces ++ pieces') := by
  intro o
  dsimp only
  rw [hf, emitAll_append, funext hg]

theorem emits_formatPartOr (prevPart : Option PartInfo) (more : Bool) (part : PartInfo) :
    Emits (fun o => formatPartOr prevPart more o part) (partPieces prevPart more part) :=
  (emits_emitOr _).bind ((emits_emitIfOr _ _).bind ((emits_emitIfOr _ _).bind
    ((emits_emitIfOr _ _).bind (emits_emitIfOr more [44]))))

theorem emits_formatPartsOr (numParts cnt : ℕ) (prevPart : Option PartInfo)
    (parts : List PartInfo) :
    Emits (fun o => formatPartsOr numParts cnt prevPart o parts)
      (partsPieces numParts cnt prevPart parts) := by
  induction parts generalizing cnt prevPart with
  | nil => exact fun _ => rfl
  | cons part parts ih => exact (emits_formatPartOr _ _ _).bind (ih (cnt + 1) (some part))

theorem emits_formatDevicesOr (devices : List MtdDevice) :
    Emits (fun o => formatDevicesOr o devices) (devicesPieces devices) := by
  induction devices with
  | nil => exact fun _ => rfl
  | cons dev devices ih =>
    exact (emits_emitOr _).bind
      ((emits_formatPartsOr _ _ _ _).bind ((emits_emitIfOr _ _).bind ih))

/-! ## The text of the pieces -/

theorem flatten_pieceIf (cond : Bool) (piece : List UInt8) :
    (pieceIf cond piece).flatten = textIf cond piece := by
  cases cond with
  | false => rfl
  | true => exact List.append_nil piece

theorem flatten_partPieces (prevPart : Option PartInfo) (more : Bool) (part : PartInfo) :
    (partPieces prevPart more part).flatten = partText prevPart more part := by
  simp only [partPieces, partText, List.flatten_append, List.flatten_singleton, flatten_pieceIf]

theorem flatten_partsPieces (numParts cnt : ℕ) (prevPart : Option PartInfo)
    (parts : List PartInfo) :
    (partsPieces numParts cnt prevPart parts).flatten = partsText numParts cnt prevPart parts := by
  induction parts generalizing cnt prevPart with
  | nil => rfl
  | cons part parts ih =>
    rw [partsPieces, partsText, List.flatten_append, flatten_partPieces, ih]

theorem flatten_devicesPieces (devices : List MtdDevice) :
    (devicesPieces devices).flatten = devicesText devices := by
  induction devices with
  | nil => rfl
  | cons dev devices ih =>
    rw [devicesPieces, devicesText, List.flatten_append, List.flatten_append, List.flatten_append,
      List.flatten_singleton, flatten_partsPieces, flatten_pieceIf, ih]

theorem emitAll_spec (o : Out) (pieces : List (List UInt8)) :
    (pieces.flatten.length ≤ o.maxlen ∧
      emitAll o pieces = .ok ⟨o.buf ++ pieces.flatten, o.maxlen - pieces.flatten.length⟩) ∨
    ∃ before piece behind, pieces = before ++ piece :: behind ∧
      before.flatten.length ≤ o.maxlen ∧ o.maxlen < before.flatten.length + piece.length ∧
      emitAll o pieces = .error ⟨o.buf ++ before.flatten, o.maxlen - before.flatten.length⟩ := by
  induction pieces generalizing o with
  | nil =>
    refine .inl ⟨Nat.zero_le _, ?_⟩
    rw [emitAll, List.flatten_nil, List.append_nil]
    rfl
  | cons piece pieces ih =>
    rw [emitAll, emitOr]
    by_cases hlong : o.maxlen < piece.length
    · refine .inr ⟨[], piece, pieces, rfl, Nat.zero_le _, ?_, ?_⟩
      · rwa [List.flatten_nil, List.length_nil, Nat.zero_add]
      · rw [if_pos hlong, List.flatten_nil, List.append_nil]
        rfl
    · rw [if_neg hlong, Except.bind]
      rcases ih ⟨o.buf ++ piece, o.maxlen - piece.length⟩ with
        ⟨hfits, heq⟩ | ⟨before, next, behind, rfl, hfits, hlong', heq⟩
      · refine .inl ⟨?_, ?_⟩
        · rw [List.flatten_cons, List.length_append]
          dsimp only at hfits
          omega
        · rw [heq, List.flatten_cons, List.length_append, List.append_assoc, Nat.sub_sub]
      · dsimp only at hfits hlong'
        refine .inr ⟨piece :: before, next, behind, rfl, ?_, ?_, ?_⟩
        · rw [List.flatten_cons, List.length_append]
          omega
        · rw [List.flatten_cons, List.length_append]
          omega
        · rw [heq, List.flatten_cons, List.length_append, List.append_assoc, Nat.sub_sub]

theorem generateMtdparts_eq_toOption {devices : List MtdDevice} (hdevices : devices ≠ [])
    (buflen : ℕ) : generateMtdparts devices buflen =
      (formatDevicesOr ⟨mtdpartsPrefix, buflen - 1⟩ devices).toOption.map Out.buf := by
  have hemits := emits_formatDevicesOr devices ⟨mtdpartsPrefix, buflen - 1⟩
  dsimp only at hemits
  rw [generateMtdparts_eq hdevices, hemits, ← flatten_devicesPieces]
  rcases emitAll_spec ⟨mtdpartsPrefix, buflen - 1⟩ (devicesPieces devices) with
    ⟨hfits, heq⟩ | ⟨before, piece, behind, hpieces, hfits, hlong, heq⟩
  · rw [heq, if_neg (Nat.not_lt.mpr hfits)]
    rfl
  · rw [heq, if_pos]
    · rfl
    · rw [hpieces, List.flatten_append, List.flatten_cons, List.length_append, List.length_append]
      dsimp only at hlong
      omega

/-! ## The two buffers -/

theorem length_mtdpartsPrefix : mtdpartsPrefix.length = 9 := rfl

theorem length_flatten_le_of_prefix {pieces pieces' : List (List UInt8)} (h : pieces <+: pieces') :
    pieces.flatten.length ≤ pieces'.flatten.length := by
  obtain ⟨rest, rfl⟩ := h
  rw [List.flatten_append, List.length_append]
  exact Nat.le_add_right _ _

/-- No pieces from the start on leave room for a byte but not for nine, and not all of them leave
room for nine only. -/
def LeavesRoom (devices : List MtdDevice) (buflen : ℕ) : Prop :=
  (∀ before, before <+: devicesPieces devices → before.flatten.length < buflen →
    before.flatten.length + 9 ≤ buflen) ∧ (devicesText devices).length + 9 ≠ buflen

theorem length_flatten_le_of_lt {pieces before behind before' : List (List UInt8)}
    {piece : List UInt8} (hpieces : pieces = before ++ piece :: behind)
    (hbegins : before' <+: pieces)
    (hlt : before'.flatten.length < before.flatten.length + piece.length) :
    before'.flatten.length ≤ before.flatten.length := by
  rcases List.prefix_or_prefix_of_prefix hbegins
    (hpieces ▸ List.prefix_append before (piece :: behind)) with hshort | ⟨l, rfl⟩
  · exact length_flatten_le_of_prefix hshort
  · cases l with
    | nil => rw [List.append_nil]
    | cons piece' l =>
      rw [hpieces, List.prefix_append_right_inj, List.cons_prefix_cons] at hbegins
      rw [hbegins.1, List.flatten_append, List.flatten_cons, List.length_append,
        List.length_append] at hlt
      omega

/-- **`generate_mtdparts` writes in its buffer** if and only if the pieces leave room. -/
theorem inBuf_iff {devices : List MtdDevice} {buflen : ℕ} (hbuf : 10 ≤ buflen) :
    InBuf devices buflen ↔ LeavesRoom devices buflen := by
  rw [InBuf, written, LeavesRoom]
  by_cases hdevices : devices = []
  · subst hdevices
    rw [if_pos rfl]
    refine iff_of_true (by omega) ⟨fun before hbefore _ => ?_, ?_⟩
    · rw [List.prefix_nil.mp hbefore, List.flatten_nil, List.length_nil]
      omega
    · rw [devicesText, List.length_nil]
      omega
  have hemits := emits_formatDevicesOr devices ⟨mtdpartsPrefix, buflen - 1⟩
  dsimp only at hemits
  rw [if_neg hdevices, hemits, ← flatten_devicesPieces]
  rcases emitAll_spec ⟨mtdpartsPrefix, buflen - 1⟩ (devicesPieces devices) with
    ⟨hfits, heq⟩ | ⟨before, piece, behind, hpieces, hfits, hlong, heq⟩
  · rw [heq]
    dsimp only at hfits ⊢
    rw [List.length_append, length_mtdpartsPrefix]
    constructor
    · refine fun hin => ⟨fun before hbefore _ => ?_, by omega⟩
      have hle : before.flatten.length ≤ (devicesPieces devices).flatten.length :=
        length_flatten_le_of_prefix hbefore
      omega
    · rintro ⟨hall, hne⟩
      have := hall _ (List.prefix_refl _) (by omega)
      omega
  · rw [heq]
    dsimp only at hfits hlong ⊢
    rw [List.length_append, length_mtdpartsPrefix]
    have hlonger : before.flatten.length + piece.length ≤
        (devicesPieces devices).flatten.length := by
      rw [hpieces, List.flatten_append, List.flatten_cons, List.length_append, List.length_append]
      omega
    constructor
    · refine fun hin => ⟨fun before' hbefore' hlt => ?_, by omega⟩
      -- pieces that there is room for come before the first that there is none for
      have hle := length_flatten_le_of_lt hpieces hbefore' (by omega)
      omega
    · rintro ⟨hall, -⟩
      have := hall before (hpieces ▸ List.prefix_append before (piece :: behind)) (by omega)
      omega

/-- The length that `mtdparts add` adds up. -/
def addLen (mtdId size name : List UInt8) (ro : Option (List UInt8)) : ℕ :=
  mtdId.length + 1 + size.length + (name.length + 2) +
    if ro.any fun ro => ro.length = 2 then 2 else 0

/-- The description is refused; or its length is below 64, also with what stands behind the name
when that has not two letters. -/
def DescCounted (mtdId size name : List UInt8) (ro : Option (List UInt8)) : Prop :=
  64 ≤ addLen mtdId size name ro % 2 ^ 8 ∨ (addLen mtdId size name ro < 64 ∧
    ∀ extra, ro = some extra → extra.length ≠ 2 →
      addLen mtdId size name ro + extra.length < 64)

/-- **`mtdparts add` writes in its buffer** if and only if the length is counted. -/
theorem inTmpbuf_iff {mtdId size name : List UInt8} {ro : Option (List UInt8)} :
    InTmpbuf mtdId size name ro ↔ DescCounted mtdId size name ro := by
  rw [InTmpbuf, addText, ← addLen, DescCounted]
  by_cases hlong : 64 ≤ addLen mtdId size name ro % 2 ^ 8
  · rw [if_pos hlong]
    exact iff_of_true (fun text htext => by cases htext) (.inl hlong)
  rw [if_neg hlong, or_iff_right hlong]
  simp only [Option.some.injEq, forall_eq', List.length_append, List.length_cons, List.length_nil]
  cases ro with
  | none =>
    simp only [addLen, Option.any_none, Option.getD_none, List.length_nil]
    simp
    omega
  | some extra =>
    simp only [addLen, Option.any_some, Option.getD_some, decide_eq_true_eq, Option.some.injEq,
      forall_eq']
    split_ifs <;> omega

/-- **The strings stay in their buffers** if and only if the pieces leave room and the length of the
description is counted. -/
theorem inBuffers_iff (devices : List MtdDevice) {buflen : ℕ} (hbuf : 10 ≤ buflen)
    (mtdId size name : List UInt8) (ro : Option (List UInt8)) :
    (InBuf devices buflen ↔ LeavesRoom devices buflen) ∧
      (InTmpbuf mtdId size name ro ↔ DescCounted mtdId size name ro) :=
  ⟨inBuf_iff hbuf, inTmpbuf_iff⟩

/-- `nand0`, with the name `a`. -/
def nandA : MtdId := ⟨0, .nand, 0, 2 ^ 20, [97]⟩

/-- A device without partitions in a buffer of the size of `last_parts`, and `1m` with the name
`x`. -/
theorem inBuffers_iff_small :
    InBuf [⟨1, nandA, []⟩] 512 ∧ InTmpbuf [97] [49, 109] [120] none := by
  have hiff := inBuffers_iff [⟨1, nandA, []⟩] (show 10 ≤ 512 by decide) [97] [49, 109] [120] none
  have htext : (devicesText [⟨1, nandA, []⟩]).length = 2 := rfl
  refine ⟨hiff.1.mpr ⟨fun before hbefore _ => ?_, ?_⟩, hiff.2.mpr (.inr ⟨by decide, nofun⟩)⟩
  · have hle := length_flatten_le_of_prefix hbefore
    rw [flatten_devicesPieces, htext] at hle
    omega
  · rw [htext]
    decide

/-- Eight partitions of 4 KiB, with names of 58 letters. -/
def eightParts : List PartInfo :=
  (List.range 8).map fun i => ⟨i, List.replicate 58 120, false, 4096, 4096 * i, false⟩

/-- Their string has 505 bytes, and is written behind `mtdparts=` into 512. -/
theorem not_inBuffers :
    ¬ ∀ devices buflen, 10 ≤ buflen → ∀ mtdId size name ro,
      InBuf devices buflen ∧ InTmpbuf mtdId size name ro := by
  intro h
  have hin := (h [⟨9, nandA, eightParts⟩] 512 (by decide) [] [] [] none).1
  revert hin
  rw [InBuf]
  decide +kernel

end Mtd
end EmevBsp
