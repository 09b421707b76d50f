import EmevBsp.Library.OrderedMap
import EmevBsp.Mtd.Commands
import Mathlib.Data.List.Induction

/-!
# The string of a device list, and what is read from it

`generate_mtdparts` and `parse_mtdparts` agree on the text of a partition.  But `part_sort_add` puts
a partition in front of the ones that begin where it does, so the ones of an offset come back in the
opposite order; and there are partitions whose size the parser does not take.
-/

namespace EmevBsp
namespace Mtd

/-! ## Sizes -/

/-- The bytes that may stand behind a size or an offset: `@`, `(`, `r`, `,` and `;`. -/
def stops : List UInt8 := [64, 40, 114, 44, 59]

theorem stops_spec {c : UInt8} (hc : c ∈ stops) : isxdigit c = false ∧
    ¬ (c = 71 ∨ c = 103) ∧ ¬ (c = 77 ∨ c = 109) ∧ ¬ (c = 75 ∨ c = 107) := by
  simp only [stops, List.mem_cons, List.not_mem_nil, or_false] at hc
  rcases hc with rfl | rfl | rfl | rfl | rfl
  all_goals decide

/-- A text that begins with one of some bytes, if it is not empty. -/
def Begins (allowed : List UInt8) (p : List UInt8) : Prop := ∀ c ∈ p.head?, c ∈ allowed

theorem Begins.mono {allowed allowed' : List UInt8} {p : List UInt8} (h : Begins allowed p)
    (hsub : ∀ c ∈ allowed, c ∈ allowed') : Begins allowed' p := fun c hc => hsub c (h c hc)

theorem begins_append {allowed p p' : List UInt8} (h : Begins allowed p) (h' : Begins allowed p') :
    Begins allowed (p ++ p') := by
  cases p with
  | nil => exact h'
  | cons c p => exact h

theorem begins_textIf {allowed : List UInt8} (cond : Bool) {c : UInt8} (hc : c ∈ allowed)
    (piece : List UInt8) : Begins allowed (textIf cond (c :: piece)) := by
  cases cond with
  | false => exact fun _ h => nomatch h
  | true =>
    intro d hd
    obtain rfl := Option.some.inj hd
    exact hc

theorem simpleStrtoul_decimal_append {n : ℕ} (hpos : 0 < n) (hn : n < 2 ^ 32) {rest : List UInt8}
    (hrest : ∀ c ∈ rest.head?, isxdigit c = false) :
    simpleStrtoul (decimal n ++ rest) 0 = (n, rest) := by
  obtain ⟨c, cp, hdec, hc⟩ := decimal_eq_cons n hpos
  have hprefix : strtoulPrefix 0 (decimal n ++ rest) = (0, decimal n ++ rest) := by
    rw [hdec, List.cons_append, strtoulPrefix_of_ne hc]
  rw [simpleStrtoul, hprefix]
  show strtoulDigits 10 0 (decimal n ++ rest) = (n, rest)
  rw [strtoulDigits_decimal n hn]
  cases rest with
  | nil => rfl
  | cons d rest =>
    rw [strtoulDigits, hrest d rfl, if_neg fun h => Bool.false_ne_true h.1]

theorem memsizeParse_memsizeFormat {size : ℕ} (hpos : 0 < size) (hsize : size < 2 ^ 32)
    {rest : List UInt8} (hrest : Begins stops rest) :
    memsizeParse (memsizeFormat size ++ rest) = (size, rest) := by
  have hunit : ∀ {unit : ℕ} (c : UInt8), 0 < unit → size % unit = 0 → isxdigit c = false →
      simpleStrtoul (decimal (size / unit) ++ [c] ++ rest) 0 = (size / unit, c :: rest) := by
    intro unit c hunit hdvd hc
    have hle : unit ≤ size := Nat.le_of_dvd hpos (Nat.dvd_of_mod_eq_zero hdvd)
    rw [List.append_assoc]
    refine simpleStrtoul_decimal_append (Nat.div_pos hle hunit)
      (Nat.lt_of_le_of_lt (Nat.div_le_self _ _) hsize) fun d hd => ?_
    obtain rfl := Option.some.inj hd
    exact hc
  have hback : ∀ {unit : ℕ}, size % unit = 0 → size / unit * unit % 2 ^ 32 = size := by
    intro unit hdvd
    rw [Nat.div_mul_cancel (Nat.dvd_of_mod_eq_zero hdvd), Nat.mod_eq_of_lt hsize]
  rw [memsizeFormat, memsizeParse]
  split_ifs with hg hm hk
  · rw [hunit 103 (by decide) hg rfl]
    dsimp only
    rw [if_pos (.inr rfl), hback hg]
  · rw [hunit 109 (by decide) hm rfl]
    dsimp only
    rw [if_neg (by decide), if_pos (.inr rfl), hback hm]
  · rw [hunit 107 (by decide) hk rfl]
    dsimp only
    rw [if_neg (by decide), if_neg (by decide), if_pos (.inr rfl), hback hk]
  · rw [simpleStrtoul_decimal_append hpos hsize fun c hc => (stops_spec (hrest c hc)).1]
    cases rest with
    | nil => rfl
    | cons c rest =>
      have hnone := (stops_spec (hrest c rfl)).2
      dsimp only
      rw [if_neg hnone.1, if_neg hnone.2.1, if_neg hnone.2.2]

theorem memsizeFormat_eq_cons {size : ℕ} (hpos : 0 < size) :
    ∃ c cp, memsizeFormat size = c :: cp ∧ isdigit c = true := by
  have hhead : ∀ {n : ℕ} (unit : List UInt8), 0 < n →
      ∃ c cp, decimal n ++ unit = c :: cp ∧ isdigit c = true := by
    intro n unit hn
    obtain ⟨c, cp, hdec, -⟩ := decimal_eq_cons n hn
    refine ⟨c, cp ++ unit, by rw [hdec, List.cons_append], isdigit_of_mem_decimal n ?_⟩
    rw [hdec]
    exact List.mem_cons_self
  have hdiv : ∀ {unit : ℕ}, 0 < unit → size % unit = 0 → 0 < size / unit := fun hunit hdvd =>
    Nat.div_pos (Nat.le_of_dvd hpos (Nat.dvd_of_mod_eq_zero hdvd)) hunit
  rw [memsizeFormat]
  split_ifs with hg hm hk
  · exact hhead _ (hdiv (by decide) hg)
  · exact hhead _ (hdiv (by decide) hm)
  · exact hhead _ (hdiv (by decide) hk)
  · rw [← List.append_nil (decimal size)]
    exact hhead [] hpos

/-! ## One partition -/

/-- What a partition is, but for its address and the name that was made up for it. -/
structure PartDesc where
  offset : ℕ
  size : ℕ
  userName : Option (List UInt8)
  readOnly : Bool
  deriving DecidableEq

def PartInfo.desc (part : PartInfo) : PartDesc where
  offset := part.offset
  size := part.size
  userName := if part.autoName then none else some part.name
  readOnly := part.readOnly

theorem partName_textIf {part : PartInfo}
    (hname : part.autoName = false → part.name ≠ [] ∧ 41 ∉ part.name) {rest : List UInt8}
    (hrest : Begins [114, 44, 59] rest) :
    partName (textIf (!part.autoName) (40 :: part.name ++ [41]) ++ rest) =
      some (part.desc.userName, rest) := by
  rw [PartInfo.desc]
  cases hauto : part.autoName with
  | true =>
    show partName rest = some (none, rest)
    cases rest with
    | nil => rfl
    | cons c rest =>
      have hc : c ≠ 40 := by
        rintro rfl
        exact absurd (hrest 40 rfl) (by decide)
      unfold partName
      split
      · next heq => exact absurd (List.cons.inj heq).1 hc
      · rfl
  | false =>
    obtain ⟨hne, hclose⟩ := hname hauto
    have hall : ∀ c ∈ part.name, decide (c ≠ 41) = true :=
      fun c hc => decide_eq_true fun heq => hclose (heq ▸ hc)
    show partName (40 :: (part.name ++ [41] ++ rest)) = some (some part.name, rest)
    rw [List.append_assoc, List.singleton_append, partName]
    rw [List.dropWhile_append_of_pos hall, List.takeWhile_append_of_pos hall,
      List.dropWhile_cons_of_neg (by decide), List.takeWhile_cons_of_neg (by decide),
      List.append_nil]
    dsimp only
    rw [if_neg hne]

theorem partFlags_textIf (readOnly : Bool) {rest : List UInt8} (hrest : Begins [44, 59] rest) :
    partFlags (textIf readOnly [114, 111] ++ rest) = (readOnly, rest) := by
  cases readOnly with
  | true => rfl
  | false =>
    show partFlags rest = (false, rest)
    unfold partFlags
    split
    · exact absurd (hrest 114 rfl) (by decide)
    · rfl

theorem partOffset_textIf {prevPart : Option PartInfo} {part : PartInfo}
    (hoffset : part.offset < 2 ^ 32) (hpos : gap prevPart part = true → 0 < part.offset)
    {rest : List UInt8} (hrest : Begins [40, 114, 44, 59] rest) :
    partOffset (textIf (gap prevPart part) (64 :: memsizeFormat part.offset) ++ rest) =
      (if gap prevPart part then part.offset else offsetNotSpecified, rest) := by
  cases hgap : gap prevPart part with
  | true =>
    show memsizeParse (memsizeFormat part.offset ++ rest) = (part.offset, rest)
    exact memsizeParse_memsizeFormat (hpos hgap) hoffset
      (hrest.mono fun c hc => List.mem_cons_of_mem 64 hc)
  | false =>
    show partOffset rest = (offsetNotSpecified, rest)
    unfold partOffset
    split
    · exact absurd (hrest 64 rfl) (by decide)
    · rfl

theorem partSize_memsizeFormat {size : ℕ} (hpos : 0 < size) (hsize : size < 2 ^ 32)
    {rest : List UInt8} (hrest : Begins stops rest) :
    partSize (memsizeFormat size ++ rest) =
      if size < minPartSize then none else some (size, rest) := by
  obtain ⟨c, cp, hcons, hdigit⟩ := memsizeFormat_eq_cons hpos
  have hparse := memsizeParse_memsizeFormat hpos hsize hrest
  rw [hcons, List.cons_append] at hparse ⊢
  unfold partSize
  split
  · next heq =>
    rw [(List.cons.inj heq).1] at hdigit
    exact absurd hdigit (by decide)
  · rw [hparse]

theorem partEnd_textIf (size : ℕ) (more : Bool) {rest : List UInt8}
    (hrest : more = false → Begins [59] rest) :
    partEnd size (textIf more [44] ++ rest) =
      if more = true ∧ size = sizeRemaining then none else some rest := by
  cases more with
  | true =>
    show (if size = sizeRemaining then none else some rest) = _
    split_ifs with hlast hboth hboth
    · rfl
    · exact absurd ⟨rfl, hlast⟩ hboth
    · exact absurd hboth.2 hlast
    · rfl
  | false =>
    show partEnd size rest = _
    rw [if_neg fun h => Bool.false_ne_true h.1]
    cases rest with
    | nil => rfl
    | cons c rest =>
      obtain rfl := List.mem_singleton.mp (hrest rfl c rfl)
      rfl

variable {B : Board} {id : MtdId}

theorem partParse_partText {prevPart : Option PartInfo} {part : PartInfo} (hok : PartOk B id part)
    (hpos : gap prevPart part = true → 0 < part.offset) (addr : ℕ) {more : Bool}
    {rest : List UInt8} (hrest : more = false → Begins [59] rest) :
    partParse addr (partText prevPart more part ++ rest) =
      if part.size < minPartSize ∨ (more = true ∧ part.size = sizeRemaining) then none
      else some ({ addr := addr
                   name := part.desc.userName.getD (generatedName part.size
                     (if gap prevPart part then part.offset else offsetNotSpecified))
                   autoName := part.desc.userName.isNone
                   size := part.size
                   offset := if gap prevPart part then part.offset else offsetNotSpecified
                   readOnly := part.readOnly }, rest) := by
  have hwrap := hok.noWrap
  have hend : Begins [44, 59] (textIf more [44] ++ rest) := by
    cases more with
    | true =>
      intro c hc
      obtain rfl := Option.some.inj hc
      exact List.mem_cons_self
    | false => exact (hrest rfl).mono fun c hc => List.mem_cons_of_mem 44 hc
  have hflags : Begins [114, 44, 59]
      (textIf part.readOnly [114, 111] ++ (textIf more [44] ++ rest)) :=
    begins_append (begins_textIf _ List.mem_cons_self _)
      (hend.mono fun c hc => List.mem_cons_of_mem 114 hc)
  have hname : Begins [40, 114, 44, 59] (textIf (!part.autoName) (40 :: part.name ++ [41]) ++
      (textIf part.readOnly [114, 111] ++ (textIf more [44] ++ rest))) :=
    begins_append (begins_textIf _ List.mem_cons_self _)
      (hflags.mono fun c hc => List.mem_cons_of_mem 40 hc)
  have hoffset : Begins stops (textIf (gap prevPart part) (64 :: memsizeFormat part.offset) ++
      (textIf (!part.autoName) (40 :: part.name ++ [41]) ++
        (textIf part.readOnly [114, 111] ++ (textIf more [44] ++ rest)))) :=
    begins_append (begins_textIf _ List.mem_cons_self _)
      (hname.mono fun c hc => List.mem_cons_of_mem 64 hc)
  rw [partText]
  simp only [List.append_assoc]
  rw [partParse, partSize_memsizeFormat hok.size_pos (by omega) hoffset]
  by_cases hrefused : part.size < minPartSize ∨ (more = true ∧ part.size = sizeRemaining)
  · rw [if_pos hrefused]
    rcases hrefused with hsmall | hlast
    · rw [if_pos hsmall]
      rfl
    · have hlarge : ¬ part.size < minPartSize := by
        rw [hlast.2]
        decide
      rw [if_neg hlarge, Option.bind_some, partOffset_textIf (by omega) hpos hname,
        partName_textIf hok.name hflags, Option.bind_some, partFlags_textIf _ hend,
        partEnd_textIf _ _ hrest, if_pos hlast]
      rfl
  · rw [if_neg hrefused, if_neg fun hsmall => hrefused (.inl hsmall), Option.bind_some,
      partOffset_textIf (by omega) hpos hname,
      partName_textIf hok.name hflags, Option.bind_some, partFlags_textIf _ hend,
      partEnd_textIf _ _ hrest, if_neg fun hlast => hrefused (.inr hlast)]
    rfl

/-! ## The partitions of a device -/

/-- The end of the partition before. -/
def endOf : Option PartInfo → ℕ
  | none => 0
  | some prev => (prev.offset + prev.size) % 2 ^ 32

theorem gap_eq_true (prevPart : Option PartInfo) (part : PartInfo) :
    gap prevPart part = true ↔ part.offset ≠ endOf prevPart := by
  cases prevPart with
  | none => exact decide_eq_true_iff
  | some prev => exact decide_eq_true_iff.trans ne_comm

/-- The sizes that `part_parse` takes: they are not too small, and only the last one is
`SIZE_REMAINING`. -/
structure SizesTaken (parts : List PartInfo) : Prop where
  large : ∀ part ∈ parts, minPartSize ≤ part.size
  known : ∀ part ∈ parts.dropLast, part.size ≠ sizeRemaining

theorem sizesTaken_nil : SizesTaken [] :=
  ⟨fun _ h => absurd h List.not_mem_nil, fun _ h => absurd h List.not_mem_nil⟩

theorem sizesTaken_cons {part : PartInfo} {parts : List PartInfo} :
    SizesTaken (part :: parts) ↔
      ¬ (part.size < minPartSize ∨ (decide (parts ≠ []) = true ∧ part.size = sizeRemaining)) ∧
        SizesTaken parts := by
  have hlast : (∀ p ∈ (part :: parts).dropLast, p.size ≠ sizeRemaining) ↔
      (parts ≠ [] → part.size ≠ sizeRemaining) ∧
        ∀ p ∈ parts.dropLast, p.size ≠ sizeRemaining := by
    cases parts with
    | nil => exact ⟨fun h => ⟨fun hne => absurd rfl hne, h⟩, fun h => h.2⟩
    | cons q parts =>
      rw [List.dropLast_cons_cons, List.forall_mem_cons]
      exact and_congr_left fun _ => ⟨fun h _ => h, fun h => h (List.cons_ne_nil q parts)⟩
  constructor
  · rintro ⟨hlarge, hknown⟩
    obtain ⟨hne, hknown⟩ := hlast.mp hknown
    obtain ⟨hsize, hlarge⟩ := List.forall_mem_cons.mp hlarge
    refine ⟨?_, hlarge, hknown⟩
    rintro (hsmall | ⟨hmore, heq⟩)
    · omega
    · exact hne (of_decide_eq_true hmore) heq
  · rintro ⟨htaken, hlarge, hknown⟩
    refine ⟨List.forall_mem_cons.mpr ⟨?_, hlarge⟩, hlast.mpr ⟨fun hne heq => ?_, hknown⟩⟩
    · exact Nat.le_of_not_lt fun hsmall => htaken (.inl hsmall)
    · exact htaken (.inr ⟨decide_eq_true hne, heq⟩)

theorem PartOk.partValidate {part part' : PartInfo} (hok : PartOk B id part)
    (hid : id.size < 2 ^ 32) (hsize : part'.size = part.size) (hoffset : part'.offset = part.offset) :
    partValidate B id part' = some part' := by
  obtain ⟨hfits, hwrap, -, -⟩ := hok
  have hfilled : (if part'.size = sizeRemaining
      then (id.size + 2 ^ 32 - part'.offset) % 2 ^ 32 else part'.size) = part'.size := by
    split_ifs with hremaining
    · have hparts := hfits
      simp only [partFits, Bool.and_eq_true, decide_eq_true_eq] at hparts
      rw [sizeRemaining] at hremaining
      rw [hoffset, hremaining]
      omega
    · rfl
  rw [Mtd.partValidate]
  simp only [hfilled]
  rw [hsize, hoffset, if_pos hfits, ← hsize, ← hoffset]

theorem readBack_fill (prevPart : Option PartInfo) {part : PartInfo} (hok : PartOk B id part)
    (addr : ℕ) (name : List UInt8) (hname : part.desc.userName.getD name = name) :
    ∃ q : PartInfo, (if (if gap prevPart part then part.offset else offsetNotSpecified) =
          offsetNotSpecified
        then (⟨addr, name, part.desc.userName.isNone, part.size, endOf prevPart,
          part.readOnly⟩ : PartInfo)
        else ⟨addr, name, part.desc.userName.isNone, part.size,
          if gap prevPart part then part.offset else offsetNotSpecified, part.readOnly⟩) = q ∧
      q.size = part.size ∧ q.offset = part.offset ∧ q.desc = part.desc := by
  have huser : (if part.desc.userName.isNone then none else some name) = part.desc.userName := by
    cases huser : part.desc.userName with
    | none => rfl
    | some n =>
      rw [huser] at hname
      exact congrArg some hname.symm
  have hspecified : part.offset ≠ offsetNotSpecified := by
    have hwrap := hok.noWrap
    have hpos := hok.size_pos
    rw [offsetNotSpecified]
    omega
  by_cases hgap : gap prevPart part = true
  · rw [if_pos hgap, if_neg hspecified]
    refine ⟨_, rfl, rfl, rfl, ?_⟩
    show PartDesc.mk part.offset part.size _ part.readOnly = _
    rw [huser]
    rfl
  · have hend : endOf prevPart = part.offset :=
      (not_not.mp fun hne => hgap ((gap_eq_true prevPart part).mpr hne)).symm
    rw [if_neg hgap, if_pos rfl, hend]
    refine ⟨_, rfl, rfl, rfl, ?_⟩
    show PartDesc.mk part.offset part.size _ part.readOnly = _
    rw [huser]
    rfl

theorem offset_pos_of_gap {prevPart : Option PartInfo} {part : PartInfo} {parts : List PartInfo}
    (hsorted : Sorted (prevPart.toList ++ part :: parts)) (hgap : gap prevPart part = true) :
    0 < part.offset := by
  rw [gap_eq_true] at hgap
  cases prevPart with
  | none => exact Nat.pos_of_ne_zero hgap
  | some prev =>
    have hprev := (List.pairwise_cons.mp hsorted.ordered).1 part List.mem_cons_self
    have hzero := (List.pairwise_cons.mp hsorted.zero).1 part List.mem_cons_self
    omega

theorem head_partText {part : PartInfo} (hpart : PartOk B id part) (prevPart : Option PartInfo)
    (more : Bool) (rest : List UInt8) :
    ((partText prevPart more part ++ rest).head?.all (· = 59)) = false := by
  obtain ⟨c, cp, hcons, hdigit⟩ := memsizeFormat_eq_cons hpart.size_pos
  rw [partText, hcons]
  refine decide_eq_false fun heq => ?_
  rw [heq] at hdigit
  exact absurd hdigit (by decide)

theorem partsLoop_partsText (hid : id.size < 2 ^ 32) {parts : List PartInfo}
    (hok : ∀ part ∈ parts, PartOk B id part) (prevPart : Option PartInfo)
    (hsorted : Sorted (prevPart.toList ++ parts)) {rest : List UInt8} (hrest : Begins [59] rest)
    {numParts cnt : ℕ} (hnum : numParts = cnt + parts.length) {fuel : ℕ} (addr : ℕ)
    (hfuel : (partsText numParts cnt prevPart parts ++ rest).length < fuel) :
    (SizesTaken parts → ∃ raw, partsLoop B id fuel addr (endOf prevPart)
        (partsText numParts cnt prevPart parts ++ rest) = some (raw, rest, addr + parts.length) ∧
      raw.map PartInfo.desc = parts.map PartInfo.desc) ∧
    (¬ SizesTaken parts → partsLoop B id fuel addr (endOf prevPart)
        (partsText numParts cnt prevPart parts ++ rest) = none) := by
  induction parts generalizing prevPart cnt fuel addr with
  | nil =>
    refine ⟨fun _ => ⟨[], ?_, rfl⟩, fun h => absurd sizesTaken_nil h⟩
    obtain ⟨fuel, rfl⟩ := Nat.exists_eq_succ_of_ne_zero (Nat.ne_zero_of_lt hfuel)
    rw [partsText, List.nil_append, partsLoop, if_pos]
    · rfl
    · cases rest with
      | nil => rfl
      | cons c rest => exact decide_eq_true (List.mem_singleton.mp (hrest c rfl))
  | cons part parts ih =>
    obtain ⟨hpart, hparts⟩ := List.forall_mem_cons.mp hok
    obtain ⟨fuel, rfl⟩ := Nat.exists_eq_succ_of_ne_zero (Nat.ne_zero_of_lt hfuel)
    rw [List.length_cons] at hnum
    have hmore : decide (cnt + 1 < numParts) = decide (parts ≠ []) := by
      rw [decide_eq_decide, ← List.length_pos_iff]
      omega
    have htail : Sorted ((some part).toList ++ parts) := by
      cases prevPart with
      | none => exact hsorted
      | some prev => exact hsorted.tail
    have hend : decide (parts ≠ []) = false →
        Begins [59] (partsText numParts (cnt + 1) (some part) parts ++ rest) := by
      intro hlast
      obtain rfl : parts = [] := not_not.mp (of_decide_eq_false hlast)
      exact hrest
    have hparse := partParse_partText hpart (offset_pos_of_gap hsorted) addr hend
    have hnotEnd := head_partText hpart prevPart (decide (parts ≠ []))
      (partsText numParts (cnt + 1) (some part) parts ++ rest)
    rw [partsText, hmore, List.append_assoc] at hfuel ⊢
    rw [partsLoop, if_neg (by rw [hnotEnd]; exact Bool.false_ne_true), hparse, sizesTaken_cons]
    by_cases hrefused :
        part.size < minPartSize ∨ (decide (parts ≠ []) = true ∧ part.size = sizeRemaining)
    · rw [if_pos hrefused]
      exact ⟨fun h => absurd hrefused h.1, fun _ => rfl⟩
    · rw [if_neg hrefused, Option.bind_some]
      dsimp only
      obtain ⟨q, hq, hsize, hoffset, hdesc⟩ := readBack_fill prevPart hpart addr
        (part.desc.userName.getD (generatedName part.size
          (if gap prevPart part then part.offset else offsetNotSpecified))) (by
            cases part.desc.userName with
            | none => rfl
            | some n => rfl)
      rw [hq, hpart.partValidate hid hsize hoffset, Option.bind_some]
      have hstart : (q.offset + q.size) % 2 ^ 32 = endOf (some part) := by
        rw [hsize, hoffset]
        rfl
      have hless : (partsText numParts (cnt + 1) (some part) parts ++ rest).length < fuel := by
        have hlt := (length_partParse (hparse.trans (if_neg hrefused))).1
        dsimp only at hlt
        omega
      rw [hstart]
      obtain ⟨htaken, hnone⟩ := ih hparts (some part) htail
        (by omega : numParts = cnt + 1 + parts.length) (addr + 1) hless
      refine ⟨fun h => ?_, fun h => ?_⟩
      · obtain ⟨raw, hraw, hdescs⟩ := htaken h.2
        refine ⟨q :: raw, ?_, ?_⟩
        · rw [hraw, List.length_cons, Nat.add_right_comm addr 1]
          rfl
        · rw [List.map_cons, List.map_cons, hdesc, hdescs]
      · rw [hnone fun h' => h ⟨hrefused, h'⟩]
        rfl

/-! ## What `part_sort_add` makes of them -/

open KeyGroups

theorem insertSorted_isSome (new : PartInfo) {parts : List PartInfo}
    (hzero : ∀ p ∈ parts, ¬ (new.offset = p.offset ∧ p.offset = 0)) :
    ∃ r, insertSorted new parts = some r := by
  induction parts with
  | nil => exact ⟨_, rfl⟩
  | cons pi parts ih =>
    obtain ⟨hpi, hparts⟩ := List.forall_mem_cons.mp hzero
    rw [insertSorted, if_neg hpi]
    split_ifs
    · exact ⟨_, rfl⟩
    · obtain ⟨r, hr⟩ := ih hparts
      exact ⟨_, by rw [hr]; rfl⟩

theorem group_insertSorted {new : PartInfo} {parts : List PartInfo}
    {r : List PartInfo × Option PartInfo} (hsorted : Sorted parts)
    (hlast : ∀ p ∈ parts, p.offset ≤ new.offset) (h : insertSorted new parts = some r) (o : ℕ) :
    group PartInfo.offset o r.1 =
      group PartInfo.offset o [new] ++ group PartInfo.offset o parts := by
  obtain ⟨before, after, rfl, rfl, hbefore, hafter, -⟩ := insertSorted_split h
  have hsame : ∀ p ∈ after, p.offset = new.offset := by
    intro p hp
    refine le_antisymm (hlast p (List.mem_append_right before hp)) ?_
    cases after with
    | nil => exact absurd hp List.not_mem_nil
    | cons a after =>
      have hordered := (List.pairwise_append.mp hsorted.ordered).2.1
      exact (hafter a rfl).trans (Ordered.head_le hordered p hp)
  rw [group_append, group_append]
  by_cases ho : new.offset = o
  · have hnone : group PartInfo.offset o before = [] :=
      group_eq_nil fun p hp => ho ▸ (hbefore p hp).ne
    rw [hnone, List.nil_append, List.nil_append, ← List.singleton_append, group_append]
  · rw [group_cons_of_ne ho, group_cons_of_ne ho]
    rfl

theorem sortAll_group {parts : List PartInfo} (hsorted : Sorted parts) :
    ∃ sorted, sortAll parts = some sorted ∧
      ∀ o, group PartInfo.offset o sorted = (group PartInfo.offset o parts).reverse := by
  induction parts using List.reverseRecOn with
  | nil => exact ⟨[], rfl, fun _ => rfl⟩
  | append_singleton parts new ih =>
    obtain ⟨hordered, -, hbehind⟩ := List.pairwise_append.mp hsorted.ordered
    obtain ⟨hzero, -, hzeros⟩ := List.pairwise_append.mp hsorted.zero
    obtain ⟨sorted, hsort, hgroup⟩ := ih ⟨hordered, hzero⟩
    obtain ⟨hperm, hsorted'⟩ := sortAll_spec hsort
    obtain ⟨r, hr⟩ := insertSorted_isSome new fun p hp hboth =>
      hzeros p (hperm.mem_iff.mp hp) new (List.mem_singleton_self new)
        ⟨hboth.2, hboth.1.trans hboth.2⟩
    refine ⟨r.1, ?_, fun o => ?_⟩
    · rw [sortAll] at hsort ⊢
      rw [List.foldlM_append, hsort, Option.bind_eq_bind, Option.bind_some, List.foldlM_cons, hr]
      rfl
    · rw [group_insertSorted hsorted' (fun p hp => hbehind p (hperm.mem_iff.mp hp) new
        (List.mem_singleton_self new)) hr, hgroup, group_append, List.reverse_append]
      congr 1
      by_cases ho : new.offset = o
      · rw [← ho, group_cons_self]
        rfl
      · rw [group_cons_of_ne ho]
        rfl

theorem group_map_desc (o : ℕ) (parts : List PartInfo) :
    group PartDesc.offset o (parts.map PartInfo.desc) =
      (group PartInfo.offset o parts).map PartInfo.desc := by
  rw [group, group, List.filter_map]
  rfl

theorem Sorted.ordered_desc {parts : List PartInfo} (h : Sorted parts) :
    Ordered PartDesc.offset (parts.map PartInfo.desc) :=
  List.pairwise_map.mpr h.ordered

/-- What a list of partitions is turned into. -/
structure Turned (parts parts' : List PartInfo) : Prop where
  sorted : Sorted parts'
  group : ∀ o, group PartDesc.offset o (parts'.map PartInfo.desc) =
    (group PartDesc.offset o (parts.map PartInfo.desc)).reverse

/-- The partitions of each offset read the same backwards. -/
def Palindromic (parts : List PartInfo) : Prop :=
  ∀ o, (group PartDesc.offset o (parts.map PartInfo.desc)).reverse =
    group PartDesc.offset o (parts.map PartInfo.desc)

theorem palindromic_of_nodup {parts : List PartInfo}
    (hnodup : (parts.map PartInfo.offset).Nodup) : Palindromic parts := by
  intro o
  have hpairwise : (group PartDesc.offset o (parts.map PartInfo.desc)).Pairwise
      fun a b => a.offset ≠ b.offset := by
    refine List.Pairwise.filter _ (List.pairwise_map.mpr ?_)
    exact List.pairwise_map.mp hnodup
  have hsame : ∀ d ∈ group PartDesc.offset o (parts.map PartInfo.desc), d.offset = o :=
    fun d hd => (mem_group.mp hd).2
  cases hgroup : group PartDesc.offset o (parts.map PartInfo.desc) with
  | nil => rfl
  | cons a l =>
    cases l with
    | nil => rfl
    | cons b l =>
      -- two of them have the same offset
      rw [hgroup] at hpairwise hsame
      have hne := (List.pairwise_cons.mp hpairwise).1 b List.mem_cons_self
      have ha := hsame a List.mem_cons_self
      have hb := hsame b (List.mem_cons_of_mem a List.mem_cons_self)
      exact absurd (ha.trans hb.symm) hne

theorem Turned.map_desc_eq_iff {parts parts' : List PartInfo} (h : Turned parts parts')
    (hsorted : Sorted parts) :
    parts'.map PartInfo.desc = parts.map PartInfo.desc ↔ Palindromic parts :=
  eq_iff_of_group_reverse hsorted.ordered_desc h.sorted.ordered_desc h.group

theorem sortAll_turned {parts raw : List PartInfo} (hsorted : Sorted parts)
    (hraw : raw.map PartInfo.desc = parts.map PartInfo.desc) :
    ∃ sorted, sortAll raw = some sorted ∧ Turned parts sorted := by
  have hoffsets : raw.map PartInfo.offset = parts.map PartInfo.offset := by
    have hmap := congrArg (List.map PartDesc.offset) hraw
    rwa [List.map_map, List.map_map] at hmap
  have hsorted' : Sorted raw := by
    obtain ⟨hordered, hzero⟩ := hsorted
    refine ⟨?_, ?_⟩
    · have hmap : (parts.map PartInfo.offset).Pairwise (· ≤ ·) := List.pairwise_map.mpr hordered
      rw [← hoffsets] at hmap
      exact List.pairwise_map.mp hmap
    · have hmap : (parts.map PartInfo.offset).Pairwise fun a b => ¬ (a = 0 ∧ b = 0) :=
        List.pairwise_map.mpr hzero
      rw [← hoffsets] at hmap
      exact List.pairwise_map.mp hmap
  obtain ⟨sorted, hsort, hgroup⟩ := sortAll_group hsorted'
  refine ⟨sorted, hsort, (sortAll_spec hsort).2, fun o => ?_⟩
  rw [← hraw, group_map_desc, group_map_desc, hgroup, List.map_reverse]

/-! ## The devices -/

/-- Two entries for one device. -/
def SameDevice (id id' : MtdId) : Prop := id.type = id'.type ∧ id.num = id'.num

variable (B) in
/-- A device whose identifier is found under its name. -/
structure Named (ids : List MtdId) (dev : MtdDevice) : Prop where
  ok : DeviceOk (B := B) dev
  found : idFindByMtdId ids dev.id.mtdId = some dev.id
  colon : 58 ∉ dev.id.mtdId
  size : dev.id.size < 2 ^ 32

theorem deviceFind_eq_none {devices : List MtdDevice} {id : MtdId}
    (hnone : ∀ dev ∈ devices, ¬ SameDevice dev.id id) :
    deviceFind devices id.type id.num = none :=
  List.find?_eq_none.mpr fun dev hdev h =>
    hnone dev hdev (of_decide_eq_true (p := dev.id.type = id.type ∧ dev.id.num = id.num) h)

theorem deviceParse_text {ids : List MtdId} {done : List MtdDevice} {dev : MtdDevice}
    (hdev : Named B ids dev) (hnum : dev.parts.length < 2 ^ 16)
    (hdone : ∀ d ∈ done, ¬ SameDevice d.id dev.id) (addr : ℕ) {rest : List UInt8}
    (hrest : Begins [59] rest) :
    (SizesTaken dev.parts → ∃ parts next, deviceParse B ids done addr
        (dev.id.mtdId ++ [58] ++ (partsText dev.numParts 0 none dev.parts ++ rest)) =
          some (⟨addr, dev.id, parts⟩, behindDevice rest, next) ∧ Turned dev.parts parts) ∧
    (¬ SizesTaken dev.parts → deviceParse B ids done addr
        (dev.id.mtdId ++ [58] ++ (partsText dev.numParts 0 none dev.parts ++ rest)) = none) := by
  have hall : ∀ c ∈ dev.id.mtdId, decide (c ≠ 58) = true :=
    fun c hc => decide_eq_true fun heq => hdev.colon (heq ▸ hc)
  have hnum' : dev.numParts = 0 + dev.parts.length := by
    rw [MtdDevice.numParts, Nat.mod_eq_of_lt hnum, Nat.zero_add]
  have hstart : startOffset done dev.id = endOf none := by
    rw [startOffset, deviceFind_eq_none hdone]
    rfl
  obtain ⟨htaken, hrefused⟩ := partsLoop_partsText hdev.size hdev.ok.parts none
    hdev.ok.sorted hrest hnum' (addr + 1) (Nat.lt_succ_self _)
  generalize partsText dev.numParts 0 none dev.parts ++ rest = text at htaken hrefused
  have hcolon : behindColon (dev.id.mtdId ++ [58] ++ text) = some text := by
    rw [behindColon, List.append_assoc, List.dropWhile_append_of_pos hall, List.singleton_append,
      List.dropWhile_cons_of_neg (by decide)]
  have hname : (dev.id.mtdId ++ [58] ++ text).takeWhile (· ≠ 58) = dev.id.mtdId := by
    rw [List.append_assoc, List.takeWhile_append_of_pos hall, List.singleton_append,
      List.takeWhile_cons_of_neg (by decide), List.append_nil]
  rw [deviceParse, hcolon, Option.bind_some, hname, hdev.found, Option.bind_some, hstart]
  refine ⟨fun h => ?_, fun h => ?_⟩
  · obtain ⟨raw, hraw, hdescs⟩ := htaken h
    obtain ⟨sorted, hsort, hturned⟩ := sortAll_turned hdev.ok.sorted hdescs
    have hne : raw ≠ [] := by
      rintro rfl
      exact hdev.ok.nonempty (List.map_eq_nil_iff.mp hdescs.symm)
    refine ⟨sorted, addr + 1 + dev.parts.length, ?_, hturned⟩
    rw [hraw, Option.bind_some, if_neg hne, hsort]
    rfl
  · rw [hrefused h]
    rfl

theorem devicesText_ne_nil {devices : List MtdDevice} (hne : devices ≠ []) :
    devicesText devices ≠ [] := by
  cases devices with
  | nil => exact absurd rfl hne
  | cons dev devices =>
    rw [devicesText, List.append_assoc]
    exact List.append_ne_nil_of_right_ne_nil _ (List.cons_ne_nil _ _)

/-- What a device is turned into. -/
def TurnedDevice (dev dev' : MtdDevice) : Prop := dev'.id = dev.id ∧ Turned dev.parts dev'.parts

theorem devicesLoop_devicesText {ids : List MtdId} {devices done : List MtdDevice}
    (hne : devices ≠ []) (hnamed : ∀ dev ∈ devices, Named B ids dev)
    (hnum : ∀ dev ∈ devices, dev.parts.length < 2 ^ 16)
    (hdistinct : devices.Pairwise fun dev dev' => ¬ SameDevice dev.id dev'.id)
    (hdone : ∀ d ∈ done, ∀ dev ∈ devices, ¬ SameDevice d.id dev.id) (addr : ℕ) {fuel : ℕ}
    (hfuel : (devicesText devices).length < fuel) :
    ((∀ dev ∈ devices, SizesTaken dev.parts) → ∃ out next,
      devicesLoop B ids fuel addr done (devicesText devices) = some (done ++ out, next) ∧
        List.Forall₂ TurnedDevice devices out) ∧
    ((¬ ∀ dev ∈ devices, SizesTaken dev.parts) →
      devicesLoop B ids fuel addr done (devicesText devices) = none) := by
  induction devices generalizing done addr fuel with
  | nil => exact absurd rfl hne
  | cons dev devices ih =>
    obtain ⟨hdev, hnamed⟩ := List.forall_mem_cons.mp hnamed
    obtain ⟨hdnum, hnum⟩ := List.forall_mem_cons.mp hnum
    obtain ⟨hother, hdistinct⟩ := List.pairwise_cons.mp hdistinct
    obtain ⟨fuel, rfl⟩ := Nat.exists_eq_succ_of_ne_zero (Nat.ne_zero_of_lt hfuel)
    have hrest : Begins [59] (textIf (devices ≠ []) [59] ++ devicesText devices) := by
      cases devices with
      | nil => exact fun c hc => (nomatch hc)
      | cons d devices =>
        intro c hc
        obtain rfl := Option.some.inj hc
        exact List.mem_cons_self
    have hbehind : behindDevice (textIf (devices ≠ []) [59] ++ devicesText devices) =
        devicesText devices := by
      cases devices with
      | nil => rfl
      | cons d devices => rfl
    obtain ⟨htaken, hrefused⟩ := deviceParse_text hdev hdnum
      (fun d hd => hdone d hd dev List.mem_cons_self) addr hrest
    rw [hbehind] at htaken
    rw [devicesText] at hfuel ⊢
    rw [List.forall_mem_cons, devicesLoop]
    by_cases hsizes : SizesTaken dev.parts
    · obtain ⟨parts, next, hparse, hturned⟩ := htaken hsizes
      rw [hparse, Option.bind_some]
      dsimp only
      rw [deviceFind_eq_none fun d hd => hdone d hd dev List.mem_cons_self,
        Option.isSome_none, if_neg Bool.false_ne_true]
      by_cases hlast : devices = []
      · subst hlast
        rw [if_pos (show devicesText [] = [] from rfl)]
        refine ⟨fun _ => ⟨[⟨addr, dev.id, parts⟩], next, rfl, ?_⟩, fun h => absurd ⟨hsizes, ?_⟩ h⟩
        · exact .cons ⟨rfl, hturned⟩ .nil
        · exact fun d hd => absurd hd List.not_mem_nil
      · rw [if_neg (devicesText_ne_nil hlast)]
        have hfuel' : (devicesText devices).length < fuel := by
          simp only [List.length_append, List.length_singleton] at hfuel
          omega
        have hdone' : ∀ d ∈ done ++ [⟨addr, dev.id, parts⟩], ∀ dev ∈ devices,
            ¬ SameDevice d.id dev.id := by
          intro d hd dev' hdev'
          rcases List.mem_append.mp hd with hold | hnew
          · exact hdone d hold dev' (List.mem_cons_of_mem dev hdev')
          · rw [List.mem_singleton.mp hnew]
            exact hother dev' hdev'
        obtain ⟨hall, hnone⟩ := ih hlast hnamed hnum hdistinct hdone' next hfuel'
        refine ⟨fun h => ?_, fun h => hnone fun h' => h ⟨hsizes, h'⟩⟩
        obtain ⟨out, last, hloop, hout⟩ := hall h.2
        refine ⟨⟨addr, dev.id, parts⟩ :: out, last, ?_, .cons ⟨rfl, hturned⟩ hout⟩
        rw [hloop, List.append_assoc, List.singleton_append]
    · rw [hrefused hsizes]
      exact ⟨fun h => absurd h.1 hsizes, fun _ => rfl⟩

theorem parseDevices_devicesText {ids : List MtdId} {devices : List MtdDevice}
    (hne : devices ≠ []) (hnamed : ∀ dev ∈ devices, Named B ids dev)
    (hnum : ∀ dev ∈ devices, dev.parts.length < 2 ^ 16)
    (hdistinct : devices.Pairwise fun dev dev' => ¬ SameDevice dev.id dev'.id) (addr : ℕ) :
    ((∀ dev ∈ devices, SizesTaken dev.parts) → ∃ out next,
      parseDevices B ids addr (mtdpartsPrefix ++ devicesText devices) = some (out, next) ∧
        List.Forall₂ TurnedDevice devices out) ∧
    ((¬ ∀ dev ∈ devices, SizesTaken dev.parts) →
      parseDevices B ids addr (mtdpartsPrefix ++ devicesText devices) = none) := by
  have hdrop : (mtdpartsPrefix ++ devicesText devices).drop 9 = devicesText devices := rfl
  rw [parseDevices, if_pos (List.prefix_append _ _), hdrop]
  refine devicesLoop_devicesText hne hnamed hnum hdistinct
    (fun d hd => absurd hd List.not_mem_nil) addr ?_
  rw [List.length_append]
  omega

end Mtd
end EmevBsp
