import EmevBsp.Flash.Flash
import Mathlib.Data.Nat.Find
import Mathlib.Order.Monotone.Basic

/-!
# `drivers/mtd/cfi_flash.c`: the status of the chips

After a command the driver polls the port until all chips are ready or the time is over.
`flash_full_status_check` then looks at the error bits, but only when the poll has failed: its test
is `(retcode != ERR_OK) && !flash_isequal (DONE)`, where the branches behind it are about a chip
that is done with an error.  A chip that is ready in time with error bits set is reported as fine.
A time-out is always reported.

The model is of the reads: `Answers` holds what the port shows at each read of one check, and what
the timer shows at each poll.  The commands that are written do not change what the code does.
-/

namespace EmevBsp
namespace Flash
namespace Cfi

/-! ## The bank and its answers -/

inductive Vendor where
  | intelExtended
  | amdStandard
  | intelStandard
  | amdExtended
  | intelProgRegions
  | other
  deriving DecidableEq

/-- The Intel command sets. -/
def Vendor.isIntel : Vendor → Bool
  | intelExtended | intelStandard | intelProgRegions => true
  | _ => false

/-- The AMD command sets. -/
def Vendor.isAmd : Vendor → Bool
  | amdStandard | amdExtended => true
  | _ => false

/-- `flash_info_t`, as far as the status is concerned. -/
structure Info where
  flashId : BitVec 32
  vendor : Vendor
  portwidth : ℕ
  chipwidth : ℕ
  eraseBlkTout : ℕ
  writeTout : ℕ
  protect : ℕ → UInt8

def flashManCfi : BitVec 32 := 0x01000000

/-- The bytes that the port shows. -/
abbrev Port := ℕ → UInt8

/-- What is read during one check, and what `get_timer (start)` returns at each poll. -/
structure Answers where
  read : ℕ → Port
  elapsed : ℕ → ℕ
  mono : Monotone elapsed
  unbounded : ∀ tout, ∃ k, tout < elapsed k

def statusDone : UInt32 := 0x80
def statusEclbs : UInt32 := 0x20
def statusPslbs : UInt32 := 0x10
def statusVpens : UInt32 := 0x08
def statusDps : UInt32 := 0x02

def errTimout : ℕ := 1
def errNotErased : ℕ := 2

/-- `flash_make_cmd`: a byte of the command for each chip of the port. -/
def makeCmd (info : Info) (cmd : UInt32) (i : ℕ) : UInt8 :=
  let cwordOffset := i % info.chipwidth
  if 4 ≤ cwordOffset then 0 else (cmd >>> UInt32.ofNat (8 * cwordOffset)).toUInt8

/-- The widths that the switches know. -/
def Info.KnownWidth (info : Info) : Prop := info.portwidth ∈ [1, 2, 4, 8]

instance (info : Info) : Decidable info.KnownWidth := inferInstanceAs (Decidable (_ ∈ _))

/-- `flash_isequal` -/
def isequal (info : Info) (port : Port) (cmd : UInt32) : Bool :=
  info.KnownWidth ∧ ∀ i < info.portwidth, port i = makeCmd info cmd i

/-- `flash_isset` -/
def isset (info : Info) (port : Port) (cmd : UInt32) : Bool :=
  info.KnownWidth ∧ ∀ i < info.portwidth, port i &&& makeCmd info cmd i = makeCmd info cmd i

/-- `flash_toggle`: two reads that differ. -/
def toggle (info : Info) (port port' : Port) : Bool :=
  info.KnownWidth ∧ ∃ i < info.portwidth, port i ≠ port' i

/-! ## The checks -/

/-- `flash_is_busy`, at the read `n`, and the next read. -/
def isBusy (info : Info) (a : Answers) (n : ℕ) : Bool × ℕ :=
  if info.vendor.isIntel then (!isset info (a.read n) statusDone, n + 1)
  else if info.vendor.isAmd then (toggle info (a.read n) (a.read (n + 1)), n + 2)
  else (false, n)

/-- The loop of `flash_status_check`, from the read `n` and the poll `k` on. -/
def flashStatusCheck (info : Info) (a : Answers) (tout n k : ℕ) : ℕ × ℕ :=
  let busy := isBusy info a n
  if busy.1 then
    -- the message reads four bytes
    if tout < a.elapsed k then (errTimout, busy.2 + 4)
    else flashStatusCheck info a tout busy.2 (k + 1)
  else (errOk, busy.2)
termination_by Nat.find (a.unbounded tout) - k
decreasing_by
  next h =>
  have hlt : k < Nat.find (a.unbounded tout) := by
    by_contra hle
    have hmono := a.mono (Nat.le_of_not_lt hle)
    exact h ((Nat.find_spec (a.unbounded tout)).trans_le hmono)
  omega

/-- The error of a chip that is not just done: the reads from `n` on. -/
def errorOf (info : Info) (a : Answers) (n : ℕ) : ℕ :=
  let r :=
    if isset info (a.read n) (statusEclbs ||| statusPslbs) then (errInval, n + 1)
    else if isset info (a.read (n + 1)) statusEclbs then (errNotErased, n + 2)
    else (errInval, n + 3)
  if isset info (a.read r.2) statusDps then errProtected else r.1

def flashFullStatusCheck (info : Info) (a : Answers) (tout : ℕ) : ℕ :=
  let r := flashStatusCheck info a tout 0 0
  if info.vendor.isIntel then
    if r.1 ≠ errOk ∧ ¬isequal info (a.read r.2) statusDone then errorOf info a (r.2 + 1)
    else r.1
  else r.1

/-- "Check if Flash is (sufficiently) erased" -/
def Fits (info : Info) (dest cword : Port) : Prop :=
  info.KnownWidth ∧ ∀ i < info.portwidth, dest i &&& cword i = cword i

instance (info : Info) (dest cword : Port) : Decidable (Fits info dest cword) :=
  inferInstanceAs (Decidable (_ ∧ _))

/-- `flash_write_cfiword`; `dest` is what the flash holds there. -/
def flashWriteCfiword (info : Info) (dest cword : Port) (a : Answers) : ℕ :=
  if ¬Fits info dest cword then errNotErased else flashFullStatusCheck info a info.writeTout

/-- The loop of `flash_erase` over the sectors; each has its own answers. -/
def eraseLoop (info : Info) (answers : ℕ → Answers) (sLast sect rcode : ℕ) : ℕ :=
  if sect ≤ sLast then
    if info.protect sect = 0 ∧
        flashFullStatusCheck info (answers sect) info.eraseBlkTout ≠ 0 then
      eraseLoop info answers sLast (sect + 1) 1
    else eraseLoop info answers sLast (sect + 1) rcode
  else rcode
termination_by sLast + 1 - sect

def flashErase (info : Info) (answers : ℕ → Answers) (sFirst sLast : ℤ) : ℕ :=
  if info.flashId ≠ flashManCfi then 1
  else if sFirst < 0 ∨ sLast < sFirst then 1
  else eraseLoop info answers sLast.toNat sFirst.toNat 0

/-! ## What a check reports -/

variable {info : Info} {a : Answers}

/-- All chips are ready. -/
def Ready (info : Info) (port : Port) : Prop := isset info port statusDone = true

instance (info : Info) (port : Port) : Decidable (Ready info port) :=
  inferInstanceAs (Decidable (_ = _))

/-- The chips are found ready at this poll, and no poll before it was the last. -/
def ReadyAt (info : Info) (a : Answers) (tout m : ℕ) : Prop :=
  Ready info (a.read m) ∧ ∀ j < m, ¬Ready info (a.read j) ∧ a.elapsed j ≤ tout

/-- No chip shows an error bit. -/
def NoError (info : Info) (port : Port) : Prop :=
  ∀ i < info.portwidth, i % info.chipwidth = 0 →
    port i &&& (statusEclbs ||| statusPslbs ||| statusVpens ||| statusDps).toUInt8 = 0

/-- **What success has to mean**: the last status is ready, without an error. -/
def AllWell (info : Info) (a : Answers) (tout : ℕ) : Prop :=
  ∃ m, ReadyAt info a tout m ∧ NoError info (a.read m)

theorem ReadyAt.unique {tout m m' : ℕ} (h : ReadyAt info a tout m) (h' : ReadyAt info a tout m') :
    m = m' := by
  rcases Nat.lt_trichotomy m m' with hlt | heq | hlt
  · exact absurd h.1 (h'.2 m hlt).1
  · exact heq
  · exact absurd h'.1 (h.2 m' hlt).1

theorem flashStatusCheck_iff (hintel : info.vendor.isIntel = true) (tout k : ℕ)
    (hbefore : ∀ j < k, ¬Ready info (a.read j) ∧ a.elapsed j ≤ tout) :
    (flashStatusCheck info a tout k k).1 = errOk ↔ ∃ m, ReadyAt info a tout m := by
  have hbusy : isBusy info a k = (!isset info (a.read k) statusDone, k + 1) := by
    rw [isBusy, if_pos hintel]
  rw [flashStatusCheck, hbusy]
  by_cases hready : Ready info (a.read k)
  · have hnot : ¬(!isset info (a.read k) statusDone) = true := by
      rw [show isset info (a.read k) statusDone = true from hready]
      exact Bool.false_ne_true
    rw [if_neg hnot]
    exact iff_of_true rfl ⟨k, hready, hbefore⟩
  · have hpos : (!isset info (a.read k) statusDone) = true := by
      rw [Bool.eq_false_of_not_eq_true hready]
      rfl
    rw [if_pos hpos]
    by_cases htime : tout < a.elapsed k
    · rw [if_pos htime]
      refine iff_of_false (show errTimout ≠ errOk by decide) ?_
      rintro ⟨m, hm, hlater⟩
      -- a later poll does not come about, and an earlier one found the chips busy
      rcases Nat.lt_trichotomy m k with hlt | rfl | hlt
      · exact (hbefore m hlt).1 hm
      · exact hready hm
      · exact absurd htime (Nat.not_lt.mpr (hlater k hlt).2)
    · rw [if_neg htime]
      refine flashStatusCheck_iff hintel tout (k + 1) fun j hj => ?_
      rcases Nat.lt_succ_iff_lt_or_eq.mp hj with hj | rfl
      · exact hbefore j hj
      · exact ⟨hready, Nat.le_of_not_lt htime⟩
termination_by Nat.find (a.unbounded tout) - k
decreasing_by
  have hlt : k < Nat.find (a.unbounded tout) := by
    by_contra hle
    have hmono := a.mono (Nat.le_of_not_lt hle)
    exact htime ((Nat.find_spec (a.unbounded tout)).trans_le hmono)
  omega

theorem errorOf_ne_zero (info : Info) (a : Answers) (n : ℕ) : errorOf info a n ≠ errOk := by
  have hinval : errInval ≠ errOk := by decide
  have herased : errNotErased ≠ errOk := by decide
  have hprotected : errProtected ≠ errOk := by decide
  rw [errorOf]
  split_ifs <;> assumption

theorem flashFullStatusCheck_iff (hintel : info.vendor.isIntel = true) (tout : ℕ) :
    flashFullStatusCheck info a tout = errOk ↔ ∃ m, ReadyAt info a tout m := by
  rw [← flashStatusCheck_iff hintel tout 0 fun j hj => absurd hj (Nat.not_lt_zero j),
    flashFullStatusCheck, if_pos hintel]
  by_cases hok : (flashStatusCheck info a tout 0 0).1 = errOk
  · exact iff_of_true (by rw [if_neg fun h => h.1 hok, hok]) hok
  · split_ifs with herror
    · exact iff_of_false (errorOf_ne_zero info a _) hok
    · exact Iff.rfl

/-! ## Sectors one after the other -/

/-- A sector that is erased: in the range, and not protected. -/
def Handled (info : Info) (sFirst sLast sect : ℕ) : Prop :=
  sFirst ≤ sect ∧ sect ≤ sLast ∧ info.protect sect = 0

theorem forall_handled_iff {P : ℕ → Prop} {sLast s : ℕ} :
    (∀ i, Handled info s sLast i → P i) ↔
      (Handled info s sLast s → P s) ∧ ∀ i, Handled info (s + 1) sLast i → P i := by
  refine ⟨fun h => ⟨h s, fun i hi => h i ⟨Nat.le_of_succ_le hi.1, hi.2⟩⟩, fun h i hi => ?_⟩
  rcases Nat.lt_or_eq_of_le hi.1 with hlt | rfl
  · exact h.2 i ⟨hlt, hi.2⟩
  · exact h.1 hi

theorem eraseLoop_eq_zero_iff {answers : ℕ → Answers} {sLast sect rcode : ℕ} :
    eraseLoop info answers sLast sect rcode = 0 ↔ rcode = 0 ∧ ∀ i, Handled info sect sLast i →
      flashFullStatusCheck info (answers i) info.eraseBlkTout = errOk := by
  fun_induction eraseLoop info answers sLast sect rcode with
  | case1 sect rcode hle h ih =>
    rw [ih, forall_handled_iff (s := sect)]
    refine iff_of_false (fun h1 => absurd h1.1 Nat.one_ne_zero) ?_
    exact fun hall => h.2 (hall.2.1 ⟨Nat.le_refl _, hle, h.1⟩)
  | case2 sect rcode hle h ih =>
    rw [ih, forall_handled_iff (s := sect)]
    refine and_congr_right fun _ => (and_iff_right ?_).symm
    exact fun hi => not_not.mp fun hne => h ⟨hi.2.2, hne⟩
  | case3 sect rcode hle =>
    refine (and_iff_left ?_).symm
    exact fun i hi => absurd (hi.1.trans hi.2.1) hle

/-! ## Success -/

/-- The arguments that `flash_erase` refuses. -/
def Refused (info : Info) (sFirst sLast : ℤ) : Prop :=
  info.flashId ≠ flashManCfi ∨ sFirst < 0 ∨ sLast < sFirst

theorem flashErase_eq_zero_iff {answers : ℕ → Answers} {sFirst sLast : ℤ} :
    flashErase info answers sFirst sLast = 0 ↔ ¬Refused info sFirst sLast ∧
      ∀ i, Handled info sFirst.toNat sLast.toNat i →
        flashFullStatusCheck info (answers i) info.eraseBlkTout = errOk := by
  rw [flashErase, Refused]
  split_ifs with hid hrange
  · exact iff_of_false not_false fun h => h.1 (Or.inl hid)
  · exact iff_of_false not_false fun h => h.1 (Or.inr hrange)
  · rw [eraseLoop_eq_zero_iff, and_iff_right rfl]
    exact (and_iff_right fun h => h.elim hid hrange).symm

/-- The chips of a sector do not get ready in time. -/
def TimesOut (info : Info) (a : Answers) (tout : ℕ) : Prop := ¬∃ m, ReadyAt info a tout m

/-- The chips that get ready in time show no error. -/
def ReadyWell (info : Info) (a : Answers) (tout : ℕ) : Prop :=
  ∀ m, ReadyAt info a tout m → NoError info (a.read m)

theorem allWell_iff {tout : ℕ} :
    AllWell info a tout ↔ ¬TimesOut info a tout ∧ ReadyWell info a tout := by
  constructor
  · rintro ⟨m, hm, hwell⟩
    exact ⟨fun h => h ⟨m, hm⟩, fun m' hm' => hm.unique hm' ▸ hwell⟩
  · rintro ⟨hready, hwell⟩
    obtain ⟨m, hm⟩ := not_not.mp hready
    exact ⟨m, hm, hwell m hm⟩

theorem flashFullStatusCheck_eq_errOk_iff (hintel : info.vendor.isIntel = true) (tout : ℕ) :
    flashFullStatusCheck info a tout = errOk ↔ ¬TimesOut info a tout := by
  rw [flashFullStatusCheck_iff hintel, TimesOut, not_not]

theorem flashWriteCfiword_success_iff (hintel : info.vendor.isIntel = true) (dest cword : Port)
    (a : Answers) :
    (flashWriteCfiword info dest cword a = errOk → AllWell info a info.writeTout) ↔
      ¬Fits info dest cword ∨ ReadyWell info a info.writeTout := by
  have hne : errNotErased ≠ errOk := by decide
  rw [flashWriteCfiword]
  by_cases hfits : Fits info dest cword
  · rw [if_neg (not_not.mpr hfits), or_iff_right (not_not.mpr hfits), allWell_iff,
      flashFullStatusCheck_eq_errOk_iff hintel]
    constructor
    · exact fun h m hm => (h fun htime => htime ⟨m, hm⟩).2 m hm
    · exact fun h hready => ⟨hready, h⟩
  · rw [if_pos hfits]
    exact iff_of_true (fun h => absurd h hne) (Or.inl hfits)

theorem flashErase_success_iff (hintel : info.vendor.isIntel = true) (answers : ℕ → Answers)
    (sFirst sLast : ℤ) :
    (flashErase info answers sFirst sLast = 0 → ∀ i,
        Handled info sFirst.toNat sLast.toNat i → AllWell info (answers i) info.eraseBlkTout) ↔
      Refused info sFirst sLast ∨
        (∃ i, Handled info sFirst.toNat sLast.toNat i ∧
          TimesOut info (answers i) info.eraseBlkTout) ∨
        ∀ i, Handled info sFirst.toNat sLast.toNat i →
          ReadyWell info (answers i) info.eraseBlkTout := by
  rw [flashErase_eq_zero_iff]
  constructor
  · intro h
    by_contra hnot
    rw [not_or, not_or] at hnot
    obtain ⟨haccepted, htime, hwell⟩ := hnot
    refine hwell fun i hi => (allWell_iff.mp (h ⟨haccepted, fun j hj => ?_⟩ i hi)).2
    rw [flashFullStatusCheck_eq_errOk_iff hintel]
    exact fun hj' => htime ⟨j, hj, hj'⟩
  · rintro (hrefused | ⟨i, hi, htime⟩ | hwell) ⟨haccepted, hok⟩
    · exact absurd hrefused haccepted
    · exact absurd htime ((flashFullStatusCheck_eq_errOk_iff hintel _).mp (hok i hi))
    · exact fun i hi => allWell_iff.mpr
        ⟨(flashFullStatusCheck_eq_errOk_iff hintel _).mp (hok i hi), hwell i hi⟩

/-- **Success means that all is well** exactly when no chip that gets ready shows an error; where
an erase has a sector that times out, or is refused, it is not a success. -/
theorem success_iff (hintel : info.vendor.isIntel = true) :
    (∀ dest cword a,
      (flashWriteCfiword info dest cword a = errOk → AllWell info a info.writeTout) ↔
        ¬Fits info dest cword ∨ ReadyWell info a info.writeTout) ∧
    ∀ answers sFirst sLast,
      (flashErase info answers sFirst sLast = 0 → ∀ i,
          Handled info sFirst.toNat sLast.toNat i → AllWell info (answers i) info.eraseBlkTout) ↔
        Refused info sFirst sLast ∨
          (∃ i, Handled info sFirst.toNat sLast.toNat i ∧
            TimesOut info (answers i) info.eraseBlkTout) ∨
          ∀ i, Handled info sFirst.toNat sLast.toNat i →
            ReadyWell info (answers i) info.eraseBlkTout :=
  ⟨flashWriteCfiword_success_iff hintel, flashErase_success_iff hintel⟩

/-- A port of one chip. -/
def oneChip : Info := ⟨flashManCfi, .intelStandard, 1, 1, 1000, 1000, fun _ => 0⟩

/-- The chip always shows this status; each poll takes a millisecond. -/
def shows (status : UInt8) : Answers where
  read _ _ := status
  elapsed k := k
  mono := monotone_id
  unbounded tout := ⟨tout + 1, Nat.lt_succ_self tout⟩

theorem success_iff_oneChip : AllWell oneChip (shows 0x80) 1000 := by
  have hintel : oneChip.vendor.isIntel = true := rfl
  have hwell : ReadyWell oneChip (shows 0x80) 1000 := by
    intro m hm i _ _
    show (0x80 : UInt8) &&& 0x3a = 0
    decide
  have hok : flashWriteCfiword oneChip (fun _ => 0xff) (fun _ => 0x12) (shows 0x80) = errOk := by
    rw [flashWriteCfiword, if_neg (by decide), flashFullStatusCheck_iff hintel]
    exact ⟨0, by decide, fun j hj => absurd hj (Nat.not_lt_zero j)⟩
  exact ((success_iff hintel).1 _ _ _).mpr (Or.inr hwell) hok

/-- **A chip that is done with an error**: the sector is not erased, the word not written, and both
functions report success. -/
theorem not_success : ¬ ∀ info : Info, info.vendor.isIntel = true →
    (∀ dest cword a,
      flashWriteCfiword info dest cword a = errOk → AllWell info a info.writeTout) ∧
    ∀ answers sFirst sLast, flashErase info answers sFirst sLast = 0 → ∀ i,
      Handled info sFirst.toNat sLast.toNat i → AllWell info (answers i) info.eraseBlkTout := by
  intro h
  have herror : ¬ReadyWell oneChip (shows 0xa0) 1000 := by
    intro hwell
    have hready : ReadyAt oneChip (shows 0xa0) 1000 0 :=
      ⟨by decide, fun j hj => absurd hj (Nat.not_lt_zero j)⟩
    exact absurd (hwell 0 hready 0 (by decide) rfl) (by decide)
  have herase := (h oneChip rfl).2 (fun _ => shows 0xa0) 0 0
  rw [flashErase_success_iff rfl] at herase
  have hhandled : Handled oneChip 0 0 0 := ⟨Nat.le_refl 0, Nat.le_refl 0, rfl⟩
  rcases herase with (hid | hneg) | ⟨i, hi, htime⟩ | hwell
  · exact hid rfl
  · exact absurd hneg (by decide)
  · exact htime ⟨0, by decide, fun j hj => absurd hj (Nat.not_lt_zero j)⟩
  · exact herror (hwell 0 hhandled)

end Cfi
end Flash
end EmevBsp
