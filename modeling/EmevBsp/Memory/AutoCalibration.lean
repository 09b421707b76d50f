import Mathlib.Data.List.Basic
import Mathlib.Data.List.Range
import Mathlib.Data.List.OfFn
import Mathlib.Tactic.SplitIfs

/-!
# `board/emxx/emev/auto_calibration.c`: the window of a delay

A byte lane has a table of 64 taps; an entry is not 0 where the memory test passed.
`memc_softcal_search` takes the first two taps and the last two that pass, skips a lonely one at
either end, and selects the middle.  The loops count with eight bits, tap 0 is left out from above,
and the difference of the ends is unsigned.

* `window`, `passCent`, `memcSoftcalSearch`: the function; `none` is a read outside the table.
* `passes`, `lowEnd`, `highEnd`: the taps that pass, and the ends that follow from them.
* `window_eq`: **the loops find these ends**, if a tap from 1 on passes.
* `softcalSearch_right_iff`: **the selection is right exactly when a lane is too narrow or each
  middle passes.**
-/

namespace EmevBsp
namespace AutoCalibration

/-! ## The function -/

/-- A row of `pass_wd`. -/
abbrev Lane : Type := Fin 64 → BitVec 32

/-- `pass_wd[j][i]`; `none` is outside the row. -/
def entry (lane : Lane) (i : ℕ) : Option (BitVec 32) :=
  if h : i < 64 then some (lane ⟨i, h⟩) else none

/-- The first tap that passes, from `i` on and of `n` taps; 0 if there is none. -/
def upLoop (lane : Lane) : ℕ → ℕ → Option ℕ
  | 0, _ => some 0
  | n + 1, i => (entry lane i).bind fun v => if v ≠ 0 then some i else upLoop lane n (i + 1)

/-- The last tap that passes, from `i` down to 1; 0 if there is none. -/
def downLoop (lane : Lane) : ℕ → Option ℕ
  | 0 => some 0
  | i + 1 => (entry lane (i + 1)).bind fun v => if v ≠ 0 then some (i + 1) else downLoop lane i

/-- `pass_max[j]` and `pass_min[j]` -/
structure Window where
  passMax : BitVec 32
  passMin : BitVec 32
  deriving DecidableEq

/-- The ends of a lane. -/
def window (lane : Lane) : Option Window := do
  let passInc1 ← upLoop lane 0x40 0
  let passInc2 ← upLoop lane (0x40 - (passInc1 + 1)) (passInc1 + 1)
  let passDec1 ← downLoop lane 0x3f
  -- `i` is an `unsigned char`
  let passDec2 ← downLoop lane ((BitVec.ofNat 32 passDec1 - 1).setWidth 8).toNat
  let inc1 := BitVec.ofNat 32 passInc1
  let inc2 := BitVec.ofNat 32 passInc2
  let dec1 := BitVec.ofNat 32 passDec1
  let dec2 := BitVec.ofNat 32 passDec2
  some
    { passMax := if dec1 - dec2 = 1 then dec1 else dec2
      passMin := if inc2 - inc1 = 1 then inc1 else inc2 }

/-- The ends of the lanes. -/
def windows : List Lane → Option (List Window)
  | [] => some []
  | lane :: lanes => (window lane).bind fun w => (windows lanes).map (w :: ·)

/-- `pass_cent`, or `none` for the error code. -/
def passCent (windowRangeSpec : BitVec 8) : List Window → Option (List (BitVec 32))
  | [] => some []
  | w :: ws =>
    if w.passMax - w.passMin < windowRangeSpec.setWidth 32 then none
    else (passCent windowRangeSpec ws).map ((w.passMax + w.passMin) / 2 :: ·)

/-- The taps that are selected: `none` is a read outside the table, `some none` the error. -/
def selection (windowRangeSpec : BitVec 8) (passWd : Fin 4 → Lane) :
    Option (Option (List (BitVec 32))) :=
  (windows (List.ofFn passWd)).map (passCent windowRangeSpec)

/-- The correction and the place of each lane in the register. -/
def corrections : List (BitVec 32 × ℕ) := [(2, 24), (1, 16), (1, 8), (1, 0)]

def dqsDelaySetting (cents : List (BitVec 32)) : BitVec 32 :=
  (List.zipWith (fun cent (k, s) => (cent - k) <<< s) cents corrections).foldl (· ||| ·) 0

def memcSoftcalSearch (windowRangeSpec : BitVec 8) (passWd : Fin 4 → Lane) : Option (BitVec 32) :=
  (selection windowRangeSpec passWd).map fun cents => cents.elim 0x3f3f3f3f dqsDelaySetting

/-! ## What it should be -/

/-- A tap passed. -/
def Passed (lane : Lane) (i : ℕ) : Prop := ∃ h : i < 64, lane ⟨i, h⟩ ≠ 0

instance (lane : Lane) (i : ℕ) : Decidable (Passed lane i) :=
  inferInstanceAs (Decidable (∃ h : i < 64, lane ⟨i, h⟩ ≠ 0))

/-- The middle of a run whose ends pass, with a middle that passes. -/
def IsCentre (spec : ℕ) (lane : Lane) (cent : BitVec 32) : Prop :=
  ∃ lo hi, Passed lane lo ∧ Passed lane hi ∧ lo + spec ≤ hi ∧ cent.toNat = (lo + hi) / 2 ∧
    Passed lane cent.toNat

/-- No read is outside the table, the selection is the error or a centre in each lane, and a lane
without a centre leads to the error code. -/
def Right (windowRangeSpec : BitVec 8) (passWd : Fin 4 → Lane) : Prop :=
  ∃ r, selection windowRangeSpec passWd = some r ∧
    (∀ cents, r = some cents →
      List.Forall₂ (IsCentre windowRangeSpec.toNat) (List.ofFn passWd) cents) ∧
    ∀ j, (¬ ∃ cent, IsCentre windowRangeSpec.toNat (passWd j) cent) →
      memcSoftcalSearch windowRangeSpec passWd = some 0x3f3f3f3f

/-! ## The taps that pass -/

/-- The taps that pass, upwards. -/
def passes (lane : Lane) : List ℕ := (List.range' 0 64).filter (Passed lane ·)

/-- The first tap that passes, or the second one if it is not the next tap; 0 if there is none. -/
def lowEnd : List ℕ → ℕ
  | [] => 0
  | s :: rest => if rest.headD 0 = s + 1 then s else rest.headD 0

/-- The last tap that passes, or the one before it if they are not neighbours, from the taps
downwards. -/
def highEnd : List ℕ → ℕ
  | [] => 0
  | t :: rest => if t = rest.headD 0 + 1 then t else rest.headD 0

/-! ## The loops -/

variable {lane : Lane}

theorem entry_eq {i : ℕ} (h : i < 64) : entry lane i = some (lane ⟨i, h⟩) := dif_pos h

theorem passed_iff {i : ℕ} (h : i < 64) : Passed lane i ↔ lane ⟨i, h⟩ ≠ 0 :=
  ⟨fun hp => hp.2, fun hp => ⟨h, hp⟩⟩

theorem upLoop_eq {n i : ℕ} (h : i + n ≤ 64) :
    upLoop lane n i = some (((List.range' i n).filter (Passed lane ·)).headD 0) := by
  induction n generalizing i with
  | zero => rfl
  | succ n ih =>
    rw [upLoop, entry_eq (by omega), Option.bind_some, List.range'_succ]
    by_cases hpass : Passed lane i
    · rw [if_pos ((passed_iff (by omega)).mp hpass), List.filter_cons_of_pos (by simpa using hpass)]
      rfl
    · rw [if_neg (mt (passed_iff (by omega)).mpr hpass),
        List.filter_cons_of_neg (by simpa using hpass), ih (by omega)]

theorem downLoop_eq {k : ℕ} (h : k < 64) :
    downLoop lane k = some (((List.range' 1 k).filter (Passed lane ·)).reverse.headD 0) := by
  induction k with
  | zero => rfl
  | succ k ih =>
    rw [downLoop, entry_eq h, Option.bind_some, List.range'_1_concat, List.filter_append,
      List.reverse_append, Nat.add_comm 1 k]
    by_cases hpass : Passed lane (k + 1)
    · rw [if_pos ((passed_iff h).mp hpass), List.filter_cons_of_pos (by simpa using hpass)]
      rfl
    · rw [if_neg (mt (passed_iff h).mpr hpass), List.filter_cons_of_neg (by simpa using hpass),
        ih (by omega)]
      rfl

theorem filter_range'_of_cons {n i s : ℕ} {rest : List ℕ}
    (h : (List.range' i n).filter (Passed lane ·) = s :: rest) :
    i ≤ s ∧ s < i + n ∧
      (List.range' (s + 1) (i + n - (s + 1))).filter (Passed lane ·) = rest := by
  induction n generalizing i with
  | zero => exact absurd h (by simp)
  | succ n ih =>
    rw [List.range'_succ] at h
    by_cases hpass : Passed lane i
    · rw [List.filter_cons_of_pos (by simpa using hpass), List.cons.injEq] at h
      obtain ⟨rfl, hrest⟩ := h
      refine ⟨le_rfl, by omega, ?_⟩
      rwa [show i + (n + 1) - (i + 1) = n by omega]
    · rw [List.filter_cons_of_neg (by simpa using hpass)] at h
      obtain ⟨hge, hlt, hrest⟩ := ih h
      refine ⟨by omega, by omega, ?_⟩
      rwa [show i + (n + 1) = i + 1 + n by omega]

theorem filter_range'_of_concat {k t : ℕ} {rest : List ℕ}
    (h : ((List.range' 1 k).filter (Passed lane ·)).reverse = t :: rest) :
    1 ≤ t ∧ t ≤ k ∧ ((List.range' 1 (t - 1)).filter (Passed lane ·)).reverse = rest := by
  induction k with
  | zero => exact absurd h (by simp)
  | succ k ih =>
    rw [List.range'_1_concat, List.filter_append, List.reverse_append, Nat.add_comm 1 k] at h
    by_cases hpass : Passed lane (k + 1)
    · rw [List.filter_cons_of_pos (by simpa using hpass)] at h
      obtain ⟨rfl, hrest⟩ := List.cons.inj h
      exact ⟨by omega, le_rfl, hrest⟩
    · rw [List.filter_cons_of_neg (by simpa using hpass)] at h
      obtain ⟨hge, hle, hrest⟩ := ih h
      exact ⟨hge, by omega, hrest⟩

theorem sub_eq_one_iff {a b : ℕ} (ha : a < 64) (hb : b < 64) :
    BitVec.ofNat 32 a - BitVec.ofNat 32 b = 1 ↔ a = b + 1 := by
  rw [← BitVec.toNat_inj, BitVec.toNat_sub, BitVec.toNat_ofNat, BitVec.toNat_ofNat]
  change _ = 1 ↔ _
  omega

theorem toNat_pred {t : ℕ} (hpos : 1 ≤ t) (hlt : t < 64) :
    ((BitVec.ofNat 32 t - 1).setWidth 8).toNat = t - 1 := by
  rw [BitVec.toNat_setWidth, BitVec.toNat_sub, BitVec.toNat_ofNat]
  change (2 ^ 32 - 1 + _) % _ % _ = _
  omega

theorem mem_passes {i : ℕ} : i ∈ passes lane ↔ Passed lane i := by
  rw [passes, List.mem_filter, List.mem_range'_1, decide_eq_true_iff, and_iff_right_iff_imp]
  exact fun h => ⟨Nat.zero_le i, h.1⟩

theorem headD_lt {l : List ℕ} (h : ∀ i ∈ l, i < 64) : l.headD 0 < 64 := by
  cases l with
  | nil => decide
  | cons a l => exact h a List.mem_cons_self

theorem reverse_passes :
    (passes lane).reverse = ((List.range' 1 63).filter (Passed lane ·)).reverse ++
      if Passed lane 0 then [0] else [] := by
  rw [passes, List.range'_succ]
  by_cases hpass : Passed lane 0
  · rw [List.filter_cons_of_pos (by simpa using hpass), List.reverse_cons, if_pos hpass]
  · rw [List.filter_cons_of_neg (by simpa using hpass), if_neg hpass, List.append_nil]

theorem window_eq (h : ∃ i, 1 ≤ i ∧ Passed lane i) :
    window lane = some ⟨BitVec.ofNat 32 (highEnd (passes lane).reverse),
      BitVec.ofNat 32 (lowEnd (passes lane))⟩ := by
  obtain ⟨i, hpos, hi⟩ := h
  have hlt : ∀ i ∈ passes lane, i < 64 := fun i hmem => (mem_passes.mp hmem).1
  obtain ⟨s, rest, hup⟩ := List.exists_cons_of_ne_nil (List.ne_nil_of_mem (mem_passes.mpr hi))
  have hlater : i ∈ ((List.range' 1 63).filter (Passed lane ·)).reverse := by
    rw [List.mem_reverse, List.mem_filter, List.mem_range'_1]
    exact ⟨⟨hpos, hi.1⟩, by simpa using hi⟩
  obtain ⟨t, before, hdown⟩ := List.exists_cons_of_ne_nil (List.ne_nil_of_mem hlater)
  obtain ⟨-, hs, hrest⟩ := filter_range'_of_cons hup
  obtain ⟨ht1, ht, hbefore⟩ := filter_range'_of_concat hdown
  have hrev : (passes lane).reverse = t :: (before ++ if Passed lane 0 then [0] else []) := by
    rw [reverse_passes, hdown, List.cons_append]
  have hhead : (before ++ if Passed lane 0 then [0] else []).headD 0 = before.headD 0 := by
    cases before with
    | nil => split <;> rfl
    | cons a l => rfl
  have hinc1 : upLoop lane 0x40 0 = some s := by
    rw [upLoop_eq (by omega), ← passes, hup]
    rfl
  have hinc2 : upLoop lane (0x40 - (s + 1)) (s + 1) = some (rest.headD 0) := by
    rw [upLoop_eq (by omega)]
    exact congrArg (fun l => some (List.headD l 0)) hrest
  have hdec1 : downLoop lane 0x3f = some t := by
    rw [downLoop_eq (by omega), hdown]
    rfl
  have hdec2 : downLoop lane ((BitVec.ofNat 32 t - 1).setWidth 8).toNat =
      some (before.headD 0) := by
    rw [toNat_pred ht1 (by omega), downLoop_eq (by omega), hbefore]
  have hrestLt : rest.headD 0 < 64 := headD_lt fun i hmem =>
    hlt i (hup ▸ List.mem_cons_of_mem s hmem)
  have hbeforeLt : before.headD 0 < 64 := headD_lt fun i hmem =>
    hlt i (List.mem_reverse.mp (hrev ▸ List.mem_cons_of_mem t (List.mem_append_left _ hmem)))
  rw [window, hinc1, Option.bind_eq_bind, Option.bind_some, hinc2, Option.bind_some, hdec1,
    Option.bind_some, hdec2, Option.bind_some]
  dsimp only
  rw [hrev, hup, highEnd, lowEnd, hhead]
  simp only [sub_eq_one_iff (a := t) (by omega) hbeforeLt,
    sub_eq_one_iff hrestLt (b := s) (by omega), apply_ite (BitVec.ofNat 32)]

theorem window_eq_none (h : ¬ ∃ i, 1 ≤ i ∧ Passed lane i) : window lane = none := by
  have hlater : (List.range' 1 63).filter (Passed lane ·) = [] := by
    rw [List.filter_eq_nil_iff]
    exact fun i hi => by simpa using fun hpass => h ⟨i, (List.mem_range'_1.mp hi).1, hpass⟩
  have hinc1 : upLoop lane 0x40 0 = some 0 := by
    rw [upLoop_eq (by omega), List.range'_succ]
    by_cases hpass : Passed lane 0
    · rw [List.filter_cons_of_pos (by simpa using hpass)]
      rfl
    · rw [List.filter_cons_of_neg (by simpa using hpass), hlater]
      rfl
  have hinc2 : upLoop lane (0x40 - (0 + 1)) (0 + 1) = some 0 := by
    rw [upLoop_eq (by omega)]
    exact congrArg (fun l => some (List.headD l 0)) hlater
  have hdec1 : downLoop lane 0x3f = some 0 := by
    rw [downLoop_eq (by omega), hlater]
    rfl
  rw [window, hinc1, Option.bind_eq_bind, Option.bind_some, hinc2, Option.bind_some, hdec1]
  rfl

/-! ## The ends -/

theorem ends_of_middle {l : List ℕ} (hsorted : l.Pairwise (· < ·)) (hpos : ∃ i ∈ l, 1 ≤ i)
    (hmiddle : (lowEnd l + highEnd l.reverse) / 2 ∈ l) :
    lowEnd l ∈ l ∧ highEnd l.reverse ∈ l ∧ lowEnd l ≤ highEnd l.reverse := by
  match l with
  | [] => exact absurd hmiddle List.not_mem_nil
  | [p] =>
    obtain ⟨i, hi, hge⟩ := hpos
    rw [List.mem_singleton] at hi hmiddle
    have hlow : lowEnd [p] = 0 := by
      change (if 0 = p + 1 then p else 0) = 0
      exact if_neg (Nat.succ_ne_zero p).symm
    have hhigh : highEnd [p].reverse ≤ 1 := by
      change (if p = 0 + 1 then p else 0) ≤ 1
      split <;> omega
    omega
  | [s, t] =>
    have hlt : s < t := by simpa using hsorted
    simp [lowEnd, highEnd] at hmiddle ⊢
    split_ifs at hmiddle ⊢ <;> omega
  | s :: s' :: m :: rest =>
    obtain ⟨hs, hs'⟩ := List.pairwise_cons.mp hsorted
    have hafter : ∀ i ∈ s' :: m :: rest, s' ≤ i := fun i hi => by
      obtain rfl | hi := List.mem_cons.mp hi
      · exact le_rfl
      · exact ((List.pairwise_cons.mp hs').1 i hi).le
    have hlow : lowEnd (s :: s' :: m :: rest) = s ∨ lowEnd (s :: s' :: m :: rest) = s' := by
      change (if s' = s + 1 then s else s') = s ∨ (if s' = s + 1 then s else s') = s'
      split
      · exact .inl rfl
      · exact .inr rfl
    have hhigh : highEnd (s :: s' :: m :: rest).reverse ∈ s' :: m :: rest := by
      obtain ⟨t, more, hmore⟩ := List.exists_cons_of_ne_nil
        (List.reverse_ne_nil_iff.mpr (List.cons_ne_nil m rest))
      have hmem : ∀ i ∈ t :: more, i ∈ m :: rest := fun i hi =>
        List.mem_reverse.mp (hmore ▸ hi)
      rw [show (s :: s' :: m :: rest).reverse = t :: (more ++ [s', s]) by
        rw [List.reverse_cons, List.reverse_cons, hmore]
        simp]
      rw [highEnd]
      split
      · exact List.mem_cons_of_mem s' (hmem t List.mem_cons_self)
      · cases more with
        | nil => exact List.mem_cons_self
        | cons a more =>
          exact List.mem_cons_of_mem s' (hmem a (List.mem_cons_of_mem t List.mem_cons_self))
    have hss' := hs s' List.mem_cons_self
    have hle := hafter _ hhigh
    refine ⟨?_, List.mem_cons_of_mem s hhigh, ?_⟩
    · obtain h | h := hlow
      · rw [h]
        exact List.mem_cons_self
      · rw [h]
        exact List.mem_cons_of_mem s List.mem_cons_self
    · omega

/-! ## The selection -/

/-- The ends of a lane. -/
def low (lane : Lane) : ℕ := lowEnd (passes lane)

def high (lane : Lane) : ℕ := highEnd (passes lane).reverse

/-- The ends are in order, and nearer than wanted. -/
def TooNarrow (spec : ℕ) (lane : Lane) : Prop := low lane ≤ high lane ∧ high lane - low lane < spec

theorem ends_lt {l : List ℕ} (h : ∀ i ∈ l, i < 64) : lowEnd l < 64 ∧ highEnd l < 64 := by
  cases l with
  | nil => decide
  | cons a l =>
    have ha := h a List.mem_cons_self
    have hl := headD_lt fun i hi => h i (List.mem_cons_of_mem a hi)
    rw [lowEnd, highEnd]
    constructor <;> split <;> assumption

theorem low_lt (lane : Lane) : low lane < 64 :=
  (ends_lt fun _ hi => (mem_passes.mp hi).1).1

theorem high_lt (lane : Lane) : high lane < 64 :=
  (ends_lt fun _ hi => (mem_passes.mp (List.mem_reverse.mp hi)).1).2

theorem sub_lt_iff {a b : ℕ} (ha : a < 64) (hb : b < 64) (spec : BitVec 8) :
    BitVec.ofNat 32 a - BitVec.ofNat 32 b < spec.setWidth 32 ↔ b ≤ a ∧ a - b < spec.toNat := by
  have hspec := spec.isLt
  rw [BitVec.lt_def, BitVec.toNat_sub, BitVec.toNat_ofNat, BitVec.toNat_ofNat,
    BitVec.toNat_setWidth]
  omega

theorem toNat_middle {a b : ℕ} (ha : a < 64) (hb : b < 64) :
    ((BitVec.ofNat 32 a + BitVec.ofNat 32 b) / 2).toNat = (a + b) / 2 := by
  rw [BitVec.toNat_udiv, BitVec.toNat_add, BitVec.toNat_ofNat, BitVec.toNat_ofNat]
  change _ / 2 = _
  omega

/-- What `passCent` makes of a lane. -/
def cent (lane : Lane) : BitVec 32 :=
  (BitVec.ofNat 32 (high lane) + BitVec.ofNat 32 (low lane)) / 2

/-- The ends that the loops find. -/
def endsOf (lane : Lane) : Window := ⟨BitVec.ofNat 32 (high lane), BitVec.ofNat 32 (low lane)⟩

theorem windows_eq {lanes : List Lane} (h : ∀ lane ∈ lanes, ∃ i, 1 ≤ i ∧ Passed lane i) :
    windows lanes = some (lanes.map endsOf) := by
  induction lanes with
  | nil => rfl
  | cons lane lanes ih =>
    rw [List.forall_mem_cons] at h
    rw [windows, window_eq h.1, ih h.2]
    rfl

theorem windows_eq_none {lanes : List Lane}
    (h : ¬ ∀ lane ∈ lanes, ∃ i, 1 ≤ i ∧ Passed lane i) : windows lanes = none := by
  induction lanes with
  | nil => exact absurd (fun _ hmem => absurd hmem List.not_mem_nil) h
  | cons lane lanes ih =>
    rw [List.forall_mem_cons, not_and_or] at h
    rw [windows]
    obtain h | h := h
    · rw [window_eq_none h, Option.bind_none]
    · rw [ih h]
      cases window lane <;> rfl

theorem passCent_eq_none {spec : BitVec 8} {lanes : List Lane}
    (h : ∃ lane ∈ lanes, TooNarrow spec.toNat lane) :
    passCent spec (lanes.map endsOf) = none := by
  induction lanes with
  | nil => exact absurd h (by simp)
  | cons lane lanes ih =>
    rw [List.map_cons, passCent, endsOf]
    by_cases hnarrow : TooNarrow spec.toNat lane
    · exact if_pos ((sub_lt_iff (high_lt lane) (low_lt lane) spec).mpr hnarrow)
    · rw [List.exists_mem_cons_iff, or_iff_right hnarrow] at h
      rw [if_neg (mt (sub_lt_iff (high_lt lane) (low_lt lane) spec).mp hnarrow), ih h]
      rfl

theorem passCent_eq {spec : BitVec 8} {lanes : List Lane}
    (h : ∀ lane ∈ lanes, ¬ TooNarrow spec.toNat lane) :
    passCent spec (lanes.map endsOf) = some (lanes.map cent) := by
  induction lanes with
  | nil => rfl
  | cons lane lanes ih =>
    rw [List.forall_mem_cons] at h
    rw [List.map_cons, passCent, endsOf, if_neg
      (mt (sub_lt_iff (high_lt lane) (low_lt lane) spec).mp h.1), ih h.2]
    rfl

theorem isCentre_cent_iff {spec : ℕ} {lane : Lane} (hpass : ∃ i, 1 ≤ i ∧ Passed lane i)
    (hwide : ¬ TooNarrow spec lane) :
    IsCentre spec lane (cent lane) ↔ Passed lane ((low lane + high lane) / 2) := by
  have hcent : (cent lane).toNat = (low lane + high lane) / 2 := by
    rw [cent, toNat_middle (high_lt lane) (low_lt lane), Nat.add_comm]
  constructor
  · rintro ⟨lo, hi, -, -, -, -, hmiddle⟩
    rwa [hcent] at hmiddle
  · intro hmiddle
    obtain ⟨i, hpos, hi⟩ := hpass
    have hsorted : (passes lane).Pairwise (· < ·) := 
      List.Pairwise.filter _ (List.pairwise_lt_range' 1)
    obtain ⟨hlow, hhigh, hle⟩ := ends_of_middle hsorted ⟨i, mem_passes.mpr hi, hpos⟩
      (mem_passes.mpr hmiddle)
    refine ⟨low lane, high lane, mem_passes.mp hlow, mem_passes.mp hhigh, ?_, hcent, ?_⟩
    · unfold TooNarrow at hwide
      change low lane ≤ high lane at hle
      omega
    · rwa [hcent]

/-- **The selection is right exactly when a lane is too narrow or each middle passes**, and each
lane has a tap from 1 on that passes. -/
theorem softcalSearch_right_iff (windowRangeSpec : BitVec 8) (passWd : Fin 4 → Lane) :
    Right windowRangeSpec passWd ↔
      (∀ j, ∃ i, 1 ≤ i ∧ Passed (passWd j) i) ∧
        ((∃ j, TooNarrow windowRangeSpec.toNat (passWd j)) ∨
          ∀ j, Passed (passWd j) ((low (passWd j) + high (passWd j)) / 2)) := by
  have hexists : (∃ lane ∈ List.ofFn passWd, TooNarrow windowRangeSpec.toNat lane) ↔
      ∃ j, TooNarrow windowRangeSpec.toNat (passWd j) := by
    constructor
    · rintro ⟨lane, hmem, h⟩
      obtain ⟨j, rfl⟩ := List.mem_ofFn.mp hmem
      exact ⟨j, h⟩
    · rintro ⟨j, h⟩
      exact ⟨_, List.mem_ofFn.mpr ⟨j, rfl⟩, h⟩
  by_cases hpass : ∀ lane ∈ List.ofFn passWd, ∃ i, 1 ≤ i ∧ Passed lane i
  swap
  · have hnone : selection windowRangeSpec passWd = none := by
      rw [selection, windows_eq_none hpass, Option.map_none]
    rw [List.forall_mem_ofFn_iff] at hpass
    refine iff_of_false ?_ fun h => hpass h.1
    rintro ⟨r, hr, -⟩
    rw [hnone] at hr
    exact nomatch hr
  have hsel : selection windowRangeSpec passWd =
      some (passCent windowRangeSpec ((List.ofFn passWd).map endsOf)) := by
    rw [selection, windows_eq hpass, Option.map_some]
  have hsearch := congrArg (Option.map fun cents => cents.elim 0x3f3f3f3f dqsDelaySetting) hsel
  have hpass' := List.forall_mem_ofFn_iff.mp hpass
  rw [and_iff_right hpass']
  by_cases hnarrow : ∃ lane ∈ List.ofFn passWd, TooNarrow windowRangeSpec.toNat lane
  · rw [passCent_eq_none hnarrow] at hsel hsearch
    refine iff_of_true ⟨none, hsel, (fun cents h => nomatch h), fun _ _ => hsearch⟩
      (.inl (hexists.mp hnarrow))
  · have hwide : ∀ lane ∈ List.ofFn passWd, ¬ TooNarrow windowRangeSpec.toNat lane :=
      fun lane hmem h => hnarrow ⟨lane, hmem, h⟩
    have hcentre := fun j => isCentre_cent_iff (hpass' j)
      (List.forall_mem_ofFn_iff.mp hwide j)
    rw [passCent_eq hwide] at hsel
    rw [or_iff_right (mt hexists.mpr hnarrow)]
    constructor
    · rintro ⟨r, hr, hcents, -⟩ j
      rw [hsel, Option.some.injEq] at hr
      have hall := hcents _ hr.symm
      rw [List.forall₂_map_right_iff, List.forall₂_same] at hall
      exact (hcentre j).mp (List.forall_mem_ofFn_iff.mp hall j)
    · intro hmiddles
      refine ⟨_, hsel, fun cents h => ?_, fun j hnone => ?_⟩
      · rw [← Option.some.inj h, List.forall₂_map_right_iff, List.forall₂_same]
        exact List.forall_mem_ofFn_iff.mpr fun j => (hcentre j).mpr (hmiddles j)
      · exact absurd ⟨_, (hcentre j).mpr (hmiddles j)⟩ hnone

/-- Two lonely taps: the difference of the ends is below 0, and the middle, which did not pass, is
selected. -/
theorem not_right_lonelyTaps :
    ¬ ∀ (windowRangeSpec : BitVec 8) (passWd : Fin 4 → Lane), 1 ≤ windowRangeSpec →
      Right windowRangeSpec passWd := by
  intro h
  obtain ⟨r, hr, hcents, -⟩ :=
    h 6 (fun _ i => if i = 5 ∨ i = 40 then .ofNat 32 (i + 1) else 0) (by decide)
  have hsel : selection 6 (fun _ i => if i = 5 ∨ i = 40 then .ofNat 32 (i + 1) else 0) =
      some (some [22, 22, 22, 22]) := by
    decide +kernel
  rw [hsel, Option.some.injEq] at hr
  obtain ⟨-, -, -, -, -, -, hmiddle⟩ := (List.forall₂_cons.mp (hcents _ hr.symm)).1
  exact absurd hmiddle (by decide)

end AutoCalibration
end EmevBsp
