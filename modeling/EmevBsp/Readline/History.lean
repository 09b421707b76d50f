import EmevBsp.Library.CString
import Mathlib.Data.Int.Notation

/-!
# `common/main.c`: the command history

The history is a ring of `HIST_MAX` rows of `HIST_SIZE` bytes.  `hist_add_idx` is the row that is
written next, `hist_max` the highest row in use, and `hist_cur` the row that was shown last.  The
rows are one array, and a string in it is read to its terminator, wherever that is.

A function that would write or read outside the array has no result.
-/

namespace EmevBsp
namespace Readline

/-! ## The functions of the source -/

def histMax : ℕ := 20

/-- `HIST_SIZE`, which is `MAX_CMDBUF_SIZE`. -/
def histSize : ℕ := 256

/-- The globals `hist_max`, `hist_add_idx`, `hist_cur`, `hist_num` and `hist_lines`. -/
structure Hist where
  max : ℕ
  addIdx : ℕ
  cur : ℤ
  num : BitVec 32
  lines : List UInt8

/-- What `hist_prev` and `hist_next` point to: a row, or the literal `""`. -/
inductive HistLine where
  | row (i : ℕ)
  | empty
  deriving DecidableEq

/-- `hist_init`, on what stands in the array. -/
def histInit (lines : List UInt8) : Hist where
  max := 0
  addIdx := 0
  cur := -1
  num := 0
  lines := (List.range histMax).foldl (fun lines i => lines.set (i * histSize) 0) lines

def creadAddToHist (h : Hist) (line : List UInt8) : Option Hist :=
  match strcpy h.lines (h.addIdx * histSize) line with
  | none => none
  | some lines =>
    let addIdx := if h.addIdx + 1 ≥ histMax then 0 else h.addIdx + 1
    some ⟨if addIdx > h.max then addIdx else h.max, addIdx, h.cur, h.num + 1, lines⟩

def histPrev (h : Hist) : Option HistLine × Hist :=
  if h.cur < 0 then (none, h)
  else
    let cur := if h.cur - 1 < 0 then (h.max : ℤ) else h.cur - 1
    if cur = h.addIdx then (none, h)
    else (some (.row cur.toNat), { h with cur := cur })

def histNext (h : Hist) : Option HistLine × Hist :=
  if h.cur < 0 then (none, h)
  else if h.cur = h.addIdx then (none, h)
  else
    let cur := if h.cur + 1 > h.max then 0 else h.cur + 1
    (some (if cur = h.addIdx then .empty else .row cur.toNat), { h with cur := cur })

/-- The string at what they point to. -/
def Hist.string (h : Hist) : HistLine → Option (List UInt8)
  | .row i => takeString (h.lines.drop (i * histSize))
  | .empty => some []

/-! ## The rows -/

/-- A row holds a string that ends in it. -/
structure LineAt (lines : List UInt8) (i : ℕ) (line : List UInt8) : Prop where
  noNul : (0 : UInt8) ∉ line
  fits : line.length < histSize
  bytes : ∀ k ≤ line.length, lines[i * histSize + k]? = (line ++ [0])[k]?

theorem LineAt.takeString {lines line : List UInt8} {i : ℕ} (h : LineAt lines i line) :
    takeString (lines.drop (i * histSize)) = some line := by
  have hprefix : line ++ [0] <+: lines.drop (i * histSize) := by
    rw [List.prefix_iff_getElem?]
    intro k hk
    have hle : k ≤ line.length := by
      rw [List.length_append, List.length_singleton] at hk
      omega
    rw [List.getElem?_drop, h.bytes k hle, List.getElem?_eq_getElem hk]
  obtain ⟨rest, hrest⟩ := hprefix
  rw [← hrest, List.append_assoc]
  exact takeString_append h.noNul rest

theorem LineAt.of_strcpy {lines lines' line : List UInt8} {i : ℕ} (hnul : (0 : UInt8) ∉ line)
    (hfits : line.length < histSize) (h : strcpy lines (i * histSize) line = some lines') :
    LineAt lines' i line := by
  refine ⟨hnul, hfits, fun k hk => ?_⟩
  rw [getElem?_strcpy h, if_pos ⟨Nat.le_add_right _ _, Nat.add_le_add_left hk _⟩,
    Nat.add_sub_cancel_left]

theorem LineAt.strcpy {lines lines' line other : List UInt8} {i j : ℕ} (hat : LineAt lines j other)
    (hne : j ≠ i) (hfits : line.length < histSize)
    (h : strcpy lines (i * histSize) line = some lines') : LineAt lines' j other := by
  refine ⟨hat.noNul, hat.fits, fun k hk => ?_⟩
  have hother := hat.fits
  have hout : ¬(i * histSize ≤ j * histSize + k ∧
      j * histSize + k ≤ i * histSize + line.length) := by
    unfold histSize at *
    omega
  rw [getElem?_strcpy h, if_neg hout, hat.bytes k hk]

/-! ## The ring -/

/-- **The ring holds the last lines**, latest first: one fewer than it has rows, and one more until
the row is written again. -/
structure Hist.Holds (h : Hist) (entered : List (List UInt8)) : Prop where
  length : h.lines.length = histMax * histSize
  addIdx : h.addIdx = entered.length % histMax
  max : h.max = min entered.length (histMax - 1)
  recent : ∀ k < histMax, ∀ line, entered[k]? = some line →
    LineAt h.lines ((entered.length - (k + 1)) % histMax) line

/-- The cursor is at the `k`-th line, the latest being the first; at `0` no line is shown. -/
structure Hist.At (h : Hist) (entered : List (List UInt8)) (k : ℕ) : Prop where
  le : k ≤ min entered.length (histMax - 1)
  cur : h.cur = ((entered.length - k) % histMax : ℕ)

theorem histInit_holds {lines : List UInt8} (hlength : lines.length = histMax * histSize) :
    (histInit lines).Holds [] := by
  have hfold (l : List ℕ) (lines : List UInt8) :
      (l.foldl (fun lines i => lines.set (i * histSize) 0) lines).length = lines.length := by
    induction l generalizing lines with
    | nil => rfl
    | cons i l ih => rw [List.foldl_cons, ih, List.length_set]
  refine ⟨?_, rfl, rfl, fun k _ line hline => (nomatch hline)⟩
  rw [histInit, hfold, hlength]

theorem creadAddToHist_holds {h : Hist} {entered : List (List UInt8)} {line : List UInt8}
    (hh : h.Holds entered) (hnul : (0 : UInt8) ∉ line) (hfits : line.length < histSize) :
    ∃ h', creadAddToHist h line = some h' ∧ h'.Holds (line :: entered) := by
  obtain ⟨hlength, haddIdx, hmax, hrecent⟩ := hh
  have hlt : h.addIdx < histMax := haddIdx ▸ Nat.mod_lt _ (by decide)
  obtain ⟨lines', hcopy, hlength'⟩ : ∃ lines', strcpy h.lines (h.addIdx * histSize) line =
      some lines' ∧ lines'.length = h.lines.length := by
    refine exists_strcpy ?_
    unfold histMax histSize at *
    omega
  refine ⟨_, by rw [creadAddToHist, hcopy], ⟨hlength'.trans hlength, ?_, ?_, ?_⟩⟩
  · rw [List.length_cons]
    dsimp only
    unfold histMax at *
    split_ifs <;> omega
  · rw [List.length_cons]
    dsimp only
    unfold histMax at *
    split_ifs <;> omega
  · intro k hk other hother
    cases k with
    | zero =>
      rw [List.getElem?_cons_zero] at hother
      obtain rfl := Option.some.inj hother
      rw [List.length_cons, Nat.zero_add, Nat.add_sub_cancel, ← haddIdx]
      exact .of_strcpy hnul hfits hcopy
    | succ k =>
      rw [List.getElem?_cons_succ] at hother
      have hold := hrecent k (by omega) other hother
      have hklt : k < entered.length := (List.getElem?_eq_some_iff.mp hother).1
      rw [List.length_cons, Nat.add_sub_add_right]
      refine hold.strcpy ?_ hfits hcopy
      -- Fewer lines lie between the two rows than the ring has.
      rw [haddIdx]
      unfold histMax at *
      omega

variable {h : Hist} {entered : List (List UInt8)} {k : ℕ}

theorem Hist.Holds.string_row (hh : h.Holds entered) (hk : k + 1 ≤ min entered.length (histMax - 1))
    {line : List UInt8} (hline : entered[k]? = some line) :
    h.string (.row ((entered.length - (k + 1)) % histMax)) = some line := by
  refine (hh.recent k ?_ line hline).takeString
  unfold histMax at *
  omega

/-- **`hist_prev` goes to the line before**, and stays at the oldest. -/
theorem histPrev_at (hh : h.Holds entered) (hat : h.At entered k) :
    (k < min entered.length (histMax - 1) →
      ∃ h', histPrev h = (some (.row ((entered.length - (k + 1)) % histMax)), h') ∧
        h'.Holds entered ∧ h'.At entered (k + 1)) ∧
    (k = min entered.length (histMax - 1) → histPrev h = (none, h)) := by
  obtain ⟨hlength, haddIdx, hmax, hrecent⟩ := hh
  obtain ⟨hle, hcur⟩ := hat
  have hstart : ¬h.cur < 0 := by omega
  rw [histPrev, if_neg hstart]
  constructor
  · intro hk
    have hnext : (if h.cur - 1 < 0 then (h.max : ℤ) else h.cur - 1) =
        ((entered.length - (k + 1)) % histMax : ℕ) := by
      unfold histMax at *
      omega
    have hne : ((entered.length - (k + 1)) % histMax : ℕ) ≠ (h.addIdx : ℤ) := by
      unfold histMax at *
      omega
    dsimp only
    rw [hnext, if_neg hne, Int.toNat_natCast]
    exact ⟨_, rfl, ⟨hlength, haddIdx, hmax, hrecent⟩, hk, rfl⟩
  · intro hk
    refine if_pos ?_
    unfold histMax at *
    omega

/-- **`hist_next` goes to the line behind**, and stays when none is shown. -/
theorem histNext_at (hh : h.Holds entered) (hat : h.At entered k) :
    (k = 0 → histNext h = (none, h)) ∧
    (k = 1 → ∃ h', histNext h = (some .empty, h') ∧ h'.Holds entered ∧ h'.At entered 0) ∧
    (1 < k → ∃ h', histNext h = (some (.row ((entered.length - (k - 1)) % histMax)), h') ∧
      h'.Holds entered ∧ h'.At entered (k - 1)) := by
  obtain ⟨hlength, haddIdx, hmax, hrecent⟩ := hh
  obtain ⟨hle, hcur⟩ := hat
  have hstart : ¬h.cur < 0 := by omega
  have hnext (hk : 0 < k) : h.cur ≠ h.addIdx ∧ (if h.cur + 1 > h.max then 0 else h.cur + 1) =
      ((entered.length - (k - 1)) % histMax : ℕ) := by
    unfold histMax at *
    omega
  rw [histNext, if_neg hstart]
  refine ⟨fun hk => if_pos ?_, fun hk => ?_, fun hk => ?_⟩
  · rw [hcur, hk, haddIdx, Nat.sub_zero]
  · obtain ⟨hne, hnext⟩ := hnext (by omega)
    have hlatest : ((entered.length - (k - 1)) % histMax : ℕ) = (h.addIdx : ℤ) := by
      rw [hk, haddIdx, Nat.sub_self, Nat.sub_zero]
    rw [if_neg hne]
    dsimp only
    rw [hnext, if_pos hlatest]
    exact ⟨_, rfl, ⟨hlength, haddIdx, hmax, hrecent⟩, Nat.zero_le _, by rw [hk]⟩
  · obtain ⟨hne, hnext⟩ := hnext (by omega)
    have hback : ((entered.length - (k - 1)) % histMax : ℕ) ≠ (h.addIdx : ℤ) := by
      unfold histMax at *
      omega
    rw [if_neg hne]
    dsimp only
    rw [hnext, if_neg hback, Int.toNat_natCast]
    exact ⟨_, rfl, ⟨hlength, haddIdx, hmax, hrecent⟩, by omega, rfl⟩

end Readline
end EmevBsp
