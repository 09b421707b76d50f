import Mathlib.Data.PNat.Basic
import Mathlib.Data.Nat.Log
import Mathlib.Logic.Function.Basic

/-!
# `common/memsize.c`

`get_ram_size` saves the words at the powers of two, from the largest down, and writes the
complement of its offset into each.  Then it writes zero into the base word.  On the way back up
it compares each word with what it wrote and puts the saved word back; the first word that differs
lies where the memory wraps around, and the rest is put back without a comparison.

The saved words go back in the opposite order, so it does not matter which of the offsets are one
word of the memory: a word that was written through any of them gets what it held at first
(`restoreFirst_ram`).  The base word is not among the offsets.  It is put back only when one of
them wraps around to it.  "Restore the original data before leaving the function" is what two of
the three exits do; the last one leaves the base word zero.
-/

namespace EmevBsp
namespace Memsize

/-- A memory of `2 ^ k` words. -/
abbrev Ram (k : ℕ) := Fin (2 ^ k) → UInt32

variable {k : ℕ}

/-- The word at `base + cnt`: an address wraps around at the size of the memory. -/
def cell (k cnt : ℕ) : Fin (2 ^ k) := Fin.ofNat (2 ^ k) cnt

/-- The memory, and the array of saved words with its index. -/
structure Probe (k : ℕ) where
  ram : Ram k
  save : ℕ → UInt32
  i : ℕ

/-- `save[i++] = *addr; *addr = ~cnt` -/
def Probe.mark (s : Probe k) (cnt : ℕ) : Probe k where
  ram := Function.update s.ram (cell k cnt) (~~~ UInt32.ofNat cnt)
  save := Function.update s.save s.i (s.ram (cell k cnt))
  i := s.i + 1

/-- `*addr = save[--i]` -/
def Probe.restore (s : Probe k) (cnt : ℕ) : Probe k where
  ram := Function.update s.ram (cell k cnt) (s.save (s.i - 1))
  save := s.save
  i := s.i - 1

/-- The first loop, from `cnt` on. -/
def markLoop (s : Probe k) (cnt : ℕ) : Probe k :=
  if 0 < cnt then markLoop (s.mark cnt) (cnt / 2) else s
termination_by cnt
decreasing_by
  next h => exact Nat.div_lt_self h Nat.one_lt_two

theorem double_lt {words : ℕ} {cnt : ℕ+} (h : (cnt : ℕ) < words) :
    words - (2 * cnt : ℕ+) < words - cnt := by
  have hpos : 0 < (cnt : ℕ) := cnt.pos
  rw [PNat.mul_coe]
  exact Nat.sub_lt_sub_left h (by show (cnt : ℕ) < 2 * cnt; omega)

/-- The loops that only put the saved words back. -/
def restoreLoop (words : ℕ) (s : Probe k) (cnt : ℕ+) : Probe k :=
  if (cnt : ℕ) < words then restoreLoop words (s.restore cnt) (2 * cnt) else s
termination_by words - cnt
decreasing_by
  next h => exact double_lt h

/-- The last loop: the size it finds, if it finds one. -/
def compareLoop (words : ℕ) (s : Probe k) (cnt : ℕ+) : Option ℕ × Probe k :=
  if (cnt : ℕ) < words then
    let val := s.ram (cell k cnt)
    let s := s.restore cnt
    if val ≠ ~~~ UInt32.ofNat cnt then (some (cnt * 4), restoreLoop words s (2 * cnt))
    else compareLoop words s (2 * cnt)
  else (none, s)
termination_by words - cnt
decreasing_by
  next h _ => exact double_lt h

/-- `get_ram_size`: the size, and the memory. -/
def getRamSize (maxsize : UInt32) (ram : Ram k) : UInt32 × Ram k :=
  let words := maxsize.toNat / 4
  -- nothing is known of `save` at first
  let s := markLoop ⟨ram, fun _ => 0, 0⟩ (words / 2)
  let s := { s with
    save := Function.update s.save s.i (s.ram (cell k 0))
    ram := Function.update s.ram (cell k 0) 0 }
  if s.ram (cell k 0) ≠ 0 then
    let s := { s with ram := Function.update s.ram (cell k 0) (s.save s.i) }
    (0, (restoreLoop words s 1).ram)
  else
    match compareLoop words s 1 with
    | (some size, s) => (UInt32.ofNat size, s.ram)
    | (none, s) => (maxsize, s.ram)

/-! ## The loops by their exponents -/

/-- The words at the offsets `2 ^ 0`, ..., `2 ^ (n - 1)` are put back. -/
def restoreFirst (s : Probe k) : ℕ → Probe k
  | 0 => s
  | n + 1 => (restoreFirst s n).restore (2 ^ n)

theorem coe_two_pow (j : ℕ) : (((2 : ℕ+) ^ j : ℕ+) : ℕ) = 2 ^ j := PNat.pow_coe 2 j

theorem restoreLoop_eq (s : Probe k) {j n : ℕ} (hj : j ≤ n) :
    restoreLoop (2 ^ n) (restoreFirst s j) (2 ^ j) = restoreFirst s n := by
  induction hj using Nat.decreasingInduction with
  | self =>
    rw [restoreLoop, coe_two_pow, if_neg (Nat.lt_irrefl _)]
  | of_succ j hj ih =>
    rw [restoreLoop, coe_two_pow, if_pos (Nat.pow_lt_pow_right Nat.one_lt_two hj), ← pow_succ']
    exact ih

/-- The word at `2 ^ j` is as it was written, when its turn to be put back comes. -/
def Intact (s : Probe k) (j : ℕ) : Prop :=
  (restoreFirst s j).ram (cell k (2 ^ j)) = ~~~ UInt32.ofNat (2 ^ j)

theorem compareLoop_of_intact {s : Probe k} {n : ℕ} (h : ∀ e < n, Intact s e) {j : ℕ}
    (hj : j ≤ n) :
    compareLoop (2 ^ n) (restoreFirst s j) (2 ^ j) = (none, restoreFirst s n) := by
  induction hj using Nat.decreasingInduction with
  | self =>
    rw [compareLoop, coe_two_pow, if_neg (Nat.lt_irrefl _)]
  | of_succ j hj ih =>
    have hword : (restoreFirst s j).ram (cell k (2 ^ j)) = ~~~ UInt32.ofNat (2 ^ j) := h j hj
    rw [compareLoop, coe_two_pow, if_pos (Nat.pow_lt_pow_right Nat.one_lt_two hj)]
    dsimp only
    rw [if_neg (not_not.mpr hword), ← pow_succ']
    exact ih

theorem compareLoop_of_not_intact {s : Probe k} {m n : ℕ} (hm : m < n)
    (h : ∀ e < m, Intact s e) (hdiff : ¬ Intact s m) {j : ℕ} (hj : j ≤ m) :
    compareLoop (2 ^ n) (restoreFirst s j) (2 ^ j) = (some (2 ^ m * 4), restoreFirst s n) := by
  have hword : (restoreFirst s m).ram (cell k (2 ^ m)) ≠ ~~~ UInt32.ofNat (2 ^ m) := hdiff
  induction hj using Nat.decreasingInduction with
  | self =>
    rw [compareLoop, coe_two_pow, if_pos (Nat.pow_lt_pow_right Nat.one_lt_two hm)]
    dsimp only
    rw [if_pos hword, ← pow_succ']
    exact congrArg (some (2 ^ m * 4), ·) (restoreLoop_eq s hm)
  | of_succ j hj ih =>
    have hword : (restoreFirst s j).ram (cell k (2 ^ j)) = ~~~ UInt32.ofNat (2 ^ j) := h j hj
    have hlt : 2 ^ j < 2 ^ n := Nat.pow_lt_pow_right Nat.one_lt_two (hj.trans hm)
    rw [compareLoop, coe_two_pow, if_pos hlt]
    dsimp only
    rw [if_neg (not_not.mpr hword), ← pow_succ']
    exact ih

theorem markLoop_succ (s : Probe k) (n : ℕ) :
    markLoop s (2 ^ (n + 1) / 2) = markLoop (s.mark (2 ^ n)) (2 ^ n / 2) := by
  rw [pow_succ, Nat.mul_div_cancel _ Nat.two_pos, markLoop, if_pos (Nat.two_pow_pos n)]

theorem markLoop_one (s : Probe k) : markLoop s (2 ^ 0 / 2) = s := by
  rw [markLoop]
  rfl

/-! ## What is written, and what is put back -/

/-- The words that the offsets below `2 ^ n` reach. -/
def Touched (k n : ℕ) (c : Fin (2 ^ k)) : Prop := ∃ e < n, c = cell k (2 ^ e)

theorem touched_succ {n : ℕ} {c : Fin (2 ^ k)} :
    Touched k (n + 1) c ↔ Touched k n c ∨ c = cell k (2 ^ n) := by
  constructor
  · rintro ⟨e, he, rfl⟩
    rcases Nat.lt_succ_iff_lt_or_eq.mp he with he | rfl
    · exact Or.inl ⟨e, he, rfl⟩
    · exact Or.inr rfl
  · rintro (⟨e, he, rfl⟩ | rfl)
    · exact ⟨e, Nat.lt_succ_of_lt he, rfl⟩
    · exact ⟨n, Nat.lt_succ_self n, rfl⟩

theorem val_cell_two_pow {e : ℕ} (he : e < k) : (cell k (2 ^ e) : ℕ) = 2 ^ e :=
  Nat.mod_eq_of_lt (Nat.pow_lt_pow_right Nat.one_lt_two he)

theorem cell_two_pow_eq_zero {e : ℕ} (he : k ≤ e) : cell k (2 ^ e) = cell k 0 := by
  apply Fin.ext
  show 2 ^ e % 2 ^ k = 0 % 2 ^ k
  rw [Nat.zero_mod]
  exact Nat.mod_eq_zero_of_dvd (pow_dvd_pow 2 he)

theorem cell_two_pow_ne_zero {e : ℕ} (he : e < k) : cell k (2 ^ e) ≠ cell k 0 := by
  intro h
  have hval : (cell k (2 ^ e) : ℕ) = cell k 0 := congrArg Fin.val h
  rw [val_cell_two_pow he] at hval
  exact (Nat.two_pow_pos e).ne' (hval.trans (Nat.zero_mod _))

theorem touched_zero_iff {n : ℕ} : Touched k n (cell k 0) ↔ k < n := by
  constructor
  · rintro ⟨e, he, h⟩
    by_contra hn
    exact cell_two_pow_ne_zero (he.trans_le (Nat.le_of_not_lt hn)) h.symm
  · intro hk
    exact ⟨k, hk, (cell_two_pow_eq_zero (le_refl k)).symm⟩

theorem touched_two_pow_iff {e n : ℕ} (he : e < k) : Touched k n (cell k (2 ^ e)) ↔ e < n := by
  constructor
  · rintro ⟨e', he', h⟩
    by_cases hk : e' < k
    · have hval : (cell k (2 ^ e) : ℕ) = cell k (2 ^ e') := congrArg Fin.val h
      rw [val_cell_two_pow he, val_cell_two_pow hk] at hval
      exact Nat.pow_right_injective (le_refl 2) hval ▸ he'
    · rw [cell_two_pow_eq_zero (Nat.le_of_not_lt hk)] at h
      exact absurd h (cell_two_pow_ne_zero he)
  · intro hn
    exact ⟨e, hn, rfl⟩

theorem markLoop_frame (s : Probe k) (n : ℕ) :
    (markLoop s (2 ^ n / 2)).i = s.i + n ∧
      (∀ a < s.i, (markLoop s (2 ^ n / 2)).save a = s.save a) ∧
      ∀ c, ¬ Touched k n c → (markLoop s (2 ^ n / 2)).ram c = s.ram c := by
  induction n generalizing s with
  | zero =>
    rw [markLoop_one]
    exact ⟨rfl, fun _ _ => rfl, fun _ _ => rfl⟩
  | succ n ih =>
    obtain ⟨hi, hsave, hram⟩ := ih (s.mark (2 ^ n))
    rw [markLoop_succ]
    refine ⟨?_, fun a ha => ?_, fun c hc => ?_⟩
    · rw [hi, Probe.mark, Nat.add_assoc, Nat.add_comm 1]
    · rw [hsave a (Nat.lt_succ_of_lt ha), Probe.mark]
      exact Function.update_of_ne ha.ne _ _
    · rw [touched_succ, not_or] at hc
      rw [hram c hc.1, Probe.mark]
      exact Function.update_of_ne hc.2 _ _

theorem markLoop_ram {e n : ℕ} (he : e < k) (hn : e < n) (s : Probe k) :
    (markLoop s (2 ^ n / 2)).ram (cell k (2 ^ e)) = ~~~ UInt32.ofNat (2 ^ e) := by
  induction n generalizing s with
  | zero => exact absurd hn (Nat.not_lt_zero e)
  | succ n ih =>
    rw [markLoop_succ]
    rcases Nat.lt_succ_iff_lt_or_eq.mp hn with hn | rfl
    · exact ih hn _
    · have hlast := (touched_two_pow_iff (n := e) he).not.mpr (Nat.lt_irrefl e)
      rw [(markLoop_frame _ e).2.2 _ hlast, Probe.mark]
      exact Function.update_self _ _ _

theorem restoreFirst_frame (s : Probe k) (n : ℕ) :
    (restoreFirst s n).i = s.i - n ∧ (restoreFirst s n).save = s.save ∧
      ∀ c, ¬ Touched k n c → (restoreFirst s n).ram c = s.ram c := by
  induction n with
  | zero => exact ⟨rfl, rfl, fun _ _ => rfl⟩
  | succ n ih =>
    obtain ⟨hi, hsave, hram⟩ := ih
    refine ⟨?_, hsave, fun c hc => ?_⟩
    · rw [restoreFirst, Probe.restore, hi, Nat.sub_sub]
    · rw [touched_succ, not_or] at hc
      rw [restoreFirst, Probe.restore]
      dsimp only
      rw [Function.update_of_ne hc.2, hram c hc.1]

theorem restoreFirst_ram (s : Probe k) (n : ℕ) {t : Probe k}
    (hi : t.i = (markLoop s (2 ^ n / 2)).i)
    (hsave : ∀ a < t.i, t.save a = (markLoop s (2 ^ n / 2)).save a) {c : Fin (2 ^ k)}
    (hc : Touched k n c) : (restoreFirst t n).ram c = s.ram c := by
  induction n generalizing s with
  | zero =>
    obtain ⟨e, he, -⟩ := hc
    exact absurd he (Nat.not_lt_zero e)
  | succ n ih =>
    rw [markLoop_succ] at hi hsave
    obtain ⟨hi', hsave', -⟩ := markLoop_frame (s.mark (2 ^ n)) n
    have hmark : (s.mark (2 ^ n)).i = s.i + 1 := rfl
    obtain ⟨hri, hrsave, -⟩ := restoreFirst_frame t n
    -- the word that comes back last was saved first
    have hindex : (restoreFirst t n).i - 1 = s.i := by
      rw [hri, hi, hi', hmark]
      omega
    have hlast : t.save s.i = s.ram (cell k (2 ^ n)) := by
      rw [hsave s.i (by omega), hsave' s.i (by omega), Probe.mark]
      exact Function.update_self _ _ _
    rw [restoreFirst, Probe.restore]
    dsimp only
    rw [hindex, hrsave, hlast]
    by_cases hcell : c = cell k (2 ^ n)
    · rw [hcell, Function.update_self]
    · have hc' : Touched k n c := (touched_succ.mp hc).resolve_right hcell
      rw [Function.update_of_ne hcell, ih (s.mark (2 ^ n)) hi hsave hc', Probe.mark]
      exact Function.update_of_ne hcell _ _

/-! ## The whole function -/

/-- The state in front of the comparison: the first word is saved and zero. -/
def probed (n : ℕ) (ram : Ram k) : Probe k :=
  let s := markLoop ⟨ram, fun _ => 0, 0⟩ (2 ^ n / 2)
  { s with
    save := Function.update s.save s.i (s.ram (cell k 0))
    ram := Function.update s.ram (cell k 0) 0 }

theorem probed_first (n : ℕ) (ram : Ram k) : (probed n ram).ram (cell k 0) = 0 := by
  simp only [probed, Function.update_self]

theorem ram_probed (n : ℕ) (ram : Ram k) (c : Fin (2 ^ k)) :
    (restoreFirst (probed n ram) n).ram c = if k < n ∨ c ≠ cell k 0 then ram c else 0 := by
  have hsave : ∀ a < (probed n ram).i, (probed n ram).save a =
      (markLoop ⟨ram, fun _ => 0, 0⟩ (2 ^ n / 2)).save a := by
    intro a ha
    exact Function.update_of_ne (Nat.ne_of_lt ha) _ _
  by_cases hc : Touched k n c
  · rw [restoreFirst_ram (t := probed n ram) ⟨ram, fun _ => 0, 0⟩ n rfl hsave hc, if_pos]
    by_contra h
    rw [not_or, not_not] at h
    exact h.1 (touched_zero_iff.mp (h.2 ▸ hc))
  · rw [(restoreFirst_frame _ n).2.2 c hc]
    show Function.update _ (cell k 0) 0 c = _
    by_cases h0 : c = cell k 0
    · have hk : ¬ k < n := fun hk => hc (h0 ▸ touched_zero_iff.mpr hk)
      rw [h0, Function.update_self, if_neg fun h => h.elim hk fun h => h rfl]
    · rw [Function.update_of_ne h0, if_pos (Or.inr h0)]
      exact (markLoop_frame _ n).2.2 c hc

theorem intact_probed {e n : ℕ} (he : e < k) (hn : e < n) (ram : Ram k) :
    Intact (probed n ram) e := by
  have hlast := (touched_two_pow_iff (n := e) he).not.mpr (Nat.lt_irrefl e)
  rw [Intact, (restoreFirst_frame _ e).2.2 _ hlast]
  exact (Function.update_of_ne (cell_two_pow_ne_zero he) _ _).trans (markLoop_ram he hn _)

theorem two_pow_ne_not_zero {k : ℕ} (hk : k < 32) : (0 : UInt32) ≠ ~~~ UInt32.ofNat (2 ^ k) := by
  intro h
  have hnot : UInt32.ofNat (2 ^ k) = ~~~ 0 := by rw [h, UInt32.not_not]
  have hval : (UInt32.ofNat (2 ^ k)).toNat = 4294967295 := congrArg UInt32.toNat hnot
  have hlt : 2 ^ k < 2 ^ 32 := Nat.pow_lt_pow_right Nat.one_lt_two hk
  rw [UInt32.toNat_ofNat', Nat.mod_eq_of_lt hlt] at hval
  cases k with
  | zero => exact absurd hval (by decide)
  | succ k => omega

theorem not_intact_probed (n : ℕ) (hk : k < 32) (ram : Ram k) : ¬ Intact (probed n ram) k := by
  have hlast := (touched_zero_iff (k := k) (n := k)).not.mpr (Nat.lt_irrefl k)
  rw [Intact, cell_two_pow_eq_zero (le_refl k), (restoreFirst_frame _ k).2.2 _ hlast,
    probed_first]
  exact two_pow_ne_not_zero hk

theorem getRamSize_eq {n : ℕ} (hn : n ≤ 29) (hk : k ≤ n) (ram : Ram k) :
    getRamSize (UInt32.ofNat (4 * 2 ^ n)) ram =
      (UInt32.ofNat (4 * 2 ^ k), (restoreFirst (probed n ram) n).ram) := by
  have hwords : (UInt32.ofNat (4 * 2 ^ n)).toNat / 4 = 2 ^ n := by
    have hpow : 2 ^ n ≤ 2 ^ 29 := Nat.pow_le_pow_right Nat.two_pos hn
    rw [UInt32.toNat_ofNat', Nat.mod_eq_of_lt (by omega), Nat.mul_div_cancel_left _ (by decide)]
  have hcompare : compareLoop (2 ^ n) (probed n ram) 1 =
      (if k < n then some (2 ^ k * 4) else none, restoreFirst (probed n ram) n) := by
    rcases Nat.lt_or_eq_of_le hk with hlt | rfl
    · rw [if_pos hlt]
      exact compareLoop_of_not_intact (j := 0) hlt
        (fun e he => intact_probed he (he.trans hlt) ram)
        (not_intact_probed n (hlt.trans_le (hn.trans (by decide))) ram) (Nat.zero_le k)
    · rw [if_neg (Nat.lt_irrefl k)]
      exact compareLoop_of_intact (j := 0) (fun e he => intact_probed he he ram) (Nat.zero_le k)
  rw [getRamSize, hwords]
  show (if (probed n ram).ram (cell k 0) ≠ 0 then _ else
    match compareLoop (2 ^ n) (probed n ram) 1 with
    | (some size, s) => (UInt32.ofNat size, s.ram)
    | (none, s) => (UInt32.ofNat (4 * 2 ^ n), s.ram)) = _
  rw [if_neg (not_not.mpr (probed_first n ram)), hcompare]
  rcases Nat.lt_or_eq_of_le hk with hlt | rfl
  · rw [if_pos hlt, Nat.mul_comm]
  · rw [if_neg (Nat.lt_irrefl k)]

/-- **The size is right and the memory is as it was**, exactly when the maximum is larger than the
memory, or the first word was zero. -/
theorem getRamSize_iff {n : ℕ} (hn : n ≤ 29) (hk : k ≤ n) (ram : Ram k) :
    getRamSize (UInt32.ofNat (4 * 2 ^ n)) ram = (UInt32.ofNat (4 * 2 ^ k), ram) ↔
      k < n ∨ ram (cell k 0) = 0 := by
  rw [getRamSize_eq hn hk, Prod.mk.injEq, and_iff_right rfl]
  constructor
  · intro h
    have hfirst := ram_probed n ram (cell k 0)
    rw [h] at hfirst
    by_cases hlt : k < n
    · exact Or.inl hlt
    · rw [if_neg fun h => h.elim hlt fun h => h rfl] at hfirst
      exact Or.inr hfirst
  · intro h
    funext c
    rw [ram_probed]
    split_ifs with hc
    · rfl
    · rw [not_or, not_not] at hc
      rw [hc.2]
      exact (h.resolve_left hc.1).symm

/-- Eight words at most, and two of them real. -/
theorem getRamSize_iff_two :
    getRamSize 32 (fun _ => 7 : Ram 1) = (8, fun _ => 7) :=
  (getRamSize_iff (n := 3) (by decide) (by decide) fun _ => 7).mpr (Or.inl (by decide))

/-- **The first word is lost** when the memory is as large as the maximum. -/
theorem not_getRamSize : ¬ ∀ (n k : ℕ) (ram : Ram k), n ≤ 29 → k ≤ n →
    getRamSize (UInt32.ofNat (4 * 2 ^ n)) ram = (UInt32.ofNat (4 * 2 ^ k), ram) := by
  intro h
  have hram := congrArg (fun r => r.2 (cell 1 0)) (h 1 1 (fun _ => 7) (by decide) (le_refl 1))
  rw [getRamSize_eq (by decide) (le_refl 1)] at hram
  dsimp only at hram
  rw [ram_probed, if_neg (by decide)] at hram
  exact absurd hram (by decide)

end Memsize
end EmevBsp
