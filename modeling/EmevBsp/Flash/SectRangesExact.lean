import EmevBsp.Flash.FindSector
import EmevBsp.Flash.SectRanges
import Mathlib.Data.List.Pairwise

/-!
# `common/cmd_flash.c`: whether the sectors are those of the range

The loop of `flash_fill_sect_ranges` ends when the banks run out, and then it does not look whether
it has come to `addr_last`.  When the range goes on behind a bank, and no later bank of the list
begins there, what was found is returned as if it were all.  And the address behind a bank at the
top of the address space is 0, so a later bank that begins at 0 is taken as well.

In all other cases the sectors are those of the range, or there is an error.
-/

namespace EmevBsp
namespace Flash

/-! ## Layouts -/

/-- What is known of the banks of a list. -/
structure Sound (banks : List FlashInfo) : Prop where
  wellFormed : ∀ info ∈ banks, info.Known → info.WellFormed
  short : ∀ info ∈ banks, info.ShortCount
  disjoint : banks.Pairwise fun b c => ∀ x, b.Holds x → ¬c.Holds x

variable {info : FlashInfo} {banks rest : List FlashInfo} {x y : FlashInfo}
  {addrFirst addrLast : BitVec 32} {f l : ℕ}

theorem Sound.tail (h : Sound (info :: banks)) : Sound banks :=
  ⟨fun b hb => h.wellFormed b (List.mem_cons_of_mem _ hb),
    fun b hb => h.short b (List.mem_cons_of_mem _ hb), (List.pairwise_cons.mp h.disjoint).2⟩

theorem Sound.not_holds (h : Sound (info :: banks)) {a : ℕ} (ha : info.Holds a) (hx : x ∈ banks) :
    ¬x.Holds a := (List.pairwise_cons.mp h.disjoint).1 x hx a ha

theorem holds_of_startsAt (h : info.WellFormed) (hknown : info.Known) {i : ℕ}
    (hi : info.StartsAt f i) : info.Holds f :=
  h.holds_of_inSector hknown hi.1 ⟨hi.2.le, hi.2 ▸ start_lt_sectorTop h hi.1⟩

theorem holds_of_endsAt (h : info.WellFormed) (hknown : info.Known) {i : ℕ}
    (hi : info.EndsAt l i) : info.Holds l := by
  have hlt := start_lt_sectorTop h hi.1
  have htop := hi.2
  exact h.holds_of_inSector hknown hi.1 ⟨by omega, by omega⟩

/-- A bank that has the address has a sector that starts there. -/
def Fresh (banks : List FlashInfo) (f : ℕ) : Prop :=
  ∀ b ∈ banks, b.Holds f → ∃ i, b.StartsAt f i

theorem Fresh.tail (h : Fresh (info :: banks) f) : Fresh banks f :=
  fun b hb => h b (List.mem_cons_of_mem _ hb)

theorem startsAt_zero (h : info.WellFormed) (hf : (info.start 0).toNat = f) :
    info.StartsAt f 0 := ⟨h.sectors, hf⟩

theorem fresh_zero (hs : Sound banks) : Fresh banks 0 := fun b hb hholds =>
  ⟨0, startsAt_zero (hs.wellFormed b hb hholds.1) (Nat.le_zero.mp hholds.2.1)⟩

theorem start_eq_top (hs : Sound (info :: banks)) (hknown : info.Known) (hx : x ∈ banks)
    (hholds : x.Holds info.top) : (x.start 0).toNat = info.top := by
  have hlt := (hs.wellFormed info List.mem_cons_self hknown).start_lt_top
  have hlast : info.Holds (info.top - 1) := ⟨hknown, by omega, by omega⟩
  have hnot := hs.not_holds hlast hx
  by_contra hne
  exact hnot ⟨hholds.1, by have := hholds.2.1; omega, by have := hholds.2.2; omega⟩

theorem fresh_top (hs : Sound (info :: banks)) (hknown : info.Known) : Fresh banks info.top :=
  fun b hb hholds => ⟨0, startsAt_zero (hs.tail.wellFormed b hb hholds.1)
    (start_eq_top hs hknown hb hholds)⟩

/-! ## The way of the loop -/

/-- **The loop comes to the bank `x`**, from the address `f` on and in the order of the list; each
bank begins where the one before it ends.  `rest` is what stands behind `x` in the list. -/
inductive Comes : List FlashInfo → ℕ → FlashInfo → List FlashInfo → Prop
  | here {info : FlashInfo} {banks : List FlashInfo} {f i : ℕ} :
      info.Known → info.StartsAt f i → Comes (info :: banks) f info banks
  | skip {info x : FlashInfo} {banks rest : List FlashInfo} {f : ℕ} :
      Comes banks f x rest → Comes (info :: banks) f x rest
  | on {info x : FlashInfo} {banks rest : List FlashInfo} {f i : ℕ} :
      info.Known → info.StartsAt f i → Comes banks info.top x rest → Comes (info :: banks) f x rest

theorem Comes.mem (h : Comes banks f x rest) : x ∈ banks := by
  induction h with
  | here => exact List.mem_cons_self
  | skip _ ih => exact List.mem_cons_of_mem _ ih
  | on _ _ _ ih => exact List.mem_cons_of_mem _ ih

theorem Comes.starts (h : Comes banks f x rest) :
    ∃ b ∈ banks, b.Known ∧ ∃ i, b.StartsAt f i := by
  induction h with
  | here hknown hi => exact ⟨_, List.mem_cons_self, hknown, _, hi⟩
  | skip _ ih =>
    obtain ⟨b, hb, hstarts⟩ := ih
    exact ⟨b, List.mem_cons_of_mem _ hb, hstarts⟩
  | on hknown hi _ _ => exact ⟨_, List.mem_cons_self, hknown, _, hi⟩

theorem comes_cons_of_not (h : ¬(info.Known ∧ ∃ i, info.StartsAt f i)) :
    Comes (info :: banks) f x rest ↔ Comes banks f x rest := by
  refine ⟨fun hcomes => ?_, Comes.skip⟩
  cases hcomes with
  | here hknown hi => exact absurd ⟨hknown, _, hi⟩ h
  | skip hcomes => exact hcomes
  | on hknown hi _ => exact absurd ⟨hknown, _, hi⟩ h

theorem comes_cons_of_starts (hs : Sound (info :: banks)) (hknown : info.Known) {i : ℕ}
    (hi : info.StartsAt f i) :
    Comes (info :: banks) f x rest ↔ (x = info ∧ rest = banks) ∨ Comes banks info.top x rest := by
  constructor
  · intro hcomes
    cases hcomes with
    | here => exact Or.inl ⟨rfl, rfl⟩
    | skip hcomes =>
      -- no other bank has the address
      obtain ⟨b, hb, hbknown, j, hj⟩ := hcomes.starts
      have hholds := holds_of_startsAt (hs.wellFormed info List.mem_cons_self hknown) hknown hi
      exact absurd (holds_of_startsAt (hs.tail.wellFormed b hb hbknown) hbknown hj)
        (hs.not_holds hholds hb)
    | on _ _ hcomes => exact Or.inr hcomes
  · rintro (⟨rfl, rfl⟩ | hcomes)
    · exact Comes.here hknown hi
    · exact Comes.on hknown hi hcomes

/-- **The range is missed**: no sector ends where it ends, and the loop does not come to the bank
of its end. -/
def Missed (banks : List FlashInfo) (f l : ℕ) : Prop :=
  (∀ b ∈ banks, b.Known → ∀ j, ¬b.EndsAt l j) ∧ ¬∃ x rest, Comes banks f x rest ∧ x.Holds l

/-- **The loop goes on at the address 0**: the range ends at the top of the address space, and a
bank behind that of its end begins at 0. -/
def Wraps (banks : List FlashInfo) (f l : ℕ) : Prop :=
  l + 1 = 2 ^ 32 ∧ ∃ x rest, Comes banks f x rest ∧ x.Holds l ∧
    ∃ y ∈ rest, y.Known ∧ (y.start 0).toNat = 0

/-! ## What is selected -/

/-- The byte is in a sector that is selected. -/
def Selected (banks : List FlashInfo) (s : List (ℤ × ℤ)) (a : ℕ) : Prop :=
  ∃ e ∈ banks.zip s, 0 ≤ e.2.1 ∧ ∃ i : ℕ, e.2.1 ≤ i ∧ (i : ℤ) ≤ e.2.2 ∧ e.1.InSector i a

theorem selected_cons {s : ℤ × ℤ} {t : List (ℤ × ℤ)} {a : ℕ} :
    Selected (info :: banks) (s :: t) a ↔
      (0 ≤ s.1 ∧ ∃ i : ℕ, s.1 ≤ i ∧ (i : ℤ) ≤ s.2 ∧ info.InSector i a) ∨ Selected banks t a := by
  rw [Selected, List.zip_cons_cons]
  constructor
  · rintro ⟨e, he, hsel⟩
    rcases List.mem_cons.mp he with rfl | he
    · exact Or.inl hsel
    · exact Or.inr ⟨e, he, hsel⟩
  · rintro (hsel | ⟨e, he, hsel⟩)
    · exact ⟨_, List.mem_cons_self, hsel⟩
    · exact ⟨e, List.mem_cons_of_mem _ he, hsel⟩

theorem exists_inSector_iff (h : info.WellFormed) {i j : ℕ} (hij : i ≤ j)
    (hj : j < info.sectorCount) {a : ℕ} :
    (∃ k, i ≤ k ∧ k ≤ j ∧ info.InSector k a) ↔
      (info.start i).toNat ≤ a ∧ a < info.sectorTop j := by
  constructor
  · rintro ⟨k, hik, hkj, hk⟩
    have hle := h.start_le hik (hkj.trans_lt hj)
    refine ⟨hle.trans hk.1, hk.2.trans_le ?_⟩
    rcases Nat.lt_or_eq_of_le hkj with hlt | rfl
    · exact (sectorTop_le_start h hlt hj).trans (start_lt_sectorTop h hj).le
    · exact Nat.le_refl _
  · rintro ⟨hle, hlt⟩
    induction j, hij using Nat.le_induction with
    | base => exact ⟨i, Nat.le_refl i, Nat.le_refl i, hle, hlt⟩
    | succ j hij ih =>
      by_cases hbefore : a < info.sectorTop j
      · obtain ⟨k, hik, hkj, hk⟩ := ih (Nat.lt_of_succ_lt hj) hbefore
        exact ⟨k, hik, Nat.le_succ_of_le hkj, hk⟩
      · refine ⟨j + 1, Nat.le_succ_of_le hij, Nat.le_refl _, ?_, hlt⟩
        rw [FlashInfo.sectorTop, if_neg (by omega)] at hbefore
        exact Nat.le_of_not_lt hbefore

theorem selected_cons_of_taken (h : info.WellFormed) {i j : ℕ} (hij : i ≤ j)
    (hj : j < info.sectorCount) {t : List (ℤ × ℤ)} {a : ℕ} :
    Selected (info :: banks) (((i : ℤ), (j : ℤ)) :: t) a ↔
      ((info.start i).toNat ≤ a ∧ a < info.sectorTop j) ∨ Selected banks t a := by
  rw [selected_cons, ← exists_inSector_iff h hij hj]
  refine or_congr_left ⟨?_, ?_⟩
  · rintro ⟨-, k, hik, hkj, hk⟩
    exact ⟨k, by omega, by omega, hk⟩
  · rintro ⟨k, hik, hkj, hk⟩
    exact ⟨by dsimp only; omega, k, by dsimp only; omega, by dsimp only; omega, hk⟩

theorem selected_cons_of_passed {t : List (ℤ × ℤ)} {a : ℕ} :
    Selected (info :: banks) ((-1, -1) :: t) a ↔ Selected banks t a := by
  rw [selected_cons]
  exact or_iff_right fun h => absurd h.1 (by decide)

theorem not_selected_const {a : ℕ} : ¬Selected banks (banks.map fun _ => (-1, -1)) a := by
  induction banks with
  | nil => rintro ⟨e, he, -⟩; cases he
  | cons info banks ih => rwa [List.map_cons, selected_cons_of_passed]

theorem sectorTop_last (h : info.WellFormed) : info.sectorTop (info.sectorCount - 1) = info.top :=
  if_pos (Nat.sub_add_cancel h.sectors)

theorem endsAt_last (h : info.WellFormed) (htop : info.top = l + 1) :
    info.EndsAt l (info.sectorCount - 1) :=
  ⟨Nat.sub_one_lt_of_lt h.sectors, (sectorTop_last h).trans htop⟩

theorem selected_cons_of_part (h : info.WellFormed) {i : ℕ} (hi : info.StartsAt f i)
    {t : List (ℤ × ℤ)} {a : ℕ} :
    Selected (info :: banks) (((i : ℤ), (info.sectorCount : ℤ) - 1) :: t) a ↔
      (f ≤ a ∧ a < info.top) ∨ Selected banks t a := by
  have hpos := h.sectors
  have hcast : (info.sectorCount : ℤ) - 1 = (info.sectorCount - 1 : ℕ) := by omega
  rw [hcast, selected_cons_of_taken h (Nat.le_sub_one_of_lt hi.1) (Nat.sub_one_lt_of_lt hpos),
    hi.2, sectorTop_last h]

/-! ## When the loop succeeds -/

theorem fillLoop_cases (hs : Sound (info :: banks))
    (hfresh : Fresh (info :: banks) addrFirst.toNat) (hrange : addrFirst ≤ addrLast)
    (hrcode : (fillLoop addrLast (info :: banks) addrFirst).rcode = 0) :
    (¬(info.Known ∧ ∃ i, info.StartsAt addrFirst.toNat i) ∧
        ¬(info.Known ∧ ∃ j, info.EndsAt addrLast.toNat j) ∧
        fillLoop addrLast (info :: banks) addrFirst =
          (fillLoop addrLast banks addrFirst).cons (-1, -1) 0) ∨
      info.Known ∧ ∃ i, info.StartsAt addrFirst.toNat i ∧
        ((∃ j, info.EndsAt addrLast.toNat j ∧ fillLoop addrLast (info :: banks) addrFirst =
            (fillLoop addrLast banks (addrLast + 1)).cons (i, j) (j - i + 1)) ∨
          (info.top ≤ addrLast.toNat ∧ fillLoop addrLast (info :: banks) addrFirst =
            (fillLoop addrLast banks (info.bEnd + 1)).cons (i, info.sectorCount - 1)
              (info.sectorCount - 1 - i + 1))) := by
  by_cases hknown : info.Known
  · have hwf := hs.wellFormed info List.mem_cons_self hknown
    have hcount := hs.short info List.mem_cons_self
    by_cases hstarts : ∃ i, info.StartsAt addrFirst.toNat i
    · obtain ⟨i, hi⟩ := hstarts
      refine Or.inr ⟨hknown, i, hi, ?_⟩
      by_cases hends : ∃ j, info.EndsAt addrLast.toNat j
      · obtain ⟨j, hj⟩ := hends
        exact Or.inl ⟨j, hj, fillLoop_of_taken hwf hcount hknown hrange hi hj⟩
      · rcases Nat.lt_or_ge addrLast.toNat info.top with htop | htop
        · rw [fillLoop_of_inside hwf hcount hknown hrange hi (not_exists.mp hends) htop] at hrcode
          exact absurd hrcode one_ne_zero
        · exact Or.inr ⟨htop, fillLoop_of_part hwf hcount hknown hrange hi htop⟩
    · have hholds : ¬info.Holds addrFirst.toNat :=
        fun hholds => hstarts (hfresh info List.mem_cons_self hholds)
      by_cases hends : ∃ j, info.EndsAt addrLast.toNat j
      · obtain ⟨j, hj⟩ := hends
        rw [fillLoop_of_reverse hwf hcount hknown hrange (not_exists.mp hstarts) hj] at hrcode
        exact absurd hrcode one_ne_zero
      · exact Or.inl ⟨fun h => hstarts h.2, fun h => hends h.2,
          fillLoop_of_passed hwf hcount hknown hrange (not_exists.mp hstarts)
            (not_exists.mp hends) hholds⟩
  · exact Or.inl ⟨fun h => hknown h.1, fun h => hknown h.1, fillLoop_of_not_known hknown hrange⟩

theorem toNat_add_one_of_le (hrange : addrLast + 1 ≤ addrLast) : (addrLast + 1).toNat = 0 := by
  have hone : (1 : BitVec 32).toNat = 1 := rfl
  have hlt := addrLast.isLt
  rw [BitVec.le_def, BitVec.toNat_add, hone] at hrange
  rw [BitVec.toNat_add, hone]
  omega

theorem holds_of_selected (hs : Sound banks)
    (hfresh : addrFirst ≤ addrLast → Fresh banks addrFirst.toNat)
    (hrcode : (fillLoop addrLast banks addrFirst).rcode = 0) {a : ℕ}
    (hsel : Selected banks (fillLoop addrLast banks addrFirst).s a) : ∃ b ∈ banks, b.Holds a := by
  induction banks generalizing addrFirst with
  | nil => obtain ⟨e, he, -⟩ := hsel; cases he
  | cons info banks ih =>
    have htail (next : BitVec 32) (hfresh : next ≤ addrLast → Fresh banks next.toNat)
        (hrcode : (fillLoop addrLast banks next).rcode = 0)
        (hsel : Selected banks (fillLoop addrLast banks next).s a) :
        ∃ b ∈ info :: banks, b.Holds a := by
      obtain ⟨b, hb, hholds⟩ := ih hs.tail hfresh hrcode hsel
      exact ⟨b, List.mem_cons_of_mem _ hb, hholds⟩
    by_cases hrange : addrFirst ≤ addrLast
    · rcases fillLoop_cases hs (hfresh hrange) hrange hrcode with
        ⟨-, -, heq⟩ | ⟨hknown, i, hi, ⟨j, hj, heq⟩ | ⟨htop, heq⟩⟩
      · rw [heq] at hrcode hsel
        exact htail _ (fun h => (hfresh h).tail) hrcode (selected_cons_of_passed.mp hsel)
      · have hwf := hs.wellFormed info List.mem_cons_self hknown
        rw [heq] at hrcode hsel
        have hij := FlashInfo.StartsAt.le_endsAt hwf hi hj (BitVec.le_def.mp hrange)
        rcases (selected_cons_of_taken hwf hij hj.1).mp hsel with hin | hsel
        · have hle := hwf.sectorTop_le hj.1
          have hbase := hwf.start_le (Nat.zero_le i) hi.1
          exact ⟨info, List.mem_cons_self, hknown, by omega, by omega⟩
        · refine htail _ (fun h => ?_) hrcode hsel
          rw [toNat_add_one_of_le h]
          exact fresh_zero hs.tail
      · have hwf := hs.wellFormed info List.mem_cons_self hknown
        rw [heq] at hrcode hsel
        rcases (selected_cons_of_part hwf hi).mp hsel with hin | hsel
        · have hbase := hwf.start_le (Nat.zero_le i) hi.1
          have hf := hi.2
          exact ⟨info, List.mem_cons_self, hknown, by omega, hin.2⟩
        · refine htail _ (fun h => ?_) hrcode hsel
          have hlt := addrLast.isLt
          rw [toNat_bEnd_add_one hwf, Nat.mod_eq_of_lt (by omega)]
          exact fresh_top hs hknown
    · rw [fillLoop_of_lt (BitVec.not_le.mp hrange)] at hsel
      exact absurd hsel not_selected_const

theorem selected_of_startsAt (hs : Sound banks) (hfresh : Fresh banks addrFirst.toNat)
    (hrange : addrFirst ≤ addrLast) (hrcode : (fillLoop addrLast banks addrFirst).rcode = 0)
    (hstarts : ∃ b ∈ banks, b.Known ∧ ∃ i, b.StartsAt addrFirst.toNat i) :
    Selected banks (fillLoop addrLast banks addrFirst).s addrFirst.toNat ∧
      0 < (fillLoop addrLast banks addrFirst).count := by
  induction banks with
  | nil => obtain ⟨b, hb, -⟩ := hstarts; cases hb
  | cons info banks ih =>
    rcases fillLoop_cases hs hfresh hrange hrcode with
      ⟨hnot, -, heq⟩ | ⟨hknown, i, hi, ⟨j, hj, heq⟩ | ⟨htop, heq⟩⟩
    · obtain ⟨b, hb, hstart⟩ := hstarts
      have hne : b ≠ info := fun h => hnot (h ▸ hstart)
      have hb : b ∈ banks := List.mem_of_ne_of_mem hne hb
      rw [heq] at hrcode ⊢
      obtain ⟨hsel, hcount⟩ := ih hs.tail hfresh.tail hrcode ⟨b, hb, hstart⟩
      exact ⟨selected_cons_of_passed.mpr hsel, Int.add_pos_of_pos_of_nonneg hcount le_rfl⟩
    · have hwf := hs.wellFormed info List.mem_cons_self hknown
      have hij := FlashInfo.StartsAt.le_endsAt hwf hi hj (BitVec.le_def.mp hrange)
      have htop := start_lt_sectorTop hwf hj.1
      have hle := hwf.start_le hij hj.1
      have hf := hi.2
      have hnonneg := count_fillLoop_nonneg addrLast (addrLast + 1) banks
      rw [heq]
      exact ⟨(selected_cons_of_taken hwf hij hj.1).mpr (Or.inl ⟨by omega, by omega⟩),
        Int.add_pos_of_nonneg_of_pos hnonneg (by omega)⟩
    · have hwf := hs.wellFormed info List.mem_cons_self hknown
      have hholds := holds_of_startsAt hwf hknown hi
      have hlt := hi.1
      have hnonneg := count_fillLoop_nonneg addrLast (info.bEnd + 1) banks
      rw [heq]
      exact ⟨(selected_cons_of_part hwf hi).mpr (Or.inl ⟨le_rfl, hholds.2.2⟩),
        Int.add_pos_of_nonneg_of_pos hnonneg (by omega)⟩

theorem not_selected_of_not_startsAt (hs : Sound banks) (hfresh : Fresh banks addrFirst.toNat)
    (hrange : addrFirst ≤ addrLast) (hrcode : (fillLoop addrLast banks addrFirst).rcode = 0)
    (hstarts : ¬∃ b ∈ banks, b.Known ∧ ∃ i, b.StartsAt addrFirst.toNat i) {a : ℕ} :
    ¬Selected banks (fillLoop addrLast banks addrFirst).s a := by
  induction banks with
  | nil => rintro ⟨e, he, -⟩; cases he
  | cons info banks ih =>
    rcases fillLoop_cases hs hfresh hrange hrcode with ⟨-, -, heq⟩ | ⟨hknown, i, hi, -⟩
    · rw [heq] at hrcode ⊢
      rw [show (fillLoop addrLast banks addrFirst).cons (-1, -1) 0 = _ from rfl]
      refine fun hsel => ih hs.tail hfresh.tail hrcode ?_ (selected_cons_of_passed.mp hsel)
      rintro ⟨b, hb, hstart⟩
      exact hstarts ⟨b, List.mem_cons_of_mem _ hb, hstart⟩
    · exact absurd ⟨info, List.mem_cons_self, hknown, i, hi⟩ hstarts

/-! ## When other sectors are selected -/

/-- The selected sectors are those of the range. -/
def ExactFrom (addrLast : BitVec 32) (banks : List FlashInfo) (addrFirst : BitVec 32) : Prop :=
  ∀ a, Selected banks (fillLoop addrLast banks addrFirst).s a ↔
    addrFirst.toNat ≤ a ∧ a ≤ addrLast.toNat

theorem missed_cons_of_not (hstarts : ¬(info.Known ∧ ∃ i, info.StartsAt f i))
    (hends : ¬(info.Known ∧ ∃ j, info.EndsAt l j)) :
    Missed (info :: banks) f l ↔ Missed banks f l := by
  simp only [Missed, comes_cons_of_not hstarts, List.forall_mem_cons]
  exact and_congr_left fun _ => and_iff_right fun hknown j hj => hends ⟨hknown, j, hj⟩

theorem wraps_cons_of_not (hstarts : ¬(info.Known ∧ ∃ i, info.StartsAt f i)) :
    Wraps (info :: banks) f l ↔ Wraps banks f l := by
  simp only [Wraps, comes_cons_of_not hstarts]

theorem missed_cons_of_part (hs : Sound (info :: banks)) (hknown : info.Known) {i : ℕ}
    (hi : info.StartsAt f i) (htop : info.top ≤ l) :
    Missed (info :: banks) f l ↔ Missed banks info.top l := by
  have hwf := hs.wellFormed info List.mem_cons_self hknown
  have hholds : ¬info.Holds l := fun h => absurd h.2.2 (Nat.not_lt.mpr htop)
  have hends : ∀ j, ¬info.EndsAt l j := fun j hj => hholds (holds_of_endsAt hwf hknown hj)
  rw [Missed, Missed, List.forall_mem_cons]
  refine and_congr (and_iff_right fun _ => hends) (not_congr ?_)
  constructor
  · rintro ⟨x, rest, hcomes, hx⟩
    rcases (comes_cons_of_starts hs hknown hi).mp hcomes with ⟨rfl, -⟩ | hcomes
    · exact absurd hx hholds
    · exact ⟨x, rest, hcomes, hx⟩
  · rintro ⟨x, rest, hcomes, hx⟩
    exact ⟨x, rest, Comes.on hknown hi hcomes, hx⟩

theorem wraps_cons_of_part (hs : Sound (info :: banks)) (hknown : info.Known) {i : ℕ}
    (hi : info.StartsAt f i) (htop : info.top ≤ l) :
    Wraps (info :: banks) f l ↔ Wraps banks info.top l := by
  have hholds : ¬info.Holds l := fun h => absurd h.2.2 (Nat.not_lt.mpr htop)
  refine and_congr_right fun _ => ?_
  constructor
  · rintro ⟨x, rest, hcomes, hx, hy⟩
    rcases (comes_cons_of_starts hs hknown hi).mp hcomes with ⟨rfl, -⟩ | hcomes
    · exact absurd hx hholds
    · exact ⟨x, rest, hcomes, hx, hy⟩
  · rintro ⟨x, rest, hcomes, hx, hy⟩
    exact ⟨x, rest, Comes.on hknown hi hcomes, hx, hy⟩

theorem wraps_cons_of_holds (hs : Sound (info :: banks)) (hknown : info.Known) {i : ℕ}
    (hi : info.StartsAt f i) (hholds : info.Holds l) :
    Wraps (info :: banks) f l ↔
      l + 1 = 2 ^ 32 ∧ ∃ y ∈ banks, y.Known ∧ (y.start 0).toNat = 0 := by
  refine and_congr_right fun _ => ?_
  constructor
  · rintro ⟨x, rest, hcomes, hx, hy⟩
    rcases (comes_cons_of_starts hs hknown hi).mp hcomes with ⟨-, rfl⟩ | hcomes
    · exact hy
    · exact absurd hx (hs.not_holds hholds hcomes.mem)
  · exact fun hy => ⟨info, banks, Comes.here hknown hi, hholds, hy⟩

theorem not_missed_cons_of_holds (hknown : info.Known) {i : ℕ} (hi : info.StartsAt f i)
    (hholds : info.Holds l) : ¬Missed (info :: banks) f l :=
  fun h => h.2 ⟨info, banks, Comes.here hknown hi, hholds⟩

section Step

variable (hs : Sound (info :: banks)) (hknown : info.Known)

include hs hknown

theorem exactFrom_cons_of_part {i : ℕ} (hi : info.StartsAt addrFirst.toNat i)
    (htop : info.top ≤ addrLast.toNat)
    (heq : fillLoop addrLast (info :: banks) addrFirst =
      (fillLoop addrLast banks (info.bEnd + 1)).cons (i, info.sectorCount - 1)
        (info.sectorCount - 1 - i + 1))
    (hrcode : (fillLoop addrLast banks (info.bEnd + 1)).rcode = 0) :
    ExactFrom addrLast (info :: banks) addrFirst ↔ ExactFrom addrLast banks (info.bEnd + 1) := by
  have hwf := hs.wellFormed info List.mem_cons_self hknown
  have hlt := addrLast.isLt
  have hnext : (info.bEnd + 1).toNat = info.top := by
    rw [toNat_bEnd_add_one hwf, Nat.mod_eq_of_lt (by omega)]
  have hfirst := holds_of_startsAt hwf hknown hi
  have hbehind {a : ℕ} (hsel : Selected banks (fillLoop addrLast banks (info.bEnd + 1)).s a) :
      ¬(addrFirst.toNat ≤ a ∧ a < info.top) := by
    intro hin
    obtain ⟨b, hb, hholds⟩ := holds_of_selected hs.tail
      (fun _ => by rw [hnext]; exact fresh_top hs hknown) hrcode hsel
    exact hs.not_holds ⟨hknown, hfirst.2.1.trans hin.1, hin.2⟩ hb hholds
  have hle := hfirst.2.2
  refine forall_congr' fun a => ?_
  rw [heq, show ((fillLoop addrLast banks (info.bEnd + 1)).cons (i, info.sectorCount - 1)
    (info.sectorCount - 1 - i + 1)).s = _ :: _ from rfl, selected_cons_of_part hwf hi, hnext]
  constructor
  · intro hiff
    constructor
    · intro hsel
      have hrange := hiff.mp (Or.inr hsel)
      have hnot := hbehind hsel
      exact ⟨by omega, hrange.2⟩
    · intro hrange
      exact (hiff.mpr ⟨by omega, hrange.2⟩).resolve_left (by omega)
  · intro hiff
    rw [hiff]
    omega

theorem exactFrom_cons_of_taken {i j : ℕ} (hrange : addrFirst ≤ addrLast)
    (hi : info.StartsAt addrFirst.toNat i) (hj : info.EndsAt addrLast.toNat j)
    (hlt : addrLast.toNat + 1 < 2 ^ 32)
    (heq : fillLoop addrLast (info :: banks) addrFirst =
      (fillLoop addrLast banks (addrLast + 1)).cons (i, j) (j - i + 1)) :
    (fillLoop addrLast (info :: banks) addrFirst).rcode = 0 ∧
      ExactFrom addrLast (info :: banks) addrFirst := by
  have hwf := hs.wellFormed info List.mem_cons_self hknown
  have hbehind : addrLast < addrLast + 1 := by
    have hone : (1 : BitVec 32).toNat = 1 := rfl
    rw [BitVec.lt_def, BitVec.toNat_add, hone, Nat.mod_eq_of_lt hlt]
    exact Nat.lt_succ_self _
  have hij := FlashInfo.StartsAt.le_endsAt hwf hi hj (BitVec.le_def.mp hrange)
  rw [fillLoop_of_lt hbehind] at heq
  refine ⟨by rw [heq]; rfl, fun a => ?_⟩
  rw [heq, show (Ranges.cons (i, j) (j - i + 1) ⟨banks.map fun _ => (-1, -1), 0, 0⟩).s = _ :: _
    from rfl, selected_cons_of_taken hwf hij hj.1, or_iff_left not_selected_const, hi.2, hj.2,
    Nat.lt_succ_iff]

theorem exactFrom_cons_of_wrap {i j : ℕ} (hrange : addrFirst ≤ addrLast)
    (hi : info.StartsAt addrFirst.toNat i) (hj : info.EndsAt addrLast.toNat j)
    (hwrap : addrLast.toNat + 1 = 2 ^ 32)
    (heq : fillLoop addrLast (info :: banks) addrFirst =
      (fillLoop addrLast banks (addrLast + 1)).cons (i, j) (j - i + 1))
    (hrcode : (fillLoop addrLast banks (addrLast + 1)).rcode = 0) :
    ExactFrom addrLast (info :: banks) addrFirst ↔
      ¬∃ y ∈ banks, y.Known ∧ (y.start 0).toNat = 0 := by
  have hwf := hs.wellFormed info List.mem_cons_self hknown
  have hij := FlashInfo.StartsAt.le_endsAt hwf hi hj (BitVec.le_def.mp hrange)
  have hnext : (addrLast + 1).toNat = 0 := by
    have hone : (1 : BitVec 32).toNat = 1 := rfl
    rw [BitVec.toNat_add, hone, hwrap, Nat.mod_self]
  have hle : addrLast + 1 ≤ addrLast := by
    rw [BitVec.le_def, hnext]
    exact Nat.zero_le _
  have hfresh : Fresh banks (addrLast + 1).toNat := hnext ▸ fresh_zero hs.tail
  have hsel (a : ℕ) : Selected (info :: banks) (fillLoop addrLast (info :: banks) addrFirst).s a ↔
      (addrFirst.toNat ≤ a ∧ a ≤ addrLast.toNat) ∨
        Selected banks (fillLoop addrLast banks (addrLast + 1)).s a := by
    rw [heq, show ((fillLoop addrLast banks (addrLast + 1)).cons (i, j) (j - i + 1)).s = _ :: _
      from rfl, selected_cons_of_taken hwf hij hj.1, hi.2, hj.2, Nat.lt_succ_iff]
  constructor
  · rintro hexact ⟨y, hy, hyknown, hstart⟩
    have hywf := hs.tail.wellFormed y hy hyknown
    have hzero := (selected_of_startsAt hs.tail hfresh hle hrcode
      ⟨y, hy, hyknown, 0, startsAt_zero hywf (hstart.trans hnext.symm)⟩).1
    have hin := (hexact _).mp ((hsel _).mpr (Or.inr hzero))
    -- then the range begins at 0 as well, in another bank
    have hfirst : addrFirst.toNat = 0 := by omega
    have hholds := holds_of_startsAt hwf hknown hi
    have hyholds := holds_of_startsAt hywf hyknown (startsAt_zero hywf (hstart.trans hfirst.symm))
    exact hs.not_holds hholds hy hyholds
  · intro hnone a
    refine (hsel a).trans (or_iff_left ?_)
    refine not_selected_of_not_startsAt hs.tail hfresh hle hrcode ?_
    rintro ⟨y, hy, hyknown, k, hk⟩
    have hywf := hs.tail.wellFormed y hy hyknown
    have hbase := hywf.start_le (Nat.zero_le k) hk.1
    have hstart := hk.2
    exact hnone ⟨y, hy, hyknown, by omega⟩

end Step

/-- The loop succeeds with other sectors exactly when the range is missed or wraps. -/
def WrongIff (addrLast : BitVec 32) (banks : List FlashInfo) (addrFirst : BitVec 32) : Prop :=
  (fillLoop addrLast banks addrFirst).rcode = 0 ∧ ¬ExactFrom addrLast banks addrFirst ↔
    Missed banks addrFirst.toNat addrLast.toNat ∨ Wraps banks addrFirst.toNat addrLast.toNat

section Cases

variable (hs : Sound (info :: banks)) (hrange : addrFirst ≤ addrLast)
  (ih : ∀ next : BitVec 32, Fresh banks next.toNat → next ≤ addrLast →
    WrongIff addrLast banks next)

include hs hrange ih

theorem wrongIff_of_taken (hknown : info.Known) {i j : ℕ} (hi : info.StartsAt addrFirst.toNat i)
    (hj : info.EndsAt addrLast.toNat j) : WrongIff addrLast (info :: banks) addrFirst := by
  have hwf := hs.wellFormed info List.mem_cons_self hknown
  have hlast := holds_of_endsAt hwf hknown hj
  have heq : _ = (fillLoop addrLast banks (addrLast + 1)).cons (i, j) (j - i + 1) :=
    fillLoop_of_taken hwf (hs.short info List.mem_cons_self) hknown hrange hi hj
  rw [WrongIff, or_iff_right (not_missed_cons_of_holds hknown hi hlast),
    wraps_cons_of_holds hs hknown hi hlast]
  by_cases hwrap : addrLast.toNat + 1 = 2 ^ 32
  · -- no later bank has the last address, so the loop succeeds behind the bank
    have hmissed : Missed banks (addrLast + 1).toNat addrLast.toNat := by
      refine ⟨fun b hb hbknown k hk => ?_, fun ⟨x, _, hcomes, hx⟩ => ?_⟩
      · have hbwf := hs.tail.wellFormed b hb hbknown
        exact hs.not_holds hlast hb (holds_of_endsAt hbwf hbknown hk)
      · exact hs.not_holds hlast hcomes.mem hx
    have hone : (1 : BitVec 32).toNat = 1 := rfl
    have hnext : (addrLast + 1).toNat = 0 := by
      rw [BitVec.toNat_add, hone, hwrap, Nat.mod_self]
    have hle : addrLast + 1 ≤ addrLast := BitVec.le_def.mpr (hnext ▸ Nat.zero_le _)
    have hrcode := ((ih _ (hnext ▸ fresh_zero hs.tail) hle).mpr (Or.inl hmissed)).1
    rw [exactFrom_cons_of_wrap hs hknown hrange hi hj hwrap heq hrcode, not_not,
      and_iff_right hwrap, heq]
    exact and_iff_right hrcode
  · have hlt := addrLast.isLt
    have hexact := exactFrom_cons_of_taken hs hknown hrange hi hj (by omega) heq
    exact iff_of_false (fun h => h.2 hexact.2) fun h => hwrap h.1

theorem wrongIff_of_part (hknown : info.Known) {i : ℕ} (hi : info.StartsAt addrFirst.toNat i)
    (htop : info.top ≤ addrLast.toNat) : WrongIff addrLast (info :: banks) addrFirst := by
  have hwf := hs.wellFormed info List.mem_cons_self hknown
  have heq : _ = (fillLoop addrLast banks (info.bEnd + 1)).cons
      (i, info.sectorCount - 1) (info.sectorCount - 1 - i + 1) :=
    fillLoop_of_part hwf (hs.short info List.mem_cons_self) hknown hrange hi htop
  have hlt := addrLast.isLt
  have hnext : (info.bEnd + 1).toNat = info.top := by
    rw [toNat_bEnd_add_one hwf, Nat.mod_eq_of_lt (by omega)]
  have hle : info.bEnd + 1 ≤ addrLast := BitVec.le_def.mpr (hnext ▸ htop)
  have hiff := ih _ (hnext ▸ fresh_top hs hknown) hle
  have hrcode : (fillLoop addrLast (info :: banks) addrFirst).rcode =
    (fillLoop addrLast banks (info.bEnd + 1)).rcode := by rw [heq]; rfl
  rw [WrongIff, missed_cons_of_part hs hknown hi htop, wraps_cons_of_part hs hknown hi htop,
    ← hnext, ← Iff.eq hiff, hrcode]
  exact and_congr_right fun hrcode =>
    not_congr (exactFrom_cons_of_part hs hknown hi htop heq hrcode)

omit ih in
theorem wrongIff_of_inside (hknown : info.Known) {i : ℕ} (hi : info.StartsAt addrFirst.toNat i)
    (hends : ∀ j, ¬info.EndsAt addrLast.toNat j) (htop : addrLast.toNat < info.top) :
    WrongIff addrLast (info :: banks) addrFirst := by
  have hwf := hs.wellFormed info List.mem_cons_self hknown
  have hfirst := holds_of_startsAt hwf hknown hi
  have hlast : info.Holds addrLast.toNat :=
    ⟨hknown, hfirst.2.1.trans (BitVec.le_def.mp hrange), htop⟩
  rw [WrongIff, or_iff_right (not_missed_cons_of_holds hknown hi hlast),
    wraps_cons_of_holds hs hknown hi hlast,
    fillLoop_of_inside hwf (hs.short info List.mem_cons_self) hknown hrange hi hends htop]
  refine iff_of_false (fun h => one_ne_zero h.1) fun h => hends _ (endsAt_last hwf ?_)
  have := hwf.top_le
  omega

theorem wrongIff_of_not (hfresh : Fresh (info :: banks) addrFirst.toNat)
    (hstarts : ¬(info.Known ∧ ∃ i, info.StartsAt addrFirst.toNat i)) :
    WrongIff addrLast (info :: banks) addrFirst := by
  by_cases hends : info.Known ∧ ∃ j, info.EndsAt addrLast.toNat j
  · obtain ⟨hknown, j, hj⟩ := hends
    have hwf := hs.wellFormed info List.mem_cons_self hknown
    have hlast := holds_of_endsAt hwf hknown hj
    rw [WrongIff, fillLoop_of_reverse hwf (hs.short info List.mem_cons_self) hknown hrange
      (not_exists.mp fun h => hstarts ⟨hknown, h⟩) hj]
    refine iff_of_false (fun h => one_ne_zero h.1) ?_
    rintro (hmissed | ⟨-, x, rest, hcomes, hx, -⟩)
    · exact hmissed.1 info List.mem_cons_self hknown j hj
    · exact hs.not_holds hlast ((comes_cons_of_not hstarts).mp hcomes).mem hx
  · have heq : fillLoop addrLast (info :: banks) addrFirst =
        (fillLoop addrLast banks addrFirst).cons (-1, -1) 0 := by
      by_cases hknown : info.Known
      · exact fillLoop_of_passed (hs.wellFormed info List.mem_cons_self hknown)
          (hs.short info List.mem_cons_self) hknown hrange
          (fun i hi => hstarts ⟨hknown, i, hi⟩) (fun j hj => hends ⟨hknown, j, hj⟩)
          fun hholds => hstarts ⟨hknown, hfresh info List.mem_cons_self hholds⟩
      · exact fillLoop_of_not_known hknown hrange
    have hexact : ExactFrom addrLast (info :: banks) addrFirst ↔
        ExactFrom addrLast banks addrFirst := by
      refine forall_congr' fun a => iff_congr ?_ Iff.rfl
      rw [heq]
      exact selected_cons_of_passed
    have hrcode : (fillLoop addrLast (info :: banks) addrFirst).rcode =
      (fillLoop addrLast banks addrFirst).rcode := by rw [heq]; rfl
    rw [WrongIff, hexact, hrcode, missed_cons_of_not hstarts hends, wraps_cons_of_not hstarts]
    exact ih _ hfresh.tail hrange

end Cases

theorem wrong_iff (hs : Sound banks) (hfresh : Fresh banks addrFirst.toNat)
    (hrange : addrFirst ≤ addrLast) : WrongIff addrLast banks addrFirst := by
  induction banks generalizing addrFirst with
  | nil =>
    have hnot : ¬ExactFrom addrLast [] addrFirst := fun hexact =>
      not_selected_const ((hexact addrFirst.toNat).mpr ⟨le_rfl, BitVec.le_def.mp hrange⟩)
    refine iff_of_true ⟨rfl, hnot⟩ (Or.inl ⟨fun b hb => absurd hb List.not_mem_nil, ?_⟩)
    rintro ⟨x, rest, hcomes, -⟩
    cases hcomes
  | cons info banks ih =>
    have ih (next : BitVec 32) (hfresh : Fresh banks next.toNat) (hle : next ≤ addrLast) :
        WrongIff addrLast banks next := ih hs.tail hfresh hle
    by_cases hstarts : info.Known ∧ ∃ i, info.StartsAt addrFirst.toNat i
    · obtain ⟨hknown, i, hi⟩ := hstarts
      by_cases hends : ∃ j, info.EndsAt addrLast.toNat j
      · obtain ⟨j, hj⟩ := hends
        exact wrongIff_of_taken hs hrange ih hknown hi hj
      · rcases Nat.lt_or_ge addrLast.toNat info.top with htop | htop
        · exact wrongIff_of_inside hs hrange hknown hi (not_exists.mp hends) htop
        · exact wrongIff_of_part hs hrange ih hknown hi htop
    · exact wrongIff_of_not hs hrange ih hfresh hstarts

/-! ## The erase command -/

/-- **A layout of banks** whose sectors can be counted in a `short`. -/
structure ShortLayout extends FlashLayout where
  short : ∀ info ∈ banks, info.ShortCount

theorem ShortLayout.sound (layout : ShortLayout) : Sound layout.banks :=
  ⟨layout.wellFormed, layout.short, layout.disjoint⟩

/-- The sectors that are selected, if there are any, are those of the range; else nothing is erased
and an error is reported. -/
def ErasesRange (flashErase : FlashInfo → ℤ → ℤ → ℕ) (banks : List FlashInfo)
    (addrFirst addrLast : BitVec 32) : Prop :=
  let r := fillSectRanges banks addrFirst addrLast
  (r.rcode = 0 ∧ r.count ≠ 0 → ∀ a, Selected banks r.s a ↔
      addrFirst.toNat ≤ a ∧ a ≤ addrLast.toNat) ∧
    (¬(r.rcode = 0 ∧ r.count ≠ 0) →
      (flashSectErase flashErase banks addrFirst addrLast).1 = [] ∧
        (flashSectErase flashErase banks addrFirst addrLast).2 ≠ 0)

theorem flashSectErase_of_not {flashErase : FlashInfo → ℤ → ℤ → ℕ}
    (h : ¬((fillSectRanges banks addrFirst addrLast).rcode = 0 ∧
      (fillSectRanges banks addrFirst addrLast).count ≠ 0)) :
    (flashSectErase flashErase banks addrFirst addrLast).1 = [] ∧
      (flashSectErase flashErase banks addrFirst addrLast).2 ≠ 0 := by
  rw [flashSectErase, if_neg fun hboth => h hboth.symm]
  split_ifs with hrcode
  · exact ⟨rfl, one_ne_zero⟩
  · exact ⟨rfl, hrcode⟩

theorem count_eq_zero_of_not_startsAt (hs : Sound banks) (hrange : addrFirst ≤ addrLast)
    (hstarts : ∀ b ∈ banks, b.Known → ∀ i, ¬b.StartsAt addrFirst.toNat i) :
    (fillLoop addrLast banks addrFirst).count = 0 := by
  induction banks with
  | nil => rfl
  | cons info banks ih =>
    have htail := ih hs.tail fun b hb => hstarts b (List.mem_cons_of_mem _ hb)
    by_cases hknown : info.Known
    · have hcases : (fillLoop addrLast (info :: banks) addrFirst).count = 0 ∨
          _ = (fillLoop addrLast banks addrFirst).count :=
        count_fillLoop_of_not_starts (hs.wellFormed info List.mem_cons_self hknown)
          (hs.short info List.mem_cons_self) hknown hrange
          (hstarts info List.mem_cons_self hknown)
      rcases hcases with hzero | heq
      · exact hzero
      · exact heq.trans htail
    · rw [fillLoop_of_not_known hknown hrange]
      exact (Int.add_zero _).trans htail

theorem fresh_of_startsAt (hs : Sound banks)
    (hstarts : ∃ b ∈ banks, b.Known ∧ ∃ i, b.StartsAt f i) : Fresh banks f := by
  obtain ⟨b, hb, hknown, i, hi⟩ := hstarts
  have hholds := holds_of_startsAt (hs.wellFormed b hb hknown) hknown hi
  intro c hc hcholds
  by_cases heq : c = b
  · exact ⟨i, heq ▸ hi⟩
  · have hsymm : Std.Symm fun b c : FlashInfo => ∀ x, b.Holds x → ¬c.Holds x :=
      ⟨fun _ _ h x hc hb => h x hb hc⟩
    exact absurd hcholds (hs.disjoint.forall hb hc (Ne.symm heq) f hholds)

/-- **Exactly when the range is what is selected, or an error is reported**: no sector begins where
the range begins, or a sector ends where it ends or its end is come to, and no bank at 0 stands
behind one at the top of the address space. -/
theorem flashSectErase_exact_iff (layout : ShortLayout) (flashErase : FlashInfo → ℤ → ℤ → ℕ)
    {addrFirst addrLast : BitVec 32} (hrange : addrFirst ≤ addrLast) :
    ErasesRange flashErase layout.banks addrFirst addrLast ↔
      (∀ b ∈ layout.banks, b.Known → ∀ i, ¬b.StartsAt addrFirst.toNat i) ∨
        (¬Missed layout.banks addrFirst.toNat addrLast.toNat ∧
          ¬Wraps layout.banks addrFirst.toNat addrLast.toNat) := by
  have hs := layout.sound
  by_cases hstarts : ∃ b ∈ layout.banks, b.Known ∧ ∃ i, b.StartsAt addrFirst.toNat i
  · have hfresh := fresh_of_startsAt hs hstarts
    have hwrong := wrong_iff hs hfresh hrange
    have hnot : ¬∀ b ∈ layout.banks, b.Known → ∀ i, ¬b.StartsAt addrFirst.toNat i := by
      obtain ⟨b, hb, hknown, i, hi⟩ := hstarts
      exact fun hall => hall b hb hknown i hi
    rw [or_iff_right hnot, ← not_or, ← Iff.eq hwrong]
    constructor
    · rintro herases ⟨hrcode, hexact⟩
      exact hexact (herases.1 ⟨hrcode,
        (selected_of_startsAt hs hfresh hrange hrcode hstarts).2.ne'⟩)
    · intro hright
      refine ⟨fun hsome => ?_, flashSectErase_of_not⟩
      by_contra hexact
      exact hright ⟨hsome.1, hexact⟩
  · have hnone : ∀ b ∈ layout.banks, b.Known → ∀ i, ¬b.StartsAt addrFirst.toNat i :=
      fun b hb hknown i hi => hstarts ⟨b, hb, hknown, i, hi⟩
    refine iff_of_true ⟨fun hsome => ?_, flashSectErase_of_not⟩ (Or.inl hnone)
    exact absurd (count_eq_zero_of_not_startsAt hs hrange hnone) hsome.2

/-- One bank of four sectors. -/
def oneBank : ShortLayout where
  banks := [evenBank 0x100000 4]
  wellFormed info hinfo _ := by
    rw [List.mem_singleton.mp hinfo]
    exact wellFormed_evenBank (by decide) (by decide)
  disjoint := List.pairwise_singleton _ _
  short info hinfo := by
    rw [List.mem_singleton.mp hinfo]
    exact show 4 ≤ 2 ^ 15 by decide

/-- The first sector of the bank. -/
theorem flashSectErase_exact_iff_oneBank :
    (0x100000 : BitVec 32) ≤ 0x10ffff ∧
      (ErasesRange (fun _ _ _ => 0) oneBank.banks 0x100000 0x10ffff ↔
        (∀ b ∈ oneBank.banks, b.Known → ∀ i, ¬b.StartsAt (0x100000 : BitVec 32).toNat i) ∨
          (¬Missed oneBank.banks (0x100000 : BitVec 32).toNat (0x10ffff : BitVec 32).toNat ∧
            ¬Wraps oneBank.banks (0x100000 : BitVec 32).toNat (0x10ffff : BitVec 32).toNat)) :=
  ⟨by decide, flashSectErase_exact_iff oneBank (fun _ _ _ => 0) (by decide)⟩

/-- **A range that goes on behind the only bank**: the four sectors of the bank are erased, and
there is no error. -/
theorem not_flashSectErase_exact :
    ¬ ∀ (layout : ShortLayout) (flashErase : FlashInfo → ℤ → ℤ → ℕ)
      (addrFirst addrLast : BitVec 32), addrFirst ≤ addrLast →
        ErasesRange flashErase layout.banks addrFirst addrLast := by
  intro hall
  have herases := hall oneBank (fun _ _ _ => 0) 0x100000 0x14ffff (by decide)
  have hrcode : (fillLoop 0x14ffff oneBank.banks 0x100000).rcode = 0 := by decide
  have hcount : (fillLoop 0x14ffff oneBank.banks 0x100000).count ≠ 0 := by decide
  have hstarts : (evenBank 0x100000 4).StartsAt 0x100000 0 := by decide
  have hfresh : Fresh oneBank.banks (0x100000 : BitVec 32).toNat := fun b hb _ =>
    ⟨0, List.mem_singleton.mp hb ▸ hstarts⟩
  -- the last byte of the range would be in the bank
  have hsel := (herases.1 ⟨hrcode, hcount⟩ 0x14ffff).mpr (by decide)
  obtain ⟨b, hb, hholds⟩ := holds_of_selected oneBank.sound
    (fun _ => hfresh) hrcode hsel
  rw [List.mem_singleton.mp hb] at hholds
  exact absurd hholds.2.2 (by rw [top_evenBank (by decide) (by decide)]; decide)

end Flash
end EmevBsp
