import EmevBsp.Lmb.Alloc
import EmevBsp.Lmb.Reserve

/-!
# Calls that return -1

`lmb_reserve` looks for room before it writes, so a call that it refuses changes nothing.
`lmb_free` of a range inside a region first cuts the region off at the range and then adds the part
above it.  In a full table that part has no place, and the call returns -1 with the region cut
off.
-/

namespace EmevBsp
namespace Lmb

/-! ## The two calls -/

/-- The table of reserved regions, its count and the addresses it covers are as before. -/
structure Unchanged (s t : Lmb) : Prop where
  cnt : t.reserved.cnt = s.reserved.cnt
  region : t.reserved.region = s.reserved.region
  covered : covered t.reserved = covered s.reserved

/-- A call of `lmb_reserve` or `lmb_free` that returns -1 leaves the table as it is. -/
def AtomicOnFailure (s : Lmb) (base size : PhysAddr) : Prop :=
  (∀ t, lmbReserve s base size = some (-1, t) → Unchanged s t) ∧
    ∀ t, lmbFree s base size = some (-1, t) → Unchanged s t

/-- The range lies in the region `p`, as `lmb_free` tests it. -/
def Within (base size : PhysAddr) (p : LmbProperty) : Prop :=
  p.base ≤ base ∧ base + size ≤ p.base + p.size

instance (base size : PhysAddr) (p : LmbProperty) : Decidable (Within base size p) :=
  inferInstanceAs (Decidable (_ ∧ _))

instance (base size : PhysAddr) (p : LmbProperty) : Decidable (Touches base size p) :=
  inferInstanceAs (Decidable (_ ≠ _))

/-- The entries have no place for one more range: there are as many as there may be, none of them is
the range, and none touches it. -/
def NoPlace (l : List LmbProperty) (base size : PhysAddr) : Prop :=
  l.length = maxLmbRegions ∧ ∀ q ∈ l, q ≠ ⟨base, size⟩ ∧ ¬ Touches base size q

/-- Freeing the range loses what is above it: the first region that the range lies in reaches beyond
it on both sides, and once it is cut off, the entries have no place for the part above the range. -/
def LosesTail (rgn : LmbRegion) (base size : PhysAddr) : Prop :=
  ∃ pre p post, entries rgn = pre ++ p :: post ∧ (∀ q ∈ pre, ¬ Within base size q) ∧
    Within base size p ∧ p.base ≠ base ∧ p.base + p.size ≠ base + size ∧ p.base + p.size ≠ base ∧
    NoPlace (pre ++ ⟨p.base, base - p.base⟩ :: post) (base + size)
      (p.base + p.size - (base + size))

/-! ## Adding a range -/

variable {rgn rgn' : LmbRegion} {base size : PhysAddr}

theorem some_ne_neg {α : Type} {ret : ℤ} (h : 0 ≤ ret) (a b : α) :
    some (ret, a) ≠ some (-1, b) := by
  intro heq
  have hret : ret = -1 := congrArg Prod.fst (Option.some.inj heq)
  omega

theorem addFinish_one_ne_neg {i : ℕ} : lmbAddFinish rgn base size i 1 ≠ some (-1, rgn') := by
  rw [lmbAddFinish]
  split_ifs with hmeet hone hfull
  · intro h
    obtain ⟨r, -, heq⟩ := Option.map_eq_some_iff.mp h
    exact some_ne_neg (by decide) r rgn' (congrArg some heq)
  · exact some_ne_neg (by decide) rgn rgn'
  · exact absurd Nat.one_ne_zero hone
  · exact absurd Nat.one_ne_zero hone

/-- **`lmb_add_region` returns -1** on a table that has no place for the range, and leaves it. -/
theorem addRegion_eq_neg_iff (hcnt : rgn.cnt.toNat ≤ maxLmbRegions) :
    lmbAddRegion rgn base size = some (-1, rgn') ↔
      rgn' = rgn ∧ NoPlace (entries rgn) base size := by
  rw [NoPlace, length_entries, ← addStop_eq_none_iff]
  by_cases hzero : rgn.cnt = 0
  · have hlen : rgn.cnt.toNat = 0 := congrArg BitVec.toNat hzero
    rw [addRegion_empty hzero]
    refine iff_of_false (fun h => ?_) fun h => absurd (hlen.symm.trans h.2.1) (by decide)
    split at h
    · exact absurd h (by simp)
    · exact some_ne_neg le_rfl _ _ h
  by_cases hdummy : rgn.cnt = 1 ∧ (rgn.region 0).size = 0
  · have hlen : rgn.cnt.toNat = 1 := congrArg BitVec.toNat hdummy.1
    rw [lmbAddRegion, if_pos hdummy]
    exact iff_of_false (some_ne_neg le_rfl _ _) fun h => absurd (hlen.symm.trans h.2.1) (by decide)
  cases hstop : lmbAddStop rgn base size with
  | none =>
    rw [addRegion_of_alone (by bv_omega) hdummy hstop]
    by_cases hfull : maxLmbRegions ≤ rgn.cnt.toNat
    · rw [if_pos hfull]
      constructor
      · intro h
        exact ⟨(congrArg Prod.snd (Option.some.inj h)).symm, le_antisymm hcnt hfull, rfl⟩
      · rintro ⟨rfl, -⟩
        rfl
    · rw [if_neg hfull]
      exact iff_of_false (some_ne_neg le_rfl _ _) fun h => hfull h.2.1.ge
  | some i =>
    refine iff_of_false (fun h => ?_) fun h => absurd h.2.2 (Option.some_ne_none i)
    rw [lmbAddRegion, if_neg hdummy, hstop] at h
    dsimp only at h
    split_ifs at h with hsame
    · exact some_ne_neg le_rfl _ _ h
    · exact addFinish_one_ne_neg h

theorem addRegion_refused {ret : ℤ} (hcnt : rgn.cnt.toNat ≤ maxLmbRegions)
    (hadd : lmbAddRegion rgn base size = some (ret, rgn')) (hret : ret < 0) :
    ret = -1 ∧ rgn' = rgn ∧ NoPlace (entries rgn) base size := by
  have hneg : ret = -1 := by
    by_cases hzero : rgn.cnt = 0
    · have hnonneg := (entries_empty_add hzero hadd).1
      omega
    · have hpos : 0 < rgn.cnt.toNat := by bv_omega
      obtain ⟨ret', rgn'', hadd', hout⟩ := addRegion_cases hpos hcnt base size
      obtain ⟨rfl, rfl⟩ := Prod.mk.inj (Option.some.inj (hadd'.symm.trans hadd))
      exact (hout.of_neg hret).1
  rw [hneg] at hadd
  exact ⟨hneg, (addRegion_eq_neg_iff hcnt).mp hadd⟩

/-- **`lmb_reserve` is atomic**, on every table. -/
theorem reserve_unchanged {s t : Lmb} (hcnt : s.reserved.cnt.toNat ≤ maxLmbRegions)
    (h : lmbReserve s base size = some (-1, t)) : Unchanged s t := by
  obtain ⟨⟨ret, r⟩, hadd, heq⟩ := Option.map_eq_some_iff.mp h
  obtain ⟨rfl, rfl⟩ := Prod.mk.inj heq
  obtain ⟨rfl, -⟩ := (addRegion_eq_neg_iff hcnt).mp hadd
  exact ⟨rfl, rfl, rfl⟩

/-! ## Freeing a range -/

theorem freeFind_eq_some_iff {i : ℕ} :
    lmbFreeFind rgn base (base + size) = some i ↔
      ∃ pre p post, entries rgn = pre ++ p :: post ∧ pre.length = i ∧
        (∀ q ∈ pre, ¬ Within base size q) ∧ Within base size p := by
  rw [lmbFreeFind, List.find?_range_eq_some]
  constructor
  · rintro ⟨hp, hi, hbefore⟩
    obtain ⟨pre, post, hsplit, rfl⟩ := exists_split (List.mem_range.mp hi)
    refine ⟨pre, _, post, hsplit, rfl, fun q hq => ?_, of_decide_eq_true hp⟩
    obtain ⟨j, hj, rfl⟩ := List.getElem_of_mem hq
    have hregion : pre[j] = rgn.region j := by
      rw [← getElem_entries rgn j (by rw [hsplit, List.length_append]; omega)]
      simp only [hsplit, List.getElem_append_left hj]
    have hj' := hbefore j hj
    rw [Bool.not_eq_true', decide_eq_false_iff_not] at hj'
    rw [hregion]
    exact hj'
  · rintro ⟨pre, p, post, hsplit, rfl, hbefore, hp⟩
    obtain ⟨hlt, hregion⟩ := getElem_split hsplit
    refine ⟨?_, List.mem_range.mpr hlt, fun j hj => ?_⟩
    · rw [hregion]
      exact decide_eq_true hp
    · rw [Bool.not_eq_true', decide_eq_false_iff_not]
      exact hbefore _ (mem_of_lt_length hsplit hj)

theorem cut_eq_self_iff (p : LmbProperty) (base : PhysAddr) :
    (⟨p.base, base - p.base⟩ : LmbProperty) = p ↔ p.base + p.size = base := by
  obtain ⟨b, n⟩ := p
  simp only [LmbProperty.mk.injEq, true_and]
  constructor
  · rintro rfl
    bv_omega
  · rintro rfl
    bv_omega

/-- **What a call of `lmb_free` that returns -1 has done**: nothing, or it has cut the region
off. -/
theorem free_eq_neg_iff {s t : Lmb} (hcnt : s.reserved.cnt.toNat ≤ maxLmbRegions) :
    lmbFree s base size = some (-1, t) ↔
      (t = s ∧ ∀ q ∈ entries s.reserved, ¬ Within base size q) ∨
      ∃ pre p post, entries s.reserved = pre ++ p :: post ∧ (∀ q ∈ pre, ¬ Within base size q) ∧
        Within base size p ∧ p.base ≠ base ∧ p.base + p.size ≠ base + size ∧
        NoPlace (pre ++ ⟨p.base, base - p.base⟩ :: post) (base + size)
          (p.base + p.size - (base + size)) ∧
        t = { s with reserved := setRegion s.reserved pre.length ⟨p.base, base - p.base⟩ } := by
  rw [lmbFree]
  cases hfind : lmbFreeFind s.reserved base (base + size) with
  | none =>
    have hnone : ∀ q ∈ entries s.reserved, ¬ Within base size q := by
      intro q hq hin
      obtain ⟨i, hi, rfl⟩ := mem_entries.mp hq
      have hi' := List.find?_range_eq_none.mp hfind i hi
      rw [Bool.not_eq_true', decide_eq_false_iff_not] at hi'
      exact hi' hin
    constructor
    · intro h
      exact .inl ⟨(congrArg Prod.snd (Option.some.inj h)).symm, hnone⟩
    · rintro (⟨rfl, -⟩ | ⟨pre, p, post, hsplit, -, hp, -⟩)
      · rfl
      · exact absurd hp (hnone p (by simp [hsplit]))
  | some i =>
    obtain ⟨pre, p, post, hsplit, rfl, hbefore, hp⟩ := freeFind_eq_some_iff.mp hfind
    have hfirst : ∀ pre' p' post', entries s.reserved = pre' ++ p' :: post' →
        (∀ q ∈ pre', ¬ Within base size q) → Within base size p' →
          pre' = pre ∧ p' = p ∧ post' = post := by
      intro pre' p' post' hsplit' hbefore' hp'
      have hfind' := freeFind_eq_some_iff.mpr ⟨pre', p', post', hsplit', rfl, hbefore', hp'⟩
      have hlen : pre'.length = pre.length := Option.some.inj (hfind'.symm.trans hfind)
      obtain ⟨rfl, hrest⟩ := List.append_inj (hsplit'.symm.trans hsplit) hlen
      obtain ⟨rfl, rfl⟩ := List.cons.inj hrest
      exact ⟨rfl, rfl, rfl⟩
    have hregion := (getElem_split hsplit).2
    have hcnt' : (setRegion s.reserved pre.length ⟨p.base, base - p.base⟩).cnt.toNat ≤
        maxLmbRegions := hcnt
    constructor
    · intro h
      obtain ⟨⟨ret, r⟩, hfree, heq⟩ := Option.map_eq_some_iff.mp h
      obtain ⟨rfl, rfl⟩ := Prod.mk.inj heq
      simp only [lmbFreeRegion, hregion] at hfree
      split_ifs at hfree with hwhole hfront hend
      · obtain ⟨r', -, hr'⟩ := Option.map_eq_some_iff.mp hfree
        exact absurd (congrArg some hr') (some_ne_neg le_rfl r' r)
      · exact absurd hfree (some_ne_neg le_rfl _ r)
      · exact absurd hfree (some_ne_neg le_rfl _ r)
      · obtain ⟨rfl, hplace⟩ := (addRegion_eq_neg_iff hcnt').mp hfree
        rw [entries_setRegion_split hsplit] at hplace
        exact .inr ⟨pre, p, post, hsplit, hbefore, hp, hfront, hend, hplace, rfl⟩
    · rintro (⟨-, hnone⟩ | ⟨pre', p', post', hsplit', hbefore', hp', hfront, hend, hplace, rfl⟩)
      · exact absurd hp (hnone p (by simp [hsplit]))
      · obtain ⟨rfl, rfl, rfl⟩ := hfirst pre' p' post' hsplit' hbefore' hp'
        refine Option.map_eq_some_iff.mpr ⟨(-1, setRegion s.reserved pre'.length _), ?_, rfl⟩
        simp only [lmbFreeRegion, hregion]
        rw [if_neg (fun h => hfront h.1), if_neg hfront, if_neg hend]
        refine (addRegion_eq_neg_iff hcnt').mpr ⟨rfl, ?_⟩
        rw [entries_setRegion_split hsplit]
        exact hplace

/-- **Atomicity on a table of at most `MAX_LMB_REGIONS` entries.** -/
theorem atomicOnFailure_iff_of_cnt_le {s : Lmb} (hcnt : s.reserved.cnt.toNat ≤ maxLmbRegions) :
    AtomicOnFailure s base size ↔ ¬ LosesTail s.reserved base size := by
  constructor
  · rintro hatomic ⟨pre, p, post, hsplit, hbefore, hp, hfront, hend, hcut, hplace⟩
    have hfree := (free_eq_neg_iff hcnt).mpr
      (.inr ⟨pre, p, post, hsplit, hbefore, hp, hfront, hend, hplace, rfl⟩)
    have hregion := congrFun (hatomic.2 _ hfree).region pre.length
    rw [setRegion_self, (getElem_split hsplit).2, cut_eq_self_iff] at hregion
    exact hcut hregion
  · intro hkeeps
    refine ⟨fun t => reserve_unchanged hcnt, fun t hfree => ?_⟩
    rcases (free_eq_neg_iff hcnt).mp hfree with ⟨rfl, -⟩ |
      ⟨pre, p, post, hsplit, hbefore, hp, hfront, hend, hplace, rfl⟩
    · exact ⟨rfl, rfl, rfl⟩
    · have hcut : p.base + p.size = base := by
        by_contra hcut
        exact hkeeps ⟨pre, p, post, hsplit, hbefore, hp, hfront, hend, hcut, hplace⟩
      rw [(cut_eq_self_iff p base).mpr hcut, ← (getElem_split hsplit).2, setRegion,
        Function.update_eq_self]
      exact ⟨rfl, rfl, rfl⟩

/-- **Atomicity.**  In every map that any calls lead to, a call that returns -1 changes nothing
exactly when it is not a call of `lmb_free` that loses what is above its range. -/
theorem atomicOnFailure_iff {s : Lmb} (h : lmbSystem.Reachable s) (base size : PhysAddr) :
    AtomicOnFailure s base size ↔ ¬ LosesTail s.reserved base size :=
  atomicOnFailure_iff_of_cnt_le (cnt_le_of_reachable h).2

/-! ### A full table -/

/-- The map after a list of calls. -/
def runCalls (calls : List LmbCall) (s : Lmb) : Option Lmb :=
  calls.foldlM (fun s call => call.run s) s

theorem reachable_runCalls {calls : List LmbCall} {s t : Lmb} (h : lmbSystem.Reachable s)
    (hrun : runCalls calls s = some t) : lmbSystem.Reachable t := by
  induction calls generalizing s with
  | nil =>
    obtain rfl := Option.some.inj hrun
    exact h
  | cons call calls ih =>
    rw [runCalls, List.foldlM_cons] at hrun
    obtain ⟨s', hcall, hrest⟩ := Option.bind_eq_some_iff.mp hrun
    exact ih (h.step hcall) hrest

/-- Eight regions that do not touch. -/
def eightRegions : List LmbProperty :=
  (List.range 8).map fun i => ⟨0x10000 * BitVec.ofNat 32 (i + 1), 0x3000⟩

theorem entries_runCalls_eightRegions :
    (runCalls (eightRegions.map fun p => .reserve p.base p.size) lowMemory).map
      (fun s => entries s.reserved) = some eightRegions := by
  decide +kernel

/-- A range apart from all eight regions is neither reserved nor freed. -/
theorem atomicOnFailure_eightRegions :
    ∃ s, lmbSystem.Reachable s ∧ AtomicOnFailure s 0xa0000 0x1000 ∧
      lmbReserve s 0xa0000 0x1000 = some (-1, s) ∧ lmbFree s 0xa0000 0x1000 = some (-1, s) := by
  obtain ⟨s, hrun, hent⟩ := Option.map_eq_some_iff.mp entries_runCalls_eightRegions
  have hs := reachable_runCalls reachable_lowMemory hrun
  have hcnt := (cnt_le_of_reachable hs).2
  have houtside : ∀ q ∈ entries s.reserved, ¬ Within 0xa0000 0x1000 q := by
    rw [hent]
    decide +kernel
  refine ⟨s, hs, (atomicOnFailure_iff hs _ _).mpr ?_, ?_, (free_eq_neg_iff hcnt).mpr ?_⟩
  · rintro ⟨pre, p, post, hsplit, -, hp, -⟩
    exact houtside p (by simp [hsplit]) hp
  · have hplace : NoPlace (entries s.reserved) 0xa0000 0x1000 := by
      rw [hent]
      exact ⟨rfl, by decide +kernel⟩
    rw [lmbReserve, (addRegion_eq_neg_iff hcnt).mpr ⟨rfl, hplace⟩]
    rfl
  · exact Or.inl ⟨rfl, houtside⟩

/-- **Freeing the middle of the first of eight regions** returns -1 and loses its end. -/
theorem not_atomicOnFailure :
    ¬ ∀ s, lmbSystem.Reachable s → ∀ base size, AtomicOnFailure s base size := by
  intro hall
  obtain ⟨s, hrun, hent⟩ := Option.map_eq_some_iff.mp entries_runCalls_eightRegions
  have hs := reachable_runCalls reachable_lowMemory hrun
  refine (atomicOnFailure_iff_of_cnt_le (cnt_le_of_reachable hs).2).mp (hall s hs 0x11000 0x1000) ?_
  refine ⟨[], ⟨0x10000, 0x3000⟩, eightRegions.tail, hent, fun q hq => absurd hq List.not_mem_nil,
    by decide, by decide, by decide, by decide, ?_⟩
  exact ⟨rfl, by decide +kernel⟩

end Lmb
end EmevBsp
