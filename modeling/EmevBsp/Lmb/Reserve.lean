import EmevBsp.Library.TransitionSystem
import EmevBsp.Lmb.Apart

/-!
# The reservation map

From `lmb_init` on, ranges are reserved and freed.  The table of reserved regions is to cover
exactly what is reserved: a call changes the covered addresses by its range, and the entries
stay sorted.

Two calls do not do this.

* `lmb_free` of the only region leaves `cnt = 0`.  The next `lmb_reserve` then looks at the
  places beyond `cnt`: it writes its range to the first place only if the region left over
  there is above it (`LeftOver`), and where the first two places touch it joins them with a
  loop that leaves the array (`addRegion_eq_none_iff`).
* `lmb_free` of a range inside a region shrinks the region before it looks for a free entry
  for the part above the range.  With a full table that part is lost (`freeRegion_split`).

The other calls are as they should be.

* `Kept`: the tables that reserving and freeing leave.
* `Kept.addRegion`, `addRegion_empty_iff`: adding a range to a table with and without entries.
* `freeRegion_edge`, `freeRegion_split`: taking one out.
* `reserved_of_reachable`: **the covered addresses change by the range of a call exactly when
  the call is none of these two.**
-/

namespace EmevBsp
namespace Lmb

open IntervalList

/-! ## The reserved table -/

/-- What reserving and freeing leave of the table: its entries are apart, or there is only
the dummy of `lmb_init`. -/
structure Kept (rgn : LmbRegion) : Prop where
  cnt_le : rgn.cnt.toNat ≤ maxLmbRegions
  entries : entries rgn = [⟨0, 0⟩] ∨ Apart (entries rgn)

theorem Kept.addRegion {rgn : LmbRegion} (h : Kept rgn) (hpos : 0 < rgn.cnt.toNat)
    {base size : PhysAddr} (hsize : 0 < size.toNat) (he : base.toNat + size.toNat < 2 ^ 32)
    (hdisj : Disjoint (range base size) (covered rgn)) :
    ∃ ret rgn', lmbAddRegion rgn base size = some (ret, rgn') ∧
      (0 ≤ ret → Kept rgn' ∧ covered rgn' = covered rgn ∪ range base size) := by
  rcases h.entries with hent | hent
  · obtain ⟨rgn', hadd, hent'⟩ := addRegion_dummy hent rfl base size
    refine ⟨0, rgn', hadd, fun _ => ⟨⟨?_, Or.inr ?_⟩, ?_⟩⟩
    · rw [← length_entries, hent']
      exact Nat.one_le_of_lt (Nat.lt_succ_self 7 : 7 < 8)
    · rw [hent']
      exact apart_singleton hsize he
    · rw [covered, covered, hent, hent']
      simp [range, lo, hi]
  · obtain ⟨ret, rgn', hadd, hout⟩ := addRegion_cases hpos h.cnt_le base size
    refine ⟨ret, rgn', hadd, fun hret => ?_⟩
    obtain ⟨hapart, hcover⟩ := hout.apart hent hsize he hdisj hret
    refine ⟨⟨?_, Or.inr hapart⟩, hcover⟩
    rw [← length_entries]
    exact hout.length_le ((length_entries rgn).le.trans h.cnt_le)

theorem ico_eq_range_iff {base size : PhysAddr} (hsize : 0 < size.toNat) (p : LmbProperty) :
    Set.Ico (lo p) (hi p) = range base size ↔ p = ⟨base, size⟩ := by
  constructor
  · intro heq
    have hlt : base.toNat < base.toNat + size.toNat := Nat.lt_add_of_pos_right hsize
    obtain ⟨hlo, hhi⟩ := (Set.Ico_subset_Ico_iff hlt).mp heq.ge
    obtain ⟨hlo', hhi'⟩ := (Set.Ico_subset_Ico_iff (by omega)).mp heq.le
    obtain ⟨b, n⟩ := p
    have hb : b = base := BitVec.eq_of_toNat_eq (le_antisymm hlo hlo')
    subst hb
    have hn : n.toNat = size.toNat := by
      unfold hi at *
      simp only at *
      omega
    rw [BitVec.eq_of_toNat_eq hn]
  · rintro rfl
    rfl

/-- The place the code must find in a table without entries: the region left over there is
above the range to add, or is that range. -/
def LeftOver (rgn : LmbRegion) (base size : PhysAddr) : Prop :=
  base < (rgn.region 0).base ∨ rgn.region 0 = ⟨base, size⟩

/-- **A range is added to a table without entries** as it should be only when what was left
over in the first place allows it. -/
theorem addRegion_empty_iff {rgn rgn' : LmbRegion} (hcnt : rgn.cnt = 0) {base size : PhysAddr}
    {ret : ℤ} (hsize : 0 < size.toNat) (hadd : lmbAddRegion rgn base size = some (ret, rgn')) :
    covered rgn' = covered rgn ∪ range base size ↔ LeftOver rgn base size := by
  have hlen : (entries rgn).length = 0 := by
    rw [length_entries, hcnt]
    rfl
  have hnil : covered rgn = ∅ := by
    rw [covered, List.eq_nil_of_length_eq_zero hlen, cover_nil]
  have hcov : covered rgn' =
      Set.Ico (lo (if base < (rgn.region 0).base then ⟨base, size⟩ else rgn.region 0))
        (hi (if base < (rgn.region 0).base then ⟨base, size⟩ else rgn.region 0)) := by
    rw [covered, (entries_empty_add hcnt hadd).2, cover_cons, cover_nil, Set.union_empty]
  rw [hnil, Set.empty_union, hcov, ico_eq_range_iff hsize, LeftOver]
  split_ifs with hbase
  · simp [hbase]
  · simp [hbase]

theorem Kept.addRegion_empty {rgn rgn' : LmbRegion} (hcnt : rgn.cnt = 0) {base size : PhysAddr}
    {ret : ℤ} (hsize : 0 < size.toNat) (he : base.toNat + size.toNat < 2 ^ 32)
    (hadd : lmbAddRegion rgn base size = some (ret, rgn')) (hleft : LeftOver rgn base size) :
    Kept rgn' := by
  have hent : Lmb.entries rgn' = [⟨base, size⟩] := by
    rw [(entries_empty_add hcnt hadd).2]
    rcases hleft with hlt | heq
    · rw [if_pos hlt]
    · rw [heq, ite_self]
  refine ⟨?_, Or.inr ?_⟩
  · rw [← length_entries, hent]
    exact Nat.one_le_of_lt (Nat.lt_succ_self 7 : 7 < 8)
  · rw [hent]
    exact apart_singleton hsize he

/-! ## Freeing a range -/

section

variable {rgn : LmbRegion} {pre post : List LmbProperty} {p : LmbProperty} {base size : PhysAddr}

theorem getElem_split {rgn : LmbRegion} {pre post : List LmbProperty} {p : LmbProperty}
    (hsplit : entries rgn = pre ++ p :: post) :
    pre.length < rgn.cnt.toNat ∧ rgn.region pre.length = p := by
  have hlen : rgn.cnt.toNat = pre.length + (post.length + 1) := by
    rw [← length_entries, hsplit, List.length_append, List.length_cons]
  refine ⟨by omega, ?_⟩
  rw [← getElem_entries rgn pre.length (by rw [length_entries]; omega)]
  simp [hsplit]

variable (h : Apart (entries rgn)) (hsplit : entries rgn = pre ++ p :: post)
  (hlo : lo p ≤ base.toNat) (hhi : base.toNat + size.toNat ≤ hi p)

include h hsplit hlo hhi

theorem freeFind_eq : lmbFreeFind rgn base (base + size) = some pre.length := by
  obtain ⟨hlt, hp⟩ := getElem_split hsplit
  have hplt := h.hi_lt p (by simp [hsplit])
  have hend : (base + size).toNat = base.toNat + size.toNat := BitVec.toNat_add_of_lt (by omega)
  refine List.find?_range_eq_some.mpr ⟨?_, List.mem_range.mpr hlt, fun j hj => ?_⟩
  · have hsum : (p.base + p.size).toNat = hi p := BitVec.toNat_add_of_lt hplt
    rw [hp, decide_eq_true_eq, BitVec.le_def, BitVec.le_def, hend, hsum]
    exact ⟨hlo, hhi⟩
  · have hmem : rgn.region j ∈ pre := mem_of_lt_length hsplit hj
    have hsep := h.separated
    rw [hsplit] at hsep
    obtain ⟨-, -, hbefore⟩ := separated_append.mp hsep
    have hlt := hbefore _ hmem p List.mem_cons_self
    have hjlt := h.hi_lt (rgn.region j) (by simp [hsplit, hmem])
    have hsum : ((rgn.region j).base + (rgn.region j).size).toNat = hi (rgn.region j) :=
      BitVec.toNat_add_of_lt hjlt
    rw [Bool.not_eq_true', decide_eq_false_iff_not, BitVec.le_def, BitVec.le_def, hend, hsum]
    omega

end

section

variable {base size : PhysAddr} {p : LmbProperty} (hp : hi p < 2 ^ 32)
  (hhi : base.toNat + size.toNat ≤ hi p)

include hp hhi

theorem front_bounds (hlo : lo p = base.toNat) :
    lo ⟨base + size, p.size - size⟩ = base.toNat + size.toNat ∧
      hi ⟨base + size, p.size - size⟩ = hi p := by
  have hsz : hi p = lo p + p.size.toNat := rfl
  have hbegin : lo ⟨base + size, p.size - size⟩ = base.toNat + size.toNat :=
    BitVec.toNat_add_of_lt (by omega)
  have hsub : (p.size - size).toNat = p.size.toNat - size.toNat :=
    BitVec.toNat_sub_of_le (BitVec.le_def.mpr (by omega))
  have hsum : hi ⟨base + size, p.size - size⟩ =
    lo ⟨base + size, p.size - size⟩ + (p.size - size).toNat := rfl
  exact ⟨hbegin, by omega⟩

theorem tail_bounds : (base + size).toNat = base.toNat + size.toNat ∧
    (p.base + p.size - (base + size)).toNat = hi p - (base.toNat + size.toNat) := by
  have hend : (base + size).toNat = base.toNat + size.toNat := BitVec.toNat_add_of_lt (by omega)
  have hsum : (p.base + p.size).toNat = hi p := BitVec.toNat_add_of_lt hp
  refine ⟨hend, ?_⟩
  rw [BitVec.toNat_sub_of_le (BitVec.le_def.mpr (by omega)), hsum, hend]

end

theorem back_bounds {base size : PhysAddr} {p : LmbProperty} (hlo : lo p ≤ base.toNat)
    (hend : hi p = base.toNat + size.toNat) :
    lo ⟨p.base, p.size - size⟩ = lo p ∧ hi ⟨p.base, p.size - size⟩ = base.toNat := by
  have hsz : hi p = lo p + p.size.toNat := rfl
  have hsub : (p.size - size).toNat = p.size.toNat - size.toNat :=
    BitVec.toNat_sub_of_le (BitVec.le_def.mpr (by omega))
  have hsum : hi ⟨p.base, p.size - size⟩ = lo p + (p.size - size).toNat := rfl
  exact ⟨rfl, by omega⟩

theorem cut_bounds {base : PhysAddr} {p : LmbProperty} (hlo : lo p ≤ base.toNat) :
    lo ⟨p.base, base - p.base⟩ = lo p ∧ hi ⟨p.base, base - p.base⟩ = base.toNat := by
  have hsub : (base - p.base).toNat = base.toNat - lo p :=
    BitVec.toNat_sub_of_le (BitVec.le_def.mpr hlo)
  have hsum : hi ⟨p.base, base - p.base⟩ = lo p + (base - p.base).toNat := rfl
  exact ⟨rfl, by omega⟩

theorem lmbFreeRegion_eq {rgn : LmbRegion} {p : LmbProperty} {i : ℕ} {base size : PhysAddr}
    (hregion : rgn.region i = p) (hp : hi p < 2 ^ 32)
    (hhi : base.toNat + size.toNat ≤ hi p) :
    lmbFreeRegion rgn base size i =
      if lo p = base.toNat ∧ hi p = base.toNat + size.toNat then
        (lmbRemoveRegion rgn i).map fun rgn' => (0, rgn')
      else if lo p = base.toNat then
        some (0, setRegion rgn i ⟨base + size, p.size - size⟩)
      else if hi p = base.toNat + size.toNat then
        some (0, setRegion rgn i ⟨p.base, p.size - size⟩)
      else lmbAddRegion (setRegion rgn i ⟨p.base, base - p.base⟩) (base + size)
        (p.base + p.size - (base + size)) := by
  have hend : (base + size).toNat = base.toNat + size.toNat := BitVec.toNat_add_of_lt (by omega)
  have hsum : (p.base + p.size).toNat = hi p := BitVec.toNat_add_of_lt hp
  have hbegin : p.base = base ↔ lo p = base.toNat := BitVec.toNat_eq
  have hstop : p.base + p.size = base + size ↔ hi p = base.toNat + size.toNat := by
    rw [BitVec.toNat_eq, hend, hsum]
  simp only [lmbFreeRegion, hregion, hbegin, hstop]

section

variable {rgn : LmbRegion} {pre post : List LmbProperty} {p : LmbProperty} {base size : PhysAddr}
  (h : Apart (entries rgn)) (hcnt : rgn.cnt.toNat ≤ maxLmbRegions)
  (hsplit : entries rgn = pre ++ p :: post)
  (hlo : lo p ≤ base.toNat) (hhi : base.toNat + size.toNat ≤ hi p)

theorem entries_setRegion_split (hsplit : entries rgn = pre ++ p :: post) (q : LmbProperty) :
    entries (setRegion rgn pre.length q) = pre ++ q :: post := by
  rw [entries_setRegion, hsplit, List.set_append_right _ _ le_rfl, Nat.sub_self,
    List.set_cons_zero]

include h hcnt hsplit hlo hhi

theorem freeRegion_edge (hedge : lo p = base.toNat ∨ hi p = base.toNat + size.toNat) :
    ∃ rgn', lmbFreeRegion rgn base size pre.length = some (0, rgn') ∧ Kept rgn' ∧
      covered rgn' = covered rgn \ range base size := by
  obtain ⟨hlt, hp⟩ := getElem_split hsplit
  have hplt := h.hi_lt p (by simp [hsplit])
  have hpos := h.separated.lt p (by simp [hsplit])
  have hapart : Apart (pre ++ p :: post) := hsplit ▸ h
  have hsub : range base size ⊆ Set.Ico (lo p) (hi p) := Set.Ico_subset_Ico hlo hhi
  -- one region is replaced by a smaller one
  have hshrink : ∀ q, lo q < hi q → lo p ≤ lo q → hi q ≤ hi p →
      Set.Ico (lo q) (hi q) = Set.Ico (lo p) (hi p) \ range base size →
      Kept (setRegion rgn pre.length q) ∧
        covered (setRegion rgn pre.length q) = covered rgn \ range base size := by
    intro q hq hqlo hqhi hico
    have hent := entries_setRegion_split hsplit q
    refine ⟨⟨hcnt, Or.inr ?_⟩, ?_⟩
    · rw [hent]
      exact hapart.carve hq hqlo hqhi
    · rw [covered, covered, hent, hsplit]
      exact hapart.cover_carve hsub hico
  rw [lmbFreeRegion_eq hp hplt hhi]
  by_cases hwhole : lo p = base.toNat ∧ hi p = base.toNat + size.toNat
  · obtain ⟨rgn', hrem, hent⟩ := entries_removeRegion hlt hcnt
    have hent' : entries rgn' = pre ++ post := by
      rw [hent, hsplit, List.eraseIdx_append_of_length_le le_rfl, Nat.sub_self,
        List.eraseIdx_cons_zero]
    refine ⟨rgn', by rw [if_pos hwhole, hrem]; rfl, ⟨?_, Or.inr ?_⟩, ?_⟩
    · rw [← length_entries, hent', List.length_append]
      rw [← length_entries, hsplit, List.length_append, List.length_cons] at hcnt
      omega
    · rw [hent']
      exact hapart.erase
    · rw [covered, covered, hent', hsplit]
      refine IntervalList.cover_carve (m := []) hapart.separated hsub ?_
      rw [cover_nil, hwhole.1, hwhole.2, range, Set.sdiff_self]
  · rw [if_neg hwhole]
    by_cases hfront : lo p = base.toNat
    · rw [if_pos hfront]
      obtain ⟨hqlo, hqhi⟩ := front_bounds hplt hhi hfront
      obtain ⟨hkept, hcov⟩ := hshrink ⟨base + size, p.size - size⟩ (by omega) (by omega)
        (by omega) (by
          ext a
          rw [hqlo, hqhi, range]
          simp only [Set.mem_sdiff, Set.mem_Ico]
          omega)
      exact ⟨_, rfl, hkept, hcov⟩
    · have hend := hedge.resolve_left hfront
      rw [if_neg hfront, if_pos hend]
      obtain ⟨hqlo, hqhi⟩ := back_bounds hlo hend
      obtain ⟨hkept, hcov⟩ := hshrink ⟨p.base, p.size - size⟩ (by omega) (by omega)
        (by omega) (by
          ext a
          rw [hqlo, hqhi, range, ← hend]
          simp only [Set.mem_sdiff, Set.mem_Ico]
          omega)
      exact ⟨_, rfl, hkept, hcov⟩

/-- **A range inside a region is freed** as it should be when the table has room for the part
above it, or the range is empty.  Without room that part is lost. -/
theorem freeRegion_split (hbegin : lo p < base.toNat) (hend : base.toNat + size.toNat < hi p) :
    ∃ ret rgn', lmbFreeRegion rgn base size pre.length = some (ret, rgn') ∧
      (covered rgn' = covered rgn \ range base size ↔
        (0 < size.toNat → rgn.cnt.toNat < maxLmbRegions)) ∧
      ((0 < size.toNat → rgn.cnt.toNat < maxLmbRegions) → Kept rgn') := by
  obtain ⟨hlt, hp⟩ := getElem_split hsplit
  have hplt := h.hi_lt p (by simp [hsplit])
  have hapart : Apart (pre ++ p :: post) := hsplit ▸ h
  obtain ⟨q, hq⟩ : ∃ q : LmbProperty, q = ⟨p.base, base - p.base⟩ := ⟨_, rfl⟩
  obtain ⟨hqlo, hqhi⟩ : lo q = lo p ∧ hi q = base.toNat := hq ▸ cut_bounds hlo
  -- the table with the part below the range
  have hent := entries_setRegion_split hsplit q
  have hapart' : Apart (entries (setRegion rgn pre.length q)) := by
    rw [hent]
    exact hapart.carve (by omega) (by omega) (by omega)
  have hcov : covered (setRegion rgn pre.length q) =
      covered rgn \ Set.Ico base.toNat (hi p) := by
    rw [covered, covered, hent, hsplit]
    refine hapart.cover_carve (Set.Ico_subset_Ico_left hlo) ?_
    ext a
    rw [hqlo, hqhi]
    simp only [Set.mem_sdiff, Set.mem_Ico]
    omega
  -- the part above it
  obtain ⟨htbase, htsize⟩ := tail_bounds hplt hhi
  have htail : range (base + size) (p.base + p.size - (base + size)) =
      Set.Ico (base.toNat + size.toNat) (hi p) := by
    rw [range, htbase, htsize, Nat.add_sub_cancel' hend.le]
  have hdisj : Disjoint (range (base + size) (p.base + p.size - (base + size)))
      (covered (setRegion rgn pre.length q)) := by
    rw [htail, hcov]
    refine Set.disjoint_left.mpr fun a ha hmem => hmem.2 ⟨?_, ha.2⟩
    exact (Nat.le_add_right _ _).trans ha.1
  have htpos : 0 < (p.base + p.size - (base + size)).toNat := by omega
  have htlt : (base + size).toNat + (p.base + p.size - (base + size)).toNat < 2 ^ 32 := by omega
  have htouch : ∀ x ∈ entries (setRegion rgn pre.length q),
      Touches (base + size) (p.base + p.size - (base + size)) x ↔
        lo x = hi p ∨ base.toNat + size.toNat = hi x := by
    intro x hx
    rw [touches_iff htlt (hapart'.hi_lt x hx), htbase, htsize, Nat.add_sub_cancel' hend.le]
  rw [lmbFreeRegion_eq hp hplt hhi, if_neg (by omega), if_neg (by omega), if_neg (by omega), ← hq]
  have hpos : 0 < (setRegion rgn pre.length q).cnt.toNat := Nat.zero_lt_of_lt hlt
  obtain ⟨ret, rgn', hadd, hout⟩ :=
    addRegion_cases hpos hcnt (base + size) (p.base + p.size - (base + size))
  refine ⟨ret, rgn', hadd, ?_⟩
  by_cases hret : 0 ≤ ret
  · obtain ⟨hkept, hcover⟩ := hout.apart hapart' htpos htlt hdisj hret
    have hroom : 0 < size.toNat → rgn.cnt.toNat < maxLmbRegions := by
      intro hsize
      rw [← cnt_setRegion rgn pre.length q, ← length_entries]
      refine hout.length_lt hret (fun x hx hzero => ?_) (fun hmem => ?_) fun x hx hx' => ?_
      · have hxlt := hapart'.separated.lt x hx
        unfold lo hi at hxlt
        rw [hzero] at hxlt
        simp at hxlt
      · have hbase : (base + size).toNat ∈
            range (base + size) (p.base + p.size - (base + size)) := ⟨le_rfl, by omega⟩
        exact Set.disjoint_left.mp hdisj hbase
          ⟨_, hmem, le_rfl, Nat.lt_add_of_pos_right htpos⟩
      · have hside := (htouch x hx).mp hx'
        rw [hent] at hx
        have halone := hapart.ne_of_mem_carve (by omega) (by omega) hend hx (by omega)
        exact hside.elim halone.1 halone.2
    refine ⟨iff_of_true ?_ hroom, fun _ => ⟨?_, Or.inr hkept⟩⟩
    · have hadd : covered rgn' = covered (setRegion rgn pre.length q) ∪
          range (base + size) (p.base + p.size - (base + size)) := hcover
      rw [hadd, hcov, htail, range]
      refine sdiff_Ico_union_Ico (Nat.le_add_right _ _) hend.le fun a ha => ?_
      exact ⟨p, by simp [hsplit], hlo.trans ((Nat.le_add_right _ _).trans ha.1), ha.2⟩
    · rw [← length_entries]
      exact hout.length_le ((length_entries _).le.trans hcnt)
  · -- the table is full, and the part above the range is not put back
    obtain ⟨-, hsame, hlen, hfree⟩ := hout.of_neg (not_le.mp hret)
    have hqmem : q ∈ entries (setRegion rgn pre.length q) := by simp [hent]
    have hsize : 0 < size.toNat := by
      refine Nat.pos_of_ne_zero fun hzero => hfree q hqmem ((htouch q hqmem).mpr (Or.inr ?_))
      omega
    have hroom : ¬ (0 < size.toNat → rgn.cnt.toNat < maxLmbRegions) := by
      rw [length_entries, cnt_setRegion] at hlen
      intro hroom
      have := hroom hsize
      omega
    refine ⟨iff_of_false (fun heq => ?_) hroom, fun h => absurd h hroom⟩
    have hcov' : covered rgn' = covered rgn \ Set.Ico base.toNat (hi p) := by
      rw [← hcov, covered, hsame, covered]
    have hmem : base.toNat + size.toNat ∈ covered rgn \ range base size :=
      ⟨⟨p, by simp [hsplit], by omega, hend⟩, fun hin => absurd hin.2 (lt_irrefl _)⟩
    rw [← heq, hcov'] at hmem
    exact hmem.2 ⟨Nat.le_add_right _ _, hend⟩

end

/-! ## Runs -/

/-- The two calls. -/
inductive ReserveOp where
  | reserve (base size : PhysAddr)
  | free (base size : PhysAddr)

/-- What a call is to do to the covered addresses. -/
def ReserveOp.apply : ReserveOp → Set ℕ → Set ℕ
  | .reserve base size, s => s ∪ range base size
  | .free base size, s => s \ range base size

/-- A successful call of `lmb_reserve` with a range that is not empty, does not wrap and is
disjoint from what is reserved, or a call of `lmb_free` with a range inside one region. -/
inductive Step : Lmb → ReserveOp → Lmb → Prop where
  | reserve (s t : Lmb) (base size : PhysAddr) (ret : ℤ) :
      0 < size.toNat → base.toNat + size.toNat < 2 ^ 32 →
      Disjoint (range base size) (covered s.reserved) → 0 ≤ ret →
      lmbReserve s base size = some (ret, t) → Step s (.reserve base size) t
  | free (s t : Lmb) (base size : PhysAddr) (p : LmbProperty) (ret : ℤ) :
      p ∈ entries s.reserved → lo p ≤ base.toNat → base.toNat + size.toNat ≤ hi p →
      lmbFree s base size = some (ret, t) → Step s (.free base size) t

/-- The reservation map from `lmb_init` on, whatever the structure held before. -/
def reserveSystem : TransitionSystem Lmb ReserveOp where
  init s := ∃ lmb, s = lmbInit lmb
  step := Step

/-- The calls that find the table as they need it: a range is reserved in a table without
entries only when the first place allows it, and a range inside a region is freed only when
there is room for the part above it. -/
def Fits (s : Lmb) : ReserveOp → Prop
  | .reserve base size => s.reserved.cnt = 0 → LeftOver s.reserved base size
  | .free base size => ∀ p ∈ entries s.reserved, lo p < base.toNat →
      base.toNat + size.toNat < hi p → 0 < size.toNat → s.reserved.cnt.toNat < maxLmbRegions

theorem kept_init (lmb : Lmb) : Kept (lmbInit lmb).reserved := by
  refine ⟨Nat.one_le_of_lt (Nat.lt_succ_self 7 : 7 < 8), Or.inl ?_⟩
  simp [entries, lmbInit, initRegion, setRegion]

theorem reserve_step {s t : Lmb} {base size : PhysAddr} {ret : ℤ} (h : Kept s.reserved)
    (hsize : 0 < size.toNat) (he : base.toNat + size.toNat < 2 ^ 32)
    (hdisj : Disjoint (range base size) (covered s.reserved)) (hret : 0 ≤ ret)
    (hcall : lmbReserve s base size = some (ret, t)) :
    (covered t.reserved = covered s.reserved ∪ range base size ↔
      Fits s (.reserve base size)) ∧ (Fits s (.reserve base size) → Kept t.reserved) := by
  obtain ⟨⟨ret', rgn'⟩, hadd, heq⟩ := Option.map_eq_some_iff.mp hcall
  obtain ⟨rfl, rfl⟩ := Prod.mk.inj heq
  by_cases hzero : s.reserved.cnt = 0
  · have hiff := addRegion_empty_iff hzero hsize hadd
    refine ⟨hiff.trans ⟨fun hleft _ => hleft, fun hfits => hfits hzero⟩, fun hfits => ?_⟩
    exact Kept.addRegion_empty hzero hsize he hadd (hfits hzero)
  · have hpos : 0 < s.reserved.cnt.toNat := by bv_omega
    obtain ⟨ret'', rgn'', hadd', hres⟩ := h.addRegion hpos hsize he hdisj
    obtain ⟨rfl, rfl⟩ := Prod.mk.inj (Option.some.inj (hadd'.symm.trans hadd))
    obtain ⟨hkept, hcov⟩ := hres hret
    exact ⟨iff_of_true hcov fun h0 => absurd h0 hzero, fun _ => hkept⟩

theorem free_dummy {rgn : LmbRegion} (hent : entries rgn = [⟨0, 0⟩]) :
    lmbFreeFind rgn 0 (0 + 0) = some 0 ∧
      ∃ rgn', lmbFreeRegion rgn 0 0 0 = some (0, rgn') ∧ entries rgn' = [] := by
  have hsplit : entries rgn = [] ++ ⟨0, 0⟩ :: [] := hent
  obtain ⟨hlt', hregion'⟩ := getElem_split hsplit
  have hlt : 0 < rgn.cnt.toNat := hlt'
  have hregion : rgn.region 0 = ⟨0, 0⟩ := hregion'
  have hcnt : rgn.cnt.toNat ≤ maxLmbRegions := by
    rw [← length_entries, hent]
    decide
  obtain ⟨rgn', hrem, hent'⟩ := entries_removeRegion hlt hcnt
  refine ⟨List.find?_range_eq_some.mpr ⟨?_, List.mem_range.mpr hlt, ?_⟩, rgn', ?_, ?_⟩
  · rw [hregion]
    decide
  · exact fun j hj => absurd hj (Nat.not_lt_zero j)
  · rw [lmbFreeRegion_eq hregion (by decide) (by decide), if_pos (by decide)]
    exact congrArg (Option.map _) hrem
  · rw [hent', hent]
    rfl

theorem free_step {s t : Lmb} {base size : PhysAddr} {p : LmbProperty} {ret : ℤ}
    (h : Kept s.reserved) (hp : p ∈ entries s.reserved) (hlo : lo p ≤ base.toNat)
    (hhi : base.toNat + size.toNat ≤ hi p) (hcall : lmbFree s base size = some (ret, t)) :
    (covered t.reserved = covered s.reserved \ range base size ↔ Fits s (.free base size)) ∧
      (Fits s (.free base size) → Kept t.reserved) := by
  rcases h.entries with hent | hent
  · have hp0 : p = ⟨0, 0⟩ := List.mem_singleton.mp (hent ▸ hp)
    have hp0' : hi p = 0 := by rw [hp0]; rfl
    have hbase : base = 0 := by bv_omega
    have hsize : size = 0 := by bv_omega
    subst hbase hsize
    obtain ⟨hfind, rgn', hfree, hent'⟩ := free_dummy hent
    rw [lmbFree, hfind] at hcall
    simp only [hfree, Option.map_some, Option.some.injEq, Prod.mk.injEq] at hcall
    obtain ⟨-, rfl⟩ := hcall
    refine ⟨iff_of_true ?_ fun q _ hlt => absurd hlt (Nat.not_lt_zero _), fun _ => ⟨?_, Or.inr ?_⟩⟩
    · rw [covered, covered, hent, hent']
      simp [lo, hi]
    · rw [← length_entries, hent']
      exact Nat.zero_le _
    · rw [hent']
      exact ⟨separated_nil, by simp⟩
  · obtain ⟨pre, post, hsplit⟩ := List.append_of_mem hp
    have hfind := freeFind_eq hent hsplit hlo hhi
    rw [lmbFree, hfind] at hcall
    obtain ⟨⟨ret', rgn'⟩, hfree, heq⟩ := Option.map_eq_some_iff.mp hcall
    obtain ⟨rfl, rfl⟩ := Prod.mk.inj heq
    by_cases hedge : lo p = base.toNat ∨ hi p = base.toNat + size.toNat
    · obtain ⟨rgn'', hfree', hkept, hcov⟩ := freeRegion_edge hent h.cnt_le hsplit hlo hhi hedge
      obtain ⟨-, rfl⟩ := Prod.mk.inj (Option.some.inj (hfree'.symm.trans hfree))
      refine ⟨iff_of_true hcov fun q hq hqlo hqhi hsize => ?_, fun _ => hkept⟩
      have hqp : q = p := hent.separated.eq_of_mem hq hp (a := base.toNat)
        ⟨by omega, by omega⟩ ⟨hlo, by omega⟩
      rw [hqp] at hqlo hqhi
      omega
    · obtain ⟨hbegin, hend⟩ := not_or.mp hedge
      obtain ⟨ret'', rgn'', hfree', hiff, hkept⟩ :=
        freeRegion_split hent h.cnt_le hsplit hlo hhi (by omega) (by omega)
      obtain ⟨-, rfl⟩ := Prod.mk.inj (Option.some.inj (hfree'.symm.trans hfree))
      have hfits : Fits s (.free base size) ↔
          (0 < size.toNat → s.reserved.cnt.toNat < maxLmbRegions) :=
        ⟨fun hfits => hfits p hp (by omega) (by omega), fun hroom _ _ _ _ => hroom⟩
      exact ⟨hiff.trans hfits.symm, fun hf => hkept (hfits.mp hf)⟩

/-- **One call** on a kept table does what it is to do exactly when the table fits it, and the
table is then kept. -/
theorem step_iff {s t : Lmb} {op : ReserveOp} (h : Kept s.reserved) (hstep : Step s op t) :
    (covered t.reserved = op.apply (covered s.reserved) ↔ Fits s op) ∧
      (Fits s op → Kept t.reserved) := by
  cases hstep with
  | reserve _ base size ret hsize he hdisj hret hcall =>
    exact reserve_step h hsize he hdisj hret hcall
  | free _ base size p ret hp hlo hhi hcall => exact free_step h hp hlo hhi hcall

theorem kept_of_reachable {s : Lmb} (h : (reserveSystem.restrict Fits).Reachable s) :
    Kept s.reserved := by
  refine TransitionSystem.Reachable.invariant_restrict (I := fun s => Kept s.reserved)
    (fun s hs => ?_) (fun s op t hs hfits hstep => ?_) h
  · obtain ⟨lmb, rfl⟩ := hs
    exact kept_init lmb
  · exact (step_iff hs hstep).2 hfits

theorem Kept.sorted {rgn : LmbRegion} (h : Kept rgn) :
    (Lmb.entries rgn).Pairwise fun p q => p.base < q.base := by
  rcases h.entries with hent | hent
  · rw [hent]
    exact List.pairwise_singleton _ _
  · refine hent.separated.gaps.imp_of_mem fun {p q} hp _ hgap => ?_
    have hlt := hent.separated.lt p hp
    exact BitVec.lt_def.mpr (hlt.trans hgap)

/-- **The reservation map.**  In every run of calls that find the table as they need it, the
table has at most `MAX_LMB_REGIONS` entries, sorted by their base, and a further call changes
the covered addresses by exactly its range if and only if it finds the table so, too. -/
theorem reserved_of_reachable {s : Lmb} (h : (reserveSystem.restrict Fits).Reachable s) :
    s.reserved.cnt.toNat ≤ maxLmbRegions ∧
    (entries s.reserved).Pairwise (fun p q => p.base < q.base) ∧
    ∀ op t, reserveSystem.step s op t →
      (covered t.reserved = op.apply (covered s.reserved) ↔ Fits s op) := by
  have hkept := kept_of_reachable h
  exact ⟨hkept.cnt_le, hkept.sorted, fun op t hstep => (step_iff hkept hstep).1⟩

/-! ### A region reserved after the only one was freed -/

/-- A map whose places hold zero. -/
def blank : Lmb :=
  lmbInit ⟨⟨0, 0, fun _ => ⟨0, 0⟩⟩, ⟨0, 0, fun _ => ⟨0, 0⟩⟩⟩

/-- The map when `[0x1000, 0x2000)` is in the first of `cnt` places. -/
def firstPage (cnt : BitVec 32) : Lmb :=
  { blank with reserved := { setRegion blank.reserved 0 ⟨0x1000, 0x1000⟩ with cnt := cnt } }

theorem covered_firstPage : covered (firstPage 1).reserved = Set.Ico 0x1000 0x2000 := by
  have hent : entries (firstPage 1).reserved = [⟨0x1000, 0x1000⟩] := rfl
  rw [covered, hent, cover_cons, cover_nil, Set.union_empty]
  rfl

theorem covered_empty : covered (firstPage 0).reserved = ∅ := by
  have hent : entries (firstPage 0).reserved = [] := rfl
  rw [covered, hent, cover_nil]

theorem step_firstPage : Step blank (.reserve 0x1000 0x1000) (firstPage 1) := by
  refine Step.reserve _ _ _ _ 0 (by decide) (by decide) ?_ le_rfl rfl
  have hent : entries blank.reserved = [⟨0, 0⟩] := rfl
  rw [covered, hent, cover_cons, cover_nil, Set.union_empty, show Set.Ico (lo ⟨0, 0⟩) (hi ⟨0, 0⟩) =
    (∅ : Set ℕ) from Set.Ico_self 0]
  exact Set.disjoint_empty _

theorem step_firstPage_free : Step (firstPage 1) (.free 0x1000 0x1000) (firstPage 0) :=
  Step.free _ _ _ _ ⟨0x1000, 0x1000⟩ 0 (List.mem_cons_self) (by decide) (by decide) rfl

/-- **What is reserved next is not covered.**  The first page is still in the first place, and
with it the map covers the first page again. -/
theorem not_covered_of_reachable :
    ∃ s op t, reserveSystem.Reachable s ∧ reserveSystem.step s op t ∧
      covered t.reserved ≠ op.apply (covered s.reserved) := by
  refine ⟨firstPage 0, .reserve 0x8000 0x1000, firstPage 1, ?_, ?_, fun heq => ?_⟩
  · have hinit : reserveSystem.Reachable blank := .init ⟨_, rfl⟩
    exact (hinit.step step_firstPage).step step_firstPage_free
  · refine Step.reserve _ _ _ _ 0 (by decide) (by decide) ?_ le_rfl rfl
    rw [covered_empty]
    exact Set.disjoint_empty _
  · rw [covered_firstPage, covered_empty] at heq
    have hmem : 0x1000 ∈ (ReserveOp.reserve 0x8000 0x1000).apply ∅ := by
      rw [← heq]
      exact ⟨le_rfl, by decide⟩
    rcases hmem with hmem | hmem
    · exact hmem
    · exact absurd hmem.1 (by decide)

/-- In the run that reserves and frees the first page the table has no entry left, and its
further calls are as they should be when the range begins below that page. -/
theorem reserved_of_reachable_firstPage :
    (entries (firstPage 0).reserved).Pairwise (fun p q => p.base < q.base) ∧
      ∀ t, Step (firstPage 0) (.reserve 0x800 0x100) t →
        covered t.reserved = covered (firstPage 0).reserved ∪ range 0x800 0x100 := by
  have hinit : (reserveSystem.restrict Fits).Reachable blank := .init ⟨_, rfl⟩
  have hfirst : Fits blank (.reserve 0x1000 0x1000) := fun h0 => absurd h0 (by decide)
  have hfree : Fits (firstPage 1) (.free 0x1000 0x1000) := by
    intro p hp hlo
    have hp' : p = ⟨0x1000, 0x1000⟩ := List.mem_singleton.mp hp
    rw [hp'] at hlo
    exact absurd hlo (by decide)
  have hrun : (reserveSystem.restrict Fits).Reachable (firstPage 0) :=
    (hinit.step ⟨hfirst, step_firstPage⟩).step ⟨hfree, step_firstPage_free⟩
  obtain ⟨-, hsorted, hstep⟩ := reserved_of_reachable hrun
  exact ⟨hsorted, fun t ht => (hstep _ t ht).mpr fun _ => Or.inl (by decide)⟩

end Lmb
end EmevBsp
