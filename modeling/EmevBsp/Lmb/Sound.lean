import EmevBsp.Lmb.Cover
import EmevBsp.Lmb.Stops
import Mathlib.Order.Interval.Set.Disjoint

/-!
# When an allocation is sound

The caller of `lmb_alloc_base` takes the address it gets for the begin of `size` bytes of memory
that nobody else has, and that nobody else will get.  The sums and differences of 32 bits break
this in several ways: the subtraction from a limit below the size wraps, so does the end of a
region at the top of the address space, and an entry of the table whose length wraps when the
range is joined to it does not cover the range.  A table without entries keeps the region that
was left over in its first place.

`AllocFits` names them all, at the place where the search stops, and is exact.

* `disjoint_covered_iff`: when what seems free to the search is free.
* `subset_covered_iff`: when what was added is covered.
* `allocBase_sound`: the call is sound exactly when its inputs fit.
-/

namespace EmevBsp
namespace Lmb

open IntervalList

/-! ## What is to hold -/

/-- The address `r` and the map `lmb'` are right as the result of an allocation that found a
range: it is aligned, in one memory region, not past the top of the address space or the limit,
shares nothing with what was reserved before, and is reserved now. -/
structure SoundResult (lmb : Lmb) (size align maxAddr r : PhysAddr) (lmb' : Lmb) : Prop where
  dvd : align.toNat ∣ r.toNat
  memory : ∃ m ∈ entries lmb.memory, Holds m r.toNat (r.toNat + size.toNat)
  end_le : r.toNat + size.toNat ≤ 2 ^ 32
  limit : maxAddr ≠ 0 → r.toNat + size.toNat ≤ maxAddr.toNat
  free : Disjoint (range r size) (covered lmb.reserved)
  reserved : range r size ⊆ covered lmb'.reserved

/-- The call returns, and an address that is not zero is right. -/
def AllocSound (lmb : Lmb) (size align maxAddr : PhysAddr) : Prop :=
  ∃ r lmb', lmbAllocBase lmb size align maxAddr = some (r, lmb') ∧
    (r ≠ 0 → SoundResult lmb size align maxAddr r lmb')

/-- The inputs for which the allocation does what it is to do, where the search stops at `b` in
the memory region `m`.

* The range ends in the address space.
* A limit is not below the size; where the end of `m` wraps, the range ends below the limit.
* A reserved region that reaches the top of the address space begins above the range, and if the
  range itself reaches the top, the reserved regions end below it.
* In a table without entries the left-over regions of the first two places do not touch, and
  the first of them begins above the range or holds it.
* The entry that the rounded range is joined to holds the range, so that no length wraps. -/
structure AllocFits (lmb : Lmb) (size align maxAddr : PhysAddr) (m : LmbProperty)
    (b : PhysAddr) : Prop where
  end_le : b.toNat + size.toNat ≤ 2 ^ 32
  limit : maxAddr ≠ 0 → hi m < 2 ^ 32 ∧ size.toNat ≤ maxAddr.toNat ∨
    2 ^ 32 ≤ hi m ∧ b.toNat + size.toNat ≤ maxAddr.toNat
  reserved : ∀ v ∈ entries lmb.reserved, 2 ^ 32 ≤ hi v → b.toNat + size.toNat ≤ lo v
  top : b.toNat + size.toNat = 2 ^ 32 → ∀ v ∈ entries lmb.reserved, v.size = 0 ∨ hi v ≤ b.toNat
  leftOver : lmb.reserved.cnt = 0 → lmbRegionsAdjacent lmb.reserved 0 1 = 0 ∧
    (b < (lmb.reserved.region 0).base ∨
      Holds (lmb.reserved.region 0) b.toNat (b.toNat + size.toNat))
  joined : ∀ pre g post, Joins (entries lmb.reserved) b (lmbAlignUp size align) pre g post →
    Holds g b.toNat (b.toNat + size.toNat)

section

variable {lmb : Lmb} {size align maxAddr b : PhysAddr} {m : LmbProperty} {k : ℕ}

/-! ## The memory and the limit -/

theorem start_add_le_of_wraps {s : PhysAddr} (h : lmbAllocStart m size align maxAddr = some s)
    (hm : 2 ^ 32 ≤ hi m) (hs : lo m ≤ s.toNat) : s.toNat + size.toNat ≤ hi m := by
  obtain ⟨hfits, hreach⟩ := searched_of_start h
  have hend : (m.base + m.size).toNat + 2 ^ 32 = hi m := by
    have hlt := m.base.isLt
    have hlt' := m.size.isLt
    rw [BitVec.toNat_add, hi] at *
    omega
  have hbelow : (m.base + m.size).toNat < lo m := by
    have hlt := m.size.isLt
    have hdef : hi m = lo m + m.size.toNat := rfl
    omega
  have hdown : s.toNat ≤ (m.base + m.size - size).toNat := by
    rw [lmbAllocStart, if_neg hfits] at h
    by_cases h0 : maxAddr = 0
    · rw [if_pos h0] at h
      rw [← Option.some.inj h]
      exact lmbAlignDown_le _ _
    · rw [if_neg h0, if_pos (hreach.resolve_left h0)] at h
      have hlt : m.base.toNat < maxAddr.toNat := hreach.resolve_left h0
      have hmin : minAddr (m.base + m.size) maxAddr = m.base + m.size := by
        refine if_pos (BitVec.lt_def.mpr ?_)
        unfold lo at hbelow
        omega
      rw [hmin] at h
      rw [← Option.some.inj h]
      exact lmbAlignDown_le _ _
  rw [BitVec.toNat_sub] at hdown
  omega

/-- **The range is in the memory region** when the limit is not below the size. -/
theorem StopsIn.add_le (h : StopsIn lmb size align maxAddr m b)
    (hmax : maxAddr ≠ 0 → hi m < 2 ^ 32 → size.toNat ≤ maxAddr.toNat) :
    b.toNat + size.toNat ≤ hi m ∧
      (maxAddr ≠ 0 → hi m < 2 ^ 32 → b.toNat + size.toNat ≤ maxAddr.toNat) := by
  obtain ⟨s, hstart, hfirst⟩ := h
  have hble := hfirst.le
  by_cases hm : hi m < 2 ^ 32
  · have hs := start_add_le hstart hm fun h0 => hmax h0 hm
    unfold topAddr at hs
    split_ifs at hs with h0
    · exact ⟨by omega, fun h => absurd h0 h⟩
    · have hmin := min_le_left (hi m) maxAddr.toNat
      have hmin' := min_le_right (hi m) maxAddr.toNat
      exact ⟨by omega, fun _ _ => by omega⟩
  · have hs := start_add_le_of_wraps hstart (not_lt.mp hm) (hfirst.seemsFree.lo_le.trans hble)
    exact ⟨by omega, fun _ h => absurd h hm⟩

/-! ## What was reserved before -/

theorem disjoint_range_iff {base : PhysAddr} {v : LmbProperty} (hsize : 0 < size.toNat)
    (hend : base.toNat + size.toNat ≤ 2 ^ 32)
    (hseems : lmbAddrsOverlap base size v.base v.size = false) :
    Disjoint (range base size) (range v.base v.size) ↔
      (2 ^ 32 ≤ hi v → base.toNat + size.toNat ≤ lo v) ∧
        (base.toNat + size.toNat = 2 ^ 32 → v.size = 0 ∨ hi v ≤ base.toNat) := by
  have hempty : v.size = 0 ↔ v.size.toNat = 0 := BitVec.toNat_eq
  have hdef : hi v = lo v + v.size.toNat := rfl
  have hlt := v.base.isLt
  have hlt' := v.size.isLt
  have hblt := base.isLt
  rw [lmbAddrsOverlap, Bool.and_eq_false_iff, decide_eq_false_iff_not, decide_eq_false_iff_not,
    BitVec.lt_def, BitVec.lt_def, BitVec.toNat_add, BitVec.toNat_add] at hseems
  rw [hempty, range, range, Set.Ico_disjoint_Ico]
  change min (base.toNat + size.toNat) (hi v) ≤ max base.toNat (lo v) ↔ _
  change _ ∨ ¬ lo v < _ at hseems
  change lo v < 2 ^ 32 at hlt
  change ¬ base.toNat < (lo v + v.size.toNat) % 2 ^ 32 ∨ _ at hseems
  constructor
  · intro h
    omega
  · rintro ⟨htop, hlast⟩
    omega

/-- **What seems free is free**, but for the regions and the range at the top of the address
space. -/
theorem disjoint_covered_iff (hsize : 0 < size.toNat) (hend : b.toNat + size.toNat ≤ 2 ^ 32)
    (h : SeemsFree lmb size align m b) :
    Disjoint (range b size) (covered lmb.reserved) ↔
      (∀ v ∈ entries lmb.reserved, 2 ^ 32 ≤ hi v → b.toNat + size.toNat ≤ lo v) ∧
        (b.toNat + size.toNat = 2 ^ 32 →
          ∀ v ∈ entries lmb.reserved, v.size = 0 ∨ hi v ≤ b.toNat) := by
  have hparts : Disjoint (range b size) (covered lmb.reserved) ↔
      ∀ v ∈ entries lmb.reserved, Disjoint (range b size) (range v.base v.size) := by
    constructor
    · intro hdisj v hv
      have hsub : range v.base v.size ⊆ covered lmb.reserved := fun a ha => ⟨v, hv, ha⟩
      exact hdisj.mono_right hsub
    · refine fun hall => Set.disjoint_left.mpr fun a ha hcover => ?_
      obtain ⟨v, hv, hva⟩ := hcover
      exact Set.disjoint_left.mp (hall v hv) ha hva
  rw [hparts]
  constructor
  · intro hall
    have hv := fun v hv => (disjoint_range_iff hsize hend (h.free v hv)).mp (hall v hv)
    exact ⟨fun v hmem => (hv v hmem).1, fun htop v hmem => (hv v hmem).2 htop⟩
  · rintro ⟨htop, hlast⟩ v hv
    exact (disjoint_range_iff hsize hend (h.free v hv)).mpr
      ⟨htop v hv, fun hfull => hlast hfull v hv⟩

/-! ## What is reserved after -/

theorem size_le_roundedUp (halign : align.toNat = 2 ^ k) (hb : b ≠ 0)
    (hdvd : align.toNat ∣ b.toNat) (hend : b.toNat + size.toNat ≤ 2 ^ 32) :
    size.toNat ≤ (lmbAlignUp size align).toNat := by
  have hpos : 0 < b.toNat := by bv_omega
  have hle : align.toNat ≤ b.toNat := Nat.le_of_dvd hpos hdvd
  have hpow : 0 < align.toNat := halign ▸ Nat.two_pow_pos k
  exact (size_le_alignUp hpow (by omega)).1

theorem subset_range_iff {g : LmbProperty} (hsize : 0 < size.toNat) :
    range b size ⊆ range g.base g.size ↔ Holds g b.toNat (b.toNat + size.toNat) :=
  Set.Ico_subset_Ico_iff (Nat.lt_add_of_pos_right hsize)

theorem subset_cover_of_mem {l : List LmbProperty} {g : LmbProperty} (hg : g ∈ l)
    (hholds : Holds g b.toNat (b.toNat + size.toNat)) : range b size ⊆ cover lo hi l :=
  fun _ ha => ⟨g, hg, hholds.1.trans ha.1, ha.2.trans_le hholds.2⟩

theorem holds_of_joins_dummy {base size : PhysAddr} {p g : LmbProperty}
    {pre post : List LmbProperty} (hempty : p.size = 0) (h : Joins [p] base size pre g post)
    {t : ℕ} (ht : t ≤ base.toNat + size.toNat) : Holds g base.toNat t := by
  cases h with
  | grown p' _ heq hfirst =>
    have hp : p = p' := by
      rw [List.singleton_eq_append_iff] at heq
      rcases heq with ⟨-, heq⟩ | ⟨-, heq⟩
      · exact (List.cons.inj heq).1.symm
      · exact absurd heq (by simp)
    have hgrow : lmbGrow base size p = ⟨base, size⟩ := by
      have htouch := hfirst.touches
      rw [← hp, Touches, lmbAddrsAdjacent] at htouch
      have hadd : p.size + size = size := by simp [hempty]
      rw [lmbGrow, lmbAddrsAdjacent, hadd]
      by_cases habove : p.base = base + size
      · rw [if_pos habove, if_pos (by decide), habove, BitVec.add_sub_cancel]
      · rw [if_neg habove] at htouch ⊢
        have hbelow : base = p.base + p.size := by
          by_contra hne
          exact htouch (if_neg hne)
        rw [if_pos hbelow, if_neg (by decide), hbelow, hempty]
        simp
    rw [← hp, hgrow]
    exact ⟨le_rfl, ht⟩
  | merged p' q _ heq =>
    have hlen := congrArg List.length heq
    simp only [List.length_append, List.length_cons, List.length_nil] at hlen
    omega

theorem Joins.subset {l pre post : List LmbProperty} {g x : LmbProperty} {base size : PhysAddr}
    (h : Joins l base size pre g post) (hx : x ∈ pre ++ post) : x ∈ l := by
  cases h with
  | grown p _ heq =>
    rw [heq, List.mem_append, List.mem_cons]
    exact (List.mem_append.mp hx).imp_right Or.inr
  | merged p q _ heq =>
    rw [heq, List.mem_append, List.mem_cons, List.mem_cons]
    exact (List.mem_append.mp hx).imp_right fun hpost => Or.inr (Or.inr hpost)

/-- **A range that was free is covered** by the entry it was joined to, or not at all. -/
theorem Joins.subset_cover_iff {l pre post : List LmbProperty} {g : LmbProperty}
    {base len : PhysAddr} (h : Joins l base len pre g post) (hsize : 0 < size.toNat)
    (hdisj : Disjoint (range b size) (cover lo hi l)) :
    range b size ⊆ cover lo hi (pre ++ g :: post) ↔ Holds g b.toNat (b.toNat + size.toNat) := by
  refine ⟨fun hsub => (subset_range_iff hsize).mp fun a ha => ?_, fun hholds => ?_⟩
  · obtain ⟨x, hx, hxa⟩ := hsub ha
    rw [List.mem_append, List.mem_cons, or_left_comm, ← List.mem_append] at hx
    rcases hx with rfl | hx
    · exact hxa
    · exact absurd ⟨x, h.subset hx, hxa⟩ (Set.disjoint_left.mp hdisj ha)
  · exact subset_cover_of_mem (by simp) hholds

/-- Adding to a table without regions. -/
theorem subset_covered_of_empty {rgn rgn' : LmbRegion} {len : PhysAddr} {ret : ℤ}
    (hcnt : rgn.cnt.toNat ≤ maxLmbRegions) (hsize : 0 < size.toNat)
    (hnew : Holds ⟨b, len⟩ b.toNat (b.toNat + size.toNat)) (hzero : rgn.cnt = 0)
    (hadd : lmbAddRegion rgn b len = some (ret, rgn')) :
    range b size ⊆ covered rgn' ↔
      (rgn.cnt = 0 → lmbRegionsAdjacent rgn 0 1 = 0 ∧
        (b < (rgn.region 0).base ∨ Holds (rgn.region 0) b.toNat (b.toNat + size.toNat))) ∧
      ∀ pre g post, Joins (entries rgn) b len pre g post →
        Holds g b.toNat (b.toNat + size.toNat) := by
  have hnil : entries rgn = [] := by
    rw [entries, hzero]
    rfl
  have hadj : lmbRegionsAdjacent rgn 0 1 = 0 := by
    by_contra hne
    have hnone : lmbAddRegion rgn b len = none := (addRegion_eq_none_iff hcnt).mpr ⟨hzero, hne⟩
    exact Option.some_ne_none _ (hadd.symm.trans hnone)
  have hjoins : ∀ pre g post, Joins (entries rgn) b len pre g post →
      Holds g b.toNat (b.toNat + size.toNat) := by
    intro pre g post h
    rw [hnil] at h
    obtain ⟨p, post', heq, -⟩ := h.firstTouched
    exact absurd heq (by simp)
  rw [covered, (entries_empty_add hzero hadd).2, and_iff_left hjoins]
  have hone : ∀ x : LmbProperty, range b size ⊆ cover lo hi [x] ↔
      Holds x b.toNat (b.toNat + size.toNat) := by
    intro x
    rw [← subset_range_iff hsize, cover_cons, cover_nil, Set.union_empty]
    rfl
  rw [hone]
  split_ifs with hbase
  · exact iff_of_true hnew fun _ => ⟨hadj, Or.inl hbase⟩
  · exact ⟨fun h _ => ⟨hadj, Or.inr h⟩, fun h => (h hzero).2.resolve_left hbase⟩

/-- **What was added is covered** exactly when a table without entries has nothing left over that is
in the way, and the entry that the range is joined to holds it. -/
theorem subset_covered_iff {rgn rgn' : LmbRegion} {len : PhysAddr} {ret : ℤ}
    (hcnt : rgn.cnt.toNat ≤ maxLmbRegions) (hsize : 0 < size.toNat)
    (hlen : size.toNat ≤ len.toNat) (hdisj : Disjoint (range b size) (covered rgn))
    (hadd : lmbAddRegion rgn b len = some (ret, rgn')) (hret : 0 ≤ ret) :
    range b size ⊆ covered rgn' ↔
      (rgn.cnt = 0 → lmbRegionsAdjacent rgn 0 1 = 0 ∧
        (b < (rgn.region 0).base ∨ Holds (rgn.region 0) b.toNat (b.toNat + size.toNat))) ∧
      ∀ pre g post, Joins (entries rgn) b len pre g post →
        Holds g b.toNat (b.toNat + size.toNat) := by
  have hnew : Holds ⟨b, len⟩ b.toNat (b.toNat + size.toNat) :=
    ⟨le_rfl, Nat.add_le_add_left hlen _⟩
  by_cases hzero : rgn.cnt = 0
  · exact subset_covered_of_empty hcnt hsize hnew hzero hadd
  have hpos : 0 < rgn.cnt.toNat := by bv_omega
  rw [and_iff_right fun h => absurd h hzero]
  by_cases hdummy : rgn.cnt = 1 ∧ (rgn.region 0).size = 0
  · have hone : entries rgn = [rgn.region 0] := by
      rw [entries, hdummy.1]
      rfl
    obtain ⟨rgn'', hadd', hent⟩ := addRegion_dummy hone hdummy.2 b len
    obtain ⟨-, rfl⟩ := Prod.mk.inj (Option.some.inj (hadd'.symm.trans hadd))
    rw [covered, hent, hone]
    exact iff_of_true (subset_cover_of_mem List.mem_cons_self hnew) fun pre g post h =>
      holds_of_joins_dummy hdummy.2 h (Nat.add_le_add_left hlen _)
  rcases addRegion_entries hpos hcnt hdummy hadd hret with
    ⟨hmem, -, -⟩ | ⟨pre, g, post, hjoins, hent⟩ | ⟨halone, hlt, rfl⟩
  · -- the range was reserved already
    have hrange : b.toNat ∈ range b size := ⟨le_rfl, Nat.lt_add_of_pos_right hsize⟩
    exact absurd (subset_cover_of_mem hmem hnew hrange) (Set.disjoint_left.mp hdisj hrange)
  · rw [covered, hent, hjoins.subset_cover_iff hsize hdisj]
    constructor
    · intro hholds pre' g' post' h'
      obtain ⟨-, rfl, -⟩ := hjoins.unique h'
      exact hholds
    · exact fun h => h pre g post hjoins
  · have hmem : ⟨b, len⟩ ∈ entries (lmbInsert rgn b len) := by
      obtain ⟨pre, post, -, -, -, ⟨-, hent⟩ | ⟨x, pre', -, -, hent⟩⟩ := exists_insert hpos hlt b len
      · simp [hent]
      · simp [hent]
    exact iff_of_true (subset_cover_of_mem hmem hnew) fun pre g post h =>
      absurd h (not_joins_of_alone halone)

/-! ## The call -/

theorem StopsAt.sound_iff (hcnt : lmb.reserved.cnt.toNat ≤ maxLmbRegions)
    (hsize : 0 < size.toNat) (halign : align.toNat = 2 ^ k)
    (h : StopsAt lmb size align maxAddr m b) :
    AllocSound lmb size align maxAddr ↔
      NoPlace (entries lmb.reserved) b (lmbAlignUp size align) ∨
        AllocFits lmb size align maxAddr m b := by
  have hseems := h.seemsFree
  have hin : StopsIn lmb size align maxAddr m b := by
    obtain ⟨i, -, rfl, hstops, -⟩ := h
    exact hstops
  rw [AllocSound]
  rcases h.call halign hcnt with
    ⟨⟨hzero, hadj⟩, hcall⟩ | ⟨hplace, hcall⟩ | ⟨hplace, ret, rgn', hret, hadd, hcall⟩
  · refine iff_of_false (fun hsound => ?_) fun hfits => ?_
    · obtain ⟨r, lmb', hsome, -⟩ := hsound
      exact absurd (hcall.symm.trans hsome) (Option.some_ne_none _).symm
    · rcases hfits with hplace | hfits
      · have hlen := hplace.1
        rw [length_entries, hzero] at hlen
        exact absurd hlen (by decide)
      · exact hadj (hfits.leftOver hzero).1
  · exact iff_of_true ⟨0, lmb, hcall, fun h0 => absurd rfl h0⟩ (Or.inl hplace)
  rw [or_iff_right hplace]
  have hup : b.toNat + size.toNat ≤ 2 ^ 32 → size.toNat ≤ (lmbAlignUp size align).toNat :=
    size_le_roundedUp halign hseems.ne_zero hseems.dvd
  constructor
  · rintro ⟨r, lmb', hsome, hres⟩
    obtain ⟨rfl, rfl⟩ := Prod.mk.inj (Option.some.inj (hcall.symm.trans hsome))
    have hres := hres hseems.ne_zero
    obtain ⟨htop, hlast⟩ := (disjoint_covered_iff hsize hres.end_le hseems).mp hres.free
    obtain ⟨hleft, hjoined⟩ :=
      (subset_covered_iff hcnt hsize (hup hres.end_le) hres.free hadd hret).mp hres.reserved
    refine ⟨hres.end_le, fun h0 => ?_, htop, hlast, hleft, hjoined⟩
    have hlimit := hres.limit h0
    rcases lt_or_ge (hi m) (2 ^ 32) with hm | hm
    · exact Or.inl ⟨hm, (Nat.le_add_left _ _).trans hlimit⟩
    · exact Or.inr ⟨hm, hlimit⟩
  · intro hfits
    have hmax : maxAddr ≠ 0 → hi m < 2 ^ 32 → size.toNat ≤ maxAddr.toNat := by
      intro h0 hm
      rcases hfits.limit h0 with ⟨-, hle⟩ | ⟨hge, -⟩
      · exact hle
      · exact absurd hm (not_lt.mpr hge)
    obtain ⟨hmemory, hlimit⟩ := hin.add_le hmax
    have hfree := (disjoint_covered_iff hsize hfits.end_le hseems).mpr ⟨hfits.reserved, hfits.top⟩
    refine ⟨b, _, hcall, fun _ => ⟨hseems.dvd, ⟨m, h.mem, hseems.lo_le, hmemory⟩, hfits.end_le,
      fun h0 => ?_, hfree, ?_⟩⟩
    · rcases hfits.limit h0 with ⟨hm, -⟩ | ⟨-, hle⟩
      · exact hlimit h0 hm
      · exact hle
    · exact (subset_covered_iff hcnt hsize (hup hfits.end_le) hfree hadd hret).mpr
        ⟨hfits.leftOver, hfits.joined⟩

/-- **Soundness of `lmb_alloc_base`.**  In every map that any calls lead to, an allocation is sound
exactly when the search stops nowhere, or the table has no place for what it stops at, or the
inputs fit there. -/
theorem allocBase_sound (h : lmbSystem.Reachable lmb) (hsize : 0 < size.toNat)
    (halign : ∃ k, align.toNat = 2 ^ k) :
    AllocSound lmb size align maxAddr ↔
      ∀ m b, StopsAt lmb size align maxAddr m b →
        NoPlace (entries lmb.reserved) b (lmbAlignUp size align) ∨
          AllocFits lmb size align maxAddr m b := by
  obtain ⟨k, halign⟩ := halign
  have hcnt := (cnt_le_of_reachable h).2
  constructor
  · exact fun hsound m b hb => (hb.sound_iff hcnt hsize halign).mp hsound
  · intro hall
    by_cases hstops : ∃ m b, StopsAt lmb size align maxAddr m b
    · obtain ⟨m, b, hb⟩ := hstops
      exact (hb.sound_iff hcnt hsize halign).mpr (hall m b hb)
    · have hcall := allocBase_of_not_stopsAt halign fun m b hb => hstops ⟨m, b, hb⟩
      exact ⟨0, lmb, hcall, fun h0 => absurd rfl h0⟩

end

/-- Below a limit in the last page, two pages are found under the reserved region. -/
theorem allocBase_sound_topReserved : AllocSound topReserved 0x2000 0x1000 0x0ffff900 := by
  refine (allocBase_sound reachable_topReserved (by decide) ⟨12, rfl⟩).mpr fun m b hb => Or.inr ?_
  have hfind : lmbAllocFind topReserved 0x2000 0x1000 0x0ffff900 topReserved.memory.cnt.toNat =
      some 0x0fffd000 := by
    decide +kernel
  obtain rfl : 0x0fffd000 = b := Option.some.inj
    (hfind.symm.trans ((allocFind_eq_some_iff (k := 12) rfl).mpr ⟨m, hb⟩))
  have hmemory : m = ⟨0, 0x10000000⟩ := List.mem_singleton.mp hb.mem
  have hreserved : ∀ v ∈ entries topReserved.reserved, v = ⟨0x0ffff800, 0x800⟩ :=
    fun v hv => List.mem_singleton.mp hv
  refine ⟨by decide, fun _ => Or.inl ?_, fun v hv => ?_, fun h0 => absurd h0 (by decide),
    fun h0 => absurd h0 (by decide), fun pre g post hjoins => ?_⟩
  · rw [hmemory]
    decide
  · rw [hreserved v hv]
    decide
  · refine absurd hjoins (not_joins_of_alone fun q hq => ?_)
    rw [hreserved q hq]
    decide +kernel

/-! ### A limit below the size -/

/-- **The subtraction from the limit wraps**, and the range is found at the top of the address
space. -/
theorem not_allocBase_sound :
    ¬ ∀ s, lmbSystem.Reachable s → ∀ size align maxAddr, 0 < BitVec.toNat size →
      (∃ k, BitVec.toNat align = 2 ^ k) → AllocSound s size align maxAddr := by
  intro hall
  obtain ⟨r, t, hcall, hres⟩ :=
    hall _ reachable_lowMemory 0x2000 0x1000 0x1000 (by decide) ⟨12, rfl⟩
  have hrun : (lmbAllocBase lowMemory 0x2000 0x1000 0x1000).map Prod.fst = some 0xfffff000 := by
    decide +kernel
  rw [hcall] at hrun
  obtain rfl : r = 0xfffff000 := Option.some.inj hrun
  exact absurd ((hres (by decide)).limit (by decide)) (by decide)

end Lmb
end EmevBsp
