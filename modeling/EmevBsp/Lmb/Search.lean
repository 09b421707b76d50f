import EmevBsp.Lmb.Cover
import EmevBsp.Lmb.Stops

/-!
# What the search for a free range passes over

The inner loop of `__lmb_alloc_base` jumps from below one reserved region that is in the way to
the next.  It never jumps over a range that could be taken: what it passes over would reach
into the region that was in the way.  So it finds the highest range of a memory region, and the
outer loop finds it in the last memory region that has one.

What was found is then reserved.  In a table without entries `lmb_add_region` looks at what its
first two places still hold, and when these touch, it never returns.

* `Place`: a range that may be taken from a memory region.
* `allocWalk_places`: **the inner loop finds the highest place** of a memory region, by
  induction over its jumps; the invariant is that every place is at or below where it stands.
* `allocFind_places`: **the outer loop finds it in the last region** with a place.
* `allocatesHighest_iff`: when `lmb_alloc_base` returns the highest place.
* `allocatesHighest_iff_of_ascending`: the same for memory regions in ascending order.
* `not_allocatesHighest`: a reserved region that was freed again.
-/

namespace EmevBsp
namespace Lmb

/-! ## Places -/

/-- A range of `size` bytes at `b` may be taken from the memory region `m`: it is aligned and not
at zero, lies in the region and below the limit, and shares no address with a reserved region. -/
structure Place (lmb : Lmb) (size align maxAddr : PhysAddr) (m : LmbProperty) (b : ℕ) : Prop where
  pos : 0 < b
  dvd : align.toNat ∣ b
  lo_le : lo m ≤ b
  le_hi : b + size.toNat ≤ hi m
  limit : maxAddr ≠ 0 → b + size.toNat ≤ maxAddr.toNat
  free : ∀ v ∈ entries lmb.reserved, b + size.toNat ≤ lo v ∨ hi v ≤ b

/-- The places in a memory region. -/
def places (lmb : Lmb) (size align maxAddr : PhysAddr) (m : LmbProperty) : Set ℕ :=
  { b | Place lmb size align maxAddr m b }

/-- `b` is the highest place in a memory region with the highest base of those that have a
place. -/
def Highest (lmb : Lmb) (size align maxAddr : PhysAddr) (b : ℕ) : Prop :=
  ∃ m ∈ entries lmb.memory, IsGreatest (places lmb size align maxAddr m) b ∧
    ∀ m' ∈ entries lmb.memory, (places lmb size align maxAddr m').Nonempty → lo m' ≤ lo m

/-- `b` is the highest place in the last entry that the search looks into and that has a
place. -/
def LastHighest (lmb : Lmb) (size align maxAddr : PhysAddr) (b : ℕ) : Prop :=
  ∃ i < lmb.memory.cnt.toNat, Searched (lmb.memory.region i) size maxAddr ∧
    IsGreatest (places lmb size align maxAddr (lmb.memory.region i)) b ∧
    ∀ j, i < j → j < lmb.memory.cnt.toNat → Searched (lmb.memory.region j) size maxAddr →
      ¬ (places lmb size align maxAddr (lmb.memory.region j)).Nonempty

/-- The call returns the highest place. -/
def AllocatesHighest (lmb : Lmb) (size align maxAddr : PhysAddr) : Prop :=
  ∃ r lmb', lmbAllocBase lmb size align maxAddr = some (r, lmb') ∧ r ≠ 0 ∧
    Highest lmb size align maxAddr r.toNat

/-- The search computes nothing that wraps: no region reaches past the top of the address space,
and the limit is not below the size. -/
structure NoWrap (lmb : Lmb) (size maxAddr : PhysAddr) : Prop where
  memory : ∀ m ∈ entries lmb.memory, hi m < 2 ^ 32
  reserved : ∀ v ∈ entries lmb.reserved, hi v < 2 ^ 32
  limit : maxAddr ≠ 0 → size.toNat ≤ maxAddr.toNat

/-- There is room in the table and a place to take, and no region reaches past the top of the
address space. -/
structure Allocatable (lmb : Lmb) (size align maxAddr : PhysAddr) : Prop where
  room : lmb.reserved.cnt.toNat < maxLmbRegions
  aligned : ∃ k, align.toNat = 2 ^ k
  memory : ∀ m ∈ entries lmb.memory, hi m < 2 ^ 32
  reserved : ∀ v ∈ entries lmb.reserved, hi v < 2 ^ 32
  place : ∃ m ∈ entries lmb.memory, (places lmb size align maxAddr m).Nonempty

section

variable {lmb : Lmb} {size align maxAddr : PhysAddr} {m : LmbProperty} {b k : ℕ}

theorem Place.le_top (h : Place lmb size align maxAddr m b) :
    b + size.toNat ≤ topAddr m maxAddr := by
  unfold topAddr
  split_ifs with hmax
  · exact h.le_hi
  · exact le_min h.le_hi (h.limit hmax)

theorem topAddr_le (m : LmbProperty) (maxAddr : PhysAddr) : topAddr m maxAddr ≤ hi m := by
  unfold topAddr
  split_ifs
  · exact le_rfl
  · exact min_le_left _ _

theorem topAddr_le_limit (m : LmbProperty) (h : maxAddr ≠ 0) :
    topAddr m maxAddr ≤ maxAddr.toNat := by
  rw [topAddr, if_neg h]
  exact min_le_right _ _

theorem Allocatable.noWrap (h : Allocatable lmb size align maxAddr) :
    NoWrap lmb size maxAddr := by
  refine ⟨h.memory, h.reserved, fun hmax => ?_⟩
  obtain ⟨m', -, b, hb⟩ := h.place
  exact (Nat.le_add_left _ b).trans (hb.limit hmax)

theorem Place.searched (h : Place lmb size align maxAddr m b) (hsize : 0 < size.toNat) :
    Searched m size maxAddr := by
  have hlo : m.base.toNat ≤ b := h.lo_le
  have hhi : b + size.toNat ≤ m.base.toNat + m.size.toNat := h.le_hi
  refine ⟨fun hlt => ?_, or_iff_not_imp_left.mpr fun hmax => ?_⟩
  · have hlt' := BitVec.lt_def.mp hlt
    omega
  · have hlimit := h.limit hmax
    exact BitVec.lt_def.mpr (by omega)

/-! ## The inner loop -/

theorem overlaps_some {rgn : LmbRegion} {base : PhysAddr} {j : ℕ}
    (hrgn : ∀ v ∈ entries rgn, hi v < 2 ^ 32) (he : base.toNat + size.toNat < 2 ^ 32)
    (h : lmbOverlapsRegion rgn base size = some j) :
    rgn.region j ∈ entries rgn ∧ base.toNat < hi (rgn.region j) ∧
      lo (rgn.region j) < base.toNat + size.toNat := by
  obtain ⟨hover, hrange, -⟩ := List.find?_range_eq_some.mp h
  have hmem : rgn.region j ∈ entries rgn := mem_entries.mpr ⟨j, List.mem_range.mp hrange, rfl⟩
  have hhi : ((rgn.region j).base + (rgn.region j).size).toNat = hi (rgn.region j) :=
    BitVec.toNat_add_of_lt (hrgn _ hmem)
  have hend : (base + size).toNat = base.toNat + size.toNat := BitVec.toNat_add_of_lt he
  rw [lmbAddrsOverlap, Bool.and_eq_true, decide_eq_true_eq, decide_eq_true_eq, BitVec.lt_def,
    BitVec.lt_def, hhi, hend] at hover
  exact ⟨hmem, hover⟩

/-- **The inner loop finds the highest place.**  What it passes over when it jumps from `base`
to below the region in the way would begin above that region's begin, and it lies below its
end, since it lies at or below `base`. -/
theorem allocWalk_places (halign : align.toNat = 2 ^ k)
    (hrgn : ∀ v ∈ entries lmb.reserved, hi v < 2 ^ 32) (hm : hi m < 2 ^ 32) {base : PhysAddr}
    (hdvd : align.toNat ∣ base.toNat) (hend : base.toNat + size.toNat ≤ topAddr m maxAddr)
    (hall : ∀ b ∈ places lmb size align maxAddr m, b ≤ base.toNat) :
    (lmbAllocWalk lmb.reserved m.base size align base = none ∧
        ¬ (places lmb size align maxAddr m).Nonempty) ∨
      ∃ r, lmbAllocWalk lmb.reserved m.base size align base = some r ∧ r ≠ 0 ∧
        IsGreatest (places lmb size align maxAddr m) r.toNat := by
  have htop := topAddr_le m maxAddr
  fun_induction lmbAllocWalk lmb.reserved m.base size align base with
  | case1 base hin hnone =>
    refine Or.inr ⟨base, rfl, hin.1, ⟨?_, hdvd, hin.2, by omega, fun hmax => ?_, ?_⟩, hall⟩
    · have hne := hin.1
      bv_omega
    · exact hend.trans (topAddr_le_limit m hmax)
    · intro v hv
      exact (le_or_le_of_overlaps_none hnone (by omega) hrgn hv).symm
  | case2 base hin j hj hlt =>
    obtain ⟨hmem, hbase, -⟩ := overlaps_some hrgn (by omega) hj
    refine Or.inl ⟨rfl, ?_⟩
    rintro ⟨b, hb⟩
    have hle := hall b hb
    have hlt' : lo (lmb.reserved.region j) < size.toNat := BitVec.lt_def.mp hlt
    rcases hb.free _ hmem with hfree | hfree
    · omega
    · omega
  | case3 base hin j hj hle ih =>
    obtain ⟨hmem, hbase, hlo⟩ := overlaps_some hrgn (by omega) hj
    have hge : size.toNat ≤ lo (lmb.reserved.region j) := by
      rw [BitVec.lt_def] at hle
      exact not_lt.mp hle
    have hsub : ((lmb.reserved.region j).base - size).toNat =
        lo (lmb.reserved.region j) - size.toNat :=
      BitVec.toNat_sub_of_le (BitVec.le_def.mpr hge)
    have hnext := lmbAlignDown_le ((lmb.reserved.region j).base - size) align
    refine ih (dvd_alignDown halign _) (by omega) fun b hb => le_alignDown halign hb.dvd ?_
    have hble := hall b hb
    rcases hb.free _ hmem with hfree | hfree
    · omega
    · omega
  | case4 base hin =>
    refine Or.inl ⟨rfl, ?_⟩
    rintro ⟨b, hb⟩
    refine hin ?_
    have hle := hall b hb
    have hpos := hb.pos
    have hlo : m.base.toNat ≤ b := hb.lo_le
    refine ⟨fun hzero => ?_, BitVec.le_def.mpr (hlo.trans hle)⟩
    rw [hzero] at hle
    exact absurd hle (not_le.mpr hpos)

/-! ## The outer loop -/

theorem allocStart_places (halign : align.toNat = 2 ^ k) (h : NoWrap lmb size maxAddr)
    (hm : m ∈ entries lmb.memory) :
    ((lmbAllocStart m size align maxAddr).bind
          (lmbAllocWalk lmb.reserved m.base size align) = none ∧
        (Searched m size maxAddr → ¬ (places lmb size align maxAddr m).Nonempty)) ∨
      ∃ r, (lmbAllocStart m size align maxAddr).bind
          (lmbAllocWalk lmb.reserved m.base size align) = some r ∧ r ≠ 0 ∧
        Searched m size maxAddr ∧ IsGreatest (places lmb size align maxAddr m) r.toNat := by
  by_cases hs : Searched m size maxAddr
  · obtain ⟨s, hstart, hs', hle⟩ := start_of_searched halign hs (h.memory m hm) h.limit
    have hdvd : align.toNat ∣ s.toNat := by
      rw [hs', highest]
      exact Nat.dvd_mul_left _ _
    have hend : s.toNat ≤ topAddr m maxAddr - size.toNat := by
      rw [hs']
      exact Nat.div_mul_le_self _ _
    have hall : ∀ b ∈ places lmb size align maxAddr m, b ≤ s.toNat := by
      intro b hb
      obtain ⟨q, hq⟩ := hb.dvd
      have hbtop := Place.le_top hb
      rw [hs', highest, hq, Nat.mul_comm]
      refine Nat.mul_le_mul_right _ ((Nat.le_div_iff_mul_le ?_).mpr ?_)
      · rw [halign]
        exact Nat.two_pow_pos k
      · rw [Nat.mul_comm, ← hq]
        omega
    rw [hstart, Option.bind_some]
    refine (allocWalk_places halign h.reserved (h.memory m hm) hdvd (by omega) hall).imp ?_ ?_
    · exact fun h => ⟨h.1, fun _ => h.2⟩
    · rintro ⟨r, hwalk, hne, hr⟩
      exact ⟨r, hwalk, hne, hs, hr⟩
  · refine Or.inl ⟨?_, fun hs' => absurd hs' hs⟩
    cases hstart : lmbAllocStart m size align maxAddr with
    | none => rfl
    | some s => exact absurd (searched_of_start hstart) hs

theorem allocFind_places (halign : align.toNat = 2 ^ k) (h : NoWrap lmb size maxAddr) {n : ℕ}
    (hn : n ≤ lmb.memory.cnt.toNat) :
    (lmbAllocFind lmb size align maxAddr n = none ∧
        ∀ i < n, Searched (lmb.memory.region i) size maxAddr →
          ¬ (places lmb size align maxAddr (lmb.memory.region i)).Nonempty) ∨
      ∃ r, lmbAllocFind lmb size align maxAddr n = some r ∧ r ≠ 0 ∧
        ∃ i < n, Searched (lmb.memory.region i) size maxAddr ∧
          IsGreatest (places lmb size align maxAddr (lmb.memory.region i)) r.toNat ∧
          ∀ j, i < j → j < n → Searched (lmb.memory.region j) size maxAddr →
            ¬ (places lmb size align maxAddr (lmb.memory.region j)).Nonempty := by
  induction n with
  | zero => exact Or.inl ⟨rfl, fun i hi => absurd hi (Nat.not_lt_zero i)⟩
  | succ n ih =>
    have hmem : lmb.memory.region n ∈ entries lmb.memory := mem_entries.mpr ⟨n, hn, rfl⟩
    rcases allocStart_places halign h hmem with ⟨hbind, hnone⟩ | ⟨r, hbind, hne, hs, hr⟩
    · rw [lmbAllocFind, hbind]
      refine (ih (Nat.le_of_succ_le hn)).imp ?_ ?_
      · rintro ⟨hfind, hbelow⟩
        refine ⟨hfind, fun i hi => ?_⟩
        rcases Nat.lt_succ_iff_lt_or_eq.mp hi with hi | rfl
        · exact hbelow i hi
        · exact hnone
      · rintro ⟨r, hfind, hne, i, hi, hs, hr, habove⟩
        refine ⟨r, hfind, hne, i, hi.trans (Nat.lt_succ_self n), hs, hr, fun j hij hj => ?_⟩
        rcases Nat.lt_succ_iff_lt_or_eq.mp hj with hj | rfl
        · exact habove j hij hj
        · exact hnone
    · rw [lmbAllocFind, hbind]
      refine Or.inr ⟨r, rfl, hne, n, Nat.lt_succ_self n, hs, hr, fun j hij hj => ?_⟩
      omega

theorem LastHighest.unique {b b' : ℕ} (h : LastHighest lmb size align maxAddr b)
    (h' : LastHighest lmb size align maxAddr b') : b = b' := by
  obtain ⟨i, hi, hs, hb, habove⟩ := h
  obtain ⟨i', hi', hs', hb', habove'⟩ := h'
  rcases lt_trichotomy i i' with hlt | rfl | hlt
  · exact absurd hb'.nonempty (habove i' hlt hi' hs')
  · exact hb.unique hb'
  · exact absurd hb.nonempty (habove' i hlt hi hs)

/-! ## The call -/

theorem addRegion_of_room {rgn rgn' : LmbRegion} {base len : PhysAddr} {ret : ℤ}
    (hcnt : rgn.cnt.toNat < maxLmbRegions)
    (h : lmbAddRegion rgn base len = some (ret, rgn')) : 0 ≤ ret := by
  by_contra hret
  have hlen := (addRegion_refused hcnt.le h (not_le.mp hret)).2.2.1
  rw [length_entries] at hlen
  omega

theorem allocBase_lastHighest (h : Allocatable lmb size align maxAddr) :
    ((∀ b, ¬ LastHighest lmb size align maxAddr b) ∧
        lmbAllocBase lmb size align maxAddr = some (0, lmb)) ∨
      ∃ r : PhysAddr, r ≠ 0 ∧ LastHighest lmb size align maxAddr r.toNat ∧
        ((lmb.reserved.cnt = 0 ∧ lmbRegionsAdjacent lmb.reserved 0 1 ≠ 0) ∧
            lmbAllocBase lmb size align maxAddr = none ∨
          ¬ (lmb.reserved.cnt = 0 ∧ lmbRegionsAdjacent lmb.reserved 0 1 ≠ 0) ∧
            ∃ lmb', lmbAllocBase lmb size align maxAddr = some (r, lmb')) := by
  obtain ⟨k, halign⟩ := h.aligned
  rw [lmbAllocBase]
  rcases allocFind_places halign h.noWrap le_rfl with ⟨hfind, hnone⟩ | ⟨r, hfind, hne, hlast⟩
  · refine .inl ⟨?_, by rw [hfind]⟩
    rintro b ⟨i, hi, hs, hb, -⟩
    exact hnone i hi hs hb.nonempty
  · refine .inr ⟨r, hne, hlast, ?_⟩
    rw [hfind]
    dsimp only
    rw [← @addRegion_eq_none_iff _ r (lmbAlignUp size align) h.room.le]
    cases hadd : lmbAddRegion lmb.reserved r (lmbAlignUp size align) with
    | none => exact .inl ⟨rfl, rfl⟩
    | some res =>
      obtain ⟨ret, rgn'⟩ := res
      have hret := addRegion_of_room h.room hadd
      refine .inr ⟨Option.some_ne_none _, { lmb with reserved := rgn' }, ?_⟩
      rw [Option.map_some, if_neg (not_lt.mpr hret)]

theorem AllocatesHighest.lastHighest (h : Allocatable lmb size align maxAddr)
    (hall : AllocatesHighest lmb size align maxAddr) :
    ¬ (lmb.reserved.cnt = 0 ∧ lmbRegionsAdjacent lmb.reserved 0 1 ≠ 0) ∧
      ∃ b, LastHighest lmb size align maxAddr b ∧ Highest lmb size align maxAddr b := by
  obtain ⟨r, lmb', hcall, hne, hhigh⟩ := hall
  rcases allocBase_lastHighest h with ⟨-, hzero⟩ | ⟨r', -, hlast, ⟨-, hnone⟩ | ⟨hgo, _, hcall'⟩⟩
  · exact absurd (congrArg Prod.fst (Option.some.inj (hcall.symm.trans hzero))) hne
  · exact absurd (hcall.symm.trans hnone) (Option.some_ne_none _)
  · obtain ⟨rfl, -⟩ := Prod.mk.inj (Option.some.inj (hcall.symm.trans hcall'))
    exact ⟨hgo, _, hlast, hhigh⟩

theorem LastHighest.allocatesHighest (h : Allocatable lmb size align maxAddr)
    (hgo : ¬ (lmb.reserved.cnt = 0 ∧ lmbRegionsAdjacent lmb.reserved 0 1 ≠ 0))
    (hb : LastHighest lmb size align maxAddr b) (hhigh : Highest lmb size align maxAddr b) :
    AllocatesHighest lmb size align maxAddr := by
  rcases allocBase_lastHighest h with ⟨hnone, -⟩ | ⟨r, hne, hlast, ⟨hstop, -⟩ | ⟨-, lmb', hcall⟩⟩
  · exact absurd hb (hnone b)
  · exact absurd hstop hgo
  · obtain rfl := hlast.unique hb
    exact ⟨r, lmb', hcall, hne, hhigh⟩

/-- **Completeness.**  When there is a place, the call returns the highest one exactly when it
is not stopped by what the first two places of an empty table still hold, and the last region
of the table with a place is a highest one. -/
theorem allocatesHighest_iff (h : Allocatable lmb size align maxAddr) :
    AllocatesHighest lmb size align maxAddr ↔
      ¬ (lmb.reserved.cnt = 0 ∧ lmbRegionsAdjacent lmb.reserved 0 1 ≠ 0) ∧
        ∃ b, LastHighest lmb size align maxAddr b ∧ Highest lmb size align maxAddr b := by
  constructor
  · exact fun hall => hall.lastHighest h
  · rintro ⟨hgo, b, hb, hhigh⟩
    exact hb.allocatesHighest h hgo hhigh

theorem exists_lastHighest (h : Allocatable lmb size align maxAddr) (hsize : 0 < size.toNat) :
    ∃ b, LastHighest lmb size align maxAddr b := by
  obtain ⟨k, halign⟩ := h.aligned
  rcases allocFind_places halign h.noWrap le_rfl with ⟨-, hnone⟩ | ⟨r, -, -, hlast⟩
  · obtain ⟨m, hm, b, hb⟩ := h.place
    obtain ⟨i, hi, rfl⟩ := mem_entries.mp hm
    exact absurd ⟨b, hb⟩ (hnone i hi (Place.searched hb hsize))
  · exact ⟨r.toNat, hlast⟩

theorem LastHighest.highest (hb : LastHighest lmb size align maxAddr b) (hsize : 0 < size.toNat)
    (hsorted : Ascending (entries lmb.memory)) : Highest lmb size align maxAddr b := by
  obtain ⟨i, hi', -, hgreatest, habove⟩ := hb
  refine ⟨_, mem_entries.mpr ⟨i, hi', rfl⟩, hgreatest, fun m' hm' hplace => ?_⟩
  obtain ⟨j, hj, rfl⟩ := mem_entries.mp hm'
  obtain ⟨b', hb'⟩ := hplace
  have hji : j ≤ i := by
    by_contra hlt
    exact habove j (not_le.mp hlt) hj (Place.searched hb' hsize) ⟨b', hb'⟩
  rcases hji.lt_or_eq with hlt | rfl
  · have hpair := List.pairwise_iff_getElem.mp hsorted j i (by rwa [length_entries])
      (by rwa [length_entries]) hlt
    rwa [getElem_entries, getElem_entries] at hpair
  · exact le_rfl

theorem allocatesHighest_iff_of_ascending (h : Allocatable lmb size align maxAddr)
    (hsize : 0 < size.toNat) (hsorted : Ascending (entries lmb.memory)) :
    AllocatesHighest lmb size align maxAddr ↔
      ¬ (lmb.reserved.cnt = 0 ∧ lmbRegionsAdjacent lmb.reserved 0 1 ≠ 0) := by
  refine ⟨fun hall => (hall.lastHighest h).1, fun hgo => ?_⟩
  obtain ⟨b, hb⟩ := exists_lastHighest h hsize
  exact hb.allocatesHighest h hgo (hb.highest hsize hsorted)

end

theorem allocatable_page {lmb : Lmb} (hroom : lmb.reserved.cnt.toNat < maxLmbRegions)
    (hmemory : entries lmb.memory = [⟨0, 0x10000000⟩])
    (hreserved : ∀ v ∈ entries lmb.reserved, hi v ≤ 0x1000) :
    Allocatable lmb 0x1000 0x1000 0 := by
  refine ⟨hroom, ⟨12, rfl⟩, fun m hm => ?_, fun v hv => (hreserved v hv).trans_lt (by decide),
    ⟨0, 0x10000000⟩, by simp [hmemory], 0x1000, ?_⟩
  · rw [hmemory] at hm
    rw [List.mem_singleton.mp hm]
    decide
  · exact ⟨by decide, dvd_rfl, by decide, by decide, fun h0 => absurd rfl h0,
      fun v hv => Or.inr (hreserved v hv)⟩

/-- Below the region in the last page, the highest page is found. -/
theorem allocatesHighest_topReserved : AllocatesHighest topReserved 0x1000 0x1000 0 := by
  have hmemory : ∀ m ∈ entries topReserved.memory, m = ⟨0, 0x10000000⟩ :=
    fun m hm => List.mem_singleton.mp hm
  have hreserved : ∀ v ∈ entries topReserved.reserved, v = ⟨0x0ffff800, 0x800⟩ :=
    fun v hv => List.mem_singleton.mp hv
  have hplace : Place topReserved 0x1000 0x1000 0 ⟨0, 0x10000000⟩ 0x0fffe000 := by
    refine ⟨by decide, by decide, by decide, by decide, fun h0 => absurd rfl h0, fun v hv => ?_⟩
    rw [hreserved v hv]
    exact Or.inl (by decide)
  have hgreatest : IsGreatest (places topReserved 0x1000 0x1000 0 ⟨0, 0x10000000⟩) 0x0fffe000 := by
    refine ⟨hplace, fun b hb => ?_⟩
    have hdvd : 0x1000 ∣ b := hb.dvd
    have hle : b + 0x1000 ≤ 0 + 0x10000000 := hb.le_hi
    have hfree : b + 0x1000 ≤ 0x0ffff800 ∨ 0x0ffff800 + 0x800 ≤ b :=
      hb.free ⟨0x0ffff800, 0x800⟩ (List.mem_singleton.mpr rfl)
    omega
  have halloc : Allocatable topReserved 0x1000 0x1000 0 := by
    refine ⟨by decide, ⟨12, rfl⟩, fun m hm => ?_, fun v hv => ?_, ⟨0, 0x10000000⟩,
      List.mem_singleton.mpr rfl, _, hplace⟩
    · rw [hmemory m hm]
      decide
    · rw [hreserved v hv]
      decide
  refine (allocatesHighest_iff halloc).mpr ⟨fun h => absurd h.1 (by decide), 0x0fffe000, ?_, ?_⟩
  · refine ⟨0, by decide, by decide, hgreatest, fun j hj hlt => ?_⟩
    exact absurd hlt (not_lt.mpr hj)
  · refine ⟨_, List.mem_singleton.mpr rfl, hgreatest, fun m hm _ => ?_⟩
    rw [hmemory m hm]
    exact le_rfl

/-! ### A reserved region that was freed again -/

theorem runCalls_firstPage :
    (runCalls [.reserve 0 0x1000, .free 0 0x1000] lowMemory).map (fun s =>
      (s.reserved.cnt, lmbRegionsAdjacent s.reserved 0 1, entries s.memory)) =
      some (0, -1, [⟨0, 0x10000000⟩]) := by
  decide +kernel

/-- **After that no page is found**, although all are free. -/
theorem not_allocatesHighest :
    ¬ ∀ s, lmbSystem.Reachable s → ∀ size align maxAddr, Allocatable s size align maxAddr →
      AllocatesHighest s size align maxAddr := by
  intro hall
  obtain ⟨s, hrun, hs⟩ := Option.map_eq_some_iff.mp runCalls_firstPage
  simp only [Prod.mk.injEq] at hs
  obtain ⟨hcnt, hadj, hmemory⟩ := hs
  have halloc : Allocatable s 0x1000 0x1000 0 := by
    refine allocatable_page (by rw [hcnt]; decide) hmemory fun v hv => ?_
    rw [entries, hcnt] at hv
    exact absurd hv List.not_mem_nil
  have hreach := reachable_runCalls reachable_lowMemory hrun
  refine ((hall s hreach _ _ _ halloc).lastHighest halloc).1 ⟨hcnt, ?_⟩
  rw [hadj]
  decide

end Lmb
end EmevBsp
