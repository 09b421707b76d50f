import EmevBsp.Lmb.Stops
import Mathlib.Order.Interval.Set.Disjoint

/-!
# Allocations whose length is rounded up

`__lmb_alloc_base` looks for a range of `size` bytes and reserves one of `lmb_align_up(size,
align)` bytes at the same place.  What is added by the rounding was never looked at, and it may
belong to a reserved region already.

The table is disjoint after a call exactly when the entry that is made of the rounded range, or
of the entries it is joined to, meets no other entry (`JoinsClear`).  Nothing is assumed about
sums that wrap or about the order of the entries.

* `addRegion_disjoint_iff`: `lmb_add_region` on a disjoint table.
* `staysDisjoint_iff`: `lmb_alloc_base` on a disjoint table.
* `not_staysDisjoint`: a page is reserved over a region in its second half.
-/

namespace EmevBsp
namespace Lmb

/-! ## Disjoint entries -/

/-- The two regions share no address. -/
def Clear (p q : LmbProperty) : Prop :=
  Disjoint (range p.base p.size) (range q.base q.size)

/-- No address is in two of the entries. -/
def DisjointEntries (l : List LmbProperty) : Prop :=
  l.Pairwise Clear

/-- What is made of the range meets no other entry.  A range that touches no entry must share no
address with one, and unless it is empty, not begin below the first entry and above a later one:
then it is put into the table twice.  A range that touches an entry is joined to it, and the
joined entry must share no address with the entries that stay. -/
structure JoinsClear (l : List LmbProperty) (base size : PhysAddr) : Prop where
  alone : (∀ q ∈ l, q ≠ ⟨base, size⟩ ∧ ¬ Touches base size q) →
    (∀ v ∈ l, Clear ⟨base, size⟩ v) ∧
      (size ≠ 0 → ∀ p, l.head? = some p → base < p.base → ∀ q ∈ l, base < q.base)
  joined : ∀ pre g post, Joins l base size pre g post → ∀ x ∈ pre ++ post, Clear g x

theorem clear_iff {p q : LmbProperty} :
    Clear p q ↔ min (hi p) (hi q) ≤ max (lo p) (lo q) :=
  Set.Ico_disjoint_Ico

theorem Clear.symm {p q : LmbProperty} (h : Clear p q) : Clear q p :=
  Disjoint.symm h

theorem clear_of_empty {p : LmbProperty} (h : p.size = 0) (q : LmbProperty) : Clear q p := by
  have hends : hi p = lo p := by
    rw [hi, h]
    rfl
  rw [clear_iff, hends]
  exact (min_le_right _ _).trans (le_max_right _ _)

theorem disjointEntries_middle {pre post : List LmbProperty} {p : LmbProperty} :
    DisjointEntries (pre ++ p :: post) ↔
      (∀ x ∈ pre ++ post, Clear p x) ∧ DisjointEntries (pre ++ post) := by
  rw [DisjointEntries, List.pairwise_middle Clear.symm, List.pairwise_cons]
  rfl

theorem joinsClear_nil (base size : PhysAddr) : JoinsClear [] base size := by
  refine ⟨fun _ => ⟨fun v hv => absurd hv List.not_mem_nil, fun _ p hp => absurd hp (by simp)⟩,
    fun pre g post hjoins => ?_⟩
  obtain ⟨p, post', heq, -⟩ := hjoins.firstTouched
  exact absurd heq (by simp)

/-! ## Adding a range -/

section

variable {rgn rgn' : LmbRegion} {base size : PhysAddr} {ret : ℤ}

theorem joinsClear_dummy {p : LmbProperty} (hempty : p.size = 0) : JoinsClear [p] base size := by
  refine ⟨fun _ => ⟨fun v hv => ?_, fun _ p' hp' hlt q hq => ?_⟩, fun pre g post hjoins => ?_⟩
  · rw [List.mem_singleton.mp hv]
    exact clear_of_empty hempty _
  · obtain rfl := Option.some.inj hp'
    rwa [List.mem_singleton.mp hq]
  · have hnil : pre = [] ∧ post = [] := by
      cases hjoins with
      | grown p' _ heq =>
        rw [List.singleton_eq_append_iff] at heq
        rcases heq with ⟨rfl, heq⟩ | ⟨-, heq⟩
        · exact ⟨rfl, (List.cons.inj heq).2⟩
        · exact absurd heq (by simp)
      | merged p' q _ heq =>
        have hlen := congrArg List.length heq
        simp only [List.length_append, List.length_cons, List.length_nil] at hlen
        omega
    intro x hx
    rw [hnil.1, hnil.2] at hx
    exact absurd hx List.not_mem_nil

theorem insert_disjoint_iff (hpos : 0 < rgn.cnt.toNat) (hcnt : rgn.cnt.toNat < maxLmbRegions)
    (hdisj : DisjointEntries (entries rgn))
    (halone : ∀ q ∈ entries rgn, q ≠ ⟨base, size⟩ ∧ ¬ Touches base size q) :
    DisjointEntries (entries (lmbInsert rgn base size)) ↔ JoinsClear (entries rgn) base size := by
  have hiff : JoinsClear (entries rgn) base size ↔ (∀ v ∈ entries rgn, Clear ⟨base, size⟩ v) ∧
      (size ≠ 0 → ∀ p, (entries rgn).head? = some p → base < p.base →
        ∀ q ∈ entries rgn, base < q.base) := by
    refine ⟨fun h => h.alone halone, fun h => ⟨fun _ => h, fun pre g post hjoins => ?_⟩⟩
    exact absurd hjoins (not_joins_of_alone halone)
  rw [hiff]
  obtain ⟨pre, post, hsplit, habove, hbelow, ⟨hhead, hent⟩ | ⟨x, pre, rfl, hx, hent⟩⟩ :=
    exists_insert hpos hcnt base size
  · rw [hsplit] at hdisj
    rw [hent, hsplit, disjointEntries_middle, and_iff_left hdisj]
    refine (and_iff_left fun _ p hp hlt => ?_).symm
    cases pre with
    | nil => exact habove
    | cons y pre => exact absurd hlt (hhead p hp)
  · rw [hent]
    by_cases hzero : size = 0
    · -- both copies are empty
      have hrest : DisjointEntries (pre ++ post) := by
        rw [hsplit] at hdisj
        exact (List.pairwise_cons.mp hdisj).2
      have hclear : ∀ v, Clear ⟨base, size⟩ v := fun v => (clear_of_empty hzero v).symm
      refine iff_of_true ?_ ⟨fun v _ => hclear v, fun h => absurd hzero h⟩
      refine List.pairwise_cons.mpr ⟨fun v _ => hclear v, ?_⟩
      exact disjointEntries_middle.mpr ⟨fun v _ => hclear v, hrest⟩
    · refine iff_of_false (fun h => ?_) fun ⟨_, horder⟩ => ?_
      · have hself := (List.pairwise_cons.mp h).1 ⟨base, size⟩ (by simp)
        have hsize : 0 < size.toNat := by bv_omega
        have hmem : base.toNat ∈ range base size := ⟨le_rfl, Nat.lt_add_of_pos_right hsize⟩
        exact Set.disjoint_left.mp hself hmem hmem
      · obtain ⟨y, hy⟩ : ∃ y, (x :: pre).getLast? = some y := ⟨_, List.getLast?_cons⟩
        have hmem : y ∈ entries rgn := by
          rw [hsplit]
          exact List.mem_append_left _ (List.mem_of_getLast? hy)
        exact hbelow y hy (horder hzero x (by rw [hsplit]; rfl) hx y hmem)

theorem Joins.disjoint_iff {l pre post : List LmbProperty} {g : LmbProperty}
    (h : Joins l base size pre g post) (hdisj : DisjointEntries l) :
    DisjointEntries (pre ++ g :: post) ↔ JoinsClear l base size := by
  have hrest : DisjointEntries (pre ++ post) := by
    cases h with
    | grown p _ heq =>
      rw [heq, disjointEntries_middle] at hdisj
      exact hdisj.2
    | merged p q _ heq =>
      rw [heq, disjointEntries_middle] at hdisj
      exact (disjointEntries_middle.mp hdisj.2).2
  rw [disjointEntries_middle, and_iff_left hrest]
  constructor
  · refine fun hclear => ⟨fun halone => absurd h (not_joins_of_alone halone),
      fun pre' g' post' h' => ?_⟩
    obtain ⟨rfl, rfl, rfl⟩ := h.unique h'
    exact hclear
  · exact fun hclear => hclear.joined pre g post h

/-- **A range is added to disjoint entries.** -/
theorem addRegion_disjoint_iff (hcnt : rgn.cnt.toNat ≤ maxLmbRegions)
    (hdisj : DisjointEntries (entries rgn))
    (hadd : lmbAddRegion rgn base size = some (ret, rgn')) (hret : 0 ≤ ret) :
    DisjointEntries (entries rgn') ↔ JoinsClear (entries rgn) base size := by
  by_cases hzero : rgn.cnt = 0
  · have hnil : entries rgn = [] := by
      rw [entries, hzero]
      rfl
    rw [(entries_empty_add hzero hadd).2, hnil]
    exact iff_of_true (List.pairwise_singleton _ _) (joinsClear_nil base size)
  have hpos : 0 < rgn.cnt.toNat := by bv_omega
  by_cases hdummy : rgn.cnt = 1 ∧ (rgn.region 0).size = 0
  · have hone : entries rgn = [rgn.region 0] := by
      rw [entries, hdummy.1]
      rfl
    obtain ⟨rgn'', hadd', hent⟩ := addRegion_dummy hone hdummy.2 base size
    obtain ⟨-, rfl⟩ := Prod.mk.inj (Option.some.inj (hadd'.symm.trans hadd))
    rw [hent, hone]
    exact iff_of_true (List.pairwise_singleton _ _) (joinsClear_dummy hdummy.2)
  rcases addRegion_entries hpos hcnt hdummy hadd hret with
    ⟨hmem, hent, hnone⟩ | ⟨pre, g, post, hjoins, hent⟩ | ⟨halone, hlt, rfl⟩
  · rw [hent]
    refine iff_of_true hdisj
      ⟨fun halone => absurd rfl (halone _ hmem).1, fun pre g post hjoins => ?_⟩
    exact absurd hjoins (hnone pre g post)
  · rw [hent]
    exact hjoins.disjoint_iff hdisj
  · exact insert_disjoint_iff hpos hlt hdisj halone

end

/-! ## The call -/

/-- A call that returns an address leaves the reserved regions disjoint. -/
def StaysDisjoint (lmb : Lmb) (size align maxAddr : PhysAddr) : Prop :=
  ∀ r lmb', lmbAllocBase lmb size align maxAddr = some (r, lmb') → r ≠ 0 →
    DisjointEntries (entries lmb'.reserved)

/-- The reserved regions are disjoint, and the arguments are any that a caller may pass. -/
structure DisjointBefore (lmb : Lmb) (size align : PhysAddr) : Prop where
  cnt_le : lmb.reserved.cnt.toNat ≤ maxLmbRegions
  size_pos : 0 < size.toNat
  aligned : ∃ k, align.toNat = 2 ^ k
  disjoint : DisjointEntries (entries lmb.reserved)

section

variable {lmb : Lmb} {size align maxAddr b : PhysAddr} {m : LmbProperty}

theorem StopsAt.stays_iff (h : DisjointBefore lmb size align)
    (hb : StopsAt lmb size align maxAddr m b) :
    StaysDisjoint lmb size align maxAddr ↔
      NoPlace (entries lmb.reserved) b (lmbAlignUp size align) ∨
        JoinsClear (entries lmb.reserved) b (lmbAlignUp size align) := by
  obtain ⟨k, halign⟩ := h.aligned
  rw [StaysDisjoint]
  rcases hb.call halign h.cnt_le with
    ⟨⟨hzero, -⟩, hcall⟩ | ⟨hplace, hcall⟩ | ⟨hplace, ret, rgn', hret, hadd, hcall⟩
  · have hnil : entries lmb.reserved = [] := by
      rw [entries, hzero]
      rfl
    rw [hcall, hnil]
    exact iff_of_true (fun r lmb' h => absurd h (Option.some_ne_none _).symm)
      (Or.inr (joinsClear_nil _ _))
  · rw [hcall]
    refine iff_of_true (fun r lmb' h hr => ?_) (Or.inl hplace)
    exact absurd (congrArg Prod.fst (Option.some.inj h)).symm hr
  · rw [hcall, or_iff_right hplace, ← addRegion_disjoint_iff h.cnt_le h.disjoint hadd hret]
    constructor
    · exact fun hall => hall b _ rfl hb.seemsFree.ne_zero
    · intro hdisj r lmb' heq _
      obtain ⟨-, rfl⟩ := Prod.mk.inj (Option.some.inj heq)
      exact hdisj

/-- **Disjointness.**  An allocation leaves the reserved regions disjoint exactly when, where the
search stops, the rounded range finds no room in the table, or what is made of it there meets no
other entry. -/
theorem staysDisjoint_iff (h : DisjointBefore lmb size align) :
    StaysDisjoint lmb size align maxAddr ↔
      ∀ m b, StopsAt lmb size align maxAddr m b →
        NoPlace (entries lmb.reserved) b (lmbAlignUp size align) ∨
          JoinsClear (entries lmb.reserved) b (lmbAlignUp size align) := by
  constructor
  · exact fun hstays m b hb => (hb.stays_iff h).mp hstays
  · intro hall
    by_cases hstops : ∃ m b, StopsAt lmb size align maxAddr m b
    · obtain ⟨m, b, hb⟩ := hstops
      exact (hb.stays_iff h).mpr (hall m b hb)
    · obtain ⟨k, halign⟩ := h.aligned
      have hcall := allocBase_of_not_stopsAt halign fun m b hb => hstops ⟨m, b, hb⟩
      intro r lmb' heq hr
      exact absurd (congrArg Prod.fst (Option.some.inj (hcall.symm.trans heq))).symm hr

end

/-! ### A region in the last half page -/

theorem disjointBefore_topReserved {size : PhysAddr} (h : 0 < size.toNat) :
    DisjointBefore topReserved size 0x1000 :=
  ⟨by decide, h, ⟨12, rfl⟩, List.pairwise_singleton _ _⟩

/-- Two pages fit below the region. -/
theorem staysDisjoint_topReserved :
    StaysDisjoint topReserved 0x2000 0x1000 0 := by
  refine (staysDisjoint_iff (disjointBefore_topReserved (by decide))).mpr fun m b hb => Or.inr ?_
  have hfind : lmbAllocFind topReserved 0x2000 0x1000 0 topReserved.memory.cnt.toNat =
      some 0x0fffd000 := by
    decide +kernel
  obtain rfl : 0x0fffd000 = b := Option.some.inj
    (hfind.symm.trans ((allocFind_eq_some_iff (k := 12) rfl).mpr ⟨m, hb⟩))
  have halone : ∀ q ∈ entries topReserved.reserved,
      q ≠ ⟨0x0fffd000, lmbAlignUp 0x2000 0x1000⟩ ∧
        ¬ Touches 0x0fffd000 (lmbAlignUp 0x2000 0x1000) q := by
    decide +kernel
  refine ⟨fun _ => ⟨fun v hv => ?_, fun _ p hp hlt q hq => ?_⟩, fun pre g post hjoins => ?_⟩
  · rw [List.mem_singleton.mp (show v ∈ [⟨0x0ffff800, 0x800⟩] from hv), clear_iff]
    decide
  · rw [List.mem_singleton.mp (show q ∈ [⟨0x0ffff800, 0x800⟩] from hq)]
    decide
  · exact absurd hjoins (not_joins_of_alone halone)

/-- **The whole page is reserved**, over the region in its second half. -/
theorem not_staysDisjoint :
    ¬ ∀ s, lmbSystem.Reachable s → ∀ size align maxAddr, DisjointBefore s size align →
      StaysDisjoint s size align maxAddr := by
  intro hall
  have hcall : ∃ t, lmbAllocBase topReserved 0x100 0x1000 0 = some (0x0ffff000, t) ∧
      entries t.reserved = [⟨0x0ffff000, 0x1000⟩, ⟨0x0ffff800, 0x800⟩] := by
    have hrun : (lmbAllocBase topReserved 0x100 0x1000 0).map
        (fun res => (res.1, entries res.2.reserved)) =
        some (0x0ffff000, [⟨0x0ffff000, 0x1000⟩, ⟨0x0ffff800, 0x800⟩]) := by
      decide +kernel
    obtain ⟨⟨r, t⟩, hcall, heq⟩ := Option.map_eq_some_iff.mp hrun
    obtain ⟨rfl, hent⟩ := Prod.mk.inj heq
    exact ⟨t, hcall, hent⟩
  obtain ⟨t, hcall, hent⟩ := hcall
  have hdisj := hall _ reachable_topReserved _ _ _ (disjointBefore_topReserved (by decide)) _ t
    hcall (by decide)
  rw [hent] at hdisj
  have hclear := (List.pairwise_cons.mp hdisj).1 _ List.mem_cons_self
  rw [clear_iff] at hclear
  exact absurd hclear (by decide)

end Lmb
end EmevBsp
