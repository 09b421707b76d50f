import EmevBsp.Lmb.Alloc

/-!
# Tables whose regions may overlap

What is reserved while an image is booted need not keep apart: a length is rounded up over the
next region, and the kernel may be loaded over what the board has reserved.  A table is
*filled* when none of its regions is empty or wraps, or when it is still the empty region of
`lmb_init`.  As long as its entries stand in the order of their addresses, an addition that
succeeds takes no address away from it.

Out of that order it can: the second loop of `lmb_add_region` then writes the new entry over
the first one.

* `AddOutcome.keeps`: what the outcomes of `lmb_add_region` do to the entries of such a table.
* `Filled.addRegion`: **the addresses covered before and those of the range are covered
  after.**
* `sub_le_alignDown`, `size_le_alignUp`: the masks, for an `align` that is no power of two.
* `Filled.allocBase`: **an allocation is free before the call, lies in the memory and below the
  limit, and is reserved after it**, for every `align`.
-/

namespace EmevBsp
namespace Lmb

open IntervalList

/-! ## Adding a range -/

/-- The entries stand in the order of their addresses. -/
def Ascending (l : List LmbProperty) : Prop :=
  l.Pairwise fun p q => lo p ≤ lo q

instance (l : List LmbProperty) : Decidable (Ascending l) :=
  inferInstanceAs (Decidable (l.Pairwise _))

/-- No entry is empty and none ends past the top of the address space. -/
structure Solid (l : List LmbProperty) : Prop where
  lt : ∀ p ∈ l, lo p < hi p
  hi_lt : ∀ p ∈ l, hi p < 2 ^ 32

section

variable {base size : PhysAddr} {l : List LmbProperty}

theorem Solid.set {pre post : List LmbProperty} {p q : LmbProperty} (h : Solid (pre ++ p :: post))
    (hq : lo q < hi q) (hlt : hi q < 2 ^ 32) : Solid (pre ++ q :: post) := by
  constructor
  · intro x hx
    rcases List.mem_append.mp hx with hx | hx
    · exact h.lt x (List.mem_append_left _ hx)
    · rcases List.mem_cons.mp hx with rfl | hx
      · exact hq
      · exact h.lt x (List.mem_append_right _ (List.mem_cons_of_mem p hx))
  · intro x hx
    rcases List.mem_append.mp hx with hx | hx
    · exact h.hi_lt x (List.mem_append_left _ hx)
    · rcases List.mem_cons.mp hx with rfl | hx
      · exact hlt
      · exact h.hi_lt x (List.mem_append_right _ (List.mem_cons_of_mem p hx))

theorem Solid.erase {pre post : List LmbProperty} {p q : LmbProperty}
    (h : Solid (pre ++ p :: q :: post)) : Solid (pre ++ p :: post) := by
  have hsub : ∀ x ∈ pre ++ p :: post, x ∈ pre ++ p :: q :: post := by
    intro x hx
    simp only [List.mem_append, List.mem_cons] at hx ⊢
    tauto
  exact ⟨fun x hx => h.lt x (hsub x hx), fun x hx => h.hi_lt x (hsub x hx)⟩

theorem holds_set {pre post : List LmbProperty} {p q : LmbProperty}
    (hq : Holds q (lo p) (hi p)) :
    ∀ x ∈ pre ++ p :: post, ∃ y ∈ pre ++ q :: post, Holds y (lo x) (hi x) := by
  intro x hx
  rcases List.mem_append.mp hx with hx | hx
  · exact ⟨x, List.mem_append_left _ hx, le_rfl, le_rfl⟩
  · rcases List.mem_cons.mp hx with rfl | hx
    · exact ⟨q, by simp, hq⟩
    · exact ⟨x, List.mem_append_right _ (List.mem_cons_of_mem q hx), le_rfl, le_rfl⟩

theorem merged_bounds {g q : LmbProperty} (hglt : hi g < 2 ^ 32)
    (hqlt : hi q < 2 ^ 32) (horder : lo g < hi q) (hmeet : Meet g q) :
    lo (⟨g.base, g.size + q.size⟩ : LmbProperty) = lo g ∧
      hi (⟨g.base, g.size + q.size⟩ : LmbProperty) = hi q ∧ lo q = hi g := by
  have hend : lo q = hi g := by
    rcases (meet_iff hglt hqlt).mp hmeet with h | h
    · exact h
    · omega
  have hsum : (g.size + q.size).toNat = g.size.toNat + q.size.toNat := by
    refine BitVec.toNat_add_of_lt ?_
    unfold lo hi at *
    omega
  refine ⟨rfl, ?_, hend⟩
  show g.base.toNat + (g.size + q.size).toNat = hi q
  rw [hsum]
  unfold lo hi at *
  omega

theorem AddOutcome.keeps {ret : ℤ} {l' : List LmbProperty} (h : AddOutcome base size l ret l')
    (hl : Solid l) (hsorted : Ascending l) (hsize : 0 < size.toNat)
    (he : base.toNat + size.toNat < 2 ^ 32) (hret : 0 ≤ ret) :
    Solid l' ∧ ∀ x ∈ l, ∃ y ∈ l', Holds y (lo x) (hi x) := by
  have hnew : lo (⟨base, size⟩ : LmbProperty) < hi (⟨base, size⟩ : LmbProperty) :=
    Nat.lt_add_of_pos_right hsize
  have hself : ∀ x ∈ l, ∃ y ∈ l, Holds y (lo x) (hi x) :=
    fun x hx => ⟨x, hx, le_rfl, le_rfl⟩
  cases h with
  | dummy p hp hzero =>
    have hlt := hl.lt p hp
    unfold lo hi at hlt
    rw [hzero] at hlt
    simp at hlt
  | already hmem => exact ⟨hl, hself⟩
  | grown pre p post heq hpre hp hhead =>
    subst heq
    have hplt := hl.lt p (by simp)
    have hphi := hl.hi_lt p (by simp)
    obtain ⟨-, hends⟩ := holds_lmbGrow he.le hphi (Or.inl he) hp
    refine ⟨hl.set (by omega) (by omega), holds_set ⟨?_, ?_⟩⟩
    · omega
    · omega
  | merged pre p q post heq hpre hp hmeet =>
    subst heq
    have hplt := hl.lt p (by simp)
    have hphi := hl.hi_lt p (by simp)
    have hqlt := hl.lt q (by simp)
    have hqhi := hl.hi_lt q (by simp)
    have hpq : lo p ≤ lo q :=
      (List.pairwise_cons.mp (List.pairwise_append.mp hsorted).2.1).1 q List.mem_cons_self
    obtain ⟨-, hends⟩ := holds_lmbGrow he.le hphi (Or.inl he) hp
    obtain ⟨hlo, hhi, hmid⟩ := merged_bounds (show hi (lmbGrow base size p) < 2 ^ 32 by omega)
      hqhi (by omega) hmeet
    refine ⟨hl.erase.set (by omega) (by omega), fun x hx => ?_⟩
    by_cases hxq : x = q
    · subst hxq
      exact ⟨_, List.mem_append_right _ List.mem_cons_self, by omega, by omega⟩
    · refine holds_set ⟨(by omega : _ ≤ lo p), (by omega : hi p ≤ _)⟩ x ?_
      simp only [List.mem_append, List.mem_cons] at hx ⊢
      tauto
  | full hfree hlen => exact absurd hret (by decide)
  | inserted pre post heq hlen hfree habove hbelow =>
    subst heq
    refine ⟨⟨fun x hx => ?_, fun x hx => ?_⟩, fun x hx => ⟨x, ?_, le_rfl, le_rfl⟩⟩
    · rcases List.mem_append.mp hx with hx | hx
      · exact hl.lt x (List.mem_append_left _ hx)
      · rcases List.mem_cons.mp hx with rfl | hx
        · exact hnew
        · exact hl.lt x (List.mem_append_right _ hx)
    · rcases List.mem_append.mp hx with hx | hx
      · exact hl.hi_lt x (List.mem_append_left _ hx)
      · rcases List.mem_cons.mp hx with rfl | hx
        · exact he
        · exact hl.hi_lt x (List.mem_append_right _ hx)
    · rcases List.mem_append.mp hx with hx | hx
      · exact List.mem_append_left _ hx
      · exact List.mem_append_right _ (List.mem_cons_of_mem _ hx)
  | overwritten p pre post heq hlen hp hbelow =>
    -- the entry the loop stopped at would begin below the first one
    exfalso
    subst heq
    obtain ⟨last, hlast⟩ := Option.isSome_iff_exists.mp
      (List.getLast?_isSome.mpr (List.cons_ne_nil p pre))
    have hbase : last.base.toNat ≤ base.toNat := BitVec.not_lt.mp (hbelow last hlast)
    have hlt : base.toNat < p.base.toNat := hp
    rcases List.mem_cons.mp (List.mem_of_getLast? hlast) with rfl | hmem
    · omega
    · have hle := (List.pairwise_cons.mp hsorted).1 last (List.mem_append_left post hmem)
      unfold lo at hle
      omega

end

/-! ## One table -/

/-- A table with one empty region, or with regions none of which is empty or wraps. -/
structure Filled (rgn : LmbRegion) : Prop where
  cnt_pos : 0 < rgn.cnt.toNat
  cnt_le : rgn.cnt.toNat ≤ maxLmbRegions
  used : (∃ p, entries rgn = [p] ∧ p.size = 0) ∨ Solid (entries rgn)

/-- `lmb_reserve` has room for the range, or joins it to an entry. -/
def Accepts (rgn : LmbRegion) (base size : PhysAddr) : Prop :=
  rgn.cnt.toNat < maxLmbRegions ∨ ∃ q ∈ entries rgn, Touches base size q

section

variable {rgn rgn' : LmbRegion} {base size : PhysAddr} {ret : ℤ}

theorem Filled.hi_lt (h : Filled rgn) : ∀ v ∈ entries rgn, hi v < 2 ^ 32 := by
  intro v hv
  rcases h.used with ⟨p, hent, hzero⟩ | hsolid
  · rw [hent] at hv
    rw [List.mem_singleton.mp hv, hi, hzero]
    exact p.base.isLt
  · exact hsolid.hi_lt v hv

theorem Filled.nonneg_of_accepts (h : Filled rgn) (hacc : Accepts rgn base size)
    (hadd : lmbAddRegion rgn base size = some (ret, rgn')) : 0 ≤ ret := by
  obtain ⟨ret', rgn'', hadd', hout⟩ := addRegion_cases h.cnt_pos h.cnt_le base size
  obtain ⟨rfl, rfl⟩ := Prod.mk.inj (Option.some.inj (hadd'.symm.trans hadd))
  by_contra hneg
  obtain ⟨-, -, hlen, hfree⟩ := hout.of_neg (not_le.mp hneg)
  rw [length_entries] at hlen
  rcases hacc with hlt | ⟨q, hq, htouch⟩
  · omega
  · exact hfree q hq htouch

theorem Filled.addRegion_refused (h : Filled rgn)
    (hadd : lmbAddRegion rgn base size = some (ret, rgn')) (hret : ret < 0) :
    Filled rgn' ∧ covered rgn' = covered rgn := by
  obtain ⟨ret', rgn'', hadd', hout⟩ := addRegion_cases h.cnt_pos h.cnt_le base size
  obtain ⟨rfl, rfl⟩ := Prod.mk.inj (Option.some.inj (hadd'.symm.trans hadd))
  obtain ⟨-, hsame, -, -⟩ := hout.of_neg hret
  have hcnt : rgn''.cnt.toNat = rgn.cnt.toNat := by
    rw [← length_entries, hsame, length_entries]
  refine ⟨⟨?_, ?_, ?_⟩, ?_⟩
  · rw [hcnt]
    exact h.cnt_pos
  · rw [hcnt]
    exact h.cnt_le
  · rw [hsame]
    exact h.used
  · rw [covered, hsame, covered]

/-- **A range that is added to entries in order** is covered, and so is what was covered
before. -/
theorem Filled.addRegion (h : Filled rgn) (hsorted : Ascending (entries rgn))
    (hsize : 0 < size.toNat) (he : base.toNat + size.toNat < 2 ^ 32)
    (hadd : lmbAddRegion rgn base size = some (ret, rgn')) (hret : 0 ≤ ret) :
    Filled rgn' ∧ covered rgn ⊆ covered rgn' ∧ range base size ⊆ covered rgn' := by
  obtain ⟨ret', rgn'', hadd', hout⟩ := addRegion_cases h.cnt_pos h.cnt_le base size
  obtain ⟨rfl, rfl⟩ := Prod.mk.inj (Option.some.inj (hadd'.symm.trans hadd))
  have hlen : rgn''.cnt.toNat ≤ maxLmbRegions := by
    rw [← length_entries]
    exact hout.length_le ((length_entries rgn).le.trans h.cnt_le)
  obtain ⟨v, hv, hlo, hhi⟩ := hout.holds hret he.le h.hi_lt (Or.inl he)
  have hrange : range base size ⊆ covered rgn'' :=
    fun a ha => ⟨v, hv, hlo.trans ha.1, ha.2.trans_le hhi⟩
  have hpos : 0 < rgn''.cnt.toNat := by
    rw [← length_entries]
    exact List.length_pos_of_mem hv
  rcases h.used with ⟨p, hent, hzero⟩ | hsolid
  · obtain ⟨rgn₂, hadd₂, hent₂⟩ := addRegion_dummy hent hzero base size
    obtain ⟨-, rfl⟩ := Prod.mk.inj (Option.some.inj (hadd₂.symm.trans hadd'))
    refine ⟨⟨hpos, hlen, Or.inr ?_⟩, ?_, hrange⟩
    · rw [hent₂]
      exact ⟨by simpa [lo, hi] using hsize, by simpa [hi] using he⟩
    · rintro a ⟨q, hq, hqa, haq⟩
      rw [hent] at hq
      rw [List.mem_singleton.mp hq] at hqa haq
      rw [hi, hzero] at haq
      exact absurd hqa (not_le.mpr haq)
  · obtain ⟨hsolid', hholds⟩ := hout.keeps hsolid hsorted hsize he hret
    refine ⟨⟨hpos, hlen, Or.inr hsolid'⟩, ?_, hrange⟩
    rintro a ⟨q, hq, hqa, haq⟩
    obtain ⟨y, hy, hylo, hyhi⟩ := hholds q hq
    exact ⟨y, hy, hylo.trans hqa, haq.trans_le hyhi⟩

end

/-! ## Any `align` -/

theorem sub_le_alignDown (x m : BitVec 32) : x.toNat ≤ (x &&& ~~~m).toNat + m.toNat := by
  have hsplit : (x &&& ~~~m) + (x &&& m) = x := by
    have hzero : (x &&& ~~~m) &&& (x &&& m) = 0#32 := by
      refine BitVec.eq_of_getLsbD_eq fun i hi => ?_
      simp only [BitVec.getLsbD_and, BitVec.getLsbD_not, BitVec.getLsbD_zero]
      cases x.getLsbD i <;> cases m.getLsbD i <;> simp
    rw [BitVec.add_eq_or_of_and_eq_zero _ _ hzero]
    refine BitVec.eq_of_getLsbD_eq fun i hi => ?_
    simp only [BitVec.getLsbD_or, BitVec.getLsbD_and, BitVec.getLsbD_not]
    cases x.getLsbD i <;> cases m.getLsbD i <;> simp [hi]
  have hlow : (x &&& m).toNat ≤ m.toNat := by
    rw [BitVec.toNat_and]
    exact Nat.and_le_right
  calc x.toNat = ((x &&& ~~~m) + (x &&& m)).toNat := by rw [hsplit]
    _ ≤ (x &&& ~~~m).toNat + (x &&& m).toNat := by
        rw [BitVec.toNat_add]
        exact Nat.mod_le _ _
    _ ≤ (x &&& ~~~m).toNat + m.toNat := Nat.add_le_add_left hlow _

theorem size_le_alignUp {size align : PhysAddr} (halign : 0 < align.toNat)
    (hroom : size.toNat + (align.toNat - 1) < 2 ^ 32) :
    size.toNat ≤ (lmbAlignUp size align).toNat ∧
      (lmbAlignUp size align).toNat ≤ size.toNat + (align.toNat - 1) := by
  have hmask : (align - 1).toNat = align.toNat - 1 := by bv_omega
  have hsum : (size + (align - 1)).toNat = size.toNat + (align.toNat - 1) := by
    rw [BitVec.toNat_add_of_lt (by rwa [hmask]), hmask]
  have hle := sub_le_alignDown (size + (align - 1)) (align - 1)
  have hdown := lmbAlignDown_le (size + (align - 1)) align
  rw [hsum] at hle hdown
  rw [hmask] at hle
  exact ⟨by unfold lmbAlignUp; omega, hdown⟩

/-! ## Allocations -/

section

variable {size align maxAddr : PhysAddr}

theorem start_add_le {m : LmbProperty} {s : PhysAddr}
    (h : lmbAllocStart m size align maxAddr = some s) (hm : hi m < 2 ^ 32)
    (hmax : maxAddr ≠ 0 → size.toNat ≤ maxAddr.toNat) :
    s.toNat + size.toNat ≤ topAddr m maxAddr := by
  obtain ⟨hfits, hreach⟩ := searched_of_start h
  have hend : (m.base + m.size).toNat = hi m := BitVec.toNat_add_of_lt hm
  have hle : size.toNat ≤ (m.base + m.size).toNat :=
    hend ▸ (BitVec.not_lt.mp hfits).trans (Nat.le_add_left _ _)
  have hdown : ∀ x : PhysAddr, size.toNat ≤ x.toNat →
      (lmbAlignDown (x - size) align).toNat + size.toNat ≤ x.toNat := by
    intro x hx
    have := lmbAlignDown_le (x - size) align
    rw [BitVec.toNat_sub_of_le (BitVec.le_def.mpr hx)] at this
    omega
  rw [lmbAllocStart, if_neg hfits] at h
  rw [topAddr, ← hend]
  by_cases h0 : maxAddr = 0
  · rw [if_pos h0] at h ⊢
    obtain rfl := Option.some.inj h
    exact hdown _ hle
  · rw [if_neg h0, if_pos (hreach.resolve_left h0)] at h
    obtain rfl := Option.some.inj h
    rw [if_neg h0]
    unfold minAddr
    split_ifs with hlt
    · rw [min_eq_left (BitVec.lt_def.mp hlt).le]
      exact hdown _ hle
    · rw [min_eq_right (not_lt.mp fun hlt' => hlt (BitVec.lt_def.mpr hlt'))]
      exact hdown _ (hmax h0)

/-- The inputs for which an allocation takes its place: the range is not empty, the entries
stand in order, and in every memory region that is looked into no sum and no difference of
32 bits wraps. -/
structure AllocSafe (lmb : Lmb) (size align maxAddr : PhysAddr) : Prop where
  size_pos : 0 < size.toNat
  sorted : Ascending (entries lmb.reserved)
  limit : maxAddr ≠ 0 → size.toNat ≤ maxAddr.toNat
  memory : ∀ m ∈ entries lmb.memory, Searched m size maxAddr →
    hi m < 2 ^ 32 ∧ topAddr m maxAddr + (align.toNat - 1) < 2 ^ 32

/-- What a range that was allocated is. -/
structure Allocated (lmb lmb' : Lmb) (size maxAddr r : PhysAddr) : Prop where
  no_wrap : r.toNat + size.toNat < 2 ^ 32
  memory : ∃ m ∈ entries lmb.memory, Holds m r.toNat (r.toNat + size.toNat)
  limit : maxAddr ≠ 0 → r.toNat + size.toNat ≤ maxAddr.toNat
  free : Disjoint (range r size) (covered lmb.reserved)
  kept : covered lmb.reserved ⊆ covered lmb'.reserved
  reserved : range r size ⊆ covered lmb'.reserved

/-- **An allocation** from a filled table, for every `align`. -/
theorem Filled.allocBase {lmb lmb' : Lmb} {r : PhysAddr} (h : Filled lmb.reserved)
    (halign : 0 < align.toNat) (hsafe : AllocSafe lmb size align maxAddr)
    (hcall : lmbAllocBase lmb size align maxAddr = some (r, lmb')) (hr : r ≠ 0) :
    Filled lmb'.reserved ∧ Allocated lmb lmb' size maxAddr r := by
  rw [lmbAllocBase] at hcall
  cases hfind : lmbAllocFind lmb size align maxAddr lmb.memory.cnt.toNat with
  | none =>
    rw [hfind] at hcall
    exact absurd (Prod.mk.inj (Option.some.inj hcall)).1.symm hr
  | some b =>
    rw [hfind] at hcall
    obtain ⟨⟨ret, rgn'⟩, hadd, heq⟩ := Option.map_eq_some_iff.mp hcall
    obtain ⟨hrb, rfl⟩ := Prod.mk.inj heq
    have hret : 0 ≤ ret := by
      by_contra hneg
      rw [if_pos (not_le.mp hneg)] at hrb
      exact hr hrb.symm
    rw [if_neg (not_lt.mpr hret)] at hrb
    subst hrb
    obtain ⟨i, hi', s, hstart, hwalk⟩ := allocFind_spec hfind
    obtain ⟨-, hlo, hble, hover⟩ := allocWalk_le hwalk
    have hmem : lmb.memory.region i ∈ entries lmb.memory := mem_entries.mpr ⟨i, hi', rfl⟩
    obtain ⟨hm, htop⟩ := hsafe.memory _ hmem (searched_of_start hstart)
    have hs := start_add_le hstart hm hsafe.limit
    have htople : topAddr (lmb.memory.region i) maxAddr ≤ hi (lmb.memory.region i) ∧
        (maxAddr ≠ 0 → topAddr (lmb.memory.region i) maxAddr ≤ maxAddr.toNat) := by
      unfold topAddr
      split_ifs with h0
      · exact ⟨le_rfl, fun h => absurd h0 h⟩
      · exact ⟨min_le_left _ _, fun _ => min_le_right _ _⟩
    have hend : b.toNat + size.toNat ≤ topAddr (lmb.memory.region i) maxAddr := by omega
    have hlt : b.toNat + size.toNat < 2 ^ 32 := by omega
    have hround : size.toNat + (align.toNat - 1) < 2 ^ 32 := by omega
    obtain ⟨hup, hup'⟩ := size_le_alignUp halign hround
    have hpos := hsafe.size_pos
    obtain ⟨hfilled, hkept, hrange⟩ :=
      h.addRegion hsafe.sorted (by omega) (by omega) hadd hret
    refine ⟨hfilled, hlt, ⟨_, hmem, hlo, hend.trans htople.1⟩, fun h0 => hend.trans (htople.2 h0),
      ?_, hkept, fun a ha => hrange ⟨ha.1, ha.2.trans_le (Nat.add_le_add_left hup _)⟩⟩
    refine Set.disjoint_left.mpr fun a ha hcover => ?_
    obtain ⟨v, hv, hva⟩ := hcover
    have hside := le_or_le_of_overlaps_none hover hlt h.hi_lt hv
    obtain ⟨ha1, ha2⟩ := ha
    obtain ⟨hv1, hv2⟩ := hva
    omega

end

end Lmb
end EmevBsp
