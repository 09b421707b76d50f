import EmevBsp.Library.Alignment
import EmevBsp.Library.TransitionSystem
import EmevBsp.Lmb.Apart

/-!
# The search for a free range

`lmb_alloc_base` goes through the memory regions from the last one down, and in each one from
its end (or the limit) downwards, from one reserved region that is in the way to the next.
What it finds is reserved with its length rounded up.

Both loops compute with 32 bits.  Where an end or a difference wraps, the search can return a
range that is not in the memory or that is reserved already, and the rounded length can make
the new entry vanish.  Here are the loops as the code has them and the results of a call;
where the search stops, as a statement about the tables, is in `EmevBsp.Lmb.Stops`, and when
the result is right in `EmevBsp.Lmb.Sound`.
-/

namespace EmevBsp
namespace Lmb

open IntervalList

/-! ## The code -/

/-- `lmb_overlaps_region`; `none` is its result `-1`. -/
def lmbOverlapsRegion (rgn : LmbRegion) (base size : PhysAddr) : Option ℕ :=
  (List.range rgn.cnt.toNat).find? fun i =>
    lmbAddrsOverlap base size (rgn.region i).base (rgn.region i).size

def lmbAlignDown (addr size : PhysAddr) : PhysAddr :=
  addr &&& ~~~(size - 1)

def lmbAlignUp (addr size : PhysAddr) : PhysAddr :=
  (addr + (size - 1)) &&& ~~~(size - 1)

theorem lmbAlignDown_le (addr size : PhysAddr) : (lmbAlignDown addr size).toNat ≤ addr.toNat := by
  rw [lmbAlignDown, BitVec.toNat_and]
  exact Nat.and_le_left

theorem next_lt {rgn : LmbRegion} {base size align : PhysAddr} {j : ℕ}
    (hj : lmbOverlapsRegion rgn base size = some j) (hle : ¬ (rgn.region j).base < size) :
    (lmbAlignDown ((rgn.region j).base - size) align).toNat < base.toNat := by
  have hover := (List.find?_range_eq_some.mp hj).1
  rw [lmbAddrsOverlap, Bool.and_eq_true, decide_eq_true_eq, decide_eq_true_eq] at hover
  have hlt := hover.2
  have hdown := lmbAlignDown_le ((rgn.region j).base - size) align
  bv_omega

/-- The inner loop of `__lmb_alloc_base` from `base` down, in a memory region that begins at
`lmbbase`: the free range it stops at. -/
def lmbAllocWalk (reserved : LmbRegion) (lmbbase size align base : PhysAddr) : Option PhysAddr :=
  if base ≠ 0 ∧ lmbbase ≤ base then
    match _hj : lmbOverlapsRegion reserved base size with
    -- This area isn't reserved, take it
    | none => some base
    | some j =>
      if _hle : (reserved.region j).base < size then none
      else lmbAllocWalk reserved lmbbase size align
        (lmbAlignDown ((reserved.region j).base - size) align)
  else none
termination_by base.toNat
decreasing_by exact next_lt _hj _hle

theorem allocWalk_of_overlaps_none {reserved : LmbRegion} {base size : PhysAddr}
    (h : lmbOverlapsRegion reserved base size = none) (lmbbase align : PhysAddr) :
    lmbAllocWalk reserved lmbbase size align base =
      if base ≠ 0 ∧ lmbbase ≤ base then some base else none := by
  rw [lmbAllocWalk]
  split_ifs
  · split
    · rfl
    · next j hj =>
      rw [h] at hj
      cases hj
  · rfl

/-- The `min` of common.h. -/
def minAddr (x y : PhysAddr) : PhysAddr :=
  if x < y then x else y

/-- Where the outer loop starts in the memory region `m`; `none` where it continues. -/
def lmbAllocStart (m : LmbProperty) (size align maxAddr : PhysAddr) : Option PhysAddr :=
  if m.size < size then none
  else if maxAddr = 0 then some (lmbAlignDown (m.base + m.size - size) align)
  else if m.base < maxAddr then
    some (lmbAlignDown (minAddr (m.base + m.size) maxAddr - size) align)
  else none

/-- The outer loop over the memory regions below place `n`, downwards. -/
def lmbAllocFind (lmb : Lmb) (size align maxAddr : PhysAddr) : ℕ → Option PhysAddr
  | 0 => none
  | i + 1 =>
    match (lmbAllocStart (lmb.memory.region i) size align maxAddr).bind
        (lmbAllocWalk lmb.reserved (lmb.memory.region i).base size align) with
    | some base => some base
    | none => lmbAllocFind lmb size align maxAddr i

/-- `__lmb_alloc_base`: the address, zero for none, and the map.  `lmb_alloc_base` prints a
line for zero and returns the same. -/
def lmbAllocBase (lmb : Lmb) (size align maxAddr : PhysAddr) : Option (PhysAddr × Lmb) :=
  match lmbAllocFind lmb size align maxAddr lmb.memory.cnt.toNat with
  | none => some (0, lmb)
  | some base =>
    (lmbAddRegion lmb.reserved base (lmbAlignUp size align)).map fun (ret, rgn) =>
      (if ret < 0 then 0 else base, { lmb with reserved := rgn })

/-! ## What the search finds -/

/-- The search looks into the memory region `m`. -/
def Searched (m : LmbProperty) (size maxAddr : PhysAddr) : Prop :=
  ¬ m.size < size ∧ (maxAddr = 0 ∨ m.base < maxAddr)

instance (m : LmbProperty) (size maxAddr : PhysAddr) : Decidable (Searched m size maxAddr) :=
  inferInstanceAs (Decidable (_ ∧ _))

/-- The address a range in `m` must not pass. -/
def topAddr (m : LmbProperty) (maxAddr : PhysAddr) : ℕ :=
  if maxAddr = 0 then hi m else min (hi m) maxAddr.toNat

/-- The highest multiple of `align` at which a range in `m` may begin. -/
def highest (m : LmbProperty) (size align maxAddr : PhysAddr) : ℕ :=
  (topAddr m maxAddr - size.toNat) / align.toNat * align.toNat

section

variable {m : LmbProperty} {size align maxAddr : PhysAddr} {k : ℕ}

theorem searched_of_start {s : PhysAddr} (h : lmbAllocStart m size align maxAddr = some s) :
    Searched m size maxAddr := by
  rw [lmbAllocStart] at h
  split_ifs at h with hsize hmax hlt
  · exact ⟨hsize, Or.inl hmax⟩
  · exact ⟨hsize, Or.inr hlt⟩

theorem start_of_searched (halign : align.toNat = 2 ^ k) (h : Searched m size maxAddr)
    (hm : hi m < 2 ^ 32) (hmax : maxAddr ≠ 0 → size.toNat ≤ maxAddr.toNat) :
    ∃ s, lmbAllocStart m size align maxAddr = some s ∧
      s.toNat = highest m size align maxAddr ∧ size.toNat ≤ topAddr m maxAddr := by
  have hsize : size.toNat ≤ m.size.toNat := BitVec.not_lt.mp h.1
  have hhi : (m.base + m.size).toNat = hi m := BitVec.toNat_add_of_lt hm
  have hle : size.toNat ≤ hi m := hsize.trans (Nat.le_add_left _ _)
  rw [lmbAllocStart, if_neg h.1, highest, topAddr, halign]
  by_cases h0 : maxAddr = 0
  · rw [if_pos h0, if_pos h0]
    refine ⟨_, rfl, ?_, hle⟩
    rw [lmbAlignDown, Alignment.toNat_alignDown halign,
      BitVec.toNat_sub_of_le (BitVec.le_def.mpr (by omega)), hhi]
  · have hmin : (minAddr (m.base + m.size) maxAddr).toNat = min (hi m) maxAddr.toNat := by
      unfold minAddr
      split_ifs with hlt
      · rw [BitVec.lt_def, hhi] at hlt
        rw [hhi, min_eq_left hlt.le]
      · rw [BitVec.lt_def, hhi, not_lt] at hlt
        rw [min_eq_right hlt]
    have hsmall : size.toNat ≤ min (hi m) maxAddr.toNat := le_min hle (hmax h0)
    rw [if_neg h0, if_neg h0, if_pos (h.2.resolve_left h0)]
    refine ⟨_, rfl, ?_, hsmall⟩
    rw [lmbAlignDown, Alignment.toNat_alignDown halign,
      BitVec.toNat_sub_of_le (BitVec.le_def.mpr (by omega)), hmin]

/-- **The inner loop** stops at or below its start, in the memory region, where it sees no
reserved region. -/
theorem allocWalk_le {reserved : LmbRegion} {lmbbase base b : PhysAddr}
    (h : lmbAllocWalk reserved lmbbase size align base = some b) :
    b ≠ 0 ∧ lmbbase ≤ b ∧ b.toNat ≤ base.toNat ∧ lmbOverlapsRegion reserved b size = none := by
  fun_induction lmbAllocWalk reserved lmbbase size align base with
  | case1 base hin hnone =>
    obtain rfl := Option.some.inj h
    exact ⟨hin.1, hin.2, le_rfl, hnone⟩
  | case2 base hin j hj hlt => exact absurd h (by simp)
  | case3 base hin j hj hle ih =>
    obtain ⟨hb, hlo, hble, hover⟩ := ih h
    exact ⟨hb, hlo, hble.trans (next_lt hj hle).le, hover⟩
  | case4 base hin => exact absurd h (by simp)

end

/-- **The outer loop** stops at the last memory region in which the inner one finds a
range. -/
theorem allocFind_spec {lmb : Lmb} {size align maxAddr b : PhysAddr} {n : ℕ}
    (h : lmbAllocFind lmb size align maxAddr n = some b) :
    ∃ i < n, ∃ s, lmbAllocStart (lmb.memory.region i) size align maxAddr = some s ∧
      lmbAllocWalk lmb.reserved (lmb.memory.region i).base size align s = some b := by
  induction n with
  | zero => exact absurd h (by simp [lmbAllocFind])
  | succ n ih =>
    rw [lmbAllocFind] at h
    split at h
    · next base hbind =>
      obtain rfl := Option.some.inj h
      obtain ⟨s, hstart, hwalk⟩ := Option.bind_eq_some_iff.mp hbind
      exact ⟨n, Nat.lt_succ_self n, s, hstart, hwalk⟩
    · obtain ⟨i, hi, hfound⟩ := ih h
      exact ⟨i, hi.trans (Nat.lt_succ_self n), hfound⟩

theorem le_or_le_of_overlaps_none {rgn : LmbRegion} {base size : PhysAddr}
    (h : lmbOverlapsRegion rgn base size = none) (he : base.toNat + size.toNat < 2 ^ 32)
    (hrgn : ∀ v ∈ entries rgn, hi v < 2 ^ 32) {v : LmbProperty} (hv : v ∈ entries rgn) :
    hi v ≤ base.toNat ∨ base.toNat + size.toNat ≤ lo v := by
  have hlt := hrgn v hv
  obtain ⟨i, hi', rfl⟩ := mem_entries.mp hv
  have hover := List.find?_range_eq_none.mp h i hi'
  have hhi : ((rgn.region i).base + (rgn.region i).size).toNat = hi (rgn.region i) :=
    BitVec.toNat_add_of_lt hlt
  have hend : (base + size).toNat = base.toNat + size.toNat := BitVec.toNat_add_of_lt he
  rw [lmbAddrsOverlap, Bool.not_eq_true', Bool.and_eq_false_iff, decide_eq_false_iff_not,
    decide_eq_false_iff_not, BitVec.lt_def, BitVec.lt_def, hhi, hend] at hover
  unfold lo
  omega

/-! ## Reserving what was found -/

/-- The region `p` holds the range from `r` to `t`. -/
def Holds (p : LmbProperty) (r t : ℕ) : Prop :=
  lo p ≤ r ∧ t ≤ hi p

section

variable {base size : PhysAddr} {p : LmbProperty}

theorem holds_lmbGrow (he : base.toNat + size.toNat ≤ 2 ^ 32)
    (hp : hi p < 2 ^ 32) (htop : base.toNat + size.toNat < 2 ^ 32 ∨ lo p ≠ 0)
    (htouch : Touches base size p) :
    Holds (lmbGrow base size p) base.toNat (base.toNat + size.toNat) ∧
      (lo (lmbGrow base size p) = base.toNat ∧ hi (lmbGrow base size p) = hi p ∧
          base.toNat + size.toNat = lo p ∨
        lo (lmbGrow base size p) = lo p ∧
          hi (lmbGrow base size p) = base.toNat + size.toNat ∧ hi p = base.toNat) := by
  have hhi : (p.base + p.size).toNat = hi p := BitVec.toNat_add_of_lt hp
  by_cases habove : p.base = base + size
  · have hlt : base.toNat + size.toNat < 2 ^ 32 := by
      rcases htop with htop | htop
      · exact htop
      · refine lt_of_le_of_ne he fun heq => htop ?_
        rw [lo, habove, BitVec.toNat_add, heq, Nat.mod_self]
    have hlo : lo p = base.toNat + size.toNat := by
      rw [lo, habove, BitVec.toNat_add_of_lt hlt]
    obtain ⟨hglo, hghi⟩ := lmbGrow_above hlt hp hlo
    refine ⟨⟨hglo.le, ?_⟩, Or.inl ⟨hglo, hghi, hlo.symm⟩⟩
    rw [hghi, ← hlo]
    exact Nat.le_add_right _ _
  · have hbelow : base = p.base + p.size := by
      by_contra hne
      exact htouch (by rw [lmbAddrsAdjacent, if_neg habove, if_neg hne])
    have hbase : hi p = base.toNat := by rw [hbelow, hhi]
    have hadj : ¬ 0 < lmbAddrsAdjacent base size p.base p.size := by
      rw [lmbAddrsAdjacent, if_neg habove]
      split_ifs
      decide
    have hgrow : lmbGrow base size p = ⟨p.base, p.size + size⟩ := if_neg hadj
    have hsum : lo p + p.size.toNat = base.toNat := hbase
    have hnowrap : p.size.toNat + size.toNat < 2 ^ 32 := by omega
    have hghi : hi (lmbGrow base size p) = base.toNat + size.toNat := by
      have hadd : (p.size + size).toNat = p.size.toNat + size.toNat :=
        BitVec.toNat_add_of_lt hnowrap
      have hdef : hi (lmbGrow base size p) = lo p + (p.size + size).toNat := by
        rw [hgrow]
        rfl
      omega
    have hglo : lo (lmbGrow base size p) = lo p := by
      rw [hgrow]
      rfl
    exact ⟨⟨by omega, hghi.ge⟩, Or.inr ⟨hglo, hghi, hbase⟩⟩

theorem holds_merged {g q : LmbProperty} {r t : ℕ} (hg : Holds g r t)
    (hsum : g.size.toNat + q.size.toNat < 2 ^ 32) :
    Holds ⟨g.base, g.size + q.size⟩ r t := by
  have hadd : (g.size + q.size).toNat = g.size.toNat + q.size.toNat :=
    BitVec.toNat_add_of_lt hsum
  have hhi : hi ⟨g.base, g.size + q.size⟩ = lo g + (g.size + q.size).toNat := rfl
  refine ⟨hg.1, hg.2.trans ?_⟩
  rw [hhi, hadd]
  unfold hi lo
  omega

theorem size_add_lt {g q : LmbProperty} (hq : hi q < 2 ^ 32)
    (hg : hi g < 2 ^ 32 ∨ hi g ≤ 2 ^ 32 ∧ lo q ≠ 0) (hmeet : Meet g q) :
    g.size.toNat + q.size.toNat < 2 ^ 32 := by
  have hqhi : (q.base + q.size).toNat = hi q := BitVec.toNat_add_of_lt hq
  have hghi : (g.base + g.size).toNat = hi g % 2 ^ 32 := BitVec.toNat_add _ _
  have hgdef : hi g = lo g + g.size.toNat := rfl
  have hqdef : hi q = lo q + q.size.toNat := rfl
  have hmeet' : lo q = hi g % 2 ^ 32 ∨ lo g = hi q := by
    by_contra hne
    obtain ⟨h1, h2⟩ := not_or.mp hne
    refine hmeet ?_
    rw [lmbAddrsAdjacent, if_neg fun h => h1 (by rw [lo, h, hghi]),
      if_neg fun h => h2 (by rw [lo, h, hqhi])]
  omega

theorem AddOutcome.holds {l l' : List LmbProperty} {ret : ℤ}
    (h : AddOutcome base size l ret l') (hret : 0 ≤ ret)
    (he : base.toNat + size.toNat ≤ 2 ^ 32) (hl : ∀ v ∈ l, hi v < 2 ^ 32)
    (htop : base.toNat + size.toNat < 2 ^ 32 ∨ ∀ v ∈ l, lo v ≠ 0) :
    ∃ v ∈ l', Holds v base.toNat (base.toNat + size.toNat) := by
  have hnew : Holds ⟨base, size⟩ base.toNat (base.toNat + size.toNat) := ⟨le_rfl, le_rfl⟩
  cases h with
  | dummy p hp hzero => exact ⟨_, List.mem_cons_self, hnew⟩
  | already hmem => exact ⟨_, hmem, hnew⟩
  | grown pre p post heq hpre hp hhead =>
    have hmem : p ∈ l := by simp [heq]
    exact ⟨_, by simp, (holds_lmbGrow he (hl p hmem) (htop.imp_right fun h => h p hmem) hp).1⟩
  | merged pre p q post heq hpre hp hmeet =>
    have hmem : p ∈ l := by simp [heq]
    have hmemq : q ∈ l := by simp [heq]
    have hplt := hl p hmem
    obtain ⟨hholds, hends⟩ :=
      holds_lmbGrow he hplt (htop.imp_right fun h => h p hmem) hp
    refine ⟨_, by simp, holds_merged hholds (size_add_lt (hl q hmemq) ?_ hmeet)⟩
    rcases htop with htop | htop
    · left
      omega
    · right
      exact ⟨by omega, htop q hmemq⟩
  | full hfree hlen => exact absurd hret (by decide)
  | inserted pre post heq hlen hfree habove hbelow => exact ⟨_, by simp, hnew⟩
  | overwritten p pre post heq hlen hp hbelow => exact ⟨_, List.mem_cons_self, hnew⟩

end

/-! ## The length of the range that is reserved -/

section

variable {size align b : PhysAddr} {k : ℕ}

end

/-! ## Any sequence of calls -/

/-- The calls, with any arguments. -/
inductive LmbCall where
  | add (base size : PhysAddr)
  | reserve (base size : PhysAddr)
  | free (base size : PhysAddr)
  | allocBase (size align maxAddr : PhysAddr)

/-- The map after a call. -/
def LmbCall.run : LmbCall → Lmb → Option Lmb
  | .add base size, lmb => (lmbAdd lmb base size).map Prod.snd
  | .reserve base size, lmb => (lmbReserve lmb base size).map Prod.snd
  | .free base size, lmb => (lmbFree lmb base size).map Prod.snd
  | .allocBase size align maxAddr, lmb => (lmbAllocBase lmb size align maxAddr).map Prod.snd

/-- The maps from `lmb_init` on. -/
def lmbSystem : TransitionSystem Lmb LmbCall where
  init s := ∃ lmb, s = lmbInit lmb
  step s call t := call.run s = some t

theorem cnt_addRegion_le {rgn rgn' : LmbRegion} {base size : PhysAddr} {ret : ℤ}
    (hcnt : rgn.cnt.toNat ≤ maxLmbRegions)
    (hadd : lmbAddRegion rgn base size = some (ret, rgn')) : rgn'.cnt.toNat ≤ maxLmbRegions := by
  rw [← length_entries]
  by_cases hzero : rgn.cnt = 0
  · rw [(entries_empty_add hzero hadd).2]
    exact Nat.one_le_of_lt (Nat.lt_succ_self 7 : 7 < 8)
  · have hpos : 0 < rgn.cnt.toNat := by bv_omega
    obtain ⟨ret', rgn'', hadd', hout⟩ := addRegion_cases hpos hcnt base size
    obtain ⟨-, rfl⟩ := Prod.mk.inj (Option.some.inj (hadd'.symm.trans hadd))
    exact hout.length_le ((length_entries rgn).le.trans hcnt)

theorem cnt_free_le {s t : Lmb} {base size : PhysAddr} {ret : ℤ}
    (hcnt : s.reserved.cnt.toNat ≤ maxLmbRegions) (hfree : lmbFree s base size = some (ret, t)) :
    t.memory = s.memory ∧ t.reserved.cnt.toNat ≤ maxLmbRegions := by
  rw [lmbFree] at hfree
  cases hfind : lmbFreeFind s.reserved base (base + size) with
  | none =>
    rw [hfind] at hfree
    obtain ⟨-, rfl⟩ := Prod.mk.inj (Option.some.inj hfree)
    exact ⟨rfl, hcnt⟩
  | some i =>
    have hi := List.mem_range.mp (List.find?_range_eq_some.mp hfind).2.1
    rw [hfind] at hfree
    obtain ⟨⟨ret', rgn'⟩, hregion, heq⟩ := Option.map_eq_some_iff.mp hfree
    obtain ⟨-, rfl⟩ := Prod.mk.inj heq
    refine ⟨rfl, ?_⟩
    simp only [lmbFreeRegion] at hregion
    split_ifs at hregion with hwhole hfront hend
    · obtain ⟨rgn'', hrem, hent⟩ := entries_removeRegion hi hcnt
      rw [hrem] at hregion
      obtain ⟨-, rfl⟩ := Prod.mk.inj (Option.some.inj hregion)
      rw [← length_entries, hent]
      exact (List.length_eraseIdx_le _ _).trans ((length_entries _).le.trans hcnt)
    · obtain ⟨-, rfl⟩ := Prod.mk.inj (Option.some.inj hregion)
      exact hcnt
    · obtain ⟨-, rfl⟩ := Prod.mk.inj (Option.some.inj hregion)
      exact hcnt
    · refine cnt_addRegion_le ?_ hregion
      exact hcnt

theorem cnt_allocBase_le {s t : Lmb} {size align maxAddr r : PhysAddr}
    (hcnt : s.reserved.cnt.toNat ≤ maxLmbRegions)
    (halloc : lmbAllocBase s size align maxAddr = some (r, t)) :
    t.memory = s.memory ∧ t.reserved.cnt.toNat ≤ maxLmbRegions := by
  rw [lmbAllocBase] at halloc
  split at halloc
  · obtain ⟨-, rfl⟩ := Prod.mk.inj (Option.some.inj halloc)
    exact ⟨rfl, hcnt⟩
  · obtain ⟨⟨ret, rgn'⟩, hadd, heq⟩ := Option.map_eq_some_iff.mp halloc
    obtain ⟨-, rfl⟩ := Prod.mk.inj heq
    exact ⟨rfl, cnt_addRegion_le hcnt hadd⟩

theorem cnt_le_of_reachable {s : Lmb} (h : lmbSystem.Reachable s) :
    s.memory.cnt.toNat ≤ maxLmbRegions ∧ s.reserved.cnt.toNat ≤ maxLmbRegions := by
  refine TransitionSystem.Reachable.invariant
    (I := fun s => s.memory.cnt.toNat ≤ maxLmbRegions ∧ s.reserved.cnt.toNat ≤ maxLmbRegions)
    (fun s hs => ?_) (fun s call t hs hstep => ?_) h
  · obtain ⟨lmb, rfl⟩ := hs
    exact ⟨Nat.one_le_of_lt (Nat.lt_succ_self 7 : 7 < 8),
      Nat.one_le_of_lt (Nat.lt_succ_self 7 : 7 < 8)⟩
  · obtain ⟨hmem, hres⟩ := hs
    cases call with
    | add base size =>
      obtain ⟨⟨ret, t⟩, hcall, rfl⟩ := Option.map_eq_some_iff.mp hstep
      obtain ⟨⟨ret', rgn'⟩, hadd, heq⟩ := Option.map_eq_some_iff.mp hcall
      obtain ⟨-, rfl⟩ := Prod.mk.inj heq
      exact ⟨cnt_addRegion_le hmem hadd, hres⟩
    | reserve base size =>
      obtain ⟨⟨ret, t⟩, hcall, rfl⟩ := Option.map_eq_some_iff.mp hstep
      obtain ⟨⟨ret', rgn'⟩, hadd, heq⟩ := Option.map_eq_some_iff.mp hcall
      obtain ⟨-, rfl⟩ := Prod.mk.inj heq
      exact ⟨hmem, cnt_addRegion_le hres hadd⟩
    | free base size =>
      obtain ⟨⟨ret, t⟩, hcall, rfl⟩ := Option.map_eq_some_iff.mp hstep
      obtain ⟨hsame, hle⟩ := cnt_free_le hres hcall
      exact ⟨by rwa [hsame], hle⟩
    | allocBase size align maxAddr =>
      obtain ⟨⟨r, t⟩, hcall, rfl⟩ := Option.map_eq_some_iff.mp hstep
      obtain ⟨hsame, hle⟩ := cnt_allocBase_le hres hcall
      exact ⟨by rwa [hsame], hle⟩

/-- Memory at `[0, 0x10000000)`, nothing reserved. -/
def lowMemory : Lmb :=
  { memory := ⟨1, 0, Function.update (fun _ => ⟨0, 0⟩) 0 ⟨0, 0x10000000⟩⟩
    reserved := ⟨1, 0, fun _ => ⟨0, 0⟩⟩ }

theorem reachable_lowMemory : lmbSystem.Reachable lowMemory := by
  have hinit : lmbSystem.Reachable (lmbInit ⟨⟨0, 0, fun _ => ⟨0, 0⟩⟩, ⟨0, 0, fun _ => ⟨0, 0⟩⟩⟩) :=
    .init ⟨_, rfl⟩
  refine hinit.step (a := .add 0 0x10000000) (congrArg some ?_)
  simp [lmbInit, initRegion, setRegion, lowMemory]

/-- The low memory with a region in the last half of its last page. -/
def topReserved : Lmb :=
  { lowMemory with reserved := setRegion lowMemory.reserved 0 ⟨0x0ffff800, 0x800⟩ }

theorem reachable_topReserved : lmbSystem.Reachable topReserved :=
  reachable_lowMemory.step (a := .reserve 0x0ffff800 0x800) rfl

end Lmb
end EmevBsp
