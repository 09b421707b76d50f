import EmevBsp.Lmb.Atomic
import EmevBsp.Lmb.Cover

/-!
# What `lmb_is_reserved` tells

Beside the map stands the set of the addresses that are reserved: a successful `lmb_reserve` or
`lmb_alloc_base` adds its range to the set, a successful `lmb_free` takes its range out of it.
`lmb_is_reserved` computes the last address of each entry, and for the empty region that
`lmb_init` writes this is the top of the address space: until the first range is reserved, every
address is.
-/

namespace EmevBsp
namespace Lmb

open IntervalList

/-! ## The code -/

def lmbIsReserved (lmb : Lmb) (addr : PhysAddr) : ℤ :=
  if (List.range lmb.reserved.cnt.toNat).any fun i =>
      let upper := (lmb.reserved.region i).base + (lmb.reserved.region i).size - 1
      decide ((lmb.reserved.region i).base ≤ addr ∧ addr ≤ upper) then 1
  else 0

/-! ## What is reserved -/

/-- A map and the addresses reserved in it. -/
abbrev Tracked := Lmb × Set ℕ

/-- A call, with what its result says has been reserved or freed. -/
inductive Track : Tracked → LmbCall → Tracked → Prop where
  | add (s t : Lmb) (R : Set ℕ) (base size : PhysAddr) (ret : ℤ) :
      lmbAdd s base size = some (ret, t) → Track (s, R) (.add base size) (t, R)
  | reserve (s t : Lmb) (R : Set ℕ) (base size : PhysAddr) (ret : ℤ) :
      lmbReserve s base size = some (ret, t) →
      Track (s, R) (.reserve base size) (t, {a | a ∈ R ∨ 0 ≤ ret ∧ a ∈ range base size})
  | free (s t : Lmb) (R : Set ℕ) (base size : PhysAddr) (ret : ℤ) :
      lmbFree s base size = some (ret, t) →
      Track (s, R) (.free base size) (t, {a | a ∈ R ∧ ¬ (0 ≤ ret ∧ a ∈ range base size)})
  | allocBase (s t : Lmb) (R : Set ℕ) (size align maxAddr r : PhysAddr) :
      lmbAllocBase s size align maxAddr = some (r, t) →
      Track (s, R) (.allocBase size align maxAddr)
        (t, {a | a ∈ R ∨ r ≠ 0 ∧ a ∈ range r (lmbAlignUp size align)})

/-- The calls from `lmb_init` on, with any arguments. -/
def trackSystem : TransitionSystem Tracked LmbCall where
  init s := (∃ lmb, s.1 = lmbInit lmb) ∧ s.2 = ∅
  step := Track

/-- A range that the table of reserved regions takes as it is: it is not empty and its end does not
wrap, the entries stand in order, and where there is none, what is left over in the first place
allows it. -/
structure ReserveFits (rgn : LmbRegion) (base size : PhysAddr) : Prop where
  size_pos : 0 < size.toNat
  no_wrap : base.toNat + size.toNat < 2 ^ 32
  sorted : Ascending (entries rgn)
  leftOver : rgn.cnt = 0 → LeftOver rgn base size

/-- A range that can be taken out of the table: its end does not wrap, no two regions hold addresses
of it, the part above it is not lost, and it is inside a region only where the entries stand in
order. -/
structure FreeFits (rgn : LmbRegion) (base size : PhysAddr) : Prop where
  no_wrap : base.toNat + size.toNat < 2 ^ 32
  alone : (entries rgn).Pairwise fun p q =>
    Disjoint (range base size) (Set.Ico (lo p) (hi p)) ∨
      Disjoint (range base size) (Set.Ico (lo q) (hi q))
  keeps : ¬ LosesTail rgn base size
  sorted : ∀ p ∈ entries rgn, lo p < base.toNat → base.toNat + size.toNat < hi p →
    Ascending (entries rgn)

/-- The calls that keep the table in step.  What an allocation adds is the range that its search
finds, with its length rounded up. -/
def Keeps (s : Tracked) : LmbCall → Prop
  | .add _ _ => True
  | .reserve base size => ReserveFits s.1.reserved base size
  | .free base size => FreeFits s.1.reserved base size
  | .allocBase size align maxAddr =>
    ∀ b, lmbAllocFind s.1 size align maxAddr s.1.memory.cnt.toNat = some b →
      ReserveFits s.1.reserved b (lmbAlignUp size align)

/-! ## The test -/

theorem isReserved_eq_one_iff {s : Lmb} {addr : PhysAddr} :
    lmbIsReserved s addr = 1 ↔
      ∃ p ∈ entries s.reserved, p.base ≤ addr ∧ addr ≤ p.base + p.size - 1 := by
  have hany : ((List.range s.reserved.cnt.toNat).any fun i =>
      let upper := (s.reserved.region i).base + (s.reserved.region i).size - 1
      decide ((s.reserved.region i).base ≤ addr ∧ addr ≤ upper)) = true ↔
        ∃ p ∈ entries s.reserved, p.base ≤ addr ∧ addr ≤ p.base + p.size - 1 := by
    rw [List.any_eq_true]
    constructor
    · rintro ⟨i, hi, hin⟩
      exact ⟨_, mem_entries.mpr ⟨i, List.mem_range.mp hi, rfl⟩, of_decide_eq_true hin⟩
    · rintro ⟨p, hp, hin⟩
      obtain ⟨i, hi, rfl⟩ := mem_entries.mp hp
      exact ⟨i, List.mem_range.mpr hi, decide_eq_true hin⟩
  rw [lmbIsReserved, ← hany]
  split_ifs with h
  · exact iff_of_true rfl h
  · exact iff_of_false (by decide) h

theorem isReserved_iff_covered {s : Lmb} (h : Solid (entries s.reserved)) (addr : PhysAddr) :
    lmbIsReserved s addr = 1 ↔ addr.toNat ∈ covered s.reserved := by
  rw [isReserved_eq_one_iff, covered, mem_cover]
  refine exists_congr fun p => and_congr_right fun hp => ?_
  have hlt := h.lt p hp
  have hhi := h.hi_lt p hp
  have hlast : (p.base + p.size - 1).toNat = hi p - 1 := by
    unfold lo hi at *
    bv_omega
  rw [BitVec.le_def, BitVec.le_def, hlast, lo]
  omega

/-- **The region of `lmb_init` holds every address.** -/
theorem isReserved_dummy {s : Lmb} (h : entries s.reserved = [⟨0, 0⟩]) (addr : PhysAddr) :
    lmbIsReserved s addr = 1 := by
  rw [isReserved_eq_one_iff, h]
  refine ⟨_, List.mem_singleton_self _, ?_, ?_⟩
  · bv_omega
  · show addr ≤ 0 + 0 - 1
    bv_omega

/-! ## Adding a range to regions that may overlap -/

theorem AddOutcome.within {base size : PhysAddr} {l l' : List LmbProperty} {ret : ℤ}
    (h : AddOutcome base size l ret l') (hl : Solid l) (hsorted : Ascending l)
    (he : base.toNat + size.toNat < 2 ^ 32) :
    cover lo hi l' ⊆ cover lo hi l ∪ range base size := by
  have hnew : Set.Ico (lo ⟨base, size⟩) (hi ⟨base, size⟩) = range base size := rfl
  cases h with
  | dummy p hp hzero =>
    rw [cover_cons, cover_nil, Set.union_empty, hnew]
    exact Set.subset_union_right
  | already hmem => exact Set.subset_union_left
  | grown pre p post heq hpre hp hhead =>
    subst heq
    have hplt := hl.lt p (by simp)
    obtain ⟨-, hends⟩ := holds_lmbGrow he.le (hl.hi_lt p (by simp)) (Or.inl he) hp
    simp only [cover_append, cover_cons]
    intro a ha
    simp only [Set.mem_union, range, Set.mem_Ico] at ha ⊢
    rcases ha with ha | ha | ha
    · exact .inl (.inl ha)
    · by_cases hin : lo p ≤ a ∧ a < hi p
      · exact .inl (.inr (.inl hin))
      · exact .inr (by omega)
    · exact .inl (.inr (.inr ha))
  | merged pre p q post heq hpre hp hmeet =>
    subst heq
    have hplt := hl.lt p (by simp)
    have hphi := hl.hi_lt p (by simp)
    have hqlt := hl.lt q (by simp)
    have hqhi := hl.hi_lt q (by simp)
    have hpq : lo p ≤ lo q :=
      (List.pairwise_cons.mp (List.pairwise_append.mp hsorted).2.1).1 q List.mem_cons_self
    obtain ⟨-, hends⟩ := holds_lmbGrow he.le hphi (Or.inl he) hp
    obtain ⟨hlo, hhi, hmid⟩ := merged_bounds (show hi (lmbGrow base size p) < 2 ^ 32 by omega)
      hqhi (by omega) hmeet
    simp only [cover_append, cover_cons, hlo, hhi]
    intro a ha
    simp only [Set.mem_union, range, Set.mem_Ico] at ha ⊢
    rcases ha with ha | ha | ha
    · exact .inl (.inl ha)
    · by_cases hin : lo p ≤ a ∧ a < hi p
      · exact .inl (.inr (.inl hin))
      · by_cases hin' : lo q ≤ a ∧ a < hi q
        · exact .inl (.inr (.inr (.inl hin')))
        · exact .inr (by omega)
    · exact .inl (.inr (.inr (.inr ha)))
  | full hfree hlen => exact Set.subset_union_left
  | inserted pre post heq hlen hfree habove hbelow =>
    subst heq
    simp only [cover_append, cover_cons, hnew]
    intro a ha
    simp only [Set.mem_union] at ha ⊢
    tauto
  | overwritten p pre post heq hlen hp hbelow =>
    subst heq
    simp only [cover_append, cover_cons, hnew]
    intro a ha
    simp only [Set.mem_union] at ha ⊢
    tauto

theorem AddOutcome.covers {base size : PhysAddr} {l l' : List LmbProperty} {ret : ℤ}
    (h : AddOutcome base size l ret l') (hl : Solid l) (hsorted : Ascending l)
    (hsize : 0 < size.toNat) (he : base.toNat + size.toNat < 2 ^ 32) (hret : 0 ≤ ret) :
    Solid l' ∧ cover lo hi l' = cover lo hi l ∪ range base size := by
  obtain ⟨hsolid, hholds⟩ := h.keeps hl hsorted hsize he hret
  obtain ⟨v, hv, hvlo, hvhi⟩ := h.holds hret he.le hl.hi_lt (Or.inl he)
  refine ⟨hsolid, (h.within hl hsorted he).antisymm (Set.union_subset ?_ ?_)⟩
  · rintro a ⟨x, hx, hxa⟩
    obtain ⟨y, hy, hylo, hyhi⟩ := hholds x hx
    exact ⟨y, hy, hylo.trans hxa.1, hxa.2.trans_le hyhi⟩
  · intro a ha
    exact ⟨v, hv, hvlo.trans ha.1, ha.2.trans_le hvhi⟩

/-! ## Freeing a range -/

theorem Solid.carve {pre post : List LmbProperty} {p q : LmbProperty}
    (h : Solid (pre ++ p :: post)) (hq : lo q < hi q) (hhi : hi q ≤ hi p) :
    Solid (pre ++ q :: post) :=
  h.set hq (hhi.trans_lt (h.hi_lt p (by simp)))

theorem Ascending.carve {pre post : List LmbProperty} {p q : LmbProperty}
    (h : Ascending (pre ++ p :: post)) (hlo : lo q = lo p) : Ascending (pre ++ q :: post) := by
  obtain ⟨hpre, hpost, hboth⟩ := List.pairwise_append.mp h
  obtain ⟨hhead, htail⟩ := List.pairwise_cons.mp hpost
  refine List.pairwise_append.mpr ⟨hpre, List.pairwise_cons.mpr ⟨fun x hx => ?_, htail⟩, ?_⟩
  · rw [hlo]
    exact hhead x hx
  · intro x hx y hy
    rcases List.mem_cons.mp hy with rfl | hy
    · rw [hlo]
      exact hboth x hx p List.mem_cons_self
    · exact hboth x hx y (List.mem_cons_of_mem p hy)

theorem freeRegion_solid {rgn rgn' : LmbRegion} {pre post : List LmbProperty} {p : LmbProperty}
    {base size : PhysAddr} {ret : ℤ} (h : Solid (entries rgn))
    (hcnt : rgn.cnt.toNat ≤ maxLmbRegions) (hsplit : entries rgn = pre ++ p :: post)
    (hlo : lo p ≤ base.toNat) (hhi : base.toNat + size.toNat ≤ hi p)
    (hsorted : lo p < base.toNat → base.toNat + size.toNat < hi p → Ascending (entries rgn))
    (hfree : lmbFreeRegion rgn base size pre.length = some (ret, rgn')) (hret : 0 ≤ ret) :
    rgn'.cnt.toNat ≤ maxLmbRegions ∧ Solid (entries rgn') ∧
      covered rgn' =
        cover lo hi pre ∪ (Set.Ico (lo p) (hi p) \ range base size) ∪ cover lo hi post := by
  obtain ⟨hlt, hp⟩ := getElem_split hsplit
  have hplt := h.lt p (by simp [hsplit])
  have hphi := h.hi_lt p (by simp [hsplit])
  have hsolid : Solid (pre ++ p :: post) := hsplit ▸ h
  -- one region is replaced by a smaller one
  have hshrink : ∀ q, lo q < hi q → hi q ≤ hi p →
      Set.Ico (lo q) (hi q) = Set.Ico (lo p) (hi p) \ range base size →
      Solid (entries (setRegion rgn pre.length q)) ∧
        covered (setRegion rgn pre.length q) =
          cover lo hi pre ∪ (Set.Ico (lo p) (hi p) \ range base size) ∪ cover lo hi post := by
    intro q hq hqhi hico
    rw [covered, entries_setRegion_split hsplit q, cover_append, cover_cons, hico]
    exact ⟨hsolid.carve hq hqhi, (Set.union_assoc _ _ _).symm⟩
  rw [lmbFreeRegion_eq hp hphi hhi] at hfree
  split_ifs at hfree with hwhole hfront hend
  · obtain ⟨rgn'', hrem, hent⟩ := entries_removeRegion hlt hcnt
    rw [hrem] at hfree
    obtain ⟨-, rfl⟩ := Prod.mk.inj (Option.some.inj hfree)
    have hent' : entries rgn'' = pre ++ post := by
      rw [hent, hsplit, List.eraseIdx_append_of_length_le le_rfl, Nat.sub_self,
        List.eraseIdx_cons_zero]
    have hsub : pre ++ post ⊆ pre ++ p :: post :=
      ((List.sublist_cons_self p post).append_left pre).subset
    refine ⟨?_, ?_, ?_⟩
    · rw [← length_entries, hent', List.length_append]
      rw [← length_entries, hsplit, List.length_append, List.length_cons] at hcnt
      omega
    · rw [hent']
      exact ⟨fun x hx => hsolid.lt x (hsub hx), fun x hx => hsolid.hi_lt x (hsub hx)⟩
    · rw [covered, hent', cover_append, hwhole.1, hwhole.2, range, Set.sdiff_self,
        Set.union_empty]
  · obtain ⟨-, rfl⟩ := Prod.mk.inj (Option.some.inj hfree)
    obtain ⟨hqlo, hqhi⟩ := front_bounds hphi hhi hfront
    refine ⟨hcnt, hshrink _ (by omega) hqhi.le ?_⟩
    ext a
    rw [hqlo, hqhi, range]
    simp only [Set.mem_sdiff, Set.mem_Ico]
    omega
  · obtain ⟨-, rfl⟩ := Prod.mk.inj (Option.some.inj hfree)
    obtain ⟨hqlo, hqhi⟩ := back_bounds hlo hend
    refine ⟨hcnt, hshrink _ (by omega) (by omega) ?_⟩
    ext a
    rw [hqlo, hqhi, range, ← hend]
    simp only [Set.mem_sdiff, Set.mem_Ico]
    omega
  · -- the part below the range stays, and the part above it is added again
    obtain ⟨hqlo, hqhi⟩ := cut_bounds hlo
    obtain ⟨htbase, htsize⟩ := tail_bounds hphi hhi
    have hent := entries_setRegion_split hsplit ⟨p.base, base - p.base⟩
    have hpos : 0 < (setRegion rgn pre.length ⟨p.base, base - p.base⟩).cnt.toNat :=
      Nat.zero_lt_of_lt hlt
    obtain ⟨ret', rgn'', hadd, hout⟩ :=
      addRegion_cases hpos hcnt (base + size) (p.base + p.size - (base + size))
    obtain ⟨rfl, rfl⟩ := Prod.mk.inj (Option.some.inj (hadd.symm.trans hfree))
    have hlen := hout.length_le ((length_entries _).le.trans hcnt)
    rw [hent] at hout
    have hasc : Ascending (pre ++ p :: post) := hsplit ▸ hsorted (by omega) (by omega)
    obtain ⟨hsolid', hcov⟩ := hout.covers (hsolid.carve (by omega) (by omega)) (hasc.carve hqlo)
      (by omega) (by omega) hret
    refine ⟨(length_entries rgn'').ge.trans hlen, hsolid', ?_⟩
    rw [covered, hcov, cover_append, cover_cons, hqlo, hqhi]
    ext a
    simp only [Set.mem_union, Set.mem_sdiff, Set.mem_Ico, range, htbase, htsize]
    constructor
    · rintro ((ha | ha | ha) | ha)
      · exact .inl (.inl ha)
      · exact .inl (.inr (by omega))
      · exact .inr ha
      · exact .inl (.inr (by omega))
    · rintro ((ha | ha) | ha)
      · exact .inl (.inl ha)
      · by_cases hbelow : a < base.toNat
        · exact .inl (.inr (.inl ⟨ha.1.1, hbelow⟩))
        · exact .inr (by omega)
      · exact .inl (.inr (.inr ha))

theorem free_ret_eq {s t : Lmb} {base size : PhysAddr} {ret : ℤ}
    (hcnt : s.reserved.cnt.toNat ≤ maxLmbRegions) (hfree : lmbFree s base size = some (ret, t))
    (hret : ret < 0) : ret = -1 := by
  rw [lmbFree] at hfree
  cases hfind : lmbFreeFind s.reserved base (base + size) with
  | none =>
    rw [hfind] at hfree
    exact (congrArg Prod.fst (Option.some.inj hfree)).symm
  | some i =>
    rw [hfind] at hfree
    obtain ⟨⟨ret', rgn'⟩, hregion, heq⟩ := Option.map_eq_some_iff.mp hfree
    obtain ⟨rfl, rfl⟩ := Prod.mk.inj heq
    simp only [lmbFreeRegion] at hregion
    split_ifs at hregion with hwhole hfront hend
    · obtain ⟨r, -, hr⟩ := Option.map_eq_some_iff.mp hregion
      have hzero : 0 = ret' := congrArg Prod.fst hr
      omega
    · have hzero : 0 = ret' := congrArg Prod.fst (Option.some.inj hregion)
      omega
    · have hzero : 0 = ret' := congrArg Prod.fst (Option.some.inj hregion)
      omega
    · have hcnt' : (setRegion s.reserved i
          ⟨(s.reserved.region i).base, base - (s.reserved.region i).base⟩).cnt.toNat ≤
          maxLmbRegions := hcnt
      exact (addRegion_refused hcnt' hregion hret).1

/-! ## The table and the set -/

/-- The table covers the set, or it is the region of `lmb_init` and the set is empty. -/
structure InStep (rgn : LmbRegion) (R : Set ℕ) : Prop where
  cnt_le : rgn.cnt.toNat ≤ maxLmbRegions
  used : (entries rgn = [⟨0, 0⟩] ∧ R = ∅) ∨ (Solid (entries rgn) ∧ covered rgn = R)

theorem inStep_init (lmb : Lmb) : InStep (lmbInit lmb).reserved ∅ := by
  refine ⟨Nat.one_le_of_lt (Nat.lt_succ_self 7 : 7 < 8), .inl ⟨?_, rfl⟩⟩
  simp [entries, lmbInit, initRegion, setRegion]

variable {rgn rgn' : LmbRegion} {R : Set ℕ} {base size : PhysAddr} {ret : ℤ}

theorem InStep.addRegion (h : InStep rgn R) (hfits : ReserveFits rgn base size)
    (hadd : lmbAddRegion rgn base size = some (ret, rgn')) (hret : 0 ≤ ret) :
    InStep rgn' (R ∪ range base size) := by
  have hsize := hfits.size_pos
  have he := hfits.no_wrap
  have hone : entries rgn' = [⟨base, size⟩] → R = ∅ → InStep rgn' (R ∪ range base size) := by
    intro hent hempty
    have hlt : lo ⟨base, size⟩ < hi ⟨base, size⟩ := Nat.lt_add_of_pos_right hsize
    refine ⟨?_, .inr ⟨⟨fun p hp => ?_, fun p hp => ?_⟩, ?_⟩⟩
    · rw [← length_entries, hent]
      exact Nat.one_le_of_lt (Nat.lt_succ_self 7 : 7 < 8)
    · rw [hent] at hp
      rw [List.mem_singleton.mp hp]
      exact hlt
    · rw [hent] at hp
      rw [List.mem_singleton.mp hp]
      exact he
    · rw [covered, hent, cover_cons, cover_nil, hempty, Set.union_empty, Set.empty_union]
      rfl
  rcases h.used with ⟨hent, hempty⟩ | ⟨hsolid, hcov⟩
  · obtain ⟨rgn'', hadd', hent'⟩ := addRegion_dummy hent rfl base size
    obtain ⟨-, rfl⟩ := Prod.mk.inj (Option.some.inj (hadd'.symm.trans hadd))
    exact hone hent' hempty
  · by_cases hzero : rgn.cnt = 0
    · have hnil : entries rgn = [] := by
        refine List.eq_nil_of_length_eq_zero ?_
        rw [length_entries, hzero]
        rfl
      refine hone ?_ (by rw [← hcov, covered, hnil, cover_nil])
      rw [(entries_empty_add hzero hadd).2]
      rcases hfits.leftOver hzero with hlt | heq
      · rw [if_pos hlt]
      · rw [heq, ite_self]
    · have hpos : 0 < rgn.cnt.toNat := by bv_omega
      obtain ⟨ret', rgn'', hadd', hout⟩ := addRegion_cases hpos h.cnt_le base size
      obtain ⟨rfl, rfl⟩ := Prod.mk.inj (Option.some.inj (hadd'.symm.trans hadd))
      obtain ⟨hsolid', hcov'⟩ := hout.covers hsolid hfits.sorted hsize he hret
      refine ⟨?_, .inr ⟨hsolid', ?_⟩⟩
      · rw [← length_entries]
        exact hout.length_le ((length_entries rgn).le.trans h.cnt_le)
      · rw [← hcov]
        exact hcov'

theorem disjoint_of_alone {pre post : List LmbProperty} {p : LmbProperty}
    (halone : (pre ++ p :: post).Pairwise fun p q =>
      Disjoint (range base size) (Set.Ico (lo p) (hi p)) ∨
        Disjoint (range base size) (Set.Ico (lo q) (hi q)))
    (hlo : lo p ≤ base.toNat) (hhi : base.toNat + size.toNat ≤ hi p) :
    Disjoint (range base size) (cover lo hi pre ∪ cover lo hi post) := by
  rw [Set.disjoint_left]
  rintro a ha hmem
  have hp : ¬ Disjoint (range base size) (Set.Ico (lo p) (hi p)) :=
    Set.not_disjoint_iff.mpr ⟨a, ha, hlo.trans ha.1, ha.2.trans_le hhi⟩
  obtain ⟨-, hpost, hboth⟩ := List.pairwise_append.mp halone
  have hclear : ∀ q ∈ pre ++ post, Disjoint (range base size) (Set.Ico (lo q) (hi q)) := by
    intro q hq
    rcases List.mem_append.mp hq with hq | hq
    · exact (hboth q hq p List.mem_cons_self).resolve_right hp
    · exact ((List.pairwise_cons.mp hpost).1 q hq).resolve_left hp
  rw [← cover_append] at hmem
  obtain ⟨q, hq, hqa⟩ := hmem
  exact Set.disjoint_left.mp (hclear q hq) ha hqa

theorem InStep.free {s t : Lmb} (h : InStep s.reserved R) (hfits : FreeFits s.reserved base size)
    (hfree : lmbFree s base size = some (ret, t)) :
    InStep t.reserved {a | a ∈ R ∧ ¬ (0 ≤ ret ∧ a ∈ range base size)} := by
  have he := hfits.no_wrap
  by_cases hret : 0 ≤ ret
  · have hset : {a | a ∈ R ∧ ¬ (0 ≤ ret ∧ a ∈ range base size)} = R \ range base size := by
      ext a
      simp [hret]
    rw [hset]
    rw [lmbFree] at hfree
    cases hfind : lmbFreeFind s.reserved base (base + size) with
    | none =>
      rw [hfind] at hfree
      have hneg : (-1 : ℤ) = ret := congrArg Prod.fst (Option.some.inj hfree)
      omega
    | some i =>
      rw [hfind] at hfree
      obtain ⟨⟨ret', rgn'⟩, hregion, heq⟩ := Option.map_eq_some_iff.mp hfree
      obtain ⟨rfl, rfl⟩ := Prod.mk.inj heq
      obtain ⟨pre, p, post, hsplit, rfl, -, hin⟩ := freeFind_eq_some_iff.mp hfind
      have hend : (base + size).toNat = base.toNat + size.toNat := BitVec.toNat_add_of_lt he
      rcases h.used with ⟨hent, hempty⟩ | ⟨hsolid, hcov⟩
      · -- the empty range at address 0 takes out the region of `lmb_init`
        have hp : p = ⟨0, 0⟩ := List.mem_singleton.mp (hent ▸ by simp [hsplit])
        have hpre : pre = [] := by
          have hlen := congrArg List.length hsplit
          simp only [hent, List.length_append, List.length_cons, List.length_nil] at hlen
          exact List.eq_nil_of_length_eq_zero (by omega)
        rw [hp] at hin
        obtain ⟨hbase, hstop⟩ := hin
        have hzero : base = 0 := by bv_omega
        have hzero' : size = 0 := by bv_omega
        subst hzero hzero' hpre
        obtain ⟨-, rgn'', hfree', hent'⟩ := free_dummy hent
        obtain ⟨-, rfl⟩ := Prod.mk.inj (Option.some.inj (hfree'.symm.trans hregion))
        refine ⟨?_, .inr ⟨?_, ?_⟩⟩
        · rw [← length_entries, hent']
          exact Nat.zero_le _
        · rw [hent']
          exact ⟨by simp, by simp⟩
        · rw [covered, hent', cover_nil, hempty, Set.empty_sdiff]
      · have hphi := hsolid.hi_lt p (by simp [hsplit])
        have hsum : (p.base + p.size).toNat = hi p := BitVec.toNat_add_of_lt hphi
        have hlo : lo p ≤ base.toNat := hin.1
        have hhi : base.toNat + size.toNat ≤ hi p := by
          rw [← hend, ← hsum]
          exact hin.2
        obtain ⟨hcnt, hsolid', hcov'⟩ := freeRegion_solid hsolid h.cnt_le hsplit hlo hhi
          (hfits.sorted p (by simp [hsplit])) hregion hret
        refine ⟨hcnt, .inr ⟨hsolid', hcov'.trans ?_⟩⟩
        have hclear := disjoint_of_alone (hsplit ▸ hfits.alone) hlo hhi
        rw [← hcov, covered, hsplit, cover_append, cover_cons]
        ext a
        have haclear : a ∈ range base size → a ∉ cover lo hi pre ∪ cover lo hi post :=
          fun ha => Set.disjoint_left.mp hclear ha
        simp only [Set.mem_union, Set.mem_sdiff] at haclear ⊢
        tauto
  · -- a call that returns -1 leaves the map
    have hset : {a | a ∈ R ∧ ¬ (0 ≤ ret ∧ a ∈ range base size)} = R := by
      ext a
      simp [hret]
    have hneg := free_ret_eq h.cnt_le hfree (not_le.mp hret)
    rw [hset]
    have hatomic := (atomicOnFailure_iff_of_cnt_le h.cnt_le).mpr hfits.keeps
    obtain ⟨hcnt, hregion, -⟩ := hatomic.2 t (hneg ▸ hfree)
    have hent : entries t.reserved = entries s.reserved := by
      rw [entries, entries, hcnt, hregion]
    refine ⟨hcnt ▸ h.cnt_le, ?_⟩
    rw [covered, hent, ← covered]
    exact h.used

theorem inStep_step {s t : Tracked} {call : LmbCall} (h : InStep s.1.reserved s.2)
    (hkeeps : Keeps s call) (hstep : Track s call t) : InStep t.1.reserved t.2 := by
  cases hstep with
  | add s t R base size ret hcall =>
    obtain ⟨⟨ret', rgn'⟩, -, heq⟩ := Option.map_eq_some_iff.mp hcall
    obtain ⟨-, rfl⟩ := Prod.mk.inj heq
    exact h
  | reserve s t R base size ret hcall =>
    obtain ⟨⟨ret', rgn'⟩, hadd, heq⟩ := Option.map_eq_some_iff.mp hcall
    obtain ⟨rfl, rfl⟩ := Prod.mk.inj heq
    by_cases hret : 0 ≤ ret'
    · have hset : {a | a ∈ R ∨ 0 ≤ ret' ∧ a ∈ range base size} = R ∪ range base size := by
        ext a
        simp [hret]
      show InStep rgn' {a | a ∈ R ∨ 0 ≤ ret' ∧ a ∈ range base size}
      rw [hset]
      exact h.addRegion hkeeps hadd hret
    · have hset : {a | a ∈ R ∨ 0 ≤ ret' ∧ a ∈ range base size} = R := by
        ext a
        simp [hret]
      obtain ⟨-, rfl, -⟩ := addRegion_refused h.cnt_le hadd (not_le.mp hret)
      show InStep s.reserved {a | a ∈ R ∨ 0 ≤ ret' ∧ a ∈ range base size}
      rw [hset]
      exact h
  | free s t R base size ret hcall => exact h.free hkeeps hcall
  | allocBase s t R size align maxAddr r hcall =>
    rw [lmbAllocBase] at hcall
    cases hfind : lmbAllocFind s size align maxAddr s.memory.cnt.toNat with
    | none =>
      rw [hfind] at hcall
      obtain ⟨rfl, rfl⟩ := Prod.mk.inj (Option.some.inj hcall)
      have hset : {a | a ∈ R ∨ (0 : PhysAddr) ≠ 0 ∧ a ∈ range 0 (lmbAlignUp size align)} = R := by
        ext a
        simp
      show InStep s.reserved {a | a ∈ R ∨ (0 : PhysAddr) ≠ 0 ∧ a ∈ range 0 (lmbAlignUp size align)}
      rw [hset]
      exact h
    | some b =>
      rw [hfind] at hcall
      obtain ⟨⟨ret, rgn'⟩, hadd, heq⟩ := Option.map_eq_some_iff.mp hcall
      obtain ⟨rfl, rfl⟩ := Prod.mk.inj heq
      obtain ⟨i, -, m, -, hwalk⟩ := allocFind_spec hfind
      have hb := (allocWalk_le hwalk).1
      show InStep rgn' {a | a ∈ R ∨ (if ret < 0 then 0 else b) ≠ 0 ∧
        a ∈ range (if ret < 0 then 0 else b) (lmbAlignUp size align)}
      by_cases hret : ret < 0
      · obtain ⟨-, rfl, -⟩ := addRegion_refused h.cnt_le hadd hret
        rw [if_pos hret]
        have hset : {a | a ∈ R ∨ (0 : PhysAddr) ≠ 0 ∧ a ∈ range 0 (lmbAlignUp size align)} = R := by
          ext a
          simp
        rw [hset]
        exact h
      · rw [if_neg hret]
        have hset : {a | a ∈ R ∨ b ≠ 0 ∧ a ∈ range b (lmbAlignUp size align)} =
            R ∪ range b (lmbAlignUp size align) := by
          ext a
          exact or_congr_right (and_iff_right hb)
        rw [hset]
        exact h.addRegion (hkeeps b hfind) hadd (not_lt.mp hret)

theorem inStep_of_reachable {s : Tracked} (h : (trackSystem.restrict Keeps).Reachable s) :
    InStep s.1.reserved s.2 := by
  refine TransitionSystem.Reachable.invariant_restrict (I := fun s => InStep s.1.reserved s.2)
    (fun s hs => ?_) (fun s call t hs hkeeps hstep => inStep_step hs hkeeps hstep) h
  obtain ⟨⟨lmb, hmap⟩, hempty⟩ := hs
  rw [hmap, hempty]
  exact inStep_init lmb

/-- **`lmb_is_reserved`.**  In every run of calls that keep the table in step, it tells of every
address whether it is reserved, exactly when the table is no longer the empty region of
`lmb_init`. -/
theorem isReserved_iff {s : Lmb} {R : Set ℕ}
    (h : (trackSystem.restrict Keeps).Reachable (s, R)) :
    (∀ addr, lmbIsReserved s addr = 1 ↔ addr.toNat ∈ R) ↔ entries s.reserved ≠ [⟨0, 0⟩] := by
  rcases (inStep_of_reachable h).used with ⟨hent, hempty⟩ | ⟨hsolid, hcov⟩
  · refine iff_of_false (fun hall => ?_) fun hne => hne hent
    have hmem : (0 : PhysAddr).toNat ∈ R := (hall 0).mp (isReserved_dummy hent 0)
    rw [show R = ∅ from hempty] at hmem
    exact hmem
  · refine iff_of_true (fun addr => ?_) fun hent => ?_
    · rw [isReserved_iff_covered hsolid, show covered s.reserved = R from hcov]
    · have hlt := hsolid.lt ⟨0, 0⟩ (by rw [show entries s.reserved = _ from hent]; simp)
      exact absurd hlt (by decide)

/-- Once the first page is reserved, it is what is. -/
theorem isReserved_iff_firstPage :
    ∃ R, (trackSystem.restrict Keeps).Reachable (firstPage 1, R) ∧
      ∀ addr, lmbIsReserved (firstPage 1) addr = 1 ↔ addr.toNat ∈ R := by
  have hinit : (trackSystem.restrict Keeps).Reachable (blank, ∅) := .init ⟨⟨_, rfl⟩, rfl⟩
  have hfits : ReserveFits blank.reserved 0x1000 0x1000 :=
    ⟨by decide, by decide, List.pairwise_singleton _ _, fun h0 => absurd h0 (by decide)⟩
  have hstep := Track.reserve blank (firstPage 1) ∅ 0x1000 0x1000 0 rfl
  have hkeeps : Keeps (blank, ∅) (.reserve 0x1000 0x1000) := hfits
  have hrun := hinit.step ⟨hkeeps, hstep⟩
  exact ⟨_, hrun, (isReserved_iff hrun).mpr (by decide)⟩

/-- **Nothing is reserved, and every address is.** -/
theorem not_isReserved : ∃ s R addr, trackSystem.Reachable (s, R) ∧
    lmbIsReserved s addr = 1 ∧ addr.toNat ∉ R :=
  ⟨blank, ∅, 0x1000, .init ⟨⟨_, rfl⟩, rfl⟩, isReserved_dummy rfl _, fun h => h⟩

end Lmb
end EmevBsp
