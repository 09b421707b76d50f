import EmevBsp.Library.IntervalList
import EmevBsp.Lmb.Table

/-!
# Tables whose entries keep apart

The addresses of a region are read as an interval of natural numbers.  A table is kept well
when its entries are sorted, end below the top of the address space and leave a gap between
any two: `lmb_add_region` joins what touches.
-/

namespace EmevBsp
namespace Lmb

open IntervalList

/-- The first address of a region, and the one after its last, without wrapping. -/
def lo (p : LmbProperty) : ℕ :=
  p.base.toNat

/-- See `lo`. -/
def hi (p : LmbProperty) : ℕ :=
  p.base.toNat + p.size.toNat

/-- The addresses a table covers. -/
def covered (rgn : LmbRegion) : Set ℕ :=
  cover lo hi (entries rgn)

/-- The entries are sorted and apart, and end below the top of the address space. -/
structure Apart (l : List LmbProperty) : Prop where
  separated : Separated lo hi l
  hi_lt : ∀ p ∈ l, hi p < 2 ^ 32

/-! ## Ranges that do not wrap -/

theorem touches_iff {base size : PhysAddr} {p : LmbProperty}
    (he : base.toNat + size.toNat < 2 ^ 32) (hp : hi p < 2 ^ 32) :
    Touches base size p ↔ lo p = base.toNat + size.toNat ∨ base.toNat = hi p := by
  unfold Touches lmbAddrsAdjacent
  have hadd : (base + size).toNat = base.toNat + size.toNat := BitVec.toNat_add_of_lt he
  have hadd' : (p.base + p.size).toNat = hi p := BitVec.toNat_add_of_lt hp
  simp only [BitVec.toNat_eq, hadd, hadd', lo]
  split_ifs <;> simp [*]

theorem meet_iff {p q : LmbProperty} (hp : hi p < 2 ^ 32) (hq : hi q < 2 ^ 32) :
    Meet p q ↔ lo q = hi p ∨ lo p = hi q :=
  touches_iff hp hq

theorem lmbGrow_above {base size : PhysAddr} {p : LmbProperty}
    (he : base.toNat + size.toNat < 2 ^ 32) (hp : hi p < 2 ^ 32)
    (h : lo p = base.toNat + size.toNat) :
    lo (lmbGrow base size p) = base.toNat ∧ hi (lmbGrow base size p) = hi p := by
  have hbase : p.base = base + size := by
    rw [BitVec.toNat_eq, BitVec.toNat_add_of_lt he]
    exact h
  have hadj : lmbAddrsAdjacent base size p.base p.size = 1 := if_pos hbase
  rw [lmbGrow, if_pos (by rw [hadj]; decide)]
  unfold lo hi at *
  constructor <;> bv_omega

theorem lmbGrow_below {base size : PhysAddr} {p : LmbProperty}
    (he : base.toNat + size.toNat < 2 ^ 32) (hlt : lo p < hi p) (h : base.toNat = hi p) :
    lo (lmbGrow base size p) = lo p ∧
      hi (lmbGrow base size p) = base.toNat + size.toNat := by
  have hne : p.base ≠ base + size := by
    rw [ne_eq, BitVec.toNat_eq, BitVec.toNat_add_of_lt he]
    have : p.base.toNat < base.toNat := lt_of_lt_of_eq hlt h.symm
    omega
  have hadj : ¬ 0 < lmbAddrsAdjacent base size p.base p.size := by
    rw [lmbAddrsAdjacent, if_neg hne]
    split_ifs <;> decide
  rw [lmbGrow, if_neg hadj]
  unfold lo hi at *
  constructor <;> bv_omega

/-! ## Adding a range -/

section

variable {base size : PhysAddr} {l : List LmbProperty}

/-- The addresses of a range. -/
def range (base size : PhysAddr) : Set ℕ :=
  Set.Ico base.toNat (base.toNat + size.toNat)

theorem apart_singleton (hsize : 0 < size.toNat) (he : base.toNat + size.toNat < 2 ^ 32) :
    Apart [⟨base, size⟩] := by
  refine ⟨separated_singleton (Nat.lt_add_of_pos_right hsize), fun p hp => ?_⟩
  rw [List.mem_singleton.mp hp]
  exact he

theorem Apart.lt_or_lt (h : Apart l) (hsize : 0 < size.toNat)
    (he : base.toNat + size.toNat < 2 ^ 32)
    (hdisj : Disjoint (range base size) (cover lo hi l))
    {q : LmbProperty} (hq : q ∈ l) (htouch : ¬ Touches base size q) :
    hi q < base.toNat ∨ base.toNat + size.toNat < lo q := by
  rw [touches_iff he (h.hi_lt q hq), not_or] at htouch
  rcases h.separated.le_or_le (by omega) hdisj hq with hle | hle
  · exact Or.inl (lt_of_le_of_ne hle (Ne.symm htouch.2))
  · exact Or.inr (lt_of_le_of_ne hle (Ne.symm htouch.1))

theorem Apart.set {pre post : List LmbProperty} {p q : LmbProperty}
    (h : Apart (pre ++ p :: post)) (hq : lo q < hi q) (hpre : ∀ x ∈ pre, hi x < lo q)
    (hpost : ∀ x ∈ post, hi q < lo x) (hlt : hi q < 2 ^ 32) : Apart (pre ++ q :: post) := by
  refine ⟨h.separated.erase.insert hq hpre hpost, fun x hx => ?_⟩
  rcases List.mem_append.mp hx with hx | hx
  · exact h.hi_lt x (List.mem_append_left _ hx)
  · rcases List.mem_cons.mp hx with rfl | hx
    · exact hlt
    · exact h.hi_lt x (List.mem_append_right _ (List.mem_cons_of_mem p hx))

variable (h : Apart l) (hsize : 0 < size.toNat) (he : base.toNat + size.toNat < 2 ^ 32)
  (hdisj : Disjoint (range base size) (cover lo hi l))

include h hsize he hdisj

theorem apart_grown_above {pre post : List LmbProperty} {p : LmbProperty}
    (hl : l = pre ++ p :: post) (hpre : ∀ q ∈ pre, ¬ Touches base size q)
    (hp : lo p = base.toNat + size.toNat) :
    Apart (pre ++ lmbGrow base size p :: post) ∧
      cover lo hi (pre ++ lmbGrow base size p :: post) = cover lo hi l ∪ range base size := by
  subst hl
  obtain ⟨hlo, hhi⟩ := lmbGrow_above he (h.hi_lt p (by simp)) hp
  obtain ⟨hsl, hsr, hlr⟩ := separated_append.mp h.separated
  obtain ⟨hplt, hpost, -⟩ := separated_cons.mp hsr
  refine ⟨h.set (by omega) (fun q hq => ?_) (fun q hq => hhi ▸ hpost q hq)
    (hhi ▸ h.hi_lt p (by simp)), ?_⟩
  · have hqp := hlr q hq p List.mem_cons_self
    have hqlt := hsl.lt q hq
    rcases h.lt_or_lt hsize he hdisj (List.mem_append_left _ hq) (hpre q hq) with hlt | hlt
    · rwa [hlo]
    · omega
  · have hjoin : Set.Ico base.toNat (hi p) = Set.Ico (lo p) (hi p) ∪ range base size := by
      rw [range, ← hp, Set.union_comm, Set.Ico_union_Ico_eq_Ico (by omega) hplt.le]
    simp only [cover_append, cover_cons, hlo, hhi, hjoin]
    ac_rfl

theorem apart_grown_below {pre post : List LmbProperty} {p : LmbProperty}
    (hl : l = pre ++ p :: post) (hp : base.toNat = hi p)
    (hhead : ∀ q, post.head? = some q → ¬ Meet (lmbGrow base size p) q) :
    Apart (pre ++ lmbGrow base size p :: post) ∧
      cover lo hi (pre ++ lmbGrow base size p :: post) = cover lo hi l ∪ range base size := by
  subst hl
  obtain ⟨hsl, hsr, hlr⟩ := separated_append.mp h.separated
  obtain ⟨hplt, hpost, hspost⟩ := separated_cons.mp hsr
  obtain ⟨hlo, hhi⟩ := lmbGrow_below he hplt hp
  refine ⟨h.set (by omega) (fun q hq => ?_) (fun q hq => ?_) (by omega), ?_⟩
  · rw [hlo]
    exact hlr q hq p List.mem_cons_self
  · have hle : ∀ q ∈ post, base.toNat + size.toNat ≤ lo q := by
      intro q hq
      have hpq := hpost q hq
      have hqlt := hspost.lt q hq
      have hmem : q ∈ pre ++ p :: post := by simp [hq]
      rcases h.separated.le_or_le (by omega) hdisj hmem with hle | hle
      · omega
      · exact hle
    cases post with
    | nil => exact absurd hq List.not_mem_nil
    | cons r post =>
      have hr := hhead r rfl
      rw [meet_iff (by omega) (h.hi_lt r (by simp)), not_or, hhi] at hr
      have hrle := hle r List.mem_cons_self
      rcases List.mem_cons.mp hq with rfl | hq
      · omega
      · have hrq := (separated_cons.mp hspost).2.1 q hq
        have hrlt := hspost.lt r List.mem_cons_self
        omega
  · have hjoin : Set.Ico (lo p) (base.toNat + size.toNat) =
        Set.Ico (lo p) (hi p) ∪ range base size := by
      rw [range, hp, Set.Ico_union_Ico_eq_Ico hplt.le (by omega)]
    simp only [cover_append, cover_cons, hlo, hhi, hjoin]
    ac_rfl

theorem apart_merged {pre post : List LmbProperty} {p q : LmbProperty}
    (hl : l = pre ++ p :: q :: post) (hp : base.toNat = hi p)
    (hmeet : Meet (lmbGrow base size p) q) :
    let r : LmbProperty := ⟨(lmbGrow base size p).base, (lmbGrow base size p).size + q.size⟩
    Apart (pre ++ r :: post) ∧
      cover lo hi (pre ++ r :: post) = cover lo hi l ∪ range base size := by
  intro r
  subst hl
  obtain ⟨-, hsr, hlr⟩ := separated_append.mp h.separated
  obtain ⟨hplt, hpost, hsq⟩ := separated_cons.mp hsr
  obtain ⟨hqlt, hqpost, -⟩ := separated_cons.mp hsq
  have hpq := hpost q List.mem_cons_self
  have hqhi := h.hi_lt q (by simp)
  obtain ⟨hlo, hhi⟩ := lmbGrow_below he hplt hp
  have hq : lo q = base.toNat + size.toNat := by
    rcases (meet_iff (by omega) hqhi).mp hmeet with hq | hq
    · rw [hq, hhi]
    · omega
  have hrlo : lo r = lo p := hlo
  have hrhi : hi r = hi q := by
    have hsum : (lmbGrow base size p).size.toNat + q.size.toNat < 2 ^ 32 := by
      unfold lo hi at *
      omega
    have hadd : r.size.toNat = (lmbGrow base size p).size.toNat + q.size.toNat :=
      BitVec.toNat_add_of_lt hsum
    have hbase : r.base = (lmbGrow base size p).base := rfl
    unfold lo hi at *
    omega
  have herase : Apart (pre ++ p :: post) := by
    have hassoc : pre ++ p :: q :: post = (pre ++ [p]) ++ q :: post := by simp
    rw [hassoc] at h
    refine ⟨by simpa using h.separated.erase, fun x hx => h.hi_lt x ?_⟩
    simp only [List.mem_append, List.mem_cons] at hx ⊢
    tauto
  refine ⟨herase.set (by omega) (fun x hx => ?_) (fun x hx => ?_) (by omega), ?_⟩
  · rw [hrlo]
    exact hlr x hx p List.mem_cons_self
  · rw [hrhi]
    exact hqpost x hx
  · have hjoin : Set.Ico (lo p) (hi q) =
        Set.Ico (lo p) (hi p) ∪ range base size ∪ Set.Ico (lo q) (hi q) := by
      rw [range, hp, ← hp, Set.Ico_union_Ico_eq_Ico (by omega) (by omega), hq,
        Set.Ico_union_Ico_eq_Ico (by omega) (by omega)]
    simp only [cover_append, cover_cons, hrlo, hrhi, hjoin]
    ac_rfl

theorem apart_inserted {pre post : List LmbProperty} (hl : l = pre ++ post)
    (hfree : ∀ q ∈ l, ¬ Touches base size q) (habove : ∀ q ∈ post, base < q.base)
    (hbelow : ∀ q, pre.getLast? = some q → ¬ base < q.base) :
    Apart (pre ++ ⟨base, size⟩ :: post) ∧
      cover lo hi (pre ++ ⟨base, size⟩ :: post) = cover lo hi l ∪ range base size := by
  subst hl
  have hside : ∀ q ∈ pre ++ post, hi q < base.toNat ∨ base.toNat + size.toNat < lo q :=
    fun q hq => h.lt_or_lt hsize he hdisj hq (hfree q hq)
  obtain ⟨hspre, hspost, -⟩ := separated_append.mp h.separated
  have hpre : ∀ q ∈ pre, hi q < base.toNat := by
    intro q hq
    obtain ⟨last, hlast⟩ := Option.isSome_iff_exists.mp
      (List.getLast?_isSome.mpr (List.ne_nil_of_mem hq))
    have hle : lo q ≤ lo last := hspre.lo_le_getLast hlast hq
    have hbase : last.base.toNat ≤ base.toNat := BitVec.not_lt.mp (hbelow last hlast)
    have hqlt := hspre.lt q hq
    rcases hside q (List.mem_append_left _ hq) with hq | hq
    · exact hq
    · unfold lo at *
      omega
  refine ⟨⟨h.separated.insert ?_ hpre fun q hq => ?_, fun q hq => ?_⟩, ?_⟩
  · exact Nat.lt_add_of_pos_right hsize
  · have hlt := habove q hq
    have hqlt := hspost.lt q hq
    rcases hside q (List.mem_append_right _ hq) with hq | hq
    · unfold lo hi at *
      bv_omega
    · exact hq
  · rcases List.mem_append.mp hq with hq | hq
    · exact h.hi_lt q (List.mem_append_left _ hq)
    · rcases List.mem_cons.mp hq with rfl | hq
      · exact he
      · exact h.hi_lt q (List.mem_append_right _ hq)
  · simp only [cover_append, cover_cons]
    rw [show Set.Ico (lo ⟨base, size⟩) (hi ⟨base, size⟩) = range base size from rfl]
    ac_rfl

/-- **A range that is added is covered and the entries stay apart**, unless the table is
full. -/
theorem AddOutcome.apart {ret : ℤ} {l' : List LmbProperty}
    (hout : AddOutcome base size l ret l') (hret : 0 ≤ ret) :
    Apart l' ∧ cover lo hi l' = cover lo hi l ∪ range base size := by
  cases hout with
  | dummy p hp hzero =>
    have hlt := h.separated.lt p hp
    unfold lo hi at hlt
    rw [hzero] at hlt
    simp at hlt
  | already hmem =>
    have hbase : base.toNat ∈ range base size := ⟨le_rfl, by omega⟩
    exact absurd ⟨_, hmem, hbase⟩ (Set.disjoint_left.mp hdisj hbase)
  | grown pre p post hl hpre hp hhead =>
    have hplt := h.hi_lt p (by simp [hl])
    rcases (touches_iff he hplt).mp hp with hp | hp
    · exact apart_grown_above h hsize he hdisj hl hpre hp
    · exact apart_grown_below h hsize he hdisj hl hp hhead
  | merged pre p q post hl hpre hp hmeet =>
    have hplt := h.hi_lt p (by simp [hl])
    rcases (touches_iff he hplt).mp hp with hp | hp
    · -- the entry above the range grows downwards and stays apart from the next
      exfalso
      subst hl
      obtain ⟨hlo, hhi⟩ := lmbGrow_above he hplt hp
      obtain ⟨-, hsr, -⟩ := separated_append.mp h.separated
      obtain ⟨hplt', hpost, hsq⟩ := separated_cons.mp hsr
      have hpq := hpost q List.mem_cons_self
      have hqlt := hsq.lt q List.mem_cons_self
      rcases (meet_iff (by omega) (h.hi_lt q (by simp))).mp hmeet with hq | hq <;> omega
    · exact apart_merged h hsize he hdisj hl hp hmeet
  | full hfree hlen => exact absurd hret (by decide)
  | inserted pre post hl hlen hfree habove hbelow =>
    exact apart_inserted h hsize he hdisj hl hfree habove hbelow
  | overwritten p pre post hl hlen hp hbelow =>
    -- the last entry put before the range would begin below the first one
    exfalso
    subst hl
    obtain ⟨hs, -, -⟩ := separated_append.mp h.separated
    obtain ⟨last, hlast⟩ := Option.isSome_iff_exists.mp
      (List.getLast?_isSome.mpr (List.cons_ne_nil p pre))
    have hle : lo p ≤ lo last := hs.lo_le_getLast hlast List.mem_cons_self
    have hbase : last.base.toNat ≤ base.toNat := BitVec.not_lt.mp (hbelow last hlast)
    have hlt : base.toNat < p.base.toNat := hp
    unfold lo at hle
    omega

end

/-! ## Taking addresses out -/

theorem Apart.carve {pre post : List LmbProperty} {p q : LmbProperty}
    (h : Apart (pre ++ p :: post)) (hq : lo q < hi q) (hqlo : lo p ≤ lo q) (hqhi : hi q ≤ hi p) :
    Apart (pre ++ q :: post) := by
  obtain ⟨-, hsr, hlr⟩ := separated_append.mp h.separated
  obtain ⟨-, hpost, -⟩ := separated_cons.mp hsr
  refine h.set hq (fun x hx => ?_) (fun x hx => ?_) ?_
  · exact (hlr x hx p List.mem_cons_self).trans_le hqlo
  · exact hqhi.trans_lt (hpost x hx)
  · exact hqhi.trans_lt (h.hi_lt p (by simp))

theorem Apart.erase {pre post : List LmbProperty} {p : LmbProperty}
    (h : Apart (pre ++ p :: post)) : Apart (pre ++ post) := by
  refine ⟨h.separated.erase, fun x hx => h.hi_lt x ?_⟩
  rcases List.mem_append.mp hx with hx | hx
  · exact List.mem_append_left _ hx
  · exact List.mem_append_right _ (List.mem_cons_of_mem p hx)

theorem Apart.cover_carve {pre post : List LmbProperty} {p q : LmbProperty}
    (h : Apart (pre ++ p :: post)) {s : Set ℕ} (hs : s ⊆ Set.Ico (lo p) (hi p))
    (hq : Set.Ico (lo q) (hi q) = Set.Ico (lo p) (hi p) \ s) :
    cover lo hi (pre ++ q :: post) = cover lo hi (pre ++ p :: post) \ s := by
  have hm : cover lo hi [q] = Set.Ico (lo p) (hi p) \ s := by
    rw [cover_cons, cover_nil, Set.union_empty, hq]
  exact IntervalList.cover_carve h.separated hs hm

theorem Apart.ne_of_mem_carve {pre post : List LmbProperty} {p q x : LmbProperty} {t : ℕ}
    (h : Apart (pre ++ p :: post)) (hqlo : lo q < hi p) (hqhi : hi q < t) (ht : t < hi p)
    (hx : x ∈ pre ++ q :: post) (hpt : lo p ≤ t) : lo x ≠ hi p ∧ t ≠ hi x := by
  obtain ⟨hsl, hsr, hlr⟩ := separated_append.mp h.separated
  obtain ⟨-, hpost, hspost⟩ := separated_cons.mp hsr
  rcases List.mem_append.mp hx with hx | hx
  · have hxp := hlr x hx p List.mem_cons_self
    have hxlt := hsl.lt x hx
    omega
  · rcases List.mem_cons.mp hx with rfl | hx
    · omega
    · have hpx := hpost x hx
      have hxlt := hspost.lt x hx
      omega

end Lmb
end EmevBsp
