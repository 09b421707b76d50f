import EmevBsp.Lmb.Atomic

/-!
# Where the search stops, and what becomes of the table

`__lmb_alloc_base` computes with 32 bits, and the end of a region or of the range it tries may
wrap.  What it does then can still be said of the table and the arguments alone.  From where it
starts in a memory region it stops at the highest aligned address at which
`lmb_overlaps_region` sees nothing in the way; where the range at the start wraps itself, only
the start will do.  The outer loop takes the last memory region in which there is such an
address.

What was found is added to the table of reserved regions with its length rounded up.  The first
entry that the range touches is grown by it, and is joined with the next entry if it then
touches that.

* `allocWalk_eq_some_iff`: the inner loop stops at the first address that seems free.
* `allocFind_eq_some_iff`: so does the outer one.
* `addRegion_entries`: the entries after a range was added.

Both descriptions hold for every table, whatever wraps.
-/

namespace EmevBsp
namespace Lmb

/-! ## The search -/

/-- `b` is a multiple of `align` in the memory region `m` or above it, not zero, and to the test
of `lmb_overlaps_region` no reserved region is in the way of a range there. -/
structure SeemsFree (lmb : Lmb) (size align : PhysAddr) (m : LmbProperty) (b : PhysAddr) :
    Prop where
  ne_zero : b ≠ 0
  dvd : align.toNat ∣ b.toNat
  lo_le : lo m ≤ b.toNat
  free : ∀ v ∈ entries lmb.reserved, lmbAddrsOverlap b size v.base v.size = false

/-- `b` is the highest address from `s` down that seems free.  Below `s` there is none when the
range at `s` ends at or past the top of the address space. -/
structure FirstFree (lmb : Lmb) (size align : PhysAddr) (m : LmbProperty) (s b : PhysAddr) :
    Prop where
  seemsFree : SeemsFree lmb size align m b
  le : b.toNat ≤ s.toNat
  above : b ≠ s → s.toNat + size.toNat < 2 ^ 32 ∧
    ∀ x : PhysAddr, b.toNat < x.toNat → x.toNat ≤ s.toNat → ¬ SeemsFree lmb size align m x

/-- The search stops at `b` if it gets to the memory region `m`. -/
def StopsIn (lmb : Lmb) (size align maxAddr : PhysAddr) (m : LmbProperty) (b : PhysAddr) :
    Prop :=
  ∃ s, lmbAllocStart m size align maxAddr = some s ∧ FirstFree lmb size align m s b

/-- The search stops at `b` in the memory region `m`. -/
def StopsAt (lmb : Lmb) (size align maxAddr : PhysAddr) (m : LmbProperty) (b : PhysAddr) :
    Prop :=
  ∃ i < lmb.memory.cnt.toNat, m = lmb.memory.region i ∧ StopsIn lmb size align maxAddr m b ∧
    ∀ j, i < j → j < lmb.memory.cnt.toNat →
      ∀ x, ¬ StopsIn lmb size align maxAddr (lmb.memory.region j) x

section

variable {lmb : Lmb} {size align maxAddr b : PhysAddr} {m : LmbProperty} {k : ℕ}

theorem overlapsRegion_eq_none_iff {rgn : LmbRegion} {base : PhysAddr} :
    lmbOverlapsRegion rgn base size = none ↔
      ∀ v ∈ entries rgn, lmbAddrsOverlap base size v.base v.size = false := by
  rw [lmbOverlapsRegion, List.find?_range_eq_none]
  constructor
  · intro h v hv
    obtain ⟨i, hi, rfl⟩ := mem_entries.mp hv
    exact (Bool.not_eq_true' _).mp (h i hi)
  · intro h i hi
    exact (Bool.not_eq_true' _).mpr (h _ (mem_entries.mpr ⟨i, hi, rfl⟩))

theorem le_alignDown (halign : align.toNat = 2 ^ k) {a : ℕ} (ha : align.toNat ∣ a) {x : PhysAddr}
    (hle : a ≤ x.toNat) : a ≤ (lmbAlignDown x align).toNat := by
  obtain ⟨q, rfl⟩ := ha
  rw [lmbAlignDown, Alignment.toNat_alignDown halign, halign, Nat.mul_comm]
  rw [halign, Nat.mul_comm] at hle
  exact Nat.mul_le_mul_right _ ((Nat.le_div_iff_mul_le (Nat.two_pow_pos k)).mpr hle)

theorem dvd_alignDown (halign : align.toNat = 2 ^ k) (x : PhysAddr) :
    align.toNat ∣ (lmbAlignDown x align).toNat := by
  rw [lmbAlignDown, Alignment.toNat_alignDown halign, halign]
  exact Nat.dvd_mul_left _ _

theorem dvd_allocStart {s : PhysAddr} (halign : align.toNat = 2 ^ k)
    (h : lmbAllocStart m size align maxAddr = some s) : align.toNat ∣ s.toNat := by
  rw [lmbAllocStart] at h
  split_ifs at h
  · rw [← Option.some.inj h]
    exact dvd_alignDown halign _
  · rw [← Option.some.inj h]
    exact dvd_alignDown halign _

/-- **What is in the way at `base` is in the way below it**, as far down as it begins below the
end of the range there. -/
theorem overlap_below {base x : PhysAddr} {v : LmbProperty}
    (hover : lmbAddrsOverlap base size v.base v.size = true)
    (hend : base.toNat + size.toNat < 2 ^ 32) (hx : x.toNat ≤ base.toNat)
    (hlo : lo v < x.toNat + size.toNat) : lmbAddrsOverlap x size v.base v.size = true := by
  rw [lmbAddrsOverlap, Bool.and_eq_true, decide_eq_true_eq, decide_eq_true_eq, BitVec.lt_def,
    BitVec.lt_def] at hover ⊢
  refine ⟨hx.trans_lt hover.1, ?_⟩
  rwa [BitVec.toNat_add_of_lt (by omega)]

theorem overlap_of_some {rgn : LmbRegion} {base : PhysAddr} {j : ℕ}
    (h : lmbOverlapsRegion rgn base size = some j) :
    rgn.region j ∈ entries rgn ∧
      lmbAddrsOverlap base size (rgn.region j).base (rgn.region j).size = true := by
  obtain ⟨hover, hrange, -⟩ := List.find?_range_eq_some.mp h
  exact ⟨mem_entries.mpr ⟨j, List.mem_range.mp hrange, rfl⟩, hover⟩

theorem end_lt_of_overlap {base : PhysAddr} {v : LmbProperty}
    (hover : lmbAddrsOverlap base size v.base v.size = true) (hge : ¬ v.base < size) :
    base.toNat + size.toNat < 2 ^ 32 := by
  rw [lmbAddrsOverlap, Bool.and_eq_true, decide_eq_true_eq, decide_eq_true_eq] at hover
  have hlt := hover.2
  bv_omega

theorem FirstFree.not_seemsFree {s x : PhysAddr} (h : FirstFree lmb size align m s b)
    (hlt : b.toNat < x.toNat) (hle : x.toNat ≤ s.toNat) : ¬ SeemsFree lmb size align m x := by
  refine (h.above fun heq => ?_).2 x hlt hle
  rw [heq] at hlt
  exact absurd hle (not_le.mpr hlt)

/-- **The inner loop** stops at the first address that seems free.  The region that is in the way
at `base` is so at every aligned address that is passed over. -/
theorem allocWalk_eq_some_iff (halign : align.toNat = 2 ^ k) {base : PhysAddr}
    (hdvd : align.toNat ∣ base.toNat) :
    lmbAllocWalk lmb.reserved m.base size align base = some b ↔
      FirstFree lmb size align m base b := by
  fun_induction lmbAllocWalk lmb.reserved m.base size align base with
  | case1 base hin hnone =>
    have hbase : SeemsFree lmb size align m base :=
      ⟨hin.1, hdvd, hin.2, overlapsRegion_eq_none_iff.mp hnone⟩
    constructor
    · intro h
      obtain rfl := Option.some.inj h
      exact ⟨hbase, le_rfl, fun hne => absurd rfl hne⟩
    · intro h
      by_contra hne
      have hlt : b.toNat < base.toNat := lt_of_le_of_ne h.le fun heq =>
        hne (congrArg some (BitVec.eq_of_toNat_eq heq.symm))
      exact h.not_seemsFree hlt le_rfl hbase
  | case2 base hin j hj hlt =>
    obtain ⟨hmem, hover⟩ := overlap_of_some hj
    refine iff_of_false (Option.some_ne_none b).symm fun h => ?_
    have hfree := h.seemsFree.free _ hmem
    rcases eq_or_ne b base with rfl | hne
    · exact Bool.false_ne_true (hfree.symm.trans hover)
    · have hlo : lo (lmb.reserved.region j) < size.toNat := hlt
      have hbelow := overlap_below hover (h.above hne).1 h.le (by omega)
      exact Bool.false_ne_true (hfree.symm.trans hbelow)
  | case3 base hin j hj hle ih =>
    obtain ⟨hmem, hover⟩ := overlap_of_some hj
    have hend := end_lt_of_overlap hover hle
    have hnext : (lmbAlignDown ((lmb.reserved.region j).base - size) align).toNat < base.toNat :=
      next_lt hj hle
    have hsub : ((lmb.reserved.region j).base - size).toNat =
        lo (lmb.reserved.region j) - size.toNat :=
      BitVec.toNat_sub_of_le (BitVec.not_lt.mp hle)
    have hpassed : ∀ x : PhysAddr, x.toNat ≤ base.toNat → SeemsFree lmb size align m x →
        x.toNat ≤ (lmbAlignDown ((lmb.reserved.region j).base - size) align).toNat := by
      intro x hx hseems
      by_contra hlt
      have hlo : lo (lmb.reserved.region j) < x.toNat + size.toNat := by
        by_contra hge
        refine hlt (le_alignDown halign hseems.dvd ?_)
        omega
      exact Bool.false_ne_true
        ((hseems.free _ hmem).symm.trans (overlap_below hover hend hx hlo))
    rw [ih (dvd_alignDown halign _)]
    constructor
    · intro h
      refine ⟨h.seemsFree, h.le.trans hnext.le, fun _ => ⟨hend, fun x hlt hx hseems => ?_⟩⟩
      exact h.not_seemsFree hlt (hpassed x hx hseems) hseems
    · intro h
      have hble := hpassed b h.le h.seemsFree
      refine ⟨h.seemsFree, hble, fun _ => ⟨by omega, fun x hlt hx hseems => ?_⟩⟩
      exact h.not_seemsFree hlt (hx.trans hnext.le) hseems
  | case4 base hin =>
    refine iff_of_false (Option.some_ne_none b).symm fun h => hin ⟨fun hzero => ?_, ?_⟩
    · have hle := h.le
      rw [hzero] at hle
      exact h.seemsFree.ne_zero (BitVec.eq_of_toNat_eq (Nat.le_zero.mp hle))
    · exact BitVec.le_def.mpr (h.seemsFree.lo_le.trans h.le)

theorem stopsIn_iff (halign : align.toNat = 2 ^ k) :
    (lmbAllocStart m size align maxAddr).bind
        (lmbAllocWalk lmb.reserved m.base size align) = some b ↔
      StopsIn lmb size align maxAddr m b := by
  rw [Option.bind_eq_some_iff, StopsIn]
  constructor
  · rintro ⟨s, hstart, hwalk⟩
    exact ⟨s, hstart, (allocWalk_eq_some_iff halign (dvd_allocStart halign hstart)).mp hwalk⟩
  · rintro ⟨s, hstart, hfirst⟩
    exact ⟨s, hstart, (allocWalk_eq_some_iff halign (dvd_allocStart halign hstart)).mpr hfirst⟩

theorem allocFind_eq_some_iff' (halign : align.toNat = 2 ^ k) (n : ℕ) :
    lmbAllocFind lmb size align maxAddr n = some b ↔
      ∃ i < n, StopsIn lmb size align maxAddr (lmb.memory.region i) b ∧
        ∀ j, i < j → j < n → ∀ x, ¬ StopsIn lmb size align maxAddr (lmb.memory.region j) x := by
  induction n with
  | zero => simp [lmbAllocFind]
  | succ n ih =>
    rw [lmbAllocFind]
    cases hbind : (lmbAllocStart (lmb.memory.region n) size align maxAddr).bind
        (lmbAllocWalk lmb.reserved (lmb.memory.region n).base size align) with
    | none =>
      have hnone : ∀ x, ¬ StopsIn lmb size align maxAddr (lmb.memory.region n) x := fun x hx =>
        absurd (hbind.symm.trans ((stopsIn_iff halign).mpr hx)) (Option.some_ne_none x).symm
      rw [ih]
      constructor
      · rintro ⟨i, hi, hstops, habove⟩
        refine ⟨i, hi.trans (Nat.lt_succ_self n), hstops, fun j hij hj => ?_⟩
        rcases Nat.lt_succ_iff_lt_or_eq.mp hj with hj | rfl
        · exact habove j hij hj
        · exact hnone
      · rintro ⟨i, hi, hstops, habove⟩
        rcases Nat.lt_succ_iff_lt_or_eq.mp hi with hi | rfl
        · exact ⟨i, hi, hstops, fun j hij hj => habove j hij (hj.trans (Nat.lt_succ_self n))⟩
        · exact absurd hstops (hnone b)
    | some r =>
      have hr := (stopsIn_iff halign).mp hbind
      constructor
      · intro h
        obtain rfl := Option.some.inj h
        exact ⟨n, Nat.lt_succ_self n, hr, fun j hij hj => absurd hj (by omega)⟩
      · rintro ⟨i, hi, hstops, habove⟩
        rcases Nat.lt_succ_iff_lt_or_eq.mp hi with hi | rfl
        · exact absurd hr (habove n hi (Nat.lt_succ_self n) r)
        · exact hbind.symm.trans ((stopsIn_iff halign).mpr hstops)

/-- **The outer loop** stops at the last memory region in which an address seems free. -/
theorem allocFind_eq_some_iff (halign : align.toNat = 2 ^ k) :
    lmbAllocFind lmb size align maxAddr lmb.memory.cnt.toNat = some b ↔
      ∃ m, StopsAt lmb size align maxAddr m b := by
  rw [allocFind_eq_some_iff' halign]
  constructor
  · rintro ⟨i, hi, hstops, habove⟩
    exact ⟨_, i, hi, rfl, hstops, habove⟩
  · rintro ⟨m, i, hi, rfl, hstops, habove⟩
    exact ⟨i, hi, hstops, habove⟩

theorem StopsAt.mem (h : StopsAt lmb size align maxAddr m b) : m ∈ entries lmb.memory := by
  obtain ⟨i, hi, rfl, -⟩ := h
  exact mem_entries.mpr ⟨i, hi, rfl⟩

theorem StopsAt.seemsFree (h : StopsAt lmb size align maxAddr m b) :
    SeemsFree lmb size align m b := by
  obtain ⟨i, hi, rfl, ⟨s, -, hfirst⟩, -⟩ := h
  exact hfirst.seemsFree

theorem allocBase_of_not_stopsAt (halign : align.toNat = 2 ^ k)
    (h : ∀ m b, ¬ StopsAt lmb size align maxAddr m b) :
    lmbAllocBase lmb size align maxAddr = some (0, lmb) := by
  rw [lmbAllocBase]
  cases hfind : lmbAllocFind lmb size align maxAddr lmb.memory.cnt.toNat with
  | none => rfl
  | some b =>
    obtain ⟨m, hm⟩ := (allocFind_eq_some_iff halign).mp hfind
    exact absurd hm (h m b)

/-- **The call**, where the search stops at `b`: it does not return, finds no place in the table, or
adds the rounded range. -/
theorem StopsAt.call (halign : align.toNat = 2 ^ k)
    (hcnt : lmb.reserved.cnt.toNat ≤ maxLmbRegions) (h : StopsAt lmb size align maxAddr m b) :
    (lmb.reserved.cnt = 0 ∧ lmbRegionsAdjacent lmb.reserved 0 1 ≠ 0) ∧
        lmbAllocBase lmb size align maxAddr = none ∨
      NoPlace (entries lmb.reserved) b (lmbAlignUp size align) ∧
        lmbAllocBase lmb size align maxAddr = some (0, lmb) ∨
      ¬ NoPlace (entries lmb.reserved) b (lmbAlignUp size align) ∧ ∃ ret rgn', 0 ≤ ret ∧
        lmbAddRegion lmb.reserved b (lmbAlignUp size align) = some (ret, rgn') ∧
        lmbAllocBase lmb size align maxAddr = some (b, { lmb with reserved := rgn' }) := by
  rw [lmbAllocBase, (allocFind_eq_some_iff halign).mpr ⟨m, h⟩]
  dsimp only
  cases hadd : lmbAddRegion lmb.reserved b (lmbAlignUp size align) with
  | none => exact Or.inl ⟨(addRegion_eq_none_iff hcnt).mp hadd, rfl⟩
  | some res =>
    obtain ⟨ret, rgn'⟩ := res
    rw [Option.map_some]
    by_cases hret : 0 ≤ ret
    · refine Or.inr (Or.inr ⟨fun hplace => ?_, ret, rgn', hret, rfl, ?_⟩)
      · have hneg := (addRegion_eq_neg_iff hcnt).mpr ⟨rfl, hplace⟩
        obtain ⟨rfl, -⟩ := Prod.mk.inj (Option.some.inj (hadd.symm.trans hneg))
        exact absurd hret (by decide)
      · rw [if_neg (not_lt.mpr hret)]
    · obtain ⟨-, rfl, hplace⟩ := addRegion_refused hcnt hadd (not_le.mp hret)
      exact Or.inr (Or.inl ⟨hplace, by rw [if_pos (not_le.mp hret)]⟩)

end

/-! ## The table -/

/-- The entry `p` after `pre` is the first that the loop of `lmb_add_region` stops at, and it is
not the range itself. -/
structure FirstTouched (base size : PhysAddr) (pre : List LmbProperty) (p : LmbProperty) :
    Prop where
  before : ∀ q ∈ pre, q ≠ ⟨base, size⟩ ∧ ¬ Touches base size q
  ne : p ≠ ⟨base, size⟩
  touches : Touches base size p

/-- **What the range is joined to**: with entries `l`, it becomes part of the entry `g`, between
those of `pre` and those of `post`. -/
inductive Joins (l : List LmbProperty) (base size : PhysAddr) (pre : List LmbProperty) :
    LmbProperty → List LmbProperty → Prop where
  | grown (p : LmbProperty) (post : List LmbProperty) :
      l = pre ++ p :: post → FirstTouched base size pre p →
      (∀ q, post.head? = some q → ¬ Meet (lmbGrow base size p) q) →
      Joins l base size pre (lmbGrow base size p) post
  | merged (p q : LmbProperty) (post : List LmbProperty) :
      l = pre ++ p :: q :: post → FirstTouched base size pre p → Meet (lmbGrow base size p) q →
      Joins l base size pre ⟨(lmbGrow base size p).base, (lmbGrow base size p).size + q.size⟩ post

section

variable {rgn rgn' : LmbRegion} {base size : PhysAddr} {l pre pre' post post' : List LmbProperty}
  {p p' g g' : LmbProperty} {ret : ℤ}

theorem split_first_unique {α : Type*} {P : α → Prop} {pre pre' post post' : List α} {p p' : α}
    (h : pre ++ p :: post = pre' ++ p' :: post') (hpre : ∀ x ∈ pre, ¬ P x) (hp : P p)
    (hpre' : ∀ x ∈ pre', ¬ P x) (hp' : P p') : pre = pre' ∧ p = p' ∧ post = post' := by
  induction pre generalizing pre' with
  | nil =>
    cases pre' with
    | nil => exact ⟨rfl, List.cons.inj h⟩
    | cons x pre' =>
      obtain rfl := (List.cons.inj h).1
      exact absurd hp (hpre' p List.mem_cons_self)
  | cons x pre ih =>
    cases pre' with
    | nil =>
      obtain rfl := (List.cons.inj h).1
      exact absurd hp' (hpre x List.mem_cons_self)
    | cons y pre' =>
      obtain ⟨rfl, htail⟩ := List.cons.inj h
      obtain ⟨rfl, hrest⟩ := ih htail (fun z hz => hpre z (List.mem_cons_of_mem _ hz))
        fun z hz => hpre' z (List.mem_cons_of_mem _ hz)
      exact ⟨rfl, hrest⟩

theorem FirstTouched.unique (h : FirstTouched base size pre p)
    (heq : pre ++ p :: post = pre' ++ p' :: post')
    (hbefore : ∀ q ∈ pre', q ≠ ⟨base, size⟩ ∧ ¬ Touches base size q)
    (hp' : p' = ⟨base, size⟩ ∨ Touches base size p') : pre = pre' ∧ p = p' ∧ post = post' :=
  split_first_unique (P := fun q => q = ⟨base, size⟩ ∨ Touches base size q) heq
    (fun x hx => not_or.mpr (h.before x hx)) (Or.inr h.touches)
    (fun x hx => not_or.mpr (hbefore x hx)) hp'

theorem Joins.firstTouched (h : Joins l base size pre g post) :
    ∃ p post', l = pre ++ p :: post' ∧ FirstTouched base size pre p := by
  cases h with
  | grown p _ heq hfirst => exact ⟨p, post, heq, hfirst⟩
  | merged p q _ heq hfirst => exact ⟨p, q :: post, heq, hfirst⟩

theorem Joins.unique (h : Joins l base size pre g post) (h' : Joins l base size pre' g' post') :
    pre = pre' ∧ g = g' ∧ post = post' := by
  cases h with
  | grown p _ heq hfirst hhead =>
    cases h' with
    | grown p' _ heq' hfirst' =>
      obtain ⟨rfl, rfl, rfl⟩ :=
        hfirst.unique (heq.symm.trans heq') hfirst'.before (Or.inr hfirst'.touches)
      exact ⟨rfl, rfl, rfl⟩
    | merged p' q' _ heq' hfirst' hmeet' =>
      obtain ⟨rfl, rfl, rfl⟩ :=
        hfirst.unique (heq.symm.trans heq') hfirst'.before (Or.inr hfirst'.touches)
      exact absurd hmeet' (hhead q' rfl)
  | merged p q _ heq hfirst hmeet =>
    cases h' with
    | grown p' _ heq' hfirst' hhead' =>
      obtain ⟨rfl, rfl, rfl⟩ :=
        hfirst.unique (heq.symm.trans heq') hfirst'.before (Or.inr hfirst'.touches)
      exact absurd hmeet (hhead' q rfl)
    | merged p' q' _ heq' hfirst' =>
      obtain ⟨rfl, rfl, hpost⟩ :=
        hfirst.unique (heq.symm.trans heq') hfirst'.before (Or.inr hfirst'.touches)
      obtain ⟨rfl, rfl⟩ := List.cons.inj hpost
      exact ⟨rfl, rfl, rfl⟩

theorem not_joins_of_alone (halone : ∀ q ∈ l, q ≠ ⟨base, size⟩ ∧ ¬ Touches base size q) :
    ¬ Joins l base size pre g post := by
  intro h
  obtain ⟨p, post', rfl, hfirst⟩ := h.firstTouched
  exact (halone p (by simp)).2 hfirst.touches

/-- **The entries after a range was added** to a table with entries, other than the empty one that
`lmb_init` writes. -/
theorem addRegion_entries (hpos : 0 < rgn.cnt.toNat) (hcnt : rgn.cnt.toNat ≤ maxLmbRegions)
    (hdummy : ¬ (rgn.cnt = 1 ∧ (rgn.region 0).size = 0))
    (hadd : lmbAddRegion rgn base size = some (ret, rgn')) (hret : 0 ≤ ret) :
    (⟨base, size⟩ ∈ entries rgn ∧ entries rgn' = entries rgn ∧
        ∀ pre g post, ¬ Joins (entries rgn) base size pre g post) ∨
      (∃ pre g post, Joins (entries rgn) base size pre g post ∧
        entries rgn' = pre ++ g :: post) ∨
      (∀ q ∈ entries rgn, q ≠ ⟨base, size⟩ ∧ ¬ Touches base size q) ∧
        rgn.cnt.toNat < maxLmbRegions ∧ rgn' = lmbInsert rgn base size := by
  cases hstop : lmbAddStop rgn base size with
  | none =>
    rw [addRegion_of_alone hpos hdummy hstop] at hadd
    split_ifs at hadd with hfull
    · obtain ⟨rfl, -⟩ := Prod.mk.inj (Option.some.inj hadd)
      exact absurd hret (by decide)
    · obtain ⟨-, rfl⟩ := Prod.mk.inj (Option.some.inj hadd)
      exact Or.inr (Or.inr ⟨addStop_eq_none_iff.mp hstop, not_le.mp hfull, rfl⟩)
  | some i =>
    obtain ⟨pre, post, hsplit, rfl, hbefore, hstopped⟩ := addStop_eq_some hstop
    obtain ⟨p, hp⟩ : ∃ p, p = rgn.region pre.length := ⟨_, rfl⟩
    rw [← hp] at hsplit hstopped
    by_cases hne : p = ⟨base, size⟩
    · have hsame : lmbAddRegion rgn base size = some (0, rgn) := by
        rw [lmbAddRegion, if_neg hdummy, hstop]
        exact if_pos (hp.symm.trans hne)
      obtain ⟨-, rfl⟩ := Prod.mk.inj (Option.some.inj (hsame.symm.trans hadd))
      refine Or.inl ⟨by simp [hsplit, hne], rfl, fun pre' g post' hjoins => ?_⟩
      obtain ⟨p', post'', heq, hfirst⟩ := hjoins.firstTouched
      obtain ⟨-, rfl, -⟩ := hfirst.unique (heq.symm.trans hsplit) hbefore (Or.inl hne)
      exact hfirst.ne hne
    · have hfirst : FirstTouched base size pre p := ⟨hbefore, hne, hstopped.resolve_left hne⟩
      obtain ⟨ret', rgn'', hadd', hres⟩ := addRegion_of_touches hcnt hdummy hsplit hstop hne
      obtain ⟨-, rfl⟩ := Prod.mk.inj (Option.some.inj (hadd'.symm.trans hadd))
      rcases hres with ⟨-, hent, hhead⟩ | ⟨q, post, -, rfl, hmeet, hent⟩
      · exact Or.inr (Or.inl ⟨_, _, _, .grown p post hsplit hfirst hhead, hent⟩)
      · exact Or.inr (Or.inl ⟨_, _, _, .merged p q post hsplit hfirst hmeet, hent⟩)

end

end Lmb
end EmevBsp
