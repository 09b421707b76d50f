import EmevBsp.Lmb.Region
import Mathlib.Data.List.Basic

/-!
# The entries of a table

The places below `cnt` of a table, in order, are its entries.  Every function of
`lib_generic/lmb.c` that changes a table is told here by what it does to this list, for tables
of at most `MAX_LMB_REGIONS` entries; the arithmetic of `cnt` and the copying loops stay in
this file.
-/

namespace EmevBsp
namespace Lmb

/-- The regions of a table. -/
def entries (rgn : LmbRegion) : List LmbProperty :=
  (List.range rgn.cnt.toNat).map rgn.region

@[simp] theorem length_entries (rgn : LmbRegion) : (entries rgn).length = rgn.cnt.toNat := by
  simp [entries]

@[simp] theorem getElem_entries (rgn : LmbRegion) (i : ℕ) (h : i < (entries rgn).length) :
    (entries rgn)[i] = rgn.region i := by
  simp [entries]

theorem mem_entries {rgn : LmbRegion} {p : LmbProperty} :
    p ∈ entries rgn ↔ ∃ i < rgn.cnt.toNat, rgn.region i = p := by
  simp [entries]

@[simp] theorem cnt_setRegion (rgn : LmbRegion) (i : ℕ) (p : LmbProperty) :
    (setRegion rgn i p).cnt = rgn.cnt := rfl

@[simp] theorem setRegion_self (rgn : LmbRegion) (i : ℕ) (p : LmbProperty) :
    (setRegion rgn i p).region i = p := by
  simp [setRegion]

theorem setRegion_of_ne (rgn : LmbRegion) {i j : ℕ} (p : LmbProperty) (h : j ≠ i) :
    (setRegion rgn i p).region j = rgn.region j := by
  simp [setRegion, h]

@[simp] theorem entries_setRegion (rgn : LmbRegion) (i : ℕ) (p : LmbProperty) :
    entries (setRegion rgn i p) = (entries rgn).set i p := by
  refine List.ext_getElem (by simp) fun j hj _ => ?_
  rw [getElem_entries, List.getElem_set]
  split_ifs with hij
  · rw [← hij, setRegion_self]
  · rw [setRegion_of_ne rgn p (Ne.symm hij), getElem_entries]

theorem exists_split {rgn : LmbRegion} {i : ℕ} (h : i < rgn.cnt.toNat) :
    ∃ pre post, entries rgn = pre ++ rgn.region i :: post ∧ pre.length = i := by
  refine ⟨(entries rgn).take i, (entries rgn).drop (i + 1), ?_, ?_⟩
  · have hi : i < (entries rgn).length := by rwa [length_entries]
    rw [← getElem_entries rgn i hi, List.getElem_cons_drop, List.take_append_drop]
  · rw [List.length_take, length_entries]
    exact min_eq_left h.le

theorem mem_of_lt_length {rgn : LmbRegion} {pre post : List LmbProperty}
    (hsplit : entries rgn = pre ++ post) {j : ℕ} (hj : j < pre.length) :
    rgn.region j ∈ pre := by
  have hlen : j < (entries rgn).length := by
    rw [hsplit, List.length_append]
    omega
  rw [← getElem_entries rgn j hlen]
  simp only [hsplit, List.getElem_append_left hj]
  exact List.getElem_mem hj

/-! ## Taking an entry out -/

theorem lmbShiftDown_apply (region : ℕ → LmbProperty) (i n j : ℕ) :
    lmbShiftDown region i n j = if i ≤ j ∧ j < i + n then region (j + 1) else region j := by
  induction n generalizing region i with
  | zero =>
    rw [lmbShiftDown, if_neg (by omega)]
  | succ n ih =>
    rw [lmbShiftDown, ih]
    rcases lt_trichotomy j i with hj | rfl | hj
    · rw [if_neg (by omega), if_neg (by omega), Function.update_of_ne (by omega)]
    · rw [if_neg (by omega), if_pos (by omega), Function.update_self]
    · by_cases hjn : j < i + (n + 1)
      · rw [if_pos (by omega), if_pos (by omega), Function.update_of_ne (by omega)]
      · rw [if_neg (by omega), if_neg (by omega), Function.update_of_ne (by omega)]

theorem toNat_cnt_sub_one {c : BitVec 32} (h : 0 < c.toNat) : (c - 1).toNat = c.toNat - 1 := by
  bv_omega

/-- **`lmb_remove_region` takes the entry out.** -/
theorem entries_removeRegion {rgn : LmbRegion} {r : ℕ} (hr : r < rgn.cnt.toNat)
    (hcnt : rgn.cnt.toNat ≤ maxLmbRegions) :
    ∃ rgn', lmbRemoveRegion rgn r = some rgn' ∧ entries rgn' = (entries rgn).eraseIdx r := by
  have hsub := toNat_cnt_sub_one (show 0 < rgn.cnt.toNat by omega)
  refine ⟨_, if_neg fun h => ?_, ?_⟩
  · have := h.2
    omega
  · refine List.ext_getElem ?_ fun j hj _ => ?_
    · rw [List.length_eraseIdx_of_lt (by rwa [length_entries]), length_entries, length_entries]
      exact hsub
    · have hj' : j < rgn.cnt.toNat - 1 := by
        rw [length_entries] at hj
        exact lt_of_lt_of_eq hj hsub
      rw [getElem_entries, List.getElem_eraseIdx]
      simp only [lmbShiftDown_apply, hsub, getElem_entries]
      split_ifs with h1 h2 h2
      · omega
      · rfl
      · rfl
      · omega

theorem entries_coalesceRegions {rgn : LmbRegion} {pre post : List LmbProperty}
    {x y : LmbProperty} (hsplit : entries rgn = pre ++ x :: y :: post)
    (hcnt : rgn.cnt.toNat ≤ maxLmbRegions) :
    ∃ rgn', lmbCoalesceRegions rgn pre.length (pre.length + 1) = some rgn' ∧
      entries rgn' = pre ++ ⟨x.base, x.size + y.size⟩ :: post := by
  have hlen : rgn.cnt.toNat = pre.length + (post.length + 1 + 1) := by
    rw [← length_entries, hsplit, List.length_append, List.length_cons, List.length_cons]
  have hx : rgn.region pre.length = x := by
    rw [← getElem_entries rgn pre.length (by rw [length_entries]; omega)]
    simp [hsplit]
  have hy : rgn.region (pre.length + 1) = y := by
    rw [← getElem_entries rgn (pre.length + 1) (by rw [length_entries]; omega)]
    simp [hsplit]
  have hlt : pre.length + 1 <
      (setRegion rgn pre.length ⟨x.base, x.size + y.size⟩).cnt.toNat := by
    rw [cnt_setRegion]
    omega
  obtain ⟨rgn', hrem, hent⟩ := entries_removeRegion hlt hcnt
  refine ⟨rgn', ?_, ?_⟩
  · rw [lmbCoalesceRegions, hx, hy]
    exact hrem
  · rw [hent, entries_setRegion, hsplit, List.set_append_right _ _ le_rfl, Nat.sub_self,
      List.set_cons_zero, List.eraseIdx_append_of_length_le (Nat.le_succ _),
      Nat.succ_sub le_rfl, Nat.sub_self, List.eraseIdx_cons_succ, List.eraseIdx_cons_zero]

/-! ## Putting an entry in -/

theorem lmbInsertLoop_spec (base size : PhysAddr) (n : ℕ) (region : ℕ → LmbProperty) :
    ∃ k ≤ n, (∀ j, k ≤ j → j < n → base < (region j).base) ∧
      (0 < k → ¬ base < (region (k - 1)).base) ∧
      ∀ j, lmbInsertLoop base size n region j =
        if 0 < k ∧ j = k then ⟨base, size⟩
        else if k < j ∧ j ≤ n then region (j - 1) else region j := by
  induction n generalizing region with
  | zero =>
    refine ⟨0, le_rfl, fun j _ hj => absurd hj (Nat.not_lt_zero j),
      fun h => absurd h (lt_irrefl 0), fun j => ?_⟩
    rw [if_neg (by omega), if_neg (by omega), lmbInsertLoop]
  | succ n ih =>
    rw [lmbInsertLoop]
    by_cases hbase : base < (region n).base
    · obtain ⟨k, hk, habove, hbelow, hloop⟩ := ih (Function.update region (n + 1) (region n))
      refine ⟨k, by omega, fun j hkj hj => ?_, fun hpos => ?_, fun j => ?_⟩
      · rcases Nat.lt_succ_iff_lt_or_eq.mp hj with hj | rfl
        · have := habove j hkj hj
          rwa [Function.update_of_ne (by omega)] at this
        · exact hbase
      · have := hbelow hpos
        rwa [Function.update_of_ne (by omega)] at this
      · rw [if_pos hbase, hloop]
        by_cases hjk : 0 < k ∧ j = k
        · rw [if_pos hjk, if_pos hjk]
        · rw [if_neg hjk, if_neg hjk]
          rcases lt_trichotomy j (n + 1) with hj | rfl | hj
          · rw [Function.update_of_ne (by omega), Function.update_of_ne (by omega)]
            split_ifs <;> first | rfl | omega
          · rw [if_neg (by omega), if_pos (by omega), Function.update_self, Nat.add_sub_cancel]
          · rw [if_neg (by omega), if_neg (by omega), Function.update_of_ne (by omega)]
    · refine ⟨n + 1, le_rfl, fun j hkj hj => absurd hj (by omega), fun _ => hbase, fun j => ?_⟩
      rw [if_neg hbase]
      by_cases hj : j = n + 1
      · rw [if_pos ⟨by omega, hj⟩, hj, Function.update_self]
      · rw [if_neg (by omega), if_neg (by omega), Function.update_of_ne hj]

theorem map_insertLoop {rgn : LmbRegion} {base size : PhysAddr} {k : ℕ}
    {region : ℕ → LmbProperty} (hk : k ≤ rgn.cnt.toNat) (hpos : 0 < k)
    (hloop : ∀ j, region j = if 0 < k ∧ j = k then ⟨base, size⟩
      else if k < j ∧ j ≤ rgn.cnt.toNat then rgn.region (j - 1) else rgn.region j) :
    (List.range (rgn.cnt.toNat + 1)).map region =
      (entries rgn).take k ++ ⟨base, size⟩ :: (entries rgn).drop k := by
  have htake : ((entries rgn).take k).length = k := by
    rw [List.length_take, length_entries]
    exact min_eq_left hk
  refine List.ext_getElem ?_ fun j hj _ => ?_
  · simp only [List.length_map, List.length_range, List.length_append, htake, List.length_cons,
      List.length_drop, length_entries]
    omega
  · rw [List.length_map, List.length_range] at hj
    rw [List.getElem_map, List.getElem_range, hloop, List.getElem_append]
    rcases lt_trichotomy j k with hjk | rfl | hjk
    · rw [if_neg (by omega), if_neg (by omega), dif_pos (by omega), List.getElem_take,
        getElem_entries]
    · rw [if_pos ⟨hpos, rfl⟩, dif_neg (by omega)]
      simp [htake]
    · rw [if_neg (by omega), if_pos (by omega), dif_neg (by omega)]
      have hsub : j - ((entries rgn).take k).length = j - k - 1 + 1 := by omega
      simp only [hsub, List.getElem_cons_succ, List.getElem_drop, getElem_entries]
      congr 1
      omega

/-- **An entry is put before those above it.**  Where the first entry of the table is above it
and a later one is not, the first one is overwritten as well. -/
theorem exists_insert {rgn : LmbRegion} (hpos : 0 < rgn.cnt.toNat)
    (hcnt : rgn.cnt.toNat < maxLmbRegions) (base size : PhysAddr) :
    ∃ pre post, entries rgn = pre ++ post ∧ (∀ y ∈ post, base < y.base) ∧
      (∀ y, pre.getLast? = some y → ¬ base < y.base) ∧
      ((∀ y, pre.head? = some y → ¬ base < y.base) ∧
          entries (lmbInsert rgn base size) = pre ++ ⟨base, size⟩ :: post ∨
        ∃ x pre', pre = x :: pre' ∧ base < x.base ∧
          entries (lmbInsert rgn base size) =
            ⟨base, size⟩ :: (pre' ++ ⟨base, size⟩ :: post)) := by
  obtain ⟨k, hk, habove, hbelow, hloop⟩ := lmbInsertLoop_spec base size rgn.cnt.toNat rgn.region
  have hmax : maxLmbRegions = 8 := rfl
  have hcnt' : (rgn.cnt + 1).toNat = rgn.cnt.toNat + 1 := by
    have : rgn.cnt.toNat < 8 := hcnt
    bv_omega
  have hent : entries (lmbInsert rgn base size) =
      (List.range (rgn.cnt.toNat + 1)).map (lmbInsert rgn base size).region := by
    rw [entries, ← hcnt']
    rfl
  refine ⟨(entries rgn).take k, (entries rgn).drop k, (List.take_append_drop k _).symm, ?_, ?_,
    ?_⟩
  · intro y hy
    obtain ⟨i, hi, rfl⟩ := List.getElem_of_mem hy
    rw [List.length_drop, length_entries] at hi
    rw [List.getElem_drop, getElem_entries]
    exact habove _ (Nat.le_add_right k i) (by omega)
  · intro y hy
    rw [List.getLast?_eq_getElem?, List.length_take, length_entries, min_eq_left hk] at hy
    obtain ⟨hklt, rfl⟩ := List.getElem?_eq_some_iff.mp hy
    rw [List.length_take, length_entries] at hklt
    rw [List.getElem_take, getElem_entries]
    exact hbelow (by omega)
  · have hzero : (lmbInsertLoop base size rgn.cnt.toNat rgn.region 0) = rgn.region 0 := by
      rw [hloop, if_neg (by omega), if_neg (by omega)]
    have hregion : (lmbInsert rgn base size).region =
        if base < (rgn.region 0).base then
          Function.update (lmbInsertLoop base size rgn.cnt.toNat rgn.region) 0 ⟨base, size⟩
        else lmbInsertLoop base size rgn.cnt.toNat rgn.region := by
      rw [← hzero]
      rfl
    rcases Nat.eq_zero_or_pos k with rfl | hkpos
    · have hfirst : base < (rgn.region 0).base := habove 0 le_rfl hpos
      refine Or.inl ⟨fun y hy => absurd hy (by simp), ?_⟩
      rw [hent, hregion, if_pos hfirst, List.range_succ_eq_map, List.map_cons, List.map_map,
        Function.update_self, List.take_zero, List.nil_append, List.drop_zero, entries]
      refine congrArg _ (List.map_congr_left fun j hj => ?_)
      have hj' := List.mem_range.mp hj
      rw [Function.comp_apply, Function.update_of_ne (Nat.succ_ne_zero j), hloop,
        if_neg (by omega), if_pos (by omega), Nat.succ_sub_one]
    · have hmap := map_insertLoop hk hkpos hloop
      by_cases hfirst : base < (rgn.region 0).base
      · obtain ⟨k, rfl⟩ := Nat.exists_eq_add_of_lt hkpos
        obtain ⟨pre, rest, hsplit, hpre⟩ := exists_split hpos
        obtain rfl := List.eq_nil_of_length_eq_zero hpre
        refine Or.inr ⟨rgn.region 0, rest.take k, by simp [hsplit], hfirst, ?_⟩
        rw [hsplit] at hmap ⊢
        rw [List.range_succ_eq_map, List.map_cons] at hmap
        rw [hent, hregion, if_pos hfirst, List.range_succ_eq_map, List.map_cons,
          Function.update_self]
        simp only [Nat.zero_add, List.nil_append, List.take_succ_cons, List.cons_append,
          List.cons.injEq] at hmap ⊢
        refine ⟨trivial, ?_⟩
        rw [← hmap.2]
        refine List.map_congr_left fun j hj => ?_
        obtain ⟨i, -, rfl⟩ := List.mem_map.mp hj
        exact Function.update_of_ne (Nat.succ_ne_zero i) _ _
      · refine Or.inl ⟨fun y hy => ?_, ?_⟩
        · rw [List.head?_take, if_neg hkpos.ne', List.head?_eq_getElem?,
            List.getElem?_eq_getElem (by rwa [length_entries]), getElem_entries] at hy
          rwa [← Option.some.inj hy]
        · rw [hent, hregion, if_neg hfirst, hmap]

/-! ## Adding a range -/

/-- The range to add begins where the region ends, or ends where it begins. -/
def Touches (base size : PhysAddr) (p : LmbProperty) : Prop :=
  lmbAddrsAdjacent base size p.base p.size ≠ 0

/-- The same of two regions. -/
def Meet (p q : LmbProperty) : Prop :=
  lmbAddrsAdjacent p.base p.size q.base q.size ≠ 0

/-- **What `lmb_add_region` can do** to a table with entries `l`: its result and the new
entries. -/
inductive AddOutcome (base size : PhysAddr) (l : List LmbProperty) :
    ℤ → List LmbProperty → Prop where
  | dummy (p : LmbProperty) : p ∈ l → p.size = 0 → AddOutcome base size l 0 [⟨base, size⟩]
  | already : ⟨base, size⟩ ∈ l → AddOutcome base size l 0 l
  | grown (pre : List LmbProperty) (p : LmbProperty) (post : List LmbProperty) :
      l = pre ++ p :: post → (∀ q ∈ pre, ¬ Touches base size q) → Touches base size p →
      (∀ q, post.head? = some q → ¬ Meet (lmbGrow base size p) q) →
      AddOutcome base size l 1 (pre ++ lmbGrow base size p :: post)
  | merged (pre : List LmbProperty) (p q : LmbProperty) (post : List LmbProperty) :
      l = pre ++ p :: q :: post → (∀ r ∈ pre, ¬ Touches base size r) → Touches base size p →
      Meet (lmbGrow base size p) q →
      AddOutcome base size l 2
        (pre ++ ⟨(lmbGrow base size p).base, (lmbGrow base size p).size + q.size⟩ :: post)
  | full : (∀ q ∈ l, ¬ Touches base size q) → l.length = maxLmbRegions →
      AddOutcome base size l (-1) l
  | inserted (pre post : List LmbProperty) :
      l = pre ++ post → l.length < maxLmbRegions → (∀ q ∈ l, ¬ Touches base size q) →
      (∀ q ∈ post, base < q.base) → (∀ q, pre.getLast? = some q → ¬ base < q.base) →
      AddOutcome base size l 0 (pre ++ ⟨base, size⟩ :: post)
  | overwritten (p : LmbProperty) (pre post : List LmbProperty) :
      l = p :: pre ++ post → l.length < maxLmbRegions → base < p.base →
      (∀ q, (p :: pre).getLast? = some q → ¬ base < q.base) →
      AddOutcome base size l 0 (⟨base, size⟩ :: (pre ++ ⟨base, size⟩ :: post))

theorem AddOutcome.length_le {base size : PhysAddr} {l l' : List LmbProperty} {ret : ℤ}
    (h : AddOutcome base size l ret l') (hl : l.length ≤ maxLmbRegions) :
    l'.length ≤ maxLmbRegions := by
  cases h with
  | dummy p hp hsize => exact Nat.one_le_of_lt (Nat.lt_succ_self 7 : 7 < 8)
  | already hmem => exact hl
  | grown pre p post heq hpre hp hhead => simpa [heq] using hl
  | merged pre p q post heq hpre hp hmeet =>
    simp only [heq, List.length_append, List.length_cons] at hl ⊢
    omega
  | full hfree hlen => exact hl
  | inserted pre post heq hlen hfree habove hbelow =>
    simp only [heq, List.length_append, List.length_cons] at hlen ⊢
    omega
  | overwritten p pre post heq hlen hp hbelow =>
    simp only [heq, List.length_append, List.length_cons] at hlen ⊢
    omega

theorem AddOutcome.of_neg {base size : PhysAddr} {l l' : List LmbProperty} {ret : ℤ}
    (h : AddOutcome base size l ret l') (hret : ret < 0) :
    ret = -1 ∧ l' = l ∧ l.length = maxLmbRegions ∧ ∀ q ∈ l, ¬ Touches base size q := by
  cases h with
  | full hfree hlen => exact ⟨rfl, rfl, hlen, hfree⟩
  | _ => exact absurd hret (by decide)

theorem AddOutcome.length_lt {base size : PhysAddr} {l l' : List LmbProperty} {ret : ℤ}
    (h : AddOutcome base size l ret l') (hret : 0 ≤ ret) (hsize : ∀ q ∈ l, q.size ≠ 0)
    (hnew : ⟨base, size⟩ ∉ l) (hfree : ∀ q ∈ l, ¬ Touches base size q) :
    l.length < maxLmbRegions := by
  cases h with
  | dummy p hp hzero => exact absurd hzero (hsize p hp)
  | already hmem => exact absurd hmem hnew
  | grown pre p post heq hpre hp hhead => exact absurd hp (hfree p (by simp [heq]))
  | merged pre p q post heq hpre hp hmeet => exact absurd hp (hfree p (by simp [heq]))
  | full hfree hlen => exact absurd hret (by decide)
  | inserted pre post heq hlen hfree habove hbelow => exact hlen
  | overwritten p pre post heq hlen hp hbelow => exact hlen

theorem addFinish_joined {rgn : LmbRegion} {pre post : List LmbProperty} {p : LmbProperty}
    (base size : PhysAddr) (hsplit : entries rgn = pre ++ p :: post)
    (hcnt : rgn.cnt.toNat ≤ maxLmbRegions) :
    ∃ ret rgn', lmbAddFinish rgn base size pre.length 1 = some (ret, rgn') ∧
      ((ret = 1 ∧ rgn' = rgn ∧ ∀ q, post.head? = some q → ¬ Meet p q) ∨
        ∃ q post', ret = 2 ∧ post = q :: post' ∧ Meet p q ∧
          entries rgn' = pre ++ ⟨p.base, p.size + q.size⟩ :: post') := by
  have hlen : rgn.cnt.toNat = pre.length + (post.length + 1) := by
    rw [← length_entries, hsplit, List.length_append, List.length_cons]
  have hsub := toNat_cnt_sub_one (show 0 < rgn.cnt.toNat by omega)
  have hp : rgn.region pre.length = p := by
    rw [← getElem_entries rgn pre.length (by rw [length_entries]; omega)]
    simp [hsplit]
  cases post with
  | nil =>
    refine ⟨1, rgn, ?_, Or.inl ⟨rfl, rfl, by simp⟩⟩
    rw [lmbAddFinish, if_neg, if_pos (by decide)]
    · rfl
    · rw [hsub, hlen]
      simp
  | cons q post =>
    have hq : rgn.region (pre.length + 1) = q := by
      rw [← getElem_entries rgn (pre.length + 1) (by rw [length_entries, hlen]; simp)]
      simp [hsplit]
    by_cases hmeet : Meet p q
    · obtain ⟨rgn', hco, hent⟩ := entries_coalesceRegions hsplit hcnt
      refine ⟨2, rgn', ?_, Or.inr ⟨q, post, rfl, rfl, hmeet, hent⟩⟩
      have hlt : pre.length < (rgn.cnt - 1).toNat := by
        rw [hsub, hlen, List.length_cons]
        omega
      rw [lmbAddFinish, if_pos ⟨hlt, by rw [lmbRegionsAdjacent, hp, hq]; exact hmeet⟩, hco]
      rfl
    · refine ⟨1, rgn, ?_, Or.inl ⟨rfl, rfl, ?_⟩⟩
      · rw [lmbAddFinish, if_neg, if_pos (by decide)]
        · rfl
        · rw [lmbRegionsAdjacent, hp, hq]
          exact fun h => hmeet h.2
      · simpa using hmeet

theorem addRegion_dummy {rgn : LmbRegion} {p : LmbProperty} (hent : entries rgn = [p])
    (hp : p.size = 0) (base size : PhysAddr) :
    ∃ rgn', lmbAddRegion rgn base size = some (0, rgn') ∧ entries rgn' = [⟨base, size⟩] := by
  have hlen : rgn.cnt.toNat = 1 := by rw [← length_entries, hent, List.length_singleton]
  have hcnt : rgn.cnt = 1 := by bv_omega
  have hregion : rgn.region 0 = p := by
    rw [← getElem_entries rgn 0 (by rw [hent]; exact Nat.one_pos)]
    simp [hent]
  refine ⟨setRegion rgn 0 ⟨base, size⟩, if_pos ⟨hcnt, by rw [hregion, hp]⟩, ?_⟩
  rw [entries_setRegion, hent, List.set_cons_zero]

theorem addStop_eq_some {rgn : LmbRegion} {base size : PhysAddr} {i : ℕ}
    (h : lmbAddStop rgn base size = some i) :
    ∃ pre post, entries rgn = pre ++ rgn.region i :: post ∧ pre.length = i ∧
      (∀ q ∈ pre, q ≠ ⟨base, size⟩ ∧ ¬ Touches base size q) ∧
      (rgn.region i = ⟨base, size⟩ ∨ Touches base size (rgn.region i)) := by
  obtain ⟨hi, hrange, hbefore⟩ := List.find?_range_eq_some.mp h
  simp only [Bool.not_eq_true', decide_eq_false_iff_not, not_or] at hbefore
  have hstopped := of_decide_eq_true hi
  obtain ⟨pre, post, hsplit, hlen⟩ := exists_split (List.mem_range.mp hrange)
  refine ⟨pre, post, hsplit, hlen, fun q hq => ?_, hstopped⟩
  obtain ⟨j, hj, rfl⟩ := List.getElem_of_mem hq
  have hent : pre[j] = rgn.region j := by
    rw [← getElem_entries rgn j (by rw [hsplit, List.length_append]; omega)]
    simp only [hsplit, List.getElem_append_left hj]
  rw [hent]
  exact hbefore j (hlen ▸ hj)

theorem addStop_eq_none_iff {rgn : LmbRegion} {base size : PhysAddr} :
    lmbAddStop rgn base size = none ↔
      ∀ q ∈ entries rgn, q ≠ ⟨base, size⟩ ∧ ¬ Touches base size q := by
  rw [lmbAddStop, List.find?_range_eq_none]
  constructor
  · intro h q hq
    obtain ⟨i, hi, rfl⟩ := mem_entries.mp hq
    have hstop := h i hi
    rw [Bool.not_eq_true', decide_eq_false_iff_not, not_or] at hstop
    exact hstop
  · intro h i hi
    obtain ⟨hne, htouch⟩ := h _ (mem_entries.mpr ⟨i, hi, rfl⟩)
    rw [Bool.not_eq_true', decide_eq_false_iff_not, not_or]
    exact ⟨hne, htouch⟩

theorem addRegion_of_alone {rgn : LmbRegion} {base size : PhysAddr} (hpos : 0 < rgn.cnt.toNat)
    (hdummy : ¬ (rgn.cnt = 1 ∧ (rgn.region 0).size = 0))
    (hstop : lmbAddStop rgn base size = none) :
    lmbAddRegion rgn base size =
      if maxLmbRegions ≤ rgn.cnt.toNat then some (-1, rgn)
      else some (0, lmbInsert rgn base size) := by
  have hsub := toNat_cnt_sub_one hpos
  have hlast : ¬ (rgn.cnt.toNat < (rgn.cnt - 1).toNat ∧
      lmbRegionsAdjacent rgn rgn.cnt.toNat (rgn.cnt.toNat + 1) ≠ 0) := by
    intro h
    have := h.1
    omega
  rw [lmbAddRegion, if_neg hdummy, hstop]
  simp only [lmbAddFinish, if_neg hlast, ne_eq, not_true_eq_false, if_false]

/-- **A range that touches an entry** is joined to the first such entry, and what comes of it to
the next entry. -/
theorem addRegion_of_touches {rgn : LmbRegion} {base size : PhysAddr}
    {pre post : List LmbProperty} {p : LmbProperty} (hcnt : rgn.cnt.toNat ≤ maxLmbRegions)
    (hdummy : ¬ (rgn.cnt = 1 ∧ (rgn.region 0).size = 0))
    (hsplit : entries rgn = pre ++ p :: post) (hstop : lmbAddStop rgn base size = some pre.length)
    (hne : p ≠ ⟨base, size⟩) :
    ∃ ret rgn', lmbAddRegion rgn base size = some (ret, rgn') ∧
      ((ret = 1 ∧ entries rgn' = pre ++ lmbGrow base size p :: post ∧
          ∀ q, post.head? = some q → ¬ Meet (lmbGrow base size p) q) ∨
        ∃ q post', ret = 2 ∧ post = q :: post' ∧ Meet (lmbGrow base size p) q ∧
          entries rgn' = pre ++
            ⟨(lmbGrow base size p).base, (lmbGrow base size p).size + q.size⟩ :: post') := by
  have hregion : rgn.region pre.length = p := by
    rw [← getElem_entries rgn pre.length (by rw [hsplit]; simp)]
    simp [hsplit]
  have hset : entries (setRegion rgn pre.length (lmbGrow base size p)) =
      pre ++ lmbGrow base size p :: post := by
    rw [entries_setRegion, hsplit, List.set_append_right _ _ le_rfl, Nat.sub_self,
      List.set_cons_zero]
  rw [lmbAddRegion, if_neg hdummy, hstop]
  dsimp only
  rw [hregion, if_neg hne]
  obtain ⟨ret, rgn', hfin, ⟨rfl, rfl, hhead⟩ | ⟨q, post', rfl, rfl, hmeet, hent⟩⟩ :=
    addFinish_joined base size hset hcnt
  · exact ⟨1, _, hfin, Or.inl ⟨rfl, hset, hhead⟩⟩
  · exact ⟨2, rgn', hfin, Or.inr ⟨q, post', rfl, rfl, hmeet, hent⟩⟩

/-- **The outcomes of `lmb_add_region`** on a table with an entry. -/
theorem addRegion_cases {rgn : LmbRegion} (hpos : 0 < rgn.cnt.toNat)
    (hcnt : rgn.cnt.toNat ≤ maxLmbRegions) (base size : PhysAddr) :
    ∃ ret rgn', lmbAddRegion rgn base size = some (ret, rgn') ∧
      AddOutcome base size (entries rgn) ret (entries rgn') := by
  by_cases hdummy : rgn.cnt = 1 ∧ (rgn.region 0).size = 0
  · have hone : (entries rgn).length = 1 := by
      rw [length_entries, hdummy.1]
      rfl
    obtain ⟨p, hent⟩ := List.length_eq_one_iff.mp hone
    have hp : p = rgn.region 0 := by
      rw [← getElem_entries rgn 0 (by rw [hone]; exact Nat.one_pos)]
      simp [hent]
    have hsize : p.size = 0 := by rw [hp, hdummy.2]
    obtain ⟨rgn', hadd, hent'⟩ := addRegion_dummy hent hsize base size
    refine ⟨0, rgn', hadd, ?_⟩
    rw [hent', hent]
    exact .dummy p List.mem_cons_self hsize
  cases hstop : lmbAddStop rgn base size with
  | none =>
    have hfree : ∀ q ∈ entries rgn, ¬ Touches base size q :=
      fun q hq => (addStop_eq_none_iff.mp hstop q hq).2
    rw [addRegion_of_alone hpos hdummy hstop]
    by_cases hfull : maxLmbRegions ≤ rgn.cnt.toNat
    · refine ⟨-1, rgn, by rw [if_pos hfull], .full hfree ?_⟩
      rw [length_entries]
      exact le_antisymm hcnt hfull
    · refine ⟨0, lmbInsert rgn base size, by rw [if_neg hfull], ?_⟩
      have hlt := not_le.mp hfull
      have hlen : (entries rgn).length < maxLmbRegions := by rwa [length_entries]
      obtain ⟨pre, post, hsplit, habove, hbelow, ⟨-, hent⟩ | ⟨p, pre, rfl, hp, hent⟩⟩ :=
        exists_insert hpos hlt base size
      · rw [hent]
        exact .inserted pre post hsplit hlen hfree habove hbelow
      · rw [hent]
        exact .overwritten p pre post hsplit hlen hp hbelow
  | some i =>
    obtain ⟨pre, post, hsplit, rfl, hbefore, hstopped⟩ := addStop_eq_some hstop
    by_cases hsame : rgn.region pre.length = ⟨base, size⟩
    · refine ⟨0, rgn, ?_, .already ?_⟩
      · rw [lmbAddRegion, if_neg hdummy, hstop]
        exact if_pos hsame
      · rw [hsplit, hsame]
        exact List.mem_append_right _ List.mem_cons_self
    · have htouch := hstopped.resolve_left hsame
      have hpre : ∀ q ∈ pre, ¬ Touches base size q := fun q hq => (hbefore q hq).2
      obtain ⟨ret, rgn', hadd, ⟨rfl, hent, hhead⟩ | ⟨q, post', rfl, rfl, hmeet, hent⟩⟩ :=
        addRegion_of_touches hcnt hdummy hsplit hstop hsame
      · refine ⟨1, rgn', hadd, ?_⟩
        rw [hent]
        exact .grown pre _ post hsplit hpre htouch hhead
      · refine ⟨2, rgn', hadd, ?_⟩
        rw [hent]
        exact .merged pre _ q post' hsplit hpre htouch hmeet

/-! ## A table without entries -/

/-- **With `cnt = 0` the two loops do nothing**, and what happens is decided by what the first
two places still hold. -/
theorem addRegion_empty {rgn : LmbRegion} (hcnt : rgn.cnt = 0) (base size : PhysAddr) :
    lmbAddRegion rgn base size =
      if lmbRegionsAdjacent rgn 0 1 ≠ 0 then none
      else some (0, { rgn with
        region := if base < (rgn.region 0).base then
          Function.update rgn.region 0 ⟨base, size⟩ else rgn.region
        cnt := 1 }) := by
  have hstop : lmbAddStop rgn base size = none := by
    rw [lmbAddStop, hcnt]
    rfl
  have hone : ¬ (rgn.cnt = 1 ∧ (rgn.region 0).size = 0) := by
    rw [hcnt]
    exact fun h => absurd h.1 (by decide)
  have hzero : rgn.cnt.toNat = 0 := by
    rw [hcnt]
    rfl
  have hlast : 0 < (rgn.cnt - 1).toNat := by
    rw [hcnt]
    decide
  have hinsert : lmbInsert rgn base size =
      { rgn with
        region := if base < (rgn.region 0).base then
          Function.update rgn.region 0 ⟨base, size⟩ else rgn.region
        cnt := 1 } := by
    rw [lmbInsert, hzero, hcnt]
    rfl
  rw [lmbAddRegion, if_neg hone, hstop]
  simp only [lmbAddFinish, hzero, hlast, true_and, Nat.zero_add]
  by_cases hadj : lmbRegionsAdjacent rgn 0 1 ≠ 0
  · rw [if_pos hadj, if_pos hadj, lmbCoalesceRegions, lmbRemoveRegion, if_pos]
    · rfl
    · rw [cnt_setRegion, hcnt]
      decide
  · rw [if_neg hadj, if_neg hadj, if_neg (by decide), if_neg (by decide), hinsert]

theorem entries_empty_add {rgn rgn' : LmbRegion} (hcnt : rgn.cnt = 0) {base size : PhysAddr}
    {ret : ℤ} (hadd : lmbAddRegion rgn base size = some (ret, rgn')) :
    ret = 0 ∧ entries rgn' =
      [if base < (rgn.region 0).base then ⟨base, size⟩ else rgn.region 0] := by
  rw [addRegion_empty hcnt] at hadd
  by_cases hadj : lmbRegionsAdjacent rgn 0 1 ≠ 0
  · rw [if_pos hadj] at hadd
    exact absurd hadd (by simp)
  · rw [if_neg hadj] at hadd
    obtain ⟨rfl, rfl⟩ := Prod.mk.inj (Option.some.inj hadd)
    refine ⟨rfl, ?_⟩
    by_cases hbase : base < (rgn.region 0).base
    · simp only [if_pos hbase]
      exact congrArg (fun p => [p]) (Function.update_self 0 _ rgn.region)
    · simp only [if_neg hbase]
      rfl

theorem addRegion_eq_none_iff {rgn : LmbRegion} {base size : PhysAddr}
    (hcnt : rgn.cnt.toNat ≤ maxLmbRegions) :
    lmbAddRegion rgn base size = none ↔ rgn.cnt = 0 ∧ lmbRegionsAdjacent rgn 0 1 ≠ 0 := by
  by_cases hzero : rgn.cnt = 0
  · rw [addRegion_empty hzero]
    by_cases hadj : lmbRegionsAdjacent rgn 0 1 ≠ 0
    · rw [if_pos hadj]
      exact iff_of_true rfl ⟨hzero, hadj⟩
    · rw [if_neg hadj]
      exact iff_of_false (Option.some_ne_none _) fun hboth => hadj hboth.2
  · have hpos : 0 < rgn.cnt.toNat := by bv_omega
    obtain ⟨ret, rgn', hadd, -⟩ := addRegion_cases hpos hcnt base size
    rw [hadd]
    exact iff_of_false (Option.some_ne_none _) fun hboth => hzero hboth.1

end Lmb
end EmevBsp
