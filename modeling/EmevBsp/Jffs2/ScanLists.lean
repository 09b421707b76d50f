import EmevBsp.Jffs2.ScanWindow

/-!
# `fs/jffs2/jffs2_1pass.c`: the lists of the scan

What the lists hold, against the nodes that the walk has reached: the positions in the lists lie
below a bound, and a node with the right sums, below another bound, is in its list once.  So a node
at the bound is new, and an entry of a summary is not one of the nodes reached before when it is of
a sector that is not walked.
-/

namespace EmevBsp
namespace Jffs2
namespace BuildLists

variable {p : Setting}

/-! ## What is found, against what was reached -/

/-- The entries of the lists are positions below `hi`; the nodes with the right sums that were
reached are below `lo`, and each is in its list once. -/
structure Recorded (p : Setting) (met : List Label) (found : Found) (lo hi : ℕ) : Prop where
  below : ∀ k, ∀ y ∈ found.list k, ∃ x : BitVec 32, x.toNat < hi ∧ y = p.offset + x
  once : ∀ k x, .reach k x ∈ met → valid (p.bytes x) k = true →
    x.toNat < lo ∧ (found.list k).count (p.offset + x) = 1

section Lists

variable {met : List Label} {found found' : Found} {lo hi lo' hi' n : ℕ} {k : Kind}
  {x : BitVec 32}

theorem list_insertNode {y : BitVec 32} (h : insertNode p k y found = some found') (k' : Kind) :
    found'.list k' = if k' = k then found.list k ++ [y] else found.list k' := by
  unfold insertNode at h
  split at h
  · cases k <;> cases Option.some.inj h <;> cases k' <;> rfl
  · exact absurd h (by simp)

@[simp] theorem list_longest (len : BitVec 32) : (found.longest len).list k = found.list k := by
  cases k <;> rfl

theorem add_offset_inj {x y : BitVec 32} (h : p.offset + x = p.offset + y) : x = y := by
  bv_omega

theorem Recorded.mono (h : Recorded p met found lo hi) (hlo : lo ≤ lo') (hhi : hi ≤ hi') :
    Recorded p met found lo' hi' where
  below k y hy := by
    obtain ⟨x, hx, rfl⟩ := h.below k y hy
    exact ⟨x, hx.trans_le hhi, rfl⟩
  once k x hx hvalid := ⟨(h.once k x hx hvalid).1.trans_le hlo, (h.once k x hx hvalid).2⟩

theorem Recorded.later {m : ℕ} (h : Recorded p met found n n) (hnm : n ≤ m) :
    Recorded p met found m m :=
  h.mono hnm hnm

theorem Recorded.longest (h : Recorded p met found lo hi) (len : BitVec 32) :
    Recorded p met (found.longest len) lo hi where
  below k y hy := h.below k y (by rwa [list_longest] at hy)
  once k x hx hvalid := by
    rw [list_longest]
    exact h.once k x hx hvalid

theorem Recorded.go (h : Recorded p met found lo hi) : Recorded p (met ++ [.go]) found lo hi where
  below := h.below
  once k x hx hvalid := by
    obtain hx | hx := List.mem_append.mp hx
    · exact h.once k x hx hvalid
    · exact absurd (List.mem_singleton.mp hx) (by simp)

theorem Recorded.below_insert (h : Recorded p met found lo hi)
    (hins : insertNode p k (p.offset + x) found = some found') (hx : x.toNat < hi) :
    ∀ k', ∀ y ∈ found'.list k', ∃ x : BitVec 32, x.toNat < hi ∧ y = p.offset + x := by
  intro k' y hy
  rw [list_insertNode hins] at hy
  split at hy
  · obtain hy | hy := List.mem_append.mp hy
    · exact h.below k y hy
    · exact ⟨x, hx, List.mem_singleton.mp hy⟩
  · exact h.below k' y hy

theorem count_insertNode_of_ne {z : BitVec 32}
    (hins : insertNode p k (p.offset + x) found = some found') (hne : z ≠ x) (k' : Kind) :
    (found'.list k').count (p.offset + z) = (found.list k').count (p.offset + z) := by
  rw [list_insertNode hins]
  split
  · rename_i hk
    have hoff : p.offset + x ≠ p.offset + z := fun heq => hne (add_offset_inj heq).symm
    rw [List.count_append, List.count_singleton, hk, if_neg (by simpa using hoff), Nat.add_zero]
  · rfl

theorem Recorded.entry (h : Recorded p met found lo hi)
    (hins : insertNode p k (p.offset + x) found = some found') (hlo : lo ≤ x.toNat)
    (hhi : x.toNat < hi) : Recorded p met found' lo hi where
  below := h.below_insert hins hhi
  once k' z hz hvalid := by
    obtain ⟨hlt, hcount⟩ := h.once k' z hz hvalid
    refine ⟨hlt, ?_⟩
    rw [count_insertNode_of_ne hins (by rintro rfl; omega), hcount]

theorem Recorded.reach (h : Recorded p met found x.toNat x.toNat)
    (hins : insertNode p k (p.offset + x) found = some found') :
    Recorded p (met ++ [.reach k x]) found' (x.toNat + 1) (x.toNat + 1) where
  below := (h.mono le_rfl (Nat.le_succ _)).below_insert hins (Nat.lt_succ_self _)
  once k' z hz hvalid := by
    obtain hz | hz := List.mem_append.mp hz
    · obtain ⟨hlt, hcount⟩ := h.once k' z hz hvalid
      refine ⟨by omega, ?_⟩
      rw [count_insertNode_of_ne hins (by rintro rfl; omega), hcount]
    · obtain ⟨rfl, rfl⟩ : k' = k ∧ z = x := by simpa using hz
      refine ⟨Nat.lt_succ_self _, ?_⟩
      have hnew : (found.list k').count (p.offset + z) = 0 := by
        refine List.count_eq_zero_of_not_mem fun hmem => ?_
        obtain ⟨y, hy, heq⟩ := h.below k' _ hmem
        rw [add_offset_inj heq] at hy
        omega
      rw [list_insertNode hins, if_pos rfl, List.count_append, hnew, List.count_singleton,
        if_pos (by simp)]

theorem Recorded.pass (h : Recorded p met found lo hi) (hvalid : ¬valid (p.bytes x) k = true) :
    Recorded p (met ++ [.reach k x]) found lo hi where
  below := h.below
  once k' z hz hvalid' := by
    obtain hz | hz := List.mem_append.mp hz
    · exact h.once k' z hz hvalid'
    · obtain ⟨rfl, rfl⟩ : k' = k ∧ z = x := by simpa using hz
      exact absurd hvalid' hvalid

end Lists

/-! ## The summary -/

/-- So many entries of a summary lie inside it, and are of its sector. -/
def entriesInside (sum : ℕ → UInt8) (sumsize sectorSize : ℕ) : ℕ → ℕ → Bool
  | 0, _ => true
  | n + 1, sp =>
    (sp + 2 ≤ sumsize : Bool) &&
      match kindOf (u16At sum sp) with
      | none => entriesInside sum sumsize sectorSize n sp
      | some k =>
        (sp + entryOffset k + 4 ≤ sumsize : Bool) && (sp + entryRead k ≤ sumsize : Bool) &&
          ((u32At sum (sp + entryOffset k)).toNat < sectorSize : Bool) &&
            entriesInside sum sumsize sectorSize n (sp + entrySize sum sp k)

/-- The summary is long enough for what it is taken for. -/
def SummaryFits (p : Setting) (sum : ℕ → UInt8) (sumsize : BitVec 32) : Prop :=
  12 ≤ sumsize.toNat ∧
    (sumHeader sum sumsize = true → 32 ≤ sumsize.toNat ∧
      (sumCrc sum sumsize = true →
        entriesInside sum sumsize.toNat p.sectorSize.toNat (u32At sum 12).toNat 32 = true))

section Summary

variable {met : List Label} {found : Found} {lo hi : ℕ} {offset : BitVec 32} {sum : ℕ → UInt8}

theorem processSumData_spec {sumsize : ℕ}
    (hoffset : ∀ off : BitVec 32, off.toNat < p.sectorSize.toNat →
      lo ≤ (offset + off).toNat ∧ (offset + off).toNat < hi) (n sp : ℕ)
    (hfits : entriesInside sum sumsize p.sectorSize.toNat n sp = true)
    (h : Recorded p met found lo hi) :
    (∃ found', processSumData p offset sum sumsize n sp found = .failed found') ∨
      ∃ found', processSumData p offset sum sumsize n sp found = .taken found' ∧
        Recorded p met found' lo hi := by
  induction n generalizing sp found with
  | zero => exact .inr ⟨found, rfl, h⟩
  | succ n ih =>
    rw [entriesInside, Bool.and_eq_true_iff, decide_eq_true_eq] at hfits
    obtain ⟨htype, hfits⟩ := hfits
    rw [processSumData, if_neg (by omega)]
    cases hkind : kindOf (u16At sum sp) with
    | none =>
      rw [hkind] at hfits
      exact ih sp hfits h
    | some k =>
      rw [hkind] at hfits
      simp only [Bool.and_eq_true_iff, decide_eq_true_eq] at hfits
      obtain ⟨⟨⟨hoff, hread⟩, hsector⟩, hfits⟩ := hfits
      obtain ⟨hlo, hhi⟩ := hoffset _ hsector
      simp only [if_neg (show ¬sumsize < sp + entryOffset k + 4 by omega)]
      cases hins : insertNode p k (p.offset + offset + u32At sum (sp + entryOffset k)) found with
      | none => exact .inl ⟨found, rfl⟩
      | some found' =>
        simp only [if_neg (show ¬sumsize < sp + entryRead k by omega)]
        rw [BitVec.add_assoc] at hins
        exact ih _ hfits (h.entry hins hlo hhi)

theorem scanSumnode_spec {sumsize : BitVec 32}
    (hoffset : ∀ off : BitVec 32, off.toNat < p.sectorSize.toNat →
      lo ≤ (offset + off).toNat ∧ (offset + off).toNat < hi)
    (hfits : SummaryFits p sum sumsize) (h : Recorded p met found lo hi) :
    scanSumnode p offset sum sumsize found = .corrupt ∨
      (∃ found', scanSumnode p offset sum sumsize found = .failed found') ∨
        ∃ found', scanSumnode p offset sum sumsize found = .taken found' ∧
          Recorded p met found' lo hi := by
  obtain ⟨hheader, hfits⟩ := hfits
  rw [scanSumnode, if_neg (by omega)]
  split
  · exact .inl rfl
  · rename_i hright
    obtain ⟨hnode, hfits⟩ := hfits (not_not.mp hright)
    rw [if_neg (by omega)]
    split
    · exact .inl rfl
    · rename_i hcrc
      exact .inr (processSumData_spec hoffset _ _ (hfits (not_not.mp hcrc)) h)

end Summary

end BuildLists
end Jffs2
end EmevBsp
