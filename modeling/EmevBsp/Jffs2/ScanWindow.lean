import EmevBsp.Jffs2.BuildLists

/-!
# `fs/jffs2/jffs2_1pass.c`: the window of the scan

The window holds what the flash has from `bufOfs` on, for `bufLen` bytes; behind them the buffer has
what was read before.  The position is in the window or behind it, by whole words.  So a header that
is read is the one on the flash, and so is a node when the window has all of it.
-/

namespace EmevBsp
namespace Jffs2
namespace BuildLists

/-! ## What a sum depends on -/

section Congruence

variable {f g : ℕ → UInt8} {x n : ℕ}

theorem u32At_congr (h : ∀ k < 4, f (x + k) = g (x + k)) : u32At f x = u32At g x := by
  have h0 : f x = g x := h 0 (by omega)
  rw [u32At, u32At, h0, h 1 (by omega), h 2 (by omega), h 3 (by omega)]

theorem crcIs_congr {s m : ℕ} (h : ∀ k < n, f k = g k) (hx : x + 4 ≤ n) (hs : s + m ≤ n) :
    crcIs (u32At f x) (stretch f s m) = crcIs (u32At g x) (stretch g s m) := by
  rw [u32At_congr fun k hk => h (x + k) (by omega),
    stretch_congr fun k hk => h (s + k) (by omega)]

theorem totlen_congr (h : ∀ k < 12, f k = g k) : totlen f = totlen g :=
  u32At_congr fun k hk => h (4 + k) (by omega)

/-- The sums of a node are right. -/
def valid (node : ℕ → UInt8) : Kind → Bool
  | .inode => inodeCrc node
  | .dirent => direntCrc node && direntNameCrc node

/-- How much of a node its sums are about. -/
def nodeSize (node : ℕ → UInt8) : Kind → ℕ
  | .inode => 68
  | .dirent => 40 + nsize node

theorem inodeCrc_congr (h : ∀ k < 68, f k = g k) : inodeCrc f = inodeCrc g :=
  crcIs_congr h (by omega) (by omega)

theorem direntCrc_congr (h : ∀ k < 36, f k = g k) : direntCrc f = direntCrc g :=
  crcIs_congr h (by omega) (by omega)

theorem nsize_congr (h : ∀ k < 29, f k = g k) : nsize f = nsize g := by
  rw [nsize, nsize, h 28 (by omega)]

theorem direntNameCrc_congr (h : ∀ k < 40 + nsize g, f k = g k) :
    direntNameCrc f = direntNameCrc g := by
  rw [direntNameCrc, direntNameCrc, nsize_congr fun k hk => h k (by omega)]
  exact crcIs_congr h (by omega) le_rfl

theorem nsize_lt (f : ℕ → UInt8) : nsize f < 256 := (f 28).toNat_lt

end Congruence

/-! ## The window -/

variable {p : Setting} {i n : ℕ} {w : Walk}

/-- The window holds what the flash has, and the position is whole words behind its start. -/
structure Walk.Tracks (p : Setting) (w : Walk) : Prop where
  bufOfs_le : w.bufOfs.toNat ≤ w.ofs.toNat
  words : 4 ∣ w.index
  bufLen_le : w.bufLen.toNat ≤ bufSize
  holds : ∀ k < w.bufLen.toNat, w.buf k = p.bytes w.bufOfs k

theorem Walk.Tracks.index_eq (h : w.Tracks p) : w.index = w.ofs.toNat - w.bufOfs.toNat := by
  have hle := h.bufOfs_le
  rw [Walk.index]
  bv_omega

theorem Walk.Tracks.node_eq (h : w.Tracks p) (hn : w.index + n ≤ w.bufLen.toNat) :
    ∀ k < n, w.node k = p.bytes w.ofs k := by
  intro k hk
  have hofs : w.bufOfs + BitVec.ofNat 32 (w.index + k) = w.ofs + BitVec.ofNat 32 k := by
    rw [BitVec.ofNat_add, Walk.index, BitVec.ofNat_toNat, BitVec.setWidth_eq]
    bv_omega
  rw [Walk.node, h.holds _ (by omega), Setting.bytes, Setting.bytes, BitVec.add_assoc, hofs,
    BitVec.add_assoc]

theorem Walk.Tracks.inside (h : w.Tracks p) (hn : w.index + n ≤ w.bufLen.toNat) : w.Inside n :=
  hn.trans h.bufLen_le

theorem Walk.Tracks.inside_word (h : w.Tracks p) (hlt : w.index < bufSize) : w.Inside 4 := by
  have hwords := h.words
  rw [Walk.Inside]
  unfold bufSize at *
  omega

@[simp] theorem index_fetch {len : BitVec 32} : (w.fetch p len).index = 0 := by
  simp [Walk.index, Walk.fetch]

theorem tracks_fetch {len : BitVec 32} (hlen : len.toNat ≤ bufSize) : (w.fetch p len).Tracks p where
  bufOfs_le := le_rfl
  words := by simp
  bufLen_le := hlen
  holds k hk := by
    change k < len.toNat at hk
    change getFlMem p (p.offset + w.ofs) len.toNat 0 w.buf k = p.bytes w.ofs k
    rw [getFlMem, if_pos ⟨Nat.zero_le k, by omega⟩, Nat.sub_zero, Setting.bytes]

theorem Walk.Tracks.forward (h : w.Tracks p) {d : BitVec 32} (hd : 4 ∣ d.toNat)
    (hno : w.ofs.toNat + d.toNat < 2 ^ 32) : ({ w with ofs := w.ofs + d } : Walk).Tracks p where
  bufOfs_le := by
    have hle := h.bufOfs_le
    change w.bufOfs.toNat ≤ (w.ofs + d).toNat
    rw [BitVec.toNat_add, Nat.mod_eq_of_lt hno]
    omega
  words := by
    have hle := h.bufOfs_le
    have hindex : ({ w with ofs := w.ofs + d } : Walk).index = w.index + d.toNat := by
      rw [Walk.index, Walk.index]
      bv_omega
    rw [hindex]
    exact Nat.dvd_add h.words hd
  bufLen_le := h.bufLen_le
  holds := h.holds

theorem Walk.Tracks.prevofs (h : w.Tracks p) (x : BitVec 32) :
    ({ w with prevofs := x } : Walk).Tracks p :=
  ⟨h.bufOfs_le, h.words, h.bufLen_le, h.holds⟩

theorem Walk.Tracks.found (h : w.Tracks p) (found : Found) :
    ({ w with found := found } : Walk).Tracks p :=
  ⟨h.bufOfs_le, h.words, h.bufLen_le, h.holds⟩

theorem toNat_rest : (rest p i w).toNat = min (p.stop i - w.ofs).toNat bufSize := by
  rw [rest]
  split
  · omega
  · rw [BitVec.toNat_ofNat]
    unfold bufSize at *
    omega

theorem Walk.Tracks.toNat_end (h : w.Tracks p) (hno : w.ofs.toNat + bufSize < 2 ^ 32) :
    (w.bufOfs + w.bufLen).toNat = w.bufOfs.toNat + w.bufLen.toNat := by
  have hle := h.bufOfs_le
  have hlen := h.bufLen_le
  rw [BitVec.toNat_add, Nat.mod_eq_of_lt (by omega)]

theorem Walk.Tracks.end_lt_iff (h : w.Tracks p) (hno : w.ofs.toNat + bufSize < 2 ^ 32)
    (hn : n ≤ bufSize) :
    w.bufOfs + w.bufLen < w.ofs + BitVec.ofNat 32 n ↔ w.bufLen.toNat < w.index + n := by
  have hle := h.bufOfs_le
  rw [BitVec.lt_def, h.toNat_end hno, BitVec.toNat_add, BitVec.toNat_ofNat, h.index_eq]
  unfold bufSize at *
  omega

theorem tracks_refill (h : w.Tracks p) (hno : w.ofs.toNat + bufSize < 2 ^ 32)
    (hstop : w.ofs.toNat + 12 ≤ (p.stop i).toNat) :
    (refill p i w).Tracks p ∧ (refill p i w).index + 12 ≤ (refill p i w).bufLen.toNat := by
  rw [refill]
  split
  · refine ⟨tracks_fetch (by rw [toNat_rest]; omega), ?_⟩
    rw [index_fetch]
    change 0 + 12 ≤ (rest p i w).toNat
    rw [toNat_rest, BitVec.toNat_sub_of_le (BitVec.le_def.mpr (by omega))]
    unfold bufSize at *
    omega
  · rename_i hend
    exact ⟨h, by simpa using (h.end_lt_iff hno (n := 12) (by unfold bufSize; omega)).not.mp hend⟩

@[simp] theorem refill_ofs : (refill p i w).ofs = w.ofs := by
  rw [refill]
  split <;> rfl

@[simp] theorem refill_prevofs : (refill p i w).prevofs = w.prevofs := by
  rw [refill]
  split <;> rfl

@[simp] theorem refill_found : (refill p i w).found = w.found := by
  rw [refill]
  split <;> rfl

/-! ## The sums of a node -/

theorem fetchNode_cases (h : w.Tracks p) (hno : w.ofs.toNat + bufSize < 2 ^ 32) (hn : n ≤ bufSize) :
    (w.fetchNode p n = w ∧ w.index + n ≤ w.bufLen.toNat) ∨
      w.fetchNode p n = w.fetch p w.bufLen := by
  rw [Walk.fetchNode]
  split
  · exact .inr rfl
  · rename_i hend
    exact .inl ⟨rfl, not_lt.mp ((h.end_lt_iff hno hn).not.mp hend)⟩

/-- What the reading of a node leaves alone, and the window after it. -/
structure Walk.SameNode (p : Setting) (w w' : Walk) : Prop where
  tracks : w'.Tracks p
  header : w'.index + 12 ≤ w'.bufLen.toNat
  ofs : w'.ofs = w.ofs
  prevofs : w'.prevofs = w.prevofs
  found : w'.found = w.found

theorem sameNode_fetchNode (h : w.Tracks p) (hheader : w.index + 12 ≤ w.bufLen.toNat)
    (hno : w.ofs.toNat + bufSize < 2 ^ 32) (hn : n ≤ bufSize) :
    w.SameNode p (w.fetchNode p n) ∧ (w.fetchNode p n).Inside n := by
  obtain ⟨heq, hwhole⟩ | heq := fetchNode_cases h hno hn
  · rw [heq]
    exact ⟨⟨h, hheader, rfl, rfl, rfl⟩, h.inside hwhole⟩
  · rw [heq]
    refine ⟨⟨tracks_fetch h.bufLen_le, ?_, rfl, rfl, rfl⟩, ?_⟩
    · rw [index_fetch]
      exact le_trans (by omega) hheader
    · rw [Walk.Inside, index_fetch]
      omega

theorem fetchNode_node (h : w.Tracks p) (hno : w.ofs.toNat + bufSize < 2 ^ 32) (hn : n ≤ bufSize)
    {m : ℕ} (hm : m ≤ w.bufLen.toNat)
    (hwhole : w.index + n ≤ w.bufLen.toNat → w.index + m ≤ w.bufLen.toNat) :
    ∀ k < m, (w.fetchNode p n).node k = p.bytes w.ofs k := by
  obtain ⟨heq, hall⟩ | heq := fetchNode_cases h hno hn
  · rw [heq]
    exact h.node_eq (hwhole hall)
  · rw [heq]
    refine (tracks_fetch h.bufLen_le).node_eq ?_
    rw [index_fetch]
    exact (Nat.zero_add m).trans_le hm

/-- How much of a node is read before it is in the window as a whole. -/
def headRead : Kind → ℕ
  | .inode => 12
  | .dirent => 29

theorem inside_name (h : w.Tracks p) (hno : w.ofs.toNat + bufSize < 2 ^ 32)
    (hn : 40 + nsize w.node ≤ bufSize) :
    (w.fetchNode p (40 + nsize w.node)).Inside
      (40 + nsize (w.fetchNode p (40 + nsize w.node)).node) := by
  obtain ⟨heq, hwhole⟩ | heq := fetchNode_cases h hno hn
  · rw [heq]
    exact h.inside hwhole
  · have hsize := nsize_lt (w.fetch p w.bufLen).node
    rw [heq, Walk.Inside, index_fetch]
    unfold bufSize
    omega

/-- **The sums of a node** are made without an access behind the buffer, and a node with the right
sums passes, when the window has room for it. -/
theorem checkNode_spec (h : w.Tracks p) (hheader : w.index + 12 ≤ w.bufLen.toNat)
    (hno : w.ofs.toNat + bufSize < 2 ^ 32) (k : Kind) (hread : w.Inside (headRead k))
    (hroom : valid (p.bytes w.ofs) k = true → nodeSize (p.bytes w.ofs) k ≤ w.bufLen.toNat) :
    ∃ w' b, checkNode p w k = some (w', b) ∧ w.SameNode p w' ∧
      (valid (p.bytes w.ofs) k = true → b = true) := by
  cases k with
  | inode =>
    have hn : 68 ≤ bufSize := by unfold bufSize; omega
    obtain ⟨hsame, hinside⟩ := sameNode_fetchNode h hheader hno hn
    refine ⟨w.fetchNode p 68, _, if_pos hinside, hsame, fun hvalid => ?_⟩
    rwa [inodeCrc_congr (fetchNode_node h hno hn (hroom hvalid) id)]
  | dirent =>
    have hsize := nsize_lt w.node
    have hn : 40 + nsize w.node ≤ bufSize := by unfold bufSize; omega
    have hname := inside_name h hno hn
    obtain ⟨hsame, hinside⟩ := sameNode_fetchNode h hheader hno hn
    -- a length that is not in the window yet is not the reason why the node is not read anew
    have hnode : valid (p.bytes w.ofs) .dirent = true →
        ∀ k < 40 + nsize (p.bytes w.ofs),
          (w.fetchNode p (40 + nsize w.node)).node k = p.bytes w.ofs k := fun hvalid =>
      fetchNode_node h hno hn (hroom hvalid) fun hwhole => by
        rwa [← nsize_congr (h.node_eq (n := 29) (by omega))]
    rw [checkNode, if_pos (show w.Inside 29 from hread)]
    simp only
    rw [if_neg (not_not.mpr (show Walk.Inside _ 36 from le_trans (by omega) hinside))]
    by_cases hcrc : direntCrc (w.fetchNode p (40 + nsize w.node)).node = true
    · rw [if_neg (not_not.mpr hcrc), if_pos hname]
      refine ⟨_, _, rfl, hsame, fun hvalid => ?_⟩
      rw [direntNameCrc_congr (hnode hvalid)]
      exact (Bool.and_eq_true_iff.mp hvalid).2
    · rw [if_pos hcrc]
      refine ⟨_, _, rfl, hsame, fun hvalid => absurd ?_ hcrc⟩
      rw [direntCrc_congr fun k hk => hnode hvalid k (by omega)]
      exact (Bool.and_eq_true_iff.mp hvalid).1

end BuildLists
end Jffs2
end EmevBsp
