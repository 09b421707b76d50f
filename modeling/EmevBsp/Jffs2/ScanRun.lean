import EmevBsp.Jffs2.ScanLists
import EmevBsp.Library.Alignment

/-!
# `fs/jffs2/jffs2_1pass.c`: every run of the scan

The scan trusts the flash in five ways.  It takes the length of a summary, the number of its
entries and where they are from the summary, and looks at the header of one that has no room for it.
It compares offsets that may have wrapped.  It goes on by the length of a node, which leads back
when the sum wraps.  It looks for the length of a name before it has read the node again, behind the
buffer when the header is the last of the window.  And it reads a node again with the length that
the window had before, which is too short when the window began at the end of the sector.

* `StepOk`: the condition on a step that none of this happens.
* `Inv`, `measure`: what every step keeps, and what falls with it.
* `goes_next`: one step.
* `robust_of_stepOk`: **a scan whose steps all meet the condition** comes to its end, stays inside
  the buffer, and has each node that it reached in its list once.
* `not_robust`: a dirent behind 4 KiB of padding.
-/

namespace EmevBsp
namespace Jffs2
namespace BuildLists

open TransitionSystem

variable {p : Setting}

/-! ## Sectors -/

section Sectors

variable {i : ℕ}

theorem nrSectors_mul_le : p.nrSectors * p.sectorSize.toNat ≤ p.size.toNat := by
  rw [Setting.nrSectors, BitVec.toNat_udiv]
  exact Nat.div_mul_le_self _ _

theorem succ_mul_lt (hi : i < p.nrSectors) : (i + 1) * p.sectorSize.toNat < 2 ^ 32 :=
  (Nat.mul_le_mul_right _ hi).trans_lt (nrSectors_mul_le.trans_lt p.size.isLt)

theorem toNat_sectorOfs (hi : i < p.nrSectors) :
    (p.sectorOfs i).toNat = i * p.sectorSize.toNat := by
  have hlt := succ_mul_lt hi
  have hnr : p.nrSectors < 2 ^ 32 := (p.size / p.sectorSize).isLt
  rw [Nat.succ_mul] at hlt
  rw [Setting.sectorOfs, BitVec.toNat_mul, BitVec.toNat_ofNat, Nat.mod_eq_of_lt (hi.trans hnr),
    Nat.mod_eq_of_lt (by omega)]

theorem toNat_stop (hi : i < p.nrSectors) : (p.stop i).toNat = (i + 1) * p.sectorSize.toNat := by
  have hlt := succ_mul_lt hi
  rw [Setting.stop, BitVec.toNat_add, toNat_sectorOfs hi, ← Nat.succ_mul, Nat.mod_eq_of_lt hlt]

theorem mul_le_stop (hi : i < p.nrSectors) : i * p.sectorSize.toNat ≤ (p.stop i).toNat := by
  rw [toNat_stop hi]
  exact Nat.mul_le_mul_right _ (Nat.le_succ i)

theorem toNat_sectorOfs_add (hi : i < p.nrSectors) {off : BitVec 32}
    (hoff : off.toNat < p.sectorSize.toNat) :
    (p.sectorOfs i + off).toNat = i * p.sectorSize.toNat + off.toNat := by
  have hlt := succ_mul_lt hi
  rw [Nat.succ_mul] at hlt
  rw [BitVec.toNat_add, toNat_sectorOfs hi, Nat.mod_eq_of_lt (by omega)]

end Sectors

/-! ## The condition, and the invariant -/

/-- What a step needs.  A summary with the marker is long enough, and its entries are of its sector;
the offsets that are compared do not wrap; a node does not lead back; what is read of an entry for
the second read is in the buffer, and the window has room for a node with the right sums. -/
def StepOk (p : Setting) : State → Prop
  | .sector i buf _ =>
    i < p.nrSectors → hasSummary (p.marker i buf) = true →
      (bufSize < (p.sumlen (p.marker i buf)).toNat →
        p.malloc (p.sumlen (p.marker i buf)) = true) →
      SummaryFits p (p.sumBytes i (p.marker i buf)) (p.sumlen (p.marker i buf))
  | .erased i ofs _ _ => (p.sectorOfs i).toNat + ofs < 2 ^ 32
  | .scan i w => w.ofs < p.stop i → w.ofs.toNat + bufSize < 2 ^ 32
  | .node _ w =>
    w.ofs.toNat + (aligned (totlen w.node)).toNat < 2 ^ 32 ∧
      ∀ k ∈ kindOf (nodetype w.node), w.Inside (headRead k) ∧
        (valid (p.bytes w.ofs) k = true → nodeSize (p.bytes w.ofs) k ≤ w.bufLen.toNat)
  | .empty _ scanEnd w => w.index < scanEnd → w.ofs.toNat + 4 < 2 ^ 32
  | .returned _ => True
  | .failed _ => True
  | .fault => True

/-- All that was reached and is in the lists is below it. -/
def frontier (p : Setting) (i : ℕ) (w : Walk) : ℕ :=
  min (if w.ofs = w.prevofs then w.ofs.toNat + 1 else w.ofs.toNat) (p.stop i).toNat

/-- The invariant. -/
def Inv (p : Setting) (met : List Label) : State → Prop
  | .sector i _ found =>
    i ≤ p.nrSectors ∧
      Recorded p met found (i * p.sectorSize.toNat) (i * p.sectorSize.toNat)
  | .erased i ofs buf found =>
    i < p.nrSectors ∧ 4 ∣ ofs ∧ (∀ k < p.emptyScanSize, buf k = p.bytes (p.sectorOfs i) k) ∧
      Recorded p met found (i * p.sectorSize.toNat) (i * p.sectorSize.toNat)
  | .scan i w =>
    i < p.nrSectors ∧ w.Tracks p ∧ Recorded p met w.found (frontier p i w) (frontier p i w)
  | .node i w =>
    i < p.nrSectors ∧ w.Tracks p ∧ w.index + 12 ≤ w.bufLen.toNat ∧ w.prevofs = w.ofs ∧
      w.ofs.toNat < (p.stop i).toNat ∧ w.ofs.toNat + bufSize < 2 ^ 32 ∧
      Recorded p met w.found w.ofs.toNat w.ofs.toNat
  | .empty i scanEnd w =>
    i < p.nrSectors ∧ w.Tracks p ∧ scanEnd ≤ bufSize ∧
      Recorded p met w.found (min w.ofs.toNat (p.stop i).toNat) (min w.ofs.toNat (p.stop i).toNat)
  | .returned found => Recorded p met found (2 ^ 32) (2 ^ 32)
  | .failed _ => True
  | .fault => False

/-- What a walk has to go, at a position. -/
def toGo (p : Setting) (i : ℕ) (ofs : BitVec 32) : ℕ :=
  (p.nrSectors - (i + 1)) * 2 ^ 37 + 1 + 8 * (2 ^ 32 - ofs.toNat)

/-- What falls with each step. -/
def measure (p : Setting) : State → ℕ
  | .sector i _ _ => (p.nrSectors - i) * 2 ^ 37 + 1
  | .erased i ofs _ _ => (p.nrSectors - (i + 1)) * 2 ^ 37 + 1 + 8 * (2 ^ 33 - ofs)
  | .scan i w => toGo p i w.ofs + if w.ofs = w.prevofs then 0 else 2
  | .node i w => toGo p i w.ofs + 1
  | .empty i scanEnd w => toGo p i w.ofs + if w.index < scanEnd then 3 else 4
  | .returned _ => 0
  | .failed _ => 0
  | .fault => 0

/-! ## One step -/

section Steps

variable {met : List Label} {i n : ℕ} {w : Walk} {buf : ℕ → UInt8} {found : Found}

theorem Inv.go {s : State} (h : Inv p met s) : Inv p (met ++ [.go]) s := by
  cases s with
  | sector i buf found => exact ⟨h.1, h.2.go⟩
  | erased i ofs buf found => exact ⟨h.1, h.2.1, h.2.2.1, h.2.2.2.go⟩
  | scan i w => exact ⟨h.1, h.2.1, h.2.2.go⟩
  | node i w =>
    obtain ⟨hi, htracks, hheader, hprev, hofs, hno, hrec⟩ := h
    exact ⟨hi, htracks, hheader, hprev, hofs, hno, hrec.go⟩
  | empty i scanEnd w => exact ⟨h.1, h.2.1, h.2.2.1, h.2.2.2.go⟩
  | returned found => exact Recorded.go h
  | failed found => trivial
  | fault => exact h

/-- The state keeps the invariant, and is nearer to the end. -/
def Goes (p : Setting) (met : List Label) (n : ℕ) (s : State) : Prop :=
  Inv p met s ∧ measure p s < n

theorem Goes.mono {s : State} {m : ℕ} (h : Goes p met n s) (hnm : n ≤ m) : Goes p met m s :=
  ⟨h.1, h.2.trans_le hnm⟩

theorem le_frontier (hofs : n ≤ w.ofs.toNat) (hstop : n ≤ (p.stop i).toNat) :
    n ≤ frontier p i w := by
  refine le_min ?_ hstop
  split <;> omega

theorem frontier_eq (hofs : w.ofs.toNat < (p.stop i).toNat) :
    frontier p i w = if w.ofs = w.prevofs then w.ofs.toNat + 1 else w.ofs.toNat := by
  rw [frontier]
  split <;> omega

theorem goes_nextSector (hi : i < p.nrSectors) (hn : n ≤ (p.stop i).toNat)
    (h : Recorded p met found n n) {m : ℕ}
    (hm : (p.nrSectors - (i + 1)) * 2 ^ 37 + 1 < m) : Goes p met m (.sector (i + 1) buf found) := by
  rw [toNat_stop hi] at hn
  exact ⟨⟨hi, h.later hn⟩, hm⟩

theorem lt_toGo (ofs : BitVec 32) : (p.nrSectors - (i + 1)) * 2 ^ 37 + 1 < toGo p i ofs := by
  have hlt := ofs.isLt
  rw [toGo]
  omega

theorem goes_beginSector (hi : i < p.nrSectors)
    (h : Recorded p met found (i * p.sectorSize.toNat) (i * p.sectorSize.toNat)) :
    Goes p met (measure p (.sector i buf found)) (beginSector p i buf found) := by
  refine ⟨⟨hi, dvd_zero 4, fun k hk => ?_, h⟩, ?_⟩
  · rw [getFlMem, if_pos ⟨Nat.zero_le k, by omega⟩, Nat.sub_zero, Setting.bytes]
  · rw [beginSector, measure, measure]
    omega

theorem goes_sectorStep {buf' : ℕ → UInt8} (hi : i < p.nrSectors)
    (hok : hasSummary buf = true →
      (bufSize < (p.sumlen buf).toNat → p.malloc (p.sumlen buf) = true) →
      SummaryFits p (p.sumBytes i buf) (p.sumlen buf))
    (h : Recorded p met found (i * p.sectorSize.toNat) (i * p.sectorSize.toNat)) :
    Goes p met (measure p (.sector i buf' found)) (sectorStep p i buf found) := by
  unfold sectorStep
  split
  · exact goes_beginSector hi h
  · rename_i hsum
    split
    · exact ⟨trivial, Nat.succ_pos _⟩
    · rename_i hmem
      have hfits := hok (not_not.mp hsum) fun hlt => by
        simpa using fun hmalloc => hmem ⟨hlt, hmalloc⟩
      have hoffset : ∀ off : BitVec 32, off.toNat < p.sectorSize.toNat →
          i * p.sectorSize.toNat ≤ (p.sectorOfs i + off).toNat ∧
            (p.sectorOfs i + off).toNat < (i + 1) * p.sectorSize.toNat := fun off hoff => by
        rw [toNat_sectorOfs_add hi hoff, Nat.succ_mul]
        omega
      have hle : i * p.sectorSize.toNat ≤ (i + 1) * p.sectorSize.toNat :=
        Nat.mul_le_mul_right _ (Nat.le_succ i)
      obtain hres | ⟨found', hres⟩ | ⟨found', hres, hrec⟩ :=
        scanSumnode_spec hoffset hfits (h.mono le_rfl hle)
      · rw [hres]
        exact goes_beginSector hi h
      · rw [hres]
        exact ⟨trivial, Nat.succ_pos _⟩
      · rw [hres]
        refine ⟨⟨hi, hrec.mono hle le_rfl⟩, ?_⟩
        simp only [measure]
        omega

theorem emptyScanSize_le : p.emptyScanSize ≤ bufSize := by
  rw [Setting.emptyScanSize]
  split <;> omega

theorem toNat_emptyScanSize : (BitVec.ofNat 32 p.emptyScanSize).toNat = p.emptyScanSize := by
  have hle := emptyScanSize_le (p := p)
  rw [BitVec.toNat_ofNat]
  unfold bufSize at hle
  omega

theorem goes_beginWalk {ofs : ℕ} (hi : i < p.nrSectors) (hwords : 4 ∣ ofs)
    (hbuf : ∀ k < p.emptyScanSize, buf k = p.bytes (p.sectorOfs i) k)
    (hno : (p.sectorOfs i).toNat + ofs < 2 ^ 32)
    (h : Recorded p met found (i * p.sectorSize.toNat) (i * p.sectorSize.toNat)) :
    Goes p met (measure p (.erased i ofs buf found)) (beginWalk p i ofs buf found) := by
  have hofs : (BitVec.ofNat 32 ofs).toNat = ofs := by
    rw [BitVec.toNat_ofNat, Nat.mod_eq_of_lt (by omega)]
  -- the window at the start of the sector
  have hstart : (Walk.mk (p.sectorOfs i) (p.sectorOfs i + BitVec.ofNat 32 ofs - 1) (p.sectorOfs i)
      (BitVec.ofNat 32 p.emptyScanSize) buf found).Tracks p :=
    ⟨le_rfl, by simp [Walk.index], by rw [toNat_emptyScanSize]; exact emptyScanSize_le,
      by rwa [toNat_emptyScanSize]⟩
  have hlow : i * p.sectorSize.toNat ≤ (p.sectorOfs i + BitVec.ofNat 32 ofs).toNat := by
    rw [BitVec.toNat_add, hofs, Nat.mod_eq_of_lt hno, toNat_sectorOfs hi]
    omega
  refine ⟨⟨hi, hstart.forward (by rwa [hofs]) (by rwa [hofs]),
    h.later (le_frontier hlow (mul_le_stop hi))⟩, ?_⟩
  simp only [beginWalk, measure, toGo]
  split <;> omega

theorem goes_erasedStep {ofs : ℕ} (h : Inv p met (.erased i ofs buf found))
    (hok : StepOk p (.erased i ofs buf found)) :
    Goes p met (measure p (.erased i ofs buf found)) (erasedStep p i ofs buf found) := by
  obtain ⟨hi, hwords, hbuf, hrec⟩ := h
  have hsize := emptyScanSize_le (p := p)
  unfold erasedStep
  split
  · rename_i hlt
    rw [if_neg (by unfold bufSize at *; omega)]
    split
    · refine ⟨⟨hi, by omega, hbuf, hrec⟩, ?_⟩
      simp only [measure]
      unfold bufSize at hsize
      omega
    · exact goes_beginWalk hi hwords hbuf hok hrec
  · split
    · refine goes_nextSector hi (mul_le_stop hi) hrec ?_
      simp only [measure]
      unfold bufSize at hsize
      omega
    · exact goes_beginWalk hi hwords hbuf hok hrec

theorem toGo_add_four {ofs : BitVec 32} (hno : ofs.toNat + 4 < 2 ^ 32) :
    toGo p i (ofs + 4) + 32 = toGo p i ofs := by
  have hofs : (ofs + 4).toNat = ofs.toNat + 4 := by bv_omega
  rw [toGo, toGo, hofs]
  omega

theorem Walk.Tracks.word (h : w.Tracks p) (hno : w.ofs.toNat + 4 < 2 ^ 32) :
    ({ w with ofs := w.ofs + 4 } : Walk).Tracks p :=
  h.forward (d := 4) (by decide) hno

theorem goes_skip (hi : i < p.nrSectors) (hw : w.Tracks p) (hno : w.ofs.toNat + 4 < 2 ^ 32)
    (hn : n ≤ w.ofs.toNat + 1) (hstop : n ≤ (p.stop i).toNat)
    (h : Recorded p met w.found n n) : Goes p met (toGo p i w.ofs) (skip i w) := by
  have hofs : (w.ofs + 4).toNat = w.ofs.toNat + 4 := by bv_omega
  have hfront : n ≤ frontier p i { w with ofs := w.ofs + 4 } :=
    le_frontier (by change n ≤ (w.ofs + 4).toNat; omega) hstop
  refine ⟨⟨hi, hw.word hno, h.later hfront⟩, ?_⟩
  have hgo := toGo_add_four (p := p) (i := i) hno
  simp only [skip, measure]
  split <;> omega

theorem goes_headerStep (hi : i < p.nrSectors) (hw : w.Tracks p)
    (hheader : w.index + 12 ≤ w.bufLen.toNat) (hprev : w.prevofs = w.ofs)
    (hofs : w.ofs.toNat < (p.stop i).toNat) (hno : w.ofs.toNat + bufSize < 2 ^ 32)
    (h : Recorded p met w.found w.ofs.toNat w.ofs.toNat) :
    Goes p met (toGo p i w.ofs + 2) (headerStep p i w) := by
  have hword : w.ofs.toNat + 4 < 2 ^ 32 := by unfold bufSize at hno; omega
  have hskip : Goes p met (toGo p i w.ofs + 2) (skip i w) :=
    (goes_skip hi hw hword (Nat.le_succ _) hofs.le h).mono (Nat.le_add_right _ 2)
  unfold headerStep
  rw [if_neg (not_not.mpr (hw.inside (n := 4) (by omega)))]
  split
  · have hgo := toGo_add_four (p := p) (i := i) hword
    have hofs4 : (w.ofs + 4).toNat = w.ofs.toNat + 4 := by bv_omega
    have hsize := emptyScanSize_le (p := p)
    refine ⟨⟨hi, hw.word hword, by omega, h.later (le_min ?_ hofs.le)⟩, ?_⟩
    · simp only
      omega
    · simp only [measure]
      split <;> omega
  · split
    · exact hskip
    · rw [if_neg (not_not.mpr (hw.inside hheader))]
      split
      · exact hskip
      · split
        · exact hskip
        · exact ⟨⟨hi, hw, hheader, hprev, hofs, hno, h⟩, Nat.lt_succ_self _⟩

theorem goes_scanStep (h : Inv p met (.scan i w)) (hok : StepOk p (.scan i w)) :
    Goes p met (measure p (.scan i w)) (scanStep p i w) := by
  obtain ⟨hi, hw, hrec⟩ := h
  have hgo := lt_toGo (p := p) (i := i) w.ofs
  have hleave : Goes p met (measure p (.scan i w)) (.sector (i + 1) w.buf w.found) :=
    goes_nextSector hi (min_le_right _ _) hrec (hgo.trans_le (Nat.le_add_right _ _))
  unfold scanStep
  split
  · exact hleave
  · rename_i hstop
    have hofs : w.ofs < p.stop i := BitVec.not_le.mp hstop
    have hno := hok hofs
    have hword : w.ofs.toNat + 4 < 2 ^ 32 := by unfold bufSize at hno; omega
    rw [frontier_eq (BitVec.lt_def.mp hofs)] at hrec
    split
    · rename_i hseen
      rw [if_pos hseen] at hrec
      refine (goes_skip hi hw hword le_rfl (BitVec.lt_def.mp hofs) hrec).mono ?_
      exact Nat.le_add_right _ _
    · rename_i hseen
      split
      · exact hleave
      · rename_i hend
        rw [if_neg hseen] at hrec
        have hroom : w.ofs.toNat + 12 ≤ (p.stop i).toNat := by
          unfold bufSize at hno
          bv_omega
        obtain ⟨hw', hheader⟩ := tracks_refill (i := i) (hw.prevofs w.ofs) hno hroom
        rw [measure, if_neg hseen]
        have := goes_headerStep hi hw' hheader (by simp)
          (by rw [refill_ofs]; exact BitVec.lt_def.mp hofs) (by rwa [refill_ofs])
          (by rw [refill_ofs, refill_found]; exact hrec)
        rwa [refill_ofs] at this

theorem four_dvd_aligned (len : BitVec 32) : 4 ∣ (aligned len).toNat := by
  have hfour : (4 : BitVec 32).toNat = 2 ^ 2 := rfl
  have hdown := Alignment.toNat_alignDown hfour (len + 3)
  change (aligned len).toNat = _ at hdown
  rw [hdown]
  exact Nat.dvd_mul_left _ _

theorem goes_advance (hi : i < p.nrSectors) (hw : w.Tracks p) (hprev : w.prevofs = w.ofs)
    (hofs : w.ofs.toNat < (p.stop i).toNat)
    (hback : w.ofs.toNat + (aligned (totlen w.node)).toNat < 2 ^ 32)
    (hn : n ≤ w.ofs.toNat + 1) (h : Recorded p met w.found n n) :
    Goes p met (toGo p i w.ofs + 1) (advance i w) := by
  have hsum : (w.ofs + aligned (totlen w.node)).toNat =
      w.ofs.toNat + (aligned (totlen w.node)).toNat := by
    rw [BitVec.toNat_add, Nat.mod_eq_of_lt hback]
  by_cases hstay : w.ofs + aligned (totlen w.node) = w.prevofs
  · have hfront : n ≤ frontier p i { w with ofs := w.ofs + aligned (totlen w.node) } := by
      rw [frontier, if_pos hstay]
      simp only [hsum]
      omega
    refine ⟨⟨hi, hw.forward (four_dvd_aligned _) hback, h.later hfront⟩, ?_⟩
    simp only [advance, measure, if_pos hstay]
    rw [hstay, hprev]
    omega
  · have hfar : w.ofs.toNat + 1 ≤ (w.ofs + aligned (totlen w.node)).toNat := by
      have hne : (w.ofs + aligned (totlen w.node)).toNat ≠ w.ofs.toNat := fun heq =>
        hstay (by rw [hprev]; exact BitVec.eq_of_toNat_eq heq)
      omega
    have hfront : n ≤ frontier p i { w with ofs := w.ofs + aligned (totlen w.node) } :=
      le_frontier (hn.trans hfar) (by omega)
    refine ⟨⟨hi, hw.forward (four_dvd_aligned _) hback, h.later hfront⟩, ?_⟩
    have hlt := (w.ofs + aligned (totlen w.node)).isLt
    simp only [advance, measure, if_neg hstay, toGo]
    omega

theorem goes_nodeStep (h : Inv p met (.node i w)) (hok : StepOk p (.node i w)) :
    Goes p (met ++ [(nodeStep p i w).1]) (measure p (.node i w)) (nodeStep p i w).2 := by
  obtain ⟨hi, hw, hheader, hprev, hofs, hno, hrec⟩ := h
  obtain ⟨hback, hkind⟩ := hok
  unfold nodeStep
  cases hk : kindOf (nodetype w.node) with
  | none => exact goes_advance hi hw hprev hofs hback (Nat.le_succ _) hrec.go
  | some k =>
    obtain ⟨hread, hroom⟩ := hkind k hk
    obtain ⟨w', b, hcheck, hsame, hpass⟩ := checkNode_spec hw hheader hno k hread hroom
    have hlen : totlen w'.node = totlen w.node := by
      rw [totlen_congr (hw.node_eq hheader), totlen_congr (hsame.tracks.node_eq hsame.header),
        hsame.ofs]
    rw [← hlen, ← hsame.ofs] at hback
    rw [← hsame.ofs] at hofs
    have hprev' : w'.prevofs = w'.ofs := by rw [hsame.prevofs, hsame.ofs, hprev]
    simp only [hcheck, measure, ← hsame.ofs]
    cases b with
    | false =>
      refine goes_advance hi hsame.tracks hprev' hofs hback (Nat.le_succ _) ?_
      rw [hsame.found, hsame.ofs]
      exact hrec.pass fun hvalid => Bool.false_ne_true (hpass hvalid)
    | true =>
      rw [← hsame.found, ← hsame.ofs] at hrec
      cases hins : insertNode p k (p.offset + w'.ofs) w'.found with
      | none =>
        simp only [hins]
        exact ⟨trivial, Nat.succ_pos _⟩
      | some found' =>
        simp only [hins]
        exact goes_advance (w := { w' with found := found'.longest (totlen w'.node) }) hi
          (hsame.tracks.found _) hprev' hofs hback le_rfl ((hrec.reach hins).longest _)

theorem goes_emptyStep {scanEnd : ℕ} (h : Inv p met (.empty i scanEnd w))
    (hok : StepOk p (.empty i scanEnd w)) :
    Goes p met (measure p (.empty i scanEnd w)) (emptyStep p i scanEnd w) := by
  obtain ⟨hi, hw, hscan, hrec⟩ := h
  unfold emptyStep
  rw [measure]
  split
  · rename_i hlt
    have hno := hok hlt
    rw [if_neg (not_not.mpr (hw.inside_word (hlt.trans_le hscan)))]
    split
    · have hfront := le_frontier (p := p) (i := i) (w := w) (min_le_left _ _) (min_le_right _ _)
      refine ⟨⟨hi, hw, hrec.later hfront⟩, ?_⟩
      simp only [measure]
      split <;> omega
    · have hgo := toGo_add_four (p := p) (i := i) hno
      have hofs : (w.ofs + 4).toNat = w.ofs.toNat + 4 := by bv_omega
      refine ⟨⟨hi, hw.word hno, hscan, hrec.later (min_le_min_right _ ?_)⟩, ?_⟩
      · simp only
        omega
      · simp only [measure]
        split <;> omega
  · split
    · have hgo := lt_toGo (p := p) (i := i) w.ofs
      exact goes_nextSector hi (min_le_right _ _) hrec (by omega)
    · rename_i hrest
      have hpos : 0 < (rest p i w).toNat := Nat.pos_of_ne_zero fun hzero =>
        hrest (BitVec.eq_of_toNat_eq hzero)
      have hle : (rest p i w).toNat ≤ bufSize := by
        rw [toNat_rest]
        exact min_le_right _ _
      refine ⟨⟨hi, tracks_fetch hle, hle, hrec⟩, ?_⟩
      simp only [measure, index_fetch, if_pos hpos]
      change toGo p i w.ofs + 3 < _
      omega

theorem goes_next {s : State} (h : Inv p met s) (hok : StepOk p s) :
    next p s = none ∨ ∃ a t, next p s = some (a, t) ∧ Goes p (met ++ [a]) (measure p s) t := by
  cases s with
  | sector i buf found =>
    refine .inr ⟨_, _, rfl, ?_⟩
    obtain ⟨hi, hrec⟩ := h
    split
    · rename_i hlt
      exact goes_sectorStep hlt (hok hlt) hrec.go
    · have hend : i * p.sectorSize.toNat ≤ 2 ^ 32 :=
        ((Nat.mul_le_mul_right _ hi).trans nrSectors_mul_le).trans p.size.isLt.le
      exact ⟨hrec.go.later hend, Nat.succ_pos _⟩
  | erased i ofs buf found => exact .inr ⟨_, _, rfl, goes_erasedStep h.go hok⟩
  | scan i w => exact .inr ⟨_, _, rfl, goes_scanStep h.go hok⟩
  | node i w => exact .inr ⟨_, _, rfl, goes_nodeStep h hok⟩
  | empty i scanEnd w => exact .inr ⟨_, _, rfl, goes_emptyStep h.go hok⟩
  | returned found => exact .inl rfl
  | failed found => exact .inl rfl
  | fault => exact .inl rfl

end Steps

/-! ## Every run -/

/-- The lists, unless the scan has given up. -/
def State.found : State → Option Found
  | .sector _ _ found => some found
  | .erased _ _ _ found => some found
  | .scan _ w => some w.found
  | .node _ w => some w.found
  | .empty _ _ w => some w.found
  | .returned found => some found
  | .failed _ => none
  | .fault => none

/-- The scan comes to its end; no access is behind the buffer or the summary; and each node with
the right sums that the walk has reached is in its list once, with its own offset. -/
structure Robust (p : Setting) : Prop where
  terminates : ∃ l s, (buildLists p).Run (start p) l s ∧ next p s = none
  inside : ∀ l s, (buildLists p).Run (start p) l s → s ≠ .fault
  once : ∀ l s found k x, (buildLists p).Run (start p) l s → s.found = some found →
    .reach k x ∈ l → valid (p.bytes x) k = true → (found.list k).count (p.offset + x) = 1

theorem inv_start : Inv p [] (start p) where
  left := Nat.zero_le _
  right :=
    { below := fun k y hy => by cases k <;> exact absurd hy List.not_mem_nil
      once := fun k x hx => absurd hx List.not_mem_nil }

theorem Inv.recorded {met : List Label} {s : State} {found : Found} (h : Inv p met s)
    (hfound : s.found = some found) : ∃ n, Recorded p met found n n := by
  cases s with
  | sector i buf found' => cases hfound; exact ⟨_, h.2⟩
  | erased i ofs buf found' => cases hfound; exact ⟨_, h.2.2.2⟩
  | scan i w => cases hfound; exact ⟨_, h.2.2⟩
  | node i w =>
    cases hfound
    obtain ⟨-, -, -, -, -, -, hrec⟩ := h
    exact ⟨_, hrec⟩
  | empty i scanEnd w => cases hfound; exact ⟨_, h.2.2.2⟩
  | returned found' => cases hfound; exact ⟨_, h⟩
  | failed found' => cases hfound
  | fault => exact h.elim

theorem inv_of_run (hok : ∀ s, (buildLists p).Reachable s → StepOk p s) {l : List Label} {s : State}
    (h : (buildLists p).Run (start p) l s) : Inv p l s := by
  refine (Run.history (I := fun m s => (buildLists p).Reachable s ∧ Inv p m s) ?_ h []
    ⟨.init rfl, inv_start⟩).2
  rintro m s a t ⟨hreach, hinv⟩ hst
  refine ⟨.step hreach hst, ?_⟩
  change next p s = some (a, t) at hst
  obtain hnone | ⟨a', t', hnext, hgoes⟩ := goes_next hinv (hok s hreach)
  · rw [hnone] at hst
    cases hst
  · rw [hnext] at hst
    cases hst
    exact hgoes.1

/-- **The scan is robust** when each of its steps meets the condition. -/
theorem robust_of_stepOk (p : Setting) (hok : ∀ s, (buildLists p).Reachable s → StepOk p s) :
    Robust p where
  terminates := by
    refine exists_run_of_lt (I := fun s => (buildLists p).Reachable s ∧ ∃ m, Inv p m s)
      (measure p) ?_ (start p) ⟨.init rfl, [], inv_start⟩
    rintro s ⟨hreach, m, hinv⟩
    obtain hnone | ⟨a, t, hnext, hgoes⟩ := goes_next hinv (hok s hreach)
    · exact .inl hnone
    · exact .inr ⟨a, t, hnext, ⟨.step hreach hnext, _, hgoes.1⟩, hgoes.2⟩
  inside l s h hfault := by
    have hinv := inv_of_run hok h
    rw [hfault] at hinv
    exact hinv
  once l s found k x h hfound hx hvalid := by
    obtain ⟨n, hrec⟩ := (inv_of_run hok h).recorded hfound
    exact (hrec.once k x hx hvalid).2

/-! ## Single runs -/

/-- The state after so many steps. -/
def after (p : Setting) : ℕ → Option State
  | 0 => some (start p)
  | n + 1 => (after p n).bind fun s => (next p s).map Prod.snd

theorem run_of_after {n : ℕ} {s : State} (h : after p n = some s) :
    ∃ l, (buildLists p).Run (start p) l s := by
  induction n generalizing s with
  | zero =>
    cases h
    exact ⟨[], .nil _⟩
  | succ n ih =>
    obtain ⟨t, ht, hnext⟩ := Option.bind_eq_some_iff.mp h
    obtain ⟨⟨a, s'⟩, hstep, rfl⟩ := Option.map_eq_some_iff.mp hnext
    obtain ⟨l, hrun⟩ := ih ht
    exact ⟨l ++ [a], hrun.append (.single hstep)⟩

theorem exists_after {s : State} (h : (buildLists p).Reachable s) : ∃ n, after p n = some s := by
  induction h with
  | init hs =>
    cases hs
    exact ⟨0, rfl⟩
  | step _ hst ih =>
    obtain ⟨n, hn⟩ := ih
    change next p _ = some (_, _) at hst
    exact ⟨n + 1, by rw [after, hn, Option.bind_some, hst, Option.map_some]⟩

theorem after_eq_none {n m : ℕ} (h : after p n = none) (hnm : n ≤ m) : after p m = none := by
  induction hnm with
  | refl => exact h
  | step _ ih => rw [after, ih, Option.bind_none]

instance (p : Setting) (sum : ℕ → UInt8) (sumsize : BitVec 32) :
    Decidable (SummaryFits p sum sumsize) := inferInstanceAs (Decidable (_ ∧ _))

instance (p : Setting) : DecidablePred (StepOk p)
  | .sector _ _ _ => inferInstanceAs (Decidable (_ → _ → _ → _))
  | .erased _ _ _ _ => inferInstanceAs (Decidable (_ < _))
  | .scan _ _ => inferInstanceAs (Decidable (_ → _))
  | .node _ _ => inferInstanceAs (Decidable (_ ∧ _))
  | .empty _ _ _ => inferInstanceAs (Decidable (_ → _))
  | .returned _ => inferInstanceAs (Decidable True)
  | .failed _ => inferInstanceAs (Decidable True)
  | .fault => inferInstanceAs (Decidable True)

theorem stepOk_of_after {n : ℕ} (hend : after p n = none)
    (hok : ∀ m < n, ∀ s ∈ after p m, StepOk p s) (s : State)
    (h : (buildLists p).Reachable s) : StepOk p s := by
  obtain ⟨m, hm⟩ := exists_after h
  by_cases hlt : m < n
  · exact hok m hlt s hm
  · rw [after_eq_none hend (not_lt.mp hlt)] at hm
    cases hm

/-- A sector with one inode, and erased flash behind it. -/
def oneInode : Setting where
  offset := 0x40000
  size := 76
  sectorSize := 76
  sectorSize_ne := by decide
  flash x :=
    [0x85, 0x19, 0x02, 0xe0, 68, 0, 0, 0, 0x1d, 0xfb, 0xf7, 0x98, 2, 0, 0, 0, 1, 0, 0, 0,
      0xa4, 0x81, 0, 0, 0, 0, 0, 0, 0, 0, 0, 0, 0, 0, 0, 0, 0, 0, 0, 0, 0, 0, 0, 0, 0, 0, 0, 0,
      0, 0, 0, 0, 0, 0, 0, 0, 0, 0, 0, 0, 0, 0, 0, 0, 0x14, 0xd0, 0xc4, 0x71].getD
        (x - 0x40000).toNat 0xff
  malloc _ := true
  addNode _ := true
  buf _ := 0

theorem robust_oneInode :
    Robust oneInode ∧ ((after oneInode 6).bind State.found).map Found.frag = some [0x40000] :=
  have hend : after oneInode 7 = none := Option.isNone_iff_eq_none.mp (by decide +kernel)
  have hok : ∀ m < 7, ∀ s ∈ after oneInode m, StepOk oneInode s := by decide +kernel
  ⟨robust_of_stepOk oneInode (stepOk_of_after hend hok), by decide +kernel⟩

/-- A sector with padding up to the last header of the first window, which is that of an entry. -/
def behindWindow : Setting where
  offset := 0
  size := 0x2000
  sectorSize := 0x2000
  sectorSize_ne := by decide
  flash x :=
    if x < 12 then
      [0x85, 0x19, 0x04, 0x20, 0xf4, 0x0f, 0, 0, 0x7c, 0xf9, 0x95, 0xb1].getD x.toNat 0
    else
      [0x85, 0x19, 0x01, 0xe0, 41, 0, 0, 0, 0x6d, 0xa6, 0x2f, 0xd7, 1, 0, 0, 0, 1, 0, 0, 0,
        2, 0, 0, 0, 0, 0, 0, 0, 1, 8, 0, 0, 0x95, 0x02, 0x9b, 0x91, 0xce, 0x51, 0xb5, 0x3a,
        0x61].getD (x - 4084).toNat 0xff
  malloc _ := true
  addNode _ := true
  buf _ := 0

/-- The length of the name is looked for behind the buffer. -/
theorem not_robust : ¬∀ p, Robust p := by
  intro h
  obtain ⟨l, hrun⟩ := run_of_after (p := behindWindow) (n := 6) (s := .fault) rfl
  exact (h behindWindow).inside l .fault hrun rfl

end BuildLists
end Jffs2
end EmevBsp
