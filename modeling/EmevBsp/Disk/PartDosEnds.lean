import EmevBsp.Disk.PartDosAgree
import EmevBsp.Library.Chains
import Mathlib.Data.Finite.Prod

/-!
# Extended tables that run in circles

Neither of the two functions keeps a list of the tables it has seen, and neither counts.  A call
depends on the sector of the table and on what its extended entries are relative to; the number of
the next partition does not change the way.  There are finitely many such places, so the walk that
prints ends unless it comes back to one of them, and so does the walk that looks up, unless the
partition is found before.
-/

namespace EmevBsp
namespace Disk

open Relation

/-! ## Places -/

/-- What the way of the functions depends on: the table, and what its extended entries are relative
to. -/
abbrev Place := BitVec 32 × BitVec 32

instance finite_bitVec : Finite (BitVec 32) := Finite.of_injective BitVec.toFin fun _ _ => BitVec.toFin_inj.mp

def Node.place (m : Node) : Place := (m.sector, m.relative)

/-- From a place to that of any extended entry. -/
def Leads (d : BlockDev) (q q' : Place) : Prop :=
  ∃ num m', Child d ⟨q.1, q.2, num⟩ m' ∧ m'.place = q'

/-- From a place to that of the first extended entry. -/
def LeadsFirst (d : BlockDev) (q q' : Place) : Prop :=
  ∃ num m', Next d ⟨q.1, q.2, num⟩ m' ∧ m'.place = q'

variable {d : BlockDev} {m : Node}

theorem acc_child_iff : Acc (flip (Child d)) m ↔ Acc (flip (Leads d)) m.place := by
  refine acc_flip_map_iff (f := Node.place) ?_ ?_
  · intro m m' h
    exact ⟨m.num, m', h, rfl⟩
  · rintro m q ⟨num, m', ⟨hmbr, pt, hpt, rfl⟩, rfl⟩
    exact ⟨m.below d pt, ⟨hmbr, pt, hpt, rfl⟩, rfl⟩

theorem acc_next_iff : Acc (flip (Next d)) m ↔ Acc (flip (LeadsFirst d)) m.place := by
  refine acc_flip_map_iff (f := Node.place) ?_ ?_
  · intro m m' h
    exact ⟨m.num, m', h, rfl⟩
  · rintro m q ⟨num, m', ⟨hsig, pt, hpt, rfl⟩, rfl⟩
    exact ⟨m.below d pt, ⟨hsig, pt, hpt, rfl⟩, rfl⟩

/-! ## The walk that prints -/

theorem collect_of_forall {α : Type} {f : α → Option (List Line)} {as : List α}
    (h : ∀ a ∈ as, ∃ l, f a = some l) : ∃ lines, collect f as = some lines := by
  induction as with
  | nil => exact ⟨[], rfl⟩
  | cons a as ih =>
    obtain ⟨⟨l, hl⟩, hrest⟩ := List.forall_mem_cons.mp h
    obtain ⟨lines, hlines⟩ := ih hrest
    exact ⟨l ++ lines, by rw [collect, hl, hlines]⟩

theorem print_succ_iff (h : IsMbr d m) (fuel : ℕ) :
    (∃ lines, printPartitionExtended d (fuel + 1) m.sector m.relative m.num = some lines) ↔
      ∀ pt ∈ m.extended d, ∃ lines, printPartitionExtended d fuel (m.below d pt).sector
        (m.below d pt).relative (m.below d pt).num = some lines := by
  rw [print_of_isMbr h]
  constructor
  · rintro ⟨lines, hrun⟩
    split at hrun
    case h_1 => exact absurd hrun.symm (Option.some_ne_none lines)
    case h_2 below hbelow => exact exists_of_collect hbelow
  · intro hall
    obtain ⟨below, hbelow⟩ := collect_of_forall hall
    exact ⟨(printLoop m.sector (m.table d) m.num).1 ++ below, by rw [hbelow]⟩

theorem print_mono {fuel fuel' : ℕ} (hle : fuel ≤ fuel')
    (h : ∃ lines, printPartitionExtended d fuel m.sector m.relative m.num = some lines) :
    ∃ lines, printPartitionExtended d fuel' m.sector m.relative m.num = some lines := by
  induction fuel generalizing m fuel' with
  | zero =>
    obtain ⟨lines, hrun⟩ := h
    exact absurd hrun.symm (Option.some_ne_none lines)
  | succ fuel ih =>
    obtain ⟨fuel', rfl⟩ := Nat.exists_eq_add_of_lt (Nat.lt_of_succ_le hle)
    by_cases hmbr : IsMbr d m
    · have hall := (print_succ_iff hmbr fuel).mp h
      refine (print_succ_iff hmbr (fuel + fuel')).mpr fun pt hpt => ?_
      exact ih (m := m.below d pt) (Nat.le_add_right fuel fuel') (hall pt hpt)
    · obtain ⟨lines, hrun, -⟩ := print_of_not_isMbr hmbr (fuel + fuel')
      exact ⟨lines, hrun⟩

theorem exists_fuel_of_forall (pts : List DosPartition)
    (h : ∀ pt ∈ pts, ∃ fuel, ∃ lines, printPartitionExtended d fuel (m.below d pt).sector
      (m.below d pt).relative (m.below d pt).num = some lines) :
    ∃ fuel, ∀ pt ∈ pts, ∃ lines, printPartitionExtended d fuel (m.below d pt).sector
      (m.below d pt).relative (m.below d pt).num = some lines := by
  induction pts with
  | nil => exact ⟨0, fun _ hpt => absurd hpt List.not_mem_nil⟩
  | cons pt pts ih =>
    obtain ⟨⟨fuel, hfuel⟩, hrest⟩ := List.forall_mem_cons.mp h
    obtain ⟨fuel', hfuel'⟩ := ih hrest
    refine ⟨max fuel fuel', List.forall_mem_cons.mpr ⟨?_, fun pt' hpt' => ?_⟩⟩
    · exact print_mono (m := m.below d pt) (Nat.le_max_left fuel fuel') hfuel
    · exact print_mono (m := m.below d pt') (Nat.le_max_right fuel fuel') (hfuel' pt' hpt')

theorem print_ends_iff_acc :
    (∃ fuel, ∃ lines, printPartitionExtended d fuel m.sector m.relative m.num = some lines) ↔
      Acc (flip (Child d)) m := by
  constructor
  · rintro ⟨fuel, h⟩
    induction fuel generalizing m with
    | zero =>
      obtain ⟨lines, hrun⟩ := h
      exact absurd hrun.symm (Option.some_ne_none lines)
    | succ fuel ih =>
      refine Acc.intro m fun m' hchild => ?_
      obtain ⟨hmbr, pt, hpt, rfl⟩ := hchild
      exact ih ((print_succ_iff hmbr fuel).mp h pt hpt)
  · intro h
    induction h with
    | intro m _ ih =>
      by_cases hmbr : IsMbr d m
      · obtain ⟨fuel, hfuel⟩ := exists_fuel_of_forall (m := m) (m.extended d)
          fun pt hpt => ih (m.below d pt) ⟨hmbr, pt, hpt, rfl⟩
        exact ⟨fuel + 1, (print_succ_iff hmbr fuel).mpr hfuel⟩
      · obtain ⟨lines, hrun, -⟩ := print_of_not_isMbr hmbr 0
        exact ⟨1, lines, hrun⟩

/-! ## The walk that looks up -/

/-- The partition of a number is among those that the walk reaches. -/
def Found (d : BlockDev) (m : Node) (which : ℤ) : Prop := ∃ p, Chained d m p ∧ (p.num : ℤ) = which

theorem get_succ_iff (fuel : ℕ) (which : ℤ) :
    (∃ r, getPartitionInfoExtended d (fuel + 1) m.sector m.relative m.num which = some r) ↔
      (HasSignature d m ∧ ∃ p ∈ m.parts d, (p.num : ℤ) = which) ∨
        ∀ m', Next d m m' →
          ∃ r, getPartitionInfoExtended d fuel m'.sector m'.relative m'.num which = some r := by
  by_cases hsig : HasSignature d m
  · rw [get_of_hasSignature hsig]
    rcases getLoop_spec d m.sector which (m.table d) m.num with
      ⟨p, hp, hnum, hget⟩ | ⟨hnone, hget⟩
    · rw [hget]
      exact ⟨fun _ => Or.inl ⟨hsig, p, hp, hnum⟩, fun _ => ⟨_, rfl⟩⟩
    · have hhere : ¬(HasSignature d m ∧ ∃ p ∈ m.parts d, (p.num : ℤ) = which) := by
        rintro ⟨-, p, hp, hnum⟩
        exact hnone p hp hnum
      rw [hget, or_iff_right hhere]
      cases hextended : m.extended d with
      | nil =>
        refine ⟨fun _ m' hnext => ?_, fun _ => ⟨none, rfl⟩⟩
        obtain ⟨-, pt, hpt, -⟩ := hnext
        rw [hextended] at hpt
        exact absurd hpt.symm (Option.some_ne_none pt)
      | cons pt pts =>
        have hnext : Next d m (m.below d pt) := ⟨hsig, pt, by rw [hextended]; rfl, rfl⟩
        refine ⟨fun hrun m' hnext' => ?_, fun hall => hall _ hnext⟩
        obtain ⟨-, pt', hpt', rfl⟩ := hnext'
        rw [hextended] at hpt'
        obtain rfl := Option.some.inj hpt'
        exact hrun
  · rw [get_of_not_hasSignature hsig]
    exact ⟨fun _ => Or.inr fun m' hnext => absurd hnext.1 hsig, fun _ => ⟨none, rfl⟩⟩

theorem acc_of_next {m' : Node} (hnext : Next d m m') (h : Acc (flip (Next d)) m') :
    Acc (flip (Next d)) m := by
  refine Acc.intro m fun m'' hnext' => ?_
  obtain ⟨-, pt, hpt, rfl⟩ := hnext
  obtain ⟨-, pt', hpt', rfl⟩ := hnext'
  obtain rfl := Option.some.inj (hpt.symm.trans hpt')
  exact h

theorem get_ends_iff_acc (which : ℤ) :
    (∃ fuel, ∃ r, getPartitionInfoExtended d fuel m.sector m.relative m.num which = some r) ↔
      Acc (flip (Next d)) m ∨ Found d m which := by
  constructor
  · rintro ⟨fuel, h⟩
    induction fuel generalizing m with
    | zero =>
      obtain ⟨r, hrun⟩ := h
      exact absurd hrun.symm (Option.some_ne_none r)
    | succ fuel ih =>
      rcases (get_succ_iff fuel which).mp h with ⟨hsig, p, hp, hnum⟩ | hall
      · exact Or.inr ⟨p, chained_iff.mpr (Or.inl ⟨hsig, hp⟩), hnum⟩
      · by_cases hend : ∃ m', Next d m m'
        · obtain ⟨m', hnext⟩ := hend
          rcases ih (hall m' hnext) with hacc | ⟨p, hp, hnum⟩
          · exact Or.inl (acc_of_next hnext hacc)
          · exact Or.inr ⟨p, chained_iff.mpr (Or.inr ⟨m', hnext, hp⟩), hnum⟩
        · exact Or.inl (Acc.intro m fun m' hnext => absurd ⟨m', hnext⟩ hend)
  · rintro (hacc | ⟨p, ⟨m', hwalk, hsig, hp⟩, hnum⟩)
    · induction hacc with
      | intro m _ ih =>
        by_cases hend : ∃ m', Next d m m'
        · obtain ⟨m', hnext⟩ := hend
          obtain ⟨fuel, hfuel⟩ := ih m' hnext
          refine ⟨fuel + 1, (get_succ_iff fuel which).mpr (Or.inr fun m'' hnext' => ?_)⟩
          obtain ⟨-, pt, hpt, rfl⟩ := hnext
          obtain ⟨-, pt', hpt', rfl⟩ := hnext'
          obtain rfl := Option.some.inj (hpt.symm.trans hpt')
          exact hfuel
        · exact ⟨1, (get_succ_iff 0 which).mpr
            (Or.inr fun m' hnext => absurd ⟨m', hnext⟩ hend)⟩
    · induction hwalk using ReflTransGen.head_induction_on with
      | refl => exact ⟨1, (get_succ_iff 0 which).mpr (Or.inl ⟨hsig, p, hp, hnum⟩)⟩
      | head hnext _ ih =>
        obtain ⟨fuel, hfuel⟩ := ih
        refine ⟨fuel + 1, (get_succ_iff fuel which).mpr (Or.inr fun m'' hnext' => ?_)⟩
        obtain ⟨-, pt, hpt, rfl⟩ := hnext
        obtain ⟨-, pt', hpt', rfl⟩ := hnext'
        obtain rfl := Option.some.inj (hpt.symm.trans hpt')
        exact hfuel

/-! ## When the functions return -/

/-- **The functions return** unless the extended tables run in circles; the one that looks up also
does when it comes by the partition first. -/
theorem ends_iff (d : BlockDev) (extPartSector relative : BitVec 32) (partNum : ℕ) :
    ((∃ fuel, ∃ lines,
        printPartitionExtended d fuel extPartSector relative partNum = some lines) ↔
      ¬ RunsInCircles (Leads d) (extPartSector, relative)) ∧
    ∀ whichPart : ℤ,
      ((∃ fuel, ∃ r,
          getPartitionInfoExtended d fuel extPartSector relative partNum whichPart = some r) ↔
        ¬ RunsInCircles (LeadsFirst d) (extPartSector, relative) ∨
          Found d ⟨extPartSector, relative, partNum⟩ whichPart) := by
  constructor
  · rw [← acc_flip_iff]
    exact (print_ends_iff_acc (m := ⟨extPartSector, relative, partNum⟩)).trans acc_child_iff
  · intro whichPart
    rw [← acc_flip_iff]
    exact (get_ends_iff_acc (m := ⟨extPartSector, relative, partNum⟩) whichPart).trans
      (or_congr_left acc_next_iff)

/-- An extended entry that points to the table it stands in. -/
def circleDisk : BlockDev where
  ifType := .usb
  dev := 0
  lba := 100
  blockRead sector := if sector = 0 then some (tableSector [(0x5, 0, 10)]) else none

/-- **The functions do not return** for every disk. -/
theorem not_ends : ¬ ∀ (d : BlockDev) (extPartSector relative : BitVec 32) (partNum : ℕ)
    (whichPart : ℤ),
    (∃ fuel, ∃ lines,
        printPartitionExtended d fuel extPartSector relative partNum = some lines) ∧
      ∃ fuel, ∃ r,
        getPartitionInfoExtended d fuel extPartSector relative partNum whichPart = some r := by
  intro hall
  have hextended : Node.extended circleDisk .root = [⟨0x5, 0, 10⟩] := by rfl
  have hmbr : IsMbr circleDisk .root := ⟨tableSector [(0x5, 0, 10)], rfl, by decide⟩
  have hchild : Leads circleDisk (0, 0) (0, 0) :=
    ⟨1, Node.below circleDisk .root ⟨0x5, 0, 10⟩,
      ⟨hmbr, ⟨0x5, 0, 10⟩, by rw [← Node.root, hextended]; exact List.mem_singleton_self _, rfl⟩,
      rfl⟩
  have hacc := (print_ends_iff_acc (m := .root)).mp (hall circleDisk 0 0 1 5).1
  exact acc_flip_iff.mp (acc_child_iff.mp hacc) ⟨(0, 0), .refl, .single hchild⟩

end Disk
end EmevBsp
