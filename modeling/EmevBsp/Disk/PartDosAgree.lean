import EmevBsp.Disk.PartDos

/-!
# The numbers that are printed and the numbers that are looked up

`print_partition_extended` goes on to the tables of all extended entries, and
`get_partition_info_extended` leaves its loop at the first.  The former does not take the sector of
a FAT file system, which has the same signature, for a partition table, and the latter does.

A node is a table with the number it begins with.  The functions walk over nodes along relations:
`Child` for the one that prints, and `Next` for the one that looks up.
-/

namespace EmevBsp
namespace Disk

open Relation

/-! ## Nodes -/

/-- The arguments of a call: a table, what its extended entries are relative to, and a number. -/
structure Node where
  sector : BitVec 32
  relative : BitVec 32
  num : ℕ

/-- The first call. -/
def Node.root : Node := ⟨0, 0, 1⟩

variable (d : BlockDev)

/-- The entries of the table. -/
def Node.table (m : Node) : List DosPartition := (d.blockRead m.sector).elim [] partTable

/-- The extended entries. -/
def Node.extended (m : Node) : List DosPartition :=
  (m.table d).filter fun pt => isExtended pt.sysInd

/-- The call for an extended entry. -/
def Node.below (m : Node) (pt : DosPartition) : Node :=
  ⟨pt.start4 + m.relative, if m.sector = 0 then pt.start4 + m.relative else m.relative,
    numAfter m.sector (m.table d) m.num⟩

/-- The partitions of the table. -/
def Node.parts (m : Node) : List Part := partsOf m.sector (m.table d) m.num

/-- The sector can be read, and has the DOS signature. -/
def HasSignature (m : Node) : Prop :=
  ∃ buffer, d.blockRead m.sector = some buffer ∧ testBlockType buffer ≠ none

/-- The sector is a partition table. -/
def IsMbr (m : Node) : Prop :=
  ∃ buffer, d.blockRead m.sector = some buffer ∧ testBlockType buffer = some .mbr

/-- From a partition table to that of any extended entry. -/
def Child (m m' : Node) : Prop := IsMbr d m ∧ ∃ pt ∈ m.extended d, m' = m.below d pt

/-- From a sector with the signature to the table of the first extended entry. -/
def Next (m m' : Node) : Prop :=
  HasSignature d m ∧ ∃ pt, (m.extended d).head? = some pt ∧ m' = m.below d pt

/-- A partition of a table that is reached by the walk that prints. -/
def Printed (m : Node) (p : Part) : Prop :=
  ∃ m', ReflTransGen (Child d) m m' ∧ IsMbr d m' ∧ p ∈ m'.parts d

/-- A partition of a table that is reached by the walk that looks up. -/
def Chained (m : Node) (p : Part) : Prop :=
  ∃ m', ReflTransGen (Next d) m m' ∧ HasSignature d m' ∧ p ∈ m'.parts d

variable {d} {m : Node} {p : Part}

theorem IsMbr.hasSignature (h : IsMbr d m) : HasSignature d m := by
  obtain ⟨buffer, hread, htype⟩ := h
  exact ⟨buffer, hread, by rw [htype]; exact Option.some_ne_none _⟩

theorem printed_iff :
    Printed d m p ↔ (IsMbr d m ∧ p ∈ m.parts d) ∨ ∃ m', Child d m m' ∧ Printed d m' p := by
  constructor
  · rintro ⟨m', hwalk, hmbr, hp⟩
    rcases hwalk.cases_head with rfl | ⟨m'', hchild, hrest⟩
    · exact .inl ⟨hmbr, hp⟩
    · exact .inr ⟨m'', hchild, m', hrest, hmbr, hp⟩
  · rintro (⟨hmbr, hp⟩ | ⟨m', hchild, m'', hwalk, hmbr, hp⟩)
    · exact ⟨m, .refl, hmbr, hp⟩
    · exact ⟨m'', .head hchild hwalk, hmbr, hp⟩

theorem chained_iff :
    Chained d m p ↔ (HasSignature d m ∧ p ∈ m.parts d) ∨ ∃ m', Next d m m' ∧ Chained d m' p := by
  constructor
  · rintro ⟨m', hwalk, hsig, hp⟩
    rcases hwalk.cases_head with rfl | ⟨m'', hnext, hrest⟩
    · exact .inl ⟨hsig, hp⟩
    · exact .inr ⟨m'', hnext, m', hrest, hsig, hp⟩
  · rintro (⟨hsig, hp⟩ | ⟨m', hnext, m'', hwalk, hsig, hp⟩)
    · exact ⟨m, .refl, hsig, hp⟩
    · exact ⟨m'', .head hnext hwalk, hsig, hp⟩

/-! ## What is printed -/

theorem listsPart_append {l l' : List Line} :
    ListsPart (l ++ l') p ↔ ListsPart l p ∨ ListsPart l' p := by
  constructor
  · rintro ⟨sysInd, hext, hmem⟩
    exact (List.mem_append.mp hmem).imp (fun h => ⟨sysInd, hext, h⟩) fun h => ⟨sysInd, hext, h⟩
  · rintro (⟨sysInd, hext, h⟩ | ⟨sysInd, hext, h⟩)
    · exact ⟨sysInd, hext, List.mem_append_left _ h⟩
    · exact ⟨sysInd, hext, List.mem_append_right _ h⟩

theorem exists_of_collect {α : Type} {f : α → Option (List Line)} {as : List α}
    {lines : List Line} (h : collect f as = some lines) : ∀ a ∈ as, ∃ l, f a = some l := by
  induction as generalizing lines with
  | nil => exact fun a ha => absurd ha List.not_mem_nil
  | cons a as ih =>
    rw [collect] at h
    split at h
    case h_1 l rest hhead hrest => exact List.forall_mem_cons.mpr ⟨⟨l, hhead⟩, ih hrest⟩
    case h_2 => exact absurd h.symm (Option.some_ne_none lines)

theorem listsPart_collect {α : Type} {f : α → Option (List Line)} {as : List α}
    {lines : List Line} (h : collect f as = some lines) :
    ListsPart lines p ↔ ∃ a ∈ as, ∃ l, f a = some l ∧ ListsPart l p := by
  induction as generalizing lines with
  | nil =>
    rw [← Option.some.inj h]
    exact ⟨fun ⟨_, _, hmem⟩ => absurd hmem List.not_mem_nil,
      fun ⟨_, ha, _⟩ => absurd ha List.not_mem_nil⟩
  | cons a as ih =>
    rw [collect] at h
    split at h
    case h_1 l rest hhead hrest =>
      rw [← Option.some.inj h, listsPart_append, ih hrest]
      constructor
      · rintro (hp | ⟨a', ha', l', hl', hp⟩)
        · exact ⟨a, List.mem_cons_self, l, hhead, hp⟩
        · exact ⟨a', List.mem_cons_of_mem a ha', l', hl', hp⟩
      · rintro ⟨a', ha', l', hl', hp⟩
        rcases List.mem_cons.mp ha' with rfl | ha'
        · rw [← Option.some.inj (hhead.symm.trans hl')] at hp
          exact .inl hp
        · exact .inr ⟨a', ha', l', hl', hp⟩
    case h_2 => exact absurd h.symm (Option.some_ne_none lines)

theorem print_of_not_isMbr (h : ¬IsMbr d m) (fuel : ℕ) :
    ∃ lines, printPartitionExtended d (fuel + 1) m.sector m.relative m.num = some lines ∧
      ∀ p, ¬ListsPart lines p := by
  have hmessage {l : Line} (hl : ∀ num start size sysInd, Line.part num start size sysInd ≠ l)
      (p : Part) : ¬ListsPart [l] p :=
    fun ⟨_, _, hmem⟩ => hl _ _ _ _ (List.mem_singleton.mp hmem)
  rw [printPartitionExtended]
  cases hread : d.blockRead m.sector with
  | none => exact ⟨_, rfl, hmessage fun _ _ _ _ heq => nomatch heq⟩
  | some buffer =>
    dsimp only
    cases htype : testBlockType buffer with
    | none => exact ⟨_, rfl, hmessage fun _ _ _ _ heq => nomatch heq⟩
    | some type =>
      cases type with
      | pbr => exact ⟨_, rfl, hmessage fun _ _ _ _ heq => nomatch heq⟩
      | mbr => exact absurd ⟨buffer, hread, htype⟩ h

theorem print_of_isMbr (h : IsMbr d m) (fuel : ℕ) :
    printPartitionExtended d (fuel + 1) m.sector m.relative m.num =
      match collect (fun pt => printPartitionExtended d fuel (m.below d pt).sector
          (m.below d pt).relative (m.below d pt).num) (m.extended d) with
      | none => none
      | some below => some ((printLoop m.sector (m.table d) m.num).1 ++ below) := by
  obtain ⟨buffer, hread, htype⟩ := h
  have htable : m.table d = partTable buffer := by
    rw [Node.table, hread]
    rfl
  rw [printPartitionExtended, hread]
  dsimp only
  rw [htype]
  dsimp only
  rewrite [printLoop_snd, ← htable]
  rfl

theorem listsPart_iff_printed {fuel : ℕ} {lines : List Line}
    (h : printPartitionExtended d fuel m.sector m.relative m.num = some lines) :
    ListsPart lines p ↔ Printed d m p := by
  induction fuel generalizing m lines with
  | zero => exact absurd h.symm (Option.some_ne_none lines)
  | succ fuel ih =>
    rw [printed_iff]
    by_cases hmbr : IsMbr d m
    · rw [print_of_isMbr hmbr] at h
      split at h
      case h_1 => exact absurd h.symm (Option.some_ne_none lines)
      case h_2 below hbelow =>
        rw [← Option.some.inj h, listsPart_append, listsPart_printLoop, listsPart_collect hbelow]
        refine or_congr (and_iff_right hmbr).symm ⟨?_, ?_⟩
        · rintro ⟨pt, hpt, l, hl, hp⟩
          exact ⟨m.below d pt, ⟨hmbr, pt, hpt, rfl⟩, (ih hl).mp hp⟩
        · rintro ⟨m', ⟨-, pt, hpt, rfl⟩, hp⟩
          obtain ⟨l, hl⟩ := exists_of_collect hbelow pt hpt
          exact ⟨pt, hpt, l, hl, (ih hl).mpr hp⟩
    · obtain ⟨l, hrun, hnone⟩ := print_of_not_isMbr hmbr fuel
      rw [← Option.some.inj (hrun.symm.trans h)]
      refine iff_of_false (hnone p) ?_
      rintro (⟨hyes, -⟩ | ⟨m', ⟨hyes, -⟩, -⟩)
      · exact hmbr hyes
      · exact hmbr hyes

/-! ## What is looked up -/

theorem partsOf_num_inj {sector : BitVec 32} {pts : List DosPartition} {n : ℕ} {p q : Part}
    (hp : p ∈ partsOf sector pts n) (hq : q ∈ partsOf sector pts n) (h : p.num = q.num) :
    p = q := by
  induction pts generalizing n with
  | nil => exact absurd hp List.not_mem_nil
  | cons pt pts ih =>
    rw [partsOf] at hp hq
    split_ifs at hp hq with hpart
    · have hlater {r : Part} (hr : r ∈ partsOf sector pts (nextNum sector pt n)) : n < r.num := by
        have hle := (num_of_mem_partsOf hr).1
        rwa [nextNum_of_isPart hpart] at hle
      rcases List.mem_cons.mp hp with rfl | hp
      · rcases List.mem_cons.mp hq with rfl | hq
        · rfl
        · exact absurd h (Nat.ne_of_lt (hlater hq))
      · rcases List.mem_cons.mp hq with rfl | hq
        · exact absurd h (Nat.ne_of_gt (hlater hp))
        · exact ih hp hq
    · exact ih hp hq

theorem le_num_of_chained (h : Chained d m p) : m.num ≤ p.num := by
  obtain ⟨m', hwalk, -, hp⟩ := h
  induction hwalk using ReflTransGen.head_induction_on with
  | refl => exact (num_of_mem_partsOf hp).1
  | head hnext _ ih =>
    obtain ⟨-, pt, -, rfl⟩ := hnext
    exact Nat.le_trans (le_numAfter _ _ _) ih

theorem get_of_hasSignature (h : HasSignature d m) (fuel : ℕ) (which : ℤ) :
    getPartitionInfoExtended d (fuel + 1) m.sector m.relative m.num which =
      match getLoop d m.sector which (m.table d) m.num with
      | .inl info => some (some info)
      | .inr num =>
        match m.extended d with
        | [] => some none
        | pt :: _ =>
          getPartitionInfoExtended d fuel (pt.start4 + m.relative)
            (if m.sector = 0 then pt.start4 + m.relative else m.relative) num which := by
  obtain ⟨buffer, hread, htype⟩ := h
  have hmagic : ¬(buffer 0x1fe ≠ 0x55 ∨ buffer 0x1ff ≠ 0xaa) := fun hbad => htype (if_pos hbad)
  have htable : m.table d = partTable buffer := by
    rw [Node.table, hread]
    rfl
  rw [getPartitionInfoExtended, hread]
  dsimp only
  rewrite [if_neg hmagic, Node.extended, htable]
  rfl

theorem get_of_not_hasSignature (h : ¬HasSignature d m) (fuel : ℕ) (which : ℤ) :
    getPartitionInfoExtended d (fuel + 1) m.sector m.relative m.num which = some none := by
  rw [getPartitionInfoExtended]
  cases hread : d.blockRead m.sector with
  | none => rfl
  | some buffer =>
    refine if_pos (not_not.mp fun hmagic => h ⟨buffer, hread, ?_⟩)
    rw [testBlockType, if_neg hmagic]
    split_ifs
    · exact Option.some_ne_none _
    · exact Option.some_ne_none _

/-- **What is looked up**: the partition of the number among those that the walk reaches, and there
is at most one. -/
theorem getPartitionInfo_spec {fuel : ℕ} {which : ℤ} {r : Option DiskPartition}
    (h : getPartitionInfoExtended d fuel m.sector m.relative m.num which = some r) :
    (r = none ∧ ∀ p, Chained d m p → (p.num : ℤ) ≠ which) ∨
      ∃ p, Chained d m p ∧ (p.num : ℤ) = which ∧ r = some (infoOf d p) ∧
        ∀ q, Chained d m q → (q.num : ℤ) = which → q = p := by
  induction fuel generalizing m with
  | zero => exact absurd h.symm (Option.some_ne_none r)
  | succ fuel ih =>
    by_cases hsig : HasSignature d m
    · rw [get_of_hasSignature hsig] at h
      rcases getLoop_spec d m.sector which (m.table d) m.num with
        ⟨p, hp, hnum, hget⟩ | ⟨hnone, hget⟩
      · rw [hget] at h
        refine .inr ⟨p, chained_iff.mpr (.inl ⟨hsig, hp⟩), hnum, (Option.some.inj h).symm, ?_⟩
        intro q hq hqnum
        rcases chained_iff.mp hq with ⟨-, hq⟩ | ⟨m', ⟨-, pt, -, rfl⟩, hq⟩
        · exact partsOf_num_inj hq hp (by omega)
        · -- The numbers of the tables below are greater.
          have hle : numAfter m.sector (m.table d) m.num ≤ q.num := le_num_of_chained hq
          have hlt := (num_of_mem_partsOf hp).2
          omega
      · rw [hget] at h
        have hhere (p : Part) (hp : p ∈ m.parts d) : (p.num : ℤ) ≠ which := hnone p hp
        cases hextended : m.extended d with
        | nil =>
          rw [hextended] at h
          refine .inl ⟨(Option.some.inj h).symm, fun p hp => ?_⟩
          rcases chained_iff.mp hp with ⟨-, hp⟩ | ⟨m', ⟨-, pt, hpt, -⟩, -⟩
          · exact hhere p hp
          · rw [hextended] at hpt
            exact absurd hpt.symm (Option.some_ne_none pt)
        | cons pt pts =>
          rw [hextended] at h
          have hnext {p : Part} (hp : Chained d m p) (hnum : (p.num : ℤ) = which) :
              Chained d (m.below d pt) p := by
            rcases chained_iff.mp hp with ⟨-, hp⟩ | ⟨m', ⟨-, pt', hpt', rfl⟩, hp⟩
            · exact absurd hnum (hhere p hp)
            · rw [hextended] at hpt'
              rwa [Option.some.inj hpt']
          have hback {p : Part} (hp : Chained d (m.below d pt) p) : Chained d m p :=
            chained_iff.mpr (.inr ⟨_, ⟨hsig, pt, by rw [hextended]; rfl, rfl⟩, hp⟩)
          rcases @ih (m.below d pt) h with ⟨hr, hnot⟩ | ⟨p, hp, hnum, hr, hunique⟩
          · exact .inl ⟨hr, fun p hp hnum => hnot p (hnext hp hnum) hnum⟩
          · exact .inr ⟨p, hback hp, hnum, hr, fun q hq hqnum => hunique q (hnext hq hqnum) hqnum⟩
    · rw [get_of_not_hasSignature hsig] at h
      refine .inl ⟨(Option.some.inj h).symm, fun p hp => ?_⟩
      rcases chained_iff.mp hp with ⟨hyes, -⟩ | ⟨m', ⟨hyes, -⟩, -⟩
      · exact absurd hyes hsig
      · exact absurd hyes hsig

theorem getPartitionInfoDos_spec {fuel : ℕ} {which : ℤ} {r : Option DiskPartition}
    (h : getPartitionInfoDos d fuel which = some r) :
    (r = none ∧ ∀ p, Chained d .root p → (p.num : ℤ) ≠ which) ∨
      ∃ p, Chained d .root p ∧ (p.num : ℤ) = which ∧ r = some (infoOf d p) ∧
        ∀ q, Chained d .root q → (q.num : ℤ) = which → q = p :=
  @getPartitionInfo_spec d .root fuel which r h

/-! ## When they agree -/

/-- The walks end. -/
structure Ends (d : BlockDev) : Prop where
  print : ∃ fuel lines, printPartDos d fuel = some lines
  get : ∀ n, ∃ fuel r, getPartitionInfoDos d fuel n = some r

/-- A partition that is printed with a number is returned for it, and one is returned only for the
numbers that are printed. -/
structure Agree (d : BlockDev) : Prop where
  returned : ∀ fuel lines, printPartDos d fuel = some lines → ∀ p, ListsPart lines p →
    ∃ fuel', getPartitionInfoDos d fuel' p.num = some (some (infoOf d p))
  listed : ∀ fuel lines, printPartDos d fuel = some lines → ∀ fuel' n info,
    getPartitionInfoDos d fuel' n = some (some info) → ∃ p, ListsPart lines p ∧ (p.num : ℤ) = n

/-- A partition table that both walks reach: through the first extended entries of partition
tables. -/
def Main (d : BlockDev) (m : Node) : Prop :=
  ReflTransGen (fun m m' => IsMbr d m ∧ Next d m m') .root m ∧ IsMbr d m

/-- **When the two agree.**

What stands in a table that only the walk that prints reaches, through an extended entry that is not
the first, stands with the same number in a table that the other reaches; and what stands in a
sector that only the walk that looks up reads as a table is printed. -/
structure SameParts (d : BlockDev) : Prop where
  laterEntries : ∀ m, ReflTransGen (Child d) .root m → IsMbr d m → ¬Main d m →
    ∀ p ∈ m.parts d, Chained d .root p
  fileSystems : ∀ m, ReflTransGen (Next d) .root m → HasSignature d m → ¬Main d m →
    ∀ p ∈ m.parts d, Printed d .root p

theorem infoOf_inj {p q : Part} (hnum : p.num = q.num) (h : infoOf d p = infoOf d q) : p = q := by
  obtain ⟨-, hstart, hsize, -, -⟩ := DiskPartition.mk.inj h
  cases p
  cases q
  obtain rfl : _ = _ := hnum
  obtain rfl : _ = _ := hstart
  obtain rfl : _ = _ := hsize
  rfl

theorem Next.child {m' : Node} (hmbr : IsMbr d m) (h : Next d m m') : Child d m m' := by
  obtain ⟨-, pt, hpt, rfl⟩ := h
  exact ⟨hmbr, pt, List.mem_of_mem_head? hpt, rfl⟩

theorem Main.printed (h : Main d m) (hp : p ∈ m.parts d) : Printed d .root p :=
  ⟨m, h.1.lift id fun _ _ hstep => hstep.2.child hstep.1, h.2, hp⟩

theorem Main.chained (h : Main d m) (hp : p ∈ m.parts d) : Chained d .root p :=
  ⟨m, h.1.lift id fun _ _ hstep => hstep.2, h.2.hasSignature, hp⟩

theorem agree_iff_printed_iff_chained (hends : Ends d) :
    Agree d ↔ ∀ p, Printed d .root p ↔ Chained d .root p := by
  obtain ⟨⟨fuel, lines, hprint⟩, hget⟩ := hends
  have hlists {fuel : ℕ} {lines : List Line} (h : printPartDos d fuel = some lines) (p : Part) :
      ListsPart lines p ↔ Printed d .root p := listsPart_iff_printed h
  -- What is returned for the number of a partition that is printed.
  have hreturned (hagree : Agree d) {p : Part} (hp : Printed d .root p) :
      Chained d .root p ∧ ∀ q, Chained d .root q → (q.num : ℤ) = p.num → q = p := by
    obtain ⟨fuel', hfound⟩ := hagree.returned fuel lines hprint p ((hlists hprint p).mpr hp)
    rcases getPartitionInfoDos_spec hfound with ⟨hnone, -⟩ | ⟨q, hq, hnum, hinfo, hunique⟩
    · exact absurd hnone (Option.some_ne_none _)
    · obtain rfl := infoOf_inj (Int.ofNat_inj.mp hnum).symm (Option.some.inj hinfo)
      exact ⟨hq, hunique⟩
  constructor
  · intro hagree p
    refine ⟨fun hp => (hreturned hagree hp).1, fun hp => ?_⟩
    obtain ⟨fuel', r, hr⟩ := hget p.num
    rcases getPartitionInfoDos_spec hr with ⟨-, hnone⟩ | ⟨q, -, -, rfl, -⟩
    · exact absurd rfl (hnone p hp)
    · obtain ⟨p', hp', hnum⟩ := hagree.listed fuel lines hprint fuel' p.num _ hr
      have hprinted := (hlists hprint p').mp hp'
      obtain rfl := (hreturned hagree hprinted).2 p hp hnum.symm
      exact hprinted
  · intro hsame
    refine ⟨fun fuel₁ lines₁ hprint₁ p hp => ?_, fun fuel₁ lines₁ hprint₁ fuel' n info hinfo => ?_⟩
    · have hchained := (hsame p).mp ((hlists hprint₁ p).mp hp)
      obtain ⟨fuel', r, hr⟩ := hget p.num
      rcases getPartitionInfoDos_spec hr with ⟨-, hnone⟩ | ⟨q, -, -, rfl, hunique⟩
      · exact absurd rfl (hnone p hchained)
      · rw [← hunique p hchained rfl] at hr
        exact ⟨fuel', hr⟩
    · rcases getPartitionInfoDos_spec hinfo with ⟨hnone, -⟩ | ⟨q, hq, hnum, -, -⟩
      · exact absurd hnone (Option.some_ne_none _)
      · exact ⟨q, (hlists hprint₁ q).mpr ((hsame q).mpr hq), hnum⟩

/-- **Exactly when the two agree.** -/
theorem agree_iff (d : BlockDev) (hends : Ends d) : Agree d ↔ SameParts d := by
  rw [agree_iff_printed_iff_chained hends]
  constructor
  · intro hsame
    exact ⟨fun m hwalk hmbr _ p hp => (hsame p).mp ⟨m, hwalk, hmbr, hp⟩,
      fun m hwalk hsig _ p hp => (hsame p).mpr ⟨m, hwalk, hsig, hp⟩⟩
  · intro hsame p
    constructor
    · rintro ⟨m, hwalk, hmbr, hp⟩
      by_cases hmain : Main d m
      · exact hmain.chained hp
      · exact hsame.laterEntries m hwalk hmbr hmain p hp
    · rintro ⟨m, hwalk, hsig, hp⟩
      by_cases hmain : Main d m
      · exact hmain.printed hp
      · exact hsame.fileSystems m hwalk hsig hmain p hp

theorem sameParts_of_simple
    (hone : ∀ m, ReflTransGen (Child d) .root m → (m.extended d).length ≤ 1)
    (hmbr : ∀ m, ReflTransGen (Next d) .root m → HasSignature d m → IsMbr d m) :
    SameParts d := by
  have hprint (m : Node) (hwalk : ReflTransGen (Child d) .root m) :
      ReflTransGen (fun m m' => IsMbr d m ∧ Next d m m') .root m := by
    induction hwalk with
    | refl => exact .refl
    | @tail b c hwalk hchild ih =>
      obtain ⟨hb, pt, hpt, rfl⟩ := hchild
      have hhead : (b.extended d).head? = some pt := by
        obtain ⟨pt', hsingle⟩ := List.length_eq_one_iff.mp
          (Nat.le_antisymm (hone b hwalk) (List.length_pos_of_mem hpt))
        rw [hsingle] at hpt ⊢
        rw [List.mem_singleton.mp hpt]
        rfl
      exact ih.tail ⟨hb, hb.hasSignature, pt, hhead, rfl⟩
  have hlook (m : Node) (hwalk : ReflTransGen (Next d) .root m) :
      ReflTransGen (fun m m' => IsMbr d m ∧ Next d m m') .root m := by
    induction hwalk with
    | refl => exact .refl
    | tail hwalk hnext ih => exact ih.tail ⟨hmbr _ hwalk hnext.1, hnext⟩
  exact ⟨fun m hwalk hm hnot => absurd ⟨hprint m hwalk, hm⟩ hnot,
    fun m hwalk hsig hnot => absurd ⟨hlook m hwalk, hmbr m hwalk hsig⟩ hnot⟩

/-! ## Disks -/

theorem get_ends_of_nil (hnil : m.extended d = []) (which : ℤ) :
    ∃ r, getPartitionInfoExtended d 1 m.sector m.relative m.num which = some r := by
  by_cases hsig : HasSignature d m
  · rw [get_of_hasSignature hsig, hnil]
    rcases getLoop_spec d m.sector which (m.table d) m.num with ⟨p, -, -, hget⟩ | ⟨-, hget⟩
    · rw [hget]
      exact ⟨_, rfl⟩
    · rw [hget]
      exact ⟨none, rfl⟩
  · exact ⟨none, get_of_not_hasSignature hsig 0 which⟩

theorem get_ends_of_cons {pt : DosPartition} {pts : List DosPartition} {fuel : ℕ}
    (hcons : m.extended d = pt :: pts) (which : ℤ)
    (hbelow : ∃ r, getPartitionInfoExtended d fuel (m.below d pt).sector (m.below d pt).relative
      (m.below d pt).num which = some r) :
    ∃ r, getPartitionInfoExtended d (fuel + 1) m.sector m.relative m.num which = some r := by
  by_cases hsig : HasSignature d m
  · rw [get_of_hasSignature hsig, hcons]
    rcases getLoop_spec d m.sector which (m.table d) m.num with ⟨p, -, -, hget⟩ | ⟨-, hget⟩
    · rw [hget]
      exact ⟨_, rfl⟩
    · rw [hget]
      exact hbelow
  · exact ⟨none, get_of_not_hasSignature hsig fuel which⟩

/-- A sector with a table whose entries have a type, a start and a size below 256. -/
def tableSector (entries : List (UInt8 × UInt8 × UInt8)) : ℕ → UInt8 := fun i =>
  if i = 0x1fe then 0x55
  else if i = 0x1ff then 0xaa
  else if i < 0x1be then 0
  else
    let e := entries.getD ((i - 0x1be) / 16) (0, 0, 0)
    if (i - 0x1be) % 16 = 4 then e.1
    else if (i - 0x1be) % 16 = 8 then e.2.1
    else if (i - 0x1be) % 16 = 12 then e.2.2
    else 0

/-- A disk with two extended partitions, each with one partition. -/
def twoDisk : BlockDev where
  ifType := .usb
  dev := 0
  lba := 100
  blockRead sector :=
    if sector = 0 then some (tableSector [(0x5, 10, 10), (0x5, 20, 10)])
    else if sector = 10 then some (tableSector [(0x83, 1, 5)])
    else if sector = 20 then some (tableSector [(0x83, 2, 7)])
    else none

theorem printPartDos_twoDisk : printPartDos twoDisk 2 =
    some [.part 1 10 10 0x5, .part 2 20 10 0x5, .part 5 11 5 0x83, .part 5 22 7 0x83] := by
  rfl

theorem ends_twoDisk : Ends twoDisk := by
  refine ⟨⟨2, _, printPartDos_twoDisk⟩, fun n => ⟨2, ?_⟩⟩
  exact get_ends_of_cons (m := .root) rfl n (get_ends_of_nil (m := ⟨10, 10, 5⟩) rfl n)

theorem agree_iff_twoDisk : Agree twoDisk ↔ SameParts twoDisk := agree_iff twoDisk ends_twoDisk

/-- Two partitions are printed with the number 5, and the second is not returned for it. -/
theorem not_agree : ¬ ∀ d, Ends d → Agree d := by
  intro hall
  have hget : getPartitionInfoDos twoDisk 2 5 = some (some (infoOf twoDisk ⟨5, 11, 5⟩)) := by rfl
  obtain ⟨fuel, hsecond⟩ := (hall twoDisk ends_twoDisk).returned 2 _ printPartDos_twoDisk ⟨5, 22, 7⟩
    ⟨0x83, by decide, by simp⟩
  rcases getPartitionInfoDos_spec hget with ⟨hnone, -⟩ | ⟨p, hp, hnum, hinfo, -⟩
  · exact absurd hnone (Option.some_ne_none _)
  · rcases getPartitionInfoDos_spec hsecond with ⟨hnone, -⟩ | ⟨q, -, -, hinfo', hunique⟩
    · exact absurd hnone (Option.some_ne_none _)
    · have hsame : infoOf twoDisk ⟨5, 22, 7⟩ = infoOf twoDisk ⟨5, 11, 5⟩ := by
        rw [Option.some.inj hinfo', Option.some.inj hinfo, hunique p hp hnum]
      exact absurd (DiskPartition.mk.inj hsame).2.1 (by decide)

end Disk
end EmevBsp
