import EmevBsp.Ext2.IterateDir
import Mathlib.Data.List.TakeWhile

/-!
# When a directory is searched to its end

A record of length 0 is visited again and again, and a record that leaves the directory is read
from what is behind it.  A deleted entry is compared like any other; if it does not say its type,
the search ends when inode 0 cannot be read.

* `Dir.Passed`: the positions that the search comes to.
* `returns_of_sound`, `sound_of_returns`: a call returns if the records on the way are sound.
* `Undisturbed`: no deleted entry is in the way of the name.
* `iterateDir_fileReader`: the search with `ext2fs_read_file`.
* `iteratesRight_iff`: **when a directory is searched as it should be**.
-/

namespace EmevBsp
namespace Ext2

variable {σ : Type} {r : Reader σ} {d : Dir} {I : σ → Prop} {s : σ} {name : Option (List UInt8)}

/-! ## The way of the search -/

/-- The positions that the search comes to, if nothing fails. -/
inductive Dir.Passed (d : Dir) (name : Option (List UInt8)) : ℕ → Prop
  | start : Passed d name 0
  | next {p : ℕ} (h : Passed d name p) (hlt : p < d.size.toNat) (hin : d.Inside p)
      (hstops : ¬ d.Stops name p) : Passed d name (p + (d.direntAt p).direntlen.toNat)

/-- A record is in the directory, and the search ends with it or goes on behind it. -/
structure Dir.Sound (d : Dir) (name : Option (List UInt8)) (p : ℕ) : Prop where
  inside : d.Inside p
  moves : (d.direntAt p).direntlen.toNat = 0 → d.Stops name p

theorem search_of_ends {fuel : ℕ} {size fpos : BitVec 32} {outcome : DirOutcome}
    (hlt : fpos < size) (hvisit : (visit r name fpos s).2 = .ends outcome) :
    search r size name (fuel + 1) fpos s = some outcome := by
  rw [search, if_pos hlt]
  rcases hv : visit r name fpos s with ⟨t, v⟩
  rw [hv] at hvisit
  cases hvisit
  rfl

theorem search_of_goes {fuel : ℕ} {size fpos : BitVec 32} {direntlen : BitVec 16}
    {line : Option DirLine} (hlt : fpos < size)
    (hvisit : (visit r name fpos s).2 = .goes direntlen line) :
    search r size name (fuel + 1) fpos s =
      (search r size name fuel (fpos + direntlen.setWidth 32) (visit r name fpos s).1).map
        (DirOutcome.print line) := by
  rw [search, if_pos hlt]
  rcases hv : visit r name fpos s with ⟨t, v⟩
  rw [hv] at hvisit
  cases hvisit
  rfl

theorem search_of_le {fuel : ℕ} {size fpos : BitVec 32} (hle : ¬ fpos < size) :
    search r size name (fuel + 1) fpos s = some notFound := by
  rw [search, if_neg hle]

theorem map_print_eq_returned {o : Option DirOutcome} {line : Option DirLine}
    {lines : List DirLine} {found : Option (Node × FileType)} :
    o.map (DirOutcome.print line) = some (.returned lines found) ↔
      ∃ rest, o = some (.returned rest found) ∧ lines = line.toList ++ rest := by
  constructor
  · intro h
    obtain ⟨a, ha, hprint⟩ := Option.map_eq_some_iff.mp h
    cases a with
    | returned rest found' =>
      obtain ⟨hlines, hfound⟩ := DirOutcome.returned.inj hprint
      exact ⟨rest, by rw [ha, hfound], hlines.symm⟩
    | overrun => cases hprint
  · rintro ⟨rest, rfl, rfl⟩
    rfl

theorem search_step (hserves : Serves r d I) (hs : I s) {fpos : BitVec 32} {p : ℕ}
    (hpos : fpos.toNat = p) (hlt : p < d.size.toNat) (hin : d.Inside p) {fuel : ℕ}
    {lines : List DirLine} {found : Option (Node × FileType)}
    (hreturns : search r d.size name fuel fpos s = some (.returned lines found)) :
    (CanFail r d I name p ∧ found = none) ∨
      (d.Stops name p ∧
        ∃ inode, found = some (⟨(d.direntAt p).inode, inode⟩, (d.recordAt p).type d)) ∨
      (¬ d.Stops name p ∧ I (visit r name fpos s).1 ∧
        (∃ line, (visit r name fpos s).2 = .goes (d.direntAt p).direntlen line) ∧
        ∃ fuel rest, search r d.size name fuel (fpos + (d.direntAt p).direntlen.setWidth 32)
          (visit r name fpos s).1 = some (.returned rest found)) := by
  cases fuel with
  | zero => cases hreturns
  | succ fuel =>
    have hlt' : fpos < d.size := BitVec.lt_def.mpr (hpos ▸ hlt)
    obtain ⟨hI, hvisited⟩ := visit_spec name hserves hs hpos hin
    rcases hv : (visit r name fpos s).2 with outcome | ⟨direntlen, line⟩
    · rw [search_of_ends hlt' hv] at hreturns
      obtain rfl := Option.some.inj hreturns
      rw [hv] at hvisited
      cases hvisited with
      | fails hfails => exact .inl ⟨hfails, rfl⟩
      | found inode hstops => exact .inr (.inl ⟨hstops, inode, rfl⟩)
    · rw [search_of_goes hlt' hv] at hreturns
      obtain ⟨rest, hreturns, -⟩ := map_print_eq_returned.mp hreturns
      rw [hv] at hvisited
      cases hvisited with
      | goes line hstops => exact .inr (.inr ⟨hstops, hI, ⟨line, rfl⟩, fuel, rest, hreturns⟩)

theorem iterateDir_eq_search (name : Option (List UInt8)) (hserves : Serves r d I) (hs : I s) :
    (d.node.inode = none ∧ (r.readInode s d.node.ino).2 = none ∧
      ∀ fuel, iterateDir r d.node name fuel s = some notFound) ∨
    ∃ t, I t ∧ ∀ fuel, iterateDir r d.node name fuel s = search r d.size name fuel 0 t := by
  cases hinode : d.node.inode with
  | some inode =>
    refine .inr ⟨s, hs, fun fuel => ?_⟩
    rw [iterateDir, Dir.size, hinode]
    rfl
  | none =>
    obtain ⟨hI, hread⟩ := hserves.readInode hs d.node.ino
    rcases hr : r.readInode s d.node.ino with ⟨t, _ | inode⟩
    · refine .inl ⟨rfl, rfl, fun fuel => ?_⟩
      rw [iterateDir, hinode]
      dsimp only
      rw [hr]
    · rw [hr] at hI hread
      refine .inr ⟨t, hI, fun fuel => ?_⟩
      rcases hread with hread | hread
      · cases hread
      rw [iterateDir, Dir.size, hinode, ← Option.some.inj hread]
      dsimp only
      rw [hr]
      rfl

/-! ## Calls that return -/

theorem search_returns (hserves : Serves r d I)
    (hsound : ∀ p, d.Passed name p → p < d.size.toNat → d.Sound name p) {k p : ℕ}
    (hpassed : d.Passed name p) (hk : d.size.toNat - p < k) (hs : I s) {fpos : BitVec 32}
    (hpos : fpos.toNat = p) :
    ∃ fuel lines found, search r d.size name fuel fpos s = some (.returned lines found) := by
  induction k generalizing p s fpos with
  | zero => exact absurd hk (Nat.not_lt_zero _)
  | succ k ih =>
    by_cases hlt : fpos < d.size
    swap
    · exact ⟨1, [], none, search_of_le hlt⟩
    have hlt' : p < d.size.toNat := hpos ▸ BitVec.lt_def.mp hlt
    have hrecord := hsound p hpassed hlt'
    obtain ⟨hI, hvisited⟩ := visit_spec name hserves hs hpos hrecord.inside
    rcases hv : (visit r name fpos s).2 with outcome | ⟨direntlen, line⟩
    · rw [hv] at hvisited
      cases hvisited with
      | fails hfails => exact ⟨1, [], none, search_of_ends hlt hv⟩
      | found inode hstops => exact ⟨1, [], _, search_of_ends hlt hv⟩
    · rw [hv] at hvisited
      cases hvisited with
      | goes line hstops =>
        have hmoves : (d.direntAt p).direntlen.toNat ≠ 0 := fun h => hstops (hrecord.moves h)
        obtain ⟨fuel, lines, found, hrest⟩ := ih (.next hpassed hlt' hrecord.inside hstops)
          (by omega) hI (toNat_next hpos hrecord.inside)
        refine ⟨fuel + 1, line.toList ++ lines, found, ?_⟩
        rw [search_of_goes hlt hv]
        exact map_print_eq_returned.mpr ⟨lines, hrest, rfl⟩

theorem returns_of_sound (hsound : ∀ p, d.Passed name p → p < d.size.toNat → d.Sound name p)
    (hserves : Serves r d I) (hs : I s) :
    ∃ fuel lines found, iterateDir r d.node name fuel s = some (.returned lines found) := by
  rcases iterateDir_eq_search name hserves hs with ⟨-, -, hfails⟩ | ⟨t, ht, hsearch⟩
  · exact ⟨0, [], none, hfails 0⟩
  · have hzero : (0 : BitVec 32).toNat = 0 := rfl
    obtain ⟨fuel, lines, found, hreturns⟩ :=
      search_returns hserves hsound .start (Nat.lt_succ_self _) ht hzero
    exact ⟨fuel, lines, found, (hsearch fuel).trans hreturns⟩

/-! ## A reader that never fails -/

/-- The directory and nothing else is read; inode 0 is there, or it is not, except for the first
inode if the state is `true`. -/
def dirReader (d : Dir) (zero : Bool) : Reader Bool where
  readFile s pos len :=
    if pos.toNat + len ≤ d.limit then (s, .fills (stretch d.bytes pos.toNat len))
    else (s, .overruns)
  readInode s ino :=
    if ino = 0 ∧ zero = false ∧ s = false then (s, none) else (false, some (d.inodes ino))
  malloc s := (s, true)

/-- The first inode that is read is that of the directory, if it is not known. -/
def Dir.start (d : Dir) : Bool := d.node.inode.isNone

theorem dirReader_readFile {zero s : Bool} {pos : BitVec 32} {len : ℕ}
    (hin : pos.toNat + len ≤ d.limit) :
    (dirReader d zero).readFile s pos len = (s, .fills (stretch d.bytes pos.toNat len)) :=
  if_pos hin

theorem dirReader_readInode {zero s : Bool} {ino : BitVec 32}
    (h : ¬ (ino = 0 ∧ zero = false ∧ s = false)) :
    (dirReader d zero).readInode s ino = (false, some (d.inodes ino)) :=
  if_neg h

theorem serves_dirReader (d : Dir) (zero : Bool) : Serves (dirReader d zero) d fun _ => True where
  readFile := fun {_} _ {_ _} _ _ hin => ⟨trivial, .inr (by rw [dirReader_readFile hin])⟩
  readInode := by
    intro s _ ino
    refine ⟨trivial, ?_⟩
    by_cases h : ino = 0 ∧ zero = false ∧ s = false
    · exact .inl (congrArg Prod.snd (if_pos h))
    · exact .inr (by rw [dirReader_readInode h])
  malloc _ := trivial

theorem neverFails_dirReader (d : Dir) (zero : Bool) :
    NeverFails (dirReader d zero) d (fun _ => True) d.start where
  own hnone := by
    rw [dirReader_readInode]
    · nofun
    · rw [Dir.start, hnone]
      nofun
  readFile := by
    intro s _ pos len _ _ hin
    rw [dirReader_readFile hin]
    nofun
  readInode := by
    intro s _ ino hne
    rw [dirReader_readInode fun h => hne h.1]
    nofun
  malloc _ := rfl

theorem canFail_dirReader {zero : Bool} {p : ℕ}
    (h : CanFail (dirReader d zero) d (fun _ => True) name p) :
    zero = false ∧ (d.direntAt p).inode = 0 := by
  cases h with
  | @readFile t pos len ht hpos hlen hin hfails =>
    rw [dirReader_readFile hin] at hfails
    cases hfails
  | malloc ht hfails => cases hfails
  | @readInode t ht hnamed hneeded hfails =>
    by_cases h : (d.direntAt p).inode = 0 ∧ zero = false ∧ t = false
    · exact ⟨h.2.1, h.1⟩
    · rw [dirReader_readInode h] at hfails
      cases hfails

/-! ## Calls that do not return -/

/-- A search from a position never returns. -/
def Dir.Lost (d : Dir) (name : Option (List UInt8)) (p : ℕ) : Prop :=
  ∀ (fpos : BitVec 32) (s : Bool) (fuel : ℕ) (lines : List DirLine)
    (found : Option (Node × FileType)), fpos.toNat = p →
      search (dirReader d true) d.size name fuel fpos s ≠ some (.returned lines found)

theorem visit_goes {p : ℕ} {fpos : BitVec 32} {s : Bool} (hpos : fpos.toNat = p)
    (hin : d.Inside p) (hstops : ¬ d.Stops name p) :
    ∃ line, (visit (dirReader d true) name fpos s).2 = .goes (d.direntAt p).direntlen line := by
  obtain ⟨-, hvisited⟩ := visit_spec name (s := s) (serves_dirReader d true)
    trivial hpos hin
  rcases hv : (visit (dirReader d true) name fpos s).2 with outcome | ⟨direntlen, line⟩
  · rw [hv] at hvisited
    cases hvisited with
    | fails hfails => exact absurd (canFail_dirReader hfails).1 Bool.noConfusion
    | found inode hfound => exact absurd hfound hstops
  · rw [hv] at hvisited
    cases hvisited with
    | goes line => exact ⟨line, rfl⟩

theorem visit_overrun {p : ℕ} {fpos : BitVec 32} {s : Bool} (hpos : fpos.toNat = p)
    (hin : ¬ d.Inside p) : (visit (dirReader d true) name fpos s).2 = .ends .overrun := by
  rw [visit]
  by_cases hheader : fpos.toNat + 8 ≤ d.limit
  swap
  · have hread : (dirReader d true).readFile s fpos 8 = (s, .overruns) := if_neg hheader
    rw [hread]
  rw [dirReader_readFile hheader, hpos]
  change (visitDirent (dirReader d true) name fpos (d.direntAt p) s).2 = _
  have hnext : (fpos + 8).toNat = p + 8 := toNat_add_eight hpos (hpos ▸ hheader)
  have hnamed : (d.direntAt p).namelen ≠ 0 := by
    intro hzero
    apply hin
    rw [Dir.Inside, hzero, ← hpos]
    exact hheader
  have hread : (dirReader d true).readFile s (fpos + 8) (d.direntAt p).namelen.toNat =
      (s, .overruns) := if_neg (by rwa [hnext])
  rw [visitDirent, if_pos hnamed, hread]

theorem lost_of_not_sound {p : ℕ} (hlt : p < d.size.toNat) (hsound : ¬ d.Sound name p) :
    d.Lost name p := by
  intro fpos s fuel lines found hpos hreturns
  have hlt' : fpos < d.size := BitVec.lt_def.mpr (hpos ▸ hlt)
  by_cases hin : d.Inside p
  · have hstays : ¬ ((d.direntAt p).direntlen.toNat = 0 → d.Stops name p) :=
      fun h => hsound ⟨hin, h⟩
    obtain ⟨hzero, hstops⟩ := Classical.not_imp.mp hstays
    induction fuel generalizing fpos s lines with
    | zero => cases hreturns
    | succ fuel ih =>
      obtain ⟨line, hgoes⟩ := visit_goes (s := s) hpos hin hstops
      rw [search_of_goes hlt' hgoes] at hreturns
      obtain ⟨rest, hrest, -⟩ := map_print_eq_returned.mp hreturns
      have hpos' := toNat_next hpos hin
      rw [hzero] at hpos'
      exact ih _ _ _ hpos' hrest (BitVec.lt_def.mpr (hpos' ▸ hlt))
  · cases fuel with
    | zero => cases hreturns
    | succ fuel =>
      rw [search_of_ends hlt' (visit_overrun hpos hin)] at hreturns
      cases hreturns

theorem lost_of_passed {p : ℕ} (hpassed : d.Passed name p) (hlost : d.Lost name p) :
    d.Lost name 0 := by
  induction hpassed with
  | start => exact hlost
  | next hpassed hlt hin hstops ih =>
    refine ih fun fpos s fuel lines found hpos hreturns => ?_
    cases fuel with
    | zero => cases hreturns
    | succ fuel =>
      obtain ⟨line, hgoes⟩ := visit_goes (s := s) hpos hin hstops
      rw [search_of_goes (BitVec.lt_def.mpr (hpos ▸ hlt)) hgoes] at hreturns
      obtain ⟨rest, hrest, -⟩ := map_print_eq_returned.mp hreturns
      exact hlost _ _ _ _ _ (toNat_next hpos hin) hrest

theorem iterateDir_dirReader {zero : Bool} (fuel : ℕ) :
    iterateDir (dirReader d zero) d.node name fuel d.start =
      search (dirReader d zero) d.size name fuel 0 false := by
  cases hinode : d.node.inode with
  | some inode =>
    rw [iterateDir, Dir.size, Dir.start, hinode]
    rfl
  | none =>
    have hread : (dirReader d zero).readInode d.start d.node.ino =
        (false, some (d.inodes d.node.ino)) := by
      refine dirReader_readInode ?_
      rw [Dir.start, hinode]
      nofun
    rw [iterateDir, Dir.size, hinode]
    dsimp only
    rw [hread]
    rfl

theorem sound_of_returns {fuel : ℕ} {lines : List DirLine} {found : Option (Node × FileType)}
    (h : iterateDir (dirReader d true) d.node name fuel d.start = some (.returned lines found)) :
    ∀ p, d.Passed name p → p < d.size.toNat → d.Sound name p := by
  intro p hpassed hlt
  by_contra hsound
  rw [iterateDir_dirReader] at h
  exact lost_of_passed hpassed (lost_of_not_sound hlt hsound) 0 _ _ _ _ rfl h

/-! ## Well-formed directories -/

/-- No deleted entry is in the way of a name: none has it, unless a live entry before it has it, and
none without a type is before the live entry that has it. -/
structure Undisturbed (rs : List Record) (n : List UInt8) : Prop where
  byName : ∀ {before rec behind}, rs = before ++ rec :: behind → ¬ rec.Live → rec.Named →
    cString rec.filename = n → ∃ a ∈ before, a.Live ∧ a.filename = n
  byType : ∀ {before rec behind}, rs = before ++ rec :: behind → ¬ rec.Live → rec.Named →
    rec.dirent.filetype = 0 → ∀ a ∈ behind, a.Live → a.filename ≠ n

theorem cString_of_not_mem {l : List UInt8} (h : 0 ∉ l) : cString l = l := by
  refine List.takeWhile_eq_self_iff.mpr fun b hb => decide_eq_true ?_
  rintro rfl
  exact h hb

theorem Dir.RecordsAt.le_size {p : ℕ} {rs : List Record} (h : d.RecordsAt p rs) :
    p ≤ d.size.toNat := by
  induction h with
  | nil hend => exact hend.le
  | cons hlen _ ih => omega

theorem inside_of_records (hsize : d.size.toNat ≤ 2 ^ 31) {p : ℕ} {rs : List Record}
    (hlen : 8 + (d.direntAt p).namelen.toNat ≤ (d.direntAt p).direntlen.toNat)
    (hrest : d.RecordsAt (p + (d.direntAt p).direntlen.toNat) rs) :
    d.Inside p ∧ p < d.size.toNat := by
  have hend := hrest.le_size
  have hlimit : d.limit = d.size.toNat := Nat.min_eq_left hsize
  constructor
  · rw [Dir.Inside, hlimit]
    omega
  · omega

theorem answers_of_mem {rec : Record} {rs : List Record} {n : List UInt8} {node : Node}
    (hmem : rec ∈ rs) (hlive : rec.Live) (hname : rec.filename = n)
    (hino : node.ino = rec.dirent.inode) : Answers d rs n (some (node, rec.type d)) where
  isSome_iff := iff_of_true rfl ⟨rec, hmem, hlive, hname⟩
  entry node' type' h := by
    obtain ⟨rfl, rfl⟩ := Prod.mk.inj (Option.some.inj h)
    exact ⟨rec, hmem, hlive, hname, hino, rfl⟩

theorem answers_none {rs : List Record} {n : List UInt8}
    (h : ∀ a ∈ rs, a.Live → a.filename ≠ n) : Answers d rs n none where
  isSome_iff := by
    refine iff_of_false Bool.false_ne_true ?_
    rintro ⟨a, ha, hlive, hname⟩
    exact h a ha hlive hname
  entry _ _ h := by cases h

theorem Answers.cons {rec : Record} {rs : List Record} {n : List UInt8}
    {found : Option (Node × FileType)} (h : Answers d rs n found)
    (hrec : rec.Live → rec.filename ≠ n) : Answers d (rec :: rs) n found where
  isSome_iff := by
    rw [h.isSome_iff]
    constructor
    · rintro ⟨a, ha, hrest⟩
      exact ⟨a, List.mem_cons_of_mem rec ha, hrest⟩
    · rintro ⟨a, ha, hlive, hname⟩
      rcases List.mem_cons.mp ha with rfl | ha
      · exact absurd hname (hrec hlive)
      · exact ⟨a, ha, hlive, hname⟩
  entry node type hfound := by
    obtain ⟨a, ha, hrest⟩ := h.entry node type hfound
    exact ⟨a, List.mem_cons_of_mem rec ha, hrest⟩

theorem search_answers (hserves : Serves r d I) {s₀ : σ} (hnever : NeverFails r d I s₀)
    {all : List Record} (hwf : d.WellFormed all) {n : List UInt8} (hfree : Undisturbed all n)
    {before rs : List Record} (hall : all = before ++ rs) {p : ℕ} (hrecords : d.RecordsAt p rs)
    (hbefore : ∀ a ∈ before, a.Live → a.filename ≠ n) (hs : I s) {fpos : BitVec 32}
    (hpos : fpos.toNat = p) {fuel : ℕ} {lines : List DirLine} {found : Option (Node × FileType)}
    (hreturns : search r d.size (some n) fuel fpos s = some (.returned lines found)) :
    Answers d rs n found := by
  induction hrecords generalizing before s fpos fuel lines with
  | @nil p hend =>
    cases fuel with
    | zero => cases hreturns
    | succ fuel =>
      have hle : ¬ fpos < d.size := by
        rw [BitVec.lt_def, hpos, hend]
        exact Nat.lt_irrefl _
      rw [search_of_le hle] at hreturns
      obtain ⟨-, rfl⟩ := DirOutcome.returned.inj (Option.some.inj hreturns)
      exact answers_none fun a ha => absurd ha List.not_mem_nil
  | @cons p rs hlen hrest ih =>
    obtain ⟨hin, hlt⟩ := inside_of_records hwf.size_le hlen hrest
    have hmem : (⟨d.direntAt p, d.filenameAt p⟩ : Record) ∈ all := by
      rw [hall]
      exact List.mem_append_right before List.mem_cons_self
    rcases search_step hserves hs hpos hlt hin hreturns with
      ⟨hfails, rfl⟩ | ⟨⟨hnamed, hname⟩, inode, rfl⟩ | ⟨hstops, hI, -, fuel', rest, hreturns'⟩
    · cases hfails with
      | readFile ht hpos hlen hin hfails =>
        exact absurd hfails (hnever.readFile ht hpos hlen hin)
      | malloc ht hfails => exact Bool.noConfusion ((hnever.malloc ht).symm.trans hfails)
      | readInode ht hnamed hneeded hfails =>
        -- a deleted entry that does not say its type
        have hdead : ¬ (d.recordAt p).Live := fun hlive => hnever.readInode ht hlive hfails
        have htype := hneeded.resolve_right (Option.some_ne_none n)
        refine answers_none fun a ha hlive => ?_
        rcases List.mem_cons.mp ha with rfl | ha
        · exact absurd hlive hdead
        · exact hfree.byType hall hdead hnamed htype a ha hlive
    · have hname : n = cString (d.filenameAt p) := Option.some.inj hname
      by_cases hlive : (d.recordAt p).Live
      · have hhead : d.recordAt p ∈ d.recordAt p :: rs := List.mem_cons_self
        refine answers_of_mem hhead hlive ?_ rfl
        rw [hname, cString_of_not_mem (hwf.named _ hmem hlive).2]
        rfl
      · obtain ⟨a, ha, halive, haname⟩ := hfree.byName hall hlive hnamed hname.symm
        exact absurd haname (hbefore a ha halive)
    · have hrec : (d.recordAt p).Live → (d.recordAt p).filename ≠ n := by
        intro hlive hname
        obtain ⟨hnamed, hclean⟩ := hwf.named _ hmem hlive
        refine hstops ⟨hnamed, ?_⟩
        rw [cString_of_not_mem hclean]
        exact congrArg some hname.symm
      have hall' : all = (before ++ [d.recordAt p]) ++ rs := by
        rw [hall, List.append_assoc]
        rfl
      refine (ih hall' (fun a ha => ?_) hI (toNat_next hpos hin) hreturns').cons hrec
      rcases List.mem_append.mp ha with ha | ha
      · exact hbefore a ha
      · rw [List.mem_singleton.mp ha]
        exact hrec

/-! ## Deleted entries in the way -/

/-- What is found is inode 0; or nothing is, since there is no inode 0. -/
def Misled (zero : Bool) (found : Option (Node × FileType)) : Prop :=
  (found = none ∧ zero = false) ∨ ∃ node type, found = some (node, type) ∧ node.ino = 0

theorem serves_dirReader_false (d : Dir) (zero : Bool) :
    Serves (dirReader d zero) d (· = false) where
  readFile := fun {s} hs {_ _} _ _ hin => by
    rw [dirReader_readFile hin]
    exact ⟨hs, .inr rfl⟩
  readInode := by
    rintro s rfl ino
    obtain ⟨-, hread⟩ := (serves_dirReader d zero).readInode trivial ino
    refine ⟨?_, hread⟩
    rw [dirReader]
    dsimp only
    split_ifs <;> rfl
  malloc hs := hs

theorem CanFail.mono {J : σ → Prop} (hIJ : ∀ s, I s → J s) {p : ℕ} (h : CanFail r d I name p) :
    CanFail r d J name p := by
  cases h with
  | readFile ht hpos hlen hin hfails => exact .readFile (hIJ _ ht) hpos hlen hin hfails
  | malloc ht hfails => exact .malloc (hIJ _ ht) hfails
  | readInode ht hnamed hneeded hfails => exact .readInode (hIJ _ ht) hnamed hneeded hfails

theorem visit_unknown {p : ℕ} {fpos : BitVec 32} {n : List UInt8} (hpos : fpos.toNat = p)
    (hin : d.Inside p) (hnamed : (d.recordAt p).Named) (hdead : (d.direntAt p).inode = 0)
    (htype : (d.direntAt p).filetype = 0) :
    (visit (dirReader d false) (some n) fpos false).2 = .ends notFound := by
  have hheader : p + 8 ≤ d.limit := (Nat.le_add_right _ _).trans hin
  have hname : (dirReader d false).readFile false (fpos + 8) (d.direntAt p).namelen.toNat =
      (false, .fills (stretch d.bytes (fpos + 8).toNat (d.direntAt p).namelen.toNat)) :=
    dirReader_readFile (by rwa [toNat_add_eight hpos hheader])
  have hread : (dirReader d false).readInode false (d.direntAt p).inode = (false, none) :=
    if_pos ⟨hdead, rfl, rfl⟩
  have hmalloc : (dirReader d false).malloc false = (false, true) := rfl
  have hentry : entryType (dirReader d false) false (d.direntAt p) = (false, none) := by
    rw [entryType, if_neg (not_not.mpr htype), hread]
  rw [visit, dirReader_readFile (hpos ▸ hheader), hpos]
  change (visitDirent (dirReader d false) (some n) fpos (d.direntAt p) false).2 = _
  rw [visitDirent, if_pos (show (d.direntAt p).namelen ≠ 0 from hnamed), hname]
  change (visitName (dirReader d false) (some n) (d.direntAt p) _ false).2 = _
  rw [visitName, hmalloc]
  dsimp only
  rw [hentry]

theorem search_misled {zero : Bool} (hsize : d.size.toNat ≤ 2 ^ 31) {n : List UInt8}
    {before behind : List Record} {rec : Record} {p : ℕ}
    (hrecords : d.RecordsAt p (before ++ rec :: behind))
    (hbefore : ∀ a ∈ before, a.Live → ¬ (a.Named ∧ n = cString a.filename)) (hdead : ¬ rec.Live)
    (hnamed : rec.Named)
    (hrec : n = cString rec.filename ∨ (zero = false ∧ rec.dirent.filetype = 0))
    {fpos : BitVec 32} (hpos : fpos.toNat = p) {s : Bool} (hs : s = false) {fuel : ℕ}
    {lines : List DirLine} {found : Option (Node × FileType)}
    (hreturns : search (dirReader d zero) d.size (some n) fuel fpos s =
      some (.returned lines found)) : Misled zero found := by
  have hnofail : ∀ {q}, CanFail (dirReader d zero) d (· = false) (some n) q → zero = false :=
    fun h => (canFail_dirReader (h.mono fun _ _ => trivial)).1
  induction before generalizing p fpos s fuel lines with
  | nil =>
    cases hrecords with
    | cons hlen hrest =>
      obtain ⟨hin, hlt⟩ := inside_of_records hsize hlen hrest
      have hino : (d.direntAt p).inode = 0 := not_not.mp hdead
      rcases search_step (serves_dirReader_false d zero) hs hpos hlt hin hreturns with
        ⟨hfails, hnone⟩ | ⟨-, inode, hfound⟩ | ⟨hstops, -, ⟨line, hgoes⟩, -⟩
      · exact .inl ⟨hnone, hnofail hfails⟩
      · exact .inr ⟨_, _, hfound, hino⟩
      · rcases hrec with hname | ⟨rfl, htype⟩
        · exact absurd ⟨hnamed, congrArg some hname⟩ hstops
        · subst hs
          rw [visit_unknown hpos hin hnamed hino htype] at hgoes
          cases hgoes
  | cons a before ih =>
    cases hrecords with
    | cons hlen hrest =>
      obtain ⟨hin, hlt⟩ := inside_of_records hsize hlen hrest
      have hlive := hbefore (d.recordAt p) List.mem_cons_self
      rcases search_step (serves_dirReader_false d zero) hs hpos hlt hin hreturns with
        ⟨hfails, hnone⟩ | ⟨hstops, inode, hfound⟩ | ⟨-, hs', -, fuel', rest, hreturns'⟩
      · exact .inl ⟨hnone, hnofail hfails⟩
      · refine .inr ⟨_, _, hfound, ?_⟩
        by_contra hino
        exact hlive hino ⟨hstops.1, Option.some.inj hstops.2⟩
      · exact ih hrest (fun b hb => hbefore b (List.mem_cons_of_mem _ hb)) (toNat_next hpos hin)
          hs' hreturns'

/-! ## Right calls -/

theorem not_misled {zero : Bool} {rs : List Record} {n : List UInt8}
    {found : Option (Node × FileType)} (hanswers : Answers d rs n found)
    (hlive : zero = false → ∃ a ∈ rs, a.Live ∧ a.filename = n) : ¬ Misled zero found := by
  rintro (⟨rfl, hzero⟩ | ⟨node, type, rfl, hino⟩)
  · exact Bool.false_ne_true (hanswers.isSome_iff.mpr (hlive hzero))
  · obtain ⟨a, -, halive, -, hsame, -⟩ := hanswers.entry node type rfl
    exact halive (hsame.symm.trans hino)

theorem IteratesRight.dirReader_answers {n : List UInt8} (h : IteratesRight d (some n))
    {rs : List Record} (hwf : d.WellFormed rs) (zero : Bool) :
    ∃ fuel lines found, Answers d rs n found ∧
      search (dirReader d zero) d.size (some n) fuel 0 false = some (.returned lines found) := by
  obtain ⟨fuel, lines, found, hreturns⟩ :=
    h.returns (serves_dirReader d zero) (s := d.start) trivial
  refine ⟨fuel, lines, found, ?_, ?_⟩
  · exact h.finds rfl (serves_dirReader d zero) trivial (neverFails_dirReader d zero) hwf hreturns
  · rwa [iterateDir_dirReader] at hreturns

theorem IteratesRight.undisturbed {n : List UInt8} (h : IteratesRight d (some n))
    {rs : List Record} (hwf : d.WellFormed rs) : Undisturbed rs n where
  byName := by
    intro before rec behind hrs hdead hnamed hname
    by_contra hnone
    obtain ⟨fuel, lines, found, hanswers, hreturns⟩ := h.dirReader_answers hwf true
    have hbefore : ∀ a ∈ before, a.Live → ¬ (a.Named ∧ n = cString a.filename) := by
      rintro a ha hlive ⟨-, haname⟩
      have hmem : a ∈ rs := by
        rw [hrs]
        exact List.mem_append_left _ ha
      rw [cString_of_not_mem (hwf.named a hmem hlive).2] at haname
      exact hnone ⟨a, ha, hlive, haname.symm⟩
    exact not_misled hanswers (by nofun)
      (search_misled hwf.size_le (hrs ▸ hwf.records) hbefore hdead hnamed (.inl hname.symm) rfl rfl
        hreturns)
  byType := by
    intro before rec behind hrs hdead hnamed htype b hb hblive hbname
    obtain ⟨fuel, lines, found, hanswers, hreturns⟩ := h.dirReader_answers hwf false
    have hmem : ∀ {a}, a ∈ before ∨ a ∈ behind → a ∈ rs := by
      rintro a (ha | ha) <;> rw [hrs]
      · exact List.mem_append_left _ ha
      · exact List.mem_append_right _ (List.mem_cons_of_mem _ ha)
    have hbefore : ∀ a ∈ before, a.Live → ¬ (a.Named ∧ n = cString a.filename) := by
      rintro a ha hlive ⟨-, haname⟩
      rw [cString_of_not_mem (hwf.named a (hmem (.inl ha)) hlive).2] at haname
      have hdistinct := hwf.distinct
      rw [hrs] at hdistinct
      exact (List.pairwise_append.mp hdistinct).2.2 a ha b (List.mem_cons_of_mem _ hb) hlive hblive
        (haname.symm.trans hbname.symm)
    exact not_misled hanswers (fun _ => ⟨b, hmem (.inr hb), hblive, hbname⟩)
      (search_misled hwf.size_le (hrs ▸ hwf.records) hbefore hdead hnamed (.inr ⟨rfl, htype⟩) rfl
        rfl hreturns)

theorem finds_of_undisturbed {n : List UInt8} {rs : List Record} (hwf : d.WellFormed rs)
    (hfree : Undisturbed rs n) (hserves : Serves r d I) (hs : I s) (hnever : NeverFails r d I s)
    {fuel : ℕ} {lines : List DirLine} {found : Option (Node × FileType)}
    (hreturns : iterateDir r d.node (some n) fuel s = some (.returned lines found)) :
    Answers d rs n found := by
  rcases iterateDir_eq_search (some n) hserves hs with
    ⟨hinode, hfails, -⟩ | ⟨t, ht, hsearch⟩
  · exact absurd hfails (hnever.own hinode)
  · rw [hsearch] at hreturns
    have hall : rs = [] ++ rs := rfl
    exact search_answers hserves hnever hwf hfree hall hwf.records
      (fun a ha => absurd ha List.not_mem_nil) ht rfl hreturns

theorem sound_of_wellFormed {rs : List Record} (hwf : d.WellFormed rs) {p : ℕ}
    (hpassed : d.Passed name p) (hlt : p < d.size.toNat) : d.Sound name p := by
  have hrecords : ∃ rs, d.RecordsAt p rs := by
    clear hlt
    induction hpassed with
    | start => exact ⟨rs, hwf.records⟩
    | next _ hlt _ _ ih =>
      obtain ⟨rs, hrs⟩ := ih
      cases hrs with
      | nil hend => exact absurd hlt hend.not_lt
      | cons hlen hrest => exact ⟨_, hrest⟩
  obtain ⟨rs, hrs⟩ := hrecords
  cases hrs with
  | nil hend => exact absurd hlt hend.not_lt
  | cons hlen hrest =>
    exact ⟨(inside_of_records hwf.size_le hlen hrest).1, fun hzero => by omega⟩

/-- **On a solid volume**, with `ext2fs_read_file`, a name that no deleted entry is in the way of is
found if and only if a live entry has it. -/
theorem iterateDir_fileReader {v : Volume} {e : Env} {inode : Inode}
    {readInode : BitVec 32 → Option InodeInfo} (h : Solid v e inode)
    (hfile : d.IsFile v inode readInode) (hinodes : ∀ ino, readInode ino = none → ino = 0)
    (hown : d.node.inode = none → readInode d.node.ino ≠ none) {rs : List Record}
    (hwf : d.WellFormed rs) {n : List UInt8} (hfree : Undisturbed rs n) {g : Globals}
    (hcache : CacheOk v g.indir1) :
    ∃ fuel lines found, Answers d rs n found ∧
      iterateDir (fileReader v e inode readInode) d.node (some n) fuel g =
        some (.returned lines found) := by
  have hserves := serves_fileReader h hfile
  have hsound : ∀ p, d.Passed (some n) p → p < d.size.toNat → d.Sound (some n) p :=
    fun p hpassed hlt => sound_of_wellFormed hwf hpassed hlt
  obtain ⟨fuel, lines, found, hreturns⟩ := returns_of_sound hsound hserves hcache
  exact ⟨fuel, lines, found, finds_of_undisturbed hwf hfree hserves hcache
    (neverFails_fileReader h hfile hinodes hown g) hreturns, hreturns⟩

/-- A directory with the entries `a` of inode 11 and `b` of inode 12, in the second block of a
volume. -/
def shortVolume : Volume :=
  ⟨0, 8, fun x => [11, 0, 0, 0, 12, 0, 1, 1, 97, 0, 0, 0,
    12, 0, 0, 0, 12, 0, 1, 1, 98, 0, 0, 0].getD (x % 1024) 0, 0⟩

def shortInode : Inode := ⟨24, fun x => if x = 0 then 1 else 0⟩

def shortDir : Dir :=
  ⟨⟨2, some ⟨0x4000, 24⟩⟩, fileByte shortVolume shortInode, fun _ => ⟨0x8000, 0⟩⟩

theorem solid_short : Solid shortVolume allReads shortInode := by
  have hblock : fileBlock shortVolume shortInode 0 = 1 := by decide +kernel
  have hfirst : ∀ i, i * shortVolume.ext2BlockSize < shortInode.size.toNat → i = 0 := by
    intro i hi
    have hlt : i * 1024 < 24 := hi
    omega
  have hfits : 0 + 8 ≤ 2 ^ 32 := by decide
  have hsize : 24 ≤ (indirectBlocks + shortVolume.perblock * (shortVolume.perblock + 1)) *
      shortVolume.ext2BlockSize := by decide
  refine ⟨⟨hfits, Nat.zero_le 6, hsize, fun i hi => ?_⟩, fun _ _ _ => rfl, fun _ => rfl,
    fun i hi => ?_⟩
  · rw [hfirst i hi]
    refine ⟨fun b hb _ => ?_, fun _ => List.Pairwise.nil⟩
    rw [List.mem_singleton.mp hb, hblock]
    decide
  · rw [hfirst i hi, hblock]
    refine ⟨by decide, fun b hb => ?_, List.not_mem_nil⟩
    rw [List.mem_singleton.mp hb, hblock]
    decide

theorem records_short : ∀ rec ∈ [shortDir.recordAt 0, shortDir.recordAt 12],
    rec.Live ∧ rec.Named ∧ 0 ∉ rec.filename := by
  intro rec hrec
  have hfirst : (shortDir.direntAt 0).inode ≠ 0 ∧ (shortDir.direntAt 0).namelen ≠ 0 ∧
      0 ∉ shortDir.filenameAt 0 := by
    decide +kernel
  have hsecond : (shortDir.direntAt 12).inode ≠ 0 ∧ (shortDir.direntAt 12).namelen ≠ 0 ∧
      0 ∉ shortDir.filenameAt 12 := by
    decide +kernel
  rcases List.mem_pair.mp hrec with rfl | rfl
  · exact hfirst
  · exact hsecond

/-- `b` is found behind `a`. -/
theorem iterateDir_fileReader_short :
    ∃ fuel lines found, Answers shortDir [shortDir.recordAt 0, shortDir.recordAt 12] [98] found ∧
      iterateDir (fileReader shortVolume allReads shortInode fun _ => some ⟨0x8000, 0⟩)
        shortDir.node (some [98]) fuel noBlocks = some (.returned lines found) := by
  have hnext : 0 + (shortDir.direntAt 0).direntlen.toNat = 12 := by decide +kernel
  have hsecond : shortDir.RecordsAt 12 [shortDir.recordAt 12] :=
    .cons (by decide +kernel) (.nil (by decide +kernel))
  have hrecords : shortDir.RecordsAt 0 [shortDir.recordAt 0, shortDir.recordAt 12] :=
    .cons (by decide +kernel) (hnext ▸ hsecond)
  have hdistinct : shortDir.filenameAt 0 ≠ shortDir.filenameAt 12 := by decide +kernel
  have hall : ∀ {before rec behind},
      [shortDir.recordAt 0, shortDir.recordAt 12] = before ++ rec :: behind → rec.Live := by
    intro before rec behind hsplit
    refine (records_short rec ?_).1
    rw [hsplit]
    exact List.mem_append_right _ List.mem_cons_self
  refine iterateDir_fileReader solid_short ⟨rfl, rfl, fun _ => Or.inr rfl⟩
    (fun _ h => (Option.some_ne_none _ h).elim) (fun _ => Option.some_ne_none _)
    ⟨hrecords, by decide, fun rec hrec _ => (records_short rec hrec).2,
      List.pairwise_pair.mpr fun _ _ => hdistinct⟩ ⟨?_, ?_⟩ fun h => absurd h (by decide)
  · intro before rec behind hsplit hdead
    exact absurd (hall hsplit) hdead
  · intro before rec behind hsplit hdead
    exact absurd (hall hsplit) hdead

/-- **A directory is searched as it should be** if and only if every record that the search comes
to is in the directory and has a length, unless the search ends with it; and, if the directory is
well-formed, no deleted entry is in the way. -/
theorem iteratesRight_iff (d : Dir) (name : Option (List UInt8)) :
    IteratesRight d name ↔
      (∀ p, d.Passed name p → p < d.size.toNat → d.Sound name p) ∧
        ∀ n, name = some n → ∀ rs, d.WellFormed rs → Undisturbed rs n := by
  constructor
  · intro h
    obtain ⟨fuel, lines, found, hreturns⟩ :=
      h.returns (serves_dirReader d true) (s := d.start) trivial
    refine ⟨sound_of_returns hreturns, fun n hn rs hwf => ?_⟩
    subst hn
    exact h.undisturbed hwf
  · rintro ⟨hsound, hfree⟩
    constructor
    · intro σ r I hserves s hs
      exact returns_of_sound hsound hserves hs
    · rintro n rfl σ r I hserves s hs hnever rs hwf fuel lines found hreturns
      exact finds_of_undisturbed hwf (hfree n rfl rs hwf) hserves hs hnever hreturns

/-- A directory of one block of zeros: its first record has no length. -/
def zeroDir : Dir := ⟨⟨2, some ⟨0x4000, 1024⟩⟩, fun _ => 0, fun _ => ⟨0x4000, 1024⟩⟩

/-- The search of a block of zeros does not end. -/
theorem not_iteratesRight : ¬ ∀ d name, IteratesRight d name := by
  intro h
  obtain ⟨fuel, lines, found, hreturns⟩ := (h zeroDir none).returns
    (serves_dirReader zeroDir true) (s := zeroDir.start) trivial
  have hstops := (sound_of_returns hreturns 0 .start (by decide)).moves (by decide)
  exact Option.some_ne_none _ hstops.2.symm

end Ext2
end EmevBsp
