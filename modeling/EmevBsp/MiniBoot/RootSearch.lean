import EmevBsp.MiniBoot.CopyData

/-!
# The first boot stage looks for a file

The root directory of FAT16 is an area of sectors, that of FAT32 a chain of clusters, which may be
broken or run in a circle.  Its entries go up to an end mark.  An entry is a file if it is not
deleted and neither a directory nor a volume label; the slots of a long name have the bit of a
volume label.

`fat_get_cluster` looks at names only: an entry of any kind is taken, also one behind the end mark,
and but for the boot loader with any extension.  It follows the chain of FAT32 as
`fat_cpy_data` does, without a bound.

* `FindsFile`: what looking for a file has to do.
* `fatGetCluster_iff`: **the file is found**, exactly when the first entry with the name that the
  code comes by leads where the file is, and when there is no such entry the chain ends, and no file
  is behind an entry of the table that stops the code.
* `not_findsFile`: a volume label `UIMAGE`.
-/

namespace EmevBsp
namespace MiniBoot

/-! ## The root directory -/

/-- An entry that is not deleted, and neither a directory nor a volume label. -/
def RDEntry.isFile (rde : RDEntry) : Bool :=
  rde.name.head? ≠ some 0xe5 && rde.attr &&& 0x18 = 0

/-- The end mark of a directory. -/
def RDEntry.isEnd (rde : RDEntry) : Bool := rde.name.head? = some 0

/-- The name of the file, with its extension: "uImage" and "cramfs" have none. -/
def RDEntry.isNamed (type : LoadType) (rde : RDEntry) : Bool :=
  rde.matches type && (type = .uboot || rde.extension = [0x20, 0x20, 0x20])

/-- The file among the entries of a directory. -/
def fileEntry (type : LoadType) (es : List RDEntry) : Option RDEntry :=
  (es.takeWhile fun rde => !rde.isEnd).find? fun rde => rde.isFile && rde.isNamed type

variable (card : Card) (info : FatInfo) (type : LoadType)

/-- The entries of a sector of the root directory of FAT16. -/
def sectEntries (i : ℕ) : List RDEntry :=
  entries (card.bytes (info.rdeSecPos + BitVec.ofNat 32 i)) 16

/-- The entries of the root directory of FAT16. -/
def areaEntries : List RDEntry :=
  (List.range' 0 info.secRdeSize).flatMap (sectEntries card info)

/-- The entries of a cluster. -/
def clusEntries (c : BitVec 32) : List RDEntry :=
  entries (card.bytes (info.userSecPos + BitVec.ofNat 32 ((c.toNat - 2) * info.secPerClus)))
    (16 * info.secPerClus)

/-- The entries at the start of the root directory: all of it in FAT16, some of its clusters in
FAT32. -/
def RootPart (es : List RDEntry) : Prop :=
  if info.fat32 then
    ∃ cs, Chain (NextClus card info) info.Inside info.rdeSecPos cs ∧
      es = cs.flatMap (clusEntries card info)
  else es = areaEntries card info

/-- The entry of the file in the root directory. -/
def HasFile (rde : RDEntry) : Prop :=
  ∃ es, RootPart card info es ∧ fileEntry type es = some rde

/-- **What looking for a file has to do**: the search ends, with the first cluster of the file, or
with an error if there is no file. -/
def FindsFile (s : Boot) : Prop :=
  ∃ n, ∀ fuel ≥ n, ∃ r, fatGetCluster card .ok info type s.opened fuel = some r ∧
    (∀ rde, HasFile card info type rde →
      r.1 = 0 ∧ r.2.dataNumClus = rde.firstClus info.fat32) ∧
    (¬ (∃ rde, HasFile card info type rde) → r.1 ≠ 0)

/-! ## What the code comes by -/

/-- The entries of a cluster, where the code reads it. -/
def seenEntries (c : BitVec 32) : List RDEntry :=
  entries (card.bytes (info.readClusSec c)) (16 * info.secPerClus)

/-- The entries the code comes by at the start of the root directory; `buf` is what is in the buffer
of the table. -/
def SeenPart (buf : ℕ → UInt8) (es : List RDEntry) : Prop :=
  if info.fat32 then
    ∃ cs, Chain (Follows card info buf) (fun _ => True) info.rdeSecPos cs ∧
      es = cs.flatMap (seenEntries card info)
  else es = areaEntries card info

/-- The first entry with the name the code comes by. -/
def SeesName (buf : ℕ → UInt8) (rde : RDEntry) : Prop :=
  ∃ es, SeenPart card info buf es ∧ es.find? (RDEntry.matches type) = some rde

/-- The code goes no further from a cluster. -/
def Leaves (buf : ℕ → UInt8) (c : BitVec 32) : Prop :=
  isData info.fat32 (seenEntry card info buf c) = false

/-- The code comes to an end of the root directory. -/
def SeenEnds (buf : ℕ → UInt8) : Prop :=
  info.fat32 = true → ∃ cs, Chain (Follows card info buf) (Leaves card info buf) info.rdeSecPos cs

variable {card : Card} {info : FatInfo} {type : LoadType} {buf : ℕ → UInt8} {c : BitVec 32}
  {es : List RDEntry} {rde : RDEntry}

/-! ## Entries of a buffer -/

theorem entries_congr {dir dir' : ℕ → UInt8} {n : ℕ} (h : ∀ k < 32 * n, dir k = dir' k) :
    entries dir n = entries dir' n := by
  refine List.map_congr_left fun j hj => ?_
  have hlt := List.mem_range.mp hj
  have hbyte : ∀ k < 32, dir (32 * j + k) = dir' (32 * j + k) := fun k hk => h _ (by omega)
  have hname : stretch dir (32 * j) 8 = stretch dir' (32 * j) 8 :=
    stretch_congr fun i hi => hbyte i (by omega)
  have hext : stretch dir (32 * j + 8) 3 = stretch dir' (32 * j + 8) 3 :=
    stretch_congr fun i hi => by
      rw [Nat.add_assoc]
      exact hbyte (8 + i) (by omega)
  simp only [RDEntry.read, hname, hext, Fat.word16, Nat.add_assoc,
    hbyte 11 (by decide), hbyte 20 (by decide), hbyte (20 + 1) (by decide), hbyte 26 (by decide),
    hbyte (26 + 1) (by decide)]

theorem entries_multiRead {calls : ℕ} {addr : BitVec 32} {mem : ℕ → UInt8} (num : ℕ) :
    entries (multiRead card .ok calls addr mem 0 num).2 (16 * num) =
      entries (card.bytes addr) (16 * num) :=
  entries_congr fun k hk => multiRead_apply multiRead_ok (by unfold mmcBlocklenVal; omega)

/-! ## The area of FAT16 -/

/-- The state after a sector of the root directory was read. -/
def Boot.readSect (card : Card) (info : FatInfo) (s : Boot) (i : ℕ) : Boot :=
  { s with
    readData := (singleRead card .ok s.calls (info.rdeSecPos + BitVec.ofNat 32 i) s.readData).2
    calls := s.calls + 1 }

theorem rootArea_succ (n i : ℕ) (s : Boot) :
    rootArea card .ok info type (n + 1) i s =
      match (sectEntries card info i).find? (RDEntry.matches type) with
      | some rde => (0, { s.readSect card info i with dataNumClus := rde.firstClus info.fat32 })
      | none => rootArea card .ok info type n (i + 1) (s.readSect card info i) := by
  have hentries : entries (s.readSect card info i).readData 16 = sectEntries card info i :=
    entries_multiRead 1
  rw [← hentries]
  rfl

theorem rootArea_finds {n i : ℕ} {s : Boot}
    (h : ((List.range' i n).flatMap (sectEntries card info)).find? (RDEntry.matches type) =
      some rde) :
    ∃ s', rootArea card .ok info type n i s = (0, s') ∧
      s'.dataNumClus = rde.firstClus info.fat32 := by
  induction n generalizing i s with
  | zero => exact absurd h (Option.some_ne_none rde).symm
  | succ n ih =>
    rw [List.range'_succ, List.flatMap_cons, List.find?_append] at h
    rw [rootArea_succ]
    cases hsect : (sectEntries card info i).find? (RDEntry.matches type) with
    | some rde' =>
      rw [hsect] at h
      obtain rfl := Option.some.inj h
      exact ⟨_, rfl, rfl⟩
    | none =>
      rw [hsect] at h
      exact ih h

theorem rootArea_fails {n i : ℕ} {s : Boot}
    (h : ((List.range' i n).flatMap (sectEntries card info)).find? (RDEntry.matches type) =
      none) :
    (rootArea card .ok info type n i s).1 = -1 := by
  induction n generalizing i s with
  | zero => rfl
  | succ n ih =>
    rw [List.range'_succ, List.flatMap_cons, List.find?_append, Option.or_eq_none_iff] at h
    rw [rootArea_succ, h.1]
    exact ih h.2

/-! ## The chain of FAT32 -/

/-- The state after a cluster of the root directory was read. -/
def Boot.readClus (card : Card) (info : FatInfo) (s : Boot) (c : BitVec 32) : Boot :=
  { s with
    rdeClusData :=
      (multiRead card .ok s.calls (info.readClusSec c) s.rdeClusData 0 info.secPerClus).2
    calls := s.calls + 1 }

theorem rootChain_succ (n : ℕ) {s : Boot} (hs : Cached card info buf s c) :
    rootChain card .ok info type (n + 1) c s =
      match (seenEntries card info c).find? (RDEntry.matches type) with
      | some rde =>
        some (0, { s.readClus card info c with dataNumClus := rde.firstClus info.fat32 })
      | none =>
        if isData info.fat32 (seenEntry card info buf c) then
          rootChain card .ok info type n (seenEntry card info buf c)
            (lookFat card .ok info (s.readClus card info c) c).2
        else some (-1, (lookFat card .ok info (s.readClus card info c) c).2) := by
  have hentries : entries (s.readClus card info c).rdeClusData (16 * info.secPerClus) =
      seenEntries card info c := entries_multiRead info.secPerClus
  have hs' : Cached card info buf (s.readClus card info c) c := ⟨hs.data, hs.sector⟩
  have hlook : (lookFat card .ok info (s.readClus card info c) c).1 = 0 := lookFat_ok _ c
  rw [← hentries, ← seen_of_lookFat hs' hlook]
  simp only [rootChain, multiRead_ok, lookFat_ok, ne_eq, not_true_eq_false, if_false]
  rfl

theorem cached_readClus {s : Boot} (hs : Cached card info buf s c)
    (hdata : isData info.fat32 (seenEntry card info buf c) = true) :
    Cached card info buf (lookFat card .ok info (s.readClus card info c) c).2
      (seenEntry card info buf c) := by
  have hs' : Cached card info buf (s.readClus card info c) c := ⟨hs.data, hs.sector⟩
  exact cached_of_lookFat hs' (lookFat_ok _ c) hdata

theorem rootChain_finds {cs : List (BitVec 32)} {s : Boot}
    (hcs : Chain (Follows card info buf) (fun _ => True) c cs) (hs : Cached card info buf s c)
    (h : (cs.flatMap (seenEntries card info)).find? (RDEntry.matches type) = some rde) :
    ∀ fuel ≥ cs.length, ∃ s', rootChain card .ok info type fuel c s = some (0, s') ∧
      s'.dataNumClus = rde.firstClus info.fat32 := by
  induction hcs generalizing s with
  | @last c _ =>
    intro fuel hfuel
    obtain ⟨n, rfl⟩ : ∃ n, fuel = n + 1 := ⟨fuel - 1, by simp at hfuel; omega⟩
    rw [List.flatMap_singleton] at h
    rw [rootChain_succ n hs, h]
    exact ⟨_, rfl, rfl⟩
  | @link c c' cs hlink hcs ih =>
    intro fuel hfuel
    obtain ⟨n, rfl⟩ : ∃ n, fuel = n + 1 := ⟨fuel - 1, by simp at hfuel; omega⟩
    rw [List.flatMap_cons, List.find?_append] at h
    rw [rootChain_succ n hs]
    cases hfirst : (seenEntries card info c).find? (RDEntry.matches type) with
    | some rde' =>
      rw [hfirst] at h
      obtain rfl := Option.some.inj h
      exact ⟨_, rfl, rfl⟩
    | none =>
      rw [hfirst] at h
      obtain ⟨rfl, hdata⟩ := hlink
      simp only [hdata, if_true]
      exact ih (cached_readClus hs hdata) h n (by simp at hfuel; omega)

theorem rootChain_fails {cs : List (BitVec 32)} {s : Boot}
    (hcs : Chain (Follows card info buf) (Leaves card info buf) c cs)
    (hs : Cached card info buf s c)
    (h : (cs.flatMap (seenEntries card info)).find? (RDEntry.matches type) = none) :
    ∀ fuel ≥ cs.length, ∃ s', rootChain card .ok info type fuel c s = some (-1, s') := by
  induction hcs generalizing s with
  | @last c hleave =>
    intro fuel hfuel
    obtain ⟨n, rfl⟩ : ∃ n, fuel = n + 1 := ⟨fuel - 1, by simp at hfuel; omega⟩
    rw [List.flatMap_singleton] at h
    have hdata : isData info.fat32 (seenEntry card info buf c) = false := hleave
    rw [rootChain_succ n hs, h]
    simp only [hdata, Bool.false_eq_true, if_false]
    exact ⟨_, rfl⟩
  | @link c c' cs hlink hcs ih =>
    intro fuel hfuel
    obtain ⟨n, rfl⟩ : ∃ n, fuel = n + 1 := ⟨fuel - 1, by simp at hfuel; omega⟩
    rw [List.flatMap_cons, List.find?_append, Option.or_eq_none_iff] at h
    obtain ⟨rfl, hdata⟩ := hlink
    rw [rootChain_succ n hs, h.1]
    simp only [hdata, if_true]
    exact ih (cached_readClus hs hdata) h.2 n (by simp at hfuel; omega)

theorem rootChain_some {fuel : ℕ} {s : Boot} {r : ℤ × Boot} (hs : Cached card info buf s c)
    (h : rootChain card .ok info type fuel c s = some r) :
    (∃ cs rde, Chain (Follows card info buf) (fun _ => True) c cs ∧
      (cs.flatMap (seenEntries card info)).find? (RDEntry.matches type) = some rde) ∨
      ∃ cs, Chain (Follows card info buf) (Leaves card info buf) c cs := by
  induction fuel generalizing c s with
  | zero => exact absurd h (Option.some_ne_none r).symm
  | succ n ih =>
    rw [rootChain_succ n hs] at h
    cases hfirst : (seenEntries card info c).find? (RDEntry.matches type) with
    | some rde =>
      refine Or.inl ⟨[c], rde, .last trivial, ?_⟩
      rw [List.flatMap_singleton, hfirst]
    | none =>
      by_cases hdata : isData info.fat32 (seenEntry card info buf c) = true
      · rw [hfirst] at h
        simp only [hdata, if_true] at h
        rcases ih (cached_readClus hs hdata) h with ⟨cs, rde, hcs, hname⟩ | ⟨cs, hcs⟩
        · refine Or.inl ⟨c :: cs, rde, .link ⟨rfl, hdata⟩ hcs, ?_⟩
          rw [List.flatMap_cons, List.find?_append, hfirst]
          exact hname
        · exact Or.inr ⟨c :: cs, .link ⟨rfl, hdata⟩ hcs⟩
      · exact Or.inr ⟨[c], .last (Bool.eq_false_of_not_eq_true hdata)⟩

/-! ## The search -/

theorem fatGetCluster_finds {s : Boot} (h : SeesName card info type s.readData rde) :
    ∃ n, ∀ fuel ≥ n, ∃ s', fatGetCluster card .ok info type s.opened fuel = some (0, s') ∧
      s'.dataNumClus = rde.firstClus info.fat32 := by
  obtain ⟨es, hes, hfind⟩ := h
  by_cases h32 : info.fat32 = true
  · rw [SeenPart, if_pos h32] at hes
    obtain ⟨cs, hcs, rfl⟩ := hes
    refine ⟨cs.length, fun fuel hfuel => ?_⟩
    rw [fatGetCluster, if_pos h32]
    exact rootChain_finds hcs (cached_opened s _) hfind fuel hfuel
  · rw [SeenPart, if_neg h32] at hes
    subst hes
    obtain ⟨s', hs', hclus⟩ := rootArea_finds (s := s.opened) hfind
    refine ⟨0, fun fuel _ => ⟨s', ?_, hclus⟩⟩
    rw [fatGetCluster, if_neg h32, hs']

theorem fatGetCluster_fails {s : Boot} (h : ∀ rde, ¬ SeesName card info type s.readData rde)
    (hends : SeenEnds card info s.readData) :
    ∃ n, ∀ fuel ≥ n, ∃ r, fatGetCluster card .ok info type s.opened fuel = some r ∧
      r.1 = -1 := by
  have hnone : ∀ es, SeenPart card info s.readData es → es.find? (RDEntry.matches type) = none :=
    fun es hes => Option.eq_none_iff_forall_ne_some.mpr fun rde hfind => h rde ⟨es, hes, hfind⟩
  by_cases h32 : info.fat32 = true
  · obtain ⟨cs, hcs⟩ := hends h32
    have hpart : SeenPart card info s.readData (cs.flatMap (seenEntries card info)) := by
      rw [SeenPart, if_pos h32]
      exact ⟨cs, hcs.imp_of_mem (fun _ _ _ _ h => h) fun _ _ _ => trivial, rfl⟩
    refine ⟨cs.length, fun fuel hfuel => ?_⟩
    obtain ⟨s', hs'⟩ := rootChain_fails hcs (cached_opened s _) (hnone _ hpart) fuel hfuel
    rw [fatGetCluster, if_pos h32]
    exact ⟨_, hs', rfl⟩
  · have hpart : SeenPart card info s.readData (areaEntries card info) := by
      rw [SeenPart, if_neg h32]
    refine ⟨0, fun fuel _ => ⟨rootArea card .ok info type info.secRdeSize 0 s.opened, ?_, ?_⟩⟩
    · rw [fatGetCluster, if_neg h32]
    · exact rootArea_fails (hnone _ hpart)

theorem seenEnds_of_some {s : Boot} {fuel : ℕ} {r : ℤ × Boot}
    (h : fatGetCluster card .ok info type s.opened fuel = some r)
    (hnone : ∀ rde, ¬ SeesName card info type s.readData rde) :
    SeenEnds card info s.readData := by
  intro h32
  rw [fatGetCluster, if_pos h32] at h
  rcases rootChain_some (cached_opened s _) h with ⟨cs, rde, hcs, hfind⟩ | hends
  · refine absurd ⟨_, ?_, hfind⟩ (hnone rde)
    rw [SeenPart, if_pos h32]
    exact ⟨cs, hcs, rfl⟩
  · exact hends

/-! ## The file -/

theorem fileEntry_append (hfile : fileEntry type es = some rde) (rest : List RDEntry) :
    fileEntry type (es ++ rest) = some rde := by
  rw [fileEntry] at hfile ⊢
  rw [List.takeWhile_append]
  split_ifs with hall
  · rw [(List.takeWhile_prefix _).eq_of_length hall] at hfile
    rw [List.find?_append, hfile, Option.some_or]
  · exact hfile

theorem HasFile.eq {rde' : RDEntry} (h : HasFile card info type rde)
    (h' : HasFile card info type rde') : rde = rde' := by
  obtain ⟨es, hes, hfile⟩ := h
  obtain ⟨es', hes', hfile'⟩ := h'
  have hprefix : es <+: es' ∨ es' <+: es := by
    rw [RootPart] at hes hes'
    split_ifs at hes hes' with h32
    · obtain ⟨cs, hcs, rfl⟩ := hes
      obtain ⟨cs', hcs', rfl⟩ := hes'
      have hlink : ∀ a b c, NextClus card info a b → NextClus card info a c → b = c := by
        rintro a b c ⟨-, hb, -⟩ ⟨-, hc, -⟩
        exact BitVec.eq_of_toNat_eq (hb.symm.trans hc)
      exact (hcs.prefix_or_prefix hlink hcs').imp (fun h => h.flatMap _) fun h => h.flatMap _
    · exact Or.inl (hes.trans hes'.symm ▸ List.prefix_refl _)
  rcases hprefix with ⟨rest, rfl⟩ | ⟨rest, rfl⟩
  · exact Option.some.inj ((fileEntry_append hfile rest).symm.trans hfile')
  · exact Option.some.inj (hfile.symm.trans (fileEntry_append hfile' rest))

/-! ## The condition -/

/-- **When the file is found.** -/
theorem fatGetCluster_iff (card : Card) (info : FatInfo) (type : LoadType) (s : Boot) :
    FindsFile card info type s ↔
      (∀ rde, SeesName card info type s.readData rde →
        ∃ file, HasFile card info type file ∧
          file.firstClus info.fat32 = rde.firstClus info.fat32) ∧
      ((∀ rde, ¬ SeesName card info type s.readData rde) →
        SeenEnds card info s.readData ∧ ∀ file, ¬ HasFile card info type file) := by
  constructor
  · rintro ⟨n, hsearch⟩
    constructor
    · intro rde hname
      obtain ⟨m, hfound⟩ := fatGetCluster_finds hname
      obtain ⟨r, hr, hfile, herror⟩ := hsearch (max n m) (Nat.le_max_left n m)
      obtain ⟨s', hs', hclus⟩ := hfound (max n m) (Nat.le_max_right n m)
      obtain rfl := Option.some.inj (hr.symm.trans hs')
      by_contra hnone
      have hno : ¬ ∃ file, HasFile card info type file := by
        rintro ⟨file, hf⟩
        exact hnone ⟨file, hf, (hfile file hf).2.symm.trans hclus⟩
      exact herror hno rfl
    · intro hnone
      obtain ⟨r, hr, -, -⟩ := hsearch n le_rfl
      have hends := seenEnds_of_some hr hnone
      refine ⟨hends, fun file hf => ?_⟩
      obtain ⟨m, hfails⟩ := fatGetCluster_fails hnone hends
      obtain ⟨r, hr, hfile, -⟩ := hsearch (max n m) (Nat.le_max_left n m)
      obtain ⟨r', hr', herr⟩ := hfails (max n m) (Nat.le_max_right n m)
      obtain rfl := Option.some.inj (hr.symm.trans hr')
      have hzero := (hfile file hf).1
      omega
  · rintro ⟨hname, hnone⟩
    by_cases hsees : ∃ rde, SeesName card info type s.readData rde
    · obtain ⟨rde, hrde⟩ := hsees
      obtain ⟨file, hf, hclus⟩ := hname rde hrde
      obtain ⟨n, hfound⟩ := fatGetCluster_finds hrde
      refine ⟨n, fun fuel hfuel => ?_⟩
      obtain ⟨s', hs', heq⟩ := hfound fuel hfuel
      refine ⟨_, hs', fun file' hf' => ⟨rfl, ?_⟩, fun hno => absurd ⟨file, hf⟩ hno⟩
      rw [← hf.eq hf', hclus, ← heq]
    · obtain ⟨hends, hno⟩ := hnone fun rde hrde => hsees ⟨rde, hrde⟩
      obtain ⟨n, hfails⟩ := fatGetCluster_fails (fun rde hrde => hsees ⟨rde, hrde⟩) hends
      refine ⟨n, fun fuel hfuel => ?_⟩
      obtain ⟨r, hr, herr⟩ := hfails fuel hfuel
      refine ⟨r, hr, fun file hf => absurd hf (hno file), fun _ hzero => ?_⟩
      omega

/-! ## A volume label with the name of the file -/

theorem labelInfo_pos : 0 < 1 := Nat.one_pos

/-- A FAT16 card whose root directory is one sector. -/
def labelInfo : FatInfo where
  fatSecPos := 1
  rdeSecPos := 33
  userSecPos := 34
  secPerClus := 1
  rootEntry := 16
  secPerFat := 16
  secRdeSize := 1
  secPerClus_pos := labelInfo_pos

/-- "UIMAGE" with eight characters, and no extension. -/
def uimage : List UInt8 := matchNameUpper .kernel ++ [0x20, 0x20, 0x20]

/-- The volume label `UIMAGE`, and the file `UIMAGE` at cluster 5. -/
def labelCard : Card := fun sector k =>
  if sector = 33 then
    (uimage ++ 0x08 :: List.replicate 20 0 ++ uimage ++ 0x20 :: List.replicate 14 0 ++ [5]).getD k 0
  else 0

/-- **The search gives the first cluster of the label**, which has none. -/
theorem not_findsFile : ¬ FindsFile labelCard labelInfo .kernel (bootAt 0) := by
  rintro ⟨n, hsearch⟩
  obtain ⟨r, hr, hfile, -⟩ := hsearch n le_rfl
  have hhas : HasFile labelCard labelInfo .kernel (RDEntry.read (labelCard 33) 1) :=
    ⟨_, rfl, by decide +kernel⟩
  have hfind : ((List.range' 0 1).flatMap (sectEntries labelCard labelInfo)).find?
      (RDEntry.matches .kernel) = some (RDEntry.read (labelCard 33) 0) := by decide +kernel
  obtain ⟨s', hs', hclus⟩ := rootArea_finds (s := (bootAt 0).opened) hfind
  have hcode : fatGetCluster labelCard .ok labelInfo .kernel (bootAt 0).opened n = some (0, s') :=
    congrArg some hs'
  obtain rfl := Option.some.inj (hr.symm.trans hcode)
  exact absurd (hclus.symm.trans (hfile _ hhas).2) (by decide +kernel)

end MiniBoot
end EmevBsp
