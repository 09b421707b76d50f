import EmevBsp.Fat.SubDir

/-!
# Where a directory ends

The numbers of the clusters of a volume are below a limit, and the values from there on are
reserved, mark a bad cluster, or end a chain.  The limit is `0xff0`, `0xfff0` or `0xffffff0`, as the
entries have 12, 16 or 28 bits that count.  `CHECK_CLUST` has two limits for the three formats: it
takes the one of FAT16 for FAT12, and compares all 32 bits of a FAT32 entry with a number of 28.

`get_dentfromdir` goes from cluster to cluster until `CHECK_CLUST` flags an entry.

* `Flags`: what `CHECK_CLUST` has to do; `flags_iff`: when it does.
* `Directory`: a chain of clusters with an end mark; `AbsentFrom`: no entry of it is the file.
* `visitsChain_iff_accepted`: the walk keeps to a chain when the links pass and the end does not.
* `checkClust_iff`: **when the ends of chains are seen**, for a value and for a directory.
-/

namespace EmevBsp
namespace Fat

/-! ## The values of an entry -/

/-- The number of bits of an entry. -/
def FatSize.bits : FatSize → ℕ
  | .fat12 => 12
  | .fat16 => 16
  | .fat32 => 32

/-- The first value that is not the number of a cluster. -/
def FatSize.limit : FatSize → ℕ
  | .fat12 => 0xff0
  | .fat16 => 0xfff0
  | .fat32 => 0xffffff0

/-- The number in an entry; the four bits on top of a FAT32 entry are not part of it. -/
def entryNumber (fatsize : FatSize) (x : BitVec 32) : ℕ :=
  if fatsize = .fat32 then x.toNat % 2 ^ 28 else x.toNat

/-- The number of a cluster of the data area. -/
def DataCluster (fatsize : FatSize) (n : ℕ) : Prop := 2 ≤ n ∧ n < fatsize.limit

/-- A mark for the end of a chain. -/
def EndMark (fatsize : FatSize) (n : ℕ) : Prop := fatsize.limit + 8 ≤ n

instance (fatsize : FatSize) (n : ℕ) : Decidable (DataCluster fatsize n) :=
  inferInstanceAs (Decidable (_ ∧ _))

instance (fatsize : FatSize) (n : ℕ) : Decidable (EndMark fatsize n) :=
  inferInstanceAs (Decidable (_ ≤ _))

/-- `CHECK_CLUST` flags a value when it is not the number of a data cluster, and only then. -/
def Flags (fatsize : FatSize) (x : BitVec 32) : Prop :=
  checkClust x fatsize = true ↔ ¬ DataCluster fatsize (entryNumber fatsize x)

theorem checkClust_eq_false_iff {fatsize : FatSize} {x : BitVec 32} :
    checkClust x fatsize = false ↔
      2 ≤ x.toNat ∧ x.toNat < if fatsize = .fat32 then 0xffffff0 else 0xfff0 := by
  rw [checkClust, Bool.or_eq_false_iff, decide_eq_false_iff_not, decide_eq_false_iff_not,
    BitVec.le_def, BitVec.le_def, apply_ite BitVec.toNat]
  have h1 : (1 : BitVec 32).toNat = 1 := rfl
  have h2 : (0xfff0 : BitVec 32).toNat = 0xfff0 := rfl
  have h3 : (0xffffff0 : BitVec 32).toNat = 0xffffff0 := rfl
  rw [h1, h2, h3]
  cases fatsize <;> simp <;> omega

/-- **The values that `CHECK_CLUST` treats as it should.** -/
theorem flags_iff (fatsize : FatSize) (x : BitVec 32) (hx : x.toNat < 2 ^ fatsize.bits) :
    Flags fatsize x ↔
      (fatsize = .fat12 → x.toNat < 0xff0) ∧
        (fatsize = .fat32 → x.toNat < 2 ^ 28 ∨
          ¬ DataCluster .fat32 (entryNumber .fat32 x)) := by
  rw [Flags, ← Bool.not_eq_false, not_iff_not, checkClust_eq_false_iff]
  cases fatsize with
  | fat12 =>
    simp [DataCluster, entryNumber, FatSize.limit, FatSize.bits] at hx ⊢
    omega
  | fat16 =>
    simp [DataCluster, entryNumber, FatSize.limit]
  | fat32 =>
    simp [DataCluster, entryNumber, FatSize.limit]
    omega

/-! ## Directories -/

variable {d : Disk} {v : Volume} {filename : List UInt8} {dols marker : Bool} {c c' : BitVec 32}
  {chain rest : List (BitVec 32)} {st st' : DirWalk}

/-- A directory: its first cluster is in its entry, each other is the entry of the one before, and
the entry of the last is an end mark. -/
structure Directory (d : Disk) (fs : Fsdata) (retdent : DirEntry) (chain : List (BitVec 32)) :
    Prop where
  readable : d.Readable
  fatlength : 0 < fs.fatlength
  cache : CacheOk d fs
  head : chain.head? = some (startClust fs.toVolume retdent)
  linked : chain.IsChain (Linked d fs.toVolume)
  inside : ∀ c ∈ chain, DataCluster fs.fatsize c.toNat
  last : ∀ c ∈ chain.getLast?, EndMark fs.fatsize (fatEntry d fs.toVolume c.toNat)

/-- The entries of a cluster, as the loop looks at them. -/
def lookAt (d : Disk) (filename : List UInt8) (dols : Bool) (c : BitVec 32) (st : DirWalk) :
    Option (DirWalk × Verdict) :=
  lookCluster d c filename dols (direntsPerClust st.fs.toVolume) 0 (st.readCluster d c).1

/-- The name is absent: one cluster after the other, no entry is the file, and the directory does
not end before its last cluster; `marker` says whether that has an end marker. -/
inductive AbsentFrom (d : Disk) (filename : List UInt8) (dols : Bool) :
    Bool → List (BitVec 32) → DirWalk → Prop
  | full {c : BitVec 32} {st st' : DirWalk} (h : lookAt d filename dols c st = some (st', .next)) :
      AbsentFrom d filename dols false [c] st
  | marked {c : BitVec 32} {st st' : DirWalk}
      (h : lookAt d filename dols c st = some (st', .done .absent)) :
      AbsentFrom d filename dols true [c] st
  | next {marker : Bool} {c c' : BitVec 32} {rest : List (BitVec 32)} {st st' : DirWalk}
      (h : lookAt d filename dols c st = some (st', .next))
      (hrest : AbsentFrom d filename dols marker (c' :: rest) (st'.nextClust d c).2) :
      AbsentFrom d filename dols marker (c :: c' :: rest) st

/-- The walk from a cluster on looks at the clusters of a chain, and reports that there is no
file. -/
def VisitsFrom (d : Disk) (filename : List UInt8) (dols : Bool) (c : BitVec 32) (st : DirWalk)
    (chain : List (BitVec 32)) : Prop :=
  ∃ n, ∀ fuel ≥ n, ∃ w, getDentfromdirLoop d filename dols fuel c st = some w ∧
    w.visited = chain ∧ w.result = .absent

/-- **What looking for an absent name has to do.** -/
def VisitsChain (d : Disk) (st : Walk) (filename : List UInt8) (retdent : DirEntry) (dols : Bool)
    (chain : List (BitVec 32)) : Prop :=
  ∃ n, ∀ fuel ≥ n, ∃ w, getDentfromdir d st filename retdent dols fuel = some w ∧
    w.visited = chain ∧ w.result = .absent

/-! ## A turn of the walk -/

theorem loop_succ (hd : d.Readable) (n : ℕ) :
    getDentfromdirLoop d filename dols (n + 1) c st =
      match lookAt d filename dols c st with
      | none => none
      | some (st', .done r) => some ⟨[c], r, st'⟩
      | some (st', .next) =>
        if checkClust (st'.nextClust d c).1 st'.fs.fatsize then
          some ⟨[c], .absent, { (st'.nextClust d c).2 with
            printed := (st'.nextClust d c).2.printed ++ [.invalid] }⟩
        else (getDentfromdirLoop d filename dols n (st'.nextClust d c).1 (st'.nextClust d c).2).map
          fun w => { w with visited := c :: w.visited } := by
  have hread : (st.readCluster d c).2 = 0 := by rw [readCluster_eq hd]
  rw [getDentfromdirLoop]
  exact if_neg (not_not.mpr hread)

theorem visited_head (hd : d.Readable) {n : ℕ} {w : DirWalked}
    (h : getDentfromdirLoop d filename dols n c st = some w) : w.visited.head? = some c := by
  cases n with
  | zero => cases h
  | succ n =>
    rw [loop_succ hd] at h
    cases hlook : lookAt d filename dols c st with
    | none =>
      rw [hlook] at h
      cases h
    | some r =>
      obtain ⟨st', verdict⟩ := r
      rw [hlook] at h
      cases verdict with
      | done r =>
        rw [← Option.some.inj h]
        rfl
      | next =>
        simp only at h
        split_ifs at h
        · rw [← Option.some.inj h]
          rfl
        · rw [Option.map_eq_some_iff] at h
          obtain ⟨w', -, rfl⟩ := h
          rfl

theorem VisitsFrom.head (hd : d.Readable) (h : VisitsFrom d filename dols c st chain) :
    chain.head? = some c := by
  obtain ⟨n, hn⟩ := h
  obtain ⟨w, hw, rfl, -⟩ := hn n (Nat.le_refl n)
  exact visited_head hd hw

theorem lookAt_inOrder (hd : d.Readable) (hlen : 0 < v.fatlength) {r : DirWalk × Verdict}
    (hst : st.InOrder d v) (h : lookAt d filename dols c st = some r) : r.1.InOrder d v :=
  lookCluster_inOrder hd hlen (readCluster_inOrder hd hst) h

theorem visitsFrom_of_done (hd : d.Readable) {r : Lookup}
    (h : lookAt d filename dols c st = some (st', .done r)) :
    VisitsFrom d filename dols c st chain ↔ chain = [c] ∧ r = .absent := by
  have hloop : ∀ n, getDentfromdirLoop d filename dols (n + 1) c st = some ⟨[c], r, st'⟩ := by
    intro n
    rw [loop_succ hd, h]
  constructor
  · rintro ⟨n, hn⟩
    obtain ⟨w, hw, hvisited, hresult⟩ := hn (n + 1) (Nat.le_succ n)
    rw [hloop] at hw
    obtain rfl := Option.some.inj hw
    exact ⟨hvisited.symm, hresult⟩
  · rintro ⟨rfl, rfl⟩
    refine ⟨1, fun fuel hfuel => ?_⟩
    obtain ⟨n, rfl⟩ := Nat.exists_eq_succ_of_ne_zero (Nat.ne_of_gt (Nat.zero_lt_of_lt hfuel))
    exact ⟨_, hloop n, rfl, rfl⟩

/-- **A cluster that is passed**: the walk ends when `CHECK_CLUST` flags its entry, and goes on at
the cluster that the entry names when not. -/
theorem visitsFrom_of_next (hd : d.Readable) (hlen : 0 < v.fatlength) (hst : st.InOrder d v)
    (h : lookAt d filename dols c st = some (st', .next)) :
    VisitsFrom d filename dols c st (c :: rest) ↔
      if Accepted d v c then VisitsFrom d filename dols (BitVec.ofNat 32 (rawEntry d v c.toNat))
        (st'.nextClust d c).2 rest
      else rest = [] := by
  have hst' := lookAt_inOrder hd hlen hst h
  have hent : (st'.nextClust d c).1 = BitVec.ofNat 32 (rawEntry d v c.toNat) :=
    (nextClust_inOrder hd hlen hst').1
  by_cases hok : Accepted d v c
  · have hloop : ∀ n, getDentfromdirLoop d filename dols (n + 1) c st =
        (getDentfromdirLoop d filename dols n (BitVec.ofNat 32 (rawEntry d v c.toNat))
          (st'.nextClust d c).2).map fun w => { w with visited := c :: w.visited } := by
      intro n
      rw [loop_succ hd, h]
      simp only
      rw [hent, hst'.1, hok, if_neg Bool.false_ne_true]
    rw [if_pos hok]
    constructor
    · rintro ⟨n, hn⟩
      refine ⟨n, fun fuel hfuel => ?_⟩
      obtain ⟨w, hw, hvisited, hresult⟩ := hn (fuel + 1) (Nat.le_succ_of_le hfuel)
      rw [hloop, Option.map_eq_some_iff] at hw
      obtain ⟨w', hw', rfl⟩ := hw
      exact ⟨w', hw', List.cons_injective hvisited, hresult⟩
    · rintro ⟨n, hn⟩
      refine ⟨n + 1, fun fuel hfuel => ?_⟩
      obtain ⟨m, rfl⟩ := Nat.exists_eq_succ_of_ne_zero (Nat.ne_of_gt (Nat.zero_lt_of_lt hfuel))
      obtain ⟨w, hw, hvisited, hresult⟩ := hn m (Nat.le_of_succ_le_succ hfuel)
      refine ⟨{ w with visited := c :: w.visited }, ?_, congrArg (c :: ·) hvisited, hresult⟩
      rw [Nat.succ_eq_add_one, hloop, hw, Option.map_some]
  · have hloop : ∀ n, getDentfromdirLoop d filename dols (n + 1) c st =
        some ⟨[c], .absent, { (st'.nextClust d c).2 with
          printed := (st'.nextClust d c).2.printed ++ [.invalid] }⟩ := by
      intro n
      rw [loop_succ hd, h]
      simp only
      rw [hent, hst'.1, if_pos (Bool.eq_true_of_not_eq_false hok)]
    rw [if_neg hok]
    constructor
    · rintro ⟨n, hn⟩
      obtain ⟨w, hw, hvisited, -⟩ := hn (n + 1) (Nat.le_succ n)
      rw [hloop] at hw
      obtain rfl := Option.some.inj hw
      exact (List.cons_injective hvisited).symm
    · rintro rfl
      refine ⟨1, fun fuel hfuel => ?_⟩
      obtain ⟨m, rfl⟩ := Nat.exists_eq_succ_of_ne_zero (Nat.ne_of_gt (Nat.zero_lt_of_lt hfuel))
      exact ⟨_, hloop m, rfl, rfl⟩

theorem VisitsFrom.absentFrom (hd : d.Readable) (hlen : 0 < v.fatlength) (hst : st.InOrder d v)
    (h : VisitsFrom d filename dols c st (c :: rest)) :
    ∃ marker, AbsentFrom d filename dols marker (c :: rest) st := by
  induction rest generalizing c st with
  | nil =>
    cases hlook : lookAt d filename dols c st with
    | none =>
      obtain ⟨n, hn⟩ := h
      obtain ⟨w, hw, -⟩ := hn (n + 1) (Nat.le_succ n)
      rw [loop_succ hd, hlook] at hw
      cases hw
    | some r =>
      obtain ⟨st', verdict⟩ := r
      cases verdict with
      | done r =>
        obtain ⟨-, rfl⟩ := (visitsFrom_of_done hd hlook).mp h
        exact ⟨true, .marked hlook⟩
      | next => exact ⟨false, .full hlook⟩
  | cons c' rest ih =>
    cases hlook : lookAt d filename dols c st with
    | none =>
      obtain ⟨n, hn⟩ := h
      obtain ⟨w, hw, -⟩ := hn (n + 1) (Nat.le_succ n)
      rw [loop_succ hd, hlook] at hw
      cases hw
    | some r =>
      obtain ⟨st', verdict⟩ := r
      cases verdict with
      | done r => exact absurd ((visitsFrom_of_done hd hlook).mp h).1 (by simp)
      | next =>
        rw [visitsFrom_of_next hd hlen hst hlook] at h
        split_ifs at h with hok
        have hst' : (st'.nextClust d c).2.InOrder d v :=
          (nextClust_inOrder hd hlen (lookAt_inOrder hd hlen hst hlook)).2
        rw [← Option.some.inj (h.head hd)] at h
        obtain ⟨marker, habs⟩ := ih hst' h
        exact ⟨marker, .next hlook habs⟩

/-- **The walk keeps to a chain** when `CHECK_CLUST` lets all links pass, and does not let the last
entry pass or is not asked about it. -/
theorem visitsChain_iff_accepted (hd : d.Readable) (hlen : 0 < v.fatlength)
    (habs : AbsentFrom d filename dols marker (c :: rest) st) (hst : st.InOrder d v)
    (hlinked : (c :: rest).IsChain (Linked d v)) :
    VisitsFrom d filename dols c st (c :: rest) ↔
      (∀ x ∈ (c :: rest).dropLast, Accepted d v x) ∧
        (marker = true ∨ ∀ x ∈ (c :: rest).getLast?, ¬ Accepted d v x) := by
  generalize hchain : c :: rest = chain at habs
  induction habs generalizing c rest with
  | full h =>
    obtain ⟨rfl, rfl⟩ := List.cons_eq_cons.mp hchain
    rw [visitsFrom_of_next hd hlen hst h]
    split_ifs with hok
    · refine iff_of_false (fun h => absurd (h.head hd) (by simp)) ?_
      rintro ⟨-, hm | hlast⟩
      · cases hm
      · exact hlast _ rfl hok
    · refine iff_of_true rfl ⟨fun x hx => absurd hx List.not_mem_nil, Or.inr fun x hx => ?_⟩
      obtain rfl := Option.some.inj hx
      exact hok
  | marked h =>
    obtain ⟨rfl, rfl⟩ := List.cons_eq_cons.mp hchain
    rw [visitsFrom_of_done hd h]
    exact iff_of_true ⟨rfl, rfl⟩ ⟨fun x hx => absurd hx List.not_mem_nil, Or.inl rfl⟩
  | @next marker c₀ c' rest' st st' h hrest ih =>
    obtain ⟨rfl, rfl⟩ := List.cons_eq_cons.mp hchain
    obtain ⟨hlink, hlinked'⟩ := List.isChain_cons_cons.mp hlinked
    have hst' : (st'.nextClust d c).2.InOrder d v :=
      (nextClust_inOrder hd hlen (lookAt_inOrder hd hlen hst h)).2
    rw [visitsFrom_of_next hd hlen hst h, List.dropLast_cons_cons, List.forall_mem_cons,
      List.getLast?_cons_cons]
    by_cases hok : Accepted d v c
    · rw [if_pos hok, hok.eq hlink, ih hst' hlinked' rfl, and_iff_right hok]
    · rw [if_neg hok]
      exact iff_of_false (List.cons_ne_nil _ _) fun hall => hok hall.1.1

/-! ## Names that are absent -/

theorem lookAt_of_other (dols : Bool) (hd : d.Readable) (hname : filename ≠ [])
    (h : ∀ p < 16 * st.fs.clustSize.toNat, Other (d.bytes (startSect st.fs.toVolume c))
      (16 * st.fs.clustSize.toNat) filename p) :
    ∃ st', lookAt d filename dols c st = some (st', .next) := by
  have hcount : direntsPerClust st.fs.toVolume = 16 * st.fs.clustSize.toNat := by
    unfold direntsPerClust fsBlockSize
    omega
  have hholds : Holds (d.bytes (startSect st.fs.toVolume c)) (16 * st.fs.clustSize.toNat)
      (st.readCluster d c).1 0 := by
    intro x _ hx
    have hlt : x < st.fs.clustSize.toNat * fsBlockSize := by
      unfold fsBlockSize
      omega
    rw [readCluster_eq hd]
    have hget := getElem?_stretch (f := d.bytes (startSect st.fs.toVolume c)) (s := 0) hlt
    have hsplice := splice_add (f := st.block) (s := 0) hget
    rwa [Nat.zero_add] at hsplice
  have hfs : (st.readCluster d c).1.fs = st.fs := by rw [readCluster_eq hd]
  rw [lookAt, hcount]
  exact lookCluster_of_other hname hholds (by rw [hfs]) (Nat.zero_add _) fun q _ hq => h q hq

theorem absentFrom_of_other (hd : d.Readable) (hlen : 0 < v.fatlength) (hname : filename ≠ [])
    (hst : st.InOrder d v)
    (h : ∀ x ∈ c :: rest, ∀ p < 16 * v.clustSize.toNat,
      Other (d.bytes (startSect v x)) (16 * v.clustSize.toNat) filename p) :
    AbsentFrom d filename dols false (c :: rest) st := by
  induction rest generalizing c st with
  | nil =>
    obtain ⟨st', hlook⟩ := lookAt_of_other dols hd hname
      (hst.1.symm ▸ h c List.mem_cons_self)
    exact .full hlook
  | cons c' rest ih =>
    obtain ⟨st', hlook⟩ := lookAt_of_other dols hd hname
      (hst.1.symm ▸ h c List.mem_cons_self)
    have hst' : (st'.nextClust d c).2.InOrder d v :=
      (nextClust_inOrder hd hlen (lookAt_inOrder hd hlen hst hlook)).2
    exact .next hlook (ih hst' fun x hx => h x (List.mem_cons_of_mem c hx))

/-! ## The links and the end -/

theorem rawEntry_lt_of_fat12 (h : v.fatsize = .fat12) (n : ℕ) : rawEntry d v n < 4096 := by
  have h0 := (tableByte d v (3 * n / 2)).toNat_lt
  have h1 := (tableByte d v (3 * n / 2 + 1)).toNat_lt
  rw [rawEntry, h]
  simp only [tableEntry]
  split_ifs <;> omega

theorem accepted_iff : Accepted d v c ↔ 2 ≤ rawEntry d v c.toNat ∧
    rawEntry d v c.toNat < if v.fatsize = .fat32 then 0xffffff0 else 0xfff0 := by
  have hlt : rawEntry d v c.toNat < 2 ^ 32 := tableEntry_lt _ _ _
  rw [Accepted, checkClust_eq_false_iff, BitVec.toNat_ofNat, Nat.mod_eq_of_lt hlt]

theorem accepted_iff_of_linked (hlink : Linked d v c c') (hin : DataCluster v.fatsize c'.toNat) :
    Accepted d v c ↔ (v.fatsize = .fat32 → rawEntry d v c.toNat < 2 ^ 28) := by
  rw [Linked, fatEntry] at hlink
  rw [accepted_iff]
  obtain ⟨hle, hlt⟩ := hin
  rw [← hlink] at hle hlt
  cases hsize : v.fatsize with
  | fat12 =>
    have h12 := rawEntry_lt_of_fat12 (d := d) hsize c.toNat
    rw [hsize] at hle
    exact iff_of_true ⟨hle, h12.trans (by decide)⟩ (fun h => absurd h (by decide))
  | fat16 =>
    rw [hsize] at hle hlt
    exact iff_of_true ⟨hle, hlt⟩ (fun h => absurd h (by decide))
  | fat32 =>
    rw [hsize] at hle hlt
    simp only [FatSize.limit, if_true, forall_true_left] at hle hlt ⊢
    omega

theorem accepted_iff_of_endMark (hend : EndMark v.fatsize (fatEntry d v c.toNat)) :
    Accepted d v c ↔ v.fatsize = .fat12 := by
  rw [EndMark, fatEntry] at hend
  rw [accepted_iff]
  cases hsize : v.fatsize with
  | fat12 =>
    rw [hsize] at hend
    have hle : 0xff8 ≤ rawEntry d v c.toNat := hend
    have hlt := rawEntry_lt_of_fat12 (d := d) hsize c.toNat
    exact iff_of_true ⟨le_trans (by decide) hle, hlt.trans (by decide)⟩ rfl
  | fat16 =>
    rw [hsize] at hend
    have hle : 0xfff8 ≤ rawEntry d v c.toNat := hend
    exact iff_of_false (fun h => absurd h.2 (Nat.not_lt.mpr (le_trans (by decide) hle)))
      FatSize.noConfusion
  | fat32 =>
    rw [hsize] at hend
    have hle : 0xffffff8 ≤ rawEntry d v c.toNat % 2 ^ 28 := hend
    have hmod := Nat.mod_le (rawEntry d v c.toNat) (2 ^ 28)
    exact iff_of_false
      (fun h => absurd h.2 (Nat.not_lt.mpr (le_trans (by decide) (hle.trans hmod))))
      FatSize.noConfusion

theorem exists_of_mem_dropLast {α : Type*} {R : α → α → Prop} {l : List α} (h : l.IsChain R) {a : α}
    (ha : a ∈ l.dropLast) : ∃ b ∈ l, R a b := by
  induction l with
  | nil => exact absurd ha List.not_mem_nil
  | cons x l ih =>
    cases l with
    | nil => exact absurd ha List.not_mem_nil
    | cons y l =>
      obtain ⟨hxy, hl⟩ := List.isChain_cons_cons.mp h
      rw [List.dropLast_cons_cons, List.mem_cons] at ha
      rcases ha with rfl | ha
      · exact ⟨y, List.mem_cons_of_mem _ List.mem_cons_self, hxy⟩
      · obtain ⟨b, hb, hab⟩ := ih hl ha
        exact ⟨b, List.mem_cons_of_mem _ hb, hab⟩

theorem Directory.visits_iff {st : Walk} {retdent : DirEntry}
    (h : Directory d st.fs retdent (c :: rest)) :
    VisitsChain d st filename retdent dols (c :: rest) ↔
      VisitsFrom d filename dols c st.dirStart (c :: rest) := by
  rw [Option.some.inj h.head]
  exact Iff.rfl

theorem visitsChain_iff {st : Walk} {retdent : DirEntry} (h : Directory d st.fs retdent chain)
    (habs : AbsentFrom d filename dols marker chain st.dirStart) :
    VisitsChain d st filename retdent dols chain ↔
      (st.fs.fatsize = .fat32 → ∀ c ∈ chain.dropLast, rawEntry d st.fs.toVolume c.toNat < 2 ^ 28) ∧
        (st.fs.fatsize = .fat12 → marker = true) := by
  cases chain with
  | nil => cases habs
  | cons c rest =>
    rw [h.visits_iff, visitsChain_iff_accepted h.readable h.fatlength habs ⟨rfl, h.cache⟩ h.linked]
    have hlinks : ∀ x ∈ (c :: rest).dropLast, Accepted d st.fs.toVolume x ↔
        (st.fs.fatsize = .fat32 → rawEntry d st.fs.toVolume x.toNat < 2 ^ 28) := by
      intro x hx
      obtain ⟨y, hy, hxy⟩ := exists_of_mem_dropLast h.linked hx
      exact accepted_iff_of_linked hxy (h.inside y hy)
    have hlast : (∀ x ∈ (c :: rest).getLast?, ¬ Accepted d st.fs.toVolume x) ↔
        st.fs.fatsize ≠ .fat12 := by
      have hget := List.getLast?_eq_some_getLast (List.cons_ne_nil c rest)
      have hend := accepted_iff_of_endMark (v := st.fs.toVolume) (h.last _ hget)
      rw [hget]
      constructor
      · exact fun hall h12 => hall _ rfl (hend.mpr h12)
      · intro hne y hy hok
        obtain rfl := Option.some.inj hy
        exact hne (hend.mp hok)
    rw [hlast, forall₂_congr hlinks]
    constructor
    · rintro ⟨hpass, hmark⟩
      exact ⟨fun h32 x hx => hpass x hx h32, fun h12 => hmark.resolve_right (not_not.mpr h12)⟩
    · rintro ⟨hpass, hmark⟩
      refine ⟨fun x hx h32 => hpass h32 x hx, ?_⟩
      by_cases h12 : st.fs.fatsize = .fat12
      · exact Or.inl (hmark h12)
      · exact Or.inr h12

theorem VisitsChain.absentFrom {st : Walk} {retdent : DirEntry}
    (h : Directory d st.fs retdent chain) (hvisits : VisitsChain d st filename retdent dols chain) :
    ∃ marker, AbsentFrom d filename dols marker chain st.dirStart := by
  cases chain with
  | nil => cases h.head
  | cons c rest =>
    exact (h.visits_iff.mp hvisits).absentFrom (v := st.fs.toVolume) h.readable h.fatlength
      ⟨rfl, h.cache⟩

/-- **When the ends of chains are seen.**  `CHECK_CLUST` treats a value as it should unless it is
one from `0xff0` on in a FAT12 table, or the number of a data cluster with one of the four bits on
top in a FAT32 table; and a directory is looked through to its end, and no further, when the name is
absent, unless a link of FAT32 has one of these bits, or it is FAT12 and the last cluster is
full. -/
theorem checkClust_iff (fatsize : FatSize) (x : BitVec 32) (d : Disk) (st : Walk)
    (retdent : DirEntry) (chain : List (BitVec 32)) (filename : List UInt8) (dols : Bool) :
    (x.toNat < 2 ^ fatsize.bits →
      (Flags fatsize x ↔
        (fatsize = .fat12 → x.toNat < 0xff0) ∧
          (fatsize = .fat32 → x.toNat < 2 ^ 28 ∨
            ¬ DataCluster .fat32 (entryNumber .fat32 x)))) ∧
    (Directory d st.fs retdent chain →
      (VisitsChain d st filename retdent dols chain ↔
        ∃ marker, AbsentFrom d filename dols marker chain st.dirStart ∧
          (st.fs.fatsize = .fat32 →
            ∀ c ∈ chain.dropLast, rawEntry d st.fs.toVolume c.toNat < 2 ^ 28) ∧
          (st.fs.fatsize = .fat12 → marker = true))) := by
  refine ⟨flags_iff fatsize x, fun h => ⟨fun hvisits => ?_, ?_⟩⟩
  · obtain ⟨marker, habs⟩ := hvisits.absentFrom h
    exact ⟨marker, habs, (visitsChain_iff h habs).mp hvisits⟩
  · rintro ⟨marker, habs, hcond⟩
    exact (visitsChain_iff h habs).mpr hcond

/-! ## A full directory -/

/-- A volume with one block for each table and each cluster. -/
def dirFs (fatsize : FatSize) : Fsdata where
  fatsize := fatsize
  fatlength := 1
  fatSect := 1
  rootdirSect := 2
  clustSize := 1
  dataBegin := 3
  fatbuf _ := 0
  fatbufnum := -1

/-- The buffers before the directory is read. -/
def dirSt (fatsize : FatSize) : Walk where
  fs := dirFs fatsize
  block _ := 0
  vfatBlock _ := 0

/-- A device whose table has ends of chains only; the rest is filled with the letter `A`: each entry
of a directory is a file `AAAAAAAA.AAA`. -/
def dirDisk : Disk where
  partOffset := 0
  block s _ := if s = 1 then 0xff else 0x41
  fails _ _ := false

theorem dirDisk_readable : dirDisk.Readable := fun _ _ => rfl

/-- A directory of one cluster. -/
def dirDent : DirEntry where
  name := [0x44, 0x20, 0x20, 0x20, 0x20, 0x20, 0x20, 0x20]
  ext := [0x20, 0x20, 0x20]
  attr := attrDir
  starthi := 0
  start := 2
  size := 0

theorem dir_directory (fatsize : FatSize) : Directory dirDisk (dirFs fatsize) dirDent [2] where
  readable := dirDisk_readable
  fatlength := (by decide : (0 : BitVec 16) < 1)
  cache := Or.inl rfl
  head := by cases fatsize <;> rfl
  linked := List.isChain_singleton _
  inside := List.forall_mem_singleton.mpr (by cases fatsize <;> decide)
  last c hc := by
    obtain rfl := Option.some.inj hc
    cases fatsize <;> decide

theorem dir_absent (fatsize : FatSize) :
    AbsentFrom dirDisk [0x62] false false [2] (dirSt fatsize).dirStart := by
  refine absentFrom_of_other (v := (dirFs fatsize).toVolume) dirDisk_readable
    (by decide : (0 : BitVec 16) < 1) (by decide) ⟨rfl, Or.inl rfl⟩ ?_
  rw [List.forall_mem_singleton]
  intro p hp
  have hp16 : p < 16 := hp
  have hsame : SameSlot (dirDisk.bytes (startSect (dirFs fatsize).toVolume 2)) (fun _ => 0x41)
      p 0 := by
    intro o ho
    have hdiv : (32 * p + o) / fsBlockSize = 0 := Nat.div_eq_of_lt (by unfold fsBlockSize; omega)
    rw [Disk.bytes, hdiv]
    rfl
  refine .entry ?_ ?_ ?_
  · rw [hsame.slotAttr]
    decide
  · rw [hsame.slotId]
    decide
  · rw [hsame.read]
    decide

/-- On FAT16 the end is seen. -/
theorem checkClust_iff_full :
    (Flags .fat16 0xffff ↔
      (FatSize.fat16 = .fat12 → (0xffff : BitVec 32).toNat < 0xff0) ∧
        (FatSize.fat16 = .fat32 → (0xffff : BitVec 32).toNat < 2 ^ 28 ∨
          ¬ DataCluster .fat32 (entryNumber .fat32 0xffff))) ∧
    (VisitsChain dirDisk (dirSt .fat16) [0x62] dirDent false [2] ↔
      ∃ marker, AbsentFrom dirDisk [0x62] false marker [2] (dirSt .fat16).dirStart ∧
        (FatSize.fat16 = .fat32 →
          ∀ c ∈ [(2 : BitVec 32)].dropLast,
            rawEntry dirDisk (dirFs .fat16).toVolume c.toNat < 2 ^ 28) ∧
        (FatSize.fat16 = .fat12 → marker = true)) :=
  have h := checkClust_iff .fat16 0xffff dirDisk (dirSt .fat16) dirDent [2] [0x62] false
  ⟨h.1 (by decide), h.2 (dir_directory .fat16)⟩

/-- **On FAT12 it is not**: `0xfff` passes, and the walk goes on from the only cluster of a full
directory. -/
theorem not_checkClust :
    ¬ Flags .fat12 0xfff ∧ EndMark .fat12 0xfff ∧
      Directory dirDisk (dirFs .fat12) dirDent [2] ∧
      AbsentFrom dirDisk [0x62] false false [2] (dirSt .fat12).dirStart ∧
      ¬ VisitsChain dirDisk (dirSt .fat12) [0x62] dirDent false [2] := by
  refine ⟨?_, by decide, dir_directory .fat12, dir_absent .fat12, fun h => ?_⟩
  · intro h
    rw [flags_iff _ _ (by decide)] at h
    exact absurd (h.1 rfl) (by decide)
  · have hcond := (visitsChain_iff (dir_directory .fat12) (dir_absent .fat12)).mp h
    exact Bool.false_ne_true (hcond.2 rfl)

end Fat
end EmevBsp
