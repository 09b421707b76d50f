import EmevBsp.Fat.Contents
import EmevBsp.Fat.Names

/-!
# `fs/fat/fat.c`: a directory below the root

`get_dentfromdir` reads the clusters of a directory one after the other and looks at all the entries
of each.  It compares their names with one, or lists them.  `get_fatent` has the next cluster, and
`CHECK_CLUST` says when there is none.  The block that the caller has worked out for the start is
not used.

The lines of the listing are kept as what is in them.
-/

namespace EmevBsp
namespace Fat

/-! ## The listing -/

def attrDir : UInt8 := 16

/-- What is printed: `" %8ld   %s%c\n"` for a file, `"            %s%c\n"` for a directory,
`"\n%d file(s), %d dir(s)\n\n"` at the end, and `"Invalid FAT entry\n"`. -/
inductive Printed
  | file (size : BitVec 32) (name : List UInt8)
  | dir (name : List UInt8)
  | total (files dirs : ℕ)
  | invalid
  deriving DecidableEq

/-- The variables of `get_dentfromdir`, and what it has printed; the buffer is
`get_dentfromdir_block`. -/
structure DirWalk extends Walk where
  prevcksum : BitVec 16
  files : ℕ
  dirs : ℕ
  printed : List Printed

/-- `mkcksum`, of the eleven characters of a short name. -/
def mkcksum (str : List UInt8) : UInt8 :=
  str.foldl (fun ret c => (((ret &&& 1) <<< 7) ||| ((ret &&& 0xfe) >>> 1)) + c) 0

/-- An entry is listed, under its long or its short name. -/
def DirWalk.list (st : DirWalk) (dent : DirEntry) (name : List UInt8) : DirWalk :=
  if dent.attr &&& attrDir ≠ 0 then
    { st with dirs := st.dirs + 1, printed := st.printed ++ [.dir name] }
  else if name ≠ [] then
    { st with files := st.files + 1, printed := st.printed ++ [.file dent.size name] }
  else st

/-! ## The entries of a cluster -/

/-- What `get_dentfromdir` makes of an entry that is no label and no slot, or whose long name is
known. -/
def lookName (filename : List UInt8) (dols : Bool) (st : DirWalk) (i : ℕ) (lname : List UInt8) :
    DirWalk × Verdict :=
  let dent := DirEntry.read st.block i
  if slotId st.block i = 0 then
    (if dols then { st with printed := st.printed ++ [.total st.files st.dirs] } else st,
      .done .absent)
  else if dols ∧ (mkcksum (dent.name ++ dent.ext)).toNat = st.prevcksum.toNat then (st, .next)
  else if dols then (st.list dent (getName dent), .next)
  else if filename ≠ getName dent ∧ filename ≠ lname then (st, .next)
  else (st, .done (.found dent))

/-- The body of the loop over the entries of a cluster. -/
def lookDent (d : Disk) (curclust : BitVec 32) (filename : List UInt8) (dols : Bool) (st : DirWalk)
    (i : ℕ) : Option (DirWalk × Verdict) :=
  if slotId st.block i = deletedFlag then some (st, .next)
  else if slotAttr st.block i &&& attrVolume ≠ 0 then
    if slotAttr st.block i &&& attrVfat ≠ 0 ∧ slotId st.block i &&& lastLongEntryMask ≠ 0 then
      let st := { st with prevcksum := BitVec.ofNat 16 (st.block (32 * i + 13)).toNat }
      (getVfatname d st.toWalk curclust i).map fun r =>
        let st := { st with toWalk := r.1 }
        if dols then (st.list (DirEntry.read st.block i) r.2, .next)
        else lookName filename dols st i r.2
    else some (st, .next)
  else some (lookName filename dols st i [])

/-- `n` entries from entry `i` on. -/
def lookCluster (d : Disk) (curclust : BitVec 32) (filename : List UInt8) (dols : Bool) :
    ℕ → ℕ → DirWalk → Option (DirWalk × Verdict)
  | 0, _, st => some (st, .next)
  | n + 1, i, st =>
    match lookDent d curclust filename dols st i with
    | none => none
    | some (st, .done r) => some (st, .done r)
    | some (st, .next) => lookCluster d curclust filename dols n (i + 1) st

/-! ## The clusters of a directory -/

/-- `get_cluster (mydata, curclust, get_dentfromdir_block, ...)`: the variables, and the result. -/
def DirWalk.readCluster (d : Disk) (curclust : BitVec 32) (st : DirWalk) : DirWalk × ℤ :=
  let read := getCluster d st.fs.toVolume curclust st.block 0
    (st.fs.clustSize.toNat * fsBlockSize)
  ({ st with block := read.1 }, read.2)

def direntsPerClust (v : Volume) : ℕ := v.clustSize.toNat * fsBlockSize / 32

/-- `curclust = get_fatent (mydata, curclust)`. -/
def DirWalk.nextClust (d : Disk) (curclust : BitVec 32) (st : DirWalk) : BitVec 32 × DirWalk :=
  let clust := getFatent d st.fs curclust
  (clust.1, { st with fs := clust.2 })

/-- What looking through a directory gives: the clusters that were looked at, and the result. -/
structure DirWalked where
  visited : List (BitVec 32)
  result : Lookup
  final : DirWalk

/-- The loop over the clusters.  Nothing when the turns do not suffice, or when a buffer is left. -/
def getDentfromdirLoop (d : Disk) (filename : List UInt8) (dols : Bool) :
    ℕ → BitVec 32 → DirWalk → Option DirWalked
  | 0, _, _ => none
  | n + 1, curclust, st =>
    let read := st.readCluster d curclust
    if read.2 ≠ 0 then some ⟨[], .error, read.1⟩
    else
      match lookCluster d curclust filename dols (direntsPerClust st.fs.toVolume) 0 read.1 with
      | none => none
      | some (st, .done r) => some ⟨[curclust], r, st⟩
      | some (st, .next) =>
        let next := st.nextClust d curclust
        if checkClust next.1 st.fs.fatsize then
          some ⟨[curclust], .absent, { next.2 with printed := next.2.printed ++ [.invalid] }⟩
        else (getDentfromdirLoop d filename dols n next.1 next.2).map fun w =>
          { w with visited := curclust :: w.visited }

/-- The variables at the start; `st` has what was in the buffers before. -/
def Walk.dirStart (st : Walk) : DirWalk :=
  { st with prevcksum := 0xffff, files := 0, dirs := 0, printed := [] }

def getDentfromdir (d : Disk) (st : Walk) (filename : List UInt8) (retdent : DirEntry) (dols : Bool)
    (fuel : ℕ) : Option DirWalked :=
  getDentfromdirLoop d filename dols fuel (startClust st.fs.toVolume retdent) st.dirStart

/-! ## What an entry leaves alone -/

variable {d : Disk} {v : Volume} {curclust : BitVec 32} {filename : List UInt8} {dols : Bool}

/-- The volume is the one that is mounted, and the cache of `get_fatent` is in order. -/
def DirWalk.InOrder (d : Disk) (v : Volume) (st : DirWalk) : Prop :=
  st.fs.toVolume = v ∧ CacheOk d st.fs

theorem getVfatname_fs {st : Walk} {i : ℕ} {r : VfatName}
    (h : getVfatname d st curclust i = some r) :
    r.1.fs = st.fs ∨ r.1.fs = (getFatent d st.fs curclust).2 := by
  have hfinish : ∀ {st : Walk} {dir : ℕ → UInt8} {real : ℕ} {name : List UInt8} {r : VfatName},
      finishName st i dir real name = some r → r.1.fs = st.fs := by
    intro st dir real name r h
    rw [finishName] at h
    split_ifs at h
    rw [← Option.some.inj h]
  rw [getVfatname] at h
  cases hscan : scanSlots st.block (16 * st.fs.clustSize.toNat) (slotNumber st.block i) i with
  | none =>
    rw [hscan] at h
    exact Or.inl (by rw [← Option.some.inj h])
  | some slot =>
    rw [hscan] at h
    simp only at h
    split_ifs at h
    · right
      rw [crossVfatname] at h
      simp only at h
      split_ifs at h
      · rw [← Option.some.inj h]
      · rw [← Option.some.inj h]
      · rw [Option.bind_eq_bind, Option.bind_eq_some_iff] at h
        obtain ⟨slot2, -, h⟩ := h
        split_ifs at h
        rw [Option.bind_eq_bind, Option.bind_eq_some_iff] at h
        obtain ⟨name, -, h⟩ := h
        rw [Option.bind_eq_some_iff] at h
        obtain ⟨name', -, h⟩ := h
        rw [hfinish h]
    · left
      rw [Option.bind_eq_bind, Option.bind_eq_some_iff] at h
      obtain ⟨name, -, h⟩ := h
      exact hfinish h

@[simp] theorem DirWalk.list_toWalk (st : DirWalk) (dent : DirEntry) (name : List UInt8) :
    (st.list dent name).toWalk = st.toWalk := by
  rw [list]
  split_ifs <;> rfl

theorem lookName_toWalk (st : DirWalk) (i : ℕ) (lname : List UInt8) :
    (lookName filename dols st i lname).1.toWalk = st.toWalk := by
  simp only [lookName]
  split_ifs <;> simp

theorem lookDent_walk {st : DirWalk} {i : ℕ} {r : DirWalk × Verdict}
    (h : lookDent d curclust filename dols st i = some r) :
    r.1.toWalk = st.toWalk ∨
      ∃ name, getVfatname d st.toWalk curclust i = some (r.1.toWalk, name) := by
  by_cases hdel : slotId st.block i = deletedFlag
  · rw [lookDent, if_pos hdel] at h
    rw [← Option.some.inj h]
    exact Or.inl rfl
  by_cases hvol : slotAttr st.block i &&& attrVolume ≠ 0
  · by_cases hslot : slotAttr st.block i &&& attrVfat ≠ 0 ∧
        slotId st.block i &&& lastLongEntryMask ≠ 0
    · right
      rw [lookDent, if_neg hdel, if_pos hvol, if_pos hslot, Option.map_eq_some_iff] at h
      obtain ⟨⟨w, name⟩, hget, rfl⟩ := h
      refine ⟨name, hget.trans ?_⟩
      by_cases hls : dols = true
      · simp only [hls, if_true, DirWalk.list_toWalk]
      · simp only [hls, Bool.false_eq_true, if_false, lookName_toWalk]
    · rw [lookDent, if_neg hdel, if_pos hvol, if_neg hslot] at h
      rw [← Option.some.inj h]
      exact Or.inl rfl
  · rw [lookDent, if_neg hdel, if_neg hvol] at h
    rw [← Option.some.inj h, lookName_toWalk]
    exact Or.inl rfl

theorem lookDent_inOrder (hd : d.Readable) (hlen : 0 < v.fatlength) {st : DirWalk} {i : ℕ}
    {r : DirWalk × Verdict} (hst : st.InOrder d v)
    (h : lookDent d curclust filename dols st i = some r) : r.1.InOrder d v := by
  rcases lookDent_walk h with hwalk | ⟨name, hget⟩
  · rw [DirWalk.InOrder, hwalk]
    exact hst
  · rcases getVfatname_fs hget with hfs | hfs
    · rw [DirWalk.InOrder, hfs]
      exact hst
    · obtain ⟨-, hvol, hcache⟩ := getFatent_eq hd (hst.1 ▸ hlen) hst.2 curclust
      rw [DirWalk.InOrder, hfs]
      exact ⟨hvol.trans hst.1, hcache⟩

theorem lookCluster_inOrder (hd : d.Readable) (hlen : 0 < v.fatlength) {n i : ℕ} {st : DirWalk}
    {r : DirWalk × Verdict} (hst : st.InOrder d v)
    (h : lookCluster d curclust filename dols n i st = some r) : r.1.InOrder d v := by
  induction n generalizing i st with
  | zero =>
    rw [← Option.some.inj h]
    exact hst
  | succ n ih =>
    rw [lookCluster] at h
    cases hlook : lookDent d curclust filename dols st i with
    | none =>
      rw [hlook] at h
      cases h
    | some r₁ =>
      obtain ⟨st₁, verdict⟩ := r₁
      have hst₁ := lookDent_inOrder hd hlen hst hlook
      rw [hlook] at h
      cases verdict with
      | done result =>
        rw [← Option.some.inj h]
        exact hst₁
      | next => exact ih hst₁ h

theorem readCluster_eq (hd : d.Readable) (st : DirWalk) :
    st.readCluster d curclust =
      ({ st with block := splice st.block 0 (stretch (d.bytes (startSect st.fs.toVolume curclust)) 0
        (st.fs.clustSize.toNat * fsBlockSize)) }, 0) := by
  rw [DirWalk.readCluster, getCluster_eq hd]

theorem readCluster_inOrder (hd : d.Readable) {st : DirWalk} (hst : st.InOrder d v) :
    (st.readCluster d curclust).1.InOrder d v := by
  rw [readCluster_eq hd]
  exact hst

theorem nextClust_inOrder (hd : d.Readable) (hlen : 0 < v.fatlength) {st : DirWalk}
    (hst : st.InOrder d v) :
    (st.nextClust d curclust).1 = BitVec.ofNat 32 (rawEntry d v curclust.toNat) ∧
      (st.nextClust d curclust).2.InOrder d v := by
  obtain ⟨hent, hvol, hcache⟩ := getFatent_eq hd (hst.1 ▸ hlen) hst.2 curclust
  rw [hst.1] at hent
  exact ⟨hent, hvol.trans hst.1, hcache⟩

/-! ## Entries that do not have the name -/

variable {dir : ℕ → UInt8} {last : ℕ}

/-- An entry of a cluster that is not the file: it is deleted, a label or a slot inside a long name,
an entry with another name, or the first slot of another long name whose entry is in the cluster and
has another name. -/
inductive Other (dir : ℕ → UInt8) (last : ℕ) (filename : List UInt8) (p : ℕ) : Prop
  | deleted (h : slotId dir p = deletedFlag)
  | label (hvol : slotAttr dir p &&& attrVolume ≠ 0) (hflag : ¬ Flagged dir p)
  | entry (hvol : slotAttr dir p &&& attrVolume = 0) (hid : slotId dir p ≠ 0)
      (hname : getName (DirEntry.read dir p) ≠ filename)
  | long (n : ℕ) (hflag : Flagged dir p) (hseq : Sequence dir p n) (hin : p + n < last)
      (hlen : (longText dir p n).length < nameSize)
      (hshort : getName (DirEntry.read dir (p + n)) ≠ filename)
      (hlong : longName dir p n ≠ filename)

/-- The buffer holds a cluster from an entry on. -/
def Holds (dir : ℕ → UInt8) (last : ℕ) (st : DirWalk) (p : ℕ) : Prop :=
  ∀ x, 32 * p ≤ x → x < 32 * last → st.block x = dir x

theorem Holds.sameSlot {st : DirWalk} {p q : ℕ} (h : Holds dir last st p) (hp : p ≤ q)
    (hq : q < last) : SameSlot st.block dir q q :=
  fun o _ => h (32 * q + o) (by omega) (by omega)

theorem Holds.succ {st : DirWalk} {p : ℕ} {r : DirWalk × Verdict} (h : Holds dir last st p)
    (hlook : lookDent d curclust filename dols st p = some r) : Holds dir last r.1 (p + 1) := by
  intro x hx hlt
  have hblock : r.1.block x = st.block x := by
    rcases lookDent_walk hlook with hwalk | ⟨name, hget⟩
    · rw [hwalk]
    · exact (getVfatname_kept hget).2 x hx
  rw [hblock, h x (by omega) hlt]

theorem lookName_of_ne {st : DirWalk} {i : ℕ} {lname : List UInt8} (hid : slotId st.block i ≠ 0)
    (hshort : getName (DirEntry.read st.block i) ≠ filename) (hlong : lname ≠ filename) :
    (lookName filename dols st i lname).2 = .next := by
  simp only [lookName, if_neg hid]
  split_ifs with hsum hls hname
  · rfl
  · rfl
  · rfl
  · exact absurd ⟨Ne.symm hshort, Ne.symm hlong⟩ hname

theorem lookDent_of_getVfatname (filename : List UInt8) (dols : Bool) {st : DirWalk} {i : ℕ}
    {w : Walk} {lname : List UInt8} (hdel : slotId st.block i ≠ deletedFlag)
    (hflag : Flagged st.block i)
    (hget : getVfatname d st.toWalk curclust i = some (w, lname)) :
    ∃ st', st'.toWalk = w ∧ lookDent d curclust filename dols st i =
      some (if dols then (st'.list (DirEntry.read w.block i) lname, .next)
        else lookName filename dols st' i lname) := by
  refine ⟨{ st with
    toWalk := w
    prevcksum := BitVec.ofNat 16 (st.block (32 * i + 13)).toNat }, rfl, ?_⟩
  rw [lookDent, if_neg hdel, if_pos hflag.1, if_pos ⟨attrVfat_ne_zero hflag.1, hflag.2⟩]
  simp only [hget, Option.map_some]

theorem lookDent_of_other (d : Disk) (curclust : BitVec 32) (dols : Bool) (hname : filename ≠ [])
    {st : DirWalk} {p : ℕ} (hst : Holds dir last st p) (hp : p < last)
    (hlast : last ≤ 16 * st.fs.clustSize.toNat) (h : Other dir last filename p) :
    ∃ st', lookDent d curclust filename dols st p = some (st', .next) := by
  have hhead := hst.sameSlot (Nat.le_refl p) hp
  by_cases hdel : slotId st.block p = deletedFlag
  · exact ⟨st, by rw [lookDent, if_pos hdel]⟩
  cases h with
  | deleted h => exact absurd (hhead.slotId.trans h) hdel
  | label hvol hflag =>
    have hvol' : slotAttr st.block p &&& attrVolume ≠ 0 := by rwa [hhead.slotAttr]
    have hslot : ¬ (slotAttr st.block p &&& attrVfat ≠ 0 ∧
        slotId st.block p &&& lastLongEntryMask ≠ 0) :=
      fun h => hflag (hhead.flagged.mp ⟨hvol', h.2⟩)
    exact ⟨st, by rw [lookDent, if_neg hdel, if_pos hvol', if_neg hslot]⟩
  | entry hvol hid hshort =>
    have hvol' : ¬ slotAttr st.block p &&& attrVolume ≠ 0 := by rwa [hhead.slotAttr, not_not]
    have hnext : (lookName filename dols st p []).2 = .next := by
      refine lookName_of_ne ?_ ?_ (Ne.symm hname)
      · rwa [hhead.slotId]
      · rwa [hhead.read]
    refine ⟨(lookName filename dols st p []).1, ?_⟩
    rw [lookDent, if_neg hdel, if_neg hvol', ← hnext]
  | long n hflag hseq hin hlen hshort hlong =>
    have hslots : ∀ t ≤ n, SameSlot st.block dir (p + t) (p + t) :=
      fun t ht => hst.sameSlot (Nat.le_add_right p t) (by omega)
    have hflag' : Flagged st.block p := hhead.flagged.mpr hflag
    have htext : slotText st.block p n = slotText dir p n :=
      slotText_congr fun t ht => hslots t ht.le
    have hget : getVfatname d st.toWalk curclust p = _ :=
      getVfatname_of_sequence curclust hflag'.2 (hseq.congr hslots) (by omega)
        (by rwa [longText, htext])
    have hcopy : SameSlot (copyEntry st.block p st.block (p + n)) dir p (p + n) :=
      fun o ho => (sameSlot_copyEntry st.block (p + n) o ho).trans (hslots n (Nat.le_refl n) o ho)
    have hlname : longName st.block p n ≠ filename := by rwa [longName, longText, htext]
    obtain ⟨st', hwalk, hlook⟩ := lookDent_of_getVfatname filename dols hdel hflag' hget
    have hnext : (lookName filename dols st' p (longName st.block p n)).2 = .next := by
      refine lookName_of_ne ?_ ?_ hlname
      · rw [hwalk, hcopy.slotId]
        exact hseq.notEnd
      · rw [hwalk, hcopy.read]
        exact hshort
    rw [hlook]
    cases dols with
    | true => exact ⟨_, rfl⟩
    | false => exact ⟨_, congrArg some (Prod.ext rfl hnext)⟩

theorem lookCluster_of_other (hname : filename ≠ []) {n p : ℕ} {st : DirWalk}
    (hst : Holds dir last st p) (hlast : last ≤ 16 * st.fs.clustSize.toNat) (hn : p + n = last)
    (h : ∀ q, p ≤ q → q < last → Other dir last filename q) :
    ∃ st', lookCluster d curclust filename dols n p st = some (st', .next) := by
  induction n generalizing p st with
  | zero => exact ⟨st, rfl⟩
  | succ n ih =>
    obtain ⟨st₁, hlook⟩ := lookDent_of_other d curclust dols hname hst (by omega) hlast
      (h p (Nat.le_refl p) (by omega))
    have hvol : st₁.fs.toVolume = st.fs.toVolume := by
      rcases lookDent_walk hlook with hwalk | ⟨lname, hget⟩
      · exact congrArg (fun w : Walk => w.fs.toVolume) hwalk
      · exact (getVfatname_kept hget).1
    obtain ⟨st', hst'⟩ := ih (hst.succ hlook) (by rwa [hvol]) (by omega)
      fun q hq => h q (Nat.le_of_succ_le hq)
    exact ⟨st', by rw [lookCluster, hlook]; exact hst'⟩

end Fat
end EmevBsp
