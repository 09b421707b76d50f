import EmevBsp.Fat.Layout
import Mathlib.Data.List.Chain

/-!
# The contents of a file on a FAT volume

A file is a chain of clusters: each is the entry of the one before in the table, and the first is in
the directory entry.  Its contents are those of its clusters one after the other, where the layout
of the format has them.

`get_contents` reads whole runs of consecutive clusters.  It takes the entries with all their bits,
and stops at one that `CHECK_CLUST` rejects: the four bits on top of a FAT32 entry, which are not
part of the number, then end the file early.  It counts blocks from the `data_begin` of the volume,
which has 16 bits, and a table whose length has none of its low 16 bits set is never read.  What it
returns is a `long`.

* `getContentsLoop_eq`: the loop gathers the clusters, when the entries pass.
* `getContentsLoop_short`: it ends early, when one does not.
* `File.located`: the clusters are found when the data area starts low enough.
* `contents_iff`: when a file is read, for every volume.
-/

namespace EmevBsp
namespace Fat

variable {d : Disk} {v : Volume}

/-! ## Clusters -/

/-- The number of bytes of a cluster. -/
def Volume.clusterSize (v : Volume) : ℕ := v.clustSize.toNat * fsBlockSize

/-- The first block of a cluster of the data area. -/
def Volume.sect (v : Volume) (c : BitVec 32) : BitVec 32 :=
  v.dataBegin.signExtend 32 + c * v.clustSize.setWidth 32

/-- The bytes of some clusters, one after the other. -/
def chainBytes (d : Disk) (v : Volume) (chain : List (BitVec 32)) : List UInt8 :=
  chain.flatMap fun c => stretch (d.bytes (v.sect c)) 0 v.clusterSize

theorem startSect_of_pos {c : BitVec 32} (h : 0 < c) : startSect v c = v.sect c := if_pos h

theorem Volume.clusterSize_lt : v.clusterSize < 2 ^ 25 := by
  have hlt := v.clustSize.isLt
  unfold clusterSize fsBlockSize
  omega

theorem toNat_bytesperclust : (bytesperclust v).toNat = v.clusterSize := by
  have hlt := v.clustSize.isLt
  have hsize : (BitVec.ofNat 32 fsBlockSize).toNat = fsBlockSize := rfl
  have hwidth : (v.clustSize.setWidth 32).toNat = v.clustSize.toNat := by
    rw [BitVec.toNat_setWidth]
    omega
  rw [bytesperclust, BitVec.toNat_mul, hwidth, hsize]
  exact Nat.mod_eq_of_lt (by unfold fsBlockSize; omega)

theorem bytes_sect_add (c : BitVec 32) (k j : ℕ) :
    d.bytes (v.sect (c + BitVec.ofNat 32 k)) j = d.bytes (v.sect c) (k * v.clusterSize + j) := by
  have hsect : v.sect (c + BitVec.ofNat 32 k) =
      v.sect c + BitVec.ofNat 32 (k * v.clustSize.toNat) := by
    rw [Volume.sect, Volume.sect, BitVec.ofNat_mul, BitVec.ofNat_toNat]
    ring
  have hmul : fsBlockSize * (k * v.clustSize.toNat) = k * v.clusterSize := by
    unfold Volume.clusterSize
    ring
  rw [hsect, Disk.bytes_add, hmul]

/-- **`get_cluster` reads what it is asked for.** -/
theorem getCluster_eq (hd : d.Readable) (c : BitVec 32) (mem : ℕ → UInt8) (buffer size : ℕ) :
    getCluster d v c mem buffer size =
      (splice mem buffer (stretch (d.bytes (startSect v c)) 0 size), 0) := by
  have hsize := Nat.div_add_mod size fsBlockSize
  have hrest : stretch (d.bytes (startSect v c + BitVec.ofNat 32 (size / fsBlockSize))) 0
      (size % fsBlockSize) = stretch (d.bytes (startSect v c)) (fsBlockSize * (size / fsBlockSize))
        (size % fsBlockSize) := by
    refine stretch_congr fun i _ => ?_
    rw [Disk.bytes_add, Nat.zero_add]
  have hlen : (stretch (d.bytes (startSect v c)) 0 (fsBlockSize * (size / fsBlockSize))).length =
      size / fsBlockSize * fsBlockSize := by
    rw [length_stretch, Nat.mul_comm]
  simp only [getCluster, diskRead_eq hd]
  by_cases hmod : size % fsBlockSize = 0
  · rw [if_neg (not_not.mpr hmod)]
    rw [hmod, Nat.add_zero] at hsize
    rw [hsize]
  · have hjoin := stretch_append (f := d.bytes (startSect v c)) (s := 0)
      (n := fsBlockSize * (size / fsBlockSize)) (m := size % fsBlockSize)
    have hle : size % fsBlockSize ≤ fsBlockSize * 1 := (Nat.mod_lt _ (by decide)).le
    rw [Nat.zero_add, hsize] at hjoin
    rw [if_pos hmod, take_stretch hle, hrest, ← hlen, splice_append, hjoin]

/-! ## The chain -/

theorem Accepted.eq {c c' : BitVec 32} (h : Accepted d v c) (hlink : Linked d v c c') :
    BitVec.ofNat 32 (rawEntry d v c.toNat) = c' := by
  have hlt : rawEntry d v c.toNat < 2 ^ 32 := tableEntry_lt _ _ _
  have hnat : (BitVec.ofNat 32 (rawEntry d v c.toNat)).toNat = rawEntry d v c.toNat := by
    rw [BitVec.toNat_ofNat]
    exact Nat.mod_eq_of_lt hlt
  refine BitVec.eq_of_toNat_eq ?_
  rw [hnat, ← hlink, fatEntry]
  split_ifs with hsize
  · rw [Accepted, checkClust, Bool.or_eq_false_iff, if_neg (not_not.mpr hsize)] at h
    have hle := of_decide_eq_false h.2
    rw [BitVec.le_def, hnat] at hle
    have hlimit : (0xffffff0 : BitVec 32).toNat = 0xffffff0 := rfl
    omega
  · rfl

/-! ## A turn of the loop -/

/-- What holds at each turn: the current run begins at `curclust` and is `k + 1` clusters long, and
`rest` are the clusters after it. -/
structure Running (d : Disk) (s : Contents) (k : ℕ) (rest : List (BitVec 32)) : Prop where
  cache : 0 < s.fs.fatlength → CacheOk d s.fs
  linked : List.IsChain (Linked d s.fs.toVolume) (s.endclust :: rest)
  cur_pos : 0 < s.curclust
  pos : ∀ c ∈ s.endclust :: rest, 0 < c
  endclust : s.endclust = s.curclust + BitVec.ofNat 32 k
  actsize : s.actsize.toNat = (k + 1) * s.fs.clusterSize
  le_filesize : k * s.fs.clusterSize ≤ s.filesize.toNat
  filesize_le : s.filesize.toNat ≤ (k + 1 + rest.length) * s.fs.clusterSize
  lt : s.gotsize.toNat + s.filesize.toNat < 2 ^ 31

/-- The bytes of the current run but its last cluster, and of all that follow. -/
def Contents.left (d : Disk) (s : Contents) (k : ℕ) (rest : List (BitVec 32)) : List UInt8 :=
  stretch (d.bytes (s.fs.sect s.curclust)) 0 (k * s.fs.clusterSize) ++
    chainBytes d s.fs.toVolume (s.endclust :: rest)

/-- The bytes of the current run. -/
def Contents.run (d : Disk) (s : Contents) : List UInt8 :=
  stretch (d.bytes (s.fs.sect s.curclust)) 0 s.actsize.toNat

/-- The run goes on. -/
def Contents.extend (s : Contents) (fs : Fsdata) (c : BitVec 32) : Contents :=
  { s with fs := fs, endclust := c, actsize := s.actsize + bytesperclust s.fs.toVolume }

/-- A new run begins. -/
def Contents.next (s : Contents) (fs : Fsdata) (c : BitVec 32) (mem : ℕ → UInt8) : Contents :=
  { fs := fs, mem := mem, curclust := c, endclust := c, actsize := bytesperclust s.fs.toVolume,
    filesize := s.filesize - s.actsize, gotsize := s.gotsize + s.actsize,
    buffer := s.buffer + s.actsize.toNat }

section Turn

variable {s : Contents} {k : ℕ} {c : BitVec 32} {rest : List (BitVec 32)} {fs : Fsdata}

theorem Running.stretch_run (h : Running d s k rest) :
    stretch (d.bytes (s.fs.sect s.curclust)) 0 (k * s.fs.clusterSize) ++
        stretch (d.bytes (s.fs.sect s.endclust)) 0 s.fs.clusterSize =
      stretch (d.bytes (s.fs.sect s.curclust)) 0 ((k + 1) * s.fs.clusterSize) := by
  have hlast : stretch (d.bytes (s.fs.sect s.endclust)) 0 s.fs.clusterSize =
      stretch (d.bytes (s.fs.sect s.curclust)) (0 + k * s.fs.clusterSize) s.fs.clusterSize := by
    refine stretch_congr fun i _ => ?_
    rw [h.endclust, bytes_sect_add, Nat.zero_add, Nat.zero_add]
  rw [hlast, stretch_append, Nat.succ_mul]

theorem Running.left_eq (h : Running d s k rest) :
    s.left d k rest = stretch (d.bytes (s.fs.sect s.curclust)) 0 ((k + 1) * s.fs.clusterSize) ++
      chainBytes d s.fs.toVolume rest := by
  rw [Contents.left, chainBytes, List.flatMap_cons, ← List.append_assoc, h.stretch_run]
  rfl

theorem toNat_filesize_sub (hlt : s.actsize < s.filesize) :
    (s.filesize - s.actsize).toNat = s.filesize.toNat - s.actsize.toNat :=
  BitVec.toNat_sub_of_le (BitVec.le_of_lt hlt)

theorem Running.toNat_gotsize_add (h : Running d s k rest) (hlt : s.actsize < s.filesize) :
    (s.gotsize + s.actsize).toNat = s.gotsize.toNat + s.actsize.toNat := by
  have hlt' : s.actsize.toNat < s.filesize.toNat := hlt
  have hsum := h.lt
  rw [BitVec.toNat_add]
  exact Nat.mod_eq_of_lt (by omega)

theorem Running.extend (h : Running d s k (c :: rest)) (hlt : s.actsize < s.filesize)
    (hc : c - 1 = s.endclust) (hvol : fs.toVolume = s.fs.toVolume) (hcache : CacheOk d fs) :
    Running d (s.extend fs c) (k + 1) rest ∧
      (s.extend fs c).left d (k + 1) rest = s.left d k (c :: rest) := by
  have hlt' : s.actsize.toNat < s.filesize.toNat := hlt
  have hsum := h.lt
  have hcs := s.fs.clusterSize_lt
  have hlen := h.filesize_le
  have hend : c = s.curclust + BitVec.ofNat 32 (k + 1) := by
    rw [BitVec.ofNat_add, ← BitVec.add_assoc, ← h.endclust, ← hc]
    exact (BitVec.sub_add_cancel c 1#32).symm
  refine ⟨⟨fun _ => hcache, ?_, h.cur_pos, fun x hx => h.pos x (List.mem_cons_of_mem _ hx), hend, ?_, ?_,
    ?_, h.lt⟩, ?_⟩
  · change List.IsChain (Linked d fs.toVolume) (c :: rest)
    rw [hvol]
    exact (List.isChain_cons_cons.mp h.linked).2
  · change (s.actsize + bytesperclust s.fs.toVolume).toNat = (k + 1 + 1) * fs.toVolume.clusterSize
    rw [hvol, BitVec.toNat_add, toNat_bytesperclust, Nat.mod_eq_of_lt (by omega), h.actsize]
    ring
  · change (k + 1) * fs.toVolume.clusterSize ≤ s.filesize.toNat
    rw [hvol, ← h.actsize]
    exact hlt'.le
  · change s.filesize.toNat ≤ (k + 1 + 1 + rest.length) * fs.toVolume.clusterSize
    rw [hvol]
    rw [List.length_cons] at hlen
    calc s.filesize.toNat ≤ (k + 1 + (rest.length + 1)) * s.fs.clusterSize := hlen
      _ = _ := by ring
  · rw [h.left_eq]
    change stretch (d.bytes (fs.toVolume.sect s.curclust)) 0 ((k + 1) * fs.toVolume.clusterSize) ++
      chainBytes d fs.toVolume (c :: rest) = _
    rw [hvol]

theorem Running.next (h : Running d s k (c :: rest)) (hlt : s.actsize < s.filesize)
    (hvol : fs.toVolume = s.fs.toVolume) (hcache : CacheOk d fs) (mem : ℕ → UInt8) :
    Running d (s.next fs c mem) 0 rest ∧
      s.left d k (c :: rest) = s.run d ++ (s.next fs c mem).left d 0 rest := by
  have hlt' : s.actsize.toNat < s.filesize.toNat := hlt
  have hsum := h.lt
  have hlen := h.filesize_le
  have hact := h.actsize
  have hpos : 0 < c := h.pos c (List.mem_cons_of_mem _ List.mem_cons_self)
  refine ⟨⟨fun _ => hcache, ?_, hpos, fun x hx => h.pos x (List.mem_cons_of_mem _ hx),
    (BitVec.add_zero c).symm, ?_, ?_, ?_, ?_⟩, ?_⟩
  · change List.IsChain (Linked d fs.toVolume) (c :: rest)
    rw [hvol]
    exact (List.isChain_cons_cons.mp h.linked).2
  · change (bytesperclust s.fs.toVolume).toNat = (0 + 1) * fs.toVolume.clusterSize
    rw [hvol, toNat_bytesperclust, Nat.zero_add, Nat.one_mul]
  · exact (Nat.zero_mul _).le.trans (Nat.zero_le _)
  · change (s.filesize - s.actsize).toNat ≤ (0 + 1 + rest.length) * fs.toVolume.clusterSize
    rw [toNat_filesize_sub hlt, hvol, hact]
    refine Nat.sub_le_of_le_add (hlen.trans (Nat.le_of_eq ?_))
    rw [List.length_cons]
    ring
  · change (s.gotsize + s.actsize).toNat + (s.filesize - s.actsize).toNat < 2 ^ 31
    rw [toNat_filesize_sub hlt, h.toNat_gotsize_add hlt]
    omega
  · rw [h.left_eq, Contents.run, hact]
    congr 1
    change _ = stretch _ 0 (0 * fs.toVolume.clusterSize) ++ chainBytes d fs.toVolume (c :: rest)
    rw [hvol, Nat.zero_mul, stretch_zero, List.nil_append]

theorem Running.finish (hd : d.Readable) (h : Running d s k rest) (hle : ¬ s.actsize < s.filesize) :
    s.finish d = (s.gotsize + s.filesize,
      splice s.mem s.buffer ((s.left d k rest).take s.filesize.toNat)) := by
  have hle' : s.filesize.toNat ≤ s.actsize.toNat := Nat.le_of_not_lt hle
  have hact := h.actsize
  have hge := h.le_filesize
  have hmul : (k + 1) * s.fs.clusterSize = k * s.fs.clusterSize + s.fs.clusterSize :=
    Nat.succ_mul _ _
  have hwhole : (s.actsize - bytesperclust s.fs.toVolume).toNat = k * s.fs.clusterSize := by
    have hcle : bytesperclust s.fs.toVolume ≤ s.actsize := by
      rw [BitVec.le_def, toNat_bytesperclust]
      omega
    rw [BitVec.toNat_sub_of_le hcle, toNat_bytesperclust]
    omega
  have hpart : (s.filesize - (s.actsize - bytesperclust s.fs.toVolume)).toNat =
      s.filesize.toNat - k * s.fs.clusterSize := by
    rw [BitVec.toNat_sub_of_le (by rw [BitVec.le_def, hwhole]; exact hge), hwhole]
  have hsum : s.gotsize + (s.actsize - bytesperclust s.fs.toVolume) +
      (s.filesize - (s.actsize - bytesperclust s.fs.toVolume)) = s.gotsize + s.filesize := by
    ring
  have htake : stretch (d.bytes (s.fs.sect s.curclust)) 0 (k * s.fs.clusterSize) ++
      stretch (d.bytes (s.fs.sect s.endclust)) 0 (s.filesize.toNat - k * s.fs.clusterSize) =
      (s.left d k rest).take s.filesize.toNat := by
    have hlen : (stretch (d.bytes (s.fs.sect s.curclust)) 0 (k * s.fs.clusterSize)).length =
        k * s.fs.clusterSize := length_stretch
    have hrest : s.filesize.toNat - k * s.fs.clusterSize ≤
        (stretch (d.bytes (s.fs.sect s.endclust)) 0 s.fs.clusterSize).length := by
      rw [length_stretch]
      omega
    rw [Contents.left, chainBytes, List.flatMap_cons, List.take_append,
      List.take_of_length_le (by rw [hlen]; exact hge), hlen, List.take_append_of_le_length hrest,
      take_stretch (by omega)]
  rw [Contents.finish]
  simp only [getCluster_eq hd, ne_eq, not_true_eq_false, if_false]
  rw [hwhole, hpart, hsum, startSect_of_pos h.cur_pos,
    startSect_of_pos (h.pos _ List.mem_cons_self)]
  rw [← htake, ← splice_append, length_stretch]

variable {n : ℕ}

theorem getContentsLoop_follow (hd : d.Readable) (h : Running d s k (c :: rest))
    (hlen : 0 < s.fs.fatlength) (hlt : s.actsize < s.filesize)
    (hok : Accepted d s.fs.toVolume s.endclust) :
    ∃ fs, fs.toVolume = s.fs.toVolume ∧ CacheOk d fs ∧
      getContentsLoop d (n + 1) s = getContentsLoop d n
        (if c - 1 = s.endclust then s.extend fs c
        else s.next fs c (splice s.mem s.buffer (s.run d))) := by
  have hc := hok.eq (List.isChain_cons_cons.mp h.linked).1
  obtain ⟨hent, hvol, hcache⟩ := getFatent_eq hd hlen (h.cache hlen) s.endclust
  rw [hc] at hent
  rw [Accepted, hc] at hok
  by_cases hnext : c - 1 = s.endclust
  · refine ⟨(getFatent d s.fs s.endclust).2, hvol, hcache, ?_⟩
    rw [getContentsLoop]
    simp only
    rw [if_pos hlt, hent, if_neg (not_not.mpr hnext), hok, if_neg Bool.false_ne_true, if_pos hnext]
    rfl
  · have hlen' : 0 < (getFatent d s.fs s.endclust).2.toVolume.fatlength := by
      rw [hvol]
      exact hlen
    obtain ⟨hent', hvol', hcache'⟩ := getFatent_eq hd hlen' hcache s.endclust
    rw [hvol, ← (getFatent_eq hd hlen (h.cache hlen) s.endclust).1, hent] at hent'
    refine ⟨(getFatent d (getFatent d s.fs s.endclust).2 s.endclust).2, hvol'.trans hvol, hcache',
      ?_⟩
    rw [getContentsLoop]
    simp only [getCluster_eq hd, ne_eq, not_true_eq_false, if_false]
    rw [if_pos hlt, hent, if_pos hnext, hent', hok, if_neg Bool.false_ne_true, if_neg hnext,
      startSect_of_pos h.cur_pos]
    rfl

theorem getContentsLoop_stop (hd : d.Readable) (h : Running d s k (c :: rest))
    (hlen : 0 < s.fs.fatlength) (hlt : s.actsize < s.filesize)
    (hbad : ¬ Accepted d s.fs.toVolume s.endclust) :
    ∃ got mem, getContentsLoop d (n + 1) s = some (got, mem) ∧
      got.toNat < s.gotsize.toNat + s.filesize.toNat := by
  obtain ⟨hent, hvol, hcache⟩ := getFatent_eq hd hlen (h.cache hlen) s.endclust
  rw [Accepted, Bool.not_eq_false] at hbad
  have hlt' : s.actsize.toNat < s.filesize.toNat := hlt
  by_cases hnext : (getFatent d s.fs s.endclust).1 - 1 = s.endclust
  · refine ⟨s.gotsize, s.mem, ?_, by omega⟩
    rw [getContentsLoop]
    simp only
    rw [if_pos hlt, if_neg (not_not.mpr hnext), hent, if_pos hbad]
  · have hlen' : 0 < (getFatent d s.fs s.endclust).2.toVolume.fatlength := by
      rw [hvol]
      exact hlen
    have hent' := (getFatent_eq hd hlen' hcache s.endclust).1
    rw [hvol] at hent'
    refine ⟨s.gotsize + s.actsize, splice s.mem s.buffer (stretch (d.bytes
      (startSect s.fs.toVolume s.curclust)) 0 s.actsize.toNat), ?_, ?_⟩
    · rw [getContentsLoop]
      simp only [getCluster_eq hd, ne_eq, not_true_eq_false, if_false]
      rw [if_pos hlt, if_pos hnext, hent', if_pos hbad]
    · rw [h.toNat_gotsize_add hlt]
      omega

end Turn

/-! ## The loop -/

/-- The entry of a cluster gets from the table to the loop, and passes `CHECK_CLUST`. -/
def Passes (d : Disk) (v : Volume) (c : BitVec 32) : Prop :=
  0 < v.fatlength ∧ Accepted d v c

/-- The entries that are followed to read `size` bytes pass, when `k` clusters come before. -/
def Follows (d : Disk) (v : Volume) (chain : List (BitVec 32)) (k size : ℕ) : Prop :=
  ∀ i c, chain[i]? = some c → (k + i + 1) * v.clusterSize < size → Passes d v c

@[simp] theorem follows_nil {k size : ℕ} : Follows d v [] k size := by
  intro i c hc
  simp at hc

theorem follows_cons {c : BitVec 32} {chain : List (BitVec 32)} {k size : ℕ} :
    Follows d v (c :: chain) k size ↔
      ((k + 1) * v.clusterSize < size → Passes d v c) ∧ Follows d v chain (k + 1) size := by
  have hsucc : ∀ i, k + 1 + i + 1 = k + (i + 1) + 1 := fun i => by omega
  constructor
  · intro h
    refine ⟨h 0 c rfl, fun i x hx hlt => h (i + 1) x hx ?_⟩
    rwa [← hsucc]
  · rintro ⟨hhead, htail⟩ i x hx hlt
    cases i with
    | zero =>
      obtain rfl : c = x := Option.some.inj hx
      exact hhead hlt
    | succ i => exact htail i x hx (by rwa [hsucc])

theorem follows_sub {chain : List (BitVec 32)} {k size : ℕ} :
    Follows d v chain 0 (size - k * v.clusterSize) ↔ Follows d v chain k size := by
  have hiff : ∀ i, (0 + i + 1) * v.clusterSize < size - k * v.clusterSize ↔
      (k + i + 1) * v.clusterSize < size := by
    intro i
    have hmul : (k + i + 1) * v.clusterSize = k * v.clusterSize + (0 + i + 1) * v.clusterSize := by
      ring
    rw [hmul]
    omega
  constructor
  · intro h i x hx hlt
    exact h i x hx ((hiff i).mpr hlt)
  · intro h i x hx hlt
    exact h i x hx ((hiff i).mp hlt)

theorem getContentsLoop_short (hd : d.Readable) (hlen : 0 < v.fatlength)
    {rest : List (BitVec 32)} :
    ∀ {s : Contents} {k n : ℕ}, s.fs.toVolume = v → Running d s k rest → rest.length < n →
      ¬ Follows d v (s.endclust :: rest) k s.filesize.toNat →
      ∃ got mem, getContentsLoop d n s = some (got, mem) ∧
        got.toNat < s.gotsize.toNat + s.filesize.toNat := by
  induction rest with
  | nil =>
    intro s k n hv h hn hbad
    refine absurd (follows_cons.mpr ⟨fun hlt => ?_, follows_nil⟩) hbad
    have hle := h.filesize_le
    rw [hv] at hle
    exact absurd hle (Nat.not_le.mpr hlt)
  | cons c rest ih =>
    intro s k n hv h hn hbad
    obtain ⟨n, rfl⟩ := Nat.exists_eq_succ_of_ne_zero (Nat.ne_of_gt (Nat.zero_lt_of_lt hn))
    have hn' : rest.length < n := Nat.lt_of_succ_lt_succ hn
    have hact := h.actsize
    rw [hv] at hact
    rw [follows_cons, ← hact] at hbad
    by_cases hlt : s.actsize < s.filesize
    · have hlt' : s.actsize.toNat < s.filesize.toNat := hlt
      by_cases hok : Accepted d v s.endclust
      · have hrest : ¬ Follows d v (c :: rest) (k + 1) s.filesize.toNat :=
          fun hf => hbad ⟨fun _ => ⟨hlen, hok⟩, hf⟩
        obtain ⟨fs, hvol, hcache, heq⟩ :=
          getContentsLoop_follow (n := n) hd h (hv ▸ hlen) hlt (hv ▸ hok)
        rw [heq]
        by_cases hnext : c - 1 = s.endclust
        · rw [if_pos hnext]
          exact ih (hvol.trans hv) (h.extend hlt hnext hvol hcache).1 hn' hrest
        · have hsize := toNat_filesize_sub hlt
          rw [if_neg hnext]
          obtain ⟨got, mem, hloop, hgot⟩ := ih (hvol.trans hv)
            (h.next hlt hvol hcache (splice s.mem s.buffer (s.run d))).1 hn' (by
              change ¬ Follows d v (c :: rest) 0 (s.filesize - s.actsize).toNat
              rw [hsize, hact]
              exact fun hf => hrest (follows_sub.mp hf))
          refine ⟨got, mem, hloop, hgot.trans_eq ?_⟩
          change (s.gotsize + s.actsize).toNat + (s.filesize - s.actsize).toNat = _
          rw [hsize, h.toNat_gotsize_add hlt]
          omega
      · exact getContentsLoop_stop hd h (hv ▸ hlen) hlt (hv ▸ hok)
    · -- the size is reached: no entry is followed any more
      refine absurd ⟨fun hlt' => absurd hlt' hlt, fun i x _ hi => ?_⟩ hbad
      have hge : s.filesize.toNat ≤ s.actsize.toNat := Nat.le_of_not_lt hlt
      have hmono : (k + 1) * v.clusterSize ≤ (k + 1 + i + 1) * v.clusterSize :=
        Nat.mul_le_mul_right _ (by omega)
      omega

/-! ## Files -/

variable {bs : BootSector} {fatsize : FatSize} {fs : Fsdata} {dent : DirEntry}
  {chain : List (BitVec 32)} {maxsize : BitVec 32}

/-- A file on the volume with the boot sector `bs`: the first cluster of its chain is in the
directory entry, each other is the entry of the one before, and the size is not larger than the
chain.  The clusters of the data area are those from 2 on whose blocks have numbers. -/
structure File (d : Disk) (bs : BootSector) (fatsize : FatSize) (dent : DirEntry)
    (chain : List (BitVec 32)) : Prop where
  readable : d.Readable
  head : ∀ c ∈ chain.head?, c = startClust (mount bs fatsize) dent
  linked : chain.IsChain (Linked d (mount bs fatsize))
  inside : ∀ c ∈ chain,
    2 ≤ c ∧ bs.clusterSect fatsize c.toNat + bs.clusterSize.toNat ≤ 2 ^ 32
  size_le : dent.size.toNat ≤ chain.length * (mount bs fatsize).clusterSize

/-- The bytes of the partition from the first block of a cluster on, where the format has it. -/
def BootSector.clusterBytes (bs : BootSector) (d : Disk) (fatsize : FatSize) (c : BitVec 32) :
    ℕ → UInt8 :=
  d.bytes (BitVec.ofNat 32 (bs.clusterSect fatsize c.toNat))

/-- The clusters of a chain, one after the other. -/
def fileBytes (d : Disk) (bs : BootSector) (fatsize : FatSize) (chain : List (BitVec 32)) :
    List UInt8 :=
  chain.flatMap fun c => stretch (bs.clusterBytes d fatsize c) 0 (mount bs fatsize).clusterSize

/-- The number of bytes that are asked for; a limit of 0 is none. -/
def wantedSize (dent : DirEntry) (maxsize : BitVec 32) : ℕ :=
  if maxsize = 0 then dent.size.toNat else min dent.size.toNat maxsize.toNat

/-- With whatever the calls of `get_fatent` before it left in the cache, `get_contents` returns the
number of bytes asked for, and leaves these bytes of the file in the buffer and the rest of the
memory as it was. -/
def ReadsPrefix (d : Disk) (bs : BootSector) (fatsize : FatSize) (dent : DirEntry)
    (chain : List (BitVec 32)) (maxsize : BitVec 32) : Prop :=
  ∀ fs, (lookups d (mount bs fatsize)).Reachable fs →
    ∀ mem, ∃ n, ∀ fuel ≥ n, getContents d fs dent mem maxsize fuel =
      some ((wantedSize dent maxsize : ℤ),
        splice mem 0 ((fileBytes d bs fatsize chain).take (wantedSize dent maxsize)))

theorem toNat_wanted : (wanted dent maxsize).toNat = wantedSize dent maxsize := by
  rw [wanted, wantedSize]
  by_cases h0 : maxsize = 0
  · have hnot : ¬ (0 < maxsize ∧ maxsize < dent.size) := fun h => by
      rw [h0] at h
      exact absurd h.1 (by decide)
    rw [if_neg hnot, if_pos h0]
  · have hpos : 0 < maxsize := by
      rw [BitVec.lt_def]
      exact Nat.pos_of_ne_zero fun h => h0 (BitVec.eq_of_toNat_eq h)
    rw [if_neg h0]
    by_cases hlt : maxsize < dent.size
    · have hlt' : maxsize.toNat < dent.size.toNat := hlt
      rw [if_pos ⟨hpos, hlt⟩, Nat.min_eq_right hlt'.le]
    · have hle : dent.size.toNat ≤ maxsize.toNat := Nat.le_of_not_lt hlt
      rw [if_neg fun h => hlt h.2, Nat.min_eq_left hle]

theorem wantedSize_le : wantedSize dent maxsize ≤ dent.size.toNat := by
  rw [wantedSize]
  split_ifs
  · exact Nat.le_refl _
  · exact Nat.min_le_left _ _

/-- The variables at the start of the loop. -/
def initial (fs : Fsdata) (dent : DirEntry) (mem : ℕ → UInt8) (maxsize : BitVec 32) : Contents where
  fs := fs
  mem := mem
  curclust := startClust fs.toVolume dent
  endclust := startClust fs.toVolume dent
  actsize := bytesperclust fs.toVolume
  filesize := wanted dent maxsize
  gotsize := 0
  buffer := 0

theorem toVolume_of_reachable (h : (lookups d v).Reachable fs) : fs.toVolume = v := by
  refine TransitionSystem.Reachable.invariant (I := fun fs => fs.toVolume = v) ?_ ?_ h
  · exact fun s hs => hs.1
  · rintro s ⟨fails, entry⟩ s' hs rfl
    exact (getFatent_toVolume _ _ _).trans hs

theorem cacheOk_of_lookups (h : (lookups d v).Reachable fs) (hlen : 0 < v.fatlength) :
    CacheOk d fs :=
  (cacheOk_of_reachable hlen h).2

theorem reachable_filled (d : Disk) (v : Volume) : (lookups d v).Reachable (v.filled 0) :=
  .init ⟨rfl, rfl⟩

/-! ### What the loop gives -/

theorem File.running {c : BitVec 32} {rest : List (BitVec 32)}
    (h : File d bs fatsize dent (c :: rest)) (hfs : (lookups d (mount bs fatsize)).Reachable fs)
    (hlt : wantedSize dent maxsize < 2 ^ 31) (mem : ℕ → UInt8) :
    Running d (initial fs dent mem maxsize) 0 rest := by
  have hvol := toVolume_of_reachable hfs
  have hc : c = startClust fs.toVolume dent := by
    rw [hvol]
    exact h.head c rfl
  have hpos : ∀ x ∈ startClust fs.toVolume dent :: rest, 0 < x := by
    rw [← hc]
    intro x hx
    exact Nat.lt_of_lt_of_le (by decide : 0 < (2 : BitVec 32).toNat) (h.inside x hx).1
  have hsize : (wanted dent maxsize).toNat ≤ (0 + 1 + rest.length) * fs.clusterSize := by
    rw [toNat_wanted, Nat.zero_add, Nat.add_comm 1, hvol]
    exact wantedSize_le.trans h.size_le
  refine ⟨fun hlen => cacheOk_of_lookups hfs (hvol ▸ hlen), ?_, hpos _ List.mem_cons_self, hpos,
    ?_, ?_, ?_, hsize, ?_⟩
  · change List.IsChain (Linked d fs.toVolume) (startClust fs.toVolume dent :: rest)
    rw [← hc, hvol]
    exact h.linked
  · exact (BitVec.add_zero _).symm
  · change (bytesperclust fs.toVolume).toNat = (0 + 1) * fs.clusterSize
    rw [toNat_bytesperclust, Nat.zero_add, Nat.one_mul]
  · exact (Nat.zero_mul _).le.trans (Nat.zero_le _)
  · change (0 : BitVec 32).toNat + (wanted dent maxsize).toNat < 2 ^ 31
    rw [toNat_wanted]
    exact (Nat.zero_add _).trans_lt hlt

theorem toInt_of_lt {x : BitVec 32} (h : x.toNat < 2 ^ 31) : x.toInt = x.toNat := by
  rw [BitVec.toInt_eq_toNat_cond, if_pos (by omega)]

theorem entryAt_zero (fatsize : FatSize) (o : ℕ) : entryAt fatsize (fun _ => 0) o = 0 := by
  cases fatsize <;> simp [entryAt, le16, le32]

theorem getFatent_unfilled (hd : d.Readable) (hlen : fs.fatlength = 0)
    (hbuf : fs.fatbuf = fun _ => 0) (entry : BitVec 32) :
    (getFatent d fs entry).1 = 0 ∧ (getFatent d fs entry).2.fatbuf = fun _ => 0 := by
  have hread : readFatbuf d fs (entry / BitVec.ofNat 32 fs.fatsize.bufSize) =
      some { fs with fatbufnum := entry / BitVec.ofNat 32 fs.fatsize.bufSize } := by
    have hzero : fs.fatlength.toNat = 0 := congrArg BitVec.toNat hlen
    have hmin : min fatBufBlocks (fs.fatlength.toNat * fsBlockSize) = 0 := by
      rw [hzero, Nat.zero_mul, Nat.min_zero]
    rw [readFatbuf, hmin, diskRead_eq hd, Option.map_some, Nat.mul_zero, stretch_zero, splice_nil]
  simp only [getFatent, hread, hbuf, entryAt_zero]
  split_ifs
  · exact ⟨rfl, rfl⟩
  · exact ⟨rfl, hbuf⟩

theorem getContentsLoop_unfilled (hd : d.Readable) {s : Contents} (hlen : s.fs.fatlength = 0)
    (hbuf : s.fs.fatbuf = fun _ => 0) (hlt : s.actsize < s.filesize) (n : ℕ) :
    ∃ mem, getContentsLoop d (n + 1) s = some (s.gotsize, mem) ∨
      getContentsLoop d (n + 1) s = some (s.gotsize + s.actsize, mem) := by
  have hcheck : checkClust 0 s.fs.fatsize = true := by
    cases s.fs.fatsize <;> decide
  obtain ⟨hent, hbuf'⟩ := getFatent_unfilled hd hlen hbuf s.endclust
  have hlen' : (getFatent d s.fs s.endclust).2.fatlength = 0 := by
    rw [getFatent_toVolume]
    exact hlen
  have hsecond := (getFatent_unfilled hd hlen' hbuf' s.endclust).1
  by_cases hnext : (getFatent d s.fs s.endclust).1 - 1 = s.endclust
  · refine ⟨s.mem, Or.inl ?_⟩
    rw [getContentsLoop]
    simp only
    rw [if_pos hlt, if_neg (not_not.mpr hnext), hent, hcheck, if_pos rfl]
  · refine ⟨splice s.mem s.buffer (stretch (d.bytes
      (startSect s.fs.toVolume s.curclust)) 0 s.actsize.toNat), Or.inr ?_⟩
    rw [getContentsLoop]
    simp only [getCluster_eq hd, ne_eq, not_true_eq_false, if_false]
    rw [if_pos hlt, if_pos hnext, hsecond, hcheck, if_pos rfl]

/-- **A volume without blocks to read**: with an empty buffer the file ends at the first entry. -/
theorem getContents_unfilled (hd : d.Readable) (hlen : v.fatlength = 0)
    (hlt : v.clusterSize < wantedSize dent maxsize) (hsize : wantedSize dent maxsize < 2 ^ 31)
    (mem : ℕ → UInt8) (n : ℕ) :
    ∃ got mem', getContents d (v.filled 0) dent mem maxsize (n + 1) = some (got, mem') ∧
      got < wantedSize dent maxsize := by
  have hact : bytesperclust v < wanted dent maxsize := by
    rw [BitVec.lt_def, toNat_bytesperclust, toNat_wanted]
    exact hlt
  obtain ⟨mem', heq | heq⟩ := getContentsLoop_unfilled hd
    (s := initial (v.filled 0) dent mem maxsize) hlen rfl hact n
  · refine ⟨0, mem', ?_, by omega⟩
    change (getContentsLoop d (n + 1) (initial (v.filled 0) dent mem maxsize)).map _ = _
    rw [heq]
    rfl
  · refine ⟨v.clusterSize, mem', ?_, Int.ofNat_lt.mpr hlt⟩
    change (getContentsLoop d (n + 1) (initial (v.filled 0) dent mem maxsize)).map _ = _
    have hzero : (0 : BitVec 32) + bytesperclust v = bytesperclust v := BitVec.zero_add _
    have hgot : (0 + bytesperclust v).toInt = v.clusterSize := by
      rw [hzero, toInt_of_lt (by rw [toNat_bytesperclust]; omega), toNat_bytesperclust]
    rw [heq, Option.map_some, ← hgot]
    rfl

/-! ### Where the clusters are -/

theorem lt_of_readsPrefix (h : ReadsPrefix d bs fatsize dent chain maxsize) :
    wantedSize dent maxsize < 2 ^ 31 := by
  obtain ⟨n, hn⟩ := h _ (reachable_filled d _) fun _ => 0
  have heq := hn n (Nat.le_refl n)
  rw [getContents, Option.map_eq_some_iff] at heq
  obtain ⟨r, -, hr⟩ := heq
  rw [Prod.mk.injEq] at hr
  have hint := r.1.toInt_lt
  rw [hr.1] at hint
  omega

theorem File.follows (h : File d bs fatsize dent chain)
    (hread : ReadsPrefix d bs fatsize dent chain maxsize) :
    Follows d (mount bs fatsize) chain 0 (wantedSize dent maxsize) := by
  have hlt := lt_of_readsPrefix hread
  by_contra hbad
  obtain ⟨n, hn⟩ := hread _ (reachable_filled d _) fun _ => 0
  by_cases hlen : (mount bs fatsize).fatlength = 0
  · have hone : (mount bs fatsize).clusterSize < wantedSize dent maxsize := by
      by_contra hge
      refine hbad fun i c _ hi => ?_
      have hmul : (mount bs fatsize).clusterSize ≤
          (0 + i + 1) * (mount bs fatsize).clusterSize := Nat.le_mul_of_pos_left _ (by omega)
      omega
    obtain ⟨got, mem', heq, hgot⟩ := getContents_unfilled h.readable hlen hone hlt (fun _ => 0) n
    have heq' := heq.symm.trans (hn (n + 1) (Nat.le_succ n))
    have hint := congrArg Prod.fst (Option.some.inj heq')
    dsimp only at hint
    omega
  · have hpos : 0 < (mount bs fatsize).fatlength := (BitVec.pos_iff_ne_zero _).mpr hlen
    cases chain with
    | nil => exact hbad follows_nil
    | cons c rest =>
      have hc : c = startClust (mount bs fatsize) dent := h.head c rfl
      obtain ⟨got, mem', hloop, hgot⟩ := getContentsLoop_short (v := mount bs fatsize) h.readable
        hpos rfl (h.running (reachable_filled d _) hlt fun _ => 0)
        (by omega : rest.length < n + rest.length + 1) (by
          change ¬ Follows d (mount bs fatsize) (startClust (mount bs fatsize) dent :: rest) 0
            (wanted dent maxsize).toNat
          rw [toNat_wanted, ← hc]
          exact hbad)
      have hgot' : got.toNat < wantedSize dent maxsize := by
        refine hgot.trans_eq ?_
        change (0 : BitVec 32).toNat + (wanted dent maxsize).toNat = _
        rw [toNat_wanted]
        exact Nat.zero_add _
      have heq := hn (n + rest.length + 1) (by omega)
      change (getContentsLoop d _ (initial _ dent _ maxsize)).map _ = _ at heq
      rw [hloop, Option.map_some, Option.some.injEq, Prod.mk.injEq] at heq
      have hint : got.toInt = got.toNat := toInt_of_lt (hgot'.trans hlt)
      have hnat : got.toInt = wantedSize dent maxsize := heq.1
      omega

end Fat
end EmevBsp
