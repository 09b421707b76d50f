import EmevBsp.Fat.Table
import EmevBsp.Library.Chains
import EmevBsp.MiniBoot.Fat

/-!
# The first boot stage copies a file

A file is a chain of clusters: the entry of a cluster in the table is the number of the next one,
and that of the last one is an end mark.  A FAT32 entry has 28 bits.  A cluster is inside the volume
if the table has an entry for it and its number is not one of the reserved ones.

`fat_cpy_data` compares all 32 bits of an entry, so a bit among the upper four stops it.  It goes
wherever an entry sends it, also from a first cluster that is no cluster at all.

* `CopiesFile`: what copying a file has to do.
* `Follows`, `Stops`: the entries as the code sees them.
* `cpyLoop_finishes`, `cpyLoop_finished`: the loop succeeds where the code sees a chain that fits.
* `fatCpyData_iff`: **a file is copied**, exactly when the entries of a chain that fits have no bits
  on top, and a chain the code sees stays inside the volume.
* `not_copiesFile`: the end mark `0xffffffff`.
-/

namespace EmevBsp
namespace MiniBoot

variable (card : Card) (info : FatInfo)

/-! ## Files -/

/-- Entries are numbers below this. -/
def top (fat32 : Bool) : ℕ := if fat32 then 2 ^ 28 else 2 ^ 16

/-- The entry of a cluster with all its bits. -/
def tableEntry (c : BitVec 32) : ℕ :=
  if info.fat32 then Fat.le32 (card.bytes info.fatSecPos) c.toNat
  else Fat.le16 (card.bytes info.fatSecPos) c.toNat

/-- The number of entries of a sector of the table. -/
def perSector (fat32 : Bool) : ℕ := if fat32 then 128 else 256

/-- The number of entries of the table. -/
def FatInfo.tableSize : ℕ := info.secPerFat * perSector info.fat32

/-- A cluster of the volume. -/
def FatInfo.Inside (c : BitVec 32) : Prop :=
  2 ≤ c.toNat ∧ c.toNat < info.tableSize ∧ c.toNat + 9 < top info.fat32

/-- The next cluster of a file. -/
def NextClus (c c' : BitVec 32) : Prop :=
  info.Inside c ∧ tableEntry card info c % top info.fat32 = c'.toNat ∧ info.Inside c'

/-- The last cluster of a file. -/
def LastClus (c : BitVec 32) : Prop :=
  info.Inside c ∧ top info.fat32 ≤ tableEntry card info c % top info.fat32 + 8

/-- What a cluster holds. -/
def clusData (c : BitVec 32) : List UInt8 :=
  stretch (card.bytes (info.userSecPos + BitVec.ofNat 32 ((c.toNat - 2) * info.secPerClus))) 0
    info.clusSize

/-- The state in which `mini_boot` calls `fat_cpy_data`. -/
def Boot.opened (s : Boot) : Boot := { s with nowFatSec := -1 }

/-- **What copying a file has to do**, from a first cluster on.  A file that fits is copied; without
one the result is an error; and in no case is there a write past the room, however the reads end. -/
def CopiesFile (s : Boot) (mem : ℕ → UInt8) (maxSize : ℕ) : Prop :=
  (∀ l, Chain (NextClus card info) (LastClus card info) s.dataNumClus l →
      l.length * info.clusSize ≤ maxSize →
      (fatCpyData card .ok info s.opened mem maxSize).1 = 0 ∧
        (fatCpyData card .ok info s.opened mem maxSize).2.1 =
          splice mem 0 (l.flatMap (clusData card info))) ∧
  (¬ (∃ l, Chain (NextClus card info) (LastClus card info) s.dataNumClus l ∧
      l.length * info.clusSize ≤ maxSize) →
      ∀ io, (fatCpyData card io info s.opened mem maxSize).1 ≠ 0) ∧
  ∀ io x, maxSize ≤ x → (fatCpyData card io info s.opened mem maxSize).2.1 x = mem x

/-! ## What the code sees -/

/-- A sector of the table, as the code has it in its buffer: the number -1 stands for what was there
before. -/
def fatSector (buf : ℕ → UInt8) (num : BitVec 32) : ℕ → UInt8 :=
  if num = -1 then buf else card.bytes (info.fatSecPos + num)

/-- The entry of a cluster, as the code reads it. -/
def seenEntry (buf : ℕ → UInt8) (c : BitVec 32) : BitVec 32 :=
  getClus info.fat32 (fatSector card info buf (fatSecNum info.fat32 c)) c

/-- The code goes on from a cluster to another. -/
def Follows (buf : ℕ → UInt8) (c c' : BitVec 32) : Prop :=
  seenEntry card info buf c = c' ∧ isData info.fat32 c' = true

/-- The code takes a cluster for the last one. -/
def Stops (buf : ℕ → UInt8) (c : BitVec 32) : Prop :=
  isLast info.fat32 (seenEntry card info buf c) = true

variable {card : Card} {info : FatInfo} {buf : ℕ → UInt8} {c : BitVec 32}

/-! ## Numbers -/

theorem isData_iff {fat32 : Bool} :
    isData fat32 c = true ↔ 2 ≤ c.toNat ∧ c.toNat + 9 < top fat32 := by
  have hlt := c.isLt
  rw [isData, top, BitVec.toInt_eq_toNat_cond]
  cases fat32 <;> simp only [Bool.and_eq_true, decide_eq_true_eq, if_true, Bool.false_eq_true,
    if_false] <;> split_ifs <;> omega

theorem isLast_iff {fat32 : Bool} :
    isLast fat32 c = true ↔ top fat32 ≤ c.toNat + 8 ∧ c.toNat < top fat32 := by
  have hlt := c.isLt
  rw [isLast, top, BitVec.toInt_eq_toNat_cond]
  cases fat32 <;> simp only [Bool.and_eq_true, decide_eq_true_eq, if_true, Bool.false_eq_true,
    if_false] <;> split_ifs <;> omega

theorem fatSecNum_eq {fat32 : Bool} (h : c.toNat < 2 ^ 31) :
    fatSecNum fat32 c = BitVec.ofNat 32 (c.toNat / perSector fat32) := by
  have hmsb : c.msb = false := by
    rw [BitVec.msb_eq_decide]
    exact decide_eq_false (by omega)
  rw [fatSecNum, BitVec.sshiftRight_eq_of_msb_false hmsb]
  refine BitVec.eq_of_toNat_eq ?_
  rw [BitVec.toNat_ushiftRight, Nat.shiftRight_eq_div_pow, BitVec.toNat_ofNat, perSector]
  cases fat32
  · change c.toNat / 256 = c.toNat / 256 % 2 ^ 32
    omega
  · change c.toNat / 128 = c.toNat / 128 % 2 ^ 32
    omega

theorem fatSecNum_ne {fat32 : Bool} (h : c.toNat < 2 ^ 31) : fatSecNum fat32 c ≠ -1 := by
  intro hnum
  have hnat := congrArg BitVec.toNat hnum
  have hmax : (-1 : BitVec 32).toNat = 4294967295 := rfl
  rw [fatSecNum_eq h, BitVec.toNat_ofNat, hmax, perSector] at hnat
  split_ifs at hnat <;> omega

theorem top_le (fat32 : Bool) : top fat32 ≤ 2 ^ 28 := by
  cases fat32 <;> decide

theorem FatInfo.Inside.lt (h : info.Inside c) : c.toNat < 2 ^ 31 := by
  have htop := top_le info.fat32
  have hlt := h.2.2
  omega

/-! ## Entries -/

theorem Card.bytes_add (s : BitVec 32) (a k : ℕ) :
    card.bytes (s + BitVec.ofNat 32 a) k = card.bytes s (mmcBlocklenVal * a + k) := by
  have hdiv : (mmcBlocklenVal * a + k) / mmcBlocklenVal = a + k / mmcBlocklenVal :=
    Nat.mul_add_div (by decide) _ _
  have hmod : (mmcBlocklenVal * a + k) % mmcBlocklenVal = k % mmcBlocklenVal :=
    Nat.mul_add_mod _ _ _
  rw [bytes, bytes, hdiv, hmod, BitVec.ofNat_add, BitVec.add_assoc]

theorem le16_shift {b b' : ℕ → UInt8} {a : ℕ} (h : ∀ k, b k = b' (2 * a + k)) (i : ℕ) :
    Fat.le16 b i = Fat.le16 b' (a + i) := by
  have h0 := h (2 * i)
  have h1 := h (2 * i + 1)
  have hpos : 2 * (a + i) = 2 * a + 2 * i := by omega
  rw [Fat.le16, Fat.le16, h0, h1, hpos, Nat.add_assoc]

theorem le32_shift {b b' : ℕ → UInt8} {a : ℕ} (h : ∀ k, b k = b' (4 * a + k)) (i : ℕ) :
    Fat.le32 b i = Fat.le32 b' (a + i) := by
  have h2 : ∀ k, b k = b' (2 * (2 * a) + k) := fun k => by
    rw [h k]
    congr 1
    omega
  have hpos : 2 * (a + i) = 2 * a + 2 * i := by omega
  rw [Fat.le32, Fat.le32, le16_shift h2, le16_shift h2, hpos, Nat.add_assoc]

theorem toNat_seenEntry (buf : ℕ → UInt8) (h : c.toNat < 2 ^ 31) :
    (seenEntry card info buf c).toNat = tableEntry card info c := by
  have hdiv := Nat.div_add_mod c.toNat (perSector info.fat32)
  rw [seenEntry, fatSector, if_neg (fatSecNum_ne h), fatSecNum_eq h, getClus, tableEntry]
  unfold perSector at hdiv ⊢
  split_ifs at hdiv ⊢
  · have hmod : (c &&& 0x7f).toNat = c.toNat % 128 := Nat.and_two_pow_sub_one_eq_mod _ 7
    have hbytes : ∀ k, card.bytes (info.fatSecPos + BitVec.ofNat 32 (c.toNat / 128)) k =
        card.bytes info.fatSecPos (4 * (128 * (c.toNat / 128)) + k) := fun k => by
      rw [Card.bytes_add, ← Nat.mul_assoc]
      rfl
    rw [BitVec.toNat_ofNat, Nat.mod_eq_of_lt (Fat.le32_lt _ _), hmod, le32_shift hbytes, hdiv]
  · have hmod : (c &&& 0xff).toNat = c.toNat % 256 := Nat.and_two_pow_sub_one_eq_mod _ 8
    have hbytes : ∀ k, card.bytes (info.fatSecPos + BitVec.ofNat 32 (c.toNat / 256)) k =
        card.bytes info.fatSecPos (2 * (256 * (c.toNat / 256)) + k) := fun k => by
      rw [Card.bytes_add, ← Nat.mul_assoc]
      rfl
    rw [BitVec.toNat_ofNat, Nat.mod_eq_of_lt ((Fat.le16_lt _ _).trans (by decide)), hmod,
      le16_shift hbytes, hdiv]

/-! ## The buffer of the table -/

/-- The buffer holds the sector it is said to hold, and an empty buffer is not taken for the sector
of a cluster. -/
structure Cached (card : Card) (info : FatInfo) (buf : ℕ → UInt8) (s : Boot) (c : BitVec 32) :
    Prop where
  data : ∀ k < mmcBlocklenVal, s.readData k = fatSector card info buf s.nowFatSec k
  sector : s.nowFatSec = -1 ∨ fatSecNum info.fat32 c ≠ -1

theorem cached_opened (s : Boot) (c : BitVec 32) : Cached card info s.readData s.opened c where
  data _ _ := (if_pos rfl : fatSector card info s.readData (-1) = s.readData) ▸ rfl
  sector := Or.inl rfl

theorem getClus_congr {fat32 : Bool} {b b' : ℕ → UInt8}
    (h : ∀ k < mmcBlocklenVal, b k = b' k) : getClus fat32 b c = getClus fat32 b' c := by
  have h32 : (c &&& 0x7f).toNat < 128 := Nat.and_lt_two_pow _ (by decide : 0x7f < 2 ^ 7)
  have h16 : (c &&& 0xff).toNat < 256 := Nat.and_lt_two_pow _ (by decide : 0xff < 2 ^ 8)
  have hword : ∀ i < 256, Fat.le16 b i = Fat.le16 b' i := fun i hi => by
    rw [Fat.le16, Fat.le16, h _ (by unfold mmcBlocklenVal; omega),
      h _ (by unfold mmcBlocklenVal; omega)]
  unfold getClus
  split_ifs
  · rw [Fat.le32, Fat.le32, hword _ (by omega), hword _ (by omega)]
  · rw [hword _ h16]

theorem multiRead_of_ok {io : Io} {calls : ℕ} {addr : BitVec 32} {mem : ℕ → UInt8} {at' num : ℕ}
    (h : (multiRead card io calls addr mem at' num).1 = 0) :
    (multiRead card io calls addr mem at' num).2 =
      splice mem at' (stretch (card.bytes addr) 0 (mmcBlocklenVal * num)) := by
  have hret : io.ret calls = 0 := h
  rw [multiRead]
  simp only [hret, if_true]

theorem multiRead_apply {io : Io} {calls : ℕ} {addr : BitVec 32} {mem : ℕ → UInt8} {num k : ℕ}
    (h : (multiRead card io calls addr mem 0 num).1 = 0) (hk : k < mmcBlocklenVal * num) :
    (multiRead card io calls addr mem 0 num).2 k = card.bytes addr k := by
  have hsplice := splice_stretch (f := mem) (g := card.bytes addr) (s := 0) (m := 0) hk
  rw [Nat.zero_add] at hsplice
  rw [multiRead_of_ok h, hsplice]

theorem multiRead_ok {calls : ℕ} {addr : BitVec 32} {mem : ℕ → UInt8} {at' num : ℕ} :
    (multiRead card .ok calls addr mem at' num).1 = 0 := rfl

theorem lookFat_ok (s : Boot) (c : BitVec 32) : (lookFat card .ok info s c).1 = 0 := by
  simp only [lookFat, singleRead, multiRead_ok, ne_eq, not_true_eq_false, if_false]
  split_ifs <;> rfl

theorem lookFat_spec {io : Io} {s : Boot} (hs : Cached card info buf s c)
    (h : (lookFat card io info s c).1 = 0) :
    (lookFat card io info s c).2.nowFatSec = fatSecNum info.fat32 c ∧
      ∀ k < mmcBlocklenVal, (lookFat card io info s c).2.readData k =
        fatSector card info buf (fatSecNum info.fat32 c) k := by
  by_cases hnum : s.nowFatSec = fatSecNum info.fat32 c
  · have heq : lookFat card io info s c = (0, s) := by
      simp only [lookFat, hnum, ne_eq, not_true_eq_false, if_false]
    rw [heq]
    exact ⟨hnum, hnum ▸ hs.data⟩
  · have hne : fatSecNum info.fat32 c ≠ -1 := by
      rcases hs.sector with hempty | hne
      · exact fun h => hnum (hempty.trans h.symm)
      · exact hne
    have hread : (singleRead card io s.calls (info.fatSecPos + fatSecNum info.fat32 c)
        s.readData).1 = 0 := by
      by_contra hret
      simp only [lookFat, ne_eq, hnum, not_false_eq_true, if_true, hret] at h
    have heq : lookFat card io info s c = (0, { s with
        readData := (singleRead card io s.calls (info.fatSecPos + fatSecNum info.fat32 c)
          s.readData).2
        calls := s.calls + 1
        nowFatSec := fatSecNum info.fat32 c }) := by
      simp only [lookFat, ne_eq, hnum, not_false_eq_true, if_true, hread, not_true_eq_false,
        if_false]
    rw [heq]
    refine ⟨rfl, fun k hk => ?_⟩
    rw [fatSector, if_neg hne]
    exact multiRead_apply hread (by omega)

theorem seen_of_lookFat {io : Io} {s : Boot} (hs : Cached card info buf s c)
    (h : (lookFat card io info s c).1 = 0) :
    getClus info.fat32 (lookFat card io info s c).2.readData c = seenEntry card info buf c :=
  getClus_congr (lookFat_spec hs h).2

theorem cached_of_lookFat {io : Io} {s : Boot} {c' : BitVec 32} (hs : Cached card info buf s c)
    (h : (lookFat card io info s c).1 = 0) (hdata : isData info.fat32 c' = true) :
    Cached card info buf (lookFat card io info s c).2 c' where
  data k hk := by
    obtain ⟨hnum, hbuf⟩ := lookFat_spec hs h
    rw [hbuf k hk, hnum]
  sector := by
    have hlt := (isData_iff.mp hdata).2
    have htop := top_le info.fat32
    exact Or.inr (fatSecNum_ne (by omega))

theorem multiRead_frame {io : Io} {calls : ℕ} {addr : BitVec 32} {mem : ℕ → UInt8} {at' num x : ℕ}
    (hx : at' + mmcBlocklenVal * num ≤ x) :
    (multiRead card io calls addr mem at' num).2 x = mem x := by
  refine splice_of_le ?_
  have hlen : (stretch (card.bytes addr) 0 (mmcBlocklenVal * num)).length =
      mmcBlocklenVal * num := length_stretch
  split_ifs
  · omega
  · rw [List.length_take]
    omega

/-! ## The loop -/

/-- What a cluster holds, where the code reads it. -/
def seenData (card : Card) (info : FatInfo) (c : BitVec 32) : List UInt8 :=
  stretch (card.bytes (info.readClusSec c)) 0 info.clusSize

theorem length_seenData : (seenData card info c).length = info.clusSize := length_stretch

theorem cpyLoop_frame (io : Io) {maxSize x : ℕ} (hx : maxSize ≤ x) (s : Boot) (mem : ℕ → UInt8)
    (writeSize : ℕ) : (cpyLoop card io info maxSize s mem writeSize).2.1 x = mem x := by
  fun_induction cpyLoop card io info maxSize s mem writeSize with
  | case1 s mem writeSize hroom r s' hr => exact multiRead_frame (hroom.trans hx)
  | case2 s mem writeSize hroom r s' hr f hf => exact multiRead_frame (hroom.trans hx)
  | case3 s mem writeSize hroom r s' hr f hf clus hclus ih =>
    exact ih.trans (multiRead_frame (hroom.trans hx))
  | case4 s mem writeSize hroom r s' hr f hf clus hclus => exact multiRead_frame (hroom.trans hx)
  | case5 => rfl

theorem cpyLoop_finished {io : Io} {maxSize : ℕ} (s : Boot) (mem : ℕ → UInt8) (writeSize : ℕ)
    (hs : Cached card info buf s s.dataNumClus)
    (h : (cpyLoop card io info maxSize s mem writeSize).1 = 0) :
    ∃ l, Chain (Follows card info buf) (Stops card info buf) s.dataNumClus l ∧
      writeSize + l.length * info.clusSize ≤ maxSize ∧
      (cpyLoop card io info maxSize s mem writeSize).2.1 =
        splice mem writeSize (l.flatMap (seenData card info)) := by
  fun_induction cpyLoop card io info maxSize s mem writeSize with
  | case1 s mem writeSize hroom r s' hr => exact absurd h hr
  | case2 s mem writeSize hroom r s' hr f hf => exact absurd h hf
  | case3 s mem writeSize hroom r s' hr f hf clus hclus ih =>
    have hs' : Cached card info buf s' s'.dataNumClus := ⟨hs.data, hs.sector⟩
    have hentry : clus = seenEntry card info buf s.dataNumClus :=
      seen_of_lookFat hs' (not_not.mp hf)
    have hmem : r.2 = splice mem writeSize (seenData card info s.dataNumClus) :=
      multiRead_of_ok (not_not.mp hr)
    have hnext := cached_of_lookFat hs' (not_not.mp hf) hclus
    obtain ⟨l, hl, hfits, heq⟩ := ih ⟨hnext.data, hnext.sector⟩ h
    refine ⟨s.dataNumClus :: l, .link ⟨hentry.symm, hclus⟩ hl, ?_, ?_⟩
    · rw [List.length_cons, Nat.add_mul]
      omega
    · rw [heq, hmem, List.flatMap_cons]
      have hnext : writeSize + info.clusSize =
          writeSize + (seenData card info s.dataNumClus).length := by rw [length_seenData]
      rw [hnext, splice_append]
  | case4 s mem writeSize hroom r s' hr f hf clus hclus =>
    have hs' : Cached card info buf s' s'.dataNumClus := ⟨hs.data, hs.sector⟩
    have hentry : clus = seenEntry card info buf s.dataNumClus :=
      seen_of_lookFat hs' (not_not.mp hf)
    have hlast : isLast info.fat32 clus = true := by
      by_contra hne
      rw [if_neg hne] at h
      exact absurd h (by decide : (-1 : ℤ) ≠ 0)
    refine ⟨[s.dataNumClus], .last ?_, ?_, ?_⟩
    · rw [hentry] at hlast
      exact hlast
    · rw [List.length_singleton, Nat.one_mul]
      exact hroom
    · rw [List.flatMap_singleton]
      exact multiRead_of_ok (not_not.mp hr)
  | case5 => exact absurd h (by decide : (-1 : ℤ) ≠ 0)

theorem cpyLoop_finishes {maxSize : ℕ} (s : Boot) (mem : ℕ → UInt8) (writeSize : ℕ)
    (hs : Cached card info buf s s.dataNumClus) :
    ∀ l, Chain (Follows card info buf) (Stops card info buf) s.dataNumClus l →
      writeSize + l.length * info.clusSize ≤ maxSize →
      (cpyLoop card .ok info maxSize s mem writeSize).1 = 0 := by
  fun_induction cpyLoop card .ok info maxSize s mem writeSize with
  | case1 s mem writeSize hroom r s' hr => exact absurd multiRead_ok hr
  | case2 s mem writeSize hroom r s' hr f hf => exact absurd (lookFat_ok _ _) hf
  | case3 s mem writeSize hroom r s' hr f hf clus hclus ih =>
    intro l hl hfits
    have hs' : Cached card info buf s' s'.dataNumClus := ⟨hs.data, hs.sector⟩
    have hentry : clus = seenEntry card info buf s.dataNumClus :=
      seen_of_lookFat hs' (not_not.mp hf)
    cases hl with
    | last hstop =>
      rw [Stops, ← hentry, isLast_iff] at hstop
      rw [isData_iff] at hclus
      omega
    | link hlink hl =>
      obtain ⟨rfl, -⟩ := hlink
      rw [List.length_cons, Nat.add_mul] at hfits
      have hnext := cached_of_lookFat hs' (not_not.mp hf) hclus
      exact ih ⟨hnext.data, hnext.sector⟩ _ (hentry ▸ hl) (by omega)
  | case4 s mem writeSize hroom r s' hr f hf clus hclus =>
    intro l hl hfits
    have hs' : Cached card info buf s' s'.dataNumClus := ⟨hs.data, hs.sector⟩
    have hentry : clus = seenEntry card info buf s.dataNumClus :=
      seen_of_lookFat hs' (not_not.mp hf)
    cases hl with
    | last hstop =>
      rw [Stops, ← hentry] at hstop
      exact if_pos hstop
    | link hlink hl =>
      rw [Follows, ← hentry] at hlink
      exact absurd (hlink.1 ▸ hlink.2) hclus
  | case5 s mem writeSize hroom =>
    intro l hl hfits
    have hpos := Nat.le_mul_of_pos_left info.clusSize hl.length_pos
    omega

/-! ## The two views of a chain -/

theorem eq_of_chains {l l' : List (BitVec 32)}
    (h : Chain (Follows card info buf) (Stops card info buf) c l)
    (h' : Chain (NextClus card info) (LastClus card info) c l') : l = l' := by
  refine Chain.eq_of_agree ?_ ?_ ?_ h h'
  · rintro a b b' ⟨rfl, hdata⟩ ⟨hin, hnext, -⟩
    rw [isData_iff, toNat_seenEntry _ hin.lt] at hdata
    refine BitVec.eq_of_toNat_eq ?_
    rw [toNat_seenEntry _ hin.lt, ← hnext, Nat.mod_eq_of_lt (by omega)]
  · rintro a b ⟨rfl, hdata⟩ ⟨hin, hlast⟩
    rw [isData_iff, toNat_seenEntry _ hin.lt] at hdata
    rw [Nat.mod_eq_of_lt (by omega)] at hlast
    omega
  · rintro a b hstop ⟨hin, hnext, hin'⟩
    rw [Stops, isLast_iff, toNat_seenEntry _ hin.lt] at hstop
    have hlt := hin'.2.2
    rw [← hnext, Nat.mod_eq_of_lt hstop.2] at hlt
    omega

theorem seenEntry_lt {l : List (BitVec 32)}
    (h : Chain (Follows card info buf) (Stops card info buf) c l) :
    ∀ c ∈ l, (seenEntry card info buf c).toNat < top info.fat32 := by
  refine h.forall_mem ?_ fun c hstop => (isLast_iff.mp hstop).2
  rintro c b ⟨rfl, hdata⟩
  have hlt := (isData_iff.mp hdata).2
  omega

theorem inside_of_mem {l : List (BitVec 32)}
    (h : Chain (NextClus card info) (LastClus card info) c l) : ∀ c ∈ l, info.Inside c :=
  h.forall_mem (fun _ _ h => h.1) fun _ h => h.1

theorem follows_of_file {l : List (BitVec 32)}
    (h : Chain (NextClus card info) (LastClus card info) c l)
    (hclear : ∀ c ∈ l, tableEntry card info c < top info.fat32) :
    Chain (Follows card info buf) (Stops card info buf) c l := by
  refine h.imp_of_mem ?_ ?_
  · rintro c hc b - ⟨hin, hnext, hin'⟩
    rw [Nat.mod_eq_of_lt (hclear c hc), ← toNat_seenEntry buf hin.lt] at hnext
    exact ⟨BitVec.eq_of_toNat_eq hnext, isData_iff.mpr ⟨hin'.1, hin'.2.2⟩⟩
  · rintro c hc ⟨hin, hlast⟩
    rw [Nat.mod_eq_of_lt (hclear c hc)] at hlast
    refine isLast_iff.mpr ?_
    rw [toNat_seenEntry _ hin.lt]
    exact ⟨hlast, hclear c hc⟩

theorem file_of_follows {l : List (BitVec 32)}
    (h : Chain (Follows card info buf) (Stops card info buf) c l)
    (hinside : ∀ c ∈ l, info.Inside c) :
    Chain (NextClus card info) (LastClus card info) c l := by
  have hlt := seenEntry_lt h
  refine h.imp_of_mem ?_ ?_
  · rintro c hc b hb ⟨rfl, -⟩
    have hentry := hlt c hc
    rw [toNat_seenEntry _ (hinside c hc).lt] at hentry
    refine ⟨hinside c hc, ?_, hinside _ hb⟩
    rw [toNat_seenEntry _ (hinside c hc).lt, Nat.mod_eq_of_lt hentry]
  · rintro c hc hstop
    have hlast := isLast_iff.mp hstop
    rw [toNat_seenEntry _ (hinside c hc).lt] at hlast
    refine ⟨hinside c hc, ?_⟩
    rw [Nat.mod_eq_of_lt hlast.2]
    exact hlast.1

theorem seenData_eq (h : info.Inside c) : seenData card info c = clusData card info c := by
  have hsub : c - 2 = BitVec.ofNat 32 (c.toNat - 2) := by
    refine BitVec.eq_of_toNat_eq ?_
    have hle : (2 : BitVec 32) ≤ c := h.1
    have hlt := c.isLt
    rw [BitVec.toNat_sub_of_le hle, BitVec.toNat_ofNat, Nat.mod_eq_of_lt (by omega)]
    rfl
  rw [seenData, clusData, FatInfo.readClusSec, hsub, ← BitVec.ofNat_mul]

theorem flatMap_seenData {l : List (BitVec 32)} (h : ∀ c ∈ l, info.Inside c) :
    l.flatMap (seenData card info) = l.flatMap (clusData card info) :=
  List.flatMap_congr fun c hc => seenData_eq (h c hc)

/-! ## The condition -/

/-- **When a file is copied.** -/
theorem fatCpyData_iff (card : Card) (info : FatInfo) (s : Boot) (mem : ℕ → UInt8)
    (maxSize : ℕ) :
    CopiesFile card info s mem maxSize ↔
      (∀ l, Chain (NextClus card info) (LastClus card info) s.dataNumClus l →
        l.length * info.clusSize ≤ maxSize → ∀ c ∈ l, tableEntry card info c < top info.fat32) ∧
      ∀ l, Chain (Follows card info s.readData) (Stops card info s.readData) s.dataNumClus l →
        l.length * info.clusSize ≤ maxSize → ∀ c ∈ l, info.Inside c := by
  have hcached : Cached card info s.readData s.opened s.opened.dataNumClus := cached_opened s _
  constructor
  · rintro ⟨hcopies, herror, -⟩
    constructor
    · intro l hl hfits c hc
      obtain ⟨l', hl', -, -⟩ := cpyLoop_finished s.opened mem 0 hcached (hcopies l hl hfits).1
      obtain rfl := eq_of_chains hl' hl
      rw [← toNat_seenEntry s.readData (inside_of_mem hl c hc).lt]
      exact seenEntry_lt hl' c hc
    · intro l hl hfits
      have hret := cpyLoop_finishes s.opened mem 0 hcached l hl
        ((Nat.zero_add _).trans_le hfits)
      by_contra hout
      refine herror ?_ .ok hret
      rintro ⟨l', hl', -⟩
      obtain rfl := eq_of_chains hl hl'
      exact hout (inside_of_mem hl')
  · rintro ⟨hclear, hinside⟩
    refine ⟨fun l hl hfits => ?_, fun hnone io hret => ?_, fun io x hx => ?_⟩
    · have hret := cpyLoop_finishes s.opened mem 0 hcached l
        (follows_of_file hl (hclear l hl hfits)) ((Nat.zero_add _).trans_le hfits)
      obtain ⟨l', hl', -, hmem⟩ := cpyLoop_finished s.opened mem 0 hcached hret
      obtain rfl := eq_of_chains hl' hl
      rw [flatMap_seenData (inside_of_mem hl)] at hmem
      exact ⟨hret, hmem⟩
    · obtain ⟨l, hl, hfits, -⟩ := cpyLoop_finished s.opened mem 0 hcached hret
      rw [Nat.zero_add] at hfits
      exact hnone ⟨l, file_of_follows hl (hinside l hl hfits), hfits⟩
    · exact cpyLoop_frame io hx s.opened mem 0

/-! ## An end mark with all its bits -/

/-- A FAT32 card with one table of 16 sectors and clusters of one sector. -/
def markInfo : FatInfo where
  fatSecPos := 32
  rdeSecPos := 2
  userSecPos := 48
  secPerClus := 1
  rootEntry := 0
  secPerFat := 16
  secRdeSize := 0
  secPerClus_pos := by decide

/-- The table is empty apart from cluster 3: a file of one cluster. -/
def markCard : Card := fun sector k => if sector = 32 ∧ 12 ≤ k ∧ k < 16 then 0xff else 0

/-- The variables with a file to copy. -/
def bootAt (c : BitVec 32) : Boot where
  dataNumClus := c
  nowFatSec := 0
  readData _ := 0
  rdeClusData _ := 0
  calls := 0

/-- **The file of cluster 3 is not copied.** -/
theorem not_copiesFile :
    ¬ CopiesFile markCard markInfo (bootAt 3) (fun _ => 0) sdBootMaxLoadsize := by
  rintro ⟨hcopies, -⟩
  have hin : markInfo.Inside 3 := ⟨by decide, by decide, by decide⟩
  have hfile : Chain (NextClus markCard markInfo) (LastClus markCard markInfo) 3 [3] :=
    .last ⟨hin, by decide⟩
  obtain ⟨l, hl, -, -⟩ := cpyLoop_finished _ _ _ (cached_opened (bootAt 3) _)
    (hcopies [3] hfile (by decide)).1
  cases hl with
  | last hstop =>
    have hlast : isLast true (seenEntry markCard markInfo (fun _ => 0) 3) = true := hstop
    exact absurd hlast (by decide)
  | link hlink _ =>
    obtain ⟨rfl, hdata⟩ := hlink
    have hdata : isData true (seenEntry markCard markInfo (fun _ => 0) 3) = true := hdata
    exact absurd hdata (by decide)

end MiniBoot
end EmevBsp
