import EmevBsp.Fat.Root
import EmevBsp.Fat.Table
import Mathlib.Data.List.TakeWhile

/-!
# The names of a directory

What an entry of a directory is called, as a statement about the bytes of the directory.  An entry
has a short name.  A long name is in the slots before its entry, the last part first: the first slot
has a flag and the number of the slots, and the numbers go down to 1.
-/

namespace EmevBsp
namespace Fat

variable {dir dir' : ℕ → UInt8}

/-! ## What a directory says -/

/-- The end of the directory. -/
def EndMarker (dir : ℕ → UInt8) (p : ℕ) : Prop :=
  slotAttr dir p &&& attrVolume = 0 ∧ slotId dir p = 0

/-- The first slot of a long name, by its attributes and its flag. -/
def Flagged (dir : ℕ → UInt8) (p : ℕ) : Prop :=
  slotAttr dir p &&& attrVolume ≠ 0 ∧ slotId dir p &&& lastLongEntryMask ≠ 0

instance (p : ℕ) : Decidable (EndMarker dir p) := inferInstanceAs (Decidable (_ ∧ _))

instance (p : ℕ) : Decidable (Flagged dir p) := inferInstanceAs (Decidable (_ ∧ _))

/-- The characters of `n` slots from slot `p` on, in the order of the name. -/
def slotText (dir : ℕ → UInt8) (p : ℕ) : ℕ → List UInt8
  | 0 => []
  | n + 1 => slotChars dir (p + n) ++ slotText dir p n

/-- The characters before the terminator. -/
def longText (dir : ℕ → UInt8) (p n : ℕ) : List UInt8 := (slotText dir p n).takeWhile (· ≠ 0)

/-- A long name. -/
def longName (dir : ℕ → UInt8) (p n : ℕ) : List UInt8 :=
  (fixFirst (longText dir p n)).map toLower

/-- The `n` slots of a long name from slot `p` on, and the entry after them. -/
structure Sequence (dir : ℕ → UInt8) (p n : ℕ) : Prop where
  pos : 0 < n
  number : ∀ t < n, slotNumber dir (p + t) = n - t
  flag : ∀ t, 0 < t → t < n → slotId dir (p + t) &&& lastLongEntryMask = 0
  entry : slotAttr dir (p + n) &&& attrVolume = 0
  notEnd : slotId dir (p + n) ≠ 0

/-- An entry of a directory of `count` entries carries a name. -/
def Carries (dir : ℕ → UInt8) (count p : ℕ) (name : List UInt8) : Prop :=
  (slotAttr dir p &&& attrVolume = 0 ∧ slotId dir p ≠ 0 ∧ getName (DirEntry.read dir p) = name) ∨
    (Flagged dir p ∧ ∃ n, Sequence dir p n ∧ p + n < count ∧
      (getName (DirEntry.read dir (p + n)) = name ∨ longName dir p n = name))

/-- The entry of a file: after the slots, if there are any. -/
def fileEntry (dir : ℕ → UInt8) (p : ℕ) : DirEntry :=
  if Flagged dir p then DirEntry.read dir (p + slotNumber dir p) else DirEntry.read dir p

theorem Sequence.number_eq {p n : ℕ} (h : Sequence dir p n) : slotNumber dir p = n :=
  h.number 0 h.pos

/-! ## The same slot in two places -/

/-- Slot `i` of one array is slot `p` of another. -/
def SameSlot (dir dir' : ℕ → UInt8) (i p : ℕ) : Prop :=
  ∀ o < 32, dir (32 * i + o) = dir' (32 * p + o)

section Same

variable {i p : ℕ}

theorem SameSlot.slotId (h : SameSlot dir dir' i p) : slotId dir i = slotId dir' p :=
  h 0 (by decide)

theorem SameSlot.slotAttr (h : SameSlot dir dir' i p) : slotAttr dir i = slotAttr dir' p :=
  h 11 (by decide)

theorem SameSlot.slotNumber (h : SameSlot dir dir' i p) : slotNumber dir i = slotNumber dir' p := by
  rw [Fat.slotNumber, Fat.slotNumber, h.slotId]

theorem SameSlot.slotChars (h : SameSlot dir dir' i p) : slotChars dir i = slotChars dir' p := by
  refine List.map_congr_left fun o ho => h o ?_
  have hall : ∀ x ∈ [1, 3, 5, 7, 9, 14, 16, 18, 20, 22, 24, 28, 30], x < 32 := by decide
  exact hall o ho

theorem SameSlot.stretch (h : SameSlot dir dir' i p) {o n : ℕ} (hn : o + n ≤ 32) :
    stretch dir (32 * i + o) n = stretch dir' (32 * p + o) n := by
  refine stretch_congr fun k hk => ?_
  rw [Nat.add_assoc, Nat.add_assoc]
  exact h (o + k) (by omega)

theorem SameSlot.read (h : SameSlot dir dir' i p) : DirEntry.read dir i = DirEntry.read dir' p := by
  have hname := h.stretch (o := 0) (n := 8) (by decide)
  have hext := h.stretch (o := 8) (n := 3) (by decide)
  have hword : ∀ o, o + 1 < 32 → word16 dir (32 * i + o) = word16 dir' (32 * p + o) := by
    intro o ho
    rw [word16, word16, h o (by omega), Nat.add_assoc, Nat.add_assoc, h (o + 1) ho]
  rw [Nat.add_zero, Nat.add_zero] at hname
  rw [DirEntry.read, DirEntry.read, hname, hext, h 11 (by decide), hword 20 (by decide),
    hword 26 (by decide), word32, word32, hword 28 (by decide)]
  rw [show 32 * i + 28 + 2 = 32 * i + 30 from rfl, show 32 * p + 28 + 2 = 32 * p + 30 from rfl,
    hword 30 (by decide)]

theorem SameSlot.endMarker (h : SameSlot dir dir' i p) : EndMarker dir i ↔ EndMarker dir' p := by
  rw [EndMarker, EndMarker, h.slotId, h.slotAttr]

theorem SameSlot.flagged (h : SameSlot dir dir' i p) : Flagged dir i ↔ Flagged dir' p := by
  rw [Flagged, Flagged, h.slotId, h.slotAttr]

theorem slotText_congr {n : ℕ} (h : ∀ t < n, SameSlot dir dir' (i + t) (p + t)) :
    slotText dir i n = slotText dir' p n := by
  induction n with
  | zero => rfl
  | succ n ih =>
    rw [slotText, slotText, (h n (Nat.lt_succ_self n)).slotChars, ih fun t ht => h t (by omega)]

theorem Sequence.congr {n : ℕ} (hs : ∀ t ≤ n, SameSlot dir dir' (i + t) (p + t))
    (h : Sequence dir' p n) : Sequence dir i n where
  pos := h.pos
  number t ht := (hs t ht.le).slotNumber.trans (h.number t ht)
  flag t hpos ht := by
    rw [(hs t ht.le).slotId]
    exact h.flag t hpos ht
  entry := by
    rw [(hs n (Nat.le_refl n)).slotAttr]
    exact h.entry
  notEnd := by
    rw [(hs n (Nat.le_refl n)).slotId]
    exact h.notEnd

end Same

/-! ## The loops of `get_vfatname` -/

theorem scanSlots_of_le {last n slot : ℕ} (hle : slot + n ≤ last)
    (h : ∀ t < n, slotNumber dir (slot + t) = n - t) :
    scanSlots dir last n slot = some (slot + n) := by
  induction n generalizing slot with
  | zero => rfl
  | succ n ih =>
    have hhead : slotNumber dir slot = n + 1 := h 0 (Nat.succ_pos n)
    rw [scanSlots, if_pos (by omega), if_pos hhead, ih (by omega), Nat.add_assoc, Nat.add_comm 1]
    intro t ht
    have htail := h (t + 1) (by omega)
    rw [Nat.add_assoc, Nat.add_comm 1, htail]
    omega

theorem scanSlots_of_sequence {last p n : ℕ} (h : Sequence dir p n) (hle : p + n ≤ last) :
    scanSlots dir last (slotNumber dir p) p = some (p + n) := by
  rw [h.number_eq]
  exact scanSlots_of_le hle h.number

theorem scanSlots_congr {last n i : ℕ}
    (h : ∀ s, i ≤ s → s < last → slotNumber dir s = slotNumber dir' s) :
    scanSlots dir last n i = scanSlots dir' last n i := by
  induction n generalizing i with
  | zero => rfl
  | succ n ih =>
    rw [scanSlots, scanSlots]
    by_cases hlt : i < last
    · rw [if_pos hlt, if_pos hlt, h i (Nat.le_refl i) hlt,
        ih fun s hs hslt => h s (by omega) hslt]
    · rw [if_neg hlt, if_neg hlt]

theorem takeWhile_eq_self {chars : List UInt8} (h : (0 : UInt8) ∉ chars) :
    chars.takeWhile (· ≠ 0) = chars := by
  refine List.takeWhile_eq_self_iff.mpr fun c hc => ?_
  rw [decide_eq_true_iff]
  exact fun h0 => h (h0 ▸ hc)

theorem slot2str_of_mem {i : ℕ} {name : List UInt8} (h : (0 : UInt8) ∈ slotChars dir i)
    (hlen : (name ++ (slotChars dir i).takeWhile (· ≠ 0)).length < nameSize) :
    slot2str dir i name = some (name ++ (slotChars dir i).takeWhile (· ≠ 0), true) := by
  rw [List.length_append] at hlen
  rw [slot2str]
  simp only [h, decide_true, if_true]
  rw [if_pos (by omega)]

theorem slot2str_of_notMem {i : ℕ} {name : List UInt8} (h : (0 : UInt8) ∉ slotChars dir i)
    (hlen : (name ++ slotChars dir i).length ≤ nameSize) :
    slot2str dir i name = some (name ++ slotChars dir i, false) := by
  rw [List.length_append] at hlen
  rw [slot2str, takeWhile_eq_self h]
  simp only [h, decide_false, Bool.false_eq_true, if_false, Nat.add_zero]
  rw [if_pos hlen]

theorem takeWhile_append {chars rest : List UInt8} (h : (0 : UInt8) ∈ chars) :
    (chars ++ rest).takeWhile (· ≠ 0) = chars.takeWhile (· ≠ 0) := by
  induction chars with
  | nil => exact absurd h List.not_mem_nil
  | cons c chars ih =>
    rw [List.cons_append]
    by_cases hc : c = 0
    · rw [List.takeWhile_cons_of_neg (by simp [hc]), List.takeWhile_cons_of_neg (by simp [hc])]
    · have hmem : (0 : UInt8) ∈ chars := (List.mem_cons.mp h).resolve_left (Ne.symm hc)
      rw [List.takeWhile_cons_of_pos (by simp [hc]), List.takeWhile_cons_of_pos (by simp [hc]),
        ih hmem]

theorem backNames_eq {p n : ℕ} {name : List UInt8}
    (hflag : slotId dir p &&& lastLongEntryMask ≠ 0)
    (hno : ∀ t, 0 < t → t ≤ n → slotId dir (p + t) &&& lastLongEntryMask = 0)
    (hlen : (name ++ longText dir p (n + 1)).length < nameSize) :
    backNames dir (p + n + 1) name = some (name ++ longText dir p (n + 1)) := by
  induction n generalizing name with
  | zero =>
    have htext : longText dir p 1 = (slotChars dir p).takeWhile (· ≠ 0) := by
      rw [longText, slotText, slotText, List.append_nil, Nat.add_zero]
    rw [htext] at hlen ⊢
    rw [backNames]
    by_cases h0 : (0 : UInt8) ∈ slotChars dir p
    · rw [slot2str_of_mem h0 hlen]
      rfl
    · rw [takeWhile_eq_self h0] at hlen ⊢
      rw [slot2str_of_notMem h0 hlen.le]
      simp only [Option.bind_eq_bind, Option.bind_some, Bool.false_eq_true, if_false]
      rw [if_pos hflag]
  | succ n ih =>
    have htext : longText dir p (n + 1 + 1) =
        (slotChars dir (p + (n + 1)) ++ slotText dir p (n + 1)).takeWhile (· ≠ 0) := rfl
    rw [htext] at hlen ⊢
    rw [backNames]
    by_cases h0 : (0 : UInt8) ∈ slotChars dir (p + (n + 1))
    · rw [takeWhile_append h0] at hlen ⊢
      rw [slot2str_of_mem h0 hlen]
      rfl
    · have hnot : slotId dir (p + (n + 1)) &&& lastLongEntryMask = 0 :=
        hno (n + 1) (Nat.succ_pos n) (Nat.le_refl _)
      have happ : (slotChars dir (p + (n + 1)) ++ slotText dir p (n + 1)).takeWhile (· ≠ 0) =
          slotChars dir (p + (n + 1)) ++ longText dir p (n + 1) := by
        rw [List.takeWhile_append_of_pos, longText]
        intro c hc
        rw [decide_eq_true_iff]
        exact fun hz => h0 (hz ▸ hc)
      rw [happ, ← List.append_assoc] at hlen ⊢
      have hpart : (name ++ slotChars dir (p + (n + 1))).length ≤ nameSize := by
        rw [List.length_append] at hlen
        omega
      rw [slot2str_of_notMem h0 hpart]
      simp only [Option.bind_eq_bind, Option.bind_some, Bool.false_eq_true, if_false]
      rw [if_neg (not_not.mpr hnot)]
      exact ih (fun t hpos ht => hno t hpos (by omega)) hlen

/-! ## An entry in the walk -/

section Look

variable {d : Disk} {st : Walk} {curclust : BitVec 32} {i : ℕ} {fnamecopy : List UInt8}

theorem attrVfat_ne_zero {attr : UInt8} (h : attr &&& attrVolume ≠ 0) : attr &&& attrVfat ≠ 0 := by
  intro h0
  have hand : attrVolume = attrVfat &&& attrVolume := by decide
  rw [hand, ← UInt8.and_assoc, h0, UInt8.zero_and] at h
  exact h rfl

theorem lookEntry_of_label (hvol : slotAttr st.block i &&& attrVolume ≠ 0)
    (hflag : ¬ Flagged st.block i) : lookEntry d fnamecopy st i = some (st, .next) := by
  rw [lookEntry, if_pos hvol, if_neg fun h => hflag ⟨hvol, h.2⟩]

theorem lookEntry_of_endMarker (h : EndMarker st.block i) :
    lookEntry d fnamecopy st i = some (st, .done .absent) := by
  rw [lookEntry, if_neg (not_not.mpr h.1), if_pos h.2]

theorem lookEntry_of_entry (hvol : slotAttr st.block i &&& attrVolume = 0)
    (hid : slotId st.block i ≠ 0) :
    lookEntry d fnamecopy st i = some (compareNames fnamecopy st i []) := by
  rw [lookEntry, if_neg (not_not.mpr hvol), if_neg hid]

theorem lookEntry_of_flagged (h : Flagged st.block i) :
    lookEntry d fnamecopy st i =
      (getVfatname d st 0 i).map fun r => compareNames fnamecopy r.1 i r.2 := by
  rw [lookEntry, if_pos h.1, if_pos ⟨attrVfat_ne_zero h.1, h.2⟩]

theorem sameSlot_copyEntry (block : ℕ → UInt8) (real : ℕ) :
    SameSlot (copyEntry block i dir real) dir i real := by
  intro o ho
  have hget : (stretch dir (32 * real) 32)[o]? = some (dir (32 * real + o)) := getElem?_stretch ho
  exact splice_add hget

theorem copyEntry_of_le {block : ℕ → UInt8} {real x : ℕ} (h : 32 * (i + 1) ≤ x) :
    copyEntry block i dir real x = block x := by
  refine splice_of_le ?_
  rw [length_stretch]
  omega

theorem getVfatname_of_sequence (curclust : BitVec 32) {n : ℕ}
    (hflag : slotId st.block i &&& lastLongEntryMask ≠ 0)
    (h : Sequence st.block i n) (hin : i + n < 16 * st.fs.clustSize.toNat)
    (hlen : (longText st.block i n).length < nameSize) :
    getVfatname d st curclust i =
      some ({ st with block := copyEntry st.block i st.block (i + n) }, longName st.block i n) := by
  obtain ⟨k, rfl⟩ := Nat.exists_eq_succ_of_ne_zero (Nat.ne_of_gt h.pos)
  have hback : backNames st.block (i + k + 1) [] = some ([] ++ longText st.block i (k + 1)) :=
    backNames_eq hflag (fun t hpos ht => h.flag t hpos (Nat.lt_succ_of_le ht)) hlen
  rw [getVfatname]
  rw [scanSlots_of_sequence h hin.le]
  simp only
  rw [if_neg (Nat.not_le.mpr hin), Nat.succ_eq_add_one, ← Nat.add_assoc, hback]
  rw [List.nil_append, Option.bind_eq_bind, Option.bind_some, finishName, if_pos hlen]
  rfl

theorem getVfatname_of_broken
    (h : scanSlots st.block (16 * st.fs.clustSize.toNat) (slotNumber st.block i) i = none) :
    getVfatname d st curclust i = some (st, []) := by
  rw [getVfatname]
  rw [h]

/-! ## What is left alone -/

/-- The volume, and the buffer after an entry. -/
def Kept (st st' : Walk) (i : ℕ) : Prop :=
  st'.fs.toVolume = st.fs.toVolume ∧ ∀ x, 32 * (i + 1) ≤ x → st'.block x = st.block x

theorem Kept.refl (st : Walk) (i : ℕ) : Kept st st i := ⟨rfl, fun _ _ => rfl⟩

theorem finishName_kept {st₀ : Walk} {real : ℕ} {name : List UInt8} {r : VfatName}
    (hst : Kept st₀ st i) (h : finishName st i dir real name = some r) : Kept st₀ r.1 i := by
  rw [finishName] at h
  split_ifs at h
  obtain rfl := Option.some.inj h
  exact ⟨hst.1, fun x hx => (copyEntry_of_le hx).trans (hst.2 x hx)⟩

theorem crossVfatname_kept {slot : ℕ} {r : VfatName}
    (h : crossVfatname d st curclust i slot = some r) : Kept st r.1 i := by
  have hvol := getFatent_toVolume d st.fs curclust
  rw [crossVfatname] at h
  simp only at h
  split_ifs at h with hbad hread
  · obtain rfl := Option.some.inj h
    exact ⟨hvol, fun _ _ => rfl⟩
  · obtain rfl := Option.some.inj h
    exact ⟨hvol, fun _ _ => rfl⟩
  · rw [Option.bind_eq_bind, Option.bind_eq_some_iff] at h
    obtain ⟨slot2, -, h⟩ := h
    split_ifs at h
    rw [Option.bind_eq_bind, Option.bind_eq_some_iff] at h
    obtain ⟨name, -, h⟩ := h
    rw [Option.bind_eq_some_iff] at h
    obtain ⟨name', -, h⟩ := h
    refine finishName_kept ?_ h
    exact ⟨hvol, fun _ _ => rfl⟩

theorem getVfatname_kept {r : VfatName} (h : getVfatname d st curclust i = some r) :
    Kept st r.1 i := by
  rw [getVfatname] at h
  cases hscan : scanSlots st.block (16 * st.fs.clustSize.toNat) (slotNumber st.block i) i with
  | none =>
    rw [hscan] at h
    obtain rfl := Option.some.inj h
    exact Kept.refl st i
  | some slot =>
    rw [hscan] at h
    simp only at h
    split_ifs at h
    · exact crossVfatname_kept h
    · rw [Option.bind_eq_bind, Option.bind_eq_some_iff] at h
      obtain ⟨name, -, h⟩ := h
      exact finishName_kept (Kept.refl st i) h

theorem compareNames_fst (lname : List UInt8) : (compareNames fnamecopy st i lname).1 = st := by
  rw [compareNames]
  split_ifs <;> rfl

end Look

end Fat
end EmevBsp
