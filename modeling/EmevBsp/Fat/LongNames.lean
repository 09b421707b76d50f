import EmevBsp.Fat.Names

/-!
# `get_vfatname`, access by access

The slots of a long name say how many they are, and `get_vfatname` believes them.  It looks at slots
on both sides of a pointer into the buffer of the caller, and at slots of `get_vfatname_block`; each
has thirteen characters for `l_name`, which has room for 256.  Here every store and every read of a
slot is checked, and one that is out of place is a fault.

The buffer of the caller is one cluster.  `slots` is how many slots of `get_vfatname_block` are part
of the buffer: all that the array has, or those of the cluster that was read.

* `Checked.slot2str`, `Checked.getVfatname`: the functions.
* `toOption_getVfatname`: they agree with the functions without faults.
* `Harmless`: the condition on the slots; `harmless_of_sequence`: a long name of at most 255
  characters in one cluster.
* `staysInBuffers_iff`: **no access is out of place**, exactly when the slots are harmless.
* `not_staysInBuffers`: a name of twenty slots, and one of no slots.
-/

namespace EmevBsp
namespace Fat

/-- What goes wrong: a store behind `l_name`, or a read outside of a buffer of slots. -/
inductive Fault
  | write
  | read
  deriving DecidableEq

namespace Checked

/-! ## The functions -/

/-- The three loops of `slot2str`: a character is stored at `l_name[*idx]`, and `*idx` goes on
unless it is the terminator. -/
def storeChars : List UInt8 → List UInt8 → Except Fault (List UInt8 × Bool)
  | [], name => .ok (name, false)
  | c :: chars, name =>
    if name.length < nameSize then
      if c = 0 then .ok (name, true) else storeChars chars (name ++ [c])
    else .error .write

/-- `slot2str`, of a slot in a buffer of `slots` of them. -/
def slot2str (dir : ℕ → UInt8) (slots i : ℕ) (name : List UInt8) :
    Except Fault (List UInt8 × Bool) :=
  if i < slots then storeChars (slotChars dir i) name else .error .read

/-- The last loop, from before slot 0 or after another one: `slotptr--` comes first. -/
def backNames (dir : ℕ → UInt8) (slots : ℕ) : ℕ → List UInt8 → Except Fault (List UInt8)
  | 0, _ => .error .read
  | slot + 1, name => do
    let r ← slot2str dir slots slot name
    if r.2 then .ok r.1
    else if slotId dir slot &&& lastLongEntryMask ≠ 0 then .ok r.1
    else backNames dir slots slot r.1

/-- `while (slotptr2->id > 0x01) slotptr2++`, with `left` slots of the buffer from one on. -/
def firstSlot (dir : ℕ → UInt8) : ℕ → ℕ → Except Fault ℕ
  | 0, _ => .error .read
  | left + 1, slot => if 1 < slotId dir slot then firstSlot dir left (slot + 1) else .ok slot

/-- The names of the slots of `get_vfatname_block` before a slot. -/
def crossNames (dir : ℕ → UInt8) (slots : ℕ) : ℕ → List UInt8 → Except Fault (List UInt8)
  | 0, name => .ok name
  | slot + 1, name => do
    let r ← slot2str dir slots slot name
    crossNames dir slots slot r.1

/-- The end of `get_vfatname`: the terminator, and the copy of the real entry. -/
def finishName (st : Walk) (i : ℕ) (dir : ℕ → UInt8) (slots real : ℕ) (name : List UInt8) :
    Except Fault VfatName :=
  if name.length < nameSize then
    if real < slots then
      .ok ({ st with block := copyEntry st.block i dir real }, (fixFirst name).map toLower)
    else .error .read
  else .error .write

/-- The slots go on in another cluster. -/
def crossVfatname (slots : ℕ) (d : Disk) (st : Walk) (curclust : BitVec 32) (i slot : ℕ) :
    Except Fault VfatName :=
  let last := 16 * st.fs.clustSize.toNat
  let clust := getFatent d st.fs curclust
  let st := { st with fs := clust.2 }
  if checkClust clust.1 st.fs.fatsize then .ok (st, [])
  else
    let read := getCluster d st.fs.toVolume clust.1 st.vfatBlock 0
      (st.fs.clustSize.toNat * fsBlockSize)
    let st := { st with vfatBlock := read.1 }
    if read.2 ≠ 0 then .ok (st, [])
    else do
      let slot2 ← firstSlot st.vfatBlock slots 0
      let name ← crossNames st.vfatBlock slots (slot2 + 1) []
      let name ← backNames st.block last (slot - 1) name
      finishName st i st.vfatBlock slots (slot2 + 1) name

/-- `get_vfatname`.  The first loop asks whether a slot is in the buffer before it looks at it. -/
def getVfatname (slots : ℕ) (d : Disk) (st : Walk) (curclust : BitVec 32) (i : ℕ) :
    Except Fault VfatName :=
  let last := 16 * st.fs.clustSize.toNat
  if i < last then
    match scanSlots st.block last (slotNumber st.block i) i with
    | none => .ok (st, [])
    | some slot =>
      if last ≤ slot then crossVfatname slots d st curclust i slot
      else do
        let name ← backNames st.block last slot []
        finishName st i st.block last slot name
  else .error .read

end Checked

variable {dir : ℕ → UInt8} {slots i n : ℕ} {name : List UInt8}

/-! ## One slot -/

/-- The characters of a slot before the terminator. -/
def slotPart (dir : ℕ → UInt8) (i : ℕ) : List UInt8 := (slotChars dir i).takeWhile (· ≠ 0)

theorem storeChars_eq {chars : List UInt8} (h : name.length ≤ nameSize) :
    Checked.storeChars chars name =
      if name.length + (chars.takeWhile (· ≠ 0)).length + (if 0 ∈ chars then 1 else 0) ≤ nameSize
      then .ok (name ++ chars.takeWhile (· ≠ 0), decide (0 ∈ chars)) else .error .write := by
  induction chars generalizing name with
  | nil =>
    rw [Checked.storeChars]
    simp [h]
  | cons c chars ih =>
    rw [Checked.storeChars]
    by_cases hc : c = 0
    · have hpart : (c :: chars).takeWhile (· ≠ 0) = [] := List.takeWhile_cons_of_neg (by simp [hc])
      have hmem : (0 : UInt8) ∈ c :: chars := hc ▸ List.mem_cons_self
      rw [if_pos hc, hpart, List.append_nil, if_pos hmem, decide_eq_true hmem]
      rfl
    · have hpart : (c :: chars).takeWhile (· ≠ 0) = c :: chars.takeWhile (· ≠ 0) :=
        List.takeWhile_cons_of_pos (by simp [hc])
      have hmem : (0 : UInt8) ∈ c :: chars ↔ (0 : UInt8) ∈ chars := by
        rw [List.mem_cons, or_iff_right (Ne.symm hc)]
      rw [if_neg hc, hpart]
      simp only [hmem]
      by_cases hlt : name.length < nameSize
      · have hlen : (name ++ [c]).length = name.length + 1 := List.length_append
        rw [if_pos hlt, ih (by rw [hlen]; exact hlt), hlen, List.append_assoc,
          List.singleton_append, List.length_cons, Nat.add_assoc name.length 1, Nat.add_comm 1]
      · rw [if_neg hlt, List.length_cons, if_neg (by omega)]

theorem slot2str_ok (hi : i < slots) (h : name.length + (slotPart dir i).length < nameSize) :
    Checked.slot2str dir slots i name =
      .ok (name ++ slotPart dir i, decide (0 ∈ slotChars dir i)) := by
  rw [slotPart] at h
  rw [Checked.slot2str, if_pos hi, storeChars_eq (by omega), if_pos (by split_ifs <;> omega)]
  rfl

theorem eq_of_slot2str {r : List UInt8 × Bool} (hlen : name.length ≤ nameSize)
    (h : Checked.slot2str dir slots i name = .ok r) :
    r = (name ++ slotPart dir i, decide (0 ∈ slotChars dir i)) ∧ r.1.length ≤ nameSize := by
  rw [Checked.slot2str] at h
  split_ifs at h with hi
  rw [storeChars_eq hlen] at h
  split_ifs at h with hfit
  all_goals
    obtain rfl := Except.ok.inj h
    refine ⟨rfl, ?_⟩
    rw [List.length_append]
    omega

/-! ## Going back through the slots -/

/-- The name ends at a slot: it has the flag, or the terminator. -/
def Stops (dir : ℕ → UInt8) (i : ℕ) : Prop :=
  slotId dir i &&& lastLongEntryMask ≠ 0 ∨ 0 ∈ slotChars dir i

instance (i : ℕ) : Decidable (Stops dir i) := inferInstanceAs (Decidable (_ ∨ _))

/-- Going back from before a slot there is one at which the name ends, and the name is shorter than
`l_name` together with the `len` characters that are in it already. -/
def NameFits (dir : ℕ → UInt8) (slot len : ℕ) : Prop :=
  ∃ p < slot, Stops dir p ∧ (∀ q < slot, p < q → ¬ Stops dir q) ∧
    len + (longText dir p (slot - p)).length < nameSize

variable {slot len : ℕ}

theorem not_nameFits_zero : ¬ NameFits dir 0 len := fun ⟨_, hp, _⟩ => absurd hp (Nat.not_lt_zero _)

theorem nameFits_succ_of_stops (h : Stops dir slot) :
    NameFits dir (slot + 1) len ↔ len + (slotPart dir slot).length < nameSize := by
  have htext : longText dir slot (slot + 1 - slot) = slotPart dir slot := by
    rw [Nat.add_sub_cancel_left, longText, slotText, slotText, List.append_nil, Nat.add_zero]
    rfl
  constructor
  · rintro ⟨p, hp, -, hfirst, hlen⟩
    rcases Nat.lt_or_eq_of_le (Nat.le_of_lt_succ hp) with hlt | rfl
    · exact absurd h (hfirst slot (Nat.lt_succ_self slot) hlt)
    · rwa [htext] at hlen
  · intro hlen
    exact ⟨slot, Nat.lt_succ_self slot, h, fun q hq hlt => absurd hq (by omega), htext ▸ hlen⟩

theorem nameFits_succ_of_not_stops (h : ¬ Stops dir slot) :
    NameFits dir (slot + 1) len ↔ NameFits dir slot (len + (slotPart dir slot).length) := by
  have hzero : (0 : UInt8) ∉ slotChars dir slot := fun h0 => h (Or.inr h0)
  have hpart : slotPart dir slot = slotChars dir slot := takeWhile_eq_self hzero
  have htext : ∀ p < slot, (longText dir p (slot + 1 - p)).length =
      (slotPart dir slot).length + (longText dir p (slot - p)).length := by
    intro p hp
    have hsub : slot + 1 - p = slot - p + 1 := by omega
    have hadd : p + (slot - p) = slot := by omega
    have hne : ∀ c ∈ slotChars dir slot, decide (c ≠ 0) = true := by
      intro c hc
      rw [decide_eq_true_iff]
      exact fun h0 => hzero (h0 ▸ hc)
    rw [hsub, longText, slotText, hadd, List.takeWhile_append_of_pos hne, List.length_append, hpart]
    rfl
  constructor
  · rintro ⟨p, hp, hstop, hfirst, hlen⟩
    rcases Nat.lt_or_eq_of_le (Nat.le_of_lt_succ hp) with hlt | rfl
    · refine ⟨p, hlt, hstop, fun q hq => hfirst q (Nat.lt_succ_of_lt hq), ?_⟩
      rw [htext p hlt] at hlen
      omega
    · exact absurd hstop h
  · rintro ⟨p, hp, hstop, hfirst, hlen⟩
    refine ⟨p, Nat.lt_succ_of_lt hp, hstop, fun q hq hlt => ?_, ?_⟩
    · rcases Nat.lt_or_eq_of_le (Nat.le_of_lt_succ hq) with hq' | rfl
      · exact hfirst q hq' hlt
      · exact h
    · rw [htext p hp]
      omega

theorem NameFits.lt (h : NameFits dir slot len) : len < nameSize := by
  obtain ⟨p, -, -, -, hlen⟩ := h
  omega

theorem backNames_succ
    (h : Checked.slot2str dir slots slot name =
      .ok (name ++ slotPart dir slot, decide (0 ∈ slotChars dir slot))) :
    Checked.backNames dir slots (slot + 1) name =
      if Stops dir slot then .ok (name ++ slotPart dir slot)
      else Checked.backNames dir slots slot (name ++ slotPart dir slot) := by
  rw [Checked.backNames, h]
  change (if decide (0 ∈ slotChars dir slot) = true then Except.ok (name ++ slotPart dir slot)
    else if slotId dir slot &&& lastLongEntryMask ≠ 0 then .ok (name ++ slotPart dir slot)
    else Checked.backNames dir slots slot (name ++ slotPart dir slot)) = _
  by_cases h0 : 0 ∈ slotChars dir slot
  · have hstop : Stops dir slot := Or.inr h0
    rw [if_pos (decide_eq_true h0), if_pos hstop]
  · rw [if_neg (by rwa [decide_eq_true_iff])]
    by_cases hflag : slotId dir slot &&& lastLongEntryMask ≠ 0
    · have hstop : Stops dir slot := Or.inl hflag
      rw [if_pos hflag, if_pos hstop]
    · have hstop : ¬ Stops dir slot := not_or.mpr ⟨hflag, h0⟩
      rw [if_neg hflag, if_neg hstop]

theorem slot2str_of_backNames {r : List UInt8} (hname : name.length ≤ nameSize)
    (h : Checked.backNames dir slots (slot + 1) name = .ok r) :
    Checked.slot2str dir slots slot name =
        .ok (name ++ slotPart dir slot, decide (0 ∈ slotChars dir slot)) ∧
      (name ++ slotPart dir slot).length ≤ nameSize := by
  rw [Checked.backNames] at h
  cases hstr : Checked.slot2str dir slots slot name with
  | error e =>
    rw [hstr] at h
    cases h
  | ok r₁ =>
    obtain ⟨rfl, hle⟩ := eq_of_slot2str hname hstr
    exact ⟨rfl, hle⟩

theorem backNames_iff (hslot : slot ≤ slots) (hname : name.length ≤ nameSize) :
    (∃ r, Checked.backNames dir slots slot name = .ok r ∧ r.length < nameSize) ↔
      NameFits dir slot name.length := by
  induction slot generalizing name with
  | zero =>
    refine iff_of_false ?_ not_nameFits_zero
    rintro ⟨r, hr, -⟩
    cases hr
  | succ slot ih =>
    have hlen : (name ++ slotPart dir slot).length = name.length + (slotPart dir slot).length :=
      List.length_append
    by_cases hstop : Stops dir slot
    · rw [nameFits_succ_of_stops hstop, ← hlen]
      constructor
      · rintro ⟨r, hr, hlt⟩
        rw [backNames_succ (slot2str_of_backNames hname hr).1, if_pos hstop] at hr
        rwa [Except.ok.inj hr]
      · intro hlt
        exact ⟨_, by rw [backNames_succ (slot2str_ok hslot (hlen ▸ hlt)), if_pos hstop], hlt⟩
    · rw [nameFits_succ_of_not_stops hstop, ← hlen]
      constructor
      · rintro ⟨r, hr, hlt⟩
        obtain ⟨hstr, hle⟩ := slot2str_of_backNames hname hr
        rw [backNames_succ hstr, if_neg hstop] at hr
        exact (ih (Nat.le_of_succ_le hslot) hle).mp ⟨r, hr, hlt⟩
      · intro hfits
        obtain ⟨r, hr, hlt⟩ := (ih (Nat.le_of_succ_le hslot) hfits.lt.le).mpr hfits
        refine ⟨r, ?_, hlt⟩
        rw [backNames_succ (slot2str_ok hslot (hlen ▸ hfits.lt)), if_neg hstop, hr]

/-! ## The slots of the next cluster -/

/-- The characters of the slots before one, without what comes after a terminator in its slot. -/
def crossText (dir : ℕ → UInt8) : ℕ → List UInt8
  | 0 => []
  | slot + 1 => slotPart dir slot ++ crossText dir slot

theorem crossNames_ok (hslot : slot ≤ slots)
    (h : name.length + (crossText dir slot).length < nameSize) :
    Checked.crossNames dir slots slot name = .ok (name ++ crossText dir slot) := by
  induction slot generalizing name with
  | zero =>
    rw [Checked.crossNames, crossText, List.append_nil]
  | succ slot ih =>
    rw [crossText, List.length_append] at h
    have hlen : (name ++ slotPart dir slot).length = name.length + (slotPart dir slot).length :=
      List.length_append
    rw [Checked.crossNames, slot2str_ok hslot (by omega)]
    change Checked.crossNames dir slots slot (name ++ slotPart dir slot) = _
    rw [ih (Nat.le_of_succ_le hslot) (by omega), crossText, List.append_assoc]

theorem eq_of_crossNames {r : List UInt8} (hname : name.length ≤ nameSize)
    (h : Checked.crossNames dir slots slot name = .ok r) :
    r = name ++ crossText dir slot ∧ r.length ≤ nameSize := by
  induction slot generalizing name with
  | zero =>
    obtain rfl := Except.ok.inj h
    exact ⟨(List.append_nil _).symm, hname⟩
  | succ slot ih =>
    rw [Checked.crossNames] at h
    cases hstr : Checked.slot2str dir slots slot name with
    | error e =>
      rw [hstr] at h
      cases h
    | ok r₁ =>
      obtain ⟨rfl, hle⟩ := eq_of_slot2str hname hstr
      rw [hstr] at h
      obtain ⟨hr, hle'⟩ := ih hle h
      exact ⟨by rw [hr, crossText, List.append_assoc], hle'⟩

theorem firstSlot_iff {left f : ℕ} :
    Checked.firstSlot dir left slot = .ok f ↔
      slot ≤ f ∧ f < slot + left ∧ slotId dir f ≤ 1 ∧ ∀ q, slot ≤ q → q < f → 1 < slotId dir q := by
  induction left generalizing slot with
  | zero =>
    refine iff_of_false (fun h => by cases h) ?_
    rintro ⟨hle, hlt, -⟩
    omega
  | succ left ih =>
    rw [Checked.firstSlot]
    by_cases hid : 1 < slotId dir slot
    · rw [if_pos hid, ih]
      constructor
      · rintro ⟨hle, hlt, hf, hbefore⟩
        refine ⟨by omega, by omega, hf, fun q hq hqf => ?_⟩
        rcases Nat.lt_or_eq_of_le hq with hlt' | rfl
        · exact hbefore q hlt' hqf
        · exact hid
      · rintro ⟨hle, hlt, hf, hbefore⟩
        have hne : f ≠ slot := by
          rintro rfl
          exact absurd hid (UInt8.not_lt.mpr hf)
        exact ⟨by omega, by omega, hf, fun q hq => hbefore q (by omega)⟩
    · rw [if_neg hid]
      constructor
      · intro h
        obtain rfl := Except.ok.inj h
        exact ⟨Nat.le_refl _, by omega, UInt8.not_lt.mp hid, fun q hq hlt => absurd hq (by omega)⟩
      · rintro ⟨hle, hlt, hf, hbefore⟩
        rcases Nat.lt_or_eq_of_le hle with hlt' | rfl
        · exact absurd (hbefore slot (Nat.le_refl slot) hlt') hid
        · rfl

/-! ## The first loop -/

/-- The numbers of the slots do not go down by one from slot to slot, up to 1 or to the end of the
buffer. -/
def Broken (dir : ℕ → UInt8) (last i : ℕ) : Prop :=
  ∃ t < slotNumber dir i, i + t < last ∧ slotNumber dir (i + t) ≠ slotNumber dir i - t

theorem scanSlots_eq_none {last n : ℕ}
    (h : ∃ t < n, slot + t < last ∧ slotNumber dir (slot + t) ≠ n - t) :
    scanSlots dir last n slot = none := by
  induction n generalizing slot with
  | zero =>
    obtain ⟨t, ht, -⟩ := h
    exact absurd ht (Nat.not_lt_zero t)
  | succ n ih =>
    obtain ⟨t, ht, hin, hne⟩ := h
    rw [scanSlots, if_pos (by omega)]
    by_cases hnum : slotNumber dir slot = n + 1
    · have hpos : t ≠ 0 := by
        rintro rfl
        exact hne hnum
      rw [if_pos hnum]
      refine ih ⟨t - 1, by omega, by omega, ?_⟩
      rw [show slot + 1 + (t - 1) = slot + t by omega]
      omega
    · exact if_neg hnum

theorem scanSlots_eq_some {last n : ℕ} (hslot : slot ≤ last)
    (h : ¬ ∃ t < n, slot + t < last ∧ slotNumber dir (slot + t) ≠ n - t) :
    scanSlots dir last n slot = some (min (slot + n) last) := by
  induction n generalizing slot with
  | zero => rw [scanSlots, Nat.add_zero, Nat.min_eq_left hslot]
  | succ n ih =>
    rw [scanSlots]
    by_cases hlt : slot < last
    · have hnum : slotNumber dir slot = n + 1 :=
        not_not.mp fun hne => h ⟨0, Nat.succ_pos n, hlt, hne⟩
      have hle : slot + 1 ≤ last := hlt
      have hadd : slot + 1 + n = slot + (n + 1) := by omega
      rw [if_pos hlt, if_pos hnum, ih hle, hadd]
      rintro ⟨t, ht, hin, hne⟩
      refine h ⟨t + 1, by omega, by omega, ?_⟩
      rw [show slot + (t + 1) = slot + 1 + t by omega]
      omega
    · rw [if_neg hlt, Nat.min_eq_right (by omega), Nat.le_antisymm hslot (Nat.le_of_not_lt hlt)]

/-! ## The condition -/

variable {d : Disk} {st : Walk} {curclust : BitVec 32}

/-- The next cluster in `get_vfatname_block`, and whether it was read. -/
def nextCluster (d : Disk) (st : Walk) (curclust : BitVec 32) : (ℕ → UInt8) × ℤ :=
  let clust := getFatent d st.fs curclust
  getCluster d clust.2.toVolume clust.1 st.vfatBlock 0 (clust.2.clustSize.toNat * fsBlockSize)

/-- The slots that go on in the next cluster: there is none, or slot `f` is the first of it that
ends the search, another one follows, and the name fits with the characters of the slots up to
`f`. -/
def CrossHarmless (slots : ℕ) (d : Disk) (st : Walk) (curclust : BitVec 32) : Prop :=
  checkClust (getFatent d st.fs curclust).1 st.fs.fatsize = true ∨
    (nextCluster d st curclust).2 ≠ 0 ∨
    ∃ f, f + 1 < slots ∧ slotId (nextCluster d st curclust).1 f ≤ 1 ∧
      (∀ q < f, 1 < slotId (nextCluster d st curclust).1 q) ∧
      NameFits st.block (16 * st.fs.clustSize.toNat - 1)
        (crossText (nextCluster d st curclust).1 (f + 1)).length

/-- **Slots that do no harm**: their numbers are broken, or they end in the buffer and the name
fits, or they go on in the next cluster and do no harm there. -/
def Harmless (slots : ℕ) (d : Disk) (st : Walk) (curclust : BitVec 32) (i : ℕ) : Prop :=
  i < 16 * st.fs.clustSize.toNat ∧
    (Broken st.block (16 * st.fs.clustSize.toNat) i ∨
      (i + slotNumber st.block i < 16 * st.fs.clustSize.toNat ∧
        NameFits st.block (i + slotNumber st.block i) 0) ∨
      (16 * st.fs.clustSize.toNat ≤ i + slotNumber st.block i ∧ CrossHarmless slots d st curclust))

theorem finishName_ok_iff {real : ℕ} :
    (∃ r, Checked.finishName st i dir slots real name = .ok r) ↔
      name.length < nameSize ∧ real < slots := by
  rw [Checked.finishName]
  constructor
  · rintro ⟨r, hr⟩
    split_ifs at hr with hlen hreal
    exact ⟨hlen, hreal⟩
  · rintro ⟨hlen, hreal⟩
    exact ⟨_, by rw [if_pos hlen, if_pos hreal]⟩

theorem bind_ok_iff {ε α β : Type} {x : Except ε α} {f : α → Except ε β} :
    (∃ r, (x >>= f) = .ok r) ↔ ∃ a, x = .ok a ∧ ∃ r, f a = .ok r := by
  cases x with
  | error e => exact iff_of_false (fun ⟨_, h⟩ => nomatch h) fun ⟨_, h, _⟩ => nomatch h
  | ok a =>
    refine ⟨fun h => ⟨a, rfl, h⟩, ?_⟩
    rintro ⟨a', ha, h⟩
    obtain rfl := Except.ok.inj ha
    exact h

theorem collect_ok_iff {st' : Walk} {slots' real : ℕ} {dir' : ℕ → UInt8} (hslot : slot ≤ slots)
    (hname : name.length ≤ nameSize) :
    (∃ r, (do
      let name ← Checked.backNames dir slots slot name
      Checked.finishName st' i dir' slots' real name) = .ok r) ↔
      NameFits dir slot name.length ∧ real < slots' := by
  rw [bind_ok_iff, ← backNames_iff hslot hname]
  simp only [finishName_ok_iff, ← and_assoc, exists_and_right]

theorem crossVfatname_ok_iff :
    (∃ r, Checked.crossVfatname slots d st curclust i (16 * st.fs.clustSize.toNat) = .ok r) ↔
      CrossHarmless slots d st curclust := by
  have hvol := getFatent_toVolume d st.fs curclust
  rw [Checked.crossVfatname, CrossHarmless]
  simp only
  rw [hvol]
  by_cases hbad : checkClust (getFatent d st.fs curclust).1 st.fs.fatsize = true
  · rw [if_pos hbad]
    exact iff_of_true ⟨_, rfl⟩ (Or.inl hbad)
  · rw [if_neg hbad, or_iff_right hbad]
    have hnext : nextCluster d st curclust = getCluster d st.fs.toVolume
        (getFatent d st.fs curclust).1 st.vfatBlock 0 (st.fs.clustSize.toNat * fsBlockSize) := by
      rw [nextCluster, hvol]
    rw [← hnext]
    by_cases hread : (nextCluster d st curclust).2 ≠ 0
    · rw [if_pos hread]
      exact iff_of_true ⟨_, rfl⟩ (Or.inl hread)
    · rw [if_neg hread, or_iff_right hread]
      rw [bind_ok_iff]
      constructor
      · rintro ⟨f, hf, hrest⟩
        obtain ⟨-, hlt, hid, hbefore⟩ := firstSlot_iff.mp hf
        rw [bind_ok_iff] at hrest
        obtain ⟨text, htext, hrest⟩ := hrest
        obtain ⟨rfl, hle⟩ := eq_of_crossNames (Nat.zero_le _) htext
        obtain ⟨hfits, hreal⟩ := (collect_ok_iff (Nat.sub_le _ 1) hle).mp hrest
        exact ⟨f, hreal, hid, fun q hq => hbefore q (Nat.zero_le q) hq, hfits⟩
      · rintro ⟨f, hreal, hid, hbefore, hfits⟩
        have hlt : f < 0 + slots := by omega
        refine ⟨f, firstSlot_iff.mpr ⟨Nat.zero_le f, hlt, hid, fun q _ hq => hbefore q hq⟩, ?_⟩
        have htext : ([] : List UInt8).length +
            (crossText (nextCluster d st curclust).1 (f + 1)).length < nameSize := by
          rw [List.length_nil, Nat.zero_add]
          exact hfits.lt
        rw [bind_ok_iff]
        refine ⟨_, crossNames_ok hreal.le htext, ?_⟩
        rw [List.nil_append]
        exact (collect_ok_iff (Nat.sub_le _ 1) hfits.lt.le).mpr ⟨hfits, hreal⟩

/-- **When `get_vfatname` stays in its buffers.** -/
theorem getVfatname_ok_iff (slots : ℕ) (d : Disk) (st : Walk) (curclust : BitVec 32) (i : ℕ) :
    (∃ r, Checked.getVfatname slots d st curclust i = .ok r) ↔
      Harmless slots d st curclust i := by
  rw [Checked.getVfatname, Harmless]
  by_cases hi : i < 16 * st.fs.clustSize.toNat
  · rw [if_pos hi, and_iff_right hi]
    by_cases hbroken : Broken st.block (16 * st.fs.clustSize.toNat) i
    · rw [scanSlots_eq_none hbroken]
      exact iff_of_true ⟨_, rfl⟩ (Or.inl hbroken)
    · rw [scanSlots_eq_some hi.le hbroken, or_iff_right hbroken]
      simp only
      by_cases hin : i + slotNumber st.block i < 16 * st.fs.clustSize.toNat
      · rw [Nat.min_eq_left hin.le, if_neg (Nat.not_le.mpr hin),
          collect_ok_iff hin.le (Nat.zero_le _), List.length_nil,
          or_iff_left fun h => absurd h.1 (Nat.not_le.mpr hin)]
        exact and_comm
      · have hle := Nat.le_of_not_lt hin
        rw [Nat.min_eq_right hle, if_pos (Nat.le_refl _), crossVfatname_ok_iff,
          or_iff_right fun h => hin h.1, and_iff_right hle]
  · rw [if_neg hi]
    exact iff_of_false (fun ⟨_, h⟩ => nomatch h) fun h => hi h.1

/-! ## The functions without faults -/

theorem toOption_bind {ε α β : Type} (x : Except ε α) (f : α → Except ε β) :
    (x >>= f).toOption = x.toOption.bind fun a => (f a).toOption := by
  cases x <;> rfl

theorem toOption_slot2str (hi : i < slots) (hname : name.length ≤ nameSize) :
    (Checked.slot2str dir slots i name).toOption = slot2str dir i name := by
  rw [Checked.slot2str, if_pos hi, storeChars_eq hname, slot2str]
  simp only [decide_eq_true_iff]
  split_ifs <;> rfl

theorem toOption_backNames (hslot : slot ≤ slots) (hname : name.length ≤ nameSize) :
    (Checked.backNames dir slots slot name).toOption = backNames dir slot name := by
  induction slot generalizing name with
  | zero => rfl
  | succ slot ih =>
    rw [Checked.backNames, backNames, ← toOption_slot2str hslot hname]
    cases hstr : Checked.slot2str dir slots slot name with
    | error e => rfl
    | ok r =>
      have hle := (eq_of_slot2str hname hstr).2
      change Except.toOption (if r.2 = true then Except.ok r.1
        else if slotId dir slot &&& lastLongEntryMask ≠ 0 then .ok r.1
        else Checked.backNames dir slots slot r.1) = if r.2 = true then some r.1
          else if slotId dir slot &&& lastLongEntryMask ≠ 0 then some r.1
          else backNames dir slot r.1
      rw [← ih (Nat.le_of_succ_le hslot) hle]
      split_ifs <;> rfl

theorem toOption_firstSlot {left : ℕ} : (Checked.firstSlot dir left slot).toOption =
    (List.range' slot left).find? fun i => slotId dir i ≤ 1 := by
  induction left generalizing slot with
  | zero => rfl
  | succ left ih =>
    rw [Checked.firstSlot, List.range'_succ, List.find?_cons]
    by_cases hid : 1 < slotId dir slot
    · rw [if_pos hid, ih, decide_eq_false (UInt8.not_le.mpr hid)]
    · rw [if_neg hid, decide_eq_true (UInt8.not_lt.mp hid)]
      rfl

theorem toOption_crossNames (hslot : slot ≤ slots) (hname : name.length ≤ nameSize) :
    (Checked.crossNames dir slots slot name).toOption = crossNames dir slot name := by
  induction slot generalizing name with
  | zero => rfl
  | succ slot ih =>
    rw [Checked.crossNames, crossNames, ← toOption_slot2str hslot hname]
    cases hstr : Checked.slot2str dir slots slot name with
    | error e => rfl
    | ok r => exact ih (Nat.le_of_succ_le hslot) (eq_of_slot2str hname hstr).2

theorem toOption_finishName {real : ℕ} :
    (Checked.finishName st i dir slots real name).toOption =
      if real < slots then finishName st i dir real name else none := by
  rw [Checked.finishName, finishName]
  split_ifs <;> rfl

theorem toOption_collect {st' : Walk} {slots' real : ℕ} {dir' : ℕ → UInt8} (hslot : slot ≤ slots)
    (hname : name.length ≤ nameSize) (hreal : real < slots') :
    (do
      let name ← Checked.backNames dir slots slot name
      Checked.finishName st' i dir' slots' real name).toOption =
      (do
        let name ← backNames dir slot name
        finishName st' i dir' real name) := by
  rw [toOption_bind, toOption_backNames hslot hname, Option.bind_eq_bind]
  simp only [toOption_finishName, if_pos hreal]

theorem scanSlots_le {last n s : ℕ} (hslot : slot ≤ last)
    (h : scanSlots dir last n slot = some s) : s ≤ last := by
  by_cases hbroken : ∃ t < n, slot + t < last ∧ slotNumber dir (slot + t) ≠ n - t
  · rw [scanSlots_eq_none hbroken] at h
    cases h
  · rw [scanSlots_eq_some hslot hbroken] at h
    obtain rfl := Option.some.inj h
    exact Nat.min_le_right _ _

theorem toOption_crossVfatname (hslot : slot ≤ 16 * st.fs.clustSize.toNat) :
    (Checked.crossVfatname vfatBlockSlots d st curclust i slot).toOption =
      crossVfatname d st curclust i slot := by
  rw [Checked.crossVfatname, crossVfatname]
  simp only
  split_ifs with hbad hread
  · rfl
  · rfl
  · rw [toOption_bind, toOption_firstSlot, ← List.range_eq_range']
    refine congrArg (Option.bind _) (funext fun f => ?_)
    rw [toOption_bind]
    by_cases hreal : f + 1 < vfatBlockSlots
    · rw [if_pos hreal, ← toOption_crossNames hreal.le (Nat.zero_le _)]
      cases hcross : Checked.crossNames _ vfatBlockSlots (f + 1) [] with
      | error e => rfl
      | ok text =>
        have hle := (eq_of_crossNames (Nat.zero_le _) hcross).2
        exact toOption_collect ((Nat.sub_le _ 1).trans hslot) hle hreal
    · simp only [toOption_bind, toOption_finishName, if_neg hreal, Option.bind_fun_none]

theorem toOption_getVfatname (hi : i < 16 * st.fs.clustSize.toNat) :
    (Checked.getVfatname vfatBlockSlots d st curclust i).toOption =
      getVfatname d st curclust i := by
  rw [Checked.getVfatname, getVfatname, if_pos hi]
  cases hscan : scanSlots st.block (16 * st.fs.clustSize.toNat) (slotNumber st.block i) i with
  | none => rfl
  | some slot =>
    have hle := scanSlots_le hi.le hscan
    simp only
    by_cases hcross : 16 * st.fs.clustSize.toNat ≤ slot
    · rw [if_pos hcross, if_pos hcross]
      exact toOption_crossVfatname hle
    · rw [if_neg hcross, if_neg hcross]
      exact toOption_collect hle (Nat.zero_le _) (Nat.lt_of_not_le hcross)

theorem harmless_of_sequence (curclust : BitVec 32)
    (hflag : slotId st.block i &&& lastLongEntryMask ≠ 0)
    (h : Sequence st.block i n) (hin : i + n < 16 * st.fs.clustSize.toNat)
    (hlen : (longText st.block i n).length < nameSize) :
    Harmless vfatBlockSlots d st curclust i := by
  have hget := getVfatname_of_sequence (d := d) curclust hflag h hin hlen
  rw [← toOption_getVfatname (by omega)] at hget
  cases hsafe : Checked.getVfatname vfatBlockSlots d st curclust i with
  | error e =>
    rw [hsafe] at hget
    cases hget
  | ok r => exact (getVfatname_ok_iff _ d st curclust i).mp ⟨r, hsafe⟩

/-! ## Staying in the buffers -/

/-- `get_vfatname` neither stores behind the name nor reads outside of the buffers. -/
def StaysInBuffers (slots : ℕ) (d : Disk) (st : Walk) (curclust : BitVec 32) (i : ℕ) : Prop :=
  ∀ fault, Checked.getVfatname slots d st curclust i ≠ .error fault

theorem staysInBuffers_iff_ok : StaysInBuffers slots d st curclust i ↔
    ∃ r, Checked.getVfatname slots d st curclust i = .ok r := by
  rw [StaysInBuffers]
  cases Checked.getVfatname slots d st curclust i with
  | error e => exact iff_of_false (fun h => h e rfl) fun ⟨_, h⟩ => nomatch h
  | ok r => exact iff_of_true (fun _ h => nomatch h) ⟨r, rfl⟩

/-- **When `get_vfatname` stays in its buffers**, whatever the slots are. -/
theorem staysInBuffers_iff (slots : ℕ) (d : Disk) (st : Walk) (curclust : BitVec 32) (i : ℕ) :
    StaysInBuffers slots d st curclust i ↔ Harmless slots d st curclust i :=
  staysInBuffers_iff_ok.trans (getVfatname_ok_iff slots d st curclust i)

/-- A volume with clusters of two blocks, in which nothing is cached. -/
def twoBlockFs : Fsdata where
  fatsize := .fat16
  fatlength := 1
  fatSect := 1
  rootdirSect := 2
  clustSize := 2
  dataBegin := 3
  fatbuf _ := 0
  fatbufnum := -1

/-- A cluster that begins with twenty slots of one name, none with a terminator. -/
def twentySlots : Walk where
  fs := twoBlockFs
  block x :=
    if x % 32 = 0 then
      if x = 0 then 0x54 else if x / 32 < 20 then UInt8.ofNat (20 - x / 32) else 0x41
    else if x % 32 = 11 then if x / 32 < 20 then 0x0f else 0x20
    else 0x61
  vfatBlock _ := 0

/-- A cluster that begins with the last slot of a name of no slots. -/
def zeroSlot : Walk where
  fs := twoBlockFs
  block x := if x = 0 then 0x40 else if x = 11 then 0x0f else 0
  vfatBlock _ := 0

/-- A device of zeros. -/
def zeroDisk : Disk where
  partOffset := 0
  block _ _ := 0
  fails _ _ := false

theorem not_harmless_twentySlots : ¬ Harmless slots d twentySlots curclust 0 := by
  have hbroken : ¬ ∃ t < 20, 0 + t < 32 ∧
      slotNumber twentySlots.block (0 + t) ≠ 20 - t := by decide
  have hfits : ¬ ∃ p < 20, Stops twentySlots.block p ∧
      (∀ q < 20, p < q → ¬ Stops twentySlots.block q) ∧
        0 + (longText twentySlots.block p (20 - p)).length < nameSize := by decide +kernel
  rintro ⟨-, h | ⟨-, h⟩ | ⟨hle, -⟩⟩
  · exact hbroken h
  · exact hfits h
  · exact absurd hle (by decide)

theorem not_harmless_zeroSlot : ¬ Harmless slots d zeroSlot curclust 0 := by
  rintro ⟨-, ⟨t, ht, -⟩ | ⟨-, h⟩ | ⟨hle, -⟩⟩
  · exact absurd ht (Nat.not_lt_zero t)
  · exact not_nameFits_zero h
  · exact absurd hle (by decide)

/-- **Twenty slots are too many for the name, and a name of no slots is looked for before the
buffer.** -/
theorem not_staysInBuffers :
    (Flagged twentySlots.block 0 ∧ ¬ StaysInBuffers vfatBlockSlots zeroDisk twentySlots 2 0) ∧
      (Flagged zeroSlot.block 0 ∧ ¬ StaysInBuffers vfatBlockSlots zeroDisk zeroSlot 2 0) := by
  refine ⟨⟨by decide, fun h => ?_⟩, ⟨by decide, fun h => ?_⟩⟩
  · exact not_harmless_twentySlots ((getVfatname_ok_iff ..).mp (staysInBuffers_iff_ok.mp h))
  · exact not_harmless_zeroSlot ((getVfatname_ok_iff ..).mp (staysInBuffers_iff_ok.mp h))

end Fat
end EmevBsp
