import EmevBsp.Flash.FlashWrite

/-!
# `common/cmd_flash.c`: the sectors of a range of addresses

`flash_fill_sect_ranges` goes through the banks in the order of the list.  It looks for a sector
that starts at `addr_first` and for one that ends at `addr_last`.  A bank that the range goes on
behind is taken up to its end, and the search goes on from there.  `flash_sect_erase` erases what
was found, bank by bank.
-/

namespace EmevBsp
namespace Flash

/-! ## The functions -/

def FlashInfo.bEnd (info : FlashInfo) : BitVec 32 := info.start 0 + info.size - 1

/-- `s_end`, which is a `short`. -/
def FlashInfo.sEnd (info : FlashInfo) : ℤ :=
  (BitVec.ofInt 16 ((info.sectorCount : ℤ) - 1)).toInt

/-- `end`: the last address of a sector. -/
def FlashInfo.sectorEnd (info : FlashInfo) (sect : ℕ) : BitVec 32 :=
  if (sect : ℤ) = info.sEnd then info.bEnd else info.start (sect + 1) - 1

/-- One round of the loop over the sectors, on `s_first` and `s_last` of the bank. -/
def scanSector (info : FlashInfo) (addrFirst addrLast : BitVec 32) (s : ℤ × ℤ) (sect : ℕ) :
    ℤ × ℤ :=
  if info.sectorEnd sect < addrFirst then s
  else if addrLast < info.start sect then s
  else
    (if addrFirst = info.start sect then sect else s.1,
      if addrLast = info.sectorEnd sect then sect else s.2)

/-- The loop over the sectors. -/
def scanSectors (info : FlashInfo) (addrFirst addrLast : BitVec 32) : ℤ × ℤ :=
  (List.range info.sectorCount).foldl (scanSector info addrFirst addrLast) (-1, -1)

/-- `s_first` and `s_last` of the banks, `*s_count`, and what is returned. -/
structure Ranges where
  s : List (ℤ × ℤ)
  count : ℤ
  rcode : ℕ

/-- The bank is left with an error; the banks behind it are as they were at first. -/
def Ranges.error (s : ℤ × ℤ) (banks : List FlashInfo) : Ranges :=
  ⟨s :: banks.map fun _ => (-1, -1), 0, 1⟩

/-- A bank in front. -/
def Ranges.cons (s : ℤ × ℤ) (count : ℤ) (r : Ranges) : Ranges :=
  ⟨s :: r.s, r.count + count, r.rcode⟩

/-- The loop over the banks. -/
def fillLoop (addrLast : BitVec 32) : List FlashInfo → BitVec 32 → Ranges
  | [], _ => ⟨[], 0, 0⟩
  | info :: banks, addrFirst =>
    if addrLast < addrFirst then ⟨(info :: banks).map fun _ => (-1, -1), 0, 0⟩
    else if info.flashId = flashUnknown then
      (fillLoop addrLast banks addrFirst).cons (-1, -1) 0
    else
      let s := scanSectors info addrFirst addrLast
      if 0 ≤ s.1 then
        -- "Error: end address not on sector boundary"
        if s.2 < 0 ∧ ¬info.bEnd < addrLast then .error s banks
        else
          let sLast := if s.2 < 0 then info.sEnd else s.2
          -- "Error: end sector precedes start sector"
          if sLast < s.1 then .error (s.1, sLast) banks
          else
            let next :=
              if sLast = info.sEnd then info.bEnd + 1 else info.start (sLast.toNat + 1)
            (fillLoop addrLast banks next).cons (s.1, sLast) (sLast - s.1 + 1)
      -- "Error: start address not on sector boundary"
      else if info.start 0 ≤ addrFirst ∧ addrFirst < info.bEnd then .error s banks
      -- "Error: cannot span across banks when they are mapped in reverse order"
      else if 0 ≤ s.2 then .error s banks
      else (fillLoop addrLast banks addrFirst).cons s 0

/-- `flash_fill_sect_ranges` -/
def fillSectRanges (banks : List FlashInfo) (addrFirst addrLast : BitVec 32) : Ranges :=
  fillLoop addrLast banks addrFirst

/-- The loop of `flash_sect_erase`: the calls of `flash_erase`, and what is returned. -/
def eraseBanks (flashErase : FlashInfo → ℤ → ℤ → ℕ) :
    List (FlashInfo × ℤ × ℤ) → List (FlashInfo × ℤ × ℤ) × ℕ
  | [] => ([], 0)
  | (info, s) :: rest =>
    if 0 ≤ s.1 then
      let rcode := flashErase info s.1 s.2
      if rcode = 0 then
        let r := eraseBanks flashErase rest
        ((info, s) :: r.1, r.2)
      else ([(info, s)], rcode)
    else eraseBanks flashErase rest

def flashSectErase (flashErase : FlashInfo → ℤ → ℤ → ℕ) (banks : List FlashInfo)
    (addrFirst addrLast : BitVec 32) : List (FlashInfo × ℤ × ℤ) × ℕ :=
  let r := fillSectRanges banks addrFirst addrLast
  if r.count ≠ 0 ∧ r.rcode = 0 then eraseBanks flashErase (banks.zip r.s)
  -- "Error: start and/or end address not on sector boundary"
  else if r.rcode = 0 then ([], 1)
  else ([], r.rcode)

/-! ## Starts and ends of sectors -/

variable {info : FlashInfo} {addrFirst addrLast : BitVec 32}

/-- A sector of the bank starts at `x`. -/
def FlashInfo.StartsAt (info : FlashInfo) (x i : ℕ) : Prop :=
  i < info.sectorCount ∧ (info.start i).toNat = x

/-- A sector of the bank ends at `x`, which is its last byte. -/
def FlashInfo.EndsAt (info : FlashInfo) (x i : ℕ) : Prop :=
  i < info.sectorCount ∧ info.sectorTop i = x + 1

/-- The sectors of the bank can be counted in a `short`. -/
def FlashInfo.ShortCount (info : FlashInfo) : Prop := info.sectorCount ≤ 2 ^ 15

theorem sEnd_eq (h : info.WellFormed) (hcount : info.ShortCount) :
    info.sEnd = (info.sectorCount : ℤ) - 1 := by
  have hpos := h.sectors
  have hle : info.sectorCount ≤ 32768 := hcount
  rw [FlashInfo.sEnd, BitVec.toInt_ofInt]
  exact Int.bmod_eq_of_le (by omega) (by omega)

theorem toNat_bEnd (h : info.WellFormed) : info.bEnd.toNat = info.top - 1 := by
  have hlt := h.start_lt_top
  have hle := h.top_le
  have hone : (1 : BitVec 32).toNat = 1 := rfl
  rw [FlashInfo.bEnd, BitVec.toNat_sub, toNat_start_add_size h, hone]
  split <;> omega

theorem toNat_sectorEnd (h : info.WellFormed) (hcount : info.ShortCount) {i : ℕ}
    (hi : i < info.sectorCount) : (info.sectorEnd i).toNat = info.sectorTop i - 1 := by
  have hone : (1 : BitVec 32).toNat = 1 := rfl
  rw [FlashInfo.sectorEnd, FlashInfo.sectorTop, sEnd_eq h hcount]
  by_cases hlast : i + 1 = info.sectorCount
  · rw [if_pos (by omega), if_pos hlast, toNat_bEnd h]
  · have hstep := h.increasing i (by omega)
    have hlt := (info.start (i + 1)).isLt
    rw [if_neg (by omega), if_neg hlast, BitVec.toNat_sub, hone]
    omega

theorem start_lt_sectorTop (h : info.WellFormed) {i : ℕ} (hi : i < info.sectorCount) :
    (info.start i).toNat < info.sectorTop i := by
  rw [FlashInfo.sectorTop]
  split_ifs with hlast
  · have hlt := h.last
    rwa [show info.sectorCount - 1 = i by omega] at hlt
  · exact h.increasing i (by omega)

theorem sectorTop_le_start (h : info.WellFormed) {i j : ℕ} (hij : i < j)
    (hj : j < info.sectorCount) : info.sectorTop i ≤ (info.start j).toNat := by
  rw [FlashInfo.sectorTop, if_neg (by omega)]
  exact h.start_le hij hj

instance (x i : ℕ) : Decidable (info.StartsAt x i) := inferInstanceAs (Decidable (_ ∧ _))

instance (x i : ℕ) : Decidable (info.EndsAt x i) := inferInstanceAs (Decidable (_ ∧ _))

theorem FlashInfo.StartsAt.unique (h : info.WellFormed) {x i j : ℕ} (hi : info.StartsAt x i)
    (hj : info.StartsAt x j) : i = j := by
  rcases Nat.lt_trichotomy i j with hlt | heq | hlt
  · have hle := sectorTop_le_start h hlt hj.1
    have hpos := start_lt_sectorTop h hi.1
    have := hi.2
    have := hj.2
    omega
  · exact heq
  · have hle := sectorTop_le_start h hlt hi.1
    have hpos := start_lt_sectorTop h hj.1
    have := hi.2
    have := hj.2
    omega

theorem FlashInfo.EndsAt.unique (h : info.WellFormed) {x i j : ℕ} (hi : info.EndsAt x i)
    (hj : info.EndsAt x j) : i = j := by
  rcases Nat.lt_trichotomy i j with hlt | heq | hlt
  · have hle := sectorTop_le_start h hlt hj.1
    have hpos := start_lt_sectorTop h hj.1
    have := hi.2
    have := hj.2
    omega
  · exact heq
  · have hle := sectorTop_le_start h hlt hi.1
    have hpos := start_lt_sectorTop h hi.1
    have := hi.2
    have := hj.2
    omega

theorem FlashInfo.StartsAt.le_endsAt (h : info.WellFormed) {x y i j : ℕ}
    (hi : info.StartsAt x i) (hj : info.EndsAt y j) (hxy : x ≤ y) : i ≤ j := by
  by_contra hlt
  have hle := sectorTop_le_start h (Nat.lt_of_not_le hlt) hi.1
  have := hi.2
  have := hj.2
  omega

/-! ## One bank -/

theorem scanSector_eq (h : info.WellFormed) (hcount : info.ShortCount)
    (hrange : addrFirst ≤ addrLast) (s : ℤ × ℤ) {i : ℕ} (hi : i < info.sectorCount) :
    scanSector info addrFirst addrLast s i =
      (if info.StartsAt addrFirst.toNat i then (i : ℤ) else s.1,
        if info.EndsAt addrLast.toNat i then (i : ℤ) else s.2) := by
  have hend := toNat_sectorEnd h hcount hi
  have hlt := start_lt_sectorTop h hi
  have hle : addrFirst.toNat ≤ addrLast.toNat := BitVec.le_def.mp hrange
  have hstarts : addrFirst = info.start i ↔ info.StartsAt addrFirst.toNat i :=
    ⟨fun heq => ⟨hi, by rw [heq]⟩, fun hs => BitVec.eq_of_toNat_eq hs.2.symm⟩
  have hends : addrLast = info.sectorEnd i ↔ info.EndsAt addrLast.toNat i := by
    constructor
    · intro heq
      have := congrArg BitVec.toNat heq
      exact ⟨hi, by omega⟩
    · intro hs
      have := hs.2
      exact BitVec.eq_of_toNat_eq (by omega)
  rw [scanSector]
  by_cases hbefore : info.sectorEnd i < addrFirst
  · have hbefore' := BitVec.lt_def.mp hbefore
    rw [if_pos hbefore, if_neg fun hs => absurd hs.2 (by omega),
      if_neg fun hs => absurd hs.2 (by omega)]
  · rw [if_neg hbefore]
    by_cases hbehind : addrLast < info.start i
    · have hbehind' := BitVec.lt_def.mp hbehind
      rw [if_pos hbehind, if_neg fun hs => absurd hs.2 (by omega),
        if_neg fun hs => absurd hs.2 (by omega)]
    · rw [if_neg hbehind]
      simp only [hstarts, hends]

theorem foldl_last {P Q : ℕ → Prop} [DecidablePred P] [DecidablePred Q] (n : ℕ) :
    let r := (List.range n).foldl (fun (s : ℤ × ℤ) i =>
      (if P i then (i : ℤ) else s.1, if Q i then (i : ℤ) else s.2)) (-1, -1)
    ((∀ i j, P i → P j → i = j) → (∀ i < n, P i → r.1 = i) ∧ ((∀ i < n, ¬P i) → r.1 = -1)) ∧
      ((∀ i j, Q i → Q j → i = j) → (∀ i < n, Q i → r.2 = i) ∧ ((∀ i < n, ¬Q i) → r.2 = -1)) := by
  induction n with
  | zero =>
    exact ⟨fun _ => ⟨fun i hi => absurd hi (Nat.not_lt_zero i), fun _ => rfl⟩,
      fun _ => ⟨fun i hi => absurd hi (Nat.not_lt_zero i), fun _ => rfl⟩⟩
  | succ n ih =>
    simp only [List.range_succ, List.foldl_append, List.foldl_cons, List.foldl_nil]
    refine ⟨fun hunique => ⟨fun i hi hP => ?_, fun hnone => ?_⟩,
      fun hunique => ⟨fun i hi hQ => ?_, fun hnone => ?_⟩⟩
    · rcases Nat.lt_succ_iff_lt_or_eq.mp hi with hlt | rfl
      · rw [if_neg fun hn => hlt.ne (hunique i n hP hn)]
        exact (ih.1 hunique).1 i hlt hP
      · rw [if_pos hP]
    · rw [if_neg (hnone n (Nat.lt_succ_self n))]
      exact (ih.1 hunique).2 fun i hi => hnone i (Nat.lt_succ_of_lt hi)
    · rcases Nat.lt_succ_iff_lt_or_eq.mp hi with hlt | rfl
      · rw [if_neg fun hn => hlt.ne (hunique i n hQ hn)]
        exact (ih.2 hunique).1 i hlt hQ
      · rw [if_pos hQ]
    · rw [if_neg (hnone n (Nat.lt_succ_self n))]
      exact (ih.2 hunique).2 fun i hi => hnone i (Nat.lt_succ_of_lt hi)

theorem scanSectors_eq (h : info.WellFormed) (hcount : info.ShortCount)
    (hrange : addrFirst ≤ addrLast) :
    scanSectors info addrFirst addrLast = (List.range info.sectorCount).foldl
      (fun (s : ℤ × ℤ) i => (if info.StartsAt addrFirst.toNat i then (i : ℤ) else s.1,
        if info.EndsAt addrLast.toNat i then (i : ℤ) else s.2)) (-1, -1) := by
  rw [scanSectors]
  exact List.foldl_ext _ _ _ fun s i hi => scanSector_eq h hcount hrange s (List.mem_range.mp hi)

theorem scanSectors_fst (h : info.WellFormed) (hcount : info.ShortCount)
    (hrange : addrFirst ≤ addrLast) :
    (∀ i, info.StartsAt addrFirst.toNat i → (scanSectors info addrFirst addrLast).1 = i) ∧
      ((∀ i, ¬info.StartsAt addrFirst.toNat i) → (scanSectors info addrFirst addrLast).1 = -1) := by
  rw [scanSectors_eq h hcount hrange]
  obtain ⟨hsome, hnone⟩ := (foldl_last (Q := info.EndsAt addrLast.toNat)
    info.sectorCount).1 fun i j hi hj => FlashInfo.StartsAt.unique h hi hj
  exact ⟨fun i hi => hsome i hi.1 hi, fun hall => hnone fun i _ => hall i⟩

theorem scanSectors_snd (h : info.WellFormed) (hcount : info.ShortCount)
    (hrange : addrFirst ≤ addrLast) :
    (∀ i, info.EndsAt addrLast.toNat i → (scanSectors info addrFirst addrLast).2 = i) ∧
      ((∀ i, ¬info.EndsAt addrLast.toNat i) → (scanSectors info addrFirst addrLast).2 = -1) := by
  rw [scanSectors_eq h hcount hrange]
  obtain ⟨hsome, hnone⟩ := (foldl_last (P := info.StartsAt addrFirst.toNat)
    info.sectorCount).2 fun i j hi hj => FlashInfo.EndsAt.unique h hi hj
  exact ⟨fun i hi => hsome i hi.1 hi, fun hall => hnone fun i _ => hall i⟩

/-! ## One bank in the loop -/

variable {banks : List FlashInfo}

theorem fillLoop_of_lt (h : addrLast < addrFirst) (banks : List FlashInfo) :
    fillLoop addrLast banks addrFirst = ⟨banks.map fun _ => (-1, -1), 0, 0⟩ := by
  cases banks with
  | nil => rfl
  | cons info banks => rw [fillLoop, if_pos h]

theorem count_fillLoop_nonneg (addrLast addrFirst : BitVec 32) (banks : List FlashInfo) :
    0 ≤ (fillLoop addrLast banks addrFirst).count := by
  induction banks generalizing addrFirst with
  | nil => exact le_rfl
  | cons info banks ih =>
    have hcons (next : BitVec 32) (s : ℤ × ℤ) {n : ℤ} (hn : 0 ≤ n) :
        0 ≤ ((fillLoop addrLast banks next).cons s n).count := Int.add_nonneg (ih next) hn
    rw [fillLoop]
    dsimp only
    by_cases hrange : addrLast < addrFirst
    · rw [if_pos hrange]
    · by_cases hknown : info.flashId = flashUnknown
      · rw [if_neg hrange, if_pos hknown]
        exact hcons _ _ le_rfl
      · rw [if_neg hrange, if_neg hknown]
        generalize (if (scanSectors info addrFirst addrLast).2 < 0 then info.sEnd
          else (scanSectors info addrFirst addrLast).2) = sLast
        generalize (if sLast = info.sEnd then info.bEnd + 1
          else info.start (sLast.toNat + 1)) = next
        split_ifs with hstart hend hprec
        · exact le_rfl
        · exact le_rfl
        · exact hcons _ _ (by omega)
        · exact le_rfl
        · exact le_rfl
        · exact hcons _ _ le_rfl

theorem fillLoop_of_not_known (hknown : ¬info.Known) (hrange : addrFirst ≤ addrLast) :
    fillLoop addrLast (info :: banks) addrFirst =
      (fillLoop addrLast banks addrFirst).cons (-1, -1) 0 := by
  rw [fillLoop, if_neg (BitVec.not_lt.mpr hrange), if_pos (not_not.mp hknown)]

theorem toNat_bEnd_add_one (h : info.WellFormed) :
    (info.bEnd + 1).toNat = info.top % 2 ^ 32 := by
  have hlt := h.start_lt_top
  have hone : (1 : BitVec 32).toNat = 1 := rfl
  rw [BitVec.toNat_add, toNat_bEnd h, hone, Nat.sub_add_cancel (Nat.one_le_of_lt hlt)]

section Known

variable (h : info.WellFormed) (hcount : info.ShortCount) (hknown : info.Known)
  (hrange : addrFirst ≤ addrLast)

include h hcount hknown hrange

theorem fillLoop_of_taken {i j : ℕ} (hi : info.StartsAt addrFirst.toNat i)
    (hj : info.EndsAt addrLast.toNat j) :
    fillLoop addrLast (info :: banks) addrFirst =
      (fillLoop addrLast banks (addrLast + 1)).cons (i, j) (j - i + 1) := by
  have hfst := (scanSectors_fst h hcount hrange).1 i hi
  have hsnd := (scanSectors_snd h hcount hrange).1 j hj
  have hij := FlashInfo.StartsAt.le_endsAt h hi hj (BitVec.le_def.mp hrange)
  have hnext : (if (j : ℤ) = info.sEnd then info.bEnd + 1 else info.start (j + 1)) =
      addrLast + 1 := by
    have htop := hj.2
    rw [FlashInfo.sectorTop] at htop
    rw [sEnd_eq h hcount]
    have hone : (1 : BitVec 32).toNat = 1 := rfl
    split_ifs with hlast
    · rw [if_pos (by omega)] at htop
      apply BitVec.eq_of_toNat_eq
      rw [toNat_bEnd_add_one h, BitVec.toNat_add, hone, htop]
    · have hstep := (info.start (j + 1)).isLt
      rw [if_neg (by omega)] at htop
      apply BitVec.eq_of_toNat_eq
      rw [BitVec.toNat_add, hone, htop, Nat.mod_eq_of_lt (by omega)]
  have hpos : (0 : ℤ) ≤ i := Int.natCast_nonneg i
  have hnneg : ¬(j : ℤ) < 0 := Int.not_lt.mpr (Int.natCast_nonneg j)
  rw [fillLoop, if_neg (BitVec.not_lt.mpr hrange), if_neg hknown]
  dsimp only
  rw [hfst, hsnd, if_pos hpos, if_neg fun hbad => hnneg hbad.1, if_neg hnneg,
    if_neg (by omega), Int.toNat_natCast, hnext]

theorem fillLoop_of_part {i : ℕ} (hi : info.StartsAt addrFirst.toNat i)
    (htop : info.top ≤ addrLast.toNat) :
    fillLoop addrLast (info :: banks) addrFirst =
      (fillLoop addrLast banks (info.bEnd + 1)).cons (i, info.sectorCount - 1)
        (info.sectorCount - 1 - i + 1) := by
  have hfst := (scanSectors_fst h hcount hrange).1 i hi
  have hsnd := (scanSectors_snd h hcount hrange).2 fun j hj => by
    have hle := h.sectorTop_le hj.1
    have := hj.2
    omega
  have hbehind : info.bEnd < addrLast := by
    have hlt := h.start_lt_top
    rw [BitVec.lt_def, toNat_bEnd h]
    omega
  have hneg : (-1 : ℤ) < 0 := by decide
  have hlt := hi.1
  rw [fillLoop, if_neg (BitVec.not_lt.mpr hrange), if_neg hknown]
  dsimp only
  rw [hfst, hsnd, if_pos (Int.natCast_nonneg i), if_neg fun hbad => hbad.2 hbehind, if_pos hneg,
    if_pos rfl, sEnd_eq h hcount, if_neg (by omega)]

theorem fillLoop_of_inside {i : ℕ} (hi : info.StartsAt addrFirst.toNat i)
    (hends : ∀ j, ¬info.EndsAt addrLast.toNat j) (htop : addrLast.toNat < info.top) :
    (fillLoop addrLast (info :: banks) addrFirst).rcode = 1 := by
  have hfst := (scanSectors_fst h hcount hrange).1 i hi
  have hsnd := (scanSectors_snd h hcount hrange).2 hends
  have hbehind : ¬info.bEnd < addrLast := by
    rw [BitVec.lt_def, toNat_bEnd h]
    omega
  have hneg : (-1 : ℤ) < 0 := by decide
  rw [fillLoop, if_neg (BitVec.not_lt.mpr hrange), if_neg hknown]
  dsimp only
  rw [hfst, hsnd, if_pos (Int.natCast_nonneg i), if_pos ⟨hneg, hbehind⟩]
  rfl

theorem fillLoop_of_reverse (hstarts : ∀ i, ¬info.StartsAt addrFirst.toNat i) {j : ℕ}
    (hj : info.EndsAt addrLast.toNat j) :
    (fillLoop addrLast (info :: banks) addrFirst).rcode = 1 := by
  have hfst := (scanSectors_fst h hcount hrange).2 hstarts
  have hsnd := (scanSectors_snd h hcount hrange).1 j hj
  have hneg : ¬(0 : ℤ) ≤ -1 := by decide
  rw [fillLoop, if_neg (BitVec.not_lt.mpr hrange), if_neg hknown]
  dsimp only
  rw [hfst, hsnd, if_neg hneg]
  split_ifs with hinside hnonneg
  · rfl
  · rfl
  · exact absurd (Int.natCast_nonneg j) hnonneg

theorem fillLoop_of_passed (hstarts : ∀ i, ¬info.StartsAt addrFirst.toNat i)
    (hends : ∀ j, ¬info.EndsAt addrLast.toNat j) (hholds : ¬info.Holds addrFirst.toNat) :
    fillLoop addrLast (info :: banks) addrFirst =
      (fillLoop addrLast banks addrFirst).cons (-1, -1) 0 := by
  have hfst := (scanSectors_fst h hcount hrange).2 hstarts
  have hsnd := (scanSectors_snd h hcount hrange).2 hends
  have hpair : scanSectors info addrFirst addrLast = (-1, -1) := Prod.ext hfst hsnd
  have hinside : ¬(info.start 0 ≤ addrFirst ∧ addrFirst < info.bEnd) := by
    rintro ⟨hle, hlt⟩
    rw [BitVec.le_def] at hle
    rw [BitVec.lt_def, toNat_bEnd h] at hlt
    exact hholds ⟨hknown, hle, by omega⟩
  have hneg : ¬(0 : ℤ) ≤ -1 := by decide
  rw [fillLoop, if_neg (BitVec.not_lt.mpr hrange), if_neg hknown]
  dsimp only
  rw [hpair, if_neg hneg, if_neg hinside, if_neg hneg]

theorem count_fillLoop_of_not_starts (hstarts : ∀ i, ¬info.StartsAt addrFirst.toNat i) :
    (fillLoop addrLast (info :: banks) addrFirst).count = 0 ∨
      (fillLoop addrLast (info :: banks) addrFirst).count =
        (fillLoop addrLast banks addrFirst).count := by
  have hfst := (scanSectors_fst h hcount hrange).2 hstarts
  have hneg : ¬(0 : ℤ) ≤ -1 := by decide
  rw [fillLoop, if_neg (BitVec.not_lt.mpr hrange), if_neg hknown]
  dsimp only
  rw [hfst, if_neg hneg]
  split_ifs
  · exact Or.inl rfl
  · exact Or.inl rfl
  · exact Or.inr (Int.add_zero _)

end Known

end Flash
end EmevBsp
