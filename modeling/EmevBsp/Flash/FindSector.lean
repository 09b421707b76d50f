import EmevBsp.Flash.FlashWrite

/-!
# `drivers/mtd/cfi_flash.c`: `find_sector`

The search begins at the sector that the call before it found.  It goes up while the sector starts
before the address, and then down while the sector starts behind it.  What was found before is
kept for all banks together.  A sector of one bank may be none of the next: the entries behind the
last sector are zero, so the loop up does not even begin when the index is too large, the loop down
has nothing to do, and the old index is returned.
-/

namespace EmevBsp
namespace Flash

/-! ## The search -/

/-- `info->sector_count - 1`; a `flash_sect_t` is compared with it as an unsigned number. -/
def FlashInfo.lastSector (info : FlashInfo) : ℕ :=
  if info.sectorCount = 0 then 0xffffffff else info.sectorCount - 1

/-- The first loop: the entries that are read, and the sector. -/
def searchUp (info : FlashInfo) (addr : BitVec 32) (sector : ℕ) : List ℕ × ℕ :=
  if info.start sector < addr ∧ sector < info.lastSector then
    let r := searchUp info addr (sector + 1)
    (sector :: r.1, r.2)
  else ([sector], sector)
termination_by info.lastSector - sector
decreasing_by
  next h => exact Nat.sub_succ_lt_self _ _ h.2

/-- The second loop. -/
def searchDown (info : FlashInfo) (addr : BitVec 32) : ℕ → List ℕ × ℕ
  | 0 => ([0], 0)
  | sector + 1 =>
    if addr < info.start (sector + 1) then
      let r := searchDown info addr sector
      ((sector + 1) :: r.1, r.2)
    else ([sector + 1], sector + 1)

/-- `find_sector`, from `saved_sector` on: the entries of `start` that are read, and the sector,
which is saved. -/
def findSector (info : FlashInfo) (addr : BitVec 32) (savedSector : ℕ) : List ℕ × ℕ :=
  let up := searchUp info addr savedSector
  let down := searchDown info addr up.2
  (up.1 ++ down.1, down.2)

/-! ## Banks and calls -/

/-- A call: a bank whose sectors stand in increasing order, and an address in it. -/
structure Call where
  info : FlashInfo
  addr : BitVec 32
  wellFormed : info.WellFormed
  zeros : ∀ i, info.sectorCount ≤ i → info.start i = 0
  inside : info.Holds addr.toNat

/-- The address of the call is in this sector. -/
def Call.At (c : Call) (i : ℕ) : Prop := i < c.info.sectorCount ∧ c.info.InSector i c.addr.toNat

/-- **What a call has to do**: read entries of the bank only, and find the sector. -/
def Call.Right (c : Call) (r : List ℕ × ℕ) : Prop :=
  (∀ i ∈ r.1, i < c.info.sectorCount) ∧ c.At r.2

variable {c : Call}

theorem Call.lastSector_eq (c : Call) : c.info.lastSector = c.info.sectorCount - 1 := by
  have hpos := c.wellFormed.sectors
  rw [FlashInfo.lastSector, if_neg hpos.ne']

theorem Call.start_lt_iff {i : ℕ} (hi : i + 1 < c.info.sectorCount) :
    c.info.sectorTop i = (c.info.start (i + 1)).toNat := by
  rw [FlashInfo.sectorTop, if_neg hi.ne]

theorem Call.le_of_start_le {i j : ℕ} (hj : c.At j) (hi : i < c.info.sectorCount)
    (hstart : (c.info.start i).toNat ≤ c.addr.toNat) : i ≤ j := by
  by_contra hlt
  have hnext : j + 1 < c.info.sectorCount := by omega
  have htop := hj.2.2
  rw [Call.start_lt_iff hnext] at htop
  have hle := c.wellFormed.start_le (i := j + 1) (j := i) (by omega) hi
  omega

theorem Call.At.unique {i j : ℕ} (hi : c.At i) (hj : c.At j) : i = j :=
  Nat.le_antisymm (Call.le_of_start_le hj hi.1 hi.2.1) (Call.le_of_start_le hi hj.1 hj.2.1)

theorem searchUp_spec {i j : ℕ} (hj : c.At j) (hi : i < c.info.sectorCount) :
    (∀ k ∈ (searchUp c.info c.addr i).1, k < c.info.sectorCount) ∧
      (searchUp c.info c.addr i).2 < c.info.sectorCount ∧
      j ≤ (searchUp c.info c.addr i).2 := by
  fun_induction searchUp c.info c.addr i with
  | case1 i h r ih =>
    have hnext : i + 1 < c.info.sectorCount := by
      have hlast := h.2
      rw [c.lastSector_eq] at hlast
      omega
    obtain ⟨hreads, hlt, hle⟩ := ih hnext
    exact ⟨List.forall_mem_cons.mpr ⟨hi, hreads⟩, hlt, hle⟩
  | case2 i h =>
    refine ⟨fun k hk => List.mem_singleton.mp hk ▸ hi, hi, ?_⟩
    rw [c.lastSector_eq] at h
    by_contra hlt
    have hstart : (c.info.start i).toNat < (c.info.start j).toNat := by
      have hstep := c.wellFormed.increasing i (by have := hj.1; omega)
      have hle := c.wellFormed.start_le (i := i + 1) (j := j) (by omega) hj.1
      omega
    refine h ⟨BitVec.lt_def.mpr (hstart.trans_le hj.2.1), ?_⟩
    have := hj.1
    omega

theorem searchDown_spec {i j : ℕ} (hj : c.At j) (hi : i < c.info.sectorCount) (hle : j ≤ i) :
    (∀ k ∈ (searchDown c.info c.addr i).1, k < c.info.sectorCount) ∧
      (searchDown c.info c.addr i).2 = j := by
  induction i with
  | zero =>
    refine ⟨fun k hk => List.mem_singleton.mp hk ▸ hi, (Nat.le_zero.mp hle).symm⟩
  | succ i ih =>
    rw [searchDown]
    split_ifs with h
    · have hlt : j ≠ i + 1 := by
        rintro rfl
        exact absurd (BitVec.lt_def.mp h) (Nat.not_lt.mpr hj.2.1)
      obtain ⟨hreads, hdown⟩ := ih (Nat.lt_of_succ_lt hi) (by omega)
      exact ⟨List.forall_mem_cons.mpr ⟨hi, hreads⟩, hdown⟩
    · refine ⟨fun k hk => List.mem_singleton.mp hk ▸ hi, ?_⟩
      have hstart : (c.info.start (i + 1)).toNat ≤ c.addr.toNat :=
        Nat.le_of_not_lt fun hlt => h (BitVec.lt_def.mpr hlt)
      exact Nat.le_antisymm (Call.le_of_start_le hj hi hstart) hle

theorem Call.exists_at (c : Call) : ∃ j, c.At j := by
  have hfind : ∀ i < c.info.sectorCount, (c.info.start i).toNat ≤ c.addr.toNat →
      ∃ j, c.At j := by
    intro i hi
    induction hn : c.info.sectorCount - i using Nat.strong_induction_on generalizing i with
    | h n ih =>
      intro hstart
      by_cases hnext : i + 1 < c.info.sectorCount ∧
          (c.info.start (i + 1)).toNat ≤ c.addr.toNat
      · exact ih _ (by omega) (i + 1) hnext.1 rfl hnext.2
      · refine ⟨i, hi, hstart, ?_⟩
        rw [FlashInfo.sectorTop]
        split_ifs with hlast
        · exact c.inside.2.2
        · have := not_and.mp hnext (by omega)
          omega
  exact hfind 0 c.wellFormed.sectors c.inside.2.1

theorem findSector_right {savedSector : ℕ} (hsaved : savedSector < c.info.sectorCount) :
    c.Right (findSector c.info c.addr savedSector) := by
  obtain ⟨j, hj⟩ := c.exists_at
  obtain ⟨hup, hlt, hle⟩ := searchUp_spec hj hsaved
  obtain ⟨hdown, hfound⟩ := searchDown_spec hj hlt hle
  refine ⟨fun i hi => ?_, ?_⟩
  · rcases List.mem_append.mp hi with hi | hi
    · exact hup i hi
    · exact hdown i hi
  · rw [findSector]
    dsimp only
    rw [hfound]
    exact hj

theorem findSector_past {savedSector : ℕ} (hsaved : c.info.sectorCount ≤ savedSector) :
    ¬ c.Right (findSector c.info c.addr savedSector) := by
  have hup : savedSector ∈ (findSector c.info c.addr savedSector).1 := by
    rw [findSector, searchUp]
    split_ifs
    · exact List.mem_append_left _ List.mem_cons_self
    · exact List.mem_append_left _ List.mem_cons_self
  exact fun h => absurd (h.1 savedSector hup) (Nat.not_lt.mpr hsaved)

/-! ## Runs -/

/-- The calls one after the other, each from the sector that the one before it saved. -/
def findSectors : ℕ → List Call → List (Call × (List ℕ × ℕ))
  | _, [] => []
  | savedSector, c :: calls =>
    let r := findSector c.info c.addr savedSector
    (c, r) :: findSectors r.2 calls

/-- The sector of a call is an index of the next bank. -/
def Fits (c c' : Call) : Prop := ∀ i, c.At i → i < c'.info.sectorCount

theorem findSectors_right_iff_of_lt {savedSector : ℕ} (calls : List Call)
    (hsaved : ∀ c ∈ calls.head?, savedSector < c.info.sectorCount) :
    (∀ r ∈ findSectors savedSector calls, r.1.Right r.2) ↔ calls.IsChain Fits := by
  induction calls generalizing savedSector with
  | nil => exact iff_of_true (fun r hr => absurd hr List.not_mem_nil) List.IsChain.nil
  | cons c calls ih =>
    have hright := findSector_right (hsaved c rfl)
    rw [findSectors, List.forall_mem_cons, and_iff_right hright]
    cases calls with
    | nil =>
      exact iff_of_true (fun r hr => absurd hr List.not_mem_nil) (List.IsChain.singleton c)
    | cons c' calls =>
      have hfits : Fits c c' ↔ (findSector c.info c.addr savedSector).2 < c'.info.sectorCount :=
        ⟨fun h => h _ hright.2, fun h i hi => hi.unique hright.2 ▸ h⟩
      rw [List.isChain_cons_cons, hfits]
      by_cases hlt : (findSector c.info c.addr savedSector).2 < c'.info.sectorCount
      · rw [and_iff_right hlt]
        exact ih fun c'' hc'' => Option.some.inj hc'' ▸ hlt
      · refine iff_of_false (fun hall => ?_) fun h => hlt h.1
        rw [findSectors, List.forall_mem_cons] at hall
        exact findSector_past (Nat.le_of_not_lt hlt) hall.1

/-- **All calls of a run are right**, exactly when the sector of each is an index of the bank of
the next.  At first the saved sector is 0. -/
theorem findSectors_right_iff (calls : List Call) :
    (∀ r ∈ findSectors 0 calls, r.1.Right r.2) ↔ calls.IsChain Fits :=
  findSectors_right_iff_of_lt calls fun c _ => c.wellFormed.sectors

/-! ## A smaller bank after a larger one -/

/-- A bank of sectors of 64 KiB. -/
def evenBank (base count : ℕ) : FlashInfo where
  size := BitVec.ofNat 32 (0x10000 * count)
  sectorCount := count
  flashId := 1
  start i := if i < count then BitVec.ofNat 32 (base + 0x10000 * i) else 0
  protect _ := 0

theorem toNat_start_evenBank {base count i : ℕ} (hfits : base + 0x10000 * count < 2 ^ 32)
    (hi : i < count) : ((evenBank base count).start i).toNat = base + 0x10000 * i := by
  have hlt : base + 0x10000 * i < 2 ^ 32 := by omega
  show (if i < count then BitVec.ofNat 32 (base + 0x10000 * i) else 0).toNat = _
  rw [if_pos hi, BitVec.toNat_ofNat, Nat.mod_eq_of_lt hlt]

theorem top_evenBank {base count : ℕ} (hfits : base + 0x10000 * count < 2 ^ 32)
    (hpos : 0 < count) : (evenBank base count).top = base + 0x10000 * count := by
  have hsize : (evenBank base count).size.toNat = 0x10000 * count := by
    rw [evenBank, BitVec.toNat_ofNat, Nat.mod_eq_of_lt (by omega)]
  rw [FlashInfo.top, toNat_start_evenBank hfits hpos, hsize, Nat.mul_zero, Nat.add_zero]

theorem wellFormed_evenBank {base count : ℕ} (hfits : base + 0x10000 * count < 2 ^ 32)
    (hpos : 0 < count) : (evenBank base count).WellFormed where
  sectors := hpos
  top_le := by
    rw [top_evenBank hfits hpos]
    exact hfits.le
  increasing i hi := by
    rw [toNat_start_evenBank hfits (Nat.lt_of_succ_lt hi), toNat_start_evenBank hfits hi]
    omega
  last := by
    have hlast : (evenBank base count).sectorCount - 1 < count := Nat.sub_one_lt_of_lt hpos
    rw [toNat_start_evenBank hfits hlast, top_evenBank hfits hpos]
    show base + 0x10000 * (count - 1) < _
    omega

/-- A call for the byte at `off` in such a bank. -/
def evenCall (base count off : ℕ) (hfits : base + 0x10000 * count < 2 ^ 32)
    (hoff : off < 0x10000 * count) : Call where
  info := evenBank base count
  addr := BitVec.ofNat 32 (base + off)
  wellFormed := wellFormed_evenBank hfits (by omega)
  zeros i hi := if_neg (Nat.not_lt.mpr hi)
  inside := by
    have haddr : (BitVec.ofNat 32 (base + off)).toNat = base + off := by
      rw [BitVec.toNat_ofNat, Nat.mod_eq_of_lt (by omega)]
    refine ⟨show (1 : BitVec 32) ≠ 0xffff by decide, ?_, ?_⟩
    · rw [haddr, toNat_start_evenBank hfits (by omega)]
      omega
    · rw [haddr, top_evenBank hfits (by omega)]
      omega

/-- The last sector of a bank of four. -/
def inFour : Call := evenCall 0x100000 4 0x38000 (by decide) (by decide)

/-- The last sector of a bank of two. -/
def inTwo : Call := evenCall 0x200000 2 0x18000 (by decide) (by decide)

/-- **A sector of another bank** is returned for the second call: its index is 3. -/
theorem not_findSectors_right : ¬ ∀ calls, ∀ r ∈ findSectors 0 calls, r.1.Right r.2 := by
  intro hall
  have hchain := (findSectors_right_iff_of_lt [inFour, inTwo] fun c _ => c.wellFormed.sectors).mp
    (hall [inFour, inTwo])
  have hat : inFour.At 3 := by
    refine ⟨by decide, by decide, ?_⟩
    show _ < inFour.info.sectorTop 3
    rw [show inFour.info.sectorTop 3 = inFour.info.top from if_pos rfl]
    decide
  exact absurd ((List.isChain_cons_cons.mp hchain).1 3 hat) (by decide)

end Flash
end EmevBsp
