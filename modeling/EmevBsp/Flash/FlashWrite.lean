import EmevBsp.Flash.Flash
import Mathlib.Tactic.Linarith

/-!
# `common/flash.c`: which bytes `flash_write` writes

The calls of `write_buff` are logged.  A layout is a list of banks that do not overlap, with
increasing sectors; a bank may end at the top of the address space, and the banks stand in the
list in any order, with gaps or without.  Addresses of bytes are natural numbers here, so a range
that runs over the top of the address space contains bytes that do not exist.

The loop of `flash_write` goes by the order of the banks in the list.  It is right when these lie
end to end from the bank of the first byte to the bank of the last one.  The end of a sector is
computed without the `- 1` that `addr2info` is careful about, so the last sector of a bank at the
top of the address space ends at 0, and its protection is not seen.
-/

namespace EmevBsp
namespace Flash

/-! ## Banks and sectors -/

/-- The bank is there. -/
def FlashInfo.Known (info : FlashInfo) : Prop := info.flashId ≠ flashUnknown

/-- The address behind the bank. -/
def FlashInfo.top (info : FlashInfo) : ℕ := (info.start 0).toNat + info.size.toNat

/-- The byte at `x` lies in the bank. -/
def FlashInfo.Holds (info : FlashInfo) (x : ℕ) : Prop :=
  info.Known ∧ (info.start 0).toNat ≤ x ∧ x < info.top

/-- The address behind sector `i`. -/
def FlashInfo.sectorTop (info : FlashInfo) (i : ℕ) : ℕ :=
  if i + 1 = info.sectorCount then info.top else (info.start (i + 1)).toNat

/-- The byte at `x` lies in sector `i`. -/
def FlashInfo.InSector (info : FlashInfo) (i x : ℕ) : Prop :=
  (info.start i).toNat ≤ x ∧ x < info.sectorTop i

/-- The sectors of a bank stand in increasing order, up to the end of the bank. -/
structure FlashInfo.WellFormed (info : FlashInfo) : Prop where
  sectors : 0 < info.sectorCount
  top_le : info.top ≤ 2 ^ 32
  increasing : ∀ i, i + 1 < info.sectorCount → (info.start i).toNat < (info.start (i + 1)).toNat
  last : (info.start (info.sectorCount - 1)).toNat < info.top

/-- **A layout of the banks**, in any order.  An entry of a bank that is not there may hold
anything. -/
structure FlashLayout where
  banks : List FlashInfo
  wellFormed : ∀ info ∈ banks, info.Known → info.WellFormed
  disjoint : banks.Pairwise fun b c => ∀ x, b.Holds x → ¬c.Holds x

variable {info : FlashInfo}

theorem FlashInfo.WellFormed.start_le (h : info.WellFormed) {i j : ℕ} (hij : i ≤ j)
    (hj : j < info.sectorCount) : (info.start i).toNat ≤ (info.start j).toNat := by
  induction j, hij using Nat.le_induction with
  | base => exact Nat.le_refl _
  | succ j hij ih =>
    have hstep := h.increasing j hj
    have hle := ih (Nat.lt_of_succ_lt hj)
    exact Nat.le_trans hle hstep.le

theorem FlashInfo.WellFormed.start_lt_top (h : info.WellFormed) :
    (info.start 0).toNat < info.top :=
  Nat.lt_of_le_of_lt (h.start_le (Nat.zero_le _) (Nat.sub_one_lt_of_lt h.sectors)) h.last

theorem FlashInfo.WellFormed.sectorTop_le (h : info.WellFormed) {i : ℕ}
    (hi : i < info.sectorCount) : info.sectorTop i ≤ info.top := by
  rw [FlashInfo.sectorTop]
  split
  · exact Nat.le_refl _
  · next hlast =>
    have hle := h.start_le (i := i + 1) (j := info.sectorCount - 1) (by omega) (by omega)
    exact Nat.le_trans hle h.last.le

theorem FlashInfo.WellFormed.holds_of_inSector (h : info.WellFormed) (hknown : info.Known) {i x : ℕ}
    (hi : i < info.sectorCount) (hx : info.InSector i x) : info.Holds x :=
  ⟨hknown, Nat.le_trans (h.start_le (Nat.zero_le i) hi) hx.1,
    Nat.lt_of_lt_of_le hx.2 (h.sectorTop_le hi)⟩

theorem toNat_start_add_size (h : info.WellFormed) :
    (info.start 0 + info.size).toNat = if info.top = 2 ^ 32 then 0 else info.top := by
  have hle : (info.start 0).toNat + info.size.toNat ≤ 2 ^ 32 := h.top_le
  rw [BitVec.toNat_add, FlashInfo.top]
  split <;> omega

/-- **The test of `addr2info`** finds the bytes of the bank, also at the top. -/
theorem contains_iff (h : info.Known → info.WellFormed) (a : BitVec 32) :
    info.contains a = true ↔ info.Holds a.toNat := by
  rw [FlashInfo.contains, decide_eq_true_iff]
  refine ⟨fun ⟨hknown, hstart, htop⟩ => ?_, fun ⟨hknown, hstart, htop⟩ => ⟨hknown, hstart, ?_⟩⟩
  · have hpos := (h hknown).start_lt_top
    have hle := (h hknown).top_le
    rw [BitVec.le_def, BitVec.toNat_sub, toNat_start_add_size (h hknown)] at htop
    have hone : (1 : BitVec 32).toNat = 1 := rfl
    refine ⟨hknown, hstart, ?_⟩
    split at htop <;> omega
  · have hpos := (h hknown).start_lt_top
    have hle := (h hknown).top_le
    have hone : (1 : BitVec 32).toNat = 1 := rfl
    rw [BitVec.le_def, BitVec.toNat_sub, toNat_start_add_size (h hknown)]
    split <;> omega

theorem hitsProtected_eq_false {addr last : BitVec 32}
    (h : info.hitsProtected addr last = false) {i : ℕ} (hi : i < info.sectorCount)
    (hprotect : info.protect i ≠ 0) (hstart : info.start i ≤ last) :
    (if i + 1 = info.sectorCount then info.start 0 + info.size else info.start (i + 1)) ≤ addr := by
  rw [FlashInfo.hitsProtected, List.any_eq_false] at h
  have hsector := h i (List.mem_range.mpr hi)
  rw [decide_eq_true_iff] at hsector
  exact BitVec.not_lt.mp fun hlt => hsector ⟨hstart, hlt, hprotect⟩

/-! ## The calls of `write_buff` -/

/-- One call of `write_buff`, with what it returned. -/
structure WriteCall where
  info : FlashInfo
  addr : BitVec 32
  len : BitVec 32
  status : ℕ

/-- The byte at `x` is one of the `cnt` bytes from `addr` on. -/
def InRange (addr cnt : BitVec 32) (x : ℕ) : Prop :=
  addr.toNat ≤ x ∧ x < addr.toNat + cnt.toNat

instance (addr cnt : BitVec 32) (x : ℕ) : Decidable (InRange addr cnt x) :=
  inferInstanceAs (Decidable (_ ∧ _))

/-- The byte at `x` is one of those that the call writes. -/
abbrev WriteCall.Covers (c : WriteCall) (x : ℕ) : Prop := InRange c.addr c.len x

/-- The number of calls that write the byte at `x`. -/
def timesWritten (calls : List WriteCall) (x : ℕ) : ℕ := calls.countP fun c => c.Covers x

section Logged

variable {σ : Type} (writeBuff : FlashInfo → (ℕ → UInt8) → BitVec 32 → BitVec 32 → σ → σ × ℕ)

/-- `write_buff`, with a log of its calls. -/
def logged (info : FlashInfo) (src : ℕ → UInt8) (addr len : BitVec 32) (s : σ × List WriteCall) :
    (σ × List WriteCall) × ℕ :=
  let r := writeBuff info src addr len s.1
  ((r.1, s.2 ++ [⟨info, addr, len, r.2⟩]), r.2)

/-- The room that the loop finds in a bank. -/
def FlashInfo.room (info : FlashInfo) (addr : BitVec 32) : BitVec 32 :=
  info.start 0 + info.size - addr

/-- What a bank takes. -/
def FlashInfo.take (info : FlashInfo) (addr cnt : BitVec 32) : BitVec 32 :=
  if cnt < info.room addr then cnt else info.room addr

/-- The calls of the second loop, as long as `write_buff` succeeds. -/
def bankCalls : List FlashInfo → BitVec 32 → BitVec 32 → List WriteCall
  | [], _, _ => []
  | info :: banks, addr, cnt =>
    if cnt = 0 then []
    else
      ⟨info, addr, info.take addr cnt, errOk⟩ ::
        bankCalls banks (addr + info.take addr cnt) (cnt - info.take addr cnt)

theorem flashWriteBanks_cons {cnt : BitVec 32} (hcnt : cnt ≠ 0) (info : FlashInfo)
    (banks : List FlashInfo) (src : ℕ → UInt8) (addr : BitVec 32) (s : σ) :
    flashWriteBanks writeBuff (info :: banks) src addr cnt s =
      if (writeBuff info src addr (info.take addr cnt) s).2 ≠ errOk then
        writeBuff info src addr (info.take addr cnt) s
      else
        flashWriteBanks writeBuff banks (fun k => src ((info.take addr cnt).toNat + k))
          (addr + info.take addr cnt) (cnt - info.take addr cnt)
          (writeBuff info src addr (info.take addr cnt) s).1 := by
  rw [flashWriteBanks, if_neg hcnt]
  rfl

theorem flashWriteBanks_log {banks : List FlashInfo} {src : ℕ → UInt8} {addr cnt : BitVec 32}
    {s : σ × List WriteCall}
    (h : (flashWriteBanks (logged writeBuff) banks src addr cnt s).2 = errOk) :
    (flashWriteBanks (logged writeBuff) banks src addr cnt s).1.2 =
      s.2 ++ bankCalls banks addr cnt := by
  induction banks generalizing src addr cnt s with
  | nil => exact (List.append_nil _).symm
  | cons info banks ih =>
    rw [bankCalls]
    by_cases hcnt : cnt = 0
    · rw [flashWriteBanks, if_pos hcnt, if_pos hcnt]
      exact (List.append_nil _).symm
    rw [flashWriteBanks_cons _ hcnt] at h ⊢
    rw [if_neg hcnt]
    by_cases hstatus : (logged writeBuff info src addr (info.take addr cnt) s).2 ≠ errOk
    · rw [if_pos hstatus] at h
      exact absurd h hstatus
    · rw [if_neg hstatus] at h ⊢
      have hok : (writeBuff info src addr (info.take addr cnt) s.1).2 = errOk := not_not.mp hstatus
      have hlog : (logged writeBuff info src addr (info.take addr cnt) s).1.2 =
          s.2 ++ [⟨info, addr, info.take addr cnt, errOk⟩] := by
        rw [← hok]
        rfl
      rw [ih h, hlog, List.append_assoc, List.singleton_append]

theorem flashWriteBanks_error {banks : List FlashInfo} {src : ℕ → UInt8} {addr cnt : BitVec 32}
    {s : σ × List WriteCall}
    (h : (flashWriteBanks (logged writeBuff) banks src addr cnt s).2 ≠ errOk) :
    ∃ c ∈ (flashWriteBanks (logged writeBuff) banks src addr cnt s).1.2,
      c.status = (flashWriteBanks (logged writeBuff) banks src addr cnt s).2 := by
  induction banks generalizing src addr cnt s with
  | nil => exact absurd rfl h
  | cons info banks ih =>
    by_cases hcnt : cnt = 0
    · rw [flashWriteBanks, if_pos hcnt] at h
      exact absurd rfl h
    rw [flashWriteBanks_cons _ hcnt] at h ⊢
    by_cases hstatus : (logged writeBuff info src addr (info.take addr cnt) s).2 ≠ errOk
    · rw [if_pos hstatus]
      exact ⟨_, List.mem_append_right _ (List.mem_singleton_self _), rfl⟩
    · rw [if_neg hstatus] at h ⊢
      exact ih h

theorem flashWriteBanks_ok
    (hok : ∀ info src addr len s, (writeBuff info src addr len s).2 = errOk)
    (banks : List FlashInfo) (src : ℕ → UInt8) (addr cnt : BitVec 32) (s : σ) :
    (flashWriteBanks writeBuff banks src addr cnt s).2 = errOk := by
  induction banks generalizing src addr cnt s with
  | nil => rfl
  | cons info banks ih =>
    by_cases hcnt : cnt = 0
    · rw [flashWriteBanks, if_pos hcnt]
    · rw [flashWriteBanks_cons _ hcnt, if_neg (not_not.mpr (hok ..))]
      exact ih _ _ _ _

end Logged

/-! ## Banks that lie end to end -/

/-- The next bank begins where this one ends; one that is not there ends there, and so takes
nothing. -/
def FlashInfo.Follows (info next : FlashInfo) : Prop :=
  (next.Known → next.start 0 = info.start 0 + info.size) ∧
    (¬next.Known → next.start 0 + next.size = info.start 0 + info.size)

/-- The loop comes to the bank at the right address. -/
def FlashInfo.Accepts (info : FlashInfo) (addr : BitVec 32) : Prop :=
  (info.Known → info.Holds addr.toNat) ∧ (¬info.Known → info.start 0 + info.size = addr)

variable {addr cnt : BitVec 32}

theorem FlashInfo.Follows.accepts {next : FlashInfo} (h : info.Follows next)
    (hnext : next.Known → next.WellFormed) : next.Accepts (info.start 0 + info.size) := by
  refine ⟨fun hknown => ?_, h.2⟩
  rw [← h.1 hknown]
  exact ⟨hknown, Nat.le_refl _, (hnext hknown).start_lt_top⟩

theorem toNat_room (h : info.WellFormed) (haddr : info.Holds addr.toNat) :
    (info.room addr).toNat = info.top - addr.toNat := by
  have htopEq : info.top = (info.start 0).toNat + info.size.toNat := rfl
  have hle := h.top_le
  have hlt : addr.toNat < 2 ^ 32 := addr.isLt
  have hsize : info.size.toNat < 2 ^ 32 := info.size.isLt
  obtain ⟨-, hstart, htop⟩ := haddr
  rw [FlashInfo.room, BitVec.toNat_sub, BitVec.toNat_add]
  omega

theorem take_of_le (h : cnt.toNat ≤ (info.room addr).toNat) : info.take addr cnt = cnt := by
  rw [FlashInfo.take]
  split
  · rfl
  · next hlt => exact BitVec.eq_of_toNat_eq (Nat.le_antisymm (Nat.not_lt.mp hlt) h)

theorem take_of_lt (h : (info.room addr).toNat < cnt.toNat) :
    info.take addr cnt = info.room addr :=
  if_neg (Nat.lt_asymm h)

theorem add_room (info : FlashInfo) (addr : BitVec 32) :
    addr + info.room addr = info.start 0 + info.size := by
  rw [FlashInfo.room, BitVec.add_comm, BitVec.sub_add_cancel]

theorem room_of_missing (h : info.Accepts addr) (hmissing : ¬info.Known) :
    info.room addr = 0#32 := by
  rw [FlashInfo.room, h.2 hmissing, BitVec.sub_self]

theorem bankCalls_zero (banks : List FlashInfo) : bankCalls banks addr 0#32 = [] := by
  cases banks with
  | nil => rfl
  | cons info banks => exact if_pos rfl

theorem bankCalls_cons (hcnt : cnt ≠ 0) (banks : List FlashInfo) :
    bankCalls (info :: banks) addr cnt =
      ⟨info, addr, info.take addr cnt, errOk⟩ ::
        bankCalls banks (addr + info.take addr cnt) (cnt - info.take addr cnt) :=
  if_neg hcnt

/-- Each byte of the range is written once, in the bank that the call is for. -/
structure WritesOnce (calls : List WriteCall) (addr cnt : BitVec 32) : Prop where
  once : ∀ x, timesWritten calls x = if InRange addr cnt x then 1 else 0
  inside : ∀ c ∈ calls, ∀ x, c.Covers x → c.info.Holds x

theorem WritesOnce.cons {calls : List WriteCall} {len : BitVec 32} {status : ℕ}
    (hlen : len.toNat ≤ cnt.toNat) (hwrap : addr.toNat + cnt.toNat ≤ 2 ^ 32)
    (hinside : ∀ x, InRange addr len x → info.Holds x)
    (h : WritesOnce calls (addr + len) (cnt - len)) :
    WritesOnce (⟨info, addr, len, status⟩ :: calls) addr cnt := by
  have hrest : (cnt - len).toNat = cnt.toNat - len.toNat := BitVec.toNat_sub_of_le hlen
  refine ⟨fun x => ?_, fun c hc => ?_⟩
  · have honce := h.once x
    have hsplit : InRange addr cnt x ↔ InRange addr len x ∨ InRange (addr + len) (cnt - len) x := by
      simp only [InRange, hrest, BitVec.toNat_add]
      omega
    have hdisjoint : InRange addr len x → ¬InRange (addr + len) (cnt - len) x := by
      simp only [InRange, hrest, BitVec.toNat_add]
      omega
    rw [timesWritten] at honce ⊢
    rw [List.countP_cons, honce]
    by_cases hfirst : InRange addr len x
    · rw [if_neg (hdisjoint hfirst), if_pos (decide_eq_true hfirst), if_pos (hsplit.mpr (.inl hfirst))]
    · have hnot : ¬decide (InRange addr len x) = true := fun h => hfirst (of_decide_eq_true h)
      rw [if_neg hnot, Nat.add_zero]
      exact if_congr (hsplit.trans (or_iff_right hfirst)).symm rfl rfl
  · rcases List.mem_cons.mp hc with rfl | hc
    · exact hinside
    · exact h.inside c hc

theorem writesOnce_nil (addr : BitVec 32) : WritesOnce [] addr 0#32 := by
  refine ⟨fun x => ?_, fun c hc => absurd hc List.not_mem_nil⟩
  have hzero : ¬InRange addr 0#32 x := fun h => absurd h.2 (Nat.not_lt.mpr h.1)
  rw [if_neg hzero]
  rfl

theorem bankCalls_once {banks : List FlashInfo}
    (hwf : ∀ info ∈ banks, info.Known → info.WellFormed)
    (hchain : banks.IsChain FlashInfo.Follows) (hcnt : cnt ≠ 0)
    (hwrap : addr.toNat + cnt.toNat ≤ 2 ^ 32) (hhead : ∀ info ∈ banks.head?, info.Accepts addr)
    (hlast : ∃ info ∈ banks.getLast?, info.Holds (addr.toNat + cnt.toNat - 1)) :
    WritesOnce (bankCalls banks addr cnt) addr cnt := by
  induction banks generalizing addr cnt with
  | nil =>
    obtain ⟨info, hinfo, -⟩ := hlast
    exact absurd hinfo (Option.not_mem_none info)
  | cons info banks ih =>
    have hpos : 0 < cnt.toNat := Nat.pos_of_ne_zero fun h => hcnt (BitVec.eq_of_toNat_eq h)
    have hhere : info.Accepts addr := hhead info rfl
    rw [bankCalls_cons hcnt]
    by_cases hfits : info.Known ∧ cnt.toNat ≤ (info.room addr).toNat
    · -- the bank has room for all of it
      obtain ⟨hknown, hle⟩ := hfits
      have hroom := toNat_room (hwf info List.mem_cons_self hknown) (hhere.1 hknown)
      have hholds := hhere.1 hknown
      rw [take_of_le hle, BitVec.sub_self]
      have hnone : bankCalls banks (addr + cnt) 0#32 = [] := bankCalls_zero banks
      rw [hnone]
      refine WritesOnce.cons (Nat.le_refl _) hwrap (fun x hx => ⟨hknown, ?_, ?_⟩) ?_
      · exact Nat.le_trans hholds.2.1 hx.1
      · have hx2 := hx.2
        omega
      · rw [BitVec.sub_self]
        exact writesOnce_nil _
    -- the bank is filled up to its end
    have hlt : (info.room addr).toNat < cnt.toNat := by
      by_cases hknown : info.Known
      · exact Nat.not_le.mp fun hle => hfits ⟨hknown, hle⟩
      · rw [room_of_missing hhere hknown]
        exact hpos
    have hcover : ∀ x, InRange addr (info.room addr) x → info.Holds x := by
      intro x hx
      by_cases hknown : info.Known
      · have hroom := toNat_room (hwf info List.mem_cons_self hknown) (hhere.1 hknown)
        obtain ⟨-, hstart, htop⟩ := hhere.1 hknown
        have hx2 := hx.2
        exact ⟨hknown, Nat.le_trans hstart hx.1, by omega⟩
      · rw [room_of_missing hhere hknown] at hx
        exact absurd hx.2 (Nat.not_lt.mpr hx.1)
    rw [take_of_lt hlt]
    refine WritesOnce.cons hlt.le hwrap hcover ?_
    have hrest : (cnt - info.room addr).toNat = cnt.toNat - (info.room addr).toNat :=
      BitVec.toNat_sub_of_le hlt.le
    have hnextAddr : (addr + info.room addr).toNat = addr.toNat + (info.room addr).toNat := by
      rw [BitVec.toNat_add]
      omega
    cases banks with
    | nil =>
      -- the last byte is not in the last bank
      obtain ⟨last, hmem, hholds⟩ := hlast
      obtain rfl : info = last := Option.some.inj hmem
      have hroom := toNat_room (hwf info List.mem_cons_self hholds.1) (hhere.1 hholds.1)
      have htop := hholds.2.2
      omega
    | cons next banks =>
      have hfollows : info.Follows next := (List.isChain_cons_cons.mp hchain).1
      refine ih (fun b hb => hwf b (List.mem_cons_of_mem info hb))
        (List.isChain_cons_cons.mp hchain).2 ?_ ?_ ?_ ?_
      · intro hzero
        have hz : (cnt - info.room addr).toNat = 0 := congrArg BitVec.toNat hzero
        omega
      · omega
      · intro b hb
        obtain rfl : next = b := Option.some.inj hb
        rw [add_room]
        exact hfollows.accepts (hwf next (List.mem_cons_of_mem _ List.mem_cons_self))
      · obtain ⟨last, hmem, hholds⟩ := hlast
        refine ⟨last, hmem, ?_⟩
        have hsame : (addr + info.room addr).toNat + (cnt - info.room addr).toNat - 1 =
            addr.toNat + cnt.toNat - 1 := by omega
        rwa [hsame]

theorem holds_of_inside {banks : List FlashInfo} (hcnt : cnt ≠ 0) (hroom : info.room addr ≠ 0)
    (hinside : ∀ c ∈ bankCalls (info :: banks) addr cnt, ∀ x, c.Covers x → c.info.Holds x) :
    info.Holds addr.toNat := by
  rw [bankCalls_cons hcnt] at hinside
  refine hinside _ List.mem_cons_self addr.toNat ⟨Nat.le_refl _, ?_⟩
  have hpos : 0 < cnt.toNat := Nat.pos_of_ne_zero fun h => hcnt (BitVec.eq_of_toNat_eq h)
  have hpos' : 0 < (info.room addr).toNat :=
    Nat.pos_of_ne_zero fun h => hroom (BitVec.eq_of_toNat_eq h)
  show addr.toNat < addr.toNat + (info.take addr cnt).toNat
  rw [FlashInfo.take]
  split <;> omega

theorem start_eq_of_inside {banks : List FlashInfo} (h : info.WellFormed) (hknown : info.Known)
    (hcnt : cnt ≠ 0) (hpos : 0 < addr.toNat) (hbefore : ¬info.Holds (addr.toNat - 1))
    (hinside : ∀ c ∈ bankCalls (info :: banks) addr cnt, ∀ x, c.Covers x → c.info.Holds x) :
    info.start 0 = addr := by
  have hlt := h.start_lt_top
  have hle := h.top_le
  have haddr : addr.toNat < 2 ^ 32 := addr.isLt
  by_cases hroom : info.room addr = 0
  · -- it ends at `addr`, so it holds the byte before
    have hend : info.start 0 + info.size = addr := by
      rw [← add_room info addr, hroom]
      exact BitVec.add_zero addr
    have htop := toNat_start_add_size h
    rw [hend] at htop
    exact absurd ⟨hknown, by split at htop <;> omega, by split at htop <;> omega⟩ hbefore
  · obtain ⟨-, hstart, htop⟩ := holds_of_inside hcnt hroom hinside
    refine BitVec.eq_of_toNat_eq (Nat.le_antisymm hstart (Nat.not_lt.mp fun hbelow => hbefore ?_))
    exact ⟨hknown, by omega, by omega⟩

/-- **When the calls stay inside their banks**, these lie end to end.  The induction is on the list;
the byte before the one that the loop has come to is in no bank that is still to come. -/
theorem isChain_of_inside {banks : List FlashInfo}
    (hwf : ∀ info ∈ banks, info.Known → info.WellFormed)
    (hdisjoint : banks.Pairwise fun b c => ∀ x, b.Holds x → ¬c.Holds x) (hcnt : cnt ≠ 0)
    (hwrap : addr.toNat + cnt.toNat ≤ 2 ^ 32) (hhead : ∀ info ∈ banks.head?, info.Accepts addr)
    (hbefore : ∀ info ∈ banks.head?, ¬info.Known →
      0 < addr.toNat ∧ ∀ b ∈ banks, ¬b.Holds (addr.toNat - 1))
    (hfirst : ∀ b ∈ banks.dropLast, ¬b.Holds (addr.toNat + cnt.toNat - 1))
    (hinside : ∀ c ∈ bankCalls banks addr cnt, ∀ x, c.Covers x → c.info.Holds x) :
    banks.IsChain FlashInfo.Follows := by
  induction banks generalizing addr cnt with
  | nil => exact .nil
  | cons info banks ih =>
    cases banks with
    | nil => exact .singleton info
    | cons next banks =>
      have hpos : 0 < cnt.toNat := Nat.pos_of_ne_zero fun h => hcnt (BitVec.eq_of_toNat_eq h)
      have hhere : info.Accepts addr := hhead info rfl
      have hwfNext : next.Known → next.WellFormed :=
        hwf next (List.mem_cons_of_mem _ List.mem_cons_self)
      -- the bank is filled up to its end, as the last byte is not in it
      have hlt : (info.room addr).toNat < cnt.toNat := by
        by_cases hknown : info.Known
        · have hroom := toNat_room (hwf info List.mem_cons_self hknown) (hhere.1 hknown)
          obtain ⟨-, hstart, htop⟩ := hhere.1 hknown
          refine Nat.not_le.mp fun hle => hfirst info List.mem_cons_self ⟨hknown, ?_, ?_⟩ <;> omega
        · rw [room_of_missing hhere hknown]
          exact hpos
      have hrest : (cnt - info.room addr).toNat = cnt.toNat - (info.room addr).toNat :=
        BitVec.toNat_sub_of_le hlt.le
      have hcnt' : cnt - info.room addr ≠ 0 := by
        intro hzero
        have hz : (cnt - info.room addr).toNat = 0 := congrArg BitVec.toNat hzero
        omega
      have hnextAddr : (addr + info.room addr).toNat = addr.toNat + (info.room addr).toNat := by
        rw [BitVec.toNat_add]
        omega
      have hsame : (addr + info.room addr).toNat + (cnt - info.room addr).toNat - 1 =
          addr.toNat + cnt.toNat - 1 := by omega
      -- no bank that is still to come holds the byte before
      have hbefore' : 0 < (addr + info.room addr).toNat ∧
          ∀ b ∈ next :: banks, ¬b.Holds ((addr + info.room addr).toNat - 1) := by
        by_cases hknown : info.Known
        · have hroom := toNat_room (hwf info List.mem_cons_self hknown) (hhere.1 hknown)
          obtain ⟨-, hstart, htop⟩ := hhere.1 hknown
          have hlast : info.Holds ((addr + info.room addr).toNat - 1) := ⟨hknown, by omega, by omega⟩
          exact ⟨by omega, fun b hb => (List.pairwise_cons.mp hdisjoint).1 b hb _ hlast⟩
        · have hsameAddr : addr + info.room addr = addr := by
            rw [room_of_missing hhere hknown]
            exact BitVec.add_zero addr
          obtain ⟨hpos', hnone⟩ := hbefore info rfl hknown
          rw [hsameAddr]
          exact ⟨hpos', fun b hb => hnone b (List.mem_cons_of_mem info hb)⟩
      rw [bankCalls_cons hcnt, take_of_lt hlt] at hinside
      have hinside' : ∀ c ∈ bankCalls (next :: banks) (addr + info.room addr) (cnt - info.room addr),
          ∀ x, c.Covers x → c.info.Holds x := fun c hc => hinside c (List.mem_cons_of_mem _ hc)
      have hfollows : info.Follows next := by
        rw [FlashInfo.Follows, ← add_room info addr]
        refine ⟨fun hknown => ?_, fun hmissing => ?_⟩
        · exact start_eq_of_inside (hwfNext hknown) hknown hcnt' hbefore'.1
            (hbefore'.2 next List.mem_cons_self) hinside'
        · by_contra hne
          have hroom : next.room (addr + info.room addr) ≠ 0 := fun hzero => hne <| by
            rw [← add_room next (addr + info.room addr), hzero]
            exact BitVec.add_zero _
          exact hmissing (holds_of_inside hcnt' hroom hinside').1
      refine List.isChain_cons_cons.mpr ⟨hfollows, ?_⟩
      refine ih (fun b hb => hwf b (List.mem_cons_of_mem info hb)) (List.pairwise_cons.mp hdisjoint).2
        hcnt' (by omega) (fun b hb => ?_) (fun b hb _ => hbefore') (fun b hb => ?_) hinside'
      · obtain rfl : next = b := Option.some.inj hb
        rw [add_room]
        exact hfollows.accepts hwfNext
      · rw [hsame]
        exact hfirst b (List.mem_cons_of_mem info hb)

end Flash
end EmevBsp
