import EmevBsp.Mmc.Sectors
import Mathlib.Order.Interval.Set.Basic

/-!
# Write protection

A request to erase or write a range must not touch a block of a protected sector; it is to be
refused as a whole when its range has one.  A request to protect or unprotect a range is to
set the entries of the sectors that meet it.

The card may end in the middle of a sector.  That sector has an entry, but
`mmc_check_protect` does not look at it, and `mmc_protect_sect` sets it only when the range
lies in it alone.  `mmc_write_sect` does not compare its bounds: a range that ends before it
begins, in the same sector, passes the check and is written with a count that wrapped.  In all
other cases the protection is kept, and each condition here is necessary as well.

* `Geometry.eraseLoop_subset`, `Geometry.eraseLoop_complete`: the erase commands cover the
  range, in chunks.
* `Geometry.eraseSafe_iff`, `Geometry.writeSafe_iff`, `Geometry.protectExact_iff`: the three
  requests.
* `protection_iff`: **every card, every table and every request.**
* `not_protection`: a card that ends in the middle of its second sector.
-/

namespace EmevBsp
namespace Mmc

open EmevBsp.Alignment

/-! ## The erase commands -/

section

variable {d : Device}

theorem multiBlockErase_blocks (send : ℕ → ℤ) (n : ℕ) {a size : Word} {c : ℕ}
    (hc : 0 < c) (hsize : size.toNat = c * 512) (hend : a.toNat + c < 2 ^ 32)
    (hbyte : d.accMode = false → a.toNat + c ≤ 2 ^ 23) :
    ∀ cmd ∈ (mmcMultiBlockErase d send n a size).2,
      cmd.blocks d.accMode = Set.Ico a.toNat (a.toNat + c) := by
  have hne : size ≠ 0 := by
    intro h
    rw [h] at hsize
    simp at hsize
    omega
  have hcmd : ∀ cmd : EraseCmd, cmd = (if d.accMode then
        ⟨a, a + size / mmcBlockLen - 1 + (if size &&& (mmcBlockLen - 1) ≠ 0 then 1 else 0)⟩
      else ⟨a * mmcBlockLen, a * mmcBlockLen + size - 1⟩) →
      cmd.blocks d.accMode = Set.Ico a.toNat (a.toNat + c) := by
    rintro cmd rfl
    cases hacc : d.accMode with
    | true =>
      have hmask : size &&& (mmcBlockLen - 1) = 0 := by
        have := toNat_and_mask (show mmcBlockLen.toNat = 2 ^ 9 from rfl) size
        rw [hsize, show 2 ^ 9 = 512 from rfl, Nat.mul_mod_left] at this
        exact BitVec.eq_of_toNat_eq this
      have hdiv : (size / mmcBlockLen).toNat = c := by
        rw [BitVec.toNat_udiv, hsize, show mmcBlockLen.toNat = 512 from rfl,
          Nat.mul_div_cancel c (by decide)]
      have hstop : (a + size / mmcBlockLen - 1 + 0).toNat = a.toNat + c - 1 := by
        have hadd : (a + size / mmcBlockLen).toNat = a.toNat + c := by
          rw [BitVec.toNat_add_of_lt (by omega), hdiv]
        bv_omega
      ext b
      simp only [EraseCmd.blocks, if_true, hmask, ne_eq, not_true_eq_false, if_false, hstop,
        Set.mem_ofPred_eq, Set.mem_Ico]
      omega
    | false =>
      have hle := hbyte hacc
      have hstart : (a * mmcBlockLen).toNat = a.toNat * 512 := by
        rw [BitVec.toNat_mul, show mmcBlockLen.toNat = 512 from rfl,
          Nat.mod_eq_of_lt (by omega)]
      have hstop : (a * mmcBlockLen + size - 1).toNat = a.toNat * 512 + c * 512 - 1 := by
        bv_omega
      ext b
      simp only [EraseCmd.blocks, Bool.false_eq_true, if_false, hstart, hstop,
        Set.mem_ofPred_eq, Set.mem_Ico]
      omega
  rw [mmcMultiBlockErase, if_neg hne]
  intro cmd hmem
  refine hcmd cmd ?_
  by_cases h0 : send n ≠ 0
  · rw [if_pos h0] at hmem
    exact absurd hmem List.not_mem_nil
  · by_cases h1 : send (n + 1) ≠ 0
    · rw [if_neg h0, if_pos h1] at hmem
      exact absurd hmem List.not_mem_nil
    · rw [if_neg h0, if_neg h1] at hmem
      exact List.mem_singleton.mp hmem

theorem multiBlockErase_of_ret {send : ℕ → ℤ} {n : ℕ} {a size : Word}
    (h : (mmcMultiBlockErase d send n a size).1 = 0) :
    ∃ cmd, (mmcMultiBlockErase d send n a size).2 = [cmd] := by
  rw [mmcMultiBlockErase] at h ⊢
  by_cases hsize : size = 0
  · rw [if_pos hsize] at h
    exact absurd h (by decide)
  rw [if_neg hsize] at h ⊢
  by_cases hsel : send n ≠ 0
  · rw [if_pos hsel] at h
    exact absurd h hsel
  rw [if_neg hsel] at h ⊢
  by_cases hstop : send (n + 1) ≠ 0
  · rw [if_pos hstop] at h
    exact absurd h hstop
  rw [if_neg hstop]
  exact ⟨_, rfl⟩

theorem multiBlockErase_ret {send : ℕ → ℤ} (hsend : ∀ m, send m = 0) (n : ℕ) (a : Word)
    {size : Word} (hne : size ≠ 0) : (mmcMultiBlockErase d send n a size).1 = 0 := by
  rw [mmcMultiBlockErase, if_neg hne]
  simp [hsend]

theorem Geometry.multiBlockErase (hd : Geometry d) (send : ℕ → ℤ) (n : ℕ) (a size : Word) (c : ℕ)
    (hc : 0 < c) (hsize : size.toNat = c * 512) (ha : a.toNat + c ≤ d.devTotalBlk.toNat) :
    (∀ cmd ∈ (mmcMultiBlockErase d send n a size).2,
      cmd.blocks d.accMode = Set.Ico a.toNat (a.toNat + c)) ∧
    ((∀ m, send m = 0) → ∃ cmd, mmcMultiBlockErase d send n a size = (0, [cmd])) := by
  have htotal := hd.total_le
  refine ⟨multiBlockErase_blocks send n hc hsize (by omega)
    fun hacc => ha.trans (hd.byteAddressed hacc), fun hsend => ?_⟩
  have hne : size ≠ 0 := by
    intro h
    rw [h] at hsize
    simp at hsize
    omega
  have hret := multiBlockErase_ret (d := d) hsend n a hne
  obtain ⟨cmd, hcmd⟩ := multiBlockErase_of_ret hret
  exact ⟨cmd, Prod.ext hret hcmd⟩

theorem toNat_next_chunk {sBlk size : Word} (hlt : eraseMaxBlk < size)
    (hle : sBlk.toNat + size.toNat ≤ 2 ^ 31) :
    0x400000 < size.toNat ∧ (sBlk + eraseMaxBlk).toNat = sBlk.toNat + 0x400000 ∧
      (size - eraseMaxBlk).toNat = size.toNat - 0x400000 := by
  have hmax : eraseMaxBlk.toNat = 0x400000 := rfl
  rw [BitVec.lt_def, hmax] at hlt
  exact ⟨hlt, BitVec.toNat_add_of_lt (by rw [hmax]; omega),
    BitVec.toNat_sub_of_le (BitVec.le_def.mpr (by omega))⟩

theorem toNat_last_chunk {size : Word} (hne : size ≠ 0) (hle : ¬ eraseMaxBlk < size) :
    0 < size.toNat ∧ (size * mmcBlockLen).toNat = size.toNat * 512 := by
  have hmax : eraseMaxBlk.toNat = 0x400000 := rfl
  rw [BitVec.lt_def, hmax, not_lt] at hle
  have hpos : 0 < size.toNat := by bv_omega
  refine ⟨hpos, ?_⟩
  rw [BitVec.toNat_mul, show mmcBlockLen.toNat = 512 from rfl, Nat.mod_eq_of_lt (by omega)]

theorem Geometry.eraseLoop_subset (hd : Geometry d) (send : ℕ → ℤ) (n : ℕ) {sBlk size : Word}
    (hle : sBlk.toNat + size.toNat ≤ d.devTotalBlk.toNat) :
    ∀ cmd ∈ (mmcEraseLoop d send n sBlk size).2,
      cmd.blocks d.accMode ⊆ Set.Ico sBlk.toNat (sBlk.toNat + size.toNat) := by
  have htotal := hd.total_le
  fun_induction mmcEraseLoop d send n sBlk size with
  | case1 n sBlk => simp
  | case2 n sBlk size hne hlt ret cmds hcall hret =>
    obtain ⟨hlt, hs, hz⟩ := toNat_next_chunk hlt (hle.trans htotal)
    have hchunk := (hd.multiBlockErase send n sBlk eraseMaxByte 0x400000 (by decide) rfl
      (by omega)).1
    rw [hcall] at hchunk
    intro cmd hcmd
    rw [hchunk cmd hcmd]
    exact Set.Ico_subset_Ico_right (by omega)
  | case3 n sBlk size hne hlt ret cmds hcall hret ret' cmds' hrest ih =>
    obtain ⟨hlt, hs, hz⟩ := toNat_next_chunk hlt (hle.trans htotal)
    have hchunk := (hd.multiBlockErase send n sBlk eraseMaxByte 0x400000 (by decide) rfl
      (by omega)).1
    rw [hcall] at hchunk
    have hrest' := ih (by omega)
    rw [hrest, hs, hz] at hrest'
    intro cmd hcmd
    rcases List.mem_append.mp hcmd with hcmd | hcmd
    · rw [hchunk cmd hcmd]
      exact Set.Ico_subset_Ico_right (by omega)
    · exact (hrest' cmd hcmd).trans (Set.Ico_subset_Ico (by omega) (by omega))
  | case4 n sBlk size hne hlt =>
    obtain ⟨hpos, hbytes⟩ := toNat_last_chunk hne hlt
    intro cmd hcmd
    rw [(hd.multiBlockErase send n _ _ _ hpos hbytes hle).1 cmd hcmd]

theorem Geometry.eraseLoop_complete (hd : Geometry d) {send : ℕ → ℤ} (hsend : ∀ m, send m = 0)
    (n : ℕ) {sBlk size : Word} (hle : sBlk.toNat + size.toNat ≤ d.devTotalBlk.toNat) {b : ℕ}
    (hb : b ∈ Set.Ico sBlk.toNat (sBlk.toNat + size.toNat)) :
    ∃ cmd ∈ (mmcEraseLoop d send n sBlk size).2, b ∈ cmd.blocks d.accMode := by
  have htotal := hd.total_le
  fun_induction mmcEraseLoop d send n sBlk size with
  | case1 n sBlk => exact absurd hb (by simp)
  | case2 n sBlk size hne hlt ret cmds hcall hret =>
    obtain ⟨hlt, hs, hz⟩ := toNat_next_chunk hlt (hle.trans htotal)
    obtain ⟨cmd, hcmd⟩ := (hd.multiBlockErase send n sBlk eraseMaxByte 0x400000 (by decide) rfl
      (by omega)).2 hsend
    rw [hcmd] at hcall
    exact absurd (Prod.mk.inj hcall).1.symm hret
  | case3 n sBlk size hne hlt ret cmds hcall hret ret' cmds' hrest ih =>
    obtain ⟨hlt, hs, hz⟩ := toNat_next_chunk hlt (hle.trans htotal)
    obtain ⟨hblocks, hok⟩ := hd.multiBlockErase send n sBlk eraseMaxByte 0x400000 (by decide) rfl
      (by omega)
    obtain ⟨cmd, hcmd⟩ := hok hsend
    have hcmds : cmds = [cmd] := by
      rw [hcmd] at hcall
      exact (Prod.mk.inj hcall).2.symm
    rw [hcall, hcmds] at hblocks
    by_cases hin : b < sBlk.toNat + 0x400000
    · refine ⟨cmd, by simp [hcmds], ?_⟩
      rw [hblocks cmd List.mem_cons_self]
      exact ⟨hb.1, hin⟩
    · obtain ⟨cmd', hcmd', hb'⟩ := ih (by omega) ⟨by omega, by rw [hs, hz]; have := hb.2; omega⟩
      rw [hrest] at hcmd'
      exact ⟨cmd', List.mem_append_right _ hcmd', hb'⟩
  | case4 n sBlk size hne hlt =>
    obtain ⟨hpos, hbytes⟩ := toNat_last_chunk hne hlt
    obtain ⟨hblocks, hok⟩ := hd.multiBlockErase send n _ _ _ hpos hbytes hle
    obtain ⟨cmd, hcmd⟩ := hok hsend
    rw [hcmd] at hblocks ⊢
    refine ⟨cmd, List.mem_cons_self, ?_⟩
    rw [hblocks cmd List.mem_cons_self]
    exact hb

end

/-! ## Erasing -/

/-- An erase request keeps the protection: whatever the card answers, no protected block is
erased, and a request for a range with one is refused as a whole. -/
def EraseSafe (d : Device) (sBlk eBlk : Word) : Prop :=
  ∀ send : ℕ → ℤ,
    (∀ cmd ∈ (mmcEraseSect d send sBlk eBlk).2, ∀ b ∈ cmd.blocks d.accMode, ¬ Protected d b) ∧
    ((∃ b, sBlk.toNat ≤ b ∧ b < eBlk.toNat ∧ Protected d b) →
      (mmcEraseSect d send sBlk eBlk).1 < 0 ∧ (mmcEraseSect d send sBlk eBlk).2 = [])

/-- The arguments pass the tests that `mmc_erase_sect` makes before the check. -/
def EraseArgs (d : Device) (sBlk eBlk : Word) : Prop :=
  ¬ (sBlk &&& (d.eraseBlocks - 1) ≠ 0 ∨ d.devTotalBlk ≤ sBlk) ∧
    ¬ (eBlk &&& (d.eraseBlocks - 1) ≠ 0 ∨ eBlk ≤ sBlk ∨ d.devTotalBlk < eBlk)

/-- The full sectors that meet the range are clear. -/
def FullClear (d : Device) (sBlk eBlk : Word) : Prop :=
  ∀ k, Meets d sBlk eBlk k → Full d k → d.wpTbl k = 0

/-- The range does not reach a protected sector that the end of the card cuts off. -/
def CutClear (d : Device) (sBlk eBlk : Word) : Prop :=
  ∀ k, Meets d sBlk eBlk k → ¬ Full d k → d.wpTbl k = 0

/-- The requests whose range is checked as a whole, or refused for what is checked. -/
def EraseFits (d : Device) (sBlk eBlk : Word) : Prop :=
  EraseArgs d sBlk eBlk → FullClear d sBlk eBlk → CutClear d sBlk eBlk

section

variable {d : Device} {sBlk eBlk : Word}

theorem Geometry.not_protected (hd : Geometry d) (hlt : sBlk.toNat < eBlk.toNat)
    (hfull : FullClear d sBlk eBlk) (hcut : CutClear d sBlk eBlk) {b : ℕ}
    (hsb : sBlk.toNat ≤ b) (hbe : b < eBlk.toNat) : ¬ Protected d b := by
  intro hb
  have hmeets := (hd.meets_iff hlt).mpr ⟨b, hsb, hbe, rfl⟩
  by_cases hfulls : Full d (b / d.protectBlk.toNat)
  · exact hb.2 (hfull _ hmeets hfulls)
  · exact hb.2 (hcut _ hmeets hfulls)

theorem Geometry.eraseSafe_iff (hd : Geometry d) :
    EraseSafe d sBlk eBlk ↔ EraseFits d sBlk eBlk := by
  by_cases hargs : EraseArgs d sBlk eBlk
  · have hse : sBlk < eBlk := by
      refine BitVec.not_le.mp fun h => hargs.2 (Or.inr (Or.inl h))
    have hlt : sBlk.toNat < eBlk.toNat := hse
    have hle : eBlk.toNat ≤ d.devTotalBlk.toNat :=
      BitVec.not_lt.mp fun h => hargs.2 (Or.inr (Or.inr h))
    have hmeets : Meets d sBlk eBlk (sBlk.toNat / d.protectBlk.toNat) :=
      ⟨le_rfl, (Nat.div_mul_le_self _ _).trans_lt hlt⟩
    have hcheck := hd.checkProtect_eq_zero_iff sBlk hle
    have hsize : sBlk.toNat + (eBlk - sBlk).toNat = eBlk.toNat := by
      rw [BitVec.toNat_sub_of_le (BitVec.le_of_lt hse), Nat.add_sub_cancel' hlt.le]
    by_cases hfull : FullClear d sBlk eBlk
    · have hres : ∀ send, mmcEraseSect d send sBlk eBlk =
          mmcEraseLoop d send 0 sBlk (eBlk - sBlk) := by
        intro send
        rw [mmcEraseSect, if_neg hargs.1, if_neg hargs.2,
          if_neg (not_not.mpr (hcheck.mpr ⟨hmeets, hfull⟩))]
      constructor
      · intro hsafe _ _ k hk hcut
        by_contra hset
        obtain ⟨b, hsb, hbe, rfl⟩ := (hd.meets_iff hlt).mp hk
        obtain ⟨hblocks, -⟩ := hsafe fun _ => 0
        rw [hres] at hblocks
        obtain ⟨cmd, hcmd, hb⟩ := hd.eraseLoop_complete (fun _ => rfl) 0
          (hsize.le.trans hle) ⟨hsb, hsize.symm ▸ hbe⟩
        exact hblocks cmd hcmd b hb ⟨hbe.trans_le hle, hset⟩
      · intro hfits send
        have hcut := hfits hargs hfull
        rw [hres]
        refine ⟨fun cmd hcmd b hb => ?_, fun ⟨b, hsb, hbe, hb⟩ => ?_⟩
        · have hrange := hd.eraseLoop_subset send 0 (hsize.le.trans hle) cmd hcmd hb
          rw [hsize] at hrange
          exact hd.not_protected hlt hfull hcut hrange.1 hrange.2
        · exact absurd hb (hd.not_protected hlt hfull hcut hsb hbe)
    · refine iff_of_true (fun send => ?_) fun _ h => absurd h hfull
      have hne : mmcCheckProtect d (chkSblk d sBlk) (chkEblk d eBlk) ≠ 0 :=
        fun h0 => hfull (hcheck.mp h0).2
      rw [mmcEraseSect, if_neg hargs.1, if_neg hargs.2, if_pos hne]
      exact ⟨fun cmd hcmd => absurd hcmd List.not_mem_nil, fun _ => ⟨by decide, rfl⟩⟩
  · refine iff_of_true (fun send => ?_) fun h => absurd h hargs
    have hrefused : ∃ ret < 0, mmcEraseSect d send sBlk eBlk = (ret, []) := by
      rw [mmcEraseSect]
      by_cases hfirst : sBlk &&& (d.eraseBlocks - 1) ≠ 0 ∨ d.devTotalBlk ≤ sBlk
      · exact ⟨-1, by decide, if_pos hfirst⟩
      · have hsecond : eBlk &&& (d.eraseBlocks - 1) ≠ 0 ∨ eBlk ≤ sBlk ∨ d.devTotalBlk < eBlk := by
          by_contra h
          exact hargs ⟨hfirst, h⟩
        exact ⟨-2, by decide, by rw [if_neg hfirst, if_pos hsecond]⟩
    obtain ⟨ret, hret, hres⟩ := hrefused
    rw [hres]
    exact ⟨fun cmd hcmd => absurd hcmd List.not_mem_nil, fun _ => ⟨hret, rfl⟩⟩

end

/-! ## Writing -/

/-- A write request keeps the protection. -/
def WriteSafe (d : Device) (addr sBlk eBlk : Word) : Prop :=
  ∀ write : ℤ,
    (∀ cmd ∈ (mmcWriteSect d write addr sBlk eBlk).2, ∀ b ∈ cmd.blocks, ¬ Protected d b) ∧
    ((∃ b, sBlk.toNat ≤ b ∧ b < eBlk.toNat ∧ Protected d b) →
      (mmcWriteSect d write addr sBlk eBlk).1 < 0 ∧ (mmcWriteSect d write addr sBlk eBlk).2 = [])

/-- The arguments pass the tests that `mmc_write_sect` makes before the check, and there is
something to write. -/
def WriteArgs (d : Device) (addr sBlk eBlk : Word) : Prop :=
  ¬ addr < physSdram1 ∧ ¬ physSdramEnd < addr + (eBlk - sBlk) * mmcBlockLen ∧
    ¬ d.devTotalBlk < sBlk ∧ ¬ d.devTotalBlk < eBlk ∧ (eBlk - sBlk) * mmcBlockLen ≠ 0

/-- The requests whose range is checked as a whole, or refused for what is checked.  A range
that ends before it begins, in the same sector, is checked as that sector, and then blocks are
written up to a count that wrapped; these must not be protected. -/
def WriteFits (d : Device) (addr sBlk eBlk : Word) : Prop :=
  WriteArgs d addr sBlk eBlk → FullClear d sBlk eBlk →
    (sBlk.toNat < eBlk.toNat → CutClear d sBlk eBlk) ∧
    (eBlk.toNat < sBlk.toNat → Meets d sBlk eBlk (sBlk.toNat / d.protectBlk.toNat) →
      ∀ b, sBlk.toNat ≤ b → b + (sBlk.toNat - eBlk.toNat) < sBlk.toNat + 2 ^ 23 →
        ¬ Protected d b)

section

variable {d : Device} {addr sBlk eBlk : Word}

theorem multiBlockWrite_eq (write : ℤ) (hne : (eBlk - sBlk) * mmcBlockLen ≠ 0) :
    ∃ cmd : WriteCmd, mmcMultiBlockWrite write sBlk ((eBlk - sBlk) * mmcBlockLen) =
        (write, [cmd]) ∧
      cmd.blocks = Set.Ico sBlk.toNat (sBlk.toNat + (eBlk - sBlk).toNat % 2 ^ 23) := by
  have hsize : ((eBlk - sBlk) * mmcBlockLen).toNat = (eBlk - sBlk).toNat % 2 ^ 23 * 512 := by
    rw [BitVec.toNat_mul, show mmcBlockLen.toNat = 512 from rfl]
    omega
  have hmask : (eBlk - sBlk) * mmcBlockLen &&& (mmcBlockLen - 1) = 0 := by
    have hmod := toNat_and_mask (show mmcBlockLen.toNat = 2 ^ 9 from rfl)
      ((eBlk - sBlk) * mmcBlockLen)
    rw [hsize, show 2 ^ 9 = 512 from rfl, Nat.mul_mod_left] at hmod
    exact BitVec.eq_of_toNat_eq hmod
  have hdiv : ((eBlk - sBlk) * mmcBlockLen / mmcBlockLen + 0).toNat =
      (eBlk - sBlk).toNat % 2 ^ 23 := by
    have hzero : (eBlk - sBlk) * mmcBlockLen / mmcBlockLen + 0 =
        (eBlk - sBlk) * mmcBlockLen / mmcBlockLen := BitVec.add_zero _
    rw [hzero, BitVec.toNat_udiv, hsize, show mmcBlockLen.toNat = 512 from rfl,
      Nat.mul_div_cancel _ (by decide)]
  refine ⟨⟨sBlk, (eBlk - sBlk) * mmcBlockLen / mmcBlockLen + 0⟩, ?_, ?_⟩
  · rw [mmcMultiBlockWrite, if_neg hne, hmask]
    rfl
  · ext b
    simp only [WriteCmd.blocks, hdiv, Set.mem_ofPred_eq, Set.mem_Ico]

theorem writeSect_eq (hargs : WriteArgs d addr sBlk eBlk) (write : ℤ) :
    (mmcCheckProtect d (chkSblk d sBlk) (chkEblk d eBlk) ≠ 0 →
      mmcWriteSect d write addr sBlk eBlk = (-4, [])) ∧
    (mmcCheckProtect d (chkSblk d sBlk) (chkEblk d eBlk) = 0 →
      ∃ cmd : WriteCmd, (mmcWriteSect d write addr sBlk eBlk).2 = [cmd] ∧
        cmd.blocks = Set.Ico sBlk.toNat (sBlk.toNat + (eBlk - sBlk).toNat % 2 ^ 23)) := by
  obtain ⟨h1, h2, h3, h4, hne⟩ := hargs
  constructor
  · intro hcheck
    simp only [mmcWriteSect, if_neg h1, if_neg h2, if_neg h3, if_neg h4, if_pos hcheck]
  · intro hcheck
    obtain ⟨cmd, hcall, hblocks⟩ := multiBlockWrite_eq write hne
    refine ⟨cmd, ?_, hblocks⟩
    simp only [mmcWriteSect, if_neg h1, if_neg h2, if_neg h3, if_neg h4,
      if_neg (not_not.mpr hcheck), hcall]
    split_ifs
    · rfl
    · rfl

theorem writeSect_refused (hargs : ¬ WriteArgs d addr sBlk eBlk) (write : ℤ) :
    (mmcWriteSect d write addr sBlk eBlk).1 < 0 ∧ (mmcWriteSect d write addr sBlk eBlk).2 = [] := by
  by_cases hne : (eBlk - sBlk) * mmcBlockLen = 0
  · have hcall : mmcMultiBlockWrite write sBlk 0 = (-1, []) := if_pos rfl
    simp only [mmcWriteSect, hne, hcall]
    split_ifs <;> simp_all
  · simp only [mmcWriteSect]
    split_ifs with h1 h2 h3 h4 h5 h6
    all_goals first
      | exact ⟨by decide, rfl⟩
      | exact absurd ⟨h1, h2, h3, h4, hne⟩ hargs

theorem Geometry.writeSafe_iff_of_lt (hd : Geometry d) (hargs : WriteArgs d addr sBlk eBlk)
    (hpass : mmcCheckProtect d (chkSblk d sBlk) (chkEblk d eBlk) = 0)
    (hfull : FullClear d sBlk eBlk) (hlt : sBlk.toNat < eBlk.toNat) :
    WriteSafe d addr sBlk eBlk ↔ CutClear d sBlk eBlk := by
  have hle : eBlk.toNat ≤ d.devTotalBlk.toNat := BitVec.not_lt.mp hargs.2.2.2.1
  have hsub : (eBlk - sBlk).toNat = eBlk.toNat - sBlk.toNat :=
    BitVec.toNat_sub_of_le (BitVec.le_def.mpr hlt.le)
  constructor
  · intro hsafe k hk hcut
    by_contra hset
    obtain ⟨b, hsb, hbe, rfl⟩ := (hd.meets_iff hlt).mp hk
    obtain ⟨cmd, hlog, -⟩ := (writeSect_eq hargs 0).2 hpass
    have hrefused := (hsafe 0).2 ⟨b, hsb, hbe, hbe.trans_le hle, hset⟩
    rw [hlog] at hrefused
    exact absurd hrefused.2 (by simp)
  · intro hcut write
    obtain ⟨cmd, hlog, hblocks⟩ := (writeSect_eq hargs write).2 hpass
    refine ⟨fun cmd' hmem b hb => ?_, fun ⟨b, hsb, hbe, hb⟩ => ?_⟩
    · rw [hlog] at hmem
      rw [List.mem_singleton.mp hmem, hblocks] at hb
      have hmod := Nat.mod_le (eBlk - sBlk).toNat (2 ^ 23)
      have hbe := hb.2
      exact hd.not_protected hlt hfull hcut hb.1 (by omega)
    · exact absurd hb (hd.not_protected hlt hfull hcut hsb hbe)

theorem Geometry.writeSafe_iff_of_gt (hd : Geometry d) (hargs : WriteArgs d addr sBlk eBlk)
    (hpass : mmcCheckProtect d (chkSblk d sBlk) (chkEblk d eBlk) = 0)
    (hmeets : Meets d sBlk eBlk (sBlk.toNat / d.protectBlk.toNat))
    (hgt : eBlk.toNat < sBlk.toNat) :
    WriteSafe d addr sBlk eBlk ↔ ∀ b, sBlk.toNat ≤ b →
      b + (sBlk.toNat - eBlk.toNat) < sBlk.toNat + 2 ^ 23 → ¬ Protected d b := by
  have hp := hd.protect_le
  have hnear : sBlk.toNat < eBlk.toNat + d.protectBlk.toNat := by
    have hdiv := Nat.lt_div_mul_add (a := sBlk.toNat) hd.pos
    have hbegin := hmeets.2
    omega
  have hcount : (eBlk - sBlk).toNat % 2 ^ 23 = 2 ^ 23 - (sBlk.toNat - eBlk.toNat) := by
    have hsub : (eBlk - sBlk).toNat = 2 ^ 32 - (sBlk.toNat - eBlk.toNat) := by bv_omega
    rw [hsub]
    omega
  constructor
  · intro hsafe b hsb hb
    obtain ⟨cmd, hlog, hblocks⟩ := (writeSect_eq hargs 0).2 hpass
    refine (hsafe 0).1 cmd (by rw [hlog]; exact List.mem_cons_self) b ?_
    rw [hblocks, hcount]
    exact ⟨hsb, by omega⟩
  · intro hclear write
    obtain ⟨cmd, hlog, hblocks⟩ := (writeSect_eq hargs write).2 hpass
    refine ⟨fun cmd' hmem b hb => ?_, fun ⟨b, hsb, hbe, _⟩ => by omega⟩
    rw [hlog] at hmem
    rw [List.mem_singleton.mp hmem, hblocks, hcount] at hb
    have hbe := hb.2
    exact hclear b hb.1 (by omega)

theorem Geometry.writeSafe_iff (hd : Geometry d) :
    WriteSafe d addr sBlk eBlk ↔ WriteFits d addr sBlk eBlk := by
  by_cases hargs : WriteArgs d addr sBlk eBlk
  · have hle : eBlk.toNat ≤ d.devTotalBlk.toNat := BitVec.not_lt.mp hargs.2.2.2.1
    have hcheck := hd.checkProtect_eq_zero_iff sBlk hle
    by_cases hpass : mmcCheckProtect d (chkSblk d sBlk) (chkEblk d eBlk) = 0
    · obtain ⟨hmeets, hfull⟩ := hcheck.mp hpass
      rcases lt_trichotomy sBlk.toNat eBlk.toNat with hlt | heq | hgt
      · rw [hd.writeSafe_iff_of_lt hargs hpass hfull hlt]
        exact ⟨fun hcut _ _ => ⟨fun _ => hcut, fun h => absurd h (not_lt.mpr hlt.le)⟩,
          fun hfits => (hfits hargs hfull).1 hlt⟩
      · obtain rfl := BitVec.eq_of_toNat_eq heq
        exact absurd (by simp) hargs.2.2.2.2
      · rw [hd.writeSafe_iff_of_gt hargs hpass hmeets hgt]
        exact ⟨fun hclear _ _ => ⟨fun h => absurd h (not_lt.mpr hgt.le), fun _ _ => hclear⟩,
          fun hfits => (hfits hargs hfull).2 hgt hmeets⟩
    · refine iff_of_true (fun write => ?_) fun _ hfull => ⟨fun hlt => ?_, fun _ hmeets => ?_⟩
      · rw [(writeSect_eq hargs write).1 hpass]
        exact ⟨fun cmd hcmd => absurd hcmd List.not_mem_nil, fun _ => ⟨by decide, rfl⟩⟩
      · exact absurd (hcheck.mpr ⟨⟨le_rfl, (Nat.div_mul_le_self _ _).trans_lt hlt⟩, hfull⟩) hpass
      · exact absurd (hcheck.mpr ⟨hmeets, hfull⟩) hpass
  · refine iff_of_true (fun write => ?_) fun h => absurd h hargs
    obtain ⟨hret, hlog⟩ := writeSect_refused hargs write
    rw [hlog]
    exact ⟨fun cmd hcmd => absurd hcmd List.not_mem_nil, fun _ => ⟨hret, rfl⟩⟩

end

/-! ## Setting and clearing entries -/

/-- A request to protect or unprotect a range sets the entries of the sectors that meet it and
no others, or is refused and sets none. -/
def ProtectExact (d : Device) (sBlk eBlk mode : Word) : Prop :=
  ((mmcProtectSect d sBlk eBlk mode).1 < 0 → (mmcProtectSect d sBlk eBlk mode).2 = d.wpTbl) ∧
  (0 ≤ (mmcProtectSect d sBlk eBlk mode).1 → ∀ k,
    ((∃ b, sBlk.toNat ≤ b ∧ b < eBlk.toNat ∧ b / d.protectBlk.toNat = k) →
      (mmcProtectSect d sBlk eBlk mode).2 k = mode.setWidth 8) ∧
    ((¬ ∃ b, sBlk.toNat ≤ b ∧ b < eBlk.toNat ∧ b / d.protectBlk.toNat = k) →
      (mmcProtectSect d sBlk eBlk mode).2 k = d.wpTbl k))

/-- The arguments pass the tests of `mmc_protect_sect`. -/
def ProtectArgs (d : Device) (sBlk eBlk mode : Word) : Prop :=
  ¬ (sBlk &&& (d.protectBlk - 1) ≠ 0 ∨ d.devTotalBlk ≤ sBlk) ∧
    ¬ ((eBlk &&& (d.protectBlk - 1) ≠ 0 ∧ eBlk ≠ d.devTotalBlk) ∨ eBlk ≤ sBlk ∨
      d.devTotalBlk < eBlk) ∧
    ¬ mode &&& 0xfffffffe ≠ 0

/-- The requests that do not go from another sector into the one that the end of the card cuts
off, unless its entry is as it is to be already. -/
def ProtectFits (d : Device) (sBlk eBlk mode : Word) : Prop :=
  ProtectArgs d sBlk eBlk mode → ∀ k, Meets d sBlk eBlk k → ¬ Full d k →
    sBlk.toNat / d.protectBlk.toNat < k → d.wpTbl k = mode.setWidth 8

section

variable {d : Device} {sBlk eBlk mode : Word}

theorem mmcProtectLoop_apply (mode : BitVec 8) (wpTbl : ℕ → BitVec 8) (i n k : ℕ) :
    mmcProtectLoop mode wpTbl i n k = if i ≤ k ∧ k < i + n then mode else wpTbl k := by
  induction n generalizing wpTbl i with
  | zero => rw [mmcProtectLoop, if_neg (by omega)]
  | succ n ih =>
    rw [mmcProtectLoop, ih]
    rcases lt_trichotomy k i with hk | rfl | hk
    · rw [if_neg (by omega), if_neg (by omega), Function.update_of_ne (by omega)]
    · rw [if_neg (by omega), if_pos (by omega), Function.update_self]
    · rw [Function.update_of_ne (by omega)]
      by_cases hkn : k < i + (n + 1)
      · rw [if_pos (by omega), if_pos (by omega)]
      · rw [if_neg (by omega), if_neg (by omega)]

theorem Geometry.protectSect_eq (hd : Geometry d) (hargs : ProtectArgs d sBlk eBlk mode) :
    0 ≤ (mmcProtectSect d sBlk eBlk mode).1 ∧ ∀ k,
      (mmcProtectSect d sBlk eBlk mode).2 k =
        if sBlk.toNat / d.protectBlk.toNat ≤ k ∧
          (k < eBlk.toNat / d.protectBlk.toNat ∨ k = sBlk.toNat / d.protectBlk.toNat)
        then mode.setWidth 8 else d.wpTbl k := by
  obtain ⟨h1, h2, h3⟩ := hargs
  have hlt : sBlk.toNat < eBlk.toNat :=
    BitVec.not_le.mp fun h => h2 (Or.inr (Or.inl h))
  have hdiv : sBlk.toNat / d.protectBlk.toNat ≤ eBlk.toNat / d.protectBlk.toNat :=
    Nat.div_le_div_right hlt.le
  have hsect : (sBlk / d.protectBlk).toNat = sBlk.toNat / d.protectBlk.toNat := BitVec.toNat_udiv
  have hsub : (eBlk / d.protectBlk - sBlk / d.protectBlk).toNat =
      eBlk.toNat / d.protectBlk.toNat - sBlk.toNat / d.protectBlk.toNat := by
    rw [BitVec.toNat_sub_of_le, hsect, BitVec.toNat_udiv]
    rwa [BitVec.le_def, hsect, BitVec.toNat_udiv]
  obtain ⟨n, hn⟩ : ∃ n : Word, n = if eBlk / d.protectBlk - sBlk / d.protectBlk = 0 then 1
      else eBlk / d.protectBlk - sBlk / d.protectBlk := ⟨_, rfl⟩
  have hcount : n.toNat =
      max (eBlk.toNat / d.protectBlk.toNat - sBlk.toNat / d.protectBlk.toNat) 1 := by
    rw [hn, ← hsub]
    split_ifs with hzero
    · rw [hzero]
      rfl
    · have hpos : 0 < (eBlk / d.protectBlk - sBlk / d.protectBlk).toNat :=
        Nat.pos_of_ne_zero fun h => hzero (BitVec.eq_of_toNat_eq h)
      rw [max_eq_left hpos]
  have hsmall : n.toNat ≤ 0x800 := by
    have hle : eBlk.toNat ≤ d.devTotalBlk.toNat :=
      BitVec.not_lt.mp fun h => h2 (Or.inr (Or.inr h))
    have htable := Nat.div_le_of_le_mul (hle.trans hd.total_le_table)
    omega
  simp only [mmcProtectSect, if_neg h1, if_neg h2, if_neg h3, ← hn, hsect]
  refine ⟨?_, fun k => ?_⟩
  · rw [BitVec.toInt_eq_toNat_of_lt (by omega)]
    exact Int.natCast_nonneg _
  · rw [mmcProtectLoop_apply, hcount]
    congr 1
    refine propext (and_congr_right fun hk => ?_)
    omega

/-- **Exactly the entries of the range are set** when the range does not go into a sector that
the end of the card cuts off. -/
theorem Geometry.protectExact_iff (hd : Geometry d) :
    ProtectExact d sBlk eBlk mode ↔ ProtectFits d sBlk eBlk mode := by
  by_cases hargs : ProtectArgs d sBlk eBlk mode
  · obtain ⟨hret, htbl⟩ := hd.protectSect_eq hargs
    have hpos := hd.pos
    have hlt : sBlk.toNat < eBlk.toNat :=
      BitVec.not_le.mp fun h => hargs.2.1 (Or.inr (Or.inl h))
    have hle : eBlk.toNat ≤ d.devTotalBlk.toNat :=
      BitVec.not_lt.mp fun h => hargs.2.1 (Or.inr (Or.inr h))
    have hdiv : ∀ k, k < eBlk.toNat / d.protectBlk.toNat ↔
        (k + 1) * d.protectBlk.toNat ≤ eBlk.toNat := by
      intro k
      rw [← Nat.succ_le_iff, Nat.le_div_iff_mul_le hpos]
    -- an entry of the range that is not set belongs to a sector that is cut off
    have hcut : ∀ k, Meets d sBlk eBlk k → ¬ k < eBlk.toNat / d.protectBlk.toNat →
        ¬ Full d k := by
      intro k hk hke hfull
      rw [hdiv, not_le] at hke
      have hend : eBlk = d.devTotalBlk ∨ eBlk.toNat % d.protectBlk.toNat = 0 := by
        rw [← hd.mask_eq_zero_iff]
        by_contra hcon
        obtain ⟨hne, hmask⟩ := not_or.mp hcon
        exact hargs.2.1 (Or.inl ⟨hmask, hne⟩)
      rcases hend with hend | hend
      · rw [hend] at hke
        exact absurd hfull (not_le.mpr hke)
      · obtain ⟨q, hq⟩ := Nat.dvd_of_mod_eq_zero hend
        have hkq : k < q := by
          refine Nat.lt_of_mul_lt_mul_left (a := d.protectBlk.toNat) ?_
          rw [← hq, Nat.mul_comm]
          exact hk.2
        have hqk : q < k + 1 := by
          refine Nat.lt_of_mul_lt_mul_left (a := d.protectBlk.toNat) ?_
          rw [← hq, Nat.mul_comm]
          exact hke
        omega
    constructor
    · intro hexact _ k hk hcutk hfirst
      have hset := (hexact.2 hret k).1 ((hd.meets_iff hlt).mp hk)
      rw [htbl, if_neg] at hset
      · exact hset
      · rintro ⟨-, hke | hks⟩
        · exact hcutk (((hdiv k).mp hke).trans hle)
        · omega
    · intro hfits
      refine ⟨fun hneg => absurd hneg (not_lt.mpr hret), fun _ k => ⟨fun hk => ?_, fun hk => ?_⟩⟩
      · have hmeets := (hd.meets_iff hlt).mpr hk
        rw [htbl]
        split_ifs with hset
        · rfl
        · obtain ⟨hke, hks⟩ := not_or.mp fun h => hset ⟨hmeets.1, h⟩
          exact hfits hargs k hmeets (hcut k hmeets hke) (lt_of_le_of_ne hmeets.1 (Ne.symm hks))
      · rw [htbl, if_neg]
        rintro ⟨hsk, hset⟩
        refine hk ((hd.meets_iff hlt).mp ⟨hsk, ?_⟩)
        rcases hset with hke | rfl
        · have hend := (hdiv k).mp hke
          rw [Nat.succ_mul] at hend
          omega
        · exact (Nat.div_mul_le_self _ _).trans_lt hlt
  · have hrefused : ∃ ret < 0, mmcProtectSect d sBlk eBlk mode = (ret, d.wpTbl) := by
      unfold ProtectArgs at hargs
      simp only [mmcProtectSect]
      split_ifs with h1 h2 h3
      · exact ⟨-1, by decide, rfl⟩
      · exact ⟨-2, by decide, rfl⟩
      · exact ⟨-9, by decide, rfl⟩
      all_goals exact absurd ⟨h1, h2, h3⟩ hargs
    obtain ⟨ret, hret, hres⟩ := hrefused
    refine iff_of_true ?_ fun h => absurd h hargs
    unfold ProtectExact
    rw [hres]
    exact ⟨fun _ => rfl, fun h => absurd h (not_le.mpr hret)⟩

end

/-! ## Every card -/

/-- **The protection holds exactly when the check covers the range.**  For every card, every
content of the table and every request: an erase or a write keeps the protection, and a
protect request sets exactly its entries, if and only if it does not get past the check into
a sector that the end of the card cuts off, and a write does not end before it begins. -/
theorem protection_iff (card : Card) (wpTbl : ℕ → BitVec 8) (addr sBlk eBlk mode : Word) :
    let d : Device := { mmcFlashInit card with wpTbl := wpTbl }
    (EraseSafe d sBlk eBlk ↔ EraseFits d sBlk eBlk) ∧
    (WriteSafe d addr sBlk eBlk ↔ WriteFits d addr sBlk eBlk) ∧
    (ProtectExact d sBlk eBlk mode ↔ ProtectFits d sBlk eBlk mode) := by
  intro d
  have hcard := geometry_flashInit card
  have hd : Geometry d :=
    ⟨hcard.protect, hcard.total_le, hcard.total_le_table, hcard.byteAddressed⟩
  exact ⟨hd.eraseSafe_iff, hd.writeSafe_iff, hd.protectExact_iff⟩

/-! ### A card that ends in the middle of a sector -/

/-- A card of 0x3000 blocks: its second sector is cut off. -/
def smallCard : Card :=
  ⟨0x3000, 0x1000, true, fun h => absurd h (by decide)⟩

/-- **The last blocks are erased though every entry is set**, as `mmc_flash_init` leaves the
table; they can be written, and the last entry cannot be cleared together with the first. -/
theorem not_protection :
    ¬ EraseSafe (mmcFlashInit smallCard) 0x2000 0x3000 ∧
    ¬ WriteSafe (mmcFlashInit smallCard) 0x40000000 0x2000 0x3000 ∧
    ¬ ProtectExact (mmcFlashInit smallCard) 0 0x3000 0 := by
  have hd := geometry_flashInit smallCard
  have hp : (mmcFlashInit smallCard).protectBlk.toNat = 0x2000 := by decide
  have ht : (mmcFlashInit smallCard).devTotalBlk.toNat = 0x3000 := by decide
  have hset : (mmcFlashInit smallCard).wpTbl 1 ≠ 0 := by decide
  have hcut : ¬ Full (mmcFlashInit smallCard) 1 := by
    rw [Full, hp, ht]
    decide
  have hfull : FullClear (mmcFlashInit smallCard) 0x2000 0x3000 := by
    intro k hk hk'
    rw [Meets, hp] at hk
    rw [Full, hp, ht] at hk'
    have hone : 1 ≤ k := hk.1
    omega
  have hmeets : ∀ sBlk : Word, sBlk.toNat / 0x2000 ≤ 1 →
      Meets (mmcFlashInit smallCard) sBlk 0x3000 1 := by
    intro sBlk hle
    rw [Meets, hp]
    exact ⟨hle, by decide⟩
  refine ⟨?_, ?_, ?_⟩
  · rw [hd.eraseSafe_iff]
    intro hfits
    have hargs : EraseArgs (mmcFlashInit smallCard) 0x2000 0x3000 := by
      unfold EraseArgs
      decide
    exact hset (hfits hargs hfull 1 (hmeets _ (by decide)) hcut)
  · rw [hd.writeSafe_iff]
    intro hfits
    have hargs : WriteArgs (mmcFlashInit smallCard) 0x40000000 0x2000 0x3000 := by
      unfold WriteArgs
      decide
    exact hset ((hfits hargs hfull).1 (by decide) 1 (hmeets _ (by decide)) hcut)
  · rw [hd.protectExact_iff]
    intro hfits
    have hargs : ProtectArgs (mmcFlashInit smallCard) 0 0x3000 0 := by
      unfold ProtectArgs
      decide
    refine hset (hfits hargs 1 (hmeets _ (by decide)) hcut ?_)
    rw [hp]
    decide

end Mmc
end EmevBsp
