import EmevBsp.Mmc.Protect
import Mathlib.Data.Nat.Bitwise
import Mathlib.Data.Nat.Factorization.Basic
import Mathlib.Order.CompletePartialOrder

/-!
# The erase groups of a card

`mmc_flash_init` computes the size of an erase group from the CSD register, and
`mmc_erase_sect` tests the bounds of a range with that size less one as a mask.  The mask is the
remainder only when the size is a power of two.  The loop sends the range in chunks, in blocks or
in bytes; bytes have 32 bits.

* `eraseBlocksOfCsd`, `totalBlkOfCsd`, `flashInit`: what is computed from the registers.
* `mmcEraseLoop_coversOnce`: **the commands of a call that succeeds erase each block of the range
  once**, by induction over the chunks.
* `and_two_pow_mul_odd_sub_one`: a bound that passes the mask of a size that is no power of two.
* `eraseExact_iff`: **for every content of the registers: each request that succeeds erases whole
  groups, and exactly the range**, unless the size is no power of two or byte addresses wrap.
* `not_eraseExact`: a card with groups of 127 blocks.
-/

namespace EmevBsp
namespace Mmc

open EmevBsp.Alignment

/-! ## The registers -/

/-- The builds that differ in `mmc_flash_init`: `CONFIG_EMXX_EMMCBOOT`, and the others. -/
inductive Boot where
  | emmc
  | sd

/-- The answer to CMD9, `resp[0]` to `resp[3]`. -/
structure Csd where
  resp0 : Word
  resp1 : Word
  resp2 : Word
  resp3 : Word

/-- `mmc_erase_blocks`. -/
def eraseBlocksOfCsd (csd : Csd) : Boot → Word
  | .emmc =>
    let blockNum := ((csd.resp0 &&& 0xe0000000) >>> 29) ||| ((csd.resp1 &&& 0x00000003) <<< 3)
    (blockNum + 1) * (((csd.resp1 &&& 0x0000007c) >>> 2) + 1)
  | .sd =>
    if (csd.resp1 &&& 0x00000040) >>> 6 = 0 then
      ((csd.resp0 &&& 0x80000000) >>> 31) ||| ((csd.resp1 &&& 0x0000003f) <<< 1)
    else 1

def cSizeMult : List Word :=
  [4, 8, 16, 32, 64, 128, 256, 512]

def blkLen : List Word :=
  [0, 0, 0, 0, 0, 0, 0, 0, 0, 512, 1024, 2048, 0, 0, 0, 0]

/-- `dev_total_blk`; it was `total` before, and `extCsd` is what `send_extcsd` left in its
buffer. -/
def totalBlkOfCsd (csd : Csd) (extCsd : ℕ → BitVec 8) (total : Word) (boot : Boot) : Word :=
  let (sdVer, total) : Word × Word := match boot with
    | .emmc => (0, extCsd 215 ++ extCsd 214 ++ extCsd 213 ++ extCsd 212)
    | .sd => ((csd.resp3 &&& 0x00c00000) >>> 22, total)
  if sdVer = 0 ∧ total = 0 then
    let cSizeN := (csd.resp1 &&& 0x00000380) >>> 7
    let devSize := ((csd.resp1 &&& 0xffc00000) >>> 22) ||| ((csd.resp2 &&& 0x00000003) <<< 10)
    let readBlkLen := (csd.resp2 &&& 0x00000f00) >>> 8
    (devSize + 1) * cSizeMult.getD cSizeN.toNat 0 * blkLen.getD readBlkLen.toNat 0 / mmcBlockLen
  else if sdVer = 1 then (((csd.resp1 &&& 0xffffff00) >>> 8) + 1) * 1024
  else total

/-- `mmc_flash_init` once the registers were read. -/
def flashInit (csd : Csd) (extCsd : ℕ → BitVec 8) (total : Word) (boot : Boot) (accMode : Bool) :
    Device :=
  let total := totalBlkOfCsd csd extCsd total boot
  { devTotalBlk := if protectShift total = 7 then mmcMaxBlk else total
    protectBlk := mmcSectOfBlocks <<< protectShift total
    eraseBlocks := eraseBlocksOfCsd csd boot
    accMode := accMode
    wpTbl := fun _ => 1 }

/-! ## What a request erases -/

/-- The commands erase each block of the range once, and no other. -/
structure CoversOnce (accMode : Bool) (cmds : List EraseCmd) (s e : ℕ) : Prop where
  covers : ∀ b, (∃ cmd ∈ cmds, b ∈ cmd.blocks accMode) ↔ b ∈ Set.Ico s e
  once : cmds.Pairwise fun c c' => Disjoint (c.blocks accMode) (c'.blocks accMode)

/-- A request that succeeds is for whole groups, and erases exactly its range. -/
def EraseExact (d : Device) (sBlk eBlk : Word) : Prop :=
  ∀ send : ℕ → ℤ, (mmcEraseSect d send sBlk eBlk).1 = 0 →
    d.eraseBlocks.toNat ∣ sBlk.toNat ∧ d.eraseBlocks.toNat ∣ eBlk.toNat ∧
      CoversOnce d.accMode (mmcEraseSect d send sBlk eBlk).2 sBlk.toNat eBlk.toNat

/-- The groups of the card: it has fewer blocks than a power of two that divides the group, or the
group is a power of two, and the whole groups of a card that is addressed by byte end within
`2 ^ 32` bytes. -/
def EraseGroupFits (d : Device) : Prop :=
  (∃ k, 2 ^ k ∣ d.eraseBlocks.toNat ∧ d.devTotalBlk.toNat < 2 ^ k) ∨
    (∃ k, d.eraseBlocks.toNat = 2 ^ k) ∧ (d.accMode = false →
      d.devTotalBlk.toNat / d.eraseBlocks.toNat * d.eraseBlocks.toNat ≤ 2 ^ 23)

/-! ### The loop -/

section

variable {d : Device} {accMode : Bool}

theorem coversOnce_singleton {cmd : EraseCmd} {s e : ℕ} (h : cmd.blocks accMode = Set.Ico s e) :
    CoversOnce accMode [cmd] s e := by
  refine ⟨fun b => ?_, List.pairwise_singleton _ _⟩
  rw [← h]
  simp

theorem CoversOnce.cons {cmd : EraseCmd} {cmds : List EraseCmd} {s m e : ℕ}
    (h : cmd.blocks accMode = Set.Ico s m) (hsm : s ≤ m) (hme : m ≤ e)
    (hrest : CoversOnce accMode cmds m e) : CoversOnce accMode (cmd :: cmds) s e := by
  constructor
  · intro b
    simp only [List.mem_cons, exists_eq_or_imp, hrest.covers, h, Set.mem_Ico]
    omega
  · refine List.pairwise_cons.mpr ⟨fun cmd' hcmd' => ?_, hrest.once⟩
    rw [h, Set.disjoint_left]
    intro b hb hb'
    have hin := ((hrest.covers b).mp ⟨cmd', hcmd', hb'⟩).1
    exact absurd hb.2 (not_lt.mpr hin)

theorem mmcEraseLoop_coversOnce (send : ℕ → ℤ) (n : ℕ) {sBlk size : Word}
    (hle : sBlk.toNat + size.toNat ≤ 2 ^ 31)
    (hbyte : d.accMode = false → sBlk.toNat + size.toNat ≤ 2 ^ 23)
    (hret : (mmcEraseLoop d send n sBlk size).1 = 0) :
    CoversOnce d.accMode (mmcEraseLoop d send n sBlk size).2 sBlk.toNat
      (sBlk.toNat + size.toNat) := by
  fun_induction mmcEraseLoop d send n sBlk size with
  | case1 n sBlk => exact ⟨fun b => by simp, List.Pairwise.nil⟩
  | case2 n sBlk size hne hlt ret cmds hcall hret' => exact absurd hret hret'
  | case3 n sBlk size hne hlt ret cmds hcall hret' ret'' cmds' hrest ih =>
    obtain ⟨hlt, hs, hz⟩ := toNat_next_chunk hlt hle
    have hzero : (mmcMultiBlockErase d send n sBlk eraseMaxByte).1 = 0 := by
      rw [hcall]
      exact not_not.mp hret'
    have hblocks := multiBlockErase_blocks (d := d) send n (by decide : 0 < 0x400000)
      (show eraseMaxByte.toNat = 0x400000 * 512 from rfl)
      (show sBlk.toNat + 0x400000 < 2 ^ 32 by omega)
      (fun hacc => le_trans (by omega) (hbyte hacc))
    obtain ⟨cmd, hcmd⟩ := multiBlockErase_of_ret hzero
    rw [hcall] at hcmd hblocks
    dsimp only at hcmd hblocks
    subst hcmd
    rw [hrest, hs, hz] at ih
    have hrest' := ih (by omega) (fun hacc => le_trans (by omega) (hbyte hacc)) hret
    have hend : sBlk.toNat + 0x400000 + (size.toNat - 0x400000) = sBlk.toNat + size.toNat := by
      omega
    rw [hend] at hrest'
    exact hrest'.cons (hblocks cmd List.mem_cons_self) (by omega) (by omega)
  | case4 n sBlk size hne hlt =>
    obtain ⟨hpos, hbytes⟩ := toNat_last_chunk hne hlt
    obtain ⟨cmd, hcmd⟩ := multiBlockErase_of_ret hret
    have hblocks := multiBlockErase_blocks (d := d) send n hpos hbytes (by omega) hbyte
    rw [hcmd] at hblocks ⊢
    exact coversOnce_singleton (hblocks cmd List.mem_cons_self)

theorem mmcEraseLoop_ret {send : ℕ → ℤ} (hsend : ∀ m, send m = 0) (n : ℕ) (sBlk size : Word) :
    (mmcEraseLoop d send n sBlk size).1 = 0 := by
  fun_induction mmcEraseLoop d send n sBlk size with
  | case1 n sBlk => rfl
  | case2 n sBlk size hne hlt ret cmds hcall hret =>
    have hzero := multiBlockErase_ret (d := d) hsend n sBlk (show eraseMaxByte ≠ 0 by decide)
    rw [hcall] at hzero
    exact absurd hzero hret
  | case3 n sBlk size hne hlt ret cmds hcall hret ret' cmds' hrest ih =>
    rw [hrest] at ih
    exact ih
  | case4 n sBlk size hne hlt =>
    obtain ⟨hpos, hbytes⟩ := toNat_last_chunk hne hlt
    refine multiBlockErase_ret hsend n sBlk fun hzero => ?_
    rw [hzero] at hbytes
    have hnone : (0 : Word).toNat = 0 := rfl
    omega

theorem EraseCmd.lt_of_mem_blocks {cmd : EraseCmd} {b : ℕ} (h : b ∈ cmd.blocks false) :
    b < 2 ^ 23 := by
  have hle : 512 * b ≤ cmd.stop.toNat := h.2
  have hlt := cmd.stop.isLt
  omega

end

/-! ### The masks -/

theorem and_sub_one_eq_self {x g k : ℕ} (hg : 0 < g) (hdvd : 2 ^ k ∣ g) (hx : x < 2 ^ k) :
    x &&& (g - 1) = x := by
  obtain ⟨m, rfl⟩ := hdvd
  have hm : 0 < m := Nat.pos_of_mul_pos_left hg
  have hlow : (2 ^ k * m - 1) % 2 ^ k = 2 ^ k - 1 := by
    obtain ⟨m, rfl⟩ := Nat.exists_eq_add_of_lt hm
    have hpos := Nat.two_pow_pos k
    have hsum : 2 ^ k * (0 + m + 1) - 1 = 2 ^ k - 1 + 2 ^ k * m := by
      rw [Nat.zero_add, Nat.mul_succ]
      omega
    rw [hsum, Nat.add_mul_mod_self_left]
    exact Nat.mod_eq_of_lt (by omega)
  have hlt : x &&& (2 ^ k * m - 1) < 2 ^ k := Nat.and_le_left.trans_lt hx
  calc x &&& (2 ^ k * m - 1)
      = (x &&& (2 ^ k * m - 1)) % 2 ^ k := (Nat.mod_eq_of_lt hlt).symm
    _ = x % 2 ^ k &&& (2 ^ k - 1) := by rw [Nat.and_mod_two_pow, hlow]
    _ = x := by rw [Nat.and_two_pow_sub_one_eq_mod, Nat.mod_mod, Nat.mod_eq_of_lt hx]

theorem and_two_pow_mul_odd_sub_one {k m : ℕ} (hm : Odd m) : 2 ^ k &&& (2 ^ k * m - 1) = 0 := by
  obtain ⟨j, rfl⟩ := hm
  have hpos := Nat.two_pow_pos k
  have hsum : 2 ^ k * (2 * j + 1) - 1 = 2 ^ k - 1 + 2 ^ k * (2 * j) := by
    rw [Nat.mul_succ]
    omega
  have hbit : (2 ^ k * (2 * j + 1) - 1).testBit k = false := by
    rw [Nat.testBit_eq_decide_div_mod_eq, hsum, Nat.add_mul_div_left _ _ hpos,
      Nat.div_eq_of_lt (by omega), Nat.zero_add, Nat.mul_mod_right]
    rfl
  rw [Nat.two_pow_and, hbit]
  rfl

theorem toNat_and_sub_one {x g : Word} (hg : g ≠ 0) :
    (x &&& (g - 1)).toNat = x.toNat &&& (g.toNat - 1) := by
  have hsub : (g - 1).toNat = g.toNat - 1 := by bv_omega
  rw [BitVec.toNat_and, hsub]

/-! ### Every request -/

section

variable {d : Device} {sBlk eBlk : Word}

theorem mmcEraseSect_of_ret {send : ℕ → ℤ} (h : (mmcEraseSect d send sBlk eBlk).1 = 0) :
    EraseArgs d sBlk eBlk ∧
      mmcEraseSect d send sBlk eBlk = mmcEraseLoop d send 0 sBlk (eBlk - sBlk) := by
  rw [mmcEraseSect] at h ⊢
  split_ifs at h ⊢ with hstart hend hcheck
  · exact absurd h (by decide)
  · exact absurd h (by decide)
  · exact absurd h (by decide)
  · exact ⟨⟨hstart, hend⟩, rfl⟩

theorem EraseArgs.bounds (h : EraseArgs d sBlk eBlk) :
    sBlk.toNat < eBlk.toNat ∧ eBlk.toNat ≤ d.devTotalBlk.toNat ∧
      (eBlk - sBlk).toNat = eBlk.toNat - sBlk.toNat := by
  obtain ⟨-, h⟩ := h
  obtain ⟨-, h⟩ := not_or.mp h
  obtain ⟨hlt, hle⟩ := not_or.mp h
  have hlt' : sBlk.toNat < eBlk.toNat := BitVec.not_le.mp hlt
  exact ⟨hlt', BitVec.not_lt.mp hle, BitVec.toNat_sub_of_le (BitVec.le_def.mpr hlt'.le)⟩

theorem eraseExact_of_fits (htotal : d.devTotalBlk.toNat ≤ 2 ^ 31) (hfits : EraseGroupFits d)
    (sBlk eBlk : Word) : EraseExact d sBlk eBlk := by
  intro send hret
  obtain ⟨hargs, hloop⟩ := mmcEraseSect_of_ret hret
  obtain ⟨hlt, hle, hsub⟩ := hargs.bounds
  have hmaskS : sBlk &&& (d.eraseBlocks - 1) = 0 := not_not.mp (not_or.mp hargs.1).1
  have hmaskE : eBlk &&& (d.eraseBlocks - 1) = 0 := not_not.mp (not_or.mp hargs.2).1
  rcases hfits with ⟨k, hdvd, hsmall⟩ | ⟨⟨k, hk⟩, hbyte⟩
  · -- the end of the range does not pass the mask
    exfalso
    by_cases hzero : d.eraseBlocks = 0
    · rw [hzero, show (0 : Word) - 1 = BitVec.allOnes 32 from rfl, BitVec.and_allOnes] at hmaskE
      rw [hmaskE] at hlt
      exact absurd hlt (Nat.not_lt_zero _)
    · have hself := and_sub_one_eq_self (x := eBlk.toNat) (by bv_omega) hdvd (by omega)
      rw [← toNat_and_sub_one hzero, hmaskE] at hself
      exact absurd hself.symm (Nat.ne_zero_of_lt hlt)
  · have hmod : ∀ x : Word, x &&& (d.eraseBlocks - 1) = 0 → d.eraseBlocks.toNat ∣ x.toNat := by
      intro x hx
      have hrem := toNat_and_mask hk x
      rw [hx, ← hk] at hrem
      exact Nat.dvd_of_mod_eq_zero hrem.symm
    have hdvdE := hmod eBlk hmaskE
    refine ⟨hmod sBlk hmaskS, hdvdE, ?_⟩
    rw [hloop] at hret ⊢
    have hend : sBlk.toNat + (eBlk - sBlk).toNat = eBlk.toNat := by omega
    have hcovers := mmcEraseLoop_coversOnce send 0 (by omega) (fun hacc => ?_) hret
    · rwa [hend] at hcovers
    · rw [hend]
      obtain ⟨q, hq⟩ := hdvdE
      have hpos : 0 < d.eraseBlocks.toNat := by
        rw [hk]
        exact Nat.two_pow_pos k
      refine le_trans ?_ (hbyte hacc)
      rw [hq, Nat.mul_comm] at hle ⊢
      exact Nat.mul_le_mul_right _ ((Nat.le_div_iff_mul_le hpos).mpr hle)

theorem mmcEraseSect_unprotected (hd : Geometry { d with accMode := true })
    (hclear : ∀ k, d.wpTbl k = 0) (hmask : eBlk &&& (d.eraseBlocks - 1) = 0)
    (hpos : 0 < eBlk.toNat) (hle : eBlk.toNat ≤ d.devTotalBlk.toNat) :
    (mmcEraseSect d (fun _ => 0) 0 eBlk).1 = 0 := by
  have hstart : ¬ ((0 : Word) &&& (d.eraseBlocks - 1) ≠ 0 ∨ d.devTotalBlk ≤ 0) := by
    rintro (h | h)
    · exact h (BitVec.zero_and)
    · have hzero : d.devTotalBlk.toNat ≤ 0 := h
      omega
  have hend : ¬ (eBlk &&& (d.eraseBlocks - 1) ≠ 0 ∨ eBlk ≤ 0 ∨ d.devTotalBlk < eBlk) := by
    rintro (h | h | h)
    · exact h hmask
    · have hzero : eBlk.toNat ≤ 0 := h
      omega
    · exact absurd (BitVec.lt_def.mp h) (not_lt.mpr hle)
  have hcheck : mmcCheckProtect d (chkSblk d 0) (chkEblk d eBlk) = 0 := by
    refine (hd.checkProtect_eq_zero_iff 0 hle).mpr ⟨⟨le_rfl, ?_⟩, fun k _ _ => hclear k⟩
    show 0 / _ * _ < eBlk.toNat
    rw [Nat.zero_div, Nat.zero_mul]
    exact hpos
  rw [mmcEraseSect, if_neg hstart, if_neg hend, if_neg (not_not.mpr hcheck)]
  exact mmcEraseLoop_ret (fun _ => rfl) 0 0 _

end

/-! ### Every card -/

theorem geometry_flashInit_true (csd : Csd) (extCsd : ℕ → BitVec 8) (total : Word) (boot : Boot)
    (accMode : Bool) (wpTbl : ℕ → BitVec 8) :
    Geometry { flashInit csd extCsd total boot accMode with accMode := true, wpTbl := wpTbl } := by
  have hcard := geometry_flashInit ⟨totalBlkOfCsd csd extCsd total boot, 0, true,
    fun h => absurd h (by decide)⟩
  exact ⟨hcard.protect, hcard.total_le, hcard.total_le_table, hcard.byteAddressed⟩

theorem exists_not_eraseExact {d : Device} (hd : Geometry { d with accMode := true })
    (hclear : ∀ k, d.wpTbl k = 0) (hfits : ¬ EraseGroupFits d) :
    ∃ eBlk, ¬ EraseExact d 0 eBlk := by
  obtain ⟨hsmall, hgroups⟩ := not_or.mp hfits
  have hne : d.eraseBlocks ≠ 0 := by
    intro hzero
    refine hsmall ⟨32, ?_, d.devTotalBlk.isLt⟩
    rw [hzero]
    exact Nat.dvd_zero _
  have hpos : 0 < d.eraseBlocks.toNat := by bv_omega
  obtain ⟨k, m, hm, hg⟩ := Nat.exists_eq_two_pow_mul_odd hpos.ne'
  have hle : 2 ^ k ≤ d.devTotalBlk.toNat := by
    by_contra hlt
    exact hsmall ⟨k, ⟨m, hg⟩, not_le.mp hlt⟩
  have htotal := d.devTotalBlk.isLt
  by_cases hone : m = 1
  · -- byte addresses wrap before the end of the last group
    rw [hone, Nat.mul_one] at hg
    obtain ⟨hacc, hlt⟩ := Classical.not_imp.mp fun hbyte => hgroups ⟨⟨k, hg⟩, hbyte⟩
    obtain ⟨E, hE⟩ : ∃ E, E = d.devTotalBlk.toNat / d.eraseBlocks.toNat * d.eraseBlocks.toNat :=
      ⟨_, rfl⟩
    rw [← hE, not_le] at hlt
    have hEle : E ≤ d.devTotalBlk.toNat := by
      rw [hE]
      exact Nat.div_mul_le_self _ _
    have hnat : (BitVec.ofNat 32 E).toNat = E := Nat.mod_eq_of_lt (by omega)
    have hmask : BitVec.ofNat 32 E &&& (d.eraseBlocks - 1) = 0 := by
      refine BitVec.eq_of_toNat_eq ?_
      rw [toNat_and_mask hg, hnat, hE, hg, Nat.mul_mod_left]
      rfl
    refine ⟨BitVec.ofNat 32 E, fun hexact => ?_⟩
    have hcovers := (hexact _ (mmcEraseSect_unprotected hd hclear hmask (by omega)
      (by omega))).2.2.covers (E - 1)
    rw [hnat] at hcovers
    obtain ⟨cmd, -, hmem⟩ := hcovers.mpr ⟨Nat.zero_le _, by omega⟩
    rw [hacc] at hmem
    have hblock := EraseCmd.lt_of_mem_blocks hmem
    omega
  · -- the largest power of two that divides the size passes the mask
    have hnat : (BitVec.ofNat 32 (2 ^ k)).toNat = 2 ^ k := Nat.mod_eq_of_lt (by omega)
    have hmask : BitVec.ofNat 32 (2 ^ k) &&& (d.eraseBlocks - 1) = 0 := by
      refine BitVec.eq_of_toNat_eq ?_
      rw [toNat_and_sub_one hne, hnat, hg, and_two_pow_mul_odd_sub_one hm]
      rfl
    refine ⟨BitVec.ofNat 32 (2 ^ k), fun hexact => ?_⟩
    have hdvd := (hexact _ (mmcEraseSect_unprotected hd hclear hmask
      (by rw [hnat]; exact Nat.two_pow_pos k) (by rw [hnat]; exact hle))).2.1
    rw [hnat, hg] at hdvd
    have hmle : 2 ^ k * m ≤ 2 ^ k * 1 := by
      rw [Nat.mul_one]
      exact Nat.le_of_dvd (Nat.two_pow_pos k) hdvd
    have hle1 := Nat.le_of_mul_le_mul_left hmle (Nat.two_pow_pos k)
    have hge1 := hm.pos
    omega

/-- **Every card and every request.**  For every content of the registers, the requests that
succeed erase whole groups and exactly their ranges, whatever the protect table holds, if and only
if the groups of the card fit. -/
theorem eraseExact_iff (csd : Csd) (extCsd : ℕ → BitVec 8) (total : Word) (boot : Boot)
    (accMode : Bool) :
    (∀ (wpTbl : ℕ → BitVec 8) (sBlk eBlk : Word),
        EraseExact { flashInit csd extCsd total boot accMode with wpTbl := wpTbl } sBlk eBlk) ↔
      EraseGroupFits (flashInit csd extCsd total boot accMode) := by
  have hgeometry := geometry_flashInit_true csd extCsd total boot accMode
  constructor
  · intro hall
    by_contra hfits
    obtain ⟨eBlk, hnot⟩ := exists_not_eraseExact
      (d := { flashInit csd extCsd total boot accMode with wpTbl := fun _ => 0 })
      (hgeometry _) (fun _ => rfl) hfits
    exact hnot (hall _ _ _)
  · intro hfits wpTbl sBlk eBlk
    exact eraseExact_of_fits
      (d := { flashInit csd extCsd total boot accMode with wpTbl := wpTbl })
      (hgeometry wpTbl).total_le hfits sBlk eBlk

/-! ### Groups of 127 blocks -/

/-- An SD card of version 1 with `0x200000` blocks that erases whole sectors only, whose sector
size field is `0x7f`. -/
def sectorSizeCsd : Csd :=
  ⟨0x80000000, 0xffc003bf, 0x00000903, 0⟩

theorem not_eraseGroupFits_sectorSize :
    ¬ EraseGroupFits (flashInit sectorSizeCsd (fun _ => 0) 0 .sd false) := by
  have hgroup : (flashInit sectorSizeCsd (fun _ => 0) 0 .sd false).eraseBlocks.toNat = 127 := by
    decide
  have htotal : (flashInit sectorSizeCsd (fun _ => 0) 0 .sd false).devTotalBlk.toNat =
      0x200000 := by
    decide +kernel
  rw [EraseGroupFits, hgroup, htotal]
  rintro (⟨k, hdvd, hlt⟩ | ⟨⟨k, hk⟩, -⟩)
  · have hle := Nat.le_of_dvd (by decide) hdvd
    omega
  · cases k with
    | zero => exact absurd hk (by decide)
    | succ k =>
      rw [Nat.pow_succ] at hk
      omega

/-- **A single block is erased** on a card whose groups have 127 blocks. -/
theorem not_eraseExact :
    ¬ ∀ (csd : Csd) (extCsd : ℕ → BitVec 8) (total : Word) (boot : Boot) (accMode : Bool)
      (wpTbl : ℕ → BitVec 8) (sBlk eBlk : Word),
      EraseExact { flashInit csd extCsd total boot accMode with wpTbl := wpTbl } sBlk eBlk := by
  intro hall
  obtain ⟨eBlk, hnot⟩ := exists_not_eraseExact
    (d := { flashInit sectorSizeCsd (fun _ => 0) 0 .sd false with wpTbl := fun _ => 0 })
    (geometry_flashInit_true sectorSizeCsd (fun _ => 0) 0 .sd false _) (fun _ => rfl)
    not_eraseGroupFits_sectorSize
  exact hnot (hall _ _ _ _ _ _ _ _)

end Mmc
end EmevBsp
