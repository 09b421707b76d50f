import EmevBsp.Fit.Update
import EmevBsp.Flash.SectRanges
import Mathlib.Data.List.TakeWhile

/-!
# `common/update.c`: the protection of the sectors

Before an update erases and writes, it saves the flags of the protected sectors of its range and
clears them; when all is written, it sets them again.  The flags are kept beside the banks here,
with what they were before each assignment.  Neither erasing nor writing changes a flag, and
`flash_real_protect` changes the one it is called for, when it succeeds.

The range is clipped at the ends of the banks, and what is clipped at one bank stays clipped at the
next.  In banks that come in ascending order, sectors of the first one are all that is unprotected.
-/

namespace EmevBsp
namespace Fit

open Flash (FlashInfo)

/-! ## The functions of the source -/

/-- `info->protect` of every bank. -/
abbrev Flags : Type := ℕ → ℕ → UInt8

/-- The flags, and what they were before each assignment, the last one first. -/
structure Prot where
  flags : Flags
  past : List Flags

/-- `info->protect[i] = prot`. -/
def Prot.set (s : Prot) (bank i prot : ℕ) : Prot where
  flags b j := if b = bank ∧ j = i then UInt8.ofNat prot else s.flags b j
  past := s.flags :: s.past

/-- The flags, and `saved_prot_info`. -/
structure ProtState where
  prot : Prot
  saved : Flags

/-- `sp_info_ptr[i] = info->protect[i]`. -/
def ProtState.save (s : ProtState) (bank i : ℕ) : ProtState :=
  { s with saved := fun b j => if b = bank ∧ j = i then s.prot.flags bank i else s.saved b j }

/-- What happens during an update: whether there is memory for the flags, which sectors
`flash_real_protect` succeeds for, and what erasing and writing return.  A build without
`CONFIG_SYS_FLASH_PROTECTION` succeeds for every sector. -/
structure UpdateEnv where
  calloc : Bool
  realProtect : ℕ → ℕ → ℕ → Bool
  sectErase : ℕ
  write : ℕ

variable (env : UpdateEnv)

/-- The first half of the loop over the sectors of `update_flash_protect`. -/
def saveSector (prot bank : ℕ) (info : FlashInfo) (addrFirst addrLast : BitVec 32) (i : ℕ)
    (s : ProtState) : ProtState :=
  if prot = 0 ∧ addrFirst ≤ info.start i ∧ info.start i ≤ addrLast then s.save bank i else s

/-- The loop over the sectors of `update_flash_protect`. -/
def protectSectors (prot bank : ℕ) (info : FlashInfo) (addrFirst addrLast : BitVec 32) :
    List ℕ → ProtState → ProtState × ℕ
  | [], s => (s, 0)
  | i :: is, s =>
    let s := saveSector prot bank info addrFirst addrLast i s
    if s.saved bank i = 1 then
      if env.realProtect prot bank i then
        protectSectors prot bank info addrFirst addrLast is
          { s with prot := s.prot.set bank i prot }
      else (s, 1)
    else protectSectors prot bank info addrFirst addrLast is s

/-- The loop over the banks. -/
def protectBanks (prot : ℕ) :
    ℕ → List FlashInfo → BitVec 32 → BitVec 32 → ProtState → ProtState × ℕ
  | _, [], _, _, s => (s, 0)
  | bank, info :: banks, addrFirst, addrLast, s =>
    if info.sectorCount = 0 then (s, 0)
    else
      -- what is clipped here stays clipped for the banks that follow
      let addrLast := if info.bEnd < addrLast then info.bEnd else addrLast
      let addrFirst := if addrFirst < info.start 0 then info.start 0 else addrFirst
      let r := protectSectors env prot bank info addrFirst addrLast (List.range info.sectorCount) s
      if r.2 ≠ 0 then r else protectBanks prot (bank + 1) banks addrFirst addrLast r.1

def updateFlashProtect (banks : List FlashInfo) (prot : ℕ) (addrFirst addrLast : BitVec 32)
    (s : ProtState) : ProtState × ℕ :=
  if prot = 0 then
    if env.calloc = false then (s, 1)
    else protectBanks env prot 0 banks addrFirst addrLast { s with saved := fun _ _ => 0 }
  else protectBanks env prot 0 banks addrFirst addrLast s

def sectorEndAddr (info : FlashInfo) (i : ℕ) : BitVec 32 :=
  if i + 1 = info.sectorCount then info.start 0 + info.size - 1 else info.start (i + 1) - 1

/-- The loop over the sectors of `flash_sect_roundb`. -/
def roundbSectors (addr : BitVec 32) (info : FlashInfo) : Option (BitVec 32) :=
  (List.range info.sectorCount).findSome? fun i =>
    if addr ≤ sectorEndAddr info i ∧ info.start i ≤ addr then
      some (if addr < sectorEndAddr info i then sectorEndAddr info i else addr)
    else none

/-- `flash_sect_roundb`; `none` is an address that is not in flash. -/
def flashSectRoundb (banks : List FlashInfo) (addr : BitVec 32) : Option (BitVec 32) :=
  banks.findSome? (roundbSectors addr)

/-- What an update uses of the flash, when what matters is the flags. -/
def flagOps (banks : List FlashInfo) : FlashOps ProtState where
  sectRoundb addr _ := flashSectRoundb banks addr
  protect prot addrFirst addrLast s := updateFlashProtect env banks prot addrFirst addrLast s
  sectErase _ _ s := (s, env.sectErase)
  write _ _ s := (s, env.write)

/-! ## Assignments -/

variable {env} {prot bank : ℕ} {s : ProtState} {info : FlashInfo} {addrFirst addrLast : BitVec 32}

/-- The same value is assigned to the flags of some sectors of a bank. -/
def assign (prot bank : ℕ) (s : Prot) (l : List ℕ) : Prot :=
  l.foldl (fun s i => s.set bank i prot) s

@[simp] theorem assign_nil (s : Prot) : assign prot bank s [] = s := rfl

@[simp] theorem assign_cons (s : Prot) (i : ℕ) (l : List ℕ) :
    assign prot bank s (i :: l) = assign prot bank (s.set bank i prot) l := rfl

theorem set_flags (s : Prot) (i b j : ℕ) :
    (s.set bank i prot).flags b j =
      if b = bank ∧ j = i then UInt8.ofNat prot else s.flags b j := rfl

theorem assign_flags (s : Prot) (l : List ℕ) (b j : ℕ) :
    (assign prot bank s l).flags b j =
      if b = bank ∧ j ∈ l then UInt8.ofNat prot else s.flags b j := by
  induction l generalizing s with
  | nil => rw [assign_nil, if_neg fun h => List.not_mem_nil h.2]
  | cons i l ih =>
    rw [assign_cons, ih, set_flags]
    by_cases hmem : b = bank ∧ j ∈ l
    · rw [if_pos hmem, if_pos ⟨hmem.1, List.mem_cons_of_mem i hmem.2⟩]
    · rw [if_neg hmem]
      by_cases hhead : b = bank ∧ j = i
      · rw [if_pos hhead, if_pos ⟨hhead.1, hhead.2 ▸ List.mem_cons_self⟩]
      · have hnot : ¬(b = bank ∧ j ∈ i :: l) := fun (h : b = bank ∧ j ∈ i :: l) =>
          (List.mem_cons.mp h.2).elim (fun heq => hhead ⟨h.1, heq⟩) fun hin => hmem ⟨h.1, hin⟩
        rw [if_neg hhead, if_neg hnot]

theorem assign_past {s : Prot} {l : List ℕ} {f : Flags} (hf : f ∈ (assign prot bank s l).past) :
    f ∈ s.past ∨ ∀ b j, ¬(b = bank ∧ j ∈ l) → f b j = s.flags b j := by
  induction l generalizing s with
  | nil => exact .inl hf
  | cons i l ih =>
    rw [assign_cons] at hf
    rcases ih hf with hpast | hlater
    · rcases List.mem_cons.mp hpast with rfl | hpast
      · exact .inr fun _ _ _ => rfl
      · exact .inl hpast
    · refine .inr fun b j hnot => ?_
      rw [hlater b j fun h => hnot ⟨h.1, List.mem_cons_of_mem i h.2⟩, set_flags,
        if_neg fun (h : b = bank ∧ j = i) => hnot ⟨h.1, h.2 ▸ List.mem_cons_self⟩]

/-! ## The sectors of a bank -/

/-- The sector starts in the range. -/
def InRange (info : FlashInfo) (addrFirst addrLast : BitVec 32) (i : ℕ) : Prop :=
  addrFirst ≤ info.start i ∧ info.start i ≤ addrLast

instance (i : ℕ) : Decidable (InRange info addrFirst addrLast i) :=
  inferInstanceAs (Decidable (_ ∧ _))

theorem protectSectors_none {is : List ℕ} (hsaved : ∀ i ∈ is, s.saved bank i ≠ 1)
    (hout : prot = 0 → ∀ i ∈ is, ¬InRange info addrFirst addrLast i) :
    protectSectors env prot bank info addrFirst addrLast is s = (s, 0) := by
  induction is with
  | nil => rfl
  | cons i is ih =>
    have hi : saveSector prot bank info addrFirst addrLast i s = s :=
      if_neg fun h => hout h.1 i List.mem_cons_self h.2
    rw [protectSectors, hi]
    rw [if_neg (hsaved i List.mem_cons_self)]
    exact ih (fun j hj => hsaved j (List.mem_cons_of_mem i hj))
      fun hprot j hj => hout hprot j (List.mem_cons_of_mem i hj)

theorem protectSectors_one (hprot : prot ≠ 0) (is : List ℕ) (s : ProtState) :
    protectSectors env prot bank info addrFirst addrLast is s =
      (⟨assign prot bank s.prot
          ((is.filter fun i => s.saved bank i = 1).takeWhile (env.realProtect prot bank)), s.saved⟩,
        if (is.filter fun i => s.saved bank i = 1).all (env.realProtect prot bank) then 0
        else 1) := by
  induction is generalizing s with
  | nil => rfl
  | cons i is ih =>
    have hi : saveSector prot bank info addrFirst addrLast i s = s := if_neg fun h => hprot h.1
    rw [protectSectors, hi]
    by_cases hsaved : s.saved bank i = 1
    · rw [if_pos hsaved, List.filter_cons_of_pos (by simpa using hsaved), List.all_cons]
      cases hreal : env.realProtect prot bank i with
      | true =>
        rw [if_pos rfl, ih, List.takeWhile_cons_of_pos hreal, assign_cons, Bool.true_and]
      | false =>
        rw [if_neg Bool.false_ne_true, List.takeWhile_cons_of_neg (by simp [hreal]), assign_nil,
          Bool.false_and, if_neg Bool.false_ne_true]
    · rw [if_neg hsaved, List.filter_cons_of_neg (by simpa using hsaved), ih]

/-- The protected sectors of the range. -/
def protectedSectors (flags : Flags) (bank : ℕ) (info : FlashInfo) (addrFirst addrLast : BitVec 32)
    (is : List ℕ) : List ℕ :=
  is.filter fun i => InRange info addrFirst addrLast i ∧ flags bank i = 1

theorem protectedSectors_congr {flags flags' : Flags} {is : List ℕ}
    (h : ∀ i ∈ is, flags bank i = flags' bank i) :
    protectedSectors flags bank info addrFirst addrLast is =
      protectedSectors flags' bank info addrFirst addrLast is :=
  List.filter_congr fun i hi => by rw [h i hi]

/-- What the saved flags are when the loop is through. -/
def savedFlags (s : ProtState) (bank : ℕ) (info : FlashInfo) (addrFirst addrLast : BitVec 32)
    (is : List ℕ) : Flags := fun b j =>
  if b = bank ∧ j ∈ is ∧ InRange info addrFirst addrLast j then s.prot.flags b j else s.saved b j

theorem savedFlags_cons_of_out {i : ℕ} (hout : ¬InRange info addrFirst addrLast i) (is : List ℕ) :
    savedFlags s bank info addrFirst addrLast (i :: is) =
      savedFlags s bank info addrFirst addrLast is := by
  funext b j
  refine if_congr ⟨fun h => ⟨h.1, ?_, h.2.2⟩, fun h => ⟨h.1, List.mem_cons_of_mem i h.2.1, h.2.2⟩⟩
    rfl rfl
  refine (List.mem_cons.mp h.2.1).resolve_left fun heq => hout ?_
  rw [← heq]
  exact h.2.2

theorem savedFlags_cons_of_in {i : ℕ} (hin : InRange info addrFirst addrLast i) {is : List ℕ}
    (hnotin : i ∉ is) (s' : ProtState) (hsaved : s'.saved = (s.save bank i).saved)
    (hflags : ∀ b j, j ≠ i → s'.prot.flags b j = s.prot.flags b j) :
    savedFlags s bank info addrFirst addrLast (i :: is) =
      savedFlags s' bank info addrFirst addrLast is := by
  funext b j
  rw [savedFlags, savedFlags, hsaved]
  by_cases hj : j = i
  · subst hj
    by_cases hb : b = bank
    · subst hb
      rw [if_pos ⟨rfl, List.mem_cons_self, hin⟩, if_neg fun h => hnotin h.2.1]
      exact (if_pos ⟨rfl, rfl⟩).symm
    · rw [if_neg fun h => hb h.1, if_neg fun h => hb h.1]
      exact (if_neg fun h => hb h.1).symm
  · rw [hflags b j hj]
    refine if_congr ?_ rfl (if_neg fun h => hj h.2).symm
    rw [List.mem_cons, or_iff_right hj]

theorem protectSectors_zero (env : UpdateEnv) {is : List ℕ} (hnodup : is.Nodup)
    (hsaved : ∀ i ∈ is, s.saved bank i = 0) {l : List ℕ}
    (hl : l = protectedSectors s.prot.flags bank info addrFirst addrLast is) :
    ∃ saved, protectSectors env 0 bank info addrFirst addrLast is s =
      (⟨assign 0 bank s.prot (l.takeWhile (env.realProtect 0 bank)), saved⟩,
        if l.all (env.realProtect 0 bank) then 0 else 1) ∧
      (l.all (env.realProtect 0 bank) = true →
        saved = savedFlags s bank info addrFirst addrLast is) := by
  induction is generalizing s l with
  | nil =>
    subst hl
    refine ⟨s.saved, rfl, fun _ => ?_⟩
    funext b j
    exact (if_neg fun h => List.not_mem_nil h.2.1).symm
  | cons i is ih =>
    obtain ⟨hnotin, hnodup⟩ := List.nodup_cons.mp hnodup
    have hne : ∀ j ∈ is, j ≠ i := fun j hj heq => hnotin (heq ▸ hj)
    have hsaved' : ∀ j ∈ is, (s.save bank i).saved bank j = 0 := fun j hj =>
      (if_neg fun h => hne j hj h.2).trans (hsaved j (List.mem_cons_of_mem i hj))
    rw [protectSectors]
    by_cases hin : InRange info addrFirst addrLast i
    · have hi : saveSector 0 bank info addrFirst addrLast i s = s.save bank i := if_pos ⟨rfl, hin⟩
      rw [hi]
      have hsave : (s.save bank i).saved bank i = s.prot.flags bank i := if_pos ⟨rfl, rfl⟩
      rw [hsave]
      by_cases hflag : s.prot.flags bank i = 1
      · rw [if_pos hflag]
        rw [protectedSectors, List.filter_cons_of_pos (by simpa using ⟨hin, hflag⟩)] at hl
        subst hl
        cases hreal : env.realProtect 0 bank i with
        | true =>
          have hother : ∀ b j, j ≠ i →
              ((s.save bank i).prot.set bank i 0).flags b j = s.prot.flags b j :=
            fun b j hj => if_neg fun h => hj h.2
          rw [if_pos rfl, List.takeWhile_cons_of_pos hreal, assign_cons, List.all_cons, hreal,
            Bool.true_and]
          rw [savedFlags_cons_of_in hin hnotin
            ⟨(s.save bank i).prot.set bank i 0, (s.save bank i).saved⟩ rfl hother]
          exact ih (s := ⟨(s.save bank i).prot.set bank i 0, (s.save bank i).saved⟩) hnodup hsaved'
            (protectedSectors_congr fun j hj => (hother bank j (hne j hj)).symm)
        | false =>
          rw [if_neg Bool.false_ne_true, List.takeWhile_cons_of_neg (by simp [hreal]), assign_nil,
            List.all_cons, hreal, Bool.false_and, if_neg Bool.false_ne_true]
          exact ⟨_, rfl, fun h => absurd h Bool.false_ne_true⟩
      · rw [if_neg hflag]
        rw [protectedSectors, List.filter_cons_of_neg (by simp [hflag])] at hl
        rw [savedFlags_cons_of_in hin hnotin (s.save bank i) rfl fun _ _ _ => rfl]
        exact ih hnodup hsaved' hl
    · have hi : saveSector 0 bank info addrFirst addrLast i s = s := if_neg fun h => hin h.2
      rw [hi]
      rw [if_neg (by rw [hsaved i List.mem_cons_self]; decide)]
      rw [protectedSectors, List.filter_cons_of_neg (by simp [hin])] at hl
      rw [savedFlags_cons_of_out hin]
      exact ih hnodup (fun j hj => hsaved j (List.mem_cons_of_mem i hj)) hl

/-! ## The banks -/

/-- **A layout of the banks**: those that are there come first, one above the other. -/
structure AscendingBanks where
  banks : List FlashInfo
  wellFormed : ∀ info ∈ banks, 0 < info.sectorCount → info.WellFormed
  ascending : banks.Pairwise fun b c =>
    0 < c.sectorCount → 0 < b.sectorCount ∧ b.top ≤ (c.start 0).toNat

/-- No sector of these banks starts in the range. -/
def AllAbove (banks : List FlashInfo) (addrLast : BitVec 32) : Prop :=
  ∀ info ∈ banks, ∀ i < info.sectorCount, addrLast < info.start i

theorem protectBanks_none {banks : List FlashInfo} (hsaved : ∀ b, bank ≤ b → ∀ i, s.saved b i ≠ 1)
    (habove : AllAbove banks addrLast) :
    protectBanks env prot bank banks addrFirst addrLast s = (s, 0) := by
  induction banks generalizing bank addrFirst addrLast with
  | nil => rfl
  | cons info banks ih =>
    rw [protectBanks]
    by_cases hnone : info.sectorCount = 0
    · rw [if_pos hnone]
    rw [if_neg hnone]
    generalize hlast : (if info.bEnd < addrLast then info.bEnd else addrLast) = last
    have hle : last ≤ addrLast := by
      rw [← hlast]
      split_ifs with hlt
      · exact BitVec.le_of_lt hlt
      · exact BitVec.le_refl _
    have habove' : AllAbove (info :: banks) last := fun c hc i hi => by
      have hlt := habove c hc i hi
      rw [BitVec.lt_def] at hlt ⊢
      exact Nat.lt_of_le_of_lt hle hlt
    dsimp only
    rw [protectSectors_none (fun i _ => hsaved bank (Nat.le_refl _) i)
      fun _ i hi hin => BitVec.not_le.mpr
        (habove' info List.mem_cons_self i (List.mem_range.mp hi)) hin.2]
    dsimp only
    rw [if_neg (not_not_intro rfl)]
    exact ih (fun b hb => hsaved b (Nat.le_of_succ_le hb))
      fun c hc => habove' c (List.mem_cons_of_mem info hc)

variable {banks : List FlashInfo}

theorem inRange_clip_iff (h : info.WellFormed) {i : ℕ} (hi : i < info.sectorCount) :
    InRange info (if addrFirst < info.start 0 then info.start 0 else addrFirst)
        (if info.bEnd < addrLast then info.bEnd else addrLast) i ↔
      InRange info addrFirst addrLast i := by
  have hlow := h.start_le (Nat.zero_le i) hi
  have hhigh := Flash.start_lt_sectorTop h hi
  have htop := h.sectorTop_le hi
  have hend := Flash.toNat_bEnd h
  simp only [InRange, BitVec.le_def, BitVec.lt_def]
  split_ifs <;> omega

theorem allAbove_clip (hwell : ∀ c ∈ info :: banks, 0 < c.sectorCount → c.WellFormed)
    (hascending : ∀ c ∈ banks, 0 < c.sectorCount → 0 < info.sectorCount ∧
      info.top ≤ (c.start 0).toNat) :
    AllAbove banks (if info.bEnd < addrLast then info.bEnd else addrLast) := by
  intro c hc i hi
  have hpos : 0 < c.sectorCount := by omega
  obtain ⟨hinfo, hle⟩ := hascending c hc hpos
  have hlow := (hwell c (List.mem_cons_of_mem info hc) hpos).start_le (Nat.zero_le i) hi
  have hwell' := hwell info List.mem_cons_self hinfo
  have hend := Flash.toNat_bEnd hwell'
  have hlt := hwell'.start_lt_top
  simp only [BitVec.lt_def]
  split_ifs <;> omega

/-! ## What is unprotected, and protected again -/

section

variable (hwell : ∀ c ∈ info :: banks, 0 < c.sectorCount → c.WellFormed)
  (hascending : ∀ c ∈ banks, 0 < c.sectorCount → 0 < info.sectorCount ∧
    info.top ≤ (c.start 0).toNat) (hpos : 0 < info.sectorCount)

include hwell hascending hpos

theorem updateFlashProtect_zero (hcalloc : env.calloc = true) {l : List ℕ}
    (hl : l = protectedSectors s.prot.flags 0 info addrFirst addrLast
      (List.range info.sectorCount)) :
    ∃ saved, updateFlashProtect env (info :: banks) 0 addrFirst addrLast s =
      (⟨assign 0 0 s.prot (l.takeWhile (env.realProtect 0 0)), saved⟩,
        if l.all (env.realProtect 0 0) then 0 else 1) ∧
      (l.all (env.realProtect 0 0) = true →
        saved = savedFlags ⟨s.prot, fun _ _ => 0⟩ 0 info addrFirst addrLast
          (List.range info.sectorCount)) := by
  have hclip : ∀ i ∈ List.range info.sectorCount,
      InRange info (if addrFirst < info.start 0 then info.start 0 else addrFirst)
          (if info.bEnd < addrLast then info.bEnd else addrLast) i ↔
        InRange info addrFirst addrLast i := fun i hi =>
    inRange_clip_iff (hwell info List.mem_cons_self hpos) (List.mem_range.mp hi)
  rw [updateFlashProtect, if_pos rfl, if_neg (by simp [hcalloc]), protectBanks, if_neg hpos.ne']
  dsimp only
  have habove : AllAbove banks (if info.bEnd < addrLast then info.bEnd else addrLast) :=
    allAbove_clip hwell hascending
  generalize (if info.bEnd < addrLast then info.bEnd else addrLast) = last at hclip habove ⊢
  generalize (if addrFirst < info.start 0 then info.start 0 else addrFirst) = first at hclip ⊢
  have hl' : l = protectedSectors s.prot.flags 0 info first last (List.range info.sectorCount) := by
    rw [hl]
    exact List.filter_congr fun i hi =>
      decide_eq_decide.mpr (and_congr_left fun _ => (hclip i hi).symm)
  obtain ⟨saved, hbank, hsaved⟩ := protectSectors_zero env
    (s := ⟨s.prot, fun _ _ => 0⟩) List.nodup_range (fun _ _ => rfl) hl'
  have hsame : savedFlags ⟨s.prot, fun _ _ => 0⟩ 0 info first last (List.range info.sectorCount) =
      savedFlags ⟨s.prot, fun _ _ => 0⟩ 0 info addrFirst addrLast
        (List.range info.sectorCount) := by
    funext b j
    refine if_congr (and_congr_right fun _ => and_congr_right fun hj => hclip j hj) rfl rfl
  rw [hsame] at hsaved
  refine ⟨saved, ?_, hsaved⟩
  rw [hbank]
  dsimp only
  by_cases hall : l.all (env.realProtect 0 0) = true
  · rw [if_pos hall, if_neg (not_not_intro rfl)]
    refine protectBanks_none (fun b hb i => ?_) habove
    dsimp only
    rw [hsaved hall, savedFlags, if_neg fun h => by omega]
    exact show (0 : UInt8) ≠ 1 by decide
  · rw [if_neg hall, if_pos Nat.one_ne_zero]

theorem updateFlashProtect_one (hsaved : ∀ b, 1 ≤ b → ∀ i, s.saved b i ≠ 1) :
    updateFlashProtect env (info :: banks) 1 addrFirst addrLast s =
      (⟨assign 1 0 s.prot (((List.range info.sectorCount).filter fun i =>
          s.saved 0 i = 1).takeWhile (env.realProtect 1 0)), s.saved⟩,
        if ((List.range info.sectorCount).filter fun i => s.saved 0 i = 1).all
          (env.realProtect 1 0) then 0 else 1) := by
  rw [updateFlashProtect, if_neg Nat.one_ne_zero, protectBanks, if_neg hpos.ne']
  dsimp only
  rw [protectSectors_one Nat.one_ne_zero]
  dsimp only
  by_cases hall : ((List.range info.sectorCount).filter fun i => s.saved 0 i = 1).all
      (env.realProtect 1 0) = true
  · rw [if_pos hall, if_neg (not_not_intro rfl)]
    exact protectBanks_none hsaved (allAbove_clip hwell hascending)
  · rw [if_neg hall, if_pos Nat.one_ne_zero]

end

/-! ## The rounded range -/

theorem exists_sector_of_roundb {addr : BitVec 32}
    (h : flashSectRoundb banks addr = some addrLast) :
    ∃ info ∈ banks, ∃ j < info.sectorCount, addrLast = sectorEndAddr info j ∧
      info.start j ≤ addrLast := by
  obtain ⟨info, hinfo, hsectors⟩ := List.exists_of_findSome?_eq_some h
  obtain ⟨j, hj, hfound⟩ := List.exists_of_findSome?_eq_some hsectors
  refine ⟨info, hinfo, j, List.mem_range.mp hj, ?_⟩
  split at hfound
  · next hin =>
    have hlast : addrLast = sectorEndAddr info j := by
      rw [← Option.some.inj hfound]
      split_ifs with hlt
      · rfl
      · exact BitVec.le_antisymm hin.1 (BitVec.not_lt.mp hlt)
    refine ⟨hlast, ?_⟩
    rw [hlast]
    exact BitVec.le_trans hin.2 hin.1
  · exact absurd hfound (by simp)

theorem toNat_sectorEndAddr (h : info.WellFormed) {i : ℕ} (hi : i < info.sectorCount) :
    (sectorEndAddr info i).toNat + 1 = info.sectorTop i := by
  have hlt := h.start_lt_top
  rw [sectorEndAddr, FlashInfo.sectorTop]
  split_ifs with hlast
  · have hend := Flash.toNat_bEnd h
    rw [FlashInfo.bEnd] at hend
    omega
  · have hstep := h.increasing i (by omega)
    bv_omega

theorem sectorTop_le_of_roundb (hwell : ∀ c ∈ info :: banks, 0 < c.sectorCount → c.WellFormed)
    (hascending : ∀ c ∈ banks, 0 < c.sectorCount → 0 < info.sectorCount ∧
      info.top ≤ (c.start 0).toNat) {addr : BitVec 32}
    (h : flashSectRoundb (info :: banks) addr = some addrLast) {i : ℕ} (hi : i < info.sectorCount)
    (hle : info.start i ≤ addrLast) : info.sectorTop i ≤ addrLast.toNat + 1 := by
  have hinfo := hwell info List.mem_cons_self (by omega)
  obtain ⟨c, hc, j, hj, hlast, hstart⟩ := exists_sector_of_roundb h
  have hcwell := hwell c hc (by omega)
  have hend := toNat_sectorEndAddr hcwell hj
  rw [← hlast] at hend
  rw [BitVec.le_def] at hle hstart
  rcases List.mem_cons.mp hc with rfl | hc
  · rcases Nat.lt_trichotomy i j with hlt | rfl | hlt
    · have hbefore := Flash.sectorTop_le_start hcwell hlt hj
      omega
    · omega
    · have hbehind := Flash.sectorTop_le_start hcwell hlt hi
      omega
  · have habove := (hascending c hc (by omega)).2
    have hlow := hcwell.start_le (Nat.zero_le j) hj
    have htop := hinfo.sectorTop_le hi
    omega

/-! ## Updates -/

/-- The protected sectors of the first bank that start in the range. -/
def protectedInRange (banks : List FlashInfo) (flags : Flags) (addrFirst addrLast : BitVec 32) :
    List ℕ :=
  match banks with
  | [] => []
  | info :: _ => protectedSectors flags 0 info addrFirst addrLast (List.range info.sectorCount)

/-- What an update leaves, from given flags and with anything in `saved_prot_info`. -/
def afterUpdate (env : UpdateEnv) (banks : List FlashInfo) (data : List UInt8)
    (addrFirst : BitVec 32) (flags saved : Flags) : Prot :=
  (updateFlash (flagOps env banks) data addrFirst ⟨⟨flags, []⟩, saved⟩).1.prot

variable {data : List UInt8} {flags saved : Flags}

theorem flags_of_mem_protectedInRange {i : ℕ}
    (hi : i ∈ protectedInRange banks flags addrFirst addrLast) : flags 0 i = 1 := by
  cases banks with
  | nil => exact absurd hi List.not_mem_nil
  | cons info banks => exact (of_decide_eq_true (List.mem_filter.mp hi).2).2

theorem afterUpdate_of_refused
    (h : ∀ addrLast, flashSectRoundb banks (addrFirst + BitVec.ofNat 32 data.length - 1) =
      some addrLast → addrFirst < addrLast → env.calloc = false) :
    afterUpdate env banks data addrFirst flags saved = ⟨flags, []⟩ := by
  rw [afterUpdate, updateFlash, flagOps]
  dsimp only
  cases hround : flashSectRoundb banks (addrFirst + BitVec.ofNat 32 data.length - 1) with
  | none => rfl
  | some addrLast =>
    dsimp only
    by_cases hle : addrLast ≤ addrFirst
    · rw [if_pos hle]
    · rw [if_neg hle, updateFlashProtect, if_pos rfl, if_pos (h _ hround (BitVec.not_le.mp hle))]
      dsimp only
      rw [if_pos Nat.one_pos]

theorem sectorCount_pos_of_roundb {addr : BitVec 32}
    (hascending : ∀ c ∈ banks,
      0 < c.sectorCount → 0 < info.sectorCount ∧ info.top ≤ (c.start 0).toNat)
    (hround : flashSectRoundb (info :: banks) addr = some addrLast) : 0 < info.sectorCount := by
  obtain ⟨c, hc, j, hj, -⟩ := exists_sector_of_roundb hround
  rcases List.mem_cons.mp hc with rfl | hc
  · omega
  · exact (hascending c hc (by omega)).1

theorem filter_savedFlags {prot : Prot} :
    (List.range info.sectorCount).filter (fun i =>
        savedFlags ⟨prot, fun _ _ => 0⟩ 0 info addrFirst addrLast
          (List.range info.sectorCount) 0 i = 1) =
      protectedSectors prot.flags 0 info addrFirst addrLast (List.range info.sectorCount) := by
  refine List.filter_congr fun i hi => decide_eq_decide.mpr ?_
  rw [savedFlags]
  by_cases hin : InRange info addrFirst addrLast i
  · rw [if_pos ⟨rfl, hi, hin⟩]
    exact (and_iff_right hin).symm
  · rw [if_neg fun h => hin h.2.2]
    exact ⟨fun h => absurd h (show (0 : UInt8) ≠ 1 by decide), fun h => absurd h.1 hin⟩

theorem afterUpdate_of_range (layout : AscendingBanks)
    (hround : flashSectRoundb layout.banks (addrFirst + BitVec.ofNat 32 data.length - 1) =
      some addrLast) (hlt : addrFirst < addrLast) (hcalloc : env.calloc = true) {l : List ℕ}
    (hl : l = protectedInRange layout.banks flags addrFirst addrLast) :
    afterUpdate env layout.banks data addrFirst flags saved =
      if l.all (env.realProtect 0 0) ∧ env.sectErase = 0 ∧ env.write = 0 then
        assign 1 0 (assign 0 0 ⟨flags, []⟩ l) (l.takeWhile (env.realProtect 1 0))
      else assign 0 0 ⟨flags, []⟩ (l.takeWhile (env.realProtect 0 0)) := by
  have hwell := layout.wellFormed
  have hascending := layout.ascending
  generalize layout.banks = banks at *
  rw [afterUpdate, updateFlash, flagOps]
  dsimp only
  rw [hround]
  dsimp only
  rw [if_neg (BitVec.not_le.mpr hlt)]
  cases banks with
  | nil => exact absurd hround (by simp [flashSectRoundb])
  | cons info banks =>
    have hascending' := (List.pairwise_cons.mp hascending).1
    have hpos := sectorCount_pos_of_roundb hascending' hround
    obtain ⟨kept, hzero, hkept⟩ := updateFlashProtect_zero (s := ⟨⟨flags, []⟩, saved⟩) hwell
      hascending' hpos hcalloc hl
    rw [hzero]
    dsimp only
    by_cases hall : l.all (env.realProtect 0 0) = true
    · have htake : l.takeWhile (env.realProtect 0 0) = l :=
        List.takeWhile_eq_self_iff.mpr (List.all_eq_true.mp hall)
      have hsaved := hkept hall
      have hfilter : (List.range info.sectorCount).filter (fun i => kept 0 i = 1) = l := by
        rw [hl, hsaved]
        exact filter_savedFlags
      rw [if_pos hall, if_neg (Nat.lt_irrefl 0), htake]
      by_cases herase : env.sectErase = 0
      · rw [if_neg (by omega)]
        by_cases hwrite : env.write = 0
        · rw [if_neg (by omega), updateFlashProtect_one hwell hascending' hpos]
          · dsimp only
            rw [hfilter, if_pos ⟨hall, herase, hwrite⟩]
          · intro b hb i
            dsimp only
            rw [hsaved, savedFlags, if_neg fun h => by omega]
            exact show (0 : UInt8) ≠ 1 by decide
        · rw [if_pos (by omega), if_neg fun h => hwrite h.2.2]
      · rw [if_pos (by omega), if_neg fun h => herase h.2.1]
    · rw [if_neg hall, if_pos Nat.one_pos, if_neg fun h => hall h.1]

/-! ## What is preserved -/

/-- What an update keeps: when it returns, every flag is what it was; and at any time, a flag that
is not is that of a sector inside the rounded range. -/
structure Preserves (env : UpdateEnv) (banks : List FlashInfo) (data : List UInt8)
    (addrFirst : BitVec 32) (flags saved : Flags) : Prop where
  restored : (afterUpdate env banks data addrFirst flags saved).flags = flags
  inside : ∀ f ∈ (afterUpdate env banks data addrFirst flags saved).flags ::
      (afterUpdate env banks data addrFirst flags saved).past,
    ∀ b j, f b j ≠ flags b j → ∃ addrLast info,
      flashSectRoundb banks (addrFirst + BitVec.ofNat 32 data.length - 1) = some addrLast ∧
        banks[b]? = some info ∧ j < info.sectorCount ∧ addrFirst ≤ info.start j ∧
        info.sectorTop j ≤ addrLast.toNat + 1

/-- The first protected sector that is found cannot be unprotected, or there is none; or nothing
fails. -/
def Succeeds (env : UpdateEnv) (l : List ℕ) : Prop :=
  (∀ i ∈ l.head?, env.realProtect 0 0 i = false) ∨
    (∀ i ∈ l, env.realProtect 0 0 i = true ∧ env.realProtect 1 0 i = true) ∧
      env.sectErase = 0 ∧ env.write = 0

theorem assign_zero_eq_iff {l l' : List ℕ} (hflags : ∀ i ∈ l, flags 0 i = 1) (hsub : l' ⊆ l) :
    (assign 0 0 ⟨flags, []⟩ l').flags = flags ↔ l' = [] := by
  refine ⟨fun h => List.eq_nil_iff_forall_not_mem.mpr fun i hi => ?_, fun h => by rw [h]; rfl⟩
  have hi' := congrFun (congrFun h 0) i
  rw [assign_flags, if_pos ⟨rfl, hi⟩, hflags i (hsub hi)] at hi'
  exact absurd hi' (by decide)

theorem assign_one_eq_iff {l : List ℕ} (hflags : ∀ i ∈ l, flags 0 i = 1) (p : ℕ → Bool) :
    (assign 1 0 (assign 0 0 ⟨flags, []⟩ l) (l.takeWhile p)).flags = flags ↔
      ∀ i ∈ l, p i = true := by
  refine ⟨fun h i hi => ?_, fun hall => ?_⟩
  · have hi' := congrFun (congrFun h 0) i
    by_contra hnot
    rw [assign_flags, if_neg fun h => hnot (List.mem_takeWhile_imp h.2), assign_flags,
      if_pos ⟨rfl, hi⟩, hflags i hi] at hi'
    exact absurd hi' (by decide)
  · rw [List.takeWhile_eq_self_iff.mpr hall]
    funext b j
    rw [assign_flags]
    by_cases hmem : b = 0 ∧ j ∈ l
    · rw [if_pos hmem, hmem.1, hflags j hmem.2]
      rfl
    · rw [if_neg hmem, assign_flags, if_neg hmem]

theorem takeWhile_eq_nil_iff_head? {l : List ℕ} {p : ℕ → Bool} :
    l.takeWhile p = [] ↔ ∀ i ∈ l.head?, p i = false := by
  cases l with
  | nil => exact ⟨fun _ _ h => absurd h (by simp), fun _ => rfl⟩
  | cons i l =>
    rw [List.takeWhile_cons]
    cases hp : p i with
    | true => simp [hp]
    | false => simp [hp]

theorem afterUpdate_past (layout : AscendingBanks)
    (hround : flashSectRoundb layout.banks (addrFirst + BitVec.ofNat 32 data.length - 1) =
      some addrLast) (hlt : addrFirst < addrLast) (hcalloc : env.calloc = true) {f : Flags}
    (hf : f ∈ (afterUpdate env layout.banks data addrFirst flags saved).flags ::
      (afterUpdate env layout.banks data addrFirst flags saved).past) {b j : ℕ}
    (hne : f b j ≠ flags b j) :
    b = 0 ∧ j ∈ protectedInRange layout.banks flags addrFirst addrLast := by
  rw [afterUpdate_of_range layout hround hlt hcalloc rfl] at hf
  generalize protectedInRange layout.banks flags addrFirst addrLast = l at hf ⊢
  by_contra hnot
  have hkeep : ∀ {q : ℕ} {s : Prot} {l' : List ℕ}, l' ⊆ l →
      (∀ g ∈ s.flags :: s.past, g b j = flags b j) →
      ∀ g ∈ (assign q 0 s l').flags :: (assign q 0 s l').past, g b j = flags b j := by
    intro q s l' hsub hs g hg
    have hnot' : ¬(b = 0 ∧ j ∈ l') := fun h => hnot ⟨h.1, hsub h.2⟩
    rcases List.mem_cons.mp hg with rfl | hpast
    · rw [assign_flags, if_neg hnot']
      exact hs _ List.mem_cons_self
    · rcases assign_past hpast with hold | hnew
      · exact hs g (List.mem_cons_of_mem _ hold)
      · rw [hnew b j hnot']
        exact hs _ List.mem_cons_self
  have hfirst : ∀ g ∈ flags :: ([] : List Flags), g b j = flags b j := fun g hg => by
    rw [List.mem_singleton.mp hg]
  split_ifs at hf
  · exact hne (hkeep (List.takeWhile_sublist _).subset (hkeep (fun _ h => h) hfirst) f hf)
  · exact hne (hkeep (List.takeWhile_sublist _).subset hfirst f hf)

theorem inside_of_mem_protectedInRange (layout : AscendingBanks) {addr : BitVec 32}
    (hround : flashSectRoundb layout.banks addr = some addrLast) {j : ℕ}
    (hj : j ∈ protectedInRange layout.banks flags addrFirst addrLast) :
    ∃ info, layout.banks[0]? = some info ∧ j < info.sectorCount ∧ addrFirst ≤ info.start j ∧
      info.sectorTop j ≤ addrLast.toNat + 1 := by
  have hwell := layout.wellFormed
  have hascending := layout.ascending
  generalize layout.banks = banks at *
  cases banks with
  | nil => exact absurd hj List.not_mem_nil
  | cons info banks =>
    obtain ⟨hrange, hin⟩ := List.mem_filter.mp hj
    have hcount := List.mem_range.mp hrange
    obtain ⟨hfirst, hlast⟩ := (of_decide_eq_true hin).1
    exact ⟨info, rfl, hcount, hfirst,
      sectorTop_le_of_roundb hwell (List.pairwise_cons.mp hascending).1 hround hcount hlast⟩

/-- **When an update leaves the protection as it was.** -/
theorem preserves_iff (layout : AscendingBanks) (env : UpdateEnv) (data : List UInt8)
    (addrFirst : BitVec 32) (flags saved : Flags) :
    Preserves env layout.banks data addrFirst flags saved ↔
      ∀ addrLast, flashSectRoundb layout.banks (addrFirst + BitVec.ofNat 32 data.length - 1) =
          some addrLast → addrFirst < addrLast → env.calloc = true →
        Succeeds env (protectedInRange layout.banks flags addrFirst addrLast) := by
  by_cases hrange : ∃ addrLast, flashSectRoundb layout.banks
      (addrFirst + BitVec.ofNat 32 data.length - 1) = some addrLast ∧ addrFirst < addrLast ∧
        env.calloc = true
  · obtain ⟨addrLast, hround, hlt, hcalloc⟩ := hrange
    have hflags : ∀ i ∈ protectedInRange layout.banks flags addrFirst addrLast, flags 0 i = 1 :=
      fun i => flags_of_mem_protectedInRange
    have hrestored : (afterUpdate env layout.banks data addrFirst flags saved).flags = flags ↔
        Succeeds env (protectedInRange layout.banks flags addrFirst addrLast) := by
      rw [afterUpdate_of_range layout hround hlt hcalloc rfl, Succeeds]
      generalize protectedInRange layout.banks flags addrFirst addrLast = l at hflags ⊢
      split_ifs with hgo
      · have hall : ∀ i ∈ l, env.realProtect 0 0 i = true := List.all_eq_true.mp hgo.1
        rw [assign_one_eq_iff hflags]
        refine ⟨fun h => .inr ⟨fun i hi => ⟨hall i hi, h i hi⟩, hgo.2⟩, ?_⟩
        rintro (hhead | h)
        · cases l with
          | nil => exact fun i hi => absurd hi List.not_mem_nil
          | cons i l =>
            have hfails := hhead i rfl
            rw [hall i List.mem_cons_self] at hfails
            exact absurd hfails Bool.true_eq_false.mp
        · exact fun i hi => (h.1 i hi).2
      · rw [assign_zero_eq_iff hflags (List.takeWhile_sublist _).subset, takeWhile_eq_nil_iff_head?]
        refine ⟨.inl, fun h => h.resolve_right fun hall => hgo ⟨?_, hall.2⟩⟩
        exact List.all_eq_true.mpr fun i hi => (hall.1 i hi).1
    refine ⟨fun h last hlast _ _ => ?_,
      fun h => ⟨hrestored.mpr (h addrLast hround hlt hcalloc), ?_⟩⟩
    · rw [hround] at hlast
      rw [← Option.some.inj hlast]
      exact hrestored.mp h.restored
    · intro f hf b j hne
      obtain ⟨rfl, hj⟩ := afterUpdate_past layout hround hlt hcalloc hf hne
      obtain ⟨info, hinfo, hin⟩ := inside_of_mem_protectedInRange layout hround hj
      exact ⟨addrLast, info, hround, hinfo, hin⟩
  · have hrefused : afterUpdate env layout.banks data addrFirst flags saved = ⟨flags, []⟩ :=
      afterUpdate_of_refused fun addrLast hround hlt => by
        by_contra hcalloc
        exact hrange ⟨addrLast, hround, hlt, Bool.not_eq_false _ ▸ hcalloc⟩
    refine ⟨fun _ last hlast hlt hcalloc => absurd ⟨last, hlast, hlt, hcalloc⟩ hrange, fun _ => ?_⟩
    constructor
    · rw [hrefused]
    · intro f hf b j hne
      rw [hrefused] at hf
      rw [List.mem_singleton.mp hf] at hne
      exact absurd rfl hne

/-- A bank of two sectors. -/
def twoSectors : FlashInfo :=
  ⟨0x20000, 2, 1, fun i => BitVec.ofNat 32 (0x10000 * i), fun i => if i = 0 then 1 else 0⟩

/-- The first sector is protected, and erasing fails: it stays unprotected. -/
theorem not_preserves :
    ¬Preserves ⟨true, fun _ _ _ => true, 1, 0⟩ [twoSectors] [0] 0 (fun _ => twoSectors.protect)
      fun _ _ => 0 := by
  intro h
  have hflag := congrFun (congrFun h.restored 0) 0
  exact absurd hflag (by decide)

end Fit
end EmevBsp
