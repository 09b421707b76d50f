import EmevBsp.Flash.FlashWrite

/-!
# `common/flash.c`: when `flash_write` is safe

A call is safe when, if it succeeds, every byte of the range was written once, in the bank that
`write_buff` was called for, and none of them lies in a protected sector; and if it fails, either
nothing was written or a call of `write_buff` failed.
-/

namespace EmevBsp
namespace Flash

/-- None of the bytes written lies in a protected sector. -/
def Unprotected (banks : List FlashInfo) (calls : List WriteCall) : Prop :=
  ∀ c ∈ calls, ∀ x, c.Covers x → ∀ info ∈ banks, info.Known → ∀ i < info.sectorCount,
    info.protect i ≠ 0 → ¬info.InSector i x

/-- What a call of `flash_write` must do, by its log and what it returned. -/
structure SafeWrite (banks : List FlashInfo) (addr cnt : BitVec 32) (calls : List WriteCall)
    (status : ℕ) : Prop where
  writes : status = errOk → WritesOnce calls addr cnt
  unprotected : status = errOk → Unprotected banks calls
  nothing : status ≠ errOk → calls = [] ∨ ∃ c ∈ calls, c.status = status

/-- The banks that `flash_write` goes through. -/
def writeRange (banks : List FlashInfo) (first last : ℕ) : List FlashInfo :=
  (banks.drop first).take (last + 1 - first)

/-- A bank at the top of the address space has a protected last sector, and the range reaches it. -/
def FlashInfo.ProtectedTop (info : FlashInfo) (last : BitVec 32) : Prop :=
  info.Known ∧ info.start 0 + info.size = 0 ∧ info.protect (info.sectorCount - 1) ≠ 0 ∧
    info.start (info.sectorCount - 1) ≤ last

/-! ## The two loops -/

section Call

variable {σ : Type} {writeBuff : FlashInfo → (ℕ → UInt8) → BitVec 32 → BitVec 32 → σ → σ × ℕ}
  {banks : List FlashInfo} {src : ℕ → UInt8} {addr cnt : BitVec 32} {s : σ} {first last : ℕ}

theorem flashWrite_inval (hcnt : cnt ≠ 0)
    (h : addr2info banks addr = none ∨ addr2info banks (addr + cnt - 1) = none) :
    flashWrite writeBuff banks src addr cnt s = (s, errInval) := by
  rw [flashWrite, if_neg hcnt]
  rcases h with h | h
  · rw [h]
  · rw [h]
    cases addr2info banks addr <;> rfl

theorem flashWrite_eq (hcnt : cnt ≠ 0) (hfirst : addr2info banks addr = some first)
    (hlast : addr2info banks (addr + cnt - 1) = some last) :
    flashWrite writeBuff banks src addr cnt s =
      if (writeRange banks first last).any fun info => info.hitsProtected addr (addr + cnt - 1) then
        (s, errProtected)
      else flashWriteBanks writeBuff (writeRange banks first last) src addr cnt s := by
  rw [flashWrite, if_neg hcnt, hfirst, hlast]
  rfl

end Call

theorem safeWrite_of_error {banks : List FlashInfo} {addr cnt : BitVec 32} {status : ℕ}
    (h : status ≠ errOk) : SafeWrite banks addr cnt [] status :=
  ⟨fun hok => absurd hok h, fun hok => absurd hok h, fun _ => .inl rfl⟩

theorem forall_safeWrite_iff {banks : List FlashInfo} {addr cnt : BitVec 32} {first last : ℕ}
    (hcnt : cnt ≠ 0) (hfirst : addr2info banks addr = some first)
    (hlast : addr2info banks (addr + cnt - 1) = some last)
    (hhits : ((writeRange banks first last).any fun info =>
      info.hitsProtected addr (addr + cnt - 1)) = false) :
    (∀ (σ : Type) (writeBuff : FlashInfo → (ℕ → UInt8) → BitVec 32 → BitVec 32 → σ → σ × ℕ)
      (src : ℕ → UInt8) (s : σ),
      SafeWrite banks addr cnt (flashWrite (logged writeBuff) banks src addr cnt (s, [])).1.2
        (flashWrite (logged writeBuff) banks src addr cnt (s, [])).2) ↔
      WritesOnce (bankCalls (writeRange banks first last) addr cnt) addr cnt ∧
        Unprotected banks (bankCalls (writeRange banks first last) addr cnt) := by
  have hno : ¬((writeRange banks first last).any fun info =>
      info.hitsProtected addr (addr + cnt - 1)) = true := by
    rw [hhits]
    exact Bool.false_ne_true
  constructor
  · intro hsafe
    have hunit := hsafe Unit (fun _ _ _ _ s => (s, errOk)) (fun _ => 0) ()
    rw [flashWrite_eq hcnt hfirst hlast, if_neg hno] at hunit
    have hok := flashWriteBanks_ok (logged fun _ _ _ _ (s : Unit) => (s, errOk))
      (fun _ _ _ _ _ => rfl) (writeRange banks first last) (fun _ => 0) addr cnt ((), [])
    have hlog := flashWriteBanks_log _ hok
    rw [hlog, List.nil_append] at hunit
    exact ⟨hunit.writes hok, hunit.unprotected hok⟩
  · intro ⟨hwrites, hunprotected⟩ σ writeBuff src s
    rw [flashWrite_eq hcnt hfirst hlast, if_neg hno]
    refine ⟨fun hok => ?_, fun hok => ?_, fun herror => .inr (flashWriteBanks_error writeBuff herror)⟩
    · rwa [flashWriteBanks_log writeBuff hok]
    · rwa [flashWriteBanks_log writeBuff hok]

/-! ## The banks between the first and the last -/

variable {layout : FlashLayout} {addr cnt : BitVec 32} {first last : ℕ}

theorem addr2info_eq_some (h : addr2info layout.banks addr = some first) :
    ∃ hlt : first < layout.banks.length, layout.banks[first].Holds addr.toNat ∧
      ∀ i (hi : i < first), ¬layout.banks[i].Holds addr.toNat := by
  obtain ⟨hlt, hholds, hbefore⟩ := List.findIdx?_eq_some_iff_getElem.mp h
  have hwf (i : ℕ) (hi : i < layout.banks.length) :
      layout.banks[i].Known → layout.banks[i].WellFormed :=
    layout.wellFormed _ (List.getElem_mem hi)
  refine ⟨hlt, (contains_iff (hwf first hlt) addr).mp hholds, fun i hi hin => ?_⟩
  exact hbefore i hi ((contains_iff (hwf i (Nat.lt_trans hi hlt)) addr).mpr hin)

theorem mem_of_mem_writeRange {banks : List FlashInfo} {info : FlashInfo}
    (h : info ∈ writeRange banks first last) : info ∈ banks :=
  List.mem_of_mem_drop (List.mem_of_mem_take h)

theorem writeRange_head {banks : List FlashInfo} (hle : first ≤ last) (hlt : first < banks.length) :
    (writeRange banks first last).head? = some banks[first] := by
  have hsucc : last + 1 - first = (last - first) + 1 := by omega
  rw [writeRange, hsucc, List.drop_eq_getElem_cons hlt, List.take_succ_cons]
  rfl

theorem writeRange_concat {banks : List FlashInfo} (hle : first ≤ last)
    (hlt : last < banks.length) :
    writeRange banks first last = (banks.drop first).take (last - first) ++ [banks[last]] := by
  have hsucc : last + 1 - first = (last - first) + 1 := by omega
  have hin : last - first < (banks.drop first).length := by
    rw [List.length_drop]
    omega
  have hget : (banks.drop first)[last - first] = banks[last] := by
    rw [List.getElem_drop]
    congr 1
    omega
  rw [writeRange, hsucc, List.take_succ_eq_append_getElem hin, hget]

theorem FlashLayout.eq_of_holds (layout : FlashLayout) {b c : FlashInfo} (hb : b ∈ layout.banks)
    (hc : c ∈ layout.banks) {x : ℕ} (hbx : b.Holds x) (hcx : c.Holds x) : b = c := by
  obtain ⟨i, hi, rfl⟩ := List.getElem_of_mem hb
  obtain ⟨j, hj, rfl⟩ := List.getElem_of_mem hc
  have hdisjoint := List.pairwise_iff_getElem.mp layout.disjoint
  rcases Nat.lt_trichotomy i j with hij | rfl | hij
  · exact absurd hcx (hdisjoint i j hi hj hij x hbx)
  · rfl
  · exact absurd hbx (hdisjoint j i hj hi hij x hcx)

theorem toNat_last (hcnt : cnt ≠ 0) (hwrap : addr.toNat + cnt.toNat ≤ 2 ^ 32) :
    (addr + cnt - 1).toNat = addr.toNat + cnt.toNat - 1 := by
  have hpos : 0 < cnt.toNat := Nat.pos_of_ne_zero fun h => hcnt (BitVec.eq_of_toNat_eq h)
  have hone : (1 : BitVec 32).toNat = 1 := rfl
  rw [BitVec.toNat_sub, BitVec.toNat_add, hone]
  omega

theorem exists_call {calls : List WriteCall} (h : WritesOnce calls addr cnt) {x : ℕ}
    (hx : InRange addr cnt x) : ∃ c ∈ calls, c.Covers x := by
  have honce := h.once x
  rw [if_pos hx, timesWritten] at honce
  obtain ⟨c, hc, hcovers⟩ := List.countP_pos_iff.mp (honce ▸ Nat.one_pos)
  exact ⟨c, hc, of_decide_eq_true hcovers⟩

theorem mem_of_mem_bankCalls {banks : List FlashInfo} {c : WriteCall}
    (h : c ∈ bankCalls banks addr cnt) : c.info ∈ banks := by
  induction banks generalizing addr cnt with
  | nil => exact absurd h List.not_mem_nil
  | cons info banks ih =>
    by_cases hcnt : cnt = 0
    · rw [bankCalls, if_pos hcnt] at h
      exact absurd h List.not_mem_nil
    · rw [bankCalls_cons hcnt] at h
      rcases List.mem_cons.mp h with rfl | h
      · exact List.mem_cons_self
      · exact List.mem_cons_of_mem info (ih h)

/-! ## The condition -/

section Condition

variable (hcnt : cnt ≠ 0) (hfirst : addr2info layout.banks addr = some first)
  (hlast : addr2info layout.banks (addr + cnt - 1) = some last)

include hcnt hfirst hlast

/-- **Each byte is written once, in its bank**, exactly when the range does not run over the top
and the banks from the first to the last lie end to end in the list. -/
theorem writesOnce_iff :
    WritesOnce (bankCalls (writeRange layout.banks first last) addr cnt) addr cnt ↔
      addr.toNat + cnt.toNat ≤ 2 ^ 32 ∧ first ≤ last ∧
        (writeRange layout.banks first last).IsChain FlashInfo.Follows := by
  obtain ⟨hfirstLt, hholdsFirst, -⟩ := addr2info_eq_some hfirst
  obtain ⟨hlastLt, hholdsLast, hbeforeLast⟩ := addr2info_eq_some hlast
  have hwf : ∀ info ∈ writeRange layout.banks first last, info.Known → info.WellFormed :=
    fun info hinfo => layout.wellFormed info (mem_of_mem_writeRange hinfo)
  have hhead (hle : first ≤ last) : ∀ info ∈ (writeRange layout.banks first last).head?,
      info = layout.banks[first] := by
    intro info hinfo
    rw [writeRange_head hle hfirstLt] at hinfo
    exact (Option.some.inj hinfo).symm
  have haccepts : layout.banks[first].Accepts addr :=
    ⟨fun _ => hholdsFirst, fun hmissing => absurd hholdsFirst.1 hmissing⟩
  constructor
  · intro hwrites
    have hwrap : addr.toNat + cnt.toNat ≤ 2 ^ 32 := by
      by_contra hover
      have haddr : addr.toNat < 2 ^ 32 := addr.isLt
      obtain ⟨c, hc, hcovers⟩ := exists_call hwrites (x := 2 ^ 32) ⟨by omega, by omega⟩
      have hholds := hwrites.inside c hc _ hcovers
      have htop := (hwf _ (mem_of_mem_bankCalls hc) hholds.1).top_le
      exact absurd hholds.2.2 (Nat.not_lt.mpr htop)
    have hle : first ≤ last := by
      by_contra hgt
      have hnil : writeRange layout.banks first last = [] := by
        rw [writeRange, show last + 1 - first = 0 by omega, List.take_zero]
      have hpos : 0 < cnt.toNat := Nat.pos_of_ne_zero fun h => hcnt (BitVec.eq_of_toNat_eq h)
      obtain ⟨c, hc, -⟩ := exists_call hwrites (x := addr.toNat) ⟨Nat.le_refl _, by omega⟩
      rw [hnil] at hc
      exact absurd hc List.not_mem_nil
    refine ⟨hwrap, hle, isChain_of_inside hwf ?_ hcnt hwrap ?_ ?_ ?_ hwrites.inside⟩
    · exact (layout.disjoint.sublist (List.drop_sublist _ _)).sublist (List.take_sublist _ _)
    · intro info hinfo
      rw [hhead hle info hinfo]
      exact haccepts
    · intro info hinfo hmissing
      rw [hhead hle info hinfo] at hmissing
      exact absurd hholdsFirst.1 hmissing
    · intro b hb
      rw [writeRange_concat hle hlastLt, List.dropLast_concat] at hb
      obtain ⟨i, hi, rfl⟩ := List.getElem_of_mem hb
      rw [List.getElem_take, List.getElem_drop, ← toNat_last hcnt hwrap]
      rw [List.length_take] at hi
      exact hbeforeLast _ (by omega)
  · rintro ⟨hwrap, hle, hchain⟩
    refine bankCalls_once hwf hchain hcnt hwrap (fun info hinfo => ?_) ⟨layout.banks[last], ?_, ?_⟩
    · rw [hhead hle info hinfo]
      exact haccepts
    · rw [writeRange_concat hle hlastLt, List.getLast?_concat]
      rfl
    · rwa [← toNat_last hcnt hwrap]

omit hfirst hlast in
theorem unprotected_iff
    (hwrites : WritesOnce (bankCalls (writeRange layout.banks first last) addr cnt) addr cnt)
    (hwrap : addr.toNat + cnt.toNat ≤ 2 ^ 32)
    (hhits : ∀ info ∈ writeRange layout.banks first last,
      info.hitsProtected addr (addr + cnt - 1) = false) :
    Unprotected layout.banks (bankCalls (writeRange layout.banks first last) addr cnt) ↔
      ∀ info ∈ layout.banks, ¬info.ProtectedTop (addr + cnt - 1) := by
  have hlastNat := toNat_last hcnt hwrap
  have hpos : 0 < cnt.toNat := Nat.pos_of_ne_zero fun h => hcnt (BitVec.eq_of_toNat_eq h)
  constructor
  · -- the last byte of the range lies in the sector
    rintro hunprotected info hinfo ⟨hknown, hend, hprotect, hreach⟩
    have hwf := layout.wellFormed info hinfo hknown
    have htop := toNat_start_add_size hwf
    have hnonempty := hwf.start_lt_top
    have hsectors := hwf.sectors
    have hsectorTop : info.sectorTop (info.sectorCount - 1) = info.top :=
      if_pos (Nat.sub_add_cancel hsectors)
    rw [hend] at htop
    have htop' : info.top = 2 ^ 32 := by
      by_contra hne
      rw [if_neg hne] at htop
      have hz : (0 : BitVec 32).toNat = 0 := rfl
      omega
    obtain ⟨c, hc, hcovers⟩ := exists_call hwrites (x := addr.toNat + cnt.toNat - 1)
      ⟨by omega, by omega⟩
    refine hunprotected c hc _ hcovers info hinfo hknown (info.sectorCount - 1) (by omega) hprotect ?_
    refine ⟨?_, by omega⟩
    rw [← hlastNat]
    exact hreach
  · intro htop c hc x hcovers info hinfo hknown i hi hprotect hsector
    have hwf := layout.wellFormed info hinfo hknown
    have hrange : c.info ∈ writeRange layout.banks first last := mem_of_mem_bankCalls hc
    obtain rfl : c.info = info := layout.eq_of_holds (mem_of_mem_writeRange hrange) hinfo
      (hwrites.inside c hc x hcovers) (hwf.holds_of_inSector hknown hi hsector)
    have hx : InRange addr cnt x := by
      by_contra hout
      have honce := hwrites.once x
      rw [if_neg hout, timesWritten] at honce
      exact List.countP_eq_zero.mp honce c hc (decide_eq_true hcovers)
    have hstart : c.info.start i ≤ addr + cnt - 1 := by
      have hle := hsector.1
      have hlt := hx.2
      rw [BitVec.le_def, hlastNat]
      omega
    have hend := hitsProtected_eq_false (hhits c.info hrange) hi hprotect hstart
    have hsectorEnd := hsector.2
    have hfrom := hx.1
    rw [FlashInfo.sectorTop] at hsectorEnd
    by_cases hlastSector : i + 1 = c.info.sectorCount
    · -- the end of the sector is computed as 0
      rw [if_pos hlastSector] at hend hsectorEnd
      have hsum := toNat_start_add_size hwf
      rw [BitVec.le_def, hsum] at hend
      have htopEq : c.info.top = 2 ^ 32 := by
        by_contra hne
        rw [if_neg hne] at hend
        omega
      rw [if_pos htopEq] at hsum
      have hi' : c.info.sectorCount - 1 = i := by omega
      refine htop c.info hinfo ⟨hknown, BitVec.eq_of_toNat_eq hsum, ?_, ?_⟩
      · rwa [hi']
      · rwa [hi']
    · rw [if_neg hlastSector] at hend hsectorEnd
      rw [BitVec.le_def] at hend
      omega

end Condition

/-- **When `flash_write` is safe**: the checks refuse the range, or the range does not run over the
top of the address space, the banks from that of its first byte to that of its last lie end to
end in the list, and no protected sector up to the top of the address space is reached. -/
theorem flashWrite_safe_iff (layout : FlashLayout) (addr cnt : BitVec 32) (hcnt : cnt ≠ 0) :
    (∀ (σ : Type) (writeBuff : FlashInfo → (ℕ → UInt8) → BitVec 32 → BitVec 32 → σ → σ × ℕ)
      (src : ℕ → UInt8) (s : σ),
      SafeWrite layout.banks addr cnt
        (flashWrite (logged writeBuff) layout.banks src addr cnt (s, [])).1.2
        (flashWrite (logged writeBuff) layout.banks src addr cnt (s, [])).2) ↔
      ∀ first last, addr2info layout.banks addr = some first →
        addr2info layout.banks (addr + cnt - 1) = some last →
        (∃ info ∈ writeRange layout.banks first last,
          info.hitsProtected addr (addr + cnt - 1) = true) ∨
        ((addr.toNat + cnt.toNat ≤ 2 ^ 32 ∧ first ≤ last ∧
          (writeRange layout.banks first last).IsChain FlashInfo.Follows) ∧
          ∀ info ∈ layout.banks, ¬info.ProtectedTop (addr + cnt - 1)) := by
  constructor
  · intro hsafe first last hfirst hlast
    by_cases hhits : ((writeRange layout.banks first last).any fun info =>
        info.hitsProtected addr (addr + cnt - 1)) = true
    · exact .inl (List.any_eq_true.mp hhits)
    rw [Bool.not_eq_true] at hhits
    obtain ⟨hwrites, hunprotected⟩ := (forall_safeWrite_iff hcnt hfirst hlast hhits).mp hsafe
    have hlies := (writesOnce_iff hcnt hfirst hlast).mp hwrites
    have hnone : ∀ info ∈ writeRange layout.banks first last,
        info.hitsProtected addr (addr + cnt - 1) = false := fun info hinfo =>
      Bool.not_eq_true _ ▸ List.any_eq_false.mp hhits info hinfo
    exact .inr ⟨hlies, (unprotected_iff hcnt hwrites hlies.1 hnone).mp hunprotected⟩
  · intro hcond σ writeBuff src s
    cases hfirst : addr2info layout.banks addr with
    | none =>
      rw [flashWrite_inval hcnt (.inl hfirst)]
      exact safeWrite_of_error (show errInval ≠ errOk by decide)
    | some first =>
      cases hlast : addr2info layout.banks (addr + cnt - 1) with
      | none =>
        rw [flashWrite_inval hcnt (.inr hlast)]
        exact safeWrite_of_error (show errInval ≠ errOk by decide)
      | some last =>
        by_cases hhits : ((writeRange layout.banks first last).any fun info =>
            info.hitsProtected addr (addr + cnt - 1)) = true
        · rw [flashWrite_eq hcnt hfirst hlast, if_pos hhits]
          exact safeWrite_of_error (show errProtected ≠ errOk by decide)
        rw [Bool.not_eq_true] at hhits
        have hnone : ∀ info ∈ writeRange layout.banks first last,
            info.hitsProtected addr (addr + cnt - 1) = false := fun info hinfo =>
          Bool.not_eq_true _ ▸ List.any_eq_false.mp hhits info hinfo
        rcases hcond first last hfirst hlast with ⟨info, hinfo, hhit⟩ | ⟨hlies, htop⟩
        · exact absurd ((hnone info hinfo).symm.trans hhit) Bool.false_ne_true
        · have hwrites := (writesOnce_iff hcnt hfirst hlast).mpr hlies
          exact (forall_safeWrite_iff hcnt hfirst hlast hhits).mpr
            ⟨hwrites, (unprotected_iff hcnt hwrites hlies.1 hnone).mpr htop⟩ σ writeBuff src s

/-- A bank of two sectors at the top of the address space; the last one is protected. -/
def topBank : FlashInfo :=
  ⟨0x20000, 2, 1, fun i => if i = 0 then 0xfffe0000 else 0xffff0000,
    fun i => if i = 0 then 0 else 1⟩

/-- The layout of this bank alone. -/
def topLayout : FlashLayout where
  banks := [topBank]
  wellFormed := by
    intro info hinfo _
    obtain rfl := List.mem_singleton.mp hinfo
    refine ⟨by decide, by decide, fun i hi => ?_, by decide⟩
    have hzero : i = 0 := Nat.le_zero.mp (Nat.le_of_lt_succ (Nat.lt_of_succ_lt_succ hi))
    rw [hzero]
    decide
  disjoint := List.pairwise_singleton _ _

/-- Four bytes for the sector that is not protected. -/
theorem flashWrite_safe_iff_four : (4 : BitVec 32) ≠ 0 ∧ ∀ (σ : Type)
    (writeBuff : FlashInfo → (ℕ → UInt8) → BitVec 32 → BitVec 32 → σ → σ × ℕ) (src : ℕ → UInt8)
    (s : σ), SafeWrite [topBank] 0xfffe0000 4
      (flashWrite (logged writeBuff) [topBank] src 0xfffe0000 4 (s, [])).1.2
      (flashWrite (logged writeBuff) [topBank] src 0xfffe0000 4 (s, [])).2 := by
  have hcnt : (4 : BitVec 32) ≠ 0 := by decide
  refine ⟨hcnt, (flashWrite_safe_iff topLayout 0xfffe0000 4 hcnt).mpr
    fun first last hfirst hlast => ?_⟩
  obtain rfl : 0 = first := Option.some.inj hfirst
  obtain rfl : 0 = last := Option.some.inj hlast
  refine .inr ⟨⟨by decide, Nat.le_refl 0, .singleton topBank⟩, fun info hinfo htop => ?_⟩
  obtain rfl := List.mem_singleton.mp hinfo
  exact absurd htop.2.2.2 (by decide)

/-- **The protected sector at the top is written.** -/
theorem not_flashWrite_safe : ¬∀ (layout : FlashLayout) (addr cnt : BitVec 32), cnt ≠ 0 →
    ∀ (σ : Type) (writeBuff : FlashInfo → (ℕ → UInt8) → BitVec 32 → BitVec 32 → σ → σ × ℕ)
      (src : ℕ → UInt8) (s : σ),
      SafeWrite layout.banks addr cnt
        (flashWrite (logged writeBuff) layout.banks src addr cnt (s, [])).1.2
        (flashWrite (logged writeBuff) layout.banks src addr cnt (s, [])).2 := by
  intro hall
  have hsafe := hall topLayout 0xffff0000 1 (by decide) Unit (fun _ _ _ _ s => (s, errOk))
    (fun _ => 0) ()
  have hstatus : (flashWrite (logged fun _ _ _ _ (s : Unit) => (s, errOk)) topLayout.banks
      (fun _ => 0) 0xffff0000 1 ((), [])).2 = errOk := by decide
  have hlog : (flashWrite (logged fun _ _ _ _ (s : Unit) => (s, errOk)) topLayout.banks
      (fun _ => 0) 0xffff0000 1 ((), [])).1.2 = [⟨topBank, 0xffff0000, 1, errOk⟩] := rfl
  have hunprotected := hsafe.unprotected hstatus
  rw [hlog] at hunprotected
  exact hunprotected _ (List.mem_singleton_self _) 0xffff0000 (by decide) topBank
    (List.mem_singleton_self _) (show topBank.flashId ≠ flashUnknown by decide) 1 (by decide)
    (by decide) ⟨by decide, by decide⟩

end Flash
end EmevBsp
