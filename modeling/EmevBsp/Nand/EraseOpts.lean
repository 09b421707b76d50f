import Mathlib.Algebra.Order.Ring.Nat
import Mathlib.Data.Int.Notation
import Mathlib.Data.List.Basic
import Mathlib.Tactic.Common

/-!
# `drivers/mtd/nand/nand_util.c`: `nand_erase_opts`

The range is erased block by block.  A bad block is passed over, unless all are to be scrubbed: then
the function that checks a block is replaced by one that finds all of them good, and put back at
the end.  A block is only marked for JFFS2 when its OOB layout has room for the cleanmarker.  One
that cannot be erased, or marked, is reported on the console and passed over as well, and what is
returned does not tell of it.

`nand_block_isbad`, `nand_block_checkbad` and `nand_erase` are those of
drivers/mtd/nand/nand_base.c, for one block.  What the chip answers in each round of the loop, and
what a scan for bad blocks leaves, are parameters.
-/

namespace EmevBsp
namespace NandErase

/-! ## The device -/

/-- `chip->block_bad`: the function of the driver, or `nand_block_bad_scrub`. -/
inductive BlockBad where
  | own
  | scrub
  deriving DecidableEq

/-- `struct nand_chip`: the check of a block, the table of bad blocks, and `NAND_BBT_SCANNED`. -/
structure Chip where
  blockBad : BlockBad
  bbt : Option (ℕ → Bool)
  scanned : Bool

/-- `nand_info_t`, with what the chip does: which blocks have a marker; what a scan leaves, before
and after a scrub; and, in each round, whether it is write protected and whether a command fails. -/
structure Info where
  eraseShift : ℕ
  size : ℕ
  oobavail : ℕ
  eraseShift_lt : eraseShift < 31
  size_lt : size < 2 ^ 32
  marker : ℕ → Bool
  scanBbt : Bool → Option (ℕ → Bool)
  writeProtected : ℕ → Bool
  eraseFails : ℕ → Bool
  oobFails : ℕ → Bool

/-- `nand_erase_options_t` -/
structure EraseOptions where
  length : ℕ
  offset : ℕ
  jffs2 : Bool
  scrub : Bool
  length_lt : length < 2 ^ 32
  offset_lt : offset < 2 ^ 32

/-- What the chip is told, or an erase that was refused before that. -/
inductive Event where
  | refused (addr : ℕ)
  | erase (addr : ℕ) (ok : Bool)
  | writeOob (addr : ℕ) (data : List UInt8) (ok : Bool)
  deriving DecidableEq

variable (nand : Info)

/-- `meminfo->erasesize` -/
def Info.erasesize : ℕ := 2 ^ nand.eraseShift

/-- `cleanmarker`, as far as it is written. -/
def cleanmarker : List UInt8 := [0x85, 0x19, 0x03, 0x20, 8, 0, 0, 0]

/-! ## The functions of the driver -/

/-- The table that is looked up, after the first scan. -/
def Chip.scan (chip : Chip) : Chip :=
  if chip.scanned then chip else { chip with scanned := true, bbt := nand.scanBbt false }

def nandBlockCheckbad (chip : Chip) (ofs : ℕ) : Bool :=
  match (chip.scan nand).bbt with
  | some bbt => bbt (ofs / nand.erasesize)
  | none =>
    match chip.blockBad with
    | .own => nand.marker (ofs / nand.erasesize)
    | .scrub => false

/-- `nand_block_isbad`; `none` is `-EINVAL`. -/
def nandBlockIsbad (chip : Chip) (offs : ℕ) : Option Bool :=
  if nand.size < offs then none else some (nandBlockCheckbad nand chip offs)

/-- The `-EINVAL` of `nand_erase_nand`.  `instr->len + instr->addr` is a `u_int32_t`. -/
def eraseInvalid (eraseShift size addr len : ℕ) : Bool :=
  addr % 2 ^ eraseShift ≠ 0 ∨ len % 2 ^ eraseShift ≠ 0 ∨ size < (len + addr) % 2 ^ 32

/-- `nand_erase`, of the block at `addr` in round `n`: the chip, what it was told, and whether the
result is 0. -/
def nandErase (n : ℕ) (chip : Chip) (addr : ℕ) : Chip × Event × Bool :=
  if eraseInvalid nand.eraseShift nand.size addr nand.erasesize then (chip, .refused addr, false)
  else if nand.writeProtected n then (chip, .refused addr, false)
  else if nandBlockCheckbad nand chip addr then (chip.scan nand, .refused addr, false)
  else (chip.scan nand, .erase addr !(nand.eraseFails n), !(nand.eraseFails n))

/-! ## `nand_erase_opts` -/

/-- The chip, and what it was told. -/
structure Erasing where
  chip : Chip
  log : List Event

/-- `meminfo->erase` and what follows it, in round `n`. -/
def eraseBlock (opts : EraseOptions) (n : ℕ) (s : Erasing) (addr : ℕ) : Erasing :=
  let r := nandErase nand n s.chip addr
  if r.2.2 = true ∧ opts.jffs2 = true ∧ 8 ≤ nand.oobavail then
    ⟨r.1, s.log ++ [r.2.1, .writeOob addr cleanmarker !(nand.oobFails n)]⟩
  else ⟨r.1, s.log ++ [r.2.1]⟩

/-- One round of the loop; `none` is a return of -1. -/
def eraseRound (opts : EraseOptions) (n : ℕ) (s : Erasing) (addr : ℕ) : Option Erasing :=
  if opts.scrub then some (eraseBlock nand opts n s addr)
  else
    (nandBlockIsbad nand s.chip addr).map fun bad =>
      let s := { s with chip := s.chip.scan nand }
      if bad then s else eraseBlock nand opts n s addr

/-- The loop, from round `n` on: what it leaves, and whether it came to its end. -/
def eraseLoop (opts : EraseOptions) (stop : ℕ) :
    ℕ → ℕ → ℕ → Erasing → Option (Erasing × Bool)
  | 0, _, _, _ => none
  | fuel + 1, n, addr, s =>
    if addr < stop then
      match eraseRound nand opts n s addr with
      | none => some (s, false)
      | some s => eraseLoop opts stop fuel (n + 1) ((addr + nand.erasesize) % 2 ^ 32) s
    else some (s, true)

def eraseLength (opts : EraseOptions) : ℕ :=
  if opts.length < nand.erasesize then nand.erasesize else opts.length

/-- The chip, what it was told, and what is returned. -/
structure Erased where
  chip : Chip
  log : List Event
  ret : ℤ

/-- The end of the function. -/
def finishErase (opts : EraseOptions) (chip : Chip) (s : Erasing) : Erased :=
  if opts.scrub then
    ⟨{ s.chip with blockBad := chip.blockBad, bbt := nand.scanBbt true }, s.log, 0⟩
  else ⟨s.chip, s.log, 0⟩

/-- `nand_erase_opts`, with a bound on the rounds of its loop. -/
def nandEraseOpts (opts : EraseOptions) (fuel : ℕ) (chip : Chip) : Option Erased :=
  let start := if opts.scrub then { chip with blockBad := BlockBad.scrub, bbt := none } else chip
  (eraseLoop nand opts ((opts.offset + eraseLength nand opts) % 2 ^ 32) fuel 0 opts.offset
    ⟨start, []⟩).map fun r =>
      if r.2 then finishErase nand opts chip r.1 else ⟨r.1.chip, r.1.log, -1⟩

/-! ## What the result should tell -/

/-- The block is bad, as the chip is found. -/
def badBlock (chip : Chip) (block : ℕ) : Bool :=
  nandBlockCheckbad nand chip (block * nand.erasesize)

/-- The block has bytes of the range. -/
def Intersects (offset length block : ℕ) : Prop :=
  offset < (block + 1) * nand.erasesize ∧ block * nand.erasesize < offset + length ∧ 0 < length

/-- The block was erased. -/
def WasErased (log : List Event) (block : ℕ) : Prop :=
  Event.erase (block * nand.erasesize) true ∈ log

/-- The cleanmarker was written to the block. -/
def WasMarked (log : List Event) (block : ℕ) : Prop :=
  Event.writeOob (block * nand.erasesize) cleanmarker true ∈ log

/-- **What the result should tell**, and what should be left alone. -/
structure Truthful (opts : EraseOptions) (chip : Chip) (r : Erased) : Prop where
  complete : r.ret = 0 → ∀ block, Intersects nand opts.offset opts.length block →
    badBlock nand chip block = false →
      WasErased nand r.log block ∧ (opts.jffs2 = true → WasMarked nand r.log block)
  within : ∀ addr ok, Event.erase addr ok ∈ r.log →
    Intersects nand opts.offset opts.length (addr / nand.erasesize)
  spares : opts.scrub = false → ∀ addr ok, Event.erase addr ok ∈ r.log →
    badBlock nand chip (addr / nand.erasesize) = false
  restored : r.chip.blockBad = chip.blockBad

/-- The failure of a call for the block at an address, which is reported on the console. -/
def Event.Fails (addr : ℕ) : Event → Prop
  | .refused a => a = addr
  | .erase a ok => a = addr ∧ ok = false
  | .writeOob a _ ok => a = addr ∧ ok = false

/-- The blocks of the range lie below 2^32. -/
def InRange (opts : EraseOptions) : Prop :=
  ∀ block, Intersects nand opts.offset (eraseLength nand opts) block →
    (block + 1) * nand.erasesize < 2 ^ 32

/-- The same, of whole blocks: a length of less than one is that of one. -/
structure TruthfulOfBlocks (opts : EraseOptions) (chip : Chip) (r : Erased) : Prop where
  complete : nand.erasesize ∣ opts.offset → r.ret = 0 →
    ∀ block, Intersects nand opts.offset (eraseLength nand opts) block →
      badBlock nand chip block = false →
        (∀ e ∈ r.log, ¬e.Fails (block * nand.erasesize)) →
          WasErased nand r.log block ∧
            (opts.jffs2 = true → 8 ≤ nand.oobavail → WasMarked nand r.log block)
  within : ∀ addr ok, Event.erase addr ok ∈ r.log →
    Intersects nand opts.offset (eraseLength nand opts) (addr / nand.erasesize)

/-! ## The check of a block -/

variable {nand} {opts : EraseOptions} {chip chip' : Chip} {s s' : Erasing} {n addr : ℕ}

theorem Info.erasesize_pos : 0 < nand.erasesize := Nat.two_pow_pos _

/-- The same checks. -/
structure Kept (nand : Info) (chip chip' : Chip) : Prop where
  blockBad : chip'.blockBad = chip.blockBad
  checkbad : ∀ ofs, nandBlockCheckbad nand chip' ofs = nandBlockCheckbad nand chip ofs

theorem Kept.refl (chip : Chip) : Kept nand chip chip := ⟨rfl, fun _ => rfl⟩

theorem Kept.trans {chip'' : Chip} (h : Kept nand chip chip') (h' : Kept nand chip' chip'') :
    Kept nand chip chip'' :=
  ⟨h'.blockBad.trans h.blockBad, fun ofs => (h'.checkbad ofs).trans (h.checkbad ofs)⟩

@[simp] theorem Chip.scanned_scan (chip : Chip) : (chip.scan nand).scanned = true := by
  rw [Chip.scan]
  split_ifs with h
  · exact h
  · rfl

@[simp] theorem Chip.scan_scan (chip : Chip) : (chip.scan nand).scan nand = chip.scan nand :=
  if_pos (Chip.scanned_scan chip)

@[simp] theorem Chip.blockBad_scan (chip : Chip) : (chip.scan nand).blockBad = chip.blockBad := by
  rw [Chip.scan]
  split_ifs
  · rfl
  · rfl

theorem kept_scan (chip : Chip) : Kept nand chip (chip.scan nand) :=
  ⟨Chip.blockBad_scan chip, fun ofs => by simp [nandBlockCheckbad]⟩

theorem checkbad_eq (chip : Chip) (addr : ℕ) :
    nandBlockCheckbad nand chip addr = badBlock nand chip (addr / nand.erasesize) := by
  simp [badBlock, nandBlockCheckbad, Nat.mul_div_cancel _ Info.erasesize_pos]

theorem checkbad_scrub {ofs : ℕ} (h : nandBlockCheckbad nand chip ofs = false) :
    nandBlockCheckbad nand { chip with blockBad := .scrub, bbt := none } ofs = false := by
  rw [nandBlockCheckbad, Chip.scan] at h ⊢
  by_cases hscanned : chip.scanned = true
  · simp [hscanned]
  · simp only [hscanned] at h ⊢
    cases hscan : nand.scanBbt false with
    | none => simp
    | some bbt => simpa [hscan] using h

/-! ## One round -/

/-- A failure was reported for the block at the address, or it was erased and marked. -/
def Settled (nand : Info) (opts : EraseOptions) (events : List Event) (addr : ℕ) : Prop :=
  (∃ e ∈ events, e.Fails addr) ∨
    (Event.erase addr true ∈ events ∧
      (opts.jffs2 = true → 8 ≤ nand.oobavail → Event.writeOob addr cleanmarker true ∈ events))

theorem Settled.mono {events events' : List Event} (h : Settled nand opts events addr)
    (hsub : events ⊆ events') : Settled nand opts events' addr := by
  rcases h with ⟨e, he, hfails⟩ | ⟨herase, hmark⟩
  · exact .inl ⟨e, hsub he, hfails⟩
  · exact .inr ⟨hsub herase, fun hjffs2 havail => hsub (hmark hjffs2 havail)⟩

/-- What a round tells the chip. -/
structure RoundSpec (nand : Info) (opts : EraseOptions) (chip : Chip) (addr : ℕ)
    (events : List Event) : Prop where
  erases : ∀ a ok, Event.erase a ok ∈ events →
    a = addr ∧ nand.erasesize ∣ addr ∧ nandBlockCheckbad nand chip addr = false
  settled : nandBlockCheckbad nand chip addr = false → Settled nand opts events addr

theorem nandErase_spec (nand : Info) (n : ℕ) (chip : Chip) (addr : ℕ) :
    Kept nand chip (nandErase nand n chip addr).1 ∧
      ((nandErase nand n chip addr).2.2 = false ∧
          (nandErase nand n chip addr).2.1 = .refused addr ∨
        nand.erasesize ∣ addr ∧ nandBlockCheckbad nand chip addr = false ∧
          (nandErase nand n chip addr).2.1 = .erase addr (nandErase nand n chip addr).2.2) := by
  rw [nandErase]
  split_ifs with hinvalid hprotected hbad
  · exact ⟨Kept.refl chip, .inl ⟨rfl, rfl⟩⟩
  · exact ⟨Kept.refl chip, .inl ⟨rfl, rfl⟩⟩
  · exact ⟨kept_scan chip, .inl ⟨rfl, rfl⟩⟩
  · refine ⟨kept_scan chip, .inr ⟨Nat.dvd_of_mod_eq_zero ?_, Bool.of_not_eq_true hbad, rfl⟩⟩
    by_contra haligned
    exact hinvalid (decide_eq_true (.inl haligned))

theorem eraseBlock_spec (nand : Info) (opts : EraseOptions) (n : ℕ) (s : Erasing) (addr : ℕ) :
    Kept nand s.chip (eraseBlock nand opts n s addr).chip ∧
      ∃ events, (eraseBlock nand opts n s addr).log = s.log ++ events ∧
        RoundSpec nand opts s.chip addr events := by
  obtain ⟨hkept, hcases⟩ := nandErase_spec nand n s.chip addr
  rw [eraseBlock]
  generalize nandErase nand n s.chip addr = r at hkept hcases
  obtain ⟨chip, event, ok⟩ := r
  dsimp only at hkept hcases ⊢
  split_ifs with hmark
  · obtain ⟨rfl, hjffs2, havail⟩ := hmark
    rcases hcases with ⟨hok, -⟩ | ⟨haligned, hgood, rfl⟩
    · exact nomatch hok
    · refine ⟨hkept, _, rfl, ?_, fun _ => ?_⟩
      · intro a ok ha
        simp only [List.mem_cons, Event.erase.injEq, reduceCtorEq, List.not_mem_nil, or_false] at ha
        exact ⟨ha.1, haligned, hgood⟩
      · cases hfails : nand.oobFails n with
        | true => exact .inl ⟨.writeOob addr cleanmarker false, by simp, rfl, rfl⟩
        | false => exact .inr (by simp)
  · refine ⟨hkept, _, rfl, ?_, fun _ => ?_⟩
    · intro a ok' ha
      rcases hcases with ⟨-, rfl⟩ | ⟨haligned, hgood, rfl⟩
      · simp at ha
      · simp only [List.mem_cons, Event.erase.injEq, List.not_mem_nil, or_false] at ha
        exact ⟨ha.1, haligned, hgood⟩
    · rcases hcases with ⟨-, rfl⟩ | ⟨-, -, rfl⟩
      · exact .inl ⟨.refused addr, by simp, rfl⟩
      · cases ok with
        | false => exact .inl ⟨.erase addr false, by simp, rfl, rfl⟩
        | true =>
          refine .inr ⟨by simp, fun hjffs2 havail => ?_⟩
          exact absurd ⟨rfl, hjffs2, havail⟩ hmark

theorem eraseRound_spec (h : eraseRound nand opts n s addr = some s') :
    Kept nand s.chip s'.chip ∧
      ∃ events, s'.log = s.log ++ events ∧ RoundSpec nand opts s.chip addr events := by
  rw [eraseRound] at h
  split_ifs at h
  · obtain rfl := Option.some.inj h
    exact eraseBlock_spec nand opts n s addr
  · obtain ⟨bad, hbad, rfl⟩ := Option.map_eq_some_iff.mp h
    have hscan : Kept nand s.chip (s.chip.scan nand) := kept_scan s.chip
    have hcheck : nandBlockCheckbad nand s.chip addr = bad := by
      rw [nandBlockIsbad] at hbad
      split_ifs at hbad
      exact Option.some.inj hbad
    dsimp only
    cases bad with
    | true =>
      refine ⟨hscan, [], (List.append_nil _).symm, ?_, fun hgood => ?_⟩
      · exact fun a ok ha => absurd ha List.not_mem_nil
      · exact absurd (hcheck.symm.trans hgood) Bool.noConfusion
    | false =>
      obtain ⟨hkept, events, hlog, hspec⟩ :=
        eraseBlock_spec nand opts n { s with chip := s.chip.scan nand } addr
      refine ⟨hscan.trans hkept, events, hlog, fun a ok ha => ?_, fun _ => ?_⟩
      · obtain ⟨haddr, haligned, -⟩ := hspec.erases a ok ha
        exact ⟨haddr, haligned, hcheck⟩
      · exact hspec.settled ((hscan.checkbad addr).trans hcheck)

theorem scrub_of_eraseRound (h : eraseRound nand opts n s addr = none) : opts.scrub = false := by
  rw [eraseRound] at h
  split_ifs at h with hscrub
  exact Bool.of_not_eq_true hscrub

/-! ## The loop -/

variable {stop fuel : ℕ} {done : Bool}

theorem eraseLoop_spec (h : eraseLoop nand opts stop fuel n addr s = some (s', done)) :
    Kept nand s.chip s'.chip ∧ (done = false → opts.scrub = false) ∧
      ∃ events, s'.log = s.log ++ events ∧ ∀ a ok, Event.erase a ok ∈ events →
        nandBlockCheckbad nand s.chip a = false := by
  induction fuel generalizing n addr s with
  | zero => exact nomatch h
  | succ fuel ih =>
    rw [eraseLoop] at h
    have hnone : ∃ events, s.log = s.log ++ events ∧ ∀ a ok, Event.erase a ok ∈ events →
        nandBlockCheckbad nand s.chip a = false :=
      ⟨[], (List.append_nil _).symm, fun a ok ha => absurd ha List.not_mem_nil⟩
    split_ifs at h with hlt
    · cases hround : eraseRound nand opts n s addr with
      | none =>
        rw [hround] at h
        obtain ⟨rfl, rfl⟩ := Prod.mk.inj (Option.some.inj h)
        exact ⟨Kept.refl _, fun _ => scrub_of_eraseRound hround, hnone⟩
      | some t =>
        rw [hround] at h
        obtain ⟨hkept, events, hlog, hspec⟩ := eraseRound_spec hround
        obtain ⟨hkept', hdone, events', hlog', hall⟩ := ih h
        refine ⟨hkept.trans hkept', hdone, events ++ events', ?_, fun a ok ha => ?_⟩
        · rw [hlog', hlog, List.append_assoc]
        · rcases List.mem_append.mp ha with ha | ha
          · obtain ⟨rfl, -, hgood⟩ := hspec.erases a ok ha
            exact hgood
          · exact (hkept.checkbad a).symm.trans (hall a ok ha)
    · obtain ⟨rfl, rfl⟩ := Prod.mk.inj (Option.some.inj h)
      exact ⟨Kept.refl _, fun hdone => absurd hdone.symm Bool.false_ne_true, hnone⟩

theorem eraseLoop_range (hwrap : stop + nand.erasesize ≤ 2 ^ 32)
    (h : eraseLoop nand opts stop fuel n addr s = some (s', done)) :
    ∃ events, s'.log = s.log ++ events ∧
      (∀ a ok, Event.erase a ok ∈ events →
        addr ≤ a ∧ a < stop ∧ nand.erasesize ∣ a) ∧
      (done = true → ∀ k, addr + k * nand.erasesize < stop →
        nandBlockCheckbad nand s.chip (addr + k * nand.erasesize) = false →
          Settled nand opts events (addr + k * nand.erasesize)) := by
  induction fuel generalizing n addr s with
  | zero => exact nomatch h
  | succ fuel ih =>
    rw [eraseLoop] at h
    split_ifs at h with hlt
    · cases hround : eraseRound nand opts n s addr with
      | none =>
        rw [hround] at h
        obtain ⟨rfl, rfl⟩ := Prod.mk.inj (Option.some.inj h)
        exact ⟨[], (List.append_nil _).symm, fun a ok ha => absurd ha List.not_mem_nil,
          fun hdone => absurd hdone Bool.false_ne_true⟩
      | some t =>
        rw [hround] at h
        obtain ⟨hkept, events, hlog, hspec⟩ := eraseRound_spec hround
        rw [Nat.mod_eq_of_lt (by omega)] at h
        obtain ⟨events', hlog', hwithin, hsettled⟩ := ih h
        refine ⟨events ++ events', ?_, fun a ok ha => ?_, fun hend k hk hgood => ?_⟩
        · rw [hlog', hlog, List.append_assoc]
        · rcases List.mem_append.mp ha with ha | ha
          · obtain ⟨rfl, haligned, -⟩ := hspec.erases a ok ha
            exact ⟨le_rfl, hlt, haligned⟩
          · obtain ⟨hle, hstop, haligned⟩ := hwithin a ok ha
            exact ⟨by omega, hstop, haligned⟩
        · cases k with
          | zero =>
            rw [Nat.zero_mul, Nat.add_zero] at hgood ⊢
            exact (hspec.settled hgood).mono (List.subset_append_left _ _)
          | succ k =>
            have hnext : addr + (k + 1) * nand.erasesize =
                addr + nand.erasesize + k * nand.erasesize := by rw [Nat.succ_mul]; omega
            rw [hnext] at hk hgood ⊢
            have hgood' := (hkept.checkbad _).trans hgood
            exact (hsettled hend k hk hgood').mono (List.subset_append_right _ _)
    · obtain ⟨rfl, rfl⟩ := Prod.mk.inj (Option.some.inj h)
      refine ⟨[], (List.append_nil _).symm, fun a ok ha => absurd ha List.not_mem_nil,
        fun _ k hk => ?_⟩
      omega

theorem exists_eraseLoop (opts : EraseOptions) (hwrap : stop + nand.erasesize ≤ 2 ^ 32)
    (n addr : ℕ) (s : Erasing) :
    ∃ fuel r, eraseLoop nand opts stop fuel n addr s = some r := by
  have hpos : 0 < nand.erasesize := Info.erasesize_pos
  induction hleft : stop - addr using Nat.strong_induction_on generalizing n addr s with
  | _ left ih =>
    by_cases hlt : addr < stop
    · cases hround : eraseRound nand opts n s addr with
      | none => exact ⟨1, (s, false), by rw [eraseLoop, if_pos hlt, hround]⟩
      | some t =>
        obtain ⟨fuel, r, hr⟩ := ih (stop - (addr + nand.erasesize)) (by omega) (n + 1)
          (addr + nand.erasesize) t rfl
        refine ⟨fuel + 1, r, ?_⟩
        rw [eraseLoop, if_pos hlt, hround]
        dsimp only
        rw [Nat.mod_eq_of_lt (by omega), hr]
    · exact ⟨1, (s, true), by rw [eraseLoop, if_neg hlt]⟩

/-! ## What the result tells -/

theorem eraseLength_pos : 0 < eraseLength nand opts := by
  have hpos : 0 < nand.erasesize := Info.erasesize_pos
  rw [eraseLength]
  split_ifs with h
  · exact hpos
  · omega

theorem InRange.le (h : InRange nand opts) :
    opts.offset + eraseLength nand opts + nand.erasesize ≤ 2 ^ 32 := by
  have hpos : 0 < nand.erasesize := Info.erasesize_pos
  have hlen : 0 < eraseLength nand opts := eraseLength_pos
  -- the block of the last byte
  have hlast := h ((opts.offset + eraseLength nand opts - 1) / nand.erasesize)
  generalize hb : (opts.offset + eraseLength nand opts - 1) / nand.erasesize = b at hlast
  have hle : b * nand.erasesize ≤ opts.offset + eraseLength nand opts - 1 := by
    rw [← hb]
    exact Nat.div_mul_le_self _ _
  have hlt : opts.offset + eraseLength nand opts - 1 < (b + 1) * nand.erasesize := by
    rw [← hb, Nat.succ_mul]
    exact Nat.lt_div_mul_add hpos
  have hbelow := hlast ⟨by omega, by omega, hlen⟩
  have hpow : 2 ^ 32 = 2 ^ (32 - nand.eraseShift) * nand.erasesize := by
    have hshift := nand.eraseShift_lt
    rw [Info.erasesize, ← Nat.pow_add, Nat.sub_add_cancel (by omega)]
  rw [hpow] at hbelow ⊢
  have hblocks : b + 1 + 1 ≤ 2 ^ (32 - nand.eraseShift) := Nat.lt_of_mul_lt_mul_right hbelow
  calc opts.offset + eraseLength nand opts + nand.erasesize
      ≤ (b + 1) * nand.erasesize + nand.erasesize := by omega
    _ = (b + 1 + 1) * nand.erasesize := (Nat.succ_mul _ _).symm
    _ ≤ _ := Nat.mul_le_mul_right _ hblocks

theorem checkbad_start (opts : EraseOptions) {ofs : ℕ}
    (h : nandBlockCheckbad nand chip ofs = false) :
    nandBlockCheckbad nand
      (if opts.scrub then { chip with blockBad := .scrub, bbt := none } else chip) ofs = false := by
  split_ifs
  · exact checkbad_scrub h
  · exact h

theorem log_finishErase (nand : Info) (opts : EraseOptions) (done : Bool) (chip : Chip)
    (s : Erasing) :
    (if done then finishErase nand opts chip s else ⟨s.chip, s.log, -1⟩).log = s.log := by
  rw [finishErase]
  split_ifs
  · rfl
  · rfl
  · rfl

theorem finishErase_of_not_scrub (hscrub : opts.scrub = false) (chip : Chip) (s : Erasing) :
    finishErase nand opts chip s = ⟨s.chip, s.log, 0⟩ := by
  rw [finishErase, hscrub, if_neg Bool.false_ne_true]

theorem nandEraseOpts_spares {fuel : ℕ} {r : Erased}
    (h : nandEraseOpts nand opts fuel chip = some r) :
    r.chip.blockBad = chip.blockBad ∧
      (opts.scrub = false → ∀ addr ok, Event.erase addr ok ∈ r.log →
        badBlock nand chip (addr / nand.erasesize) = false) := by
  obtain ⟨⟨s, done⟩, hloop, rfl⟩ := Option.map_eq_some_iff.mp h
  obtain ⟨hkept, hdone, events, hlog, hgood⟩ := eraseLoop_spec hloop
  rw [List.nil_append] at hlog
  cases hscrub : opts.scrub with
  | true =>
    have hdone' : done = true := by
      by_contra hnot
      exact absurd (hscrub.symm.trans (hdone (Bool.of_not_eq_true hnot))) Bool.noConfusion
    rw [hdone', finishErase, hscrub]
    exact ⟨rfl, fun hfalse => absurd hfalse Bool.noConfusion⟩
  | false =>
    rw [hscrub, if_neg Bool.false_ne_true] at hkept hgood
    refine ⟨?_, fun _ addr ok haddr => ?_⟩
    · rw [finishErase_of_not_scrub hscrub]
      split_ifs
      · exact hkept.blockBad
      · exact hkept.blockBad
    · rw [log_finishErase, hlog] at haddr
      rw [← checkbad_eq]
      exact hgood addr ok haddr

theorem truthfulOfBlocks_of_inRange (hrange : InRange nand opts) {fuel : ℕ} {r : Erased}
    (h : nandEraseOpts nand opts fuel chip = some r) : TruthfulOfBlocks nand opts chip r := by
  have hpos : 0 < nand.erasesize := Info.erasesize_pos
  have hlen : 0 < eraseLength nand opts := eraseLength_pos
  have hle := hrange.le
  have hstop : (opts.offset + eraseLength nand opts) % 2 ^ 32 =
    opts.offset + eraseLength nand opts := Nat.mod_eq_of_lt (by omega)
  rw [nandEraseOpts, hstop] at h
  obtain ⟨⟨s, done⟩, hloop, rfl⟩ := Option.map_eq_some_iff.mp h
  obtain ⟨events, hlog, hwithin, hsettled⟩ := eraseLoop_range hle hloop
  rw [List.nil_append] at hlog
  have hevents := (log_finishErase nand opts done chip s).trans hlog
  constructor
  · rintro ⟨m, hm⟩ hret block ⟨hafter, hbefore, -⟩ hgood hfails
    have hdone : done = true := by
      by_contra hnot
      rw [if_neg hnot] at hret
      exact absurd hret (show (-1 : ℤ) ≠ 0 by decide)
    have hblock : block * nand.erasesize = opts.offset + (block - m) * nand.erasesize := by
      have hmle : m ≤ block := by
        rw [hm, Nat.mul_comm] at hafter
        exact Nat.le_of_lt_succ (Nat.lt_of_mul_lt_mul_right hafter)
      rw [hm, Nat.mul_comm nand.erasesize m, ← Nat.add_mul, Nat.add_sub_cancel' hmle]
    dsimp only at hfails ⊢
    rw [hevents] at hfails ⊢
    have hcheck := checkbad_start opts hgood
    rw [hblock] at hbefore hcheck
    have hdone' := hsettled hdone (block - m) hbefore hcheck
    rw [← hblock] at hdone'
    rcases hdone' with ⟨e, he, hfail⟩ | hdone'
    · exact absurd hfail (hfails e he)
    · exact hdone'
  · intro addr ok haddr
    dsimp only at haddr
    rw [hevents] at haddr
    obtain ⟨hle, hlt, haligned⟩ := hwithin addr ok haddr
    have hdiv := Nat.div_mul_cancel haligned
    refine ⟨?_, by omega, hlen⟩
    rw [Nat.succ_mul, hdiv]
    omega

/-- **What the result tells.**  Whatever is returned, the check of a block is the one it was, and no
bad block is erased unless all are.  In a range that stays below 2^32 the function returns, and only
blocks of the range are erased; and if 0 is returned, from the start of a block on, then every good
block of the range was erased and marked for which no failure was reported. -/
theorem nandEraseOpts_careful (nand : Info) (opts : EraseOptions) (chip : Chip) :
    (∀ fuel r, nandEraseOpts nand opts fuel chip = some r →
      r.chip.blockBad = chip.blockBad ∧
        (opts.scrub = false → ∀ addr ok, Event.erase addr ok ∈ r.log →
          badBlock nand chip (addr / nand.erasesize) = false)) ∧
      (InRange nand opts →
        (∃ fuel r, nandEraseOpts nand opts fuel chip = some r) ∧
          ∀ fuel r, nandEraseOpts nand opts fuel chip = some r →
            TruthfulOfBlocks nand opts chip r) := by
  refine ⟨fun fuel r h => nandEraseOpts_spares h, fun hrange => ⟨?_, fun fuel r h =>
    truthfulOfBlocks_of_inRange hrange h⟩⟩
  have hle := hrange.le
  have hpos : 0 < nand.erasesize := Info.erasesize_pos
  have hstop : (opts.offset + eraseLength nand opts) % 2 ^ 32 =
    opts.offset + eraseLength nand opts := Nat.mod_eq_of_lt (by omega)
  obtain ⟨fuel, r, hloop⟩ := exists_eraseLoop opts hle 0 opts.offset
    ⟨if opts.scrub then { chip with blockBad := .scrub, bbt := none } else chip, []⟩
  rw [← hstop] at hloop
  exact ⟨fuel, _, Option.map_eq_some_iff.mpr ⟨r, hloop, rfl⟩⟩

/-- One block of 16 KiB, with no free bytes in the OOB area. -/
def oneBlock : Info where
  eraseShift := 14
  size := 0x4000
  oobavail := 0
  eraseShift_lt := by decide
  size_lt := by decide
  marker _ := false
  scanBbt _ := none
  writeProtected _ := false
  eraseFails _ := false
  oobFails _ := false

/-- The whole block, for JFFS2. -/
def wholeBlock : EraseOptions where
  length := 0x4000
  offset := 0
  jffs2 := true
  scrub := false
  length_lt := by decide
  offset_lt := by decide

/-- **A block that has no room for the cleanmarker** is erased and not marked, and 0 is returned. -/
theorem not_nandEraseOpts_truthful :
    ¬ ∀ nand opts chip fuel r, nandEraseOpts nand opts fuel chip = some r →
      Truthful nand opts chip r := by
  intro hall
  have hrun : nandEraseOpts oneBlock wholeBlock 2 ⟨.own, none, true⟩ =
    some ⟨⟨.own, none, true⟩, [.erase 0 true], 0⟩ := rfl
  have hblock := (hall _ _ _ _ _ hrun).complete rfl 0 ⟨by decide, by decide, by decide⟩ rfl
  exact absurd (hblock.2 rfl)
    (show Event.writeOob 0 cleanmarker true ∉ [Event.erase 0 true] by decide)

end NandErase
end EmevBsp
