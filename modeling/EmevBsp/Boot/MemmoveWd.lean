import EmevBsp.Boot.Bootm
import EmevBsp.Library.AddressSpace
import Mathlib.Data.PNat.Notation
import Mathlib.Data.PNat.Defs

/-!
# `common/image.c`: `memmove_wd`

With a watchdog, a block is moved chunk by chunk, so that the watchdog can be reset in between.
Each chunk is moved by `memmove`, which looks at nothing but the chunk; the chunks are taken in
ascending order.  When a block moves upwards by less than its length, a chunk may thus overwrite
what a later chunk reads.
-/

namespace EmevBsp
namespace Boot

open AddressSpace

/-- The bytes of the memory. -/
abbrev Memory : Type := BitVec 32 → UInt8

/-- `memmove`: the block is moved as a whole. -/
def memmove (mem : Memory) (dest src : BitVec 32) (len : ℕ) : Memory := move mem dest src len

/-- The loop of `memmove_wd`. -/
def moveChunks (chunksz : ℕ+) (mem : Memory) (dest src : BitVec 32) (len : ℕ) : Memory :=
  if 0 < len then
    let tail := if chunksz < len then (chunksz : ℕ) else len
    moveChunks chunksz (memmove mem dest src tail) (dest + BitVec.ofNat 32 tail)
      (src + BitVec.ofNat 32 tail) (len - tail)
  else mem
termination_by len
decreasing_by
  have hchunk := chunksz.pos
  split_ifs <;> omega

/-- `memmove_wd`; `watchdog` is whether one is configured. -/
def memmoveWd (watchdog : Bool) (chunksz : ℕ+) (mem : Memory) (dest src len : BitVec 32) : Memory :=
  if watchdog then moveChunks chunksz mem dest src len.toNat else memmove mem dest src len.toNat

/-- A boot loader whose machine is its memory. -/
def Platform.withMemmoveWd (P : Platform Memory) (watchdog : Bool) (chunksz : ℕ+) :
    Platform Memory :=
  { P with memmove := memmoveWd watchdog chunksz }

/-- Whether `do_bootm` goes on after `bootm_load_os`; a legacy image that was overwritten is
booted. -/
def bootProceeds (legacyHdrValid : Bool) (ret : ℤ) : Bool :=
  if ret < 0 then
    if ret = bootmErrReset then false
    else if ret = bootmErrOverlap then legacyHdrValid
    else if ret = bootmErrUnimplemented then false
    else true
  else true

/-! ## The chunks -/

variable {chunksz : ℕ+} {mem : Memory} {dest src : BitVec 32} {len : ℕ}

/-- What a move leaves: the block is where it was moved to, and nothing else has changed. -/
structure Moved (mem mem' : Memory) (dest src : BitVec 32) (len : ℕ) : Prop where
  inside : ∀ i < len, mem' (dest + BitVec.ofNat 32 i) = mem (src + BitVec.ofNat 32 i)
  outside : ∀ x, len ≤ (x - dest).toNat → mem' x = mem x

theorem Moved.cells_eq {mem' : Memory} (h : Moved mem mem' dest src len) :
    cells mem' dest len = cells mem src len :=
  List.map_congr_left fun i hi => h.inside i (List.mem_range.mp hi)

theorem moved_memmove (hlen : len ≤ 2 ^ 32) : Moved mem (memmove mem dest src len) dest src len :=
  ⟨fun _ hi => move_add hi hlen, fun _ hx => move_of_le hx⟩

theorem moveChunks_of_le (h : len ≤ chunksz) :
    moveChunks chunksz mem dest src len = memmove mem dest src len := by
  rw [moveChunks]
  rcases Nat.eq_zero_or_pos len with rfl | hpos
  · rw [if_neg (Nat.lt_irrefl 0)]
    rfl
  · rw [if_pos hpos]
    dsimp only
    rw [if_neg (Nat.not_lt.mpr h), Nat.sub_self, moveChunks, if_neg (Nat.lt_irrefl 0)]

theorem moveChunks_of_lt (h : chunksz < len) :
    moveChunks chunksz mem dest src len =
      moveChunks chunksz (memmove mem dest src chunksz) (dest + BitVec.ofNat 32 chunksz)
        (src + BitVec.ofNat 32 chunksz) (len - chunksz) := by
  rw [moveChunks, if_pos (Nat.zero_lt_of_lt h)]
  dsimp only
  rw [if_pos h]

theorem moveChunks_outside (hlen : len < 2 ^ 32) {e : ℕ} (hle : len ≤ e) (he : e < 2 ^ 32) :
    moveChunks chunksz mem dest src len (dest + BitVec.ofNat 32 e) =
      mem (dest + BitVec.ofNat 32 e) := by
  have hchunk := chunksz.pos
  induction len using Nat.strong_induction_on generalizing mem dest src e with
  | _ len ih =>
    rcases Nat.lt_or_ge chunksz len with hlt | hge
    · have hrest : moveChunks chunksz (memmove mem dest src chunksz)
          (dest + BitVec.ofNat 32 chunksz) (src + BitVec.ofNat 32 chunksz) (len - chunksz)
          (dest + BitVec.ofNat 32 chunksz + BitVec.ofNat 32 (e - chunksz)) =
            memmove mem dest src chunksz
              (dest + BitVec.ofNat 32 chunksz + BitVec.ofNat 32 (e - chunksz)) :=
        ih (len - chunksz) (by omega) (by omega) (by omega) (by omega)
      rw [add_add, Nat.add_sub_cancel' (by omega)] at hrest
      rw [moveChunks_of_lt hlt, hrest]
      exact move_of_le (by rw [toNat_add_sub he]; omega)
    · rw [moveChunks_of_le hge]
      exact move_of_le (by rwa [toNat_add_sub he])

theorem moveChunks_before {k i : ℕ} (hi : i < k) (hk : k + len < 2 ^ 32) :
    moveChunks chunksz mem (dest + BitVec.ofNat 32 k) src len (dest + BitVec.ofNat 32 i) =
      mem (dest + BitVec.ofNat 32 i) := by
  have hway : dest + BitVec.ofNat 32 k + BitVec.ofNat 32 (2 ^ 32 - k + i) =
      dest + BitVec.ofNat 32 i := by
    rw [← toNat_add_sub_add_of_lt (a := dest) hi (by omega), add_toNat_sub]
  rw [← hway]
  exact moveChunks_outside (by omega) (by omega) (by omega)

theorem moveChunks_of_kept {m e : ℕ} (hm : m < len)
    (hcell : src + BitVec.ofNat 32 m = dest + BitVec.ofNat 32 e) (hle : m ≤ e)
    (he : e < 2 ^ 32) (hlen : len < 2 ^ 32) :
    moveChunks chunksz mem dest src len (dest + BitVec.ofNat 32 m) =
      mem (src + BitVec.ofNat 32 m) := by
  have hchunk := chunksz.pos
  induction len using Nat.strong_induction_on generalizing mem dest src m e with
  | _ len ih =>
    rcases Nat.lt_or_ge chunksz len with hlt | hge
    · rw [moveChunks_of_lt hlt]
      rcases Nat.lt_or_ge m chunksz with hfirst | hlater
      · rw [moveChunks_before hfirst (by omega)]
        exact move_add hfirst (by omega)
      · have hcell' : src + BitVec.ofNat 32 chunksz + BitVec.ofNat 32 (m - chunksz) =
            dest + BitVec.ofNat 32 chunksz + BitVec.ofNat 32 (e - chunksz) := by
          rw [add_add, add_add, Nat.add_sub_cancel' hlater, Nat.add_sub_cancel' (by omega), hcell]
        have hrest : moveChunks chunksz (memmove mem dest src chunksz)
            (dest + BitVec.ofNat 32 chunksz) (src + BitVec.ofNat 32 chunksz) (len - chunksz)
            (dest + BitVec.ofNat 32 chunksz + BitVec.ofNat 32 (m - chunksz)) =
              memmove mem dest src chunksz
                (src + BitVec.ofNat 32 chunksz + BitVec.ofNat 32 (m - chunksz)) :=
          ih (len - chunksz) (by omega) (by omega) hcell' (by omega) (by omega) (by omega)
        rw [add_add, add_add, Nat.add_sub_cancel' hlater] at hrest
        rw [hrest, hcell]
        exact move_of_le (by rw [toNat_add_sub he]; omega)
    · rw [moveChunks_of_le hge]
      exact move_add hm (by omega)

theorem moveChunks_self : moveChunks chunksz mem src src len = mem := by
  have hchunk := chunksz.pos
  induction len using Nat.strong_induction_on generalizing src with
  | _ len ih =>
    rcases Nat.lt_or_ge chunksz len with hlt | hge
    · rw [moveChunks_of_lt hlt, memmove, move_self]
      exact ih (len - chunksz) (by omega)
    · rw [moveChunks_of_le hge]
      exact move_self

theorem moved_moveChunks {d : ℕ} (hle : len ≤ d) (hd : d < 2 ^ 32) :
    Moved mem (moveChunks chunksz mem (src + BitVec.ofNat 32 d) src len)
      (src + BitVec.ofNat 32 d) src len := by
  refine ⟨fun i hi => ?_, fun x hx => ?_⟩
  · have hback : src + BitVec.ofNat 32 i =
        src + BitVec.ofNat 32 d + BitVec.ofNat 32 (2 ^ 32 - d + i) := by
      rw [← toNat_add_sub_add_of_lt (a := src) (show i < d by omega) hd, add_toNat_sub]
    exact moveChunks_of_kept hi hback (by omega) (by omega) (by omega)
  · rw [← add_toNat_sub (a := src + BitVec.ofNat 32 d) (x := x)]
    exact moveChunks_outside (by omega) hx (BitVec.isLt _)

/-- **What is overwritten**: the first cell of the second chunk, or the first one behind the start
of the destination when that is later, is written with what the first chunk has brought there. -/
theorem moveChunks_of_overwritten {d : ℕ} (hchunk : chunksz < len) (hpos : 0 < d) (hlt : d < len)
    (hlen : len < 2 ^ 32) :
    moveChunks chunksz mem (src + BitVec.ofNat 32 d) src len
        (src + BitVec.ofNat 32 d + BitVec.ofNat 32 (max (chunksz : ℕ) d)) =
      mem (src + BitVec.ofNat 32 (max (chunksz : ℕ) d - d)) := by
  have hone := chunksz.pos
  generalize hj : max (chunksz : ℕ) d = j
  have hfirst : j - d < chunksz := by omega
  have hcell : src + BitVec.ofNat 32 j = src + BitVec.ofNat 32 d + BitVec.ofNat 32 (j - d) := by
    rw [add_add, Nat.add_sub_cancel' (by omega)]
  have hback : src + BitVec.ofNat 32 d + BitVec.ofNat 32 (j - d) =
      src + BitVec.ofNat 32 d + BitVec.ofNat 32 chunksz +
        BitVec.ofNat 32 (2 ^ 32 - chunksz + (j - d)) := by
    rw [← toNat_add_sub_add_of_lt (a := src + BitVec.ofNat 32 d) hfirst (by omega), add_toNat_sub]
  have hsource : src + BitVec.ofNat 32 chunksz + BitVec.ofNat 32 (j - chunksz) =
      src + BitVec.ofNat 32 j := by
    rw [add_add, Nat.add_sub_cancel' (by omega)]
  have hrest : moveChunks chunksz (memmove mem (src + BitVec.ofNat 32 d) src chunksz)
      (src + BitVec.ofNat 32 d + BitVec.ofNat 32 chunksz) (src + BitVec.ofNat 32 chunksz)
      (len - chunksz)
      (src + BitVec.ofNat 32 d + BitVec.ofNat 32 chunksz + BitVec.ofNat 32 (j - chunksz)) =
        memmove mem (src + BitVec.ofNat 32 d) src chunksz
          (src + BitVec.ofNat 32 chunksz + BitVec.ofNat 32 (j - chunksz)) :=
    moveChunks_of_kept (by omega) (by rw [hsource, hcell, hback]) (by omega) (by omega) (by omega)
  have hdest : src + BitVec.ofNat 32 d + BitVec.ofNat 32 chunksz + BitVec.ofNat 32 (j - chunksz) =
      src + BitVec.ofNat 32 d + BitVec.ofNat 32 j := by
    rw [add_add, Nat.add_sub_cancel' (by omega)]
  rw [hsource, hcell, hdest] at hrest
  rw [moveChunks_of_lt hchunk, hrest]
  exact move_add hfirst (by omega)

/-! ## When the block is moved -/

/-- No chunk overwrites what a later one reads: there is one chunk, or the block does not move
upwards by less than its length. -/
def KeepsSource (chunksz : ℕ+) (dest src : BitVec 32) (len : ℕ) : Prop :=
  len ≤ chunksz ∨ dest = src ∨ len ≤ (dest - src).toNat

theorem moved_of_keepsSource (hlen : len < 2 ^ 32) (h : KeepsSource chunksz dest src len) :
    Moved mem (moveChunks chunksz mem dest src len) dest src len := by
  rcases h with hchunk | rfl | hway
  · rw [moveChunks_of_le hchunk]
    exact moved_memmove hlen.le
  · rw [moveChunks_self]
    exact ⟨fun _ _ => rfl, fun _ _ => rfl⟩
  · have hdest : src + BitVec.ofNat 32 (dest - src).toNat = dest := add_toNat_sub
    rw [← hdest]
    exact moved_moveChunks hway (BitVec.isLt _)

theorem exists_not_moved (hlen : len < 2 ^ 32) (h : ¬ KeepsSource chunksz dest src len) :
    ∃ mem, ∃ i < len, moveChunks chunksz mem dest src len (dest + BitVec.ofNat 32 i) ≠
      mem (src + BitVec.ofNat 32 i) := by
  rw [KeepsSource, not_or, not_or, not_le, not_le] at h
  obtain ⟨hchunk, hne, hlt⟩ := h
  have hdest : src + BitVec.ofNat 32 (dest - src).toNat = dest := add_toNat_sub
  have hpos : 0 < (dest - src).toNat := by
    rcases Nat.eq_zero_or_pos (dest - src).toNat with hzero | hpos
    · rw [hzero, BitVec.add_zero] at hdest
      exact absurd hdest.symm hne
    · exact hpos
  generalize (dest - src).toNat = d at hdest hlt hpos
  subst hdest
  generalize hj : max (chunksz : ℕ) d = j
  have hother : src + BitVec.ofNat 32 (j - d) ≠ src + BitVec.ofNat 32 j := by
    intro heq
    have hway := congrArg (fun x => (x - src).toNat) heq
    rw [toNat_add_sub (by omega), toNat_add_sub (by omega)] at hway
    omega
  -- a memory with one cell that is not zero
  refine ⟨Function.update (fun _ => 0) (src + BitVec.ofNat 32 j) 1, j, by omega, ?_⟩
  rw [← hj, moveChunks_of_overwritten hchunk hpos hlt hlen, hj, Function.update_self,
    Function.update_of_ne hother]
  exact show (0 : UInt8) ≠ 1 by decide

/-- **When `memmove_wd` moves a block.** -/
theorem memmoveWd_iff (watchdog : Bool) (chunksz : ℕ+) (dest src len : BitVec 32) :
    (∀ mem, Moved mem (memmoveWd watchdog chunksz mem dest src len) dest src len.toNat) ↔
      (watchdog = true → KeepsSource chunksz dest src len.toNat) := by
  cases watchdog with
  | false =>
    refine ⟨fun _ h => absurd h Bool.false_ne_true, fun _ mem => ?_⟩
    exact moved_memmove len.isLt.le
  | true =>
    refine ⟨fun h _ => ?_, fun h mem => moved_of_keepsSource len.isLt (h rfl)⟩
    by_contra hnot
    obtain ⟨mem, i, hi, hne⟩ := exists_not_moved len.isLt hnot
    exact hne ((h mem).inside i hi)

/-! ## The kernel -/

variable {P : Platform Memory} {watchdog legacyHdrValid : Bool} {os : ImageInfo}

theorem bootmLoadOs_memory (hcomp : os.comp = ihCompNone) (hload : os.load ≠ os.start) :
    (bootmLoadOs (P.withMemmoveWd watchdog chunksz) os mem).1 =
      memmoveWd watchdog chunksz mem os.load os.imageStart os.imageLen := by
  rw [bootmLoadOs]
  dsimp only
  rw [if_pos hcomp, if_neg hload]
  by_cases hplace : os.load = os.imageStart
  · -- nothing is moved
    rw [if_neg (not_not_intro hplace), hplace, memmoveWd, moveChunks_self, memmove, move_self,
      ite_self]
  · rw [if_pos hplace]
    rfl

/-- The loaded image overlaps the one in memory, as `bootm_load_os` compares them. -/
def Overlaps (os : ImageInfo) : Prop :=
  os.load < os.endAddr ∧ os.start < os.load + os.imageLen

theorem bootProceeds_iff (hcomp : os.comp = ihCompNone) :
    bootProceeds legacyHdrValid (bootmLoadOs (P.withMemmoveWd watchdog chunksz) os mem).2.1 = true ↔
      (Overlaps os → legacyHdrValid = true) := by
  rw [bootmLoadOs]
  dsimp only
  rw [if_pos hcomp]
  by_cases hoverlap : os.load < os.endAddr ∧ os.start < os.load + os.imageLen
  · rw [if_pos hoverlap]
    exact ⟨fun h _ => h, fun h => h hoverlap⟩
  · rw [if_neg hoverlap]
    exact ⟨fun _ h => absurd h hoverlap, fun _ => rfl⟩

theorem load_iff (hcomp : os.comp = ihCompNone) (hload : os.load ≠ os.start) :
    (∀ mem, bootProceeds legacyHdrValid
        (bootmLoadOs (P.withMemmoveWd watchdog chunksz) os mem).2.1 = true →
      cells (bootmLoadOs (P.withMemmoveWd watchdog chunksz) os mem).1 os.load os.imageLen.toNat =
        cells mem os.imageStart os.imageLen.toNat) ↔
      ((Overlaps os → legacyHdrValid = true) → watchdog = true →
        KeepsSource chunksz os.load os.imageStart os.imageLen.toNat) := by
  have hlen := os.imageLen.isLt
  simp only [bootProceeds_iff hcomp, bootmLoadOs_memory hcomp hload]
  cases watchdog with
  | false =>
    refine ⟨fun _ _ h => absurd h Bool.false_ne_true, fun _ mem _ => ?_⟩
    exact (moved_memmove hlen.le).cells_eq
  | true =>
    refine ⟨fun h hboots _ => ?_, fun h mem hboots => ?_⟩
    · by_contra hnot
      obtain ⟨mem, i, hi, hne⟩ := exists_not_moved hlen hnot
      exact hne (List.map_inj_left.mp (h mem hboots) i (List.mem_range.mpr hi))
    · exact (moved_of_keepsSource hlen (h hboots rfl)).cells_eq

/-- **When a block is moved, and when the kernel that is booted is the one of the image.** -/
theorem memmoveWd_boots_iff (watchdog : Bool) (chunksz : ℕ+) :
    (∀ dest src len,
      (∀ mem, Moved mem (memmoveWd watchdog chunksz mem dest src len) dest src len.toNat) ↔
        (watchdog = true → KeepsSource chunksz dest src len.toNat)) ∧
      ∀ (P : Platform Memory) (legacyHdrValid : Bool) (os : ImageInfo), os.comp = ihCompNone →
        os.load ≠ os.start →
        ((∀ mem, bootProceeds legacyHdrValid
            (bootmLoadOs (P.withMemmoveWd watchdog chunksz) os mem).2.1 = true →
          cells (bootmLoadOs (P.withMemmoveWd watchdog chunksz) os mem).1 os.load
              os.imageLen.toNat =
            cells mem os.imageStart os.imageLen.toNat) ↔
          ((Overlaps os → legacyHdrValid = true) → watchdog = true →
            KeepsSource chunksz os.load os.imageStart os.imageLen.toNat)) :=
  ⟨memmoveWd_iff watchdog chunksz, fun _ _ _ hcomp hload => load_iff hcomp hload⟩

/-- A machine with nothing but its memory. -/
def memoryPlatform : Platform Memory where
  find _ := ⟨0, 0, 0, .invalid, none, none⟩
  memmove m _ _ _ := m
  uncompress _ := none
  ramdiskHigh m _ _ := (m, none)
  setenvInitrd m _ _ := m
  relocateFdt m _ _ := (m, 0, 0, 0)
  disableInterrupts m := m
  bootOs _ _ _ m := (m, 0)

/-- A kernel image of 128 KiB, 64 bytes behind its header. -/
def kernelImage (load : BitVec 32) : ImageInfo :=
  ⟨0x1000, 0x21040, 0x1040, 0x20000, load, ihCompNone, 2, ihOsLinux⟩

/-- `CHUNKSZ`. -/
def chunkSize : ℕ+ := 65536

/-- The kernel is moved down over its header. -/
theorem memmoveWd_boots_iff_down :
    cells (bootmLoadOs (memoryPlatform.withMemmoveWd true chunkSize) (kernelImage 0x1020)
        fun x => UInt8.ofNat x.toNat).1 0x1020 0x20000 =
      cells (fun x => UInt8.ofNat x.toNat) (0x1040 : BitVec 32) 0x20000 := by
  refine ((memmoveWd_boots_iff true chunkSize).2 memoryPlatform true (kernelImage 0x1020) rfl
    (by decide)).mpr (fun _ _ => .inr (.inr (by decide))) _ ?_
  exact (bootProceeds_iff rfl).mpr fun _ => rfl

/-- The kernel is moved up by 64 bytes. -/
theorem not_memmoveWd_boots : ¬ ∀ mem,
    bootProceeds true
        (bootmLoadOs (memoryPlatform.withMemmoveWd true chunkSize) (kernelImage 0x1080) mem).2.1 =
          true →
      cells (bootmLoadOs (memoryPlatform.withMemmoveWd true chunkSize) (kernelImage 0x1080) mem).1
          (kernelImage 0x1080).load (kernelImage 0x1080).imageLen.toNat =
        cells mem (kernelImage 0x1080).imageStart (kernelImage 0x1080).imageLen.toNat := by
  intro h
  have hkeeps := (load_iff rfl (by decide)).mp h (fun _ => rfl) rfl
  rcases hkeeps with hchunk | heq | hway
  · exact absurd hchunk (by decide)
  · exact absurd heq (by decide)
  · exact absurd hway (by decide)

end Boot
end EmevBsp
