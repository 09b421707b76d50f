import EmevBsp.Library.AddressSpace
import EmevBsp.Library.TransitionSystem

/-!
# `fs/jffs2/jffs2_1pass.c`: the cache of `read_nand_cached`

A read takes its bytes from a window of 16 pages, and fills the window anew when the next byte is
not in it.  All that is known of the window is its offset: not the device that it was read from, and
not whether the read was a success, since the offset is set before the read.  So a read that begins
in the window gets what is there.

Offsets are 32 bits wide and wrap, as they do in the source.  What the device holds, and which of
its reads fail, may change between two calls.
-/

namespace EmevBsp
namespace Jffs2
namespace NandCache

open AddressSpace

/-! ## The cache -/

/-- `NAND_CACHE_SIZE` -/
abbrev cacheSize : ℕ := 16 * 512

/-- What a device holds. -/
abbrev Device := BitVec 32 → UInt8

/-- `nand_cache` and `nand_cache_off`.  The history variable `filled`, which is not in the source,
is what the device held when the cache was filled last, unless that failed. -/
structure Cache where
  bytes : Option (ℕ → UInt8)
  off : BitVec 32
  filled : Option Device

/-- The cache before the first call. -/
def Cache.initial : Cache := ⟨none, -1, none⟩

/-- What happens when the cache is filled: whether `malloc` has memory, if it is needed; and what a
read that fails or is short leaves. -/
structure Fill where
  memory : Bool
  left : Option (ℕ → UInt8)

/-- The byte is in the window. -/
def Cache.hit (c : Cache) (x : BitVec 32) : Bool :=
  ¬(x < c.off ∨ c.off + BitVec.ofNat 32 cacheSize ≤ x)

/-- The cache is filled, or not. -/
def fill (dev : Device) (f : Fill) (c : Cache) (x : BitVec 32) : Bool × Cache :=
  let off := x &&& ~~~BitVec.ofNat 32 511
  if c.bytes.isNone ∧ f.memory = false then (false, ⟨none, off, none⟩)
  else
    match f.left with
    | some left => (false, ⟨some left, off, none⟩)
    | none => (true, ⟨some fun i => dev (off + BitVec.ofNat 32 i), off, some dev⟩)

/-- The window for the next byte. -/
def window (dev : Device) (f : Fill) (c : Cache) (x : BitVec 32) : Bool × Cache :=
  if c.hit x then (true, c) else fill dev f c x

def Cache.cpyBytes (c : Cache) (x : BitVec 32) (remaining : ℕ) : ℕ :=
  min (c.off + BitVec.ofNat 32 cacheSize - x).toNat remaining

/-- `memcpy` from the window; without a cache that is from address 0 on. -/
def Cache.copy (low : ℕ → UInt8) (c : Cache) (x : BitVec 32) (n : ℕ) : List UInt8 :=
  (List.range n).map fun i => c.bytes.getD low ((x - c.off).toNat + i)

/-! ## The window -/

variable {dev : Device} {f : Fill} {c : Cache} {x : BitVec 32} {n : ℕ}

theorem toNat_left (h : (x - c.off).toNat < cacheSize) :
    (c.off + BitVec.ofNat 32 cacheSize - x).toNat = cacheSize - (x - c.off).toNat := by
  have hsub : c.off + BitVec.ofNat 32 cacheSize - x = BitVec.ofNat 32 cacheSize - (x - c.off) := by
    rw [sub_sub_eq_add_sub, add_comm]
  have hle : x - c.off ≤ BitVec.ofNat 32 cacheSize := by
    rw [BitVec.le_def]
    exact h.le
  rw [hsub, BitVec.toNat_sub_of_le hle]
  rfl

theorem toNat_sub_lt_of_hit (h : c.hit x = true) : (x - c.off).toNat < cacheSize := by
  rw [Cache.hit, decide_eq_true_iff, not_or, BitVec.not_lt, BitVec.not_le] at h
  obtain ⟨hle, hlt⟩ := h
  rw [BitVec.toNat_sub_of_le hle]
  rw [BitVec.le_def] at hle
  rw [BitVec.lt_def, BitVec.toNat_add, BitVec.toNat_ofNat] at hlt
  have hwrap := Nat.mod_le (c.off.toNat + cacheSize % 2 ^ 32) (2 ^ 32)
  omega

theorem toNat_sub_lt_of_fill : (x - (fill dev f c x).2.off).toNat < cacheSize := by
  have hoff : (fill dev f c x).2.off = x &&& ~~~BitVec.ofNat 32 511 := by
    rw [fill]
    split_ifs
    · rfl
    · cases f.left <;> rfl
  rw [hoff, sub_and_not, BitVec.toNat_and]
  exact Nat.lt_of_le_of_lt Nat.and_le_right (by decide)

theorem toNat_sub_lt_of_window (dev : Device) (f : Fill) (c : Cache) (x : BitVec 32) :
    (x - (window dev f c x).2.off).toNat < cacheSize := by
  rw [window]
  split_ifs with hhit
  · exact toNat_sub_lt_of_hit hhit
  · exact toNat_sub_lt_of_fill

theorem cpyBytes_pos (h : (x - c.off).toNat < cacheSize) (hn : n ≠ 0) : 0 < c.cpyBytes x n := by
  rw [Cache.cpyBytes, toNat_left h]
  omega

/-! ## The function -/

/-- The loop, from the byte `x` on, with what happens in each round. -/
def readLoop (low : ℕ → UInt8) (dev : Device) (fills : ℕ → Fill) (k : ℕ) (c : Cache)
    (x : BitVec 32) (remaining : ℕ) : Option (List UInt8) × Cache :=
  if remaining = 0 then (some [], c)
  else
    let w := window dev (fills k) c x
    if w.1 = false then (none, w.2)
    else
      let cpy := w.2.cpyBytes x remaining
      let r := readLoop low dev fills (k + 1) w.2 (x + BitVec.ofNat 32 cpy) (remaining - cpy)
      (r.1.map (w.2.copy low x cpy ++ ·), r.2)
termination_by remaining
decreasing_by
  next hne _ =>
  have hpos := cpyBytes_pos (toNat_sub_lt_of_window dev (fills k) c x) hne
  omega

/-- `read_nand_cached`: the bytes, or -1, and the cache. -/
def readNandCached (low : ℕ → UInt8) (dev : Device) (fills : ℕ → Fill) (c : Cache)
    (off size : BitVec 32) : Option (List UInt8) × Cache :=
  readLoop low dev fills 0 c off size.toNat

/-! ## One call -/

/-- The bytes of a device from an offset on. -/
def held (dev : Device) (off : BitVec 32) (n : ℕ) : List UInt8 :=
  (List.range n).map fun i => dev (off + BitVec.ofNat 32 i)

/-- What is in the cache after it was filled. -/
def Cache.Ok (c : Cache) : Prop :=
  ∀ dev, c.filled = some dev →
    ∃ b, c.bytes = some b ∧ ∀ i < cacheSize, b i = dev (c.off + BitVec.ofNat 32 i)

/-- **A call does not begin in a stale window**: if its first byte is in the window, the cache was
filled without a failure, and what the call takes from it is on the device what it was then. -/
def Fresh (dev : Device) (c : Cache) (x : BitVec 32) (n : ℕ) : Prop :=
  n ≠ 0 → c.hit x = true → ∃ dev', c.filled = some dev' ∧
    ∀ i < c.cpyBytes x n, dev' (x + BitVec.ofNat 32 i) = dev (x + BitVec.ofNat 32 i)

theorem held_add (m : ℕ) :
    held dev x (m + n) = held dev x m ++ held dev (x + BitVec.ofNat 32 m) n := by
  rw [held, held, held, List.range_add, List.map_append, List.map_map]
  refine congrArg _ (List.map_congr_left fun i _ => ?_)
  rw [Function.comp_apply, add_add]

theorem ok_fill : (fill dev f c x).2.Ok := by
  intro dev' hdev'
  rw [fill] at hdev' ⊢
  split_ifs at hdev' ⊢ with hnone
  cases hleft : f.left with
  | some left =>
    rw [hleft] at hdev'
    exact nomatch hdev'
  | none =>
    rw [hleft] at hdev'
    obtain rfl := Option.some.inj hdev'
    exact ⟨_, rfl, fun _ _ => rfl⟩

theorem copy_eq_held {low : ℕ → UInt8} {dev' : Device} (hok : c.Ok)
    (hin : (x - c.off).toNat < cacheSize) (hfilled : c.filled = some dev')
    (hsame : ∀ i < c.cpyBytes x n, dev' (x + BitVec.ofNat 32 i) = dev (x + BitVec.ofNat 32 i)) :
    c.copy low x (c.cpyBytes x n) = held dev x (c.cpyBytes x n) := by
  obtain ⟨b, hb, hwindow⟩ := hok dev' hfilled
  refine List.map_congr_left fun i hi => ?_
  have hi' := List.mem_range.mp hi
  have hlt : i < cacheSize - (x - c.off).toNat :=
    Nat.lt_of_lt_of_le hi' (toNat_left hin ▸ Nat.min_le_left _ _)
  rw [hb, Option.getD_some, hwindow _ (by omega), ← add_add, add_toNat_sub]
  exact hsame i hi'

theorem fresh_next :
    Fresh dev c (x + BitVec.ofNat 32 (c.cpyBytes x n)) (n - c.cpyBytes x n) := by
  intro hmore hhit
  have hall : c.cpyBytes x n = (c.off + BitVec.ofNat 32 cacheSize - x).toNat := by
    rw [Cache.cpyBytes] at hmore ⊢
    omega
  have hend : x + BitVec.ofNat 32 (c.cpyBytes x n) = c.off + BitVec.ofNat 32 cacheSize := by
    rw [hall, add_toNat_sub]
  rw [Cache.hit, decide_eq_true_iff, hend] at hhit
  exact absurd (Or.inr (BitVec.le_refl _)) hhit

theorem window_spec (hok : c.Ok) (hfresh : Fresh dev c x n) (hn : n ≠ 0) :
    (window dev f c x).2.Ok ∧ ((window dev f c x).1 = true →
      ∃ dev', (window dev f c x).2.filled = some dev' ∧
        ∀ i < (window dev f c x).2.cpyBytes x n,
          dev' (x + BitVec.ofNat 32 i) = dev (x + BitVec.ofNat 32 i)) := by
  rw [window]
  split_ifs with hhit
  · exact ⟨hok, fun _ => hfresh hn hhit⟩
  · refine ⟨ok_fill, fun h => ⟨dev, ?_, fun _ _ => rfl⟩⟩
    rw [fill] at h ⊢
    split_ifs at h ⊢
    cases hleft : f.left with
    | some left =>
      rw [hleft] at h
      exact nomatch h
    | none => rfl

theorem readLoop_spec (low : ℕ → UInt8) (dev : Device) (fills : ℕ → Fill) (k : ℕ) (c : Cache)
    (x : BitVec 32) (remaining : ℕ) (hok : c.Ok) (hfresh : Fresh dev c x remaining) :
    (readLoop low dev fills k c x remaining).2.Ok ∧
      ∀ bytes, (readLoop low dev fills k c x remaining).1 = some bytes →
        bytes = held dev x remaining := by
  rw [readLoop]
  dsimp only
  by_cases hzero : remaining = 0
  · rw [if_pos hzero]
    refine ⟨hok, fun bytes h => ?_⟩
    rw [hzero, ← Option.some.inj h]
    rfl
  · have hin := toNat_sub_lt_of_window dev (fills k) c x
    obtain ⟨hok', hwindow⟩ := window_spec (f := fills k) hok hfresh hzero
    rw [if_neg hzero]
    generalize window dev (fills k) c x = w at hin hok' hwindow ⊢
    by_cases hfail : w.1 = false
    · rw [if_pos hfail]
      exact ⟨hok', fun bytes h => nomatch h⟩
    · rw [if_neg hfail]
      obtain ⟨dev', hfilled, hsame⟩ := hwindow (Bool.eq_true_of_not_eq_false hfail)
      have hcopy : w.2.copy low x (w.2.cpyBytes x remaining) = _ :=
        copy_eq_held hok' hin hfilled hsame
      have hpos := cpyBytes_pos hin hzero
      have hle : w.2.cpyBytes x remaining ≤ remaining := Nat.min_le_right _ _
      obtain ⟨hrest, hbytes⟩ := readLoop_spec low dev fills (k + 1) w.2
        (x + BitVec.ofNat 32 (w.2.cpyBytes x remaining)) (remaining - w.2.cpyBytes x remaining)
        hok' fresh_next
      refine ⟨hrest, fun bytes h => ?_⟩
      obtain ⟨more, hmore, rfl⟩ := Option.map_eq_some_iff.mp h
      rw [hcopy, hbytes more hmore, ← held_add, Nat.add_sub_cancel' hle]
termination_by remaining
decreasing_by omega

theorem readLoop_of_window {low : ℕ → UInt8} {fills : ℕ → Fill} {k : ℕ} {c' : Cache}
    (h : window dev (fills k) c x = (true, c')) (hn : n ≠ 0) (hall : c'.cpyBytes x n = n) :
    readLoop low dev fills k c x n = (some (c'.copy low x n), c') := by
  rw [readLoop, if_neg hn, h]
  dsimp only
  rw [if_neg Bool.noConfusion, hall, Nat.sub_self, readLoop, if_pos rfl, Option.map_some,
    List.append_nil]

/-! ## Runs -/

/-- The cache, what the current device holds, and the last call with its result. -/
structure Session where
  cache : Cache
  dev : Device
  last : Option (BitVec 32 × BitVec 32 × Option (List UInt8))

/-- What happens: the current partition is on another device from now on, or the device was
rewritten; or a call, with what happens in its rounds. -/
inductive Event where
  | moved (dev : Device)
  | read (off size : BitVec 32) (fills : ℕ → Fill)

/-- What an event leaves. -/
def Session.after (low : ℕ → UInt8) (s : Session) : Event → Session
  | .moved dev => ⟨s.cache, dev, none⟩
  | .read off size fills =>
    let r := readNandCached low s.dev fills s.cache off size
    ⟨r.2, s.dev, some (off, size, r.1)⟩

/-- All runs, from the first call on. -/
def sessions (low : ℕ → UInt8) : TransitionSystem Session Event where
  init s := s.cache = Cache.initial ∧ s.last = none
  step s e t := t = s.after low e

/-- **A successful call returns what the current device holds.** -/
def Transparent (s : Session) : Prop :=
  ∀ off size bytes, s.last = some (off, size, some bytes) → bytes = held s.dev off size.toNat

/-- **The condition on an event**: a call does not begin in a stale window. -/
def EventOk (s : Session) : Event → Prop
  | .moved _ => True
  | .read off size _ => Fresh s.dev s.cache off size.toNat

/-- **In every run in which no call begins in a stale window**, every successful call returns what
the current device holds. -/
theorem transparent (low : ℕ → UInt8) (s : Session)
    (h : ((sessions low).restrict EventOk).Reachable s) : Transparent s := by
  have hinv : s.cache.Ok ∧ Transparent s := by
    refine TransitionSystem.Reachable.invariant_restrict (I := fun s => s.cache.Ok ∧ Transparent s)
      ?_ ?_ h
    · rintro s ⟨hcache, hlast⟩
      refine ⟨fun dev hdev => ?_, fun off size bytes hcall => ?_⟩
      · rw [hcache] at hdev
        exact nomatch hdev
      · rw [hlast] at hcall
        exact nomatch hcall
    · rintro s e t ⟨hok, -⟩ hevent rfl
      cases e with
      | moved dev => exact ⟨hok, fun off size bytes hcall => nomatch hcall⟩
      | read off size fills =>
        obtain ⟨hok', hbytes⟩ := readLoop_spec low s.dev fills 0 s.cache off size.toNat hok hevent
        refine ⟨hok', fun off' size' bytes hcall => ?_⟩
        obtain ⟨rfl, hrest⟩ := Prod.mk.inj (Option.some.inj hcall)
        obtain ⟨rfl, hresult⟩ := Prod.mk.inj hrest
        exact hbytes bytes hresult
  exact hinv.2

/-! ## Two devices -/

/-- A device all of whose bytes are the same. -/
def flat (b : UInt8) : Device := fun _ => b

/-- Before the first call. -/
def atStart (dev : Device) : Session := ⟨Cache.initial, dev, none⟩

/-- A round in which nothing fails. -/
def works : Fill := ⟨true, none⟩

/-- The first window of a device. -/
def firstWindow (dev : Device) : Cache :=
  ⟨some fun i => dev (0 + BitVec.ofNat 32 i), 0, some dev⟩

theorem readNandCached_first {low : ℕ → UInt8} {dev : Device} {c : Cache} {b : UInt8}
    (h : window dev works c 0 = (true, firstWindow (flat b))) :
    readNandCached low dev (fun _ => works) c 0 1 = (some [b], firstWindow (flat b)) := by
  have hone : (firstWindow (flat b)).cpyBytes 0 1 = 1 :=
    show min ((0 : BitVec 32) + BitVec.ofNat 32 cacheSize - 0).toNat 1 = 1 by decide
  exact readLoop_of_window h Nat.one_ne_zero hone

/-- The second of two reads of a byte begins in the window that the first one has filled. -/
theorem transparent_again : Transparent (((atStart (flat 0x42)).after (fun _ => 0)
    (.read 0 1 fun _ => works)).after (fun _ => 0) (.read 0 1 fun _ => works)) := by
  have hmiss : EventOk (atStart (flat 0x42)) (.read 0 1 fun _ => works) := by
    intro _ hhit
    have hmiss : Cache.initial.hit 0 = false := by decide
    exact absurd (hmiss.symm.trans hhit) Bool.false_ne_true
  have hfill : readNandCached (fun _ => 0) (flat 0x42) (fun _ => works) Cache.initial 0 1 =
      (some [0x42], firstWindow (flat 0x42)) := readNandCached_first rfl
  have hcache : ((atStart (flat 0x42)).after (fun _ => 0) (.read 0 1 fun _ => works)).cache =
      firstWindow (flat 0x42) := congrArg Prod.snd hfill
  have hhit : EventOk ((atStart (flat 0x42)).after (fun _ => 0) (.read 0 1 fun _ => works))
      (.read 0 1 fun _ => works) := by
    intro _ _
    rw [hcache]
    exact ⟨flat 0x42, rfl, fun _ _ => rfl⟩
  have hstart : ((sessions fun _ => 0).restrict EventOk).Reachable (atStart (flat 0x42)) :=
    .init ⟨rfl, rfl⟩
  exact transparent (fun _ => 0) _ ((hstart.step ⟨hmiss, rfl⟩).step ⟨hhit, rfl⟩)

/-- **The partition is moved to another device**, and the window is still that of the first one. -/
theorem not_transparent : ¬∀ low s, (sessions low).Reachable s → Transparent s := by
  intro h
  have hfirst : (sessions fun _ => 0).Reachable (atStart (flat 1)) := .init ⟨rfl, rfl⟩
  have hread := (hfirst.step (a := .read 0 1 fun _ => works) rfl).step (a := .moved (flat 2)) rfl
  have hagain := hread.step (a := .read 0 1 fun _ => works) rfl
  -- both calls have the window of the first device
  have hfill : readNandCached (fun _ => 0) (flat 1) (fun _ => works) Cache.initial 0 1 =
      (some [1], firstWindow (flat 1)) := readNandCached_first rfl
  have hstale : readNandCached (fun _ => 0) (flat 2) (fun _ => works) (firstWindow (flat 1)) 0 1 =
      (some [1], firstWindow (flat 1)) := readNandCached_first rfl
  simp only [Session.after, atStart, hfill, hstale] at hagain
  exact absurd (h _ _ hagain 0 1 [1] rfl) (by decide)

end NandCache
end Jffs2
end EmevBsp
