import EmevBsp.Library.TransitionSystem
import Mathlib.Data.BitVec
import Mathlib.Data.List.Nodup
import Mathlib.Tactic.Common

/-!
# `libgralloc`: the slots of the framebuffer

The framebuffer is mapped once and cut into two slots.  `gralloc_alloc_framebuffer_locked` gives
the first slot whose bit of `bufferMask` is clear to a handle; the handle holds the address of
the slot, and `gralloc_free` computes the bit back from it.  The address is computed with half
of `yres_virtual` lines, the bit with `yres` lines.

Addresses, sizes and masks have 32 bits.  What the system calls of `mapFrameBufferLocked` return
is a parameter of the step, and so is the geometry that the driver reports; file descriptors and
the floating point values of the module are left out.  A division by zero, a shift by 32 or more
and a null framebuffer give `none`.

* `mapFrameBufferLocked`, `grallocAllocFramebufferLocked`, `grallocFree`: the code.
* `FbInv`: the mask holds the bits of the live handles, which are two different ones.
* `slotsKept_iff`: **in every run no two live handles have one slot, and a handle that is freed
  clears its own bit**, exactly when the size used to free is at most the size used to allocate,
  and more than half of it.
* `not_slotsKept`: a screen that is not twice as high as what it shows.
-/

namespace EmevBsp
namespace Gralloc
namespace Framebuffer

/-! ## The module -/

/-- `yres` and `yres_virtual` of `fb_var_screeninfo`, `line_length` of `fb_fix_screeninfo`. -/
structure Screen where
  yres : BitVec 32
  yresVirtual : BitVec 32
  lineLength : BitVec 32

/-- The size of a slot when it is allocated. -/
def Screen.allocSize (screen : Screen) : BitVec 32 :=
  screen.lineLength * (screen.yresVirtual / 2)

/-- The size of a slot when it is freed. -/
def Screen.freeSize (screen : Screen) : BitVec 32 :=
  screen.lineLength * screen.yres

def privFlagsFramebuffer : BitVec 32 := 0x00000001

def privFlagsUsesPmem : BitVec 32 := 0x00000002

def sMagic : BitVec 32 := 0x3141592

/-- `private_handle_t`. -/
structure PrivateHandle where
  magic : BitVec 32
  flags : BitVec 32
  size : BitVec 32
  offset : BitVec 32
  base : BitVec 32
  deriving DecidableEq

/-- The constructor of `private_handle_t`. -/
def newHandle (size flags : BitVec 32) : PrivateHandle :=
  ⟨sMagic, flags, size, 0, 0⟩

/-- `private_module_t`. -/
structure PrivateModule where
  framebuffer : Option PrivateHandle
  numBuffers : BitVec 32
  bufferMask : BitVec 32
  screen : Screen

/-- `HAL_MODULE_INFO_SYM`. -/
def halModuleInfo : PrivateModule :=
  ⟨none, 0, 0, ⟨0, 0, 0⟩⟩

/-! ## Mapping the framebuffer -/

/-- What the system calls of `mapFrameBufferLocked` lead to.  `failed 0` is a screen without
memory, for which no call has failed. -/
inductive MapCalls where
  | failed (errno : ℕ)
  | unmapped (errno : ℕ)
  | mapped (vaddr : BitVec 32)

def pageSize : BitVec 32 := 4096

def roundUpToPageSize (x : BitVec 32) : BitVec 32 :=
  (x + (pageSize - 1)) &&& ~~~(pageSize - 1)

def mapFrameBufferLocked (module : PrivateModule) (screen : Screen) (calls : MapCalls) :
    ℤ × PrivateModule :=
  let fbSize := roundUpToPageSize (screen.lineLength * screen.yresVirtual)
  let framebuffer := newHandle fbSize privFlagsUsesPmem
  match module.framebuffer with
  -- already initialized...
  | some _ => (0, module)
  | none =>
    match calls with
    | .failed errno => (-errno, module)
    | .unmapped errno => (-errno, ⟨some framebuffer, 2, 0, screen⟩)
    | .mapped vaddr => (0, ⟨some { framebuffer with base := vaddr }, 2, 0, screen⟩)

/-! ## Allocating and freeing -/

def enomem : ℤ := 12

def einval : ℤ := 22

/-- `GRALLOC_USAGE_HW_FB` and `GRALLOC_USAGE_HW_2D`. -/
def usageHwFb : BitVec 32 := 0x00001000

def usageHw2d : BitVec 32 := 0x00000400

/-- What an allocation returns: an error, what `gralloc_alloc_buffer` returns for a size and a
usage, or a handle. -/
inductive AllocResult where
  | error (err : ℤ)
  | buffer (size usage : BitVec 32)
  | handle (hnd : PrivateHandle)

/-- `1LU << i`. -/
def slotBit (i : ℕ) : BitVec 32 :=
  1 <<< i

/-- The loop over `n` slots from slot `i` on: the free slot and the address it ends at. -/
def findSlot (bufferMask bufferSize : BitVec 32) : ℕ → ℕ → BitVec 32 → Option ℕ × BitVec 32
  | 0, _, vaddr => (none, vaddr)
  | n + 1, i, vaddr =>
    if bufferMask &&& slotBit i = 0 then (some i, vaddr)
    else findSlot bufferMask bufferSize n (i + 1) (vaddr + bufferSize)

/-- The "fake" handle of the slot at `vaddr`. -/
def slotHandle (framebuffer : PrivateHandle) (size vaddr : BitVec 32) : PrivateHandle :=
  { newHandle size (privFlagsUsesPmem ||| privFlagsFramebuffer) with
    base := vaddr
    offset := vaddr - framebuffer.base }

/-- `gralloc_alloc_framebuffer_locked` once the framebuffer is mapped. -/
def allocSlot (m : PrivateModule) (size usage : BitVec 32) :
    Option (AllocResult × PrivateModule) :=
  let bufferSize := m.screen.allocSize
  if m.numBuffers = 1 then some (.buffer bufferSize ((usage &&& ~~~usageHwFb) ||| usageHw2d), m)
  -- We ran out of buffers.
  else if slotBit m.numBuffers.toNat - 1 ≤ m.bufferMask then some (.error (-enomem), m)
  else
    m.framebuffer.map fun framebuffer =>
      let (slot, vaddr) :=
        findSlot m.bufferMask bufferSize m.numBuffers.toNat 0 framebuffer.base
      let bufferMask := slot.elim m.bufferMask fun i => m.bufferMask ||| slotBit i
      (.handle (slotHandle framebuffer size vaddr), { m with bufferMask := bufferMask })

def grallocAllocFramebufferLocked (m : PrivateModule) (screen : Screen) (calls : MapCalls)
    (size usage : BitVec 32) : Option (AllocResult × PrivateModule) :=
  let (err, m) := mapFrameBufferLocked m screen calls
  if err < 0 then some (.error err, m) else allocSlot m size usage

/-- `gralloc_free`, what it does to the module.  A handle that is not of the framebuffer goes to
the allocator. -/
def grallocFree (m : PrivateModule) (hnd : PrivateHandle) : Option (ℤ × PrivateModule) :=
  if hnd.magic ≠ sMagic then some (-einval, m)
  else if hnd.flags &&& privFlagsFramebuffer ≠ 0 then
    m.framebuffer.bind fun framebuffer =>
      let bufferSize := m.screen.freeSize
      let index := (hnd.base - framebuffer.base) / bufferSize
      if bufferSize = 0 ∨ 32 ≤ index.toNat then none
      else some (0, { m with bufferMask := m.bufferMask &&& ~~~slotBit index.toNat })
  else some (0, m)

/-! ## Runs -/

/-- The module and the framebuffer handles that were not freed, each with the bits of
`bufferMask` that its allocation set. -/
structure FbState where
  module : PrivateModule
  live : List (PrivateHandle × BitVec 32)

inductive FbCall where
  | openDevice (calls : MapCalls)
  | alloc (calls : MapCalls) (size usage : BitVec 32)
  | free (hnd : PrivateHandle)

/-- A call: the framebuffer device is opened, a framebuffer is allocated or is refused, or a live
handle is freed. -/
inductive FbStep (screen : Screen) : FbState → FbCall → FbState → Prop where
  | openDevice (s : FbState) (calls : MapCalls) :
      FbStep screen s (.openDevice calls)
        { s with module := (mapFrameBufferLocked s.module screen calls).2 }
  | alloc (s : FbState) (calls : MapCalls) (size usage : BitVec 32) (hnd : PrivateHandle)
      (m : PrivateModule) :
      grallocAllocFramebufferLocked s.module screen calls size usage = some (.handle hnd, m) →
      FbStep screen s (.alloc calls size usage)
        ⟨m, (hnd, s.module.bufferMask ^^^ m.bufferMask) :: s.live⟩
  | refused (s : FbState) (calls : MapCalls) (size usage : BitVec 32) (res : AllocResult)
      (m : PrivateModule) :
      grallocAllocFramebufferLocked s.module screen calls size usage = some (res, m) →
      (∀ hnd, res ≠ .handle hnd) → FbStep screen s (.alloc calls size usage) ⟨m, s.live⟩
  | free (s : FbState) (pre post : List (PrivateHandle × BitVec 32)) (hnd : PrivateHandle)
      (bits : BitVec 32) (ret : ℤ) (m : PrivateModule) :
      s.live = pre ++ (hnd, bits) :: post → grallocFree s.module hnd = some (ret, m) →
      FbStep screen s (.free hnd) ⟨m, pre ++ post⟩

/-- The runs on a screen. -/
def fbSystem (screen : Screen) : TransitionSystem FbState FbCall where
  init s := s = ⟨halModuleInfo, []⟩
  step := FbStep screen

/-- No two live handles have one slot. -/
def SlotsApart (s : FbState) : Prop :=
  s.live.Pairwise fun x y => x.1.base ≠ y.1.base

/-- Freeing a live handle clears the bits that its allocation set, and no others. -/
def FreesOwnBits (s : FbState) : Prop :=
  ∀ x ∈ s.live, ∃ m, grallocFree s.module x.1 = some (0, m) ∧
    s.module.bufferMask &&& x.2 = x.2 ∧ m.bufferMask = s.module.bufferMask &&& ~~~x.2

/-- On this screen every run keeps the slots and their bits. -/
def SlotsKept (screen : Screen) : Prop :=
  ∀ s, (fbSystem screen).Reachable s → SlotsApart s ∧ FreesOwnBits s

/-! ## The invariant -/

/-- The address of the slot with a bit. -/
def IsSlot (screen : Screen) (framebuffer : PrivateHandle) (x : PrivateHandle × BitVec 32) :
    Prop :=
  x.1.magic = sMagic ∧ x.1.flags = privFlagsUsesPmem ||| privFlagsFramebuffer ∧
    (x.2 = slotBit 0 ∧ x.1.base = framebuffer.base ∨
      x.2 = slotBit 1 ∧ x.1.base = framebuffer.base + screen.allocSize)

/-- The mask of which the bits in the list are set. -/
def maskOf (bits : List (BitVec 32)) : BitVec 32 :=
  (if slotBit 0 ∈ bits then slotBit 0 else 0) ||| if slotBit 1 ∈ bits then slotBit 1 else 0

/-- Before the framebuffer is mapped nothing is live.  Afterwards the live handles have the bits
of the mask, each one bit. -/
inductive FbInv (screen : Screen) : FbState → Prop where
  | unmapped (m : PrivateModule) : m.framebuffer = none → m.numBuffers = 0 →
      m.bufferMask = 0 → FbInv screen ⟨m, []⟩
  | mapped (framebuffer : PrivateHandle) (live : List (PrivateHandle × BitVec 32)) :
      (∀ x ∈ live, IsSlot screen framebuffer x) → (live.map Prod.snd).Nodup →
      FbInv screen ⟨⟨some framebuffer, 2, maskOf (live.map Prod.snd), screen⟩, live⟩

section

variable {screen : Screen}

/-! ### The steps -/

theorem mapFrameBufferLocked_of_some {m : PrivateModule} {framebuffer : PrivateHandle}
    (h : m.framebuffer = some framebuffer) (calls : MapCalls) :
    mapFrameBufferLocked m screen calls = (0, m) := by
  simp only [mapFrameBufferLocked, h]

theorem FbInv.mapFrameBuffer {s : FbState} (h : FbInv screen s) (calls : MapCalls) :
    FbInv screen { s with module := (mapFrameBufferLocked s.module screen calls).2 } ∧
      (mapFrameBufferLocked s.module screen calls).2.bufferMask = s.module.bufferMask := by
  cases h with
  | unmapped m hfb hnum hmask =>
    simp only [mapFrameBufferLocked, hfb]
    cases calls with
    | failed errno => exact ⟨.unmapped m hfb hnum hmask, rfl⟩
    | unmapped errno => exact ⟨.mapped _ [] (by simp) List.nodup_nil, hmask.symm⟩
    | mapped vaddr => exact ⟨.mapped _ [] (by simp) List.nodup_nil, hmask.symm⟩
  | mapped framebuffer live hslot hnodup =>
    rw [mapFrameBufferLocked_of_some rfl]
    exact ⟨.mapped framebuffer live hslot hnodup, rfl⟩

theorem maskOf_and_first (bits : List (BitVec 32)) :
    maskOf bits &&& slotBit 0 = 0 ↔ slotBit 0 ∉ bits := by
  unfold maskOf
  split_ifs with h0 h1 h1
  · exact iff_of_false (by decide) (not_not.mpr h0)
  · exact iff_of_false (by decide) (not_not.mpr h0)
  · exact iff_of_true (by decide) h0
  · exact iff_of_true (by decide) h0

theorem maskOf_and_second (bits : List (BitVec 32)) :
    maskOf bits &&& slotBit 1 = 0 ↔ slotBit 1 ∉ bits := by
  unfold maskOf
  split_ifs with h0 h1 h1
  · exact iff_of_false (by decide) (not_not.mpr h1)
  · exact iff_of_true (by decide) h1
  · exact iff_of_false (by decide) (not_not.mpr h1)
  · exact iff_of_true (by decide) h1

theorem findSlot_maskOf (bits : List (BitVec 32)) (bufferSize vaddr : BitVec 32) :
    findSlot (maskOf bits) bufferSize 2 0 vaddr =
      if slotBit 0 ∉ bits then (some 0, vaddr)
      else if slotBit 1 ∉ bits then (some 1, vaddr + bufferSize)
      else (none, vaddr + bufferSize + bufferSize) := by
  simp only [findSlot, Nat.zero_add, maskOf_and_first, maskOf_and_second]

theorem le_maskOf_iff (bits : List (BitVec 32)) :
    slotBit 2 - 1 ≤ maskOf bits ↔ slotBit 0 ∈ bits ∧ slotBit 1 ∈ bits := by
  unfold maskOf
  split_ifs with h0 h1 h1
  · exact iff_of_true (by decide) ⟨h0, h1⟩
  · exact iff_of_false (by decide) fun h => h1 h.2
  · exact iff_of_false (by decide) fun h => h0 h.1
  · exact iff_of_false (by decide) fun h => h0 h.1

theorem maskOf_cons {bits : List (BitVec 32)} {bit : BitVec 32}
    (hbit : bit = slotBit 0 ∨ bit = slotBit 1) (hnew : bit ∉ bits) :
    maskOf (bit :: bits) = maskOf bits ||| bit ∧ maskOf bits ^^^ maskOf (bit :: bits) = bit ∧
      maskOf (bit :: bits) &&& bit = bit ∧ maskOf (bit :: bits) &&& ~~~bit = maskOf bits := by
  have hne : slotBit 0 ≠ slotBit 1 := by decide
  rcases hbit with rfl | rfl
  · simp only [maskOf, List.mem_cons, true_or, if_true, hne.symm, false_or, if_neg hnew]
    split_ifs <;> decide
  · simp only [maskOf, List.mem_cons, true_or, if_true, hne, false_or, if_neg hnew]
    split_ifs <;> decide

theorem allocSlot_of_findSlot {m : PrivateModule} {framebuffer : PrivateHandle} {i : ℕ}
    {vaddr : BitVec 32} (hfb : m.framebuffer = some framebuffer) (hnum : m.numBuffers = 2)
    (hroom : ¬ slotBit 2 - 1 ≤ m.bufferMask)
    (hfind : findSlot m.bufferMask m.screen.allocSize 2 0 framebuffer.base = (some i, vaddr))
    (size usage : BitVec 32) :
    allocSlot m size usage = some (.handle (slotHandle framebuffer size vaddr),
      { m with bufferMask := m.bufferMask ||| slotBit i }) := by
  have htwo : (2 : BitVec 32).toNat = 2 := rfl
  have hone : ¬ (2 : BitVec 32) = 1 := by decide
  simp only [allocSlot, hnum, htwo, if_neg hone, if_neg hroom, hfb, hfind, Option.map_some,
    Option.elim]

/-- **An allocation** in a mapped framebuffer is refused when both bits are set; otherwise it sets
one that is clear, and the handle has its slot. -/
theorem allocSlot_cases (framebuffer : PrivateHandle) (bits : List (BitVec 32))
    (size usage : BitVec 32) :
    allocSlot ⟨some framebuffer, 2, maskOf bits, screen⟩ size usage =
        some (.error (-enomem), ⟨some framebuffer, 2, maskOf bits, screen⟩) ∨
      ∃ hnd bit, bit ∉ bits ∧ IsSlot screen framebuffer (hnd, bit) ∧
        allocSlot ⟨some framebuffer, 2, maskOf bits, screen⟩ size usage =
          some (.handle hnd, ⟨some framebuffer, 2, maskOf (bit :: bits), screen⟩) := by
  have hfind := findSlot_maskOf bits screen.allocSize framebuffer.base
  have hfull := le_maskOf_iff bits
  by_cases h0 : slotBit 0 ∈ bits
  · by_cases h1 : slotBit 1 ∈ bits
    · refine Or.inl ?_
      have hone : ¬ (2 : BitVec 32) = 1 := by decide
      rw [allocSlot, if_neg hone]
      exact if_pos (hfull.mpr ⟨h0, h1⟩)
    · rw [if_neg (not_not.mpr h0), if_pos h1] at hfind
      refine Or.inr ⟨slotHandle framebuffer size (framebuffer.base + screen.allocSize), slotBit 1,
        h1, ⟨rfl, rfl, Or.inr ⟨rfl, rfl⟩⟩, ?_⟩
      rw [(maskOf_cons (Or.inr rfl) h1).1]
      exact allocSlot_of_findSlot rfl rfl (fun h => h1 (hfull.mp h).2) hfind size usage
  · rw [if_pos h0] at hfind
    refine Or.inr ⟨slotHandle framebuffer size framebuffer.base, slotBit 0, h0,
      ⟨rfl, rfl, Or.inl ⟨rfl, rfl⟩⟩, ?_⟩
    rw [(maskOf_cons (Or.inl rfl) h0).1]
    exact allocSlot_of_findSlot rfl rfl (fun h => h0 (hfull.mp h).1) hfind size usage

theorem IsSlot.bit {framebuffer : PrivateHandle} {x : PrivateHandle × BitVec 32}
    (h : IsSlot screen framebuffer x) : x.2 = slotBit 0 ∨ x.2 = slotBit 1 :=
  h.2.2.imp And.left And.left

theorem grallocFree_of_isSlot {framebuffer : PrivateHandle} {x : PrivateHandle × BitVec 32}
    (mask : BitVec 32) (h : IsSlot screen framebuffer x)
    (hle : screen.freeSize.toNat ≤ screen.allocSize.toNat)
    (hlt : screen.allocSize.toNat < 2 * screen.freeSize.toNat) :
    grallocFree ⟨some framebuffer, 2, mask, screen⟩ x.1 =
      some (0, ⟨some framebuffer, 2, mask &&& ~~~x.2, screen⟩) := by
  obtain ⟨hmagic, hflags, hslot⟩ := h
  have hfb : x.1.flags &&& privFlagsFramebuffer ≠ 0 := by
    rw [hflags]
    decide
  have hsize : screen.freeSize ≠ 0 := by
    intro hzero
    rw [hzero] at hlt
    exact absurd hlt (Nat.not_lt_zero _)
  rw [grallocFree, if_neg (not_not.mpr hmagic), if_pos hfb]
  rcases hslot with ⟨hbit, hbase⟩ | ⟨hbit, hbase⟩
  · have hindex : ((x.1.base - framebuffer.base) / screen.freeSize).toNat = 0 := by
      rw [hbase, BitVec.sub_self, BitVec.toNat_udiv]
      exact Nat.zero_div _
    simp only [Option.bind_some, hindex, hsize, false_or, hbit]
    rfl
  · have hindex : ((x.1.base - framebuffer.base) / screen.freeSize).toNat = 1 := by
      rw [hbase, add_sub_cancel_left, BitVec.toNat_udiv]
      exact Nat.div_eq_of_lt_le (by omega) (by omega)
    simp only [Option.bind_some, hindex, hsize, false_or, hbit]
    rfl

/-! ### Every run -/

theorem FbInv.alloc {m : PrivateModule} {live : List (PrivateHandle × BitVec 32)}
    (h : FbInv screen ⟨m, live⟩) (size usage : BitVec 32) :
    (∃ err, allocSlot m size usage = some (.error err, m)) ∨
      ∃ hnd m', allocSlot m size usage = some (.handle hnd, m') ∧
        FbInv screen ⟨m', (hnd, m.bufferMask ^^^ m'.bufferMask) :: live⟩ := by
  cases h with
  | unmapped m hfb hnum hmask =>
    refine Or.inl ⟨-enomem, ?_⟩
    rw [allocSlot, hnum, hmask, if_neg (by decide), if_pos (by decide)]
  | mapped framebuffer live hslot hnodup =>
    rcases @allocSlot_cases screen framebuffer (live.map Prod.snd) size usage with
      hrefused | ⟨hnd, bit, hnew, hisSlot, halloc⟩
    · exact Or.inl ⟨_, hrefused⟩
    · refine Or.inr ⟨hnd, _, halloc, ?_⟩
      dsimp only
      rw [(maskOf_cons hisSlot.bit hnew).2.1]
      refine .mapped framebuffer ((hnd, bit) :: live) (fun x hx => ?_) ?_
      · rcases List.mem_cons.mp hx with rfl | hx
        · exact hisSlot
        · exact hslot x hx
      · exact List.nodup_cons.mpr ⟨hnew, hnodup⟩

theorem maskOf_erase {pre post : List (BitVec 32)} {bit : BitVec 32}
    (hbit : bit = slotBit 0 ∨ bit = slotBit 1) (hnodup : (pre ++ bit :: post).Nodup) :
    maskOf (pre ++ bit :: post) &&& bit = bit ∧
      maskOf (pre ++ bit :: post) &&& ~~~bit = maskOf (pre ++ post) := by
  have hperm : (pre ++ bit :: post).Perm (bit :: (pre ++ post)) := List.perm_middle
  have hsame : maskOf (pre ++ bit :: post) = maskOf (bit :: (pre ++ post)) := by
    simp only [maskOf, hperm.mem_iff]
  have hnew : bit ∉ pre ++ post := (List.nodup_cons.mp (hperm.nodup_iff.mp hnodup)).1
  rw [hsame]
  exact (maskOf_cons hbit hnew).2.2

theorem FbInv.slotsKept {s : FbState} (h : FbInv screen s)
    (hle : screen.freeSize.toNat ≤ screen.allocSize.toNat)
    (hlt : screen.allocSize.toNat < 2 * screen.freeSize.toNat) :
    SlotsApart s ∧ FreesOwnBits s := by
  cases h with
  | unmapped m hfb hnum hmask =>
    exact ⟨List.Pairwise.nil, fun x hx => absurd hx List.not_mem_nil⟩
  | mapped framebuffer live hslot hnodup =>
    constructor
    · have hne : screen.allocSize ≠ 0 := by
        intro hzero
        have hnone : screen.allocSize.toNat = 0 := by
          rw [hzero]
          rfl
        omega
      rw [List.Nodup, List.pairwise_map] at hnodup
      refine List.Pairwise.imp_of_mem (fun {x y} hx hy hbits hbase => hbits ?_) hnodup
      rcases (hslot x hx).2.2 with ⟨hxbit, hxbase⟩ | ⟨hxbit, hxbase⟩
      · rcases (hslot y hy).2.2 with ⟨hybit, hybase⟩ | ⟨hybit, hybase⟩
        · rw [hxbit, hybit]
        · rw [hxbase, hybase] at hbase
          exact absurd (left_eq_add.mp hbase) hne
      · rcases (hslot y hy).2.2 with ⟨hybit, hybase⟩ | ⟨hybit, hybase⟩
        · rw [hxbase, hybase] at hbase
          exact absurd (add_eq_left.mp hbase) hne
        · rw [hxbit, hybit]
    · intro x hx
      refine ⟨_, grallocFree_of_isSlot _ (hslot x hx) hle hlt, ?_, rfl⟩
      obtain ⟨pre, post, rfl⟩ := List.append_of_mem hx
      rw [List.map_append, List.map_cons] at hnodup ⊢
      exact (maskOf_erase (hslot x hx).bit hnodup).1

theorem FbInv.step {s t : FbState} {call : FbCall} (h : FbInv screen s)
    (hstep : FbStep screen s call t) (hle : screen.freeSize.toNat ≤ screen.allocSize.toNat)
    (hlt : screen.allocSize.toNat < 2 * screen.freeSize.toNat) : FbInv screen t := by
  cases hstep with
  | openDevice calls => exact (h.mapFrameBuffer calls).1
  | alloc calls size usage hnd m hcall =>
    obtain ⟨hmap, hmask⟩ := h.mapFrameBuffer calls
    rw [grallocAllocFramebufferLocked] at hcall
    dsimp only at hcall
    split_ifs at hcall with herr
    · exact absurd hcall (by simp)
    · rcases hmap.alloc size usage with ⟨err, hrefused⟩ | ⟨hnd', m', halloc, hinv⟩
      · exact absurd (hrefused.symm.trans hcall) (by simp)
      · obtain ⟨hhnd, rfl⟩ := Prod.mk.inj (Option.some.inj (halloc.symm.trans hcall))
        obtain rfl := AllocResult.handle.inj hhnd
        rwa [hmask] at hinv
  | refused calls size usage res m hcall hres =>
    obtain ⟨hmap, -⟩ := h.mapFrameBuffer calls
    rw [grallocAllocFramebufferLocked] at hcall
    dsimp only at hcall
    split_ifs at hcall with herr
    · obtain ⟨-, rfl⟩ := Prod.mk.inj (Option.some.inj hcall)
      exact hmap
    · rcases hmap.alloc size usage with ⟨err, hrefused⟩ | ⟨hnd, m', halloc, -⟩
      · obtain ⟨-, rfl⟩ := Prod.mk.inj (Option.some.inj (hrefused.symm.trans hcall))
        exact hmap
      · obtain ⟨rfl, -⟩ := Prod.mk.inj (Option.some.inj (halloc.symm.trans hcall))
        exact absurd rfl (hres hnd)
  | free pre post hnd bits ret m hlive hfree =>
    cases h with
    | unmapped m hfb hnum hmask => exact absurd hlive (by simp)
    | mapped framebuffer live hslot hnodup =>
      dsimp only at hlive
      subst hlive
      have hx : (hnd, bits) ∈ pre ++ (hnd, bits) :: post := by simp
      obtain ⟨-, rfl⟩ := Prod.mk.inj (Option.some.inj
        ((grallocFree_of_isSlot _ (hslot _ hx) hle hlt).symm.trans hfree))
      rw [List.map_append, List.map_cons] at hnodup ⊢
      rw [(maskOf_erase (hslot _ hx).bit hnodup).2, ← List.map_append]
      refine .mapped framebuffer (pre ++ post) (fun x hx' => hslot x ?_) ?_
      · simp only [List.mem_append, List.mem_cons] at hx' ⊢
        tauto
      · rw [List.map_append]
        exact (List.nodup_middle.mp hnodup).of_cons

theorem slotsKept_of_sizes (hle : screen.freeSize.toNat ≤ screen.allocSize.toNat)
    (hlt : screen.allocSize.toNat < 2 * screen.freeSize.toNat) : SlotsKept screen := by
  intro s hs
  refine FbInv.slotsKept (TransitionSystem.Reachable.invariant (I := FbInv screen)
    (fun t ht => ?_) (fun t call t' ht hstep => ht.step hstep hle hlt) hs) hle hlt
  obtain rfl := ht
  exact .unmapped _ rfl rfl rfl

/-! ### Two handles -/

/-- The framebuffer at `0x40000000`. -/
def mappedAt (screen : Screen) : PrivateHandle :=
  { newHandle (roundUpToPageSize (screen.lineLength * screen.yresVirtual)) privFlagsUsesPmem with
    base := 0x40000000 }

/-- The handle of its second slot. -/
def secondHandle (screen : Screen) : PrivateHandle :=
  slotHandle (mappedAt screen) 0 (0x40000000 + screen.allocSize)

theorem alloc_step {framebuffer : PrivateHandle} {mask vaddr : BitVec 32} {i : ℕ}
    (live : List (PrivateHandle × BitVec 32)) (hroom : ¬ slotBit 2 - 1 ≤ mask)
    (hfind : findSlot mask screen.allocSize 2 0 framebuffer.base = (some i, vaddr)) :
    FbStep screen ⟨⟨some framebuffer, 2, mask, screen⟩, live⟩ (.alloc (.failed 0) 0 0)
      ⟨⟨some framebuffer, 2, mask ||| slotBit i, screen⟩,
        (slotHandle framebuffer 0 vaddr, mask ^^^ (mask ||| slotBit i)) :: live⟩ := by
  obtain ⟨m, hm⟩ : ∃ m : PrivateModule, m = ⟨some framebuffer, 2, mask, screen⟩ := ⟨_, rfl⟩
  have hcall : grallocAllocFramebufferLocked m screen (.failed 0) 0 0 =
      some (.handle (slotHandle framebuffer 0 vaddr),
        ⟨some framebuffer, 2, mask ||| slotBit i, screen⟩) := by
    rw [grallocAllocFramebufferLocked, mapFrameBufferLocked_of_some (by rw [hm]), hm]
    exact allocSlot_of_findSlot (m := ⟨some framebuffer, 2, mask, screen⟩) rfl rfl hroom hfind 0 0
  rw [hm] at hcall
  exact FbStep.alloc ⟨⟨some framebuffer, 2, mask, screen⟩, live⟩ (.failed 0) 0 0 _ _ hcall

theorem reachable_twoHandles (screen : Screen) :
    ∃ x, (fbSystem screen).Reachable
      ⟨⟨some (mappedAt screen), 2, 3, screen⟩, [(secondHandle screen, slotBit 1), x]⟩ := by
  have hopen : (fbSystem screen).Reachable ⟨⟨some (mappedAt screen), 2, 0, screen⟩, []⟩ :=
    .step (.init rfl) (.openDevice ⟨halModuleInfo, []⟩ (.mapped 0x40000000))
  have hroom : ¬ slotBit 2 - 1 ≤ (0 : BitVec 32) := by decide
  have hroom' : ¬ slotBit 2 - 1 ≤ 0 ||| slotBit 0 := by decide
  have hfind : findSlot 0 screen.allocSize 2 0 (mappedAt screen).base = (some 0, 0x40000000) :=
    if_pos (by decide)
  have hfind' : findSlot (0 ||| slotBit 0) screen.allocSize 2 0 (mappedAt screen).base =
      (some 1, 0x40000000 + screen.allocSize) :=
    (if_neg (by decide)).trans (if_pos (by decide))
  exact ⟨_, (hopen.step (alloc_step [] hroom hfind)).step (alloc_step _ hroom' hfind')⟩

theorem eq_one_of_clear {i : ℕ} (hi : i < 32)
    (h : (3 : BitVec 32) &&& ~~~slotBit i = 3 &&& ~~~slotBit 1) : i = 1 := by
  have hall : ∀ j : Fin 32, (3 : BitVec 32) &&& ~~~slotBit j = 3 &&& ~~~slotBit 1 → j = 1 := by
    decide
  exact congrArg Fin.val (hall ⟨i, hi⟩ h)

theorem sizes_of_slotsKept (h : SlotsKept screen) :
    screen.freeSize.toNat ≤ screen.allocSize.toNat ∧
      screen.allocSize.toNat < 2 * screen.freeSize.toNat := by
  obtain ⟨x, hreach⟩ := reachable_twoHandles screen
  obtain ⟨m, hfree, -, hmask⟩ := (h _ hreach).2 (secondHandle screen, slotBit 1) (by simp)
  have hindex : (secondHandle screen).base - (mappedAt screen).base = screen.allocSize :=
    add_sub_cancel_left _ _
  have hmagic : ¬ (secondHandle screen).magic ≠ sMagic := not_not.mpr rfl
  have hflags : (secondHandle screen).flags &&& privFlagsFramebuffer ≠ 0 := by
    show (privFlagsUsesPmem ||| privFlagsFramebuffer) &&& privFlagsFramebuffer ≠ 0
    decide
  simp only [grallocFree, Option.bind_some, hindex, if_neg hmagic, if_pos hflags] at hfree
  split_ifs at hfree with hbad
  obtain ⟨hsize, hrange⟩ := not_or.mp hbad
  obtain ⟨-, rfl⟩ := Prod.mk.inj (Option.some.inj hfree)
  have hone := eq_one_of_clear (not_le.mp hrange) hmask
  have hpos : 0 < screen.freeSize.toNat := by bv_omega
  rw [BitVec.toNat_udiv, Nat.div_eq_iff hpos] at hone
  omega

/-- **The slots are kept** on a screen exactly when the size used to free is at most the size used
to allocate, and more than half of it. -/
theorem slotsKept_iff (screen : Screen) :
    SlotsKept screen ↔ screen.freeSize.toNat ≤ screen.allocSize.toNat ∧
      screen.allocSize.toNat < 2 * screen.freeSize.toNat :=
  ⟨sizes_of_slotsKept, fun h => slotsKept_of_sizes h.1 h.2⟩

end

/-! ### A screen that is not twice as high -/

/-- **On a screen as high as what it shows** the second handle clears the bit of the first. -/
theorem not_slotsKept : ¬ ∀ screen, SlotsKept screen := by
  intro h
  have hsizes := sizes_of_slotsKept (h ⟨480, 480, 1600⟩)
  exact absurd hsizes.1 (by decide)

end Framebuffer
end Gralloc
end EmevBsp
