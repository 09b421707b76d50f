import EmevBsp.Fdt.OpenInto
import EmevBsp.LibGeneric.Vsprintf
import EmevBsp.Lmb.Cover
import Mathlib.Order.CompletePartialOrder

/-!
# `common/image.c`: the places of what a kernel is started with

Before a kernel is started its memory is planned with the map of `lib_generic/lmb.c`: the loaded
kernel is reserved, and the ramdisk, the command line, the board information and the device tree
are each put in a range that is allocated, or left where they are and reserved there.

Each function is modelled with what it does to the map, the range it takes, which is an *item*
of the plan, and the bytes it writes.
-/

namespace EmevBsp
namespace Boot

open Lmb Fdt

/-! ## Items -/

/-- The constants of the configuration, and `addr2info`, which tells whether an address is in
flash. -/
structure PlanConfig where
  /-- `CONFIG_SYS_BARGSIZE`. -/
  bargsize : PhysAddr
  /-- `CONFIG_SYS_BOOTMAPSZ`. -/
  bootmapsz : PhysAddr
  /-- `CONFIG_SYS_FDT_PAD`. -/
  fdtPad : PhysAddr
  /-- `sizeof(bd_t)`. -/
  bdSize : PhysAddr
  inFlash : PhysAddr → Bool

/-- A range of the plan, and what was written for it. -/
structure Item where
  base : PhysAddr
  size : PhysAddr
  writes : List Write

/-- The addresses of the range. -/
def Item.range (i : Item) : Set ℕ :=
  Lmb.range i.base i.size

/-- What a call leaves: its result, the map and the range it took. -/
structure Placed where
  ret : ℤ
  lmb : Lmb
  item : Option Item

/-- The range is reserved; the result of `lmb_reserve` is not looked at. -/
def placeReserve (lmb : Lmb) (base size : PhysAddr) (writes : List Write) : Option Placed :=
  (lmbReserve lmb base size).map fun p => ⟨0, p.2, some ⟨base, size, writes⟩⟩

/-- The range is allocated; the result is `-1` where there is no place. -/
def placeAlloc (lmb : Lmb) (size align maxAddr : PhysAddr) (writes : PhysAddr → List Write) :
    Option Placed :=
  (lmbAllocBase lmb size align maxAddr).map fun p =>
    if p.1 = 0 then ⟨-1, p.2, none⟩ else ⟨0, p.2, some ⟨p.1, size, writes p.1⟩⟩

/-! ## The functions -/

/-- The reservation of the loaded kernel in `do_bootm`. -/
def reserveKernel (lmb : Lmb) (load loadEnd : PhysAddr) : Option Placed :=
  placeReserve lmb load (loadEnd - load) []

/-- The variable `initrd_high`; not set, there are no restrictions to load high. -/
def initrdHigh (getenv : String → Option (List UInt8)) : PhysAddr :=
  match getenv "initrd_high" with
  | some s => BitVec.ofNat 32 (simpleStrtoul s 16).1
  | none => ~~~0

def initrdCopyToRam (getenv : String → Option (List UInt8)) : Bool :=
  ¬ ((getenv "initrd_high").isSome ∧ initrdHigh getenv = ~~~0)

def bootRamdiskHigh (getenv : String → Option (List UInt8)) (lmb : Lmb)
    (rdData rdLen : PhysAddr) : Option Placed :=
  if rdData ≠ 0 then
    if ¬ initrdCopyToRam getenv then
      -- zero-copy ramdisk support
      placeReserve lmb rdData rdLen []
    else
      -- zero is no limit, as in lmb_alloc
      placeAlloc lmb rdLen 0x1000 (initrdHigh getenv) fun start => [⟨start, rdLen.toNat⟩]
  else some ⟨0, lmb, none⟩

/-- The text of `bootargs`, and its terminator, which `strcpy` copies too. -/
def bootargs (getenv : String → Option (List UInt8)) : List UInt8 :=
  (getenv "bootargs").getD []

def bootGetCmdline (cfg : PlanConfig) (getenv : String → Option (List UInt8)) (lmb : Lmb)
    (bootmapBase : PhysAddr) : Option Placed :=
  placeAlloc lmb cfg.bargsize 0xf (cfg.bootmapsz + bootmapBase) fun cmdline =>
    [⟨cmdline, (bootargs getenv).length + 1⟩]

def bootGetKbd (cfg : PlanConfig) (lmb : Lmb) (bootmapBase : PhysAddr) : Option Placed :=
  placeAlloc lmb cfg.bdSize 0xf (cfg.bootmapsz + bootmapBase) fun kbd =>
    [⟨kbd, cfg.bdSize.toNat⟩]

/-- Whether `boot_relocate_fdt` moves the tree: it is in flash, or not inside the boot
mapping. -/
def fdtRelocate (cfg : PlanConfig) (bootmapBase fdt ofSize : PhysAddr) : Bool :=
  cfg.inFlash fdt || fdt < bootmapBase || cfg.bootmapsz + bootmapBase ≤ fdt + ofSize + cfg.fdtPad

/-- The tree is opened into the range that was allocated at `start`. -/
def openFdt (lmb : Lmb) (t : Header) (fdt start ofLen : PhysAddr) : Placed :=
  if start = 0 then ⟨1, lmb, none⟩
  else
    match fdtOpenInto t fdt start ofLen with
    | none => ⟨1, lmb, none⟩
    | some writes => ⟨0, lmb, some ⟨start, ofLen, writes⟩⟩

/-- The tree is moved and padded. -/
def moveFdt (cfg : PlanConfig) (lmb : Lmb) (bootmapBase : PhysAddr) (t : Header)
    (fdt ofSize : PhysAddr) : Option Placed :=
  (lmbAllocBase lmb (ofSize + cfg.fdtPad) 0x1000 (cfg.bootmapsz + bootmapBase)).map fun p =>
    openFdt p.2 t fdt p.1 (ofSize + cfg.fdtPad)

/-- `boot_relocate_fdt` of the tree with the header `t` at `fdt`. -/
def bootRelocateFdt (cfg : PlanConfig) (lmb : Lmb) (bootmapBase : PhysAddr) (t : Header)
    (fdt ofSize : PhysAddr) : Option Placed :=
  -- nothing to do
  if ofSize = 0 then some ⟨0, lmb, none⟩
  else if ¬ t.ok then some ⟨1, lmb, none⟩
  -- move flattend device tree if needed
  else if fdtRelocate cfg bootmapBase fdt ofSize then moveFdt cfg lmb bootmapBase t fdt ofSize
  -- fdt_set_totalsize
  else placeReserve lmb fdt (cfg.bootmapsz + bootmapBase - fdt) [setWord fdt 4]

/-! ## Plans -/

/-- The map and the items placed so far. -/
structure Plan where
  lmb : Lmb
  items : List Item

/-- The calls.  `reserve` is one that `arch_lmb_reserve` or `board_lmb_reserve` makes. -/
inductive PlanCall where
  | reserve (base size : PhysAddr)
  | kernel (load loadEnd : PhysAddr)
  | ramdiskHigh (rdData rdLen : PhysAddr)
  | getCmdline
  | getKbd
  | relocateFdt (t : Header) (fdt ofSize : PhysAddr)

section

variable (cfg : PlanConfig) (getenv : String → Option (List UInt8)) (bootmapBase : PhysAddr)

/-- The call of a function. -/
def PlanCall.run (lmb : Lmb) : PlanCall → Option Placed
  | .reserve base size => (lmbReserve lmb base size).map fun p => ⟨0, p.2, none⟩
  | .kernel load loadEnd => reserveKernel lmb load loadEnd
  | .ramdiskHigh rdData rdLen => bootRamdiskHigh getenv lmb rdData rdLen
  | .getCmdline => bootGetCmdline cfg getenv lmb bootmapBase
  | .getKbd => bootGetKbd cfg lmb bootmapBase
  | .relocateFdt t fdt ofSize => bootRelocateFdt cfg lmb bootmapBase t fdt ofSize

/-- **The plans.**  They begin with the map that `bootm_start` makes from the memory there is,
and each step is a call that succeeds. -/
def bootPlanSystem : TransitionSystem Plan PlanCall where
  init s := s.items = [] ∧ ∃ lmb memStart memSize ret,
    lmbAdd (lmbInit lmb) memStart memSize = some (ret, s.lmb)
  step s call t := ∃ p, call.run cfg getenv bootmapBase s.lmb = some p ∧ p.ret = 0 ∧
    t = ⟨p.lmb, s.items ++ p.item.toList⟩

end

/-- **What a plan is to be**: every byte is written inside the range of its item, the range is
reserved in the map, and no two ranges share an address. -/
structure Plan.Sound (s : Plan) : Prop where
  inside : ∀ i ∈ s.items, ∀ w ∈ i.writes, w.addrs ⊆ i.range
  reserved : ∀ i ∈ s.items, i.range ⊆ covered s.lmb.reserved
  apart : s.items.Pairwise fun i j => Disjoint i.range j.range

end Boot
end EmevBsp
