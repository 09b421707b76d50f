import EmevBsp.Boot.Plan

/-!
# When a boot plan is sound

Nothing in the functions of `common/image.c` keeps the items apart or the writes inside them.
`strcpy` copies `bootargs` whatever `CONFIG_SYS_BARGSIZE` is; a ramdisk or a tree that stays
where it is is reserved up to the end of its length, over whatever has a place there already, and
the reservation may be refused; an allocation can leave the memory where a sum of 32 bits wraps.
`Fits` says of a call, and of the plan before it, that none of this happens.

* `Inv`: the plan is sound and the table of what is reserved is filled.
* `Inv.reserve`, `Inv.alloc`: what a reservation and an allocation do to it.
* `bootPlan_sound`: **a plan is sound after any calls that fit**, in any order.
* `bootargs_lt_of_sound`: no call of `boot_get_cmdline` with a longer text gives a sound plan.
* `not_bootPlan_sound`: `bootargs` of 512 bytes, with `CONFIG_SYS_BARGSIZE` 512.
-/

namespace EmevBsp
namespace Boot

open Lmb Fdt

/-! ## Calls that fit -/

/-- The range is not empty, does not wrap, and the table is in order. -/
structure ReserveFits (lmb : Lmb) (base size : PhysAddr) : Prop where
  size_pos : 0 < size.toNat
  no_wrap : base.toNat + size.toNat < 2 ^ 32
  sorted : Ascending (entries lmb.reserved)

/-- What stays where it is can be reserved there: the table has room for the range, and no item
has a place in it. -/
structure InPlaceFits (s : Plan) (base size : PhysAddr) : Prop extends
    ReserveFits s.lmb base size where
  accepts : Accepts s.lmb.reserved base size
  free : ∀ i ∈ s.items, Disjoint i.range (Lmb.range base size)

section

variable (cfg : PlanConfig) (getenv : String → Option (List UInt8)) (bootmapBase : PhysAddr)

/-- The calls that find the plan as they need it. -/
def Fits (s : Plan) : PlanCall → Prop
  | .reserve base size => ReserveFits s.lmb base size
  | .kernel load loadEnd => InPlaceFits s load (loadEnd - load)
  | .ramdiskHigh rdData rdLen => rdData ≠ 0 →
      if initrdCopyToRam getenv then AllocSafe s.lmb rdLen 0x1000 (initrdHigh getenv)
      else InPlaceFits s rdData rdLen
  | .getCmdline =>
      AllocSafe s.lmb cfg.bargsize 0xf (cfg.bootmapsz + bootmapBase) ∧
        (bootargs getenv).length < cfg.bargsize.toNat
  | .getKbd => AllocSafe s.lmb cfg.bdSize 0xf (cfg.bootmapsz + bootmapBase)
  | .relocateFdt t fdt ofSize => ofSize ≠ 0 →
      if fdtRelocate cfg bootmapBase fdt ofSize then
        AllocSafe s.lmb (ofSize + cfg.fdtPad) 0x1000 (cfg.bootmapsz + bootmapBase) ∧
          Opens t fdt (ofSize + cfg.fdtPad)
      else
        InPlaceFits s fdt (cfg.bootmapsz + bootmapBase - fdt) ∧
          8 ≤ (cfg.bootmapsz + bootmapBase - fdt).toNat

end

/-! ## One call -/

/-- The plan is sound, and the table of what is reserved is filled. -/
structure Inv (s : Plan) : Prop where
  filled : Filled s.lmb.reserved
  sound : s.Sound

/-- The plan once a call has been made. -/
def Plan.after (s : Plan) (p : Placed) : Plan :=
  ⟨p.lmb, s.items ++ p.item.toList⟩

section

variable {s : Plan} {p : Placed} {base size align maxAddr : PhysAddr}

theorem Inv.keep (h : Inv s) (hfilled : Filled p.lmb.reserved)
    (hkept : covered s.lmb.reserved ⊆ covered p.lmb.reserved) (hitem : p.item = none) :
    Inv (s.after p) := by
  have hitems : (s.after p).items = s.items := by
    rw [Plan.after, hitem]
    exact List.append_nil _
  refine ⟨hfilled, ?_, ?_, ?_⟩
  · rw [hitems]
    exact h.sound.inside
  · rw [hitems]
    exact fun i hi => (h.sound.reserved i hi).trans hkept
  · rw [hitems]
    exact h.sound.apart

theorem Inv.push {i : Item} (h : Inv s) (hfilled : Filled p.lmb.reserved)
    (hkept : covered s.lmb.reserved ⊆ covered p.lmb.reserved) (hitem : p.item = some i)
    (hinside : ∀ w ∈ i.writes, w.addrs ⊆ i.range) (hreserved : i.range ⊆ covered p.lmb.reserved)
    (hapart : ∀ j ∈ s.items, Disjoint j.range i.range) : Inv (s.after p) := by
  have hitems : (s.after p).items = s.items ++ [i] := by
    rw [Plan.after, hitem]
    rfl
  have hcases : ∀ {P : Item → Prop}, (∀ j ∈ s.items, P j) → P i → ∀ j ∈ (s.after p).items, P j := by
    intro P hold hnew j hj
    rw [hitems, List.mem_append] at hj
    rcases hj with hj | hj
    · exact hold j hj
    · rw [List.mem_singleton.mp hj]
      exact hnew
  refine ⟨hfilled, hcases h.sound.inside hinside, ?_, ?_⟩
  · exact hcases (fun j hj => (h.sound.reserved j hj).trans hkept) hreserved
  · rw [hitems]
    refine List.pairwise_append.mpr ⟨h.sound.apart, List.pairwise_singleton _ _, ?_⟩
    intro j hj k hk
    rw [List.mem_singleton.mp hk]
    exact hapart j hj

theorem Inv.lmbReserve {q : ℤ × Lmb} (h : Inv s) (hfits : ReserveFits s.lmb base size)
    (hcall : Lmb.lmbReserve s.lmb base size = some q) :
    Filled q.2.reserved ∧ covered s.lmb.reserved ⊆ covered q.2.reserved ∧
      (0 ≤ q.1 → Lmb.range base size ⊆ covered q.2.reserved) := by
  obtain ⟨⟨ret, rgn⟩, hadd, rfl⟩ := Option.map_eq_some_iff.mp hcall
  rcases lt_or_ge ret 0 with hneg | hret
  · obtain ⟨hfilled, hsame⟩ := h.filled.addRegion_refused hadd hneg
    exact ⟨hfilled, hsame.ge, fun hret => absurd hret (not_le.mpr hneg)⟩
  · obtain ⟨hfilled, hkept, hrange⟩ :=
      h.filled.addRegion hfits.sorted hfits.size_pos hfits.no_wrap hadd hret
    exact ⟨hfilled, hkept, fun _ => hrange⟩

theorem Inv.reserve {writes : List Write} (h : Inv s) (hfits : InPlaceFits s base size)
    (hinside : ∀ w ∈ writes, w.addrs ⊆ Lmb.range base size)
    (hcall : placeReserve s.lmb base size writes = some p) : Inv (s.after p) := by
  obtain ⟨q, hres, rfl⟩ := Option.map_eq_some_iff.mp hcall
  obtain ⟨hfilled, hkept, hrange⟩ := h.lmbReserve hfits.toReserveFits hres
  have hret : 0 ≤ q.1 := by
    obtain ⟨⟨ret, rgn⟩, hadd, rfl⟩ := Option.map_eq_some_iff.mp hres
    exact h.filled.nonneg_of_accepts hfits.accepts hadd
  exact h.push hfilled hkept rfl hinside (hrange hret) hfits.free

theorem Inv.lmbAllocBase {q : PhysAddr × Lmb} {writes : List Write} (h : Inv s)
    (halign : 0 < align.toNat) (hsafe : AllocSafe s.lmb size align maxAddr)
    (hcall : Lmb.lmbAllocBase s.lmb size align maxAddr = some q) (hne : q.1 ≠ 0)
    (hinside : q.1.toNat + size.toNat < 2 ^ 32 → ∀ w ∈ writes, w.addrs ⊆ Lmb.range q.1 size) :
    Inv (s.after ⟨0, q.2, some ⟨q.1, size, writes⟩⟩) := by
  obtain ⟨hfilled, halloc⟩ := h.filled.allocBase halign hsafe hcall hne
  refine h.push hfilled halloc.kept rfl (hinside halloc.no_wrap) halloc.reserved ?_
  intro j hj
  exact (halloc.free.mono_right (h.sound.reserved j hj)).symm

theorem Inv.alloc {writes : PhysAddr → List Write} (h : Inv s) (halign : 0 < align.toNat)
    (hsafe : AllocSafe s.lmb size align maxAddr)
    (hinside : ∀ r, ∀ w ∈ writes r, w.addrs ⊆ Lmb.range r size)
    (hcall : placeAlloc s.lmb size align maxAddr writes = some p) (hret : p.ret = 0) :
    Inv (s.after p) := by
  obtain ⟨q, halloc, rfl⟩ := Option.map_eq_some_iff.mp hcall
  by_cases hzero : q.1 = 0
  · rw [if_pos hzero] at hret
    exact absurd hret (show (-1 : ℤ) ≠ 0 by decide)
  · rw [if_neg hzero]
    exact h.lmbAllocBase halign hsafe halloc hzero fun _ => hinside q.1

theorem write_inside {r : PhysAddr} {len : ℕ} (hlen : len ≤ size.toNat) :
    ∀ w ∈ [(⟨r, len⟩ : Write)], w.addrs ⊆ Lmb.range r size := by
  intro w hw
  rw [List.mem_singleton.mp hw]
  exact Set.Ico_subset_Ico le_rfl (Nat.add_le_add_left hlen _)

end

section

variable {cfg : PlanConfig} {getenv : String → Option (List UInt8)} {bootmapBase : PhysAddr}
  {s : Plan} {p : Placed}

theorem Inv.ramdiskHigh {rdData rdLen : PhysAddr} (h : Inv s)
    (hfits : Fits cfg getenv bootmapBase s (.ramdiskHigh rdData rdLen))
    (hcall : bootRamdiskHigh getenv s.lmb rdData rdLen = some p) (hret : p.ret = 0) :
    Inv (s.after p) := by
  rw [bootRamdiskHigh] at hcall
  by_cases hdata : rdData = 0
  · rw [if_neg (not_not.mpr hdata)] at hcall
    obtain rfl := Option.some.inj hcall
    exact h.keep h.filled subset_rfl rfl
  · have hfits' := hfits hdata
    rw [if_pos hdata] at hcall
    by_cases hcopy : initrdCopyToRam getenv
    · rw [if_pos hcopy] at hfits'
      rw [if_neg (not_not.mpr hcopy)] at hcall
      exact h.alloc (by decide) hfits' (fun r => write_inside le_rfl) hcall hret
    · rw [if_neg hcopy] at hfits'
      rw [if_pos hcopy] at hcall
      exact h.reserve hfits' (fun w hw => absurd hw List.not_mem_nil) hcall

theorem Inv.moveFdt {t : Header} {fdt ofSize : PhysAddr} (h : Inv s)
    (hsafe : AllocSafe s.lmb (ofSize + cfg.fdtPad) 0x1000 (cfg.bootmapsz + bootmapBase))
    (hopens : Opens t fdt (ofSize + cfg.fdtPad))
    (hcall : Boot.moveFdt cfg s.lmb bootmapBase t fdt ofSize = some p) (hret : p.ret = 0) :
    Inv (s.after p) := by
  obtain ⟨q, halloc, rfl⟩ := Option.map_eq_some_iff.mp hcall
  rw [openFdt] at hret ⊢
  by_cases hzero : q.1 = 0
  · rw [if_pos hzero] at hret
    exact absurd hret (show (1 : ℤ) ≠ 0 by decide)
  · rw [if_neg hzero] at hret ⊢
    cases hopen : fdtOpenInto t fdt q.1 (ofSize + cfg.fdtPad) with
    | none =>
      rw [hopen] at hret
      exact absurd hret (show (1 : ℤ) ≠ 0 by decide)
    | some writes =>
      exact h.lmbAllocBase (by decide) hsafe halloc hzero fun hwrap =>
        fdtOpenInto_inside hopens hwrap hopen

theorem Inv.relocateFdt {t : Header} {fdt ofSize : PhysAddr} (h : Inv s)
    (hfits : Fits cfg getenv bootmapBase s (.relocateFdt t fdt ofSize))
    (hcall : bootRelocateFdt cfg s.lmb bootmapBase t fdt ofSize = some p) (hret : p.ret = 0) :
    Inv (s.after p) := by
  rw [bootRelocateFdt] at hcall
  by_cases hsize : ofSize = 0
  · rw [if_pos hsize] at hcall
    obtain rfl := Option.some.inj hcall
    exact h.keep h.filled subset_rfl rfl
  · have hfits' := hfits hsize
    rw [if_neg hsize] at hcall
    by_cases hok : ¬ t.ok
    · rw [if_pos hok] at hcall
      obtain rfl := Option.some.inj hcall
      exact absurd hret (show (1 : ℤ) ≠ 0 by decide)
    · rw [if_neg hok] at hcall
      by_cases hmove : fdtRelocate cfg bootmapBase fdt ofSize
      · rw [if_pos hmove] at hfits' hcall
        exact h.moveFdt hfits'.1 hfits'.2 hcall hret
      · rw [if_neg hmove] at hfits' hcall
        obtain ⟨hplace, hlen⟩ := hfits'
        refine h.reserve hplace (fun w hw => ?_) hcall
        rw [List.mem_singleton.mp hw]
        exact addrs_subset le_rfl hplace.no_wrap le_rfl hlen

theorem Inv.step {call : PlanCall} (h : Inv s) (hfits : Fits cfg getenv bootmapBase s call)
    (hcall : call.run cfg getenv bootmapBase s.lmb = some p) (hret : p.ret = 0) :
    Inv (s.after p) := by
  cases call with
  | reserve base size =>
    obtain ⟨q, hres, rfl⟩ := Option.map_eq_some_iff.mp hcall
    obtain ⟨hfilled, hkept, -⟩ := h.lmbReserve hfits hres
    exact h.keep hfilled hkept rfl
  | kernel load loadEnd => exact h.reserve hfits (fun w hw => absurd hw List.not_mem_nil) hcall
  | ramdiskHigh rdData rdLen => exact h.ramdiskHigh hfits hcall hret
  | getCmdline =>
    exact h.alloc (by decide) hfits.1 (fun r => write_inside hfits.2) hcall hret
  | getKbd => exact h.alloc (by decide) hfits (fun r => write_inside le_rfl) hcall hret
  | relocateFdt t fdt ofSize => exact h.relocateFdt hfits hcall hret

/-! ## Any sequence of calls -/

theorem filled_init (lmb : Lmb) : Filled (lmbInit lmb).reserved :=
  ⟨Nat.one_pos, Nat.one_le_of_lt (Nat.lt_succ_self 7 : 7 < 8),
    Or.inl ⟨⟨0, 0⟩, by simp [entries, lmbInit, initRegion, setRegion], rfl⟩⟩

/-- **A plan is sound after any calls that fit.** -/
theorem bootPlan_sound
    (h : ((bootPlanSystem cfg getenv bootmapBase).restrict
      (Fits cfg getenv bootmapBase)).Reachable s) : s.Sound := by
  have hinv : Inv s := by
    refine TransitionSystem.Reachable.invariant_restrict (fun s hs => ?_)
      (fun s call t hs hfits hstep => ?_) h
    · obtain ⟨hitems, lmb, memStart, memSize, ret, hadd⟩ := hs
      obtain ⟨⟨ret', rgn⟩, -, heq⟩ := Option.map_eq_some_iff.mp hadd
      obtain ⟨-, hlmb⟩ := Prod.mk.inj heq
      refine ⟨?_, ?_, ?_, ?_⟩
      · rw [← hlmb]
        exact filled_init lmb
      · rw [hitems]
        exact fun i hi => absurd hi List.not_mem_nil
      · rw [hitems]
        exact fun i hi => absurd hi List.not_mem_nil
      · rw [hitems]
        exact List.Pairwise.nil
    · obtain ⟨p, hcall, hret, rfl⟩ := hstep
      exact hs.step hfits hcall hret
  exact hinv.sound

/-- **No call of `boot_get_cmdline` with a longer text gives a sound plan.** -/
theorem bootargs_lt_of_sound (hcall : bootGetCmdline cfg getenv s.lmb bootmapBase = some p)
    (hret : p.ret = 0) (hsound : (s.after p).Sound) :
    (bootargs getenv).length < cfg.bargsize.toNat := by
  obtain ⟨q, -, rfl⟩ := Option.map_eq_some_iff.mp hcall
  by_cases hzero : q.1 = 0
  · rw [if_pos hzero] at hret
    exact absurd hret (show (-1 : ℤ) ≠ 0 by decide)
  · rw [if_neg hzero] at hsound
    have hinside := hsound.inside _ (List.mem_append_right _ List.mem_cons_self) _
      List.mem_cons_self
    -- the terminator
    have hlast := hinside (a := q.1.toNat + (bootargs getenv).length)
      ⟨Nat.le_add_right _ _, Nat.lt_succ_self _⟩
    exact Nat.lt_of_add_lt_add_left hlast.2

end

/-! ### A long command line -/

/-- A configuration with 512 bytes for the command line, in the first 8 MiB. -/
def smallConfig : PlanConfig :=
  { bargsize := 0x200, bootmapsz := 0x800000, fdtPad := 0x3000, bdSize := 0x40,
    inFlash := fun _ => false }

/-- The environment with `bootargs` alone. -/
def onlyBootargs (text : List UInt8) (name : String) : Option (List UInt8) :=
  if name = "bootargs" then some text else none

/-- The kernel at `[0x8000, 0x208000)`, in 256 MiB of memory. -/
def kernelMap : Lmb :=
  { memory := lowMemory.memory
    reserved := setRegion lowMemory.reserved 0 ⟨0x8000, 0x200000⟩ }

/-- The plan with the kernel alone. -/
def kernelPlan : Plan := ⟨kernelMap, [⟨0x8000, 0x200000, []⟩]⟩

theorem reachable_kernelPlan (text : List UInt8) :
    ((bootPlanSystem smallConfig (onlyBootargs text) 0).restrict
      (Fits smallConfig (onlyBootargs text) 0)).Reachable kernelPlan := by
  have hinit : lmbAdd (lmbInit ⟨⟨0, 0, fun _ => ⟨0, 0⟩⟩, ⟨0, 0, fun _ => ⟨0, 0⟩⟩⟩) 0 0x10000000 =
      some (0, lowMemory) := by
    refine congrArg some ?_
    simp [lmbInit, initRegion, setRegion, lowMemory]
  refine .step (s := ⟨lowMemory, []⟩) (a := .kernel 0x8000 0x208000)
    (.init ⟨rfl, _, _, _, _, hinit⟩)
    ⟨?_, ⟨0, kernelMap, some ⟨0x8000, 0x200000, []⟩⟩, rfl, rfl, rfl⟩
  refine ⟨⟨by decide, by decide, List.pairwise_singleton _ _⟩, Or.inl (by decide), ?_⟩
  exact fun i hi => absurd hi List.not_mem_nil

theorem exists_allocBase_kernelMap :
    ∃ lmb, lmbAllocBase kernelMap 0x200 0xf 0x800000 = some (0x7ffe00, lmb) := by
  have hfind : lmbAllocFind kernelMap 0x200 0xf 0x800000 1 = some 0x7ffe00 := by
    have hstart : lmbAllocStart (kernelMap.memory.region 0) 0x200 0xf 0x800000 =
        some 0x7ffe00 := rfl
    have hover : lmbOverlapsRegion kernelMap.reserved 0x7ffe00 0x200 = none := rfl
    rw [lmbAllocFind, hstart, Option.bind_some, allocWalk_of_overlaps_none hover]
    rfl
  refine ⟨{ kernelMap with
      reserved := lmbInsert kernelMap.reserved 0x7ffe00 0x200 }, ?_⟩
  rw [lmbAllocBase, show kernelMap.memory.cnt.toNat = 1 from rfl, hfind]
  rfl

theorem exists_step_getCmdline (text : List UInt8) :
    ∃ p, bootGetCmdline smallConfig (onlyBootargs text) kernelMap 0 = some p ∧ p.ret = 0 ∧
      p.item = some ⟨0x7ffe00, 0x200, [⟨0x7ffe00, text.length + 1⟩]⟩ := by
  obtain ⟨lmb, halloc⟩ := exists_allocBase_kernelMap
  refine ⟨⟨0, lmb, some ⟨0x7ffe00, 0x200, [⟨0x7ffe00, text.length + 1⟩]⟩⟩, ?_, rfl, rfl⟩
  show (lmbAllocBase kernelMap 0x200 0xf 0x800000).map _ = _
  rw [halloc]
  rfl

/-- **512 bytes of `bootargs` and their terminator** are copied into 512 bytes. -/
theorem not_bootPlan_sound :
    ∃ (cfg : PlanConfig) (getenv : String → Option (List UInt8)) (bootmapBase : PhysAddr)
      (s : Plan), (bootPlanSystem cfg getenv bootmapBase).Reachable s ∧ ¬ s.Sound := by
  have hkernel := TransitionSystem.reachable_of_restrict
    (reachable_kernelPlan (List.replicate 512 97))
  obtain ⟨p, hcall, hret, hitem⟩ := exists_step_getCmdline (List.replicate 512 97)
  refine ⟨smallConfig, onlyBootargs (List.replicate 512 97), 0, kernelPlan.after p,
    hkernel.step (a := .getCmdline) ⟨p, hcall, hret, rfl⟩, fun hsound => ?_⟩
  have hlt := bootargs_lt_of_sound (s := kernelPlan) hcall hret hsound
  rw [show bootargs (onlyBootargs (List.replicate 512 97)) = List.replicate 512 97 from rfl,
    List.length_replicate] at hlt
  exact absurd hlt (by decide)

/-- A short command line beside the kernel. -/
theorem bootPlan_sound_console :
    ∃ s : Plan, s.items.length = 2 ∧ s.Sound := by
  have hkernel := reachable_kernelPlan [99, 61, 49]
  obtain ⟨p, hcall, hret, hitem⟩ := exists_step_getCmdline [99, 61, 49]
  have hsafe : AllocSafe kernelMap 0x200 0xf 0x800000 := by
    refine ⟨by decide, List.pairwise_singleton _ _, fun _ => by decide, fun m hm _ => ?_⟩
    have hm' : m = ⟨0, 0x10000000⟩ := List.mem_singleton.mp hm
    rw [hm']
    exact ⟨by decide, by decide⟩
  have hfits : Fits smallConfig (onlyBootargs [99, 61, 49]) 0 kernelPlan .getCmdline :=
    ⟨hsafe, by decide⟩
  have hstep : (bootPlanSystem smallConfig (onlyBootargs [99, 61, 49]) 0).step kernelPlan
      .getCmdline (kernelPlan.after p) := ⟨p, hcall, hret, rfl⟩
  refine ⟨kernelPlan.after p, ?_, bootPlan_sound (hkernel.step ⟨hfits, hstep⟩)⟩
  rw [Plan.after, hitem]
  rfl

end Boot
end EmevBsp
