import EmevBsp.Library.TransitionSystem
import Mathlib.Data.BitVec
import Mathlib.Tactic.NormNum.Basic

/-!
# `common/cmd_bootm.c`: the stages of `bootm`

The `bootm` command boots in stages, which can also be called one at a time.  `images` keeps what
the start found out, and a word with one bit for each stage that was entered.

What the stages do to the machine belongs to other files: the images in memory, decompression,
the placing of a ramdisk and of a device tree, and the operating system.  They are the fields of
`Platform`, over a type of machine states.  The map of the memory (`images.lmb`) takes no part in
the order of the stages and is left out here.
-/

namespace EmevBsp
namespace Boot

/-! ## Images -/

/-- `image_info_t`. -/
structure ImageInfo where
  start : BitVec 32
  endAddr : BitVec 32
  imageStart : BitVec 32
  imageLen : BitVec 32
  load : BitVec 32
  comp : UInt8
  type : UInt8
  os : UInt8

def ihCompNone : UInt8 := 0

def ihOsLinux : UInt8 := 5

/-- What the header of a kernel image says, by its format.  A property of a FIT image may be
missing. -/
inductive ImageFormat where
  | legacy (type comp os : UInt8) (endAddr load ep : BitVec 32)
  | fit (type comp os : Option UInt8) (endAddr : BitVec 32) (load entry : Option (BitVec 32))
  | invalid

/-- What `boot_get_kernel`, `boot_get_ramdisk` and `boot_get_fdt` find; `none` for an image that is
corrupt. -/
structure Found where
  osHdr : BitVec 32
  imageStart : BitVec 32
  imageLen : BitVec 32
  format : ImageFormat
  ramdisk : Option (BitVec 32 × BitVec 32)
  fdt : Option (BitVec 32 × BitVec 32)

/-- `bootm_headers_t`, as far as the stages use it. -/
structure Images where
  os : ImageInfo
  ep : BitVec 32
  rdStart : BitVec 32
  rdEnd : BitVec 32
  ftAddr : BitVec 32
  ftLen : BitVec 32
  initrdStart : BitVec 32
  initrdEnd : BitVec 32
  state : ℕ

/-- `memset ((void *)&images, 0, sizeof (images))`. -/
def Images.zero : Images := ⟨⟨0, 0, 0, 0, 0, 0, 0, 0⟩, 0, 0, 0, 0, 0, 0, 0, 0⟩

/-! ## Subcommands -/

/-- The entries of `cmd_bootm_sub`. -/
inductive Subcommand where
  | start
  | loados
  | ramdisk
  | fdt
  | bdt
  | cmdline
  | prep
  | go
  deriving DecidableEq

/-- The place of the bit of a stage. -/
def Subcommand.bit : Subcommand → ℕ
  | .start => 0
  | .loados => 1
  | .ramdisk => 2
  | .fdt => 3
  | .cmdline => 4
  | .bdt => 5
  | .prep => 6
  | .go => 7

/-- `BOOTM_STATE_START` and its kind. -/
def Subcommand.state (c : Subcommand) : ℕ := 2 ^ c.bit

/-! ## The stages -/

/-- What the stages use of the rest of the boot loader, over the states of the machine.  A build
without a method of compression has no entry for it in `uncompress`. -/
structure Platform (σ : Type) where
  find : σ → Found
  memmove : σ → BitVec 32 → BitVec 32 → BitVec 32 → σ
  uncompress : UInt8 → Option (σ → BitVec 32 → BitVec 32 → BitVec 32 → Option (σ × BitVec 32))
  ramdiskHigh : σ → BitVec 32 → BitVec 32 → σ × Option (BitVec 32 × BitVec 32)
  setenvInitrd : σ → BitVec 32 → BitVec 32 → σ
  relocateFdt : σ → BitVec 32 → BitVec 32 → σ × ℤ × BitVec 32 × BitVec 32
  disableInterrupts : σ → σ
  bootOs : UInt8 → Subcommand → Images → σ → σ × ℤ

/-- The global `images` and the machine. -/
structure BootState (σ : Type) where
  images : Images
  machine : σ

section

variable {σ : Type} (P : Platform σ)

/-- The parameters of the kernel image, as far as `bootm_start` gets to read them, and its entry
point when it gets there.  A getter of a FIT property stores -1 when there is none, except that of
the load address. -/
def imageParameters (found : Found) : ImageInfo × Option (BitVec 32) :=
  let info : ImageInfo := ⟨0, 0, found.imageStart, found.imageLen, 0, 0, 0, 0⟩
  match found.format with
  | .legacy type comp os endAddr load ep =>
    ({ info with type := type, comp := comp, os := os, endAddr := endAddr, load := load }, some ep)
  | .fit none _ _ _ _ _ => ({ info with type := 255 }, none)
  | .fit (some type) none _ _ _ _ => ({ info with type := type, comp := 255 }, none)
  | .fit (some type) (some comp) none _ _ _ =>
    ({ info with type := type, comp := comp, os := 255 }, none)
  | .fit (some type) (some comp) (some os) endAddr none _ =>
    ({ info with type := type, comp := comp, os := os, endAddr := endAddr }, none)
  | .fit (some type) (some comp) (some os) endAddr (some load) entry =>
    ({ info with type := type, comp := comp, os := os, endAddr := endAddr, load := load }, entry)
  | .invalid => (info, none)

/-- `bootm_start`, for the image that it finds: what it leaves in `images`, and what it returns.
Where it gives up, the state word stays cleared. -/
def startImages (found : Found) : Images × ℤ :=
  let info := imageParameters found
  let images := { Images.zero with os := info.1 }
  let done (images : Images) : Images :=
    { images with os := { images.os with start := found.osHdr }, state := Subcommand.start.state }
  if found.imageLen = 0 then
    ({ Images.zero with os := ⟨0, 0, found.imageStart, 0, 0, 0, 0, 0⟩ }, 1)
  else
    match info.2 with
    | none => (images, 1)
    | some ep =>
      let images := { images with ep := ep }
      if info.1.os = ihOsLinux then
        match found.ramdisk, found.fdt with
        | none, _ => (images, 1)
        | some rd, none => ({ images with rdStart := rd.1, rdEnd := rd.2 }, 1)
        | some rd, some fdt =>
          (done { images with rdStart := rd.1, rdEnd := rd.2, ftAddr := fdt.1, ftLen := fdt.2 }, 0)
      else (done images, 0)

def bootmStart (s : BootState σ) : BootState σ × ℤ :=
  let r := startImages (P.find s.machine)
  ({ s with images := r.1 }, r.2)

/-- `BOOTM_ERR_RESET` and its kind. -/
def bootmErrReset : ℤ := -1

def bootmErrOverlap : ℤ := -2

def bootmErrUnimplemented : ℤ := -3

/-- `bootm_load_os`: what it returns, and the end of the loaded image when there is one. -/
def bootmLoadOs (os : ImageInfo) (m : σ) : σ × ℤ × BitVec 32 :=
  let overlap (loadEnd : BitVec 32) : ℤ :=
    if os.load < os.endAddr ∧ os.start < loadEnd then bootmErrOverlap else 0
  if os.comp = ihCompNone then
    let m :=
      if os.load = os.start then m
      else if os.load ≠ os.imageStart then P.memmove m os.load os.imageStart os.imageLen
      else m
    let loadEnd := os.load + os.imageLen
    (m, overlap loadEnd, loadEnd)
  else
    match P.uncompress os.comp with
    | none => (m, bootmErrUnimplemented, 0)
    | some f =>
      match f m os.load os.imageStart os.imageLen with
      | none => (m, bootmErrReset, 0)
      | some (m, len) => (m, overlap (os.load + len), os.load + len)

/-- The switch of `do_bootm_subcommand`, for a stage other than `start`. -/
def runStage (c : Subcommand) (s : BootState σ) : BootState σ × ℤ :=
  match c with
  | .start => (s, 0)
  | .loados =>
    let r := bootmLoadOs P s.images.os s.machine
    ({ s with machine := r.1 }, r.2.1)
  | .ramdisk =>
    let r := P.ramdiskHigh s.machine s.images.rdStart (s.images.rdEnd - s.images.rdStart)
    match r.2 with
    | none => ({ s with machine := r.1 }, -1)
    | some (initrdStart, initrdEnd) =>
      ({ images := { s.images with initrdStart := initrdStart, initrdEnd := initrdEnd }
         machine := P.setenvInitrd r.1 initrdStart initrdEnd }, 0)
  | .fdt =>
    let r := P.relocateFdt s.machine s.images.ftAddr s.images.ftLen
    ({ images := { s.images with ftAddr := r.2.2.1, ftLen := r.2.2.2 }, machine := r.1 }, r.2.1)
  | .go =>
    let r := P.bootOs s.images.os.os .go s.images (P.disableInterrupts s.machine)
    ({ s with machine := r.1 }, 0)
  | .cmdline | .bdt | .prep =>
    let r := P.bootOs s.images.os.os c s.images s.machine
    ({ s with machine := r.1 }, r.2)

/-- What `do_bootm_subcommand` leaves, what it returns, and the stage that it entered. -/
structure SubcommandResult (σ : Type) where
  state : BootState σ
  ret : ℤ
  entered : Option Subcommand

/-- `do_bootm_subcommand`; `none` for a name that is in no entry. -/
def doBootmSubcommand (c : Option Subcommand) (s : BootState σ) : SubcommandResult σ :=
  match c with
  | none => ⟨s, 1, none⟩
  | some .start =>
    let r := bootmStart P s
    ⟨r.1, r.2, some .start⟩
  | some c =>
    if c.state ≤ s.images.state then ⟨s, 1, none⟩
    else
      let r := runStage P c { s with images := { s.images with state := s.images.state ||| c.state } }
      ⟨r.1, r.2, some c⟩

end

end Boot
end EmevBsp

/-!
# `common/cmd_bootm.c`: the order of the stages

A session is a sequence of subcommands.  Between two of them anything may happen to the machine, so
that every stage may succeed or fail.  What was entered since the last start is kept beside the
state of the boot loader, with what it returned.

The state word is at least as large as the bit of every stage that was entered, and below any
power of two that is above all of them.  The comparison of the word with the bit of the next
stage thus tells whether this stage is later than all of them.  Nothing else is compared: a
subcommand may be left out, as the help text of the command says.

* `bootm_stages`: every stage at most once, in increasing order, and exactly which ones are let
  through behind a start that succeeded.
* `not_bootm_stages`: `go` right after `start`.
-/

namespace EmevBsp
namespace Boot

/-- A state of the boot loader, and the stages entered since the last start, the start first, with
what they returned. -/
structure Session (σ : Type) where
  boot : BootState σ
  since : List (Subcommand × ℤ)

/-- What was entered since the last start, after one subcommand more. -/
def enter (since : List (Subcommand × ℤ)) (entered : Option Subcommand) (ret : ℤ) :
    List (Subcommand × ℤ) :=
  match entered with
  | none => since
  | some .start => [(.start, ret)]
  | some c => since ++ [(c, ret)]

variable {σ : Type}

/-- A session after a subcommand, from a given state of the machine. -/
def Session.next (P : Platform σ) (s : Session σ) (c : Option Subcommand) (m : σ) : Session σ :=
  let r := doBootmSubcommand P c { s.boot with machine := m }
  ⟨r.state, enter s.since r.entered r.ret⟩

/-- The sessions, from the cleared `images` on. -/
def bootmSystem (P : Platform σ) : TransitionSystem (Session σ) (Option Subcommand) where
  init s := s.boot.images = Images.zero ∧ s.since = []
  step s c t := ∃ m, t = s.next P c m

/-! ## The state word -/

theorem runStage_state (P : Platform σ) (c : Subcommand) (s : BootState σ) :
    (runStage P c s).1.images.state = s.images.state := by
  cases c with
  | ramdisk =>
    rw [runStage]
    split <;> rfl
  | _ => rfl

theorem startImages_state (found : Found) :
    ((startImages found).2 = 0 ∧ (startImages found).1.state = 1) ∨
      ((startImages found).2 = 1 ∧ (startImages found).1.state = 0) := by
  rw [startImages]
  by_cases hlen : found.imageLen = 0
  · rw [if_pos hlen]
    exact .inr ⟨rfl, rfl⟩
  rw [if_neg hlen]
  cases (imageParameters found).2 with
  | none => exact .inr ⟨rfl, rfl⟩
  | some ep =>
    by_cases hlinux : (imageParameters found).1.os = ihOsLinux
    · dsimp only
      rw [if_pos hlinux]
      cases found.ramdisk with
      | none => exact .inr ⟨rfl, rfl⟩
      | some rd =>
        cases found.fdt with
        | none => exact .inr ⟨rfl, rfl⟩
        | some fdt => exact .inl ⟨rfl, rfl⟩
    · dsimp only
      rw [if_neg hlinux]
      exact .inl ⟨rfl, rfl⟩

/-- **The state word and the stages.** -/
structure WordOf (state : ℕ) (since : List (Subcommand × ℤ)) : Prop where
  increasing : (since.map fun p => p.1.state).Pairwise (· < ·)
  bits_le : ∀ p ∈ since, p.1 ≠ .start → p.1.state ≤ state
  lt_bit : ∀ k, 0 < k → (∀ p ∈ since, p.1.state < 2 ^ k) → state < 2 ^ k

theorem WordOf.lt_iff {state : ℕ} {since : List (Subcommand × ℤ)} (h : WordOf state since)
    {c : Subcommand} (hc : c ≠ .start) : state < c.state ↔ ∀ p ∈ since, p.1.state < c.state := by
  have hbit : 0 < c.bit := by cases c <;> first | exact absurd rfl hc | decide
  refine ⟨fun hlt p hp => ?_, h.lt_bit c.bit hbit⟩
  by_cases hstart : p.1 = .start
  · rw [hstart]
    exact Nat.pow_lt_pow_right (Nat.lt_succ_self 1) hbit
  · exact Nat.lt_of_le_of_lt (h.bits_le p hp hstart) hlt

theorem wordOf_start {state : ℕ} (hstate : state ≤ 1) (ret : ℤ) :
    WordOf state [(.start, ret)] := by
  refine ⟨List.pairwise_singleton _ _, fun p hp hne => ?_, fun k hk _ => ?_⟩
  · rw [List.mem_singleton.mp hp] at hne
    exact absurd rfl hne
  · exact Nat.lt_of_le_of_lt hstate (Nat.one_lt_two_pow (Nat.pos_iff_ne_zero.mp hk))

theorem WordOf.enter {state : ℕ} {since : List (Subcommand × ℤ)} (h : WordOf state since)
    {c : Subcommand} (hc : c ≠ .start) (hlt : state < c.state) (ret : ℤ) :
    WordOf (state ||| c.state) (since ++ [(c, ret)]) := by
  refine ⟨?_, fun p hp hne => ?_, fun k hk hall => ?_⟩
  · rw [List.map_append, List.pairwise_append]
    refine ⟨h.increasing, List.pairwise_singleton _ _, fun x hx y hy => ?_⟩
    obtain ⟨p, hp, rfl⟩ := List.mem_map.mp hx
    obtain rfl := List.mem_singleton.mp hy
    exact (h.lt_iff hc).mp hlt p hp
  · rcases List.mem_append.mp hp with hp | hp
    · exact Nat.le_trans (h.bits_le p hp hne) Nat.left_le_or
    · rw [List.mem_singleton.mp hp]
      exact Nat.right_le_or
  · refine Nat.or_lt_two_pow (h.lt_bit k hk fun p hp => hall p (List.mem_append_left _ hp)) ?_
    exact hall _ (List.mem_append_right _ (List.mem_singleton_self _))

theorem next_stage (P : Platform σ) {c : Subcommand} (hc : c ≠ .start) (s : Session σ) (m : σ) :
    (c.state ≤ s.boot.images.state ∧ (s.next P (some c) m).since = s.since ∧
      (s.next P (some c) m).boot.images = s.boot.images) ∨
    (s.boot.images.state < c.state ∧
      (∃ ret, (s.next P (some c) m).since = s.since ++ [(c, ret)]) ∧
      (s.next P (some c) m).boot.images.state = s.boot.images.state ||| c.state) := by
  by_cases hle : c.state ≤ s.boot.images.state
  · have hrefused : doBootmSubcommand P (some c) { s.boot with machine := m } =
        ⟨{ s.boot with machine := m }, 1, none⟩ := by
      cases c <;> first | exact absurd rfl hc | exact if_pos hle
    refine .inl ⟨hle, ?_, ?_⟩ <;> rw [Session.next, hrefused]
    rfl
  · obtain ⟨r, hr, hentered⟩ : ∃ r : BootState σ × ℤ,
        r.1.images.state = s.boot.images.state ||| c.state ∧
          doBootmSubcommand P (some c) { s.boot with machine := m } = ⟨r.1, r.2, some c⟩ := by
      refine ⟨runStage P c ⟨{ s.boot.images with state := s.boot.images.state ||| c.state }, m⟩,
        runStage_state P c _, ?_⟩
      cases c <;> first | exact absurd rfl hc | exact if_neg hle
    have hnext : s.next P (some c) m = ⟨r.1, s.since ++ [(c, r.2)]⟩ := by
      rw [Session.next, hentered]
      cases c <;> first | exact absurd rfl hc | rfl
    refine .inr ⟨Nat.lt_of_not_le hle, ⟨r.2, ?_⟩, ?_⟩ <;> rw [hnext]
    exact hr

theorem wordOf_of_reachable (P : Platform σ) {s : Session σ} (h : (bootmSystem P).Reachable s) :
    WordOf s.boot.images.state s.since := by
  refine TransitionSystem.Reachable.invariant
    (I := fun s => WordOf s.boot.images.state s.since) (fun s hs => ?_) (fun s c t hs hstep => ?_) h
  · obtain ⟨hzero, hnil⟩ := hs
    rw [hzero, hnil]
    exact ⟨List.Pairwise.nil, fun p hp => absurd hp List.not_mem_nil, fun k _ _ => Nat.two_pow_pos k⟩
  · obtain ⟨m, rfl⟩ := hstep
    cases c with
    | none => exact hs
    | some c =>
      by_cases hc : c = .start
      · subst hc
        have hle : (startImages (P.find m)).1.state ≤ 1 := by
          rcases startImages_state (P.find m) with ⟨-, hstate⟩ | ⟨-, hstate⟩ <;> rw [hstate]
          exact Nat.zero_le 1
        exact wordOf_start hle _
      · rcases next_stage P hc s m with ⟨-, hsince, himages⟩ | ⟨hlt, ⟨ret, hsince⟩, hstate⟩
        · rw [hsince, himages]
          exact hs
        · rw [hsince, hstate]
          exact hs.enter hc hlt ret

/-- **The stages between two starts** run in increasing order, each at most once; and when the last
start succeeded, a stage is let through exactly when no stage from it on was entered since. -/
theorem bootm_stages (P : Platform σ) {s : Session σ} (h : (bootmSystem P).Reachable s) :
    (s.since.map fun p => p.1.state).Pairwise (· < ·) ∧
      (s.since.head? = some (.start, 0) → ∀ c, c ≠ .start → ∀ m,
        ((∃ ret, (s.next P (some c) m).since = s.since ++ [(c, ret)]) ↔
          ∀ p ∈ s.since, p.1.state < c.state)) := by
  have hword := wordOf_of_reachable P h
  refine ⟨hword.increasing, fun _ c hc m => ?_⟩
  rw [← hword.lt_iff hc]
  rcases next_stage P hc s m with ⟨hle, hsince, -⟩ | ⟨hlt, hentered, -⟩
  · refine ⟨fun ⟨ret, hlog⟩ => ?_, fun hlt => absurd hle (Nat.not_le.mpr hlt)⟩
    rw [hsince] at hlog
    exact absurd (List.self_eq_append_right.mp hlog) (List.cons_ne_nil _ _)
  · exact ⟨fun _ => hlt, fun _ => hentered⟩

/-- A machine on which every stage succeeds. -/
def idlePlatform : Platform Unit where
  find _ :=
    ⟨0x40007fc0, 0x40008000, 0x1000, .legacy 2 0 17 0x40009000 0x50008000 0x50008000, none, none⟩
  memmove m _ _ _ := m
  uncompress _ := none
  ramdiskHigh m _ _ := (m, some (0, 0))
  setenvInitrd m _ _ := m
  relocateFdt m a n := (m, 0, a, n)
  disableInterrupts m := m
  bootOs _ _ _ m := (m, 0)

/-- The first of the sessions. -/
def emptySession : Session Unit := ⟨⟨Images.zero, ()⟩, []⟩

/-- `start`, `loados` and `ramdisk`, which all return 0. -/
def loadedSession : Session Unit :=
  ((emptySession.next idlePlatform (some .start) ()).next idlePlatform (some .loados) ()).next
    idlePlatform (some .ramdisk) ()

theorem reachable_loadedSession : (bootmSystem idlePlatform).Reachable loadedSession :=
  .step (a := some .ramdisk) (.step (a := some .loados) (.step (a := some .start)
    (.init ⟨rfl, rfl⟩ : (bootmSystem idlePlatform).Reachable emptySession) ⟨(), rfl⟩)
      ⟨(), rfl⟩) ⟨(), rfl⟩

/-- Behind them, `go` is let through, and `loados` is not. -/
theorem bootm_stages_loaded :
    loadedSession.since = [(.start, 0), (.loados, 0), (.ramdisk, 0)] ∧
      (loadedSession.since.map fun p => p.1.state).Pairwise (· < ·) ∧
      (∃ ret, (loadedSession.next idlePlatform (some .go) ()).since =
        loadedSession.since ++ [(.go, ret)]) ∧
      ¬∃ ret, (loadedSession.next idlePlatform (some .loados) ()).since =
        loadedSession.since ++ [(.loados, ret)] := by
  have hsince : loadedSession.since = [(.start, 0), (.loados, 0), (.ramdisk, 0)] := by rfl
  obtain ⟨hincreasing, hthrough⟩ := bootm_stages idlePlatform reachable_loadedSession
  refine ⟨hsince, hincreasing, ?_, ?_⟩
  · rw [hthrough (by rw [hsince]; rfl) .go (by decide) (), hsince]
    decide
  · rw [hthrough (by rw [hsince]; rfl) .loados (by decide) (), hsince]
    decide

/-- **`go` right after `start`**: the order is right, but nothing was loaded. -/
theorem not_bootm_stages : ¬∀ (σ : Type) (P : Platform σ) (s : Session σ),
    (bootmSystem P).Reachable s →
      (s.since.map fun p => p.1.state).Pairwise (· < ·) ∧
        (∀ p ∈ s.since, p.1 ≠ .start → s.since.head? = some (.start, 0)) ∧
        ∀ ran ret later, s.since = ran ++ (.go, ret) :: later → (.loados, 0) ∈ ran := by
  intro hall
  have hstart : (bootmSystem idlePlatform).Reachable
      (emptySession.next idlePlatform (some .start) ()) :=
    .step (a := some .start) (.init ⟨rfl, rfl⟩) ⟨(), rfl⟩
  have hgo := hall Unit idlePlatform _ (.step (a := some .go) hstart ⟨(), rfl⟩)
  have hran : (Subcommand.loados, (0 : ℤ)) ∈ [(Subcommand.start, (0 : ℤ))] :=
    hgo.2.2 [(.start, 0)] 0 [] rfl
  exact absurd (List.mem_singleton.mp hran) (by decide)

end Boot
end EmevBsp
