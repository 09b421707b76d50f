import EmevBsp.Env.FlashRedund
import EmevBsp.Library.TransitionSystem
import Mathlib.Algebra.GroupWithZero.Nat
import Mathlib.Data.UInt

/-!
# Power cuts and the redundant environment in NOR flash

A machine with the two sectors is switched on and off.  While it runs, its environment is
edited and saved; the power may go away at any time: between two commands, while a sector is
erased (which leaves anything in it whose check is wrong), between any two byte writes of a
`saveenv`, and between the writes with which a boot repairs the flags.  What is assumed of the
flash is that a data area that was not written completely does not match its check.

Beside the machine runs its history, which no code reads: the last environment whose
`saveenv` completed, those whose `saveenv` was cut short since, and, more closely, the
environment in force.  The latter is the last one saved, by a `saveenv` that completed or by a
boot that found a cut one complete and made the remaining writes; at most one cut `saveenv` is
pending beside it.

Two states of the flash carry the argument.  It is `Settled` when one copy is good and active
and the other is bad or obsolete, and `HalfSaved` when a new copy is complete but its flags
are still erased.  A run passes from the first to the second in a `saveenv` and back in the
repair, and `env_init` chooses the right copy in both.
-/

namespace EmevBsp
namespace Env
namespace Nor

variable {n : ℕ}

/-! ## The two states of the flash -/

/-- Copy `c` is in force. -/
structure Settled (f : Flash n) (c : Copy) : Prop where
  crcOk : CrcOk (f c)
  flags : f c .flags = activeFlag
  other : CrcOk (f c.other) → f c.other .flags = obsoleteFlag

/-- Copy `c` is a new environment that lacks its flags. -/
structure HalfSaved (f : Flash n) (c : Copy) : Prop where
  crcOk : CrcOk (f c)
  flags : f c .flags = 0xff
  crcOk_other : CrcOk (f c.other)
  other : f c.other .flags = activeFlag ∨ f c.other .flags = obsoleteFlag

theorem envInit_of_settled {f : Flash n} {c : Copy} (h : Settled f c) :
    envInit f = (.data c, 1) := by
  obtain ⟨hcrc, hflags, hother⟩ := h
  cases c with
  | first =>
    have hcrc' : CrcOk (f .first) := hcrc
    by_cases hbad : CrcOk (f .second)
    · have hobs : f .second .flags = obsoleteFlag := hother hbad
      simp [envInit, hcrc', hbad, hflags, hobs, activeFlag, obsoleteFlag]
    · simp [envInit, hcrc', hbad]
  | second =>
    have hcrc' : CrcOk (f .second) := hcrc
    by_cases hbad : CrcOk (f .first)
    · have hobs : f .first .flags = obsoleteFlag := hother hbad
      simp [envInit, hcrc', hbad, hflags, hobs, activeFlag, obsoleteFlag]
    · simp [envInit, hcrc', hbad]

theorem envInit_of_halfSaved {f : Flash n} {c : Copy} (h : HalfSaved f c) :
    envInit f = (.data c, 2) := by
  obtain ⟨hcrc, hflags, hcrc', hother⟩ := h
  cases c with
  | first =>
    have hsecond : CrcOk (f .second) := hcrc'
    rcases hother with hother | hother
    · have hf : f .second .flags = activeFlag := hother
      simp [envInit, hcrc, hsecond, hflags, hf, activeFlag, obsoleteFlag]
    · have hf : f .second .flags = obsoleteFlag := hother
      simp [envInit, hcrc, hsecond, hflags, hf, activeFlag, obsoleteFlag]
  | second =>
    have hfirst : CrcOk (f .first) := hcrc'
    rcases hother with hother | hother
    · have hf : f .first .flags = activeFlag := hother
      simp [envInit, hcrc, hfirst, hflags, hf, activeFlag, obsoleteFlag]
    · have hf : f .first .flags = obsoleteFlag := hother
      simp [envInit, hcrc, hfirst, hflags, hf, activeFlag, obsoleteFlag]

/-! ## Booting -/

theorem bootWrites_of_settled {f : Flash n} {c : Copy} (h : Settled f c) : bootWrites f = [] := by
  have hother : ¬ (f c.other .flags ≠ obsoleteFlag ∧ CrcOk (f c.other)) :=
    fun hbad => hbad.1 (h.other hbad.2)
  rw [bootWrites, envInit_of_settled h]
  show relocateWrites f c = []
  rw [relocateWrites, if_neg hother, if_neg (fun hbad => hbad.1 h.flags)]
  rfl

theorem settled_of_flashWrite {f : Flash n} {c : Copy} (h : HalfSaved f c)
    (hother : f c.other .flags = obsoleteFlag) :
    Settled (flashWrite f ⟨c, .flags, activeFlag⟩) c := by
  rw [flashWrite_flags, h.flags]
  refine ⟨?_, ?_, fun _ => ?_⟩
  · rw [Function.update_self, crcOk_withFlags]
    exact h.crcOk
  · rw [Function.update_self, withFlags_flags]
    decide
  · rw [Function.update_of_ne (Copy.other_ne c)]
    exact hother

theorem halfSaved_of_flashWrite {f : Flash n} {c : Copy} (h : HalfSaved f c) :
    HalfSaved (flashWrite f ⟨c.other, .flags, obsoleteFlag⟩) c ∧
      flashWrite f ⟨c.other, .flags, obsoleteFlag⟩ c.other .flags = obsoleteFlag := by
  rw [flashWrite_flags, UInt8.and_zero]
  refine ⟨⟨?_, ?_, ?_, Or.inr ?_⟩, ?_⟩
  · rw [Function.update_of_ne (Copy.ne_other c)]
    exact h.crcOk
  · rw [Function.update_of_ne (Copy.ne_other c)]
    exact h.flags
  · rw [Function.update_self, crcOk_withFlags]
    exact h.crcOk_other
  · rw [Function.update_self, withFlags_flags]
  · rw [Function.update_self, withFlags_flags]

theorem data_flashWrite_flags (f : Flash n) (c c' : Copy) (b : UInt8) :
    Sector.data (flashWrite f ⟨c', .flags, b⟩ c) = Sector.data (f c) := by
  rw [flashWrite_flags]
  rcases eq_or_ne c c' with rfl | hne
  · rw [Function.update_self, data_withFlags]
  · rw [Function.update_of_ne hne]

/-- **The repair.**  A part of it leaves the new copy half saved, and all of it settles the
flash; the data of the new copy stay. -/
theorem bootWrites_of_halfSaved {f : Flash n} {c : Copy} (h : HalfSaved f c) :
    (∀ k < (bootWrites f).length, HalfSaved (flashWrites f ((bootWrites f).take k)) c ∧
      Sector.data (flashWrites f ((bootWrites f).take k) c) = Sector.data (f c)) ∧
    Settled (flashWrites f (bootWrites f)) c ∧
    Sector.data (flashWrites f (bootWrites f) c) = Sector.data (f c) := by
  have hnew : f c .flags ≠ activeFlag ∧ f c .flags &&& activeFlag = activeFlag := by
    rw [h.flags]
    decide
  have hwrites : bootWrites f = relocateWrites f c := by
    rw [bootWrites, envInit_of_halfSaved h]
  rw [hwrites, relocateWrites, if_pos hnew]
  rcases h.other with hactive | hobsolete
  · -- two writes
    have hold : f c.other .flags ≠ obsoleteFlag ∧ CrcOk (f c.other) := by
      rw [hactive]
      exact ⟨by decide, h.crcOk_other⟩
    obtain ⟨hhalf, hflags⟩ := halfSaved_of_flashWrite h
    have hdata := data_flashWrite_flags f c c.other obsoleteFlag
    rw [if_pos hold]
    refine ⟨fun k hk => ?_, settled_of_flashWrite hhalf hflags,
      (data_flashWrite_flags _ c c _).trans hdata⟩
    match k, hk with
    | 0, _ => exact ⟨h, rfl⟩
    | 1, _ => exact ⟨hhalf, hdata⟩
  · -- the write of the flags of the new copy
    have hold : ¬ (f c.other .flags ≠ obsoleteFlag ∧ CrcOk (f c.other)) := fun hbad =>
      hbad.1 hobsolete
    rw [if_neg hold]
    refine ⟨fun k hk => ?_, settled_of_flashWrite h hobsolete, data_flashWrite_flags f c c _⟩
    match k, hk with
    | 0, _ => exact ⟨h, rfl⟩

/-! ## Saving -/

theorem settled_update_bad {f : Flash n} {c : Copy} (h : Settled f c) {s : Sector n}
    (hs : ¬ CrcOk s) : Settled (Function.update f c.other s) c := by
  refine ⟨?_, ?_, fun hbad => absurd ?_ hs⟩
  · rw [Function.update_of_ne (Copy.ne_other c)]
    exact h.crcOk
  · rw [Function.update_of_ne (Copy.ne_other c)]
    exact h.flags
  · rwa [Function.update_self] at hbad

theorem halfSaved_update {f : Flash n} {c : Copy} (h : Settled f c) {s : Sector n}
    (hs : CrcOk s) (hflags : s .flags = 0xff) :
    HalfSaved (Function.update f c.other s) c.other := by
  refine ⟨?_, ?_, ?_, Or.inl ?_⟩
  · rwa [Function.update_self]
  · rwa [Function.update_self]
  · rw [Copy.other_other, Function.update_of_ne (Copy.ne_other c)]
    exact h.crcOk
  · rw [Copy.other_other, Function.update_of_ne (Copy.ne_other c)]
    exact h.flags

/-- **A `saveenv` cut short** leaves the old copy in force, or the new one half saved. -/
theorem saveWrites_cut {f : Flash n} {r : Running n} (h : Settled f r.flashAddr)
    (hcrc : CrcOk r.env) {k : ℕ} (hk : k < (saveWrites r).length)
    (hpart : k < n →
      ¬ CrcOk (flashWrites (eraseNew f r) ((saveWrites r).take k) r.flashAddr.other)) :
    (Settled (flashWrites (eraseNew f r) ((saveWrites r).take k)) r.flashAddr ∧
        flashWrites (eraseNew f r) ((saveWrites r).take k) r.flashAddr = f r.flashAddr) ∨
      HalfSaved (flashWrites (eraseNew f r) ((saveWrites r).take k)) r.flashAddr.other ∧
        Sector.data (flashWrites (eraseNew f r) ((saveWrites r).take k) r.flashAddr.other) =
          Sector.data r.env := by
  rcases saveWrites_take f r hk with ⟨s, hflash, hflags, hdata⟩ | hflash
  · rw [hflash] at hpart ⊢
    rw [Function.update_self] at hpart
    by_cases hs : CrcOk s
    · have hn : n ≤ k := Nat.le_of_not_lt fun hlt => hpart hlt hs
      refine Or.inr ⟨halfSaved_update h hs hflags, ?_⟩
      rw [Function.update_self, hdata hn]
    · refine Or.inl ⟨settled_update_bad h hs, ?_⟩
      rw [Function.update_of_ne (Copy.ne_other _)]
  · -- the old copy is obsolete already
    have hs : CrcOk (withFlags r.env 0xff) := (crcOk_withFlags _ _).mpr hcrc
    have hhalf := halfSaved_update h hs (withFlags_flags _ _)
    have hold := (halfSaved_of_flashWrite hhalf).1
    rw [Copy.other_other, flashWrites_flags_old] at hold
    rw [hflash]
    refine Or.inr ⟨hold, ?_⟩
    rw [Function.update_of_ne (Copy.other_ne _), Function.update_self, data_withFlags]

/-- **A `saveenv` that completes** settles the flash on the new copy. -/
theorem settled_saveenv (f : Flash n) {r : Running n} (hcrc : CrcOk r.env) :
    Settled (saveenv f r).1 r.flashAddr.other ∧
      Sector.data ((saveenv f r).1 r.flashAddr.other) = Sector.data r.env := by
  have hnew : (saveenv f r).1 r.flashAddr.other = withFlags r.env activeFlag := by
    rw [saveenv_flash, if_neg (Copy.other_ne _)]
  have hold : (saveenv f r).1 r.flashAddr.other.other =
      withFlags (f r.flashAddr) obsoleteFlag := by
    rw [saveenv_flash, Copy.other_other, if_pos rfl]
  refine ⟨⟨?_, ?_, fun _ => ?_⟩, ?_⟩
  · rw [hnew, crcOk_withFlags]
    exact hcrc
  · rw [hnew, withFlags_flags]
  · rw [hold, withFlags_flags]
  · rw [hnew, data_withFlags]

/-! ## The machine and its history -/

/-- What was saved, by the contents of the environments. -/
structure History (n : ℕ) where
  /-- the last environment whose `saveenv` completed -/
  saved : Fin n → UInt8
  /-- those whose `saveenv` was cut short since then -/
  interrupted : List (Fin n → UInt8)
  /-- the last environment saved, by a `saveenv` that completed or by a repair -/
  inForce : Fin n → UInt8
  /-- the one whose `saveenv` was cut short since then, and no boot has completed -/
  pending : Option (Fin n → UInt8)

def History.completed (d : Fin n → UInt8) : History n := ⟨d, [], d, none⟩

def History.cut (h : History n) (d : Fin n → UInt8) : History n :=
  { h with interrupted := d :: h.interrupted, pending := some d }

def History.booted (h : History n) (d : Fin n → UInt8) : History n :=
  { h with inForce := d, pending := none }

/-- The machine; `ram` is there while it runs. -/
structure Machine (n : ℕ) where
  flash : Flash n
  ram : Option (Running n)
  history : History n

/-- What happens to it. -/
inductive Event (n : ℕ) where
  /-- any commands that change the environment, and `env_crc_update` -/
  | edit (data : Fin n → UInt8)
  | save
  /-- the power goes while the sector is erased and leaves `torn` -/
  | saveEraseCut (torn : Sector n)
  /-- the power goes after `k` byte writes -/
  | saveCut (k : ℕ)
  | powerOff
  | boot
  /-- the power goes after `k` writes of the repair, and before the last of them -/
  | bootCut (k : ℕ)

/-- The environment in RAM with new data and `env_crc_update`. -/
def edited (s : Sector n) (data : Fin n → UInt8) : Sector n
  | .crc i => crcOf data i
  | .flags => s .flags
  | .data i => data i

/-- One event; `dflt` is the default environment. -/
inductive Step (dflt : Fin n → UInt8) : Machine n → Event n → Machine n → Prop where
  | edit (f : Flash n) (r : Running n) (h : History n) (d : Fin n → UInt8) :
    Step dflt ⟨f, some r, h⟩ (.edit d) ⟨f, some { r with env := edited r.env d }, h⟩
  | save (f : Flash n) (r : Running n) (h : History n) :
    Step dflt ⟨f, some r, h⟩ .save
      ⟨(saveenv f r).1, some (saveenv f r).2, .completed (Sector.data r.env)⟩
  | saveEraseCut (f : Flash n) (r : Running n) (h : History n) (torn : Sector n) :
    ¬ CrcOk torn →
    Step dflt ⟨f, some r, h⟩ (.saveEraseCut torn)
      ⟨Function.update f r.flashAddr.other torn, none, h.cut (Sector.data r.env)⟩
  | saveCut (f : Flash n) (r : Running n) (h : History n) (k : ℕ) :
    k < (saveWrites r).length →
    (k < n → ¬ CrcOk (flashWrites (eraseNew f r) ((saveWrites r).take k) r.flashAddr.other)) →
    Step dflt ⟨f, some r, h⟩ (.saveCut k)
      ⟨flashWrites (eraseNew f r) ((saveWrites r).take k), none, h.cut (Sector.data r.env)⟩
  | powerOff (f : Flash n) (r : Running n) (h : History n) :
    Step dflt ⟨f, some r, h⟩ .powerOff ⟨f, none, h⟩
  | boot (f : Flash n) (h : History n) :
    Step dflt ⟨f, none, h⟩ .boot
      ⟨(boot dflt f).1, some (boot dflt f).2, h.booted (Sector.data (boot dflt f).2.env)⟩
  | bootCut (f : Flash n) (h : History n) (k : ℕ) :
    k < (bootWrites f).length →
    Step dflt ⟨f, none, h⟩ (.bootCut k) ⟨flashWrites f ((bootWrites f).take k), none, h⟩

/-- The runs start switched off, with one good active copy. -/
def redundSystem (dflt : Fin n → UInt8) : TransitionSystem (Machine n) (Event n) where
  init s := s.ram = none ∧ ∃ c, Settled s.flash c ∧
    s.history = .completed (Sector.data (s.flash c))
  step := Step dflt

/-! ## The invariant -/

/-- The two views of the history agree. -/
def History.Ok (h : History n) : Prop :=
  (h.inForce = h.saved ∨ h.inForce ∈ h.interrupted) ∧ ∀ d, h.pending = some d → d ∈ h.interrupted

/-- Copy `c` is the one to choose. -/
def Right (s : Machine n) (c : Copy) : Prop :=
  Settled s.flash c ∧ Sector.data (s.flash c) = s.history.inForce ∨
    HalfSaved s.flash c ∧ s.ram = none ∧ s.history.pending = some (Sector.data (s.flash c))

structure Inv (s : Machine n) : Prop where
  history : s.history.Ok
  right : ∃ c, Right s c ∧ ∀ r, s.ram = some r → r.flashAddr = c ∧ CrcOk r.env

theorem History.Ok.completed (d : Fin n → UInt8) : (History.completed d).Ok :=
  ⟨Or.inl rfl, fun _ h => absurd h (by simp [History.completed])⟩

theorem History.Ok.cut {h : History n} (hok : h.Ok) (d : Fin n → UInt8) : (h.cut d).Ok := by
  refine ⟨hok.1.imp_right (List.mem_cons_of_mem d), fun d' hd' => ?_⟩
  obtain rfl := Option.some.inj hd'
  exact List.mem_cons_self

theorem History.Ok.booted {h : History n} (hok : h.Ok) {d : Fin n → UInt8}
    (hd : d = h.inForce ∨ h.pending = some d) : (h.booted d).Ok := by
  refine ⟨?_, fun _ h => absurd h (by simp [History.booted])⟩
  rcases hd with rfl | hd
  · exact hok.1
  · exact Or.inr (hok.2 d hd)

theorem Inv.settled {f : Flash n} {r : Running n} {h : History n} (hs : Inv ⟨f, some r, h⟩) :
    Settled f r.flashAddr ∧ Sector.data (f r.flashAddr) = h.inForce ∧ CrcOk r.env := by
  obtain ⟨c, hright, hram⟩ := hs.right
  obtain ⟨rfl, hcrc⟩ := hram r rfl
  rcases hright with ⟨hsettled, hdata⟩ | ⟨-, hnone, -⟩
  · exact ⟨hsettled, hdata, hcrc⟩
  · exact absurd hnone (by simp)

theorem Right.envInit {s : Machine n} {c : Copy} (h : Right s c) :
    CrcOk (s.flash c) ∧ (∃ k, envInit s.flash = (.data c, k + 1)) ∧
      (Sector.data (s.flash c) = s.history.inForce ∨
        s.history.pending = some (Sector.data (s.flash c))) := by
  rcases h with ⟨hsettled, hdata⟩ | ⟨hhalf, -, hdata⟩
  · exact ⟨hsettled.crcOk, ⟨0, envInit_of_settled hsettled⟩, Or.inl hdata⟩
  · exact ⟨hhalf.crcOk, ⟨1, envInit_of_halfSaved hhalf⟩, Or.inr hdata⟩

theorem boot_of_envInit (dflt : Fin n → UInt8) {f : Flash n} {c : Copy} {k : ℕ}
    (h : envInit f = (.data c, k + 1)) :
    boot dflt f = (flashWrites f (bootWrites f), ⟨c, flashWrites f (bootWrites f) c⟩) := by
  simp only [boot, h]

theorem crcOk_edited (s : Sector n) (d : Fin n → UInt8) : CrcOk (edited s d) := fun _ => rfl

theorem inv_step {dflt : Fin n → UInt8} {s t : Machine n} {e : Event n} (hs : Inv s)
    (hstep : Step dflt s e t) : Inv t := by
  cases hstep with
  | edit f r h d =>
    obtain ⟨hsettled, hdata, -⟩ := hs.settled
    refine ⟨hs.history, r.flashAddr, Or.inl ⟨hsettled, hdata⟩, ?_⟩
    rintro r' hr'
    obtain rfl := Option.some.inj hr'
    exact ⟨rfl, crcOk_edited _ _⟩
  | save f r h =>
    obtain ⟨-, -, hcrc⟩ := hs.settled
    obtain ⟨hnew, hdata⟩ := settled_saveenv f hcrc
    refine ⟨.completed _, r.flashAddr.other, Or.inl ⟨hnew, hdata⟩, ?_⟩
    rintro r' hr'
    obtain rfl := Option.some.inj hr'
    exact ⟨rfl, hcrc⟩
  | saveEraseCut f r h torn htorn =>
    obtain ⟨hsettled, hdata, -⟩ := hs.settled
    refine ⟨hs.history.cut _, r.flashAddr, Or.inl ⟨settled_update_bad hsettled htorn, ?_⟩, ?_⟩
    · show Sector.data (Function.update f r.flashAddr.other torn r.flashAddr) = h.inForce
      rw [Function.update_of_ne (Copy.ne_other _), hdata]
    · rintro r' hr'
      exact absurd hr' (by simp)
  | saveCut f r h k hk hpart =>
    obtain ⟨hsettled, hdata, hcrc⟩ := hs.settled
    have hnone : ∀ r' : Running n, (none : Option (Running n)) = some r' →
        r'.flashAddr = r.flashAddr ∧ CrcOk r'.env := fun _ h => absurd h (by simp)
    rcases saveWrites_cut hsettled hcrc hk hpart with ⟨hold, hsame⟩ | ⟨hnew, hdata'⟩
    · refine ⟨hs.history.cut _, r.flashAddr, Or.inl ⟨hold, ?_⟩, hnone⟩
      show Sector.data (flashWrites (eraseNew f r) ((saveWrites r).take k) r.flashAddr) = h.inForce
      rw [hsame, hdata]
    · refine ⟨hs.history.cut _, r.flashAddr.other, Or.inr ⟨hnew, rfl, ?_⟩, ?_⟩
      · show some (Sector.data r.env) = _
        rw [hdata']
      · rintro r' hr'
        exact absurd hr' (by simp)
  | powerOff f r h =>
    obtain ⟨hsettled, hdata, -⟩ := hs.settled
    exact ⟨hs.history, r.flashAddr, Or.inl ⟨hsettled, hdata⟩, fun _ h => absurd h (by simp)⟩
  | boot f h =>
    obtain ⟨c, hright, -⟩ := hs.right
    obtain ⟨-, ⟨k, hinit⟩, hdata⟩ := hright.envInit
    have hsettled : Settled (flashWrites f (bootWrites f)) c ∧
        Sector.data (flashWrites f (bootWrites f) c) = Sector.data (f c) := by
      rcases hright with ⟨hset, -⟩ | ⟨hhalf, -, -⟩
      · have hset' : Settled f c := hset
        rw [bootWrites_of_settled hset']
        exact ⟨hset', rfl⟩
      · exact (bootWrites_of_halfSaved hhalf).2
    rw [boot_of_envInit dflt hinit]
    refine ⟨hs.history.booted ?_, c, Or.inl ⟨hsettled.1, rfl⟩, ?_⟩
    · rw [hsettled.2]
      exact hdata
    · rintro r' hr'
      obtain rfl := Option.some.inj hr'
      exact ⟨rfl, hsettled.1.crcOk⟩
  | bootCut f h k hk =>
    obtain ⟨c, hright, -⟩ := hs.right
    refine ⟨hs.history, c, ?_, fun _ h => absurd h (by simp)⟩
    rcases hright with ⟨hset, -⟩ | ⟨hhalf, -, hdata⟩
    · have hset' : Settled f c := hset
      rw [bootWrites_of_settled hset'] at hk
      exact absurd hk (by simp)
    · obtain ⟨hhalf', hdata'⟩ := (bootWrites_of_halfSaved hhalf).1 k hk
      refine Or.inr ⟨hhalf', rfl, ?_⟩
      show h.pending = some (Sector.data (flashWrites f ((bootWrites f).take k) c))
      rw [hdata']
      exact hdata

theorem inv_of_reachable {dflt : Fin n → UInt8} {s : Machine n}
    (h : (redundSystem dflt).Reachable s) : Inv s := by
  refine TransitionSystem.Reachable.invariant (I := Inv) (fun s hinit => ?_)
    (fun _ _ _ hs hstep => inv_step hs hstep) h
  obtain ⟨hram, c, hsettled, hhist⟩ := hinit
  refine ⟨by rw [hhist]; exact .completed _, c, Or.inl ⟨hsettled, by rw [hhist]; rfl⟩, ?_⟩
  intro r hr
  rw [hram] at hr
  exact absurd hr (by simp)

/-- **Every boot selects a saved environment.**  After any run, `env_init` selects a copy that
is complete, and never the default environment.  The copy holds the last environment whose
`saveenv` completed or one whose `saveenv` was cut short since; more closely, it holds the last
environment that was saved, by a `saveenv` or by the repair of a boot, or the one whose
`saveenv` was cut short after that. -/
theorem boot_selects_saved (dflt : Fin n → UInt8) {s : Machine n}
    (h : (redundSystem dflt).Reachable s) :
    ∃ c k, envInit s.flash = (.data c, k + 1) ∧ CrcOk (s.flash c) ∧
      (Sector.data (s.flash c) = s.history.saved ∨
        Sector.data (s.flash c) ∈ s.history.interrupted) ∧
      (Sector.data (s.flash c) = s.history.inForce ∨
        s.history.pending = some (Sector.data (s.flash c))) := by
  have hinv := inv_of_reachable h
  obtain ⟨c, hright, -⟩ := hinv.right
  obtain ⟨hcrc, ⟨k, hinit⟩, hdata⟩ := hright.envInit
  refine ⟨c, k, hinit, hcrc, ?_, hdata⟩
  rcases hdata with hforce | hpending
  · rw [hforce]
    exact hinv.history.1
  · exact Or.inr (hinv.history.2 _ hpending)

/-! ### One byte of data -/

/-- Two good copies of the same environment, the first of them active. -/
def twoCopies (d : Fin 1 → UInt8) : Flash 1
  | .first => withFlags (defaultEnv d) activeFlag
  | .second => withFlags (defaultEnv d) obsoleteFlag

theorem settled_twoCopies (d : Fin 1 → UInt8) : Settled (twoCopies d) .first :=
  ⟨(crcOk_withFlags _ _).mpr fun _ => rfl, rfl, fun _ => rfl⟩

/-- The rule applies to a boot and a `saveenv` that lacks only its last write. -/
theorem boot_selects_saved_twoCopies :
    ∃ c k, envInit (flashWrites (eraseNew (boot 0 (twoCopies 0)).1 (boot 0 (twoCopies 0)).2)
      ((saveWrites (boot 0 (twoCopies 0)).2).take 6)) = (.data c, k + 1) := by
  have hinit : (redundSystem 0).Reachable
      ⟨twoCopies 0, none, .completed (Sector.data (twoCopies 0 .first))⟩ :=
    .init ⟨rfl, .first, settled_twoCopies 0, rfl⟩
  have hboot := hinit.step (Step.boot (twoCopies 0) _)
  have hcut := hboot.step (Step.saveCut _ _ _ 6 (by rw [length_saveWrites]; decide)
    (fun h => absurd h (by decide)))
  obtain ⟨c, k, h, -⟩ := boot_selects_saved 0 hcut
  exact ⟨c, k, h⟩

end Nor
end Env
end EmevBsp
