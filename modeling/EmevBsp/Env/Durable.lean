import EmevBsp.Env.FlashRedundRuns
import EmevBsp.Env.SetenvRuns

/-!
# `setenv`, `saveenv` and power cuts: a map that lasts

What the redundant environment in NOR flash is for is a map that is edited in RAM, and of which
the last one saved is there again after the power was off.  A `saveenv` that the power cuts short
is made or not made, which the next boot decides once and for all (`durable`).  The code follows it
over every run, from the bytes that `_do_setenv` shifts to the flags that `env_init` compares.

* `durable`: the map, from the one in the flash at first.
* `shell`: the machine, with the globals of `_do_setenv`.
* `follows_step`: each step of the machine is the call of the map that `Action.calls` says.
* `getenv_of_run`: **what `getenv` reads after a run** is what the map has after the same calls.

The calls that overflow after the old definition is gone are left out: they leave the check of the
array as it was, and what `saveenv` writes then is not taken by a boot.
-/

namespace EmevBsp
namespace Env

open Nor

/-! ## The map -/

/-- The map in RAM while the machine is on, the one that was saved last, and the one whose `saveenv`
was cut short since. -/
structure Durable where
  cur : Option Vars
  saved : Vars
  pending : Option Vars

/-- The map after a call of `_do_setenv`, with `n = ENV_SIZE`. -/
def Vars.call (cfg : SetenvConfig) (n : ℕ) (m : Vars) (c : SetenvCall) : Vars :=
  if h : eqSign ∈ c.name.bytes then m
  else if guardError cfg c m (nameOf c.name h) = none then
    (m.setenv n (nameOf c.name h) c.args.list).2
  else m

/-- What is done with the map. -/
inductive DurableCall where
  | setenv (c : SetenvCall)
  | save
  | saveCut
  | powerOff
  | boot

/-- The map that lasts, from the one in the flash. -/
def durable (cfg : SetenvConfig) (n : ℕ) (inFlash : Vars) :
    TransitionSystem Durable DurableCall where
  init u := u = ⟨none, inFlash, none⟩
  step u a v :=
    match a with
    | .setenv c => ∃ m, u.cur = some m ∧ v = { u with cur := some (m.call cfg n c) }
    | .save => ∃ m, u.cur = some m ∧ v = ⟨some m, m, none⟩
    | .saveCut => ∃ m, u.cur = some m ∧ v = ⟨none, u.saved, some m⟩
    | .powerOff => v = { u with cur := none }
    | .boot => u.cur = none ∧ ∃ m, (m = u.saved ∨ u.pending = some m) ∧ v = ⟨some m, m, none⟩

/-! ## The machine -/

variable {n : ℕ}

/-- The machine with the globals of the commands. -/
structure Shell (n : ℕ) where
  machine : Machine n
  globals : Globals

/-- The bytes of `*env_ptr` are those of an `env_t`. -/
structure InRam (s : Sector n) (e : EnvT) : Prop where
  data : e.data = List.ofFn (Sector.data s)
  crc : ∀ i, s (.crc i) = wordBytes e.crc i

/-- `*env_ptr` with the bytes of an `env_t`. -/
def putEnv (s : Sector n) (e : EnvT) : Sector n
  | .crc i => wordBytes e.crc i
  | .flags => s .flags
  | .data i => e.data.getD i 0

/-- A command, or what happens to the flash. -/
inductive Action (n : ℕ) where
  | setenv (c : SetenvCall)
  | event (e : Event n)

/-- One step; what a boot leaves in the other globals is not said. -/
inductive ShellStep (cfg : SetenvConfig) (dflt : Fin n → UInt8) :
    Shell n → Action n → Shell n → Prop where
  | setenv (f : Flash n) (r : Running n) (h : History n) (g g' : Globals) (c : SetenvCall)
      (err : Option SetenvError) : doSetenv cfg g c = some (err, g') →
    ShellStep cfg dflt ⟨⟨f, some r, h⟩, g⟩ (.setenv c)
      ⟨⟨f, some { r with env := putEnv r.env g'.env }, h⟩, g'⟩
  | boot (m m' : Machine n) (r : Running n) (g g' : Globals) : Step dflt m .boot m' →
    m'.ram = some r → InRam r.env g'.env →
    ShellStep cfg dflt ⟨m, g⟩ (.event .boot) ⟨m', g'⟩
  | event (m m' : Machine n) (g : Globals) (e : Event n) : (∀ d, e ≠ .edit d) → e ≠ .boot →
    Step dflt m e m' → ShellStep cfg dflt ⟨m, g⟩ (.event e) ⟨m', g⟩

/-- The runs start switched off, with an active copy in the flash whose data are those of a map. -/
def shell (cfg : SetenvConfig) (dflt : Fin n → UInt8) (inFlash : Vars) :
    TransitionSystem (Shell n) (Action n) where
  init s := (redundSystem dflt).init s.machine ∧
    EnvRep (List.ofFn s.machine.history.saved) inFlash
  step := ShellStep cfg dflt

/-- What a step of the machine is for the map; a repair that is cut short is nothing. -/
def Action.calls : Action n → List DurableCall
  | .setenv c => [.setenv c]
  | .event .save => [.save]
  | .event (.saveEraseCut _) | .event (.saveCut _) => [.saveCut]
  | .event .powerOff => [.powerOff]
  | .event .boot => [.boot]
  | .event (.bootCut _) | .event (.edit _) => []

/-- The call does not overflow after the old definition is gone. -/
def Action.Fits (cfg : SetenvConfig) (s : Shell n) : Action n → Prop
  | .setenv c => ¬ OverflowAfterDelete cfg s.globals c
  | .event _ => True

/-! ## A call -/

theorem toNat_wordBytes (w : UInt32) (i : Fin 4) :
    (wordBytes w i).toNat = w.toNat / 2 ^ (8 * i.val) % 256 := by
  have hi := i.isLt
  have hshift : (UInt32.ofNat (8 * i)).toNat = 8 * i.val := by
    rw [UInt32.toNat_ofNat', Nat.mod_eq_of_lt (by omega)]
  rw [wordBytes, UInt32.toNat_toUInt8, UInt32.toNat_shiftRight, hshift,
    Nat.mod_eq_of_lt (by omega : 8 * i.val < 32), Nat.shiftRight_eq_div_pow]

theorem wordBytes_injective {a b : UInt32} (h : ∀ i, wordBytes a i = wordBytes b i) : a = b := by
  have hbyte : ∀ i : Fin 4, a.toNat / 2 ^ (8 * i.val) % 256 = b.toNat / 2 ^ (8 * i.val) % 256 := by
    intro i
    rw [← toNat_wordBytes, ← toNat_wordBytes, h]
  have h0 := hbyte 0
  have h1 := hbyte 1
  have h2 := hbyte 2
  have h3 := hbyte 3
  have ha := a.toNat_lt
  have hb := b.toNat_lt
  refine UInt32.toNat_inj.mp ?_
  norm_num at h0 h1 h2 h3
  omega

theorem InRam.crcOk {s : Sector n} {e : EnvT} (h : InRam s e) (hcrc : Nor.CrcOk s) : CrcOk e := by
  refine wordBytes_injective fun i => ?_
  rw [← h.crc, hcrc i, crcOf, h.data]

theorem inRam_putEnv (s : Sector n) {e : EnvT} (h : e.data.length = n) : InRam (putEnv s e) e := by
  refine ⟨?_, fun _ => rfl⟩
  refine List.ext_getElem (by rw [List.length_ofFn, h]) fun k hk hk' => ?_
  rw [List.getElem_ofFn]
  show _ = e.data.getD k 0
  rw [List.getD_eq_getElem _ _ hk]

/-- Storing the bytes of an environment whose check is right is an edit. -/
theorem putEnv_eq_edited (s : Sector n) {e : EnvT} (h : e.data.length = n) (hcrc : CrcOk e) :
    putEnv s e = edited s fun i => e.data.getD i 0 := by
  funext o
  cases o with
  | crc i =>
    have hdata := (inRam_putEnv s h).data
    show wordBytes e.crc i = wordBytes (crc32 0 (List.ofFn fun i : Fin n => e.data.getD i 0)) i
    rw [← hcrc]
    exact congrArg (fun l => wordBytes (crc32 0 l) i) hdata
  | flags => rfl
  | data i => rfl

/-- What a call does to the map. -/
theorem doSetenv_call {cfg : SetenvConfig} {g g' : Globals} {c : SetenvCall}
    {err : Option SetenvError} {m : Vars} (hrep : EnvRep g.env.data m)
    (hcall : doSetenv cfg g c = some (err, g')) :
    EnvRep g'.env.data (m.call cfg g.env.data.length c) ∧
      g'.env.data.length = g.env.data.length := by
  rw [Vars.call]
  split
  · next hname =>
    rw [doSetenv_of_eqSign cfg g hname] at hcall
    obtain ⟨-, rfl⟩ := Prod.mk.inj (Option.some.inj hcall)
    exact ⟨hrep, rfl⟩
  · next hname =>
    split
    · next hguard =>
      obtain ⟨g'', hcall', hpost, -⟩ := doSetenv_spec cfg hrep (s := nameOf c.name hname) rfl hguard
      rw [hcall'] at hcall
      obtain ⟨-, rfl⟩ := Prod.mk.inj (Option.some.inj hcall)
      exact ⟨hpost.rep, hpost.length⟩
    · next hguard =>
      obtain ⟨e, he⟩ := Option.ne_none_iff_exists'.mp hguard
      rw [doSetenv_of_guard cfg hrep (s := nameOf c.name hname) rfl he] at hcall
      obtain ⟨-, rfl⟩ := Prod.mk.inj (Option.some.inj hcall)
      exact ⟨hrep, rfl⟩

/-! ## The code follows the map -/

/-- The machine holds the maps. -/
structure Follows (s : Shell n) (u : Durable) : Prop where
  inv : Inv s.machine
  saved : EnvRep (List.ofFn s.machine.history.inForce) u.saved
  pending : ∀ d, s.machine.history.pending = some d →
    ∃ m, u.pending = some m ∧ EnvRep (List.ofFn d) m
  off : s.machine.ram = none → u.cur = none
  on : ∀ r, s.machine.ram = some r →
    InRam r.env s.globals.env ∧ ∃ m, u.cur = some m ∧ EnvRep s.globals.env.data m

/-- A boot takes the data of the copy that it selects. -/
theorem data_boot (dflt : Fin n → UInt8) {f : Flash n} {h : History n} {c : Copy}
    (hright : Right ⟨f, none, h⟩ c) :
    Sector.data (boot dflt f).2.env = Sector.data (f c) := by
  obtain ⟨-, ⟨k, hinit⟩, -⟩ := hright.envInit
  rw [boot_of_envInit dflt hinit]
  rcases hright with ⟨hset, -⟩ | ⟨hhalf, -, -⟩
  · have hset' : Settled f c := hset
    rw [bootWrites_of_settled hset']
    rfl
  · exact (bootWrites_of_halfSaved hhalf).2.2

section

variable {cfg : SetenvConfig} {dflt : Fin n → UInt8} {f : Flash n} {r : Running n} {h : History n}
  {g g' : Globals} {u : Durable} {inFlash : Vars}

/-- The map in RAM is the one whose bytes a `saveenv` writes. -/
theorem Follows.data (hf : Follows ⟨⟨f, some r, h⟩, g⟩ u) :
    ∃ m, u.cur = some m ∧ EnvRep (List.ofFn (Sector.data r.env)) m := by
  obtain ⟨hram, m, hm, hrep⟩ := hf.on r rfl
  exact ⟨m, hm, hram.data ▸ hrep⟩

theorem follows_setenv (hf : Follows ⟨⟨f, some r, h⟩, g⟩ u) {c : SetenvCall}
    {err : Option SetenvError} (hcall : doSetenv cfg g c = some (err, g'))
    (hfits : ¬ OverflowAfterDelete cfg g c) :
    ∃ u', (durable cfg n inFlash).step u (.setenv c) u' ∧
      Follows ⟨⟨f, some { r with env := putEnv r.env g'.env }, h⟩, g'⟩ u' := by
  obtain ⟨hram, m, hm, hrep⟩ := hf.on r rfl
  have hn : g.env.data.length = n := by rw [hram.data, List.length_ofFn]
  obtain ⟨hrep', hlen⟩ := doSetenv_call hrep hcall
  rw [hn] at hrep' hlen
  have hcrc : CrcOk g'.env :=
    crcOk_step ⟨m, hrep⟩ (hram.crcOk hf.inv.settled.2.2) hfits hcall
  have hedit : Inv ⟨f, some { r with env := putEnv r.env g'.env }, h⟩ := by
    rw [putEnv_eq_edited r.env hlen hcrc]
    exact @inv_step n (fun _ => 0) _ _ _ hf.inv (.edit f r h _)
  refine ⟨{ u with cur := some (m.call cfg n c) }, ⟨m, hm, rfl⟩, hedit, hf.saved, hf.pending,
    fun hoff => (Option.some_ne_none _ hoff).elim, fun r' hr' => ?_⟩
  obtain rfl := Option.some.inj hr'
  exact ⟨inRam_putEnv _ hlen, _, rfl, hrep'⟩

/-- A `saveenv` that is cut short. -/
theorem follows_cut {m' : Machine n} (hf : Follows ⟨⟨f, some r, h⟩, g⟩ u) (hinv : Inv m')
    (hoff : m'.ram = none) (hcut : m'.history = h.cut (Sector.data r.env)) :
    ∃ u', (durable cfg n inFlash).step u .saveCut u' ∧ Follows ⟨m', g⟩ u' := by
  obtain ⟨m, hm, hrep⟩ := hf.data
  refine ⟨⟨none, u.saved, some m⟩, ⟨m, hm, rfl⟩, hinv, ?_, fun d hd => ⟨m, rfl, ?_⟩,
    fun _ => rfl, fun r' hr' => ?_⟩
  · show EnvRep (List.ofFn m'.history.inForce) u.saved
    rw [hcut]
    exact hf.saved
  · rw [hcut] at hd
    obtain rfl := Option.some.inj hd
    exact hrep
  · rw [hoff] at hr'
    cases hr'

theorem follows_boot (hf : Follows ⟨⟨f, none, h⟩, g⟩ u)
    (hram : InRam (boot dflt f).2.env g'.env) :
    ∃ u', (durable cfg n inFlash).step u .boot u' ∧
      Follows ⟨⟨(boot dflt f).1, some (boot dflt f).2,
        h.booted (Sector.data (boot dflt f).2.env)⟩, g'⟩ u' := by
  obtain ⟨c, hright, -⟩ := hf.inv.right
  have hdata := data_boot dflt hright
  have hm : ∃ m, (m = u.saved ∨ u.pending = some m) ∧
      EnvRep (List.ofFn (Sector.data (boot dflt f).2.env)) m := by
    rw [hdata]
    rcases hright.envInit.2.2 with hforce | hpending
    · exact ⟨u.saved, Or.inl rfl, hforce ▸ hf.saved⟩
    · obtain ⟨m, hm, hrep⟩ := hf.pending _ hpending
      exact ⟨m, Or.inr hm, hrep⟩
  obtain ⟨m, hfrom, hrep⟩ := hm
  refine ⟨⟨some m, m, none⟩, ⟨hf.off rfl, m, hfrom, rfl⟩, inv_step hf.inv (.boot f h), hrep,
    fun d hd => ?_, fun hoff => (Option.some_ne_none _ hoff).elim, fun r' hr' => ?_⟩
  · cases hd
  · obtain rfl := Option.some.inj hr'
    exact ⟨hram, m, rfl, hram.data.symm ▸ hrep⟩

end

/-- Every step of the machine is what it is for the map. -/
theorem follows_step {cfg : SetenvConfig} {dflt : Fin n → UInt8} {inFlash : Vars} {s t : Shell n}
    {a : Action n} {u : Durable} (hf : Follows s u) (hfits : a.Fits cfg s)
    (hst : ShellStep cfg dflt s a t) :
    ∃ u', (durable cfg n inFlash).Run u a.calls u' ∧ Follows t u' := by
  cases hst with
  | setenv f r h g g' c err hcall =>
    obtain ⟨u', hstep, hf'⟩ := follows_setenv hf hcall hfits
    exact ⟨u', .single hstep, hf'⟩
  | boot m m' r g g' hboot hr hram =>
    cases hboot with
    | boot f h =>
      obtain rfl := Option.some.inj hr
      obtain ⟨u', hstep, hf'⟩ : ∃ u', (durable cfg n inFlash).step u .boot u' ∧ _ := follows_boot hf hram
      exact ⟨u', .single hstep, hf'⟩
  | event m m' g e hedit hboot hstep =>
    have hinv := inv_step hf.inv hstep
    cases hstep with
    | edit f r h d => exact absurd rfl (hedit d)
    | save f r h =>
      obtain ⟨v, hv, hrep⟩ := hf.data
      refine ⟨⟨some v, v, none⟩, .single ⟨v, hv, rfl⟩, hinv, hrep, fun d hd => ?_,
        fun hoff => (Option.some_ne_none _ hoff).elim, fun r' hr' => ?_⟩
      · cases hd
      · obtain rfl := Option.some.inj hr'
        exact ⟨(hf.on r rfl).1, v, rfl, (hf.on r rfl).1.data.symm ▸ hrep⟩
    | saveEraseCut f r h torn htorn =>
      obtain ⟨u', hstep, hf'⟩ : ∃ u', (durable cfg n inFlash).step u .saveCut u' ∧ _ :=
        follows_cut hf hinv rfl rfl
      exact ⟨u', .single hstep, hf'⟩
    | saveCut f r h k hk hpart =>
      obtain ⟨u', hstep, hf'⟩ : ∃ u', (durable cfg n inFlash).step u .saveCut u' ∧ _ :=
        follows_cut hf hinv rfl rfl
      exact ⟨u', .single hstep, hf'⟩
    | powerOff f r h =>
      refine ⟨{ u with cur := none }, .single rfl, hinv, hf.saved, hf.pending,
        fun _ => rfl, fun r' hr' => ?_⟩
      cases hr'
    | boot f h => exact absurd rfl hboot
    | bootCut f h k hk =>
      exact ⟨u, .nil u, hinv, hf.saved, hf.pending, fun _ => hf.off rfl,
        fun r' hr' => (Option.some_ne_none _ hr'.symm).elim⟩

theorem follows_init {cfg : SetenvConfig} {dflt : Fin n → UInt8} {inFlash : Vars} {s : Shell n}
    (hs : (shell cfg dflt inFlash).init s) : Follows s ⟨none, inFlash, none⟩ := by
  obtain ⟨hinit, hrep⟩ := hs
  have hinv := inv_of_reachable (.init hinit)
  obtain ⟨hoff, c, -, hhist⟩ := hinit
  refine ⟨hinv, ?_, fun d hd => ?_, fun _ => rfl, fun r hr => ?_⟩
  · rw [hhist] at hrep ⊢
    exact hrep
  · rw [hhist] at hd
    cases hd
  · rw [hoff] at hr
    cases hr

theorem follows_run {cfg : SetenvConfig} {dflt : Fin n → UInt8} {inFlash : Vars} {s t : Shell n}
    {l : List (Action n)} (hs : (shell cfg dflt inFlash).init s)
    (h : ((shell cfg dflt inFlash).restrict (Action.Fits cfg)).Run s l t) :
    ∃ u, (durable cfg n inFlash).Run ⟨none, inFlash, none⟩ (l.flatMap Action.calls) u ∧
      Follows t u := by
  refine h.exists_follow (R := Follows) Action.calls (fun s a t u hf hst => ?_) _ (follows_init hs)
  exact follows_step hf hst.1 hst.2

/-- **The environment lasts.**  In any run of `setenv` calls, saves, cuts of the power and boots, the
map goes through the same calls, from the one that the flash has at first.  It is changed by `setenv`
only, and is after a boot the last one saved: by the last `saveenv` that completed or by the one that
was cut short since, if the boot has found it complete.  What `getenv` reads of every name is its
value in that map. -/
theorem getenv_of_run (cfg : SetenvConfig) (dflt : Fin n → UInt8) {inFlash : Vars}
    {s t : Shell n} {l : List (Action n)} (hs : (shell cfg dflt inFlash).init s)
    (h : ((shell cfg dflt inFlash).restrict (Action.Fits cfg)).Run s l t) :
    ∃ u₀ u, (durable cfg n inFlash).init u₀ ∧
      (durable cfg n inFlash).Run u₀ (l.flatMap Action.calls) u ∧
        u.cur.isSome = t.machine.ram.isSome ∧
          ∀ m, u.cur = some m → ∀ name : VarName,
            getenv t.globals.env name.bytes = some ((m.lookup name).map CString.bytes) := by
  obtain ⟨u, hu, hf⟩ := follows_run hs h
  refine ⟨_, u, rfl, hu, ?_⟩
  cases hram : t.machine.ram with
  | none =>
    have hoff := hf.off hram
    refine ⟨by rw [hoff]; rfl, fun m hm => ?_⟩
    rw [hoff] at hm
    cases hm
  | some r =>
    obtain ⟨-, m, hm, hrep⟩ := hf.on r hram
    refine ⟨by rw [hm]; rfl, fun m' hm' name => ?_⟩
    rw [hm] at hm'
    obtain rfl := Option.some.inj hm'
    exact hrep.getenv name

/-! ### A variable that is saved -/

/-- Two copies of an environment without variables, the first of them active. -/
def emptyFlash : Flash 8
  | .first => withFlags (defaultEnv 0) activeFlag
  | .second => withFlags (defaultEnv 0) obsoleteFlag

theorem settled_emptyFlash : Settled emptyFlash .first :=
  ⟨(crcOk_withFlags _ _).mpr fun _ => rfl, rfl, fun _ => rfl⟩

def emptyGlobals : Globals := globalsOf [0, 0, 0, 0, 0, 0, 0, 0] 0

/-- The machine with these copies. -/
def emptyShell : Shell 8 :=
  ⟨⟨emptyFlash, none, .completed (Sector.data (emptyFlash .first))⟩, emptyGlobals⟩

theorem data_emptyFlash : List.ofFn (Sector.data (emptyFlash .first)) = emptyGlobals.env.data := by
  rw [emptyFlash, data_withFlags]
  rfl

theorem init_emptyShell : (shell plainConfig 0 OrderedMap.empty).init emptyShell :=
  ⟨⟨rfl, .first, settled_emptyFlash, rfl⟩, [0, 0, 0, 0, 0, 0], data_emptyFlash⟩

/-- `setenv a 1` -/
def defineCall : SetenvCall := ⟨0, .ofString "a", .vals [.ofString "1"], true⟩

def definedGlobals : Globals := globalsOf [97, 61, 49, 0, 0, 0, 0, 0] 1

theorem fits_defineCall : ¬ OverflowAfterDelete plainConfig emptyGlobals defineCall := by
  rintro ⟨m, s, v, hrep, hname, hlookup, -⟩
  have hread := hrep.getenv s
  have hbytes : s.bytes = [97] := congrArg CString.bytes hname.symm
  rw [hlookup, hbytes] at hread
  cases hread

/-- A machine that is off can be booted. -/
theorem exists_boot {cfg : SetenvConfig} {dflt : Fin n → UInt8} {f : Flash n} {h : History n}
    (hinv : Inv ⟨f, none, h⟩) (g : Globals) :
    ∃ t r, ShellStep cfg dflt ⟨⟨f, none, h⟩, g⟩ (.event .boot) t ∧ t.machine.ram = some r := by
  have hstep : Step dflt ⟨f, none, h⟩ .boot _ := .boot f h
  obtain ⟨c, -, hram⟩ := (inv_step hinv hstep).right
  have hin : InRam (boot dflt f).2.env
      (globalsOf (List.ofFn (Sector.data (boot dflt f).2.env)) 0).env :=
    ⟨rfl, (hram _ rfl).2⟩
  exact ⟨_, _, .boot _ _ _ _ _ hstep rfl hin, rfl⟩

theorem inRam_emptyGlobals : InRam (boot 0 emptyFlash).2.env emptyGlobals.env := by
  rw [boot_of_envInit 0 (envInit_of_settled settled_emptyFlash),
    bootWrites_of_settled settled_emptyFlash]
  refine ⟨data_emptyFlash.symm, fun i => ?_⟩
  rw [← show crc32 0 (List.ofFn (Sector.data (emptyFlash .first))) = emptyGlobals.env.crc from
    congrArg (crc32 0) data_emptyFlash]
  exact settled_emptyFlash.crcOk i

/-- `a` is defined and saved, and the machine is switched off. -/
theorem run_save : ∃ f h,
    ((shell plainConfig 0 OrderedMap.empty).restrict (Action.Fits plainConfig)).Run emptyShell
      [.event .boot, .setenv defineCall, .event .save, .event .powerOff]
      ⟨⟨f, none, h⟩, definedGlobals⟩ := by
  refine ⟨_, _, .cons ⟨trivial, .boot _ _ _ _ _ (.boot _ _) rfl inRam_emptyGlobals⟩ <|
    .cons ⟨fits_defineCall, .setenv _ _ _ emptyGlobals definedGlobals defineCall none rfl⟩ <|
    .cons ⟨trivial, .event _ _ _ .save ?_ ?_ (.save _ _ _)⟩ <|
    .single ⟨trivial, .event _ _ _ .powerOff ?_ ?_ (.powerOff _ _ _)⟩⟩
  all_goals simp

/-- The map after a boot, a call, a save and another boot. -/
theorem cur_of_run_saved {cfg : SetenvConfig} {inFlash : Vars} {c : SetenvCall} {u : Durable}
    (h : (durable cfg n inFlash).Run ⟨none, inFlash, none⟩
      [.boot, .setenv c, .save, .powerOff, .boot] u) : u.cur = some (inFlash.call cfg n c) := by
  rcases h with - | ⟨hboot, h⟩
  obtain ⟨-, m, hm | hm, rfl⟩ := hboot
  · rcases h with - | ⟨⟨m', hm', rfl⟩, h⟩
    rcases h with - | ⟨⟨m'', hm'', rfl⟩, h⟩
    rcases h with - | ⟨hoff, h⟩
    obtain rfl := hoff
    rcases h with - | ⟨hagain, h⟩
    cases h
    obtain rfl := Option.some.inj hm'
    obtain rfl := Option.some.inj hm''
    obtain ⟨-, v, hv | hv, rfl⟩ := hagain
    · rw [hv, hm]
    · cases hv
  · cases hm

/-- After a boot it is there again. -/
theorem getenv_of_run_saved :
    ∃ t, ((shell plainConfig 0 OrderedMap.empty).restrict (Action.Fits plainConfig)).Run emptyShell
        [.event .boot, .setenv defineCall, .event .save, .event .powerOff, .event .boot] t ∧
      getenv t.globals.env [97] = some (some [49]) := by
  obtain ⟨f, h, hrun⟩ := run_save
  obtain ⟨v, -, hf⟩ := follows_run init_emptyShell hrun
  obtain ⟨t, r, hboot, hram⟩ := @exists_boot _ plainConfig 0 _ _ hf.inv definedGlobals
  have hfits : Action.Fits plainConfig ⟨⟨f, none, h⟩, definedGlobals⟩ (.event .boot) := trivial
  have hall := hrun.append (.single ⟨hfits, hboot⟩)
  obtain ⟨u₀, u, rfl, hcalls, -, hread⟩ := getenv_of_run plainConfig 0 init_emptyShell hall
  exact ⟨t, hall, hread _ (cur_of_run_saved hcalls) nameA⟩

end Env
end EmevBsp
