import EmevBsp.Env.Edit

/-!
# `_do_setenv` refines the operations of an ordered map

`Vars.setenv` says what a call is for: without arguments it erases the name, with arguments it
sets the name to the arguments joined by spaces, unless the entry does not fit behind the other
ones; then the name is only erased.  The theorems of this file say that the code does this to
the map its array represents, and what becomes of the check.
-/

namespace EmevBsp
namespace Env

/-- The arguments; a NULL `argv[2]` stands for none. -/
def Args.list : Args → List CString
  | .vals l => l
  | .null => []

/-- `ENV_SIZE - (env - env_data)`, `env` being the place behind the last entry. -/
def Vars.bytesLeft (m : Vars) (envSize : ℕ) : ℕ := envSize - m.size

/-- What a call does to the variables, and its message. -/
def Vars.setenv (m : Vars) (envSize : ℕ) (s : VarName) :
    List CString → Option SetenvError × Vars
  | [] => (none, m.erase s)
  | v :: vs =>
    if Vars.bytesLeft (m.erase s) envSize < setenvLen s.toCString (v :: vs) then
      (some .overflow, m.erase s)
    else (none, m.set s (joinArgs v vs))

/-! ## The array keeps its length -/

theorem length_of_shiftDown {fuel : ℕ} {data data' : List UInt8} {env nxt env' : ℕ}
    (h : shiftDown fuel data env nxt = some (data', env')) : data'.length = data.length := by
  induction fuel generalizing data env nxt with
  | zero => simp [shiftDown] at h
  | succ fuel ih =>
    simp only [shiftDown, Option.bind_eq_bind, Option.bind_eq_some_iff] at h
    obtain ⟨b, -, d, hstore, h⟩ := h
    have hd := length_of_store hstore
    split at h
    · obtain ⟨c, -, h⟩ := Option.bind_eq_some_iff.mp h
      split at h
      · simp only [Option.pure_def, Option.some.injEq, Prod.mk.injEq] at h
        rw [← h.1, hd]
      · rw [ih h, hd]
    · rw [ih h, hd]

theorem length_of_deleteEntry {data data' : List UInt8} {f : Found}
    (h : deleteEntry data f = some data') : data'.length = data.length := by
  simp only [deleteEntry, Option.bind_eq_bind, Option.bind_eq_some_iff] at h
  obtain ⟨c, -, h⟩ := h
  split at h
  · split at h
    · exact length_of_store h
    · obtain ⟨d, hd, h⟩ := Option.bind_eq_some_iff.mp h
      rw [length_of_store h, length_of_store hd]
  · obtain ⟨⟨d, env⟩, hd, h⟩ := Option.bind_eq_some_iff.mp h
    rw [length_of_store h, length_of_shiftDown hd]

/-! ## Finding and removing -/

theorem closing_append_of_ne_nil {l : List (VarName × CString)} (hl : l ≠ []) (junk : List UInt8) :
    closing l ++ junk = 0 :: junk := by
  simp [closing, hl]

theorem removeOld_of_lookup_eq_none {data : List UInt8} {m : Vars} (hrep : EnvRep data m)
    {s : VarName} (hs : m.lookup s = none) :
    removeOld data none = some data ∧ EnvRep data (m.erase s) := by
  rw [OrderedMap.erase_eq_self hs]
  exact ⟨rfl, hrep⟩

theorem removeOld_of_split {data : List UInt8} {m : Vars} (hrep : EnvRep data m) {s : VarName}
    {v : CString} {l r : List (VarName × CString)} (h : m.entries = l ++ (s, v) :: r) :
    ∃ data', removeOld data (some (foundAt l s v)) = some data' ∧ EnvRep data' (m.erase s) ∧
      data'.length = data.length := by
  obtain ⟨junk, rfl⟩ := hrep
  have hne : m.entries ≠ [] := by simp [h]
  have hshape : encode m.entries ++ (closing m.entries ++ junk) =
      encode l ++ (entryText (s, v) ++ (encode r ++ 0 :: junk)) := by
    rw [closing_append_of_ne_nil hne, h]
    simp
  obtain ⟨junk', hdel⟩ := deleteEntry_of_split l s v r junk
  rw [hshape]
  refine ⟨_, hdel, ⟨junk', ?_⟩, length_of_deleteEntry hdel⟩
  rw [OrderedMap.entries_erase_of_split h]

/-! ## Appending -/

theorem EnvRep.appendEntry_set {data : List UInt8} {m : Vars} {s : VarName}
    (hrep : EnvRep data (m.erase s)) (v : CString) (vs : List CString)
    (h : setenvLen s.toCString (v :: vs) ≤ Vars.bytesLeft (m.erase s) data.length) :
    ∃ data', appendEntry data s.toCString (v :: vs) = some (some data') ∧
      EnvRep data' (m.set s (joinArgs v vs)) ∧ data'.length = data.length := by
  obtain ⟨junk, rfl⟩ := hrep
  have hroom : setenvLen s.toCString (v :: vs) ≤ (closing (m.erase s).entries ++ junk).length := by
    rw [Vars.bytesLeft, Vars.size, List.length_append] at h
    omega
  have happ := appendEntry_of_le (m.erase s).entries s v vs junk hroom
  refine ⟨_, happ, ⟨(closing (m.erase s).entries ++ junk).drop
    (setenvLen s.toCString (v :: vs)), ?_⟩, ?_⟩
  · have hne : (m.set s (joinArgs v vs)).entries ≠ [] := by simp [OrderedMap.set]
    rw [closing_append_of_ne_nil hne, OrderedMap.set]
    simp
  · have hlen := setenvLen_eq s v vs
    simp only [List.length_append, List.length_cons, List.length_drop] at hroom ⊢
    omega

theorem EnvRep.appendEntry_overflow {data : List UInt8} {m : Vars} (hrep : EnvRep data m)
    (s : CString) (vs : List CString) (h : m.bytesLeft data.length < setenvLen s vs) :
    appendEntry data s vs = some none := by
  obtain ⟨junk, rfl⟩ := hrep
  refine appendEntry_of_lt m.entries s vs junk ?_
  rw [Vars.bytesLeft, Vars.size, List.length_append] at h
  omega

/-! ## The whole call -/

@[simp] theorem updateMirrors_env (g : Globals) (n v : CString) :
    (updateMirrors g n v).env = g.env := by
  unfold updateMirrors
  split_ifs <;> rfl

theorem crcOk_envCrcUpdate (e : EnvT) : CrcOk (envCrcUpdate e) := rfl

/-- What a call that is not refused leaves: the map it stands for, the length of the array, and
the state of the check. -/
structure EditPost (env env' : EnvT) (err : Option SetenvError) (m : Vars) : Prop where
  rep : EnvRep env'.data m
  length : env'.data.length = env.data.length
  crcOk : err = none → CrcOk env'
  crc : err ≠ none → env'.crc = env.crc

theorem setenvEdit_spec {g : Globals} {c : SetenvCall} {s : VarName} (hs : c.name = s.toCString)
    {found : Option Found} {m : Vars} {data : List UInt8}
    (hremove : removeOld g.env.data found = some data) (hrep : EnvRep data (m.erase s))
    (hlen : data.length = g.env.data.length) :
    ∃ g', setenvEdit g c found = some ((m.setenv g.env.data.length s c.args.list).1, g') ∧
      EditPost g.env g'.env (m.setenv g.env.data.length s c.args.list).1
        (m.setenv g.env.data.length s c.args.list).2 ∧
      ((m.setenv g.env.data.length s c.args.list).1 ≠ none → g'.env.data = data) := by
  have hdelete : EditPost g.env (envCrcUpdate { g.env with data := data }) none (m.erase s) :=
    ⟨hrep, hlen, fun _ => crcOk_envCrcUpdate _, fun h => absurd rfl h⟩
  cases hargs : c.args with
  | null =>
    refine ⟨{ g with env := envCrcUpdate { g.env with data := data } }, ?_, hdelete,
      fun h => absurd rfl h⟩
    simp only [setenvEdit, hremove, hargs, Option.bind_eq_bind, Option.bind_some]
    rfl
  | vals l =>
    cases l with
    | nil =>
      refine ⟨{ g with env := envCrcUpdate { g.env with data := data } }, ?_, hdelete,
        fun h => absurd rfl h⟩
      simp only [setenvEdit, hremove, hargs, Option.bind_eq_bind, Option.bind_some]
      rfl
    | cons v vs =>
      rw [← hlen]
      by_cases hfit : Vars.bytesLeft (m.erase s) data.length < setenvLen s.toCString (v :: vs)
      · have happ := hrep.appendEntry_overflow s.toCString (v :: vs) hfit
        have hspec : m.setenv data.length s (v :: vs) = (some .overflow, m.erase s) := if_pos hfit
        refine ⟨{ g with env := { g.env with data := data } }, ?_, ?_, fun _ => rfl⟩
        · simp only [setenvEdit, hremove, hargs, hs, happ, Option.bind_eq_bind, Option.bind_some,
            Args.list, hspec]
          rfl
        · rw [Args.list, hspec]
          exact ⟨hrep, hlen, fun h => absurd h (by simp), fun _ => rfl⟩
      · obtain ⟨data', happ, hrep', hlen'⟩ := hrep.appendEntry_set v vs (Nat.le_of_not_lt hfit)
        have hspec : m.setenv data.length s (v :: vs) = (none, m.set s (joinArgs v vs)) :=
          if_neg hfit
        refine ⟨updateMirrors { g with env := envCrcUpdate { g.env with data := data' } } c.name v,
          ?_, ?_, ?_⟩
        · simp only [setenvEdit, hremove, hargs, hs, happ, Option.bind_eq_bind, Option.bind_some,
            Args.list, hspec]
          rfl
        · rw [Args.list, hspec, updateMirrors_env]
          exact ⟨hrep', hlen'.trans hlen, fun _ => crcOk_envCrcUpdate _, fun h => absurd rfl h⟩
        · rw [Args.list, hspec]
          exact fun h => absurd rfl h

theorem doSetenv_of_eqSign (cfg : SetenvConfig) (g : Globals) {c : SetenvCall}
    (h : eqSign ∈ c.name.bytes) : doSetenv cfg g c = some (some .illegalChar, g) := by
  simp [doSetenv, h]

theorem doSetenv_of_notFound (cfg : SetenvConfig) {g : Globals} {c : SetenvCall}
    (hne : eqSign ∉ c.name.bytes)
    (hfind : findEntry c.name.bytes g.env.data (g.env.data.length + 1) 0 = some none) :
    doSetenv cfg g c = setenvEdit { g with envId := g.envId + 1 } c none := by
  simp [doSetenv, hne, hfind]

theorem doSetenv_of_found (cfg : SetenvConfig) {g : Globals} {c : SetenvCall} {f : Found}
    {old : List UInt8} (hne : eqSign ∉ c.name.bytes)
    (hfind : findEntry c.name.bytes g.env.data (g.env.data.length + 1) 0 = some (some f))
    (hold : stringAt g.env.data f.oldval = some old) :
    doSetenv cfg g c =
      match setenvGuard cfg c old with
      | some err => some (some err, { g with envId := g.envId + 1 })
      | none => setenvEdit
          { g with envId := g.envId + 1, baudrate := baudrateAfter cfg c g.baudrate } c
          (some f) := by
  simp only [doSetenv, hne, if_false, hfind, hold, Option.bind_eq_bind, Option.bind_some]
  rfl

/-- The message of a call that its name or an old definition forbids. -/
def guardError (cfg : SetenvConfig) (c : SetenvCall) (m : Vars) (s : VarName) :
    Option SetenvError :=
  (m.lookup s).bind fun v => setenvGuard cfg c v.bytes

theorem doSetenv_of_guard (cfg : SetenvConfig) {g : Globals} {m : Vars}
    (hrep : EnvRep g.env.data m) {c : SetenvCall} {s : VarName} (hs : c.name = s.toCString)
    {err : SetenvError} (h : guardError cfg c m s = some err) :
    doSetenv cfg g c = some (some err, { g with envId := g.envId + 1 }) := by
  obtain ⟨v, hv, herr⟩ := Option.bind_eq_some_iff.mp h
  obtain ⟨l, r, hsplit⟩ := OrderedMap.exists_split_of_lookup hv
  have hfind := hrep.findEntry_eq hsplit
  have hold := hrep.stringAt_oldval hsplit
  have hne : eqSign ∉ c.name.bytes := by
    rw [hs]
    exact s.noEq
  rw [← hs] at hfind
  rw [doSetenv_of_found cfg hne hfind hold, herr]

/-- **Every other call does to the map what `Vars.setenv` says.**  The check is right after a
call that succeeds; a call that reports an overflow leaves the stored check as it was, and the
array too when the name was not defined. -/
theorem doSetenv_spec (cfg : SetenvConfig) {g : Globals} {m : Vars}
    (hrep : EnvRep g.env.data m) {c : SetenvCall} {s : VarName} (hs : c.name = s.toCString)
    (h : guardError cfg c m s = none) :
    ∃ g', doSetenv cfg g c = some ((m.setenv g.env.data.length s c.args.list).1, g') ∧
      EditPost g.env g'.env (m.setenv g.env.data.length s c.args.list).1
        (m.setenv g.env.data.length s c.args.list).2 ∧
      ((m.setenv g.env.data.length s c.args.list).1 ≠ none → m.lookup s = none →
        g'.env.data = g.env.data) := by
  have hne : eqSign ∉ c.name.bytes := by
    rw [hs]
    exact s.noEq
  cases hv : m.lookup s with
  | none =>
    have hfind := findEntry_of_lookup_eq_none hrep hv
    obtain ⟨hremove, hrep'⟩ := removeOld_of_lookup_eq_none hrep hv
    obtain ⟨g', hedit, hpost, hdata⟩ := setenvEdit_spec (g := { g with envId := g.envId + 1 }) hs
      hremove hrep' rfl
    refine ⟨g', ?_, hpost, fun herr _ => hdata herr⟩
    rw [← hs] at hfind
    rw [doSetenv_of_notFound cfg hne hfind]
    exact hedit
  | some v =>
    obtain ⟨l, r, hsplit⟩ := OrderedMap.exists_split_of_lookup hv
    have hfind := hrep.findEntry_eq hsplit
    have hold := hrep.stringAt_oldval hsplit
    have hguard : setenvGuard cfg c v.bytes = none := by simpa [guardError, hv] using h
    obtain ⟨data, hremove, hrep', hlen⟩ := removeOld_of_split hrep hsplit
    obtain ⟨g', hedit, hpost, -⟩ := setenvEdit_spec
      (g := { g with envId := g.envId + 1, baudrate := baudrateAfter cfg c g.baudrate }) hs
      hremove hrep' hlen
    refine ⟨g', ?_, hpost, fun _ h => absurd h (by simp)⟩
    rw [← hs] at hfind
    rw [doSetenv_of_found cfg hne hfind hold, hguard]
    exact hedit

/-- The name of a call that is not refused for its name. -/
def nameOf (n : CString) (h : eqSign ∉ n.bytes) : VarName := ⟨n, h⟩

theorem doSetenv_total (cfg : SetenvConfig) {g : Globals} {m : Vars}
    (hrep : EnvRep g.env.data m) (c : SetenvCall) :
    ∃ err g' m', doSetenv cfg g c = some (err, g') ∧ EnvRep g'.env.data m' ∧
      g'.env.data.length = g.env.data.length := by
  by_cases hname : eqSign ∈ c.name.bytes
  · exact ⟨_, _, m, doSetenv_of_eqSign cfg g hname, hrep, rfl⟩
  · cases herr : guardError cfg c m (nameOf c.name hname) with
    | some err => exact ⟨_, _, m, doSetenv_of_guard cfg hrep rfl herr, hrep, rfl⟩
    | none =>
      obtain ⟨g', hcall, hpost, -⟩ := doSetenv_spec cfg hrep (s := nameOf c.name hname) rfl herr
      exact ⟨_, _, _, hcall, hpost.rep, hpost.length⟩

end Env
end EmevBsp
