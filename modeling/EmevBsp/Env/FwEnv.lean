import EmevBsp.Env.SetenvRuns

/-!
# `tools/env/fw_env.c`: `fw_setenv`

The Linux tool edits the same image with a copy of U-Boot's code that has drifted.  What it
does in memory, between `env_init ()` and `flash_io ()`, is modelled here with the parts of
`_do_setenv` that it repeats word for word: `envmatch` (on pointers instead of indices), the
walk over the entries, the shift loop and the appending of the new definition.  Its check for
an array that does not end, `nxt >= &environment.data[ENV_SIZE]`, comes after the byte behind
the array was read.
-/

namespace EmevBsp
namespace Env

/-- The calls of `fw_setenv` that return -1. -/
inductive FwError where
  /-- fewer than two arguments -/
  | inval
  /-- `ethaddr` and `serial#` cannot be changed -/
  | rofs
  | overflow
  deriving DecidableEq

/-- The format string of the message. -/
def FwError.text : FwError → String
  | .inval => ""
  | .rofs => "Can't overwrite \"%s\"\n"
  | .overflow => "Error: environment overflow, \"%s\" deleted\n"

/-- The removal of `fw_setenv`: `*env = '\0'` where `_do_setenv` steps back. -/
def fwDeleteEntry (data : List UInt8) (f : Found) : Option (List UInt8) := do
  let c ← data[f.nxt + 1]?
  if c = 0 then
    let data ← store data f.env 0
    store data (f.env + 1) 0
  else
    let (data, env) ← shiftDown data.length data f.env (f.nxt + 1)
    store data (env + 1) 0

def fwRemoveOld (data : List UInt8) : Option Found → Option (List UInt8)
  | none => some data
  | some f => fwDeleteEntry data f

/-- What follows the checks, up to `WRITE_FLASH`. -/
def fwEdit (env : EnvT) (name : CString) (vals : List CString) (found : Option Found) :
    Option (Option FwError × EnvT) := do
  let data ← fwRemoveOld env.data found
  match vals with
  | [] => return (none, envCrcUpdate { env with data := data })
  | v :: vs =>
    match ← appendEntry data name (v :: vs) with
    | none => return (some .overflow, { env with data := data })
    | some data => return (none, envCrcUpdate { env with data := data })

/-- `fw_setenv`, with `argv[1..argc)`. -/
def fwSetenv (env : EnvT) : List CString → Option (Option FwError × EnvT)
  | [] => some (some .inval, env)
  | name :: vals => do
    let found ← findEntry name.bytes env.data (env.data.length + 1) 0
    if found.isSome ∧ (name = .ofString "ethaddr" ∨ name = .ofString "serial#") then
      return (some .rofs, env)
    fwEdit env name vals found

/-! ## The two removals -/

theorem fwDeleteEntry_of_last {l : List (VarName × CString)} (s : VarName)
    (v : CString) (junk : List UInt8) :
    fwDeleteEntry (encode l ++ (entryText (s, v) ++ 0 :: junk)) (foundAt l s v) =
      some (encode l ++ 0 :: 0 :: ((entryText (s, v)).tail.tail ++ 0 :: junk)) := by
  have hb := getElem?_foundAt_nxt l s v 0 junk
  obtain ⟨b, c, t, ht⟩ := exists_entryText_eq_cons_cons (s, v)
  have henv : (foundAt l s v).env = (encode l).length := rfl
  have hsecond : store (encode l ++ 0 :: c :: (t ++ 0 :: junk)) ((encode l).length + 1) 0 =
      some (encode l ++ 0 :: 0 :: (t ++ 0 :: junk)) := by
    have h := store_append (encode l ++ [0]) c 0 (t ++ 0 :: junk)
    simpa using h
  rw [fwDeleteEntry, hb, Option.bind_eq_bind, Option.bind_some, if_pos rfl, henv, ht,
    List.cons_append, store_append]
  exact hsecond

theorem removals_of_last {l : List (VarName × CString)} (hl : l ≠ []) (s : VarName)
    (v : CString) (junk : List UInt8) :
    ∃ b junk',
      removeOld (encode l ++ (entryText (s, v) ++ 0 :: junk)) (some (foundAt l s v)) =
        some (encode l ++ 0 :: b :: junk') ∧
      fwRemoveOld (encode l ++ (entryText (s, v) ++ 0 :: junk)) (some (foundAt l s v)) =
        some (encode l ++ 0 :: 0 :: junk') := by
  obtain ⟨a, b, t, ht⟩ := exists_entryText_eq_cons_cons (s, v)
  have hdel := deleteEntry_of_last hl s v junk
  have hfw := fwDeleteEntry_of_last (l := l) s v junk
  rw [ht] at hdel hfw
  refine ⟨b, t ++ 0 :: junk, ?_, ?_⟩
  · rw [ht]
    exact hdel
  · rw [ht]
    exact hfw

theorem fwDeleteEntry_eq {data : List UInt8} {f : Found}
    (h : f.env = 0 ∨ data[f.nxt + 1]? ≠ some 0) : fwDeleteEntry data f = deleteEntry data f := by
  unfold fwDeleteEntry deleteEntry
  cases hc : data[f.nxt + 1]? with
  | none => rfl
  | some c =>
    rcases h with henv | hne
    · simp [henv]
    · have hc0 : c ≠ 0 := by simpa [hc] using hne
      simp [hc0]

/-- The call removes the last of several definitions and adds none. -/
def DeletesLast (m : Vars) (s : VarName) (vals : List CString) : Prop :=
  vals = [] ∧ ∃ l v, l ≠ [] ∧ m.entries = l ++ [(s, v)]

theorem appendEntry_after_last {l : List (VarName × CString)} (hl : l ≠ []) (s : VarName)
    (v : CString) (vs : List CString) (b : UInt8) (junk : List UInt8) :
    appendEntry (encode l ++ 0 :: 0 :: junk) s.toCString (v :: vs) =
      appendEntry (encode l ++ 0 :: b :: junk) s.toCString (v :: vs) := by
  have hshape : ∀ a : UInt8, encode l ++ 0 :: a :: junk = encode l ++ (closing l ++ a :: junk) :=
    fun a => by rw [closing_append_of_ne_nil hl]
  have hlen : ∀ a : UInt8, (closing l ++ a :: junk).length = junk.length + 2 :=
    fun a => by rw [closing_append_of_ne_nil hl]; rfl
  rw [hshape, hshape]
  by_cases h : junk.length + 2 < setenvLen s.toCString (v :: vs)
  · rw [appendEntry_of_lt l _ _ _ (by rwa [hlen]), appendEntry_of_lt l _ _ _ (by rwa [hlen])]
  · rw [appendEntry_of_le l s v vs _ (by rw [hlen]; omega),
      appendEntry_of_le l s v vs _ (by rw [hlen]; omega), closing_append_of_ne_nil hl,
      closing_append_of_ne_nil hl]
    obtain ⟨k, hk⟩ : ∃ k, setenvLen s.toCString (v :: vs) = k + 2 :=
      ⟨s.length + v.length + 1 + (vs.map fun w => w.length + 1).sum, by
        simp [setenvLen]
        omega⟩
    rw [hk]
    rfl

theorem deletesLast_iff {m : Vars} {s : VarName} {v : CString} {l r : List (VarName × CString)}
    (hsplit : m.entries = l ++ (s, v) :: r) (vals : List CString) :
    DeletesLast m s vals ↔ vals = [] ∧ l ≠ [] ∧ r = [] := by
  refine and_congr_right fun _ => ⟨?_, ?_⟩
  · rintro ⟨l', v', hl', hsplit'⟩
    have hkeys : l.map Prod.fst ++ s :: r.map Prod.fst = l'.map Prod.fst ++ s :: [] := by
      have h := congrArg (List.map Prod.fst) (hsplit.symm.trans hsplit')
      simpa using h
    have hmem : s ∉ l.map Prod.fst := by
      rw [List.mem_map]
      rintro ⟨e, he, rfl⟩
      exact (OrderedMap.mem_keys_of_split hsplit).1 e he rfl
    have hmem' : s ∉ l'.map Prod.fst := by
      rw [List.mem_map]
      rintro ⟨e, he, rfl⟩
      exact (OrderedMap.mem_keys_of_split hsplit').1 e he rfl
    obtain ⟨hl, hr⟩ := append_cons_inj hmem hmem' hkeys
    refine ⟨?_, List.map_eq_nil_iff.mp hr⟩
    rintro rfl
    exact hl' (List.map_eq_nil_iff.mp hl.symm)
  · rintro ⟨hl, rfl⟩
    exact ⟨l, v, hl, hsplit⟩

/-! ## The two calls -/

theorem fwEdit_agrees {g g' : Globals} {c : SetenvCall} {vals : List CString}
    (hargs : c.args = .vals vals) {found : Option Found} {d r : List UInt8}
    (hremove : removeOld g.env.data found = some d)
    (hfwRemove : fwRemoveOld g.env.data found = some r)
    (hsame : r = d ∨ vals ≠ [] ∧ appendEntry r c.name vals = appendEntry d c.name vals)
    {err : Option SetenvError} (hcall : setenvEdit g c found = some (err, g')) :
    ∃ fwErr e, fwEdit g.env c.name vals found = some (fwErr, e) ∧
      (err = none ↔ fwErr = none) ∧ (err = none → e = g'.env) := by
  cases vals with
  | nil =>
    obtain rfl := hsame.resolve_right fun h => h.1 rfl
    simp only [setenvEdit, hremove, hargs, Option.bind_eq_bind, Option.bind_some, Option.pure_def,
      Option.some.injEq, Prod.mk.injEq] at hcall
    obtain ⟨rfl, rfl⟩ := hcall
    refine ⟨none, envCrcUpdate { g.env with data := r }, ?_, by simp, fun _ => rfl⟩
    simp only [fwEdit, hfwRemove, Option.bind_eq_bind, Option.bind_some]
    rfl
  | cons v vs =>
    have happ : appendEntry r c.name (v :: vs) = appendEntry d c.name (v :: vs) :=
      hsame.elim (fun h => by rw [h]) And.right
    simp only [setenvEdit, hremove, hargs, Option.bind_eq_bind, Option.bind_some] at hcall
    obtain ⟨res, hres, hcall⟩ := Option.bind_eq_some_iff.mp hcall
    cases res with
    | none =>
      simp only [Option.pure_def, Option.some.injEq, Prod.mk.injEq] at hcall
      obtain ⟨rfl, rfl⟩ := hcall
      refine ⟨some .overflow, { g.env with data := r }, ?_, by simp, by simp⟩
      simp only [fwEdit, hfwRemove, happ, hres, Option.bind_eq_bind, Option.bind_some]
      rfl
    | some data =>
      simp only [Option.pure_def, Option.some.injEq, Prod.mk.injEq] at hcall
      obtain ⟨rfl, rfl⟩ := hcall
      refine ⟨none, envCrcUpdate { g.env with data := data }, ?_, by simp, fun _ => ?_⟩
      · simp only [fwEdit, hfwRemove, happ, hres, Option.bind_eq_bind, Option.bind_some]
        rfl
      · rw [updateMirrors_env]

theorem fwSetenv_eq {env : EnvT} {name : CString} (hname : name ∉ specialNames)
    (vals : List CString) {found : Option Found}
    (hfind : findEntry name.bytes env.data (env.data.length + 1) 0 = some found) :
    fwSetenv env (name :: vals) = fwEdit env name vals found := by
  simp only [specialNames, List.mem_cons, List.not_mem_nil, or_false, not_or] at hname
  simp [fwSetenv, hfind, hname.1, hname.2.1]

/-- What a call leaves in memory on both sides when it is accepted. -/
structure FwAgree (m : Vars) (s : VarName) (vals : List CString) (env fwEnv : EnvT) : Prop where
  sameVars : ∃ m', EnvRep env.data m' ∧ EnvRep fwEnv.data m'
  sameImage : ¬ DeletesLast m s vals → fwEnv.data = env.data ∧ fwEnv.crc = env.crc
  deletesLast : DeletesLast m s vals → ∃ b junk,
    env.data = encode (m.erase s).entries ++ 0 :: b :: junk ∧
    fwEnv.data = encode (m.erase s).entries ++ 0 :: 0 :: junk ∧ (fwEnv.crc = env.crc ↔ b = 0)

theorem fwAgree_of_eq {m m' : Vars} {s : VarName} {vals : List CString} {env fwEnv : EnvT}
    (hrep : EnvRep env.data m') (h : fwEnv = env) (hdel : ¬ DeletesLast m s vals) :
    FwAgree m s vals env fwEnv := by
  subst h
  exact ⟨⟨m', hrep, hrep⟩, fun _ => ⟨rfl, rfl⟩, fun h => absurd h hdel⟩

theorem fwAgree_of_deletesLast {m : Vars} {s : VarName} {l : List (VarName × CString)}
    {v : CString} (hl : l ≠ []) (hsplit : m.entries = l ++ [(s, v)]) (env : EnvT) (b : UInt8)
    (junk : List UInt8) :
    FwAgree m s [] (envCrcUpdate { env with data := encode l ++ 0 :: b :: junk })
      (envCrcUpdate { env with data := encode l ++ 0 :: 0 :: junk }) := by
  have herase : (m.erase s).entries = l := by
    have h := OrderedMap.entries_erase_of_split hsplit
    rwa [List.append_nil] at h
  have hrep : ∀ a : UInt8, EnvRep (encode l ++ 0 :: a :: junk) (m.erase s) := by
    intro a
    refine ⟨a :: junk, ?_⟩
    rw [herase, closing_append_of_ne_nil hl]
  refine ⟨⟨m.erase s, hrep b, hrep 0⟩, fun h => absurd ⟨rfl, l, v, hl, hsplit⟩ h, fun _ =>
    ⟨b, junk, by rw [herase]; rfl, by rw [herase]; rfl, ?_⟩⟩
  constructor
  · intro hcrc
    by_contra hb
    have hne := crc32_ne 0 (encode l ++ [0]) junk (Ne.symm hb)
    rw [List.append_assoc, List.append_assoc] at hne
    exact hne hcrc
  · rintro rfl
    rfl

/-- **The two implementations agree** on every name without `'='` that neither of them treats
specially. -/
theorem fwSetenv_agrees (cfg : SetenvConfig) {g : Globals} {m : Vars}
    (hrep : EnvRep g.env.data m) {c : SetenvCall} (hname : c.name ∉ specialNames) {s : VarName}
    (hs : c.name = s.toCString) {vals : List CString} (hargs : c.args = .vals vals) :
    ∃ err g' fwErr e, doSetenv cfg g c = some (err, g') ∧
      fwSetenv g.env (c.name :: vals) = some (fwErr, e) ∧ (err = none ↔ fwErr = none) ∧
      (err = none → FwAgree m s vals g'.env e) := by
  have hguard := guardError_of_notMem cfg hname m s
  obtain ⟨g', hcall, hpost, -⟩ := doSetenv_spec cfg hrep hs hguard
  have hne : eqSign ∉ c.name.bytes := by
    rw [hs]
    exact s.noEq
  cases hv : m.lookup s with
  | none =>
    -- nothing is removed on either side
    have hfind := findEntry_of_lookup_eq_none hrep hv
    rw [← hs] at hfind
    have hedit := hcall
    rw [doSetenv_of_notFound cfg hne hfind] at hedit
    obtain ⟨fwErr, e, hfw, hiff, heq⟩ := fwEdit_agrees (g := { g with envId := g.envId + 1 })
      (d := g.env.data) (r := g.env.data) hargs rfl rfl (Or.inl rfl) hedit
    refine ⟨_, g', fwErr, e, hcall, by rw [fwSetenv_eq hname vals hfind]; exact hfw, hiff,
      fun herr => fwAgree_of_eq hpost.rep (heq herr) ?_⟩
    rintro ⟨-, l, v, -, hsplit⟩
    rw [OrderedMap.lookup_of_split hsplit] at hv
    exact absurd hv (by simp)
  | some v =>
    obtain ⟨l, r, hsplit⟩ := OrderedMap.exists_split_of_lookup hv
    have hfind := hrep.findEntry_eq hsplit
    rw [← hs] at hfind
    have hguard' : setenvGuard cfg c v.bytes = none := by simpa [guardError, hv] using hguard
    have hedit := hcall
    rw [doSetenv_of_found cfg hne hfind (hrep.stringAt_oldval hsplit), hguard'] at hedit
    obtain ⟨junk, hdata⟩ := id hrep
    have hshape : g.env.data = encode l ++ (entryText (s, v) ++ (encode r ++ 0 :: junk)) := by
      rw [hdata, closing_append_of_ne_nil (by simp [hsplit]), hsplit]
      simp
    rw [fwSetenv_eq hname vals hfind]
    by_cases hlast : l ≠ [] ∧ r = []
    · -- the last of several: the arrays differ in the byte behind the closing NUL
      obtain ⟨hl, rfl⟩ := hlast
      obtain ⟨b, junk', hremove, hfwRemove⟩ := removals_of_last hl s v junk
      rw [encode_nil, List.nil_append] at hshape
      rw [← hshape] at hremove hfwRemove
      cases vals with
      | nil =>
        have hedit' : (none, { g with
            env := envCrcUpdate { g.env with data := encode l ++ 0 :: b :: junk' },
            envId := g.envId + 1, baudrate := baudrateAfter cfg c g.baudrate }) =
            ((m.setenv g.env.data.length s c.args.list).1, g') := by
          simpa only [setenvEdit, hremove, hargs, Option.bind_eq_bind, Option.bind_some,
            Option.pure_def, Option.some.injEq] using hedit
        obtain ⟨herr, rfl⟩ := Prod.mk.inj hedit'
        refine ⟨_, _, none, envCrcUpdate { g.env with data := encode l ++ 0 :: 0 :: junk' }, hcall,
          ?_, by simp [← herr],
          fun _ => fwAgree_of_deletesLast hl hsplit g.env b junk'⟩
        simp only [fwEdit, hfwRemove, Option.bind_eq_bind, Option.bind_some]
        rfl
      | cons w ws =>
        have happ := appendEntry_after_last hl s w ws b junk'
        rw [← hs] at happ
        obtain ⟨fwErr, e, hfw, hiff, heq⟩ := fwEdit_agrees (g := { g with
          envId := g.envId + 1, baudrate := baudrateAfter cfg c g.baudrate }) hargs hremove
          hfwRemove (Or.inr ⟨by simp, happ⟩) hedit
        exact ⟨_, g', fwErr, e, hcall, hfw, hiff,
          fun herr => fwAgree_of_eq hpost.rep (heq herr) fun h => absurd h.1 (by simp)⟩
    · have hsame : fwDeleteEntry g.env.data (foundAt l s v) =
          deleteEntry g.env.data (foundAt l s v) := by
        refine fwDeleteEntry_eq ?_
        by_cases hr : r = []
        · have hl : l = [] := not_ne_iff.mp fun h => hlast ⟨h, hr⟩
          exact Or.inl (by rw [hl]; rfl)
        · obtain ⟨b, t, hbt, hb⟩ := exists_encode_append_eq_cons hr (0 :: junk)
          refine Or.inr ?_
          rw [hshape, hbt, getElem?_foundAt_nxt]
          simpa using hb
      obtain ⟨d, hremove, -, -⟩ := removeOld_of_split hrep hsplit
      obtain ⟨fwErr, e, hfw, hiff, heq⟩ := fwEdit_agrees (g := { g with
        envId := g.envId + 1, baudrate := baudrateAfter cfg c g.baudrate }) (d := d) (r := d)
        hargs hremove (hsame.trans hremove) (Or.inl rfl) hedit
      refine ⟨_, g', fwErr, e, hcall, hfw, hiff, fun herr => fwAgree_of_eq hpost.rep (heq herr) ?_⟩
      rw [deletesLast_iff hsplit]
      exact fun h => hlast h.2

/-! ### Twelve bytes -/

/-- `a=1` and `b=2`. -/
def pairData : List UInt8 := [97, 61, 49, 0, 98, 61, 50, 0, 0, 0, 0, 0]

def nameB : VarName := ⟨.ofString "b", by decide⟩

def pairVars : Vars := ⟨[(nameA, .ofString "1"), (nameB, .ofString "2")], by decide⟩

theorem envRep_pairData : EnvRep pairData pairVars := ⟨[0, 0, 0], by decide⟩

/-- The rule applies to `setenv a 3`: the images are the same. -/
theorem fwSetenv_agrees_pairData :
    ∃ g' fwErr e, doSetenv plainConfig (globalsOf pairData 0)
        ⟨0, .ofString "a", .vals [.ofString "3"], true⟩ = some (none, g') ∧
      fwSetenv (globalsOf pairData 0).env [.ofString "a", .ofString "3"] = some (fwErr, e) ∧
      fwErr = none ∧ e.crc = g'.env.crc := by
  obtain ⟨err, g', fwErr, e, hcall, hfw, hiff, hagree⟩ := fwSetenv_agrees plainConfig
    (g := globalsOf pairData 0) envRep_pairData
    (c := ⟨0, .ofString "a", .vals [.ofString "3"], true⟩) (by decide) (s := nameA) rfl rfl
  have herr : err = none := by
    have h : (doSetenv plainConfig (globalsOf pairData 0)
        ⟨0, .ofString "a", .vals [.ofString "3"], true⟩).map Prod.fst = some none := rfl
    rw [hcall] at h
    exact Option.some.inj h
  have hdel : ¬ DeletesLast pairVars nameA [.ofString "3"] := fun h => absurd h.1 (by simp)
  exact ⟨g', fwErr, e, herr ▸ hcall, hfw, hiff.mp herr, ((hagree herr).sameImage hdel).2⟩

/-- **Calls both accept with different checks**: removing `b` from `a=1`, `b=2`. -/
theorem fwSetenv_crc_ne :
    ∃ g' e, doSetenv plainConfig (globalsOf pairData 0) ⟨0, .ofString "b", .vals [], true⟩ =
        some (none, g') ∧
      fwSetenv (globalsOf pairData 0).env [.ofString "b"] = some (none, e) ∧
      e.crc ≠ g'.env.crc := by
  refine ⟨globalsOf [97, 61, 49, 0, 0, 61, 50, 0, 0, 0, 0, 0] 1,
    (globalsOf [97, 61, 49, 0, 0, 0, 50, 0, 0, 0, 0, 0] 1).env, rfl, rfl, ?_⟩
  exact crc32_ne 0 [97, 61, 49, 0, 0] [50, 0, 0, 0, 0, 0] (by decide)

end Env
end EmevBsp
