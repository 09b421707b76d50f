import EmevBsp.Env.Layout
import Mathlib.Data.List.TakeWhile
import Mathlib.Logic.Relation

/-!
# `common/cmd_nvedit.c`: `getenv` and `getenv_r` on any contents

`Env.getenv` is the lookup on an array that is well formed.  Here the array holds anything, the
name is a place in memory (`s1`, the terminator and what lies behind it included), and each of
the three scans is written out: the one for the end of an entry with its test against
`CONFIG_ENV_SIZE`, the comparison with the name, and the copy of the value.

A read of the environment outside `[0, ENV_SIZE)` is `none`, and each scan moves by one byte at
a time, so a call that is not `none` has ended and has stayed inside.

* `envmatch_eq_some_some_iff`, `envmatch_eq_some_none_iff`: how the comparison ends.
* `getenv_inside_iff`: **when both functions stay inside.**
* `getenvR_right_iff`: **on a well-formed environment, when `getenv_r` keeps to its buffer.**
* `EnvRep.getenvText`: `getenv` on a name in a buffer is the lookup of the map.
-/

namespace EmevBsp
namespace Env
namespace Raw

/-- `env_get_char (index)`. -/
def envGetChar (data : List UInt8) (index : ℕ) : Option UInt8 := data[index]?

/-- `envmatch`: the array from index `i2` on against the memory at `s1 + k`. -/
def envmatch (s1 : ℕ → UInt8) : (k : ℕ) → (env : List UInt8) → (i2 : ℕ) → Option (Option ℕ)
  | _, [], _ => none
  | k, c :: env, i2 =>
    if s1 k = c then
      -- a NUL on both sides does not end the loop
      if s1 k = eqSign then some (some (i2 + 1)) else envmatch s1 (k + 1) env (i2 + 1)
    else if s1 k = 0 ∧ c = eqSign then some (some (i2 + 1))
    else some none

/-- `for (nxt=i; env_get_char(nxt) != '\0'; ++nxt)`, the array from `nxt` on given; the inner
`none` for the return in its body. -/
def entryEnd (configEnvSize : ℕ) : (env : List UInt8) → (nxt : ℕ) → Option (Option ℕ)
  | [], _ => none
  | c :: env, nxt =>
    if c = 0 then some (some nxt)
    else if nxt ≥ configEnvSize then some none
    else entryEnd configEnvSize env (nxt + 1)

/-- The walk over the entries that `getenv` and `getenv_r` share: the index of the value, the
inner `none` for a return without one.  The fuel bounds the number of entries. -/
def findVal (configEnvSize : ℕ) (s1 : ℕ → UInt8) (data : List UInt8) :
    (fuel i : ℕ) → Option (Option ℕ)
  | 0, _ => none
  | fuel + 1, i => do
    let c ← envGetChar data i
    if c = 0 then return none
    match ← entryEnd configEnvSize (data.drop i) i with
    | none => return none
    | some nxt =>
      match ← envmatch s1 0 (data.drop i) i with
      | some val => return some val
      | none => findVal configEnvSize s1 data fuel (nxt + 1)

/-- `getenv`: the index whose address it returns.  `ENV_SIZE` is the length of the array, and
`CONFIG_ENV_SIZE` is larger by the header. -/
def getenv (envHeaderSize : ℕ) (s1 : ℕ → UInt8) (data : List UInt8) : Option (Option ℕ) :=
  findVal (data.length + envHeaderSize) s1 data (data.length + 1) 0

/-- `while ((len > n++) && (*buf++ = env_get_char(val++)) != '\0');`, the array from `val` on
given: the bytes stored, and `n`. -/
def copyValue (len : ℕ) : (env : List UInt8) → (n : ℕ) → Option (List UInt8 × ℕ)
  | [], n => if len > n then none else some ([], n + 1)
  | c :: env, n =>
    if len > n then
      if c ≠ 0 then (copyValue len env (n + 1)).map fun r => (c :: r.1, r.2)
      else some ([c], n + 1)
    else some ([], n + 1)

/-- `getenv_r`: the bytes it stores at `buf`, `buf + 1`, .., and its result. -/
def getenvR (envHeaderSize : ℕ) (s1 : ℕ → UInt8) (data : List UInt8) (len : ℕ) :
    Option (List UInt8 × ℤ) := do
  match ← findVal (data.length + envHeaderSize) s1 data (data.length + 1) 0 with
  | none => return ([], -1)
  | some val =>
    let (stored, n) ← copyValue len (data.drop val) 0
    return (if len = n then stored ++ [0] else stored, n)

/-! ## How a comparison ends -/

/-- The name and the array agree, without an `'='`, up to place `n`. -/
def AgreeTo (s1 : ℕ → UInt8) (env : List UInt8) (n : ℕ) : Prop :=
  ∀ k < n, env[k]? = some (s1 k) ∧ s1 k ≠ eqSign

/-- The name ends at the `'='` at place `n` of the array. -/
def MatchesAt (s1 : ℕ → UInt8) (env : List UInt8) (n : ℕ) : Prop :=
  AgreeTo s1 env n ∧ env[n]? = some eqSign ∧ (s1 n = eqSign ∨ s1 n = 0)

/-- Some place of the array is not as in the name, nor the `'='` at the end of it. -/
def Differs (s1 : ℕ → UInt8) (env : List UInt8) : Prop :=
  ∃ n c, AgreeTo s1 env n ∧ env[n]? = some c ∧ s1 n ≠ c ∧ ¬ (s1 n = 0 ∧ c = eqSign)

theorem agreeTo_cons {s1 : ℕ → UInt8} {env : List UInt8} {n : ℕ} (hne : s1 0 ≠ eqSign) :
    AgreeTo s1 (s1 0 :: env) (n + 1) ↔ AgreeTo (fun k => s1 (k + 1)) env n := by
  constructor
  · intro h k hk
    simpa using h (k + 1) (by omega)
  · intro h k hk
    cases k with
    | zero => exact ⟨rfl, hne⟩
    | succ k => simpa using h k (by omega)

theorem agreeTo_zero (s1 : ℕ → UInt8) (env : List UInt8) : AgreeTo s1 env 0 := by
  intro k hk
  omega

theorem AgreeTo.head {s1 : ℕ → UInt8} {c : UInt8} {env : List UInt8} {n : ℕ}
    (h : AgreeTo s1 (c :: env) (n + 1)) : c = s1 0 ∧ s1 0 ≠ eqSign := by
  simpa using h 0 (by omega)

theorem envmatch_shift (s1 : ℕ → UInt8) (k : ℕ) (env : List UInt8) (i2 : ℕ) :
    envmatch s1 (k + 1) env i2 = envmatch (fun j => s1 (j + 1)) k env i2 := by
  induction env generalizing k i2 with
  | nil => rfl
  | cons c env ih => simp only [envmatch, ih]

/-- **The comparison finds the value behind the `'='` at which the name ends.** -/
theorem envmatch_eq_some_some_iff {s1 : ℕ → UInt8} {env : List UInt8} {i2 v : ℕ} :
    envmatch s1 0 env i2 = some (some v) ↔ ∃ n, MatchesAt s1 env n ∧ v = i2 + n + 1 := by
  induction env generalizing s1 i2 with
  | nil => simp [envmatch, MatchesAt]
  | cons c env ih =>
    have hstart : MatchesAt s1 (c :: env) 0 ↔ c = eqSign ∧ (s1 0 = eqSign ∨ s1 0 = 0) := by
      simp [MatchesAt, agreeTo_zero]
    rw [envmatch]
    by_cases hc : s1 0 = c
    · subst hc
      by_cases heq : s1 0 = eqSign
      · rw [if_pos rfl, if_pos heq]
        constructor
        · intro h
          exact ⟨0, hstart.mpr ⟨heq, .inl heq⟩, by simpa using h.symm⟩
        · rintro ⟨n, hn, rfl⟩
          cases n with
          | zero => rfl
          | succ n => exact absurd heq hn.1.head.2
      · rw [if_pos rfl, if_neg heq, envmatch_shift, ih]
        constructor
        · rintro ⟨n, hn, rfl⟩
          exact ⟨n + 1, ⟨(agreeTo_cons heq).mpr hn.1, hn.2⟩, by omega⟩
        · rintro ⟨n, hn, rfl⟩
          cases n with
          | zero => exact absurd (hstart.mp hn).1 heq
          | succ n => exact ⟨n, ⟨(agreeTo_cons heq).mp hn.1, hn.2⟩, by omega⟩
    · rw [if_neg hc]
      have hzero : ∀ n, MatchesAt s1 (c :: env) n → n = 0 := by
        intro n hn
        cases n with
        | zero => rfl
        | succ n => exact absurd hn.1.head.1.symm hc
      by_cases hend : s1 0 = 0 ∧ c = eqSign
      · rw [if_pos hend]
        constructor
        · intro h
          exact ⟨0, hstart.mpr ⟨hend.2, .inr hend.1⟩, by simpa using h.symm⟩
        · rintro ⟨n, hn, rfl⟩
          rw [hzero n hn]
      · rw [if_neg hend]
        refine ⟨fun h => absurd h (by simp), ?_⟩
        rintro ⟨n, hn, -⟩
        rw [hzero n hn, hstart] at hn
        rcases hn with ⟨hceq, heq | h0⟩
        · exact absurd (heq.trans hceq.symm) hc
        · exact absurd ⟨h0, hceq⟩ hend

theorem envmatch_eq_some_none_iff {s1 : ℕ → UInt8} {env : List UInt8} {i2 : ℕ} :
    envmatch s1 0 env i2 = some none ↔ Differs s1 env := by
  induction env generalizing s1 i2 with
  | nil => simp [envmatch, Differs]
  | cons c env ih =>
    rw [envmatch]
    by_cases hc : s1 0 = c
    · subst hc
      have hsucc : ∀ n c, (s1 0 :: env)[n]? = some c → s1 n ≠ c → ∃ m, n = m + 1 := by
        intro n c hget hne
        cases n with
        | zero => exact absurd (by simpa using hget) hne
        | succ m => exact ⟨m, rfl⟩
      by_cases heq : s1 0 = eqSign
      · rw [if_pos rfl, if_pos heq]
        refine ⟨fun h => absurd h (by simp), ?_⟩
        rintro ⟨n, c, hag, hget, hne, -⟩
        obtain ⟨m, rfl⟩ := hsucc n c hget hne
        exact absurd heq hag.head.2
      · rw [if_pos rfl, if_neg heq, envmatch_shift, ih]
        constructor
        · rintro ⟨n, c, hag, hget, hne, hend⟩
          exact ⟨n + 1, c, (agreeTo_cons heq).mpr hag, by simpa using hget, hne, hend⟩
        · rintro ⟨n, c, hag, hget, hne, hend⟩
          obtain ⟨m, rfl⟩ := hsucc n c hget hne
          exact ⟨m, c, (agreeTo_cons heq).mp hag, by simpa using hget, hne, hend⟩
    · rw [if_neg hc]
      by_cases hend : s1 0 = 0 ∧ c = eqSign
      · rw [if_pos hend]
        refine ⟨fun h => absurd h (by simp), ?_⟩
        rintro ⟨n, c', hag, hget, hne, hend'⟩
        cases n with
        | zero =>
          obtain rfl : c = c' := by simpa using hget
          exact absurd hend hend'
        | succ n => exact absurd hag.head.1.symm hc
      · rw [if_neg hend]
        exact ⟨fun _ => ⟨0, c, agreeTo_zero _ _, by simp, hc, hend⟩, fun _ => rfl⟩

/-! ## The walk over the entries -/

/-- The walk passes an entry: it is closed by a NUL and differs from the name.  What follows
it is `d'`. -/
def NextEntry (s1 : ℕ → UInt8) (d d' : List UInt8) : Prop :=
  ∃ t, t ≠ [] ∧ 0 ∉ t ∧ d = t ++ 0 :: d' ∧ Differs s1 d

/-- The walk stops at `d`: at the closing NUL without a value, or at a closed entry that
matches, with the array from the value on. -/
def StopsHere (s1 : ℕ → UInt8) (d : List UInt8) : Option (List UInt8) → Prop
  | none => d.head? = some 0
  | some value => d.head? ≠ some 0 ∧ 0 ∈ d ∧ ∃ n, MatchesAt s1 d n ∧ value = d.drop (n + 1)

/-- The walk comes to a place where it stops. -/
def Stops (s1 : ℕ → UInt8) (data : List UInt8) (o : Option (List UInt8)) : Prop :=
  ∃ d, Relation.ReflTransGen (NextEntry s1) data d ∧ StopsHere s1 d o

theorem stops_iff {s1 : ℕ → UInt8} {d : List UInt8} {o : Option (List UInt8)} :
    Stops s1 d o ↔ StopsHere s1 d o ∨ ∃ d', NextEntry s1 d d' ∧ Stops s1 d' o := by
  constructor
  · rintro ⟨e, hreach, hhere⟩
    rcases Relation.ReflTransGen.cases_head hreach with rfl | ⟨d', hnext, hrest⟩
    · exact .inl hhere
    · exact .inr ⟨d', hnext, e, hrest, hhere⟩
  · rintro (hhere | ⟨d', hnext, e, hrest, hhere⟩)
    · exact ⟨d, .refl, hhere⟩
    · exact ⟨e, .head hnext hrest, hhere⟩

theorem NextEntry.facts {s1 : ℕ → UInt8} {d d' : List UInt8} (h : NextEntry s1 d d') :
    d.head? ≠ some 0 ∧ 0 ∈ d ∧ Differs s1 d := by
  obtain ⟨t, hne, hnul, rfl, hdiff⟩ := h
  refine ⟨?_, by simp, hdiff⟩
  cases t with
  | nil => exact absurd rfl hne
  | cons c t =>
    intro hc
    simp only [List.cons_append, List.head?_cons, Option.some.injEq] at hc
    exact hnul (hc ▸ List.mem_cons_self)

theorem entryEnd_append {configEnvSize : ℕ} {t d' : List UInt8} {nxt : ℕ} (ht : (0 : UInt8) ∉ t)
    (hsize : nxt + t.length ≤ configEnvSize) :
    entryEnd configEnvSize (t ++ 0 :: d') nxt = some (some (nxt + t.length)) := by
  induction t generalizing nxt with
  | nil => simp [entryEnd]
  | cons c t ih =>
    rw [List.mem_cons, not_or] at ht
    rw [List.length_cons] at hsize ⊢
    rw [List.cons_append, entryEnd, if_neg (Ne.symm ht.1), if_neg (by omega),
      ih ht.2 (by omega)]
    congr 2
    omega

theorem entryEnd_of_notMem {configEnvSize : ℕ} {env : List UInt8} {nxt : ℕ}
    (henv : (0 : UInt8) ∉ env) (hsize : nxt + env.length ≤ configEnvSize) :
    entryEnd configEnvSize env nxt = none := by
  induction env generalizing nxt with
  | nil => rfl
  | cons c env ih =>
    rw [List.mem_cons, not_or] at henv
    rw [List.length_cons] at hsize
    rw [entryEnd, if_neg (Ne.symm henv.1), if_neg (by omega), ih henv.2 (by omega)]

theorem findVal_entry {configEnvSize : ℕ} {s1 : ℕ → UInt8} {data t d' : List UInt8} {fuel i : ℕ}
    (hd : data.drop i = t ++ 0 :: d') (hne : t ≠ []) (ht : (0 : UInt8) ∉ t)
    (hsize : i + t.length ≤ configEnvSize) :
    findVal configEnvSize s1 data (fuel + 1) i =
      (envmatch s1 0 (data.drop i) i).bind fun res =>
        match res with
        | some val => some (some val)
        | none => findVal configEnvSize s1 data fuel (i + t.length + 1) := by
  obtain ⟨c, t', rfl⟩ := List.exists_cons_of_ne_nil hne
  have hget : data[i]? = some c := by
    rw [← List.head?_drop, hd]
    rfl
  have hc : c ≠ 0 := fun h => ht (h ▸ List.mem_cons_self)
  have hend : entryEnd configEnvSize (data.drop i) i = some (some (i + (c :: t').length)) := by
    rw [hd]
    exact entryEnd_append ht hsize
  rw [findVal, envGetChar, hget, hend]
  simp only [Option.bind_eq_bind, Option.bind_some, if_neg hc]
  rfl

theorem findVal_unterminated {configEnvSize : ℕ} {s1 : ℕ → UInt8} {data : List UInt8}
    {fuel i : ℕ} (hnul : (0 : UInt8) ∉ data.drop i) (hi : i ≤ data.length)
    (hsize : data.length ≤ configEnvSize) :
    findVal configEnvSize s1 data (fuel + 1) i = none := by
  have hroom : i + (data.drop i).length ≤ configEnvSize := by
    rw [List.length_drop]
    omega
  have hend := entryEnd_of_notMem hnul hroom
  rw [findVal, envGetChar, hend]
  cases hget : data[i]? with
  | none => rfl
  | some c =>
    have hc : c ≠ 0 := by
      rintro rfl
      refine hnul (List.mem_of_mem_head? ?_)
      rw [List.head?_drop, hget]
      rfl
    simp [hc]

theorem findVal_closing {configEnvSize : ℕ} {s1 : ℕ → UInt8} {data : List UInt8} {fuel i : ℕ}
    (hget : (data.drop i).head? = some 0) :
    findVal configEnvSize s1 data (fuel + 1) i = some none := by
  rw [List.head?_drop] at hget
  simp [findVal, envGetChar, hget]

theorem stops_iff_findVal {configEnvSize : ℕ} {s1 : ℕ → UInt8} {data : List UInt8}
    (hsize : data.length ≤ configEnvSize) {fuel i : ℕ} (hi : i ≤ data.length)
    (hfuel : data.length - i < fuel) (o : Option (List UInt8)) :
    Stops s1 (data.drop i) o ↔
      ∃ r, findVal configEnvSize s1 data fuel i = some r ∧ o = r.map data.drop := by
  induction fuel generalizing i with
  | zero => omega
  | succ fuel ih =>
    rw [stops_iff]
    by_cases hclose : (data.drop i).head? = some 0
    · have hnext : ∀ d', ¬ NextEntry s1 (data.drop i) d' := fun d' h => h.facts.1 hclose
      rw [findVal_closing hclose]
      cases o with
      | none => simp [StopsHere, hclose]
      | some value => simp [StopsHere, hclose, hnext]
    by_cases hnul : (0 : UInt8) ∈ data.drop i
    · obtain ⟨t, d', hsplit, ht⟩ := List.eq_append_cons_of_mem hnul
      have htne : t ≠ [] := by
        rintro rfl
        rw [hsplit] at hclose
        exact hclose rfl
      have hlen : data.length - i = t.length + (d'.length + 1) := by
        rw [← List.length_drop, hsplit, List.length_append, List.length_cons]
      have hdrop : data.drop (i + t.length + 1) = d' := by
        rw [Nat.add_assoc, ← List.drop_drop, hsplit, ← List.drop_drop, List.drop_left]
        rfl
      rw [findVal_entry hsplit htne ht (by omega)]
      have hnext : ∀ e, NextEntry s1 (data.drop i) e ↔ e = d' ∧ Differs s1 (data.drop i) := by
        intro e
        constructor
        · rintro ⟨t', -, ht', heq, hdiff⟩
          exact ⟨(append_cons_inj ht' ht (heq.symm.trans hsplit)).2, hdiff⟩
        · rintro ⟨rfl, hdiff⟩
          exact ⟨t, htne, ht, hsplit, hdiff⟩
      have hhere : StopsHere s1 (data.drop i) o ↔
          ∃ n, MatchesAt s1 (data.drop i) n ∧ o = some ((data.drop i).drop (n + 1)) := by
        cases o with
        | none => exact iff_of_false hclose (by simp)
        | some value =>
          constructor
          · rintro ⟨-, -, n, hn, rfl⟩
            exact ⟨n, hn, rfl⟩
          · rintro ⟨n, hn, hvalue⟩
            exact ⟨hclose, hnul, n, hn, Option.some.inj hvalue⟩
      have hsome : ∀ v, envmatch s1 0 (data.drop i) i = some (some v) ↔
          ∃ n, MatchesAt s1 (data.drop i) n ∧ v = i + n + 1 :=
        fun v => envmatch_eq_some_some_iff
      have hnone : envmatch s1 0 (data.drop i) i = some none ↔ Differs s1 (data.drop i) :=
        envmatch_eq_some_none_iff
      simp only [hnext, hhere]
      cases hmatch : envmatch s1 0 (data.drop i) i with
      | none =>
        -- the name goes on like the array, up to the end of it
        simp only [hmatch, reduceCtorEq, false_iff] at hsome hnone
        have hno : ∀ n, ¬ MatchesAt s1 (data.drop i) n := fun n hn => hsome _ ⟨n, hn, rfl⟩
        simp [hno, hnone]
      | some res =>
        cases res with
        | none =>
          simp only [hmatch, reduceCtorEq, false_iff, Option.some.injEq, true_iff] at hsome hnone
          have hno : ∀ n, ¬ MatchesAt s1 (data.drop i) n := fun n hn => hsome _ ⟨n, hn, rfl⟩
          have hrest := ih (i := i + t.length + 1) (by omega) (by omega)
          rw [hdrop] at hrest
          simp [hno, hnone, hrest]
        | some v =>
          simp only [hmatch, reduceCtorEq, false_iff, Option.some.injEq] at hsome hnone
          obtain ⟨n, hn, hv⟩ := (hsome v).mp rfl
          have huniq : ∀ m, MatchesAt s1 (data.drop i) m → m = n := by
            intro m hm
            have h := (hsome (i + m + 1)).mpr ⟨m, hm, rfl⟩
            omega
          have hvdrop : data.drop v = (data.drop i).drop (n + 1) := by
            rw [List.drop_drop, hv, Nat.add_assoc]
          simp only [hnone, and_false, false_and, exists_false, or_false, Option.bind_some]
          constructor
          · rintro ⟨m, hm, rfl⟩
            rw [huniq m hm]
            exact ⟨some v, rfl, by rw [Option.map_some, hvdrop]⟩
          · rintro ⟨r, hr, rfl⟩
            rw [← Option.some.inj hr, Option.map_some, hvdrop]
            exact ⟨n, hn, rfl⟩
    · have hhere : ¬ StopsHere s1 (data.drop i) o := by
        cases o with
        | none => exact hclose
        | some value => exact fun h => hnul h.2.1
      have hnext : ∀ d', ¬ NextEntry s1 (data.drop i) d' := fun d' h => hnul h.facts.2.1
      rw [findVal_unterminated hnul hi hsize]
      simp [hhere, hnext]

theorem stops_iff_getenv (hdr : ℕ) (s1 : ℕ → UInt8) (data : List UInt8)
    (o : Option (List UInt8)) :
    Stops s1 data o ↔ ∃ r, getenv hdr s1 data = some r ∧ o = r.map data.drop :=
  stops_iff_findVal (Nat.le_add_right _ hdr) (Nat.zero_le _) (by omega) o

/-! ## The copy of the value -/

theorem copyValue_isSome_iff {len : ℕ} {env : List UInt8} {n : ℕ} :
    (copyValue len env n).isSome ↔ 0 ∈ env ∨ len ≤ n + env.length := by
  induction env generalizing n with
  | nil =>
    by_cases hlen : len > n
    · simp [copyValue, hlen]
    · simp [copyValue, hlen, Nat.not_lt.mp hlen]
  | cons c env ih =>
    rw [copyValue, List.length_cons, List.mem_cons]
    by_cases hlen : len > n
    · rw [if_pos hlen]
      by_cases hc : c = 0
      · simp [hc]
      · rw [if_pos hc, Option.isSome_map, ih]
        simp only [Ne.symm hc, false_or]
        rw [Nat.add_right_comm, Nat.add_assoc n]
    · rw [if_neg hlen]
      simp
      omega

/-- **When `getenv` and `getenv_r` stay inside the environment.**  The walk comes, over entries
that are closed and differ from the name, to the closing NUL or to a closed entry that matches;
and there the value is closed, or fills the buffer. -/
theorem getenv_inside_iff (hdr : ℕ) (s1 : ℕ → UInt8) (data : List UInt8) (len : ℕ) :
    ((getenv hdr s1 data).isSome ∧ (getenvR hdr s1 data len).isSome) ↔
      Stops s1 data none ∨
        ∃ value, Stops s1 data (some value) ∧ (0 ∈ value ∨ len ≤ value.length) := by
  have hcopy : ∀ val, (copyValue len (data.drop val) 0).isSome ↔
      0 ∈ data.drop val ∨ len ≤ (data.drop val).length := by
    intro val
    rw [copyValue_isSome_iff, Nat.zero_add]
  have hR : getenvR hdr s1 data len = (getenv hdr s1 data).bind fun
      | none => some ([], -1)
      | some val => (copyValue len (data.drop val) 0).map fun r =>
          (if len = r.2 then r.1 ++ [0] else r.1, (r.2 : ℤ)) := by
    rw [getenvR, getenv]
    cases findVal (data.length + hdr) s1 data (data.length + 1) 0 with
    | none => rfl
    | some r =>
      cases r with
      | none => rfl
      | some val =>
        cases hval : copyValue len (data.drop val) 0 <;> simp [hval]
  simp only [stops_iff_getenv hdr, hR]
  cases hget : getenv hdr s1 data with
  | none => simp
  | some r =>
    cases r with
    | none => simp
    | some val => simp [hcopy]

/-- An environment of `n` bytes that are not NUL: every call reads behind it. -/
theorem not_getenv_inside :
    ¬ ∀ (hdr : ℕ) (s1 : ℕ → UInt8) (data : List UInt8) (len : ℕ),
      (getenv hdr s1 data).isSome ∧ (getenvR hdr s1 data len).isSome := by
  intro h
  have hget := (h 4 (fun _ => 0) (List.replicate 0x1fffc 255) 1).1
  have hnone : getenv 4 (fun _ => 0) (List.replicate 0x1fffc 255) = none := by
    refine findVal_unterminated ?_ (Nat.zero_le _) (Nat.le_add_right _ _)
    rw [List.drop_zero, List.mem_replicate]
    exact fun hmem => absurd hmem.2 (by decide)
  rw [hnone] at hget
  exact absurd hget (by decide)

/-! ## A well-formed environment -/

/-- The memory at `s1` is the name of a variable: its bytes, and behind them the terminator, or
an `'='` and anything. -/
def Names (s1 : ℕ → UInt8) (s : List UInt8) : Prop :=
  (∀ k b, s[k]? = some b → s1 k = b) ∧ (s1 s.length = 0 ∨ s1 s.length = eqSign)

theorem envmatch_of_names {s1 : ℕ → UInt8} {s : List UInt8} (hs : Names s1 s)
    (hnul : (0 : UInt8) ∉ s) (heq : eqSign ∉ s) {env : List UInt8} {i2 : ℕ} {r : Option ℕ}
    (h : Env.envmatch s env i2 = some r) : envmatch s1 0 env i2 = some r := by
  induction s generalizing s1 env i2 with
  | nil =>
    have hend : s1 0 = 0 ∨ s1 0 = eqSign := hs.2
    cases env with
    | nil => simp [Env.envmatch] at h
    | cons c env =>
      rw [Env.envmatch] at h
      split at h
      · simp at h
      · rename_i hc
        rw [envmatch, ← h]
        rcases hend with hend | hend
        · rw [if_neg (hend ▸ Ne.symm hc), hend]
          simp
        · rw [hend]
          by_cases hceq : c = eqSign
          · rw [if_pos hceq.symm, if_pos rfl, if_pos hceq]
          · rw [if_neg (Ne.symm hceq), if_neg (fun h => hceq h.2), if_neg hceq]
  | cons a s ih =>
    have ha : s1 0 = a := hs.1 0 a rfl
    rw [List.mem_cons, not_or] at hnul heq
    cases env with
    | nil => simp [Env.envmatch] at h
    | cons c env =>
      rw [Env.envmatch] at h
      rw [envmatch, ha]
      by_cases hac : a = c
      · rw [if_pos hac, if_neg (Ne.symm heq.1)] at h ⊢
        rw [envmatch_shift]
        have hrest : Names (fun k => s1 (k + 1)) s := ⟨fun k b hk => hs.1 (k + 1) b hk, hs.2⟩
        exact ih hrest hnul.2 heq.2 h
      · rw [if_neg hac] at h ⊢
        rw [if_neg (fun h0 => hnul.1 h0.1.symm), h]

theorem exists_of_strlen {env : List UInt8} {n : ℕ} (h : strlen env = some n) :
    ∃ t d', env = t ++ 0 :: d' ∧ 0 ∉ t ∧ t.length = n := by
  induction env generalizing n with
  | nil => simp [strlen] at h
  | cons c env ih =>
    rw [strlen] at h
    split at h
    · rename_i hc
      exact ⟨[], env, by rw [hc]; rfl, by simp, Option.some.inj h⟩
    · rename_i hc
      obtain ⟨m, hm, rfl⟩ := Option.map_eq_some_iff.mp h
      obtain ⟨t, d', rfl, ht, rfl⟩ := ih hm
      exact ⟨c :: t, d', rfl, by simp [Ne.symm hc, ht], rfl⟩

theorem findVal_of_findEntry {configEnvSize : ℕ} {s1 : ℕ → UInt8} {s : VarName}
    (hs : Names s1 s.bytes) {data : List UInt8} (hsize : data.length ≤ configEnvSize)
    {fuel i : ℕ} {r : Option Found} (h : findEntry s.bytes data fuel i = some r) :
    findVal configEnvSize s1 data fuel i = some (r.map Found.oldval) := by
  induction fuel generalizing i with
  | zero => simp [findEntry] at h
  | succ fuel ih =>
    rw [findEntry, Option.bind_eq_bind] at h
    obtain ⟨c, hget, h⟩ := Option.bind_eq_some_iff.mp h
    by_cases hc : c = 0
    · rw [if_pos hc] at h
      rw [findVal_closing (by rw [List.head?_drop, hget, hc]), ← Option.some.inj h]
      rfl
    rw [if_neg hc] at h
    obtain ⟨n, hlen, h⟩ := Option.bind_eq_some_iff.mp h
    obtain ⟨res, hmatch, h⟩ := Option.bind_eq_some_iff.mp h
    obtain ⟨t, d', hd, ht, rfl⟩ := exists_of_strlen hlen
    have htne : t ≠ [] := by
      rintro rfl
      rw [← List.head?_drop, hd] at hget
      exact hc (Option.some.inj hget).symm
    have hroom : i + t.length ≤ configEnvSize := by
      have hdlen := congrArg List.length hd
      rw [List.length_drop, List.length_append, List.length_cons] at hdlen
      omega
    rw [findVal_entry hd htne ht hroom, envmatch_of_names hs s.noNul s.noEq hmatch]
    cases res with
    | some oldval =>
      rw [← Option.some.inj h]
      rfl
    | none => exact ih h

/-! ## `getenv_r` and its buffer -/

/-- The memory at `s1` is a C string. -/
def HoldsString (s1 : ℕ → UInt8) (name : CString) : Prop :=
  (∀ k b, name.bytes[k]? = some b → s1 k = b) ∧ s1 name.length = 0

/-- The variable a name is about: what it holds before the first `'='`. -/
def varName (name : CString) : VarName where
  bytes := name.bytes.takeWhile (· ≠ eqSign)
  noNul := fun h => name.noNul (List.takeWhile_subset _ h)
  noEq := fun h => by simpa using List.mem_takeWhile_imp h

theorem names_of_holdsString {s1 : ℕ → UInt8} {name : CString} (h : HoldsString s1 name) :
    Names s1 (varName name).bytes := by
  have hsplit : (varName name).bytes ++ name.bytes.dropWhile (· ≠ eqSign) = name.bytes :=
    List.takeWhile_append_dropWhile
  refine ⟨fun k b hk => h.1 k b ?_, ?_⟩
  · rw [← hsplit, List.getElem?_append_left (List.getElem?_eq_some_iff.mp hk).1, hk]
  · cases hrest : name.bytes.dropWhile (· ≠ eqSign) with
    | nil =>
      rw [hrest, List.append_nil] at hsplit
      left
      rw [hsplit]
      exact h.2
    | cons c rest =>
      right
      have hc : c = eqSign := by
        have hhead := List.head?_dropWhile_not (· ≠ eqSign) name.bytes
        rw [hrest] at hhead
        simpa using hhead
      refine h.1 _ eqSign ?_
      rw [← hsplit, hrest, hc, List.getElem?_append_right (Nat.le_refl _), Nat.sub_self]
      rfl

theorem copyValue_fits {v : List UInt8} (hv : (0 : UInt8) ∉ v) {len n : ℕ} (rest : List UInt8)
    (h : n + v.length < len) :
    copyValue len (v ++ 0 :: rest) n = some (v ++ [0], n + v.length + 1) := by
  induction v generalizing n with
  | nil =>
    rw [List.length_nil, Nat.add_zero] at h
    simp [copyValue, h]
  | cons c v ih =>
    rw [List.mem_cons, not_or] at hv
    rw [List.length_cons] at h
    rw [List.cons_append, copyValue, if_pos (by omega), if_pos (Ne.symm hv.1),
      ih hv.2 (by omega), List.length_cons]
    simp only [Option.map_some, List.cons_append, Option.some.injEq, Prod.mk.injEq, true_and]
    omega

theorem copyValue_cut {v : List UInt8} (hv : (0 : UInt8) ∉ v) {len n : ℕ} (rest : List UInt8)
    (hn : n ≤ len) (h : len ≤ n + v.length) :
    copyValue len (v ++ 0 :: rest) n = some (v.take (len - n), len + 1) := by
  induction v generalizing n with
  | nil =>
    obtain rfl : n = len := Nat.le_antisymm hn h
    simp [copyValue]
  | cons c v ih =>
    rw [List.mem_cons, not_or] at hv
    rw [List.length_cons] at h
    rw [List.cons_append, copyValue]
    by_cases hlen : len > n
    · have htake : len - n = len - (n + 1) + 1 := by omega
      rw [if_pos hlen, if_pos (Ne.symm hv.1), ih hv.2 (by omega) (by omega), htake]
      rfl
    · obtain rfl : n = len := by omega
      simp

/-- What a call is to store at `buf` and to return. -/
def Right (value : Option CString) (len : ℕ) (stored : List UInt8) (ret : ℤ) : Prop :=
  match value with
  | none => stored = [] ∧ ret = -1
  | some v =>
    stored.length ≤ len ∧
    (∃ p rest, stored = p ++ 0 :: rest ∧ p <+: v.bytes ∧ (v.length < len → p = v.bytes)) ∧
    ret = stored.length

theorem EnvRep.getenvR_none {data : List UInt8} {m : Vars} (hrep : EnvRep data m)
    {s1 : ℕ → UInt8} {s : VarName} (hs : Names s1 s.bytes) (hnone : m.lookup s = none)
    (hdr len : ℕ) : getenvR hdr s1 data len = some ([], -1) := by
  have hwalk := findVal_of_findEntry hs (Nat.le_add_right data.length hdr)
    (findEntry_of_lookup_eq_none hrep hnone)
  rw [getenvR, hwalk]
  rfl

theorem EnvRep.getenvR_some {data : List UInt8} {m : Vars} (hrep : EnvRep data m)
    {s1 : ℕ → UInt8} {s : VarName} (hs : Names s1 s.bytes) {v : CString}
    (hsome : m.lookup s = some v) (hdr len : ℕ) :
    getenvR hdr s1 data len =
      if v.length + 1 < len then some (v.bytes ++ [0], (v.length : ℤ) + 1)
      else if v.length + 1 = len then some (v.bytes ++ [0, 0], (v.length : ℤ) + 1)
      else some (v.bytes.take len, (len : ℤ) + 1) := by
  obtain ⟨l, r, hsplit⟩ := OrderedMap.exists_split_of_lookup hsome
  have hwalk := findVal_of_findEntry hs (Nat.le_add_right data.length hdr)
    (hrep.findEntry_eq hsplit)
  have htext := hrep.stringAt_oldval hsplit
  obtain ⟨n, hn, htake⟩ := Option.bind_eq_some_iff.mp htext
  obtain ⟨t, d', hd, -, rfl⟩ := exists_of_strlen hn
  obtain rfl : t = v.bytes := by
    rw [hd, List.take_left] at htake
    exact Option.some.inj htake
  rw [getenvR, hwalk]
  simp only [Option.map_some, Option.bind_eq_bind, Option.bind_some, hd]
  by_cases hfit : v.length < len
  · have hroom : 0 + v.bytes.length < len := by
      rw [Nat.zero_add]
      exact hfit
    have hcopy := copyValue_fits v.noNul d' hroom
    have hn : 0 + v.bytes.length + 1 = v.length + 1 := by rw [Nat.zero_add, CString.length]
    rw [hn] at hcopy
    simp only [hcopy, Option.bind_some]
    by_cases hexact : len = v.length + 1
    · rw [if_pos hexact, if_neg (by omega), if_pos hexact.symm]
      simp
    · rw [if_neg hexact, if_pos (by omega)]
      simp
  · have hroom : len ≤ 0 + v.bytes.length := by
      rw [Nat.zero_add]
      exact Nat.not_lt.mp hfit
    have hcopy := copyValue_cut v.noNul d' (Nat.zero_le len) hroom
    simp only [hcopy, Option.bind_some]
    rw [if_neg (by omega), if_neg (by omega), if_neg (by omega)]
    simp

/-- **When `getenv_r` keeps to its buffer.**  The variable is not there, or the buffer has room
for one byte more than the value and its terminator. -/
theorem getenvR_right_iff {data : List UInt8} {m : Vars} (hrep : EnvRep data m)
    {s1 : ℕ → UInt8} {name : CString} (hs : HoldsString s1 name) (hdr len : ℕ) :
    (∃ stored ret, getenvR hdr s1 data len = some (stored, ret) ∧
        Right (m.lookup (varName name)) len stored ret) ↔
      ∀ v, m.lookup (varName name) = some v → v.length + 1 < len := by
  have hnames := names_of_holdsString hs
  cases hlook : m.lookup (varName name) with
  | none =>
    rw [EnvRep.getenvR_none hrep hnames hlook]
    simp [Right]
  | some v =>
    rw [EnvRep.getenvR_some hrep hnames hlook]
    constructor
    · rintro ⟨stored, ret, hcall, hsize, ⟨p, rest, hstored, -, -⟩, -⟩ w hw
      obtain rfl : v = w := Option.some.inj hw
      by_contra hbig
      rw [if_neg hbig] at hcall
      split at hcall
      · rename_i hexact
        -- the NUL behind an exact fit is stored at `buf[len]`
        simp only [Option.some.injEq, Prod.mk.injEq] at hcall
        rw [← hcall.1, List.length_append, List.length_cons, List.length_singleton] at hsize
        simp only [CString.length] at hexact
        omega
      · -- all of the buffer is characters of the value
        simp only [Option.some.injEq, Prod.mk.injEq] at hcall
        have hmem : (0 : UInt8) ∈ v.bytes.take len := by
          rw [hcall.1, hstored]
          simp
        exact v.noNul (List.mem_of_mem_take hmem)
    · intro h
      have hroom := h v rfl
      rw [if_pos hroom]
      refine ⟨_, _, rfl, ?_, ⟨v.bytes, [], rfl, List.prefix_rfl, fun _ => rfl⟩, by
        simp [CString.length]⟩
      rw [List.length_append, List.length_singleton]
      exact Nat.le_of_lt hroom

/-- The environment `a=xy`. -/
def oneVar : Vars where
  entries := [(varName (.ofString "a"), .ofString "xy")]
  nodup := by simp

theorem envRep_oneVar : EnvRep [97, 61, 120, 121, 0, 0] oneVar := ⟨[], by decide⟩

theorem holdsString_a : HoldsString (fun k => if k = 0 then 97 else 0) (.ofString "a") := by
  have hbytes : (CString.ofString "a").bytes = [97] := by decide
  refine ⟨?_, by simp [CString.length, hbytes]⟩
  intro k b hk
  rw [hbytes] at hk
  cases k with
  | zero => exact Option.some.inj hk
  | succ k => simp at hk

/-- A buffer of four bytes holds a value of two. -/
theorem getenvR_right_four :
    ∃ stored ret, getenvR 4 (fun k => if k = 0 then 97 else 0) [97, 61, 120, 121, 0, 0] 4 =
        some (stored, ret) ∧
      Right (oneVar.lookup (varName (.ofString "a"))) 4 stored ret :=
  (getenvR_right_iff envRep_oneVar holdsString_a 4 4).mpr (by
    have hlook : oneVar.lookup (varName (.ofString "a")) = some (.ofString "xy") := by decide
    intro v hv
    obtain rfl : CString.ofString "xy" = v := Option.some.inj (hlook.symm.trans hv)
    decide)

/-- A buffer of three bytes has room for the value and its terminator; the call stores a fourth. -/
theorem not_getenvR_right :
    ¬ ∀ (data : List UInt8) (m : Vars) (s1 : ℕ → UInt8) (name : CString) (len : ℕ),
      EnvRep data m → HoldsString s1 name → 1 ≤ len →
        ∃ stored ret, getenvR 4 s1 data len = some (stored, ret) ∧
          Right (m.lookup (varName name)) len stored ret := by
  intro h
  obtain ⟨stored, ret, hcall, hright⟩ := h _ _ _ _ 3 envRep_oneVar holdsString_a (by decide)
  have hthree : getenvR 4 (fun k => if k = 0 then 97 else 0) [97, 61, 120, 121, 0, 0] 3 =
      some ([120, 121, 0, 0], 3) := by decide
  have hlook : oneVar.lookup (varName (.ofString "a")) = some (.ofString "xy") := by decide
  rw [hthree] at hcall
  obtain rfl : [120, 121, 0, 0] = stored := congrArg Prod.fst (Option.some.inj hcall)
  rw [hlook] at hright
  exact absurd hright.1 (by decide)

/-! ## The value of a name in a buffer -/

/-- The text at the address `getenv` returns for a buffer that holds a name and zeros. -/
def getenvText (envHeaderSize : ℕ) (data name : List UInt8) : Option (List UInt8) := do
  match ← getenv envHeaderSize (fun k => name.getD k 0) data with
  | none => none
  | some val => stringAt data val

/-- The C string in a buffer: the bytes before the first NUL. -/
def cstring (l : List UInt8) : CString where
  bytes := l.takeWhile (· ≠ 0)
  noNul := fun h => by simpa using List.mem_takeWhile_imp h

theorem holdsString_cstring (l : List UInt8) :
    HoldsString (fun k => l.getD k 0) (cstring l) := by
  have hsplit : (cstring l).bytes ++ l.dropWhile (· ≠ 0) = l := List.takeWhile_append_dropWhile
  constructor
  · intro k b hk
    have hlt := (List.getElem?_eq_some_iff.mp hk).1
    have hget : l[k]? = some b := by
      rw [← hsplit, List.getElem?_append_left hlt, hk]
    show l.getD k 0 = b
    rw [List.getD_eq_getElem?_getD, hget]
    rfl
  · have hget : l[(cstring l).length]? = (l.dropWhile (· ≠ 0)).head? := by
      rw [← congrArg (·[(cstring l).length]?) hsplit]
      simp only [CString.length]
      rw [List.getElem?_append_right (Nat.le_refl _), Nat.sub_self, List.head?_eq_getElem?]
    have hhead := List.head?_dropWhile_not (· ≠ (0 : UInt8)) l
    show l.getD (cstring l).length 0 = 0
    rw [List.getD_eq_getElem?_getD, hget]
    cases hrest : (l.dropWhile (· ≠ 0)).head? with
    | none => rfl
    | some c =>
      rw [hrest] at hhead
      simpa using hhead

/-- **`getenv` on the name in a buffer is the lookup of the map.** -/
theorem EnvRep.getenvText {data : List UInt8} {m : Vars} (hrep : EnvRep data m) (hdr : ℕ)
    (name : List UInt8) :
    getenvText hdr data name = (m.lookup (varName (cstring name))).map CString.bytes := by
  have hnames := names_of_holdsString (holdsString_cstring name)
  rw [Raw.getenvText, Raw.getenv]
  cases hlook : m.lookup (varName (cstring name)) with
  | none =>
    rw [findVal_of_findEntry hnames (Nat.le_add_right _ hdr)
      (findEntry_of_lookup_eq_none hrep hlook)]
    rfl
  | some v =>
    obtain ⟨l, r, hsplit⟩ := OrderedMap.exists_split_of_lookup hlook
    rw [findVal_of_findEntry hnames (Nat.le_add_right _ hdr) (hrep.findEntry_eq hsplit)]
    exact hrep.stringAt_oldval hsplit

end Raw
end Env
end EmevBsp
