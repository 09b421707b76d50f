import EmevBsp.Env.Getenv

/-!
# `common/main.c`: `process_macros`

References to variables are replaced in a command line before it is cut into words.  The
scanner looks at one character at a time and has four states; what it writes goes to the next
place of a buffer of `CONFIG_SYS_CBSIZE` bytes as long as there is room.

The reference expander reads the line from the left: a `'$'`, an opening bracket, a name and a
closing bracket are replaced by the value of the name, and every other character is kept.  The
scanner ends a name at the first closing bracket of either kind; which brackets belong together
for the expander is a parameter (`pairs`), so the results are about both readings.
-/

namespace EmevBsp
namespace Command

open Env

/-! ## The scanner -/

abbrev dollar : UInt8 := 36
abbrev quote : UInt8 := 39
abbrev backslash : UInt8 := 92

def isOpen (c : UInt8) : Bool := c == 40 || c == 123

def isClose (c : UInt8) : Bool := c == 41 || c == 125

/-- `state`. -/
inductive MacroState where
  /-- 0: waiting for `'$'` -/
  | dollar
  /-- 1: waiting for `'('` or `'{'` -/
  | opening
  /-- 2: waiting for `')'` or `'}'`, with the text from `varname_start` on -/
  | closing (varname : List UInt8)
  /-- 3: waiting for `'''` -/
  | quote
  deriving DecidableEq

/-- The variables of the loop.  The bytes written so far stand for `output`. -/
structure MacroVars where
  state : MacroState
  prev : UInt8
  output : List UInt8
  outputcnt : ℕ

/-- `*(output++) = c; outputcnt--;` -/
def MacroVars.put (v : MacroVars) (c : UInt8) : MacroVars :=
  { v with output := v.output ++ [c], outputcnt := v.outputcnt - 1 }

/-- `while ((*envval) && outputcnt)` -/
def MacroVars.putValue : MacroVars → List UInt8 → MacroVars
  | v, [] => v
  | v, c :: envval => if v.outputcnt ≠ 0 then (v.put c).putValue envval else v

/-- The switch, on the character `c`; `esc` is the backslash that was removed before it. -/
def macroSwitch (getenv : List UInt8 → Option (List UInt8)) (esc : List UInt8) (c : UInt8)
    (v : MacroVars) : MacroVars :=
  match v.state with
  | .dollar =>
    if c = quote ∧ v.prev ≠ backslash then { v with state := .quote }
    else if c = dollar ∧ v.prev ≠ backslash then { v with state := .opening }
    else v.put c
  | .opening =>
    if isOpen c then { v with state := .closing [] }
    else
      let v := { v with state := .dollar }.put dollar
      if v.outputcnt ≠ 0 then v.put c else v
  | .closing varname =>
    if isClose c then
      -- the name is the raw text, so a removed backslash is in it
      let v := { v with state := .dollar }
      match getenv (varname ++ esc) with
      | some envval => v.putValue envval
      | none => v
    else { v with state := .closing (varname ++ esc ++ [c]) }
  | .quote =>
    if c = quote ∧ v.prev ≠ backslash then { v with state := .dollar }
    else v.put c

/-- The loop over the input. -/
def macroLoop (getenv : List UInt8 → Option (List UInt8)) :
    (input : List UInt8) → MacroVars → MacroVars
  | [], v => v
  | c :: input, v =>
    if v.outputcnt = 0 then v
    else if v.state ≠ .quote ∧ c = backslash ∧ v.prev ≠ backslash then
      match input with
      | [] => v
      | c' :: input =>
        let v := macroSwitch getenv [c] c' { v with prev := c }
        macroLoop getenv input { v with prev := c' }
    else
      let v := macroSwitch getenv [] c v
      macroLoop getenv input { v with prev := c }

/-- `process_macros`: the bytes it leaves from `output` on.  `cbsize` is `CONFIG_SYS_CBSIZE`, and
`getenv` gives the text of a value. -/
def processMacros (cbsize : ℕ) (getenv : List UInt8 → Option (List UInt8))
    (input : List UInt8) : List UInt8 :=
  let v := macroLoop getenv input ⟨.dollar, 0, [], cbsize⟩
  if v.outputcnt ≠ 0 then v.output ++ [0] else v.output.dropLast ++ [0]

/-! ## The reference expander -/

section Expand

variable (pairs : UInt8 → UInt8 → Bool)

/-- The reference that the text behind a `'$'` begins with: its name and what follows it. -/
def reference : List UInt8 → Option (List UInt8 × List UInt8)
  | [] => none
  | o :: s =>
    if isOpen o then
      match s.dropWhile (!isClose ·) with
      | [] => none
      | c :: rest => if pairs o c then some (s.takeWhile (!isClose ·), rest) else none
    else none

theorem length_of_reference {s name rest : List UInt8}
    (h : reference pairs s = some (name, rest)) : name.length + rest.length + 2 = s.length := by
  cases s with
  | nil => simp [reference] at h
  | cons o s =>
    have hlen := congrArg List.length (List.takeWhile_append_dropWhile (p := (!isClose ·)) (l := s))
    rw [reference] at h
    split at h
    · split at h
      · simp at h
      · rename_i c rest' hdrop
        split at h
        · simp only [Option.some.injEq, Prod.mk.injEq] at h
          obtain ⟨rfl, rfl⟩ := h
          rw [hdrop, List.length_append, List.length_cons] at hlen
          rw [List.length_cons]
          omega
        · simp at h
    · simp at h

/-- **The reference expander.**  A reference is replaced by its value; all else is kept. -/
def expand (value : List UInt8 → List UInt8) : List UInt8 → List UInt8
  | [] => []
  | c :: s =>
    if c = dollar then
      match _h : reference pairs s with
      | some (name, rest) => value name ++ expand value rest
      | none => c :: expand value s
    else c :: expand value s
termination_by s => s.length
decreasing_by
  · have := length_of_reference pairs _h
    simp only [List.length_cons]
    omega
  · simp
  · simp

@[simp] theorem expand_nil (value : List UInt8 → List UInt8) : expand pairs value [] = [] := by
  rw [expand]

theorem expand_cons_of_ne {c : UInt8} (h : c ≠ dollar) (value : List UInt8 → List UInt8)
    (s : List UInt8) : expand pairs value (c :: s) = c :: expand pairs value s := by
  rw [expand, if_neg h]

theorem expand_dollar_of_none {s : List UInt8} (h : reference pairs s = none)
    (value : List UInt8 → List UInt8) :
    expand pairs value (dollar :: s) = dollar :: expand pairs value s := by
  rw [expand, if_pos rfl]
  split
  · rename_i heq
    rw [h] at heq
    simp at heq
  · rfl

theorem expand_dollar_of_some {s name rest : List UInt8}
    (h : reference pairs s = some (name, rest)) (value : List UInt8 → List UInt8) :
    expand pairs value (dollar :: s) = value name ++ expand pairs value rest := by
  rw [expand, if_pos rfl]
  split
  · rename_i heq
    rw [h] at heq
    simp only [Option.some.injEq, Prod.mk.injEq] at heq
    rw [heq.1, heq.2]
  · rename_i heq
    rw [h] at heq
    simp at heq

/-- The lines the scanner reads as the expander does.  Read from the left, each `'$'` starts a
reference, or is followed by a character that opens no bracket and is no `'$'` that starts a
reference; that character is kept with it. -/
inductive Clean : List UInt8 → Prop
  | nil : Clean []
  | char {c s} : c ≠ dollar → Clean s → Clean (c :: s)
  | ref {s name rest} : reference pairs s = some (name, rest) → Clean rest → Clean (dollar :: s)
  | dollar {c s} : isOpen c = false → (c = dollar → reference pairs s = none) → Clean s →
      Clean (dollar :: c :: s)

end Expand

/-! ## What the scanner writes -/

/-- What the scanner writes on a line without quotes and backslashes, when there is room. -/
def scan (value : List UInt8 → List UInt8) : List UInt8 → List UInt8
  | [] => []
  | c :: s =>
    if c = dollar then
      match s with
      | [] => []
      | o :: s =>
        if isOpen o then
          match _h : s.dropWhile (!isClose ·) with
          | [] => []
          | _ :: rest => value (s.takeWhile (!isClose ·)) ++ scan value rest
        else c :: o :: scan value s
    else c :: scan value s
termination_by s => s.length
decreasing_by
  · have hle := List.length_dropWhile_le (!isClose ·) s
    rw [_h] at hle
    simp only [List.length_cons] at hle ⊢
    omega
  · simp only [List.length_cons]
    omega
  · simp

section Scan

variable (value : List UInt8 → List UInt8)

@[simp] theorem scan_nil : scan value [] = [] := by
  rw [scan]

theorem scan_cons_of_ne {c : UInt8} (h : c ≠ dollar) (s : List UInt8) :
    scan value (c :: s) = c :: scan value s := by
  rw [scan.eq_def]
  exact if_neg h

@[simp] theorem scan_dollar_nil : scan value [dollar] = [] := by
  rw [scan, if_pos rfl]

theorem scan_dollar_of_not_open {o : UInt8} (h : isOpen o = false) (s : List UInt8) :
    scan value (dollar :: o :: s) = dollar :: o :: scan value s := by
  rw [scan, if_pos rfl]
  simp [h]

theorem scan_dollar_unclosed {o : UInt8} (ho : isOpen o = true) {s : List UInt8}
    (h : s.dropWhile (!isClose ·) = []) : scan value (dollar :: o :: s) = [] := by
  rw [scan, if_pos rfl]
  simp only [ho, if_true]
  split
  · rfl
  · rename_i heq
    rw [h] at heq
    simp at heq

theorem scan_dollar_closed {o : UInt8} (ho : isOpen o = true) {s rest : List UInt8} {c : UInt8}
    (h : s.dropWhile (!isClose ·) = c :: rest) :
    scan value (dollar :: o :: s) = value (s.takeWhile (!isClose ·)) ++ scan value rest := by
  rw [scan, if_pos rfl]
  simp only [ho, if_true]
  split
  · rename_i heq
    rw [h] at heq
    simp at heq
  · rename_i heq
    rw [h] at heq
    rw [(List.cons.inj heq).2]

end Scan

/-! ## The loop writes what `scan` says, as far as there is room -/

theorem putValue_eq (v : MacroVars) (envval : List UInt8) :
    v.putValue envval = { v with
      output := v.output ++ envval.take v.outputcnt
      outputcnt := v.outputcnt - envval.length } := by
  induction envval generalizing v with
  | nil => simp [MacroVars.putValue]
  | cons c envval ih =>
    rw [MacroVars.putValue]
    by_cases hcnt : v.outputcnt = 0
    · cases v
      simp_all
    · obtain ⟨k, hk⟩ := Nat.exists_eq_succ_of_ne_zero hcnt
      rw [if_pos hcnt, ih]
      simp only [MacroVars.put, hk, List.take_succ_cons, List.length_cons, List.append_assoc,
        List.singleton_append, Nat.add_sub_cancel, Nat.succ_eq_add_one]
      rw [Nat.add_sub_add_right]

/-- A character that is no quote, backslash or `'$'` is copied. -/
structure PlainText (s : List UInt8) : Prop where
  noQuote : quote ∉ s
  noBackslash : backslash ∉ s

theorem PlainText.of_cons {c : UInt8} {s : List UInt8} (h : PlainText (c :: s)) : PlainText s :=
  ⟨fun hm => h.1 (List.mem_cons_of_mem c hm), fun hm => h.2 (List.mem_cons_of_mem c hm)⟩

theorem PlainText.head {c : UInt8} {s : List UInt8} (h : PlainText (c :: s)) :
    c ≠ quote ∧ c ≠ backslash :=
  ⟨fun hc => h.1 (hc ▸ List.mem_cons_self), fun hc => h.2 (hc ▸ List.mem_cons_self)⟩

section Loop

variable (getenv : List UInt8 → Option (List UInt8))

theorem macroLoop_cons {c : UInt8} {s : List UInt8} (h : PlainText (c :: s)) (v : MacroVars)
    (hcnt : v.outputcnt ≠ 0) :
    macroLoop getenv (c :: s) v =
      macroLoop getenv s { macroSwitch getenv [] c v with prev := c } := by
  rw [macroLoop.eq_def]
  simp only [hcnt, if_false, h.head.2, false_and, and_false]

theorem macroLoop_full (s : List UInt8) (v : MacroVars) (hcnt : v.outputcnt = 0) :
    macroLoop getenv s v = v := by
  cases s with
  | nil => rfl
  | cons c s =>
    rw [macroLoop.eq_def]
    simp only [hcnt, if_true]

theorem macroLoop_unclosed {s : List UInt8} (h : PlainText s)
    (hs : s.dropWhile (!isClose ·) = []) (varname : List UInt8) (prev : UInt8)
    (out : List UInt8) {cnt : ℕ} (hcnt : cnt ≠ 0) :
    (macroLoop getenv s ⟨.closing varname, prev, out, cnt⟩).output = out ∧
      (macroLoop getenv s ⟨.closing varname, prev, out, cnt⟩).outputcnt = cnt := by
  induction s generalizing varname prev with
  | nil => exact ⟨rfl, rfl⟩
  | cons c s ih =>
    rw [List.dropWhile_cons] at hs
    by_cases hc : isClose c
    · simp [hc] at hs
    · simp only [hc, Bool.not_false, if_true] at hs
      rw [macroLoop_cons getenv h _ hcnt]
      simp only [macroSwitch, hc, Bool.false_eq_true, if_false]
      exact ih h.of_cons hs _ _

theorem macroLoop_closing {s rest : List UInt8} {b : UInt8} (h : PlainText s)
    (hs : s.dropWhile (!isClose ·) = b :: rest) (varname : List UInt8) (prev : UInt8)
    (out : List UInt8) {cnt : ℕ} (hcnt : cnt ≠ 0) :
    macroLoop getenv s ⟨.closing varname, prev, out, cnt⟩ =
      macroLoop getenv rest ⟨.dollar, b,
        out ++ ((getenv (varname ++ s.takeWhile (!isClose ·))).getD []).take cnt,
        cnt - ((getenv (varname ++ s.takeWhile (!isClose ·))).getD []).length⟩ := by
  induction s generalizing varname prev with
  | nil => simp at hs
  | cons c s ih =>
    rw [List.dropWhile_cons] at hs
    rw [macroLoop_cons getenv h _ hcnt, List.takeWhile_cons]
    by_cases hc : isClose c
    · simp only [hc, Bool.not_true, Bool.false_eq_true, if_false, List.cons.injEq] at hs
      obtain ⟨rfl, rfl⟩ := hs
      simp only [macroSwitch, hc, if_true, Bool.not_true, Bool.false_eq_true, if_false,
        List.append_nil]
      cases hval : getenv varname with
      | none => simp
      | some envval => simp [putValue_eq]
    · simp only [hc, Bool.not_false, if_true] at hs
      simp only [macroSwitch, hc, Bool.not_false, if_true, if_false, Bool.false_eq_true,
        List.append_nil]
      rw [ih h.of_cons hs]
      simp

/-- **The loop writes what `scan` says, as far as there is room.** -/
theorem macroLoop_eq_scan {s : List UInt8} (h : PlainText s) {prev : UInt8}
    (hprev : prev ≠ backslash) (out : List UInt8) (cnt : ℕ) :
    let text := scan (fun name => (getenv name).getD []) s
    (macroLoop getenv s ⟨.dollar, prev, out, cnt⟩).output = out ++ text.take cnt ∧
      (macroLoop getenv s ⟨.dollar, prev, out, cnt⟩).outputcnt = cnt - text.length := by
  induction hlen : s.length using Nat.strong_induction_on generalizing s prev out cnt with
  | _ n ih =>
    subst hlen
    by_cases hcnt : cnt = 0
    · rw [macroLoop_full getenv s _ hcnt]
      simp [hcnt]
    obtain ⟨k, rfl⟩ := Nat.exists_eq_add_one_of_ne_zero hcnt
    cases s with
    | nil => simp [macroLoop]
    | cons c s =>
      rw [macroLoop_cons getenv h _ hcnt]
      simp only [macroSwitch, h.head.1, if_false, hprev, ne_eq, not_false_eq_true,
        and_true]
      by_cases hc : c = dollar
      · subst hc
        simp only [if_true]
        cases s with
        | nil => simp [macroLoop]
        | cons o s =>
          rw [macroLoop_cons getenv h.of_cons _ hcnt]
          by_cases ho : isOpen o
          · simp only [macroSwitch, ho, if_true]
            cases hdrop : s.dropWhile (!isClose ·) with
            | nil =>
              rw [scan_dollar_unclosed _ ho hdrop]
              have hrest := macroLoop_unclosed getenv h.of_cons.of_cons hdrop [] o out hcnt
              simpa using hrest
            | cons b rest =>
              rw [scan_dollar_closed _ ho hdrop,
                macroLoop_closing getenv h.of_cons.of_cons hdrop [] o out hcnt]
              have hsplit := List.takeWhile_append_dropWhile (p := (!isClose ·)) (l := s)
              rw [hdrop] at hsplit
              have hplain : PlainText (b :: rest) := by
                have hs := h.of_cons.of_cons
                rw [← hsplit] at hs
                exact ⟨fun hm => hs.1 (List.mem_append_right _ hm),
                  fun hm => hs.2 (List.mem_append_right _ hm)⟩
              have hlen := congrArg List.length hsplit
              rw [List.length_append, List.length_cons] at hlen
              obtain ⟨hout, hcount⟩ := ih rest.length
                (by simp only [List.length_cons]; omega) hplain.of_cons hplain.head.2 _ _ rfl
              rw [List.nil_append, hout, hcount]
              constructor
              · rw [List.append_assoc, List.take_append]
              · rw [List.length_append]
                omega
          · rw [scan_dollar_of_not_open _ (by simpa using ho)]
            simp only [macroSwitch, ho, Bool.false_eq_true, if_false, MacroVars.put,
              Nat.add_sub_cancel]
            by_cases hk : k = 0
            · -- the buffer is full with the `'$'`
              subst hk
              simp only [not_true_eq_false, ne_eq, if_false]
              rw [macroLoop_full getenv s _ rfl]
              simp
            · obtain ⟨j, rfl⟩ := Nat.exists_eq_add_one_of_ne_zero hk
              simp only [ne_eq, hk, not_false_eq_true, if_true, Nat.add_sub_cancel]
              obtain ⟨hout, hcount⟩ := ih s.length (by simp only [List.length_cons]; omega)
                h.of_cons.of_cons h.of_cons.head.2 (out ++ [dollar] ++ [o]) j rfl
              rw [hout, hcount]
              simp
      · rw [if_neg hc, scan_cons_of_ne _ hc]
        obtain ⟨hout, hcount⟩ := ih s.length (by simp) h.of_cons h.head.2 (out ++ [c]) k rfl
        simp only [MacroVars.put, Nat.add_sub_cancel]
        rw [hout, hcount]
        simp

end Loop

/-- **Without quotes and backslashes `process_macros` leaves what `scan` says**, cut to the buffer
and closed by a NUL. -/
theorem processMacros_eq_scan (getenv : List UInt8 → Option (List UInt8)) {cbsize : ℕ}
    (hsize : 0 < cbsize) {input : List UInt8} (h : PlainText input) :
    processMacros cbsize getenv input =
      (scan (fun name => (getenv name).getD []) input).take (cbsize - 1) ++ [0] := by
  have hprev : (0 : UInt8) ≠ backslash := by decide
  have hloop := macroLoop_eq_scan getenv h hprev [] cbsize
  simp only [List.nil_append] at hloop
  rw [processMacros]
  simp only [hloop]
  generalize scan (fun name => (getenv name).getD []) input = text
  by_cases hroom : text.length < cbsize
  · have hall : text.take cbsize = text := List.take_of_length_le (by omega)
    have hall' : text.take (cbsize - 1) = text := List.take_of_length_le (by omega)
    rw [if_pos (by omega), hall, hall']
  · have hlast : min (min cbsize text.length - 1) cbsize = cbsize - 1 := by omega
    rw [if_neg (by omega), List.dropLast_eq_take, List.length_take, List.take_take, hlast]

/-! ## Where the scanner parts from the expander -/

section Compare

variable (pairs : UInt8 → UInt8 → Bool)

theorem reference_of_not_open {o : UInt8} (h : isOpen o = false) (s : List UInt8) :
    reference pairs (o :: s) = none := by
  simp [reference, h]

theorem reference_of_unclosed {o : UInt8} {s : List UInt8}
    (h : s.dropWhile (!isClose ·) = []) : reference pairs (o :: s) = none := by
  rw [reference]
  split <;> simp [h]

theorem reference_of_closed {o b : UInt8} {s rest : List UInt8} (ho : isOpen o = true)
    (h : s.dropWhile (!isClose ·) = b :: rest) :
    reference pairs (o :: s) =
      if pairs o b then some (s.takeWhile (!isClose ·), rest) else none := by
  rw [reference, if_pos ho, h]

theorem exists_of_reference {s name rest : List UInt8}
    (h : reference pairs s = some (name, rest)) :
    ∃ o t b, s = o :: t ∧ isOpen o = true ∧ t.dropWhile (!isClose ·) = b :: rest ∧
      name = t.takeWhile (!isClose ·) := by
  cases s with
  | nil => simp [reference] at h
  | cons o t =>
    rw [reference] at h
    split at h
    case isTrue ho =>
      cases hdrop : t.dropWhile (!isClose ·) with
      | nil => simp [hdrop] at h
      | cons b rest' =>
        rw [hdrop] at h
        simp only at h
        split at h
        · simp only [Option.some.injEq, Prod.mk.injEq] at h
          exact ⟨o, t, b, rfl, ho, h.2 ▸ hdrop, h.1.symm⟩
        · simp at h
    case isFalse => simp at h

theorem scan_eq_expand_of_clean {s : List UInt8} (h : Clean pairs s)
    (value : List UInt8 → List UInt8) : scan value s = expand pairs value s := by
  induction h with
  | nil => simp
  | char hc _ ih => rw [scan_cons_of_ne _ hc, expand_cons_of_ne _ hc, ih]
  | ref href _ ih =>
    obtain ⟨o, t, b, rfl, ho, hdrop, rfl⟩ := exists_of_reference pairs href
    rw [scan_dollar_closed _ ho hdrop, expand_dollar_of_some _ href, ih]
  | @dollar c s ho hc _ ih =>
    rw [scan_dollar_of_not_open _ ho, expand_dollar_of_none _ (reference_of_not_open pairs ho s),
      ih]
    by_cases hdollar : c = dollar
    · rw [hdollar, expand_dollar_of_none _ (hc hdollar)]
    · rw [expand_cons_of_ne _ hdollar]

/-- The environment with one variable, of the value `"Z"`. -/
def zVar (name : VarName) : Vars where
  entries := [(name, .ofString "Z")]
  nodup := by simp

/-- The value of the name in a buffer, empty if it is not defined. -/
def valueText (m : Vars) (name : List UInt8) : List UInt8 :=
  ((m.lookup (Raw.varName (Raw.cstring name))).map CString.bytes).getD []

theorem valueText_zVar (name : List UInt8) :
    valueText (zVar (Raw.varName (Raw.cstring name))) name = [90] := by
  simp [valueText, zVar, OrderedMap.lookup]
  decide

/-- Values of one character at most: with them no line grows. -/
def Short (value : List UInt8 → List UInt8) : Prop := ∀ name, (value name).length ≤ 1

theorem short_empty : Short (valueText OrderedMap.empty) := by
  intro name
  simp [valueText, OrderedMap.empty, OrderedMap.lookup]

theorem short_zVar (v : VarName) : Short (valueText (zVar v)) := by
  intro name
  rw [valueText]
  by_cases h : v = Raw.varName (Raw.cstring name)
  · have hlook : (zVar v).lookup (Raw.varName (Raw.cstring name)) = some (.ofString "Z") := by
      simp [zVar, OrderedMap.lookup, h]
    rw [hlook]
    decide
  · have hlook : (zVar v).lookup (Raw.varName (Raw.cstring name)) = none := by
      simp [zVar, OrderedMap.lookup, h]
    rw [hlook]
    exact Nat.zero_le _

theorem length_scan_le {value : List UInt8 → List UInt8} (hvalue : Short value)
    (s : List UInt8) : (scan value s).length ≤ s.length := by
  induction hlen : s.length using Nat.strong_induction_on generalizing s with
  | _ n ih =>
    subst hlen
    cases s with
    | nil => simp
    | cons c s =>
      by_cases hc : c = dollar
      · subst hc
        cases s with
        | nil => simp
        | cons o s =>
          by_cases ho : isOpen o
          · cases hdrop : s.dropWhile (!isClose ·) with
            | nil => simp [scan_dollar_unclosed value ho hdrop]
            | cons b rest =>
              have hsplit := congrArg List.length
                (List.takeWhile_append_dropWhile (p := (!isClose ·)) (l := s))
              rw [hdrop, List.length_append, List.length_cons] at hsplit
              have hrest := ih rest.length (by simp only [List.length_cons]; omega) rest rfl
              have hname := hvalue (s.takeWhile (!isClose ·))
              rw [scan_dollar_closed value ho hdrop]
              simp only [List.length_append, List.length_cons]
              omega
          · have hrest := ih s.length (by simp only [List.length_cons]; omega) s rfl
            rw [scan_dollar_of_not_open value (by simpa using ho)]
            simpa using hrest
      · have hrest := ih s.length (by simp) s rfl
        rw [scan_cons_of_ne value hc]
        simpa using hrest

theorem length_expand_le {value : List UInt8 → List UInt8} (hvalue : Short value)
    (s : List UInt8) : (expand pairs value s).length ≤ s.length := by
  induction hlen : s.length using Nat.strong_induction_on generalizing s with
  | _ n ih =>
    subst hlen
    cases s with
    | nil => simp
    | cons c s =>
      have hkeep := ih s.length (by simp) s rfl
      by_cases hc : c = dollar
      · subst hc
        cases href : reference pairs s with
        | none =>
          rw [expand_dollar_of_none _ href]
          simpa using hkeep
        | some r =>
          obtain ⟨name, rest⟩ := r
          have hlen := length_of_reference pairs href
          have hrest := ih rest.length (by simp only [List.length_cons]; omega) rest rfl
          have hname := hvalue name
          rw [expand_dollar_of_some _ href]
          simp only [List.length_append, List.length_cons]
          omega
      · rw [expand_cons_of_ne _ hc]
        simpa using hkeep

theorem exists_scan_ne_expand {s : List UInt8} (h : ¬ Clean pairs s) :
    ∃ m : Vars, Short (valueText m) ∧ scan (valueText m) s ≠ expand pairs (valueText m) s := by
  induction hlen : s.length using Nat.strong_induction_on generalizing s with
  | _ n ih =>
    subst hlen
    cases s with
    | nil => exact absurd .nil h
    | cons c s =>
      by_cases hc : c = dollar
      · subst hc
        cases s with
        | nil =>
          -- a `'$'` at the end of the line is dropped
          refine ⟨.empty, short_empty, ?_⟩
          rw [scan_dollar_nil, expand_dollar_of_none _ rfl]
          simp
        | cons o s =>
          by_cases ho : isOpen o
          · cases hdrop : s.dropWhile (!isClose ·) with
            | nil =>
              -- a reference that is not closed is dropped
              refine ⟨.empty, short_empty, ?_⟩
              rw [scan_dollar_unclosed _ ho hdrop,
                expand_dollar_of_none _ (reference_of_unclosed pairs hdrop)]
              simp
            | cons b rest =>
              have href := reference_of_closed pairs ho hdrop
              by_cases hpair : pairs o b
              · rw [if_pos hpair] at href
                have hrest : rest.length < (dollar :: o :: s).length := by
                  have hlen := length_of_reference pairs href
                  simp only [List.length_cons] at hlen ⊢
                  omega
                obtain ⟨m, hm, hne⟩ := ih rest.length hrest (fun hr => h (.ref href hr)) rfl
                refine ⟨m, hm, ?_⟩
                rw [scan_dollar_closed _ ho hdrop, expand_dollar_of_some _ href]
                exact fun heq => hne (List.append_cancel_left heq)
              · -- the expander keeps the `'$'`, the scanner writes the value
                rw [if_neg hpair] at href
                refine ⟨zVar (Raw.varName (Raw.cstring (s.takeWhile (!isClose ·)))),
                  short_zVar _, ?_⟩
                rw [scan_dollar_closed _ ho hdrop, expand_dollar_of_none _ href, valueText_zVar]
                exact fun heq => absurd (List.cons.inj heq).1 (by decide)
          · have ho' : isOpen o = false := by simpa using ho
            have hkeep := reference_of_not_open pairs ho' s
            by_cases hpair : o = dollar ∧ reference pairs s ≠ none
            · -- the second `'$'` starts a reference, and the scanner copies it
              obtain ⟨rfl, hsome⟩ := hpair
              obtain ⟨⟨name, rest⟩, href⟩ := Option.ne_none_iff_exists'.mp hsome
              refine ⟨zVar (Raw.varName (Raw.cstring name)), short_zVar _, ?_⟩
              rw [scan_dollar_of_not_open _ ho', expand_dollar_of_none _ hkeep,
                expand_dollar_of_some _ href, valueText_zVar]
              intro heq
              exact absurd (List.cons.inj (List.cons.inj heq).2).1 (by decide)
            · have hnone : o = dollar → reference pairs s = none := by
                intro hd
                by_contra hs
                exact hpair ⟨hd, hs⟩
              obtain ⟨m, hm, hne⟩ := ih s.length (by simp only [List.length_cons]; omega)
                (fun hr => h (.dollar ho' hnone hr)) rfl
              refine ⟨m, hm, ?_⟩
              rw [scan_dollar_of_not_open _ ho', expand_dollar_of_none _ hkeep]
              by_cases hd : o = dollar
              · rw [hd, expand_dollar_of_none _ (hnone hd)]
                simpa using hne
              · rw [expand_cons_of_ne _ hd]
                simpa using hne
      · obtain ⟨m, hm, hne⟩ := ih s.length (by simp) (fun hr => h (.char hc hr)) rfl
        refine ⟨m, hm, ?_⟩
        rw [scan_cons_of_ne _ hc, expand_cons_of_ne _ hc]
        simpa using hne

end Compare

theorem envRep_encode (m : Vars) : EnvRep (encode m.entries ++ closing m.entries) m :=
  ⟨[], by rw [List.append_nil]⟩

theorem getD_getenvText {data : List UInt8} {m : Vars} (hrep : EnvRep data m) (hdr : ℕ) :
    (fun name => (Raw.getenvText hdr data name).getD []) = valueText m := by
  funext name
  rw [Raw.EnvRep.getenvText hrep, valueText]

/-- **The lines that `process_macros` expands as the reference expander does**, in every
environment: those in which each `'$'`, read from the left, starts a reference, or is followed by
a character that opens no bracket and is no `'$'` that starts one. -/
theorem processMacros_right_iff (pairs : UInt8 → UInt8 → Bool) (hdr : ℕ) {cbsize : ℕ}
    {input : CString} (hlen : input.length < cbsize) (hplain : PlainText input.bytes) :
    (∀ (data : List UInt8) (m : Vars), EnvRep data m →
      let out := processMacros cbsize (Raw.getenvText hdr data) input.bytes
      out.length ≤ cbsize ∧
        out = (expand pairs (valueText m) input.bytes).take (cbsize - 1) ++ [0]) ↔
      Clean pairs input.bytes := by
  have hsize : 0 < cbsize := Nat.zero_lt_of_lt hlen
  constructor
  · intro hright
    by_contra hclean
    obtain ⟨m, hshort, hne⟩ := exists_scan_ne_expand pairs hclean
    have hout := (hright _ m (envRep_encode m)).2
    rw [processMacros_eq_scan _ hsize hplain, getD_getenvText (envRep_encode m)] at hout
    have hscan := length_scan_le hshort input.bytes
    have hexpand := length_expand_le pairs hshort input.bytes
    rw [CString.length] at hlen
    rw [List.take_of_length_le (by omega), List.take_of_length_le (by omega)] at hout
    exact hne (List.append_cancel_right hout)
  · intro hclean data m hrep
    rw [processMacros_eq_scan _ hsize hplain, getD_getenvText hrep,
      scan_eq_expand_of_clean pairs hclean]
    refine ⟨?_, rfl⟩
    rw [List.length_append, List.length_take, List.length_singleton]
    omega

/-- Any two brackets belong together. -/
def anyPair (_ _ : UInt8) : Bool := true

theorem plainText_line : PlainText (CString.ofString "$a${a}").bytes :=
  ⟨by decide, by decide⟩

theorem clean_line : Clean anyPair (CString.ofString "$a${a}").bytes := by
  have hbytes : (CString.ofString "$a${a}").bytes = [36, 97, 36, 123, 97, 125] := by decide
  have href : reference anyPair [123, 97, 125] = some ([97], []) := by decide
  rw [hbytes]
  exact .dollar (by decide) (fun h => absurd h (by decide)) (.ref href .nil)

/-- The line `$a${a}` in the environment `a=xy`. -/
theorem processMacros_right_line :
    let out := processMacros 384 (Raw.getenvText 4 [97, 61, 120, 121, 0, 0])
      (CString.ofString "$a${a}").bytes
    out.length ≤ 384 ∧
      out = (expand anyPair (valueText Raw.oneVar) (CString.ofString "$a${a}").bytes).take 383 ++
        [0] :=
  (processMacros_right_iff anyPair 4 (by decide) plainText_line).mpr clean_line _ _
    Raw.envRep_oneVar

/-- The line `$` is not kept, whichever brackets belong together. -/
theorem not_processMacros_right :
    ¬ ∃ pairs : UInt8 → UInt8 → Bool, ∀ (input : CString) (data : List UInt8) (m : Vars),
      input.length < 384 → PlainText input.bytes → EnvRep data m →
        let out := processMacros 384 (Raw.getenvText 4 data) input.bytes
        out.length ≤ 384 ∧
          out = (expand pairs (valueText m) input.bytes).take 383 ++ [0] := by
  rintro ⟨pairs, h⟩
  have hbytes : (CString.ofString "$").bytes = [dollar] := by decide
  have hout := (h (.ofString "$") [97, 61, 120, 121, 0, 0] Raw.oneVar (by decide)
    ⟨by decide, by decide⟩ Raw.envRep_oneVar).2
  have hempty : processMacros 384 (Raw.getenvText 4 [97, 61, 120, 121, 0, 0]) [dollar] = [0] := by
    decide
  rw [hbytes, hempty, expand_dollar_of_none _ rfl, expand_nil] at hout
  exact absurd hout (by decide)

end Command
end EmevBsp
