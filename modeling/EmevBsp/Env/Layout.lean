import EmevBsp.Env.Image
import EmevBsp.Library.OrderedMap

/-!
# What a well-formed environment stands for

The purpose of the byte array is an ordered finite map from names to values.  A name is a C
string without `'='` (`VarName`), and an array represents a map (`EnvRep`) when it starts with
the entries of the map, in their order, closed by a second NUL; what stands behind the closing
NUL is free.  Names are distinct because the keys of an `OrderedMap` are.

The empty environment is the one exception in the layout: it has no entry whose terminator
could be the first of the two NULs, so it needs both.
-/

namespace EmevBsp
namespace Env

/-- The name of a variable: the text before the first `'='` of its entry. -/
structure VarName extends CString where
  noEq : eqSign ∉ bytes
  deriving DecidableEq

theorem VarName.toCString_injective : Function.Injective VarName.toCString := by
  intro a b h
  cases a
  cases b
  simp_all

/-- The variables of an environment, in the order of their entries. -/
abbrev Vars := OrderedMap VarName CString

/-! ## The text of the entries -/

/-- `name=value` and its terminator. -/
def entryText (e : VarName × CString) : List UInt8 :=
  e.1.bytes ++ eqSign :: (e.2.bytes ++ [0])

/-- The entries, one behind the other. -/
def encode (l : List (VarName × CString)) : List UInt8 := l.flatMap entryText

/-- What ends the list of entries. -/
def closing (l : List (VarName × CString)) : List UInt8 := if l = [] then [0, 0] else [0]

/-- The array starts with the entries of the map and what ends them. -/
def EnvRep (data : List UInt8) (m : Vars) : Prop :=
  ∃ junk, data = encode m.entries ++ (closing m.entries ++ junk)

/-- The bytes the entries of a map take, without the closing NUL. -/
def Vars.size (m : Vars) : ℕ := (encode m.entries).length

@[simp] theorem encode_nil : encode [] = [] := rfl

@[simp] theorem encode_cons (e : VarName × CString) (l : List (VarName × CString)) :
    encode (e :: l) = entryText e ++ encode l := rfl

@[simp] theorem encode_append (l r : List (VarName × CString)) :
    encode (l ++ r) = encode l ++ encode r :=
  List.flatMap_append

theorem length_entryText (n : VarName) (v : CString) :
    (entryText (n, v)).length = n.length + v.length + 2 := by
  simp [entryText, CString.length]
  omega

theorem length_le_length_encode (l : List (VarName × CString)) :
    l.length ≤ (encode l).length := by
  induction l with
  | nil => simp
  | cons e l ih =>
    rw [encode_cons, List.length_append, length_entryText, List.length_cons]
    omega

theorem exists_entryText_eq_cons (e : VarName × CString) :
    ∃ b s, entryText e = b :: s ∧ b ≠ 0 := by
  obtain ⟨n, v⟩ := e
  cases h : n.bytes with
  | nil => exact ⟨eqSign, v.bytes ++ [0], by simp [entryText, h], by decide⟩
  | cons b s =>
    refine ⟨b, s ++ eqSign :: (v.bytes ++ [0]), by simp [entryText, h], ?_⟩
    exact CString.ne_zero_of_mem (s := n.toCString) (by simp [h])

theorem entryText_eq_append (e : VarName × CString) :
    entryText e = (e.1.bytes ++ eqSign :: e.2.bytes) ++ [0] := by
  simp [entryText]

theorem zero_notMem_text (e : VarName × CString) :
    (0 : UInt8) ∉ e.1.bytes ++ eqSign :: e.2.bytes := by
  rw [List.mem_append, List.mem_cons]
  rintro (h | h | h)
  · exact e.1.noNul h
  · exact absurd h (by decide)
  · exact e.2.noNul h

/-! ## An array represents one map -/

theorem append_cons_inj {α : Type*} {a : α} {s s' r r' : List α} (hs : a ∉ s) (hs' : a ∉ s')
    (h : s ++ a :: r = s' ++ a :: r') : s = s' ∧ r = r' := by
  induction s generalizing s' with
  | nil =>
    cases s' with
    | nil => simpa using h
    | cons b s' =>
      simp only [List.cons_append, List.nil_append, List.cons.injEq] at h
      exact absurd (h.1 ▸ List.mem_cons_self) hs'
  | cons b s ih =>
    cases s' with
    | nil =>
      simp only [List.cons_append, List.nil_append, List.cons.injEq] at h
      exact absurd (h.1 ▸ List.mem_cons_self) hs
    | cons b' s' =>
      rw [List.mem_cons, not_or] at hs hs'
      simp only [List.cons_append, List.cons.injEq] at h
      obtain ⟨rfl, rfl⟩ := ih hs.2 hs'.2 h.2
      exact ⟨by rw [h.1], rfl⟩

theorem entryText_inj {e e' : VarName × CString} {r r' : List UInt8}
    (h : entryText e ++ r = entryText e' ++ r') : e = e' ∧ r = r' := by
  have hnul : (e.1.bytes ++ eqSign :: e.2.bytes) ++ 0 :: r =
      (e'.1.bytes ++ eqSign :: e'.2.bytes) ++ 0 :: r' := by
    simpa [entryText] using h
  have htext := append_cons_inj (zero_notMem_text e) (zero_notMem_text e') hnul
  obtain ⟨hname, hval⟩ := append_cons_inj e.1.noEq e'.1.noEq htext.1
  refine ⟨Prod.ext ?_ (CString.ext hval), htext.2⟩
  exact VarName.toCString_injective (CString.ext hname)

theorem encode_inj {l l' : List (VarName × CString)} {j j' : List UInt8}
    (h : encode l ++ 0 :: j = encode l' ++ 0 :: j') : l = l' := by
  induction l generalizing l' with
  | nil =>
    cases l' with
    | nil => rfl
    | cons e' l' =>
      obtain ⟨b, s, hbs, hb⟩ := exists_entryText_eq_cons e'
      simp [hbs] at h
      exact absurd h.1.symm hb
  | cons e l ih =>
    cases l' with
    | nil =>
      obtain ⟨b, s, hbs, hb⟩ := exists_entryText_eq_cons e
      simp [hbs] at h
      exact absurd h.1 hb
    | cons e' l' =>
      rw [encode_cons, encode_cons, List.append_assoc, List.append_assoc] at h
      obtain ⟨rfl, hrest⟩ := entryText_inj h
      rw [ih hrest]

theorem exists_closing_append (l : List (VarName × CString)) (junk : List UInt8) :
    ∃ j, closing l ++ junk = 0 :: j := by
  unfold closing
  split <;> exact ⟨_, rfl⟩

theorem EnvRep.unique {data : List UInt8} {m m' : Vars} (h : EnvRep data m)
    (h' : EnvRep data m') : m = m' := by
  obtain ⟨junk, rfl⟩ := h
  obtain ⟨junk', h'⟩ := h'
  obtain ⟨j, hj⟩ := exists_closing_append m.entries junk
  obtain ⟨j', hj'⟩ := exists_closing_append m'.entries junk'
  rw [hj, hj'] at h'
  exact OrderedMap.ext (encode_inj h')

/-! ## The walk over the entries -/

theorem envmatch_entry_self (n : VarName) (rest : List UInt8) (i : ℕ) :
    envmatch n.bytes (n.bytes ++ eqSign :: rest) i = some (some (i + n.length + 1)) := by
  suffices h : ∀ s : List UInt8, eqSign ∉ s → ∀ i,
      envmatch s (s ++ eqSign :: rest) i = some (some (i + s.length + 1)) from h _ n.noEq i
  intro s
  induction s with
  | nil =>
    intro _ i
    rw [List.nil_append, envmatch, if_neg (by decide), if_pos rfl]
    rfl
  | cons b s ih =>
    intro hs i
    rw [List.mem_cons, not_or] at hs
    rw [List.cons_append, envmatch, if_pos rfl, if_neg (Ne.symm hs.1), ih hs.2]
    simp
    omega

theorem envmatch_entry_of_ne {s n : VarName} (hne : s ≠ n) (rest : List UInt8) (i : ℕ) :
    envmatch s.bytes (n.bytes ++ eqSign :: rest) i = some none := by
  suffices h : ∀ s n : List UInt8, eqSign ∉ s → eqSign ∉ n → 0 ∉ n → s ≠ n → ∀ i,
      envmatch s (n ++ eqSign :: rest) i = some none by
    refine h _ _ s.noEq n.noEq n.noNul (fun hsn => hne ?_) i
    exact VarName.toCString_injective (CString.ext hsn)
  intro s
  induction s with
  | nil =>
    rintro n - hn h0 hne i
    cases n with
    | nil => exact absurd rfl hne
    | cons c n =>
      rw [List.mem_cons, not_or] at hn h0
      rw [List.cons_append, envmatch, if_neg (Ne.symm h0.1), if_neg (Ne.symm hn.1)]
  | cons b s ih =>
    intro n hs hn h0 hne i
    rw [List.mem_cons, not_or] at hs
    cases n with
    | nil => rw [List.nil_append, envmatch, if_neg (Ne.symm hs.1)]
    | cons c n =>
      rw [List.mem_cons, not_or] at hn h0
      rw [List.cons_append, envmatch]
      by_cases hbc : b = c
      · rw [if_pos hbc, if_neg (Ne.symm hs.1)]
        exact ih n hs.2 hn.2 h0.2 (fun h => hne (by rw [hbc, h])) (i + 1)
      · rw [if_neg hbc]

theorem strlen_entryText (e : VarName × CString) (rest : List UInt8) :
    strlen (entryText e ++ rest) = some (e.1.length + e.2.length + 1) := by
  rw [entryText_eq_append, List.append_assoc, List.singleton_append,
    strlen_append (zero_notMem_text e)]
  simp [CString.length]
  omega

theorem findEntry_entry_of_ne {s : VarName} {e : VarName × CString} (hne : e.1 ≠ s)
    (pre rest : List UInt8) (fuel : ℕ) :
    findEntry s.bytes (pre ++ (entryText e ++ rest)) (fuel + 1) pre.length =
      findEntry s.bytes (pre ++ (entryText e ++ rest)) fuel (pre ++ entryText e).length := by
  obtain ⟨b, t, hbt, hb⟩ := exists_entryText_eq_cons e
  have hget : (pre ++ (entryText e ++ rest))[pre.length]? = some b := by simp [hbt]
  have hdrop : (pre ++ (entryText e ++ rest)).drop pre.length = entryText e ++ rest := by simp
  have hmatch : envmatch s.bytes (entryText e ++ rest) pre.length = some none := by
    rw [entryText, List.append_assoc]
    exact envmatch_entry_of_ne (Ne.symm hne) _ _
  have hlen : pre.length + (e.1.length + e.2.length + 1) + 1 = (pre ++ entryText e).length := by
    rw [List.length_append, length_entryText]
    omega
  rw [findEntry, hget, hdrop, strlen_entryText]
  simp [hb, hmatch, hlen]

theorem findEntry_encode {s : VarName} (l : List (VarName × CString))
    (hl : ∀ e ∈ l, e.1 ≠ s) (pre rest : List UInt8) (fuel : ℕ) :
    findEntry s.bytes (pre ++ (encode l ++ rest)) (fuel + l.length) pre.length =
      findEntry s.bytes (pre ++ (encode l ++ rest)) fuel (pre ++ encode l).length := by
  induction l generalizing pre with
  | nil => simp
  | cons e l ih =>
    have he := findEntry_entry_of_ne (hl e List.mem_cons_self) pre (encode l ++ rest)
      (fuel + l.length)
    have hrest := ih (fun e' he' => hl e' (List.mem_cons_of_mem e he')) (pre ++ entryText e)
    rw [encode_cons, List.length_cons, List.append_assoc, ← Nat.add_assoc, he]
    simpa only [List.append_assoc] using hrest

theorem findEntry_of_lookup_eq_none {data : List UInt8} {m : Vars} (hrep : EnvRep data m)
    {s : VarName} (hs : m.lookup s = none) :
    findEntry s.bytes data (data.length + 1) 0 = some none := by
  obtain ⟨junk, rfl⟩ := hrep
  obtain ⟨j, hj⟩ := exists_closing_append m.entries junk
  rw [hj]
  have hlen := length_le_length_encode m.entries
  obtain ⟨fuel, hfuel⟩ : ∃ fuel, (encode m.entries ++ 0 :: j).length + 1 =
      fuel + 1 + m.entries.length :=
    ⟨(encode m.entries ++ 0 :: j).length - m.entries.length, by simp; omega⟩
  have hwalk := findEntry_encode m.entries (OrderedMap.ne_of_lookup_eq_none hs) [] (0 :: j)
    (fuel + 1)
  rw [List.nil_append, List.length_nil] at hwalk
  rw [hfuel, hwalk, findEntry]
  simp

/-- The place of an entry behind the entries `l`. -/
def foundAt (l : List (VarName × CString)) (s : VarName) (v : CString) : Found where
  env := (encode l).length
  nxt := (encode l).length + (s.length + v.length + 1)
  oldval := (encode l).length + s.length + 1

theorem findEntry_of_split {l : List (VarName × CString)} {s : VarName} {v : CString}
    (hl : ∀ e ∈ l, e.1 ≠ s) (rest : List UInt8) (fuel : ℕ) :
    findEntry s.bytes (encode l ++ (entryText (s, v) ++ rest)) (fuel + 1 + l.length) 0 =
      some (some (foundAt l s v)) := by
  have hwalk := findEntry_encode l hl [] (entryText (s, v) ++ rest) (fuel + 1)
  rw [List.nil_append, List.length_nil] at hwalk
  obtain ⟨b, t, hbt, hb⟩ := exists_entryText_eq_cons (s, v)
  have hget : (encode l ++ (entryText (s, v) ++ rest))[(encode l).length]? = some b := by
    simp [hbt]
  have hdrop : (encode l ++ (entryText (s, v) ++ rest)).drop (encode l).length =
      entryText (s, v) ++ rest := by simp
  have hmatch : envmatch s.bytes (entryText (s, v) ++ rest) (encode l).length =
      some (some ((encode l).length + s.length + 1)) := by
    rw [entryText, List.append_assoc]
    exact envmatch_entry_self s _ _
  rw [hwalk, List.nil_append, findEntry, hget, hdrop, strlen_entryText]
  simp [hb, hmatch, foundAt]

theorem EnvRep.findEntry_eq {data : List UInt8} {m : Vars} (hrep : EnvRep data m)
    {l r : List (VarName × CString)} {s : VarName} {v : CString}
    (h : m.entries = l ++ (s, v) :: r) :
    findEntry s.bytes data (data.length + 1) 0 = some (some (foundAt l s v)) := by
  obtain ⟨junk, rfl⟩ := hrep
  have hlen := length_le_length_encode l
  rw [h]
  have hshape : encode (l ++ (s, v) :: r) ++ (closing (l ++ (s, v) :: r) ++ junk) =
      encode l ++ (entryText (s, v) ++ (encode r ++ (closing (l ++ (s, v) :: r) ++ junk))) := by
    simp
  rw [hshape]
  obtain ⟨fuel, hfuel⟩ : ∃ fuel,
      (encode l ++ (entryText (s, v) ++
        (encode r ++ (closing (l ++ (s, v) :: r) ++ junk)))).length + 1 =
      fuel + 1 + l.length :=
    ⟨(encode l ++ (entryText (s, v) ++
      (encode r ++ (closing (l ++ (s, v) :: r) ++ junk)))).length - l.length, by
        simp only [List.length_append]; omega⟩
  rw [hfuel]
  exact findEntry_of_split (OrderedMap.mem_keys_of_split h).1 _ fuel

theorem stringAt_append (p : List UInt8) {s : List UInt8} (hs : (0 : UInt8) ∉ s)
    (rest : List UInt8) : stringAt (p ++ (s ++ 0 :: rest)) p.length = some s := by
  rw [stringAt, List.drop_left, strlen_append hs]
  simp

theorem EnvRep.stringAt_oldval {data : List UInt8} {m : Vars} (hrep : EnvRep data m)
    {l r : List (VarName × CString)} {s : VarName} {v : CString}
    (h : m.entries = l ++ (s, v) :: r) :
    stringAt data (foundAt l s v).oldval = some v.bytes := by
  obtain ⟨junk, rfl⟩ := hrep
  have hshape : encode m.entries ++ (closing m.entries ++ junk) =
      (encode l ++ (s.bytes ++ [eqSign])) ++
        (v.bytes ++ 0 :: (encode r ++ (closing m.entries ++ junk))) := by
    rw [h]
    simp [entryText]
  have hlen : (foundAt l s v).oldval = (encode l ++ (s.bytes ++ [eqSign])).length := by
    simp [foundAt, CString.length]
    omega
  rw [hshape, hlen]
  exact stringAt_append _ v.noNul _

/-- **`getenv` is the lookup of the map.** -/
theorem EnvRep.getenv {e : EnvT} {m : Vars} (hrep : EnvRep e.data m) (s : VarName) :
    getenv e s.bytes = some ((m.lookup s).map CString.bytes) := by
  rw [Env.getenv]
  cases hs : m.lookup s with
  | none =>
    rw [findEntry_of_lookup_eq_none hrep hs]
    rfl
  | some v =>
    obtain ⟨l, r, hsplit⟩ := OrderedMap.exists_split_of_lookup hs
    rw [hrep.findEntry_eq hsplit, Option.bind_eq_bind, Option.bind_some]
    simp [hrep.stringAt_oldval hsplit]

end Env
end EmevBsp
