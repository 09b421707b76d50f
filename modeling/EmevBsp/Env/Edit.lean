import EmevBsp.Env.Layout
import EmevBsp.Env.Setenv
import Mathlib.Data.List.Chain

/-!
# What the in-place edits do to the array

Each step of `_do_setenv` that writes the array, on an array in which the entries are laid
out: the exact bytes after the step, those behind the closing NUL included, because the check
over the environment covers them.

The loops stop at two NULs in a row, so what they rely on is that the text they pass has
none (`isChain_encode`).
-/

namespace EmevBsp
namespace Env

/-- Not both NUL. -/
abbrev NotBothNul (a b : UInt8) : Prop := a ≠ 0 ∨ b ≠ 0

theorem isChain_text {s : List UInt8} (hs : (0 : UInt8) ∉ s) :
    (s ++ [0]).IsChain NotBothNul := by
  induction s with
  | nil => exact List.isChain_singleton 0
  | cons b s ih =>
    rw [List.mem_cons, not_or] at hs
    rw [List.cons_append]
    refine List.isChain_cons.mpr ⟨fun c _ => Or.inl (Ne.symm hs.1), ih hs.2⟩

theorem isChain_encode (l : List (VarName × CString)) : (encode l).IsChain NotBothNul := by
  induction l with
  | nil => exact List.isChain_nil
  | cons e l ih =>
    rw [encode_cons, List.isChain_append]
    refine ⟨?_, ih, fun a _ b hb => Or.inr ?_⟩
    · rw [entryText_eq_append]
      exact isChain_text (zero_notMem_text e)
    · cases l with
      | nil => simp at hb
      | cons e' l =>
        obtain ⟨c, s, hcs, hc⟩ := exists_entryText_eq_cons e'
        have hbc : c = b := by simpa [hcs] using hb
        exact hbc ▸ hc

theorem exists_encode_eq_append {l : List (VarName × CString)} (hl : l ≠ []) :
    ∃ s, encode l = s ++ [0] ∧ s ≠ [] := by
  obtain ⟨l', e, rfl⟩ := List.eq_nil_or_concat l |>.resolve_left hl
  refine ⟨encode l' ++ (e.1.bytes ++ eqSign :: e.2.bytes), ?_, by simp⟩
  simp [entryText]

/-! ## Removing a definition -/

theorem shiftDown_stop {data data' : List UInt8} {env nxt : ℕ} (hb : data[nxt]? = some 0)
    (hstore : store data env 0 = some data') (hc : data'[nxt + 1]? = some 0) (fuel : ℕ) :
    shiftDown (fuel + 1) data env nxt = some (data', env) := by
  simp [shiftDown, hb, hstore, hc]

theorem shiftDown_next {data data' : List UInt8} {env nxt : ℕ} {b c : UInt8}
    (hb : data[nxt]? = some b) (hstore : store data env b = some data')
    (hc : data'[nxt + 1]? = some c) (hbc : NotBothNul b c) (fuel : ℕ) :
    shiftDown (fuel + 1) data env nxt = shiftDown fuel data' (env + 1) (nxt + 1) := by
  rcases hbc with hb0 | hc0
  · simp [shiftDown, hb, hstore, hb0]
  · simp [shiftDown, hb, hstore, hc, hc0]

/-- **The shift loop.**  `t ++ [0]` moves down over the gap `g`; the bytes from its new end on
stay as they were. -/
theorem shiftDown_append {t : List UInt8} (ht : (t ++ [0]).IsChain NotBothNul)
    (p g rest : List UInt8) (hg : g ≠ []) {fuel : ℕ} (hfuel : t.length < fuel) :
    shiftDown fuel (p ++ (g ++ (t ++ 0 :: 0 :: rest))) p.length (p.length + g.length) =
      some (p ++ (t ++ 0 :: (g ++ (t ++ 0 :: 0 :: rest)).drop (t.length + 1)),
        p.length + t.length) := by
  induction t generalizing p g fuel with
  | nil =>
    obtain ⟨a, g, rfl⟩ := List.exists_cons_of_ne_nil hg
    obtain ⟨fuel, rfl⟩ := Nat.exists_eq_add_one.mpr (Nat.zero_lt_of_lt hfuel)
    have hb : (p ++ (a :: g ++ (0 :: 0 :: rest)))[p.length + (a :: g).length]? = some 0 := by
      rw [← List.append_assoc, ← List.length_append]
      simp
    have hc : (p ++ 0 :: (g ++ 0 :: 0 :: rest))[p.length + (a :: g).length + 1]? = some 0 := by
      have hshape : p ++ 0 :: (g ++ 0 :: 0 :: rest) = (p ++ 0 :: (g ++ [0])) ++ 0 :: rest := by
        simp
      have hlen : p.length + (a :: g).length + 1 = (p ++ 0 :: (g ++ [0])).length := by
        simp
        omega
      rw [hshape, hlen]
      simp
    rw [List.nil_append]
    exact shiftDown_stop hb (store_append p a 0 _) hc fuel
  | cons b t ih =>
    obtain ⟨a, g, rfl⟩ := List.exists_cons_of_ne_nil hg
    obtain ⟨fuel, rfl⟩ := Nat.exists_eq_add_one.mpr (Nat.zero_lt_of_lt hfuel)
    rw [List.cons_append, List.isChain_cons] at ht
    have hb : (p ++ (a :: g ++ (b :: t ++ 0 :: 0 :: rest)))[p.length + (a :: g).length]? =
        some b := by
      rw [← List.append_assoc, ← List.length_append]
      simp
    -- the loop goes on: the byte and the one behind it are not both NUL
    obtain ⟨c, s, hcs⟩ : ∃ c s, t ++ 0 :: 0 :: rest = c :: s := by cases t <;> simp
    have hbc : NotBothNul b c := by
      refine ht.1 c ?_
      cases t <;> simp_all
    have hshape : p ++ b :: (g ++ (b :: t ++ 0 :: 0 :: rest)) =
        (p ++ [b]) ++ ((g ++ [b]) ++ (t ++ 0 :: 0 :: rest)) := by
      simp
    have hlen : p.length + 1 = (p ++ [b]).length := by simp
    have hlen' : p.length + (a :: g).length + 1 = (p ++ [b]).length + (g ++ [b]).length := by
      simp
      omega
    have hc : (p ++ b :: (g ++ (b :: t ++ 0 :: 0 :: rest)))[p.length + (a :: g).length + 1]? =
        some c := by
      rw [hshape, hlen', hcs, ← List.append_assoc, ← List.length_append]
      simp
    have hnext : shiftDown fuel (p ++ b :: (g ++ (b :: t ++ 0 :: 0 :: rest))) (p.length + 1)
        (p.length + (a :: g).length + 1) =
        some ((p ++ [b]) ++ (t ++ 0 :: ((g ++ [b]) ++ (t ++ 0 :: 0 :: rest)).drop (t.length + 1)),
          (p ++ [b]).length + t.length) := by
      rw [hshape, hlen, hlen']
      exact ih ht.2 (p ++ [b]) (g ++ [b]) (by simp) (by simpa using hfuel)
    rw [(shiftDown_next hb (store_append p a b _) hc hbc fuel).trans hnext]
    simp
    omega

theorem foundAt_nxt (l : List (VarName × CString)) (s : VarName) (v : CString) :
    (foundAt l s v).nxt + 1 = (encode l).length + (entryText (s, v)).length := by
  rw [length_entryText]
  simp only [foundAt]
  omega

theorem getElem?_foundAt_nxt (l : List (VarName × CString)) (s : VarName) (v : CString)
    (b : UInt8) (rest : List UInt8) :
    (encode l ++ (entryText (s, v) ++ b :: rest))[(foundAt l s v).nxt + 1]? = some b := by
  rw [foundAt_nxt, ← List.append_assoc, ← List.length_append]
  simp

theorem exists_entryText_eq_cons_cons (e : VarName × CString) :
    ∃ b c t, entryText e = b :: c :: t := by
  have hlen := length_entryText e.1 e.2
  match h : entryText e with
  | [] => simp [h] at hlen
  | [b] => simp [h] at hlen
  | b :: c :: t => exact ⟨b, c, t, rfl⟩

theorem entryText_ne_nil (e : VarName × CString) : entryText e ≠ [] := by
  rw [Ne, ← List.length_eq_zero_iff, length_entryText]
  omega

theorem exists_encode_append_eq_cons {r : List (VarName × CString)} (hr : r ≠ [])
    (rest : List UInt8) : ∃ b t, encode r ++ rest = b :: t ∧ b ≠ 0 := by
  obtain ⟨e, r, rfl⟩ := List.exists_cons_of_ne_nil hr
  obtain ⟨b, t, hbt, hb⟩ := exists_entryText_eq_cons e
  exact ⟨b, t ++ (encode r ++ rest), by simp [hbt], hb⟩

theorem deleteEntry_of_middle (l : List (VarName × CString)) (s : VarName) (v : CString)
    {r : List (VarName × CString)} (hr : r ≠ []) (junk : List UInt8) :
    ∃ junk', deleteEntry (encode l ++ (entryText (s, v) ++ (encode r ++ 0 :: junk)))
      (foundAt l s v) = some (encode l ++ (encode r ++ 0 :: junk')) := by
  obtain ⟨t, ht, hne⟩ := exists_encode_eq_append hr
  have hchain : (t ++ [0]).IsChain NotBothNul := ht ▸ isChain_encode r
  have hshape : encode l ++ (entryText (s, v) ++ (encode r ++ 0 :: junk)) =
      encode l ++ (entryText (s, v) ++ (t ++ 0 :: 0 :: junk)) := by
    simp [ht]
  obtain ⟨b, hb, hb0⟩ : ∃ b : UInt8,
      (encode l ++ (entryText (s, v) ++ (t ++ 0 :: 0 :: junk)))[(foundAt l s v).nxt + 1]? =
        some b ∧ b ≠ 0 := by
    obtain ⟨b, u, hbu, hb⟩ := exists_encode_append_eq_cons hr (0 :: junk)
    refine ⟨b, ?_, hb⟩
    rw [← hshape, hbu]
    exact getElem?_foundAt_nxt l s v b u
  have hshift := shiftDown_append hchain (encode l) (entryText (s, v)) junk
    (entryText_ne_nil (s, v))
    (show t.length < (encode l ++ (entryText (s, v) ++ (t ++ 0 :: 0 :: junk))).length by
      simp; omega)
  obtain ⟨d, junk', hd⟩ : ∃ d junk',
      (entryText (s, v) ++ (t ++ 0 :: 0 :: junk)).drop (t.length + 1) = d :: junk' := by
    refine List.exists_cons_of_ne_nil ?_
    rw [Ne, List.drop_eq_nil_iff]
    simp
    omega
  have hstore : store (encode l ++ (t ++ 0 :: d :: junk')) ((encode l).length + t.length + 1) 0 =
      some (encode l ++ (encode r ++ 0 :: junk')) := by
    have h := store_append (encode l ++ (t ++ [0])) d 0 junk'
    simpa [ht, Nat.add_assoc] using h
  refine ⟨junk', ?_⟩
  have henv : (foundAt l s v).env = (encode l).length := rfl
  rw [hshape, deleteEntry, hb, Option.bind_eq_bind, Option.bind_some, if_neg hb0,
    foundAt_nxt, henv, hshift, hd]
  exact hstore

theorem deleteEntry_of_last {l : List (VarName × CString)} (hl : l ≠ []) (s : VarName)
    (v : CString) (junk : List UInt8) :
    deleteEntry (encode l ++ (entryText (s, v) ++ 0 :: junk)) (foundAt l s v) =
      some (encode l ++ 0 :: ((entryText (s, v)).tail ++ 0 :: junk)) := by
  have hb := getElem?_foundAt_nxt l s v 0 junk
  have hpos : (foundAt l s v).env > 0 := by
    have hle := length_le_length_encode l
    have hlen := List.length_pos_iff.mpr hl
    exact lt_of_lt_of_le hlen hle
  obtain ⟨b, t, hbt, -⟩ := exists_entryText_eq_cons (s, v)
  have henv : (foundAt l s v).env = (encode l).length := rfl
  rw [deleteEntry, hb, Option.bind_eq_bind, Option.bind_some, if_pos rfl, if_pos hpos, henv, hbt,
    List.cons_append, store_append]
  rfl

theorem deleteEntry_of_only (s : VarName) (v : CString) (junk : List UInt8) :
    deleteEntry (entryText (s, v) ++ 0 :: junk) (foundAt [] s v) =
      some (0 :: 0 :: ((entryText (s, v)).tail.tail ++ 0 :: junk)) := by
  have hb : (entryText (s, v) ++ 0 :: junk)[(foundAt [] s v).nxt + 1]? = some 0 :=
    getElem?_foundAt_nxt [] s v 0 junk
  obtain ⟨b, c, t, ht⟩ := exists_entryText_eq_cons_cons (s, v)
  have henv : ¬ (foundAt [] s v).env > 0 := by simp [foundAt]
  rw [deleteEntry, hb, Option.bind_eq_bind, Option.bind_some, if_pos rfl, if_neg henv, ht]
  simp [store]

theorem deleteEntry_of_split (l : List (VarName × CString)) (s : VarName) (v : CString)
    (r : List (VarName × CString)) (junk : List UInt8) :
    ∃ junk', deleteEntry (encode l ++ (entryText (s, v) ++ (encode r ++ 0 :: junk)))
      (foundAt l s v) = some (encode (l ++ r) ++ (closing (l ++ r) ++ junk')) := by
  rcases eq_or_ne r [] with rfl | hr
  · rcases eq_or_ne l [] with rfl | hl
    · exact ⟨(entryText (s, v)).tail.tail ++ 0 :: junk, deleteEntry_of_only s v junk⟩
    · refine ⟨(entryText (s, v)).tail ++ 0 :: junk, ?_⟩
      simpa [closing, hl] using deleteEntry_of_last hl s v junk
  · obtain ⟨junk', h⟩ := deleteEntry_of_middle l s v hr junk
    exact ⟨junk', by simpa [closing, hr] using h⟩

/-! ## Appending a definition -/

theorem findEnd_append {t : List UInt8} (ht : (t ++ [0]).IsChain NotBothNul) (rest : List UInt8)
    (env : ℕ) : findEnd (t ++ 0 :: 0 :: rest) env = some (env + t.length) := by
  induction t generalizing env with
  | nil => simp [findEnd]
  | cons b t ih =>
    rw [List.cons_append, List.isChain_cons] at ht
    obtain ⟨c, s, hcs⟩ : ∃ c s, t ++ 0 :: 0 :: rest = c :: s := by cases t <;> simp
    have hbc : NotBothNul b c := by
      refine ht.1 c ?_
      cases t <;> simp_all
    rw [List.cons_append, hcs, findEnd, if_pos hbc, ← hcs, ih ht.2]
    simp
    omega

theorem findEnd_encode (l : List (VarName × CString)) (junk : List UInt8) :
    ∃ e, findEnd (encode l ++ (closing l ++ junk)) 0 = some e ∧
      (if e > 0 then e + 1 else e) = (encode l).length := by
  rcases eq_or_ne l [] with rfl | hl
  · exact ⟨0, findEnd_append (t := []) (List.isChain_singleton 0) junk 0, rfl⟩
  · obtain ⟨t, ht, hne⟩ := exists_encode_eq_append hl
    refine ⟨t.length, ?_, ?_⟩
    · have h := findEnd_append (ht ▸ isChain_encode l) junk 0
      simpa [ht, closing, hl] using h
    · rw [if_pos (List.length_pos_iff.mpr hne), ht]
      simp

/-- The arguments, joined by single spaces. -/
def joinArgs (v : CString) (vs : List CString) : CString where
  bytes := v.bytes ++ vs.flatMap fun w => 32 :: w.bytes
  noNul := by
    rw [List.mem_append, List.mem_flatMap]
    rintro (h | ⟨w, -, h⟩)
    · exact v.noNul h
    · rcases List.mem_cons.mp h with h | h
      · exact absurd h (by decide)
      · exact w.noNul h

theorem setenvLen_eq (s : VarName) (v : CString) (vs : List CString) :
    setenvLen s.toCString (v :: vs) = (entryText (s, joinArgs v vs)).length + 1 := by
  simp [setenvLen, length_entryText, joinArgs, CString.length]
  omega

theorem writeArgs_cons (p rest : List UInt8) (sep : UInt8) (v : CString) (vs : List CString)
    (h : v.length + 1 ≤ rest.length) :
    writeArgs (p ++ 0 :: rest) p.length sep (v :: vs) =
      writeArgs ((p ++ sep :: v.bytes) ++ 0 :: rest.drop (v.length + 1))
        (p ++ sep :: v.bytes).length 32 vs := by
  have hcopy : strcpy (p ++ sep :: rest) (p.length + 1) v.bytes =
      some ((p ++ sep :: v.bytes) ++ 0 :: rest.drop (v.length + 1)) := by
    have hlen : (rest.take (v.length + 1)).length = v.bytes.length + 1 := by
      rw [List.length_take, min_eq_left h]
      rfl
    have h := strcpy_append v.bytes (p ++ [sep]) _ (rest.drop (v.length + 1)) hlen
    simpa [List.take_append_drop] using h
  have hlen : p.length + 1 + v.length = (p ++ sep :: v.bytes).length := by
    simp [CString.length]
    omega
  rw [writeArgs, store_append, Option.bind_eq_bind, Option.bind_some, hcopy, Option.bind_some,
    hlen]

theorem writeArgs_spaces (p rest : List UInt8) (vs : List CString)
    (h : (vs.flatMap fun w => 32 :: w.bytes).length ≤ rest.length) :
    writeArgs (p ++ 0 :: rest) p.length 32 vs =
      some ((p ++ vs.flatMap fun w => 32 :: w.bytes) ++
          0 :: rest.drop (vs.flatMap fun w => 32 :: w.bytes).length,
        (p ++ vs.flatMap fun w => 32 :: w.bytes).length) := by
  induction vs generalizing p rest with
  | nil => simp [writeArgs]
  | cons v vs ih =>
    rw [List.flatMap_cons, List.length_append, List.length_cons] at h
    have hrest : (vs.flatMap fun w => 32 :: w.bytes).length ≤ (rest.drop (v.length + 1)).length := by
      rw [List.length_drop, CString.length]
      omega
    rw [writeArgs_cons p rest 32 v vs (by rw [CString.length]; omega), ih _ _ hrest]
    simp [CString.length, List.drop_drop]
    omega

/-- **The argument loop.**  It writes `'='` and the joined arguments. -/
theorem writeArgs_joinArgs (p rest : List UInt8) (v : CString) (vs : List CString)
    (h : (joinArgs v vs).length + 1 ≤ rest.length) :
    writeArgs (p ++ 0 :: rest) p.length eqSign (v :: vs) =
      some ((p ++ eqSign :: (joinArgs v vs).bytes) ++
          0 :: rest.drop ((joinArgs v vs).length + 1),
        (p ++ eqSign :: (joinArgs v vs).bytes).length) := by
  have hjoin : (joinArgs v vs).length =
      v.length + (vs.flatMap fun w => 32 :: w.bytes).length := by
    rw [CString.length, joinArgs, List.length_append, CString.length]
  have hspaces := writeArgs_spaces (p ++ eqSign :: v.bytes) (rest.drop (v.length + 1)) vs
    (by rw [List.length_drop]; omega)
  rw [writeArgs_cons p rest eqSign v vs (by omega), hspaces, hjoin, List.drop_drop,
    Nat.add_right_comm v.length 1]
  simp only [joinArgs, List.append_assoc, List.cons_append]

theorem appendEntry_of_le (l : List (VarName × CString)) (s : VarName) (v : CString)
    (vs : List CString) (junk : List UInt8)
    (h : setenvLen s.toCString (v :: vs) ≤ (closing l ++ junk).length) :
    appendEntry (encode l ++ (closing l ++ junk)) s.toCString (v :: vs) =
      some (some (encode l ++ (entryText (s, joinArgs v vs) ++
        0 :: (closing l ++ junk).drop (setenvLen s.toCString (v :: vs))))) := by
  obtain ⟨e, he, henv⟩ := findEnd_encode l junk
  generalize closing l ++ junk = rest at *
  have hfit : ¬ (encode l ++ rest).length < (encode l).length + setenvLen s.toCString (v :: vs) := by
    rw [List.length_append]
    omega
  rw [setenvLen_eq, length_entryText] at h
  have hlen : (rest.take (s.length + 1)).length = s.bytes.length + 1 := by
    rw [List.length_take, CString.length, min_eq_left]
    simp only [CString.length] at h
    omega
  have hname : strcpy (encode l ++ rest) (encode l).length s.bytes =
      some ((encode l ++ s.bytes) ++ 0 :: rest.drop (s.length + 1)) := by
    have h := strcpy_append s.bytes (encode l) _ (rest.drop (s.length + 1)) hlen
    simpa [List.take_append_drop] using h
  have hargs := writeArgs_joinArgs (encode l ++ s.bytes) (rest.drop (s.length + 1)) v vs
    (by rw [List.length_drop]; omega)
  have hpos : (encode l).length + s.length = (encode l ++ s.bytes).length := by
    rw [List.length_append, CString.length]
  -- one byte is left for the second NUL
  obtain ⟨d, junk', hd⟩ : ∃ d junk',
      (rest.drop (s.length + 1)).drop ((joinArgs v vs).length + 1) = d :: junk' := by
    refine List.exists_cons_of_ne_nil ?_
    rw [Ne, List.drop_eq_nil_iff, List.length_drop]
    omega
  have hjunk : rest.drop (setenvLen s.toCString (v :: vs)) = junk' := by
    have h := congrArg List.tail hd
    rw [List.tail_drop, List.drop_drop, List.tail_cons] at h
    rw [setenvLen_eq, length_entryText, ← h]
    congr 1
    omega
  have hstore : store
      ((encode l ++ s.bytes ++ eqSign :: (joinArgs v vs).bytes) ++ 0 :: d :: junk')
      ((encode l ++ s.bytes ++ eqSign :: (joinArgs v vs).bytes).length + 1) 0 =
      some (encode l ++ (entryText (s, joinArgs v vs) ++ 0 :: junk')) := by
    have h := store_append
      ((encode l ++ s.bytes ++ eqSign :: (joinArgs v vs).bytes) ++ [0]) d 0 junk'
    simpa [entryText, Nat.add_assoc] using h
  rw [appendEntry, he, Option.bind_eq_bind, Option.bind_some, henv, if_neg hfit, hname, hpos]
  simp only [Option.bind_eq_bind, Option.bind_some, hargs, hd, hstore, hjunk]
  rfl

theorem appendEntry_of_lt (l : List (VarName × CString)) (s : CString) (vs : List CString)
    (junk : List UInt8) (h : (closing l ++ junk).length < setenvLen s vs) :
    appendEntry (encode l ++ (closing l ++ junk)) s vs = some none := by
  obtain ⟨e, he, henv⟩ := findEnd_encode l junk
  rw [appendEntry, he, Option.bind_eq_bind, Option.bind_some, henv,
    if_pos (by rw [List.length_append]; omega)]
  rfl

end Env
end EmevBsp
