import Mathlib.Data.List.Basic
import Mathlib.Tactic.Common

/-!
# C strings in a byte buffer

A `CString` is the bytes of a C string without its terminator; that none of them is NUL is
part of the type.  A buffer is the list of its bytes.  The operations are the ones C code
does on a buffer through pointers, with an index for the pointer, and return `none` where
the C code would leave the buffer:

* `strlen`: the distance to the first NUL;
* `store`: one byte;
* `strcpy`: a string and its terminator;
* `takeString`: the string a buffer begins with.

The lemmas say what each does to a buffer that is written as a concatenation of the part
before the pointer and the part from it on.
-/

namespace EmevBsp

/-- The bytes of a C string, without the terminator. -/
structure CString where
  bytes : List UInt8
  noNul : (0 : UInt8) ∉ bytes
  deriving DecidableEq

namespace CString

@[ext] theorem ext {s t : CString} (h : s.bytes = t.bytes) : s = t := by
  cases s; cases t; simp_all

/-- `strlen` of the string. -/
def length (s : CString) : ℕ := s.bytes.length

/-- The string of a literal of the source. -/
def ofString (s : String) : CString where
  bytes := (s.toList.map fun c => UInt8.ofNat c.toNat).filter (· ≠ 0)
  noNul := by simp

theorem ne_zero_of_mem {s : CString} {b : UInt8} (h : b ∈ s.bytes) : b ≠ 0 :=
  fun h0 => s.noNul (h0 ▸ h)

end CString

/-! ## Buffers -/

/-- The number of bytes before the first NUL. -/
def strlen : List UInt8 → Option ℕ
  | [] => none
  | b :: buf => if b = 0 then some 0 else (strlen buf).map (· + 1)

/-- Write one byte. -/
def store (buf : List UInt8) (i : ℕ) (b : UInt8) : Option (List UInt8) :=
  if i < buf.length then some (buf.set i b) else none

/-- Write a string and its terminator. -/
def strcpy (buf : List UInt8) (i : ℕ) : List UInt8 → Option (List UInt8)
  | [] => store buf i 0
  | b :: s => do
    let buf ← store buf i b
    strcpy buf (i + 1) s

/-- The bytes before the first NUL. -/
def takeString (buf : List UInt8) : Option (List UInt8) :=
  (strlen buf).map buf.take

theorem strlen_append {s : List UInt8} (hs : (0 : UInt8) ∉ s) (rest : List UInt8) :
    strlen (s ++ 0 :: rest) = some s.length := by
  induction s with
  | nil => rfl
  | cons b s ih =>
    rw [List.mem_cons, not_or] at hs
    rw [List.cons_append, strlen, if_neg (Ne.symm hs.1), ih hs.2]
    rfl

theorem takeString_append {s : List UInt8} (hs : (0 : UInt8) ∉ s) (rest : List UInt8) :
    takeString (s ++ 0 :: rest) = some s := by
  rw [takeString, strlen_append hs, Option.map_some, List.take_left]

@[simp] theorem store_append (p : List UInt8) (a b : UInt8) (q : List UInt8) :
    store (p ++ a :: q) p.length b = some (p ++ b :: q) := by
  simp [store]

theorem length_of_store {buf buf' : List UInt8} {i : ℕ} {b : UInt8}
    (h : store buf i b = some buf') : buf'.length = buf.length := by
  unfold store at h
  split at h
  · rw [← Option.some.inj h, List.length_set]
  · exact absurd h (by simp)

theorem getElem?_store {buf buf' : List UInt8} {i : ℕ} {b : UInt8} (h : store buf i b = some buf')
    (j : ℕ) : buf'[j]? = if j = i then some b else buf[j]? := by
  unfold store at h
  split at h
  case isTrue hlt =>
    rw [← Option.some.inj h, List.getElem?_set, if_pos hlt]
    simp only [eq_comm]
  case isFalse => exact absurd h (by simp)

theorem exists_strcpy {s buf : List UInt8} {i : ℕ} (h : i + s.length < buf.length) :
    ∃ buf', strcpy buf i s = some buf' ∧ buf'.length = buf.length := by
  induction s generalizing buf i with
  | nil => exact ⟨buf.set i 0, if_pos h, List.length_set⟩
  | cons b s ih =>
    rw [List.length_cons] at h
    obtain ⟨buf', hcopy, hlen⟩ := @ih (buf.set i b) (i + 1) (by rw [List.length_set]; omega)
    refine ⟨buf', ?_, hlen.trans List.length_set⟩
    have hstore : store buf i b = some (buf.set i b) := if_pos (by omega)
    rw [strcpy, hstore, Option.bind_eq_bind, Option.bind_some, hcopy]

/-- **What `strcpy` leaves alone**: everything but the string and its terminator. -/
theorem getElem?_strcpy {s buf buf' : List UInt8} {i : ℕ} (h : strcpy buf i s = some buf') (j : ℕ) :
    buf'[j]? = if i ≤ j ∧ j ≤ i + s.length then (s ++ [0])[j - i]? else buf[j]? := by
  induction s generalizing buf i with
  | nil =>
    rw [getElem?_store h, List.length_nil, Nat.add_zero]
    by_cases hji : j = i
    · rw [if_pos hji, if_pos ⟨Nat.le_of_eq hji.symm, Nat.le_of_eq hji⟩, hji, Nat.sub_self]
      rfl
    · rw [if_neg hji, if_neg fun hle => hji (Nat.le_antisymm hle.2 hle.1)]
  | cons b s ih =>
    cases hstore : store buf i b with
    | none =>
      rw [strcpy, hstore] at h
      exact absurd h.symm (Option.some_ne_none buf')
    | some buf₁ =>
      rw [strcpy, hstore, Option.bind_eq_bind, Option.bind_some] at h
      rw [ih h, getElem?_store hstore, List.length_cons]
      by_cases hji : j = i
      · subst hji
        rw [if_neg (by omega), if_pos rfl, if_pos (by omega), Nat.sub_self]
        rfl
      · by_cases hin : i + 1 ≤ j ∧ j ≤ i + 1 + s.length
        · have hsub : j - i = j - (i + 1) + 1 := by omega
          rw [if_pos hin, if_pos (by omega), hsub]
          rfl
        · rw [if_neg hin, if_neg hji, if_neg (by omega)]

/-- **What `strcpy` does.**  The string and its terminator replace as many bytes. -/
theorem strcpy_append (s p old q : List UInt8) (h : old.length = s.length + 1) :
    strcpy (p ++ (old ++ q)) p.length s = some (p ++ (s ++ 0 :: q)) := by
  induction s generalizing p old with
  | nil =>
    obtain ⟨a, rfl⟩ := List.length_eq_one_iff.mp h
    exact store_append p a 0 q
  | cons b s ih =>
    obtain ⟨a, old', rfl⟩ := List.exists_cons_of_length_eq_add_one h
    have hstore : store (p ++ (a :: old' ++ q)) p.length b =
        some ((p ++ [b]) ++ (old' ++ q)) := by
      rw [List.cons_append, store_append, List.append_assoc]
      rfl
    have hold : old'.length = s.length + 1 := by simpa using h
    have hlen : p.length + 1 = (p ++ [b]).length := by simp
    rw [strcpy, hstore, Option.bind_eq_bind, Option.bind_some, hlen, ih _ _ hold]
    simp

end EmevBsp
