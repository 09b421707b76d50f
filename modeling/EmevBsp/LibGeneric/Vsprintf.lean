import EmevBsp.Library.CString
import Mathlib.Algebra.Group.Nat.Defs

/-!
# `lib_generic/vsprintf.c`: `simple_strtoul` and the digits of `sprintf`

The text is the list of bytes from `cp` on; past its end stands the terminator.  The result is
the number, an `unsigned long` of 32 bits, and the text left at `*endp`.
-/

namespace EmevBsp

def isdigit (c : UInt8) : Bool := 48 ≤ c && c ≤ 57

def isxdigit (c : UInt8) : Bool := isdigit c || (65 ≤ c && c ≤ 70) || (97 ≤ c && c ≤ 102)

/-- `isdigit(*cp) ? *cp-'0' : (islower(*cp) ? toupper(*cp) : *cp)-'A'+10`, for a hex digit. -/
def digitValue (c : UInt8) : ℕ :=
  if isdigit c then c.toNat - 48
  else if 97 ≤ c then c.toNat - 32 - 65 + 10
  else c.toNat - 65 + 10

/-- The digit loop. -/
def strtoulDigits (base : ℕ) : ℕ → List UInt8 → ℕ × List UInt8
  | result, [] => (result, [])
  | result, c :: cp =>
    if isxdigit c ∧ digitValue c < base then
      strtoulDigits base ((result * base + digitValue c) % 2 ^ 32) cp
    else (result, c :: cp)

/-- A leading `0` or `0x`: the base it selects and the text behind it. -/
def strtoulPrefix (base : ℕ) : List UInt8 → ℕ × List UInt8
  | 48 :: 120 :: d :: cp =>
    if isxdigit d then (16, d :: cp) else (if base = 0 then 8 else base, 120 :: d :: cp)
  | 48 :: cp => (if base = 0 then 8 else base, cp)
  | cp => (base, cp)

def simpleStrtoul (cp : List UInt8) (base : ℕ) : ℕ × List UInt8 :=
  let (base, cp) := strtoulPrefix base cp
  strtoulDigits (if base = 0 then 10 else base) 0 cp

/-! ## Decimal digits -/

/-- The digit `d`. -/
def decimalDigit (d : ℕ) : UInt8 := UInt8.ofNat (48 + d)

/-- What `sprintf` writes for `%lu` and, of a number that is not negative, for `%d`. -/
def decimal (n : ℕ) : List UInt8 :=
  if n < 10 then [decimalDigit n] else decimal (n / 10) ++ [decimalDigit (n % 10)]

theorem toNat_decimalDigit {d : ℕ} (hd : d < 10) : (decimalDigit d).toNat = 48 + d := by
  rw [decimalDigit, UInt8.toNat_ofNat']
  omega

theorem isdigit_decimalDigit {d : ℕ} (hd : d < 10) : isdigit (decimalDigit d) = true := by
  simp only [isdigit, Bool.and_eq_true, decide_eq_true_eq, UInt8.le_iff_toNat_le,
    toNat_decimalDigit hd]
  constructor
  · show 48 ≤ 48 + d
    omega
  · show 48 + d ≤ 57
    omega

theorem digitValue_decimalDigit {d : ℕ} (hd : d < 10) : digitValue (decimalDigit d) = d := by
  rw [digitValue, if_pos (isdigit_decimalDigit hd), toNat_decimalDigit hd]
  omega

theorem strtoulDigits_decimalDigit {d : ℕ} (hd : d < 10) (result : ℕ) (cp : List UInt8) :
    strtoulDigits 10 result (decimalDigit d :: cp) =
      strtoulDigits 10 ((result * 10 + d) % 2 ^ 32) cp := by
  have hdigit : isxdigit (decimalDigit d) = true ∧ digitValue (decimalDigit d) < 10 := by
    refine ⟨?_, by rw [digitValue_decimalDigit hd]; exact hd⟩
    rw [isxdigit, isdigit_decimalDigit hd]
    rfl
  rw [strtoulDigits, if_pos hdigit, digitValue_decimalDigit hd]

theorem strtoulDigits_decimal (n : ℕ) (hn : n < 2 ^ 32) (cp : List UInt8) :
    strtoulDigits 10 0 (decimal n ++ cp) = strtoulDigits 10 n cp := by
  fun_induction decimal n generalizing cp with
  | case1 n h =>
    rw [List.singleton_append, strtoulDigits_decimalDigit h, Nat.zero_mul, Nat.zero_add,
      Nat.mod_eq_of_lt hn]
  | case2 n h ih =>
    have hdiv : n / 10 < 2 ^ 32 := Nat.lt_of_le_of_lt (Nat.div_le_self n 10) hn
    have hval : n / 10 * 10 + n % 10 = n := Nat.div_add_mod' n 10
    rw [List.append_assoc, ih hdiv, List.singleton_append,
      strtoulDigits_decimalDigit (Nat.mod_lt n (Nat.zero_lt_succ 9)), hval, Nat.mod_eq_of_lt hn]

theorem decimal_eq_cons (n : ℕ) (hn : 0 < n) :
    ∃ c cp, decimal n = c :: cp ∧ c ≠ 48 := by
  fun_induction decimal n with
  | case1 n h =>
    refine ⟨decimalDigit n, [], rfl, fun h48 => ?_⟩
    have htoNat := toNat_decimalDigit h
    rw [h48] at htoNat
    have : (48 : UInt8).toNat = 48 := rfl
    omega
  | case2 n h ih =>
    obtain ⟨c, cp, hdec, hc⟩ := ih (Nat.div_pos (Nat.le_of_not_lt h) (Nat.zero_lt_succ 9))
    exact ⟨c, cp ++ [decimalDigit (n % 10)], by rw [hdec, List.cons_append], hc⟩

theorem isdigit_of_mem_decimal (n : ℕ) {c : UInt8} (hc : c ∈ decimal n) : isdigit c = true := by
  fun_induction decimal n with
  | case1 n h =>
    rw [List.mem_singleton.mp hc]
    exact isdigit_decimalDigit h
  | case2 n h ih =>
    rcases List.mem_append.mp hc with hc | hc
    · exact ih hc
    · rw [List.mem_singleton.mp hc]
      exact isdigit_decimalDigit (Nat.mod_lt n (Nat.zero_lt_succ 9))

theorem strtoulPrefix_of_ne {c : UInt8} (hc : c ≠ 48) (base : ℕ) (cp : List UInt8) :
    strtoulPrefix base (c :: cp) = (base, c :: cp) := by
  unfold strtoulPrefix
  split
  · next heq => exact absurd (List.cons.inj heq).1 hc
  · next heq => exact absurd (List.cons.inj heq).1 hc
  · rfl

theorem simpleStrtoul_decimal {n : ℕ} (hpos : 0 < n) (hn : n < 2 ^ 32) (rest : List UInt8) :
    (simpleStrtoul (decimal n ++ 0 :: rest) 10).1 = n := by
  obtain ⟨c, cp, hdec, hc⟩ := decimal_eq_cons n hpos
  have hprefix : strtoulPrefix 10 (decimal n ++ 0 :: rest) = (10, decimal n ++ 0 :: rest) := by
    rw [hdec, List.cons_append, strtoulPrefix_of_ne hc]
  have hstop : ¬(isxdigit 0 = true ∧ digitValue 0 < 10) := by decide
  rw [simpleStrtoul, hprefix]
  show (strtoulDigits 10 0 (decimal n ++ 0 :: rest)).1 = n
  rw [strtoulDigits_decimal n hn, strtoulDigits, if_neg hstop]

/-! ## Hexadecimal digits -/

/-- The digit `d` of `%X`. -/
def hexDigit (d : ℕ) : UInt8 := if d < 10 then UInt8.ofNat (48 + d) else UInt8.ofNat (55 + d)

/-- What `sprintf` writes for `%X`. -/
def hexUpper (n : ℕ) : List UInt8 :=
  if n < 16 then [hexDigit n] else hexUpper (n / 16) ++ [hexDigit (n % 16)]

/-- The padding of `%0wX`. -/
def zeroPad (w : ℕ) (l : List UInt8) : List UInt8 := List.replicate (w - l.length) 48 ++ l

/-- The last `w` digits. -/
def hexFixed : ℕ → ℕ → List UInt8
  | 0, _ => []
  | w + 1, n => hexFixed w (n / 16) ++ [hexDigit (n % 16)]

theorem hexFixed_zero (w : ℕ) : hexFixed w 0 = List.replicate w 48 := by
  induction w with
  | zero => rfl
  | succ w ih =>
    rw [hexFixed, Nat.zero_div, ih, List.replicate_succ']
    rfl

theorem zeroPad_hexUpper {w n : ℕ} (hw : 0 < w) (hn : n < 16 ^ w) :
    zeroPad w (hexUpper n) = hexFixed w n := by
  induction w generalizing n with
  | zero => exact absurd hw (Nat.lt_irrefl 0)
  | succ w ih =>
    rw [hexUpper, hexFixed]
    split
    · next hsmall =>
      rw [Nat.div_eq_of_lt hsmall, Nat.mod_eq_of_lt hsmall, hexFixed_zero]
      rfl
    · next hlarge =>
      have hpow : n / 16 < 16 ^ w := Nat.div_lt_of_lt_mul (by rwa [Nat.pow_succ'] at hn)
      have hpos : 0 < w := by
        refine Nat.pos_of_ne_zero fun h0 => hlarge ?_
        rw [h0] at hn
        exact hn
      rw [← ih hpos hpow, zeroPad, zeroPad, List.length_append, List.length_singleton,
        Nat.add_sub_add_right, List.append_assoc]

end EmevBsp
