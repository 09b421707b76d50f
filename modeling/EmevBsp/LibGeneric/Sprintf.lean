import EmevBsp.LibGeneric.Vsprintf
import Mathlib.Data.Nat.Digits.Lemmas

/-!
# `lib_generic/vsprintf.c`: `sprintf`

`number` takes the digits of a number from the right, by division, into `tmp`, and writes `tmp`
backwards behind the padding and the sign.  `vsprintf` reads a directive piece by piece, takes its
arguments, and hands a number over with the base that the conversion selects.

An `int`, a `long`, a pointer and a size are words of 32 bits.  With `CONFIG_SYS_64BIT_VSPRINTF`
the variable `num` has 64 bits, and without it 32.
-/

namespace EmevBsp

/-! ## `number` -/

/-- The flags of `number`. -/
structure Flags where
  zeropad : Bool
  sign : Bool
  plus : Bool
  space : Bool
  left : Bool
  special : Bool
  large : Bool

/-- `flags = 0` -/
def Flags.zero : Flags := ⟨false, false, false, false, false, false, false⟩

/-- `digits` -/
def digitChars (large : Bool) : List UInt8 :=
  if large then (CString.ofString "0123456789ABCDEFGHIJKLMNOPQRSTUVWXYZ").bytes
  else (CString.ofString "0123456789abcdefghijklmnopqrstuvwxyz").bytes

/-- A base that `number` takes. -/
abbrev Base := { base : ℕ // 2 ≤ base ∧ base ≤ 36 }

/-- `while (num != 0) tmp[i++] = digits[do_div (num, base)]`, of an unsigned `num`. -/
def putDigits (digits : List UInt8) (base : Base) (num : ℕ) : List UInt8 :=
  if num ≠ 0 then digits.getD (num % base) 0 :: putDigits digits base (num / base) else []
termination_by num
decreasing_by
  next h => exact Nat.div_lt_self (Nat.pos_of_ne_zero h) base.2.1

/-- `while (size-- > 0) *str++ = c`: what is written, and the `size` behind the loop. -/
def fill (size : ℤ) (c : UInt8) : List UInt8 × ℤ :=
  (List.replicate size.toNat c, if 0 ≤ size then -1 else size - 1)

/-- `number`: what is written from `str` on, and `none` for the null pointer. -/
def number {w : ℕ} (num : BitVec w) (base : ℕ) (size precision : ℤ) (type : Flags) :
    Option (List UInt8) :=
  let digits := digitChars type.large
  let type := if type.left then { type with zeropad := false } else type
  if hbase : 2 ≤ base ∧ base ≤ 36 then
    let c := if type.zeropad then '0'.toUInt8 else ' '.toUInt8
    let (sign, num, size) :=
      if type.sign then
        if num.toInt < 0 then (['-'.toUInt8], -num, size - 1)
        else if type.plus then (['+'.toUInt8], num, size - 1)
        else if type.space then ([' '.toUInt8], num, size - 1)
        else ([], num, size)
      else ([], num, size)
    let size :=
      if type.special then if base = 16 then size - 2 else if base = 8 then size - 1 else size
      else size
    -- `do_div` divides without the sign
    let tmp :=
      if num = 0 then ['0'.toUInt8] else putDigits digits ⟨base, hbase⟩ num.toNat
    let precision := if precision < tmp.length then (tmp.length : ℤ) else precision
    let size := size - precision
    let (before, size) :=
      if ¬(type.zeropad ∨ type.left) then fill size ' '.toUInt8 else ([], size)
    let special :=
      if type.special then
        if base = 8 then ['0'.toUInt8]
        else if base = 16 then ['0'.toUInt8, digits.getD 33 0]
        else []
      else []
    let (padding, size) := if ¬type.left then fill size c else ([], size)
    let zeros := List.replicate (precision - tmp.length).toNat '0'.toUInt8
    let (after, _) := fill size ' '.toUInt8
    some (before ++ sign ++ special ++ padding ++ zeros ++ tmp.reverse ++ after)
  else none

/-! ## A directive -/

/-- What stands for an argument of `sprintf`. -/
inductive Arg where
  | word (n : BitVec 32)
  | quad (n : BitVec 64)
  /-- A `char *`; `none` is the null pointer. -/
  | str (s : Option CString)

/-- `va_arg (args, int)` and its like. -/
def vaWord : List Arg → Option (BitVec 32 × List Arg)
  | .word n :: args => some (n, args)
  | _ => none

/-- `va_arg (args, char *)` -/
def vaString : List Arg → Option (Option CString × List Arg)
  | .str s :: args => some (s, args)
  | _ => none

/-- `va_arg (args, unsigned long long)` -/
def vaQuad : List Arg → Option (BitVec 64 × List Arg)
  | .quad n :: args => some (n, args)
  | _ => none

/-- "process flags" -/
def flagsOf (flags : Flags) : List UInt8 → Flags × List UInt8
  | [] => (flags, [])
  | c :: fmt =>
    if c = '-'.toUInt8 then flagsOf { flags with left := true } fmt
    else if c = '+'.toUInt8 then flagsOf { flags with plus := true } fmt
    else if c = ' '.toUInt8 then flagsOf { flags with space := true } fmt
    else if c = '#'.toUInt8 then flagsOf { flags with special := true } fmt
    else if c = '0'.toUInt8 then flagsOf { flags with zeropad := true } fmt
    else (flags, c :: fmt)

def skipAtoi (i : ℤ) : List UInt8 → ℤ × List UInt8
  | [] => (i, [])
  | c :: fmt => if isdigit c then skipAtoi (i * 10 + (c.toNat - 48)) fmt else (i, c :: fmt)

/-- "get field width" -/
def fieldWidthOf (flags : Flags) (args : List Arg) :
    List UInt8 → Option (ℤ × Flags × List Arg × List UInt8)
  | [] => some (-1, flags, args, [])
  | c :: fmt =>
    if isdigit c then
      let (fieldWidth, fmt) := skipAtoi 0 (c :: fmt)
      some (fieldWidth, flags, args, fmt)
    else if c = '*'.toUInt8 then do
      let (n, args) ← vaWord args
      if n.toInt < 0 then some (-n.toInt, { flags with left := true }, args, fmt)
      else some (n.toInt, flags, args, fmt)
    else some (-1, flags, args, c :: fmt)

/-- The precision behind the point. -/
def precisionBehind (args : List Arg) : List UInt8 → Option (ℤ × List Arg × List UInt8)
  | [] => some (-1, args, [])
  | c :: fmt =>
    if isdigit c then
      let (precision, fmt) := skipAtoi 0 (c :: fmt)
      some (precision, args, fmt)
    else if c = '*'.toUInt8 then do
      let (n, args) ← vaWord args
      some (n.toInt, args, fmt)
    else some (-1, args, c :: fmt)

/-- "get the precision" -/
def precisionOf (args : List Arg) : List UInt8 → Option (ℤ × List Arg × List UInt8)
  | [] => some (-1, args, [])
  | c :: fmt =>
    if c = '.'.toUInt8 then do
      let (precision, args, fmt) ← precisionBehind args fmt
      some (if precision < 0 then 0 else precision, args, fmt)
    else some (-1, args, c :: fmt)

/-- "get the conversion qualifier" -/
def qualifierOf : List UInt8 → Option UInt8 × List UInt8
  | [] => (none, [])
  | c :: fmt =>
    if c = 'l'.toUInt8 ∧ fmt.head? = some 'l'.toUInt8 then (some 'q'.toUInt8, fmt.tail)
    else if c ∈ ['h'.toUInt8, 'l'.toUInt8, 'L'.toUInt8, 'Z'.toUInt8, 'z'.toUInt8, 't'.toUInt8,
        'q'.toUInt8] then (some c, fmt)
    else (none, c :: fmt)

/-- What a directive says in front of its conversion. -/
structure Directive where
  flags : Flags
  fieldWidth : ℤ
  precision : ℤ
  qualifier : Option UInt8

/-- The directive behind a `%`, with the arguments and the format that are left. -/
def directiveOf (args : List Arg) (fmt : List UInt8) :
    Option (Directive × List Arg × List UInt8) := do
  let (flags, fmt) := flagsOf .zero fmt
  let (fieldWidth, flags, args, fmt) ← fieldWidthOf flags args fmt
  let (precision, args, fmt) ← precisionOf args fmt
  let (qualifier, fmt) := qualifierOf fmt
  some (⟨flags, fieldWidth, precision, qualifier⟩, args, fmt)

/-! ## A conversion -/

/-- What is written so far, and what `%n` stored. -/
structure Out where
  text : List UInt8
  stored : List ℕ

/-- `*str++` -/
def Out.put (out : Out) (s : List UInt8) : Out := { out with text := out.text ++ s }

/-- A text with spaces on one side of it. -/
def justify (flags : Flags) (spaces : ℤ) (s : List UInt8) : List UInt8 :=
  if flags.left then s ++ (fill spaces ' '.toUInt8).1 else (fill spaces ' '.toUInt8).1 ++ s

/-- The width of `num`. -/
abbrev numBits (sys64 : Bool) : ℕ := if sys64 then 64 else 32

/-- The argument of an integer conversion. -/
def numOf (sys64 : Bool) (qualifier : Option UInt8) (sign : Bool) (args : List Arg) :
    Option (BitVec (numBits sys64) × List Arg) :=
  if sys64 ∧ qualifier = some 'q'.toUInt8 then do
    let (n, args) ← vaQuad args
    some (n.setWidth _, args)
  else do
    let (n, args) ← vaWord args
    if qualifier = some 'l'.toUInt8 then some (n.setWidth _, args)
    else if qualifier = some 'Z'.toUInt8 ∨ qualifier = some 'z'.toUInt8 then
      some (n.setWidth _, args)
    else if qualifier = some 't'.toUInt8 then some (n.signExtend _, args)
    else if qualifier = some 'h'.toUInt8 then
      if sign then some ((n.setWidth 16).signExtend _, args)
      else some ((n.setWidth 16).setWidth _, args)
    else if sign then some (n.signExtend _, args)
    else some (n.setWidth _, args)

/-- "integer number formats": the base, and the flags. -/
def integerFormat (c : UInt8) (flags : Flags) : Option (ℕ × Flags) :=
  if c = 'o'.toUInt8 then some (8, flags)
  else if c = 'X'.toUInt8 then some (16, { flags with large := true })
  else if c = 'x'.toUInt8 then some (16, flags)
  else if c = 'd'.toUInt8 ∨ c = 'i'.toUInt8 then some (10, { flags with sign := true })
  else if c = 'u'.toUInt8 then some (10, flags)
  else none

/-- The characters of a `%s`: `strnlen`, where a precision of -1 is no bound. -/
def stringOf (precision : ℤ) (s : Option CString) : List UInt8 :=
  let s := (s.getD (.ofString "<NULL>")).bytes
  if precision < 0 then s else s.take precision.toNat

/-- The width and the flags of a `%p`. -/
def pointerFormat (d : Directive) : ℤ × Flags :=
  if d.fieldWidth = -1 then (8, { d.flags with zeropad := true }) else (d.fieldWidth, d.flags)

/-- `switch (*fmt)` -/
def convert (sys64 : Bool) (d : Directive) (args : List Arg) (out : Out) :
    List UInt8 → Option (Out × List Arg × List UInt8)
  | [] => some (out.put ['%'.toUInt8], args, [])
  | c :: fmt =>
    if c = 'c'.toUInt8 then do
      let (n, args) ← vaWord args
      some (out.put (justify d.flags (d.fieldWidth - 1) [UInt8.ofBitVec (n.setWidth 8)]), args, fmt)
    else if c = 's'.toUInt8 then do
      let (s, args) ← vaString args
      let s := stringOf d.precision s
      some (out.put (justify d.flags (d.fieldWidth - s.length) s), args, fmt)
    else if c = 'p'.toUInt8 then do
      let (n, args) ← vaWord args
      let (fieldWidth, flags) := pointerFormat d
      let s ← number (n.setWidth (numBits sys64)) 16 fieldWidth d.precision flags
      some (out.put s, args, fmt)
    else if c = 'n'.toUInt8 then do
      let (_, args) ← vaWord args
      some ({ out with stored := out.stored ++ [out.text.length] }, args, fmt)
    else if c = '%'.toUInt8 then some (out.put ['%'.toUInt8], args, fmt)
    else
      match integerFormat c d.flags with
      | some (base, flags) => do
        let (num, args) ← numOf sys64 d.qualifier flags.sign args
        let s ← number num base d.fieldWidth d.precision flags
        some (out.put s, args, fmt)
      | none => some (out.put ['%'.toUInt8, c], args, fmt)

/-- All that a `%` starts. -/
def conversion (sys64 : Bool) (args : List Arg) (out : Out) (fmt : List UInt8) :
    Option (Out × List Arg × List UInt8) := do
  let (d, args, fmt) ← directiveOf args fmt
  convert sys64 d args out fmt

/-! ## The format gets shorter -/

theorem length_flagsOf (flags : Flags) (fmt : List UInt8) :
    (flagsOf flags fmt).2.length ≤ fmt.length := by
  fun_induction flagsOf flags fmt with
  | case1 => exact Nat.le_refl _
  | case2 flags fmt ih | case3 flags fmt _ ih | case4 flags fmt _ _ ih
  | case5 flags fmt _ _ _ ih | case6 flags fmt _ _ _ _ ih => exact Nat.le_succ_of_le ih
  | case7 => exact Nat.le_refl _

theorem length_skipAtoi (i : ℤ) (fmt : List UInt8) :
    (skipAtoi i fmt).2.length ≤ fmt.length := by
  fun_induction skipAtoi i fmt with
  | case1 => exact Nat.le_refl _
  | case2 i c fmt h ih => exact Nat.le_succ_of_le ih
  | case3 => exact Nat.le_refl _

theorem length_fieldWidthOf {flags : Flags} {args : List Arg} {fmt : List UInt8}
    {r : ℤ × Flags × List Arg × List UInt8} (h : fieldWidthOf flags args fmt = some r) :
    r.2.2.2.length ≤ fmt.length := by
  cases fmt with
  | nil =>
    obtain rfl := Option.some.inj h
    exact Nat.le_refl _
  | cons c fmt =>
    rw [fieldWidthOf] at h
    split_ifs at h with hdigit hstar
    · obtain rfl := Option.some.inj h
      exact length_skipAtoi 0 (c :: fmt)
    · obtain ⟨⟨n, args⟩, -, h⟩ := Option.bind_eq_some_iff.mp h
      dsimp only at h
      split_ifs at h <;> obtain rfl := Option.some.inj h <;> exact Nat.le_succ _
    · obtain rfl := Option.some.inj h
      exact Nat.le_refl _

theorem length_precisionBehind {args : List Arg} {fmt : List UInt8}
    {r : ℤ × List Arg × List UInt8} (h : precisionBehind args fmt = some r) :
    r.2.2.length ≤ fmt.length := by
  cases fmt with
  | nil =>
    obtain rfl := Option.some.inj h
    exact Nat.le_refl _
  | cons c fmt =>
    rw [precisionBehind] at h
    split_ifs at h with hdigit hstar
    · obtain rfl := Option.some.inj h
      exact length_skipAtoi 0 (c :: fmt)
    · obtain ⟨⟨n, args⟩, -, h⟩ := Option.bind_eq_some_iff.mp h
      obtain rfl := Option.some.inj h
      exact Nat.le_succ _
    · obtain rfl := Option.some.inj h
      exact Nat.le_refl _

theorem length_precisionOf {args : List Arg} {fmt : List UInt8}
    {r : ℤ × List Arg × List UInt8} (h : precisionOf args fmt = some r) :
    r.2.2.length ≤ fmt.length := by
  cases fmt with
  | nil =>
    obtain rfl := Option.some.inj h
    exact Nat.le_refl _
  | cons c fmt =>
    rw [precisionOf] at h
    split_ifs at h with hpoint
    · obtain ⟨⟨n, args, fmt'⟩, hbehind, h⟩ := Option.bind_eq_some_iff.mp h
      obtain rfl := Option.some.inj h
      have hlen : fmt'.length ≤ fmt.length := length_precisionBehind hbehind
      exact Nat.le_succ_of_le hlen
    · obtain rfl := Option.some.inj h
      exact Nat.le_refl _

theorem length_qualifierOf (fmt : List UInt8) : (qualifierOf fmt).2.length ≤ fmt.length := by
  cases fmt with
  | nil => exact Nat.le_refl _
  | cons c fmt =>
    rw [qualifierOf]
    split_ifs with hquad hone
    · exact Nat.le_succ_of_le (List.length_tail ▸ Nat.sub_le _ _)
    · exact Nat.le_succ _
    · exact Nat.le_refl _

theorem length_directiveOf {args : List Arg} {fmt : List UInt8}
    {r : Directive × List Arg × List UInt8} (h : directiveOf args fmt = some r) :
    r.2.2.length ≤ fmt.length := by
  obtain ⟨⟨width, flags, args₁, fmt₁⟩, hwidth, h⟩ := Option.bind_eq_some_iff.mp h
  obtain ⟨⟨precision, args₂, fmt₂⟩, hprecision, h⟩ := Option.bind_eq_some_iff.mp h
  obtain rfl := Option.some.inj h
  calc (qualifierOf fmt₂).2.length ≤ fmt₂.length := length_qualifierOf fmt₂
    _ ≤ fmt₁.length := length_precisionOf hprecision
    _ ≤ (flagsOf .zero fmt).2.length := length_fieldWidthOf hwidth
    _ ≤ fmt.length := length_flagsOf .zero fmt

theorem length_convert {sys64 : Bool} {d : Directive} {args : List Arg} {out : Out}
    {fmt : List UInt8} {r : Out × List Arg × List UInt8}
    (h : convert sys64 d args out fmt = some r) : r.2.2.length ≤ fmt.length := by
  cases fmt with
  | nil =>
    obtain rfl := Option.some.inj h
    exact Nat.le_refl _
  | cons c fmt =>
    have hrest : r.2.2 = fmt := by
      rw [convert] at h
      split_ifs at h with hchar hstring hpointer hcount hpercent
      · obtain ⟨⟨n, args⟩, -, h⟩ := Option.bind_eq_some_iff.mp h
        obtain rfl := Option.some.inj h
        rfl
      · obtain ⟨⟨s, args⟩, -, h⟩ := Option.bind_eq_some_iff.mp h
        obtain rfl := Option.some.inj h
        rfl
      · obtain ⟨⟨n, args⟩, -, h⟩ := Option.bind_eq_some_iff.mp h
        obtain ⟨s, -, h⟩ := Option.bind_eq_some_iff.mp h
        obtain rfl := Option.some.inj h
        rfl
      · obtain ⟨⟨n, args⟩, -, h⟩ := Option.bind_eq_some_iff.mp h
        obtain rfl := Option.some.inj h
        rfl
      · obtain rfl := Option.some.inj h
        rfl
      · split at h
        · obtain ⟨⟨n, args⟩, -, h⟩ := Option.bind_eq_some_iff.mp h
          obtain ⟨s, -, h⟩ := Option.bind_eq_some_iff.mp h
          obtain rfl := Option.some.inj h
          rfl
        · obtain rfl := Option.some.inj h
          rfl
    rw [hrest]
    exact Nat.le_succ _

theorem length_conversion {sys64 : Bool} {args : List Arg} {out : Out} {fmt : List UInt8}
    {r : Out × List Arg × List UInt8} (h : conversion sys64 args out fmt = some r) :
    r.2.2.length ≤ fmt.length := by
  obtain ⟨⟨d, args₁, fmt₁⟩, hdirective, h⟩ := Option.bind_eq_some_iff.mp h
  exact (length_convert h).trans (length_directiveOf hdirective)

/-! ## `vsprintf` -/

/-- The loop of `vsprintf`; `none` where the arguments are not those of the format. -/
def vsprintf (sys64 : Bool) (args : List Arg) (out : Out) : List UInt8 → Option Out
  | [] => some out
  | c :: fmt =>
    if c ≠ '%'.toUInt8 then vsprintf sys64 args (out.put [c]) fmt
    else
      match _h : conversion sys64 args out fmt with
      | some (out, args, fmt) => vsprintf sys64 args out fmt
      | none => none
termination_by fmt => fmt.length
decreasing_by
  · exact Nat.lt_succ_self _
  · exact Nat.lt_succ_of_le (length_conversion _h)

/-- `sprintf`: the bytes of `buf`, with the terminator. -/
def sprintf (sys64 : Bool) (fmt : CString) (args : List Arg) : Option (List UInt8) :=
  (vsprintf sys64 args ⟨[], []⟩ fmt.bytes).map fun out => out.text ++ [0]

/-! ## What the formatter writes -/

/-- **`tmp` holds the digits of the number**, the last one first. -/
theorem putDigits_eq (digits : List UInt8) (base : Base) (num : ℕ) :
    putDigits digits base num = (Nat.digits base num).map fun d => digits.getD d 0 := by
  fun_induction putDigits digits base num with
  | case1 num h ih =>
    rw [Nat.digits_def' base.2.1 (Nat.pos_of_ne_zero h), List.map_cons, ih]
  | case2 num h => rw [not_not.mp h, Nat.digits_zero, List.map_nil]

/-- The text of a number: its digits, or one zero. -/
def digitText (large : Bool) (base num : ℕ) : List UInt8 :=
  if num = 0 then ['0'.toUInt8]
  else ((Nat.digits base num).map fun d => (digitChars large).getD d 0).reverse

theorem length_digitText_pos (large : Bool) (base num : ℕ) :
    0 < (digitText large base num).length := by
  rw [digitText]
  split_ifs with h
  · exact Nat.one_pos
  · rw [List.length_reverse, List.length_map]
    exact List.length_pos_iff.mpr (Nat.digits_ne_nil_iff_ne_zero.mpr h)

theorem fill_of_neg {size : ℤ} (h : size < 0) (c : UInt8) : fill size c = ([], size - 1) := by
  rw [fill, if_neg (Int.not_le.mpr h), Int.toNat_of_nonpos (Int.le_of_lt h), List.replicate_zero]

theorem number_plain {w : ℕ} (num : BitVec w) (large : Bool) {base : ℕ}
    (hbase : 2 ≤ base ∧ base ≤ 36) :
    number num base (-1) (-1) { Flags.zero with large := large } =
      some (digitText large base num.toNat) := by
  have htmp : (if num = 0 then ['0'.toUInt8]
      else putDigits (digitChars large) ⟨base, hbase⟩ num.toNat).reverse =
        digitText large base num.toNat := by
    rw [digitText]
    by_cases h : num = 0
    · rw [if_pos h, if_pos (by rw [h]; rfl)]
      rfl
    · have hnum : num.toNat ≠ 0 := fun h0 => h (BitVec.eq_of_toNat_eq h0)
      rw [if_neg h, if_neg hnum, putDigits_eq]
  have hlen := congrArg List.length htmp
  rw [List.length_reverse] at hlen
  have hpos := length_digitText_pos large base num.toNat
  rw [← hlen] at hpos
  rw [number, dif_pos hbase, ← htmp]
  simp only [Flags.zero, Bool.false_eq_true, if_false, or_self, not_false_eq_true, if_true]
  generalize (if num = 0 then ['0'.toUInt8]
      else putDigits (digitChars large) ⟨base, hbase⟩ num.toNat) = tmp at hpos ⊢
  have hprecision : (-1 : ℤ) < tmp.length := by omega
  rw [if_pos hprecision, fill_of_neg (by omega), fill_of_neg (by omega)]
  dsimp only
  rw [fill_of_neg (by omega)]
  simp

/-! ## What the parser reads -/

theorem digitChars_spec : ∀ (large : Bool) (d : Fin 16),
    isxdigit ((digitChars large).getD d 0) = true ∧
      digitValue ((digitChars large).getD d 0) = d ∧
      (d.1 ≠ 0 → (digitChars large).getD d 0 ≠ 48) := by
  decide +kernel

theorem strtoulDigits_cons {base d : ℕ} (hbase : base ≤ 16) (hd : d < base) (large : Bool)
    (result : ℕ) (cp : List UInt8) :
    strtoulDigits base result ((digitChars large).getD d 0 :: cp) =
      strtoulDigits base ((result * base + d) % 2 ^ 32) cp := by
  obtain ⟨hxdigit, hvalue, -⟩ := digitChars_spec large ⟨d, hd.trans_le hbase⟩
  dsimp only at hxdigit hvalue
  rw [strtoulDigits, if_pos ⟨hxdigit, hvalue.symm ▸ hd⟩, hvalue]

theorem strtoulDigits_digits {base : ℕ} (hbase : 2 ≤ base ∧ base ≤ 16) (large : Bool)
    (num : ℕ) (hnum : num < 2 ^ 32) (cp : List UInt8) :
    strtoulDigits base 0
      (((Nat.digits base num).map fun d => (digitChars large).getD d 0).reverse ++ cp) =
        strtoulDigits base num cp := by
  induction num using Nat.strong_induction_on generalizing cp with
  | h num ih =>
    by_cases h0 : num = 0
    · rw [h0, Nat.digits_zero, List.map_nil, List.reverse_nil, List.nil_append]
    · have hdiv : num / base < num := Nat.div_lt_self (Nat.pos_of_ne_zero h0) hbase.1
      have hmod : num % base < base := Nat.mod_lt _ (Nat.zero_lt_of_lt hbase.1)
      rw [Nat.digits_def' hbase.1 (Nat.pos_of_ne_zero h0), List.map_cons, List.reverse_cons,
        List.append_assoc, ih _ hdiv (hdiv.trans hnum), List.singleton_append,
        strtoulDigits_cons hbase.2 hmod, Nat.div_add_mod', Nat.mod_eq_of_lt hnum]

theorem strtoulPrefix_digitText {base num : ℕ} (hbase : 2 ≤ base ∧ base ≤ 16) (hnum : num ≠ 0)
    (large : Bool) (cp : List UInt8) :
    strtoulPrefix base (digitText large base num ++ cp) =
      (base, digitText large base num ++ cp) := by
  have hne : Nat.digits base num ≠ [] := Nat.digits_ne_nil_iff_ne_zero.mpr hnum
  obtain ⟨front, hfront⟩ : ∃ front, Nat.digits base num =
      front ++ [(Nat.digits base num).getLast hne] :=
    ⟨_, (List.dropLast_append_getLast hne).symm⟩
  have hlast := Nat.getLast_digit_ne_zero base hnum
  have hlt : (Nat.digits base num).getLast hne < base :=
    Nat.digits_lt_base hbase.1 (List.getLast_mem hne)
  obtain ⟨-, -, hzero⟩ := digitChars_spec large ⟨_, hlt.trans_le hbase.2⟩
  rw [digitText, if_neg hnum, hfront, List.map_append, List.map_singleton,
    List.reverse_append, List.reverse_singleton, List.singleton_append, List.cons_append]
  exact strtoulPrefix_of_ne (hzero hlast) base _

theorem simpleStrtoul_digitText {base num : ℕ} (hbase : 2 ≤ base ∧ base ≤ 16)
    (hnum : num < 2 ^ 32) (large : Bool) (rest : List UInt8) :
    simpleStrtoul (digitText large base num ++ 0 :: rest) base = (num, 0 :: rest) := by
  have hbase0 : base ≠ 0 := Nat.ne_zero_of_lt hbase.1
  have hstop : ∀ result, strtoulDigits base result (0 :: rest) = (result, 0 :: rest) := by
    intro result
    rw [strtoulDigits, if_neg fun h => absurd h.1 (by decide)]
  by_cases h0 : num = 0
  · have hprefix : strtoulPrefix base (digitText large base num ++ 0 :: rest) =
        (base, 0 :: rest) := by
      rw [digitText, if_pos h0]
      show (if base = 0 then 8 else base, 0 :: rest) = _
      rw [if_neg hbase0]
    rw [simpleStrtoul, hprefix]
    dsimp only
    rw [if_neg hbase0, hstop, h0]
  · rw [simpleStrtoul, strtoulPrefix_digitText hbase h0]
    dsimp only
    rw [if_neg hbase0, digitText, if_neg h0, strtoulDigits_digits hbase large num hnum, hstop]

/-! ## There and back -/

/-- The conversions of an `unsigned long`. -/
inductive LongConversion where
  | lX
  | lx
  | lu
  | lo

/-- The format. -/
def LongConversion.fmt : LongConversion → CString
  | lX => .ofString "%lX"
  | lx => .ofString "%lx"
  | lu => .ofString "%lu"
  | lo => .ofString "%lo"

/-- The base that the text is read with. -/
def LongConversion.base : LongConversion → ℕ
  | lX | lx => 16
  | lu => 10
  | lo => 8

/-- Whether the letters of the text are capitals. -/
def LongConversion.large : LongConversion → Bool
  | lX => true
  | _ => false

theorem LongConversion.base_mem (conv : LongConversion) : 2 ≤ conv.base ∧ conv.base ≤ 16 := by
  cases conv <;> decide

theorem sprintf_eq (sys64 : Bool) (conv : LongConversion) (n : BitVec 32) :
    sprintf sys64 conv.fmt [.word n] =
      some (digitText conv.large conv.base n.toNat ++ [0]) := by
  have hconvert : conversion sys64 [.word n] ⟨[], []⟩ conv.fmt.bytes.tail =
      (number (n.setWidth (numBits sys64)) conv.base (-1) (-1)
        { Flags.zero with large := conv.large }).bind fun s => some (⟨s, []⟩, [], []) := by
    cases conv <;> cases sys64 <;> rfl
  have hwidth : (n.setWidth (numBits sys64)).toNat = n.toNat := by
    cases sys64 <;> exact BitVec.toNat_setWidth_of_le (by decide)
  have hfmt : conv.fmt.bytes = '%'.toUInt8 :: conv.fmt.bytes.tail := by
    cases conv <;> rfl
  have hbase : 2 ≤ conv.base ∧ conv.base ≤ 36 :=
    ⟨conv.base_mem.1, conv.base_mem.2.trans (by decide)⟩
  rw [number_plain _ _ hbase, hwidth] at hconvert
  rw [sprintf, hfmt, vsprintf, if_neg (fun h => h rfl)]
  split
  · next heq =>
    obtain ⟨rfl, rfl, rfl⟩ := Prod.mk.inj (Option.some.inj (heq.symm.trans hconvert))
    rw [vsprintf]
    rfl
  · next heq => exact absurd (heq.symm.trans hconvert) nofun

/-- **What `sprintf` writes is read back**, and the parser stops at the terminator. -/
theorem sprintf_strtoul (sys64 : Bool) (conv : LongConversion) (n : BitVec 32)
    (rest : List UInt8) :
    ∃ buf, sprintf sys64 conv.fmt [.word n] = some buf ∧
      simpleStrtoul (buf ++ rest) conv.base = (n.toNat, 0 :: rest) := by
  refine ⟨_, sprintf_eq sys64 conv n, ?_⟩
  rw [List.append_assoc]
  exact simpleStrtoul_digitText conv.base_mem n.isLt conv.large rest

end EmevBsp
