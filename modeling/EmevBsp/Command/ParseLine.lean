import EmevBsp.Library.Words

/-!
# `common/main.c`: `parse_line`

A command line is cut into its words in place: each word gets a terminator and an entry of
`argv`, and the entry behind the last one is cleared.  The text is the list of the bytes from
`line` on; past its end stands the terminator.

The loop has two exits.  Where the text ends the entry behind the last word is cleared; where
`CONFIG_SYS_MAXARGS` words were found and the text goes on it is left as it was, and the caller is
told the same number of words as for a line that ends there.
-/

namespace EmevBsp
namespace Command

open Words

/-- A space or a tab. -/
def isBlank (c : UInt8) : Bool := c == 32 || c == 9

/-- The array `argv`: the text an entry points to, `none` for NULL. -/
abbrev Argv := ℕ → Option (List UInt8)

/-- The loop of `parse_line`, which may find `left` words more. -/
def parseLineFrom : ℕ → ℕ → List UInt8 → Argv → ℕ × Argv
  -- Too many args
  | 0, nargs, _, argv => (nargs, argv)
  | left + 1, nargs, line, argv =>
    -- skip any white space
    let line := line.dropWhile isBlank
    -- end of line, no more args
    if line = [] then (nargs, Function.update argv nargs none)
    else
      let argv := Function.update argv nargs (some (line.takeWhile fun c => !isBlank c))
      -- find end of string
      let line := line.dropWhile fun c => !isBlank c
      if line = [] then (nargs + 1, Function.update argv (nargs + 1) none)
      -- terminate current arg
      else parseLineFrom left (nargs + 1) line.tail argv

/-- `parse_line`; `maxargs` is `CONFIG_SYS_MAXARGS`. -/
def parseLine (maxargs : ℕ) (line : List UInt8) (argv : Argv) : ℕ × Argv :=
  parseLineFrom maxargs 0 line argv

/-! ## What the loop leaves -/

/-- The line ends in a blank. -/
def EndsInBlank (line : List UInt8) : Prop :=
  ∃ front c, isBlank c = true ∧ line = front ++ [c]

/-- The loop comes to the end of the line: there are fewer words than it may find, or as many
and no blank behind the last one. -/
def Closes (left : ℕ) (line : List UInt8) : Prop :=
  (words isBlank line).length < left ∨
    (words isBlank line).length = left ∧ 0 < left ∧ ¬ EndsInBlank line

theorem endsInBlank_append_iff (l r : List UInt8) (hr : r ≠ []) :
    EndsInBlank (l ++ r) ↔ EndsInBlank r := by
  constructor
  · rintro ⟨front, c, hc, heq⟩
    obtain ⟨r', d, rfl⟩ := (List.eq_nil_or_concat r).resolve_left hr
    rw [List.concat_eq_append, ← List.append_assoc] at heq
    obtain ⟨-, hd⟩ := List.append_inj' heq rfl
    refine ⟨r', c, hc, ?_⟩
    rw [List.concat_eq_append, hd]
  · rintro ⟨front, c, hc, rfl⟩
    exact ⟨l ++ front, c, hc, by rw [List.append_assoc]⟩

theorem not_endsInBlank_of_forall {w : List UInt8} (hw : ∀ c ∈ w, isBlank c = false) :
    ¬ EndsInBlank w := by
  rintro ⟨front, c, hc, rfl⟩
  rw [hw c (by simp)] at hc
  exact Bool.false_ne_true hc

theorem closes_append_iff {left : ℕ} {front rest w : List UInt8} {s : UInt8}
    (hs : isBlank s = true)
    (hwords : words isBlank (front ++ s :: rest) = w :: words isBlank rest) :
    Closes (left + 1) (front ++ s :: rest) ↔ Closes left rest := by
  rw [Closes, Closes, hwords, List.length_cons, Nat.succ_lt_succ_iff, Nat.succ_inj]
  refine or_congr_right (and_congr_right fun hlen => ?_)
  cases rest with
  | nil =>
    have hleft : left = 0 := by
      rw [← hlen, words_nil, List.length_nil]
    rw [hleft]
    have hends : EndsInBlank (front ++ [s]) := ⟨front, s, hs, rfl⟩
    simp [hends]
  | cons c rest =>
    have hsplit : front ++ s :: c :: rest = (front ++ [s]) ++ c :: rest := by simp
    rw [hsplit, endsInBlank_append_iff _ _ (List.cons_ne_nil c rest)]
    refine ⟨fun h => ⟨?_, h.2⟩, fun h => ⟨Nat.succ_pos left, h.2⟩⟩
    -- without another word the line ends in a blank
    refine Nat.pos_of_ne_zero fun hzero => h.2 ?_
    have hnil := List.eq_nil_of_length_eq_zero (hlen.trans hzero)
    obtain ⟨r, d, hcons⟩ := (List.eq_nil_or_concat (c :: rest)).resolve_left (List.cons_ne_nil _ _)
    refine ⟨r, d, forall_of_words_eq_nil hnil d (by rw [hcons]; simp), ?_⟩
    rw [hcons, List.concat_eq_append]

/-- What the loop leaves: the number of words it found, the entries before, the entries it wrote,
and the entry behind them. -/
structure Parsed (left nargs : ℕ) (line : List UInt8) (argv : Argv) (r : ℕ × Argv) : Prop where
  count : r.1 = nargs + min left (words isBlank line).length
  before : ∀ i < nargs, r.2 i = argv i
  word : ∀ i < min left (words isBlank line).length, r.2 (nargs + i) = (words isBlank line)[i]?
  closed : Closes left line → r.2 r.1 = none
  unclosed : ¬ Closes left line → r.2 r.1 = argv r.1

section Parsed

variable {left nargs : ℕ} {line front rest w : List UInt8} {argv : Argv}

theorem parsed_none (hwords : words isBlank line = []) :
    Parsed (left + 1) nargs line argv (nargs, Function.update argv nargs none) := by
  have hclosed : Closes (left + 1) line := by
    refine Or.inl ?_
    rw [hwords]
    exact Nat.succ_pos left
  refine ⟨?_, fun i hi => Function.update_of_ne hi.ne _ _, ?_, fun _ => Function.update_self _ _ _,
    fun h => absurd hclosed h⟩
  · rw [hwords, List.length_nil, Nat.min_zero]
    rfl
  · intro i hi
    rw [hwords, List.length_nil, Nat.min_zero] at hi
    exact absurd hi (Nat.not_lt_zero i)

theorem parsed_last (hwords : words isBlank line = [w]) (hends : ¬ EndsInBlank line) :
    Parsed (left + 1) nargs line argv
      (nargs + 1, Function.update (Function.update argv nargs (some w)) (nargs + 1) none) := by
  have hclosed : Closes (left + 1) line := by
    rcases Nat.eq_zero_or_pos left with rfl | hleft
    · exact Or.inr ⟨by rw [hwords]; rfl, Nat.one_pos, hends⟩
    · refine Or.inl ?_
      rw [hwords]
      exact Nat.succ_lt_succ hleft
  have hmin : min (left + 1) (words isBlank line).length = 1 := by
    rw [hwords, List.length_singleton]
    exact min_eq_right (Nat.succ_pos left)
  refine ⟨by rw [hmin], fun i hi => ?_, fun i hi => ?_, fun _ => Function.update_self _ _ _,
    fun h => absurd hclosed h⟩
  · dsimp only
    rw [Function.update_of_ne (by omega), Function.update_of_ne (by omega)]
  · rw [hmin] at hi
    obtain rfl := Nat.lt_one_iff.mp hi
    dsimp only
    rw [Function.update_of_ne (by omega), Nat.add_zero, Function.update_self, hwords]
    rfl

theorem Parsed.cons {s : UInt8} {r : ℕ × Argv} (hs : isBlank s = true)
    (hline : line = front ++ s :: rest) (hwords : words isBlank line = w :: words isBlank rest)
    (h : Parsed left (nargs + 1) rest (Function.update argv nargs (some w)) r) :
    Parsed (left + 1) nargs line argv r := by
  have hcloses : Closes (left + 1) line ↔ Closes left rest := by
    rw [hline]
    exact closes_append_iff hs (by rw [← hline]; exact hwords)
  have hmin : min (left + 1) (words isBlank line).length =
      min left (words isBlank rest).length + 1 := by
    rw [hwords, List.length_cons, Nat.succ_min_succ]
  have hcount : r.1 = nargs + min (left + 1) (words isBlank line).length := by
    rw [h.count, hmin]
    omega
  refine ⟨hcount, fun i hi => ?_, fun i hi => ?_, fun hc => h.closed (hcloses.mp hc), fun hc => ?_⟩
  · rw [h.before i (by omega), Function.update_of_ne hi.ne]
  · rw [hmin] at hi
    rw [hwords]
    cases i with
    | zero =>
      have hfirst := h.before nargs (Nat.lt_succ_self nargs)
      rw [Function.update_self] at hfirst
      exact hfirst
    | succ i =>
      rw [show nargs + (i + 1) = nargs + 1 + i by omega, h.word i (Nat.lt_of_succ_lt_succ hi)]
      rfl
  · rw [h.unclosed fun h' => hc (hcloses.mpr h'), Function.update_of_ne]
    rw [h.count]
    omega

end Parsed

theorem parseLineFrom_spec (left nargs : ℕ) (line : List UInt8) (argv : Argv) :
    Parsed left nargs line argv (parseLineFrom left nargs line argv) := by
  induction left generalizing nargs line argv with
  | zero =>
    have hopen : ¬ Closes 0 line := by
      rintro (h | h)
      · exact Nat.not_lt_zero _ h
      · exact lt_irrefl 0 h.2.1
    refine ⟨?_, fun i _ => rfl, ?_, fun h => absurd h hopen, fun _ => rfl⟩
    · rw [Nat.zero_min]
      rfl
    · intro i hi
      rw [Nat.zero_min] at hi
      exact absurd hi (Nat.not_lt_zero i)
  | succ left ih =>
    rw [parseLineFrom]
    by_cases hblank : line.dropWhile isBlank = []
    · rw [if_pos hblank]
      refine parsed_none ?_
      rw [← words_dropWhile, hblank, words_nil]
    · obtain ⟨x, l, hline⟩ := List.exists_cons_of_ne_nil hblank
      have hx : isBlank x = false := by
        have hhead := List.head_dropWhile_not isBlank hblank
        simpa [hline] using hhead
      have hfront : line = line.takeWhile isBlank ++ x :: l := by
        rw [← hline, List.takeWhile_append_dropWhile]
      have hwords : words isBlank line = (x :: l).takeWhile (fun c => !isBlank c) ::
          words isBlank ((x :: l).dropWhile fun c => !isBlank c) := by
        rw [← words_dropWhile, hline, words_cons hx]
      have hword : (x :: l).takeWhile (fun c => !isBlank c) ++
          (x :: l).dropWhile (fun c => !isBlank c) = x :: l := List.takeWhile_append_dropWhile
      rw [if_neg hblank, hline]
      have hclean : ∀ c ∈ (x :: l).takeWhile (fun c => !isBlank c), isBlank c = false := by
        intro c hc
        simpa using List.mem_takeWhile_imp hc
      generalize (x :: l).takeWhile (fun c => !isBlank c) = w at hwords hword hclean ⊢
      rcases dropWhile_not_eq (p := isBlank) (l := x :: l) with hrest | ⟨s, rest, hs, hrest⟩
      · rw [hrest] at hwords hword ⊢
        rw [words_nil] at hwords
        rw [List.append_nil] at hword
        rw [if_pos rfl]
        refine parsed_last hwords ?_
        rw [hfront, endsInBlank_append_iff _ _ (List.cons_ne_nil x l), ← hword]
        exact not_endsInBlank_of_forall hclean
      · rw [hrest] at hwords hword ⊢
        rw [words_cons_sep hs] at hwords
        have hline' : line = (line.takeWhile isBlank ++ w) ++ s :: rest := by
          rw [List.append_assoc, hword]
          exact hfront
        rw [if_neg (List.cons_ne_nil _ _), List.tail_cons]
        exact (ih (nargs + 1) rest _).cons hs hline' hwords

/-- **What `parse_line` leaves.** -/
theorem parseLine_spec (maxargs : ℕ) (line : List UInt8) (argv : Argv) :
    Parsed maxargs 0 line argv (parseLine maxargs line argv) :=
  parseLineFrom_spec maxargs 0 line argv

end Command
end EmevBsp
