import EmevBsp.Command.RunCommand

/-!
# The pieces of a line

`run_command` looks for the end of a piece when the pieces before it have been executed.  Where it
is depends on the line alone: the search starts afresh behind each separator, and what the handlers
do to the machine does not reach the copy of the line.

The search is a machine with three variables, which reads a character at a time.  A text can be
followed by a separator and another text without disturbing either, when the machine has come to
the inside of a piece, outside of quotes, and the last character is no backslash.
-/

namespace EmevBsp
namespace Command

/-- The pieces from `str` on. -/
def pieces (prev : UInt8) (str : List UInt8) : List (List UInt8) :=
  if _h : str = [] then []
  else
    let piece := findSep prev false true str
    piece.1 :: pieces 0 piece.2.tail
termination_by str.length
decreasing_by exact length_tail_findSep_lt prev _h

/-! ## The search as a machine -/

/-- The character before `sep`, `inquotes`, and whether `sep` is `str`. -/
structure Search where
  prev : UInt8
  inquotes : Bool
  start : Bool

namespace Search

/-- Behind a separator. -/
def fresh : Search := ⟨0, false, true⟩

/-- What ends the search. -/
def IsSep (s : Search) (c : UInt8) : Prop :=
  quoted s.prev c s.inquotes = false ∧ c = semicolon ∧ s.start = false ∧ s.prev ≠ backslash

instance (s : Search) (c : UInt8) : Decidable (s.IsSep c) :=
  inferInstanceAs (Decidable (_ ∧ _))

/-- A character of a piece, or the separator behind it. -/
def next (s : Search) (c : UInt8) : Search :=
  if s.IsSep c then fresh else ⟨c, quoted s.prev c s.inquotes, false⟩

/-- The variables behind a text. -/
def after (s : Search) (text : List UInt8) : Search := text.foldl next s

/-- `findSep`, from these variables on. -/
def find (s : Search) (text : List UInt8) : List UInt8 × List UInt8 :=
  findSep s.prev s.inquotes s.start text

end Search

/-! ## Two lines -/

/-- **A text that nothing is open in**: the quotes are balanced, the last character is no backslash,
and it is no separator. -/
structure Complete (text : List UInt8) : Prop where
  balanced : (Search.fresh.after text).inquotes = false
  unescaped : (Search.fresh.after text).prev ≠ backslash
  inside : (Search.fresh.after text).start = false

theorem Complete.ne_nil {text : List UInt8} (h : Complete text) : text ≠ [] := by
  rintro rfl
  exact Bool.false_ne_true h.inside.symm

end Command
end EmevBsp
