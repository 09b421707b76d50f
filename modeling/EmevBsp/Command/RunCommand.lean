import EmevBsp.Command.Macros
import EmevBsp.Command.ParseLine

/-!
# `common/main.c`: `run_command`

A command line is cut at its semicolons, and each piece is expanded, cut into words and given to
the handler of its first word.  The pieces share `argv`, the flag that keeps `bootd` from calling
itself, and what the handlers do to the machine.

The search for the end of a piece looks one character back.  Behind a separator that is the
terminator put in its place; at the start of the line it is whatever stands on the stack before the
copy of the line.
-/

namespace EmevBsp
namespace Command

variable {σ : Type*}

/-- `';'`. -/
abbrev semicolon : UInt8 := 59

def cmdFlagBootd : BitVec 32 := 2

/-! ## The commands -/

/-- What the handlers work on, and `ctrlc_was_pressed`. -/
structure Machine (σ : Type*) where
  memory : σ
  ctrlcWasPressed : Bool

/-- `cmd_tbl_t`; `bootd` says that `cmd` is `do_bootd`. -/
structure CmdTbl (σ : Type*) where
  maxargs : ℕ
  repeatable : Bool
  bootd : Bool
  cmd : Machine σ → BitVec 32 → ℕ → Argv → ℤ × Machine σ

/-- The configuration, `getenv` and `find_cmd`. -/
structure Shell (σ : Type*) where
  cbsize : ℕ
  maxargs : ℕ
  getenv : σ → List UInt8 → Option (List UInt8)
  findCmd : List UInt8 → Option (CmdTbl σ)
  maxargs_pos : 0 < maxargs
  maxargs_le : ∀ name cmdtp, findCmd name = some cmdtp → cmdtp.maxargs ≤ maxargs

/-- A call of a handler. -/
structure Call (σ : Type*) where
  cmdtp : CmdTbl σ
  flag : BitVec 32
  argc : ℕ
  argv : Argv

/-- A piece that was looked at: the text after the expansion, `argv` and `flag` as they were before,
and the call that was made. -/
structure Visit (σ : Type*) where
  text : List UInt8
  argv : Argv
  flag : BitVec 32
  call : Option (Call σ)

/-! ## A piece -/

/-- `inquotes`, behind a character. -/
def quoted (prev c : UInt8) (inquotes : Bool) : Bool :=
  if c = quote ∧ prev ≠ backslash then !inquotes else inquotes

/-- "Find separator, or string end": the piece, and the text from the separator on.  `prev` is the
character before, and `start` says that no character of the piece was passed. -/
def findSep : UInt8 → Bool → Bool → List UInt8 → List UInt8 × List UInt8
  | _, _, _, [] => ([], [])
  | prev, inquotes, start, c :: text =>
    if quoted prev c inquotes = false ∧ c = semicolon ∧ start = false ∧ prev ≠ backslash then
      ([], c :: text)
    else
      let r := findSep c (quoted prev c inquotes) false text
      (c :: r.1, r.2)

/-- `finaltoken`, up to its terminator. -/
def finalToken (sh : Shell σ) (memory : σ) (token : List UInt8) : List UInt8 :=
  (processMacros sh.cbsize (sh.getenv memory) token).takeWhile (· ≠ 0)

/-- "Extract arguments", "Look up command in command table", "check max args" and "avoid bootd
recursion": the call to make. -/
def invoke (sh : Shell σ) (flag : BitVec 32) (text : List UInt8) (argv : Argv) :
    Option (Call σ) :=
  let parsed := parseLine sh.maxargs text argv
  -- no command at all
  if parsed.1 = 0 then none
  else
    match sh.findCmd ((parsed.2 0).getD []) with
    | none => none
    | some cmdtp =>
      if cmdtp.maxargs < parsed.1 then none
      else if cmdtp.bootd then
        if flag &&& cmdFlagBootd ≠ 0 then none
        else some ⟨cmdtp, flag ||| cmdFlagBootd, parsed.1, parsed.2⟩
      else some ⟨cmdtp, flag, parsed.1, parsed.2⟩

/-! ## The loop -/

/-- The variables of `run_command`, the machine, and the record of the pieces. -/
structure RunVars (σ : Type*) where
  machine : Machine σ
  argv : Argv
  flag : BitVec 32
  repeatable : Bool
  rc : ℤ
  visits : List (Visit σ)

/-- A turn of the loop: the variables, and whether the user stopped it. -/
def runPiece (sh : Shell σ) (token : List UInt8) (v : RunVars σ) : RunVars σ × Bool :=
  let text := finalToken sh v.machine.memory token
  let call := invoke sh v.flag text v.argv
  let visits := v.visits ++ [⟨text, v.argv, v.flag, call⟩]
  let argv := (parseLine sh.maxargs text v.argv).2
  match call with
  | none => ({ v with argv := argv, rc := -1, visits := visits }, false)
  | some call =>
    let r := call.cmdtp.cmd v.machine call.flag call.argc call.argv
    ({ machine := r.2
       argv := argv
       flag := call.flag
       repeatable := v.repeatable && call.cmdtp.repeatable
       rc := if r.1 ≠ 0 then -1 else v.rc
       visits := visits }, r.2.ctrlcWasPressed)

theorem length_findSep (prev : UInt8) (inquotes start : Bool) (text : List UInt8) :
    (findSep prev inquotes start text).2.length ≤ text.length := by
  induction text generalizing prev inquotes start with
  | nil => exact le_rfl
  | cons c text ih =>
    rw [findSep]
    split_ifs
    · exact le_rfl
    · exact (ih _ _ _).trans (Nat.le_succ _)

theorem length_tail_findSep_lt (prev : UInt8) {str : List UInt8} (h : str ≠ []) :
    (findSep prev false true str).2.tail.length < str.length := by
  have hle := length_findSep prev false true str
  have hpos := List.length_pos_iff.mpr h
  rw [List.length_tail]
  omega

/-- The loop over the pieces: the variables, and whether the user stopped it. -/
def runLoop (sh : Shell σ) (prev : UInt8) (str : List UInt8) (v : RunVars σ) : RunVars σ × Bool :=
  if _h : str = [] then (v, false)
  else
    let piece := findSep prev false true str
    let r := runPiece sh piece.1 v
    if r.2 then r
    -- the separator is overwritten by a terminator
    else runLoop sh 0 piece.2.tail r.1
termination_by str.length
decreasing_by exact length_tail_findSep_lt prev _h

/-- What stands on the stack: the character before `cmdbuf`, and `argv`. -/
structure Stack where
  before : UInt8
  argv : Argv

/-- The variables before the first piece; "forget any previous Control C". -/
def startVars (stack : Stack) (machine : Machine σ) (flag : BitVec 32) : RunVars σ where
  machine := { machine with ctrlcWasPressed := false }
  argv := stack.argv
  flag := flag
  repeatable := true
  rc := 0
  visits := []

/-- What is returned. -/
def resultOf (r : RunVars σ × Bool) : ℤ :=
  if r.2 then -1 else if r.1.rc ≠ 0 then r.1.rc else if r.1.repeatable then 1 else 0

/-- `run_command`: the result, and the variables at the end. -/
def runCommand (sh : Shell σ) (stack : Stack) (machine : Machine σ) (cmd : List UInt8)
    (flag : BitVec 32) : ℤ × RunVars σ :=
  if cmd = [] ∨ sh.cbsize ≤ cmd.length then (-1, startVars stack machine flag)
  else
    let r := runLoop sh stack.before cmd (startVars stack machine flag)
    (resultOf r, r.1)

end Command
end EmevBsp
