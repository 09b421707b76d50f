import EmevBsp.Command.ParseLine
import EmevBsp.Env.Image
import EmevBsp.Library.CommonPrefix

/-!
# `common/command.c`: `cmd_auto_complete`

A tab at the end of the line looks for what the line could go on with: the commands, or the
variables of the environment behind a command whose `complete` is `var_complete`.  One match is put
behind the line with a space; of several, what they have in common; without either the matches are
listed.

Names, words and lines are the lists of their bytes, without the terminator.  A buffer is the list
of all its bytes.  `none` is a read or a write outside: of the buffer, of `argv`, or of a name
behind its terminator.  What is printed is left out.
-/

namespace EmevBsp
namespace Command
namespace Completion

open CommonPrefix

/-- `CONFIG_SYS_CBSIZE`. -/
def cbsize : ℕ := 384

/-- `CONFIG_SYS_MAXARGS`. -/
def maxargs : ℕ := 24

/-- `CONFIG_SYS_PROMPT`. -/
def sysPrompt : CString := .ofString "EM/EV # "

/-- An entry of the command table. -/
structure CmdTbl where
  name : List UInt8
  noNul : (0 : UInt8) ∉ name
  /-- `complete` is `var_complete`, and not NULL. -/
  varComplete : Bool

/-- An entry of the environment; an empty one would end it. -/
structure Entry where
  text : List UInt8
  noNul : (0 : UInt8) ∉ text
  ne_nil : text ≠ []

/-- What stands before the first `'='`, if there is one. -/
def Entry.name (e : Entry) : List UInt8 := e.text.takeWhile (· != Env.eqSign)

/-- What a line is completed from. -/
structure Setting where
  table : List CmdTbl
  env : List Entry

/-- The name up to the first dot: some commands allow length modifiers (like `cp.b`). -/
def stem (cmd : List UInt8) : List UInt8 := cmd.takeWhile (· != 46)

/-- The loop of `find_cmd_tbl`, with `n_found` matches so far and `cmdtp_temp` the last one. -/
def findCmdTblLoop (cmd : List UInt8) :
    (table : List CmdTbl) → (nFound : ℕ) → (temp : Option CmdTbl) → Option CmdTbl
  | [], nFound, temp => if nFound = 1 then temp else none
  | cmdtp :: table, nFound, temp =>
    if stem cmd <+: cmdtp.name then
      -- full match
      if (stem cmd).length = cmdtp.name.length then some cmdtp
      -- abbreviated command ?
      else findCmdTblLoop cmd table (nFound + 1) (some cmdtp)
    else findCmdTblLoop cmd table nFound temp

def findCmdTbl (cmd : List UInt8) (table : List CmdTbl) : Option CmdTbl :=
  findCmdTblLoop cmd table 0 none

/-- What is listed in the place of the matches there is no room for. -/
def dots : List UInt8 := [46, 46, 46]

/-- `last_char` is a space, a tab or, in an empty line, NUL. -/
def isSpace (lastChar : UInt8) : Bool := lastChar == 0 || isBlank lastChar

/-- The loop of `env_complete`, with `found` entries of `cmdv` written and `bufsz` bytes left in
the buffer. -/
def envComplete (var : List UInt8) (maxv : ℕ) : (env : List Entry) → (found bufsz : ℕ) →
    List (List UInt8)
  | [], _, _ => []
  | e :: env, found, bufsz =>
    let vallen := e.name.length
    if var.length > 0 ∧ (vallen < var.length ∨ e.text.take var.length ≠ var) then
      envComplete var maxv env found bufsz
    else if found ≥ maxv - 2 ∨ bufsz < vallen + 1 then [dots]
    else e.name :: envComplete var maxv env (found + 1) (bufsz - vallen - 1)

/-- `var_complete`; its buffer has 512 bytes. -/
def varComplete (env : List Entry) (argv : List (List UInt8)) (lastChar : UInt8) (maxv : ℕ) :
    List (List UInt8) :=
  if isSpace lastChar ∧ argv.length = 1 then envComplete [] maxv env 0 512
  else if ¬ isSpace lastChar ∧ argv.length = 2 then envComplete (argv.getD 1 []) maxv env 0 512
  else []

/-- The loops of `complete_cmdv` over the table: the names that are `wanted`. -/
def listCommands (wanted : List UInt8 → Bool) (maxv : ℕ) : (table : List CmdTbl) →
    (nFound : ℕ) → List (List UInt8)
  | [], _ => []
  | cmdtp :: table, nFound =>
    if wanted cmdtp.name then
      -- too many!
      if nFound ≥ maxv - 2 then [dots]
      else cmdtp.name :: listCommands wanted maxv table (nFound + 1)
    else listCommands wanted maxv table nFound

/-- The length and the comparison of `complete_cmdv`. -/
def partialMatch (cmd name : List UInt8) : Bool :=
  decide (¬ name.length < (stem cmd).length ∧ name.take (stem cmd).length = stem cmd)

/-- `complete_cmdv`: the entries of `cmdv`, `none` for the result `-2`. -/
def completeCmdv (set : Setting) (argv : List (List UInt8)) (lastChar : UInt8) (maxv : ℕ) :
    Option (List (List UInt8)) :=
  -- sanity?
  if maxv < 2 then none
  else match argv with
    -- output full list of commands
    | [] => some (listCommands (fun _ => true) maxv set.table 0)
    | cmd :: rest =>
      -- more than one arg or one but the start of the next
      if rest.length > 0 ∨ isSpace lastChar then
        match findCmdTbl cmd set.table with
        | none => some []
        | some cmdtp =>
          if cmdtp.varComplete then some (varComplete set.env argv lastChar maxv) else some []
      -- return the partial matches
      else some (listCommands (partialMatch cmd) maxv set.table 0)

/-- The loop of `make_argv`, with room for `left` words. -/
def makeArgvLoop : (left : ℕ) → (s : List UInt8) → List (List UInt8)
  | 0, _ => []
  | left + 1, s =>
    -- skip any white space
    let s := s.dropWhile isBlank
    -- end of s, no more args
    if s = [] then []
    else
      let word := s.takeWhile fun c => !isBlank c
      -- find end of string
      let s := s.dropWhile fun c => !isBlank c
      if s = [] then [word]
      -- terminate current arg
      else word :: makeArgvLoop left s.tail

/-- `make_argv`: the entries of `argv` before the NULL. -/
def makeArgv (s : List UInt8) (argvsz : ℕ) : List (List UInt8) := makeArgvLoop (argvsz - 1) s

def findCommonPrefix : (argv : List (List UInt8)) → ℕ
  | [] => 0
  -- begin with max
  | anchor :: argv => argv.foldl (fun len t => agree (anchor.take len) t) anchor.length

/-- What a call leaves: the buffer, `*np` and `*colp`, and its result. -/
structure Result where
  buf : List UInt8
  n : ℕ
  col : ℕ
  ret : ℕ

/-- The bytes from `name + k` to the terminator. -/
def textFrom (name : List UInt8) (k : ℕ) : Option (List UInt8) :=
  if k ≤ name.length then some (name.drop k) else none

/-- The end of `cmd_auto_complete` for a suffix `s`, the separator included. -/
def putSuffix (buf : List UInt8) (cnt n col : ℕ) (s : List UInt8) : Option Result :=
  -- make sure it fits
  if n + s.length ≥ cbsize - 2 then some ⟨buf, n, col, 1⟩
  else (strcpy buf cnt s).map fun buf => ⟨buf, n + s.length, col + s.length, 1⟩

def cmdAutoComplete (set : Setting) (prompt : CString) (buf : List UInt8) (n col : ℕ) :
    Option Result :=
  -- not in normal console
  if prompt ≠ sysPrompt then some ⟨buf, n, col, 0⟩
  else
    match takeString buf with
    | none => none
    | some text =>
      -- `tmp_buf` has the size of the console buffer
      if text.length ≥ cbsize then none
      else
        let lastChar := text.getLastD 0
        let argv := makeArgv text (maxargs + 1)
        match completeCmdv set argv lastChar 20 with
        | none => none
        -- no match; bell and out
        | some [] => some ⟨buf, n, col, if argv.length > 1 then 0 else 1⟩
        -- one match; perfect
        | some [name] =>
          argv.getLast?.bind fun word =>
            (textFrom name word.length).bind fun s => putSuffix buf text.length n col (s ++ [32])
        -- more
        | some (name :: names) =>
          let j := findCommonPrefix (name :: names)
          if j = 0 then some ⟨buf, n, col, 1⟩
          else argv.getLast?.bind fun word =>
            if j > word.length then
              (textFrom name word.length).bind fun s =>
                putSuffix buf text.length n col (s.take (j - word.length))
            else some ⟨buf, n, col, 1⟩

end Completion
end Command
end EmevBsp
