import EmevBsp.Command.RunCommand

/-!
# The arguments of a handler

A handler is told the number of its words and is given the array they are in, with NULL behind the
last one.  A piece with more words than the array has room for is not executed.

`parse_line` says that there were too many words, and returns as many as fit.  So `run_command`
sees a piece with exactly as many: a command that takes so many is executed with the first ones,
and behind them is what was there before.

* `ArgumentsSafe`: what the pieces of a line have to keep.
* `visit_of_runCommand`: each piece is given to `invoke`, and one that is not executed makes the
  result -1.
* `runCommand_safe_iff`: **the pieces keep it**, exactly when a piece for a command that takes
  `CONFIG_SYS_MAXARGS` words has fewer of them, or as many, with NULL behind them.
* `not_argumentsSafe`: a piece of 25 words.
-/

namespace EmevBsp
namespace Command

open Words

variable {σ : Type*} {sh : Shell σ}

/-! ## What has to be kept -/

/-- A call with the words of its piece. -/
structure Conforms (call : Call σ) (text : List UInt8) : Prop where
  terminated : call.argv call.argc = none
  word : ∀ i < call.argc, call.argv i = (words isBlank text)[i]?
  argc_eq : call.argc = (words isBlank text).length
  argc_le : call.argc ≤ call.cmdtp.maxargs

/-- **What the pieces of a line have to keep**: a handler gets exactly the words of its piece, and a
piece with too many words is not executed and makes the result -1. -/
def ArgumentsSafe (sh : Shell σ) (r : ℤ × RunVars σ) : Prop :=
  ∀ visit ∈ r.2.visits, (∀ call ∈ visit.call, Conforms call visit.text) ∧
    (sh.maxargs < (words isBlank visit.text).length → visit.call = none ∧ r.1 = -1)

/-- The first word of a piece is a command that takes `CONFIG_SYS_MAXARGS` words, and it is not a
`bootd` inside of a `bootd`. -/
def Takes (sh : Shell σ) (visit : Visit σ) : Prop :=
  ∃ cmdtp, sh.findCmd ((words isBlank visit.text).headD []) = some cmdtp ∧
    sh.maxargs ≤ cmdtp.maxargs ∧ (cmdtp.bootd = true → visit.flag &&& cmdFlagBootd = 0)

/-- A piece has fewer words than `CONFIG_SYS_MAXARGS`, or as many and no blank behind the last one;
or NULL happens to be where it belongs. -/
def Fits (sh : Shell σ) (visit : Visit σ) : Prop :=
  (words isBlank visit.text).length < sh.maxargs ∨
    (words isBlank visit.text).length = sh.maxargs ∧
      (¬ EndsInBlank visit.text ∨ visit.argv sh.maxargs = none)

/-! ## The record of the pieces -/

/-- What the loop keeps: each piece was given to `invoke`, and a piece that was not executed is not
forgotten. -/
structure Recorded (sh : Shell σ) (v : RunVars σ) : Prop where
  call : ∀ visit ∈ v.visits, visit.call = invoke sh visit.flag visit.text visit.argv
  failed : (∃ visit ∈ v.visits, visit.call = none) → v.rc = -1

theorem runPiece_visits (token : List UInt8) (v : RunVars σ) :
    (runPiece sh token v).1.visits = v.visits ++
      [⟨finalToken sh v.machine.memory token, v.argv, v.flag,
        invoke sh v.flag (finalToken sh v.machine.memory token) v.argv⟩] := by
  rw [runPiece]
  cases invoke sh v.flag (finalToken sh v.machine.memory token) v.argv <;> rfl

theorem runPiece_rc (token : List UInt8) {v : RunVars σ} (h : v.rc = -1 ∨
    invoke sh v.flag (finalToken sh v.machine.memory token) v.argv = none) :
    (runPiece sh token v).1.rc = -1 := by
  rw [runPiece]
  cases hcall : invoke sh v.flag (finalToken sh v.machine.memory token) v.argv with
  | none => rfl
  | some call =>
    have hrc : v.rc = -1 := h.resolve_right (by rw [hcall]; exact Option.some_ne_none call)
    dsimp only
    rw [hrc, ite_self]

theorem recorded_runPiece (token : List UInt8) {v : RunVars σ} (h : Recorded sh v) :
    Recorded sh (runPiece sh token v).1 where
  call visit hvisit := by
    rw [runPiece_visits, List.mem_append, List.mem_singleton] at hvisit
    rcases hvisit with hvisit | rfl
    · exact h.call visit hvisit
    · rfl
  failed := by
    rintro ⟨visit, hvisit, hcall⟩
    rw [runPiece_visits, List.mem_append, List.mem_singleton] at hvisit
    rcases hvisit with hvisit | rfl
    · exact runPiece_rc token (Or.inl (h.failed ⟨visit, hvisit, hcall⟩))
    · exact runPiece_rc token (Or.inr hcall)

theorem recorded_runLoop (prev : UInt8) (str : List UInt8) {v : RunVars σ} (h : Recorded sh v) :
    Recorded sh (runLoop sh prev str v).1 := by
  fun_induction runLoop sh prev str v with
  | case1 => exact h
  | case2 prev str v hne piece r hstop => exact recorded_runPiece piece.1 h
  | case3 prev str v hne piece r hstop ih => exact ih (recorded_runPiece piece.1 h)

theorem recorded_startVars (stack : Stack) (machine : Machine σ) (flag : BitVec 32) :
    Recorded sh (startVars stack machine flag) :=
  ⟨fun _ h => absurd h List.not_mem_nil, fun ⟨_, h, _⟩ => absurd h List.not_mem_nil⟩

theorem visit_of_runCommand (stack : Stack) (machine : Machine σ) (cmd : List UInt8)
    (flag : BitVec 32) {visit : Visit σ}
    (h : visit ∈ (runCommand sh stack machine cmd flag).2.visits) :
    visit.call = invoke sh visit.flag visit.text visit.argv ∧
      (visit.call = none → (runCommand sh stack machine cmd flag).1 = -1) := by
  rw [runCommand] at h ⊢
  split_ifs at h ⊢ with hcmd
  · exact absurd h List.not_mem_nil
  · have hstart : Recorded sh (startVars stack machine flag) :=
      recorded_startVars stack machine flag
    have hrec := recorded_runLoop stack.before cmd hstart
    refine ⟨hrec.call visit h, fun hnone => ?_⟩
    have hrc := hrec.failed ⟨visit, h, hnone⟩
    change resultOf _ = -1
    rw [resultOf, hrc, if_pos (by decide : (-1 : ℤ) ≠ 0), ite_self]

/-! ## A piece -/

theorem parsed_head {text : List UInt8} {argv : Argv}
    (h : 0 < min sh.maxargs (words isBlank text).length) :
    ((parseLine sh.maxargs text argv).2 0).getD [] = (words isBlank text).headD [] := by
  have hword := (parseLine_spec sh.maxargs text argv).word 0 h
  rw [Nat.zero_add] at hword
  rw [hword]
  cases words isBlank text <;> rfl

/-- What `invoke` calls, and with which words. -/
structure Invoked (sh : Shell σ) (flag : BitVec 32) (text : List UInt8) (argv : Argv)
    (call : Call σ) : Prop where
  found : sh.findCmd ((words isBlank text).headD []) = some call.cmdtp
  argc_eq : call.argc = min sh.maxargs (words isBlank text).length
  argc_pos : 0 < call.argc
  argv_eq : call.argv = (parseLine sh.maxargs text argv).2
  argc_le : call.argc ≤ call.cmdtp.maxargs
  bootd : call.cmdtp.bootd = true → flag &&& cmdFlagBootd = 0
  flag_eq : call.cmdtp.bootd = false → call.flag = flag
  flag_or : call.cmdtp.bootd = true → call.flag = flag ||| cmdFlagBootd

theorem invoked_of_eq_some {flag : BitVec 32} {text : List UInt8} {argv : Argv} {call : Call σ}
    (h : invoke sh flag text argv = some call) : Invoked sh flag text argv call := by
  have hcount := (parseLine_spec sh.maxargs text argv).count
  rw [Nat.zero_add] at hcount
  rw [invoke] at h
  simp only [hcount] at h
  by_cases hzero : min sh.maxargs (words isBlank text).length = 0
  · rw [if_pos hzero] at h
    exact absurd h (Option.some_ne_none call).symm
  rw [if_neg hzero, parsed_head (Nat.pos_of_ne_zero hzero)] at h
  cases hcmd : sh.findCmd ((words isBlank text).headD []) with
  | none =>
    rw [hcmd] at h
    exact absurd h (Option.some_ne_none call).symm
  | some cmdtp =>
    rw [hcmd] at h
    dsimp only at h
    by_cases hmax : cmdtp.maxargs < min sh.maxargs (words isBlank text).length
    · rw [if_pos hmax] at h
      exact absurd h (Option.some_ne_none call).symm
    rw [if_neg hmax] at h
    by_cases hbootd : cmdtp.bootd = true
    · rw [if_pos hbootd] at h
      by_cases hflag : flag &&& cmdFlagBootd ≠ 0
      · rw [if_pos hflag] at h
        exact absurd h (Option.some_ne_none call).symm
      · rw [if_neg hflag] at h
        obtain rfl := Option.some.inj h
        exact ⟨hcmd, rfl, Nat.pos_of_ne_zero hzero, rfl, Nat.le_of_not_lt hmax,
          fun _ => not_not.mp hflag, fun hb => absurd hbootd (Bool.eq_false_iff.mp hb),
          fun _ => rfl⟩
    · rw [if_neg hbootd] at h
      obtain rfl := Option.some.inj h
      exact ⟨hcmd, rfl, Nat.pos_of_ne_zero hzero, rfl, Nat.le_of_not_lt hmax,
        fun hb => absurd hb hbootd, fun _ => rfl, fun hb => absurd hb hbootd⟩

theorem invoke_ne_none {flag : BitVec 32} {text : List UInt8} {argv : Argv} {cmdtp : CmdTbl σ}
    (hcmd : sh.findCmd ((words isBlank text).headD []) = some cmdtp)
    (hwords : 0 < (words isBlank text).length) (hmax : sh.maxargs ≤ cmdtp.maxargs)
    (hbootd : cmdtp.bootd = true → flag &&& cmdFlagBootd = 0) :
    invoke sh flag text argv ≠ none := by
  have hcount := (parseLine_spec sh.maxargs text argv).count
  rw [Nat.zero_add] at hcount
  have hpos : 0 < min sh.maxargs (words isBlank text).length := lt_min sh.maxargs_pos hwords
  have hle : ¬ cmdtp.maxargs < min sh.maxargs (words isBlank text).length :=
    Nat.not_lt.mpr ((min_le_left _ _).trans hmax)
  rw [invoke]
  simp only [hcount]
  rw [if_neg hpos.ne', parsed_head hpos, hcmd]
  simp only [hle, if_false]
  split_ifs with hb hflag
  · exact absurd (hbootd hb) hflag
  · exact Option.some_ne_none _
  · exact Option.some_ne_none _

theorem conforms_iff_fits {visit : Visit σ} {call : Call σ}
    (h : invoke sh visit.flag visit.text visit.argv = some call) :
    Conforms call visit.text ↔ Fits sh visit := by
  obtain ⟨-, hargc, hpos, hargv, hle, -, -⟩ := invoked_of_eq_some h
  have hparsed := parseLine_spec sh.maxargs visit.text visit.argv
  have hcount : (parseLine sh.maxargs visit.text visit.argv).1 = call.argc := by
    rw [hparsed.count, Nat.zero_add, hargc]
  have hclosed := hparsed.closed
  have hunclosed := hparsed.unclosed
  rw [hcount, ← hargv] at hclosed hunclosed
  constructor
  · intro hconf
    have hlen := hconf.argc_eq
    rcases (hargc ▸ min_le_left _ _ : call.argc ≤ sh.maxargs).lt_or_eq with hlt | heq
    · exact Or.inl (hlen ▸ hlt)
    · refine Or.inr ⟨hlen.symm.trans heq, ?_⟩
      by_contra hnot
      rw [not_or, not_not] at hnot
      have hopen : ¬ Closes sh.maxargs visit.text := by
        rintro (hshort | hfull)
        · omega
        · exact hfull.2.2 hnot.1
      exact hnot.2 (heq ▸ (hunclosed hopen).symm.trans hconf.terminated)
  · intro hfits
    have hlen : call.argc = (words isBlank visit.text).length := by
      rcases hfits with hshort | hfull <;> omega
    refine ⟨?_, fun i hi => ?_, hlen, hle⟩
    · by_cases hcloses : Closes sh.maxargs visit.text
      · exact hclosed hcloses
      · rcases hfits with hshort | ⟨hfull, hblank | hnull⟩
        · exact absurd (Or.inl hshort) hcloses
        · exact absurd (Or.inr ⟨hfull, sh.maxargs_pos, hblank⟩) hcloses
        · rw [hunclosed hcloses, hlen, hfull, hnull]
    · have hword := hparsed.word i (hargc ▸ hi)
      rwa [Nat.zero_add, ← hargv] at hword

/-! ## The condition -/

/-- **When the arguments of the handlers are safe.** -/
theorem runCommand_safe_iff (sh : Shell σ) (stack : Stack) (machine : Machine σ)
    (cmd : List UInt8) (flag : BitVec 32) :
    ArgumentsSafe sh (runCommand sh stack machine cmd flag) ↔
      ∀ visit ∈ (runCommand sh stack machine cmd flag).2.visits,
        Takes sh visit → Fits sh visit := by
  refine forall₂_congr fun visit hvisit => ?_
  obtain ⟨hcall, hresult⟩ := visit_of_runCommand stack machine cmd flag hvisit
  rw [hcall] at hresult ⊢
  constructor
  · rintro ⟨hconf, hmany⟩ ⟨cmdtp, hcmd, hmax, hbootd⟩
    by_cases hshort : (words isBlank visit.text).length < sh.maxargs
    · exact Or.inl hshort
    · have hpos := sh.maxargs_pos
      have hne : invoke sh visit.flag visit.text visit.argv ≠ none :=
        invoke_ne_none hcmd (by omega) hmax hbootd
      obtain ⟨call, hsome⟩ := Option.ne_none_iff_exists'.mp hne
      exact (conforms_iff_fits hsome).mp (hconf call (hsome ▸ rfl))
  · intro hfits
    cases hsome : invoke sh visit.flag visit.text visit.argv with
    | none =>
      exact ⟨fun _ h => absurd h (Option.not_mem_none _), fun _ => ⟨rfl, hresult hsome⟩⟩
    | some call =>
      obtain ⟨hcmd, hargc, -, -, hle, hbootd, -⟩ := invoked_of_eq_some hsome
      -- a piece with as many words as there can be is for a command that takes them
      have hfit : Fits sh visit := by
        rcases Nat.lt_or_ge (words isBlank visit.text).length sh.maxargs with hshort | hlong
        · exact Or.inl hshort
        · rw [min_eq_left hlong] at hargc
          exact hfits ⟨call.cmdtp, hcmd, hargc ▸ hle, hbootd⟩
      refine ⟨fun c hc => ?_, fun hmany => ?_⟩
      · obtain rfl := Option.some.inj hc
        exact (conforms_iff_fits hsome).mpr hfit
      · rcases hfit with hshort | hfull
        · exact absurd hmany hshort.not_gt
        · exact absurd hmany hfull.1.not_gt

/-! ## Twenty-five words -/

/-- A shell of the board with one command, which takes as many words as there can be. -/
def oneCommand : Shell Unit where
  cbsize := 384
  maxargs := 24
  getenv := fun _ _ => none
  findCmd := fun _ => some ⟨24, true, false, fun machine _ _ _ => (0, machine)⟩
  maxargs_pos := by decide
  maxargs_le := by
    intro name cmdtp h
    obtain rfl := Option.some.inj h
    exact le_rfl

/-- `"e e ... e"`, with 25 words. -/
def manyWords : List UInt8 := 101 :: (List.replicate 24 [32, 101]).flatten

/-- The piece of the line. -/
def manyVisit : Visit Unit :=
  ⟨manyWords, fun _ => none, 0, invoke oneCommand 0 manyWords fun _ => none⟩

theorem length_words_manyWords : (words isBlank manyWords).length = 25 := by
  decide +kernel

theorem manyVisit_mem (machine : Machine Unit) :
    manyVisit ∈ (runCommand oneCommand ⟨0, fun _ => none⟩ machine manyWords 0).2.visits := by
  have hpiece : findSep 0 false true manyWords = (manyWords, []) := by decide +kernel
  have hfinal : ∀ memory, finalToken oneCommand memory manyWords = manyWords := by
    intro memory
    change finalToken oneCommand () manyWords = manyWords
    decide +kernel
  have hcmd : ¬ (manyWords = [] ∨ oneCommand.cbsize ≤ manyWords.length) := by decide +kernel
  have hne : manyWords ≠ [] := by decide
  have hmem : manyVisit ∈ (runPiece oneCommand manyWords
      (startVars ⟨0, fun _ => none⟩ machine 0)).1.visits := by
    rw [runPiece_visits, hfinal]
    exact List.mem_append_right _ (List.mem_singleton_self _)
  rw [runCommand, if_neg hcmd, runLoop, dif_neg hne]
  dsimp only
  rw [hpiece]
  dsimp only
  split_ifs
  · exact hmem
  · rw [List.tail_nil, runLoop, dif_pos rfl]
    dsimp only
    exact hmem

/-- The command is executed, with the first 24 of its words. -/
theorem not_argumentsSafe :
    ¬ ArgumentsSafe oneCommand
      (runCommand oneCommand ⟨0, fun _ => none⟩ ⟨(), false⟩ manyWords 0) := by
  intro h
  have hmany := (h manyVisit (manyVisit_mem _)).2 (by
    rw [manyVisit, length_words_manyWords]
    decide)
  have hwords : 0 < (words isBlank manyWords).length := by
    rw [length_words_manyWords]
    decide
  have hcmd : oneCommand.findCmd ((words isBlank manyWords).headD []) =
      some ⟨24, true, false, fun machine _ _ _ => (0, machine)⟩ := rfl
  exact invoke_ne_none hcmd hwords le_rfl (fun hb => absurd hb Bool.false_ne_true) hmany.1

end Command
end EmevBsp
