import EmevBsp.Command.AutoComplete
import Mathlib.Data.List.DropRight

/-!
# What a line is completed to

The candidates of a line are the names that begin with its last word, up to the first dot where it
is a command, or all the names where the line goes on behind a blank.  Not all of them need be
shown: there is room for 18 names, and for 512 bytes of variables, and then for dots.

The suffix is cut from a name behind the length of the last word.  That is the rest of the name only
if the name begins with the word, and the word is not the command in front of a blank; where the
word is longer than the only name, what stands in memory behind the name is read.

* `completeCmdv_eq`: the names a call finds.
* `cmdAutoComplete_eq`: how it goes on with them.
* `completes_word_iff`, `completes_elsewhere_iff`: when the suffix completes the last word.
* `Fine`: the lines at which it does, or none is put there.
* `cmdAutoComplete_right_iff`: **these are the lines at which a tab completes.**
* `not_right_lengthModifier`: `cp.b` is longer than `cp`.
-/

namespace EmevBsp
namespace Command
namespace Completion

open Words CommonPrefix

/-! ## The candidates -/

/-- The text behind the last blank. -/
def lastWord (text : List UInt8) : List UInt8 := text.rtakeWhile fun c => !isBlank c

/-- The last word, which blanks may follow. -/
def typed (text : List UInt8) : List UInt8 := (words isBlank text).getLastD []

/-- What a line is completed with: the names that begin with some text. -/
inductive Sought where
  | cmds (start : List UInt8)
  | vars (start : List UInt8)
  | nothing

/-- The command is found, and `var_complete` completes it. -/
def takesVariables (set : Setting) (cmd : List UInt8) : Bool :=
  (findCmdTbl cmd set.table).any CmdTbl.varComplete

/-- The first word is a command, up to its first dot; the second one a variable, if the command
takes variables. -/
def sought (set : Setting) (text : List UInt8) : Sought :=
  match words isBlank text with
  | [] => .cmds []
  | [cmd] =>
    if lastWord text ≠ [] then .cmds (stem cmd)
    else if takesVariables set cmd then .vars [] else .nothing
  | [cmd, var] =>
    if lastWord text ≠ [] ∧ takesVariables set cmd then .vars var else .nothing
  | _ => .nothing

/-- The names of the commands or of the variables. -/
def Sought.names (set : Setting) : Sought → List (List UInt8)
  | .cmds start => (set.table.map CmdTbl.name).filter fun name => decide (start <+: name)
  | .vars start => (set.env.map Entry.name).filter fun name => decide (start <+: name)
  | .nothing => []

/-- All that the line can go on with. -/
def candidates (set : Setting) (text : List UInt8) : List (List UInt8) :=
  (sought set text).names set

/-! ## The names that are shown -/

/-- What a name takes of the buffer of `var_complete`. -/
def Sought.size : Sought → List UInt8 → ℕ
  | .vars _, name => name.length + 1
  | _, _ => 0

/-- The names there is room for, in number and in `size`; if there are more, the dots behind
them. -/
def listed (size : List UInt8 → ℕ) : (room bufsz : ℕ) → List (List UInt8) → List (List UInt8)
  | _, _, [] => []
  | 0, _, _ :: _ => [dots]
  | room + 1, bufsz, name :: names =>
    if size name ≤ bufsz then name :: listed size room (bufsz - size name) names else [dots]

/-- The candidates that are shown: at most 18, and variables only of 512 bytes in all. -/
def shown (set : Setting) (text : List UInt8) : List (List UInt8) :=
  listed (sought set text).size 18 512 (candidates set text)

theorem listed_cases (size : List UInt8 → ℕ) (room bufsz : ℕ) (names : List (List UInt8)) :
    listed size room bufsz names = names ∨
      ∃ front name rest, names = front ++ name :: rest ∧
        listed size room bufsz names = front ++ [dots] ∧
          (front = [] → room = 0 ∨ bufsz < size name) := by
  fun_induction listed size room bufsz names with
  | case1 => exact Or.inl rfl
  | case2 bufsz name names => exact Or.inr ⟨[], name, names, rfl, rfl, fun _ => Or.inl rfl⟩
  | case3 room bufsz name names hfits ih =>
    rcases ih with hall | ⟨front, next, rest, hnames, hlisted, -⟩
    · exact Or.inl (by rw [hall])
    · refine Or.inr ⟨name :: front, next, rest, ?_, ?_, fun h => absurd h (List.cons_ne_nil _ _)⟩
      · rw [hnames, List.cons_append]
      · rw [hlisted, List.cons_append]
  | case4 room bufsz name names hfull =>
    exact Or.inr ⟨[], name, names, rfl, rfl, fun _ => Or.inr (Nat.lt_of_not_le hfull)⟩

theorem listed_eq_nil_iff (size : List UInt8 → ℕ) (room bufsz : ℕ) (names : List (List UInt8)) :
    listed size room bufsz names = [] ↔ names = [] := by
  fun_cases listed size room bufsz names <;> simp

/-! ## The loops over the names -/

theorem listCommands_eq (wanted : List UInt8 → Bool) (maxv : ℕ) (table : List CmdTbl)
    (nFound bufsz : ℕ) :
    listCommands wanted maxv table nFound =
      listed (fun _ => 0) (maxv - 2 - nFound) bufsz ((table.map CmdTbl.name).filter wanted) := by
  induction table generalizing nFound with
  | nil => rw [listCommands, List.map_nil, List.filter_nil, listed]
  | cons cmdtp table ih =>
    rw [listCommands, List.map_cons, List.filter_cons]
    by_cases hwanted : wanted cmdtp.name = true
    · rw [if_pos hwanted, if_pos hwanted]
      by_cases hroom : nFound ≥ maxv - 2
      · rw [if_pos hroom, Nat.sub_eq_zero_of_le hroom, listed]
      · obtain ⟨room, hsub⟩ : ∃ room, maxv - 2 - nFound = room + 1 :=
          Nat.exists_eq_add_one.mpr (by omega)
        have hnext : maxv - 2 - (nFound + 1) = room := by omega
        rw [if_neg hroom, ih, hsub, hnext, listed, if_pos (Nat.zero_le bufsz), Nat.sub_zero]
    · rw [if_neg hwanted, if_neg hwanted, ih]

theorem partialMatch_eq (cmd name : List UInt8) :
    partialMatch cmd name = decide (stem cmd <+: name) := by
  refine decide_eq_decide.mpr ⟨fun h => ?_, fun h => ⟨h.length_le.not_gt, ?_⟩⟩
  · exact List.prefix_iff_eq_take.mpr h.2.symm
  · exact (List.prefix_iff_eq_take.mp h).symm

theorem Entry.skipped_iff (e : Entry) (var : List UInt8) :
    var.length > 0 ∧ (e.name.length < var.length ∨ e.text.take var.length ≠ var) ↔
      ¬ var <+: e.name := by
  have hname : e.name <+: e.text := List.takeWhile_prefix _
  constructor
  · rintro ⟨-, hlen | hne⟩ hvar
    · exact hvar.length_le.not_gt hlen
    · exact hne (List.prefix_iff_eq_take.mp (hvar.trans hname)).symm
  · intro hvar
    refine ⟨List.length_pos_of_ne_nil fun hnil => hvar (hnil ▸ List.nil_prefix), ?_⟩
    by_contra hboth
    obtain ⟨hlen, heq⟩ := not_or.mp hboth
    refine hvar (List.prefix_of_prefix_length_le ?_ hname (Nat.le_of_not_lt hlen))
    exact List.prefix_iff_eq_take.mpr (not_not.mp heq).symm

theorem envComplete_eq (var : List UInt8) (maxv : ℕ) (env : List Entry) (found bufsz : ℕ) :
    envComplete var maxv env found bufsz =
      listed (fun name => name.length + 1) (maxv - 2 - found) bufsz
        ((env.map Entry.name).filter fun name => decide (var <+: name)) := by
  induction env generalizing found bufsz with
  | nil => rw [envComplete, List.map_nil, List.filter_nil, listed]
  | cons e env ih =>
    rw [envComplete, List.map_cons, List.filter_cons]
    simp only [e.skipped_iff var, decide_eq_true_eq]
    by_cases hvar : var <+: e.name
    · rw [if_neg (not_not.mpr hvar), if_pos hvar]
      by_cases hroom : found ≥ maxv - 2
      · rw [if_pos (Or.inl hroom), Nat.sub_eq_zero_of_le hroom, listed]
      · obtain ⟨room, hsub⟩ : ∃ room, maxv - 2 - found = room + 1 :=
          Nat.exists_eq_add_one.mpr (by omega)
        have hnext : maxv - 2 - (found + 1) = room := by omega
        rw [hsub, listed]
        by_cases hfits : e.name.length + 1 ≤ bufsz
        · rw [if_neg (not_or.mpr ⟨hroom, hfits.not_gt⟩), if_pos hfits, ih, hnext, Nat.sub_sub]
        · rw [if_pos (Or.inr (Nat.lt_of_not_le hfits)), if_neg hfits]
    · rw [if_pos hvar, if_neg hvar, ih]

/-! ## The words of the line -/

theorem makeArgvLoop_eq (left : ℕ) (s : List UInt8) :
    makeArgvLoop left s = (words isBlank s).take left := by
  induction left generalizing s with
  | zero => rw [makeArgvLoop, List.take_zero]
  | succ left ih =>
    simp only [makeArgvLoop]
    rw [← words_dropWhile s]
    cases hs : s.dropWhile isBlank with
    | nil => rw [if_pos rfl, words_nil, List.take_nil]
    | cons c t =>
      have hc : isBlank c = false := by
        have hhead := List.head_dropWhile_not isBlank (l := s) (by rw [hs]; simp)
        simpa only [hs, List.head_cons] using hhead
      rw [if_neg (List.cons_ne_nil c t), words_cons hc, List.take_succ_cons]
      rcases dropWhile_not_eq (p := isBlank) (l := c :: t) with hrest | ⟨b, r, hb, hrest⟩
      · rw [hrest, if_pos rfl, words_nil, List.take_nil]
      · rw [hrest, if_neg (List.cons_ne_nil b r), ih, words_cons_sep hb, List.tail_cons]

theorem isSpace_getLastD_iff {text : List UInt8} (hnul : (0 : UInt8) ∉ text) :
    isSpace (text.getLastD 0) = true ↔ lastWord text = [] := by
  rcases List.eq_nil_or_concat text with rfl | ⟨front, c, rfl⟩
  · exact iff_of_true rfl rfl
  · rw [List.concat_eq_append] at hnul ⊢
    have hc : c ≠ 0 := fun h => hnul (by simp [h])
    rw [List.getLastD_concat, isSpace, beq_eq_false_iff_ne.mpr hc, Bool.false_or, lastWord]
    cases hblank : isBlank c with
    | true =>
      rw [List.rtakeWhile_concat_neg _ _ _ (by simp [hblank])]
      exact iff_of_true rfl rfl
    | false =>
      rw [List.rtakeWhile_concat_pos _ _ _ (by simp [hblank])]
      exact iff_of_false Bool.false_ne_true (List.append_ne_nil_of_right_ne_nil _ (by simp))

theorem lastWord_cases (text : List UInt8) : lastWord text = [] ∨ lastWord text = typed text := by
  rw [or_iff_not_imp_left]
  intro hne
  have hword : ∀ c ∈ lastWord text, isBlank c = false := by
    intro c hc
    simpa using List.mem_rtakeWhile_imp hc
  have hfront : ∀ h : text.rdropWhile (fun c => !isBlank c) ≠ [],
      isBlank ((text.rdropWhile fun c => !isBlank c).getLast h) = true := by
    intro h
    simpa using List.rdropWhile_last_not (fun c => !isBlank c) text h
  have hwords := words_append hfront hword hne
  rw [lastWord, List.rdropWhile_append_rtakeWhile] at hwords
  rw [typed, hwords, List.getLastD_concat, lastWord]

/-! ## The matches -/

theorem listCommands_start (set : Setting) {wanted : List UInt8 → Bool} {start : List UInt8}
    (hwanted : ∀ name, wanted name = decide (start <+: name)) :
    listCommands wanted 20 set.table 0 =
      listed (Sought.cmds start).size 18 512 ((Sought.cmds start).names set) := by
  rw [listCommands_eq wanted 20 set.table 0 512, funext hwanted]
  rfl

theorem listed_nothing (set : Setting) :
    listed Sought.nothing.size 18 512 (Sought.nothing.names set) = [] := rfl

theorem completeCmdv_command (set : Setting) {cmd : List UInt8} {rest : List (List UInt8)}
    {lastChar : UInt8} (hmore : rest.length > 0 ∨ isSpace lastChar = true) :
    completeCmdv set (cmd :: rest) lastChar 20 =
      if takesVariables set cmd then some (varComplete set.env (cmd :: rest) lastChar 20)
      else some [] := by
  rw [completeCmdv, if_neg (by decide), if_pos hmore, takesVariables]
  cases findCmdTbl cmd set.table with
  | none => rfl
  | some cmdtp => rfl

theorem envComplete_start (set : Setting) (start : List UInt8) :
    envComplete start 20 set.env 0 512 =
      listed (Sought.vars start).size 18 512 ((Sought.vars start).names set) := by
  rw [envComplete_eq]
  rfl

/-- **What `complete_cmdv` finds**: the candidates that are shown. -/
theorem completeCmdv_eq (set : Setting) {text : List UInt8} (hnul : (0 : UInt8) ∉ text) :
    completeCmdv set (makeArgv text (maxargs + 1)) (text.getLastD 0) 20 =
      some (shown set text) := by
  have hargv : makeArgv text (maxargs + 1) = (words isBlank text).take 24 := makeArgvLoop_eq 24 text
  have hspace := isSpace_getLastD_iff hnul
  generalize text.getLastD 0 = lastChar at hspace ⊢
  rw [hargv, shown, candidates, sought]
  match words isBlank text with
  | [] =>
    rw [List.take_nil, completeCmdv, if_neg (by decide)]
    exact congrArg some (listCommands_start set fun name => (decide_eq_true List.nil_prefix).symm)
  | [cmd] =>
    rw [List.take_of_length_le (by simp)]
    dsimp only
    by_cases hlast : lastWord text = []
    · have hvar : varComplete set.env [cmd] lastChar 20 = envComplete [] 20 set.env 0 512 :=
        if_pos ⟨hspace.mpr hlast, rfl⟩
      rw [completeCmdv_command set (Or.inr (hspace.mpr hlast)), if_neg (not_not.mpr hlast), hvar,
        envComplete_start]
      cases takesVariables set cmd with
      | true => rfl
      | false => rfl
    · rw [if_pos hlast, completeCmdv, if_neg (by decide), if_neg (by simp [hspace, hlast])]
      exact congrArg some (listCommands_start set (partialMatch_eq cmd))
  | [cmd, var] =>
    rw [List.take_of_length_le (by simp), completeCmdv_command set (Or.inl (by simp))]
    dsimp only
    by_cases hlast : lastWord text = []
    · have hvar : varComplete set.env [cmd, var] lastChar 20 = [] := by
        rw [varComplete, if_neg (by simp), if_neg (by simp [hspace, hlast])]
      rw [hvar, if_neg (not_and_of_not_left _ (not_not.mpr hlast)), listed_nothing, ite_self]
    · have hvar : varComplete set.env [cmd, var] lastChar 20 =
          envComplete var 20 set.env 0 512 := by
        rw [varComplete, if_neg (by simp), if_pos ⟨mt hspace.mp hlast, rfl⟩, List.getD_cons_succ,
          List.getD_cons_zero]
      rw [hvar, envComplete_start]
      cases takesVariables set cmd with
      | true =>
        rw [if_pos rfl, if_pos ⟨hlast, rfl⟩]
      | false =>
        rw [if_neg Bool.false_ne_true, if_neg (not_and_of_not_right _ Bool.false_ne_true)]
        rfl
  | cmd :: var :: w :: ws =>
    have hvar (rest : List (List UInt8)) :
        varComplete set.env (cmd :: var :: w :: rest) lastChar 20 = [] := by
      rw [varComplete, if_neg (by simp), if_neg (by simp)]
    simp only [List.take_succ_cons]
    rw [completeCmdv_command set (Or.inl (by simp)), hvar, listed_nothing, ite_self]

/-! ## What the matches say -/

/-- What the last word is completed to: the only name that is shown and a space, or what the names
have in common. -/
def target : List (List UInt8) → List UInt8
  | [name] => name ++ [32]
  | names => common names

/-- The last word and the suffix are the only candidate and a space, or what all candidates begin
with. -/
def Completes (cands : List (List UInt8)) (last suffix : List UInt8) : Prop :=
  (∃ name, cands = [name] ∧ last ++ suffix = name ++ [32]) ∨
    (2 ≤ cands.length ∧ ∀ name ∈ cands, last ++ suffix <+: name)

theorem findCommonPrefix_eq (name : List UInt8) (names : List (List UInt8)) :
    findCommonPrefix (name :: names) ≤ name.length ∧
      name.take (findCommonPrefix (name :: names)) = common (name :: names) := by
  have hfold := foldl_agree names name (Nat.le_refl name.length)
  rw [List.take_length] at hfold
  exact hfold

theorem target_of_two (name next : List UInt8) (names : List (List UInt8)) :
    target (name :: next :: names) = common (name :: next :: names) := rfl

/-- The names that are shown and the candidates: all of them, or the dots in the place of one that
is not shown. -/
def Shows (names cands : List (List UInt8)) : Prop :=
  names = cands ∨ ∃ front name rest, cands = front ++ name :: rest ∧ names = front ++ [dots] ∧
    (front = [] → dots.length < name.length)

section Completes

variable {names cands : List (List UInt8)} {word last : List UInt8}

theorem completes_word_iff (hlt : word.length < (target cands).length) :
    Completes cands word ((target cands).drop word.length) ↔ word <+: target cands := by
  have happend : word ++ (target cands).drop word.length = target cands ↔ word <+: target cands :=
    List.prefix_iff_eq_append.symm
  match cands with
  | [] => exact absurd hlt (Nat.not_lt_zero _)
  | [name] =>
    rw [Completes, or_iff_left (fun h => absurd h.1 (by simp)), ← happend]
    constructor
    · rintro ⟨name', hname, heq⟩
      rw [heq, List.singleton_inj.mp hname]
      rfl
    · exact fun heq => ⟨name, rfl, heq⟩
  | name :: next :: rest =>
    rw [target_of_two] at hlt happend ⊢
    rw [Completes, or_iff_right (fun h => by obtain ⟨_, h, -⟩ := h; simp at h)]
    constructor
    · rintro ⟨-, hall⟩
      have hword := (List.prefix_append word _).trans (hall name List.mem_cons_self)
      exact List.prefix_of_prefix_length_le hword (common_isPrefix List.mem_cons_self) hlt.le
    · intro hword
      refine ⟨by simp, fun name' hname => ?_⟩
      rw [happend.mpr hword]
      exact common_isPrefix hname

theorem completes_elsewhere_iff (hshows : Shows names cands) (hword : word ≠ [])
    (hlt : word.length < (target names).length) (hlast : last = [] ∨ last = word)
    (helse : last ≠ word ∨ names ≠ cands) :
    Completes cands last ((target names).drop word.length) ↔
      2 ≤ cands.length ∧ ∀ name ∈ cands, last ++ (target names).drop word.length <+: name := by
  refine or_iff_right ?_
  rintro ⟨name, rfl, heq⟩
  have hlen := congrArg List.length heq
  have hpos := List.length_pos_of_ne_nil hword
  rw [List.length_append, List.length_drop, List.length_append, List.length_singleton] at hlen
  rcases hshows with rfl | ⟨front, name', rest, hcands, rfl, hlong⟩
  · -- the whole name is shown, but the line ends in a blank
    have hnil := hlast.resolve_right (helse.resolve_right (not_not.mpr rfl))
    have htarget : (target [name]).length = name.length + 1 := List.length_append
    rw [hnil, htarget, List.length_nil] at hlen
    omega
  · -- only the dots are shown, in the place of a longer name
    obtain ⟨rfl, hname⟩ : front = [] ∧ name' = name := by
      cases front with
      | nil => exact ⟨rfl, (List.cons.inj hcands).1.symm⟩
      | cons x front => simp at hcands
    have htarget : (target ([] ++ [dots])).length = dots.length + 1 := rfl
    have hle : last.length ≤ word.length := by
      rcases hlast with rfl | rfl
      · exact Nat.zero_le _
      · exact Nat.le_refl _
    have hlong := hlong rfl
    rw [hname] at hlong
    omega

end Completes

/-! ## What a call leaves -/

theorem shows_shown (set : Setting) (text : List UInt8) :
    Shows (shown set text) (candidates set text) := by
  refine (listed_cases (sought set text).size 18 512 (candidates set text)).imp id ?_
  rintro ⟨front, name, rest, hnames, hlisted, hfirst⟩
  refine ⟨front, name, rest, hnames, hlisted, fun hnil => ?_⟩
  have hsize : (sought set text).size name ≤ name.length + 1 := by
    cases sought set text with
    | vars start => exact Nat.le_refl _
    | cmds start => exact Nat.zero_le _
    | nothing => exact Nat.zero_le _
  have hlong := (hfirst hnil).resolve_left (by decide)
  have hdots : dots.length = 3 := rfl
  omega

theorem zero_notMem_candidates {set : Setting} {text name : List UInt8}
    (hname : name ∈ candidates set text) : (0 : UInt8) ∉ name := by
  rw [candidates] at hname
  cases hsought : sought set text with
  | cmds start =>
    rw [hsought] at hname
    obtain ⟨cmdtp, -, rfl⟩ := List.mem_map.mp (List.mem_filter.mp hname).1
    exact cmdtp.noNul
  | vars start =>
    rw [hsought] at hname
    obtain ⟨e, -, rfl⟩ := List.mem_map.mp (List.mem_filter.mp hname).1
    exact fun h => e.noNul ((List.takeWhile_sublist _).subset h)
  | nothing =>
    rw [hsought] at hname
    exact absurd hname List.not_mem_nil

theorem zero_notMem_shown {set : Setting} {text name : List UInt8}
    (hname : name ∈ shown set text) : (0 : UInt8) ∉ name := by
  rcases shows_shown set text with hall | ⟨front, next, rest, hcands, hlisted, -⟩
  · exact zero_notMem_candidates (hall ▸ hname)
  · rw [hlisted, List.mem_append, List.mem_singleton] at hname
    rcases hname with hname | rfl
    · exact zero_notMem_candidates (hcands ▸ List.mem_append_left _ hname)
    · decide

theorem zero_notMem_target {names : List (List UInt8)} (hnul : ∀ name ∈ names, (0 : UInt8) ∉ name) :
    (0 : UInt8) ∉ target names := by
  match names with
  | [] => exact List.not_mem_nil
  | [name] =>
    rw [target, List.mem_append, not_or]
    exact ⟨hnul name List.mem_cons_self, by decide⟩
  | name :: next :: rest =>
    exact fun h => hnul name List.mem_cons_self ((common_isPrefix List.mem_cons_self).subset h)

theorem getLast?_words (text : List UInt8) :
    words isBlank text = [] ∧ (words isBlank text).getLast? = none ∧ typed text = [] ∨
      words isBlank text ≠ [] ∧ (words isBlank text).getLast? = some (typed text) := by
  rw [typed, List.getLastD_eq_getLast?]
  by_cases hwords : words isBlank text = []
  · rw [hwords]
    exact Or.inl ⟨rfl, rfl, rfl⟩
  · rw [List.getLast?_eq_some_getLast hwords]
    exact Or.inr ⟨hwords, rfl⟩

theorem typed_ne_nil {text : List UInt8} (hwords : words isBlank text ≠ []) : typed text ≠ [] := by
  rw [typed, List.getLastD_eq_getLast?, List.getLast?_eq_some_getLast hwords, Option.getD_some]
  exact ne_nil_of_mem_words (List.getLast_mem hwords)

theorem getLast?_makeArgv {set : Setting} {text : List UInt8} (hshown : shown set text ≠ []) :
    (makeArgv text (maxargs + 1)).getLast? = (words isBlank text).getLast? := by
  have hargv : makeArgv text (maxargs + 1) = (words isBlank text).take 24 := makeArgvLoop_eq 24 text
  have hshort : (words isBlank text).length ≤ 2 := by
    by_contra hlong
    refine hshown ?_
    rw [shown, candidates, sought]
    match words isBlank text, hlong with
    | [], hlong => exact absurd (Nat.zero_le 2) hlong
    | [cmd], hlong => exact absurd (Nat.le_succ 1) hlong
    | [cmd, var], hlong => exact absurd (Nat.le_refl 2) hlong
    | cmd :: var :: w :: ws, _ => rfl
  rw [hargv, List.take_of_length_le (hshort.trans (by decide))]

/-- The console buffer, with the line that was typed. -/
structure Line where
  text : List UInt8
  noNul : (0 : UInt8) ∉ text
  /-- What stands behind the terminator. -/
  rest : List UInt8
  length_eq : text.length + 1 + rest.length = cbsize

def Line.buf (line : Line) : List UInt8 := line.text ++ 0 :: line.rest

theorem Line.takeString_buf (line : Line) : takeString line.buf = some line.text :=
  takeString_append line.noNul line.rest

theorem Line.length_buf (line : Line) : line.buf.length = cbsize := by
  rw [Line.buf, List.length_append, List.length_cons, ← line.length_eq]
  omega

/-- The result of a call that puts nothing behind the line. -/
def Line.same (line : Line) (col ret : ℕ) : Result := ⟨line.buf, line.text.length, col, ret⟩

section Call

variable {set : Setting} {line : Line}

theorem cmdAutoComplete_of_nil (h : shown set line.text = []) (col : ℕ) :
    ∃ ret, cmdAutoComplete set sysPrompt line.buf line.text.length col =
      some (line.same col ret) := by
  have hlen : ¬ line.text.length ≥ cbsize := by
    have := line.length_eq
    omega
  rw [cmdAutoComplete, if_neg (not_not.mpr rfl), line.takeString_buf]
  simp only [if_neg hlen, completeCmdv_eq set line.noNul, h]
  exact ⟨_, rfl⟩

/-- **How a call goes on with the names it shows.**  Without a word it reads before the first entry
of `argv`; with one, the suffix is what the target has more than the word, and if it has not, the
only name is read behind its terminator and several names are listed. -/
theorem cmdAutoComplete_eq (h : shown set line.text ≠ []) (col : ℕ) :
    cmdAutoComplete set sysPrompt line.buf line.text.length col =
      if (typed line.text).length < (target (shown set line.text)).length then
        if words isBlank line.text = [] then none
        else putSuffix line.buf line.text.length line.text.length col
          ((target (shown set line.text)).drop (typed line.text).length)
      else if (shown set line.text).length = 1 then none
      else some (line.same col 1) := by
  have hlen : ¬ line.text.length ≥ cbsize := by
    have := line.length_eq
    omega
  rw [cmdAutoComplete, if_neg (not_not.mpr rfl), line.takeString_buf]
  simp only [if_neg hlen, completeCmdv_eq set line.noNul, getLast?_makeArgv h]
  match hshown : shown set line.text with
  | [] => exact absurd hshown h
  | [name] =>
    have htarget : (target [name]).length = name.length + 1 := List.length_append
    dsimp only
    rcases getLast?_words line.text with ⟨hnil, hnone, htyped⟩ | ⟨hne, hsome⟩
    · rw [hnone, Option.bind_none, htyped, htarget, List.length_nil,
        if_pos (Nat.succ_pos name.length), if_pos hnil]
    · rw [hsome, Option.bind_some, textFrom, htarget]
      by_cases hle : (typed line.text).length ≤ name.length
      · rw [if_pos hle, Option.bind_some, if_pos (Nat.lt_succ_of_le hle), if_neg hne, target,
          List.drop_append_of_le_length hle]
      · rw [if_neg hle, Option.bind_none, if_neg (mt Nat.le_of_lt_succ hle),
          if_pos List.length_singleton]
  | name :: next :: names =>
    obtain ⟨hle, htake⟩ := findCommonPrefix_eq name (next :: names)
    have hlength : (target (name :: next :: names)).length =
        findCommonPrefix (name :: next :: names) := by
      rw [target_of_two, ← htake, List.length_take_of_le hle]
    have htwo : ¬ (name :: next :: names).length = 1 := by simp
    rw [if_neg htwo, hlength]
    dsimp only
    rcases getLast?_words line.text with ⟨hnil, hnone, htyped⟩ | ⟨hne, hsome⟩
    · rw [hnone, Option.bind_none, htyped, if_pos hnil, List.length_nil]
      by_cases hzero : findCommonPrefix (name :: next :: names) = 0
      · rw [if_pos hzero, if_neg (Nat.le_of_eq hzero).not_gt]
        rfl
      · rw [if_neg hzero, if_pos (Nat.pos_of_ne_zero hzero)]
    · rw [hsome, Option.bind_some, if_neg hne]
      by_cases hlt : (typed line.text).length < findCommonPrefix (name :: next :: names)
      · rw [if_neg (Nat.ne_zero_of_lt hlt), if_pos hlt, if_pos hlt, textFrom,
          if_pos (hlt.le.trans hle), Option.bind_some, target_of_two, ← htake, List.drop_take]
      · rw [if_neg hlt, if_neg hlt, ite_self]
        rfl

/-! ## Where a tab completes -/

/-- What a tab is to do at a line: the text stays, and a suffix is put behind it, if there is one,
that completes the last word; the buffer keeps its size, and `*np` and `*colp` count the suffix. -/
def Right (set : Setting) (prompt : CString) (line : Line) (col : ℕ) : Prop :=
  ∃ suffix r, cmdAutoComplete set prompt line.buf line.text.length col = some r ∧
    takeString r.buf = some (line.text ++ suffix) ∧ r.buf.length = cbsize ∧
    r.n = line.text.length + suffix.length ∧ r.col = col + suffix.length ∧
    (suffix = [] ∨ Completes (candidates set line.text) (lastWord line.text) suffix)

theorem right_of_same {prompt : CString} {col ret : ℕ}
    (h : cmdAutoComplete set prompt line.buf line.text.length col = some (line.same col ret)) :
    Right set prompt line col := by
  refine ⟨[], line.same col ret, h, ?_, line.length_buf, rfl, rfl, Or.inl rfl⟩
  rw [List.append_nil]
  exact line.takeString_buf

theorem putSuffix_of_lt {s : List UInt8} (hnul : (0 : UInt8) ∉ s)
    (hlt : line.text.length + s.length < cbsize - 2) (col : ℕ) :
    ∃ r, putSuffix line.buf line.text.length line.text.length col s = some r ∧
      takeString r.buf = some (line.text ++ s) ∧ r.buf.length = cbsize ∧
      r.n = line.text.length + s.length ∧ r.col = col + s.length := by
  have hlen := line.length_eq
  -- the suffix and its terminator replace as many bytes
  have hold : ((0 :: line.rest).take (s.length + 1)).length = s.length + 1 := by
    rw [List.length_take, List.length_cons]
    omega
  have hcopy := strcpy_append s line.text _ ((0 :: line.rest).drop (s.length + 1)) hold
  rw [List.take_append_drop] at hcopy
  refine ⟨⟨line.text ++ (s ++ 0 :: (0 :: line.rest).drop (s.length + 1)),
    line.text.length + s.length, col + s.length, 1⟩, ?_, ?_, ?_, rfl, rfl⟩
  · rw [putSuffix, if_neg hlt.not_ge, Line.buf, hcopy, Option.map_some]
  · rw [← List.append_assoc, takeString_append]
    rw [List.mem_append, not_or]
    exact ⟨line.noNul, hnul⟩
  · simp only [List.length_append, List.length_cons, List.length_drop]
    omega

theorem right_iff_completes {s : List UInt8} {col : ℕ} (hne : s ≠ []) (hnul : (0 : UInt8) ∉ s)
    (hlt : line.text.length + s.length < cbsize - 2)
    (h : cmdAutoComplete set sysPrompt line.buf line.text.length col =
      putSuffix line.buf line.text.length line.text.length col s) :
    Right set sysPrompt line col ↔ Completes (candidates set line.text) (lastWord line.text) s := by
  obtain ⟨r, hput, htext, hbuf, hn, hcol⟩ := putSuffix_of_lt hnul hlt col
  constructor
  · rintro ⟨suffix, r', hcall, htext', -, -, -, hsuffix⟩
    have hr : r' = r := Option.some.inj (hcall.symm.trans (h.trans hput))
    rw [hr, htext] at htext'
    have hs : s = suffix := List.append_cancel_left (Option.some.inj htext')
    exact hs ▸ hsuffix.resolve_left (hs ▸ hne)
  · exact fun hsuffix => ⟨s, r, h.trans hput, htext, hbuf, hn, hcol, Or.inr hsuffix⟩

/-- When a tab completes.  `typed` is what the names are cut behind, and `lastWord` what they are
put behind; the two are the same unless a blank ends the line. -/
inductive Fine (set : Setting) (prompt : CString) (text : List UInt8) : Prop
  /-- Another prompt is shown. -/
  | elsewhere (h : prompt ≠ sysPrompt)
  /-- There is no candidate. -/
  | noCandidate (h : candidates set text = [])
  /-- Several names are shown, and they have no more in common than the length of the word. -/
  | several (htwo : 2 ≤ (shown set text).length)
      (h : (target (shown set text)).length ≤ (typed text).length)
  /-- The suffix does not fit. -/
  | full (hword : words isBlank text ≠ [])
      (hlt : (typed text).length < (target (shown set text)).length)
      (h : cbsize - 2 ≤ text.length + ((target (shown set text)).length - (typed text).length))
  /-- All candidates are shown, the line ends in a word, and they begin with all of it. -/
  | whole (hlast : lastWord text ≠ []) (hall : shown set text = candidates set text)
      (hlt : (typed text).length < (target (shown set text)).length)
      (h : typed text <+: target (shown set text))
  /-- A blank ends the line, or dots are shown, and by chance all of several candidates begin with
  what follows. -/
  | chance (hword : words isBlank text ≠ [])
      (helse : lastWord text = [] ∨ shown set text ≠ candidates set text)
      (hlt : (typed text).length < (target (shown set text)).length)
      (htwo : 2 ≤ (candidates set text).length)
      (h : ∀ name ∈ candidates set text,
        lastWord text ++ (target (shown set text)).drop (typed text).length <+: name)

theorem shown_eq_nil_iff {text : List UInt8} : shown set text = [] ↔ candidates set text = [] :=
  listed_eq_nil_iff _ _ _ _

theorem words_ne_nil_of_lastWord {text : List UInt8} (hlast : lastWord text ≠ []) :
    words isBlank text ≠ [] := by
  intro hnil
  have htyped : typed text = [] := by rw [typed, hnil, List.getLastD_nil]
  exact hlast ((lastWord_cases text).elim id fun h => h.trans htyped)

theorem fine_iff_of_lt {text : List UInt8} (hshown : shown set text ≠ [])
    (hlt : (typed text).length < (target (shown set text)).length) :
    Fine set sysPrompt text ↔ words isBlank text ≠ [] ∧
      (cbsize - 2 ≤ text.length + ((target (shown set text)).length - (typed text).length) ∨
        Completes (candidates set text) (lastWord text)
          ((target (shown set text)).drop (typed text).length)) := by
  have hcases := lastWord_cases text
  have helsewhere (hwords : words isBlank text ≠ []) :=
    completes_elsewhere_iff (shows_shown set text) (typed_ne_nil hwords) hlt hcases
  constructor
  · intro hfine
    cases hfine with
    | elsewhere h => exact absurd rfl h
    | noCandidate h => exact absurd (shown_eq_nil_iff.mpr h) hshown
    | several htwo h => exact absurd hlt h.not_gt
    | full hword hlt h => exact ⟨hword, Or.inl h⟩
    | whole hlast hall hlt h =>
      refine ⟨words_ne_nil_of_lastWord hlast, Or.inr ?_⟩
      rw [hall] at hlt h ⊢
      rw [hcases.resolve_left hlast]
      exact (completes_word_iff hlt).mpr h
    | chance hword helse hlt htwo h =>
      refine ⟨hword, Or.inr ((helsewhere hword ?_).mpr ⟨htwo, h⟩)⟩
      exact helse.imp_left fun hnil heq => typed_ne_nil hword (heq.symm.trans hnil)
  · rintro ⟨hword, hfull | hcompletes⟩
    · exact .full hword hlt hfull
    · by_cases hwhole : lastWord text = typed text ∧ shown set text = candidates set text
      · obtain ⟨hlast, hall⟩ := hwhole
        refine .whole (hlast ▸ typed_ne_nil hword) hall hlt ?_
        rw [hall] at hlt hcompletes ⊢
        rw [hlast] at hcompletes
        exact (completes_word_iff hlt).mp hcompletes
      · have helse := not_and_or.mp hwhole
        obtain ⟨htwo, hbegin⟩ := (helsewhere hword helse).mp hcompletes
        exact .chance hword (helse.imp_left hcases.resolve_right) hlt htwo hbegin

theorem fine_iff_of_not_lt {text : List UInt8} (hshown : shown set text ≠ [])
    (hlt : ¬ (typed text).length < (target (shown set text)).length) :
    Fine set sysPrompt text ↔ 2 ≤ (shown set text).length := by
  constructor
  · intro hfine
    cases hfine with
    | elsewhere h => exact absurd rfl h
    | noCandidate h => exact absurd (shown_eq_nil_iff.mpr h) hshown
    | several htwo h => exact htwo
    | full hword hlt' h => exact absurd hlt' hlt
    | whole hlast hall hlt' h => exact absurd hlt' hlt
    | chance hword helse hlt' htwo h => exact absurd hlt' hlt
  · exact fun htwo => .several htwo (Nat.le_of_not_lt hlt)

/-- **A tab completes**, and only completes, exactly at the lines that are `Fine`. -/
theorem cmdAutoComplete_right_iff (set : Setting) (prompt : CString) (line : Line) (col : ℕ) :
    Right set prompt line col ↔ Fine set prompt line.text := by
  by_cases hprompt : prompt = sysPrompt
  case neg =>
    have hcall : cmdAutoComplete set prompt line.buf line.text.length col =
        some (line.same col 0) := if_pos hprompt
    exact iff_of_true (right_of_same hcall) (.elsewhere hprompt)
  subst hprompt
  by_cases hshown : shown set line.text = []
  · obtain ⟨ret, hcall⟩ := cmdAutoComplete_of_nil hshown col
    exact iff_of_true (right_of_same hcall) (.noCandidate (shown_eq_nil_iff.mp hshown))
  have hcall := cmdAutoComplete_eq hshown col
  by_cases hlt : (typed line.text).length < (target (shown set line.text)).length
  · rw [if_pos hlt] at hcall
    rw [fine_iff_of_lt hshown hlt]
    by_cases hword : words isBlank line.text = []
    · -- `argv[-1]` is read
      rw [if_pos hword] at hcall
      refine iff_of_false ?_ fun h => h.1 hword
      rintro ⟨suffix, r, hsome, -⟩
      exact Option.some_ne_none r (hsome.symm.trans hcall)
    · rw [if_neg hword] at hcall
      rw [and_iff_right hword, ← List.length_drop]
      have hne : (target (shown set line.text)).drop (typed line.text).length ≠ [] :=
        List.drop_eq_nil_iff.not.mpr hlt.not_ge
      have hnul : (0 : UInt8) ∉ (target (shown set line.text)).drop (typed line.text).length :=
        fun h => zero_notMem_target (fun _ => zero_notMem_shown) (List.mem_of_mem_drop h)
      generalize (target (shown set line.text)).drop (typed line.text).length = s
        at hcall hne hnul ⊢
      by_cases hfull : cbsize - 2 ≤ line.text.length + s.length
      · rw [putSuffix, if_pos hfull] at hcall
        exact iff_of_true (right_of_same hcall) (Or.inl hfull)
      · rw [or_iff_right hfull]
        exact right_iff_completes hne hnul (Nat.lt_of_not_le hfull) hcall
  · rw [if_neg hlt] at hcall
    rw [fine_iff_of_not_lt hshown hlt]
    by_cases hone : (shown set line.text).length = 1
    · -- the name is read behind its terminator
      rw [if_pos hone] at hcall
      refine iff_of_false ?_ fun h => absurd hone (by omega)
      rintro ⟨suffix, r, hsome, -⟩
      exact Option.some_ne_none r (hsome.symm.trans hcall)
    · rw [if_neg hone] at hcall
      have hpos := List.length_pos_of_ne_nil hshown
      exact iff_of_true (right_of_same hcall) (by omega)

end Call

/-- The command `cp`, and no other. -/
def onlyCp : Setting where
  table := [⟨[99, 112], by decide, false⟩]
  env := []

/-- `cp.b`. -/
def lineCpB : Line where
  text := [99, 112, 46, 98]
  noNul := by decide
  rest := List.replicate 379 0
  length_eq := by rw [List.length_replicate]; rfl

/-- **The length modifier is counted.**  `cp` is the only candidate for `cp.b`, and the suffix is
read two places behind its terminator. -/
theorem not_right_lengthModifier :
    ¬ ∀ (set : Setting) (prompt : CString) (line : Line) (col : ℕ), Right set prompt line col := by
  intro h
  obtain ⟨suffix, r, hsome, -⟩ := h onlyCp sysPrompt lineCpB 13
  have hshown : shown onlyCp lineCpB.text = [[99, 112]] := by decide
  have htyped : typed lineCpB.text = lineCpB.text := by decide
  have hcall := cmdAutoComplete_eq (by rw [hshown]; exact List.cons_ne_nil _ _) 13
  rw [hshown, htyped, if_neg (by decide), if_pos List.length_singleton] at hcall
  exact Option.some_ne_none r (hsome.symm.trans hcall)

end Completion
end Command
end EmevBsp
