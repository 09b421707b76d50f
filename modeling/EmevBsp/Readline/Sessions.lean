import EmevBsp.Readline.CreadLine

/-!
# Sessions of `readline` calls

A session is a list of keys, over all the lines that are read.  Beside the state of `cread_line` it
keeps the lines that were added to the history, latest first, and the keys of the current line.

Enter sets the cursor behind the latest line.  The exit for Ctrl-C leaves it where it is, so a line
that is interrupted while an old line is shown makes the next line begin there; and the row of a
line of 256 characters has no room for the terminator.
-/

namespace EmevBsp
namespace Readline

/-! ## Sessions -/

/-- A session: the state of `cread_line`, the lines that were added, and the keys of this line. -/
structure Session where
  cread : Cread
  entered : List (List UInt8)
  keys : List UInt8

/-- The begin of a line. -/
def Session.begin (hist : Hist) (entered : List (List UInt8)) : Session :=
  ⟨.start hist, entered, []⟩

/-- A key.  There is no result when it leaves the array of the history. -/
def Session.press (complete : Option (List UInt8 → List UInt8)) (s : Session) (key : UInt8) :
    Option Session :=
  match creadTurn complete s.cread key with
  | none => none
  | some (.more c) => some ⟨c, s.entered, s.keys ++ [key]⟩
  | some (.interrupt c) => some (.begin c.hist s.entered)
  | some (.enter c) =>
    match creadEnd c with
    | none => none
    | some h => some (.begin h (if Recorded c.line then c.line :: s.entered else s.entered))

/-- Some keys. -/
def Session.pressAll (complete : Option (List UInt8 → List UInt8)) (s : Session)
    (keys : List UInt8) : Option Session :=
  keys.foldlM (Session.press complete) s

/-- Sessions from the first call on, which calls `hist_init`. -/
def readlineSystem (complete : Option (List UInt8 → List UInt8)) :
    TransitionSystem Session UInt8 where
  init s := ∃ lines : List UInt8, lines.length = histMax * histSize ∧ s = .begin (histInit lines) []
  step s key t := s.press complete key = some t

/-- A key that does not add a line of 256 characters or more, and does not interrupt a line while an
old line is shown. -/
def EndsWell (s : Session) (key : UInt8) : Prop :=
  (key = 10 ∨ key = 13 → Recorded s.cread.line → s.cread.line.length < histSize) ∧
    (key = ctlCh 'c' → s.cread.escSave = [] →
      s.cread.hist.cur < 0 ∨ s.cread.hist.cur = s.cread.hist.addIdx)

variable {complete : Option (List UInt8 → List UInt8)} {s t : Session} {key : UInt8}

/-! ## The history follows the lines -/

/-- What holds in every session: at the begin of a line the cursor is behind the latest one. -/
structure Session.Inv (s : Session) : Prop where
  tracks : s.cread.hist.Tracks s.entered
  fresh : s.keys = [] →
    s.cread = .start s.cread.hist ∧ (s.entered = [] ∨ s.cread.hist.At s.entered 0)

theorem Hist.Holds.at_zero {h : Hist} {entered : List (List UInt8)} (hh : h.Holds entered)
    (hcur : h.cur = h.addIdx) : h.At entered 0 :=
  ⟨Nat.zero_le _, by rw [hcur, hh.addIdx, Nat.sub_zero]⟩

theorem inv_begin {h : Hist} {entered : List (List UInt8)} (hh : h.Holds entered)
    (hcur : h.cur = h.addIdx) : (Session.begin h entered).Inv :=
  ⟨⟨hh, .inr ⟨0, hh.at_zero hcur⟩⟩, fun _ => ⟨rfl, .inr (hh.at_zero hcur)⟩⟩

theorem Cread.zero_notMem_line (c : Cread) : (0 : UInt8) ∉ c.line := by
  intro h
  have hall := List.all_eq_true.mp (@List.all_takeWhile _ (fun b => decide (b ≠ (0 : UInt8))) c.buf)
  exact absurd (hall 0 h) (by decide)

theorem creadEnd_holds {c : Cread} {entered : List (List UInt8)} (hh : c.hist.Holds entered)
    (hfits : Recorded c.line → c.line.length < histSize) :
    ∃ h, creadEnd c = some h ∧ h.cur = h.addIdx ∧
      h.Holds (if Recorded c.line then c.line :: entered else entered) := by
  by_cases hrec : Recorded c.line
  · obtain ⟨h, hadd, hholds⟩ := creadAddToHist_holds hh c.zero_notMem_line (hfits hrec)
    refine ⟨{ h with cur := h.addIdx }, by rw [creadEnd, if_pos hrec, hadd], rfl, ?_⟩
    rw [if_pos hrec]
    exact ⟨hholds.length, hholds.addIdx, hholds.max, hholds.recent⟩
  · refine ⟨{ c.hist with cur := c.hist.addIdx }, by rw [creadEnd, if_neg hrec], rfl, ?_⟩
    rw [if_neg hrec]
    exact ⟨hh.length, hh.addIdx, hh.max, hh.recent⟩

theorem press_enter (hkey : key = 10 ∨ key = 13) (hpress : s.press complete key = some t) :
    t.keys = [] ∧
      t.entered = if Recorded s.cread.line then s.cread.line :: s.entered else s.entered := by
  have hturn : creadTurn complete s.cread key = some (.enter s.cread) := if_pos hkey
  rw [Session.press, hturn] at hpress
  dsimp only at hpress
  cases hend : creadEnd s.cread with
  | none =>
    rw [hend] at hpress
    exact absurd hpress.symm (Option.some_ne_none t)
  | some h =>
    rw [hend] at hpress
    rw [← Option.some.inj hpress]
    exact ⟨rfl, rfl⟩

theorem press_inv (hs : s.Inv) (hok : EndsWell s key) :
    ∃ t, s.press complete key = some t ∧ t.Inv := by
  obtain ⟨hline, hinterrupt⟩ := hok
  rcases @creadTurn_cases complete s.cread key with ⟨hkey, hturn⟩ | ⟨hkey, hesc, hturn⟩ | hmoves
  · obtain ⟨h, hend, hcur, hholds⟩ := creadEnd_holds hs.tracks.holds (hline hkey)
    refine ⟨_, ?_, inv_begin hholds hcur⟩
    rw [Session.press, hturn]
    dsimp only
    rw [hend]
  · refine ⟨.begin s.cread.hist s.entered, by rw [Session.press, hturn], hs.tracks, fun _ => ?_⟩
    refine ⟨rfl, ?_⟩
    rcases hs.tracks.cursor with ⟨-, hnil⟩ | ⟨k, hat⟩
    · exact .inl hnil
    · have hcur := hat.cur
      exact .inr (hs.tracks.holds.at_zero ((hinterrupt hkey hesc).resolve_left (by omega)))
  · obtain ⟨c, hturn, htracks⟩ := hmoves.tracks hs.tracks
    refine ⟨⟨c, s.entered, s.keys ++ [key]⟩, by rw [Session.press, hturn], htracks, fun hnil => ?_⟩
    exact absurd hnil (by simp)

theorem inv_of_reachable (h : ((readlineSystem complete).restrict EndsWell).Reachable s) :
    s.Inv := by
  refine TransitionSystem.Reachable.invariant_restrict (fun s hs => ?_)
    (fun s key t hs hok hstep => ?_) h
  · obtain ⟨lines, hlength, rfl⟩ := hs
    exact ⟨⟨histInit_holds hlength, .inl ⟨show (-1 : ℤ) < 0 by decide, rfl⟩⟩,
      fun _ => ⟨rfl, .inl rfl⟩⟩
  · obtain ⟨t', hpress, ht'⟩ := press_inv hs hok
    obtain rfl := Option.some.inj (hstep.symm.trans hpress)
    exact ht'

/-! ## Going through the lines -/

theorem press_ctrlP {k : ℕ} (hs : Shows s.cread s.entered k) :
    ∃ t, s.press complete (ctlCh 'p') = some t ∧ t.entered = s.entered ∧
      Shows t.cread s.entered (older s.entered k) := by
  obtain ⟨c, hturn, hc⟩ := hs.prev complete
  exact ⟨⟨c, s.entered, s.keys ++ [ctlCh 'p']⟩, by rw [Session.press, hturn], rfl, hc⟩

theorem press_ctrlN {k : ℕ} (hs : Shows s.cread s.entered k) :
    ∃ t, s.press complete (ctlCh 'n') = some t ∧ t.entered = s.entered ∧
      Shows t.cread s.entered (k - 1) := by
  obtain ⟨c, hturn, hc⟩ := hs.next complete
  exact ⟨⟨c, s.entered, s.keys ++ [ctlCh 'n']⟩, by rw [Session.press, hturn], rfl, hc⟩

theorem pressAll_append {keys keys' : List UInt8} :
    s.pressAll complete (keys ++ keys') =
      (s.pressAll complete keys).bind fun t => t.pressAll complete keys' := by
  rw [Session.pressAll, List.foldlM_append]
  rfl

theorem pressAll_singleton : s.pressAll complete [key] = s.press complete key := by
  rw [Session.pressAll, List.foldlM_cons]
  cases s.press complete key with
  | none => rfl
  | some t => rfl

theorem pressAll_ctrlP {j : ℕ} (hs : Shows s.cread s.entered j) (k : ℕ)
    (hk : j + k ≤ min s.entered.length (histMax - 1)) :
    ∃ t, s.pressAll complete (List.replicate k (ctlCh 'p')) = some t ∧ t.entered = s.entered ∧
      Shows t.cread s.entered (j + k) := by
  induction k generalizing s j with
  | zero => exact ⟨s, rfl, rfl, hs⟩
  | succ k ih =>
    obtain ⟨r, hpress, hentered, hr⟩ := @press_ctrlP complete s j hs
    rw [older, if_pos (by omega), ← hentered] at hr
    obtain ⟨t, hall, hsame, ht⟩ := ih hr (by rw [hentered]; omega)
    refine ⟨t, ?_, hsame.trans hentered, ?_⟩
    · rw [List.replicate_succ, Session.pressAll, List.foldlM_cons, hpress]
      exact hall
    · rw [hentered, Nat.add_assoc, Nat.add_comm 1 k] at ht
      exact ht

theorem Session.Inv.shows (hs : s.Inv) (hkeys : s.keys = []) (hne : s.entered ≠ []) :
    Shows s.cread s.entered 0 := by
  obtain ⟨hstart, hat⟩ := hs.fresh hkeys
  have hbuf : s.cread.buf = [] := by rw [hstart, Cread.start]
  have hnum : s.cread.num = 0 := by rw [hstart, Cread.start]
  refine ⟨hs.tracks.holds, hat.resolve_left hne, ?_, ?_, by rw [hstart, Cread.start]⟩
  · rw [List.getElem?_cons_zero, hbuf]
  · rw [hnum, hbuf, List.length_nil]

/-- **Going through the history.**  In every session, no key leaves the array; and at the begin of a
line, Ctrl-P `k` times shows the `k`-th latest line, and Ctrl-N behind it the line that was shown
before. -/
theorem history_recall (h : ((readlineSystem complete).restrict EndsWell).Reachable s) :
    (∀ key, EndsWell s key → ∃ t, s.press complete key = some t) ∧
    (s.keys = [] →
      (∀ k ≤ min s.entered.length (histMax - 1), ∃ t,
        s.pressAll complete (List.replicate k (ctlCh 'p')) = some t ∧
          ([] :: s.entered)[k]? = some t.cread.buf) ∧
      ∀ k < min s.entered.length (histMax - 1), ∃ t,
        s.pressAll complete (List.replicate (k + 1) (ctlCh 'p') ++ [ctlCh 'n']) = some t ∧
          ([] :: s.entered)[k]? = some t.cread.buf) := by
  have hs := inv_of_reachable h
  refine ⟨fun key hok => ?_, fun hkeys => ⟨fun k hk => ?_, fun k hk => ?_⟩⟩
  · obtain ⟨t, hpress, -⟩ := @press_inv complete s key hs hok
    exact ⟨t, hpress⟩
  · rcases Nat.eq_zero_or_pos k with rfl | hpos
    · refine ⟨s, rfl, ?_⟩
      rw [(hs.fresh hkeys).1]
      rfl
    · have hne : s.entered ≠ [] := List.ne_nil_of_length_pos (by omega)
      obtain ⟨t, hall, -, ht⟩ :=
        @pressAll_ctrlP complete s 0 (hs.shows hkeys hne) k (by rwa [Nat.zero_add])
      rw [Nat.zero_add] at ht
      exact ⟨t, hall, ht.line⟩
  · have hne : s.entered ≠ [] := List.ne_nil_of_length_pos (by omega)
    obtain ⟨r, hall, hentered, hr⟩ :=
      @pressAll_ctrlP complete s 0 (hs.shows hkeys hne) (k + 1) (by omega)
    rw [← hentered] at hr
    obtain ⟨t, hpress, -, ht⟩ := @press_ctrlN complete r (0 + (k + 1)) hr
    refine ⟨t, ?_, ?_⟩
    · rw [pressAll_append, hall, Option.bind_some, pressAll_singleton, hpress]
    · have hline := ht.line
      rwa [hentered, Nat.zero_add, Nat.add_sub_cancel] at hline

theorem exists_entered_a :
    ∃ s, ((readlineSystem none).restrict EndsWell).Reachable s ∧ s.keys = [] ∧
      s.entered = [[97]] := by
  let h := histInit (List.replicate (histMax * histSize) 0)
  have hstart : ((readlineSystem none).restrict EndsWell).Reachable (.begin h []) :=
    .init ⟨_, List.length_replicate, rfl⟩
  have hletter : ((readlineSystem none).restrict EndsWell).Reachable
      ⟨⟨h, [97], 1, true, []⟩, [], [97]⟩ := by
    refine .step (a := 97) hstart ⟨⟨fun hkey => ?_, fun hkey => ?_⟩, rfl⟩
    · exact absurd hkey (by decide)
    · exact absurd hkey (by decide)
  have hok : EndsWell ⟨⟨h, [97], 1, true, []⟩, [], [97]⟩ 10 :=
    ⟨fun _ _ => show 1 < 256 by decide, fun hkey => absurd hkey (by decide)⟩
  obtain ⟨t, hpress, -⟩ := @press_inv none _ 10 (inv_of_reachable hletter) hok
  obtain ⟨hkeys, hentered⟩ := press_enter (.inl rfl) hpress
  exact ⟨t, .step hletter ⟨hok, hpress⟩, hkeys, hentered⟩

theorem history_recall_one :
    ∃ s, ((readlineSystem none).restrict EndsWell).Reachable s ∧ s.entered = [[97]] ∧
      (∀ k ≤ 1, ∃ t, s.pressAll none (List.replicate k (ctlCh 'p')) = some t ∧
        ([] :: [[97]])[k]? = some t.cread.buf) := by
  obtain ⟨s, hs, hkeys, hentered⟩ := exists_entered_a
  obtain ⟨-, hrecall⟩ := history_recall hs
  obtain ⟨hprev, -⟩ := hrecall hkeys
  rw [hentered] at hprev
  exact ⟨s, hs, hentered, hprev⟩

theorem press_ctrlP_begin {h : Hist} (hstay : histPrev h = (none, h))
    (entered : List (List UInt8)) :
    (Session.begin h entered).press complete (ctlCh 'p') =
      some ⟨.start h, entered, [ctlCh 'p']⟩ := by
  have hturn : creadTurn complete (.start h) (ctlCh 'p') = some (.more (.start h)) := by
    rw [creadTurn_ctrlP rfl, show (Cread.start h).hist = h from rfl, hstay]
    rfl
  have hcread : (Session.begin h entered).cread = .start h := rfl
  rw [Session.press, hcread, hturn]
  rfl

theorem press_ctrlC (hesc : s.cread.escSave = []) :
    s.press complete (ctlCh 'c') = some (.begin s.cread.hist s.entered) := by
  have hturn : creadTurn complete s.cread (ctlCh 'c') = some (.interrupt s.cread) := by
    rw [creadTurn, if_neg (by decide), hesc, creadSwitch, if_pos rfl]
  rw [Session.press, hturn]

/-- After a line that is interrupted while an old line is shown, Ctrl-P does not show the latest
line. -/
theorem not_history_recall :
    ¬ ∀ s, (readlineSystem none).Reachable s → s.keys = [] →
      ∀ k ≤ min s.entered.length (histMax - 1), ∀ t,
        s.pressAll none (List.replicate k (ctlCh 'p')) = some t →
          ([] :: s.entered)[k]? = some t.cread.buf := by
  intro hall
  obtain ⟨s, hs, hkeys, hentered⟩ := exists_entered_a
  have hshows := (inv_of_reachable hs).shows hkeys (by rw [hentered]; exact List.cons_ne_nil _ _)
  obtain ⟨r, hpress, hsame, hr⟩ := @press_ctrlP none s 0 hshows
  rw [hentered] at hr hsame
  have hreach : (readlineSystem none).Reachable (.begin r.cread.hist [[97]]) := by
    rw [← hsame]
    exact .step (.step (TransitionSystem.reachable_of_restrict hs) hpress) (press_ctrlC hr.escSave)
  -- The cursor is still at the line, and there is none before it.
  have hstay : histPrev r.cread.hist = (none, r.cread.hist) :=
    (histPrev_at hr.holds hr.cursor).2 rfl
  have hagain : (Session.begin r.cread.hist [[97]]).pressAll none (List.replicate 1 (ctlCh 'p')) =
      some ⟨.start r.cread.hist, [[97]], [ctlCh 'p']⟩ :=
    pressAll_singleton.trans (press_ctrlP_begin hstay [[97]])
  have hshown := hall _ hreach rfl 1 (Nat.le_refl 1) _ hagain
  exact absurd hshown (show ([[], [97]] : List (List UInt8))[1]? ≠ some [] by decide)

end Readline
end EmevBsp

/-!
# A line editor

What `cread_line` is for, without a buffer: a line with a cursor in it, as the text before the
cursor and the text from it on.  A key stands for an edit of the line; the lines that were entered
before are kept, latest first, and one of them may be shown.

* `Edit.apply`: **what each edit does to the line.**
* `Editor.press`: which edit a key stands for, escape sequences included.
* `Editor.Fits`: the keys that leave the line shorter than a row of the history.
-/

namespace EmevBsp
namespace Readline

/-! ## Edits -/

/-- A line with a cursor, and whether characters are inserted or replace what they stand on. -/
structure Line where
  before : List UInt8
  after : List UInt8
  insert : Bool
  deriving DecidableEq

/-- The line as a whole. -/
def Line.text (l : Line) : List UInt8 := l.before ++ l.after

/-- The empty line. -/
def Line.empty : Line := ⟨[], [], true⟩

/-- What a key can do to the line. -/
inductive Edit where
  | char (c : UInt8)
  | home
  | right
  | left
  | delete
  | backspace
  | kill
  | killLine
  | endOfLine
  | toggleInsert
  | replace (text : List UInt8)

/-- **What an edit does.**  A character at the end of the line is appended in both modes. -/
def Edit.apply : Edit → Line → Line
  | .char c, l =>
    { l with before := l.before ++ [c], after := if l.insert then l.after else l.after.tail }
  | .home, l => { l with before := [], after := l.before ++ l.after }
  | .right, l =>
    { l with before := l.before ++ l.after.take 1, after := l.after.drop 1 }
  | .left, l =>
    { l with before := l.before.dropLast, after := l.before.getLast?.toList ++ l.after }
  | .delete, l => { l with after := l.after.tail }
  | .backspace, l => { l with before := l.before.dropLast }
  | .kill, l => { l with after := [] }
  | .killLine, l => { l with before := [], after := [] }
  | .endOfLine, l => { l with before := l.before ++ l.after, after := [] }
  | .toggleInsert, l => { l with insert := !l.insert }
  | .replace text, l => { l with before := text, after := [] }

/-- Some characters, one behind the other. -/
def Line.type (l : Line) (str : List UInt8) : Line := str.foldl (fun l c => Edit.apply (.char c) l) l

theorem Line.length_le_type (l : Line) (str : List UInt8) :
    l.text.length ≤ (l.type str).text.length := by
  induction str generalizing l with
  | nil => exact Nat.le_refl _
  | cons c str ih =>
    refine Nat.le_trans ?_ (ih _)
    simp only [Edit.apply, Line.text, List.length_append, List.length_singleton]
    split
    · omega
    · rw [List.length_tail]
      omega

/-! ## Keys -/

/-- The line, the characters of an escape sequence that has begun, the lines that were entered, and
which of them is shown, the latest being the first. -/
structure Editor where
  line : Line
  pending : List UInt8
  entered : List (List UInt8)
  shown : ℕ

/-- The first line. -/
def Editor.start : Editor := ⟨.empty, [], [], 0⟩

/-- An edit of the line. -/
def Editor.edit (e : Editor) (op : Edit) : Editor := { e with line := op.apply e.line }

/-- Go to the `k`-th line and show it; at `0` no line is shown. -/
def Editor.recall (e : Editor) (k : ℕ) : Editor :=
  if k = e.shown then e
  else { e.edit (.replace (([] :: e.entered).getD k [])) with shown := k }

/-- A key outside escape sequences.  `complete` is the text that completes a line, `none` when Tab
is a character. -/
def Editor.command (complete : Option (List UInt8 → CString)) (e : Editor) (key : UInt8) :
    Editor :=
  if key = ctlCh 'c' then { e with line := .empty }
  else if key = ctlCh 'p' then e.recall (older e.entered e.shown)
  else if key = ctlCh 'n' then e.recall (e.shown - 1)
  else if key = 0x1b then { e with pending := [key] }
  else if key = ctlCh 'a' then e.edit .home
  else if key = ctlCh 'f' then e.edit .right
  else if key = ctlCh 'b' then e.edit .left
  else if key = ctlCh 'd' then e.edit .delete
  else if key = ctlCh 'k' then e.edit .kill
  else if key = ctlCh 'e' then e.edit .endOfLine
  else if key = ctlCh 'o' then e.edit .toggleInsert
  else if key = ctlCh 'x' ∨ key = ctlCh 'u' then e.edit .killLine
  else if key = 255 ∨ key = 127 ∨ key = 8 then e.edit .backspace
  else
    match complete with
    | none => e.edit (.char key)
    | some complete =>
      if key ≠ 9 then e.edit (.char key)
      else if e.line.after = [] then
        e.edit (.replace (e.line.before ++ (complete e.line.before).bytes))
      else e

/-- The line that Enter ends, up to a NUL, goes to the lines entered before. -/
def Editor.enter (e : Editor) : Editor :=
  let text := e.line.text.takeWhile (· ≠ 0)
  ⟨.empty, [], if Recorded text then text :: e.entered else e.entered, 0⟩

/-- A key. -/
def Editor.press (complete : Option (List UInt8 → CString)) (e : Editor) (key : UInt8) : Editor :=
  if key = 10 ∨ key = 13 then e.enter
  else
    match e.pending with
    | [] => e.command complete key
    | [esc] =>
      if key = 91 then { e with pending := [esc, key] }
      else { e with line := e.line.type [esc], pending := [] }
    | pending =>
      match escKey key with
      | some key => { e with pending := [] }.command complete key
      | none => { e with line := e.line.type (pending ++ [key]), pending := [] }

/-- Some keys. -/
def Editor.pressAll (complete : Option (List UInt8 → CString)) (e : Editor) (keys : List UInt8) :
    Editor :=
  keys.foldl (Editor.press complete) e

/-- The key completes the line. -/
def Editor.Completes (complete : Option (List UInt8 → CString)) (e : Editor) (key : UInt8) :
    Prop :=
  complete ≠ none ∧ key = 9 ∧ e.pending = [] ∧ e.line.after = []

/-- The key leaves the line shorter than a row of the history; and a line is completed only when it
holds no NUL and the console buffer has room. -/
def Editor.Fits (cbsize : ℕ) (complete : Option (List UInt8 → CString)) (e : Editor)
    (key : UInt8) : Prop :=
  (e.press complete key).line.text.length < histSize ∧
    (e.Completes complete key →
      (0 : UInt8) ∉ e.line.before ∧ (e.press complete key).line.text.length + 2 < cbsize)

/-- Every key of a sequence does. -/
def Editor.FitsAll (cbsize : ℕ) (complete : Option (List UInt8 → CString)) :
    Editor → List UInt8 → Prop
  | _, [] => True
  | e, key :: keys => e.Fits cbsize complete key ∧ (e.press complete key).FitsAll cbsize complete keys

end Readline
end EmevBsp
