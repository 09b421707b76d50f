import EmevBsp.Readline.History
import EmevBsp.Library.TransitionSystem

/-!
# `common/main.c`: editing a line

`cread_line` reads keys until the line is ended by Enter or by Ctrl-C.  What is echoed to the
console is not modelled: the line that is shown is the part of the buffer before `eol_num`.  The
state of the loop keeps the history beside the locals, and a session is a list of keys; a new line
begins behind each end of a line.
-/

namespace EmevBsp
namespace Readline

/-! ## The functions of the source -/

def ctlCh (c : Char) : UInt8 := UInt8.ofNat (c.toNat - 'a'.toNat + 1)

def creadHistChar : UInt8 := 33

/-- The locals of `cread_line` beside the history: the bytes of `buf` before `eol_num`, and those of
`esc_save` before `esc_len`. -/
structure Cread where
  hist : Hist
  buf : List UInt8
  num : ℕ
  insert : Bool
  escSave : List UInt8

/-- A new line. -/
def Cread.start (hist : Hist) : Cread := ⟨hist, [], 0, true, []⟩

/-- `cread_add_char`, where `*len` is `MAX_CMDBUF_SIZE`. -/
def creadAddChar (s : Cread) (ichar : UInt8) : Cread :=
  if s.insert ∨ s.num = s.buf.length then
    if s.buf.length > histSize - 1 then s
    else { s with buf := s.buf.insertIdx s.num ichar, num := s.num + 1 }
  else { s with buf := s.buf.set s.num ichar, num := s.num + 1 }

def creadAddStr (s : Cread) (str : List UInt8) : Cread := str.foldl creadAddChar s

/-- How a turn of the loop ends: with the next key, by `break`, or by `return (-1)`. -/
inductive Turn where
  | more (s : Cread)
  | enter (s : Cread)
  | interrupt (s : Cread)

/-- The case of Ctrl-P and Ctrl-N, behind the call of `hist_prev` or `hist_next`. -/
def recallLine (s : Cread) (hline : Option HistLine × Hist) : Option Turn :=
  match hline.1 with
  | none => some (.more { s with hist := hline.2 })
  | some l =>
    match hline.2.string l with
    | none => none
    | some buf => some (.more { s with hist := hline.2, buf := buf, num := buf.length })

/-- The cases of the second `switch` that edit the line.  `complete` is `cmd_auto_complete`, from
the line to the line; `none` without `CONFIG_AUTO_COMPLETE`. -/
def creadEdit (complete : Option (List UInt8 → List UInt8)) (s : Cread) (ichar : UInt8) : Cread :=
  if ichar = 0x1b then { s with escSave := [ichar] }
  else if ichar = ctlCh 'a' then { s with num := 0 }
  else if ichar = ctlCh 'f' then { s with num := if s.num < s.buf.length then s.num + 1 else s.num }
  else if ichar = ctlCh 'b' then { s with num := s.num - 1 }
  else if ichar = ctlCh 'd' then { s with buf := s.buf.eraseIdx s.num }
  else if ichar = ctlCh 'k' then { s with buf := s.buf.take s.num }
  else if ichar = ctlCh 'e' then { s with num := s.buf.length }
  else if ichar = ctlCh 'o' then { s with insert := !s.insert }
  else if ichar = ctlCh 'x' ∨ ichar = ctlCh 'u' then { s with buf := [], num := 0 }
  else if ichar = 255 ∨ ichar = 127 ∨ ichar = 8 then
    if s.num = 0 then s else { s with buf := s.buf.eraseIdx (s.num - 1), num := s.num - 1 }
  else
    match complete with
    | none => creadAddChar s ichar
    | some complete =>
      if ichar ≠ 9 then creadAddChar s ichar
      else if s.num < s.buf.length then s
      else { s with buf := complete s.buf, num := (complete s.buf).length }

/-- The second `switch` of the loop. -/
def creadSwitch (complete : Option (List UInt8 → List UInt8)) (s : Cread) (ichar : UInt8) :
    Option Turn :=
  if ichar = ctlCh 'c' then some (.interrupt s)
  else if ichar = ctlCh 'p' then recallLine s (histPrev s.hist)
  else if ichar = ctlCh 'n' then recallLine s (histNext s.hist)
  else some (.more (creadEdit complete s ichar))

/-- The key that ends an escape sequence. -/
def escKey (ichar : UInt8) : Option UInt8 :=
  if ichar = 68 then some (ctlCh 'b')
  else if ichar = 67 then some (ctlCh 'f')
  else if ichar = 72 then some (ctlCh 'a')
  else if ichar = 65 then some (ctlCh 'p')
  else if ichar = 66 then some (ctlCh 'n')
  else none

/-- The body of the loop of `cread_line`. -/
def creadTurn (complete : Option (List UInt8 → List UInt8)) (s : Cread) (ichar : UInt8) :
    Option Turn :=
  if ichar = 10 ∨ ichar = 13 then some (.enter s)
  else
    match s.escSave with
    | [] => creadSwitch complete s ichar
    | [esc] =>
      if ichar = 91 then some (.more { s with escSave := [esc, ichar] })
      else some (.more { creadAddStr s [esc] with escSave := [] })
    | escSave =>
      match escKey ichar with
      | some ichar => creadSwitch complete { s with escSave := [] } ichar
      | none => some (.more { creadAddStr s (escSave ++ [ichar]) with escSave := [] })

/-- The line in the buffer, at the end. -/
def Cread.line (s : Cread) : List UInt8 := s.buf.takeWhile (· ≠ 0)

/-- Whether a line is added to the history. -/
def Recorded (line : List UInt8) : Prop := line ≠ [] ∧ line.head? ≠ some creadHistChar

instance (line : List UInt8) : Decidable (Recorded line) := inferInstanceAs (Decidable (_ ∧ _))

/-- What `cread_line` does behind the loop. -/
def creadEnd (s : Cread) : Option Hist :=
  match if Recorded s.line then creadAddToHist s.hist s.line else some s.hist with
  | none => none
  | some h => some { h with cur := h.addIdx }

/-! ## What a key does to the history -/

theorem creadAddChar_hist (s : Cread) (ichar : UInt8) : (creadAddChar s ichar).hist = s.hist := by
  unfold creadAddChar
  split_ifs <;> rfl

theorem creadAddStr_hist (s : Cread) (str : List UInt8) : (creadAddStr s str).hist = s.hist := by
  unfold creadAddStr
  induction str generalizing s with
  | nil => rfl
  | cons b str ih => rw [List.foldl_cons, ih, creadAddChar_hist]

variable {complete : Option (List UInt8 → List UInt8)}

/-- The history stays, or the cursor is moved by Ctrl-P or by Ctrl-N. -/
inductive Moves (s : Cread) : Option Turn → Prop where
  | stay (c : Cread) : c.hist = s.hist → Moves s (some (.more c))
  | prev (c : Cread) : c.hist = s.hist → Moves s (recallLine c (histPrev s.hist))
  | next (c : Cread) : c.hist = s.hist → Moves s (recallLine c (histNext s.hist))

theorem hist_ite {p : Prop} [Decidable p] {a b : Cread} {h : Hist} (ha : a.hist = h)
    (hb : b.hist = h) : (if p then a else b).hist = h := by
  split
  · exact ha
  · exact hb

theorem creadEdit_hist (s : Cread) (ichar : UInt8) :
    (creadEdit complete s ichar).hist = s.hist := by
  iterate 9 refine hist_ite rfl ?_
  refine hist_ite (hist_ite rfl rfl) ?_
  cases complete with
  | none => exact creadAddChar_hist s ichar
  | some complete => exact hist_ite (creadAddChar_hist s ichar) (hist_ite rfl rfl)

theorem Moves.of_hist {s s' : Cread} (h : s'.hist = s.hist) {t : Option Turn} (ht : Moves s' t) :
    Moves s t := by
  cases ht with
  | stay c hc => exact .stay c (hc.trans h)
  | prev c hc => rw [h]; exact .prev c (hc.trans h)
  | next c hc => rw [h]; exact .next c (hc.trans h)

theorem creadSwitch_cases (s : Cread) (ichar : UInt8) :
    (ichar = ctlCh 'c' ∧ creadSwitch complete s ichar = some (.interrupt s)) ∨
      Moves s (creadSwitch complete s ichar) := by
  by_cases hc : ichar = ctlCh 'c'
  · exact .inl ⟨hc, if_pos hc⟩
  · refine .inr ?_
    rw [creadSwitch, if_neg hc]
    split
    · exact .prev s rfl
    · split
      · exact .next s rfl
      · exact .stay _ (creadEdit_hist s ichar)

theorem escKey_ne {ichar key : UInt8} (h : escKey ichar = some key) : key ≠ ctlCh 'c' := by
  unfold escKey at h
  split_ifs at h <;> rw [← Option.some.inj h] <;> decide

/-- **What one key can do**: end the line by Enter, end it by Ctrl-C outside an escape sequence, or
edit it. -/
theorem creadTurn_cases (s : Cread) (ichar : UInt8) :
    ((ichar = 10 ∨ ichar = 13) ∧ creadTurn complete s ichar = some (.enter s)) ∨
      (ichar = ctlCh 'c' ∧ s.escSave = [] ∧ creadTurn complete s ichar = some (.interrupt s)) ∨
      Moves s (creadTurn complete s ichar) := by
  by_cases henter : ichar = 10 ∨ ichar = 13
  · exact .inl ⟨henter, if_pos henter⟩
  · refine .inr ?_
    rw [creadTurn, if_neg henter]
    rcases hsave : s.escSave with _ | ⟨esc, _ | ⟨esc', escs⟩⟩
    · rcases creadSwitch_cases s ichar with ⟨hc, hturn⟩ | hmoves
      · exact .inl ⟨hc, rfl, hturn⟩
      · exact .inr hmoves
    · refine .inr ?_
      dsimp only
      split
      · exact .stay _ rfl
      · exact .stay _ (creadAddStr_hist s [esc])
    · dsimp only
      cases hkey : escKey ichar with
      | none => exact .inr (.stay _ (creadAddStr_hist s _))
      | some key =>
        rcases @creadSwitch_cases complete { s with escSave := [] } key with ⟨hc, -⟩ | hmoves
        · exact absurd hc (escKey_ne hkey)
        · have hback : Moves s (creadSwitch complete { s with escSave := [] } key) :=
            @Moves.of_hist s { s with escSave := [] } rfl _ hmoves
          exact .inr hback

/-! ## Ctrl-P and Ctrl-N -/

/-- The line before the `k`-th one, when the ring still has it. -/
def older (entered : List (List UInt8)) (k : ℕ) : ℕ :=
  if k < min entered.length (histMax - 1) then k + 1 else k

/-- The `k`-th line is shown; at `0` no line is. -/
structure Shows (s : Cread) (entered : List (List UInt8)) (k : ℕ) : Prop where
  holds : s.hist.Holds entered
  cursor : s.hist.At entered k
  line : ([] :: entered)[k]? = some s.buf
  num : s.num = s.buf.length
  escSave : s.escSave = []

variable {s : Cread} {entered : List (List UInt8)} {k : ℕ}

theorem creadTurn_ctrlP (hesc : s.escSave = []) :
    creadTurn complete s (ctlCh 'p') = recallLine s (histPrev s.hist) := by
  rw [creadTurn, if_neg (by decide), hesc, creadSwitch, if_neg (by decide), if_pos rfl]

theorem creadTurn_ctrlN (hesc : s.escSave = []) :
    creadTurn complete s (ctlCh 'n') = recallLine s (histNext s.hist) := by
  rw [creadTurn, if_neg (by decide), hesc, creadSwitch, if_neg (by decide), if_neg (by decide),
    if_pos rfl]

theorem Shows.recallLine_row (hesc : s.escSave = []) {h : Hist} (hh : h.Holds entered)
    (hat : h.At entered (k + 1)) :
    ∃ c, recallLine s (some (.row ((entered.length - (k + 1)) % histMax)), h) = some (.more c) ∧
      Shows c entered (k + 1) := by
  have hlt : k < entered.length := Nat.lt_of_lt_of_le hat.le (Nat.min_le_left _ _)
  have hline : entered[k]? = some entered[k] := List.getElem?_eq_getElem hlt
  have hstring := hh.string_row hat.le hline
  refine ⟨⟨h, entered[k], entered[k].length, s.insert, s.escSave⟩, ?_, hh, hat, hline, rfl, hesc⟩
  rw [recallLine]
  dsimp only
  rw [hstring]

variable (complete) in
theorem Shows.prev (hs : Shows s entered k) :
    ∃ c, creadTurn complete s (ctlCh 'p') = some (.more c) ∧ Shows c entered (older entered k) := by
  rw [creadTurn_ctrlP hs.escSave, older]
  obtain ⟨hgo, hstay⟩ := histPrev_at hs.holds hs.cursor
  split_ifs with hlt
  · obtain ⟨h, hprev, hh, hat⟩ := hgo hlt
    rw [hprev]
    exact Shows.recallLine_row hs.escSave hh hat
  · rw [hstay (Nat.le_antisymm hs.cursor.le (Nat.le_of_not_lt hlt))]
    exact ⟨s, rfl, hs⟩

variable (complete) in
theorem Shows.next (hs : Shows s entered k) :
    ∃ c, creadTurn complete s (ctlCh 'n') = some (.more c) ∧ Shows c entered (k - 1) := by
  rw [creadTurn_ctrlN hs.escSave]
  obtain ⟨hstay, hlast, hgo⟩ := histNext_at hs.holds hs.cursor
  rcases k with _ | _ | k
  · rw [hstay rfl]
    exact ⟨s, rfl, hs⟩
  · obtain ⟨h, hnext, hh, hat⟩ := hlast rfl
    rw [hnext]
    exact ⟨⟨h, [], 0, s.insert, s.escSave⟩, rfl, hh, hat, rfl, rfl, hs.escSave⟩
  · obtain ⟨h, hnext, hh, hat⟩ := hgo (by omega)
    rw [hnext]
    exact Shows.recallLine_row hs.escSave hh hat

/-! ## The history in a line -/

/-- The cursor is at one of the lines, or there is none and it was never set. -/
structure Hist.Tracks (h : Hist) (entered : List (List UInt8)) : Prop where
  holds : h.Holds entered
  cursor : (h.cur < 0 ∧ entered = []) ∨ ∃ k, h.At entered k

variable {h : Hist}

theorem Hist.Holds.exists_string (hh : h.Holds entered) (hat : h.At entered (k + 1)) :
    ∃ line, h.string (.row ((entered.length - (k + 1)) % histMax)) = some line := by
  have hlt : k < entered.length := Nat.lt_of_lt_of_le hat.le (Nat.min_le_left _ _)
  exact ⟨_, hh.string_row hat.le (List.getElem?_eq_getElem hlt)⟩

theorem recallLine_of_string {l : HistLine} {line : List UInt8} (hstring : h.string l = some line) :
    ∃ c, recallLine s (some l, h) = some (.more c) ∧ c.hist = h := by
  refine ⟨⟨h, line, line.length, s.insert, s.escSave⟩, ?_, rfl⟩
  rw [recallLine]
  dsimp only
  rw [hstring]

theorem Hist.Tracks.prev (ht : h.Tracks entered) (s : Cread) :
    ∃ c, recallLine s (histPrev h) = some (.more c) ∧ c.hist.Tracks entered := by
  rcases ht.cursor with ⟨hneg, hnil⟩ | ⟨k, hat⟩
  · rw [histPrev, if_pos hneg]
    exact ⟨_, rfl, ht⟩
  · obtain ⟨hgo, hstay⟩ := histPrev_at ht.holds hat
    rcases Nat.lt_or_eq_of_le hat.le with hlt | heq
    · obtain ⟨h', hprev, hh, hat'⟩ := hgo hlt
      obtain ⟨line, hstring⟩ := hh.exists_string hat'
      obtain ⟨c, hrecall, hc⟩ := @recallLine_of_string s h' _ line hstring
      rw [hprev]
      exact ⟨c, hrecall, hc ▸ ⟨hh, .inr ⟨_, hat'⟩⟩⟩
    · rw [hstay heq]
      exact ⟨_, rfl, ht⟩

theorem Hist.Tracks.next (ht : h.Tracks entered) (s : Cread) :
    ∃ c, recallLine s (histNext h) = some (.more c) ∧ c.hist.Tracks entered := by
  rcases ht.cursor with ⟨hneg, hnil⟩ | ⟨k, hat⟩
  · rw [histNext, if_pos hneg]
    exact ⟨_, rfl, ht⟩
  · obtain ⟨hstay, hlast, hgo⟩ := histNext_at ht.holds hat
    rcases k with _ | _ | k
    · rw [hstay rfl]
      exact ⟨_, rfl, ht⟩
    · obtain ⟨h', hnext, hh, hat'⟩ := hlast rfl
      rw [hnext]
      exact ⟨_, rfl, hh, .inr ⟨_, hat'⟩⟩
    · obtain ⟨h', hnext, hh, hat'⟩ := hgo (by omega)
      obtain ⟨line, hstring⟩ := hh.exists_string hat'
      obtain ⟨c, hrecall, hc⟩ := @recallLine_of_string s h' _ line hstring
      rw [hnext]
      exact ⟨c, hrecall, hc ▸ ⟨hh, .inr ⟨_, hat'⟩⟩⟩

theorem Moves.tracks {t : Option Turn} (hmoves : Moves s t) (ht : s.hist.Tracks entered) :
    ∃ c, t = some (.more c) ∧ c.hist.Tracks entered := by
  cases hmoves with
  | stay c hc => exact ⟨c, rfl, hc ▸ ht⟩
  | prev c hc => exact ht.prev c
  | next c hc => exact ht.next c

end Readline
end EmevBsp
