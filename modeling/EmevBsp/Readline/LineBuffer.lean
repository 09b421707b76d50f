import EmevBsp.Readline.Sessions
import Mathlib.Data.List.TakeWhile

/-!
# `common/main.c`: `cread_line` on its buffer

Here the line stands in memory: `buf` is the whole console buffer of `CONFIG_SYS_CBSIZE` bytes, of
which the first `eol_num` are the line, and every command moves bytes in it.  A function that would
write or read outside the buffer has no result; nor has one that copies a line to a row of the
history which has no room for it.
-/

namespace EmevBsp
namespace Readline
namespace Mem

/-! ## The functions of the source -/

/-- `memmove (&buf[dst], &buf[src], n)`. -/
def memmove (buf : List UInt8) (dst src n : ℕ) : Option (List UInt8) :=
  if dst + n ≤ buf.length ∧ src + n ≤ buf.length then
    some (buf.take dst ++ ((buf.drop src).take n ++ buf.drop (dst + n)))
  else none

/-- The locals of `cread_line`, the console buffer and the history.  `escSave` holds the bytes of
`esc_save` before `esc_len`. -/
structure Cread where
  hist : Hist
  buf : List UInt8
  num : ℕ
  eolNum : ℕ
  insert : Bool
  escSave : List UInt8

/-- A call of `cread_line`. -/
def Cread.start (hist : Hist) (buf : List UInt8) : Cread := ⟨hist, buf, 0, 0, true, []⟩

/-- Room for a character at `num`, where `wlen` characters will stand. -/
def makeRoom (buf : List UInt8) (num wlen : ℕ) : Option (List UInt8) :=
  if wlen > 1 then memmove buf (num + 1) num (wlen - 1) else some buf

/-- The character at `num` is overwritten by the `wlen` behind it. -/
def closeUp (buf : List UInt8) (num wlen : ℕ) : Option (List UInt8) :=
  if wlen ≠ 0 then memmove buf num (num + 1) wlen else some buf

/-- `cread_add_char`, where `len` is `MAX_CMDBUF_SIZE`. -/
def creadAddChar (s : Cread) (ichar : UInt8) : Option Cread :=
  -- room ???
  if (s.insert ∨ s.num = s.eolNum) ∧ s.eolNum > histSize - 1 then some s
  else
    let eolNum := if s.insert ∨ s.num = s.eolNum then s.eolNum + 1 else s.eolNum
    if s.insert then do
      let buf ← makeRoom s.buf s.num (eolNum - s.num)
      let buf ← store buf s.num ichar
      return { s with buf := buf, eolNum := eolNum, num := s.num + 1 }
    else do
      let buf ← store s.buf s.num ichar
      return { s with buf := buf, eolNum := eolNum, num := s.num + 1 }

def creadAddStr (s : Cread) (str : List UInt8) : Option Cread := str.foldlM creadAddChar s

inductive Turn where
  | more (s : Cread)
  | enter (s : Cread)
  | interrupt (s : Cread)

def beginningOfLine (s : Cread) : Cread := { s with num := 0 }

def eraseToEol (s : Cread) : Cread :=
  { s with eolNum := if s.num < s.eolNum then s.num else s.eolNum }

def refreshToEol (s : Cread) : Cread :=
  { s with num := if s.num < s.eolNum then s.eolNum else s.num }

/-- The case of Ctrl-P and Ctrl-N, behind the call of `hist_prev` or `hist_next`. -/
def recallLine (s : Cread) (hline : Option HistLine × Hist) : Option Cread :=
  match hline.1 with
  | none => some { s with hist := hline.2 }
  | some l => do
    let s := eraseToEol (beginningOfLine s)
    let text ← hline.2.string l
    let buf ← strcpy s.buf 0 text
    return refreshToEol { s with hist := hline.2, buf := buf, eolNum := text.length }

/-- The case of Tab with `CONFIG_AUTO_COMPLETE`; `complete` is what `cmd_auto_complete` puts behind
the string in the buffer. -/
def autoComplete (complete : List UInt8 → CString) (s : Cread) : Option Cread :=
  if s.num < s.eolNum then some s
  else do
    let buf ← store s.buf s.num 0
    let cnt ← strlen buf
    let text := complete (buf.take cnt)
    -- make sure it fits
    if s.num + text.length ≥ buf.length - 2 then return { s with buf := buf }
    let buf ← strcpy buf cnt text.bytes
    return { s with buf := buf, num := s.num + text.length, eolNum := s.eolNum + text.length }

/-- The cases of the second `switch` that edit the line. -/
def creadEdit (complete : Option (List UInt8 → CString)) (s : Cread) (ichar : UInt8) :
    Option Cread :=
  if ichar = 0x1b then some { s with escSave := [ichar] }
  else if ichar = ctlCh 'a' then some (beginningOfLine s)
  else if ichar = ctlCh 'f' then some { s with num := if s.num < s.eolNum then s.num + 1 else s.num }
  else if ichar = ctlCh 'b' then some { s with num := s.num - 1 }
  else if ichar = ctlCh 'd' then
    if s.num < s.eolNum then do
      let buf ← closeUp s.buf s.num (s.eolNum - s.num - 1)
      return { s with buf := buf, eolNum := s.eolNum - 1 }
    else some s
  else if ichar = ctlCh 'k' then some (eraseToEol s)
  else if ichar = ctlCh 'e' then some (refreshToEol s)
  else if ichar = ctlCh 'o' then some { s with insert := !s.insert }
  else if ichar = ctlCh 'x' ∨ ichar = ctlCh 'u' then some (eraseToEol (beginningOfLine s))
  else if ichar = 255 ∨ ichar = 127 ∨ ichar = 8 then
    if s.num ≠ 0 then do
      let wlen := s.eolNum - s.num
      let buf ← memmove s.buf (s.num - 1) (s.num - 1 + 1) wlen
      return { s with buf := buf, num := s.num - 1, eolNum := s.eolNum - 1 }
    else some s
  else
    match complete with
    | none => creadAddChar s ichar
    | some complete => if ichar ≠ 9 then creadAddChar s ichar else autoComplete complete s

/-- The second `switch` of the loop. -/
def creadSwitch (complete : Option (List UInt8 → CString)) (s : Cread) (ichar : UInt8) :
    Option Turn :=
  if ichar = ctlCh 'c' then do
    let buf ← store s.buf 0 0
    return .interrupt { s with buf := buf }
  else if ichar = ctlCh 'p' then (recallLine s (histPrev s.hist)).map .more
  else if ichar = ctlCh 'n' then (recallLine s (histNext s.hist)).map .more
  else (creadEdit complete s ichar).map .more

/-- The body of the loop. -/
def creadTurn (complete : Option (List UInt8 → CString)) (s : Cread) (ichar : UInt8) :
    Option Turn :=
  if ichar = 10 ∨ ichar = 13 then some (.enter s)
  else
    match s.escSave with
    | [] => creadSwitch complete s ichar
    | [esc] =>
      if ichar = 91 then some (.more { s with escSave := [esc, ichar] })
      else (creadAddStr s [esc]).map fun s => .more { s with escSave := [] }
    | escSave =>
      match escKey ichar with
      | some ichar => creadSwitch complete { s with escSave := [] } ichar
      | none => (creadAddStr s (escSave ++ [ichar])).map fun s => .more { s with escSave := [] }

/-- `cread_add_to_hist`, into a row of `HIST_SIZE` bytes. -/
def addToRow (h : Hist) (line : List UInt8) : Option Hist :=
  if line.length + 1 ≤ histSize then creadAddToHist h line else none

/-- `if (buf[0] && buf[0] != CREAD_HIST_CHAR) cread_add_to_hist(buf);` -/
def recordLine (h : Hist) (line : List UInt8) : Option Hist :=
  if Recorded line then addToRow h line else some h

/-- What `cread_line` does behind the loop: the buffer and the history. -/
def creadEnd (s : Cread) : Option (List UInt8 × Hist) := do
  let buf ← store s.buf s.eolNum 0
  let line ← takeString buf
  let hist ← recordLine s.hist line
  return (buf, { hist with cur := hist.addIdx })

/-- A key.  A new call of `cread_line` begins behind each end of a line. -/
def press (complete : Option (List UInt8 → CString)) (s : Cread) (key : UInt8) : Option Cread := do
  match ← creadTurn complete s key with
  | .more s => return s
  | .interrupt s => return .start s.hist s.buf
  | .enter s =>
    let (buf, hist) ← creadEnd s
    return .start hist buf

/-- Some keys. -/
def pressAll (complete : Option (List UInt8 → CString)) (s : Cread) (keys : List UInt8) :
    Option Cread :=
  keys.foldlM (press complete) s

/-! ## Bytes -/

theorem exists_memmove_up (p l rest : List UInt8) (x : UInt8) :
    ∃ y, memmove (p ++ (l ++ x :: rest)) (p.length + 1) p.length l.length =
      some (p ++ y :: (l ++ rest)) := by
  obtain ⟨y, t, ht⟩ : ∃ y t, l ++ x :: rest = y :: t := by
    cases l with
    | nil => exact ⟨x, rest, rfl⟩
    | cons y l => exact ⟨y, l ++ x :: rest, rfl⟩
  have hhead : (p ++ (l ++ x :: rest)).take (p.length + 1) = p ++ [y] := by
    rw [ht, List.take_append, List.take_of_length_le (Nat.le_succ _), Nat.add_sub_cancel_left]
    rfl
  have hmid : ((p ++ (l ++ x :: rest)).drop p.length).take l.length = l := by
    rw [List.drop_left, List.take_left]
  have hend : (p ++ (l ++ x :: rest)).drop (p.length + 1 + l.length) = rest := by
    have hlen : p.length + 1 + l.length = (p ++ (l ++ [x])).length := by
      simp only [List.length_append, List.length_singleton]
      omega
    have hshape : p ++ (l ++ x :: rest) = (p ++ (l ++ [x])) ++ rest := by simp
    rw [hlen, hshape, List.drop_left]
  refine ⟨y, ?_⟩
  rw [memmove, if_pos, hhead, hmid, hend]
  · simp
  · simp only [List.length_append, List.length_cons]
    omega

theorem exists_memmove_down (p l rest : List UInt8) (y : UInt8) :
    ∃ z, memmove (p ++ y :: (l ++ rest)) p.length (p.length + 1) l.length =
      some (p ++ (l ++ z :: rest)) := by
  obtain ⟨z, hz⟩ : ∃ z, (p ++ y :: (l ++ rest)).drop (p.length + l.length) = z :: rest := by
    rw [← List.drop_drop, List.drop_left]
    have hlast : (y :: (l ++ rest)).drop l.length = (y :: l).drop l.length ++ rest := by
      rw [← List.cons_append, List.drop_append_of_le_length (by simp)]
    have hone : ((y :: l).drop l.length).length = 1 := by simp
    obtain ⟨z, hz⟩ := List.length_eq_one_iff.mp hone
    exact ⟨z, by rw [hlast, hz]; rfl⟩
  have hmid : ((p ++ y :: (l ++ rest)).drop (p.length + 1)).take l.length = l := by
    rw [← List.drop_drop, List.drop_left, List.drop_succ_cons, List.drop_zero, List.take_left]
  refine ⟨z, ?_⟩
  rw [memmove, if_pos, List.take_left, hmid, hz]
  simp only [List.length_append, List.length_cons]
  omega

/-! ## The line in the buffer -/

/-- The buffer holds a line: the text before the cursor, the text from it on, and anything. -/
structure LineRep (cbsize : ℕ) (s : Cread) (l : Line) : Prop where
  size : s.buf.length = cbsize
  buf : ∃ junk, s.buf = l.before ++ (l.after ++ junk)
  num : s.num = l.before.length
  eolNum : s.eolNum = l.text.length
  insert : s.insert = l.insert

variable {cbsize : ℕ} {s : Cread} {l : Line}

theorem LineRep.exists_cons (h : LineRep cbsize s l) (hsize : histSize ≤ cbsize)
    (hfits : l.text.length < histSize) :
    ∃ x junk, s.buf = l.before ++ (l.after ++ x :: junk) := by
  obtain ⟨junk, hbuf⟩ := h.buf
  cases junk with
  | nil =>
    have hlen := h.size
    rw [hbuf, List.append_nil] at hlen
    rw [Line.text] at hfits
    omega
  | cons x junk => exact ⟨x, junk, hbuf⟩

theorem creadAddChar_spec (h : LineRep cbsize s l) (hsize : histSize ≤ cbsize) (c : UInt8)
    (hfits : (Edit.apply (.char c) l).text.length < histSize) :
    ∃ s', creadAddChar s c = some s' ∧ LineRep cbsize s' (Edit.apply (.char c) l) ∧
      s'.hist = s.hist ∧ s'.escSave = s.escSave := by
  have hlen : l.text.length ≤ (Edit.apply (.char c) l).text.length := l.length_le_type [c]
  obtain ⟨x, junk, hbuf⟩ := h.exists_cons hsize (Nat.lt_of_le_of_lt hlen hfits)
  have htext : l.text.length = l.before.length + l.after.length := List.length_append
  rw [creadAddChar, if_neg (by rw [h.eolNum]; omega)]
  cases hins : l.insert with
  | true =>
    have hinsert : s.insert = true := h.insert.trans hins
    have hwlen : s.eolNum + 1 - s.num = l.after.length + 1 := by
      rw [h.eolNum, h.num, htext]
      omega
    have hmove : ∃ y, makeRoom s.buf s.num (l.after.length + 1) =
        some (l.before ++ y :: (l.after ++ junk)) := by
      rw [makeRoom, Nat.add_sub_cancel]
      by_cases hafter : l.after.length + 1 > 1
      · rw [if_pos hafter, hbuf, h.num]
        exact exists_memmove_up _ _ _ _
      · have hnil : l.after = [] := List.eq_nil_of_length_eq_zero (by omega)
        rw [if_neg hafter, hbuf, hnil]
        exact ⟨x, rfl⟩
    obtain ⟨y, hmove⟩ := hmove
    simp only [hinsert, if_true, true_or]
    rw [hwlen, hmove, Option.bind_eq_bind, Option.bind_some, h.num, store_append]
    refine ⟨_, rfl, ⟨?_, ⟨junk, ?_⟩, ?_, ?_, ?_⟩, rfl, rfl⟩
    · rw [← h.size, hbuf]
      simp only [List.length_append, List.length_cons]
      omega
    · simp [Edit.apply, hins]
    · simp [Edit.apply]
    · simp [Edit.apply, Line.text, hins, h.eolNum]
      omega
    · exact hins.symm
  | false =>
    have hinsert : s.insert = false := h.insert.trans hins
    rw [if_neg (by simp [hinsert])]
    cases hafter : l.after with
    | nil =>
      have hend : s.num = s.eolNum := by
        rw [h.eolNum, htext, hafter, List.length_nil, Nat.add_zero, h.num]
      rw [hafter, List.nil_append] at hbuf
      rw [if_pos (.inr hend), hbuf, h.num, store_append, Option.bind_eq_bind, Option.bind_some]
      refine ⟨_, rfl, ⟨?_, ⟨junk, ?_⟩, ?_, ?_, ?_⟩, rfl, rfl⟩
      · rw [← h.size, hbuf]
        simp only [List.length_append, List.length_cons]
      · simp [Edit.apply, hins, hafter]
      · simp [Edit.apply]
      · simp [Edit.apply, Line.text, hins, hafter, ← hend, h.num]
      · exact hinsert.trans hins.symm
    | cons y after =>
      have hend : ¬ (s.insert = true ∨ s.num = s.eolNum) := by
        rw [h.eolNum, htext, hafter, h.num, hinsert, List.length_cons]
        simp
      rw [hafter, List.cons_append] at hbuf
      rw [if_neg hend, hbuf, h.num, store_append, Option.bind_eq_bind, Option.bind_some]
      refine ⟨_, rfl, ⟨?_, ⟨x :: junk, ?_⟩, ?_, ?_, ?_⟩, rfl, rfl⟩
      · rw [← h.size, hbuf]
        simp only [List.length_append, List.length_cons]
      · simp [Edit.apply, hins, hafter]
      · simp [Edit.apply]
      · simp [Edit.apply, Line.text, hins, hafter, h.eolNum]
      · exact hinsert.trans hins.symm

theorem creadAddStr_spec (h : LineRep cbsize s l) (hsize : histSize ≤ cbsize) (str : List UInt8)
    (hfits : (l.type str).text.length < histSize) :
    ∃ s', creadAddStr s str = some s' ∧ LineRep cbsize s' (l.type str) ∧ s'.hist = s.hist ∧
      s'.escSave = s.escSave := by
  induction str generalizing s l with
  | nil => exact ⟨s, rfl, h, rfl, rfl⟩
  | cons c str ih =>
    have hone : (Edit.apply (.char c) l).text.length < histSize :=
      Nat.lt_of_le_of_lt (Line.length_le_type _ str) hfits
    obtain ⟨s₁, hadd, h₁, hhist₁, hesc₁⟩ := creadAddChar_spec h hsize c hone
    obtain ⟨s₂, hrest, h₂, hhist₂, hesc₂⟩ := ih h₁ hfits
    refine ⟨s₂, ?_, h₂, hhist₂.trans hhist₁, hesc₂.trans hesc₁⟩
    rw [creadAddStr, List.foldlM_cons, hadd]
    exact hrest

/-! ## Moving and erasing -/

theorem LineRep.home (h : LineRep cbsize s l) :
    LineRep cbsize (beginningOfLine s) (Edit.home.apply l) := by
  obtain ⟨junk, hbuf⟩ := h.buf
  refine ⟨h.size, ⟨junk, ?_⟩, rfl, ?_, h.insert⟩
  · simp [beginningOfLine, Edit.apply, hbuf]
  · simp [beginningOfLine, Edit.apply, Line.text, h.eolNum]

theorem LineRep.kill (h : LineRep cbsize s l) :
    LineRep cbsize (eraseToEol s) (Edit.kill.apply l) := by
  obtain ⟨junk, hbuf⟩ := h.buf
  refine ⟨h.size, ⟨l.after ++ junk, ?_⟩, h.num, ?_, h.insert⟩
  · simp [eraseToEol, Edit.apply, hbuf]
  · simp only [eraseToEol, Edit.apply, Line.text, h.eolNum, h.num, List.append_nil,
      List.length_append]
    split <;> omega

theorem LineRep.killLine (h : LineRep cbsize s l) :
    LineRep cbsize (eraseToEol (beginningOfLine s)) (Edit.killLine.apply l) := by
  have hkill := h.home.kill
  exact ⟨hkill.size, hkill.buf, hkill.num, hkill.eolNum, hkill.insert⟩

theorem LineRep.endOfLine (h : LineRep cbsize s l) :
    LineRep cbsize (refreshToEol s) (Edit.endOfLine.apply l) := by
  obtain ⟨junk, hbuf⟩ := h.buf
  refine ⟨h.size, ⟨junk, ?_⟩, ?_, ?_, h.insert⟩
  · simp [refreshToEol, Edit.apply, hbuf]
  · simp only [refreshToEol, Edit.apply, Line.text, h.eolNum, h.num, List.length_append]
    split <;> omega
  · simp [refreshToEol, Edit.apply, Line.text, h.eolNum]

theorem LineRep.toggleInsert (h : LineRep cbsize s l) :
    LineRep cbsize { s with insert := !s.insert } (Edit.toggleInsert.apply l) := by
  refine ⟨h.size, h.buf, h.num, h.eolNum, ?_⟩
  simp [Edit.apply, h.insert]

theorem LineRep.right (h : LineRep cbsize s l) :
    LineRep cbsize { s with num := if s.num < s.eolNum then s.num + 1 else s.num }
      (Edit.right.apply l) := by
  obtain ⟨junk, hbuf⟩ := h.buf
  have htext : l.text.length = l.before.length + l.after.length := List.length_append
  refine ⟨h.size, ⟨junk, ?_⟩, ?_, ?_, h.insert⟩
  · show s.buf = (l.before ++ l.after.take 1) ++ (l.after.drop 1 ++ junk)
    rw [List.append_assoc, ← List.append_assoc (l.after.take 1), List.take_append_drop, hbuf]
  · simp only [Edit.apply, h.num, h.eolNum, htext, List.length_append, List.length_take]
    split <;> omega
  · simp only [Edit.apply, Line.text, h.eolNum, List.length_append, List.length_take,
      List.length_drop]
    omega

theorem before_cases (l : Line) :
    l.before = [] ∨ ∃ front y, l.before = front ++ [y] ∧ l.before.dropLast = front ∧
      l.before.getLast?.toList = [y] := by
  rcases List.eq_nil_or_concat l.before with hnil | ⟨front, y, hcat⟩
  · exact .inl hnil
  · rw [List.concat_eq_append] at hcat
    exact .inr ⟨front, y, hcat, by simp [hcat], by simp [hcat]⟩

theorem LineRep.left (h : LineRep cbsize s l) :
    LineRep cbsize { s with num := s.num - 1 } (Edit.left.apply l) := by
  obtain ⟨junk, hbuf⟩ := h.buf
  rcases before_cases l with hnil | ⟨front, y, hcat, -, -⟩
  · have hsame : Edit.left.apply l = l := by
      cases l
      simp_all [Edit.apply]
    refine ⟨h.size, hsame.symm ▸ h.buf, ?_, hsame.symm ▸ h.eolNum, hsame.symm ▸ h.insert⟩
    simp [hsame, h.num, hnil]
  · refine ⟨h.size, ⟨junk, ?_⟩, ?_, ?_, h.insert⟩
    · simp [Edit.apply, hbuf, hcat]
    · simp [Edit.apply, h.num, hcat]
    · simp [Edit.apply, Line.text, h.eolNum, hcat]

theorem LineRep.delete (h : LineRep cbsize s l) (hlt : s.num < s.eolNum) :
    ∃ buf, closeUp s.buf s.num (s.eolNum - s.num - 1) = some buf ∧
      LineRep cbsize { s with buf := buf, eolNum := s.eolNum - 1 } (Edit.delete.apply l) := by
  obtain ⟨junk, hbuf⟩ := h.buf
  have htext : l.text.length = l.before.length + l.after.length := List.length_append
  cases hafter : l.after with
  | nil =>
    rw [h.num, h.eolNum, htext, hafter, List.length_nil] at hlt
    omega
  | cons y after =>
    rw [hafter, List.cons_append] at hbuf
    have hwlen : s.eolNum - s.num - 1 = after.length := by
      rw [h.num, h.eolNum, htext, hafter, List.length_cons]
      omega
    have hmove : ∃ rest, closeUp s.buf s.num after.length =
        some (l.before ++ (after ++ rest)) ∧ rest.length = junk.length + 1 := by
      rw [closeUp]
      by_cases hlen : after.length = 0
      · have hnil : after = [] := List.eq_nil_of_length_eq_zero hlen
        rw [if_neg (by omega), hbuf, hnil]
        exact ⟨y :: junk, rfl, rfl⟩
      · obtain ⟨z, hz⟩ := exists_memmove_down l.before after junk y
        rw [if_pos hlen, hbuf, h.num, hz]
        exact ⟨z :: junk, rfl, rfl⟩
    obtain ⟨rest, hmove, hrest⟩ := hmove
    refine ⟨_, by rw [hwlen, hmove], ⟨?_, ⟨rest, ?_⟩, h.num, ?_, h.insert⟩⟩
    · rw [← h.size, hbuf]
      simp only [List.length_append, List.length_cons, hrest]
      omega
    · simp [Edit.apply, hafter]
    · simp only [Edit.apply, Line.text, h.eolNum, hafter, List.tail_cons, List.length_append,
        List.length_cons]
      omega

theorem LineRep.backspace (h : LineRep cbsize s l) (hnum : s.num ≠ 0) :
    ∃ buf, memmove s.buf (s.num - 1) (s.num - 1 + 1) (s.eolNum - s.num) = some buf ∧
      LineRep cbsize { s with buf := buf, num := s.num - 1, eolNum := s.eolNum - 1 }
        (Edit.backspace.apply l) := by
  obtain ⟨junk, hbuf⟩ := h.buf
  rcases before_cases l with hnil | ⟨front, y, hcat, hfront, -⟩
  · exact absurd (by rw [h.num, hnil]; rfl) hnum
  have hshape : s.buf = front ++ y :: (l.after ++ junk) := by
    rw [hbuf, hcat]
    simp
  have hplace : s.num - 1 = front.length := by
    rw [h.num, hcat]
    simp
  have hwlen : s.eolNum - s.num = l.after.length := by
    rw [h.eolNum, h.num, Line.text, List.length_append]
    omega
  obtain ⟨z, hz⟩ := exists_memmove_down front l.after junk y
  refine ⟨_, by rw [hshape, hplace, hwlen, hz], ⟨?_, ⟨z :: junk, ?_⟩, ?_, ?_, h.insert⟩⟩
  · rw [← h.size, hshape]
    simp only [List.length_append, List.length_cons]
    omega
  · simp [Edit.apply, hfront]
  · simp [Edit.apply, hfront, hplace]
  · simp [Edit.apply, Line.text, h.eolNum, hcat]

/-! ## Replacing the line -/

theorem LineRep.strcpy (h : LineRep cbsize s l) {text : List UInt8}
    (hfits : text.length < cbsize) :
    ∃ buf, strcpy s.buf 0 text = some buf ∧
      LineRep cbsize { s with buf := buf, num := text.length, eolNum := text.length }
        ((Edit.replace text).apply l) := by
  have hsplit : s.buf = [] ++ (s.buf.take (text.length + 1) ++ s.buf.drop (text.length + 1)) := by
    rw [List.nil_append, List.take_append_drop]
  have hold : (s.buf.take (text.length + 1)).length = text.length + 1 := by
    rw [List.length_take, h.size]
    omega
  have hcopy := strcpy_append text [] _ (s.buf.drop (text.length + 1)) hold
  rw [← hsplit, List.length_nil, List.nil_append] at hcopy
  refine ⟨_, hcopy, ⟨?_, ⟨0 :: s.buf.drop (text.length + 1), ?_⟩, rfl, ?_, h.insert⟩⟩
  · simp only [List.length_append, List.length_cons, List.length_drop, h.size]
    omega
  · simp [Edit.apply]
  · simp [Edit.apply, Line.text]

theorem recallLine_spec (h : LineRep cbsize s l) {hist : Hist} {hline : HistLine}
    {text : List UInt8} (hstring : hist.string hline = some text) (hfits : text.length < cbsize) :
    ∃ s', recallLine s (some hline, hist) = some s' ∧
      LineRep cbsize s' ((Edit.replace text).apply l) ∧ s'.hist = hist ∧
      s'.escSave = s.escSave := by
  obtain ⟨buf, hcopy, hrep⟩ := h.killLine.strcpy hfits
  refine ⟨{ s with hist := hist, buf := buf, num := text.length, eolNum := text.length }, ?_,
    ⟨hrep.size, hrep.buf, hrep.num, hrep.eolNum, hrep.insert⟩, rfl, rfl⟩
  have hcopy' : strcpy (eraseToEol (beginningOfLine s)).buf 0 text = some buf := hcopy
  have hnum : (if (0 : ℕ) < text.length then text.length else 0) = text.length := by
    split <;> omega
  simp only [recallLine, hstring, Option.bind_eq_bind, Option.bind_some, hcopy']
  simp only [refreshToEol, eraseToEol, beginningOfLine]
  exact congrArg (fun n => some { s with hist := hist, buf := buf, num := n, eolNum := text.length })
    hnum

theorem autoComplete_spec (h : LineRep cbsize s l) (complete : List UInt8 → CString)
    (hend : l.after = []) (hnul : (0 : UInt8) ∉ l.before)
    (hroom : l.before.length + (complete l.before).length + 2 < cbsize) :
    ∃ s', autoComplete complete s = some s' ∧
      LineRep cbsize s' ((Edit.replace (l.before ++ (complete l.before).bytes)).apply l) ∧
      s'.hist = s.hist ∧ s'.escSave = s.escSave := by
  obtain ⟨junk, hbuf⟩ := h.buf
  have hlen := h.size
  rw [hend, List.nil_append] at hbuf
  rw [hbuf, List.length_append] at hlen
  have htext : l.text.length = l.before.length := by rw [Line.text, hend, List.append_nil]
  have hlast : ¬ s.num < s.eolNum := by
    rw [h.num, h.eolNum, htext]
    exact Nat.lt_irrefl _
  cases junk with
  | nil =>
    rw [List.length_nil] at hlen
    omega
  | cons x junk =>
    rw [List.length_cons] at hlen
    have hstore : store s.buf s.num 0 = some (l.before ++ 0 :: junk) := by
      rw [hbuf, h.num, store_append]
    have hold : ((0 :: junk).take ((complete l.before).length + 1)).length =
        (complete l.before).bytes.length + 1 := by
      rw [List.length_take, List.length_cons, CString.length]
      simp only [CString.length] at hroom
      omega
    have hcopy := strcpy_append (complete l.before).bytes l.before _
      ((0 :: junk).drop ((complete l.before).length + 1)) hold
    rw [List.take_append_drop] at hcopy
    refine ⟨{ s with
      buf := l.before ++ ((complete l.before).bytes ++
        0 :: (0 :: junk).drop ((complete l.before).length + 1))
      num := s.num + (complete l.before).length
      eolNum := s.eolNum + (complete l.before).length }, ?_,
      ⟨?_, ⟨0 :: (0 :: junk).drop ((complete l.before).length + 1), ?_⟩, ?_, ?_, h.insert⟩,
      rfl, rfl⟩
    · rw [autoComplete, if_neg hlast, hstore]
      simp only [Option.bind_eq_bind, Option.bind_some, strlen_append hnul, List.take_left, hcopy]
      rw [if_neg]
      · rfl
      · rw [h.num, List.length_append, List.length_cons]
        omega
    · simp only [List.length_append, List.length_cons, List.length_drop, CString.length]
      simp only [CString.length] at hroom
      omega
    · simp only [Edit.apply, List.nil_append, List.append_assoc]
    · simp [Edit.apply, h.num, CString.length]
    · simp [Edit.apply, Line.text, h.eolNum, hend, CString.length]

/-! ## Keys -/

/-- The state of the loop and the editor: the line in the buffer, the begun escape sequence, and
the rows of the history. -/
structure Represents (cbsize : ℕ) (s : Cread) (e : Editor) : Prop where
  line : LineRep cbsize s e.line
  escSave : s.escSave = e.pending
  holds : s.hist.Holds e.entered
  cursor : (s.hist.cur < 0 ∧ e.entered = [] ∧ e.shown = 0) ∨ s.hist.At e.entered e.shown

variable {e : Editor} {complete : Option (List UInt8 → CString)}

theorem Represents.of_line (h : Represents cbsize s e) {s' : Cread} {l' : Line}
    (hline : LineRep cbsize s' l') (hhist : s'.hist = s.hist) (hesc : s'.escSave = s.escSave) :
    Represents cbsize s' { e with line := l' } :=
  ⟨hline, hesc.trans h.escSave, hhist ▸ h.holds, hhist ▸ h.cursor⟩

theorem Hist.Holds.length_lt {hist : Hist} {entered : List (List UInt8)} (hh : hist.Holds entered)
    {k : ℕ} (hk : k < histMax) {text : List UInt8} (hget : entered[k]? = some text) :
    text.length < histSize :=
  (hh.recent k hk text hget).fits

theorem recall_prev (h : Represents cbsize s e) (hsize : histSize ≤ cbsize) :
    ∃ s', recallLine s (histPrev s.hist) = some s' ∧
      Represents cbsize s' (e.recall (older e.entered e.shown)) := by
  rcases h.cursor with ⟨hneg, hnil, hshown⟩ | hat
  · have hsame : older e.entered e.shown = e.shown := by rw [older, hnil]; rfl
    rw [histPrev, if_pos hneg, Editor.recall, if_pos hsame]
    exact ⟨_, rfl, h.line, h.escSave, h.holds, h.cursor⟩
  · obtain ⟨hgo, hstay⟩ := histPrev_at h.holds hat
    rw [older]
    by_cases hlt : e.shown < min e.entered.length (histMax - 1)
    · obtain ⟨hist', hprev, hh, hat'⟩ := hgo hlt
      have hget : e.entered[e.shown]? = some (e.entered.getD e.shown []) := by
        rw [List.getD_eq_getElem?_getD, List.getElem?_eq_getElem (by omega), Option.getD_some]
      have hstring := hh.string_row hat'.le hget
      have hfits := Hist.Holds.length_lt hh (by omega) hget
      obtain ⟨s', hrecall, hline, hhist, hesc⟩ :=
        recallLine_spec h.line hstring (Nat.lt_of_lt_of_le hfits hsize)
      rw [if_pos hlt, hprev, Editor.recall, if_neg (Nat.succ_ne_self _)]
      refine ⟨s', hrecall, hline, hesc.trans h.escSave, ?_, .inr ?_⟩
      · rw [hhist]
        exact hh
      · rw [hhist]
        exact hat'
    · rw [if_neg hlt, hstay (Nat.le_antisymm hat.le (Nat.le_of_not_lt hlt)), Editor.recall,
        if_pos rfl]
      exact ⟨_, rfl, h.line, h.escSave, h.holds, h.cursor⟩

theorem recall_next (h : Represents cbsize s e) (hsize : histSize ≤ cbsize) :
    ∃ s', recallLine s (histNext s.hist) = some s' ∧
      Represents cbsize s' (e.recall (e.shown - 1)) := by
  rcases h.cursor with ⟨hneg, hnil, hshown⟩ | hat
  · have hsame : e.shown - 1 = e.shown := by rw [hshown]
    rw [histNext, if_pos hneg, Editor.recall, if_pos hsame]
    exact ⟨_, rfl, h.line, h.escSave, h.holds, h.cursor⟩
  · obtain ⟨hstay, hlast, hgo⟩ := histNext_at h.holds hat
    have hle := hat.le
    by_cases hzero : e.shown = 0
    · rw [hstay hzero, Editor.recall, if_pos (by rw [hzero])]
      exact ⟨_, rfl, h.line, h.escSave, h.holds, h.cursor⟩
    rw [Editor.recall, if_neg (by omega)]
    by_cases hone : e.shown = 1
    · obtain ⟨hist', hnext, hh, hat'⟩ := hlast hone
      have hstring : hist'.string .empty = some [] := rfl
      obtain ⟨s', hrecall, hline, hhist, hesc⟩ :=
        recallLine_spec h.line hstring (Nat.lt_of_lt_of_le (by decide) hsize)
      rw [hnext, hone]
      refine ⟨s', hrecall, hline, hesc.trans h.escSave, ?_, .inr ?_⟩
      · rw [hhist]
        exact hh
      · rw [hhist]
        exact hat'
    · obtain ⟨hist', hnext, hh, hat'⟩ := hgo (by omega)
      obtain ⟨k, hk⟩ : ∃ k, e.shown - 1 = k + 1 := ⟨e.shown - 2, by omega⟩
      have hget : e.entered[k]? = some (e.entered.getD k []) := by
        rw [List.getD_eq_getElem?_getD, List.getElem?_eq_getElem (by omega), Option.getD_some]
      rw [hk] at hnext hat' ⊢
      have hstring := hh.string_row hat'.le hget
      have hfits := Hist.Holds.length_lt hh (by omega) hget
      obtain ⟨s', hrecall, hline, hhist, hesc⟩ :=
        recallLine_spec h.line hstring (Nat.lt_of_lt_of_le hfits hsize)
      rw [hnext]
      refine ⟨s', hrecall, hline, hesc.trans h.escSave, ?_, .inr ?_⟩
      · rw [hhist]
        exact hh
      · rw [hhist]
        exact hat'

/-- A result that stands for the state of the editor, when its line is short enough. -/
def Follows (cbsize : ℕ) (r : Option Cread) (e : Editor) : Prop :=
  e.line.text.length < histSize → ∃ s', r = some s' ∧ Represents cbsize s' e

theorem follows_ite {p : Prop} [Decidable p] {a b : Option Cread} {x y : Editor}
    (ha : p → Follows cbsize a x) (hb : ¬ p → Follows cbsize b y) :
    Follows cbsize (if p then a else b) (if p then x else y) := by
  by_cases hp : p
  · rw [if_pos hp, if_pos hp]
    exact ha hp
  · rw [if_neg hp, if_neg hp]
    exact hb hp

theorem Represents.follows {s' : Cread} {e' : Editor} (h : Represents cbsize s' e') :
    Follows cbsize (some s') e' :=
  fun _ => ⟨s', rfl, h⟩

theorem Represents.follows_char (h : Represents cbsize s e) (hsize : histSize ≤ cbsize)
    (key : UInt8) : Follows cbsize (creadAddChar s key) (e.edit (.char key)) := by
  intro hfits
  obtain ⟨s', hadd, hline, hhist, hesc⟩ := creadAddChar_spec h.line hsize key hfits
  exact ⟨s', hadd, h.of_line hline hhist hesc⟩

theorem Represents.follows_delete (h : Represents cbsize s e) :
    Follows cbsize
      (if s.num < s.eolNum then do
        let buf ← closeUp s.buf s.num (s.eolNum - s.num - 1)
        return { s with buf := buf, eolNum := s.eolNum - 1 }
      else some s) (e.edit .delete) := by
  intro _
  by_cases hlt : s.num < s.eolNum
  · obtain ⟨buf, hclose, hline⟩ := h.line.delete hlt
    rw [if_pos hlt, hclose]
    exact ⟨_, rfl, h.of_line hline rfl rfl⟩
  · have hafter : e.line.after = [] := by
      have hle := Nat.le_of_not_lt hlt
      rw [h.line.num, h.line.eolNum, Line.text, List.length_append] at hle
      exact List.eq_nil_of_length_eq_zero (by omega)
    have hsame : Edit.delete.apply e.line = e.line := by
      cases hl : e.line
      simp_all [Edit.apply]
    rw [if_neg hlt, Editor.edit, hsame]
    exact ⟨s, rfl, h⟩

theorem Represents.follows_backspace (h : Represents cbsize s e) :
    Follows cbsize
      (if s.num ≠ 0 then do
        let buf ← memmove s.buf (s.num - 1) (s.num - 1 + 1) (s.eolNum - s.num)
        return { s with buf := buf, num := s.num - 1, eolNum := s.eolNum - 1 }
      else some s) (e.edit .backspace) := by
  intro _
  by_cases hnum : s.num ≠ 0
  · obtain ⟨buf, hmove, hline⟩ := h.line.backspace hnum
    rw [if_pos hnum, hmove]
    exact ⟨_, rfl, h.of_line hline rfl rfl⟩
  · have hbefore : e.line.before = [] := by
      rw [h.line.num] at hnum
      exact List.eq_nil_of_length_eq_zero (not_not.mp hnum)
    have hsame : Edit.backspace.apply e.line = e.line := by
      cases hl : e.line
      simp_all [Edit.apply]
    rw [if_neg hnum, Editor.edit, hsame]
    exact ⟨s, rfl, h⟩

theorem creadEdit_spec (h : Represents cbsize s e) (hsize : histSize ≤ cbsize) {key : UInt8}
    (hc : key ≠ ctlCh 'c') (hp : key ≠ ctlCh 'p') (hn : key ≠ ctlCh 'n')
    (hcomplete : complete ≠ none → key = 9 → e.line.after = [] →
      (0 : UInt8) ∉ e.line.before ∧ (e.command complete key).line.text.length + 2 < cbsize) :
    Follows cbsize (creadEdit complete s key) (e.command complete key) := by
  unfold Editor.command at hcomplete ⊢
  rw [if_neg hc, if_neg hp, if_neg hn] at hcomplete ⊢
  unfold creadEdit
  refine follows_ite (fun _ => ?_) fun hesc => ?_
  · exact Represents.follows ⟨⟨h.line.size, h.line.buf, h.line.num, h.line.eolNum, h.line.insert⟩,
      rfl, h.holds, h.cursor⟩
  refine follows_ite (fun _ => (h.of_line h.line.home rfl rfl).follows) fun ha => ?_
  refine follows_ite (fun _ => (h.of_line h.line.right rfl rfl).follows) fun hf => ?_
  refine follows_ite (fun _ => (h.of_line h.line.left rfl rfl).follows) fun hb => ?_
  refine follows_ite (fun _ => h.follows_delete) fun hd => ?_
  refine follows_ite (fun _ => (h.of_line h.line.kill rfl rfl).follows) fun hk => ?_
  refine follows_ite (fun _ => (h.of_line h.line.endOfLine rfl rfl).follows) fun he => ?_
  refine follows_ite (fun _ => (h.of_line h.line.toggleInsert rfl rfl).follows) fun ho => ?_
  refine follows_ite (fun _ => (h.of_line h.line.killLine rfl rfl).follows) fun hxu => ?_
  refine follows_ite (fun _ => h.follows_backspace) fun hdel => ?_
  rw [if_neg hesc, if_neg ha, if_neg hf, if_neg hb, if_neg hd, if_neg hk, if_neg he, if_neg ho,
    if_neg hxu, if_neg hdel] at hcomplete
  cases complete with
  | none => exact h.follows_char hsize key
  | some complete =>
    refine follows_ite (fun _ => h.follows_char hsize key) fun htab => ?_
    by_cases hend : e.line.after = []
    · rw [if_pos hend]
      obtain ⟨hnul, hroom⟩ := hcomplete (by simp) (not_not.mp htab) hend
      dsimp only at hroom
      rw [if_neg htab, if_pos hend] at hroom
      simp only [Editor.edit, Edit.apply, Line.text, List.append_nil, List.length_append] at hroom
      intro _
      obtain ⟨s', hdone, hline, hhist, hesc⟩ :=
        autoComplete_spec h.line complete hend hnul hroom
      exact ⟨s', hdone, h.of_line hline hhist hesc⟩
    · have hlt : s.num < s.eolNum := by
        have hpos := List.length_pos_of_ne_nil hend
        rw [h.line.num, h.line.eolNum, Line.text, List.length_append]
        omega
      rw [if_neg hend, autoComplete, if_pos hlt]
      exact h.follows

/-! ## Lines -/

theorem represents_start {hist : Hist} {buf : List UInt8} {entered : List (List UInt8)} {shown : ℕ}
    (hbuf : buf.length = cbsize) (hh : hist.Holds entered)
    (hcur : (hist.cur < 0 ∧ entered = [] ∧ shown = 0) ∨ hist.At entered shown) :
    Represents cbsize (.start hist buf) ⟨.empty, [], entered, shown⟩ :=
  ⟨⟨hbuf, ⟨buf, rfl⟩, rfl, rfl, rfl⟩, rfl, hh, hcur⟩

theorem interrupt_spec (h : Represents cbsize s e) (hsize : histSize ≤ cbsize)
    (hpending : e.pending = []) :
    ∃ buf, store s.buf 0 0 = some buf ∧
      Represents cbsize (.start s.hist buf) { e with line := .empty } := by
  have hpos : 0 < s.buf.length := by
    rw [h.line.size]
    exact Nat.lt_of_lt_of_le (by decide) hsize
  have hstore : store s.buf 0 0 = some (s.buf.set 0 0) := if_pos hpos
  refine ⟨_, hstore, ?_⟩
  have hstart := represents_start ((length_of_store hstore).trans h.line.size) h.holds h.cursor
  exact ⟨hstart.line, hpending.symm, hstart.holds, hstart.cursor⟩

theorem takeString_terminated (text junk : List UInt8) :
    takeString (text ++ 0 :: junk) = some (text.takeWhile (· ≠ 0)) := by
  have hlen : strlen (text ++ 0 :: junk) = some (text.takeWhile (· ≠ 0)).length := by
    induction text with
    | nil => rfl
    | cons c text ih =>
      rw [List.cons_append, strlen, List.takeWhile_cons]
      by_cases hc : c = 0
      · simp [hc]
      · simp [hc, ih]
  have hsplit : (text.takeWhile (· ≠ 0)) ++ (text.dropWhile (· ≠ 0) ++ 0 :: junk) =
      text ++ 0 :: junk := by
    rw [← List.append_assoc, List.takeWhile_append_dropWhile]
  rw [takeString, hlen, Option.map_some, ← hsplit, List.take_left]

theorem creadEnd_spec (h : Represents cbsize s e) (hsize : histSize ≤ cbsize)
    (hfits : e.line.text.length < histSize) :
    ∃ buf hist, creadEnd s = some (buf, hist) ∧ Represents cbsize (.start hist buf) e.enter := by
  obtain ⟨x, junk, hbuf⟩ := h.line.exists_cons hsize hfits
  have hshape : s.buf = e.line.text ++ x :: junk := by rw [hbuf, Line.text, List.append_assoc]
  have hstore : store s.buf s.eolNum 0 = some (e.line.text ++ 0 :: junk) := by
    rw [hshape, h.line.eolNum, store_append]
  have hline := takeString_terminated e.line.text junk
  have hshort : (e.line.text.takeWhile (· ≠ 0)).length + 1 ≤ histSize :=
    Nat.lt_of_le_of_lt (List.takeWhile_sublist _).length_le hfits
  have hnul : (0 : UInt8) ∉ e.line.text.takeWhile (· ≠ 0) := fun hmem => by
    simpa using List.mem_takeWhile_imp hmem
  have hlen : (e.line.text ++ 0 :: junk).length = cbsize :=
    (length_of_store hstore).trans h.line.size
  rw [creadEnd, hstore, Option.bind_eq_bind, Option.bind_some, hline, Option.bind_some, recordLine]
  by_cases hrec : Recorded (e.line.text.takeWhile (· ≠ 0))
  · obtain ⟨hist', hadd, hholds⟩ := creadAddToHist_holds h.holds hnul hshort
    rw [if_pos hrec, addToRow, if_pos hshort, hadd]
    refine ⟨_, _, rfl, ?_⟩
    rw [Editor.enter, if_pos hrec]
    have hholds' : Hist.Holds { hist' with cur := hist'.addIdx }
        (e.line.text.takeWhile (· ≠ 0) :: e.entered) :=
      ⟨hholds.length, hholds.addIdx, hholds.max, hholds.recent⟩
    exact represents_start hlen hholds' (.inr (hholds'.at_zero rfl))
  · rw [if_neg hrec]
    refine ⟨_, _, rfl, ?_⟩
    rw [Editor.enter, if_neg hrec]
    have hholds' : Hist.Holds { s.hist with cur := s.hist.addIdx } e.entered :=
      ⟨h.holds.length, h.holds.addIdx, h.holds.max, h.holds.recent⟩
    exact represents_start hlen hholds' (.inr (hholds'.at_zero rfl))

/-- What a turn of the loop comes to. -/
def afterTurn : Turn → Option Cread
  | .more s => some s
  | .interrupt s => some (.start s.hist s.buf)
  | .enter s => (creadEnd s).map fun r => .start r.2 r.1

theorem press_eq (s : Cread) (key : UInt8) :
    press complete s key = (creadTurn complete s key).bind afterTurn := by
  rw [press]
  cases creadTurn complete s key with
  | none => rfl
  | some t =>
    cases t with
    | more s => rfl
    | interrupt s => rfl
    | enter s =>
      simp only [Option.bind_eq_bind, Option.bind_some, afterTurn]
      cases creadEnd s <;> rfl

theorem creadSwitch_spec (h : Represents cbsize s e) (hsize : histSize ≤ cbsize)
    (hpending : e.pending = []) {key : UInt8}
    (hfits : (e.command complete key).line.text.length < histSize)
    (hcomplete : complete ≠ none → key = 9 → e.line.after = [] →
      (0 : UInt8) ∉ e.line.before ∧ (e.command complete key).line.text.length + 2 < cbsize) :
    ∃ s', (creadSwitch complete s key).bind afterTurn = some s' ∧
      Represents cbsize s' (e.command complete key) := by
  by_cases hc : key = ctlCh 'c'
  · obtain ⟨buf, hstore, hrep⟩ := interrupt_spec h hsize hpending
    have hcommand : e.command complete key = { e with line := .empty } := if_pos hc
    rw [creadSwitch, if_pos hc, hstore, hcommand]
    exact ⟨_, rfl, hrep⟩
  by_cases hp : key = ctlCh 'p'
  · obtain ⟨s', hrecall, hrep⟩ := recall_prev h hsize
    have hcommand : e.command complete key = e.recall (older e.entered e.shown) := by
      unfold Editor.command
      rw [if_neg hc, if_pos hp]
    rw [creadSwitch, if_neg hc, if_pos hp, hrecall, hcommand]
    exact ⟨_, rfl, hrep⟩
  by_cases hn : key = ctlCh 'n'
  · obtain ⟨s', hrecall, hrep⟩ := recall_next h hsize
    have hcommand : e.command complete key = e.recall (e.shown - 1) := by
      unfold Editor.command
      rw [if_neg hc, if_neg hp, if_pos hn]
    rw [creadSwitch, if_neg hc, if_neg hp, if_pos hn, hrecall, hcommand]
    exact ⟨_, rfl, hrep⟩
  obtain ⟨s', hedit, hrep⟩ := creadEdit_spec h hsize hc hp hn hcomplete hfits
  rw [creadSwitch, if_neg hc, if_neg hp, if_neg hn, hedit]
  exact ⟨_, rfl, hrep⟩

theorem escKey_ne_tab {ichar key : UInt8} (h : escKey ichar = some key) : key ≠ 9 := by
  unfold escKey at h
  split_ifs at h <;> rw [← Option.some.inj h] <;> decide

theorem creadAddStr_pending (h : Represents cbsize s e) (hsize : histSize ≤ cbsize)
    (str : List UInt8) (hfits : (e.line.type str).text.length < histSize) :
    ∃ s', ((creadAddStr s str).map fun s => Turn.more { s with escSave := [] }).bind afterTurn =
        some s' ∧ Represents cbsize s' { e with line := e.line.type str, pending := [] } := by
  obtain ⟨s', hadd, hline, hhist, -⟩ := creadAddStr_spec h.line hsize str hfits
  refine ⟨{ s' with escSave := [] }, by rw [hadd]; rfl,
    ⟨hline.size, hline.buf, hline.num, hline.eolNum, hline.insert⟩, rfl, ?_, ?_⟩
  · exact hhist.symm ▸ h.holds
  · exact hhist.symm ▸ h.cursor

theorem press_spec (h : Represents cbsize s e) (hsize : histSize ≤ cbsize)
    (hshort : e.line.text.length < histSize) {key : UInt8}
    (hfits : e.Fits cbsize complete key) :
    ∃ s', press complete s key = some s' ∧ Represents cbsize s' (e.press complete key) := by
  obtain ⟨hlen, htab⟩ := hfits
  rw [press_eq]
  by_cases henter : key = 10 ∨ key = 13
  · obtain ⟨buf, hist, hend, hrep⟩ := creadEnd_spec h hsize hshort
    rw [creadTurn, if_pos henter, Option.bind_some, afterTurn, hend, Editor.press, if_pos henter]
    exact ⟨_, rfl, hrep⟩
  rw [Editor.press, if_neg henter] at hlen ⊢
  rw [creadTurn, if_neg henter, h.escSave]
  have hcomp := htab
  rw [Editor.press, if_neg henter] at hcomp
  rcases hpending : e.pending with _ | ⟨esc, _ | ⟨esc', escs⟩⟩
  · rw [hpending] at hlen hcomp
    refine creadSwitch_spec h hsize hpending hlen fun hne h9 hafter => ?_
    exact hcomp ⟨hne, h9, hpending, hafter⟩
  · rw [hpending] at hlen
    dsimp only at hlen ⊢
    by_cases hbracket : key = 91
    · rw [if_pos hbracket, if_pos hbracket]
      exact ⟨_, rfl, ⟨h.line.size, h.line.buf, h.line.num, h.line.eolNum, h.line.insert⟩, rfl,
        h.holds, h.cursor⟩
    · rw [if_neg hbracket] at hlen ⊢
      rw [if_neg hbracket]
      exact creadAddStr_pending h hsize [esc] hlen
  · rw [hpending] at hlen
    dsimp only at hlen ⊢
    cases hkey : escKey key with
    | none =>
      rw [hkey] at hlen
      exact creadAddStr_pending h hsize _ hlen
    | some key' =>
      rw [hkey] at hlen
      have h' : Represents cbsize { s with escSave := [] } { e with pending := [] } :=
        ⟨⟨h.line.size, h.line.buf, h.line.num, h.line.eolNum, h.line.insert⟩, rfl, h.holds,
          h.cursor⟩
      exact creadSwitch_spec h' hsize rfl hlen fun _ h9 => absurd h9 (escKey_ne_tab hkey)

/-! ## Sequences of keys -/

theorem represents_init {lines buf : List UInt8} (hlines : lines.length = histMax * histSize)
    (hbuf : buf.length = cbsize) : Represents cbsize (.start (histInit lines) buf) .start :=
  represents_start hbuf (histInit_holds hlines) (.inl ⟨show (-1 : ℤ) < 0 by decide, rfl, rfl⟩)

theorem pressAll_spec (h : Represents cbsize s e) (hsize : histSize ≤ cbsize)
    (hshort : e.line.text.length < histSize) {keys : List UInt8}
    (hfits : e.FitsAll cbsize complete keys) :
    ∃ s', pressAll complete s keys = some s' ∧ Represents cbsize s' (e.pressAll complete keys) ∧
      (e.pressAll complete keys).line.text.length < histSize := by
  induction keys generalizing s e with
  | nil => exact ⟨s, rfl, h, hshort⟩
  | cons key keys ih =>
    obtain ⟨hkey, hrest⟩ := hfits
    obtain ⟨s₁, hpress, h₁⟩ := press_spec h hsize hshort hkey
    obtain ⟨s₂, hall, h₂, hshort₂⟩ := ih h₁ hkey.1 hrest
    refine ⟨s₂, ?_, h₂, hshort₂⟩
    rw [pressAll, List.foldlM_cons, hpress]
    exact hall

/-- **The line editor**, over any number of lines.  As long as each key leaves the line shorter than
256 characters, nothing is written outside the buffer and the rows of the history, the cursor and
the end of the line keep their order, and the buffer holds the line of the editor. -/
theorem pressAll_refines (complete : Option (List UInt8 → CString)) {cbsize : ℕ}
    (hsize : histSize ≤ cbsize) {lines buf : List UInt8}
    (hlines : lines.length = histMax * histSize) (hbuf : buf.length = cbsize) {keys : List UInt8}
    (hfits : Editor.start.FitsAll cbsize complete keys) :
    ∃ s, pressAll complete (.start (histInit lines) buf) keys = some s ∧
      s.num ≤ s.eolNum ∧ s.eolNum < histSize ∧
      s.num = (Editor.start.pressAll complete keys).line.before.length ∧
      s.buf.take s.eolNum = (Editor.start.pressAll complete keys).line.text := by
  obtain ⟨s, hall, hrep, hshort⟩ := pressAll_spec (represents_init hlines hbuf) hsize
    (show 0 < histSize by decide) hfits
  obtain ⟨junk, hjunk⟩ := hrep.line.buf
  refine ⟨s, hall, ?_, ?_, hrep.line.num, ?_⟩
  · rw [hrep.line.num, hrep.line.eolNum, Line.text, List.length_append]
    exact Nat.le_add_right _ _
  · rw [hrep.line.eolNum]
    exact hshort
  · rw [hjunk, hrep.line.eolNum, ← List.append_assoc]
    exact List.take_left

/-- A character, a step back, and a character before it. -/
theorem pressAll_refines_ab :
    ∃ s, pressAll none (.start (histInit (List.replicate (histMax * histSize) 0))
        (List.replicate 384 0)) [98, ctlCh 'b', 97] = some s ∧
      s.num ≤ s.eolNum ∧ s.eolNum < histSize ∧
      s.num = (Editor.start.pressAll none [98, ctlCh 'b', 97]).line.before.length ∧
      s.buf.take s.eolNum = (Editor.start.pressAll none [98, ctlCh 'b', 97]).line.text :=
  pressAll_refines none (by decide) List.length_replicate List.length_replicate
    ⟨⟨by decide, fun h => absurd rfl h.1⟩, ⟨by decide, fun h => absurd rfl h.1⟩,
      ⟨by decide, fun h => absurd rfl h.1⟩, trivial⟩

/-! ## A line of 256 characters -/

theorem press_letter {s' : Cread} (hins : s.insert = true) (hesc : s.escSave = [])
    (hlen : s.eolNum < histSize) (h : press none s 97 = some s') :
    s'.insert = true ∧ s'.escSave = [] ∧ s'.eolNum = s.eolNum + 1 := by
  have hturn : creadTurn none s 97 = (creadAddChar s 97).map .more := by
    rw [creadTurn, if_neg (by decide), hesc]
    rfl
  rw [press_eq, hturn, creadAddChar, if_neg (by omega)] at h
  simp only [hins, if_true, true_or] at h
  cases hroom : makeRoom s.buf s.num (s.eolNum + 1 - s.num) with
  | none => simp [hroom] at h
  | some buf =>
    cases hstore : store buf s.num 97 with
    | none => simp [hroom, hstore] at h
    | some buf' =>
      simp only [hroom, hstore, Option.bind_eq_bind, Option.bind_some, Option.pure_def,
        Option.map_some, afterTurn, Option.some.injEq] at h
      rw [← h]
      exact ⟨rfl, hesc, rfl⟩

theorem pressAll_letters {n : ℕ} (hn : n ≤ histSize) {hist : Hist} {buf : List UInt8} {s' : Cread}
    (h : pressAll none (.start hist buf) (List.replicate n 97) = some s') :
    s'.insert = true ∧ s'.escSave = [] ∧ s'.eolNum = n := by
  induction n generalizing s' with
  | zero =>
    rw [← Option.some.inj h]
    exact ⟨rfl, rfl, rfl⟩
  | succ n ih =>
    rw [List.replicate_succ', pressAll, List.foldlM_append] at h
    obtain ⟨s, hfront, hlast⟩ := Option.bind_eq_some_iff.mp h
    obtain ⟨hins, hesc, hlen⟩ := ih (Nat.le_of_succ_le hn) hfront
    have hpress : press none s 97 = some s' := by
      simpa using hlast
    obtain ⟨hins', hesc', hlen'⟩ := press_letter hins hesc (by omega) hpress
    exact ⟨hins', hesc', by omega⟩

/-- After 256 letters `eol_num` is 256. -/
theorem not_pressAll_refines :
    ¬ ∀ keys : List UInt8, ∃ s,
      pressAll none (.start (histInit (List.replicate (histMax * histSize) 0))
        (List.replicate 384 0)) keys = some s ∧
      s.num ≤ s.eolNum ∧ s.eolNum < histSize := by
  intro hall
  obtain ⟨s, hpress, -, hlt⟩ := hall (List.replicate histSize 97)
  have hlen := (pressAll_letters (Nat.le_refl histSize) hpress).2.2
  exact absurd hlt (by rw [hlen]; exact Nat.lt_irrefl _)

end Mem
end Readline
end EmevBsp
