import EmevBsp.Flash.CfiWrite
import Mathlib.Logic.Relation

/-!
# `drivers/mtd/cfi_flash.c`: when `write_buff` is right

The parts of a range are written one after the other: the head, the words or buffers, and the tail.
A part that is a word is written, or reported as not erased.  So is a buffer when the loop that
looks at it finds what holds of all of its words: when all of them fit, or none does.  Of any other
buffer all words are programmed, and bits that should be set stay clear.
-/

namespace EmevBsp
namespace Flash
namespace CfiWrite

open Cfi AddressSpace

variable {bank : Bank} {chips : Chips} {mem mem' : Memory} {s : Programming} {a wp : Addr}
  {l src rest : List UInt8} {r r' : ℕ × Programming}

/-! ## A part of the range -/

/-- Every word that was programmed fits. -/
def Fitted (bank : Bank) (s : Programming) : Prop :=
  ∀ op ∈ s.log, ∀ w ∈ op.words, Cfi.Fits bank.toInfo w.1 w.2

/-- These bytes are written, or the result tells why not. -/
structure Writes (bank : Bank) (s : Programming) (a : Addr) (l : List UInt8)
    (r : ℕ × Programming) : Prop where
  ok : r.1 = errOk → r.2.mem = patch s.mem a l ∧ Fitting s.mem a l
  failed : r.1 ≠ errOk → r.1 = errNotErased ∨ ∃ op ∈ r.2.log, r.1 = op.code
  fitted : Fitted bank s → Fitted bank r.2

theorem patch_behind (hmem : s.mem = patch mem a l) (hlen : (l ++ rest).length ≤ 2 ^ 32) {i : ℕ}
    (hi : i < rest.length) :
    s.mem (a + BitVec.ofNat 32 l.length + BitVec.ofNat 32 i) =
      mem (a + BitVec.ofNat 32 l.length + BitVec.ofNat 32 i) := by
  rw [List.length_append] at hlen
  rw [hmem, add_add, patch_add_of_le (Nat.le_add_right _ _) (by omega)]

theorem Writes.append (h : Writes bank s a l r) (hok : r.1 = errOk)
    (hlen : (l ++ rest).length ≤ 2 ^ 32)
    (h' : Writes bank r.2 (a + BitVec.ofNat 32 l.length) rest r') :
    Writes bank s a (l ++ rest) r' where
  ok hok' := by
    obtain ⟨hmem, hfit⟩ := h.ok hok
    obtain ⟨hmem', hfit'⟩ := h'.ok hok'
    refine ⟨?_, fitting_append.mpr ⟨hfit, ?_⟩⟩
    · rw [hmem', hmem, patch_append (List.length_append ▸ hlen)]
    · exact (fitting_congr fun i hi => patch_behind hmem hlen hi).mp hfit'
  failed := h'.failed
  fitted hs := h'.fitted (h.fitted hs)

theorem Writes.error (h : Writes bank s a l r) (hne : r.1 ≠ errOk) :
    Writes bank s a (l ++ rest) r where
  ok hok := absurd hok hne
  failed := h.failed
  fitted := h.fitted

theorem Fitted.concat {op : Operation} (h : Fitted bank s)
    (hop : ∀ w ∈ op.words, Cfi.Fits bank.toInfo w.1 w.2) (mem : Memory) :
    Fitted bank ⟨mem, s.log ++ [op]⟩ := by
  intro op' hop'
  rcases List.mem_append.mp hop' with hold | hnew
  · exact h op' hold
  · rw [List.mem_singleton.mp hnew]
    exact hop

/-! ## A word -/

/-- The code of the operation `n` when it is a word. -/
def wordCode (bank : Bank) (chips : Chips) (n : ℕ) : ℕ :=
  flashFullStatusCheck bank.toInfo (chips.done n) bank.writeTout

theorem flashWriteCfiword_of_fitting (hl : l.length = bank.portwidth) (hfit : Fitting s.mem a l) :
    flashWriteCfiword bank chips s a (cwordOf bank l) =
      (wordCode bank chips s.log.length, ⟨patch s.mem a l, s.log ++
        [⟨[(flashRead bank s.mem a, bytesOf (cwordOf bank l))],
          wordCode bank chips s.log.length⟩]⟩) := by
  have hfits := (fits_iff hl (spells_cwordOf hl)).mpr hfit
  rw [flashWriteCfiword]
  simp only [Cfi.flashWriteCfiword, hfits, not_true, if_false, if_true]
  rw [program_eq_patch hl (spells_cwordOf hl) hfit, wordCode]

theorem flashWriteCfiword_of_not_fitting (hl : l.length = bank.portwidth)
    (hfit : ¬Fitting s.mem a l) :
    flashWriteCfiword bank chips s a (cwordOf bank l) = (errNotErased, s) := by
  have hfits := mt (fits_iff hl (spells_cwordOf hl)).mp hfit
  rw [flashWriteCfiword]
  simp only [Cfi.flashWriteCfiword, hfits, not_false_iff, if_true, if_false]

theorem writes_word (hl : l.length = bank.portwidth) :
    Writes bank s a l (flashWriteCfiword bank chips s a (cwordOf bank l)) := by
  by_cases hfit : Fitting s.mem a l
  · rw [flashWriteCfiword_of_fitting hl hfit]
    refine ⟨fun _ => ⟨rfl, hfit⟩, fun _ => Or.inr ⟨_, List.mem_concat_self, rfl⟩, fun hs => ?_⟩
    refine hs.concat (fun w hw => ?_) _
    rw [List.mem_singleton.mp hw]
    exact (fits_iff hl (spells_cwordOf hl)).mpr hfit
  · rw [flashWriteCfiword_of_not_fitting hl hfit]
    have hne : errNotErased ≠ errOk := by decide
    exact ⟨fun hok => absurd hok hne, fun _ => Or.inl rfl, id⟩

theorem writes_surrounded (chips : Chips) (s : Programming) (wp : Addr) {k n : ℕ}
    (h : k + l.length + n = bank.portwidth) :
    Writes bank s (wp + BitVec.ofNat 32 k) l (flashWriteCfiword bank chips s wp (cwordOf bank
      (cells s.mem wp k ++ l ++ cells s.mem (wp + BitVec.ofNat 32 (k + l.length)) n))) := by
  have hwide := bank.portwidth_le
  have hword : Writes bank s wp _ (flashWriteCfiword bank chips s wp (cwordOf bank
      (cells s.mem wp k ++ l ++ cells s.mem (wp + BitVec.ofNat 32 (k + l.length)) n))) :=
    writes_word (by rw [List.length_append, List.length_append, length_cells, length_cells, h])
  refine ⟨fun hok => ?_, hword.failed, hword.fitted⟩
  obtain ⟨hmem, hfit⟩ := hword.ok hok
  exact ⟨hmem.trans (patch_surrounded (by omega)), fitting_surrounded.mp hfit⟩

/-! ## The words of a buffer -/

theorem checkErased_iff {ws : List (Port × Port)} :
    checkErased bank ws false = true ↔ ∃ w ∈ ws, Cfi.Fits bank.toInfo w.1 w.2 := by
  have hstop : ∀ ws, checkErased bank ws true = true := by
    intro ws
    cases ws with
    | nil => rfl
    | cons w ws => rw [checkErased, if_pos rfl]
  induction ws with
  | nil => exact iff_of_false Bool.false_ne_true fun ⟨w, hw, _⟩ => List.not_mem_nil hw
  | cons w ws ih =>
    rw [checkErased, if_neg Bool.false_ne_true, List.exists_mem_cons_iff]
    by_cases hfits : Cfi.Fits bank.toInfo w.1 w.2
    · rw [decide_eq_true hfits]
      exact iff_of_true (hstop ws) (Or.inl hfits)
    · rw [decide_eq_false hfits]
      exact ih.trans (or_iff_right hfits).symm

theorem length_sourceWords (src : List UInt8) (cnt : ℕ) :
    (sourceWords bank src cnt).length = cnt := by
  induction cnt generalizing src with
  | zero => rfl
  | succ cnt ih => rw [sourceWords, List.length_cons, ih]

theorem wordsAt_congr {words : List Port} (h : ∀ i < words.length * bank.portwidth,
    mem (a + BitVec.ofNat 32 i) = mem' (a + BitVec.ofNat 32 i)) :
    wordsAt bank mem a words = wordsAt bank mem' a words := by
  induction words generalizing a with
  | nil => rfl
  | cons word words ih =>
    rw [List.length_cons, Nat.add_one_mul] at h
    have hread : flashRead bank mem a = flashRead bank mem' a := by
      funext i
      rw [flashRead, flashRead]
      split_ifs with hi
      · exact h i (by omega)
      · rfl
    rw [wordsAt, wordsAt, hread, ih fun i hi => ?_]
    rw [add_add]
    exact h _ (by omega)

theorem take_words (src : List UInt8) (cnt : ℕ) :
    src.take ((cnt + 1) * bank.portwidth) = src.take bank.portwidth ++
      (src.drop bank.portwidth).take (cnt * bank.portwidth) := by
  rw [Nat.add_one_mul, Nat.add_comm, List.take_add]

theorem spells_take {n : ℕ} : Spells (fun i => src.getD i 0) (src.take n) := by
  intro i hi
  rw [List.length_take] at hi
  show src.getD i 0 = _
  rw [List.getD_eq_getElem _ _ (by omega), List.getElem_take]

theorem forall_wordsAt_iff {cnt : ℕ} (h : cnt * bank.portwidth ≤ src.length) :
    (∀ w ∈ wordsAt bank mem a (sourceWords bank src cnt), Cfi.Fits bank.toInfo w.1 w.2) ↔
      Fitting mem a (src.take (cnt * bank.portwidth)) := by
  induction cnt generalizing src a with
  | zero =>
    rw [Nat.zero_mul, List.take_zero]
    exact iff_of_true (List.forall_mem_nil _) fun i hi => absurd hi (Nat.not_lt_zero i)
  | succ cnt ih =>
    have hmul := Nat.add_one_mul cnt bank.portwidth
    have hfirst : (src.take bank.portwidth).length = bank.portwidth := by
      rw [List.length_take]
      omega
    rw [sourceWords, wordsAt, List.forall_mem_cons, fits_iff hfirst spells_take,
      ih (by rw [List.length_drop]; omega), take_words, fitting_append, hfirst]

theorem programWords_eq_patch {cnt : ℕ} (h : cnt * bank.portwidth ≤ src.length)
    (hlen : cnt * bank.portwidth ≤ 2 ^ 32)
    (hfit : Fitting mem a (src.take (cnt * bank.portwidth))) :
    programWords bank mem a (sourceWords bank src cnt) =
      patch mem a (src.take (cnt * bank.portwidth)) := by
  induction cnt generalizing src a mem with
  | zero => rw [Nat.zero_mul, List.take_zero, patch_nil, sourceWords, programWords]
  | succ cnt ih =>
    have hmul := Nat.add_one_mul cnt bank.portwidth
    have hfirst : (src.take bank.portwidth).length = bank.portwidth := by
      rw [List.length_take]
      omega
    have hrest : ((src.drop bank.portwidth).take (cnt * bank.portwidth)).length =
        cnt * bank.portwidth := by
      rw [List.length_take, List.length_drop]
      omega
    rw [take_words] at hfit ⊢
    obtain ⟨hfit, hfit'⟩ := fitting_append.mp hfit
    rw [hfirst] at hfit'
    have hbehind : Fitting (patch mem a (src.take bank.portwidth))
        (a + BitVec.ofNat 32 bank.portwidth)
        ((src.drop bank.portwidth).take (cnt * bank.portwidth)) := by
      refine (fitting_congr fun i hi => ?_).mpr hfit'
      rw [add_add, patch_add_of_le (by omega) (by omega)]
    rw [sourceWords, programWords, program_eq_patch hfirst spells_take hfit,
      ih (by rw [List.length_drop]; omega) (by omega) hbehind,
      ← patch_append (by omega), hfirst]

/-! ## A buffer -/

/-- All of these words fit, or none does. -/
def Uniform (bank : Bank) (ws : List (Port × Port)) : Prop :=
  (∀ w ∈ ws, Cfi.Fits bank.toInfo w.1 w.2) ∨ ∀ w ∈ ws, ¬Cfi.Fits bank.toInfo w.1 w.2

instance (ws : List (Port × Port)) : Decidable (Uniform bank ws) :=
  inferInstanceAs (Decidable (_ ∨ _))

/-- The code of the operation `n` when it is a buffer. -/
def bufferCode (bank : Bank) (chips : Chips) (n : ℕ) : ℕ :=
  if bufferReady bank chips n ≠ errOk then bufferReady bank chips n
  else flashFullStatusCheck bank.toInfo (chips.done n) bank.bufferWriteTout

/-- The words of a buffer that is not longer than the source. -/
def bufferWords (bank : Bank) (mem : Memory) (wp : Addr) (src : List UInt8) (len : ℕ) :
    List (Port × Port) :=
  wordsAt bank mem wp (sourceWords bank src (len / bank.portwidth))

section Buffer

variable {len : ℕ}

theorem flashWriteCfibuffer_of_none
    (h : ∀ w ∈ bufferWords bank s.mem a src len, ¬Cfi.Fits bank.toInfo w.1 w.2) :
    flashWriteCfibuffer bank chips s a src len = (errNotErased, s) := by
  have hcheck : ¬checkErased bank (bufferWords bank s.mem a src len) false = true := by
    rw [checkErased_iff]
    exact fun ⟨w, hw, hfits⟩ => h w hw hfits
  rw [flashWriteCfibuffer, shiftRight_shift]
  exact if_neg hcheck

theorem flashWriteCfibuffer_of_exists
    (h : ∃ w ∈ bufferWords bank s.mem a src len, Cfi.Fits bank.toInfo w.1 w.2) :
    ∃ mem', flashWriteCfibuffer bank chips s a src len = (bufferCode bank chips s.log.length,
        ⟨mem', s.log ++
          [⟨bufferWords bank s.mem a src len, bufferCode bank chips s.log.length⟩]⟩) ∧
      (bufferCode bank chips s.log.length = errOk →
        mem' = programWords bank s.mem a (sourceWords bank src (len / bank.portwidth))) := by
  rw [flashWriteCfibuffer, shiftRight_shift, bufferCode]
  dsimp only
  rw [← bufferWords, if_pos (checkErased_iff.mpr h)]
  by_cases hready : bufferReady bank chips s.log.length ≠ errOk
  · rw [if_pos hready, if_pos hready]
    exact ⟨_, rfl, fun hok => absurd hok hready⟩
  · rw [if_neg hready, if_neg hready]
    exact ⟨_, rfl, fun _ => rfl⟩

theorem flashWriteCfibuffer_ok (huniform : Uniform bank (bufferWords bank s.mem a src len))
    (hok : (flashWriteCfibuffer bank chips s a src len).1 = errOk) :
    (∃ w ∈ bufferWords bank s.mem a src len, Cfi.Fits bank.toInfo w.1 w.2) ∧
      (∀ w ∈ bufferWords bank s.mem a src len, Cfi.Fits bank.toInfo w.1 w.2) ∧
      bufferCode bank chips s.log.length = errOk ∧
      (flashWriteCfibuffer bank chips s a src len).2.log.length = s.log.length + 1 := by
  by_cases hex : ∃ w ∈ bufferWords bank s.mem a src len, Cfi.Fits bank.toInfo w.1 w.2
  · have hall := huniform.resolve_right fun hnone => hex.elim fun w hw => hnone w hw.1 hw.2
    obtain ⟨mem', hr, -⟩ := flashWriteCfibuffer_of_exists hex
    rw [hr] at hok ⊢
    exact ⟨hex, hall, hok, List.length_append⟩
  · have hne : errNotErased ≠ errOk := by decide
    rw [flashWriteCfibuffer_of_none fun w hw hfits => hex ⟨w, hw, hfits⟩] at hok
    exact absurd hok hne

theorem writes_buffer (hlen : len ≤ src.length) (hsrc : src.length ≤ 2 ^ 32)
    (huniform : Uniform bank (bufferWords bank s.mem a src len)) :
    Writes bank s a (src.take (len / bank.portwidth * bank.portwidth))
      (flashWriteCfibuffer bank chips s a src len) := by
  have hmul := Nat.div_mul_le_self len bank.portwidth
  by_cases hex : ∃ w ∈ bufferWords bank s.mem a src len, Cfi.Fits bank.toInfo w.1 w.2
  · have hall := huniform.resolve_right fun hnone => hex.elim fun w hw => hnone w hw.1 hw.2
    have hfit := (forall_wordsAt_iff (hmul.trans hlen)).mp hall
    obtain ⟨mem', hr, hmem⟩ := flashWriteCfibuffer_of_exists hex
    rw [hr]
    refine ⟨fun hok => ⟨?_, hfit⟩, fun _ => Or.inr ⟨_, List.mem_concat_self, rfl⟩,
      fun hs => hs.concat hall _⟩
    exact (hmem hok).trans (programWords_eq_patch (hmul.trans hlen)
      ((hmul.trans hlen).trans hsrc) hfit)
  · have hne : errNotErased ≠ errOk := by decide
    rw [flashWriteCfibuffer_of_none fun w hw hfits => hex ⟨w, hw, hfits⟩]
    exact ⟨fun hok => absurd hok hne, fun _ => Or.inl rfl, id⟩

end Buffer

/-! ## The buffers that a write comes to -/

/-- Where a write stands: the address, what is left of the source, and the operations so far. -/
structure Position where
  wp : Addr
  src : List UInt8
  n : ℕ

/-- The words of the buffer there. -/
def Position.cnt (bank : Bank) (q : Position) : ℕ :=
  bufferLength bank q.wp q.src.length / bank.portwidth

/-- Each beside what the flash held before the write. -/
def Position.words (bank : Bank) (mem : Memory) (q : Position) : List (Port × Port) :=
  bufferWords bank mem q.wp q.src (bufferLength bank q.wp q.src.length)

/-- Behind the buffer. -/
def Position.next (bank : Bank) (q : Position) : Position :=
  ⟨q.wp + BitVec.ofNat 32 (q.cnt bank * bank.portwidth), q.src.drop (q.cnt bank * bank.portwidth),
    q.n + 1⟩

/-- The buffer there is written, and the write goes on behind it. -/
def GoesOn (bank : Bank) (chips : Chips) (mem : Memory) (q q' : Position) : Prop :=
  q.words bank mem ≠ [] ∧ (∀ w ∈ q.words bank mem, Cfi.Fits bank.toInfo w.1 w.2) ∧
    bufferCode bank chips q.n = errOk ∧ q' = q.next bank

/-- All buffers from a position on. -/
def AllUniform (bank : Bank) (chips : Chips) (mem : Memory) (q : Position) : Prop :=
  ∀ q', Relation.ReflTransGen (GoesOn bank chips mem) q q' → Uniform bank (q'.words bank mem)

theorem allUniform_iff {q : Position} : AllUniform bank chips mem q ↔
    Uniform bank (q.words bank mem) ∧
      ∀ q', GoesOn bank chips mem q q' → AllUniform bank chips mem q' := by
  constructor
  · exact fun h => ⟨h q .refl, fun q' hq' q'' hq'' => h q'' (.head hq' hq'')⟩
  · rintro ⟨hq, hnext⟩ q'' hq''
    rcases Relation.ReflTransGen.cases_head hq'' with rfl | ⟨q', hq', hrest⟩
    · exact hq
    · exact hnext q' hq' q'' hrest

theorem bufferLength_le (wp : Addr) (cnt : ℕ) : bufferLength bank wp cnt ≤ cnt := min_le_right _ _

theorem bufferWords_congr {len : ℕ} (hlen : len ≤ src.length)
    (h : ∀ i < src.length, mem (wp + BitVec.ofNat 32 i) = mem' (wp + BitVec.ofNat 32 i)) :
    bufferWords bank mem wp src len = bufferWords bank mem' wp src len := by
  have hmul := Nat.div_mul_le_self len bank.portwidth
  refine wordsAt_congr fun i hi => h i ?_
  rw [length_sourceWords] at hi
  omega

/-! ## The aligned part -/

theorem agree_drop {i : ℕ} (hi : i ≤ src.length) (hlen : src.length ≤ 2 ^ 32)
    (hmem : r.2.mem = patch s.mem wp (src.take i))
    (hagree : ∀ j < src.length, s.mem (wp + BitVec.ofNat 32 j) = mem (wp + BitVec.ofNat 32 j)) :
    ∀ j < (src.drop i).length,
      r.2.mem (wp + BitVec.ofNat 32 i + BitVec.ofNat 32 j) =
        mem (wp + BitVec.ofNat 32 i + BitVec.ofNat 32 j) := by
  intro j hj
  have hlength : (src.take i).length = i := List.length_take_of_le hi
  have hbehind := patch_behind hmem (by rwa [List.take_append_drop]) hj
  rw [hlength] at hbehind
  rw [hbehind, add_add]
  exact hagree _ (by rw [List.length_drop] at hj; omega)

theorem Writes.first {i : ℕ} (hi : i ≤ src.length) (hlen : src.length ≤ 2 ^ 32)
    (h : Writes bank s wp (src.take i) r)
    (h' : r.1 = errOk → Writes bank r.2 (wp + BitVec.ofNat 32 i) (src.drop i) r') :
    Writes bank s wp src (if r.1 ≠ errOk then r else r') := by
  have hlength : (src.take i).length = i := List.length_take_of_le hi
  have hsrc : Writes bank s wp (src.take i ++ src.drop i) (if r.1 ≠ errOk then r else r') := by
    split_ifs with hok
    · exact h.error hok
    · have hok' := not_not.mp hok
      refine h.append hok' (by rwa [List.take_append_drop]) ?_
      rw [hlength]
      exact h' hok'
  rwa [List.take_append_drop] at hsrc

theorem writes_tail (h : src.length < bank.portwidth) :
    Writes bank s wp src (writeTail bank chips s wp src) := by
  rw [writeTail]
  split_ifs with hnil
  · rw [List.length_eq_zero_iff.mp hnil]
    exact ⟨fun _ => ⟨patch_nil.symm, fun i hi => absurd hi (Nat.not_lt_zero i)⟩,
      fun hne => absurd rfl hne, id⟩
  · have hsum : 0 + src.length + (bank.portwidth - src.length) = bank.portwidth := by omega
    have htail := writes_surrounded chips s wp hsum
    have hzero : wp + BitVec.ofNat 32 0 = wp := BitVec.add_zero wp
    rw [hzero, Nat.zero_add] at htail
    exact htail

theorem writes_aligned (buffered : Bool) (s : Programming) (wp : Addr) (src : List UInt8)
    (hlen : src.length ≤ 2 ^ 32)
    (hagree : ∀ j < src.length, s.mem (wp + BitVec.ofNat 32 j) = mem (wp + BitVec.ofNat 32 j))
    (huniform : ¬(buffered = false ∨ bank.bufferSize = 1) →
      AllUniform bank chips mem ⟨wp, src, s.log.length⟩) :
    Writes bank s wp src (writeAligned bank chips buffered s wp src) := by
  have hpos := bank.portwidth_pos
  rw [writeAligned]
  split_ifs with hwide hword
  · have hfirst : Writes bank s wp (src.take bank.portwidth)
        (flashWriteCfiword bank chips s wp (cwordOf bank (src.take bank.portwidth))) :=
      writes_word (List.length_take_of_le hwide)
    refine hfirst.first hwide hlen fun hok => ?_
    refine writes_aligned buffered _ _ _ (by rw [List.length_drop]; omega)
      (agree_drop hwide hlen (hfirst.ok hok).1 hagree) fun hbuffer => absurd hword hbuffer
  · have hle : bufferLength bank wp src.length ≤ src.length := bufferLength_le wp src.length
    have hcnt := (Nat.div_mul_le_self (bufferLength bank wp src.length) bank.portwidth).trans hle
    obtain ⟨hbuffer, hnext⟩ := allUniform_iff.mp (huniform hword)
    have hsame : bufferWords bank s.mem wp src _ = bufferWords bank mem wp src _ :=
      bufferWords_congr hle hagree
    rw [Position.words, ← hsame] at hbuffer
    have hfirst : Writes bank s wp _ (flashWriteCfibuffer bank chips s wp src _) :=
      writes_buffer hle hlen hbuffer
    dsimp only
    rw [sub_and_portwidth]
    refine hfirst.first hcnt hlen fun hok => ?_
    obtain ⟨hex, hall, hcode, hlog⟩ := flashWriteCfibuffer_ok hbuffer hok
    have hdiv := div_pos_of_flashWriteCfibuffer bank chips hok
    have hshort := Nat.mul_pos hdiv hpos
    refine writes_aligned buffered _ _ _ (by rw [List.length_drop]; omega)
      (agree_drop hcnt hlen (hfirst.ok hok).1 hagree) fun _ => ?_
    rw [hlog]
    refine hnext _ ⟨?_, ?_, hcode, rfl⟩
    · rw [Position.words, ← hsame]
      obtain ⟨w, hw, -⟩ := hex
      exact List.ne_nil_of_mem hw
    · rw [Position.words, ← hsame]
      exact hall
  · exact writes_tail (Nat.lt_of_not_le hwide)
termination_by src.length
decreasing_by
  · rw [List.length_drop]
    omega
  · rw [List.length_drop]
    omega

/-! ## What was programmed -/

theorem log_subset_flashWriteCfiword (s : Programming) (dest : Addr) (cword : Cfiword bank) :
    s.log ⊆ (flashWriteCfiword bank chips s dest cword).2.log := by
  rw [flashWriteCfiword]
  split_ifs
  · exact List.subset_append_left _ _
  · exact List.Subset.refl _

theorem log_subset_flashWriteCfibuffer (s : Programming) (dest : Addr) (src : List UInt8)
    (len : ℕ) : s.log ⊆ (flashWriteCfibuffer bank chips s dest src len).2.log := by
  by_cases hex : ∃ w ∈ bufferWords bank s.mem dest src len, Cfi.Fits bank.toInfo w.1 w.2
  · obtain ⟨mem', hr, -⟩ := flashWriteCfibuffer_of_exists hex
    rw [hr]
    exact List.subset_append_left _ _
  · rw [flashWriteCfibuffer_of_none fun w hw hfits => hex ⟨w, hw, hfits⟩]
    exact List.Subset.refl _

theorem log_subset_writeAligned (buffered : Bool) (s : Programming) (wp : Addr)
    (src : List UInt8) : s.log ⊆ (writeAligned bank chips buffered s wp src).2.log := by
  have hpos := bank.portwidth_pos
  rw [writeAligned]
  split_ifs with hwide hword
  · have hfirst : s.log ⊆ (flashWriteCfiword bank chips s wp _).2.log :=
      log_subset_flashWriteCfiword s wp (cwordOf bank (src.take bank.portwidth))
    dsimp only
    split_ifs with hok
    · exact hfirst
    · exact List.Subset.trans hfirst (log_subset_writeAligned buffered _ _ _)
  · have hfirst : s.log ⊆ (flashWriteCfibuffer bank chips s wp src _).2.log :=
      log_subset_flashWriteCfibuffer s wp src (bufferLength bank wp src.length)
    dsimp only
    split_ifs with hok
    · exact hfirst
    · exact List.Subset.trans hfirst (log_subset_writeAligned buffered _ _ _)
  · rw [writeTail]
    split_ifs
    · exact List.Subset.refl _
    · exact log_subset_flashWriteCfiword s wp _
termination_by src.length
decreasing_by
  · rw [List.length_drop]
    omega
  · have hdiv := div_pos_of_flashWriteCfibuffer bank chips (not_not.mp hok)
    have hshort := Nat.mul_pos hdiv hpos
    rw [List.length_drop, sub_and_portwidth]
    omega

theorem uniform_of_fitted {len : ℕ}
    (h : Fitted bank (flashWriteCfibuffer bank chips s wp src len).2) :
    Uniform bank (bufferWords bank s.mem wp src len) := by
  by_cases hex : ∃ w ∈ bufferWords bank s.mem wp src len, Cfi.Fits bank.toInfo w.1 w.2
  · obtain ⟨mem', hr, -⟩ := flashWriteCfibuffer_of_exists hex
    rw [hr] at h
    exact Or.inl (h _ List.mem_concat_self)
  · exact Or.inr fun w hw hfits => hex ⟨w, hw, hfits⟩

theorem allUniform_of_fitted (buffered : Bool) (s : Programming) (wp : Addr) (src : List UInt8)
    (hlen : src.length ≤ 2 ^ 32) (hbuffer : ¬(buffered = false ∨ bank.bufferSize = 1))
    (hagree : ∀ j < src.length, s.mem (wp + BitVec.ofNat 32 j) = mem (wp + BitVec.ofNat 32 j))
    (h : Fitted bank (writeAligned bank chips buffered s wp src).2) :
    AllUniform bank chips mem ⟨wp, src, s.log.length⟩ := by
  have hpos := bank.portwidth_pos
  have hle : bufferLength bank wp src.length ≤ src.length := bufferLength_le wp src.length
  rw [allUniform_iff]
  rw [writeAligned, if_neg hbuffer] at h
  dsimp only at h
  rw [sub_and_portwidth] at h
  by_cases hwide : bank.portwidth ≤ src.length
  · have hcnt := (Nat.div_mul_le_self (bufferLength bank wp src.length) bank.portwidth).trans hle
    have hsame : bufferWords bank s.mem wp src _ = bufferWords bank mem wp src _ :=
      bufferWords_congr hle hagree
    rw [if_pos hwide] at h
    have hfirst : Fitted bank (flashWriteCfibuffer bank chips s wp src
        (bufferLength bank wp src.length)).2 := by
      split_ifs at h
      · exact h
      · exact fun op hop => h op (log_subset_writeAligned _ _ _ _ hop)
    have huniform := uniform_of_fitted hfirst
    rw [Position.words, ← hsame]
    refine ⟨huniform, ?_⟩
    rintro q' ⟨hne, hall, hcode, rfl⟩
    rw [Position.words, ← hsame] at hne hall
    -- the buffer is written, and the loop goes on behind it
    obtain ⟨w, hw⟩ := List.exists_mem_of_ne_nil _ hne
    have hok : (flashWriteCfibuffer bank chips s wp src
        (bufferLength bank wp src.length)).1 = errOk := by
      obtain ⟨mem', hr, -⟩ := flashWriteCfibuffer_of_exists ⟨w, hw, hall w hw⟩
      rw [hr]
      exact hcode
    have hmem := ((writes_buffer hle hlen huniform).ok hok).1
    have hlog := (flashWriteCfibuffer_ok huniform hok).2.2.2
    have hdiv := div_pos_of_flashWriteCfibuffer bank chips hok
    have hshort := Nat.mul_pos hdiv hpos
    rw [if_neg (not_not.mpr hok)] at h
    have hrest := allUniform_of_fitted buffered _ _ _ (by rw [List.length_drop]; omega) hbuffer
      (agree_drop hcnt hlen hmem hagree) h
    rwa [hlog] at hrest
  · -- less than a word is left, and no buffer
    have hnil : Position.words bank mem ⟨wp, src, s.log.length⟩ = [] := by
      have hcnt : bufferLength bank wp src.length / bank.portwidth = 0 :=
        Nat.div_eq_of_lt (by omega)
      rw [Position.words, bufferWords, hcnt]
      rfl
    rw [hnil]
    exact ⟨Or.inl (List.forall_mem_nil _), fun q' hq' => absurd hnil hq'.1⟩
termination_by src.length
decreasing_by
  rw [List.length_drop]
  omega

/-! ## The head -/

/-- The bytes of the word that the range begins in. -/
def headWord (bank : Bank) (mem : Memory) (addr : Addr) (src : List UInt8) : List UInt8 :=
  let first := src.take (bank.portwidth - alnOf bank addr)
  cells mem (alignedAddr bank addr) (alnOf bank addr) ++ first ++
    cells mem (alignedAddr bank addr + BitVec.ofNat 32 (alnOf bank addr + first.length))
      (bank.portwidth - (alnOf bank addr + first.length))

section Head

variable {addr : Addr}

theorem alignedAddr_add_alnOf (bank : Bank) (addr : Addr) :
    alignedAddr bank addr + BitVec.ofNat 32 (alnOf bank addr) = addr := add_toNat_sub

theorem alignedAddr_add_portwidth (addr : Addr) :
    alignedAddr bank addr + BitVec.ofNat 32 bank.portwidth =
      addr + BitVec.ofNat 32 (bank.portwidth - alnOf bank addr) := by
  conv_rhs => rw [← alignedAddr_add_alnOf bank addr, add_add]
  rw [alignedAddr_add_alnOf, Nat.add_sub_cancel' (alnOf_lt bank addr).le]

theorem length_headParts (bank : Bank) (addr : Addr) (src : List UInt8) :
    alnOf bank addr + (src.take (bank.portwidth - alnOf bank addr)).length +
        (bank.portwidth -
          (alnOf bank addr + (src.take (bank.portwidth - alnOf bank addr)).length)) =
      bank.portwidth := by
  have hlt := alnOf_lt bank addr
  have hle := List.length_take_le (bank.portwidth - alnOf bank addr) src
  omega

theorem writes_head (bank : Bank) (chips : Chips) (mem : Memory) (addr : Addr)
    (src : List UInt8) :
    Writes bank ⟨mem, []⟩ addr (src.take (bank.portwidth - alnOf bank addr))
      (flashWriteCfiword bank chips ⟨mem, []⟩ (alignedAddr bank addr)
        (cwordOf bank (headWord bank mem addr src))) := by
  have hhead := writes_surrounded chips ⟨mem, []⟩ (alignedAddr bank addr)
    (length_headParts bank addr src)
  rw [alignedAddr_add_alnOf] at hhead
  exact hhead

theorem flashWriteCfiword_head (bank : Bank) (chips : Chips)
    (hfit : Fitting mem addr (src.take (bank.portwidth - alnOf bank addr))) :
    let r := flashWriteCfiword bank chips ⟨mem, []⟩ (alignedAddr bank addr)
      (cwordOf bank (headWord bank mem addr src))
    r.1 = wordCode bank chips 0 ∧ r.2.log.length = 1 := by
  have hlength : (headWord bank mem addr src).length = bank.portwidth := by
    rw [headWord, List.length_append, List.length_append, length_cells, length_cells,
      length_headParts]
  have hword : Fitting mem (alignedAddr bank addr) (headWord bank mem addr src) := by
    rw [headWord, fitting_surrounded, alignedAddr_add_alnOf]
    exact hfit
  dsimp only
  rw [flashWriteCfiword_of_fitting hlength hword]
  exact ⟨rfl, rfl⟩

theorem writeBuff_of_unaligned (buffered : Bool) (haln : alnOf bank addr ≠ 0) :
    writeBuff bank chips buffered mem addr src =
      let r := flashWriteCfiword bank chips ⟨mem, []⟩ (alignedAddr bank addr)
        (cwordOf bank (headWord bank mem addr src))
      if r.1 ≠ errOk then r
      else
        writeAligned bank chips buffered r.2
          (addr + BitVec.ofNat 32 (bank.portwidth - alnOf bank addr))
          (src.drop (bank.portwidth - alnOf bank addr)) := by
  rw [writeBuff]
  dsimp only
  rw [if_pos haln, List.length_append, length_cells, ← headWord, alignedAddr_add_portwidth]

theorem writeBuff_of_aligned (buffered : Bool) (haln : alnOf bank addr = 0) :
    writeBuff bank chips buffered mem addr src =
      writeAligned bank chips buffered ⟨mem, []⟩ addr src := by
  have haddr := alignedAddr_add_alnOf bank addr
  have hzero : alignedAddr bank addr + BitVec.ofNat 32 0 = alignedAddr bank addr :=
    BitVec.add_zero _
  rw [haln, hzero] at haddr
  rw [writeBuff]
  dsimp only
  rw [if_neg (not_not.mpr haln), haddr]

end Head

/-! ## The whole range -/

/-- Where the aligned part begins, when a head in front of it was written. -/
inductive Starts (bank : Bank) (chips : Chips) (mem : Memory) (addr : Addr) (src : List UInt8) :
    Position → Prop
  | aligned (haln : alnOf bank addr = 0) : Starts bank chips mem addr src ⟨addr, src, 0⟩
  | head (haln : alnOf bank addr ≠ 0)
      (hfit : Fitting mem addr (src.take (bank.portwidth - alnOf bank addr)))
      (hcode : wordCode bank chips 0 = errOk) :
      Starts bank chips mem addr src
        ⟨addr + BitVec.ofNat 32 (bank.portwidth - alnOf bank addr),
          src.drop (bank.portwidth - alnOf bank addr), 1⟩

/-- **The write comes to the buffer at a position**: the head and all buffers in front of it fit,
and their operations are reported as done. -/
def ComesTo (bank : Bank) (chips : Chips) (mem : Memory) (addr : Addr) (src : List UInt8)
    (q : Position) : Prop :=
  ∃ q₀, Starts bank chips mem addr src q₀ ∧
    Relation.ReflTransGen (GoesOn bank chips mem) q₀ q

/-- `src` and `cnt`, which is an `ulong`. -/
structure Source where
  bytes : List UInt8
  cnt_lt : bytes.length < 2 ^ 32

section Range

variable {addr : Addr} {buffered : Bool}

theorem writeAligned_nil : writeAligned bank chips buffered s wp [] = (errOk, s) := by
  have hshort : ¬bank.portwidth ≤ ([] : List UInt8).length := Nat.not_le_of_lt bank.portwidth_pos
  rw [writeAligned, if_neg hshort, writeTail, if_pos List.length_nil]

theorem writes_writeBuff (hlen : src.length ≤ 2 ^ 32)
    (huniform : ¬(buffered = false ∨ bank.bufferSize = 1) →
      ∀ q, ComesTo bank chips mem addr src q → Uniform bank (q.words bank mem)) :
    Writes bank ⟨mem, []⟩ addr src (writeBuff bank chips buffered mem addr src) := by
  by_cases haln : alnOf bank addr = 0
  · rw [writeBuff_of_aligned buffered haln]
    exact writes_aligned buffered _ _ _ hlen (fun _ _ => rfl)
      fun hbuffer q hq => huniform hbuffer q ⟨_, .aligned haln, hq⟩
  · have hhead := writes_head bank chips mem addr src
    rw [writeBuff_of_unaligned buffered haln]
    dsimp only
    by_cases hi : bank.portwidth - alnOf bank addr ≤ src.length
    · refine hhead.first hi hlen fun hok => ?_
      obtain ⟨hmem, hfit⟩ := hhead.ok hok
      obtain ⟨hcode, hlog⟩ := flashWriteCfiword_head bank chips hfit
      refine writes_aligned buffered _ _ _ (by rw [List.length_drop]; omega)
        (agree_drop hi hlen hmem fun _ _ => rfl) fun hbuffer q hq => ?_
      rw [hlog] at hq
      exact huniform hbuffer q ⟨_, .head haln hfit (hcode.symm.trans hok), hq⟩
    · -- the range ends in the word in which it begins
      rw [List.take_of_length_le (by omega)] at hhead
      rw [List.drop_of_length_le (by omega), writeAligned_nil]
      split_ifs with hok
      · exact hhead
      · rw [← not_not.mp hok]
        exact hhead

/-- **Where only words are programmed that fit**, all buffers that the write comes to are of one
kind. -/
theorem uniform_of_comesTo (hlen : src.length ≤ 2 ^ 32)
    (hbuffer : ¬(buffered = false ∨ bank.bufferSize = 1))
    (h : Fitted bank (writeBuff bank chips buffered mem addr src).2) {q : Position}
    (hq : ComesTo bank chips mem addr src q) : Uniform bank (q.words bank mem) := by
  obtain ⟨q₀, hstart, hq⟩ := hq
  cases hstart with
  | aligned haln =>
    rw [writeBuff_of_aligned buffered haln] at h
    exact allUniform_of_fitted buffered _ _ _ hlen hbuffer (fun _ _ => rfl) h q hq
  | head haln hfit hcode =>
    obtain ⟨hcode', hlog⟩ := flashWriteCfiword_head bank chips hfit
    have hok := hcode'.trans hcode
    rw [writeBuff_of_unaligned buffered haln] at h
    dsimp only at h
    rw [if_neg (not_not.mpr hok)] at h
    rw [← hlog] at hq
    refine allUniform_of_fitted buffered _ _ _ (by rw [List.length_drop]; omega) hbuffer ?_ h q hq
    by_cases hi : bank.portwidth - alnOf bank addr ≤ src.length
    · exact agree_drop hi hlen ((writes_head bank chips mem addr src).ok hok).1 fun _ _ => rfl
    · rw [List.drop_of_length_le (by omega)]
      exact fun j hj => absurd hj (Nat.not_lt_zero j)

theorem programs_of_writes (hlen : src.length ≤ 2 ^ 32) (h : Writes bank ⟨mem, []⟩ addr src r) :
    Programs bank mem addr src r where
  written hok i hi := by
    rw [(h.ok hok).1]
    exact patch_add hi hlen
  kept hok x hx := by
    rw [(h.ok hok).1]
    exact patch_of_forall_ne hx
  fits := h.fitted fun op hop => absurd hop List.not_mem_nil
  reported hfit := by
    have hne : r.1 ≠ errOk := fun hok => hfit (h.ok hok).2
    exact (h.failed hne).imp_right fun ⟨op, hop, hcode⟩ => ⟨op, hop, hcode ▸ hne, hcode⟩

end Range

/-- **Exactly when a write does what it should.**  The build without buffers always does, and so do
buffers of size 1.  With buffers, of each one that the write comes to all words have to fit, or
none. -/
theorem programs_iff (bank : Bank) (chips : Chips) (buffered : Bool) (mem : Memory) (addr : Addr)
    (src : Source) :
    Programs bank mem addr src.bytes (writeBuff bank chips buffered mem addr src.bytes) ↔
      (buffered = true → bank.bufferSize ≠ 1 →
        ∀ q, ComesTo bank chips mem addr src.bytes q → Uniform bank (q.words bank mem)) := by
  have hlen := src.cnt_lt.le
  constructor
  · intro h hbuffered hsize q hq
    have hbuffer : ¬(buffered = false ∨ bank.bufferSize = 1) := by
      rw [hbuffered]
      exact fun hor => hor.elim (fun htrue => Bool.noConfusion htrue) hsize
    exact uniform_of_comesTo hlen hbuffer h.fits hq
  · refine fun h => programs_of_writes hlen (writes_writeBuff hlen fun hbuffer => ?_)
    rw [not_or, Bool.not_eq_false] at hbuffer
    exact h hbuffer.1 hbuffer.2

/-- A byte-wide port, and a buffer of 32 bytes. -/
def byteBank : Bank where
  toInfo := oneChip
  bufferSize := 32
  bufferWriteTout := 1000
  knownWidth := by decide
  knownVendor := Or.inl rfl
  buffered_pos := by decide

/-- The chip is always done. -/
def readyChips : Chips := ⟨fun _ => shows 0x80, fun _ => shows 0x80⟩

/-- The second byte was programmed before. -/
def partlyErased : Memory := fun x => if x = 1 then 0 else 0xff

/-- **A word that fits, and one behind it that does not**: both are programmed. -/
theorem not_programs : ¬∀ bank chips buffered mem addr (src : Source),
    Programs bank mem addr src.bytes (writeBuff bank chips buffered mem addr src.bytes) := by
  intro h
  have hfits := (h byteBank readyChips true partlyErased 0 ⟨[0x12, 0x34], by decide⟩).fits
  have hcomes : ComesTo byteBank readyChips partlyErased 0 [0x12, 0x34] ⟨0, [0x12, 0x34], 0⟩ :=
    ⟨_, .aligned (by decide), .refl⟩
  have huniform := uniform_of_comesTo (by decide) (by decide) hfits hcomes
  revert huniform
  decide

end CfiWrite
end Flash
end EmevBsp
