import EmevBsp.Library.Pieces
import Mathlib.Data.Nat.Cast.Order.Ring
import Mathlib.Algebra.Order.Ring.Int

/-!
# `system/core/init/devices.c`: a firmware file is handed to the kernel

`load_firmware` reads the file a page at a time and writes the page to `data`, again and again until
all of it is taken; `1` and then `0` or `-1` go to `loading`.  Each `write` of a page begins at the
start of the page, also one behind a short `write`.
-/

namespace EmevBsp
namespace AndroidInit
namespace Firmware

open Pieces

/-! ## The function -/

abbrev pageSize : ℕ := 4096

/-- `read`, from a place of the file: a failure, or so many bytes if they are there. -/
def read (file : List UInt8) (pos : ℕ) (result : Option ℕ) : Option (List UInt8) :=
  result.map fun n => (file.drop pos).take (min n pageSize)

/-- `write`: a failure, or so many of the bytes are taken. -/
def write (bytes : List UInt8) (result : Option ℕ) : Option (List UInt8) :=
  result.map fun n => bytes.take n

/-- The results of the system calls: of each `read`, of each `write` of each page, and of the two
`write`s to `loading`. -/
structure Calls where
  reads : ℕ → Option ℕ
  writes : ℕ → ℕ → Option ℕ
  loading : ℕ → Option ℕ

/-- The loop that writes the bytes `buf`, from the `write` of number `j` on, with `nr` bytes left
and `data` taken so far: whether it came to its end, and what is taken.  `none` is no end after so
many `write`s. -/
def writeLoop (buf : List UInt8) (results : ℕ → Option ℕ) :
    ℕ → ℕ → ℕ → List UInt8 → Option (Bool × List UInt8)
  | 0, _, nr, data => if 0 < nr then none else some (true, data)
  | n + 1, j, nr, data =>
    if 0 < nr then
      let nw := 0
      match write ((buf.drop nw).take nr) (results j) with
      | none => some (false, data)
      | some taken =>
        if taken.length ≤ 0 then some (false, data)
        else writeLoop buf results n (j + 1) (nr - taken.length) (data ++ taken)
    else some (true, data)

/-- The loop over the pages, from the `read` of number `k` on. -/
def copyLoop (file : List UInt8) (c : Calls) :
    ℕ → ℕ → ℕ → ℤ → List UInt8 → Option (Bool × List UInt8)
  | 0, _, _, lenToCopy, data => if 0 < lenToCopy then none else some (true, data)
  | n + 1, k, pos, lenToCopy, data =>
    if 0 < lenToCopy then
      match read file pos (c.reads k) with
      | none => some (false, data)
      | some buf =>
        if buf.length = 0 then some (true, data)
        else
          match writeLoop buf (c.writes k) buf.length 0 buf.length data with
          | none => none
          | some (false, data) => some (false, data)
          | some (true, data) =>
            copyLoop file c n (k + 1) (pos + buf.length) (lenToCopy - buf.length) data
    else some (true, data)

/-- What is left of a call: its result, the bytes that `data` took, and those of each `write` to
`loading`. -/
structure Result where
  ret : ℤ
  data : List UInt8
  loading : List (List UInt8)
  deriving DecidableEq

/-- The text `0`. -/
def endOfTransfer : List UInt8 := [0x30]

/-- The text `-1`. -/
def abortTransfer : List UInt8 := [0x2d, 0x31]

/-- A `long` of 32 bits. -/
def long (n : ℕ) : ℤ := (n : ℤ).bmod (2 ^ 32)

/-- `load_firmware`, with the result of `fstat` (a failure, or `st_size`). -/
def loadFirmware (file : List UInt8) (fstat : Option ℕ) (c : Calls) : Option Result :=
  match fstat with
  | none => some ⟨-1, [], []⟩
  | some stSize =>
    let lenToCopy := long stSize
    (copyLoop file c lenToCopy.toNat 0 0 lenToCopy []).map fun (ok, data) =>
      { ret := if ok then 0 else -1
        data := data
        loading := [(write [0x31] (c.loading 0)).getD [],
          (write (if ok then endOfTransfer else abortTransfer) (c.loading 1)).getD []] }

/-- The file is copied exactly and `0` is written, or the transfer is aborted. -/
def Result.Right (r : Result) (file : List UInt8) (stSize : ℕ) : Prop :=
  (r.ret = 0 ∧ stSize ≤ file.length ∧ r.data = file.take stSize ∧ endOfTransfer ∈ r.loading) ∨
    (r.ret ≠ 0 ∧ abortTransfer ∈ r.loading)

/-! ## The pieces of a page -/

section Page

variable (buf : List UInt8) (results : ℕ → Option ℕ)

/-- How many bytes a `write` takes. -/
def writeCut (j pos : ℕ) : ℕ := min ((results j).getD 0) (buf.length - pos)

/-- The bytes that a `write` takes. -/
def taken (j : ℕ) : List UInt8 := buf.take (size (writeCut buf results) j)

/-- The bytes that are taken for a page. -/
def sent : List UInt8 := (List.range buf.length).flatMap (taken buf results)

variable {buf results}

theorem ends_writeCut_le (buf : List UInt8) (results : ℕ → Option ℕ) (j : ℕ) :
    ends (writeCut buf results) j ≤ buf.length := by
  induction j with
  | zero => exact Nat.zero_le _
  | succ j ih =>
    rw [ends_succ, size, writeCut]
    omega

theorem length_taken (buf : List UInt8) (results : ℕ → Option ℕ) (j : ℕ) :
    (taken buf results j).length = size (writeCut buf results) j := by
  have hle := ends_writeCut_le buf results (j + 1)
  rw [ends_succ] at hle
  rw [taken, List.length_take]
  omega

theorem writeLoop_succ {n j : ℕ} (data : List UInt8)
    (hleft : ends (writeCut buf results) j < buf.length) :
    writeLoop buf results (n + 1) j (buf.length - ends (writeCut buf results) j) data =
      if size (writeCut buf results) j = 0 then some (false, data)
      else writeLoop buf results n (j + 1) (buf.length - ends (writeCut buf results) (j + 1))
        (data ++ taken buf results j) := by
  have hlength := length_taken buf results j
  rw [writeLoop, if_pos (by omega), ends_succ, ← Nat.sub_sub]
  dsimp only
  rw [List.drop_zero]
  cases hresult : results j with
  | none =>
    rw [if_pos (by rw [size, writeCut, hresult]; exact Nat.zero_min _)]
    rfl
  | some m =>
    have htaken : (buf.take (buf.length - ends (writeCut buf results) j)).take m =
        taken buf results j := by
      rw [List.take_take, taken, size, writeCut, hresult, Option.getD_some]
    simp only [write, Option.map_some, htaken, hlength, Nat.le_zero]

theorem writeLoop_ends (buf : List UInt8) (results : ℕ → Option ℕ) {n j : ℕ} (base : List UInt8)
    (hn : buf.length - ends (writeCut buf results) j ≤ n) :
    ∃ J, j ≤ J ∧ (∀ i, j ≤ i → i < J → 0 < size (writeCut buf results) i) ∧
      ((buf.length ≤ ends (writeCut buf results) J ∧
          writeLoop buf results n j (buf.length - ends (writeCut buf results) j)
            (base ++ (List.range j).flatMap (taken buf results)) =
          some (true, base ++ (List.range J).flatMap (taken buf results))) ∨
        (ends (writeCut buf results) J < buf.length ∧ size (writeCut buf results) J = 0 ∧
          ∃ data, writeLoop buf results n j (buf.length - ends (writeCut buf results) j)
            (base ++ (List.range j).flatMap (taken buf results)) = some (false, data))) := by
  have hnone : ∀ i, j ≤ i → i < j → 0 < size (writeCut buf results) i := fun i hge hlt =>
    absurd hge (not_le.mpr hlt)
  induction n generalizing j with
  | zero =>
    refine ⟨j, le_rfl, hnone, .inl ⟨by omega, ?_⟩⟩
    rw [writeLoop, if_neg (by omega)]
  | succ n ih =>
    by_cases hleft : ends (writeCut buf results) j < buf.length
    · rw [writeLoop_succ _ hleft]
      by_cases hzero : size (writeCut buf results) j = 0
      · exact ⟨j, le_rfl, hnone, .inr ⟨hleft, hzero, _, if_pos hzero⟩⟩
      · obtain ⟨J, hle, hpos, hend⟩ := ih (j := j + 1) (by rw [ends_succ]; omega)
          fun i hge hlt => absurd hge (not_le.mpr hlt)
        rw [List.range_succ, List.flatMap_append, List.flatMap_singleton, ← List.append_assoc]
          at hend
        refine ⟨J, by omega, fun i hge hlt => ?_, ?_⟩
        · obtain rfl | hlater := Nat.eq_or_lt_of_le hge
          · exact Nat.pos_of_ne_zero hzero
          · exact hpos i hlater hlt
        · rwa [if_neg hzero]
    · refine ⟨j, le_rfl, hnone, .inl ⟨not_lt.mp hleft, ?_⟩⟩
      rw [writeLoop, if_neg (by omega)]

theorem sent_eq {J : ℕ} (hpos : ∀ i < J, 0 < size (writeCut buf results) i)
    (hend : buf.length ≤ ends (writeCut buf results) J) :
    (List.range J).flatMap (taken buf results) = sent buf results := by
  refine (flatMap_range_of_le ((le_ends hpos).trans (ends_writeCut_le _ _ J)) fun i hi => ?_).symm
  have hmono := ends_mono (writeCut buf results) hi
  rw [taken, size, writeCut, Nat.sub_eq_zero_of_le (hend.trans hmono), Nat.min_zero,
    List.take_zero]

theorem ends_length_of_pos (hpos : ∀ j, ends (writeCut buf results) j < buf.length →
    0 < size (writeCut buf results) j) : buf.length ≤ ends (writeCut buf results) buf.length := by
  by_contra hlt
  exact hlt (le_ends fun i hi => hpos i ((ends_mono _ hi.le).trans_lt (not_le.mp hlt)))

theorem length_sent : (sent buf results).length = ends (writeCut buf results) buf.length :=
  length_flatMap_pieces fun j _ => length_taken buf results j

theorem sent_eq_iff (hend : buf.length ≤ ends (writeCut buf results) buf.length) :
    sent buf results = buf ↔ ∀ j, taken buf results j =
      (buf.drop (ends (writeCut buf results) j)).take (size (writeCut buf results) j) := by
  have hpieces := flatMap_pieces_iff (K := buf.length) (l := buf)
    (fun j _ => length_taken buf results j) (ends_writeCut_le buf results buf.length)
  rw [List.take_of_length_le hend] at hpieces
  rw [sent, hpieces]
  refine ⟨fun h j => ?_, fun h j _ => h j⟩
  by_cases hj : j < buf.length
  · exact h j hj
  · have hmono := ends_mono (writeCut buf results) (not_lt.mp hj)
    rw [taken, size, writeCut, Nat.sub_eq_zero_of_le (hend.trans hmono), Nat.min_zero,
      List.take_zero, List.take_zero]

end Page

/-! ## The pieces of the file -/

section File

variable (file : List UInt8) (c : Calls)

/-- How many bytes a `read` gives. -/
def readCut (k pos : ℕ) : ℕ := min (min ((c.reads k).getD 0) pageSize) (file.length - pos)

/-- The bytes that a `read` gives. -/
def page (k : ℕ) : List UInt8 :=
  (file.drop (ends (readCut file c) k)).take (size (readCut file c) k)

/-- A page is read, and each `write` of it takes something. -/
def GoesOn (len : ℤ) (k : ℕ) : Prop :=
  ends (readCut file c) k < len ∧ 0 < size (readCut file c) k ∧
    ∀ j, ends (writeCut (page file c k) (c.writes k)) j < (page file c k).length →
      0 < size (writeCut (page file c k) (c.writes k)) j

/-- A `read` fails, or a `write` takes nothing. -/
def FailsAt (len : ℤ) (k : ℕ) : Prop :=
  ends (readCut file c) k < len ∧
    (c.reads k = none ∨
      ∃ j, ends (writeCut (page file c k) (c.writes k)) j < (page file c k).length ∧
        size (writeCut (page file c k) (c.writes k)) j = 0)

/-- All is read, or the file is at its end. -/
def EndsAt (len : ℤ) (k : ℕ) : Prop :=
  len ≤ ends (readCut file c) k ∨ (c.reads k ≠ none ∧ size (readCut file c) k = 0)

variable {file c}

theorem ends_readCut_le (file : List UInt8) (c : Calls) (k : ℕ) :
    ends (readCut file c) k ≤ file.length := by
  induction k with
  | zero => exact Nat.zero_le _
  | succ k ih =>
    rw [ends_succ, size, readCut]
    omega

theorem length_page (k : ℕ) : (page file c k).length = size (readCut file c) k := by
  have hle := ends_readCut_le file c (k + 1)
  rw [ends_succ] at hle
  rw [page, List.length_take, List.length_drop]
  omega

theorem GoesOn.not_failsAt {len : ℤ} {k : ℕ} (h : GoesOn file c len k) :
    ¬ FailsAt file c len k := by
  rintro ⟨-, hnone | ⟨j, hj, hzero⟩⟩
  · have hpos := h.2.1
    rw [size, readCut, hnone] at hpos
    exact absurd hpos (by simp)
  · exact (h.2.2 j hj).ne' hzero

theorem GoesOn.not_endsAt {len : ℤ} {k : ℕ} (h : GoesOn file c len k) : ¬ EndsAt file c len k := by
  rintro (hle | ⟨-, hzero⟩)
  · exact absurd h.1 (not_lt.mpr hle)
  · exact h.2.1.ne' hzero

theorem EndsAt.not_failsAt {len : ℤ} {k : ℕ} (h : EndsAt file c len k) :
    ¬ FailsAt file c len k := by
  rintro ⟨hlt, hfail⟩
  obtain hle | ⟨hread, hzero⟩ := h
  · exact absurd hlt (not_lt.mpr hle)
  · obtain hnone | ⟨j, hj, -⟩ := hfail
    · exact hread hnone
    · rw [length_page, hzero] at hj
      exact Nat.not_lt_zero _ hj

theorem read_eq (k : ℕ) :
    read file (ends (readCut file c) k) (c.reads k) = (c.reads k).map fun _ => page file c k := by
  cases hresult : c.reads k with
  | none => rfl
  | some n =>
    rw [read, Option.map_some, Option.map_some, page, size, readCut, hresult, Option.getD_some,
      List.take_eq_take_min, List.length_drop]

theorem writeLoop_page (file : List UInt8) (c : Calls) (k : ℕ) (data : List UInt8) :
    (∃ data', (∃ j, ends (writeCut (page file c k) (c.writes k)) j < (page file c k).length ∧
        size (writeCut (page file c k) (c.writes k)) j = 0) ∧
      writeLoop (page file c k) (c.writes k) (page file c k).length 0 (page file c k).length data =
        some (false, data')) ∨
    ((∀ j, ends (writeCut (page file c k) (c.writes k)) j < (page file c k).length →
        0 < size (writeCut (page file c k) (c.writes k)) j) ∧
      writeLoop (page file c k) (c.writes k) (page file c k).length 0 (page file c k).length data =
        some (true, data ++ sent (page file c k) (c.writes k))) := by
  obtain ⟨J, -, hpos, ⟨hend, hloop⟩ | ⟨hlt, hzero, data', hloop⟩⟩ :=
    writeLoop_ends (page file c k) (c.writes k) (j := 0) data le_rfl
  · rw [sent_eq (fun i hi => hpos i (Nat.zero_le i) hi) hend] at hloop
    refine .inr ⟨fun j hj => hpos j (Nat.zero_le j) ?_, by simpa [ends] using hloop⟩
    by_contra hle
    exact absurd (hend.trans (ends_mono _ (not_lt.mp hle))) (not_le.mpr hj)
  · exact .inl ⟨data', ⟨J, hlt, hzero⟩, by simpa [ends] using hloop⟩

theorem copyLoop_ends (file : List UInt8) (c : Calls) (len : ℤ) {n k : ℕ}
    (hn : (len - ends (readCut file c) k).toNat ≤ n) :
    ∃ K, k ≤ K ∧ (∀ i, k ≤ i → i < K → GoesOn file c len i) ∧
      ((EndsAt file c len K ∧
          copyLoop file c n k (ends (readCut file c) k) (len - ends (readCut file c) k)
            ((List.range k).flatMap fun i => sent (page file c i) (c.writes i)) =
          some (true, (List.range K).flatMap fun i => sent (page file c i) (c.writes i))) ∨
        (FailsAt file c len K ∧
          ∃ data, copyLoop file c n k (ends (readCut file c) k) (len - ends (readCut file c) k)
            ((List.range k).flatMap fun i => sent (page file c i) (c.writes i)) =
          some (false, data))) := by
  have hnone : ∀ i, k ≤ i → i < k → GoesOn file c len i := fun i hge hlt =>
    absurd hge (not_le.mpr hlt)
  induction n generalizing k with
  | zero =>
    refine ⟨k, le_rfl, hnone, .inl ⟨.inl (by omega), ?_⟩⟩
    rw [copyLoop, if_neg (by omega)]
  | succ n ih =>
    rw [copyLoop, read_eq]
    by_cases hleft : ends (readCut file c) k < len
    · rw [if_pos (by omega)]
      cases hresult : c.reads k with
      | none => exact ⟨k, le_rfl, hnone, .inr ⟨⟨hleft, .inl hresult⟩, _, rfl⟩⟩
      | some m =>
        simp only [Option.map_some, length_page]
        by_cases hzero : size (readCut file c) k = 0
        · exact ⟨k, le_rfl, hnone, .inl ⟨.inr ⟨by rw [hresult]; simp, hzero⟩, if_pos hzero⟩⟩
        · rw [if_neg hzero, ← length_page]
          obtain ⟨data, hfail, hloop⟩ | ⟨hgoes, hloop⟩ := writeLoop_page file c k
            ((List.range k).flatMap fun i => sent (page file c i) (c.writes i))
          · exact ⟨k, le_rfl, hnone, .inr ⟨⟨hleft, .inr hfail⟩, data, by rw [hloop]⟩⟩
          · obtain ⟨K, hle, hpages, hend⟩ := ih (k := k + 1) (by rw [ends_succ]; omega)
              fun i hge hlt => absurd hge (not_le.mpr hlt)
            rw [List.range_succ, List.flatMap_append, List.flatMap_singleton, ends_succ,
              ← length_page, Nat.cast_add, ← sub_sub] at hend
            refine ⟨K, by omega, fun i hge hlt => ?_, ?_⟩
            · obtain rfl | hlater := Nat.eq_or_lt_of_le hge
              · exact ⟨hleft, Nat.pos_of_ne_zero hzero, hgoes⟩
              · exact hpages i hlater hlt
            · rwa [hloop]
    · refine ⟨k, le_rfl, hnone, .inl ⟨.inl (not_lt.mp hleft), ?_⟩⟩
      rw [if_neg (by omega)]

/-! ## The transfer -/

theorem flatMap_sent_iff {len : ℤ} {K : ℕ} (hpages : ∀ k < K, GoesOn file c len k) :
    ((List.range K).flatMap fun k => sent (page file c k) (c.writes k)) =
        file.take (ends (readCut file c) K) ↔
      ∀ k < K, ∀ j, taken (page file c k) (c.writes k) j =
        ((page file c k).drop (ends (writeCut (page file c k) (c.writes k)) j)).take
          (size (writeCut (page file c k) (c.writes k)) j) := by
  have hwhole := fun k hk => ends_length_of_pos (hpages k hk).2.2
  rw [flatMap_pieces_iff (fun k hk => ?_) (ends_readCut_le file c K)]
  · exact forall₂_congr fun k hk => sent_eq_iff (hwhole k hk)
  · rw [length_sent, ← length_page]
    exact le_antisymm (ends_writeCut_le _ _ _) (hwhole k hk)

theorem length_flatMap_sent {len : ℤ} {K : ℕ} (hpages : ∀ k < K, GoesOn file c len k) :
    ((List.range K).flatMap fun k => sent (page file c k) (c.writes k)).length =
      ends (readCut file c) K := by
  refine length_flatMap_pieces fun k hk => ?_
  rw [length_sent, ← length_page]
  exact le_antisymm (ends_writeCut_le _ _ _) (ends_length_of_pos (hpages k hk).2.2)

theorem eq_of_goesOn {len : ℤ} {K L : ℕ} (hK : ∀ k < K, GoesOn file c len k)
    (hL : ∀ k < L, GoesOn file c len k) (hstopK : ¬ GoesOn file c len K)
    (hstopL : ¬ GoesOn file c len L) : K = L :=
  (Nat.lt_trichotomy K L).elim (fun h => absurd (hL K h) hstopK)
    (Or.elim · id fun h => absurd (hK L h) hstopL)

variable (file c)

/-- A `read` or a `write` fails before the end, and the text `-1` is taken. -/
def Aborted (stSize : ℕ) : Prop :=
  (∃ K, (∀ k < K, GoesOn file c (long stSize) k) ∧ FailsAt file c (long stSize) K) ∧
    2 ≤ (c.loading 1).getD 0

/-- The `read`s give `stSize` bytes, each piece of a page begins like the page, and the text `0` is
taken. -/
def Copied (stSize : ℕ) : Prop :=
  (∃ K, (∀ k < K, GoesOn file c (long stSize) k) ∧ ends (readCut file c) K = stSize ∧
    ∀ k < K, ∀ j, taken (page file c k) (c.writes k) j =
      ((page file c k).drop (ends (writeCut (page file c k) (c.writes k)) j)).take
        (size (writeCut (page file c k) (c.writes k)) j)) ∧
    1 ≤ (c.loading 1).getD 0

variable {file c}

theorem long_le (n : ℕ) : long n ≤ n := by
  unfold long
  rw [Int.bmod_def]
  split <;> omega

theorem text_mem_iff {text : List UInt8} (first last : Option ℕ) (hnil : text ≠ [])
    (hone : text ≠ [0x31]) :
    text ∈ [(write [0x31] first).getD [], (write text last).getD []] ↔
      text.length ≤ last.getD 0 := by
  have hfirst : text ≠ (write [0x31] first).getD [] := by
    obtain _ | _ | n := first
    · exact hnil
    · exact hnil
    · simpa [write] using hone
  rw [List.mem_cons, or_iff_right hfirst, List.mem_singleton]
  cases last with
  | none => simp [write, hnil]
  | some n =>
    refine ⟨fun h => ?_, fun h => (List.take_of_length_le h).symm⟩
    rw [h]
    exact List.length_take_le n text

theorem Result.right_zero_iff {data : List UInt8} {stSize : ℕ} (first last : Option ℕ) :
    (⟨0, data, [(write [0x31] first).getD [], (write endOfTransfer last).getD []]⟩ : Result).Right
        file stSize ↔
      stSize ≤ file.length ∧ data = file.take stSize ∧ 1 ≤ last.getD 0 := by
  unfold Result.Right
  dsimp only
  rw [text_mem_iff first last (by decide) (by decide)]
  simp [endOfTransfer]

theorem Result.right_neg_iff {data : List UInt8} {stSize : ℕ} (first last : Option ℕ) :
    (⟨-1, data, [(write [0x31] first).getD [], (write abortTransfer last).getD []]⟩ : Result).Right
        file stSize ↔ 2 ≤ last.getD 0 := by
  unfold Result.Right
  dsimp only
  rw [text_mem_iff first last (by decide) (by decide)]
  simp [abortTransfer]

/-- **It is right exactly when each piece begins like its page.** -/
theorem loadFirmware_right_iff (file : List UInt8) (stSize : ℕ) (c : Calls) :
    ∃ r, loadFirmware file (some stSize) c = some r ∧
      (r.Right file stSize ↔ Aborted file c stSize ∨ Copied file c stSize) := by
  obtain ⟨K, -, hpages, ⟨hend, hloop⟩ | ⟨hfail, data, hloop⟩⟩ :=
    copyLoop_ends file c (long stSize) (k := 0) (n := (long stSize).toNat)
      (by simp [ends])
  all_goals
    replace hpages := fun k => hpages k (Nat.zero_le k)
    simp only [ends, List.range_zero, List.flatMap_nil, Nat.cast_zero, sub_zero] at hloop
    rw [loadFirmware]
    dsimp only
    rw [hloop]
    refine ⟨_, rfl, ?_⟩
  · have hstop : ¬ GoesOn file c (long stSize) K := fun h => h.not_endsAt hend
    have hnot : ¬ Aborted file c stSize := by
      rintro ⟨⟨L, hL, hfail⟩, -⟩
      obtain rfl := eq_of_goesOn hpages hL hstop fun h => h.not_failsAt hfail
      exact hend.not_failsAt hfail
    refine (Result.right_zero_iff _ _).trans ((or_iff_right hnot).trans ?_).symm
    constructor
    · rintro ⟨⟨L, hL, hsize, hpieces⟩, htext⟩
      obtain rfl := eq_of_goesOn hpages hL hstop fun h =>
        h.not_endsAt (.inl ((long_le stSize).trans_eq (congrArg Nat.cast hsize.symm)))
      rw [← hsize]
      exact ⟨ends_readCut_le file c K, (flatMap_sent_iff hpages).mpr hpieces, htext⟩
    · rintro ⟨hle, hdata, htext⟩
      have hsize := congrArg List.length hdata
      rw [length_flatMap_sent hpages, List.length_take, min_eq_left hle] at hsize
      rw [← hsize] at hdata
      exact ⟨⟨K, hpages, hsize, (flatMap_sent_iff hpages).mp hdata⟩, htext⟩
  · have hstop : ¬ GoesOn file c (long stSize) K := fun h => h.not_failsAt hfail
    have hnot : ¬ Copied file c stSize := by
      rintro ⟨⟨L, hL, hsize, -⟩, -⟩
      have hend : EndsAt file c (long stSize) L :=
        .inl ((long_le stSize).trans_eq (congrArg Nat.cast hsize.symm))
      obtain rfl := eq_of_goesOn hpages hL hstop fun h => h.not_endsAt hend
      exact hend.not_failsAt hfail
    refine (Result.right_neg_iff _ _).trans ((or_iff_left hnot).trans ?_).symm
    exact and_iff_right ⟨K, hpages, hfail⟩

end File

/-- A page of two bytes that is taken a byte at a time: the first byte comes twice. -/
theorem not_right_shortWrite :
    ¬ ∀ (file : List UInt8) (c : Calls) (r : Result),
      loadFirmware file (some file.length) c = some r → r.Right file file.length := by
  intro h
  have hright := h [0, 1] ⟨fun _ => some 2, fun _ _ => some 1, fun _ => some 2⟩
    ⟨0, [0, 0], [[0x31], [0x30]]⟩ (by decide)
  obtain ⟨-, -, hdata, -⟩ | ⟨hret, -⟩ := hright
  · exact absurd hdata (by decide)
  · exact hret rfl

end Firmware
end AndroidInit
end EmevBsp
