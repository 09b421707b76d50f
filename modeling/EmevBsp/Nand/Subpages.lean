import EmevBsp.Nand.Ecc
import Mathlib.Algebra.Group.Nat.Defs

/-!
# `drivers/mtd/nand/nand_base.c`: reading a part of a page

A page has 256 bytes a step, and three bytes beside each step that `nand_calculate_ecc` computes
when it is written.  `nand_read_page_swecc` reads all of a page and puts every step right;
`nand_read_subpage` reads only the steps that are asked for and, on a bus of 16 bits, as many of
the bytes beside them as the words have that they lie in.

What the steps that are asked for come out as must not depend on which of the two was called.  The
places of the three bytes are `eccpos`; they follow one another on the pages that have subpage reads
(`eccpos_of_subpageRead`), so that the words that are read cover them (`alignedOob_covers`).

* `correctLoop_spec`: the loop with `chip->ecc.correct` puts each step right by itself.
* `eccBytes_subpageOob`: the bytes beside the steps are those of the page.
* `nand_read_subpage_agrees`: the two reads agree where the part is, whatever is in the page.
-/

namespace EmevBsp
namespace NandBase

open Nand

/-! ## The chips -/

/-- `nand_oob_8`, `nand_oob_16`, `nand_oob_64`, `nand_oob_128`. -/
inductive Layout where
  | oob8
  | oob16
  | oob64
  | oob128
deriving DecidableEq

def Layout.eccpos : Layout → List ℕ
  | .oob8 => [0, 1, 2]
  | .oob16 => [0, 1, 2, 3, 6, 7]
  | .oob64 => [
      40, 41, 42, 43, 44, 45, 46, 47,
      48, 49, 50, 51, 52, 53, 54, 55,
      56, 57, 58, 59, 60, 61, 62, 63]
  | .oob128 => [
      80, 81, 82, 83, 84, 85, 86, 87,
      88, 89, 90, 91, 92, 93, 94, 95,
      96, 97, 98, 99, 100, 101, 102, 103,
      104, 105, 106, 107, 108, 109, 110, 111,
      112, 113, 114, 115, 116, 117, 118, 119,
      120, 121, 122, 123, 124, 125, 126, 127]

/-- `page_shift` of the pages that a layout has places for. -/
def Layout.pageShift : Layout → ℕ
  | .oob8 => 8
  | .oob16 => 9
  | .oob64 => 11
  | .oob128 => 12

/-- What the reads know of a chip: the layout of its pages, and whether its bus has 16 bits
(`NAND_BUSWIDTH_16`). -/
structure Geometry where
  layout : Layout
  buswidth16 : Bool

variable (g : Geometry)

def Geometry.pageShift : ℕ := g.layout.pageShift

/-- `mtd->writesize`. -/
def Geometry.writesize : ℕ := 2 ^ g.pageShift

/-- `eccpos[i]`; the array is longer than what it is filled with. -/
def Geometry.eccpos (i : ℕ) : ℕ := g.layout.eccpos.getD i 0

/-- `chip->ecc.steps`, of 256 bytes. -/
def Geometry.steps : ℕ := g.writesize / 256

/-- `NAND_SUBPAGE_READ`, with the ECC in software. -/
def Geometry.subpageRead : Bool := 9 < g.pageShift

/-- The contents of a page. -/
structure Page where
  data : ℕ → BitVec 8
  oob : ℕ → BitVec 8

/-- `mtd->ecc_stats`. -/
structure Stats where
  failed : ℕ
  corrected : ℕ
deriving DecidableEq

/-! ## A page -/

/-- Three bytes of a buffer. -/
def eccBytes (buf : ℕ → BitVec 8) (i : ℕ) : EccCode := ⟨buf i, buf (i + 1), buf (i + 2)⟩

/-- One of the three bytes. -/
def eccByte (c : EccCode) : ℕ → BitVec 8
  | 0 => c.code0
  | 1 => c.code1
  | _ => c.code2

/-- The buffer that the loop with `chip->ecc.calculate` fills, three bytes for each step from `p`
on. -/
def eccCalc (p : ℕ → BitVec 8) : ℕ → BitVec 8 := fun k =>
  eccByte (nandCalculateEcc fun x => p (256 * (k / 3) + x)) (k % 3)

/-- One round of the loop with `chip->ecc.correct`, on the buffer and the statistics. -/
def correctStep (eccCode eccCalc : ℕ → BitVec 8) (base j : ℕ) (b : (ℕ → BitVec 8) × Stats) :
    (ℕ → BitVec 8) × Stats :=
  let p := base + 256 * j
  let r := nandCorrectData (fun x => b.1 (p + x)) (eccBytes eccCode (3 * j))
    (eccBytes eccCalc (3 * j))
  (fun x => if p ≤ x ∧ x < p + 256 then r.2 (x - p) else b.1 x,
   if r.1 < 0 then ⟨b.2.failed + 1, b.2.corrected⟩
   else ⟨b.2.failed, b.2.corrected + r.1.toNat⟩)

/-- The loop. -/
def correctLoop (eccCode eccCalc : ℕ → BitVec 8) (base : ℕ) (b : (ℕ → BitVec 8) × Stats) :
    ℕ → (ℕ → BitVec 8) × Stats
  | 0 => b
  | n + 1 => correctStep eccCode eccCalc base n (correctLoop eccCode eccCalc base b n)

/-- `nand_read_page_swecc`: the page, `chip->oob_poi` and the statistics. -/
def nandReadPageSwecc (page : Page) (stats : Stats) :
    (ℕ → BitVec 8) × (ℕ → BitVec 8) × Stats :=
  let r := correctLoop (fun i => page.oob (g.eccpos i)) (eccCalc page.data) 0 (page.data, stats)
    g.steps
  (r.1, page.oob, r.2)

/-- The places of the bytes of some steps do not follow one another. -/
def Geometry.gaps (startStep eccfragLen : ℕ) : Bool :=
  (List.range (eccfragLen - 1)).any fun i =>
    g.eccpos (i + startStep * 3) + 1 ≠ g.eccpos (i + startStep * 3 + 1)

/-- The places that are read for some steps where there are no gaps: `aligned_pos` and
`aligned_len`, of which a bus of 16 bits reads the even part. -/
def Geometry.alignedOob (startStep numSteps : ℕ) : ℕ × ℕ :=
  let eccfragLen := numSteps * 3
  if g.buswidth16 then
    let alignedPos := g.eccpos (startStep * 3) / 2 * 2
    let alignedLen := eccfragLen + g.eccpos (startStep * 3) % 2 +
      g.eccpos ((startStep + numSteps) * 3) % 2
    (alignedPos, alignedLen / 2 * 2)
  else (g.eccpos (startStep * 3), eccfragLen)

/-- The buffer of `nand_read_subpage` with the data of the steps read into it. -/
def subpageData (page : Page) (startStep numSteps : ℕ) (bufpoi : ℕ → BitVec 8) : ℕ → BitVec 8 :=
  fun x =>
    if startStep * 256 ≤ x ∧ x < startStep * 256 + numSteps * 256 then page.data x else bufpoi x

/-- `chip->oob_poi` with their bytes read into it, or all bytes that there are. -/
def subpageOob (page : Page) (startStep numSteps : ℕ) (oobPoi : ℕ → BitVec 8) : ℕ → BitVec 8 :=
  let aligned := g.alignedOob startStep numSteps
  if g.gaps startStep (numSteps * 3) then page.oob
  else fun x => if aligned.1 ≤ x ∧ x < aligned.1 + aligned.2 then page.oob x else oobPoi x

/-- `nand_read_subpage`: the buffer, `chip->oob_poi` and the statistics. -/
def nandReadSubpage (page : Page) (dataOffs readlen : ℕ) (bufpoi oobPoi : ℕ → BitVec 8)
    (stats : Stats) : (ℕ → BitVec 8) × (ℕ → BitVec 8) × Stats :=
  let startStep := dataOffs / 256
  let endStep := (dataOffs + readlen - 1) / 256
  let numSteps := endStep - startStep + 1
  let dataColAddr := startStep * 256
  let buf := subpageData page startStep numSteps bufpoi
  let oob := subpageOob g page startStep numSteps oobPoi
  let r := correctLoop (fun i => oob (g.eccpos (i + startStep * 3)))
    (eccCalc fun x => buf (dataColAddr + x)) dataColAddr (buf, stats) numSteps
  (r.1, oob, r.2)

/-! ## Steps of 256 bytes -/

/-- The same in the bytes of a step. -/
def Agree (a b : ℕ → BitVec 8) : Prop := ∀ x < 256, a x = b x

theorem Agree.symm {a b : ℕ → BitVec 8} (h : Agree a b) : Agree b a := fun x hx => (h x hx).symm

theorem Agree.trans {a b c : ℕ → BitVec 8} (h : Agree a b) (h' : Agree b c) : Agree a c :=
  fun x hx => (h x hx).trans (h' x hx)

theorem Agree.flip {a b : ℕ → BitVec 8} (h : Agree a b) {i : ℕ} (hi : i < 256) (k : ℕ) :
    Agree (Nand.flip a i k) (Nand.flip b i k) := by
  intro x hx
  by_cases heq : x = i
  · rw [heq, flip_self, flip_self, h i hi]
  · rw [flip_of_ne a heq, flip_of_ne b heq, h x hx]

theorem columnParity_congr {a b : ℕ → BitVec 8} {n : ℕ} (h : ∀ x < n, a x = b x) :
    columnParity a n = columnParity b n := by
  induction n with
  | zero => rfl
  | succ n ih =>
    rw [columnParity, columnParity, ih fun x hx => h x (Nat.lt_succ_of_lt hx),
      h n (Nat.lt_succ_self n)]

theorem nandCalculateEcc_congr {a b : ℕ → BitVec 8} (h : Agree a b) :
    nandCalculateEcc a = nandCalculateEcc b := by
  rw [nandCalculateEcc, nandCalculateEcc, columnParity_congr h]

theorem nandCorrectData_congr {a b : ℕ → BitVec 8} (h : Agree a b) (readEcc calcEcc : EccCode) :
    (nandCorrectData a readEcc calcEcc).1 = (nandCorrectData b readEcc calcEcc).1 ∧
      Agree (nandCorrectData a readEcc calcEcc).2 (nandCorrectData b readEcc calcEcc).2 := by
  rw [nandCorrectData_eq a rfl, nandCorrectData_eq b rfl]
  split_ifs
  · exact ⟨rfl, h⟩
  · exact ⟨rfl, h.flip (BitVec.isLt _) _⟩
  · exact ⟨rfl, h⟩
  · exact ⟨rfl, h⟩

/-- The bytes of an erased step. -/
def ones : ℕ → BitVec 8 := fun _ => 0xff#8

/-! ## The steps of a page -/

/-- The data of a step from a place on. -/
def chunk (buf : ℕ → BitVec 8) (start : ℕ) : ℕ → BitVec 8 := fun x => buf (start + x)

variable {g : Geometry}

/-- The three bytes of a step. -/
def Page.code (g : Geometry) (page : Page) (i : ℕ) : EccCode :=
  eccBytes (fun k => page.oob (g.eccpos k)) (3 * i)

theorem steps_eq : g.writesize = 256 * g.steps := by
  have hshift : ∀ l : Layout, 2 ^ l.pageShift = 256 * (2 ^ l.pageShift / 256) := by
    intro l
    cases l <;> decide
  exact hshift g.layout

theorem eccBytes_eccCalc (p : ℕ → BitVec 8) (j : ℕ) :
    eccBytes (eccCalc p) (3 * j) = nandCalculateEcc (chunk p (256 * j)) := by
  have h0 : 3 * j / 3 = j ∧ 3 * j % 3 = 0 := by omega
  have h1 : (3 * j + 1) / 3 = j ∧ (3 * j + 1) % 3 = 1 := by omega
  have h2 : (3 * j + 2) / 3 = j ∧ (3 * j + 2) % 3 = 2 := by omega
  rw [eccBytes, eccCalc, eccCalc, eccCalc, h0.1, h0.2, h1.1, h1.2, h2.1, h2.2]
  rfl

/-! ## Putting the steps right -/

theorem correctLoop_spec (codes calcs : ℕ → BitVec 8) (base : ℕ) (b : (ℕ → BitVec 8) × Stats)
    (n : ℕ) :
    (∀ x, x < base ∨ base + 256 * n ≤ x → (correctLoop codes calcs base b n).1 x = b.1 x) ∧
      ∀ j < n, Agree (chunk (correctLoop codes calcs base b n).1 (base + 256 * j))
        (nandCorrectData (chunk b.1 (base + 256 * j)) (eccBytes codes (3 * j))
          (eccBytes calcs (3 * j))).2 := by
  induction n with
  | zero => exact ⟨fun _ _ => rfl, fun j hj => absurd hj (Nat.not_lt_zero j)⟩
  | succ n ih =>
    obtain ⟨hout, hin⟩ := ih
    constructor
    · intro x hx
      rw [correctLoop, correctStep]
      dsimp only
      rw [if_neg (by omega)]
      exact hout x (by omega)
    · intro j hj x hx
      rw [correctLoop, correctStep, chunk]
      dsimp only
      rcases Nat.lt_succ_iff_lt_or_eq.mp hj with hlt | rfl
      · rw [if_neg (by omega)]
        exact hin j hlt x hx
      · have hchunk : (fun x => (correctLoop codes calcs base b j).1 (base + 256 * j + x)) =
            chunk b.1 (base + 256 * j) := by
          funext x
          exact hout _ (by omega)
        rw [if_pos (by omega), Nat.add_sub_cancel_left, hchunk]

/-! ## Reading the steps that are asked for -/

theorem eccpos_of_subpageRead (h : g.subpageRead = true) :
    ∃ b, b % 2 = 0 ∧ (∀ k < 3 * g.steps, g.eccpos k = b + k) ∧
      ∀ k ≤ 3 * g.steps, g.eccpos k % 2 = k % 2 := by
  have hall : ∀ l : Layout, 9 < l.pageShift →
      (l = .oob64 ∨ l = .oob128) := by
    intro l hl
    cases l <;> revert hl <;> decide
  have hshift : 9 < g.layout.pageShift := of_decide_eq_true h
  have h64 : ∀ k < 25, (k < 24 → Layout.oob64.eccpos.getD k 0 = 40 + k) ∧
      Layout.oob64.eccpos.getD k 0 % 2 = k % 2 := by decide
  have h128 : ∀ k < 49, (k < 48 → Layout.oob128.eccpos.getD k 0 = 80 + k) ∧
      Layout.oob128.eccpos.getD k 0 % 2 = k % 2 := by decide
  unfold Geometry.steps Geometry.writesize Geometry.pageShift Geometry.eccpos
  rcases hall g.layout hshift with hl | hl <;> rw [hl]
  · exact ⟨40, rfl, fun k hk => (h64 k (Nat.lt_succ_of_lt hk)).1 hk,
      fun k hk => (h64 k (Nat.lt_succ_of_le hk)).2⟩
  · exact ⟨80, rfl, fun k hk => (h128 k (Nat.lt_succ_of_lt hk)).1 hk,
      fun k hk => (h128 k (Nat.lt_succ_of_le hk)).2⟩

theorem le_wordEnd {p q e : ℕ} (he : e = (p + q) % 2) :
    p + q ≤ p / 2 * 2 + (q + p % 2 + e) / 2 * 2 := by
  omega

theorem alignedOob_covers (h : g.subpageRead = true) {s n k : ℕ} (hn : s + n ≤ g.steps)
    (hk : k < n * 3) :
    (g.alignedOob s n).1 ≤ g.eccpos (k + s * 3) ∧
      g.eccpos (k + s * 3) < (g.alignedOob s n).1 + (g.alignedOob s n).2 := by
  obtain ⟨b, hb, hpos, hmod⟩ := eccpos_of_subpageRead h
  have hstart := hpos (s * 3) (by omega)
  have hplace := hpos (k + s * 3) (by omega)
  have hend : g.eccpos ((s + n) * 3) % 2 = (b + s * 3 + n * 3) % 2 := by
    rw [hmod _ (by omega)]
    omega
  rw [Geometry.alignedOob]
  split
  · have hword := le_wordEnd hend
    rw [hplace, hstart]
    dsimp only
    omega
  · rw [hplace, hstart]
    dsimp only
    omega

section Subpage

variable {page : Page} {s n j : ℕ}

theorem chunk_subpageData (bufpoi : ℕ → BitVec 8) (hj : j < n) :
    Agree (chunk (subpageData page s n bufpoi) (s * 256 + 256 * j))
      (chunk page.data (256 * (s + j))) := by
  intro x hx
  rw [chunk, chunk, subpageData, if_pos (by omega)]
  congr 1
  omega

theorem eccBytes_subpageOob (h : g.subpageRead = true) (oobPoi : ℕ → BitVec 8)
    (hn : s + n ≤ g.steps) (hj : j < n) :
    eccBytes (fun i => subpageOob g page s n oobPoi (g.eccpos (i + s * 3))) (3 * j) =
      page.code g (s + j) := by
  have hoob : ∀ k < 3, subpageOob g page s n oobPoi (g.eccpos (3 * j + k + s * 3)) =
      page.oob (g.eccpos (3 * (s + j) + k)) := by
    intro k hk
    have hplace : 3 * j + k + s * 3 = 3 * (s + j) + k := by omega
    rw [← hplace, subpageOob]
    split
    · rfl
    · exact if_pos (alignedOob_covers h hn (by omega))
  rw [Page.code, eccBytes, eccBytes]
  exact congr (congrArg₂ _ (hoob 0 (by omega)) (hoob 1 (by omega))) (hoob 2 (by omega))

/-- Whatever is in the page, the steps that are asked for come out as from reading all of it. -/
theorem nand_read_subpage_agrees (page : Page) (bufpoi oobPoi : ℕ → BitVec 8) (stats : Stats)
    {col len : ℕ} (h : g.subpageRead = true) (hcol : col + len ≤ g.writesize) (hlen : 0 < len) :
    ∀ x, col ≤ x → x < col + len →
      (nandReadSubpage g page col len bufpoi oobPoi stats).1 x =
        (nandReadPageSwecc g page stats).1 x := by
  intro x hx hx'
  have hsteps := steps_eq (g := g)
  obtain ⟨j, hstep⟩ := Nat.exists_eq_add_of_le (Nat.div_le_div_right (c := 256) hx)
  set s := col / 256
  set n := (col + len - 1) / 256 - s + 1 with hn
  have hj : j < n := by omega
  have hle : s + n ≤ g.steps := by omega
  have hcalc : chunk (chunk (subpageData page s n bufpoi) (s * 256)) (256 * j) =
      chunk (subpageData page s n bufpoi) (s * 256 + 256 * j) := by
    funext y
    rw [chunk, chunk, chunk, Nat.add_assoc]
  have hdata : Agree (chunk (subpageData page s n bufpoi) (s * 256 + 256 * j))
      (chunk page.data (256 * (s + j))) := chunk_subpageData bufpoi hj
  -- the step in the loop over some steps, and in the loop over all of them
  have hpart := (correctLoop_spec
    (fun i => subpageOob g page s n oobPoi (g.eccpos (i + s * 3)))
    (eccCalc (chunk (subpageData page s n bufpoi) (s * 256))) (s * 256)
    (subpageData page s n bufpoi, stats) n).2 j hj
  rw [eccBytes_subpageOob h oobPoi hle hj, eccBytes_eccCalc, hcalc,
    nandCalculateEcc_congr hdata] at hpart
  have hwhole := (correctLoop_spec (fun k => page.oob (g.eccpos k)) (eccCalc page.data) 0
    (page.data, stats) g.steps).2 (s + j) (by omega)
  rw [Nat.zero_add, eccBytes_eccCalc] at hwhole
  have hsame := (nandCorrectData_congr hdata (page.code g (s + j))
    (nandCalculateEcc (chunk page.data (256 * (s + j))))).2
  have hagree := (hpart.trans hsame).trans hwhole.symm
  have hplace : 256 * (s + j) = s * 256 + 256 * j := by omega
  rw [hplace] at hagree
  have hbyte := hagree (x % 256) (Nat.mod_lt _ (by decide))
  have hx256 : s * 256 + 256 * j + x % 256 = x := by omega
  rw [chunk, chunk, hx256] at hbyte
  exact hbyte

/-- A chip of large pages on a bus of 16 bits. -/
def largeChip : Geometry := ⟨.oob64, true⟩

/-- A byte of the second step of a page of zeros, whose stored bytes do not guard it. -/
theorem nand_read_subpage_agrees_zeros :
    (nandReadSubpage largeChip ⟨fun _ => 0#8, fun _ => 0#8⟩ 300 10 ones ones ⟨0, 0⟩).1 305 =
      (nandReadPageSwecc largeChip ⟨fun _ => 0#8, fun _ => 0#8⟩ ⟨0, 0⟩).1 305 :=
  nand_read_subpage_agrees _ ones ones ⟨0, 0⟩ (by decide) (by decide) (by decide) 305
    (by decide) (by decide)

end Subpage

end NandBase
end EmevBsp
