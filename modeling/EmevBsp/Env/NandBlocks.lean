import EmevBsp.Nand.SkipBadCorrect

/-!
# `common/env_nand.c`: the environment in the blocks of a NAND device

`writeenv` stores the environment in pieces of one block, each in the next good block of a range,
and `readenv` collects them.  Every piece is `min (blocksize, CONFIG_ENV_SIZE)` long, the last one
too.  The callers erase the range before they write, so a write stores its bytes.

Both loops go over the good blocks that start in the range, `goodStarts`, and over nothing else:
`writeStarts` and `readStarts` are the loops over that list.
-/

namespace EmevBsp
namespace Nand

/-! ## The functions of the source -/

/-- A chip that takes writes of whole subpages. -/
structure Chip extends Device where
  subpageShift : ℕ
  subpage_le_write : subpageShift ≤ writeShift

variable (c : Chip) (onBad : OnBad)

def Chip.NotAligned (x : ℕ) : Prop := x &&& (2 ^ c.subpageShift - 1) ≠ 0

instance (x : ℕ) : Decidable (c.NotAligned x) := inferInstanceAs (Decidable (_ ≠ _))

/-- `nand_write`, with the check of `nand_do_write_ops`. -/
def Chip.nandWrite (start : ℕ) (data : List UInt8) (f : Flash) : Written :=
  if start + data.length ≤ c.size ∧ data ≠ [] ∧ (c.NotAligned start ∨ c.NotAligned data.length) then
    ⟨f, 0, -22⟩
  else Nand.nandWrite c.toDevice onBad start data f

/-- How `writeenv` and `readenv` return: with 0, with the 1 of a piece that was refused, and with
the 1 behind the loop. -/
inductive EnvRet where
  | done
  | refused
  | noSpace
  deriving DecidableEq

def EnvRet.code : EnvRet → ℤ
  | done => 0
  | refused => 1
  | noSpace => 1

variable (size end_ : ℕ)

/-- The end of either function, `size` being `CONFIG_ENV_SIZE`. -/
def envEnd (amount : ℕ) : EnvRet := if amount ≠ size then .noSpace else .done

/-- Some bytes of a buffer. -/
def bytesFrom (buf : ℕ → UInt8) (i len : ℕ) : List UInt8 := (List.range' i len).map buf

/-- The loop of `writeenv`.  `nand_write` stores in `len` what it has written. -/
def writeenvLoop (buf : ℕ → UInt8) (offset len amountSaved : ℕ) (f : Flash) :
    Option (EnvRet × Flash) :=
  if _h : amountSaved < size ∧ offset < end_ then
    match nandBlockIsbad c.toDevice offset with
    | none => none
    | some true => writeenvLoop buf (offset + c.erasesize) len amountSaved f
    | some false =>
      let r := c.nandWrite onBad offset (bytesFrom buf amountSaved len) f
      if r.rval ≠ 0 then some (.refused, r.flash)
      else writeenvLoop buf (offset + c.erasesize) r.length (amountSaved + r.length) r.flash
  else some (envEnd size amountSaved, f)
termination_by end_ - offset
decreasing_by
  all_goals
    have hpos := c.erasesize_pos
    omega

/-- `writeenv`, in a `CONFIG_ENV_RANGE`. -/
def writeenv (range offset : ℕ) (buf : ℕ → UInt8) (f : Flash) : Option (EnvRet × Flash) :=
  writeenvLoop c onBad size ((offset + range) % 2 ^ 32) buf offset (min c.erasesize size) 0 f

/-- What `readenv` leaves: its return, the buffer, and the address and length of what it read. -/
structure Loaded where
  ret : EnvRet
  buf : ℕ → UInt8
  reads : List (ℕ × ℕ)

/-- The loop of `readenv`. -/
def readenvLoop (mem : ℕ → UInt8) (offset len amountLoaded : ℕ) (buf : ℕ → UInt8)
    (reads : List (ℕ × ℕ)) : Option Loaded :=
  if _h : amountLoaded < size ∧ offset < end_ then
    match nandBlockIsbad c.toDevice offset with
    | none => none
    | some true => readenvLoop mem (offset + c.erasesize) len amountLoaded buf reads
    | some false =>
      let r := nandRead c.toDevice onBad offset len mem
      let buf' := storeAt buf amountLoaded r.1
      let reads' := reads ++ [(offset, len)]
      if r.2.2 ≠ 0 then some ⟨.refused, buf', reads'⟩
      else readenvLoop mem (offset + c.erasesize) r.2.1 (amountLoaded + r.2.1) buf' reads'
  else some ⟨envEnd size amountLoaded, buf, reads⟩
termination_by end_ - offset
decreasing_by
  all_goals
    have hpos := c.erasesize_pos
    omega

def readenv (range offset : ℕ) (mem buf : ℕ → UInt8) : Option Loaded :=
  readenvLoop c onBad size ((offset + range) % 2 ^ 32) mem offset (min c.erasesize size) 0 buf []

/-! ## The good blocks of a range -/

/-- The good blocks that start in `[a, b)`. -/
def Device.goodStarts (d : Device) (a b : ℕ) : List ℕ :=
  positions (fun x => decide (d.erasesize ∣ x) && d.good x) a b

variable {c}

theorem Device.mem_goodStarts {d : Device} {a b x : ℕ} :
    x ∈ d.goodStarts a b ↔ a ≤ x ∧ x < b ∧ d.erasesize ∣ x ∧ d.good x = true := by
  rw [goodStarts, mem_positions, Bool.and_eq_true, decide_eq_true_iff]

theorem Device.goodStarts_step {d : Device} {a b : ℕ} (hdvd : d.erasesize ∣ a) (hlt : a < b) :
    d.goodStarts a b =
      (if d.good a then [a] else []) ++ d.goodStarts (a + d.erasesize) b :=
  positions_dvd_step d.erasesize_pos hdvd hlt

theorem Device.pairwise_goodStarts (d : Device) (a b : ℕ) :
    (d.goodStarts a b).Pairwise fun x y => x + d.erasesize ≤ y :=
  pairwise_positions_dvd a b

theorem nandBlockIsbad_good {d : Device} {offset : ℕ} (hlt : offset < d.size) :
    nandBlockIsbad d offset = some (!d.good offset) := by
  have hsize := d.size_le_pow
  rw [nandBlockIsbad, if_neg (by omega), if_neg (by omega), if_neg (by omega), Device.good,
    Bool.not_not]

theorem Device.block_le_size {d : Device} {offset : ℕ} (hdvd : d.erasesize ∣ offset)
    (hlt : offset < d.size) : offset + d.erasesize ≤ d.size := by
  have hsub := Nat.le_of_dvd (by omega) (Nat.dvd_sub d.erasesize_dvd_size hdvd)
  omega

theorem Device.allGood_of_dvd {d : Device} {offset n : ℕ} (hdvd : d.erasesize ∣ offset)
    (hgood : d.good offset = true) (hn : n ≤ d.erasesize) : d.AllGood offset n := by
  have hstart : d.blockOffset offset = 0 := by
    rw [d.blockOffset_eq]
    exact Nat.mod_eq_zero_of_dvd hdvd
  refine allGood_block ?_ (by rw [hstart]; exact hn)
  rw [Device.good] at hgood
  simpa using hgood

/-! ## The loops over a list of blocks -/

variable (len : ℕ) (buf : ℕ → UInt8)

/-- The pieces of `writeenv`, stored at the starts of the given blocks. -/
def writeStarts : List ℕ → ℕ → Flash → EnvRet × Flash
  | [], amount, f => (envEnd size amount, f)
  | o :: starts, amount, f =>
    if amount < size then writeStarts starts (amount + len) (f.stored o (bytesFrom buf amount len))
    else (envEnd size amount, f)

/-- The pieces of `readenv`, from the starts of the given blocks. -/
def readStarts (mem : ℕ → UInt8) : List ℕ → ℕ → (ℕ → UInt8) → List (ℕ × ℕ) → Loaded
  | [], amount, buf, reads => ⟨envEnd size amount, buf, reads⟩
  | o :: starts, amount, buf, reads =>
    if amount < size then
      readStarts mem starts (amount + len) (storeAt buf amount ((List.range' o len).map mem))
        (reads ++ [(o, len)])
    else ⟨envEnd size amount, buf, reads⟩

/-- What both loops have gone over in the end. -/
def finalAmount : List ℕ → ℕ → ℕ
  | [], amount => amount
  | _ :: starts, amount => if amount < size then finalAmount starts (amount + len) else amount

variable {size len buf}

@[simp] theorem length_bytesFrom (i n : ℕ) : (bytesFrom buf i n).length = n := by
  rw [bytesFrom, List.length_map, List.length_range']

theorem bytesFrom_ne_nil {i n : ℕ} (h : 0 < n) : bytesFrom buf i n ≠ [] := by
  intro hnil
  have hlen : (bytesFrom buf i n).length = n := length_bytesFrom i n
  rw [hnil, List.length_nil] at hlen
  omega

theorem not_notAligned {x : ℕ} (h : 2 ^ c.subpageShift ∣ x) : ¬ c.NotAligned x := by
  rw [Chip.NotAligned, not_not, Nat.and_two_pow_sub_one_eq_mod]
  exact Nat.mod_eq_zero_of_dvd h

theorem subpage_dvd_erasesize (c : Chip) : 2 ^ c.subpageShift ∣ c.erasesize :=
  Nat.pow_dvd_pow 2 (c.subpage_le_write.trans c.write_le_erase)

theorem writeenvLoop_stop {offset amount : ℕ} {f : Flash}
    (h : ¬ (amount < size ∧ offset < end_)) :
    writeenvLoop c onBad size end_ buf offset len amount f = some (envEnd size amount, f) := by
  rw [writeenvLoop, dif_neg h]

theorem writeStarts_stop {starts : List ℕ} {amount : ℕ} {f : Flash} (h : ¬ amount < size) :
    writeStarts size len buf starts amount f = (envEnd size amount, f) := by
  cases starts with
  | nil => rfl
  | cons o starts => exact if_neg h

theorem readenvLoop_stop {mem : ℕ → UInt8} {offset amount : ℕ} {reads : List (ℕ × ℕ)}
    (h : ¬ (amount < size ∧ offset < end_)) :
    readenvLoop c onBad size end_ mem offset len amount buf reads =
      some ⟨envEnd size amount, buf, reads⟩ := by
  rw [readenvLoop, dif_neg h]

theorem readStarts_stop {mem : ℕ → UInt8} {starts : List ℕ} {amount : ℕ} {reads : List (ℕ × ℕ)}
    (h : ¬ amount < size) :
    readStarts size len mem starts amount buf reads = ⟨envEnd size amount, buf, reads⟩ := by
  cases starts with
  | nil => rfl
  | cons o starts => exact if_neg h

theorem goodStarts_of_le {d : Device} {a b : ℕ} (h : b ≤ a) : d.goodStarts a b = [] :=
  positions_of_le h

section Walk

variable {end_} (hend : end_ ≤ c.size) (hlen : 0 < len) (hle : len ≤ c.erasesize)

include hend hlen hle

/-- **The walk of `writeenv`.** -/
theorem writeenvLoop_eq (hsub : ¬ c.NotAligned len) {offset amount : ℕ} {f : Flash}
    (hdvd : c.erasesize ∣ offset) :
    writeenvLoop c onBad size end_ buf offset len amount f =
      some (writeStarts size len buf (c.goodStarts offset end_) amount f) := by
  have hpos := c.erasesize_pos
  induction hn : end_ - offset using Nat.strong_induction_on generalizing offset amount f with
  | _ n ih =>
    by_cases hgo : amount < size ∧ offset < end_
    · have hlt : offset < c.size := hgo.2.trans_le hend
      have hnext : c.erasesize ∣ offset + c.erasesize := Nat.dvd_add_self_right.mpr hdvd
      rw [writeenvLoop, dif_pos hgo, nandBlockIsbad_good hlt, Device.goodStarts_step hdvd hgo.2]
      cases hgood : c.good offset with
      | false => exact ih _ (by omega) hnext rfl
      | true =>
        have hwrite : c.nandWrite onBad offset (bytesFrom buf amount len) f =
            ⟨f.stored offset (bytesFrom buf amount len), len, 0⟩ := by
          have hin := c.block_le_size hdvd hlt
          have hok : ¬ c.NotAligned offset :=
            not_notAligned ((subpage_dvd_erasesize c).trans hdvd)
          rw [Chip.nandWrite, length_bytesFrom, if_neg (fun h => h.2.2.elim hok hsub),
            nandWrite_of_allGood onBad offset (bytesFrom_ne_nil hlen)
              (by rw [length_bytesFrom]; omega)
              (by rw [length_bytesFrom]; exact Device.allGood_of_dvd hdvd hgood hle),
            length_bytesFrom]
        simp only [Bool.not_true, hwrite, ne_eq, not_true, if_false, if_true, List.singleton_append]
        rw [writeStarts, if_pos hgo.1]
        exact ih _ (by omega) hnext rfl
    · rw [writeenvLoop_stop onBad end_ hgo]
      by_cases hamount : amount < size
      · rw [goodStarts_of_le (Nat.le_of_not_lt fun h => hgo ⟨hamount, h⟩)]
        rfl
      · rw [writeStarts_stop hamount]

/-- **The walk of `readenv`.** -/
theorem readenvLoop_eq {mem : ℕ → UInt8} {offset amount : ℕ} {reads : List (ℕ × ℕ)}
    (hdvd : c.erasesize ∣ offset) :
    readenvLoop c onBad size end_ mem offset len amount buf reads =
      some (readStarts size len mem (c.goodStarts offset end_) amount buf reads) := by
  have hpos := c.erasesize_pos
  induction hn : end_ - offset using Nat.strong_induction_on
    generalizing offset amount buf reads with
  | _ n ih =>
    by_cases hgo : amount < size ∧ offset < end_
    · have hlt : offset < c.size := hgo.2.trans_le hend
      have hnext : c.erasesize ∣ offset + c.erasesize := Nat.dvd_add_self_right.mpr hdvd
      rw [readenvLoop, dif_pos hgo, nandBlockIsbad_good hlt, Device.goodStarts_step hdvd hgo.2]
      cases hgood : c.good offset with
      | false => exact ih _ (by omega) hnext rfl
      | true =>
        have hread : nandRead c.toDevice onBad offset len mem =
            ((List.range' offset len).map mem, len, 0) := by
          have hin := c.block_le_size hdvd hlt
          rw [nandRead, if_neg (by omega), if_neg (by omega),
            if_pos (Device.allGood_of_dvd hdvd hgood hle)]
        simp only [Bool.not_true, hread, ne_eq, not_true, if_false, if_true, List.singleton_append]
        rw [readStarts, if_pos hgo.1]
        exact ih _ (by omega) hnext rfl
    · rw [readenvLoop_stop onBad end_ hgo]
      by_cases hamount : amount < size
      · rw [goodStarts_of_le (Nat.le_of_not_lt fun h => hgo ⟨hamount, h⟩)]
        rfl
      · rw [readStarts_stop hamount]

theorem writeenvLoop_refused (hsub : c.NotAligned len) {offset amount : ℕ} {f : Flash}
    (hamount : amount < size) (hdvd : c.erasesize ∣ offset) :
    writeenvLoop c onBad size end_ buf offset len amount f =
      some (if c.goodStarts offset end_ = [] then envEnd size amount else .refused, f) := by
  have hpos := c.erasesize_pos
  induction hn : end_ - offset using Nat.strong_induction_on generalizing offset with
  | _ n ih =>
    by_cases hgo : offset < end_
    · have hlt : offset < c.size := hgo.trans_le hend
      have hnext : c.erasesize ∣ offset + c.erasesize := Nat.dvd_add_self_right.mpr hdvd
      rw [writeenvLoop, dif_pos ⟨hamount, hgo⟩, nandBlockIsbad_good hlt,
        Device.goodStarts_step hdvd hgo]
      cases hgood : c.good offset with
      | false => exact ih _ (by omega) hnext rfl
      | true =>
        have hwrite : c.nandWrite onBad offset (bytesFrom buf amount len) f = ⟨f, 0, -22⟩ := by
          have hin := c.block_le_size hdvd hlt
          rw [Chip.nandWrite, length_bytesFrom,
            if_pos ⟨by omega, bytesFrom_ne_nil hlen, .inr hsub⟩]
        simp [hwrite]
    · rw [writeenvLoop_stop onBad end_ (fun h => hgo h.2), goodStarts_of_le (Nat.le_of_not_lt hgo),
        if_pos rfl]

end Walk

/-! ## What the pieces leave -/

theorem writeStarts_ret {starts : List ℕ} {amount : ℕ} {f : Flash} :
    (writeStarts size len buf starts amount f).1 =
      envEnd size (finalAmount size len starts amount) := by
  induction starts generalizing amount f with
  | nil => rfl
  | cons o starts ih =>
    rw [writeStarts, finalAmount]
    split_ifs
    · exact ih
    · rfl

theorem readStarts_ret {mem : ℕ → UInt8} {starts : List ℕ} {amount : ℕ}
    {reads : List (ℕ × ℕ)} :
    (readStarts size len mem starts amount buf reads).ret =
      envEnd size (finalAmount size len starts amount) := by
  induction starts generalizing amount buf reads with
  | nil => rfl
  | cons o starts ih =>
    rw [readStarts, finalAmount]
    split_ifs
    · exact ih
    · rfl

theorem writeStarts_programmed {starts : List ℕ} {amount : ℕ} {f : Flash} {p : ℕ × ℕ}
    (hp : p ∈ (writeStarts size len buf starts amount f).2.programmed) :
    p ∈ f.programmed ∨ (p.1 ∈ starts ∧ p.2 = len) := by
  induction starts generalizing amount f with
  | nil => exact .inl hp
  | cons o starts ih =>
    rw [writeStarts] at hp
    split_ifs at hp
    · rcases ih hp with hold | ⟨hmem, hlen⟩
      · rcases List.mem_append.mp hold with hold | hnew
        · exact .inl hold
        · rw [List.mem_singleton.mp hnew]
          exact .inr ⟨List.mem_cons_self, length_bytesFrom _ _⟩
      · exact .inr ⟨List.mem_cons_of_mem _ hmem, hlen⟩
    · exact .inl hp

theorem readStarts_reads {mem : ℕ → UInt8} {starts : List ℕ} {amount : ℕ}
    {reads : List (ℕ × ℕ)} {p : ℕ × ℕ}
    (hp : p ∈ (readStarts size len mem starts amount buf reads).reads) :
    p ∈ reads ∨ (p.1 ∈ starts ∧ p.2 = len) := by
  induction starts generalizing amount buf reads with
  | nil => exact .inl hp
  | cons o starts ih =>
    rw [readStarts] at hp
    split_ifs at hp
    · rcases ih hp with hold | ⟨hmem, hlen⟩
      · rcases List.mem_append.mp hold with hold | hnew
        · exact .inl hold
        · rw [List.mem_singleton.mp hnew]
          exact .inr ⟨List.mem_cons_self, rfl⟩
      · exact .inr ⟨List.mem_cons_of_mem _ hmem, hlen⟩
    · exact .inl hp

theorem writeStarts_mem {starts : List ℕ} {amount x : ℕ} {f : Flash}
    (hx : ∀ o ∈ starts, x < o ∨ o + len ≤ x) :
    (writeStarts size len buf starts amount f).2.mem x = f.mem x := by
  induction starts generalizing amount f with
  | nil => rfl
  | cons o starts ih =>
    rw [writeStarts]
    split_ifs
    · rw [ih fun o' ho' => hx o' (List.mem_cons_of_mem _ ho')]
      refine storeAt_of_notMem fun hmem => ?_
      rw [length_bytesFrom, List.mem_range'_1] at hmem
      have hout := hx o List.mem_cons_self
      omega
    · rfl

theorem readStarts_buf_of_lt {mem : ℕ → UInt8} {starts : List ℕ} {amount i : ℕ}
    {reads : List (ℕ × ℕ)} (hi : i < amount) :
    (readStarts size len mem starts amount buf reads).buf i = buf i := by
  induction starts generalizing amount buf reads with
  | nil => rfl
  | cons o starts ih =>
    rw [readStarts]
    split_ifs
    · rw [ih (Nat.lt_add_right _ hi)]
      exact if_neg fun h => absurd h.1 (Nat.not_le_of_lt hi)
    · rfl

theorem storeAt_apply {mem : ℕ → UInt8} {start : ℕ} {g : ℕ → UInt8} {o n i : ℕ}
    (hle : start ≤ i) (hlt : i < start + n) :
    storeAt mem start ((List.range' o n).map g) i = g (o + (i - start)) := by
  have hi : i - start < n := by omega
  rw [storeAt, if_pos ⟨hle, by rwa [List.length_map, List.length_range']⟩,
    List.getD_eq_getElem?_getD, List.getElem?_map, List.getElem?_range' hi, Option.map_some,
    Option.getD_some, Nat.one_mul]

theorem readStarts_writeStarts {starts : List ℕ} {amount : ℕ} {f : Flash} {buf₂ : ℕ → UInt8}
    {reads : List (ℕ × ℕ)} (hstarts : starts.Pairwise fun x y => x + len ≤ y) {i : ℕ}
    (hle : amount ≤ i) (hlt : i < finalAmount size len starts amount) :
    (readStarts size len (writeStarts size len buf starts amount f).2.mem starts amount buf₂
      reads).buf i = buf i := by
  induction starts generalizing amount f buf₂ reads with
  | nil => exact absurd hle (Nat.not_le_of_lt hlt)
  | cons o starts ih =>
    obtain ⟨hfirst, hrest⟩ := List.pairwise_cons.mp hstarts
    rw [finalAmount] at hlt
    rw [writeStarts, readStarts]
    split_ifs at hlt ⊢ with hamount
    · rcases Nat.lt_or_ge i (amount + len) with hi | hi
      · -- a byte of the first piece: no later piece reaches into it
        rw [readStarts_buf_of_lt hi, storeAt_apply hle hi, writeStarts_mem]
        · have hstored : storeAt f.mem o (bytesFrom buf amount len) (o + (i - amount)) =
              buf (amount + (o + (i - amount) - o)) :=
            storeAt_apply (Nat.le_add_right o (i - amount)) (by omega)
          rw [show amount + (o + (i - amount) - o) = i by omega] at hstored
          exact hstored
        · intro o' ho'
          have hgap := hfirst o' ho'
          omega
      · exact ih hrest hi hlt
    · exact absurd hle (Nat.not_le_of_lt hlt)

/-! ## How far the loops come -/

theorem dvd_finalAmount {starts : List ℕ} {amount : ℕ} (h : len ∣ amount) :
    len ∣ finalAmount size len starts amount := by
  induction starts generalizing amount with
  | nil => exact h
  | cons o starts ih =>
    rw [finalAmount]
    split_ifs
    · exact ih (Nat.dvd_add_self_right.mpr h)
    · exact h

theorem finalAmount_eq {starts : List ℕ} {amount : ℕ} (hsize : len ∣ size) (hdvd : len ∣ amount)
    (hle : amount ≤ size) :
    finalAmount size len starts amount = min size (amount + starts.length * len) := by
  induction starts generalizing amount with
  | nil => rw [finalAmount, List.length_nil, Nat.zero_mul, Nat.add_zero, min_eq_right hle]
  | cons o starts ih =>
    rw [finalAmount, List.length_cons, Nat.succ_mul]
    split_ifs with hamount
    · have hstep := Nat.le_of_dvd (by omega) (Nat.dvd_sub hsize hdvd)
      rw [ih (Nat.dvd_add_self_right.mpr hdvd) (by omega)]
      congr 1
      omega
    · rw [min_eq_left (by omega)]
      omega

/-! ## The round trip -/

/-- A stretch in good blocks that start in `[offset, offset + range)`. -/
def Device.Inside (d : Device) (offset range : ℕ) (p : ℕ × ℕ) : Prop :=
  ∀ k < p.2, d.good (p.1 + k) = true ∧ offset ≤ d.blockStart (p.1 + k) ∧
    d.blockStart (p.1 + k) < offset + range

/-- The good blocks in `[offset, offset + range)`. -/
def Device.numGood (d : Device) (offset range : ℕ) : ℕ :=
  (d.goodStarts offset (offset + range)).length

/-- Whatever is written, `writeenv` and `readenv` touch only good blocks of the range, `writeenv`
lacks space exactly when the range has too few good blocks, and what it stored is read. -/
def RoundTrips (c : Chip) (size range offset : ℕ) : Prop :=
  ∀ (onBad : OnBad) (buf : ℕ → UInt8) (f : Flash), ∃ ret f',
    writeenv c onBad size range offset buf f = some (ret, f') ∧
    (∀ p ∈ f'.programmed, p ∈ f.programmed ∨ c.Inside offset range p) ∧
    (ret = .noSpace ↔ c.numGood offset range * c.erasesize < size) ∧
    ∀ buf₂, ∃ l, readenv c onBad size range offset f'.mem buf₂ = some l ∧
      (∀ p ∈ l.reads, c.Inside offset range p) ∧
      (ret = .done → l.ret = .done ∧ ∀ i < size, l.buf i = buf i)

theorem envEnd_eq_noSpace {amount : ℕ} : envEnd size amount = .noSpace ↔ amount ≠ size := by
  rw [envEnd]
  split_ifs with h
  · exact iff_of_true rfl h
  · exact iff_of_false (by decide) h

theorem envEnd_eq_done {amount : ℕ} : envEnd size amount = .done ↔ amount = size := by
  rw [envEnd]
  split_ifs with h
  · exact iff_of_false (by decide) h
  · exact iff_of_true rfl (not_not.mp h)

theorem finalAmount_ne_iff {e : ℕ} (hpos : 0 < size) (starts : List ℕ) :
    (finalAmount size (min e size) starts 0 ≠ size ↔ starts.length * e < size) ↔
      size ≤ e ∨ e ∣ size ∨ starts.length * e < size := by
  have hzero : min e size ∣ 0 := dvd_zero _
  by_cases hdvd : min e size ∣ size
  · have hamount : finalAmount size (min e size) starts 0 =
        min size (0 + starts.length * min e size) := finalAmount_eq hdvd hzero (Nat.zero_le _)
    rw [Nat.zero_add] at hamount
    rw [hamount]
    rcases Nat.le_total e size with he | he
    · rw [min_eq_left he] at hdvd ⊢
      refine iff_of_true ?_ (.inr (.inl hdvd))
      omega
    · rw [min_eq_right he]
      refine iff_of_true ?_ (.inl he)
      rcases Nat.eq_zero_or_pos starts.length with hnil | hcons
      · rw [hnil]
        omega
      · have hsize := Nat.le_mul_of_pos_left size hcons
        have hblocks := Nat.le_mul_of_pos_left e hcons
        omega
  · have hne : finalAmount size (min e size) starts 0 ≠ size := by
      intro h
      have hamount : min e size ∣ finalAmount size (min e size) starts 0 := dvd_finalAmount hzero
      rw [h] at hamount
      exact hdvd hamount
    have hbig : ¬ size ≤ e := fun he => hdvd (by rw [min_eq_right he])
    have hnot : ¬ e ∣ size := fun he => hdvd (by rwa [min_eq_left (Nat.le_of_not_le hbig)])
    simp only [hne, ne_eq, not_false_eq_true, true_iff, hbig, hnot, false_or]

theorem Device.inside_of_goodStarts {d : Device} {offset range n : ℕ} (hn : n ≤ d.erasesize)
    {p : ℕ × ℕ} (hp : p.1 ∈ d.goodStarts offset (offset + range) ∧ p.2 = n) :
    d.Inside offset range p := by
  obtain ⟨hmem, hlen⟩ := hp
  obtain ⟨hle, hlt, hblock, hgood⟩ := Device.mem_goodStarts.mp hmem
  intro k hk
  have hstart : d.blockStart (p.1 + k) = p.1 := by
    rw [d.blockStart_eq, Nat.div_mul_self_eq_mod_sub_self]
    obtain ⟨q, hq⟩ := hblock
    rw [hq, Nat.mul_add_mod, Nat.mod_eq_of_lt (by omega), Nat.add_sub_cancel]
  refine ⟨d.allGood_of_dvd hblock hgood hn k (by omega), ?_, ?_⟩
  · rw [hstart]
    exact hle
  · rw [hstart]
    exact hlt

section Range

variable {range offset : ℕ} (hdvd : c.erasesize ∣ offset) (hin : offset + range ≤ c.size)

include hin in
theorem end_eq : (offset + range) % 2 ^ 32 = offset + range := by
  have hsize := c.size_le_pow
  exact Nat.mod_eq_of_lt (by omega)

include hdvd hin

theorem readenv_eq (hpos : 0 < size) (mem buf₂ : ℕ → UInt8) :
    readenv c onBad size range offset mem buf₂ =
      some (readStarts size (min c.erasesize size) mem (c.goodStarts offset (offset + range)) 0
        buf₂ []) := by
  rw [readenv, end_eq hin]
  exact readenvLoop_eq onBad hin (lt_min c.erasesize_pos hpos) (min_le_left _ _) hdvd

theorem writeenv_eq (hpos : 0 < size) (hsub : ¬ c.NotAligned (min c.erasesize size)) (f : Flash) :
    writeenv c onBad size range offset buf f =
      some (writeStarts size (min c.erasesize size) buf (c.goodStarts offset (offset + range)) 0
        f) := by
  rw [writeenv, end_eq hin]
  exact writeenvLoop_eq onBad hin (lt_min c.erasesize_pos hpos) (min_le_left _ _) hsub hdvd

theorem readenv_inside (size : ℕ) (mem buf₂ : ℕ → UInt8) :
    ∃ l, readenv c onBad size range offset mem buf₂ = some l ∧
      ∀ p ∈ l.reads, c.Inside offset range p := by
  rcases Nat.eq_zero_or_pos size with hzero | hpos
  · subst hzero
    refine ⟨_, readenvLoop_stop onBad _ (fun h => Nat.not_lt_zero _ h.1), fun p hp => ?_⟩
    exact absurd hp List.not_mem_nil
  · refine ⟨_, readenv_eq onBad hdvd hin hpos mem buf₂, fun p hp => ?_⟩
    rcases readStarts_reads hp with hnil | hp
    · exact absurd hnil List.not_mem_nil
    · exact c.inside_of_goodStarts (min_le_left _ _) hp

theorem roundTrips_iff_of_aligned (hpos : 0 < size)
    (hsub : ¬ c.NotAligned (min c.erasesize size)) :
    RoundTrips c size range offset ↔
      size ≤ c.erasesize ∨ c.erasesize ∣ size ∨ c.numGood offset range * c.erasesize < size := by
  rw [Device.numGood, ← finalAmount_ne_iff hpos]
  constructor
  · intro h
    obtain ⟨ret, f', hwrite, -, hspace, -⟩ :=
      h ⟨fun _ _ mem => (mem, 0, 0), fun _ _ _ => ([], 0, 0)⟩ (fun _ => 0) ⟨fun _ => 0, []⟩
    rw [writeenv_eq _ hdvd hin hpos hsub] at hwrite
    have hret : _ = ret := congrArg Prod.fst (Option.some.inj hwrite)
    rwa [← hret, writeStarts_ret, envEnd_eq_noSpace] at hspace
  · intro hspace onBad buf f
    refine ⟨_, _, writeenv_eq onBad hdvd hin hpos hsub f, fun p hp => ?_, ?_, fun buf₂ => ?_⟩
    · rcases writeStarts_programmed hp with hold | hnew
      · exact .inl hold
      · exact .inr (c.inside_of_goodStarts (min_le_left _ _) hnew)
    · rw [writeStarts_ret, envEnd_eq_noSpace]
      exact hspace
    · obtain ⟨l, hread, hinside⟩ := readenv_inside onBad hdvd hin size
        (writeStarts size (min c.erasesize size) buf (c.goodStarts offset (offset + range)) 0
          f).2.mem buf₂
      refine ⟨l, hread, hinside, fun hdone => ?_⟩
      rw [readenv_eq onBad hdvd hin hpos] at hread
      obtain rfl := Option.some.inj hread
      rw [writeStarts_ret, envEnd_eq_done] at hdone
      refine ⟨?_, fun i hi => ?_⟩
      · rw [readStarts_ret, envEnd_eq_done]
        exact hdone
      · refine readStarts_writeStarts ?_ (Nat.zero_le _) (by rwa [hdone])
        exact (c.pairwise_goodStarts _ _).imp fun hgap =>
          (Nat.add_le_add_left (min_le_left _ _) _).trans hgap

theorem roundTrips_of_notAligned (hpos : 0 < size)
    (hsub : c.NotAligned (min c.erasesize size)) : RoundTrips c size range offset := by
  have hsize : size < c.erasesize := by
    by_contra hle
    rw [min_eq_left (Nat.le_of_not_lt hle)] at hsub
    exact not_notAligned (subpage_dvd_erasesize c) hsub
  intro onBad buf f
  have hwrite : writeenv c onBad size range offset buf f =
      some (if c.goodStarts offset (offset + range) = [] then envEnd size 0 else .refused, f) := by
    rw [writeenv, end_eq hin]
    exact writeenvLoop_refused onBad hin (lt_min c.erasesize_pos hpos) (min_le_left _ _) hsub hpos
      hdvd
  refine ⟨_, _, hwrite, fun p hp => .inl hp, ?_, fun buf₂ => ?_⟩
  · rw [Device.numGood]
    split_ifs with hnil
    · rw [hnil, List.length_nil, Nat.zero_mul, envEnd_eq_noSpace]
      exact iff_of_true hpos.ne hpos
    · have hcons := Nat.le_mul_of_pos_left c.erasesize (List.length_pos_iff.mpr hnil)
      exact iff_of_false (by decide) (by omega)
  · obtain ⟨l, hread, hinside⟩ := readenv_inside onBad hdvd hin size f.mem buf₂
    refine ⟨l, hread, hinside, fun hdone => ?_⟩
    split_ifs at hdone
    exact absurd (envEnd_eq_done.mp hdone) hpos.ne

/-- **The round trip of the environment**, from the start of a block and in a range of the device:
it is right exactly when the environment is at most a block or a number of whole blocks, or there
are too few good blocks for it. -/
theorem env_roundTrips_iff :
    RoundTrips c size range offset ↔
      size ≤ c.erasesize ∨ c.erasesize ∣ size ∨ c.numGood offset range * c.erasesize < size := by
  rcases Nat.eq_zero_or_pos size with hzero | hpos
  · subst hzero
    refine iff_of_true (fun onBad buf f => ?_) (.inl (Nat.zero_le _))
    have hstop : ∀ a e : ℕ, ¬ (a < 0 ∧ offset < e) := fun a e h => Nat.not_lt_zero _ h.1
    refine ⟨_, _, writeenvLoop_stop onBad _ (hstop _ _), fun p hp => .inl hp, ?_, fun buf₂ => ?_⟩
    · exact iff_of_false (by decide) (Nat.not_lt_zero _)
    · refine ⟨_, readenvLoop_stop onBad _ (hstop _ _), fun p hp => ?_, fun _ => ⟨rfl, ?_⟩⟩
      · exact absurd hp List.not_mem_nil
      · exact fun i hi => absurd hi (Nat.not_lt_zero _)
  · by_cases hsub : c.NotAligned (min c.erasesize size)
    · refine iff_of_true (roundTrips_of_notAligned hdvd hin hpos hsub) (.inl ?_)
      by_contra hle
      rw [min_eq_left (Nat.le_of_not_le hle)] at hsub
      exact not_notAligned (subpage_dvd_erasesize c) hsub
    · exact roundTrips_iff_of_aligned hdvd hin hpos hsub

end Range

/-- The device of 128 MiB, which takes writes of a quarter of a page. -/
def goodChip : Chip where
  toDevice := goodDevice
  subpageShift := 9
  subpage_le_write := by decide

theorem env_roundTrips_iff_block :
    RoundTrips goodChip 0x20000 0x40000 0x20000 ↔
      0x20000 ≤ goodChip.erasesize ∨ goodChip.erasesize ∣ 0x20000 ∨
        goodChip.numGood 0x20000 0x40000 * goodChip.erasesize < 0x20000 :=
  env_roundTrips_iff (c := goodChip) ⟨1, rfl⟩ (by decide)

theorem not_roundTrips_size : ¬ RoundTrips goodChip 0x30000 0x40000 0 := by
  have herase : goodDevice.erasesize = 0x20000 := rfl
  have hfirst : goodDevice.erasesize ∣ 0 := dvd_zero _
  have hsecond : goodDevice.erasesize ∣ 0x20000 := dvd_rfl
  have hstarts : goodDevice.goodStarts 0 0x40000 = [0, 0x20000] := by
    rw [Device.goodStarts_step hfirst (by decide), herase, Nat.zero_add,
      Device.goodStarts_step hsecond (by decide), herase, goodStarts_of_le (by decide)]
    rfl
  have hsub : ¬ goodChip.NotAligned (min goodChip.erasesize 0x30000) := not_notAligned ⟨256, rfl⟩
  have hiff : RoundTrips goodChip 0x30000 0x40000 0 ↔ _ :=
    roundTrips_iff_of_aligned hfirst (by decide) (by decide) hsub
  have hcount : goodChip.numGood 0 0x40000 = 2 := congrArg List.length hstarts
  rw [hiff, hcount]
  show ¬ (0x30000 ≤ 0x20000 ∨ 0x20000 ∣ 0x30000 ∨ 2 * 0x20000 < 0x30000)
  decide

theorem goodChip_nandWrite {start : ℕ} (hsub : 2 ^ 9 ∣ start) (hin : start + 0x20000 ≤ 0x8000000)
    (buf : ℕ → UInt8) (i : ℕ) (f : Flash) :
    goodChip.nandWrite noErrors start (bytesFrom buf i 0x20000) f =
      ⟨f.stored start (bytesFrom buf i 0x20000), 0x20000, 0⟩ := by
  have hstart : ¬ goodChip.NotAligned start := not_notAligned hsub
  have hlen : ¬ goodChip.NotAligned 0x20000 := not_notAligned ⟨256, rfl⟩
  rw [Chip.nandWrite, length_bytesFrom, if_neg (fun h => h.2.2.elim hstart hlen),
    nandWrite_of_allGood noErrors _ (bytesFrom_ne_nil (by decide))
      (by rw [length_bytesFrom]; exact hin) (by rw [length_bytesFrom]; exact fun _ _ => rfl),
    length_bytesFrom]

theorem goodChip_writeenvLoop {size end_ offset amount : ℕ} {buf : ℕ → UInt8} {f : Flash}
    (hgo : amount < size ∧ offset < end_) (hsub : 2 ^ 9 ∣ offset)
    (hin : offset + 0x20000 ≤ 0x8000000) :
    writeenvLoop goodChip noErrors size end_ buf offset 0x20000 amount f =
      writeenvLoop goodChip noErrors size end_ buf (offset + 0x20000) 0x20000 (amount + 0x20000)
        (f.stored offset (bytesFrom buf amount 0x20000)) := by
  have hlt : offset < goodDevice.size := by
    have hsize : goodDevice.size = 0x8000000 := rfl
    omega
  have hgood : nandBlockIsbad goodChip.toDevice offset = some false := nandBlockIsbad_good hlt
  rw [writeenvLoop, dif_pos hgo, hgood]
  simp only [goodChip_nandWrite hsub hin, ne_eq, not_true, if_false]
  rfl

theorem not_roundTrips_offset : ¬ RoundTrips goodChip 0x20000 0x20000 0x10000 := by
  intro h
  obtain ⟨ret, f', hwrite, hprogrammed, -, -⟩ := h noErrors (fun _ => 0) blank
  have hloop : writeenvLoop goodChip noErrors 0x20000 0x30000 (fun _ => 0) 0x10000 0x20000 0 blank =
      some (ret, f') := hwrite
  have hsub : 2 ^ 9 ∣ 0x10000 := ⟨128, rfl⟩
  rw [goodChip_writeenvLoop (by decide) hsub (by decide),
    writeenvLoop_stop noErrors _ (by decide)] at hloop
  have hflash : _ = f' := congrArg Prod.snd (Option.some.inj hloop)
  rw [← hflash] at hprogrammed
  rcases hprogrammed _ (List.mem_append_right _ List.mem_cons_self) with hold | hnew
  · exact absurd hold List.not_mem_nil
  · have hstart := (hnew 0 (by rw [length_bytesFrom]; decide)).2.1
    exact absurd hstart (by decide)

theorem not_roundTrips_range : ¬ RoundTrips goodChip 0x40000 0x40000 0x7fe0000 := by
  intro h
  obtain ⟨ret, f', hwrite, -⟩ := h noErrors (fun _ => 0) blank
  have hloop : writeenvLoop goodChip noErrors 0x40000 0x8020000 (fun _ => 0) 0x7fe0000 0x20000 0
      blank = some (ret, f') := hwrite
  have hnone : nandBlockIsbad goodChip.toDevice 0x8000000 = none := by decide
  have hsub : 2 ^ 9 ∣ 0x7fe0000 := ⟨0x3ff00, rfl⟩
  rw [goodChip_writeenvLoop (by decide) hsub (by decide), writeenvLoop, dif_pos (by decide),
    hnone] at hloop
  exact absurd hloop (by simp)

/-- The round trip fails for one and a half blocks in two good blocks, for a block from the middle
of a block on, and for two blocks from the last block of the device on. -/
theorem not_env_roundTrips :
    ¬ RoundTrips goodChip 0x30000 0x40000 0 ∧ ¬ RoundTrips goodChip 0x20000 0x20000 0x10000 ∧
      ¬ RoundTrips goodChip 0x40000 0x40000 0x7fe0000 :=
  ⟨not_roundTrips_size, not_roundTrips_offset, not_roundTrips_range⟩

end Nand
end EmevBsp
