import EmevBsp.Library.Positions
import Mathlib.Data.Int.Notation
import Mathlib.Data.Nat.Bitwise
import Mathlib.Tactic.Common

/-!
# `tools/env/fw_env.c`: the environment through an MTD device

`flash_write_buf` reads the erase blocks that it is going to touch, puts the environment in and
writes the blocks back.  On NAND it goes block by block and leaves bad blocks out; on NOR it erases
and writes all of `ENVSECTORS` at once, in a loop that "only runs once", but it then counts one
sector as written.

A device is a function from its bytes, and offsets are natural numbers: those of a device fit in an
`off_t`.  Where the range ends before the block, the length of the source wraps, and the check for
the end of the range refuses that as it refuses the length 0 here.
-/

namespace EmevBsp
namespace FwEnv

/-! ## The functions of the source -/

inductive MtdType where
  | nor
  | nand
  deriving DecidableEq

/-- `struct envdev_s`, with erase sectors of `2 ^ eraseShift` bytes. -/
structure Envdev where
  devoff : ℕ
  eraseShift : ℕ
  envSectors : ℕ
  mtdType : MtdType

/-- The bytes of a device, or of a buffer and of what lies behind it. -/
abbrev Bytes := ℕ → UInt8

/-- `len` bytes of `src`, at `start`. -/
def store (dst : Bytes) (start len : ℕ) (src : Bytes) : Bytes := fun x =>
  if start ≤ x ∧ x < start + len then src (x - start) else dst x

variable (d : Envdev) (bad : ℕ → Bool)

def Envdev.devesize : ℕ := 2 ^ d.eraseShift

/-- `x & ~(DEVESIZE - 1)`. -/
def Envdev.alignDown (x : ℕ) : ℕ := x - (x &&& (d.devesize - 1))

/-- `top_of_range`, of a NAND device and of a write. -/
def Envdev.topOfRange : ℕ := d.alignDown d.devoff + d.envSectors * d.devesize

/-- `flash_bad_block`, `bad` being what the device tells of a block. -/
def flashBadBlock (blockstart : ℕ) : Bool := decide (d.mtdType = .nand) && bad blockstart

/-- The loop of `flash_read_buf`, on NAND. -/
def readLoop (mem : Bytes) (count blockstart blockSeek readlen processed : ℕ) (buf : Bytes) :
    ℤ × Bytes :=
  if processed < count then
    if _h : d.topOfRange < blockstart + blockSeek + readlen then (-1, buf)
    else if flashBadBlock d bad blockstart then
      readLoop mem count (blockstart + d.devesize) blockSeek readlen processed buf
    else
      readLoop mem count (blockstart + d.devesize) 0
        (min d.devesize (count - (processed + readlen))) (processed + readlen)
        (store buf processed readlen fun j => mem (blockstart + blockSeek + j))
  else (processed, buf)
termination_by d.topOfRange + 1 - blockstart
decreasing_by
  all_goals
    have hpos : 0 < d.devesize := Nat.two_pow_pos _
    omega

/-- `flash_read_buf`.  On NOR the loop runs once: its first read is the last. -/
def flashReadBuf (mem : Bytes) (count offset : ℕ) (buf : Bytes) : ℤ × Bytes :=
  match d.mtdType with
  | .nor => (count, store buf 0 count fun j => mem (offset + j))
  | .nand =>
    let blockstart := d.alignDown offset
    let blockSeek := offset - blockstart
    let readlen := if d.devesize - blockSeek < count then d.devesize - blockSeek else count
    readLoop d bad mem count blockstart blockSeek readlen 0 buf

def memErase (mem : Bytes) (start length : ℕ) : Bytes := store mem start length fun _ => 0xff

/-- A write to the device clears bits. -/
def program (mem : Bytes) (start length : ℕ) (data : Bytes) : Bytes :=
  store mem start length fun j => mem (start + j) &&& data j

/-- The loop of `flash_write_buf`. -/
def writeLoop (writeTotal erasesize : ℕ) (data : Bytes) (blockstart processed : ℕ) (mem : Bytes) :
    ℤ × Bytes :=
  if processed < writeTotal then
    if _h : d.topOfRange < blockstart + erasesize then (-1, mem)
    else if flashBadBlock d bad blockstart then
      writeLoop writeTotal erasesize data (blockstart + d.devesize) processed mem
    else
      writeLoop writeTotal erasesize data (blockstart + d.devesize) (processed + d.devesize)
        (program (memErase mem blockstart erasesize) blockstart erasesize
          fun j => data (processed + j))
  else (processed, mem)
termination_by d.topOfRange + 1 - blockstart
decreasing_by
  all_goals
    have hpos : 0 < d.devesize := Nat.two_pow_pos _
    omega

def Envdev.eraseLen (offset : ℕ) : ℕ := d.topOfRange - d.alignDown offset

def Envdev.blockSeek (offset : ℕ) : ℕ := offset - d.alignDown offset

def Envdev.writeTotal (offset count : ℕ) : ℕ :=
  d.alignDown (d.blockSeek offset + count + d.devesize - 1)

def Envdev.erasesize (offset : ℕ) : ℕ :=
  match d.mtdType with
  | .nand => d.devesize
  | .nor => d.eraseLen offset

/-- `flash_write_buf`, with `junk` in the memory that it allocates; `none` where it reads more into
that memory than fits. -/
def flashWriteBuf (buf junk : Bytes) (count offset : ℕ) (mem : Bytes) : Option (ℤ × Bytes) :=
  let eraseOffset := d.alignDown offset
  let writeTotal := d.writeTotal offset count
  let erasesize := d.erasesize offset
  if count < writeTotal then
    if d.mtdType = .nor ∧ d.eraseLen offset < writeTotal then none
    else
      let r := flashReadBuf d bad mem writeTotal eraseOffset junk
      if r.1 ≠ writeTotal then some (-1, mem)
      else
        let data := store r.2 (d.blockSeek offset) count buf
        some (writeLoop d bad writeTotal erasesize data eraseOffset 0 mem)
  else some (writeLoop d bad writeTotal erasesize buf eraseOffset 0 mem)

/-! ## What an update is -/

/-- The good blocks from a place on, up to the end of the range. -/
def Envdev.goodFrom (a : ℕ) : List ℕ :=
  positions (fun x => decide (d.devesize ∣ x) && !bad x) a d.topOfRange

/-- The good blocks from the block of an offset on. -/
def Envdev.goodBlocks (offset : ℕ) : List ℕ := d.goodFrom bad (d.alignDown offset)

/-- Where byte `j` of the environment is: on NAND in the good blocks, one behind the other. -/
def Envdev.place (offset j : ℕ) : ℕ :=
  match d.mtdType with
  | .nor => offset + j
  | .nand => blockPlace d.devesize (d.goodBlocks bad offset) (d.blockSeek offset + j)

/-- Whatever is on the device, in the buffer and in the memory: `flash_write_buf` of `count` bytes
succeeds, `flash_read_buf` then reads them, and no other byte has changed. -/
def Updates (offset count : ℕ) : Prop :=
  ∀ mem buf junk : Bytes, ∃ rc mem',
    flashWriteBuf d bad buf junk count offset mem = some (rc, mem') ∧ 0 ≤ rc ∧
    (∀ old, ∃ buf', flashReadBuf d bad mem' count offset old = ((count : ℤ), buf') ∧
      ∀ j < count, buf' j = buf j) ∧
    ∀ x, (∀ j < count, x ≠ d.place bad offset j) → mem' x = mem x

/-! ## Offsets -/

variable {d bad} {offset count : ℕ}

theorem Envdev.devesize_pos (d : Envdev) : 0 < d.devesize := Nat.two_pow_pos _

theorem Envdev.alignDown_eq (d : Envdev) (x : ℕ) : d.alignDown x = x / d.devesize * d.devesize := by
  have hdiv := Nat.div_add_mod' x d.devesize
  rw [alignDown, devesize, Nat.and_two_pow_sub_one_eq_mod, ← devesize]
  omega

theorem Envdev.dvd_alignDown (d : Envdev) (x : ℕ) : d.devesize ∣ d.alignDown x := by
  rw [d.alignDown_eq]
  exact Nat.dvd_mul_left _ _

theorem Envdev.alignDown_of_dvd {x : ℕ} (h : d.devesize ∣ x) : d.alignDown x = x := by
  rw [d.alignDown_eq, Nat.div_mul_cancel h]

theorem Envdev.lt_alignDown_add (d : Envdev) (x : ℕ) : x < d.alignDown x + d.devesize := by
  rw [d.alignDown_eq]
  exact Nat.lt_div_mul_add d.devesize_pos

theorem Envdev.alignDown_add_blockSeek (d : Envdev) (offset : ℕ) :
    d.alignDown offset + d.blockSeek offset = offset := by
  have hle : d.alignDown offset ≤ offset := Nat.sub_le _ _
  rw [blockSeek]
  omega

theorem Envdev.blockSeek_lt (d : Envdev) (offset : ℕ) : d.blockSeek offset < d.devesize := by
  have hlt := d.lt_alignDown_add offset
  have hadd := d.alignDown_add_blockSeek offset
  omega

theorem Envdev.blockSeek_of_dvd {x : ℕ} (h : d.devesize ∣ x) : d.blockSeek x = 0 := by
  rw [blockSeek, alignDown_of_dvd h, Nat.sub_self]

theorem Envdev.dvd_topOfRange (d : Envdev) : d.devesize ∣ d.topOfRange :=
  Nat.dvd_add (d.dvd_alignDown _) (Nat.dvd_mul_left _ _)

theorem Envdev.dvd_writeTotal (d : Envdev) (offset count : ℕ) :
    d.devesize ∣ d.writeTotal offset count :=
  d.dvd_alignDown _

theorem Envdev.le_writeTotal (d : Envdev) (offset count : ℕ) :
    d.blockSeek offset + count ≤ d.writeTotal offset count := by
  have hpos := d.devesize_pos
  have hlt := d.lt_alignDown_add (d.blockSeek offset + count + d.devesize - 1)
  rw [writeTotal]
  omega

theorem Envdev.block_le_top {a : ℕ} (hdvd : d.devesize ∣ a) (hlt : a < d.topOfRange) :
    a + d.devesize ≤ d.topOfRange := by
  have hle := Nat.le_of_dvd (by omega) (Nat.dvd_sub d.dvd_topOfRange hdvd)
  omega

/-! ## Good blocks -/

theorem Envdev.goodFrom_of_le {a : ℕ} (h : d.topOfRange ≤ a) : d.goodFrom bad a = [] :=
  positions_of_le h

theorem Envdev.goodFrom_bad {a : ℕ} (hdvd : d.devesize ∣ a) (hlt : a < d.topOfRange)
    (hbad : bad a = true) : d.goodFrom bad a = d.goodFrom bad (a + d.devesize) := by
  rw [goodFrom, positions_dvd_step d.devesize_pos hdvd hlt, hbad]
  rfl

theorem Envdev.goodFrom_good {a : ℕ} (hdvd : d.devesize ∣ a) (hlt : a < d.topOfRange)
    (hgood : bad a = false) : d.goodFrom bad a = a :: d.goodFrom bad (a + d.devesize) := by
  rw [goodFrom, positions_dvd_step d.devesize_pos hdvd hlt, hgood]
  rfl

theorem Envdev.lt_top_of_room {a n : ℕ} (hn : 0 < n)
    (hroom : n ≤ (d.goodFrom bad a).length * d.devesize) : a < d.topOfRange := by
  by_contra hle
  rw [goodFrom_of_le (Nat.le_of_not_lt hle), List.length_nil, Nat.zero_mul] at hroom
  omega

theorem Envdev.ne_blockPlace {a x i : ℕ} (hx : x < a)
    (hi : i < (d.goodFrom bad a).length * d.devesize) :
    x ≠ blockPlace d.devesize (d.goodFrom bad a) i := by
  have hle := le_blockPlace hi fun b hb => (mem_positions.mp hb).1
  omega

theorem store_of_mem {dst src : Bytes} {start len x : ℕ} (h : start ≤ x ∧ x < start + len) :
    store dst start len src x = src (x - start) :=
  if_pos h

theorem store_of_notMem {dst src : Bytes} {start len x : ℕ} (h : ¬ (start ≤ x ∧ x < start + len)) :
    store dst start len src x = dst x :=
  if_neg h

theorem program_memErase (mem data : Bytes) (start len : ℕ) :
    program (memErase mem start len) start len data = store mem start len data := by
  funext x
  by_cases hx : start ≤ x ∧ x < start + len
  · have herased : memErase mem start len (start + (x - start)) = -1 :=
      store_of_mem (by omega)
    rw [program, store_of_mem hx, store_of_mem hx, herased, UInt8.neg_one_and]
  · rw [program, store_of_notMem hx, store_of_notMem hx, memErase, store_of_notMem hx]

/-! ## The walks over the good blocks -/

theorem flashBadBlock_nand (hnand : d.mtdType = .nand) (blockstart : ℕ) :
    flashBadBlock d bad blockstart = bad blockstart := by
  rw [flashBadBlock, hnand]
  exact Bool.true_and _

/-- **The walk of `flash_write_buf`**, from a block on: the good blocks get the data in order. -/
theorem writeLoop_spec (hnand : d.mtdType = .nand) {writeTotal blockstart processed n : ℕ}
    {data mem : Bytes} (hdvd : d.devesize ∣ blockstart) (hn : processed + n = writeTotal)
    (hwhole : d.devesize ∣ n) (hroom : n ≤ (d.goodFrom bad blockstart).length * d.devesize) :
    ∃ mem', writeLoop d bad writeTotal d.devesize data blockstart processed mem =
        ((writeTotal : ℤ), mem') ∧
      (∀ i < n, mem' (blockPlace d.devesize (d.goodFrom bad blockstart) i) = data (processed + i)) ∧
      ∀ x, (∀ i < n, x ≠ blockPlace d.devesize (d.goodFrom bad blockstart) i) → mem' x = mem x := by
  have hpos := d.devesize_pos
  induction hm : d.topOfRange - blockstart using Nat.strong_induction_on
    generalizing blockstart processed n mem with
  | _ m ih =>
    rw [writeLoop]
    by_cases hgo : processed < writeTotal
    · have hlt := Envdev.lt_top_of_room (by omega : 0 < n) hroom
      have hin := Envdev.block_le_top hdvd hlt
      have hnext : d.devesize ∣ blockstart + d.devesize := Nat.dvd_add_self_right.mpr hdvd
      rw [if_pos hgo, dif_neg (Nat.not_lt.mpr hin)]
      cases hbad : bad blockstart with
      | true =>
        rw [if_pos ((flashBadBlock_nand hnand _).trans hbad)]
        rw [Envdev.goodFrom_bad hdvd hlt hbad] at hroom ⊢
        exact ih _ (by omega) hnext hn hwhole hroom rfl
      | false =>
        have hle : d.devesize ≤ n := Nat.le_of_dvd (by omega) hwhole
        rw [if_neg (Bool.eq_false_iff.mp ((flashBadBlock_nand hnand _).trans hbad)),
          program_memErase]
        rw [Envdev.goodFrom_good hdvd hlt hbad, List.length_cons, Nat.succ_mul] at hroom
        have hn' : processed + d.devesize + (n - d.devesize) = writeTotal := by omega
        obtain ⟨mem', hrun, hdata, hother⟩ :=
          @ih (d.topOfRange - (blockstart + d.devesize)) (by omega) _ _ _
            (store mem blockstart d.devesize fun j => data (processed + j)) hnext hn'
            (Nat.dvd_sub hwhole dvd_rfl) (by omega) rfl
        refine ⟨mem', hrun, fun i hi => ?_, fun x hx => ?_⟩
        · rw [Envdev.goodFrom_good hdvd hlt hbad]
          rcases Nat.lt_or_ge i d.devesize with hfirst | hrest
          · rw [blockPlace_of_lt hfirst, hother, store_of_mem (by omega), Nat.add_sub_cancel_left]
            intro k hk
            exact Envdev.ne_blockPlace (by omega) (by omega)
          · obtain ⟨k, rfl⟩ := Nat.exists_eq_add_of_le hrest
            rw [blockPlace_add hpos, hdata k (by omega), Nat.add_assoc]
        · rw [Envdev.goodFrom_good hdvd hlt hbad] at hx
          rw [hother x, store_of_notMem]
          · rintro ⟨hle', hlt'⟩
            refine hx (x - blockstart) (by omega) ?_
            rw [blockPlace_of_lt (by omega)]
            omega
          · intro k hk
            have hne := hx (d.devesize + k) (by omega)
            rwa [blockPlace_add hpos] at hne
    · have hzero : n = 0 := by omega
      have hend : processed = writeTotal := by omega
      subst hzero hend
      rw [if_neg hgo]
      exact ⟨mem, rfl, fun i hi => absurd hi (Nat.not_lt_zero i), fun x _ => rfl⟩

/-- **The walk of `flash_read_buf`**, from a place in a block on. -/
theorem readLoop_spec (hnand : d.mtdType = .nand)
    {mem buf : Bytes} {blockstart blockSeek readlen processed n : ℕ}
    (hdvd : d.devesize ∣ blockstart) (hseek : blockSeek < d.devesize)
    (hlen : readlen = min (d.devesize - blockSeek) n) (hn : processed + n = count)
    (hroom : 0 < n → blockSeek + n ≤ (d.goodFrom bad blockstart).length * d.devesize) :
    ∃ buf', readLoop d bad mem count blockstart blockSeek readlen processed buf =
        ((count : ℤ), buf') ∧
      (∀ j < n, buf' (processed + j) =
        mem (blockPlace d.devesize (d.goodFrom bad blockstart) (blockSeek + j))) ∧
      ∀ k, k < processed ∨ count ≤ k → buf' k = buf k := by
  have hpos := d.devesize_pos
  induction hm : d.topOfRange - blockstart using Nat.strong_induction_on
    generalizing blockstart blockSeek readlen processed n buf with
  | _ m ih =>
    rw [readLoop]
    by_cases hgo : processed < count
    · have hroom' := hroom (by omega)
      have hlt := Envdev.lt_top_of_room (by omega : 0 < blockSeek + n) hroom'
      have hin := Envdev.block_le_top hdvd hlt
      have hnext : d.devesize ∣ blockstart + d.devesize := Nat.dvd_add_self_right.mpr hdvd
      rw [if_pos hgo, dif_neg (by omega)]
      cases hbad : bad blockstart with
      | true =>
        rw [if_pos ((flashBadBlock_nand hnand _).trans hbad)]
        rw [Envdev.goodFrom_bad hdvd hlt hbad] at hroom ⊢
        exact ih _ (by omega) hnext hseek hlen hn hroom rfl
      | false =>
        rw [if_neg (Bool.eq_false_iff.mp ((flashBadBlock_nand hnand _).trans hbad))]
        rw [Envdev.goodFrom_good hdvd hlt hbad, List.length_cons, Nat.succ_mul] at hroom'
        have hn' : processed + readlen + (n - readlen) = count := by omega
        have hlen' : min d.devesize (count - (processed + readlen)) =
            min (d.devesize - 0) (n - readlen) := by omega
        obtain ⟨buf', hrun, hdata, hother⟩ :=
          @ih (d.topOfRange - (blockstart + d.devesize)) (by omega)
            (store buf processed readlen fun j => mem (blockstart + blockSeek + j)) _ _ _ _ _ hnext
            hpos hlen' hn' (by omega) rfl
        refine ⟨buf', hrun, fun j hj => ?_, fun k hk => ?_⟩
        · rw [Envdev.goodFrom_good hdvd hlt hbad]
          rcases Nat.lt_or_ge j readlen with hfirst | hrest
          · rw [hother _ (.inl (by omega)), store_of_mem (by omega), Nat.add_sub_cancel_left,
              blockPlace_of_lt (by omega), Nat.add_assoc]
          · -- the first block has been read to its end
            obtain ⟨k, rfl⟩ := Nat.exists_eq_add_of_le hrest
            have hplace : blockSeek + (readlen + k) = d.devesize + (0 + k) := by omega
            rw [hplace, blockPlace_add hpos, ← hdata k (by omega), Nat.add_assoc]
        · rw [hother k (by omega), store_of_notMem (by omega)]
    · have hend : processed = count := by omega
      subst hend
      rw [if_neg hgo]
      exact ⟨buf, rfl, fun j hj => absurd hj (by omega), fun k _ => rfl⟩

theorem Envdev.place_nor (hnor : d.mtdType = .nor) (j : ℕ) :
    d.place bad offset j = offset + j := by
  rw [place, hnor]

theorem Envdev.place_nand (hnand : d.mtdType = .nand) (j : ℕ) :
    d.place bad offset j =
      blockPlace d.devesize (d.goodBlocks bad offset) (d.blockSeek offset + j) := by
  rw [place, hnand]

/-- **`flash_read_buf`** reads the bytes of the environment from their places. -/
theorem flashReadBuf_spec {mem buf : Bytes}
    (hroom : d.mtdType = .nand → 0 < count →
      d.blockSeek offset + count ≤ (d.goodBlocks bad offset).length * d.devesize) :
    ∃ buf', flashReadBuf d bad mem count offset buf = ((count : ℤ), buf') ∧
      (∀ j < count, buf' j = mem (d.place bad offset j)) ∧ ∀ k, count ≤ k → buf' k = buf k := by
  cases htype : d.mtdType with
  | nor =>
    refine ⟨store buf 0 count fun j => mem (offset + j), ?_, fun j hj => ?_, fun k hk => ?_⟩
    · simp only [flashReadBuf, htype]
    · rw [store_of_mem (by omega), Nat.sub_zero, Envdev.place_nor htype]
    · exact store_of_notMem (by omega)
  | nand =>
    have hseek := d.blockSeek_lt offset
    have hlen : (if d.devesize - d.blockSeek offset < count then d.devesize - d.blockSeek offset
        else count) = min (d.devesize - d.blockSeek offset) count := by
      split_ifs <;> omega
    obtain ⟨buf', hrun, hdata, hother⟩ := @readLoop_spec d bad count htype mem buf
      (d.alignDown offset) (d.blockSeek offset) _ 0 count (d.dvd_alignDown offset) hseek hlen
      (Nat.zero_add count) (hroom htype)
    refine ⟨buf', ?_, fun j hj => ?_, fun k hk => hother k (.inr hk)⟩
    · simp only [flashReadBuf, htype]
      exact hrun
    · rw [Envdev.place_nand htype, Envdev.goodBlocks, ← hdata j hj, Nat.zero_add]

theorem Envdev.place_alignDown (j : ℕ) :
    d.place bad offset j = d.place bad (d.alignDown offset) (d.blockSeek offset + j) := by
  have hdvd := d.dvd_alignDown offset
  have hadd := d.alignDown_add_blockSeek offset
  cases htype : d.mtdType with
  | nor =>
    rw [place_nor htype, place_nor htype]
    omega
  | nand =>
    rw [place_nand htype, place_nand htype, blockSeek_of_dvd hdvd, Nat.zero_add, goodBlocks,
      goodBlocks, alignDown_of_dvd hdvd]

/-- **What `flash_write_buf` writes**: the environment, between what was in its blocks. -/
theorem flashWriteBuf_eq {buf junk mem : Bytes}
    (hroom : d.mtdType = .nand →
      d.writeTotal offset count ≤ (d.goodBlocks bad offset).length * d.devesize)
    (hfits : d.mtdType = .nor → count < d.writeTotal offset count →
      d.writeTotal offset count ≤ d.eraseLen offset) :
    ∃ data, flashWriteBuf d bad buf junk count offset mem =
        some (writeLoop d bad (d.writeTotal offset count) (d.erasesize offset) data
          (d.alignDown offset) 0 mem) ∧
      (∀ j < count, data (d.blockSeek offset + j) = buf j) ∧
      (∀ i < d.writeTotal offset count,
        i < d.blockSeek offset ∨ d.blockSeek offset + count ≤ i →
          data i = mem (d.place bad (d.alignDown offset) i)) ∧
      ∀ i, d.writeTotal offset count ≤ i → data i = buf i ∨ data i = junk i := by
  have htotal := d.le_writeTotal offset count
  by_cases hmore : count < d.writeTotal offset count
  · have hdvd := d.dvd_alignDown offset
    obtain ⟨buf', hread, hdata, hother⟩ := @flashReadBuf_spec d bad (d.alignDown offset)
      (d.writeTotal offset count) mem junk fun htype _ => by
        rw [Envdev.blockSeek_of_dvd hdvd, Nat.zero_add, Envdev.goodBlocks,
          Envdev.alignDown_of_dvd hdvd]
        exact hroom htype
    refine ⟨store buf' (d.blockSeek offset) count buf, ?_, fun j hj => ?_, fun i hi hout => ?_,
      fun i hi => .inr ?_⟩
    · have hin : ¬ (d.mtdType = .nor ∧ d.eraseLen offset < d.writeTotal offset count) :=
        fun h => Nat.not_lt.mpr (hfits h.1 hmore) h.2
      simp only [flashWriteBuf, if_pos hmore, if_neg hin, hread, ne_eq, not_true, if_false]
    · rw [store_of_mem (by omega), Nat.add_sub_cancel_left]
    · rw [store_of_notMem (by omega), hdata i hi]
    · rw [store_of_notMem (by omega), hother i hi]
  · -- the environment is the blocks
    have hseek : d.blockSeek offset = 0 := by omega
    refine ⟨buf, ?_, fun j _ => ?_, fun i hi hout => ?_, fun i _ => .inl rfl⟩
    · simp only [flashWriteBuf, if_neg hmore]
    · rw [hseek, Nat.zero_add]
    · omega

theorem updates_of_written
    (hroom : d.mtdType = .nand →
      d.writeTotal offset count ≤ (d.goodBlocks bad offset).length * d.devesize)
    (hfits : d.mtdType = .nor → count < d.writeTotal offset count →
      d.writeTotal offset count ≤ d.eraseLen offset)
    (hwrite : ∀ mem data : Bytes, ∃ mem',
      writeLoop d bad (d.writeTotal offset count) (d.erasesize offset) data (d.alignDown offset) 0
          mem = ((d.writeTotal offset count : ℤ), mem') ∧
        (∀ i < d.writeTotal offset count, mem' (d.place bad (d.alignDown offset) i) = data i) ∧
        ∀ x, (∀ i < d.writeTotal offset count, x ≠ d.place bad (d.alignDown offset) i) →
          mem' x = mem x) :
    Updates d bad offset count := by
  intro mem buf junk
  have htotal := d.le_writeTotal offset count
  obtain ⟨data, hrun, henv, hrest, -⟩ :=
    @flashWriteBuf_eq d bad offset count buf junk mem hroom hfits
  obtain ⟨mem', hloop, hdata, hother⟩ := hwrite mem data
  refine ⟨_, mem', by rw [hrun, hloop], Int.natCast_nonneg _, fun old => ?_, fun x hx => ?_⟩
  · obtain ⟨buf', hread, hbuf, -⟩ := @flashReadBuf_spec d bad offset count mem' old
      fun htype _ => htotal.trans (hroom htype)
    refine ⟨buf', hread, fun j hj => ?_⟩
    rw [hbuf j hj, Envdev.place_alignDown, hdata _ (by omega), henv j hj]
  · by_cases hin : ∃ i < d.writeTotal offset count, x = d.place bad (d.alignDown offset) i
    · -- a byte of the blocks that is not one of the environment is written back
      obtain ⟨i, hi, rfl⟩ := hin
      rw [hdata i hi]
      refine hrest i hi ?_
      by_contra henv'
      refine hx (i - d.blockSeek offset) (by omega) ?_
      have hplace : d.blockSeek offset + (i - d.blockSeek offset) = i := by omega
      rw [@Envdev.place_alignDown d bad offset, hplace]
    · exact hother x fun i hi heq => hin ⟨i, hi, heq⟩

theorem updates_nand (hnand : d.mtdType = .nand)
    (hroom : d.writeTotal offset count ≤ (d.goodBlocks bad offset).length * d.devesize) :
    Updates d bad offset count := by
  have hdvd := d.dvd_alignDown offset
  refine updates_of_written (fun _ => hroom) (fun hnor => ?_) fun mem data => ?_
  · rw [hnand] at hnor
    exact absurd hnor (by decide)
  · have hblocks (i : ℕ) : d.place bad (d.alignDown offset) i =
        blockPlace d.devesize (d.goodFrom bad (d.alignDown offset)) i := by
      rw [Envdev.place_nand hnand, Envdev.blockSeek_of_dvd hdvd, Nat.zero_add, Envdev.goodBlocks,
        Envdev.alignDown_of_dvd hdvd]
    have hsize : d.erasesize offset = d.devesize := by
      rw [Envdev.erasesize, hnand]
    obtain ⟨mem', hrun, hdata, hother⟩ := @writeLoop_spec d bad hnand _ _ 0 _ data mem hdvd
      (Nat.zero_add _) (d.dvd_writeTotal offset count) hroom
    simp only [hblocks, hsize]
    refine ⟨mem', hrun, fun i hi => ?_, hother⟩
    rw [hdata i hi, Nat.zero_add]

/-! ## NOR -/

section Nor

variable (hnor : d.mtdType = .nor)

include hnor

theorem flashBadBlock_nor (blockstart : ℕ) : ¬ flashBadBlock d bad blockstart = true := by
  rw [flashBadBlock, hnor]
  exact Bool.false_ne_true

theorem Envdev.erasesize_nor : d.erasesize offset = d.eraseLen offset := by
  rw [erasesize, hnor]

theorem writeLoop_nor_first {data mem : Bytes} (hpos : 0 < d.writeTotal offset count)
    (hin : d.alignDown offset ≤ d.topOfRange) :
    writeLoop d bad (d.writeTotal offset count) (d.erasesize offset) data (d.alignDown offset) 0
        mem =
      writeLoop d bad (d.writeTotal offset count) (d.erasesize offset) data
        (d.alignDown offset + d.devesize) d.devesize
        (store mem (d.alignDown offset) (d.eraseLen offset) data) := by
  have hlen : d.alignDown offset + d.eraseLen offset = d.topOfRange := by
    rw [Envdev.eraseLen]
    omega
  rw [writeLoop, if_pos hpos, dif_neg (by rw [Envdev.erasesize_nor hnor]; omega),
    if_neg (flashBadBlock_nor hnor _), program_memErase, Envdev.erasesize_nor hnor, Nat.zero_add]
  simp only [Nat.zero_add]

theorem writeLoop_nor_one {data mem : Bytes} (hone : d.writeTotal offset count = d.devesize)
    (hin : d.alignDown offset ≤ d.topOfRange) :
    writeLoop d bad (d.writeTotal offset count) (d.erasesize offset) data (d.alignDown offset) 0
        mem =
      ((d.writeTotal offset count : ℤ),
        store mem (d.alignDown offset) (d.eraseLen offset) data) := by
  have hpos : 0 < d.writeTotal offset count := hone ▸ d.devesize_pos
  rw [writeLoop_nor_first hnor hpos hin, writeLoop, if_neg (by omega), hone]

theorem writeLoop_nor_abort {data mem : Bytes} (hpos : 0 < d.writeTotal offset count)
    (h : d.topOfRange < d.alignDown offset ∨ d.devesize < d.writeTotal offset count) :
    (writeLoop d bad (d.writeTotal offset count) (d.erasesize offset) data (d.alignDown offset) 0
        mem).1 = -1 := by
  have hsector := d.devesize_pos
  by_cases hin : d.alignDown offset ≤ d.topOfRange
  · rw [writeLoop_nor_first hnor hpos hin, writeLoop, if_pos (by omega), dif_pos]
    rw [Envdev.erasesize_nor hnor, Envdev.eraseLen]
    omega
  · rw [writeLoop, if_pos hpos, dif_pos (by omega)]

theorem fits_of_updates (h : Updates d bad offset count)
    (hmore : count < d.writeTotal offset count) :
    d.writeTotal offset count ≤ d.eraseLen offset := by
  by_contra hshort
  obtain ⟨rc, mem', hrun, -⟩ := h (fun _ => 0) (fun _ => 0) fun _ => 0
  simp only [flashWriteBuf, if_pos hmore, if_pos (⟨hnor, Nat.lt_of_not_le hshort⟩ :
    d.mtdType = .nor ∧ d.eraseLen offset < d.writeTotal offset count), reduceCtorEq] at hrun

theorem Updates.run (h : Updates d bad offset count) : ∃ data rc mem',
    writeLoop d bad (d.writeTotal offset count) (d.erasesize offset) data (d.alignDown offset) 0
        (fun _ => 0) = (rc, mem') ∧
      0 ≤ rc ∧ (∀ j < count, mem' (offset + j) = 1) ∧
      (∀ i, d.writeTotal offset count ≤ i → data i = 1) ∧
      ∀ x, offset + count ≤ x → mem' x = 0 := by
  obtain ⟨data, hdata, -, -, hrest⟩ := @flashWriteBuf_eq d bad offset count (fun _ => 1)
    (fun _ => 1) (fun _ => 0) (fun hnand => absurd (hnor.symm.trans hnand) (by decide))
    fun _ hmore => fits_of_updates hnor h hmore
  obtain ⟨rc, mem', hrun, hrc, hread, hother⟩ := h (fun _ => 0) (fun _ => 1) fun _ => 1
  refine ⟨data, rc, mem', Option.some.inj (hdata.symm.trans hrun), hrc, fun j hj => ?_,
    fun i hi => (hrest i hi).elim id id, fun x hx => ?_⟩
  · obtain ⟨buf', hbuf, hone⟩ := hread fun _ => 0
    obtain ⟨buf'', hbuf', hplace, -⟩ := @flashReadBuf_spec d bad offset count mem' (fun _ => 0)
      fun hnand => absurd (hnor.symm.trans hnand) (by decide)
    have heq : buf'' = buf' := congrArg Prod.snd (hbuf'.symm.trans hbuf)
    rw [← Envdev.place_nor hnor j, ← hplace j hj, heq, hone j hj]
  · refine hother x fun j hj => ?_
    rw [Envdev.place_nor hnor]
    omega

theorem not_updates_of_abort (hpos : 0 < d.writeTotal offset count)
    (h : d.topOfRange < d.alignDown offset ∨ d.devesize < d.writeTotal offset count) :
    ¬ Updates d bad offset count := by
  intro hupd
  obtain ⟨data, rc, mem', hrun, hrc, -⟩ := hupd.run hnor
  have habort := @writeLoop_nor_abort d bad offset count hnor data (fun _ => 0) hpos h
  rw [hrun] at habort
  omega

theorem not_updates_of_sectors (hone : d.writeTotal offset count = d.devesize)
    (hmore : d.alignDown offset + d.devesize < d.topOfRange) : ¬ Updates d bad offset count := by
  intro hupd
  obtain ⟨data, rc, mem', hrun, -, -, hdata, hother⟩ := hupd.run hnor
  have htotal := d.le_writeTotal offset count
  have hadd := d.alignDown_add_blockSeek offset
  rw [writeLoop_nor_one hnor hone (by omega)] at hrun
  have hmem : store (fun _ => 0) (d.alignDown offset) (d.eraseLen offset) data = mem' :=
    congrArg Prod.snd hrun
  have hzero := hother (d.alignDown offset + d.devesize) (by omega)
  have hin : d.alignDown offset ≤ d.alignDown offset + d.devesize ∧
      d.alignDown offset + d.devesize < d.alignDown offset + d.eraseLen offset := by
    rw [Envdev.eraseLen]
    omega
  rw [← hmem, store_of_mem hin, Nat.add_sub_cancel_left, hdata _ hone.le] at hzero
  exact absurd hzero (by decide)

theorem not_updates_of_empty (hone : d.writeTotal offset count = d.devesize)
    (hempty : d.alignDown offset = d.topOfRange) : ¬ Updates d bad offset count := by
  intro hupd
  have hpos := d.devesize_pos
  have hlen : d.eraseLen offset = 0 := by
    rw [Envdev.eraseLen, hempty, Nat.sub_self]
  obtain ⟨data, rc, mem', hrun, -, hread, -⟩ := hupd.run hnor
  rw [writeLoop_nor_one hnor hone hempty.le, hlen] at hrun
  have hmem : store (fun _ => 0) (d.alignDown offset) 0 data = mem' := congrArg Prod.snd hrun
  by_cases hmore : count < d.writeTotal offset count
  · have hfits := fits_of_updates hnor hupd hmore
    omega
  · have hfirst := hread 0 (by omega)
    rw [← hmem, store_of_notMem (by omega)] at hfirst
    exact absurd hfirst (by decide)

/-- **On NOR the update is right** exactly when it writes nothing, or one sector that ends the
range. -/
theorem updates_nor : Updates d bad offset count ↔ d.writeTotal offset count = 0 ∨
    (d.writeTotal offset count = d.devesize ∧
      d.alignDown offset + d.devesize = d.topOfRange) := by
  have hpos := d.devesize_pos
  constructor
  · intro hupd
    rcases Nat.eq_zero_or_pos (d.writeTotal offset count) with hzero | htotal
    · exact .inl hzero
    refine .inr ?_
    have hle := Nat.le_of_dvd htotal (d.dvd_writeTotal offset count)
    have hone : d.writeTotal offset count = d.devesize := by
      by_contra hne
      exact not_updates_of_abort hnor htotal (.inr (by omega)) hupd
    refine ⟨hone, ?_⟩
    rcases Nat.lt_trichotomy (d.alignDown offset) d.topOfRange with hlt | hempty | hbehind
    · have hin := Envdev.block_le_top (d.dvd_alignDown offset) hlt
      by_contra hne
      exact not_updates_of_sectors hnor hone (by omega) hupd
    · exact absurd hupd (not_updates_of_empty hnor hone hempty)
    · exact absurd hupd (not_updates_of_abort hnor htotal (.inl hbehind))
  · intro h
    have hnand : ¬ d.mtdType = .nand := fun hnand => absurd (hnor.symm.trans hnand) (by decide)
    refine updates_of_written (fun htype => absurd htype hnand) (fun _ hmore => ?_)
      fun mem data => ?_
    · rw [Envdev.eraseLen]
      omega
    · simp only [Envdev.place_nor hnor]
      rcases h with hzero | ⟨hone, htop⟩
      · refine ⟨mem, ?_, fun i hi => absurd hi (by omega), fun x _ => rfl⟩
        rw [writeLoop, if_neg (by omega), hzero]
      · have hlen : d.eraseLen offset = d.devesize := by
          rw [Envdev.eraseLen]
          omega
        refine ⟨_, writeLoop_nor_one hnor hone (by omega), fun i hi => ?_, fun x hx => ?_⟩
        · rw [store_of_mem (by omega), Nat.add_sub_cancel_left]
        · refine store_of_notMem fun hin => hx (x - d.alignDown offset) (by omega) (by omega)

end Nor

/-- **The update of the environment** is right on NAND, with good blocks enough; on NOR exactly when
it writes nothing, or one sector that ends the range. -/
theorem updates_iff
    (hroom : d.mtdType = .nand →
      d.writeTotal offset count ≤ (d.goodBlocks bad offset).length * d.devesize) :
    Updates d bad offset count ↔
      (d.mtdType = .nor → d.writeTotal offset count = 0 ∨
        (d.writeTotal offset count = d.devesize ∧
          d.alignDown offset + d.devesize = d.topOfRange)) := by
  cases htype : d.mtdType with
  | nor => exact (updates_nor htype).trans ⟨fun h _ => h, fun h => h rfl⟩
  | nand =>
    exact iff_of_true (updates_nand htype (hroom htype)) fun hnor => absurd hnor (by decide)

/-- One block of NAND, and one more in the range. -/
def nandDev : Envdev where
  devoff := 0x20000
  eraseShift := 17
  envSectors := 2
  mtdType := .nand

theorem updates_iff_nandDev :
    Updates nandDev (fun x => decide (x = 0x20000)) 0x20000 0x4000 ↔
      (nandDev.mtdType = .nor → nandDev.writeTotal 0x20000 0x4000 = 0 ∨
        (nandDev.writeTotal 0x20000 0x4000 = nandDev.devesize ∧
          nandDev.alignDown 0x20000 + nandDev.devesize = nandDev.topOfRange)) := by
  refine updates_iff fun _ => ?_
  have hfirst : nandDev.devesize ∣ 0x20000 := dvd_rfl
  have hsecond : nandDev.devesize ∣ 0x40000 := ⟨2, rfl⟩
  have hbad := @Envdev.goodFrom_bad nandDev (fun x => decide (x = 0x20000)) 0x20000 hfirst
    (by decide) rfl
  have hgood := @Envdev.goodFrom_good nandDev (fun x => decide (x = 0x20000)) 0x40000 hsecond
    (by decide) rfl
  have hblocks : (nandDev.goodBlocks (fun x => decide (x = 0x20000)) 0x20000).length = 1 := by
    rw [Envdev.goodBlocks, Envdev.alignDown_of_dvd hfirst, hbad]
    show (nandDev.goodFrom _ 0x40000).length = 1
    rw [hgood, Envdev.goodFrom_of_le (by decide)]
    rfl
  rw [hblocks]
  decide

/-- The environment of `README`: `DEVICE1_ESIZE` is `0x4000` and `DEVICE1_ENVSECTORS` is 2. -/
def trab : Envdev where
  devoff := 0
  eraseShift := 14
  envSectors := 2
  mtdType := .nor

/-- Of the two sectors of `README`, an environment in the first overwrites the second, and one in
both is refused. -/
theorem not_updates_trab :
    ¬ Updates trab (fun _ => false) 0 0x4000 ∧ ¬ Updates trab (fun _ => false) 0 0x8000 :=
  ⟨not_updates_of_sectors rfl (by decide) (by decide),
    not_updates_of_abort rfl (by decide) (.inr (by decide))⟩

end FwEnv
end EmevBsp
