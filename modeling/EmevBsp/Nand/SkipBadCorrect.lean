import EmevBsp.Nand.SkipBad

/-!
# When skipping bad blocks is correct

The data of a write belongs in the bytes of the good blocks from the offset on, in order.  The space
check of `get_len_incl_bad` stops at the end of a block: behind enough good bytes, or at the first
end of a block where its running offset and the length it has counted are together past the end of
the device.  The second is where the stretch is at or past the middle between the offset and the
end.
-/

namespace EmevBsp
namespace Nand

variable (d : Device)

/-! ## Blocks -/

/-- The end of the block of an offset. -/
def Device.nextBlock (offset : ℕ) : ℕ := offset + (d.erasesize - d.blockOffset offset)

theorem Device.nextBlock_eq (offset : ℕ) :
    d.nextBlock offset = (offset / d.erasesize + 1) * d.erasesize := by
  have hdiv := Nat.div_add_mod' offset d.erasesize
  have hlt := Nat.mod_lt offset d.erasesize_pos
  rw [nextBlock, blockOffset_eq, Nat.add_mul, Nat.one_mul]
  omega

theorem Device.lt_nextBlock (offset : ℕ) : offset < d.nextBlock offset := by
  have hlt := d.blockOffset_lt offset
  rw [nextBlock]
  omega

theorem Device.dvd_nextBlock (offset : ℕ) : d.erasesize ∣ d.nextBlock offset :=
  ⟨_, (d.nextBlock_eq offset).trans (Nat.mul_comm _ _)⟩

theorem Device.nextBlock_le {offset e : ℕ} (hdvd : d.erasesize ∣ e) (hlt : offset < e) :
    d.nextBlock offset ≤ e := by
  obtain ⟨k, rfl⟩ := hdvd
  rw [nextBlock_eq, Nat.mul_comm d.erasesize k]
  rw [Nat.mul_comm] at hlt
  exact Nat.mul_le_mul_right _ (Nat.succ_le_of_lt ((Nat.div_lt_iff_lt_mul d.erasesize_pos).mpr hlt))

theorem Device.erasesize_dvd_size : d.erasesize ∣ d.size := Nat.pow_dvd_pow 2 d.erase_le_size

theorem Device.size_le_pow : d.size ≤ 2 ^ 31 := Nat.pow_le_pow_right (by decide) d.size_le

theorem Device.div_eq_of_lt_nextBlock {offset x : ℕ} (hle : offset ≤ x)
    (hlt : x < d.nextBlock offset) : x / d.erasesize = offset / d.erasesize := by
  rw [nextBlock_eq] at hlt
  have hupper := (Nat.div_lt_iff_lt_mul d.erasesize_pos).mpr hlt
  have hlower := Nat.div_le_div_right (c := d.erasesize) hle
  omega

theorem Device.good_of_lt_nextBlock {offset x : ℕ} (hle : offset ≤ x)
    (hlt : x < d.nextBlock offset) : d.good x = !d.bad (offset / d.erasesize) := by
  rw [good, d.div_eq_of_lt_nextBlock hle hlt]

theorem Device.blockStart_eq (offset : ℕ) :
    d.blockStart offset = offset / d.erasesize * d.erasesize := by
  have hdiv := Nat.div_add_mod' offset d.erasesize
  rw [blockStart, blockOffset_eq]
  omega

theorem nandBlockIsbad_of_lt {offset : ℕ} (h : offset < d.size) :
    nandBlockIsbad d (d.blockStart offset) = some (d.bad (offset / d.erasesize)) := by
  have hsize := d.size_le_pow
  have hstart : d.blockStart offset ≤ offset := Nat.sub_le _ _
  rw [nandBlockIsbad, if_neg (by omega), if_neg (by omega), if_neg (by omega), d.blockStart_eq,
    Nat.mul_div_cancel _ d.erasesize_pos]

theorem nandBlockIsbad_size : nandBlockIsbad d (d.blockStart d.size) = none := by
  have hsize := d.size_le_pow
  have hstart : d.blockStart d.size = d.size := by
    rw [d.blockStart_eq, Nat.div_mul_cancel d.erasesize_dvd_size]
  rw [hstart, nandBlockIsbad]
  split_ifs
  · rfl
  · exact absurd ‹d.size < d.size› (Nat.lt_irrefl _)
  · rfl
  · exact absurd rfl ‹¬ d.size = d.size›

/-! ## The good bytes -/

/-- The bytes of the good blocks in a stretch. -/
def Device.goodBytes (a b : ℕ) : List ℕ := positions d.good a b

/-- The number of them. -/
def Device.goodSpace (a b : ℕ) : ℕ := (d.goodBytes a b).length

theorem Device.goodSpace_append {a b c : ℕ} (hab : a ≤ b) (hbc : b ≤ c) :
    d.goodSpace a c = d.goodSpace a b + d.goodSpace b c := by
  rw [goodSpace, goodBytes, positions_append hab hbc, List.length_append]
  rfl

theorem Device.goodSpace_mono {a b c : ℕ} (h : b ≤ c) : d.goodSpace a b ≤ d.goodSpace a c :=
  length_positions_mono h

theorem Device.goodSpace_le (a b : ℕ) : d.goodSpace a b ≤ b - a := length_positions_le

theorem Device.goodBytes_self (a : ℕ) : d.goodBytes a a = [] := positions_of_le (Nat.le_refl a)

theorem Device.goodSpace_self (a : ℕ) : d.goodSpace a a = 0 := by
  rw [goodSpace, goodBytes_self, List.length_nil]

theorem Device.goodBytes_of_allGood {start len : ℕ} (h : d.AllGood start len) :
    d.goodBytes start (start + len) = List.range' start len := by
  rw [goodBytes, positions_of_forall, Nat.add_sub_cancel_left]
  intro x hle hlt
  have hx := h (x - start) (by omega)
  rwa [Nat.add_sub_cancel' hle] at hx

theorem Device.allGood_of_goodSpace {start len : ℕ} (h : len ≤ d.goodSpace start (start + len)) :
    d.AllGood start len := by
  have heq : (positions d.good start (start + len)).length = start + len - start := by
    refine Nat.le_antisymm length_positions_le ?_
    rw [Nat.add_sub_cancel_left]
    exact h
  intro k hk
  exact length_positions_eq_iff.mp heq (start + k) (Nat.le_add_right _ _) (by omega)

theorem Device.goodSpace_nextBlock (offset : ℕ) :
    d.goodSpace offset (d.nextBlock offset) =
      if d.bad (offset / d.erasesize) then 0 else d.erasesize - d.blockOffset offset := by
  cases hbad : d.bad (offset / d.erasesize) with
  | true =>
    rw [if_pos rfl, goodSpace, goodBytes, positions_of_forall_not, List.length_nil]
    intro x hle hlt
    rw [d.good_of_lt_nextBlock hle hlt, hbad]
    rfl
  | false =>
    rw [if_neg Bool.false_ne_true, goodSpace, goodBytes, positions_of_forall, List.length_range',
      nextBlock, Nat.add_sub_cancel_left]
    intro x hle hlt
    rw [d.good_of_lt_nextBlock hle hlt, hbad]
    rfl

/-! ## The space check -/

/-- Where the walk that began at `o` stops: behind enough good bytes, or past the middle. -/
def Device.Stop (o length e : ℕ) : Prop := length ≤ d.goodSpace o e ∨ o + d.size ≤ 2 * e

/-- The first end of a block behind an offset where the walk stops. -/
structure Device.FirstStop (o length offset e : ℕ) : Prop where
  lt : offset < e
  le : e ≤ d.size
  dvd : d.erasesize ∣ e
  stop : d.Stop o length e
  first : ∀ e', d.erasesize ∣ e' → offset < e' → e' < e → ¬d.Stop o length e'

theorem getLenLoop_eq {o length offset : ℕ} (hle : o ≤ offset) (hlt : offset < d.size)
    (hmore : d.goodSpace o offset < length) :
    ∃ e, getLenLoop d length offset (offset - o) (d.goodSpace o offset) = some (e - o) ∧
      d.FirstStop o length offset e := by
  induction hk : d.size - offset using Nat.strong_induction_on generalizing offset with
  | _ k ih =>
    subst hk
    have hnext := d.lt_nextBlock offset
    have hin := d.nextBlock_le d.erasesize_dvd_size hlt
    have hdvd := d.dvd_nextBlock offset
    have hfirst (e' : ℕ) (hdvd' : d.erasesize ∣ e') (hlt' : offset < e')
        (hlt'' : e' < d.nextBlock offset) : False :=
      absurd (d.nextBlock_le hdvd' hlt') (by omega)
    have hblock : offset + (d.erasesize - d.blockOffset offset) = d.nextBlock offset := rfl
    have hincl : offset - o + (d.erasesize - d.blockOffset offset) = d.nextBlock offset - o := by
      rw [← hblock]
      omega
    have hexcl : (if d.bad (offset / d.erasesize) then d.goodSpace o offset
        else d.goodSpace o offset + (d.erasesize - d.blockOffset offset)) =
          d.goodSpace o (d.nextBlock offset) := by
      rw [d.goodSpace_append hle hnext.le, d.goodSpace_nextBlock]
      split_ifs
      · rfl
      · rfl
    rw [getLenLoop, if_neg (by omega), nandBlockIsbad_of_lt d hlt]
    dsimp only
    rw [hexcl, hincl, hblock]
    by_cases hmid : o + d.size ≤ 2 * d.nextBlock offset
    · rw [if_pos (by omega)]
      exact ⟨_, rfl, hnext, hin, hdvd, .inr hmid, fun e' h₁ h₂ h₃ => (hfirst e' h₁ h₂ h₃).elim⟩
    · rw [if_neg (by omega)]
      by_cases henough : length ≤ d.goodSpace o (d.nextBlock offset)
      · rw [getLenLoop, if_pos henough]
        exact ⟨_, rfl, hnext, hin, hdvd, .inl henough,
          fun e' h₁ h₂ h₃ => (hfirst e' h₁ h₂ h₃).elim⟩
      · obtain ⟨e, heq, hstop⟩ := ih (d.size - d.nextBlock offset) (by omega)
          (hle.trans hnext.le) (by omega) (by omega) rfl
        refine ⟨e, heq, hnext.trans hstop.lt, hstop.le, hstop.dvd, hstop.stop, ?_⟩
        intro e' hdvd' hlt' hlt''
        rcases Nat.lt_trichotomy e' (d.nextBlock offset) with hbefore | rfl | hbehind
        · exact (hfirst e' hdvd' hlt' hbefore).elim
        · rintro (hgood | hhalf)
          · exact henough hgood
          · exact hmid hhalf
        · exact hstop.first e' hdvd' hbehind hlt''

/-! ## The loops -/

variable {d} (onBad : OnBad)

/-- The data stands in the first good bytes from the offset on, nothing else changed, and nothing
but good blocks of the device was programmed. -/
structure Stored (d : Device) (offset : ℕ) (data : List UInt8) (f f' : Flash) : Prop where
  bytes : ((d.goodBytes offset d.size).take data.length).map f'.mem = data
  others : ∀ x, x ∉ (d.goodBytes offset d.size).take data.length → f'.mem x = f.mem x
  programmed : ∀ p ∈ f'.programmed,
    p ∈ f.programmed ∨ (d.AllGood p.1 p.2 ∧ p.1 + p.2 ≤ d.size)

/-- The device behind a write of good blocks. -/
def Flash.stored (f : Flash) (start : ℕ) (data : List UInt8) : Flash :=
  ⟨storeAt f.mem start data, f.programmed ++ [(start, data.length)]⟩

theorem nandWrite_of_allGood (start : ℕ) {data : List UInt8} {f : Flash} (hne : data ≠ [])
    (hin : start + data.length ≤ d.size) (hgood : d.AllGood start data.length) :
    nandWrite d onBad start data f = ⟨f.stored start data, data.length, 0⟩ := by
  rw [nandWrite, if_neg (by omega), if_neg hne, if_pos hgood]
  rfl

theorem map_storeAt (mem : ℕ → UInt8) (start : ℕ) (data : List UInt8) :
    (List.range' start data.length).map (storeAt mem start data) = data := by
  refine List.ext_getElem (by rw [List.length_map, List.length_range']) fun k hk hk' => ?_
  rw [List.getElem_map, List.getElem_range', Nat.one_mul, storeAt,
    if_pos ⟨Nat.le_add_right _ _, Nat.add_lt_add_left hk' _⟩, Nat.add_sub_cancel_left,
    List.getD_eq_getElem?_getD, List.getElem?_eq_getElem hk', Option.getD_some]

theorem storeAt_of_notMem {mem : ℕ → UInt8} {start x : ℕ} {data : List UInt8}
    (h : x ∉ List.range' start data.length) : storeAt mem start data x = mem x := by
  rw [List.mem_range'_1] at h
  exact if_neg h

theorem goodBytes_take {offset n : ℕ} (hgood : d.AllGood offset n) (hin : offset + n ≤ d.size) :
    d.goodBytes offset d.size = List.range' offset n ++ d.goodBytes (offset + n) d.size := by
  rw [← d.goodBytes_of_allGood hgood]
  exact positions_append (Nat.le_add_right _ _) hin

theorem Stored.cons {offset n : ℕ} {data : List UInt8} {f f' : Flash} (hn : n ≤ data.length)
    (hgood : d.AllGood offset n) (hin : offset + n ≤ d.size)
    (hrest : Stored d (offset + n) (data.drop n) (f.stored offset (data.take n)) f') :
    Stored d offset data f f' := by
  have htake : (data.take n).length = n := List.length_take_of_le hn
  have hsplit : (d.goodBytes offset d.size).take data.length =
      List.range' offset n ++ (d.goodBytes (offset + n) d.size).take (data.drop n).length := by
    rw [goodBytes_take hgood hin, List.take_append, List.length_range', List.length_drop,
      List.take_of_length_le (by rw [List.length_range']; exact hn)]
  -- What is written behind the stretch does not reach back into it.
  have hfirst : (List.range' offset n).map f'.mem = data.take n := by
    have hmap := map_storeAt f.mem offset (data.take n)
    rw [htake] at hmap
    refine (List.map_congr_left fun x hx => ?_).trans hmap
    refine hrest.others x fun hmem => ?_
    have hbehind := (mem_positions.mp (List.mem_of_mem_take hmem)).1
    have hbefore := (List.mem_range'_1.mp hx).2
    omega
  refine ⟨?_, fun x hx => ?_, fun p hp => ?_⟩
  · rw [hsplit, List.map_append, hfirst, hrest.bytes, List.take_append_drop]
  · rw [hsplit, List.mem_append, not_or] at hx
    rw [hrest.others x hx.2]
    exact storeAt_of_notMem (by rw [htake]; exact hx.1)
  · rcases hrest.programmed p hp with hold | hnew
    · rcases List.mem_append.mp hold with hold | hnow
      · exact .inl hold
      · rw [List.mem_singleton.mp hnow, htake]
        exact .inr ⟨hgood, hin⟩
    · exact .inr hnew

theorem goodBytes_skip {offset : ℕ} (hlt : offset < d.size)
    (hbad : d.bad (offset / d.erasesize) = true) :
    d.goodBytes offset d.size = d.goodBytes (d.nextBlock offset) d.size := by
  have hnone : positions d.good offset (d.nextBlock offset) = [] := by
    rw [← List.length_eq_zero_iff]
    have hspace := d.goodSpace_nextBlock offset
    rwa [if_pos hbad] at hspace
  have happend := positions_append (p := d.good) (d.lt_nextBlock offset).le
    (d.nextBlock_le d.erasesize_dvd_size hlt)
  rw [hnone, List.nil_append] at happend
  exact happend

theorem allGood_block {offset n : ℕ} (hbad : d.bad (offset / d.erasesize) = false)
    (hn : n ≤ d.erasesize - d.blockOffset offset) : d.AllGood offset n := by
  intro k hk
  rw [d.good_of_lt_nextBlock (Nat.le_add_right _ _) (by rw [Device.nextBlock]; omega), hbad]
  rfl

theorem writeLoop_of_le (length : ℕ) {offset : ℕ} {data : List UInt8} {f : Flash}
    (hle : offset ≤ d.size) (hfits : data.length ≤ d.goodSpace offset d.size) :
    ∃ f', writeLoop d onBad length offset data f = some ⟨f', length, 0⟩ ∧
      Stored d offset data f f' := by
  induction hk : d.size - offset using Nat.strong_induction_on generalizing offset data f with
  | _ k ih =>
    subst hk
    rw [writeLoop]
    by_cases hnil : data = []
    · rw [if_pos hnil]
      subst hnil
      exact ⟨f, rfl, rfl, fun x _ => rfl, fun p hp => .inl hp⟩
    · rw [if_neg hnil]
      have hpos := List.length_pos_iff.mpr hnil
      have hlt : offset < d.size := by
        refine Nat.lt_of_le_of_ne hle fun heq => ?_
        rw [heq, d.goodSpace_self] at hfits
        omega
      have hnext := d.lt_nextBlock offset
      have hin := d.nextBlock_le d.erasesize_dvd_size hlt
      have hblock : offset + (d.erasesize - d.blockOffset offset) = d.nextBlock offset := rfl
      rw [nandBlockIsbad_of_lt d hlt]
      cases hbad : d.bad (offset / d.erasesize) with
      | true =>
        have hskip := goodBytes_skip hlt hbad
        dsimp only
        rw [hblock]
        rw [Device.goodSpace, hskip] at hfits
        obtain ⟨f', hrun, hstored⟩ := ih (d.size - d.nextBlock offset) (by omega) hin hfits rfl
        exact ⟨f', hrun, by rw [hskip]; exact hstored.bytes, by rw [hskip]; exact hstored.others,
          hstored.programmed⟩
      | false =>
        dsimp only
        obtain ⟨n, hn⟩ : ∃ n, n = min data.length (d.erasesize - d.blockOffset offset) := ⟨_, rfl⟩
        have hgood := allGood_block hbad (show n ≤ _ by omega)
        have htake : (data.take n).length = n := List.length_take_of_le (by omega)
        have hwrite := nandWrite_of_allGood (d := d) (f := f) onBad offset
          (List.ne_nil_of_length_pos (by omega : 0 < (data.take n).length))
          (by omega) (by rw [htake]; exact hgood)
        have hspace := congrArg List.length (goodBytes_take hgood (by omega))
        rw [List.length_append, List.length_range'] at hspace
        rw [← hn, hwrite, if_neg (not_not.mpr rfl)]
        obtain ⟨f', hrun, hstored⟩ := ih (d.size - (offset + n)) (by omega) (by omega)
          (show (data.drop n).length ≤ (d.goodBytes (offset + n) d.size).length by
            rw [List.length_drop]
            have hall : data.length ≤ (d.goodBytes offset d.size).length := hfits
            omega) rfl
        exact ⟨f', hrun, hstored.cons (by omega) hgood (by omega)⟩

theorem writeLoop_of_gt {offset length : ℕ} {data : List UInt8} {f : Flash}
    (hle : offset ≤ d.size) (hmore : d.goodSpace offset d.size < data.length) :
    writeLoop d onBad length offset data f = none := by
  induction hk : d.size - offset using Nat.strong_induction_on generalizing offset data f with
  | _ k ih =>
    subst hk
    have hnil : data ≠ [] := List.ne_nil_of_length_pos (by omega)
    rw [writeLoop, if_neg hnil]
    rcases Nat.lt_or_eq_of_le hle with hlt | rfl
    · have hnext := d.lt_nextBlock offset
      have hin := d.nextBlock_le d.erasesize_dvd_size hlt
      have hblock : offset + (d.erasesize - d.blockOffset offset) = d.nextBlock offset := rfl
      rw [nandBlockIsbad_of_lt d hlt]
      cases hbad : d.bad (offset / d.erasesize) with
      | true =>
        dsimp only
        rw [hblock]
        rw [Device.goodSpace, goodBytes_skip hlt hbad] at hmore
        exact ih (d.size - d.nextBlock offset) (by omega) hin hmore rfl
      | false =>
        dsimp only
        obtain ⟨n, hn⟩ : ∃ n, n = min data.length (d.erasesize - d.blockOffset offset) := ⟨_, rfl⟩
        have hgood := allGood_block hbad (show n ≤ _ by omega)
        have htake : (data.take n).length = n := List.length_take_of_le (by omega)
        have hpos := List.length_pos_iff.mpr hnil
        have hwrite := nandWrite_of_allGood (d := d) (f := f) onBad offset
          (List.ne_nil_of_length_pos (by omega : 0 < (data.take n).length))
          (by omega) (by rw [htake]; exact hgood)
        have hspace := congrArg List.length (goodBytes_take hgood (by omega))
        rw [List.length_append, List.length_range'] at hspace
        rw [← hn, hwrite, if_neg (not_not.mpr rfl)]
        refine ih (d.size - (offset + n)) (by omega) (by omega) ?_ rfl
        rw [List.length_drop]
        have hall : (d.goodBytes offset d.size).length < data.length := hmore
        show (d.goodBytes (offset + n) d.size).length < data.length - n
        omega
    · rw [nandBlockIsbad_size]

theorem readLoop_of_le {mem : ℕ → UInt8} {offset length left : ℕ} {buffer : List UInt8}
    (hle : offset ≤ d.size) (hfits : left ≤ d.goodSpace offset d.size) :
    readLoop d onBad mem length offset left buffer =
      some (buffer ++ ((d.goodBytes offset d.size).take left).map mem, length, 0) := by
  induction hk : d.size - offset using Nat.strong_induction_on generalizing offset left buffer with
  | _ k ih =>
    subst hk
    rw [readLoop]
    by_cases hzero : left = 0
    · rw [if_pos hzero, hzero, List.take_zero, List.map_nil, List.append_nil]
    · rw [if_neg hzero]
      have hlt : offset < d.size := by
        refine Nat.lt_of_le_of_ne hle fun heq => ?_
        rw [heq, d.goodSpace_self] at hfits
        omega
      have hnext := d.lt_nextBlock offset
      have hin := d.nextBlock_le d.erasesize_dvd_size hlt
      have hblock : offset + (d.erasesize - d.blockOffset offset) = d.nextBlock offset := rfl
      rw [nandBlockIsbad_of_lt d hlt]
      cases hbad : d.bad (offset / d.erasesize) with
      | true =>
        have hskip := goodBytes_skip hlt hbad
        dsimp only
        rw [hblock, hskip]
        rw [Device.goodSpace, hskip] at hfits
        exact ih (d.size - d.nextBlock offset) (by omega) hin hfits rfl
      | false =>
        dsimp only
        obtain ⟨n, hn⟩ : ∃ n, n = min left (d.erasesize - d.blockOffset offset) := ⟨_, rfl⟩
        have hgood := allGood_block hbad (show n ≤ _ by omega)
        have hread : nandRead d onBad offset n mem = ((List.range' offset n).map mem, n, 0) := by
          rw [nandRead, if_neg (by omega), if_neg (by omega), if_pos hgood]
        have hbytes := goodBytes_take hgood (by omega)
        have hspace := congrArg List.length hbytes
        rw [List.length_append, List.length_range'] at hspace
        have hall : left ≤ (d.goodBytes offset d.size).length := hfits
        have hfirst : (List.range' offset n).take left = List.range' offset n :=
          List.take_of_length_le (by rw [List.length_range']; omega)
        rw [← hn, hread, if_neg (not_not.mpr rfl),
          ih (d.size - (offset + n)) (by omega) (by omega)
            (show left - n ≤ (d.goodBytes (offset + n) d.size).length by omega) rfl,
          hbytes, List.take_append, hfirst, List.length_range', List.map_append, List.append_assoc]

/-! ## When the functions are correct -/

/-- Writing succeeds exactly when the data fits, whatever the chip does with bad blocks; and when it
does, the data is stored, and reading returns it. -/
def SkipBadCorrect (d : Device) (offset : ℕ) (data : List UInt8) : Prop :=
  ∀ onBad f, ∃ r, nandWriteSkipBad d onBad offset data f = some r ∧
    (r.rval = 0 ↔ data.length ≤ d.goodSpace offset d.size) ∧
    (r.rval = 0 → Stored d offset data f r.flash ∧
      nandReadSkipBad d onBad offset data.length r.flash.mem = some (data, data.length, 0))

/-- Offset and length are at pages. -/
structure Aligned (d : Device) (offset length : ℕ) : Prop where
  offset : offset % d.writesize = 0
  length : length % d.writesize = 0

variable {offset e : ℕ} {data : List UInt8} {f : Flash}

theorem nandWriteSkipBad_of_aligned (hal : Aligned d offset data.length) :
    nandWriteSkipBad d onBad offset data f =
      match getLenInclBad d offset data.length with
      | none => none
      | some lenInclBad =>
        if d.size ≤ offset + lenInclBad then some ⟨f, data.length, -22⟩
        else if lenInclBad = data.length then some (nandWrite d onBad offset data f)
        else writeLoop d onBad data.length offset data f := by
  have hmask (n : ℕ) : n &&& (d.writesize - 1) = n % d.writesize :=
    Nat.and_two_pow_sub_one_eq_mod _ _
  rw [nandWriteSkipBad, hmask, hmask, hal.offset, hal.length]
  exact if_neg (by decide)

theorem nandWriteSkipBad_none (hal : Aligned d offset data.length)
    (hlen : getLenInclBad d offset data.length = none) :
    nandWriteSkipBad d onBad offset data f = none := by
  rw [nandWriteSkipBad_of_aligned onBad hal, hlen]

theorem nandWriteSkipBad_eq {lenInclBad : ℕ} (hal : Aligned d offset data.length)
    (hlen : getLenInclBad d offset data.length = some lenInclBad) :
    nandWriteSkipBad d onBad offset data f =
      if d.size ≤ offset + lenInclBad then some ⟨f, data.length, -22⟩
      else if lenInclBad = data.length then some (nandWrite d onBad offset data f)
      else writeLoop d onBad data.length offset data f := by
  rw [nandWriteSkipBad_of_aligned onBad hal, hlen]

theorem nandReadSkipBad_eq (mem : ℕ → UInt8) {length lenInclBad : ℕ}
    (hlen : getLenInclBad d offset length = some lenInclBad) :
    nandReadSkipBad d onBad offset length mem =
      if d.size ≤ offset + lenInclBad then some ([], length, -22)
      else if lenInclBad = length then some (nandRead d onBad offset length mem)
      else readLoop d onBad mem length offset length [] := by
  rw [nandReadSkipBad, hlen]

theorem getLenInclBad_eq (hlt : offset < d.size) {length : ℕ} (hpos : 0 < length) :
    ∃ e, getLenInclBad d offset length = some (e - offset) ∧
      d.FirstStop offset length offset e := by
  have hself := d.goodSpace_self offset
  obtain ⟨e, heq, hstop⟩ := getLenLoop_eq d (Nat.le_refl offset) hlt (hself.trans_lt hpos)
  rw [hself, Nat.sub_self] at heq
  exact ⟨e, heq, hstop⟩

/-- A chip that programs and reads bad blocks without an error. -/
def noErrors : OnBad := ⟨fun _ _ mem => (mem, 0, 0), fun _ _ _ => ([], 0, 0)⟩

/-- A device before anything is programmed. -/
def blank : Flash := ⟨fun _ => 255, []⟩

theorem correct_of_refused {len : ℕ} (hal : Aligned d offset data.length)
    (hlen : getLenInclBad d offset data.length = some len) (hout : d.size ≤ offset + len) :
    SkipBadCorrect d offset data ↔ d.goodSpace offset d.size < data.length := by
  have hrun (onBad : OnBad) (f : Flash) :
      nandWriteSkipBad d onBad offset data f = some ⟨f, data.length, -22⟩ := by
    rw [nandWriteSkipBad_eq onBad hal hlen, if_pos (by omega)]
  constructor
  · intro hcorrect
    obtain ⟨r, hr, hiff, -⟩ := hcorrect noErrors blank
    obtain rfl := Option.some.inj (hr.symm.trans (hrun _ _))
    refine Nat.lt_of_not_le fun hfits => ?_
    exact absurd (hiff.mpr hfits) (show (-22 : ℤ) ≠ 0 by decide)
  · intro hmore onBad f
    refine ⟨_, hrun onBad f, ⟨fun h => ?_, fun h => ?_⟩, fun h => ?_⟩
    · exact absurd h (show (-22 : ℤ) ≠ 0 by decide)
    · exact absurd h (by omega)
    · exact absurd h (show (-22 : ℤ) ≠ 0 by decide)

theorem correct_of_loop (hal : Aligned d offset data.length)
    (hlen : getLenInclBad d offset data.length = some (e - offset)) (hlt : offset < d.size)
    (he : e < d.size) (hle : offset ≤ e) (hne : e - offset ≠ data.length)
    (hfits : data.length ≤ d.goodSpace offset d.size) : SkipBadCorrect d offset data := by
  intro onBad f
  obtain ⟨f', hrun, hstored⟩ := writeLoop_of_le onBad data.length hlt.le hfits (f := f)
  refine ⟨⟨f', data.length, 0⟩, ?_, ⟨fun _ => hfits, fun _ => rfl⟩, fun _ => ⟨hstored, ?_⟩⟩
  · rw [nandWriteSkipBad_eq onBad hal hlen, if_neg (by omega), if_neg hne, hrun]
  · rw [nandReadSkipBad_eq onBad _ hlen, if_neg (by omega), if_neg hne,
      readLoop_of_le onBad hlt.le hfits, List.nil_append, hstored.bytes]

theorem correct_of_allGood (hal : Aligned d offset data.length)
    (hlen : getLenInclBad d offset data.length = some data.length)
    (hin : offset + data.length < d.size) (hgood : d.AllGood offset data.length) :
    SkipBadCorrect d offset data := by
  intro onBad f
  have hfits : data.length ≤ d.goodSpace offset d.size := by
    have hbytes := congrArg List.length (goodBytes_take hgood hin.le)
    rw [List.length_append, List.length_range'] at hbytes
    exact (Nat.le_add_right _ _).trans_eq hbytes.symm
  have htake : (d.goodBytes offset d.size).take data.length = List.range' offset data.length := by
    rw [goodBytes_take hgood hin.le, List.take_left' List.length_range']
  have hwrite := nandWriteSkipBad_eq onBad hal hlen (f := f)
  have hread (mem : ℕ → UInt8) := nandReadSkipBad_eq onBad mem hlen
  rw [if_neg (by omega), if_pos rfl] at hwrite
  simp only [if_neg (show ¬d.size ≤ offset + data.length by omega), if_true] at hread
  by_cases hnil : data = []
  · subst hnil
    refine ⟨⟨f, 0, 0⟩, ?_, ⟨fun _ => hfits, fun _ => rfl⟩, fun _ => ⟨?_, ?_⟩⟩
    · rw [hwrite, nandWrite, if_neg (by omega), if_pos rfl]
    · exact ⟨rfl, fun x _ => rfl, fun p hp => .inl hp⟩
    · rw [hread, nandRead, if_neg (by omega), if_pos (show [].length = 0 from rfl)]
      rfl
  · have hpos := List.length_pos_iff.mpr hnil
    refine ⟨⟨f.stored offset data, data.length, 0⟩, ?_, ⟨fun _ => hfits, fun _ => rfl⟩,
      fun _ => ⟨⟨?_, fun x hx => ?_, fun p hp => ?_⟩, ?_⟩⟩
    · rw [hwrite, nandWrite_of_allGood onBad offset hnil hin.le hgood]
    · rw [htake]
      exact map_storeAt f.mem offset data
    · rw [htake] at hx
      exact storeAt_of_notMem hx
    · rcases List.mem_append.mp hp with hold | hnew
      · exact .inl hold
      · rw [List.mem_singleton.mp hnew]
        exact .inr ⟨hgood, hin.le⟩
    · rw [hread, nandRead, if_neg (by omega), if_neg (by omega), if_pos hgood]
      exact congrArg (fun bytes => some (bytes, data.length, (0 : ℤ)))
        (map_storeAt f.mem offset data)

theorem correct_of_enough (hal : Aligned d offset data.length)
    (hlen : getLenInclBad d offset data.length = some (e - offset)) (hlt : offset < e)
    (he : e < d.size) (henough : data.length ≤ d.goodSpace offset e) :
    SkipBadCorrect d offset data := by
  by_cases heq : e - offset = data.length
  · have hend : offset + data.length = e := by omega
    rw [heq] at hlen
    refine correct_of_allGood hal hlen (by omega) (d.allGood_of_goodSpace ?_)
    rw [hend]
    exact henough
  · exact correct_of_loop hal hlen (by omega) he hlt.le heq
      (henough.trans (d.goodSpace_mono he.le))

theorem correct_of_cut (hal : Aligned d offset data.length)
    (hlen : getLenInclBad d offset data.length = some (e - offset)) (hlt : offset < e)
    (he : e < d.size) (hshort : d.goodSpace offset e < data.length) :
    SkipBadCorrect d offset data ↔
      data.length ≤ d.goodSpace offset d.size ∧ data.length ≠ e - offset := by
  constructor
  · intro hcorrect
    obtain ⟨r, hr, hiff, hok⟩ := hcorrect noErrors blank
    rw [nandWriteSkipBad_eq _ hal hlen, if_neg (by omega)] at hr
    by_cases heq : e - offset = data.length
    · have hbad : ¬d.AllGood offset data.length := by
        intro hgood
        have hbytes := congrArg List.length (d.goodBytes_of_allGood hgood)
        rw [List.length_range', ← heq, Nat.add_sub_cancel' hlt.le] at hbytes
        have hspace : d.goodSpace offset e = e - offset := hbytes
        omega
      have hnil : data ≠ [] := List.ne_nil_of_length_pos (by omega)
      rw [if_pos heq, nandWrite, if_neg (by omega), if_neg hnil, if_neg hbad] at hr
      obtain rfl := Option.some.inj hr
      have hlogged := (hok rfl).1.programmed (offset, data.length) (List.mem_singleton_self _)
      rcases hlogged with hold | hnew
      · exact absurd hold List.not_mem_nil
      · exact absurd hnew.1 hbad
    · refine ⟨Nat.le_of_not_lt fun hmore => ?_, Ne.symm heq⟩
      rw [if_neg heq, writeLoop_of_gt _ (by omega) hmore] at hr
      exact absurd hr.symm (Option.some_ne_none r)
  · rintro ⟨hfits, hne⟩
    exact correct_of_loop hal hlen (by omega) he hlt.le hne.symm hfits

/-! ## The condition -/

/-- The first end of a block at or past the middle between an offset and the end. -/
def Device.middle (d : Device) (offset : ℕ) : ℕ :=
  (offset + d.size + 2 * d.erasesize - 1) / (2 * d.erasesize) * d.erasesize

/-- **When the functions are correct.**

Let `m` be the first end of a block at or past the middle between the offset and the end of the
device.  When `m` is the end, the data does not need the last block, or does not fit.  When it is
not, the data fits; and if its length is that from the offset to `m`, no block before `m` is bad.

Behind the end of the device, the block of the offset is not the one that follows the last; and some
data is asked for. -/
def Handled (d : Device) (offset n : ℕ) : Prop :=
  if offset < d.size then
    (d.middle offset = d.size →
      ¬(d.goodSpace offset (d.size - d.erasesize) < n ∧ n ≤ d.goodSpace offset d.size)) ∧
    (d.middle offset < d.size →
      n ≤ d.goodSpace offset d.size ∧ (n = d.middle offset - offset → d.AllGood offset n))
  else 0 < n ∧ d.size + d.erasesize ≤ offset ∧ offset < 2 ^ 31

theorem middle_le_iff (offset : ℕ) (hdvd : d.erasesize ∣ e) :
    d.middle offset ≤ e ↔ offset + d.size ≤ 2 * e := by
  obtain ⟨k, rfl⟩ := hdvd
  have hpos := d.erasesize_pos
  have hlt : (offset + d.size + 2 * d.erasesize - 1) / (2 * d.erasesize) < k + 1 ↔
      offset + d.size + 2 * d.erasesize - 1 < (k + 1) * (2 * d.erasesize) :=
    Nat.div_lt_iff_lt_mul (by omega)
  have hmul : (k + 1) * (2 * d.erasesize) = 2 * (d.erasesize * k) + 2 * d.erasesize := by ring
  rw [Device.middle, Nat.mul_comm d.erasesize k, Nat.mul_le_mul_right_iff hpos, ← Nat.lt_succ_iff,
    hlt, hmul, Nat.mul_comm d.erasesize k]
  omega

theorem erasesize_dvd_middle (d : Device) (offset : ℕ) : d.erasesize ∣ d.middle offset :=
  Nat.dvd_mul_left _ _

theorem middle_le_size (hlt : offset < d.size) : d.middle offset ≤ d.size :=
  (middle_le_iff offset d.erasesize_dvd_size).mpr (by omega)

theorem lt_middle (hlt : offset < d.size) : offset < d.middle offset := by
  have hle := (middle_le_iff offset (erasesize_dvd_middle d offset)).mp (Nat.le_refl _)
  omega

theorem Device.FirstStop.le_middle {n : ℕ} (hs : d.FirstStop offset n offset e)
    (hlt : offset < d.size) : e ≤ d.middle offset := by
  refine Nat.le_of_not_lt fun hbefore => ?_
  refine hs.first _ (erasesize_dvd_middle d offset) (lt_middle hlt) hbefore (.inr ?_)
  exact (middle_le_iff offset (erasesize_dvd_middle d offset)).mp (Nat.le_refl _)

theorem handled_of_refused {n : ℕ} (hs : d.FirstStop offset n offset d.size)
    (hlt : offset < d.size) (hn : 0 < n) : Handled d offset n ↔ d.goodSpace offset d.size < n := by
  have hmiddle : d.middle offset = d.size :=
    Nat.le_antisymm (middle_le_size hlt) (hs.le_middle hlt)
  have hpos := d.erasesize_pos
  have hlast : d.goodSpace offset (d.size - d.erasesize) < n := by
    rcases Nat.lt_or_ge offset (d.size - d.erasesize) with hbefore | hbehind
    · have hdvd := Nat.dvd_sub d.erasesize_dvd_size (dvd_refl d.erasesize)
      exact Nat.lt_of_not_le fun hfits => hs.first _ hdvd hbefore (by omega) (.inl hfits)
    · rw [Device.goodSpace, Device.goodBytes, positions_of_le hbehind]
      exact hn
  rw [Handled, if_pos hlt]
  constructor
  · intro h
    exact Nat.lt_of_not_le fun hfits => h.1 hmiddle ⟨hlast, hfits⟩
  · intro h
    exact ⟨fun _ hboth => absurd hboth.2 (by omega), fun hbefore => absurd hmiddle hbefore.ne⟩

theorem handled_of_enough {n : ℕ} (hs : d.FirstStop offset n offset e) (hlt : offset < d.size)
    (he : e < d.size) (henough : n ≤ d.goodSpace offset e) : Handled d offset n := by
  have hle := hs.le_middle hlt
  rw [Handled, if_pos hlt]
  refine ⟨fun hmiddle hboth => ?_, fun hbefore => ⟨henough.trans (d.goodSpace_mono he.le), ?_⟩⟩
  · obtain ⟨k, hk⟩ := hs.dvd
    obtain ⟨m, hm⟩ := d.erasesize_dvd_size
    -- The last block begins at or behind the end of the walk.
    have hlast : e ≤ d.size - d.erasesize := by
      have hkm : k < m := Nat.lt_of_mul_lt_mul_left (hk ▸ hm ▸ he : d.erasesize * k < _)
      have hmul := Nat.mul_le_mul_left d.erasesize (Nat.succ_le_of_lt hkm)
      rw [Nat.mul_succ] at hmul
      omega
    have hmono := d.goodSpace_mono (a := offset) hlast
    omega
  · intro hn
    have hspace := d.goodSpace_le offset e
    have hend : e = offset + n := by
      have hstart := hs.lt
      omega
    rw [hend] at henough
    exact d.allGood_of_goodSpace henough

theorem handled_of_cut {n : ℕ} (hs : d.FirstStop offset n offset e) (hlt : offset < d.size)
    (he : e < d.size) (hshort : d.goodSpace offset e < n) :
    Handled d offset n ↔ n ≤ d.goodSpace offset d.size ∧ n ≠ e - offset := by
  have hmiddle : d.middle offset = e := by
    refine Nat.le_antisymm ((middle_le_iff offset hs.dvd).mpr ?_) (hs.le_middle hlt)
    exact hs.stop.resolve_left (Nat.not_le_of_lt hshort)
  rw [Handled, if_pos hlt, hmiddle]
  constructor
  · rintro ⟨-, h⟩
    obtain ⟨hfits, hbad⟩ := h he
    refine ⟨hfits, fun hn => ?_⟩
    have hbytes := congrArg List.length (d.goodBytes_of_allGood (hbad hn))
    rw [List.length_range', hn, Nat.add_sub_cancel' hs.lt.le] at hbytes
    have hspace : d.goodSpace offset e = e - offset := hbytes
    omega
  · rintro ⟨hfits, hne⟩
    exact ⟨fun heq => absurd heq he.ne, fun _ => ⟨hfits, fun hn => absurd hn hne⟩⟩

theorem le_blockStart_iff (offset : ℕ) {m : ℕ} (hdvd : d.erasesize ∣ m) :
    m ≤ d.blockStart offset ↔ m ≤ offset := by
  obtain ⟨k, rfl⟩ := hdvd
  rw [d.blockStart_eq, Nat.mul_comm, Nat.mul_le_mul_right_iff d.erasesize_pos,
    Nat.le_div_iff_mul_le d.erasesize_pos]

theorem erasesize_dvd_two_pow (d : Device) : d.erasesize ∣ 2 ^ 31 :=
  Nat.pow_dvd_pow 2 (d.erase_le_size.trans (d.size_le.trans (by decide)))

theorem nandBlockIsbad_of_ge (hout : d.size ≤ offset) :
    nandBlockIsbad d (d.blockStart offset) =
      if d.size + d.erasesize ≤ offset ∧ offset < 2 ^ 31 then some true else none := by
  have hin := (le_blockStart_iff offset d.erasesize_dvd_size).mpr hout
  have hnext := le_blockStart_iff offset
    (Nat.dvd_add d.erasesize_dvd_size (dvd_refl d.erasesize))
  have hoff := le_blockStart_iff offset (erasesize_dvd_two_pow d)
  have hpos := d.erasesize_pos
  rw [nandBlockIsbad]
  by_cases hneg : 2 ^ 31 ≤ offset
  · rw [if_pos (hoff.mpr hneg), if_neg (by omega)]
  · rw [if_neg (by omega)]
    by_cases hfar : d.size + d.erasesize ≤ offset
    · have hstart := hnext.mpr hfar
      rw [if_pos (by omega), if_pos ⟨hfar, by omega⟩]
    · have hstart : ¬d.size + d.erasesize ≤ d.blockStart offset := fun h => hfar (hnext.mp h)
      have heq : d.blockStart offset = d.size := by
        refine Nat.le_antisymm (Nat.le_of_not_lt fun hlt => hstart ?_) hin
        have hdvd : d.erasesize ∣ d.blockStart offset := by
          rw [d.blockStart_eq]
          exact Nat.dvd_mul_left _ _
        have hzero : d.blockOffset d.size = 0 := by
          rw [d.blockOffset_eq]
          exact Nat.mod_eq_zero_of_dvd d.erasesize_dvd_size
        have hle := d.nextBlock_le hdvd hlt
        rwa [Device.nextBlock, hzero, Nat.sub_zero] at hle
      rw [heq, if_neg (Nat.lt_irrefl _), if_pos rfl, if_neg fun h => hfar h.1]

theorem correct_of_outside (hal : Aligned d offset data.length) (hout : d.size ≤ offset) :
    SkipBadCorrect d offset data ↔
      0 < data.length ∧ d.size + d.erasesize ≤ offset ∧ offset < 2 ^ 31 := by
  have hspace : d.goodSpace offset d.size = 0 := by
    rw [Device.goodSpace, Device.goodBytes, positions_of_le hout, List.length_nil]
  -- Whatever length the walk comes to, the check refuses it.
  have hrefused {len : ℕ} (hlen : getLenInclBad d offset data.length = some len) :
      SkipBadCorrect d offset data ↔ 0 < data.length := by
    rw [correct_of_refused hal hlen (by omega), hspace]
  rcases Nat.eq_zero_or_pos data.length with hzero | hpos
  · have hlen : getLenInclBad d offset data.length = some 0 := by
      rw [getLenInclBad, getLenLoop, if_pos hzero.le]
    rw [hrefused hlen]
    exact ⟨fun h => absurd h (by omega), fun h => h.1⟩
  · have hblock := nandBlockIsbad_of_ge hout
    split_ifs at hblock with hfar
    · have hlen : getLenInclBad d offset data.length =
          some (d.erasesize - d.blockOffset offset) := by
        rw [getLenInclBad, getLenLoop, if_neg (by omega), hblock]
        dsimp only
        rw [if_pos (by omega), Nat.zero_add]
      rw [hrefused hlen]
      exact ⟨fun h => ⟨h, hfar⟩, fun h => h.1⟩
    · have hlen : getLenInclBad d offset data.length = none := by
        rw [getLenInclBad, getLenLoop, if_neg (by omega), hblock]
      refine ⟨fun hcorrect => ?_, fun h => absurd h.2 hfar⟩
      obtain ⟨r, hr, -⟩ := hcorrect noErrors blank
      rw [nandWriteSkipBad_none _ hal hlen] at hr
      exact absurd hr.symm (Option.some_ne_none r)

/-- **Exactly when the functions are correct.** -/
theorem skipBad_correct_iff (d : Device) (offset : ℕ) (data : List UInt8)
    (hal : Aligned d offset data.length) :
    SkipBadCorrect d offset data ↔ Handled d offset data.length := by
  by_cases hlt : offset < d.size
  · rcases Nat.eq_zero_or_pos data.length with hzero | hpos
    · have hlen : getLenInclBad d offset data.length = some data.length := by
        rw [getLenInclBad, getLenLoop, if_pos hzero.le, hzero]
      have hnone : d.AllGood offset data.length := fun k hk => absurd hk (by omega)
      have hcorrect := correct_of_allGood hal hlen (by omega) hnone
      refine ⟨fun _ => ?_, fun _ => hcorrect⟩
      rw [Handled, if_pos hlt]
      exact ⟨fun _ h => absurd h.1 (by omega), fun _ => ⟨by omega, fun _ => hnone⟩⟩
    · obtain ⟨e, hlen, hs⟩ := getLenInclBad_eq hlt hpos
      rcases Nat.lt_or_eq_of_le hs.le with he | rfl
      · by_cases henough : data.length ≤ d.goodSpace offset e
        · exact ⟨fun _ => handled_of_enough hs hlt he henough,
            fun _ => correct_of_enough hal hlen hs.lt he henough⟩
        · have hshort := Nat.lt_of_not_le henough
          rw [correct_of_cut hal hlen hs.lt he hshort, handled_of_cut hs hlt he hshort]
      · rw [correct_of_refused hal hlen (by omega), handled_of_refused hs hlt hpos]
  · have hout := Nat.le_of_not_lt hlt
    rw [correct_of_outside hal hout, Handled, if_neg hlt]

/-- A device of 128 MiB with blocks of 128 KiB and pages of 2 KiB, all of them good. -/
def goodDevice : Device where
  eraseShift := 17
  sizeShift := 27
  writeShift := 11
  write_le_erase := by decide
  erase_le_size := by decide
  erase_le := by decide
  size_le := by decide
  bad _ := false

theorem skipBad_correct_iff_page :
    Aligned goodDevice 0 (List.replicate 2048 (0 : UInt8)).length ∧
      (SkipBadCorrect goodDevice 0 (List.replicate 2048 0) ↔
        Handled goodDevice 0 (List.replicate 2048 (0 : UInt8)).length) := by
  have hal : Aligned goodDevice 0 (List.replicate 2048 (0 : UInt8)).length := by
    rw [List.length_replicate]
    exact ⟨rfl, rfl⟩
  exact ⟨hal, skipBad_correct_iff goodDevice 0 (List.replicate 2048 0) hal⟩

/-- A write of one block to the last block is refused, though it fits. -/
theorem not_skipBad_correct :
    ¬ ∀ d offset data, Aligned d offset data.length → SkipBadCorrect d offset data := by
  intro hall
  obtain ⟨data, hdata⟩ : ∃ data : List UInt8, data.length = 131072 :=
    ⟨List.replicate 131072 0, List.length_replicate⟩
  have hsize : goodDevice.size = 134217728 := rfl
  have herase : goodDevice.erasesize = 131072 := rfl
  have hal : Aligned goodDevice 134086656 data.length := by
    rw [hdata]
    exact ⟨rfl, rfl⟩
  obtain ⟨e, hlen, hs⟩ := @getLenInclBad_eq goodDevice 134086656 (by omega) data.length (by omega)
  have he : e = goodDevice.size := by
    have hlt := hs.lt
    have hle := hs.le
    have hdvd := hs.dvd
    rw [herase] at hdvd
    omega
  have hshort := (correct_of_refused hal hlen (by omega)).mp (hall _ _ _ hal)
  have hgood : goodDevice.AllGood 134086656 131072 := fun _ _ => rfl
  have hspace := congrArg List.length (goodDevice.goodBytes_of_allGood hgood)
  rw [List.length_range'] at hspace
  have hfull : goodDevice.goodSpace 134086656 goodDevice.size = 131072 := hspace
  omega

end Nand
end EmevBsp
