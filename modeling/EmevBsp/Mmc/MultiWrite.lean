import EmevBsp.Mmc.SdioWrite
import EmevBsp.Mmc.SdcWrite

/-!
# Many blocks at once

A request is a first block, a number of blocks and a buffer, or a null pointer for blocks of zeros.
Each driver should leave on the card what single blocks leave there.
-/

namespace EmevBsp
namespace Mmc

/-! ## What it should be -/

/-- The two controllers with their cards and no transfer, and the memory. -/
structure Board (card : Card) where
  fuel : ℕ
  mem : Memory
  sdio : Sdio.Host
  sdc : Sdc.Host
  sdioIdle : Sdio.Idle fuel card.accMode sdio
  sdcIdle : Sdc.Idle fuel card.accMode sdc

/-- The arguments of `multi_write`: the number is an `int`, the blocks are on the card, and a buffer
is an object of the memory. -/
structure Request (card : Card) where
  addr : Word
  buf : Word
  num : Word
  isInt : num.toNat < 2 ^ 31
  onCard : addr.toNat + num.toNat ≤ card.totalBlk.toNat
  fits : buf ≠ 0 → buf.toNat + 512 * num.toNat ≤ 2 ^ 32

variable {card : Card}

/-- The blocks that a request has written. -/
def Request.data (r : Request card) (mem : Memory) : List (List (BitVec 8)) :=
  (List.range r.num.toNat).map fun k =>
    if r.buf = 0 then List.replicate 512 0 else mem.block (r.buf + BitVec.ofNat 32 (512 * k))

/-- `n` single blocks, one after the other, with the pointer into the buffer. -/
def singles {σ : Type} (write : Word → Word → σ → Option (Word × σ)) (buf : Word) :
    ℕ → Word → Word → σ → Option σ
  | 0, _, _, s => some s
  | n + 1, addr, p, s =>
    (write addr p s).bind fun (ret, s) =>
      if ret ≠ 0 then none else singles write buf n (addr + 1) (nextBuf buf p) s

/-- Both drivers return without an error, with the data of the request on the card and nothing else
changed, and so does a driver that writes single blocks. -/
structure Right (b : Board card) (r : Request card) : Prop where
  sdio : ∃ s, Sdio.sdioMultiWrite b.fuel b.mem r.addr r.buf r.num b.sdio = some (0, s) ∧
    s.blocks = overwrite b.sdio.blocks r.addr.toNat (r.data b.mem)
  sdc : ∃ s, Sdc.sdcMultiWrite b.fuel b.mem r.addr r.buf r.num b.sdc = some (0, s) ∧
    s.blocks = overwrite b.sdc.blocks r.addr.toNat (r.data b.mem)
  sdioSingles : ∃ s, singles (Sdio.sdioSingleWrite b.fuel b.mem) r.buf r.num.toNat r.addr r.buf
      b.sdio = some s ∧ s.blocks = overwrite b.sdio.blocks r.addr.toNat (r.data b.mem)
  sdcSingles : ∃ s, singles (Sdc.sdcSingleWrite b.fuel b.mem) r.buf r.num.toNat r.addr r.buf
      b.sdc = some s ∧ s.blocks = overwrite b.sdc.blocks r.addr.toNat (r.data b.mem)

/-! ## Requests -/

variable (b : Board card) (r : Request card)

theorem Request.toInt_num : r.num.toInt.toNat = r.num.toNat := by
  rw [BitVec.toInt_eq_toNat_of_lt (by have := r.isInt; omega), Int.toNat_natCast]

theorem Request.addr_lt {k : ℕ} (hk : k < r.num.toNat) (h : card.accMode = false) :
    r.addr.toNat + k < 2 ^ 23 := by
  have hcard := card.byteAddressed h
  have hon := r.onCard
  omega

theorem Request.place_ne_zero (hbuf : r.buf ≠ 0) {k : ℕ} (hk : k < r.num.toNat) :
    r.buf + BitVec.ofNat 32 (512 * k) ≠ 0 := by
  intro hzero
  have hfits := r.fits hbuf
  have hpos : r.buf.toNat ≠ 0 := fun h => hbuf (BitVec.eq_of_toNat_eq h)
  have hsum := congrArg BitVec.toNat hzero
  rw [BitVec.toNat_add, BitVec.toNat_ofNat] at hsum
  change _ = 0 at hsum
  omega

theorem Request.data_eq_map (mem : Memory) {f : Word → List (BitVec 8)}
    (hnull : r.buf = 0 → f 0 = List.replicate 512 0)
    (hbuf : ∀ p, r.buf ≠ 0 → p ≠ 0 → f p = mem.block p) :
    ((List.range r.num.toNat).map fun k => f ((nextBuf r.buf)^[k] r.buf)) = r.data mem := by
  refine List.map_congr_left fun k hk => ?_
  rw [iterate_nextBuf]
  by_cases h : r.buf = 0
  · rw [if_pos h, if_pos h, h, hnull h]
  · rw [if_neg h, if_neg h]
    exact hbuf _ h (r.place_ne_zero h (List.mem_range.mp hk))

theorem Request.data_given (mem : Memory) :
    ((List.range r.num.toNat).map fun k => mem.given ((nextBuf r.buf)^[k] r.buf)) = r.data mem :=
  r.data_eq_map mem (fun _ => if_pos rfl) fun _ _ hp => if_neg hp

theorem Request.data_roundData (mem : Memory) :
    ((List.range r.num.toNat).map fun k => roundData mem r.buf ((nextBuf r.buf)^[k] r.buf)) =
      r.data mem :=
  r.data_eq_map mem (fun h => if_pos h) fun _ h _ => if_neg h

/-! ## Single blocks -/

theorem singles_eq {ρ : Type}
    {write : Word → Word → Port ρ (BitVec 8) → Option (Word × Port ρ (BitVec 8))}
    {P : Port ρ (BitVec 8) → Prop} {mem : Memory} {buf : Word} {stop : ℕ}
    (hstop : stop < 2 ^ 32)
    (hwrite : ∀ (addr p : Word) s, addr.toNat < stop → P s →
      ∃ t, write addr p s = some (0, t) ∧ P t ∧
        t.blocks = Function.update s.blocks addr.toNat (mem.given p))
    {n : ℕ} {addr p : Word} {s : Port ρ (BitVec 8)} (hs : P s) (hn : addr.toNat + n ≤ stop) :
    ∃ t, singles write buf n addr p s = some t ∧
      t.blocks = overwrite s.blocks addr.toNat
        ((List.range n).map fun k => mem.given ((nextBuf buf)^[k] p)) := by
  induction n generalizing addr p s with
  | zero => exact ⟨s, rfl, by simp⟩
  | succ n ih =>
    obtain ⟨t, hrun, ht, hblocks⟩ := hwrite addr p s (by omega) hs
    have hnext : (addr + 1).toNat = addr.toNat + 1 := by
      rw [BitVec.toNat_add]
      exact Nat.mod_eq_of_lt (by change addr.toNat + 1 < _; omega)
    obtain ⟨u, hrest, hublocks⟩ := ih (p := nextBuf buf p) ht
      (show (addr + 1).toNat + n ≤ stop by omega)
    refine ⟨u, by rw [singles, hrun]; exact hrest, ?_⟩
    rw [hublocks, hblocks, hnext, List.range_succ_eq_map, List.map_cons, overwrite_cons,
      List.map_map]
    rfl

theorem sdioSingles_eq :
    ∃ s, singles (Sdio.sdioSingleWrite b.fuel b.mem) r.buf r.num.toNat r.addr r.buf b.sdio =
        some s ∧
      s.blocks = overwrite b.sdio.blocks r.addr.toNat (r.data b.mem) := by
  rw [← r.data_given]
  exact singles_eq card.totalBlk.isLt (P := Sdio.Idle b.fuel card.accMode)
    (fun addr p s haddr hs => Sdio.sdioSingleWrite_eq b.mem p hs fun h =>
      lt_of_lt_of_le haddr (card.byteAddressed h)) b.sdioIdle r.onCard

theorem sdcSingles_eq :
    ∃ s, singles (Sdc.sdcSingleWrite b.fuel b.mem) r.buf r.num.toNat r.addr r.buf b.sdc =
        some s ∧
      s.blocks = overwrite b.sdc.blocks r.addr.toNat (r.data b.mem) := by
  rw [← r.data_given]
  exact singles_eq card.totalBlk.isLt (P := Sdc.Idle b.fuel card.accMode)
    (fun addr p s haddr hs => Sdc.sdcSingleWrite_eq b.mem p hs fun h =>
      lt_of_lt_of_le haddr (card.byteAddressed h)) b.sdcIdle r.onCard

/-! ## Many blocks -/

variable {b r}

theorem Memory.block_eq_zeros_iff {mem : Memory} {p : Word} :
    mem.block p = List.replicate 512 0 ↔ ∀ i < 512, mem (p + BitVec.ofNat 32 i) = 0 := by
  rw [List.eq_replicate_iff, Memory.length_block]
  simp [Memory.block]

theorem sdioData_eq_iff {mem : Memory} :
    ((List.range r.num.toNat).map fun k => mem.block ((· + (512 : Word))^[k] r.buf)) = r.data mem ↔
      (r.buf = 0 → ∀ a < 512 * r.num.toNat, mem (BitVec.ofNat 32 a) = 0) := by
  by_cases hbuf : r.buf = 0
  · have hzero : ∀ p : Word, 0 + p = p := fun p => BitVec.zero_add p
    simp only [hbuf, Request.data, iterate_add_block, if_true, forall_const, hzero]
    rw [List.map_inj_left]
    constructor
    · intro h a ha
      have hblock := Memory.block_eq_zeros_iff.mp
        (h (a / 512) (List.mem_range.mpr (Nat.div_lt_of_lt_mul ha))) (a % 512)
        (Nat.mod_lt a (by decide))
      rwa [← BitVec.ofNat_add, Nat.div_add_mod] at hblock
    · intro h k hk
      refine Memory.block_eq_zeros_iff.mpr fun i hi => ?_
      have hk' := List.mem_range.mp hk
      rw [← BitVec.ofNat_add]
      exact h _ (by omega)
  · simp only [hbuf, Request.data, iterate_add_block, if_false, IsEmpty.forall_iff]

theorem Right.count (h : Right b r) :
    0 < r.num.toNat ∧ r.num.toNat < 65536 ∧ r.num.toNat < 2 ^ b.sdc.regs.secBits := by
  obtain ⟨s, hs, -⟩ := h.sdio
  obtain ⟨t, ht, -⟩ := h.sdc
  refine ⟨Nat.pos_of_ne_zero fun hzero => ?_, Nat.lt_of_not_le fun hbig => ?_,
    Nat.lt_of_not_le fun hbig => ?_⟩
  · rw [Sdio.sdioMultiWrite_eq_none b.mem r.buf b.sdioIdle r.toInt_num (Or.inl hzero)] at hs
    exact absurd hs (Option.some_ne_none _).symm
  · rw [Sdio.sdioMultiWrite_eq_none b.mem r.buf b.sdioIdle r.toInt_num (Or.inr hbig)] at hs
    exact absurd hs (Option.some_ne_none _).symm
  · rw [Sdc.sdcMultiWrite_eq_none b.mem r.buf b.sdcIdle r.toInt_num hbig] at ht
    exact absurd ht (Option.some_ne_none _).symm

theorem Right.zeros (h : Right b r) :
    r.buf = 0 → ∀ a < 512 * r.num.toNat, b.mem (BitVec.ofNat 32 a) = 0 := by
  obtain ⟨hpos, hnum, -⟩ := h.count
  obtain ⟨s, hs, hblocks⟩ := h.sdio
  obtain ⟨s', hs', hblocks'⟩ := Sdio.sdioMultiWrite_eq b.mem r.buf b.sdioIdle
    (r.addr_lt hpos) r.toInt_num hpos hnum
  obtain rfl : s' = s := by
    rw [hs] at hs'
    exact (Prod.mk.inj (Option.some.inj hs')).2.symm
  refine sdioData_eq_iff.mp (overwrite_inj ?_ (hblocks'.symm.trans hblocks))
  rw [Request.data, List.length_map, List.length_map]

/-- **When both drivers agree with single blocks.** -/
theorem multiWrite_right_iff (b : Board card) (r : Request card) :
    Right b r ↔
      (0 < r.num.toNat ∧ r.num.toNat < 65536 ∧ r.num.toNat < 2 ^ b.sdc.regs.secBits) ∧
        (r.buf = 0 → ∀ a < 512 * r.num.toNat, b.mem (BitVec.ofNat 32 a) = 0) := by
  refine ⟨fun h => ⟨h.count, h.zeros⟩, ?_⟩
  rintro ⟨⟨hpos, hnum, hsec⟩, hzeros⟩
  have haddr := r.addr_lt hpos
  obtain ⟨s, hs, hsblocks⟩ :=
    Sdio.sdioMultiWrite_eq b.mem r.buf b.sdioIdle haddr r.toInt_num hpos hnum
  obtain ⟨t, ht, htblocks⟩ :=
    Sdc.sdcMultiWrite_eq b.mem r.buf b.sdcIdle haddr r.toInt_num hpos hsec
  rw [sdioData_eq_iff.mpr hzeros] at hsblocks
  rw [r.data_roundData] at htblocks
  exact ⟨⟨s, hs, hsblocks⟩, ⟨t, ht, htblocks⟩, sdioSingles_eq b r, sdcSingles_eq b r⟩

/-! ## A null pointer -/

/-- A card of 65536 blocks that is addressed by block, and a memory with a one at 0. -/
def nullBoard : Board ⟨0x10000, 1, true, by decide⟩ where
  fuel := 1
  mem p := if p = 0 then 1 else 0
  sdio := ⟨⟨512, 0, 0, 0, true, 0, 0⟩, fun _ => List.replicate 512 0, 0, 0, []⟩
  sdc := ⟨⟨0, 0, 0, 0, 512, 0, 0, 32, true, 0, 0⟩, fun _ => List.replicate 512 0, 0, 0, []⟩
  sdioIdle := ⟨rfl, rfl, Nat.one_pos⟩
  sdcIdle := ⟨rfl, rfl, Nat.one_pos⟩

/-- One block of zeros. -/
def nullRequest : Request ⟨0x10000, 1, true, by decide⟩ where
  addr := 0
  buf := 0
  num := 1
  isInt := by decide
  onCard := by decide
  fits h := absurd rfl h

/-- **A block of zeros is not written as zeros.** -/
theorem not_right_nullBuffer : ¬ Right nullBoard nullRequest := by
  intro h
  have hzero : nullBoard.mem 0 = 0 := h.zeros rfl 0 (by decide)
  exact absurd hzero (by decide)

end Mmc
end EmevBsp
