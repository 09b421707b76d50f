import EmevBsp.Mmc.BlockLoop

/-!
# `sdc_multi_write`

The count of a transfer is what `SDM_SECCNT` holds of it.

* `Filling`, `Streaming`: what holds before a block of a transfer.
* `sdcSingleWrite_eq`: `sdc_single_write` stores the block it is given.
* `sdcMultiWrite_eq`: **the blocks that `sdc_multi_write` stores are those it is given.**
* `sdcMultiWrite_eq_none`: with more blocks than the register counts it never returns.
-/

namespace EmevBsp
namespace Mmc
namespace Sdc

variable {fuel : ℕ} {accMode : Bool} {s : Host}

/-- A controller without a transfer, for a card. -/
structure Idle (fuel : ℕ) (accMode : Bool) (s : Host) : Prop where
  size : s.regs.size.toNat = 512
  accMode : s.regs.accMode = accMode
  pause : s.regs.pause < fuel

/-- The state with the status to show after `n` reads. -/
def showsAfter (s : Host) (n : ℕ) : Host :=
  { s with regs := { s.regs with late := n } }

/-- The status while `n` blocks are wanted. -/
def wantInfo2 (n : ℕ) : Word := if n = 0 then 0 else info2Bwe

theorem wantInfo2_errs (n : ℕ) : wantInfo2 n &&& info2ErrAll = 0 := by
  by_cases hn : n = 0
  · rw [wantInfo2, if_pos hn]
    decide
  · rw [wantInfo2, if_neg hn]
    decide

/-- A transfer goes on: nothing of the next block is there, or there is no next block. -/
structure Filling (fuel : ℕ) (accMode : Bool) (s : Host) : Prop extends Idle fuel accMode s where
  fifo : s.fifo = []
  late : s.regs.late ≤ s.regs.pause
  errs : s.regs.info2 &&& info2ErrAll = 0
  ended : s.left = 0 → s.regs.info1 &&& info1ResRwEnd ≠ 0

/-- The next block of a transfer is wanted, or there is no next block. -/
structure Streaming (fuel : ℕ) (accMode : Bool) (s : Host) : Prop
    extends Filling fuel accMode s where
  info2 : s.regs.info2 = wantInfo2 s.left

/-! ## Waiting -/

theorem inl_info1_zero : inl .info1 (showsAfter s 0) = (s.regs.info1, showsAfter s 0) := rfl

theorem inl_info2_zero : inl .info2 (showsAfter s 0) = (s.regs.info2, showsAfter s 0) := rfl

theorem inl_info1_succ (n : ℕ) : inl .info1 (showsAfter s (n + 1)) = (0, showsAfter s n) := rfl

theorem inl_info2_succ (n : ℕ) : inl .info2 (showsAfter s (n + 1)) = (0, showsAfter s n) := rfl

theorem poll_showsAfter {γ : Type} {look : Host → Option γ × Host} {r : γ}
    (hlate : ∀ n, ∃ m ≤ n, look (showsAfter s (n + 1)) = (none, showsAfter s m))
    (hdone : look (showsAfter s 0) = (some r, showsAfter s 0)) (hfuel : s.regs.late < fuel) :
    poll look fuel s = some (r, showsAfter s 0) :=
  poll_of_countdown (showsAfter s) hlate hdone hfuel

theorem read_info2 (n : ℕ) :
    ∃ m ≤ n, inl .info2 (showsAfter s n) = (0, showsAfter s m) ∨
      inl .info2 (showsAfter s n) = (s.regs.info2, showsAfter s m) := by
  cases n with
  | zero => exact ⟨0, le_rfl, Or.inr rfl⟩
  | succ n => exact ⟨n, Nat.le_succ n, Or.inl rfl⟩

theorem poll_lookResponse (hend : s.regs.info1 &&& info1ResEnd ≠ 0)
    (herrs : s.regs.info2 &&& info2ErrAll = 0) (hfuel : s.regs.late < fuel) :
    poll lookResponse fuel s = some (0, showsAfter s 0) := by
  refine poll_showsAfter (fun n => ?_) ?_ hfuel
  · obtain ⟨m, hm, hread⟩ := read_info2 (s := s) n
    refine ⟨m, hm, ?_⟩
    rw [lookResponse, inl_info1_succ]
    obtain hread | hread := hread <;> simp [hread, herrs]
  · rw [lookResponse, inl_info1_zero]
    exact if_pos hend

theorem poll_lookBwe (hready : s.regs.info2 &&& (info2Bwe ||| info2ErrAll) ≠ 0)
    (hfuel : s.regs.late < fuel) :
    poll lookBwe fuel s = some (s.regs.info2, showsAfter s 0) := by
  refine poll_showsAfter (fun n => ⟨n, le_rfl, ?_⟩) ?_ hfuel
  · rw [lookBwe, inl_info2_succ]
    simp
  · rw [lookBwe, inl_info2_zero]
    exact if_pos hready

theorem poll_lookEnd (hend : s.regs.info1 &&& info1ResRwEnd ≠ 0)
    (herrs : s.regs.info2 &&& info2ErrAll = 0) (hfuel : s.regs.late < fuel) :
    poll lookEnd fuel s = some (true, showsAfter s 0) := by
  refine poll_showsAfter (fun n => ?_) ?_ hfuel
  · obtain ⟨m, hm, hread⟩ := read_info2 (s := s) n
    refine ⟨m, hm, ?_⟩
    rw [lookEnd, inl_info1_succ]
    obtain hread | hread := hread <;> simp [hread, herrs]
  · rw [lookEnd, inl_info1_zero]
    exact if_pos hend

theorem poll_lookBwe_stuck (hinfo2 : s.regs.info2 = 0) : poll lookBwe fuel s = none := by
  refine poll_eq_none (P := fun s => s.regs.info2 = 0) ?_ hinfo2
  intro s hs
  by_cases hlate : s.regs.late = 0
  · simp [lookBwe, inl, hlate, hs]
  · simp [lookBwe, inl, sooner, hlate, hs]

theorem waitEnd_eq (h : Filling fuel accMode s) (hleft : s.left = 0) :
    ∃ t, waitEnd fuel s = some (0, t) ∧ Idle fuel accMode t ∧ t.blocks = s.blocks := by
  refine ⟨outl (s.regs.info1 &&& ~~~(info1ResEnd ||| info1ResRwEnd)) .info1 (showsAfter s 0), ?_,
    ⟨h.size, h.accMode, h.pause⟩, rfl⟩
  rw [waitEnd, poll_lookEnd (h.ended hleft) h.errs (lt_of_le_of_lt h.late h.pause)]
  rfl

/-! ## A command -/

theorem getLsbD_half : ∀ i < 32, (0xffff : Word).getLsbD i = decide (i < 16) := by decide

theorem halves (arg : Word) :
    (arg.sshiftRight 16 &&& (0xffff : Word)) <<< 16 ||| arg &&& (0xffff : Word) = arg := by
  apply BitVec.eq_of_getLsbD_eq
  intro i hi
  simp only [BitVec.getLsbD_or, BitVec.getLsbD_shiftLeft, BitVec.getLsbD_and, getLsbD_half i hi,
    BitVec.getLsbD_sshiftRight]
  by_cases hlow : i < 16
  · simp [hlow]
  · have hmask : (65535#32).getLsbD (i - 16) = true :=
      (getLsbD_half (i - 16) (by omega)).trans (decide_eq_true (by omega))
    simp [hlow, hi, hmask, show 16 + (i - 16) = i by omega, show ¬ 32 ≤ i - 16 by omega]

/-- A command opens a transfer of `n` blocks from the block of `arg` on. -/
def opened (s : Host) (arg info1 info2 : Word) (late n : ℕ) : Host where
  regs := { s.regs with
    arg0 := arg &&& 0xffff
    arg1 := arg.sshiftRight 16 &&& 0xffff
    info1 := info1
    info2 := info2
    late := late }
  blocks := s.blocks
  next := blockOfArg s.regs.accMode arg
  left := n
  fifo := []

theorem sdcSendCmd_eq (cmd arg : Word) {n : ℕ}
    (hwanted : wanted s.regs (cmdBits (cmd &&& 0xff)) = n) (hfuel : s.regs.pause < fuel) :
    sdcSendCmd fuel cmd arg s = some (0, opened s arg 0 (wantInfo2 n) 0 n) := by
  have hstart : start (outl (arg.sshiftRight 16 &&& 0xffff) .arg1 (outl (arg &&& 0xffff) .arg0
      (outl 0 .info2 (outl 0 .info1 s)))) (cmdBits (cmd &&& 0xff)) =
        opened s arg info1ResEnd (wantInfo2 n) s.regs.pause n := by
    have hn : wanted (outl (arg.sshiftRight 16 &&& 0xffff) .arg1 (outl (arg &&& 0xffff) .arg0
      (outl 0 .info2 (outl 0 .info1 s)))).regs (cmdBits (cmd &&& 0xff)) = n := hwanted
    rw [start, hn]
    simp only [outl, opened, wantInfo2, halves, show ∀ v : Word, v &&& 0 = 0#32 from
      fun v => BitVec.and_zero, BitVec.zero_or]
  have herrs : (opened s arg info1ResEnd (wantInfo2 n) s.regs.pause n).regs.info2 &&&
      info2ErrAll = 0 := wantInfo2_errs n
  have hclear : info1ResEnd &&& (info1ResEnd &&& ~~~info1ResEnd) = 0 := by decide
  have hpoll : poll lookResponse fuel
      (opened s arg info1ResEnd (wantInfo2 n) s.regs.pause n) = some (0, _) :=
    poll_lookResponse (by change info1ResEnd &&& info1ResEnd ≠ 0; decide) herrs hfuel
  rw [sdcSendCmd]
  refine (congrArg (sdcWaitResponse fuel) hstart).trans ?_
  rw [sdcWaitResponse, hpoll, Option.map_some]
  dsimp only
  rw [if_neg (not_not.mpr rfl), inl_info2_zero]
  dsimp only
  rw [if_neg (not_not.mpr herrs), inl_info1_zero]
  simp only [opened, showsAfter, outl, hclear]

/-! ## The data -/

theorem filling_store (block : List (BitVec 8)) (h : Filling fuel accMode s) :
    Filling fuel accMode (s.store blockDone block) := by
  change Filling fuel accMode ⟨blockDone (s.left - 1) s.regs, _, _, s.left - 1, []⟩
  by_cases hleft : s.left - 1 = 0
  · rw [blockDone, if_pos hleft]
    refine { h with fifo := rfl, late := le_rfl, ended := fun _ => ?_ }
    change (s.regs.info1 ||| info1ResRwEnd) &&& info1ResRwEnd ≠ 0
    rw [BitVec.and_or_distrib_right, BitVec.and_self]
    intro hzero
    have hbit := congrArg (fun v : Word => v.getLsbD 2) hzero
    simp [info1ResRwEnd] at hbit
  · rw [blockDone, if_neg hleft]
    refine { h with fifo := rfl, late := le_rfl, errs := ?_, ended := fun hz => absurd hz hleft }
    change (s.regs.info2 ||| info2Bwe) &&& info2ErrAll = 0
    rw [BitVec.and_or_distrib_right, h.errs]
    rfl

theorem size_put (piece : List (BitVec 8)) :
    (s.put 512 blockDone piece).regs.size = s.regs.size := by
  rw [Port.put]
  split_ifs
  · rfl
  · rfl
  · change (blockDone _ _).size = _
    rw [blockDone]
    split_ifs <;> rfl

theorem bufLoop_eq (mem : Memory) {n : ℕ} {p : Word} (hsize : s.regs.size.toNat = 512) :
    bufLoop mem n p s =
      (p + BitVec.ofNat 32 (2 * n), (mem.pieces 2 n p).foldl (Port.put 512 blockDone) s) := by
  induction n generalizing p s with
  | zero => simp [bufLoop, Memory.pieces]
  | succ n ih =>
    have hput : outl ((mem.half p).setWidth 32) .buf0 s = s.put 512 blockDone
        ((List.range 2).map fun i => mem (p + BitVec.ofNat 32 i)) := by
      rw [outl, hsize, halfBytes_half]
    have hsize' : (outl ((mem.half p).setWidth 32) .buf0 s).regs.size.toNat = 512 := by
      rw [hput, size_put, hsize]
    rw [bufLoop, ih hsize', hput, Memory.pieces, List.foldl_cons]
    refine Prod.ext ?_ rfl
    change p + 2#32 + BitVec.ofNat 32 (2 * n) = p + BitVec.ofNat 32 (2 * (n + 1))
    rw [BitVec.add_assoc, Nat.mul_succ, Nat.add_comm, BitVec.ofNat_add]

theorem clearLoop_eq {n : ℕ} (hsize : s.regs.size.toNat = 512) :
    clearLoop n s = (List.replicate n (List.replicate 2 0)).foldl (Port.put 512 blockDone) s := by
  induction n generalizing s with
  | zero => rfl
  | succ n ih =>
    have hput : outl 0 .buf0 s = s.put 512 blockDone (List.replicate 2 0) := by
      rw [outl, hsize]
      rfl
    have hsize' : (outl 0 .buf0 s).regs.size.toNat = 512 := by
      rw [hput, size_put, hsize]
    rw [clearLoop, ih hsize', hput]
    rfl

theorem bufLoop_stores (mem : Memory) {p : Word} (h : Filling fuel accMode s)
    (hleft : s.left ≠ 0) :
    bufLoop mem 256 p s = (p + 512, s.store blockDone (mem.block p)) := by
  have hflat : s.fifo ++ (mem.pieces 2 256 p).flatten = mem.block p := by
    rw [h.fifo, List.nil_append, mem.block_eq 2 256 rfl]
  have hfull := Port.foldl_put blockDone (mem.pieces 2 256 p) hleft
    (List.cons_ne_nil _ _) (mem.ne_nil_of_mem_pieces (by decide)) (hflat ▸ mem.length_block p)
  rw [bufLoop_eq mem h.size, hfull, hflat]
  rfl

theorem clearLoop_stores (h : Filling fuel accMode s) (hleft : s.left ≠ 0) :
    clearLoop 256 s = s.store blockDone (List.replicate 512 0) := by
  have hflat : s.fifo ++ (List.replicate 256 (List.replicate 2 (0 : BitVec 8))).flatten =
      List.replicate 512 0 := by
    rw [h.fifo, List.nil_append, List.flatten_replicate_replicate]
  have hfull := Port.foldl_put blockDone
    (List.replicate 256 (List.replicate 2 (0 : BitVec 8))) hleft
    (List.cons_ne_nil _ _) (fun piece hpiece => by simp [List.eq_of_mem_replicate hpiece])
    (by rw [hflat, List.length_replicate])
  rw [clearLoop_eq h.size, hfull, hflat]

/-- The state of a round when its block is wanted. -/
def cleared (s : Host) : Host :=
  { s with regs := { s.regs with info2 := 0, late := 0 } }

theorem filling_cleared (h : Filling fuel accMode s) : Filling fuel accMode (cleared s) :=
  { h with late := Nat.zero_le _, errs := BitVec.zero_and }

theorem multiRound_stores (mem : Memory) (buf p : Word) (h : Streaming fuel accMode s)
    (hleft : s.left ≠ 0) :
    ∃ t, multiRound fuel mem buf p s = some (true, nextBuf buf p, t) ∧ Streaming fuel accMode t ∧
      s.Stores t (roundData mem buf p) := by
  have hbwe : s.regs.info2 = info2Bwe := by rw [h.info2, wantInfo2, if_neg hleft]
  have hrun : multiRound fuel mem buf p s =
      some (if buf ≠ 0 then (true, bufLoop mem 256 p (cleared s))
        else (true, p, clearLoop 256 (cleared s))) := by
    rw [multiRound, poll_lookBwe (by rw [hbwe]; decide) (lt_of_le_of_lt h.late h.pause),
      Option.map_some]
    dsimp only
    rw [if_neg (not_not.mpr h.errs), inl_info2_zero]
    simp only [outl, showsAfter, cleared, hbwe,
      show info2Bwe &&& (info2Bwe &&& ~~~info2Bwe) = 0 by decide]
  have hfilling := filling_cleared h.toFilling
  refine ⟨(cleared s).store blockDone (roundData mem buf p), ?_,
    { filling_store _ hfilling with info2 := ?_ }, ⟨rfl, rfl, rfl, rfl⟩⟩
  · rw [hrun, nextBuf, roundData]
    by_cases hbuf : buf = 0
    · rw [if_neg (not_not.mpr hbuf), if_pos hbuf, if_pos hbuf, clearLoop_stores hfilling hleft]
    · rw [if_pos hbuf, if_neg hbuf, if_neg hbuf, bufLoop_stores mem hfilling hleft]
  · change (blockDone (s.left - 1) _).info2 = wantInfo2 (s.left - 1)
    rw [blockDone, wantInfo2]
    split_ifs
    · rfl
    · exact BitVec.zero_or

theorem multiRound_stuck (mem : Memory) (buf p : Word) (h : Streaming fuel accMode s)
    (hleft : s.left = 0) : multiRound fuel mem buf p s = none := by
  have hinfo2 : s.regs.info2 = 0 := by rw [h.info2, wantInfo2, if_pos hleft]
  rw [multiRound, poll_lookBwe_stuck hinfo2]
  rfl

/-! ## The two functions -/

theorem streaming_opened (arg : Word) {n : ℕ} (h : Idle fuel accMode s) (hn : n ≠ 0) :
    Streaming fuel accMode (opened s arg 0 (wantInfo2 n) 0 n) where
  size := h.size
  accMode := h.accMode
  fifo := rfl
  late := Nat.zero_le _
  pause := h.pause
  errs := wantInfo2_errs n
  ended hleft := absurd hleft hn
  info2 := rfl

theorem sdcSingleWrite_eq (mem : Memory) {addr : Word} (buf : Word) (h : Idle fuel accMode s)
    (haddr : accMode = false → addr.toNat < 2 ^ 23) :
    ∃ t, sdcSingleWrite fuel mem addr buf s = some (0, t) ∧ Idle fuel accMode t ∧
      t.blocks = Function.update s.blocks addr.toNat (mem.given buf) := by
  have hwanted : wanted (outl 0 .stop s).regs (cmdBits (24 &&& 0xff)) = 1 := by
    rw [wanted, if_neg (by decide), if_pos (by decide)]
  have hidle : Idle fuel accMode (outl 0 .stop s) := ⟨h.size, h.accMode, h.pause⟩
  have hsend := sdcSendCmd_eq 24 (argOfBlock accMode addr) hwanted h.pause
  have hstream := streaming_opened (argOfBlock accMode addr) hidle one_ne_zero
  have hdata : (if buf ≠ 0 then
        (bufLoop mem 256 buf (opened (outl 0 .stop s) (argOfBlock accMode addr) 0
          (wantInfo2 1) 0 1)).2
      else clearLoop 256 (opened (outl 0 .stop s) (argOfBlock accMode addr) 0 (wantInfo2 1) 0 1)) =
        (opened (outl 0 .stop s) (argOfBlock accMode addr) 0 (wantInfo2 1) 0 1).store blockDone
          (mem.given buf) := by
    rw [Memory.given]
    by_cases hbuf : buf = 0
    · rw [if_neg (not_not.mpr hbuf), if_pos hbuf,
        clearLoop_stores hstream.toFilling one_ne_zero]
    · rw [if_pos hbuf, if_neg hbuf, bufLoop_stores mem hstream.toFilling one_ne_zero]
  obtain ⟨u, hend, hu, hblocks⟩ :=
    waitEnd_eq (filling_store (mem.given buf) hstream.toFilling) rfl
  refine ⟨u, ?_, hu, ?_⟩
  · have hpoll : poll lookBwe fuel
        (opened (outl 0 .stop s) (argOfBlock accMode addr) 0 (wantInfo2 1) 0 1) = some (_, _) :=
      poll_lookBwe (by change wantInfo2 1 &&& _ ≠ 0; decide)
        (Nat.lt_of_le_of_lt (Nat.zero_le _) h.pause)
    have herrs : (opened (outl 0 .stop s) (argOfBlock accMode addr) 0 (wantInfo2 1) 0 1).regs.info2
      &&& info2ErrAll = 0 := wantInfo2_errs 1
    rw [sdcSingleWrite, hidle.accMode, hsend, Option.bind_some]
    dsimp only
    rw [if_neg (not_not.mpr rfl), hpoll, Option.bind_some]
    dsimp only
    rw [if_neg (not_not.mpr herrs)]
    change waitEnd fuel (if buf ≠ 0 then _ else _) = _
    rw [← hend]
    exact congrArg (waitEnd fuel) hdata
  · rw [hblocks]
    change Function.update s.blocks (blockOfArg s.regs.accMode _) _ = _
    rw [h.accMode, blockOfArg_argOfBlock haddr]

theorem sdcMultiWrite_eq_bind (mem : Memory) (addr buf num : Word) (h : Idle fuel accMode s) :
    ∃ s', Idle fuel accMode s' ∧ s'.blocks = s.blocks ∧
      sdcMultiWrite fuel mem addr buf num s =
        (blockLoop (multiRound fuel mem buf) num.toInt.toNat buf
          (opened s' (argOfBlock accMode addr) 0 (wantInfo2 (num.toNat % 2 ^ s.regs.secBits)) 0
            (num.toNat % 2 ^ s.regs.secBits))).bind fun (ok, s) =>
          if !ok then some (-1, s) else waitEnd fuel s := by
  refine ⟨outl num .seccnt (outl (s.regs.stop ||| stopSec) .stop s),
    ⟨h.size, h.accMode, h.pause⟩, rfl, ?_⟩
  have hstop : (s.regs.stop ||| stopSec) &&& stopSec ≠ 0 := by
    rw [BitVec.and_or_distrib_right, BitVec.and_self]
    intro hzero
    have hbit := congrArg (fun v : Word => v.getLsbD 8) hzero
    simp [stopSec] at hbit
  have hwanted : wanted (outl num .seccnt (outl (s.regs.stop ||| stopSec) .stop s)).regs
      (cmdBits (25 &&& 0xff)) = num.toNat % 2 ^ s.regs.secBits := by
    rw [wanted, if_neg (by decide), if_neg (by decide)]
    exact if_neg hstop
  rw [sdcMultiWrite, inl]
  dsimp only
  rw [show (outl num .seccnt (outl (s.regs.stop ||| stopSec) .stop s)).regs.accMode = accMode from
    h.accMode, sdcSendCmd_eq 25 _ hwanted h.pause, Option.bind_some]
  rfl

/-- **The blocks that `sdc_multi_write` stores**, for a number of blocks that the register can
hold. -/
theorem sdcMultiWrite_eq (mem : Memory) {addr num : Word} (buf : Word) (h : Idle fuel accMode s)
    (haddr : accMode = false → addr.toNat < 2 ^ 23) (hint : num.toInt.toNat = num.toNat)
    (hpos : 0 < num.toNat) (hnum : num.toNat < 2 ^ s.regs.secBits) :
    ∃ t, sdcMultiWrite fuel mem addr buf num s = some (0, t) ∧
      t.blocks = overwrite s.blocks addr.toNat
        ((List.range num.toNat).map fun k => roundData mem buf ((nextBuf buf)^[k] buf)) := by
  obtain ⟨s', hs', hsblocks, hrun⟩ := sdcMultiWrite_eq_bind mem addr buf num h
  rw [Nat.mod_eq_of_lt hnum] at hrun
  have hstream := streaming_opened (argOfBlock accMode addr) hs' hpos.ne'
  obtain ⟨t, hloop, ht, hleft, hblocks⟩ :=
    blockLoop_eq (P := Streaming fuel accMode) (f := nextBuf buf) (d := roundData mem buf)
      (fun p s hs hleft => multiRound_stores mem buf p hs hleft) (p := buf) hstream le_rfl
  obtain ⟨u, hend, -, hublocks⟩ := waitEnd_eq ht.toFilling (by rw [hleft]; exact Nat.sub_self _)
  refine ⟨u, ?_, ?_⟩
  · rw [hrun, hint]
    rw [show (blockLoop (multiRound fuel mem buf) num.toNat buf _) = some (true, t) from hloop,
      Option.bind_some]
    exact hend
  · rw [hublocks, hblocks]
    change overwrite s'.blocks (blockOfArg s'.regs.accMode _) _ = _
    rw [hs'.accMode, blockOfArg_argOfBlock haddr, hsblocks]
    rfl

theorem sdcMultiWrite_eq_none (mem : Memory) {addr num : Word} (buf : Word)
    (h : Idle fuel accMode s) (hint : num.toInt.toNat = num.toNat)
    (hnum : 2 ^ s.regs.secBits ≤ num.toNat) :
    sdcMultiWrite fuel mem addr buf num s = none := by
  obtain ⟨s', hs', -, hrun⟩ := sdcMultiWrite_eq_bind mem addr buf num h
  have hlt : num.toNat % 2 ^ s.regs.secBits < num.toNat :=
    lt_of_lt_of_le (Nat.mod_lt _ (Nat.two_pow_pos _)) hnum
  have hloop : blockLoop (multiRound fuel mem buf) num.toNat buf
      (opened s' (argOfBlock accMode addr) 0 (wantInfo2 (num.toNat % 2 ^ s.regs.secBits)) 0
        (num.toNat % 2 ^ s.regs.secBits)) = none := by
    by_cases hzero : num.toNat % 2 ^ s.regs.secBits = 0
    · obtain ⟨n, hn⟩ : ∃ n, num.toNat = n + 1 := Nat.exists_eq_succ_of_ne_zero (by omega)
      rw [hzero, hn, blockLoop, multiRound, poll_lookBwe_stuck (by rfl)]
      rfl
    · have hstream := streaming_opened (argOfBlock accMode addr) hs' hzero
      exact blockLoop_eq_none (P := Streaming fuel accMode) (f := nextBuf buf)
        (d := roundData mem buf)
        (fun p s hs hleft => multiRound_stores mem buf p hs hleft)
        (fun p s hs hleft => multiRound_stuck mem buf p hs hleft) hstream hlt
  rw [hrun, hint, hloop]
  rfl

end Sdc
end Mmc
end EmevBsp
