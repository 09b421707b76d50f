import EmevBsp.Mmc.BlockLoop

/-!
# `sdio_multi_write`

The count of a transfer has 16 bits in `SDIO_BLOCK`, and the branch for a null pointer reads the
buffer like the other one.

* `Streaming`: what holds between two blocks of a transfer.
* `sdioSingleWrite_eq`: `sdio_single_write` stores the block it is given.
* `sdioMultiWrite_eq`: **the blocks that `sdio_multi_write` stores are those of the memory.**
* `sdioMultiWrite_eq_none`: without a block, or with more than the register counts, it never
  returns.
-/

namespace EmevBsp
namespace Mmc

namespace Sdio

variable {fuel : ℕ} {accMode : Bool} {s : Host}

/-- A controller without a transfer, for a card. -/
structure Idle (fuel : ℕ) (accMode : Bool) (s : Host) : Prop where
  len : blockLen s.regs = 512
  accMode : s.regs.accMode = accMode
  pause : s.regs.pause < fuel

/-- The state with the status to show after `n` reads. -/
def showsAfter (s : Host) (n : ℕ) : Host :=
  { s with regs := { s.regs with late := n } }

/-- A transfer goes on, and it wants a new block or has ended. -/
structure Streaming (fuel : ℕ) (accMode : Bool) (s : Host) : Prop where
  len : blockLen s.regs = 512
  accMode : s.regs.accMode = accMode
  fifo : s.fifo = []
  late : s.regs.late ≤ s.regs.pause
  pause : s.regs.pause < fuel
  errs : s.regs.intSts &&& intAllerr = 0
  ended : s.left = 0 → s.regs.intSts &&& intTrancomp ≠ 0

theorem Streaming.idle (h : Streaming fuel accMode s) : Idle fuel accMode s :=
  ⟨h.len, h.accMode, h.pause⟩

theorem sdioRead_intSts_zero :
    sdioRead .intSts (showsAfter s 0) = (s.regs.intSts, showsAfter s 0) := rfl

theorem sdioRead_intSts_succ (n : ℕ) :
    sdioRead .intSts (showsAfter s (n + 1)) = (0, showsAfter s n) := rfl

theorem poll_showsAfter {γ : Type} {look : Host → Option γ × Host} {r : γ}
    (hlate : ∀ n, ∃ m ≤ n, look (showsAfter s (n + 1)) = (none, showsAfter s m))
    (hdone : look (showsAfter s 0) = (some r, showsAfter s 0)) (hfuel : s.regs.late < fuel) :
    poll look fuel s = some (r, showsAfter s 0) :=
  poll_of_countdown (showsAfter s) hlate hdone hfuel

theorem read_twice (n : ℕ) :
    ∃ m ≤ n, sdioRead .intSts (showsAfter s n) = (0, showsAfter s m) ∨
      sdioRead .intSts (showsAfter s n) = (s.regs.intSts, showsAfter s m) := by
  cases n with
  | zero => exact ⟨0, le_rfl, Or.inr rfl⟩
  | succ n => exact ⟨n, Nat.le_succ n, Or.inl rfl⟩

theorem poll_lookResponse (hcmd : s.regs.intSts &&& intCmdcomp ≠ 0)
    (herrs : s.regs.intSts &&& intAllerr = 0) (hfuel : s.regs.late < fuel) :
    poll lookResponse fuel s = some ((), showsAfter s 0) := by
  refine poll_showsAfter (fun n => ?_) ?_ hfuel
  · obtain ⟨m, hm, hread⟩ := read_twice (s := s) n
    refine ⟨m, hm, ?_⟩
    rw [lookResponse, sdioRead_intSts_succ]
    obtain hread | hread := hread <;> simp [hread, herrs]
  · rw [lookResponse, sdioRead_intSts_zero]
    exact if_pos hcmd

theorem poll_lookWready (hready : s.regs.intSts &&& (intWready ||| intAllerr) ≠ 0)
    (hfuel : s.regs.late < fuel) :
    poll lookWready fuel s = some (s.regs.intSts, showsAfter s 0) := by
  refine poll_showsAfter (fun n => ⟨n, le_rfl, ?_⟩) ?_ hfuel
  · rw [lookWready, sdioRead_intSts_succ]
    simp
  · rw [lookWready, sdioRead_intSts_zero]
    exact if_pos hready

theorem poll_lookWren (hleft : s.left ≠ 0) (herrs : s.regs.intSts &&& intAllerr = 0)
    (hfuel : s.regs.late < fuel) : poll lookWren fuel s = some (true, showsAfter s 0) := by
  refine poll_showsAfter (fun n => ?_) ?_ hfuel
  · obtain ⟨m, hm, hread⟩ := read_twice (s := s) n
    refine ⟨m, hm, ?_⟩
    rw [lookWren, show sdioRead .state (showsAfter s (n + 1)) = (0, showsAfter s n) from rfl]
    obtain hread | hread := hread <;> simp [hread, herrs]
  · rw [lookWren, show sdioRead .state (showsAfter s 0) =
      (if s.left = 0 then 0 else stateWren, showsAfter s 0) from rfl, if_neg hleft]
    simp [stateWren]

/-! ### A command -/

/-- The status while `n` blocks are wanted. -/
def wantSts (n : ℕ) : Word := if n = 0 then 0 else intWready

theorem wantSts_taken (n : ℕ) :
    (intCmdcomp ||| wantSts n) &&& intCmdcomp ≠ 0 ∧ (intCmdcomp ||| wantSts n) &&& intAllerr = 0 ∧
      (intCmdcomp ||| wantSts n) &&& ~~~intCmdcomp = wantSts n := by
  by_cases hn : n = 0
  · rw [wantSts, if_pos hn]
    decide
  · rw [wantSts, if_neg hn]
    decide

/-- A command opens a transfer of `n` blocks from the block of `arg` on; `sts` is the status. -/
def opened (s : Host) (cmd arg sts : Word) (late n : ℕ) : Host where
  regs := { s.regs with arg := arg, modeCmd := cmd, intSts := sts, late := late }
  blocks := s.blocks
  next := blockOfArg s.regs.accMode arg
  left := n
  fifo := []

theorem sdioWaitResponse_opened {cmd arg : Word} {n : ℕ} (hcmd : cmd &&& cmdData ≠ 0)
    (hfuel : s.regs.pause < fuel) :
    sdioWaitResponse fuel (opened s cmd arg (intCmdcomp ||| wantSts n) s.regs.pause n) =
      some (0, opened s cmd arg (wantSts n) 0 n) := by
  obtain ⟨hcomp, herrs, hclear⟩ := wantSts_taken n
  have hpoll : poll lookResponse fuel
      (opened s cmd arg (intCmdcomp ||| wantSts n) s.regs.pause n) = some ((), _) :=
    poll_lookResponse hcomp herrs hfuel
  have hread : sdioRead .intSts
      (showsAfter (opened s cmd arg (intCmdcomp ||| wantSts n) s.regs.pause n) 0) =
        (intCmdcomp ||| wantSts n, opened s cmd arg (intCmdcomp ||| wantSts n) 0 n) := rfl
  have hwrite : sdioWrite intCmdcomp .intSts (opened s cmd arg (intCmdcomp ||| wantSts n) 0 n) =
      opened s cmd arg (wantSts n) 0 n := by
    rw [sdioWrite]
    simp only [opened, hclear]
  rw [sdioWaitResponse, hpoll, Option.map_some]
  dsimp only
  rw [hread]
  dsimp only
  rw [if_neg (not_not.mpr herrs)]
  simp only [sdioRead, opened, hcmd, ne_eq, not_false_eq_true, if_true]
  exact congrArg (fun t => some (0, t)) hwrite

theorem sdioSendCmd_eq (cmd arg val : Word) {n : ℕ}
    (hval : (cmd &&& 0x3f) <<< 24 ||| cmdR1 ||| cmdBits cmd = val) (hcmd : val &&& cmdData ≠ 0)
    (hwanted : wanted s.regs val = n) (hfuel : s.regs.pause < fuel) :
    sdioSendCmd fuel cmd arg s = some (0, opened s val arg (wantSts n) 0 n) := by
  have hsts : s.regs.intSts &&& ~~~0xffffffff = 0#32 := by
    rw [show ~~~(0xffffffff : Word) = 0#32 from rfl, BitVec.and_zero]
  have hstart : start (sdioWrite arg .arg (sdioWrite 0xffffffff .intSts s)) val =
      opened s val arg (intCmdcomp ||| wantSts n) s.regs.pause n := by
    have hn : wanted (sdioWrite arg .arg (sdioWrite 0xffffffff .intSts s)).regs val = n := hwanted
    rw [start, hn]
    simp only [sdioWrite, hsts, opened, wantSts, BitVec.zero_or]
  rw [sdioSendCmd, hval]
  exact (congrArg (sdioWaitResponse fuel) hstart).trans (sdioWaitResponse_opened hcmd hfuel)

/-! ### The data -/

theorem streaming_store {block : List (BitVec 8)} (hs : Idle fuel accMode s)
    (herrs : s.regs.intSts &&& intAllerr = 0) :
    Streaming fuel accMode (s.store blockDone block) where
  len := hs.len
  accMode := hs.accMode
  fifo := rfl
  late := le_rfl
  pause := hs.pause
  errs := by
    change (s.regs.intSts ||| _) &&& intAllerr = 0
    rw [BitVec.and_or_distrib_right, herrs]
    split <;> rfl
  ended := by
    intro (hleft : s.left - 1 = 0)
    change (s.regs.intSts ||| (if s.left - 1 = 0 then intTrancomp else intWready)) &&&
      intTrancomp ≠ 0
    rw [if_pos hleft, BitVec.and_or_distrib_right, BitVec.and_self]
    intro h
    have := congrArg (fun v : Word => v.getLsbD 1) h
    simp [intTrancomp] at this

theorem blockLen_put (piece : List (BitVec 8)) :
    blockLen (s.put 512 blockDone piece).regs = blockLen s.regs := by
  rw [Port.put]
  split_ifs <;> rfl

theorem bufLoop_eq (mem : Memory) {n : ℕ} {p : Word} (hlen : blockLen s.regs = 512) :
    bufLoop mem n p s =
      (p + BitVec.ofNat 32 (4 * n), (mem.pieces 4 n p).foldl (Port.put 512 blockDone) s) := by
  induction n generalizing p s with
  | zero => simp [bufLoop, Memory.pieces]
  | succ n ih =>
    have hput : sdioWrite (mem.word p) .buf s = s.put 512 blockDone
        ((List.range 4).map fun i => mem (p + BitVec.ofNat 32 i)) := by
      rw [sdioWrite, hlen, wordBytes_word]
    have hlen' : blockLen (sdioWrite (mem.word p) .buf s).regs = 512 := by
      rw [hput, blockLen_put, hlen]
    rw [bufLoop, ih hlen', hput, Memory.pieces, List.foldl_cons]
    refine Prod.ext ?_ rfl
    change p + 4#32 + BitVec.ofNat 32 (4 * n) = p + BitVec.ofNat 32 (4 * (n + 1))
    rw [BitVec.add_assoc, Nat.mul_succ, Nat.add_comm, BitVec.ofNat_add]

theorem clearLoop_eq {n : ℕ} (hlen : blockLen s.regs = 512) :
    clearLoop n s = (List.replicate n (List.replicate 4 0)).foldl (Port.put 512 blockDone) s := by
  induction n generalizing s with
  | zero => rfl
  | succ n ih =>
    have hput : sdioWrite 0 .buf s = s.put 512 blockDone (List.replicate 4 0) := by
      rw [sdioWrite, hlen]
      rfl
    have hlen' : blockLen (sdioWrite 0 .buf s).regs = 512 := by
      rw [hput, blockLen_put, hlen]
    rw [clearLoop, ih hlen', hput]
    rfl

theorem bufLoop_stores (mem : Memory) {p : Word} (h : Streaming fuel accMode s)
    (hleft : s.left ≠ 0) :
    ∃ t, bufLoop mem 128 p s = (p + 512, t) ∧ Streaming fuel accMode t ∧
      s.Stores t (mem.block p) := by
  have hflat : s.fifo ++ (mem.pieces 4 128 p).flatten = mem.block p := by
    rw [h.fifo, List.nil_append, mem.block_eq 4 128 rfl]
  have hfull := Port.foldl_put blockDone (mem.pieces 4 128 p) hleft
    (List.cons_ne_nil _ _) (mem.ne_nil_of_mem_pieces (by decide))
    (hflat ▸ mem.length_block p)
  refine ⟨s.store blockDone (mem.block p), ?_, streaming_store h.idle h.errs,
    Port.stores_store _⟩
  rw [bufLoop_eq mem h.len, hfull, hflat]
  rfl

theorem clearLoop_stores (h : Streaming fuel accMode s) (hleft : s.left ≠ 0) :
    Streaming fuel accMode (clearLoop 128 s) ∧
      s.Stores (clearLoop 128 s) (List.replicate 512 0) := by
  have hflat : s.fifo ++ (List.replicate 128 (List.replicate 4 (0 : BitVec 8))).flatten =
      List.replicate 512 0 := by
    rw [h.fifo, List.nil_append, List.flatten_replicate_replicate]
  have hfull := Port.foldl_put blockDone
    (List.replicate 128 (List.replicate 4 (0 : BitVec 8))) hleft
    (List.cons_ne_nil _ _) (fun piece hpiece => by simp [List.eq_of_mem_replicate hpiece])
    (by rw [hflat, List.length_replicate])
  rw [clearLoop_eq h.len, hfull, hflat]
  exact ⟨streaming_store h.idle h.errs, Port.stores_store _⟩

theorem multiRound_stores (mem : Memory) (buf p : Word) (h : Streaming fuel accMode s)
    (hleft : s.left ≠ 0) :
    ∃ t, multiRound fuel mem buf p s = some (true, p + 512, t) ∧ Streaming fuel accMode t ∧
      s.Stores t (mem.block p) := by
  have hshown : Streaming fuel accMode (showsAfter s 0) := { h with late := Nat.zero_le _ }
  obtain ⟨t, hrun, ht, hstores⟩ := bufLoop_stores mem (p := p) hshown hleft
  refine ⟨t, ?_, ht, ⟨hstores.blocks, hstores.next, hstores.left, hstores.fifo⟩⟩
  rw [multiRound, poll_lookWren hleft h.errs (lt_of_le_of_lt h.late h.pause), Option.map_some]
  simp [hrun]

theorem multiRound_stuck (mem : Memory) (buf p : Word) (h : Streaming fuel accMode s)
    (hleft : s.left = 0) : multiRound fuel mem buf p s = none := by
  have hpoll : poll lookWren fuel s = none := by
    refine poll_eq_none (P := fun s => s.left = 0 ∧ s.regs.intSts &&& intAllerr = 0) ?_
      ⟨hleft, h.errs⟩
    rintro s ⟨hleft, herrs⟩
    by_cases hlate : s.regs.late = 0
    · simp [lookWren, sdioRead, hlate, hleft, herrs]
    · by_cases hlate' : s.regs.late - 1 = 0
      · simp [lookWren, sdioRead, sooner, hlate, hlate', hleft, herrs]
      · simp [lookWren, sdioRead, sooner, hlate, hlate', hleft, herrs]
  rw [multiRound, hpoll]
  rfl

theorem waitEnd_eq (h : Streaming fuel accMode s) (hleft : s.left = 0) :
    ∃ t, waitEnd fuel s = some (0, t) ∧ Idle fuel accMode t ∧ t.blocks = s.blocks := by
  have hdone := h.ended hleft
  refine ⟨sdioWrite s.regs.intSts .intSts (showsAfter s 0), ?_, ⟨h.len, h.accMode, h.pause⟩, rfl⟩
  by_cases hlate : s.regs.late = 0
  · have hs : showsAfter s 0 = s := by rw [← hlate]; rfl
    rw [waitEnd, sdioRead, if_pos hlate, hs]
    exact if_pos hdone
  · have hpoll : poll lookEnd fuel (sooner s) = some (some s.regs.intSts, showsAfter s 0) := by
      refine poll_showsAfter (s := sooner s) (fun n => ⟨n, le_rfl, ?_⟩) ?_ ?_
      · rw [lookEnd, sdioRead_intSts_succ]
        simp
      · rw [lookEnd, sdioRead_intSts_zero]
        exact (if_neg (not_not.mpr h.errs)).trans (if_pos hdone)
      · exact lt_of_le_of_lt (Nat.sub_le _ _) (lt_of_le_of_lt h.late h.pause)
    rw [waitEnd, sdioRead, if_neg hlate]
    dsimp only
    rw [if_neg (by simp), hpoll]
    rfl

/-! ### The two functions -/

theorem streaming_opened (cmd arg : Word) {n : ℕ} (h : Idle fuel accMode s) (hn : n ≠ 0) :
    Streaming fuel accMode (opened s cmd arg 0 0 n) where
  len := h.len
  accMode := h.accMode
  fifo := rfl
  late := Nat.zero_le _
  pause := h.pause
  errs := BitVec.zero_and
  ended hleft := absurd hleft hn

theorem poll_lookWready_opened {cmd arg : Word} {n : ℕ} (hn : n ≠ 0)
    (hpause : s.regs.pause < fuel) :
    poll lookWready fuel (opened s cmd arg (wantSts n) 0 n) =
      some (intWready, opened s cmd arg intWready 0 n) := by
  rw [wantSts, if_neg hn]
  exact poll_lookWready (s := opened s cmd arg intWready 0 n)
    (by change intWready &&& _ ≠ 0; decide) (Nat.lt_of_le_of_lt (Nat.zero_le _) hpause)

theorem poll_lookWready_stuck {cmd arg : Word} :
    poll lookWready fuel (opened s cmd arg (wantSts 0) 0 0) = none := by
  refine poll_eq_none (P := fun s => s.regs.intSts = 0) ?_ rfl
  intro s hs
  by_cases hlate : s.regs.late = 0
  · simp [lookWready, sdioRead, hlate, hs]
  · simp [lookWready, sdioRead, sooner, hlate, hs]

theorem sdioWrite_intWready {cmd arg : Word} {n : ℕ} :
    sdioWrite intWready .intSts (opened s cmd arg intWready 0 n) = opened s cmd arg 0 0 n := by
  rw [sdioWrite]
  simp only [opened, show intWready &&& ~~~intWready = 0 by decide]

theorem sdioSingleWrite_eq (mem : Memory) {addr : Word} (buf : Word)
    (h : Idle fuel accMode s) (haddr : accMode = false → addr.toNat < 2 ^ 23) :
    ∃ t, sdioSingleWrite fuel mem addr buf s = some (0, t) ∧ Idle fuel accMode t ∧
      t.blocks = Function.update s.blocks addr.toNat (mem.given buf) := by
  have hwanted : wanted s.regs 0x183a0000 = 1 := by
    rw [wanted, if_neg (by decide), if_pos (by decide)]
  have hsend := sdioSendCmd_eq 24 (argOfBlock s.regs.accMode addr) 0x183a0000 (by decide)
    (by decide) hwanted h.pause
  have hstream := streaming_opened 0x183a0000 (argOfBlock s.regs.accMode addr) h one_ne_zero
  obtain ⟨t, hdata, ht, hstores⟩ :
      ∃ t, (if buf ≠ 0 then (bufLoop mem 128 buf (opened s 0x183a0000
          (argOfBlock s.regs.accMode addr) 0 0 1)).2
        else clearLoop 128 (opened s 0x183a0000 (argOfBlock s.regs.accMode addr) 0 0 1)) = t ∧
        Streaming fuel accMode t ∧
        (opened s 0x183a0000 (argOfBlock s.regs.accMode addr) 0 0 1).Stores t (mem.given buf) := by
    by_cases hbuf : buf = 0
    · rw [if_neg (not_not.mpr hbuf), Memory.given, if_pos hbuf]
      exact ⟨_, rfl, clearLoop_stores hstream one_ne_zero⟩
    · rw [if_pos hbuf, Memory.given, if_neg hbuf]
      obtain ⟨t, hrun, ht, hstores⟩ := bufLoop_stores mem (p := buf) hstream one_ne_zero
      exact ⟨t, by rw [hrun], ht, hstores⟩
  obtain ⟨u, hend, hu, hblocks⟩ := waitEnd_eq ht hstores.left
  refine ⟨u, ?_, hu, ?_⟩
  · rw [sdioSingleWrite, hsend, Option.bind_some]
    dsimp only
    rw [if_neg (not_not.mpr rfl), poll_lookWready_opened one_ne_zero h.pause, Option.bind_some]
    dsimp only
    rw [sdioWrite_intWready, if_neg (by decide), hdata, hend]
  · rw [hblocks, hstores.blocks]
    change Function.update s.blocks (blockOfArg s.regs.accMode _) _ = _
    rw [h.accMode, blockOfArg_argOfBlock haddr]

theorem sdioMultiWrite_eq_bind (mem : Memory) (addr buf num : Word) (h : Idle fuel accMode s) :
    ∃ s', Idle fuel accMode s' ∧ s'.blocks = s.blocks ∧
      sdioMultiWrite fuel mem addr buf num s =
        (poll lookWready fuel (opened s' 0x193a0026 (argOfBlock accMode addr)
            (wantSts (num.toNat % 65536)) 0 (num.toNat % 65536))).bind fun (intStatus, s) =>
          let s := sdioWrite intWready .intSts s
          if intStatus &&& intAllerr ≠ 0 then some (-1, s)
          else
            (blockLoop (multiRound fuel mem buf) num.toInt.toNat buf s).bind fun (ok, s) =>
              if !ok then some (-1, s) else waitEnd fuel s := by
  refine ⟨sdioWrite (s.regs.block &&& (0xffff : Word) ||| num <<< 16) .block s,
    ⟨?_, h.accMode, h.pause⟩, rfl, ?_⟩
  · change ((s.regs.block &&& (0xffff : Word) ||| num <<< 16) &&& 0xfff).toNat = 512
    rw [low_half]
    exact h.len
  · have hwanted : wanted
        (sdioWrite (s.regs.block &&& (0xffff : Word) ||| num <<< 16) .block s).regs 0x193a0026 =
          num.toNat % 65536 := by
      rw [wanted, if_neg (by decide), if_neg (by decide)]
      exact high_half _ _
    rw [sdioMultiWrite, sdioRead]
    dsimp only
    rw [show (sdioWrite (s.regs.block &&& (0xffff : Word) ||| num <<< 16) .block s).regs.accMode =
      accMode from h.accMode,
      sdioSendCmd_eq 25 _ 0x193a0026 (by decide) (by decide) hwanted h.pause,
      Option.bind_some]
    rfl

/-- **The blocks that `sdio_multi_write` stores**, for a number of blocks that the register can
hold: they are read from the buffer, also where there is none. -/
theorem sdioMultiWrite_eq (mem : Memory) {addr num : Word} (buf : Word) (h : Idle fuel accMode s)
    (haddr : accMode = false → addr.toNat < 2 ^ 23) (hint : num.toInt.toNat = num.toNat)
    (hpos : 0 < num.toNat) (hnum : num.toNat < 65536) :
    ∃ t, sdioMultiWrite fuel mem addr buf num s = some (0, t) ∧
      t.blocks = overwrite s.blocks addr.toNat
        ((List.range num.toNat).map fun k => mem.block ((· + 512)^[k] buf)) := by
  obtain ⟨s', hs', hsblocks, hrun⟩ := sdioMultiWrite_eq_bind mem addr buf num h
  rw [Nat.mod_eq_of_lt hnum] at hrun
  have hstream := streaming_opened 0x193a0026 (argOfBlock accMode addr) hs'
    hpos.ne'
  obtain ⟨t, hloop, ht, hleft, hblocks⟩ :=
    blockLoop_eq (P := Streaming fuel accMode) (f := (· + 512)) (d := mem.block)
      (fun p s hs hleft => multiRound_stores mem buf p hs hleft) (p := buf) hstream le_rfl
  obtain ⟨u, hend, -, hublocks⟩ := waitEnd_eq ht (by rw [hleft]; exact Nat.sub_self _)
  refine ⟨u, ?_, ?_⟩
  · rw [hrun, poll_lookWready_opened hpos.ne' hs'.pause, Option.bind_some]
    dsimp only
    rw [sdioWrite_intWready, if_neg (by decide), hint]
    rw [show (blockLoop (multiRound fuel mem buf) num.toNat buf _) = some (true, t) from hloop,
      Option.bind_some]
    exact hend
  · rw [hublocks, hblocks]
    change overwrite s'.blocks (blockOfArg s'.regs.accMode _) _ = _
    rw [hs'.accMode, blockOfArg_argOfBlock haddr, hsblocks]
    rfl

theorem sdioMultiWrite_eq_none (mem : Memory) {addr num : Word} (buf : Word)
    (h : Idle fuel accMode s) (hint : num.toInt.toNat = num.toNat)
    (hnum : num.toNat = 0 ∨ 65536 ≤ num.toNat) :
    sdioMultiWrite fuel mem addr buf num s = none := by
  obtain ⟨s', hs', -, hrun⟩ := sdioMultiWrite_eq_bind mem addr buf num h
  rw [hrun]
  by_cases hzero : num.toNat % 65536 = 0
  · rw [hzero, poll_lookWready_stuck]
    rfl
  · have hstream := streaming_opened 0x193a0026 (argOfBlock accMode addr) hs' hzero
    have hstuck := blockLoop_eq_none (P := Streaming fuel accMode) (f := (· + 512))
      (d := mem.block) (fun p s hs hleft => multiRound_stores mem buf p hs hleft)
      (fun p s hs hleft => multiRound_stuck mem buf p hs hleft) (n := num.toNat) (p := buf)
      hstream (show num.toNat % 65536 < num.toNat by omega)
    rw [poll_lookWready_opened hzero hs'.pause, Option.bind_some]
    dsimp only
    rw [sdioWrite_intWready, if_neg (by decide), hint, hstuck]
    rfl

end Sdio

end Mmc
end EmevBsp
