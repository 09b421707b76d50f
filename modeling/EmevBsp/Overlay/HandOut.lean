import EmevBsp.Overlay.Overlay
import Mathlib.Data.Int.DivMod
import Mathlib.Tactic.Linarith

/-!
# Which buffers `overlay_dequeueBuffer` hands out

The buffers are handed out in turn, and what tells the code that the next one is free is the number
of the queued ones: it waits when that number has reached the number of the buffers.  So the next
buffer is free when the queued buffers are the ones that were handed out last, without a gap, and
when the wait makes the driver give one back.
-/

namespace EmevBsp
namespace Overlay

/-! ## Frames that fit -/

/-- The bytes of a frame: its sides on 16-pixel boundaries, and two or three bytes for two
pixels. -/
def frameBytes (w h : BitVec 32) : OverlayFormat → ℕ
  | .ycbcr422Sp => 16 * ((w.toNat + 15) / 16) * (16 * ((h.toNat + 15) / 16)) * 2
  | .ycbcr420Sp | .ycbcr420P | .other =>
    16 * ((w.toNat + 15) / 16) * (16 * ((h.toNat + 15) / 16)) * 3 / 2

/-- The frame is not empty, and fits into the memory. -/
def FrameFits (w h : BitVec 32) (format : OverlayFormat) : Prop :=
  0 < w.toNat ∧ 0 < h.toNat ∧ frameBytes w h format ≤ 0x00200000

theorem wrap_eq {x : ℤ} (hlo : 0 ≤ x) (hhi : x < 2 ^ 31) : wrap x = x := by
  rw [wrap]
  exact Int.bmod_eq_of_le (by omega) (by omega)

theorem alignSide_eq {w : BitVec 32} (hw : 16 * ((w.toNat + 15) / 16) ≤ 2 ^ 23) :
    alignSide w = (16 * ((w.toNat + 15) / 16) : ℕ) := by
  have hfloor : wrap (w.toNat - w.toNat % 16) = w.toNat - w.toNat % 16 :=
    wrap_eq (by omega) (by omega)
  rw [alignSide, hfloor]
  split_ifs with hmod
  · rw [wrap_eq (by omega) (by omega)]
    omega
  · rw [wrap_eq (by omega) (by omega)]
    omega

theorem frameSize_eq {w h : BitVec 32} {format : OverlayFormat} {size : ℤ}
    (hfits : FrameFits w h format) (hsize : frameSize w h format = some size) :
    size = frameBytes w h format ∧ 0 < frameBytes w h format := by
  obtain ⟨hw, hh, hbytes⟩ := hfits
  have ha : 16 ≤ 16 * ((w.toNat + 15) / 16) := by omega
  have hb : 16 ≤ 16 * ((h.toNat + 15) / 16) := by omega
  have harea : 16 * ((w.toNat + 15) / 16) * (16 * ((h.toNat + 15) / 16)) ≤ 2 ^ 21 := by
    cases format <;> simp only [frameBytes] at hbytes <;> omega
  have hwide : 16 * ((w.toNat + 15) / 16) * 16 ≤
      16 * ((w.toNat + 15) / 16) * (16 * ((h.toNat + 15) / 16)) := Nat.mul_le_mul_left _ hb
  have hhigh : 16 * (16 * ((h.toNat + 15) / 16)) ≤
      16 * ((w.toNat + 15) / 16) * (16 * ((h.toNat + 15) / 16)) := Nat.mul_le_mul_right _ ha
  have hpos := Nat.mul_le_mul ha hb
  have hsides : wrap (alignSide w * alignSide h) =
      (16 * ((w.toNat + 15) / 16) * (16 * ((h.toNat + 15) / 16)) : ℕ) := by
    rw [alignSide_eq (by omega), alignSide_eq (by omega), ← Nat.cast_mul]
    exact wrap_eq (by omega) (by omega)
  cases format with
  | other => exact nomatch hsize
  | ycbcr422Sp =>
    obtain rfl := Option.some.inj hsize
    rw [hsides, frameBytes]
    generalize 16 * ((w.toNat + 15) / 16) * (16 * ((h.toNat + 15) / 16)) = area at hpos harea
    rw [wrap_eq (by omega) (by omega)]
    omega
  | _ =>
    obtain rfl := Option.some.inj hsize
    rw [hsides, frameBytes]
    generalize 16 * ((w.toNat + 15) / 16) * (16 * ((h.toNat + 15) / 16)) = area at hpos harea
    rw [wrap_eq (by omega) (by omega), Int.tdiv_eq_ediv_of_nonneg (by omega)]
    omega

/-- **What a frame that fits is created with**: one to three buffers that fit into the memory
together. -/
theorem overlayCreateOverlay_eq {w h : BitVec 32} {format : OverlayFormat} {bufNum size : ℤ}
    (hfits : FrameFits w h format) (hcreate : overlayCreateOverlay w h format = some (bufNum, size)) :
    ∃ n m : ℕ, bufNum = n ∧ size = m ∧ 1 ≤ n ∧ n ≤ 3 ∧ 0 < m ∧ n * m ≤ 0x00200000 := by
  rw [overlayCreateOverlay] at hcreate
  cases hsize : frameSize w h format with
  | none =>
    rw [hsize] at hcreate
    exact nomatch hcreate
  | some m =>
    obtain ⟨rfl, hpos⟩ := frameSize_eq hfits hsize
    rw [hsize] at hcreate
    dsimp only at hcreate
    split_ifs at hcreate with hzero
    obtain ⟨hnum, hm⟩ := Prod.mk.inj (Option.some.inj hcreate)
    have hdiv : overlayBufferSize.tdiv (frameBytes w h format) =
        (0x00200000 / frameBytes w h format : ℕ) := rfl
    have hone : 1 ≤ 0x00200000 / frameBytes w h format := Nat.div_pos hfits.2.2 hpos
    have hmul : 0x00200000 / frameBytes w h format * frameBytes w h format ≤ 0x00200000 :=
      Nat.div_mul_le_self _ _
    rw [bufferCount, hdiv] at hnum
    split_ifs at hnum with hmany hnone
    · refine ⟨3, _, hnum.symm, hm.symm, by decide, le_rfl, hpos, ?_⟩
      have hthree : 3 ≤ 0x00200000 / frameBytes w h format := by
        rw [v4lMaxBuf] at hmany
        omega
      exact (Nat.mul_le_mul_right _ hthree).trans hmul
    · exact absurd hnone (by omega)
    · rw [v4lMaxBuf] at hmany
      exact ⟨_, _, hnum.symm, hm.symm, hone, by omega, hpos, hmul⟩

/-! ## Calls without a gap -/

/-- The address of a mapped buffer. -/
def Own (c : DataContext) (addr : BitVec 32) : Prop :=
  ∃ i : ℕ, (i : ℤ) < c.bufNum ∧ addr = c.vaddr i

/-- The condition on a call.  A buffer is asked for when none of the mapped ones is queued; or when
the driver has taken the last one that was handed out, and fewer than all of them are left in the
queue, if need be after a wait.  A buffer is queued in its turn, with its own address or one
elsewhere; and when the driver takes memory of the client, three buffers are mapped. -/
def CallOk (s : World) : Call → Prop
  | .dequeue done =>
    (∀ addr ∈ s.state.queue, ¬ Own s.state.ctx addr) ∨
      (s.held = none ∧ (s.state.ctx.num < s.state.ctx.bufNum ∨
        1 < s.state.ctx.num ∧ s.state.ctx.num < s.state.ctx.bufNum + done))
  | .queue index vaddr accepted _ =>
    s.state.ctx.streamEn = false ∨
      (s.held = some index ∧ (vaddr = s.state.ctx.vaddr index ∨ ¬ Own s.state.ctx vaddr) ∧
        (s.state.ctx.first = false → accepted = true → s.state.ctx.bufNum = v4lMaxBuf))
  | .commit => True

/-- How many buffers were handed out and have not been taken, as far as the turn goes. -/
def pending (s : World) : ℕ := if s.held = none then 0 else 1

/-- **The invariant.**  `n` buffers of `m` bytes are mapped; and from the last queued buffer back,
each queued one of them was handed out in its turn. -/
structure Inv (mem : BitVec 32) (n m : ℕ) (s : World) : Prop where
  bufNum : s.state.ctx.bufNum = n
  size : s.state.ctx.size = m
  mapSize : s.state.ctx.mapSize = (n * m : ℕ)
  vaddr : ∀ i < n, (s.state.ctx.vaddr i).toNat = mem.toNat + i * m
  index : s.state.ctx.index < n
  num : s.state.ctx.num = s.state.queue.length
  held : ∀ i, s.held = some i → i < n ∧ s.state.ctx.index = (i + 1) % n
  turn : ∀ p addr i, s.state.queue[p]? = some addr → i < n → addr = s.state.ctx.vaddr i →
    (i + p + 1 + pending s) % n = s.state.ctx.index

theorem own_iff {mem : BitVec 32} {n m : ℕ} {s : World} (hs : Inv mem n m s) {addr : BitVec 32} :
    Own s.state.ctx addr ↔ ∃ i < n, addr = s.state.ctx.vaddr i := by
  rw [Own, hs.bufNum]
  simp only [Int.ofNat_lt]

theorem Inv.vaddr_injective {mem : BitVec 32} {n m : ℕ} {s : World} (hs : Inv mem n m s)
    (hm : 0 < m) {i j : ℕ} (hi : i < n) (hj : j < n)
    (heq : s.state.ctx.vaddr i = s.state.ctx.vaddr j) : i = j := by
  have hsame := congrArg BitVec.toNat heq
  rw [hs.vaddr i hi, hs.vaddr j hj] at hsame
  exact Nat.eq_of_mul_eq_mul_right hm (Nat.add_left_cancel hsame)

theorem nextIndex_eq {c : DataContext} {n : ℕ} (hnum : c.bufNum = n) (hindex : c.index < n) :
    nextIndex c = (c.index + 1) % n := by
  rw [nextIndex, hnum]
  split_ifs with hlast
  · have hlen : c.index + 1 = n := by omega
    rw [hlen, Nat.mod_self]
  · rw [Nat.mod_eq_of_lt (by omega)]

theorem waitBuffers_spec {mem : BitVec 32} {n m : ℕ} {s : World} (hs : Inv mem n m s)
    (done : ℕ) : Inv mem n m { s with state := waitBuffers s.state done } := by
  rw [waitBuffers]
  split_ifs with hwait
  · refine ⟨hs.bufNum, hs.size, hs.mapSize, hs.vaddr, hs.index, ?_, hs.held, ?_⟩
    · show s.state.ctx.num - (min done s.state.queue.length : ℕ) =
        ((s.state.queue.take (s.state.queue.length - done)).length : ℤ)
      rw [hs.num, List.length_take]
      omega
    · intro p addr i hp hi haddr
      have hp' : (s.state.queue.take (s.state.queue.length - done))[p]? = some addr := hp
      rw [List.getElem?_take] at hp'
      split_ifs at hp'
      exact hs.turn p addr i hp' hi haddr
  · exact hs

/-- What the client gets. -/
def HandOutOk (s : World) (done : ℕ) : Prop :=
  let r := overlayDequeueBuffer s.state done
  (s.state.ctx.vaddr 0).toNat ≤ r.1.2.toNat ∧
    r.1.2.toNat + s.state.ctx.size ≤ (s.state.ctx.vaddr 0).toNat + s.state.ctx.mapSize ∧
    r.1.2 ∉ r.2.queue

theorem waitBuffers_ctx (s : State) (done : ℕ) :
    (waitBuffers s done).ctx.vaddr = s.ctx.vaddr ∧
      (waitBuffers s done).ctx.index = s.ctx.index := by
  rw [waitBuffers]
  split_ifs
  · exact ⟨rfl, rfl⟩
  · exact ⟨rfl, rfl⟩

theorem waitBuffers_queue_subset (s : State) (done : ℕ) : (waitBuffers s done).queue ⊆ s.queue := by
  rw [waitBuffers]
  split_ifs
  · exact List.take_subset _ _
  · exact List.Subset.refl _

theorem waitBuffers_length {mem : BitVec 32} {n m : ℕ} {s : World} (hs : Inv mem n m s) {done : ℕ}
    (hwait : s.state.ctx.num < s.state.ctx.bufNum ∨
      1 < s.state.ctx.num ∧ s.state.ctx.num < s.state.ctx.bufNum + done) :
    (waitBuffers s.state done).queue.length < n := by
  have hnum := hs.num
  have hbuf := hs.bufNum
  have hpos : 0 < n := Nat.zero_lt_of_lt hs.index
  rw [waitBuffers]
  split_ifs with hfull
  · rw [List.length_take]
    omega
  · omega

theorem add_mod_ne_self {n i k : ℕ} (hpos : 0 < k) (hlt : k < n) : (i + k) % n ≠ i % n := by
  intro heq
  have hzero : k ≡ 0 [MOD n] := Nat.ModEq.add_left_cancel' i heq
  exact hpos.ne' (Nat.eq_zero_of_dvd_of_lt (Nat.modEq_zero_iff_dvd.mp hzero) hlt)

theorem Inv.handOutOk {mem : BitVec 32} {n m : ℕ} {s : World} (hs : Inv mem n m s) {done : ℕ}
    (hok : CallOk s (.dequeue done)) : HandOutOk s done := by
  have hwaited := waitBuffers_spec hs done
  have hindex : s.state.ctx.index < n := hs.index
  have hvaddr := waitBuffers_ctx s.state done
  have haddr : (overlayDequeueBuffer s.state done).1.2 = s.state.ctx.vaddr s.state.ctx.index := by
    rw [← hvaddr.1, ← hvaddr.2]
    rfl
  rw [HandOutOk, haddr, hs.vaddr 0 (Nat.zero_lt_of_lt hindex), hs.vaddr _ hindex, hs.size,
    hs.mapSize]
  refine ⟨Nat.add_le_add_left (by omega) _, ?_, fun hmem => ?_⟩
  · have hend : (s.state.ctx.index + 1) * m ≤ n * m := Nat.mul_le_mul_right m hindex
    rw [Nat.succ_mul] at hend
    omega
  · replace hmem : s.state.ctx.vaddr s.state.ctx.index ∈ (waitBuffers s.state done).queue := hmem
    rcases hok with hnone | ⟨hheld, hwait⟩
    · exact hnone _ (waitBuffers_queue_subset _ _ hmem) ((own_iff hs).mpr ⟨_, hindex, rfl⟩)
    · obtain ⟨p, hp⟩ := List.mem_iff_getElem?.mp hmem
      obtain ⟨hlen, -⟩ := List.getElem?_eq_some_iff.mp hp
      have hturn := hwaited.turn p _ s.state.ctx.index hp hindex (congrFun hvaddr.1 _).symm
      have hpending : pending { s with state := waitBuffers s.state done } = 0 := if_pos hheld
      have hshort := waitBuffers_length hs hwait
      refine add_mod_ne_self (i := s.state.ctx.index) (Nat.succ_pos p) (by omega : p + 1 < n) ?_
      rw [hpending] at hturn
      rw [Nat.mod_eq_of_lt hindex]
      exact hturn.trans hvaddr.2

/-! ## Each call keeps the invariant -/

theorem Inv.dequeue {mem : BitVec 32} {n m : ℕ} {s : World} (hs : Inv mem n m s) {done : ℕ}
    (hok : CallOk s (.dequeue done)) : Inv mem n m (s.call (.dequeue done)) := by
  have hwaited := waitBuffers_spec hs done
  have hnext := nextIndex_eq hwaited.bufNum hwaited.index
  have hpos : 0 < n := Nat.zero_lt_of_lt hwaited.index
  refine ⟨hwaited.bufNum, hwaited.size, hwaited.mapSize, hwaited.vaddr, ?_, hwaited.num, ?_, ?_⟩
  · exact hnext.trans_lt (Nat.mod_lt _ hpos)
  · intro i hi
    obtain rfl := Option.some.inj hi
    exact ⟨hwaited.index, hnext⟩
  · intro p addr i hp hi haddr
    rcases hok with hnone | ⟨hheld, -⟩
    · refine absurd ((own_iff hs).mpr ⟨i, hi, ?_⟩)
        (hnone addr (waitBuffers_queue_subset _ _ (List.mem_of_getElem? hp)))
      exact haddr.trans (congrFun (waitBuffers_ctx s.state done).1 i)
    · have hturn := hwaited.turn p addr i hp hi haddr
      have hpending : pending { s with state := waitBuffers s.state done } = 0 := if_pos hheld
      rw [hpending] at hturn
      refine Eq.trans ?_ hnext.symm
      rw [← hturn]
      exact (Nat.mod_add_mod _ _ _).symm

theorem Inv.flags {mem : BitVec 32} {n m : ℕ} {s : World} (hs : Inv mem n m s)
    (first direct : Bool) :
    Inv mem n m { s with state :=
      { s.state with ctx := { s.state.ctx with first := first, direct := direct } } } :=
  ⟨hs.bufNum, hs.size, hs.mapSize, hs.vaddr, hs.index, hs.num, hs.held, hs.turn⟩

theorem Inv.queBuffer {mem : BitVec 32} {n m : ℕ} {s : World} (hs : Inv mem n m s) (hm : 0 < m)
    {i : ℕ} (hheld : s.held = some i) {addr : BitVec 32}
    (haddr : addr = s.state.ctx.vaddr i ∨ ¬ Own s.state.ctx addr) (accepted : Bool) :
    Inv mem n m (s.queued (queBuffer s.state addr accepted)) := by
  cases accepted with
  | false =>
    have hsame : s.queued (Overlay.queBuffer s.state addr false) = s := by
      rw [Overlay.queBuffer, if_neg Bool.false_ne_true, World.queued, if_pos rfl]
    rw [hsame]
    exact hs
  | true =>
    obtain ⟨hi, hindex⟩ := hs.held i hheld
    have hpending : pending s = 1 := if_neg (by rw [hheld]; exact Option.some_ne_none i)
    have hlonger : (addr :: s.state.queue).length ≠ s.state.queue.length := by
      rw [List.length_cons]
      exact Nat.succ_ne_self _
    have hheld' : (s.queued (Overlay.queBuffer s.state addr true)).held = none := if_neg hlonger
    have hpending' : pending (s.queued (Overlay.queBuffer s.state addr true)) = 0 := if_pos hheld'
    refine ⟨hs.bufNum, hs.size, hs.mapSize, hs.vaddr, hs.index, ?_, ?_, ?_⟩
    · show s.state.ctx.num + 1 = ((addr :: s.state.queue).length : ℤ)
      rw [hs.num, List.length_cons]
      rfl
    · intro j hj
      rw [hheld'] at hj
      exact nomatch hj
    · intro p a j hp hj ha
      rw [hpending']
      cases p with
      | zero =>
        obtain rfl := Option.some.inj hp
        rcases haddr with hown | hother
        · have heq := hs.vaddr_injective hm hi hj (hown.symm.trans ha)
          rw [← heq]
          exact hindex.symm
        · exact absurd ((own_iff hs).mpr ⟨j, hj, ha⟩) hother
      | succ p =>
        have hturn := hs.turn p a j hp hj ha
        rw [hpending] at hturn
        exact hturn

theorem Inv.queue {mem : BitVec 32} {n m : ℕ} {s : World} (hs : Inv mem n m s) (hm : 0 < m)
    {index : ℕ} {vaddr : BitVec 32} {accepted copied : Bool}
    (hok : CallOk s (.queue index vaddr accepted copied)) :
    Inv mem n m (s.call (.queue index vaddr accepted copied)) := by
  rw [World.call, overlayQueueBuffer]
  split_ifs with hstream hfirst hdirect
  · obtain ⟨hheld, haddr, hthree⟩ := hok.resolve_left (by rw [hstream]; exact Bool.false_ne_true.symm)
    rw [queueFirst]
    split_ifs with haccepted
    · -- the driver takes the memory of the client, and three buffers are mapped already
      rw [← hthree hfirst haccepted]
      exact (hs.flags true true).queBuffer hm hheld haddr true
    · exact (hs.flags true false).queBuffer hm hheld (.inl rfl) copied
  · obtain ⟨hheld, haddr, -⟩ := hok.resolve_left (by rw [hstream]; exact Bool.false_ne_true.symm)
    exact hs.queBuffer hm hheld (.inl rfl) accepted
  · obtain ⟨hheld, haddr, -⟩ := hok.resolve_left (by rw [hstream]; exact Bool.false_ne_true.symm)
    exact hs.queBuffer hm hheld haddr accepted
  · have hsame : s.queued s.state = s := by
      rw [World.queued, if_pos rfl]
    rw [hsame]
    exact hs

theorem Inv.call {mem : BitVec 32} {n m : ℕ} {s : World} (hs : Inv mem n m s) (hm : 0 < m)
    {call : Call} (hok : CallOk s call) : Inv mem n m (s.call call) := by
  cases call with
  | dequeue done => exact hs.dequeue hok
  | queue index vaddr accepted copied => exact hs.queue hm hok
  | commit => exact ⟨hs.bufNum, hs.size, hs.mapSize, hs.vaddr, hs.index, hs.num, hs.held, hs.turn⟩

theorem mapSize_overlayInitialize {mem : BitVec 32} {n m : ℕ} {streamEn : Bool}
    (hsize : n * m ≤ 0x00200000) :
    (overlayInitialize n m mem streamEn).mapSize = (n * m : ℕ) := by
  have hproduct : (m * n : ℤ) = (n * m : ℕ) := by
    rw [Nat.cast_mul, Int.mul_comm]
  simp only [overlayInitialize, hproduct]
  exact wrap_eq (by omega) (by omega)

theorem Inv.initial {mem : BitVec 32} {n m : ℕ} {streamEn : Bool} (hn : 1 ≤ n) (hm : 0 < m)
    (hsize : n * m ≤ 0x00200000) (hmem : mem.toNat + (n * m : ℕ) ≤ 2 ^ 32) :
    Inv mem n m ⟨⟨overlayInitialize n m mem streamEn, []⟩, none⟩ := by
  refine ⟨rfl, rfl, mapSize_overlayInitialize hsize, fun i hi => ?_, hn, rfl,
    fun i h => (nomatch h), fun p a i h => (nomatch h)⟩
  · show BitVec.toNat (if i = 0 then mem else if (i : ℤ) < n then mem + BitVec.ofInt 32 (i * m)
      else 0) = mem.toNat + i * m
    split_ifs with hzero hlt
    · rw [hzero, Nat.zero_mul, Nat.add_zero]
    · have hend : (i + 1) * m ≤ n * m := Nat.mul_le_mul_right m hi
      rw [Nat.succ_mul] at hend
      have hoffset : (BitVec.ofInt 32 (i * m)).toNat = i * m := by
        rw [BitVec.toNat_ofInt, ← Nat.cast_mul, ← Int.natCast_emod, Int.toNat_natCast]
        exact Nat.mod_eq_of_lt (by omega)
      rw [BitVec.toNat_add, hoffset]
      exact Nat.mod_eq_of_lt (by omega)
    · exact absurd (Int.ofNat_lt.mpr hi) hlt

/-- **The buffers that are handed out.**  When a frame fits into the memory, the mapping is no
larger than the memory; and in every run whose calls meet the condition, every buffer that is handed
out is mapped as a whole and not queued. -/
theorem handOut_correct {w h : BitVec 32} {format : OverlayFormat} {mem : BitVec 32}
    (hfits : FrameFits w h format) {s : World}
    (hs : ((overlaySystem w h format mem).restrict CallOk).Reachable s) :
    s.state.ctx.mapSize ≤ overlayBufferSize ∧
      ∀ done, CallOk s (.dequeue done) → HandOutOk s done := by
  have hinv : ∃ n m, 0 < m ∧ n * m ≤ 0x00200000 ∧ Inv mem n m s := by
    refine TransitionSystem.Reachable.invariant_restrict
      (I := fun s => ∃ n m, 0 < m ∧ n * m ≤ 0x00200000 ∧ Inv mem n m s) ?_ ?_ hs
    · rintro _ ⟨bufNum, size, streamEn, hcreate, hmem, rfl⟩
      obtain ⟨n, m, rfl, rfl, hn, -, hm, hsize⟩ := overlayCreateOverlay_eq hfits hcreate
      rw [mapSize_overlayInitialize hsize] at hmem
      exact ⟨n, m, hm, hsize, .initial hn hm hsize (by omega)⟩
    · rintro s call _ ⟨n, m, hm, hsize, hinv⟩ hok rfl
      exact ⟨n, m, hm, hsize, hinv.call hm hok⟩
  obtain ⟨n, m, hm, hsize, hinv⟩ := hinv
  refine ⟨?_, fun done hok => hinv.handOutOk hok⟩
  rw [hinv.mapSize]
  exact Int.ofNat_le.mpr hsize

/-- An overlay of 640 by 480: the second buffer, while the first is queued. -/
theorem handOut_correct_vga :
    HandOutOk (((⟨⟨overlayInitialize 3 460800 0x40000000 true, []⟩, none⟩ : World).call
      (.dequeue 0)).call (.queue 0 0x40000000 false true)) 0 := by
  have hinit : ((overlaySystem 640 480 .ycbcr420Sp 0x40000000).restrict CallOk).Reachable
      ⟨⟨overlayInitialize 3 460800 0x40000000 true, []⟩, none⟩ :=
    .init ⟨3, 460800, true, by decide, by decide, rfl⟩
  have hdequeue : CallOk ⟨⟨overlayInitialize 3 460800 0x40000000 true, []⟩, none⟩ (.dequeue 0) :=
    .inl fun addr haddr => absurd haddr List.not_mem_nil
  have hqueue : CallOk ((⟨⟨overlayInitialize 3 460800 0x40000000 true, []⟩, none⟩ : World).call
      (.dequeue 0)) (.queue 0 0x40000000 false true) :=
    .inr ⟨rfl, .inl rfl, fun _ h => absurd h Bool.false_ne_true⟩
  have hrun := (hinit.step ⟨hdequeue, rfl⟩).step ⟨hqueue, rfl⟩
  exact (handOut_correct ⟨by decide, by decide, by decide⟩ hrun).2 0 (.inr ⟨rfl, .inl (by decide)⟩)

/-- **A frame of 1920 by 1080** is mapped beyond the end of the memory. -/
theorem not_handOut_correct : ¬ ∀ (w h : BitVec 32) (format : OverlayFormat) (mem : BitVec 32)
    (s : World), (overlaySystem w h format mem).Reachable s →
      s.state.ctx.mapSize ≤ overlayBufferSize ∧ ∀ done, HandOutOk s done := by
  intro hall
  have hinit : (overlaySystem 1920 1080 .ycbcr420Sp 0x40000000).Reachable
      ⟨⟨overlayInitialize 1 3133440 0x40000000 false, []⟩, none⟩ :=
    .init ⟨1, 3133440, false, by decide, by decide, rfl⟩
  exact absurd (hall _ _ _ _ _ hinit).1 (by decide)

end Overlay
end EmevBsp
