import EmevBsp.Library.Ring
import EmevBsp.Library.TransitionSystem
import Mathlib.Data.BitVec

/-!
# The circular buffer of `common/circbuf.c`

A `circbuf_t` holds `size` bytes in an area of `totalsize`: `top` points to the oldest byte, `tail`
to the place for the next one, and both go from `end` back to `data`.  A push into a full buffer
goes over the oldest byte and moves `top` as well, and a push may be longer than the whole area.

The pointers are kept as distances from `data`.  A call of `buf_push` is given the bytes at `src`,
as many as `len` says, and one of `buf_pop` gives the bytes it stores at `dest`.
-/

namespace EmevBsp
namespace Circbuf

/-- `circbuf_t`.  The pointers `top`, `tail` and `end` are distances from `data`. -/
structure CircbufT where
  size : BitVec 32
  totalsize : BitVec 32
  top : ℕ
  tail : ℕ
  data : ℕ → UInt8
  stop : ℕ

/-- `buf_init`: the allocated bytes are whatever they were. -/
def bufInit (data : ℕ → UInt8) (size : BitVec 32) : CircbufT where
  size := 0
  totalsize := size
  top := 0
  tail := 0
  data := data
  stop := size.toNat

/-- The bounds check after a pointer was moved on. -/
def next (buf : CircbufT) (p : ℕ) : ℕ :=
  if p + 1 = buf.stop then 0 else p + 1

/-- The loop of `buf_pop`: the bytes stored at `dest` and the pointer after them. -/
def popLoop (buf : CircbufT) (p : ℕ) : ℕ → List UInt8 × ℕ
  | 0 => ([], p)
  | len + 1 =>
    let rest := popLoop buf (next buf p) len
    (buf.data p :: rest.1, rest.2)

/-- `buf_pop`: the value returned, the bytes stored at `dest` and the buffer after the call. -/
def bufPop (buf : CircbufT) (len : BitVec 32) : BitVec 32 × List UInt8 × CircbufT :=
  let len := if len > buf.size then buf.size else len
  let (dest, p) := popLoop buf buf.top len.toNat
  (len, dest, { buf with top := p, size := buf.size - len })

/-- One round of the loop of `buf_push`, with the local `p`. -/
def pushByte (s : CircbufT × ℕ) (c : UInt8) : CircbufT × ℕ :=
  let buf := { s.1 with data := Function.update s.1.data s.2 c }
  let p := next buf s.2
  if buf.size < buf.totalsize then ({ buf with size := buf.size + 1 }, p)
  else ({ buf with top := next buf buf.top }, p)

/-- `buf_push`: the value returned is `len`. -/
def bufPush (buf : CircbufT) (src : List UInt8) : CircbufT :=
  let (buf, p) := src.foldl pushByte (buf, buf.tail)
  { buf with tail := p }

/-! ## What the buffer holds -/

/-- The buffer of `n` cells holds the bytes of `q`, oldest first, and the next byte goes to `p`.
The cells outside the allocated ones are as in `mem`. -/
structure HoldsAt (n : ℕ) (mem : ℕ → UInt8) (buf : CircbufT) (p : ℕ) (q : List UInt8) : Prop where
  totalsize : buf.totalsize.toNat = n
  stop : buf.stop = n
  top : buf.top < n
  tail : p = (buf.top + buf.size.toNat) % n
  size : buf.size.toNat ≤ n
  contents : Ring.segment buf.data n buf.top buf.size.toNat = q
  outside : ∀ i, n ≤ i → buf.data i = mem i

/-- The buffer of `n` cells holds the bytes of `q`, oldest first. -/
def Holds (n : ℕ) (mem : ℕ → UInt8) (buf : CircbufT) (q : List UInt8) : Prop :=
  HoldsAt n mem buf buf.tail q

variable {n : ℕ} {mem : ℕ → UInt8} {buf : CircbufT} {p : ℕ} {q : List UInt8}

theorem HoldsAt.pos (h : HoldsAt n mem buf p q) : 0 < n :=
  Nat.lt_of_le_of_lt (Nat.zero_le _) h.top

theorem HoldsAt.length (h : HoldsAt n mem buf p q) : q.length = buf.size.toNat := by
  rw [← h.contents, Ring.length_segment]

theorem HoldsAt.tail_lt (h : HoldsAt n mem buf p q) : p < n :=
  h.tail ▸ Nat.mod_lt _ h.pos

theorem HoldsAt.next_eq (h : HoldsAt n mem buf p q) (i : ℕ) : next buf i = Ring.advance n i := by
  rw [next, h.stop, Ring.advance]

theorem holds_bufInit (data : ℕ → UInt8) {size : BitVec 32} (hsize : 0 < size.toNat) :
    Holds size.toNat data (bufInit data size) [] where
  totalsize := rfl
  stop := rfl
  top := hsize
  tail := (Nat.zero_mod _).symm
  size := Nat.zero_le _
  contents := rfl
  outside := fun _ _ => rfl

/-! ## Taking bytes out -/

theorem popLoop_eq (h : buf.stop = n) {i : ℕ} (hi : i < n) (k : ℕ) :
    popLoop buf i k = (Ring.segment buf.data n i k, (i + k) % n) := by
  induction k generalizing i with
  | zero => rw [popLoop, Ring.segment_zero, Nat.add_zero, Nat.mod_eq_of_lt hi]
  | succ k ih =>
    have hnext : next buf i = Ring.advance n i := by rw [next, h, Ring.advance]
    have hpos : (Ring.advance n i + k) % n = (i + (k + 1)) % n := by
      rw [Ring.advance_eq_mod hi, Nat.mod_add_mod, Nat.add_assoc, Nat.add_comm 1 k]
    rw [popLoop, hnext, ih (Ring.advance_lt hi), Ring.segment_succ buf.data hi, hpos]

theorem toNat_cap (len size : BitVec 32) :
    (if len > size then size else len).toNat = min len.toNat size.toNat := by
  by_cases h : len > size
  · have hlt : size.toNat < len.toNat := h
    rw [if_pos h, Nat.min_eq_right (Nat.le_of_lt hlt)]
  · have hle : len.toNat ≤ size.toNat := Nat.le_of_not_lt h
    rw [if_neg h, Nat.min_eq_left hle]

/-- **`buf_pop`** takes the oldest bytes, as many as asked for or as there are. -/
theorem Holds.pop (h : Holds n mem buf q) (len : BitVec 32) :
    (bufPop buf len).1.toNat = min len.toNat q.length ∧
      (bufPop buf len).2.1 = q.take len.toNat ∧
      Holds n mem (bufPop buf len).2.2 (q.drop len.toNat) := by
  have hcap := toNat_cap len buf.size
  set k := (if len > buf.size then buf.size else len) with hk
  have hle : k.toNat ≤ buf.size.toNat := hcap ▸ Nat.min_le_right _ _
  have hpop : bufPop buf len = (k, Ring.segment buf.data n buf.top k.toNat,
      { buf with top := (buf.top + k.toNat) % n, size := buf.size - k }) := by
    rw [bufPop, ← hk, popLoop_eq h.stop h.top]
  have hsize : (buf.size - k).toNat = buf.size.toNat - k.toNat := BitVec.toNat_sub_of_le hle
  -- the bytes held are those that go out and those that stay
  have hsplit : q = Ring.segment buf.data n buf.top k.toNat ++
      Ring.segment buf.data n ((buf.top + k.toNat) % n) (buf.size.toNat - k.toNat) := by
    rw [← Ring.segment_add, Nat.add_sub_cancel' hle, h.contents]
  have htake : q.take len.toNat = q.take k.toNat := by
    rw [hcap, ← h.length, ← List.take_eq_take_min]
  have hdrop : q.drop len.toNat = q.drop k.toNat := by
    rw [hcap, ← h.length, ← List.drop_eq_drop_min]
  rw [hpop, htake, hdrop]
  refine ⟨hcap.trans (by rw [h.length]), ?_, ?_⟩
  · conv_rhs => rw [hsplit, List.take_left' (Ring.length_segment _ _ _ _)]
  · refine ⟨h.totalsize, h.stop, Nat.mod_lt _ h.pos, ?_, ?_, ?_, h.outside⟩
    · change buf.tail = ((buf.top + k.toNat) % n + (buf.size - k).toNat) % n
      rw [hsize, Nat.mod_add_mod, Nat.add_assoc, Nat.add_sub_cancel' hle]
      exact h.tail
    · exact hsize ▸ Nat.le_trans (Nat.sub_le _ _) h.size
    · change Ring.segment buf.data n ((buf.top + k.toNat) % n) (buf.size - k).toNat = _
      conv_rhs => rw [hsplit, List.drop_left' (Ring.length_segment _ _ _ _)]
      rw [hsize]

/-! ## Putting bytes in -/

theorem HoldsAt.room (h : HoldsAt n mem buf p q) (hroom : buf.size.toNat < n)
    (c : UInt8) : HoldsAt n mem (pushByte (buf, p) c).1 (pushByte (buf, p) c).2 (q ++ [c]) := by
  have hlt : buf.size < buf.totalsize := by
    change buf.size.toNat < buf.totalsize.toNat
    rwa [h.totalsize]
  have hone : (buf.size + 1).toNat = buf.size.toNat + 1 := by
    have hword := buf.totalsize.isLt
    rw [h.totalsize] at hword
    rw [BitVec.toNat_add, Nat.mod_eq_of_lt]
    · rfl
    · change buf.size.toNat + 1 < 2 ^ 32
      omega
  have hpush : pushByte (buf, p) c =
      ({ buf with data := Function.update buf.data p c, size := buf.size + 1 }, next buf p) := by
    rw [pushByte, if_pos hlt]
    rfl
  rw [hpush]
  refine ⟨h.totalsize, h.stop, h.top, ?_, ?_, ?_, ?_⟩
  · change next buf p = (buf.top + (buf.size + 1).toNat) % n
    rw [h.next_eq, h.tail, Ring.advance_mod h.pos, hone]
  · exact hone ▸ hroom
  · change Ring.segment (Function.update buf.data p c) n buf.top (buf.size + 1).toNat = _
    rw [hone, h.tail, Ring.segment_update buf.data hroom c, h.contents]
  · intro i hi
    rw [← h.outside i hi]
    exact Function.update_of_ne (Nat.ne_of_gt (Nat.lt_of_lt_of_le h.tail_lt hi)) _ _

theorem HoldsAt.full (h : HoldsAt n mem buf p q) (hfull : buf.size.toNat = n)
    (c : UInt8) :
    HoldsAt n mem (pushByte (buf, p) c).1 (pushByte (buf, p) c).2 (q.tail ++ [c]) := by
  have hlt : ¬ buf.size < buf.totalsize := by
    change ¬ buf.size.toNat < buf.totalsize.toNat
    rw [h.totalsize, hfull]
    exact Nat.lt_irrefl n
  have hpush : pushByte (buf, p) c =
      ({ buf with data := Function.update buf.data p c, top := next buf buf.top }, next buf p) := by
    rw [pushByte, if_neg hlt]
    rfl
  have hcontents := h.contents
  rw [hfull] at hcontents
  rw [hpush]
  refine ⟨h.totalsize, h.stop, ?_, ?_, h.size, ?_, ?_⟩
  · change next buf buf.top < n
    rw [h.next_eq]
    exact Ring.advance_lt h.top
  · change next buf p = (next buf buf.top + buf.size.toNat) % n
    rw [h.next_eq, h.next_eq, h.tail, Ring.advance_mod h.pos, Ring.advance_eq_mod h.top,
      Nat.mod_add_mod, Nat.add_assoc, Nat.add_comm 1]
  · change Ring.segment (Function.update buf.data p c) n (next buf buf.top) buf.size.toNat = _
    rw [h.next_eq, h.tail, hfull, Ring.segment_update_full buf.data h.top c, hcontents]
  · intro i hi
    rw [← h.outside i hi]
    exact Function.update_of_ne (Nat.ne_of_gt (Nat.lt_of_lt_of_le h.tail_lt hi)) _ _

/-- **A round of `buf_push`** keeps the last `n` of the bytes held and the new one. -/
theorem HoldsAt.byte (h : HoldsAt n mem buf p q) (c : UInt8) :
    HoldsAt n mem (pushByte (buf, p) c).1 (pushByte (buf, p) c).2 ((q ++ [c]).rtake n) := by
  have hlength := h.length
  have hle := h.size
  rw [List.rtake, List.length_append, List.length_singleton]
  by_cases hroom : buf.size.toNat < n
  · rw [show q.length + 1 - n = 0 by omega, List.drop_zero]
    exact h.room hroom c
  · have hpos := h.pos
    rw [show q.length + 1 - n = 1 by omega, List.drop_append_of_le_length (by omega),
      List.drop_one]
    exact h.full (by omega) c

theorem HoldsAt.pushLoop (src : List UInt8) :
    ∀ {s : CircbufT × ℕ} {q : List UInt8}, HoldsAt n mem s.1 s.2 q →
      HoldsAt n mem (src.foldl pushByte s).1 (src.foldl pushByte s).2 ((q ++ src).rtake n) := by
  induction src with
  | nil =>
    intro s q hs
    have hle := hs.length ▸ hs.size
    rwa [List.append_nil, List.rtake, Nat.sub_eq_zero_of_le hle, List.drop_zero]
  | cons c src ih =>
    intro s q hs
    have hrest := ih (hs.byte c)
    rwa [Ring.rtake_rtake_append, List.append_assoc, List.singleton_append] at hrest

/-- **`buf_push`** keeps the last `n` of the bytes held and those pushed. -/
theorem Holds.push (h : Holds n mem buf q) (src : List UInt8) :
    Holds n mem (bufPush buf src) ((q ++ src).rtake n) := by
  have hend := HoldsAt.pushLoop src (s := (buf, buf.tail)) h
  exact ⟨hend.totalsize, hend.stop, hend.top, hend.tail, hend.size, hend.contents, hend.outside⟩

/-! ## Runs -/

/-- A call and what its caller gets. -/
inductive Call where
  | push (src : List UInt8)
  | pop (len : BitVec 32) (ret : BitVec 32) (dest : List UInt8)

/-- The buffer of `size` bytes under calls of `buf_push` and `buf_pop`. -/
def circbuf (data : ℕ → UInt8) (size : BitVec 32) : TransitionSystem CircbufT Call where
  init buf := buf = bufInit data size
  step buf call buf' :=
    match call with
    | .push src => buf' = bufPush buf src
    | .pop len ret dest => (ret, dest, buf') = bufPop buf len

/-- **The queue.**  It keeps the last `n` bytes of what was pushed and not taken out again, and
gives its bytes in the order they came. -/
def fifo (n : ℕ) : TransitionSystem (List UInt8) Call where
  init q := q = []
  step q call q' :=
    match call with
    | .push src => q' = (q ++ src).rtake n
    | .pop len ret dest =>
      ret.toNat = min len.toNat q.length ∧ dest = q.take len.toNat ∧ q' = q.drop len.toNat

theorem Holds.step {data : ℕ → UInt8} {size : BitVec 32} (h : Holds n mem buf q) {call : Call}
    {buf' : CircbufT} (hstep : (circbuf data size).step buf call buf') :
    ∃ q', (fifo n).step q call q' ∧ Holds n mem buf' q' := by
  cases call with
  | push src =>
    change buf' = bufPush buf src at hstep
    subst hstep
    exact ⟨_, rfl, h.push src⟩
  | pop len ret dest =>
    change (ret, dest, buf') = bufPop buf len at hstep
    obtain ⟨hret, hdest, hheld⟩ := h.pop len
    rw [← hstep] at hret hdest hheld
    exact ⟨_, ⟨hret, hdest, rfl⟩, hheld⟩

theorem Holds.run {data : ℕ → UInt8} {size : BitVec 32} {calls : List Call} {buf' : CircbufT}
    (hrun : (circbuf data size).Run buf calls buf') {q : List UInt8} (h : Holds n mem buf q) :
    ∃ q', (fifo n).Run q calls q' ∧ Holds n mem buf' q' := by
  induction hrun generalizing q with
  | nil buf => exact ⟨q, .nil q, h⟩
  | cons hstep _ ih =>
    obtain ⟨q₁, hq₁, h₁⟩ := h.step hstep
    obtain ⟨q₂, hq₂, h₂⟩ := ih h₁
    exact ⟨q₂, .cons hq₁ hq₂, h₂⟩

/-- **The circular buffer is a bounded queue.**  Any run of calls from `buf_init` is a run of the
queue with the same answers.  The buffer then holds what the queue holds, `top` and `tail` point
into the allocated bytes, and no byte outside them was written. -/
theorem circbuf_fifo (data : ℕ → UInt8) (size : BitVec 32) (hsize : 1 ≤ size.toNat)
    (calls : List Call) (buf : CircbufT)
    (hrun : (circbuf data size).Run (bufInit data size) calls buf) :
    ∃ q, (fifo size.toNat).Run [] calls q ∧
      q = Ring.segment buf.data size.toNat buf.top buf.size.toNat ∧
      buf.top < size.toNat ∧ buf.tail < size.toNat ∧
      ∀ i, size.toNat ≤ i → buf.data i = data i := by
  obtain ⟨q, hq, h⟩ := (holds_bufInit data hsize).run hrun
  exact ⟨q, hq, h.contents.symm, h.top, h.tail_lt, h.outside⟩

/-- Three bytes pushed into a buffer of two, and more asked for than it holds. -/
theorem circbuf_fifo_two :
    1 ≤ (2 : BitVec 32).toNat ∧ ∃ buf, (circbuf (fun _ => 0) 2).Run (bufInit (fun _ => 0) 2)
      [.push [1, 2, 3], .pop 5 2 [2, 3]] buf ∧
      ∃ q, (fifo 2).Run [] [.push [1, 2, 3], .pop 5 2 [2, 3]] q ∧
        q = Ring.segment buf.data 2 buf.top buf.size.toNat ∧ buf.top < 2 ∧ buf.tail < 2 ∧
        ∀ i, 2 ≤ i → buf.data i = 0 := by
  have hrun : (circbuf (fun _ => 0) 2).Run (bufInit (fun _ => 0) 2)
      [.push [1, 2, 3], .pop 5 2 [2, 3]]
      (bufPop (bufPush (bufInit (fun _ => 0) 2) [1, 2, 3]) 5).2.2 :=
    .cons rfl (.cons rfl (.nil _))
  exact ⟨by decide, _, hrun, circbuf_fifo (fun _ => 0) 2 (by decide) _ _ hrun⟩

end Circbuf
end EmevBsp
