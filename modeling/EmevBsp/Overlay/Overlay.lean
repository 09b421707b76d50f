import EmevBsp.Library.TransitionSystem
import Mathlib.Data.BitVec
import Mathlib.Data.Int.Basic

/-!
# `liboverlay/overlay.cpp`: the buffers of a video overlay

The control side creates an overlay and works out how many frame buffers fit into the memory that
is set aside for it.  The data side maps that memory and hands the buffers to its client, one after
the other; the client fills a buffer and queues it, and the display driver shows the queued buffers
and gives them back.

The driver is what it holds: the addresses that were queued and not yet dequeued.  Whether it takes
a buffer, and how many buffers it has finished when the data side waits for it, is given with the
call.  The crop rectangle and the times have no part in the buffers.
-/

namespace EmevBsp
namespace Overlay

def v4lMaxBuf : ℤ := 3

def overlayBufferSize : ℤ := 0x00200000

/-- An `int`, after a computation that may have left its range. -/
def wrap (x : ℤ) : ℤ := x.bmod (2 ^ 32)

/-! ## The control side -/

/-- The formats that `overlay_createOverlay` tells apart. -/
inductive OverlayFormat where
  | ycbcr420Sp
  | ycbcr420P
  | ycbcr422Sp
  /-- Every other one is an error. -/
  | other
  deriving DecidableEq

/-- A side, on the next 16-pixel boundary: `w & 0xfffffff0`, and 16 more if `w % 16`. -/
def alignSide (w : BitVec 32) : ℤ :=
  wrap (wrap (w.toNat - w.toNat % 16) + if w.toNat % 16 ≠ 0 then 16 else 0)

/-- The `size` of a buffer. -/
def frameSize (w h : BitVec 32) : OverlayFormat → Option ℤ
  | .ycbcr420Sp => some ((wrap (wrap (alignSide w * alignSide h) * 3)).tdiv 2)
  | .ycbcr420P => some ((wrap (wrap (alignSide w * alignSide h) * 3)).tdiv 2)
  | .ycbcr422Sp => some (wrap (wrap (alignSide w * alignSide h) * 2))
  | .other => none

/-- The `buf_num` for a size. -/
def bufferCount (size : ℤ) : ℤ :=
  if v4lMaxBuf < overlayBufferSize.tdiv size then v4lMaxBuf
  else if overlayBufferSize.tdiv size = 0 then 1
  else overlayBufferSize.tdiv size

/-- `overlay_createOverlay`: `buf_num` and `size`.  At a size of zero the division does not
return. -/
def overlayCreateOverlay (w h : BitVec 32) (format : OverlayFormat) : Option (ℤ × ℤ) :=
  match frameSize w h format with
  | none => none
  | some size => if size = 0 then none else some (bufferCount size, size)

/-! ## The data side -/

/-- `struct overlay_data_context_t`. -/
structure DataContext where
  /-- `shared->streamEn`. -/
  streamEn : Bool
  mapSize : ℤ
  vaddr : ℕ → BitVec 32
  bufNum : ℤ
  index : ℕ
  first : Bool
  num : ℤ
  direct : Bool
  size : ℤ

/-- `overlay_initialize`, of a context that `overlay_device_open` made; `mem` is what `mmap`
returned, and `streamEn` is what the control side left in the shared page. -/
def overlayInitialize (bufNum size : ℤ) (mem : BitVec 32) (streamEn : Bool) : DataContext where
  streamEn := streamEn
  mapSize := wrap (size * bufNum)
  vaddr i :=
    if i = 0 then mem
    else if (i : ℤ) < bufNum then mem + BitVec.ofInt 32 (i * size)
    else 0
  bufNum := bufNum
  index := 0
  first := false
  num := 0
  direct := false
  size := size

/-- The context, with the buffers that are queued in the driver, the last one first. -/
structure State where
  ctx : DataContext
  queue : List (BitVec 32)

/-- The wait in `overlay_dequeueBuffer`.  The driver has finished with the `done` buffers that were
queued first; when `v4l2_slect_wait` runs into its time, these are none. -/
def waitBuffers (s : State) (done : ℕ) : State :=
  if 1 < s.ctx.num ∧ s.ctx.bufNum ≤ s.ctx.num then
    { ctx := { s.ctx with num := s.ctx.num - (min done s.queue.length : ℕ) }
      queue := s.queue.take (s.queue.length - done) }
  else s

/-- The index behind one. -/
def nextIndex (c : DataContext) : ℕ :=
  if c.bufNum ≤ c.index + 1 then 0 else c.index + 1

/-- `overlay_dequeueBuffer`: the index and the address of the buffer. -/
def overlayDequeueBuffer (s : State) (done : ℕ) : (ℕ × BitVec 32) × State :=
  let waited := waitBuffers s done
  ((waited.ctx.index, waited.ctx.vaddr waited.ctx.index),
    { waited with ctx := { waited.ctx with index := nextIndex waited.ctx } })

/-- `v4l2_que_buffer`, and the count of the buffers. -/
def queBuffer (s : State) (addr : BitVec 32) (accepted : Bool) : State :=
  if accepted then { ctx := { s.ctx with num := s.ctx.num + 1 }, queue := addr :: s.queue } else s

/-- The first call of `overlay_queueBuffer`: the driver is asked to take the memory of the client,
and, when it does not, a copy in the buffer. -/
def queueFirst (s : State) (index : ℕ) (vaddr : BitVec 32) (accepted copied : Bool) : State :=
  if accepted then
    queBuffer { s with ctx := { s.ctx with first := true, direct := true, bufNum := v4lMaxBuf } }
      vaddr true
  else
    queBuffer { s with ctx := { s.ctx with first := true, direct := false } }
      (s.ctx.vaddr index) copied

/-- `overlay_queueBuffer`.  The driver says whether it takes the buffer, and for the second try of
the first call, whether it takes the copy. -/
def overlayQueueBuffer (s : State) (index : ℕ) (vaddr : BitVec 32) (accepted copied : Bool) :
    State :=
  if s.ctx.streamEn then
    if s.ctx.first = false then queueFirst s index vaddr accepted copied
    else if s.ctx.direct = false then queBuffer s (s.ctx.vaddr index) accepted
    else queBuffer s vaddr accepted
  else s

def overlayCommit (s : State) : State :=
  { s with ctx := { s.ctx with streamEn := true } }

/-! ## The calls in any order -/

/-- A call, with what the driver does in it. -/
inductive Call where
  | dequeue (done : ℕ)
  | queue (index : ℕ) (vaddr : BitVec 32) (accepted copied : Bool)
  | commit

/-- The state, and the index of the buffer that was handed out last and has not been taken by the
driver since. -/
structure World where
  state : State
  held : Option ℕ

/-- After a call that queued the buffer or did not. -/
def World.queued (s : World) (t : State) : World :=
  ⟨t, if t.queue.length = s.state.queue.length then s.held else none⟩

/-- What a call does. -/
def World.call (s : World) : Call → World
  | .dequeue done =>
    ⟨(overlayDequeueBuffer s.state done).2, some (overlayDequeueBuffer s.state done).1.1⟩
  | .queue index vaddr accepted copied =>
    s.queued (overlayQueueBuffer s.state index vaddr accepted copied)
  | .commit => ⟨overlayCommit s.state, s.held⟩

/-- An overlay that was created and initialized, and the calls of its client.  The mapping does not
go beyond the end of the address space. -/
def overlaySystem (w h : BitVec 32) (format : OverlayFormat) (mem : BitVec 32) :
    TransitionSystem World Call where
  init s := ∃ bufNum size streamEn, overlayCreateOverlay w h format = some (bufNum, size) ∧
    mem.toNat + (overlayInitialize bufNum size mem streamEn).mapSize ≤ 2 ^ 32 ∧
    s = ⟨⟨overlayInitialize bufNum size mem streamEn, []⟩, none⟩
  step s call t := t = s.call call

end Overlay
end EmevBsp
