import EmevBsp.Library.TransitionSystem
import Mathlib.Data.List.Range

/-!
# `emxx_jpeglib.c`: encoding a frame

`emxx_yuv_to_jpeg` and `jpege_main` as the instructions of the calling thread, with the three
threads that `jpege_main` creates and the callbacks of the component.  A call of the component or of the
thread library may fail each time it is made; a failure is handled in one of three ways.  The
component may fill the output buffer with anything, once it accepted it, and it may report an event
at any time; `event_handler` holds `VideoMutex` then.  A wait on `VideoCond` may end at any time
that the mutex is free.  Threads and callbacks that are left go on after the return.

The contents of the frame and the parameters that only the component looks at are left out.
-/

namespace EmevBsp
namespace Jpeg

/-! ## The frame size -/

inductive ColorFormat where
  | yuv444HV11 | yuv422HV21 | yuv422HV12 | yuv411HV22 | yuv411HV41
  deriving DecidableEq

/-- The `switch` of `emxx_yuv_to_jpeg`, over `OMF_MC_JPEGD_SAMPLING`. -/
def colorFormat (yuvType : ℤ) : ColorFormat :=
  if yuvType = 0x11 then .yuv444HV11
  else if yuvType = 0x21 then .yuv422HV21
  else if yuvType = 0x12 then .yuv422HV12
  else if yuvType = 0x22 then .yuv411HV22
  else if yuvType = 0x41 then .yuv411HV41
  else .yuv411HV22

def yuvFramesize (width height : BitVec 32) : ColorFormat → ℤ
  | .yuv411HV22 | .yuv411HV41 => (width * height + width * height / 2).toInt
  | .yuv422HV21 | .yuv422HV12 => (width * height + width * height).toInt
  | .yuv444HV11 => (width * height + width * height * 2).toInt

/-! ## The instructions of the caller -/

/-- The calls that may fail. -/
inductive Call where
  | omxInit | setLogMode | setConfiguration | getComponentsOfRole | getHandle
  | getComponentVersion | getParameter | setParameter
  | sendCommandIdle | sendCommandExecuting | sendCommandLoaded
  | allocateBuffer (port index : ℕ) | freeBuffer (port index : ℕ)
  | createInputThread | createOutputThread | createOutputDataThread
  deriving DecidableEq

/-- What is done when a call fails: nothing, `goto jpege_end` (with a value for `ret`, where it is
set), or `return -1`. -/
inductive OnFail where
  | goOn
  | jpegeEnd (ret : Option ℤ)
  | leave
  deriving DecidableEq

/-- The instructions; `relock` is the end of a wait on `VideoCond`. -/
inductive Instr where
  | call (c : Call) (f : OnFail)
  | checkFrame
  | lock | unlock | condWait | relock
  | semaphoreInit | waitDone
  | freeHandle | semaphoreDeinit | returnZero
  deriving DecidableEq

/-- The arguments, and what the component and the files hold: `counts` are the numbers of buffers
of the ports. -/
structure Config where
  width : BitVec 32
  height : BitVec 32
  yuvType : ℤ
  counts : List ℕ
  outBuf : List UInt8
  file : List (List UInt8)

namespace Config

variable (cfg : Config)

def frameSize : ℤ := yuvFramesize cfg.width cfg.height (colorFormat cfg.yuvType)

/-- A failure that sets `ret` to -1. -/
def failed : OnFail := .jpegeEnd (some (-1))

/-- The loop over the ports that reads and sets their definitions. -/
def portDefinitions : List Instr :=
  (List.range cfg.counts.length).flatMap fun i =>
    .call .getParameter failed :: if i = 0 then [.call .setParameter failed] else []

/-- A loop over the buffers of the ports. -/
def buffers (c : ℕ → ℕ → Call) : List Instr :=
  (List.range cfg.counts.length).flatMap fun i =>
    (List.range (cfg.counts.getD i 0)).map fun j => .call (c i j) failed

/-- The label `jpege_end`. -/
def jpegeEnd : List Instr := [.freeHandle, .semaphoreDeinit, .returnZero]

/-- `jpege_main` up to the threads. -/
def prepare : List Instr :=
  [.checkFrame,
    .call .setLogMode (.jpegeEnd none),
    .call .setConfiguration (.jpegeEnd none),
    .call .omxInit (.jpegeEnd none),
    .call .getComponentsOfRole .goOn,
    .call .getHandle failed,
    .call .getComponentVersion .leave,
    .call .getParameter failed] ++
  cfg.portDefinitions ++
  [.call .getParameter failed,
    .call .setParameter failed,
    .lock,
    .call .sendCommandIdle failed] ++
  cfg.buffers .allocateBuffer ++
  [.condWait, .unlock]

/-- `jpege_main` from the threads to the state `OMX_StateLoaded`. -/
def encode : List Instr :=
  [.semaphoreInit,
    .call .createInputThread failed,
    .call .createOutputThread failed,
    .call .createOutputDataThread failed,
    .lock,
    .call .sendCommandExecuting failed,
    .condWait, .unlock,
    .waitDone,
    .lock,
    .call .sendCommandIdle failed,
    .condWait, .unlock,
    .lock,
    .call .sendCommandLoaded failed] ++
  cfg.buffers .freeBuffer ++
  [.condWait, .unlock]

def jpegeMain : List Instr := cfg.prepare ++ (cfg.encode ++ jpegeEnd)

def emxxYuvToJpeg : List Instr := .call .omxInit .goOn :: cfg.jpegeMain

end Config

/-! ## The states -/

/-- Who holds `VideoMutex`. -/
inductive Owner where
  | caller | handler
  deriving DecidableEq

/-- How far a thread is. -/
inductive Thread where
  | absent | waiting | awake | finished
  deriving DecidableEq

/-- How far `jpeg_output_data_thread` is. -/
inductive DataThread where
  | absent | waiting | awake | written | finished
  deriving DecidableEq

/-- `todo` are the instructions of the caller that are left, `result` the value it returned;
`emptying` and `filling` are the buffers that the component has, `filled` is set when it gave the
output buffer back, and `file` are the pieces that were written. -/
structure State where
  todo : List Instr
  result : Option ℤ
  ret : ℤ
  hasHandle : Bool
  handles : ℕ
  mutex : Option Owner
  buffers : ℕ → ℕ → Bool
  input : Thread
  output : Thread
  data : DataThread
  inputSem : ℕ
  outputSem : ℕ
  dataSem : ℕ
  ef : Bool
  ff : Bool
  emptying : Bool
  filling : Bool
  filled : Bool
  outBuf : List UInt8
  file : List (List UInt8)

/-- Before the call; `bufs` are the buffers that an earlier call left. -/
def State.start (cfg : Config) (bufs : ℕ → ℕ → Bool) : State where
  todo := cfg.emxxYuvToJpeg
  result := none
  ret := 0
  hasHandle := false
  handles := 0
  mutex := none
  buffers := bufs
  input := .absent
  output := .absent
  data := .absent
  inputSem := 0
  outputSem := 0
  dataSem := 0
  ef := false
  ff := false
  emptying := false
  filling := false
  filled := false
  outBuf := cfg.outBuf
  file := cfg.file

/-! ## The steps -/

/-- What a call does when it does not fail. -/
def Call.effect (s : State) : Call → State
  | .getHandle => { s with hasHandle := true, handles := s.handles + 1 }
  | .allocateBuffer i j =>
    { s with buffers := fun i' j' => (i' == i && j' == j) || s.buffers i' j' }
  | .createInputThread => { s with input := .waiting }
  | .createOutputThread => { s with output := .waiting }
  | .createOutputDataThread => { s with data := .waiting }
  | _ => s

/-- The failure of a call. -/
def OnFail.handle (s : State) : OnFail → State
  | .goOn => s
  | .jpegeEnd ret => { s with todo := Config.jpegeEnd, ret := ret.getD s.ret }
  | .leave => { s with todo := [], result := some (-1) }

/-- An instruction of the caller, taken off the list; `ok` is false if a call fails, and `none` is
an instruction that has to wait. -/
def Instr.exec (cfg : Config) (ok : Bool) (s : State) : Instr → Option State
  | .call c f => some (if ok then c.effect s else f.handle s)
  | .checkFrame =>
    some (if cfg.frameSize ≤ 0 then { s with todo := [], result := some (-1) } else s)
  | .lock | .relock => if s.mutex = none then some { s with mutex := some .caller } else none
  | .unlock => some { s with mutex := none }
  | .condWait => some { s with mutex := none, todo := .relock :: s.todo }
  | .semaphoreInit =>
    some { s with
      inputSem := cfg.counts.getD 0 0
      outputSem := cfg.counts.getD 1 0
      dataSem := 0 }
  | .waitDone => if s.ef && s.ff then some s else none
  | .freeHandle =>
    some
      (if !s.hasHandle then s
      else if ok then { s with handles := s.handles - 1 }
      else { s with ret := -1 })
  -- the last semaphore is posted before it is destroyed
  | .semaphoreDeinit => some { s with dataSem := s.dataSem + 1 }
  | .returnZero => some { s with todo := [], result := some 0 }

/-- What happens; a call of a thread or of the caller may fail (`ok` is false), and `fwrite` writes
`n` of `len` bytes. -/
inductive Event where
  | caller (i : Instr) (ok : Bool)
  | inputAwake | emptyThisBuffer (ok : Bool)
  | outputAwake | fillThisBuffer (ok : Bool)
  | emptyBufferDone | fillBufferDone (data : List UInt8)
  | dataAwake | fwrite (n len : ℕ) | dataFinished
  | handlerBegin | handlerEnd
  deriving DecidableEq

/-- `jpeg_input_port_thread`, `jpeg_output_port_thread` and `jpeg_output_data_thread`, from one
call to the next. -/
inductive ThreadStep (s : State) : Event → State → Prop where
  | inputAwake : s.input = .waiting → 0 < s.inputSem →
      ThreadStep s .inputAwake { s with input := .awake, inputSem := s.inputSem - 1 }
  | emptyThisBuffer (ok : Bool) : s.input = .awake →
      ThreadStep s (.emptyThisBuffer ok)
        { s with input := .finished, emptying := s.emptying || (s.buffers 0 0 && ok) }
  | outputAwake : s.output = .waiting → 0 < s.outputSem →
      ThreadStep s .outputAwake { s with output := .awake, outputSem := s.outputSem - 1 }
  | fillThisBuffer (ok : Bool) : s.output = .awake →
      ThreadStep s (.fillThisBuffer ok)
        { s with output := .finished, filling := s.filling || (s.buffers 1 0 && ok) }
  | dataAwake : s.data = .waiting → 0 < s.dataSem →
      ThreadStep s .dataAwake { s with data := .awake, dataSem := s.dataSem - 1 }
  | fwrite (n : ℕ) : s.data = .awake → n ≤ s.outBuf.length →
      ThreadStep s (.fwrite n s.outBuf.length)
        { s with data := .written, file := s.file ++ [s.outBuf.take n] }
  | dataFinished : s.data = .written →
      ThreadStep s .dataFinished { s with data := .finished, ff := true }

/-- `empty_buffer_done`, `fill_buffer_done` and `event_handler`. -/
inductive CallbackStep (s : State) : Event → State → Prop where
  | emptyBufferDone : s.emptying = true →
      CallbackStep s .emptyBufferDone
        { s with emptying := false, inputSem := s.inputSem + 1, ef := true }
  | fillBufferDone (data : List UInt8) : s.filling = true →
      CallbackStep s (.fillBufferDone data)
        { s with filling := false, filled := true, outBuf := data, dataSem := s.dataSem + 1 }
  | handlerBegin : s.mutex = none →
      CallbackStep s .handlerBegin { s with mutex := some .handler }
  | handlerEnd : s.mutex = some .handler →
      CallbackStep s .handlerEnd { s with mutex := none }

/-- A step of the caller, of a thread or of the component. -/
inductive Step (cfg : Config) (s : State) : Event → State → Prop where
  | caller {i : Instr} {rest : List Instr} {t : State} (ok : Bool) : s.todo = i :: rest →
      i.exec cfg ok { s with todo := rest } = some t → Step cfg s (.caller i ok) t
  | thread {e : Event} {t : State} : ThreadStep s e t → Step cfg s e t
  | callback {e : Event} {t : State} : CallbackStep s e t → Step cfg s e t

/-- The system of a call. -/
def system (cfg : Config) (bufs : ℕ → ℕ → Bool) : TransitionSystem State Event where
  init s := s = State.start cfg bufs
  step := Step cfg

/-! ## What should hold -/

/-- After a return of `r`: the caller does not hold `VideoMutex`, no handle is left, and a result of
0 means that the output buffer was given back and written to the file. -/
structure Right (cfg : Config) (s : State) (r : ℤ) : Prop where
  mutex : s.mutex ≠ some .caller
  handles : s.handles = 0
  written : r = 0 → s.filled = true ∧ s.file = cfg.file ++ [s.outBuf]

/-- A call of the caller did not fail, or its failure is not looked at. -/
def Event.callFine : Event → Bool
  | .caller (.call _ .goOn) _ => true
  | .caller (.call _ _) ok => ok
  | .caller .freeHandle ok => ok
  | _ => true

/-- No byte was lost. -/
def Event.writeFine : Event → Bool
  | .fwrite n len => n == len
  | _ => true

/-- Without a failure that counts: no call fails that is looked at, and no byte is lost. -/
def Event.fine (e : Event) : Bool := e.callFine && e.writeFine

end Jpeg
end EmevBsp
