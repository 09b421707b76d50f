import EmevBsp.Library.TransitionSystem
import Mathlib.Algebra.Order.Ring.Int
import Mathlib.Data.Int.Init

/-!
# `libcamera/CameraHardware.cpp`: the frame buffers of the preview

`setParameters` fits the requested preview size to the list of supported sizes and keeps the result
in `mPreviewWidth` and `mPreviewHeight`, which `startPreview` gives to the camera.  It keeps the
parameters as they were requested, though, and `initHeapLocked` makes the frame buffers of this
size.

`previewThread` holds the lock from a frame to its release, so a call comes before or after it.
Sizes in a `CameraParameters` are what its `getPreviewSize` and `getPictureSize` read from the text.
Frame rate, jpeg quality and the `video-size` of `startRecording` are left out: no size depends on
them.

* `fitSize_eq_iff`: the sizes that are fitted to themselves.
* `setParameters_previewSize_iff`: the preview size behind one `setParameters`.
* `right_of_reachable`: **every copy stays in its frame buffer, and the preview size is the one
  requested**, when every request is of a supported size and none shrinks the buffers of a camera
  that is streaming.
-/

namespace EmevBsp
namespace Camera

/-! ## The class -/

abbrev kBufferCount : ℕ := 3

/-- The value of an `int`. -/
def int32 (x : ℤ) : ℤ := Int.bmod x (2 ^ 32)

/-- An `int` as a `size_t`. -/
def sizeT (x : ℤ) : ℕ := (x % 2 ^ 32).toNat

def previewSizes : List (ℤ × ℤ) := [(640, 480), (352, 288), (320, 240)]

def pictureSizes : List (ℤ × ℤ) := [(640, 480), (352, 288), (320, 240)]

/-- The first size that is not larger than the one requested, or the smallest. -/
def fitSize (sizes : List (ℤ × ℤ)) (p : ℤ × ℤ) : ℤ × ℤ :=
  match sizes.find? fun s => s.1 ≤ p.1 && s.2 ≤ p.2 with
  | some s => s
  | none => sizes.getLastD (0, 0)

/-- The formats that the camera captures. -/
inductive PixelFormat where
  | nv16
  | nv12
  | yuv422p
  | yuv420
  deriving DecidableEq

structure CameraParameters where
  previewFormat : String
  pictureFormat : String
  previewSize : ℤ × ℤ
  pictureSize : ℤ × ℤ

/-- The format for a preview format. -/
def captureFormat (format : String) : Option PixelFormat :=
  if format = "yuv422sp" then some .nv16
  else if format = "yuv420sp" then some .nv12
  else if format = "yuv422p" then some .yuv422p
  else if format = "yuv420p" then some .yuv420
  else none

/-- `CameraHardware`: a heap is its size, `camera` is the size last given to
`SetCameraParameters`, and in `stopping` a caller of `stopPreview` waits for the thread. -/
structure CameraHardware where
  mParameters : CameraParameters
  mPreviewHeap : Option ℕ
  mEncodeHeap : Option ℕ
  mRawHeap : Option ℕ
  mEncodeFrameSize : ℤ
  mPreviewWidth : ℤ
  mPreviewHeight : ℤ
  mRawWidth : ℤ
  mRawHeight : ℤ
  mPreviewFrameSize : ℤ
  mCurrentPreviewFrame : ℕ
  mCurrentEncodeFrame : ℕ
  mPreviewStopped : Bool
  mVideorecordingStopped : Bool
  mUseOverlay : Bool
  mPreviewThread : Bool
  mCameraCapturePixelFormat : PixelFormat
  camera : ℤ × ℤ
  streaming : Bool
  stopping : Bool

def CameraHardware.initHeapLocked (c : CameraHardware) : CameraHardware :=
  let picture := c.mParameters.pictureSize
  let preview := c.mParameters.previewSize
  let c := { c with mRawHeap := some (sizeT (picture.1 * 2 * picture.2)) }
  let howBig := int32 (preview.1 * preview.2 * 2)
  if howBig = c.mPreviewFrameSize then c
  else { c with
    mPreviewFrameSize := howBig
    mPreviewHeap :=
      if c.mUseOverlay then c.mPreviewHeap else some (sizeT (howBig * kBufferCount))
    mEncodeFrameSize := howBig
    mEncodeHeap := some (sizeT (howBig * kBufferCount)) }

def CameraHardware.setParameters (c : CameraHardware) (params : CameraParameters) :
    ℤ × CameraHardware :=
  match captureFormat params.previewFormat with
  | none => (-1, c)
  | some format =>
    let c := { c with mCameraCapturePixelFormat := format }
    if params.pictureFormat ≠ "jpeg" then (-1, c)
    else
      let preview := fitSize previewSizes params.previewSize
      let raw := fitSize pictureSizes params.pictureSize
      (0, { c with
        mPreviewWidth := preview.1
        mPreviewHeight := preview.2
        mRawWidth := raw.1
        mRawHeight := raw.2
        -- the parameters with the sizes that were fitted are overwritten
        mParameters := params }.initHeapLocked)

def CameraHardware.getParameters (c : CameraHardware) : CameraParameters := c.mParameters

/-- How opening, initialising and starting the camera goes. -/
structure StartAnswers where
  opened : Bool
  init : ℤ
  startStreaming : ℤ

def CameraHardware.startPreview (c : CameraHardware) (a : StartAnswers) : ℤ × CameraHardware :=
  if c.mPreviewThread then (-38, c)
  else if a.opened = false then (-38, c)
  else
    let c := { c with camera := (c.mPreviewWidth, c.mPreviewHeight) }
    if a.init ≠ 0 then (a.init, c)
    else if a.startStreaming ≠ 0 then (a.startStreaming, c)
    else (0, { c with
      streaming := true
      mPreviewStopped := false
      mVideorecordingStopped := true
      mPreviewThread := true })

/-- `stopPreview` until it waits for the thread. -/
def CameraHardware.beginStopPreview (c : CameraHardware) : CameraHardware :=
  { c with mPreviewStopped := true, stopping := true }

/-- `stopPreview` behind the end of the thread. -/
def CameraHardware.endStopPreview (c : CameraHardware) : CameraHardware :=
  { c with mPreviewThread := false, streaming := false, stopping := false }

def CameraHardware.startRecording (c : CameraHardware) : CameraHardware :=
  { c with mVideorecordingStopped := false }

def CameraHardware.stopRecording (c : CameraHardware) : CameraHardware :=
  { c with mVideorecordingStopped := true }

/-! ## A frame -/

/-- A `memcpy` into the frame buffer at an offset of a heap. -/
structure Memcpy where
  heap : ℕ
  offset : ℤ
  frameSize : ℤ
  length : ℕ

/-- The frame buffer is in the heap, and the copy is in the frame buffer. -/
structure Memcpy.Inside (m : Memcpy) : Prop where
  start : 0 ≤ m.offset
  fits : m.offset + m.frameSize ≤ m.heap
  length : m.length ≤ m.frameSize

/-- `previewNoOverlay`: what it copies, and the state behind it. -/
def CameraHardware.previewNoOverlay (c : CameraHardware) (previewSize : ℕ) :
    List Memcpy × CameraHardware :=
  match c.mPreviewHeap with
  | none => ([], c)
  | some heap =>
    if c.mPreviewStopped then ([], c)
    else
      ([⟨heap, int32 (c.mCurrentPreviewFrame * c.mPreviewFrameSize), c.mPreviewFrameSize,
          previewSize⟩],
        { c with mCurrentPreviewFrame := (c.mCurrentPreviewFrame + 1) % kBufferCount })

def CameraHardware.previewRecord (c : CameraHardware) (previewSize : ℕ) :
    List Memcpy × CameraHardware :=
  match c.mEncodeHeap with
  | none => ([], c)
  | some heap =>
    if c.mVideorecordingStopped then ([], c)
    else
      ([⟨heap, int32 (c.mCurrentEncodeFrame * c.mEncodeFrameSize), c.mEncodeFrameSize,
          previewSize⟩],
        { c with mCurrentEncodeFrame := (c.mCurrentEncodeFrame + 1) % kBufferCount })

/-- `previewThread` with a frame.  The overlay takes the buffer of the camera and copies nothing. -/
def CameraHardware.previewThread (c : CameraHardware) (previewSize : ℕ) :
    List Memcpy × CameraHardware :=
  let r := if c.mUseOverlay then ([], c) else c.previewNoOverlay previewSize
  if r.2.mVideorecordingStopped = false then
    let r' := r.2.previewRecord previewSize
    (r.1 ++ r'.1, r'.2)
  else r

/-- `GrabCamFrame` without a frame. -/
def CameraHardware.unplugged (c : CameraHardware) : CameraHardware :=
  { c with mVideorecordingStopped := true, mPreviewStopped := true, streaming := false }

/-! ## Runs -/

/-- The calls of the interface, and the passes of the thread. -/
inductive HardwareCall where
  | setParameters (params : CameraParameters)
  | startPreview (a : StartAnswers)
  | beginStopPreview
  | endStopPreview
  | startRecording
  | stopRecording
  | frame (previewSize : ℕ)
  | unplugged

/-- A frame of this many bytes can come: the thread runs, and the camera delivers at most two bytes
for each pixel of the size it was set to. -/
def CameraHardware.Delivers (c : CameraHardware) (previewSize : ℕ) : Prop :=
  c.mPreviewThread = true ∧ c.streaming = true ∧ previewSize ≤ c.camera.1 * c.camera.2 * 2

/-- The steps of the class and of its thread. -/
inductive HardwareStep : CameraHardware → HardwareCall → CameraHardware → Prop where
  | setParameters {c : CameraHardware} {params : CameraParameters} :
      HardwareStep c (.setParameters params) (c.setParameters params).2
  | startPreview {c : CameraHardware} {a : StartAnswers} :
      HardwareStep c (.startPreview a) (c.startPreview a).2
  | beginStopPreview {c : CameraHardware} : c.mPreviewStopped = false →
      HardwareStep c .beginStopPreview c.beginStopPreview
  | endStopPreview {c : CameraHardware} : c.stopping = true →
      HardwareStep c .endStopPreview c.endStopPreview
  | startRecording {c : CameraHardware} : HardwareStep c .startRecording c.startRecording
  | stopRecording {c : CameraHardware} : HardwareStep c .stopRecording c.stopRecording
  | frame {c : CameraHardware} {previewSize : ℕ} : c.Delivers previewSize →
      HardwareStep c (.frame previewSize) (c.previewThread previewSize).2
  | unplugged {c : CameraHardware} : c.mPreviewThread = true →
      HardwareStep c .unplugged c.unplugged

/-- `initDefaultParameters`. -/
def defaultParameters : CameraParameters := ⟨"yuv420p", "jpeg", (640, 480), (640, 480)⟩

/-- The constructor starts from a blank object; the fields it does not name are as they were. -/
def CameraHardware.Blank (c : CameraHardware) : Prop :=
  c.mPreviewHeap = none ∧ c.mRawHeap = none ∧ c.mEncodeHeap = none ∧ c.mPreviewFrameSize = 0 ∧
    c.mCurrentPreviewFrame = 0 ∧ c.mCurrentEncodeFrame = 0 ∧ c.mPreviewStopped = true ∧
    c.mPreviewThread = false ∧ c.streaming = false ∧ c.stopping = false

/-- The class, from its constructor on. -/
def hardware : TransitionSystem CameraHardware HardwareCall where
  init s := ∃ c : CameraHardware, c.Blank ∧ s = (c.setParameters defaultParameters).2
  step := HardwareStep

/-! ## The fitted sizes -/

theorem fitSize_eq_iff {p : ℤ × ℤ} : fitSize previewSizes p = p ↔ p ∈ previewSizes := by
  constructor
  · intro h
    rw [← h, fitSize]
    split
    · exact List.mem_of_find?_eq_some ‹_›
    · decide
  · intro h
    simp only [previewSizes, List.mem_cons, List.not_mem_nil, or_false] at h
    rcases h with rfl | rfl | rfl
    · decide
    · decide
    · decide

theorem area_of_mem {p : ℤ × ℤ} (h : p ∈ previewSizes) : 0 < p.1 * p.2 ∧ p.1 * p.2 ≤ 307200 := by
  simp only [previewSizes, List.mem_cons, List.not_mem_nil, or_false] at h
  rcases h with rfl | rfl | rfl
  · decide
  · decide
  · decide

theorem int32_of_lt {x : ℤ} (hle : 0 ≤ x) (hlt : x < 2 ^ 31) : int32 x = x := by
  rw [int32, Int.bmod_eq_of_le (by omega) (by omega)]

theorem sizeT_of_lt {x : ℤ} (hle : 0 ≤ x) (hlt : x < 2 ^ 32) : (sizeT x : ℤ) = x := by
  rw [sizeT, Int.emod_eq_of_lt hle hlt, Int.toNat_of_nonneg hle]

/-- Both formats are ones that `setParameters` takes. -/
def CameraParameters.Supported (p : CameraParameters) : Prop :=
  (captureFormat p.previewFormat).isSome = true ∧ p.pictureFormat = "jpeg"

variable {c : CameraHardware}

theorem setParameters_of_supported {p : CameraParameters} (hp : p.Supported) :
    ∃ format, c.setParameters p = (0, CameraHardware.initHeapLocked { c with
      mCameraCapturePixelFormat := format
      mPreviewWidth := (fitSize previewSizes p.previewSize).1
      mPreviewHeight := (fitSize previewSizes p.previewSize).2
      mRawWidth := (fitSize pictureSizes p.pictureSize).1
      mRawHeight := (fitSize pictureSizes p.pictureSize).2
      mParameters := p }) := by
  obtain ⟨format, hformat⟩ := Option.isSome_iff_exists.mp hp.1
  refine ⟨format, ?_⟩
  rw [CameraHardware.setParameters, hformat]
  exact if_neg (not_not.mpr hp.2)

theorem setParameters_of_not_supported {p : CameraParameters} (hp : ¬ p.Supported) :
    ∃ format, (c.setParameters p).2 = { c with mCameraCapturePixelFormat := format } := by
  rw [CameraHardware.setParameters]
  cases hformat : captureFormat p.previewFormat with
  | none => exact ⟨c.mCameraCapturePixelFormat, rfl⟩
  | some format =>
    have hpicture : p.pictureFormat ≠ "jpeg" := fun h => hp ⟨by rw [hformat]; rfl, h⟩
    exact ⟨format, congrArg Prod.snd (if_pos hpicture)⟩

@[simp] theorem initHeapLocked_mParameters : c.initHeapLocked.mParameters = c.mParameters := by
  rw [CameraHardware.initHeapLocked]
  split_ifs <;> rfl

@[simp] theorem initHeapLocked_mPreviewWidth :
    c.initHeapLocked.mPreviewWidth = c.mPreviewWidth := by
  rw [CameraHardware.initHeapLocked]
  split_ifs <;> rfl

@[simp] theorem initHeapLocked_mPreviewHeight :
    c.initHeapLocked.mPreviewHeight = c.mPreviewHeight := by
  rw [CameraHardware.initHeapLocked]
  split_ifs <;> rfl

/-- **The preview size behind one `setParameters`** is the one the camera gets exactly when the
request is of a supported size. -/
theorem setParameters_previewSize_iff {p : CameraParameters} (hp : p.Supported) :
    (c.setParameters p).2.getParameters.previewSize =
        ((c.setParameters p).2.mPreviewWidth, (c.setParameters p).2.mPreviewHeight) ↔
      p.previewSize ∈ previewSizes := by
  obtain ⟨format, hset⟩ := setParameters_of_supported (c := c) hp
  rw [hset, CameraHardware.getParameters, initHeapLocked_mParameters,
    initHeapLocked_mPreviewWidth, initHeapLocked_mPreviewHeight, ← fitSize_eq_iff]
  exact eq_comm

/-! ## The frame buffers -/

/-- The heaps hold `kBufferCount` frames of the frame size. -/
structure HeapsMatch (c : CameraHardware) : Prop where
  encodeFrameSize : c.mEncodeFrameSize = c.mPreviewFrameSize
  encodeHeap : c.mEncodeHeap = some (sizeT (c.mPreviewFrameSize * kBufferCount))
  previewHeap : c.mUseOverlay = false →
    c.mPreviewHeap = some (sizeT (c.mPreviewFrameSize * kBufferCount))

theorem heapsMatch_initHeapLocked
    (h : HeapsMatch c ∨ c.mPreviewFrameSize = 0)
    (hsize : c.mParameters.previewSize ∈ previewSizes) :
    HeapsMatch c.initHeapLocked ∧ c.initHeapLocked.mPreviewFrameSize =
      c.mParameters.previewSize.1 * c.mParameters.previewSize.2 * 2 := by
  obtain ⟨hpos, hle⟩ := area_of_mem hsize
  have hbig : int32 (c.mParameters.previewSize.1 * c.mParameters.previewSize.2 * 2) =
      c.mParameters.previewSize.1 * c.mParameters.previewSize.2 * 2 :=
    int32_of_lt (by omega) (by omega)
  rw [CameraHardware.initHeapLocked]
  dsimp only
  rw [hbig]
  split_ifs with hsame hoverlay
  · rcases h with h | hzero
    · exact ⟨⟨h.encodeFrameSize, h.encodeHeap, h.previewHeap⟩, hsame.symm⟩
    · omega
  · exact ⟨⟨rfl, rfl, fun hno => absurd (hoverlay.symm.trans hno) (by decide)⟩, rfl⟩
  · exact ⟨⟨rfl, rfl, fun _ => rfl⟩, rfl⟩

theorem inside_of_le {frame : ℤ} {index n : ℕ} (hpos : 0 ≤ frame) (hle : frame ≤ 614400)
    (hindex : index < kBufferCount) (hn : n ≤ frame) :
    Memcpy.Inside ⟨sizeT (frame * kBufferCount), int32 (index * frame), frame, n⟩ := by
  have hthree : ((kBufferCount : ℕ) : ℤ) = 3 := rfl
  have hindex' : index < 3 := hindex
  have hprod : (index : ℤ) * frame ≤ 2 * frame :=
    Int.mul_le_mul_of_nonneg_right (by omega) hpos
  have hstart : 0 ≤ (index : ℤ) * frame := Int.mul_nonneg (by omega) hpos
  have hheap : (sizeT (frame * kBufferCount) : ℤ) = frame * 3 := by
    rw [hthree]
    exact sizeT_of_lt (by omega) (by omega)
  have hoffset : int32 (index * frame) = index * frame := int32_of_lt hstart (by omega)
  refine ⟨?_, ?_, hn⟩
  · rw [hoffset]
    exact hstart
  · rw [hoffset, hheap]
    dsimp only
    omega

/-! ## The invariant -/

/-- Requests, sizes and heaps agree, and a camera that is streaming was not set to more than the
frame size. -/
structure Inv (c : CameraHardware) : Prop where
  mem : c.mParameters.previewSize ∈ previewSizes
  size : c.mParameters.previewSize = (c.mPreviewWidth, c.mPreviewHeight)
  frameSize : c.mPreviewFrameSize =
    c.mParameters.previewSize.1 * c.mParameters.previewSize.2 * 2
  heaps : HeapsMatch c
  preview : c.mCurrentPreviewFrame < kBufferCount
  encode : c.mCurrentEncodeFrame < kBufferCount
  camera : c.mPreviewThread = true → c.streaming = true →
    c.camera.1 * c.camera.2 ≤ c.mParameters.previewSize.1 * c.mParameters.previewSize.2

/-- When a call keeps to the sizes: a request is of a supported size, and none shrinks the frames of
a camera that is streaming. -/
def KeepsSizes (c : CameraHardware) : HardwareCall → Prop
  | .setParameters p => p.Supported → p.previewSize ∈ previewSizes ∧
      (c.mPreviewThread = true → c.streaming = true →
        c.camera.1 * c.camera.2 ≤ p.previewSize.1 * p.previewSize.2)
  | _ => True

theorem initHeapLocked_frames :
    c.initHeapLocked.mCurrentPreviewFrame = c.mCurrentPreviewFrame ∧
      c.initHeapLocked.mCurrentEncodeFrame = c.mCurrentEncodeFrame ∧
      c.initHeapLocked.mPreviewThread = c.mPreviewThread ∧
      c.initHeapLocked.streaming = c.streaming ∧ c.initHeapLocked.camera = c.camera := by
  rw [CameraHardware.initHeapLocked]
  split_ifs <;> exact ⟨rfl, rfl, rfl, rfl, rfl⟩

theorem frames_setParameters {p : CameraParameters} (hp : p.Supported)
    (hheaps : HeapsMatch c ∨ c.mPreviewFrameSize = 0) (hsize : p.previewSize ∈ previewSizes) :
    HeapsMatch (c.setParameters p).2 ∧
      (c.setParameters p).2.mPreviewFrameSize = p.previewSize.1 * p.previewSize.2 * 2 := by
  obtain ⟨format, hset⟩ := setParameters_of_supported (c := c) hp
  rw [hset]
  refine heapsMatch_initHeapLocked ?_ hsize
  exact hheaps.imp (fun h => ⟨h.encodeFrameSize, h.encodeHeap, h.previewHeap⟩) id

theorem inv_setParameters {p : CameraParameters} (hp : p.Supported)
    (hheaps : HeapsMatch c ∨ c.mPreviewFrameSize = 0) (hsize : p.previewSize ∈ previewSizes)
    (hpreview : c.mCurrentPreviewFrame < kBufferCount)
    (hencode : c.mCurrentEncodeFrame < kBufferCount)
    (hcamera : c.mPreviewThread = true → c.streaming = true →
      c.camera.1 * c.camera.2 ≤ p.previewSize.1 * p.previewSize.2) :
    Inv (c.setParameters p).2 := by
  obtain ⟨hmatch, hframe⟩ := frames_setParameters hp hheaps hsize
  obtain ⟨format, hset⟩ := setParameters_of_supported (c := c) hp
  rw [hset] at hmatch hframe ⊢
  refine ⟨?_, ?_, ?_, hmatch, ?_, ?_, ?_⟩
  · rw [initHeapLocked_mParameters]
    exact hsize
  · rw [initHeapLocked_mParameters, initHeapLocked_mPreviewWidth, initHeapLocked_mPreviewHeight]
    exact (fitSize_eq_iff.mpr hsize).symm
  · rw [hframe, initHeapLocked_mParameters]
  · rw [initHeapLocked_frames.1]
    exact hpreview
  · rw [initHeapLocked_frames.2.1]
    exact hencode
  · rw [initHeapLocked_frames.2.2.1, initHeapLocked_frames.2.2.2.1,
      initHeapLocked_frames.2.2.2.2, initHeapLocked_mParameters]
    exact hcamera

theorem Inv.frameSize_bounds (h : Inv c) :
    0 ≤ c.mPreviewFrameSize ∧ c.mPreviewFrameSize ≤ 614400 := by
  obtain ⟨hpos, hle⟩ := area_of_mem h.mem
  have hframe := h.frameSize
  constructor
  · omega
  · omega

theorem previewNoOverlay_inside (h : Inv c) (hoverlay : c.mUseOverlay = false) {n : ℕ}
    (hn : n ≤ c.mPreviewFrameSize) :
    (∀ m ∈ (c.previewNoOverlay n).1, m.Inside) ∧ Inv (c.previewNoOverlay n).2 ∧
      (c.previewNoOverlay n).2.mPreviewFrameSize = c.mPreviewFrameSize := by
  obtain ⟨hpos, hle⟩ := h.frameSize_bounds
  rw [CameraHardware.previewNoOverlay, h.heaps.previewHeap hoverlay]
  dsimp only
  split_ifs
  · exact ⟨fun m hm => absurd hm List.not_mem_nil, h, rfl⟩
  · refine ⟨fun m hm => ?_, ⟨h.mem, h.size, h.frameSize, ?_, ?_, h.encode, h.camera⟩, rfl⟩
    · rw [List.mem_singleton.mp hm]
      exact inside_of_le hpos hle h.preview hn
    · exact ⟨h.heaps.encodeFrameSize, h.heaps.encodeHeap, fun _ => rfl⟩
    · exact Nat.mod_lt _ (by decide)

theorem previewRecord_inside (h : Inv c) {n : ℕ} (hn : n ≤ c.mPreviewFrameSize) :
    (∀ m ∈ (c.previewRecord n).1, m.Inside) ∧ Inv (c.previewRecord n).2 := by
  obtain ⟨hpos, hle⟩ := h.frameSize_bounds
  rw [CameraHardware.previewRecord, h.heaps.encodeHeap]
  dsimp only
  split_ifs
  · exact ⟨fun m hm => absurd hm List.not_mem_nil, h⟩
  · refine ⟨fun m hm => ?_, ⟨h.mem, h.size, h.frameSize, ?_, h.preview, ?_, h.camera⟩⟩
    · rw [List.mem_singleton.mp hm, h.heaps.encodeFrameSize]
      exact inside_of_le hpos hle h.encode hn
    · exact ⟨h.heaps.encodeFrameSize, rfl, h.heaps.previewHeap⟩
    · exact Nat.mod_lt _ (by decide)

theorem previewThread_inside (h : Inv c) {n : ℕ} (hn : c.Delivers n) :
    (∀ m ∈ (c.previewThread n).1, m.Inside) ∧ Inv (c.previewThread n).2 := by
  obtain ⟨hthread, hstreaming, hlength⟩ := hn
  have hcamera := h.camera hthread hstreaming
  have hframe := h.frameSize
  have hfits : (n : ℤ) ≤ c.mPreviewFrameSize := by omega
  obtain ⟨r, hr⟩ : ∃ r, r = if c.mUseOverlay then ([], c) else c.previewNoOverlay n := ⟨_, rfl⟩
  have hpreview : (∀ m ∈ r.1, m.Inside) ∧ Inv r.2 ∧
      r.2.mPreviewFrameSize = c.mPreviewFrameSize := by
    rw [hr]
    split_ifs with hoverlay
    · exact ⟨fun m hm => absurd hm List.not_mem_nil, h, rfl⟩
    · exact previewNoOverlay_inside h (Bool.eq_false_iff.mpr hoverlay) hfits
  obtain ⟨hinside, hinv, hsame⟩ := hpreview
  rw [CameraHardware.previewThread, ← hr]
  dsimp only
  split_ifs
  · obtain ⟨hinside', hinv'⟩ := previewRecord_inside hinv (hsame ▸ hfits)
    refine ⟨fun m hm => ?_, hinv'⟩
    rcases List.mem_append.mp hm with hm | hm
    · exact hinside m hm
    · exact hinside' m hm
  · exact ⟨hinside, hinv⟩

theorem inv_step {s t : CameraHardware} {call : HardwareCall} (h : Inv s)
    (hok : KeepsSizes s call) (hstep : HardwareStep s call t) : Inv t := by
  cases hstep with
  | @setParameters params =>
    by_cases hp : params.Supported
    · obtain ⟨hsize, hcamera⟩ := hok hp
      exact inv_setParameters hp (.inl h.heaps) hsize h.preview h.encode hcamera
    · obtain ⟨format, hset⟩ := setParameters_of_not_supported (c := s) hp
      rw [hset]
      exact ⟨h.mem, h.size, h.frameSize, ⟨h.heaps.encodeFrameSize, h.heaps.encodeHeap,
        h.heaps.previewHeap⟩, h.preview, h.encode, h.camera⟩
  | @startPreview a =>
    have hheaps := h.heaps
    have hsize : s.mPreviewWidth * s.mPreviewHeight ≤
        s.mParameters.previewSize.1 * s.mParameters.previewSize.2 := by
      rw [h.size]
    rw [CameraHardware.startPreview]
    dsimp only
    split_ifs
    · exact h
    · exact h
    · exact ⟨h.mem, h.size, h.frameSize, ⟨hheaps.1, hheaps.2, hheaps.3⟩, h.preview, h.encode,
        fun _ _ => hsize⟩
    · exact ⟨h.mem, h.size, h.frameSize, ⟨hheaps.1, hheaps.2, hheaps.3⟩, h.preview, h.encode,
        fun _ _ => hsize⟩
    · exact ⟨h.mem, h.size, h.frameSize, ⟨hheaps.1, hheaps.2, hheaps.3⟩, h.preview, h.encode,
        fun _ _ => hsize⟩
  | beginStopPreview hstopped =>
    exact ⟨h.mem, h.size, h.frameSize, ⟨h.heaps.1, h.heaps.2, h.heaps.3⟩, h.preview, h.encode,
      h.camera⟩
  | endStopPreview hstopping =>
    exact ⟨h.mem, h.size, h.frameSize, ⟨h.heaps.1, h.heaps.2, h.heaps.3⟩, h.preview, h.encode,
      fun hthread => absurd hthread Bool.false_ne_true⟩
  | startRecording =>
    exact ⟨h.mem, h.size, h.frameSize, ⟨h.heaps.1, h.heaps.2, h.heaps.3⟩, h.preview, h.encode,
      h.camera⟩
  | stopRecording =>
    exact ⟨h.mem, h.size, h.frameSize, ⟨h.heaps.1, h.heaps.2, h.heaps.3⟩, h.preview, h.encode,
      h.camera⟩
  | frame hn => exact (previewThread_inside h hn).2
  | unplugged hthread =>
    exact ⟨h.mem, h.size, h.frameSize, ⟨h.heaps.1, h.heaps.2, h.heaps.3⟩, h.preview, h.encode,
      fun _ hstreaming => absurd hstreaming Bool.false_ne_true⟩

theorem inv_init {s : CameraHardware} (hs : hardware.init s) : Inv s := by
  obtain ⟨c, ⟨-, -, -, hzero, hpreview, hencode, -, hthread, -⟩, rfl⟩ := hs
  refine inv_setParameters ⟨by decide, rfl⟩ (.inr hzero) (by decide) ?_ ?_ fun hrun => ?_
  · rw [hpreview]
    decide
  · rw [hencode]
    decide
  · exact absurd (hthread.symm.trans hrun) (by decide)

/-- Every copy of a frame that can come stays in its frame buffer, and the preview size is the one
the camera gets. -/
structure Right (c : CameraHardware) : Prop where
  inside : ∀ n, c.Delivers n → ∀ m ∈ (c.previewThread n).1, m.Inside
  previewSize : c.getParameters.previewSize = (c.mPreviewWidth, c.mPreviewHeight)

/-- **Frame buffers and preview size are right** in every state of a run whose requests are of
supported sizes and do not shrink the frames of a camera that is streaming. -/
theorem right_of_reachable {c : CameraHardware}
    (hc : (hardware.restrict KeepsSizes).Reachable c) : Right c := by
  have hinv : Inv c := by
    refine TransitionSystem.Reachable.invariant_restrict (fun s hs => inv_init hs) ?_ hc
    intro s call t hs hok hstep
    exact inv_step hs hok hstep
  exact ⟨fun n hn => (previewThread_inside hinv hn).1, hinv.size⟩

/-! ## Requests that do not keep to the sizes -/

theorem previewNoOverlay_encode (n : ℕ) :
    (c.previewNoOverlay n).2.mVideorecordingStopped = c.mVideorecordingStopped ∧
      (c.previewNoOverlay n).2.mEncodeHeap = c.mEncodeHeap ∧
      (c.previewNoOverlay n).2.mEncodeFrameSize = c.mEncodeFrameSize := by
  rw [CameraHardware.previewNoOverlay]
  split
  · exact ⟨rfl, rfl, rfl⟩
  · split_ifs <;> exact ⟨rfl, rfl, rfl⟩

theorem exists_copy (hrecording : c.mVideorecordingStopped = false) {heap : ℕ}
    (hheap : c.mEncodeHeap = some heap) (n : ℕ) :
    ∃ m ∈ (c.previewThread n).1, m.frameSize = c.mEncodeFrameSize ∧ m.length = n := by
  obtain ⟨r, hr⟩ : ∃ r, r = if c.mUseOverlay then ([], c) else c.previewNoOverlay n := ⟨_, rfl⟩
  have hsame : r.2.mVideorecordingStopped = c.mVideorecordingStopped ∧
      r.2.mEncodeHeap = c.mEncodeHeap ∧ r.2.mEncodeFrameSize = c.mEncodeFrameSize := by
    rw [hr]
    split_ifs
    · exact ⟨rfl, rfl, rfl⟩
    · exact previewNoOverlay_encode n
  obtain ⟨hstopped, hsameHeap, hsameSize⟩ := hsame
  rw [CameraHardware.previewThread, ← hr]
  dsimp only
  rw [if_pos (hstopped.trans hrecording), CameraHardware.previewRecord, hsameHeap, hheap]
  dsimp only
  rw [if_neg (by rw [hstopped, hrecording]; exact Bool.false_ne_true)]
  exact ⟨_, List.mem_append_right _ List.mem_cons_self, hsameSize, rfl⟩

theorem setParameters_camera {p : CameraParameters} (hp : p.Supported) :
    (c.setParameters p).2.mPreviewThread = c.mPreviewThread ∧
      (c.setParameters p).2.streaming = c.streaming ∧
      (c.setParameters p).2.camera = c.camera := by
  obtain ⟨format, hset⟩ := setParameters_of_supported (c := c) hp
  rw [hset]
  exact ⟨initHeapLocked_frames.2.2.1, initHeapLocked_frames.2.2.2.1,
    initHeapLocked_frames.2.2.2.2⟩

theorem inv_startRecording (h : Inv c) : Inv c.startRecording := by
  have hok : KeepsSizes c .startRecording := trivial
  exact inv_step h hok .startRecording

/-- **One request**: everything is right behind it, and when a recording starts then, exactly when
it keeps to the sizes. -/
theorem keepsSizes_iff (h : Inv c) {p : CameraParameters} (hp : p.Supported) :
    KeepsSizes c (.setParameters p) ↔
      Right (c.setParameters p).2 ∧ Right (c.setParameters p).2.startRecording := by
  constructor
  · intro hok
    have hinv : Inv (c.setParameters p).2 := inv_step h hok .setParameters
    have hinv' := inv_startRecording hinv
    exact ⟨⟨fun n hn => (previewThread_inside hinv hn).1, hinv.size⟩,
      ⟨fun n hn => (previewThread_inside hinv' hn).1, hinv'.size⟩⟩
  · rintro ⟨hright, hrecording⟩ -
    have hsize := (setParameters_previewSize_iff hp).mp hright.previewSize
    refine ⟨hsize, fun hthread hstreaming => ?_⟩
    by_contra hshrink
    obtain ⟨hmatch, hframe⟩ := frames_setParameters hp (.inl h.heaps) hsize
    obtain ⟨hpos, -⟩ := area_of_mem hsize
    obtain ⟨hthread', hstreaming', hcamera⟩ := setParameters_camera (c := c) hp
    obtain ⟨n, hn⟩ : ∃ n : ℕ, (n : ℤ) = c.camera.1 * c.camera.2 * 2 :=
      ⟨(c.camera.1 * c.camera.2 * 2).toNat, Int.toNat_of_nonneg (by omega)⟩
    have hdelivers : (c.setParameters p).2.startRecording.Delivers n := by
      refine ⟨hthread'.trans hthread, hstreaming'.trans hstreaming, ?_⟩
      rw [CameraHardware.startRecording, hcamera, hn]
    obtain ⟨m, hm, hsizeM, hlength⟩ :=
      exists_copy (c := (c.setParameters p).2.startRecording) rfl hmatch.encodeHeap n
    -- the whole frame of the camera is longer than the frame buffer
    have hinside := (hrecording.inside n hdelivers m hm).length
    rw [hsizeM, hlength] at hinside
    have hbound : (n : ℤ) ≤ p.previewSize.1 * p.previewSize.2 * 2 :=
      hinside.trans_eq (hmatch.encodeFrameSize.trans hframe)
    omega

/-! ## A size that is not supported -/

/-- A blank object. -/
def blank : CameraHardware where
  mParameters := ⟨"", "", (-1, -1), (-1, -1)⟩
  mPreviewHeap := none
  mEncodeHeap := none
  mRawHeap := none
  mEncodeFrameSize := 0
  mPreviewWidth := 0
  mPreviewHeight := 0
  mRawWidth := 0
  mRawHeight := 0
  mPreviewFrameSize := 0
  mCurrentPreviewFrame := 0
  mCurrentEncodeFrame := 0
  mPreviewStopped := true
  mVideorecordingStopped := true
  mUseOverlay := true
  mPreviewThread := false
  mCameraCapturePixelFormat := .nv16
  camera := (0, 0)
  streaming := false
  stopping := false

theorem init_blank : hardware.init (blank.setParameters defaultParameters).2 :=
  ⟨blank, ⟨rfl, rfl, rfl, rfl, rfl, rfl, rfl, rfl, rfl, rfl⟩, rfl⟩

/-- The camera as the constructor leaves it, streaming and recording. -/
def recording : CameraHardware :=
  (((blank.setParameters defaultParameters).2.startPreview ⟨true, 0, 0⟩).2).startRecording

theorem right_of_reachable_recording : Right recording := by
  have hstart : (hardware.restrict KeepsSizes).Reachable
      ((blank.setParameters defaultParameters).2.startPreview ⟨true, 0, 0⟩).2 :=
    .step (a := .startPreview ⟨true, 0, 0⟩) (.init init_blank) ⟨trivial, .startPreview⟩
  exact right_of_reachable
    (.step (a := .startRecording) hstart ⟨trivial, .startRecording⟩)

/-- QCIF is not supported. -/
def qcif : CameraParameters := ⟨"yuv420p", "jpeg", (176, 144), (640, 480)⟩

/-- The camera is set to the smallest supported size, and the frame buffers are of the size that
was requested: the preview size is not the one of the camera, and a frame that is recorded goes past
the end of its buffer. -/
theorem not_right :
    (¬ ∀ c, hardware.Reachable c → ∀ n, c.Delivers n → ∀ m ∈ (c.previewThread n).1, m.Inside) ∧
      ¬ ∀ c, hardware.Reachable c →
        c.getParameters.previewSize = (c.mPreviewWidth, c.mPreviewHeight) := by
  have hreach : hardware.Reachable
      ((blank.setParameters defaultParameters).2.setParameters qcif).2 :=
    .step (.init init_blank) .setParameters
  constructor
  · intro hall
    obtain ⟨c, hc⟩ : ∃ c, c =
        ((((blank.setParameters defaultParameters).2.setParameters qcif).2.startPreview
          ⟨true, 0, 0⟩).2.startRecording) := ⟨_, rfl⟩
    have hrecord : hardware.Reachable c := by
      rw [hc]
      exact .step (.step hreach .startPreview) .startRecording
    have hdelivers : c.Delivers 153600 := by
      rw [hc]
      exact ⟨by decide, by decide, by decide⟩
    have hheap : c.mEncodeHeap = some 152064 := by
      rw [hc]
      decide
    have hframe : c.mEncodeFrameSize = 50688 := by
      rw [hc]
      decide
    have hstopped : c.mVideorecordingStopped = false := by
      rw [hc]
      rfl
    obtain ⟨m, hm, hsize, hlength⟩ := exists_copy hstopped hheap 153600
    have hinside := (hall c hrecord 153600 hdelivers m hm).length
    rw [hsize, hlength, hframe] at hinside
    exact absurd hinside (by decide)
  · intro hall
    exact absurd (hall _ hreach) (by decide)

end Camera
end EmevBsp
