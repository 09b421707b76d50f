import EmevBsp.Library.TransitionSystem
import Mathlib.Data.Finset.Basic
import Mathlib.Data.Fintype.Basic

/-!
# `libcamera/V4l2camera.cpp`: who has the capture buffers

The driver has the buffers that were queued and not yet dequeued; the others are in the slots of
`nPreviewBuffer`.  `GrabCamFrame` dequeues a buffer, whichever the driver has filled, into the slot
of `nPreviewIndex`; `ReleaseCamFrame` queues the one in the slot of `nReleaseIndex`, if there is
one.  `previewThread` of `CameraHardware.cpp` calls the second after each frame of the first.

`Init` starts the two indices one apart, so the first two releases find nothing.  The third grab
fills the last of the slots, and the fourth one writes over a buffer.
-/

namespace EmevBsp
namespace Camera

/-! ## The class -/

abbrev nbBuffer : ℕ := 4

abbrev previewBuffer : ℕ := 3

/-- The buffers the driver has, and the fields about buffers; `none` is the -1 of an empty slot. -/
structure V4L2Camera where
  queued : Finset (Fin nbBuffer)
  nQueued : ℤ
  nDequeued : ℤ
  nPreviewBuffer : Fin previewBuffer → Option (Fin nbBuffer)
  nPreviewIndex : Fin previewBuffer
  nReleaseIndex : Fin previewBuffer

/-- `if (++index >= PREVIEW_BUFFER) index = 0`. -/
def next (i : Fin previewBuffer) : Fin previewBuffer :=
  if h : i + 1 < previewBuffer then ⟨i + 1, h⟩ else 0

/-- What the calls of `Init` return. -/
structure InitAnswers where
  reqbufs : ℤ
  querybuf : Fin nbBuffer → ℤ
  mapFailed : Fin nbBuffer → Bool
  qbuf : Fin nbBuffer → ℤ

/-- The loop of `Init` over the buffers. -/
def initLoop (a : InitAnswers) : List (Fin nbBuffer) → V4L2Camera → ℤ × V4L2Camera
  | [], c => (0, c)
  | i :: is, c =>
    if a.querybuf i < 0 then (a.querybuf i, c)
    else if a.mapFailed i then (-1, c)
    else if a.qbuf i < 0 then (-1, c)
    else initLoop a is { c with queued := insert i c.queued, nQueued := c.nQueued + 1 }

/-- `Init`.  The request for buffers takes away the ones the driver had. -/
def V4L2Camera.init (a : InitAnswers) (c : V4L2Camera) : ℤ × V4L2Camera :=
  if a.reqbufs < 0 then (a.reqbufs, c)
  else
    let r := initLoop a (List.finRange nbBuffer) { c with queued := ∅ }
    if r.1 ≠ 0 then r
    else (0, { r.2 with
      nPreviewBuffer := fun _ => none
      nPreviewIndex := 1
      nReleaseIndex := 0 })

/-- How `GrabCamFrame` goes: `select` fails or times out, or a buffer cannot be dequeued or is. -/
inductive Grabbed where
  | selectError
  | timeOut
  | dqbufError (ret : ℤ)
  | frame (b : Fin nbBuffer)
  deriving DecidableEq

def V4L2Camera.grabCamFrame (c : V4L2Camera) : Grabbed → ℤ × V4L2Camera
  | .selectError => (-1, c)
  | .timeOut => (1, c)
  | .dqbufError ret => (ret, c)
  | .frame b => (0, { c with
      queued := c.queued.erase b
      nDequeued := c.nDequeued + 1
      nPreviewBuffer := Function.update c.nPreviewBuffer c.nPreviewIndex (some b)
      nPreviewIndex := next c.nPreviewIndex })

/-- `ReleaseCamFrame`, `ret` being the answer to the request to queue the buffer. -/
def V4L2Camera.releaseCamFrame (c : V4L2Camera) (ret : ℤ) : ℤ × V4L2Camera :=
  match c.nPreviewBuffer c.nReleaseIndex with
  | none => (0, c)
  | some b =>
    if ret < 0 then (ret, c)
    else (0, { c with
      queued := insert b c.queued
      nQueued := c.nQueued + 1
      nPreviewBuffer := Function.update c.nPreviewBuffer c.nReleaseIndex none
      nReleaseIndex := next c.nReleaseIndex })

/-! ## `previewThread` -/

/-- Where the thread is: before `GrabCamFrame`, or with a frame. -/
inductive Place where
  | idle
  | hasFrame
  deriving DecidableEq

structure State where
  camera : V4L2Camera
  place : Place

/-- A call of `previewThread` and how it goes. -/
inductive Call where
  | grab (o : Grabbed)
  | release (ret : ℤ)
  deriving DecidableEq

/-- A frame comes from the driver, and a buffer that cannot be dequeued gives an error. -/
def Grabbed.Possible (c : V4L2Camera) : Grabbed → Prop
  | .frame b => b ∈ c.queued
  | .dqbufError ret => ret < 0
  | _ => True

instance (c : V4L2Camera) : (o : Grabbed) → Decidable (o.Possible c)
  | .frame b => inferInstanceAs (Decidable (b ∈ c.queued))
  | .dqbufError ret => inferInstanceAs (Decidable (ret < 0))
  | .selectError | .timeOut => inferInstanceAs (Decidable True)

/-- `previewThread` in a loop: without a frame it returns, with one it calls `ReleaseCamFrame`. -/
inductive Step : State → Call → State → Prop where
  | grab {c : V4L2Camera} {o : Grabbed} : o.Possible c →
      Step ⟨c, .idle⟩ (.grab o)
        ⟨(c.grabCamFrame o).2, if (c.grabCamFrame o).1 ≠ 0 then .idle else .hasFrame⟩
  | release {c : V4L2Camera} {ret : ℤ} :
      Step ⟨c, .hasFrame⟩ (.release ret) ⟨(c.releaseCamFrame ret).2, .idle⟩

/-- The thread behind a successful `Init`. -/
def previewThread : TransitionSystem State Call where
  init s := ∃ a c, (V4L2Camera.init a c).1 = 0 ∧ s = ⟨(V4L2Camera.init a c).2, .idle⟩
  step := Step

/-- A frame was grabbed. -/
def Call.isFrame : Call → Bool
  | .grab (.frame _) => true
  | _ => false

/-- The number of frames grabbed in a run. -/
def frames (l : List Call) : ℕ := l.countP Call.isFrame

/-! ## `Init` -/

theorem initLoop_eq {a : InitAnswers} {is : List (Fin nbBuffer)} {c : V4L2Camera}
    (h : (initLoop a is c).1 = 0) :
    (initLoop a is c).2 =
      { c with queued := c.queued ∪ is.toFinset, nQueued := c.nQueued + is.length } := by
  induction is generalizing c with
  | nil => simp [initLoop]
  | cons i is ih =>
    rw [initLoop] at h ⊢
    split_ifs at h ⊢ with hquery hmap hqueue
    · exact absurd h hquery.ne
    · exact absurd (show (-1 : ℤ) = 0 from h) (by decide)
    · exact absurd (show (-1 : ℤ) = 0 from h) (by decide)
    · rw [ih h]
      congr 1
      · rw [List.toFinset_cons, Finset.insert_union, Finset.union_insert]
      · push_cast [List.length_cons]
        omega

/-- **What a successful `Init` leaves.** -/
theorem init_eq {a : InitAnswers} {c : V4L2Camera} (h : (c.init a).1 = 0) :
    (c.init a).2 = ⟨Finset.univ, c.nQueued + nbBuffer, c.nDequeued, fun _ => none, 1, 0⟩ := by
  rw [V4L2Camera.init] at h ⊢
  split_ifs at h ⊢ with hreq
  · exact absurd h hreq.ne
  · by_cases hloop : (initLoop a (List.finRange nbBuffer) { c with queued := ∅ }).1 = 0
    · dsimp only
      rw [if_neg (not_not.mpr hloop), initLoop_eq hloop]
      rfl
    · dsimp only at h
      rw [if_pos hloop] at h
      exact absurd h hloop

/-! ## Who has a buffer -/

/-- A buffer is either queued in the driver or recorded in exactly one slot. -/
def Owned (c : V4L2Camera) (b : Fin nbBuffer) : Prop :=
  (b ∈ c.queued ∧ ∀ i, c.nPreviewBuffer i ≠ some b) ∨
    (b ∉ c.queued ∧ ∃! i, c.nPreviewBuffer i = some b)

variable {c : V4L2Camera}

theorem Owned.slot_ne {b : Fin nbBuffer} (h : Owned c b) (hb : b ∈ c.queued)
    (i : Fin previewBuffer) : c.nPreviewBuffer i ≠ some b := by
  rcases h with ⟨-, hslots⟩ | ⟨hnot, -⟩
  · exact hslots i
  · exact absurd hb hnot

theorem Owned.notMem {b : Fin nbBuffer} (h : Owned c b) {i : Fin previewBuffer}
    (hi : c.nPreviewBuffer i = some b) : b ∉ c.queued :=
  fun hb => h.slot_ne hb i hi

theorem owned_grabCamFrame {b : Fin nbBuffer} (hc : ∀ a, Owned c a) (hb : b ∈ c.queued)
    (hempty : c.nPreviewBuffer c.nPreviewIndex = none) (a : Fin nbBuffer) :
    Owned (c.grabCamFrame (.frame b)).2 a := by
  have hslot : ∀ i, Function.update c.nPreviewBuffer c.nPreviewIndex (some b) i = some a ↔
      if i = c.nPreviewIndex then b = a else c.nPreviewBuffer i = some a := by
    intro i
    by_cases hi : i = c.nPreviewIndex
    · rw [hi, Function.update_self, if_pos rfl, Option.some_inj]
    · rw [Function.update_of_ne hi, if_neg hi]
  by_cases hab : a = b
  · subst hab
    refine .inr ⟨Finset.notMem_erase _ _, c.nPreviewIndex, ?_, fun i hi => ?_⟩
    · exact (hslot _).mpr (by rw [if_pos rfl])
    · by_contra hne
      have hi' := (hslot i).mp hi
      rw [if_neg hne] at hi'
      exact (hc a).slot_ne hb i hi'
  · have hsame : ∀ i, Function.update c.nPreviewBuffer c.nPreviewIndex (some b) i = some a ↔
        c.nPreviewBuffer i = some a := by
      intro i
      rw [hslot]
      split_ifs with hi
      · rw [hi, hempty]
        exact iff_of_false (fun h => hab h.symm) (by simp)
      · rfl
    rcases hc a with ⟨hmem, hslots⟩ | ⟨hnot, hone⟩
    · exact .inl ⟨Finset.mem_erase.mpr ⟨hab, hmem⟩, fun i hi => hslots i ((hsame i).mp hi)⟩
    · refine .inr ⟨fun hmem => hnot (Finset.mem_of_mem_erase hmem), ?_⟩
      exact (existsUnique_congr hsame).mpr hone

theorem lost_grabCamFrame {a b : Fin nbBuffer} (hc : ∀ a, Owned c a) (hb : b ∈ c.queued)
    (hslot : c.nPreviewBuffer c.nPreviewIndex = some a) :
    ¬ Owned (c.grabCamFrame (.frame b)).2 a := by
  have hnot : a ∉ c.queued := (hc a).notMem hslot
  have hab : b ≠ a := fun h => hnot (h ▸ hb)
  have hone : ∃! i, c.nPreviewBuffer i = some a := by
    rcases hc a with ⟨hmem, -⟩ | ⟨-, hone⟩
    · exact absurd hmem hnot
    · exact hone
  rintro (⟨hmem, -⟩ | ⟨-, i, hi, -⟩)
  · exact hnot (Finset.mem_of_mem_erase hmem)
  · have hi' : Function.update c.nPreviewBuffer c.nPreviewIndex (some b) i = some a := hi
    by_cases hindex : i = c.nPreviewIndex
    · rw [hindex, Function.update_self] at hi'
      exact hab (Option.some.inj hi')
    · rw [Function.update_of_ne hindex] at hi'
      exact hindex (hone.unique hi' hslot)

theorem owned_releaseCamFrame (hc : ∀ a, Owned c a) (ret : ℤ) (a : Fin nbBuffer) :
    Owned (c.releaseCamFrame ret).2 a := by
  rw [V4L2Camera.releaseCamFrame]
  cases hslot : c.nPreviewBuffer c.nReleaseIndex with
  | none => exact hc a
  | some b =>
    dsimp only
    split_ifs
    · exact hc a
    by_cases hab : a = b
    · subst hab
      refine .inl ⟨Finset.mem_insert_self _ _, fun i hi => ?_⟩
      have hone : ∃! i, c.nPreviewBuffer i = some a := by
        rcases hc a with ⟨-, hslots⟩ | ⟨-, hone⟩
        · exact absurd hslot (hslots _)
        · exact hone
      have hi' : Function.update c.nPreviewBuffer c.nReleaseIndex none i = some a := hi
      by_cases hindex : i = c.nReleaseIndex
      · rw [hindex, Function.update_self] at hi'
        exact absurd hi' (by simp)
      · rw [Function.update_of_ne hindex] at hi'
        exact hindex (hone.unique hi' hslot)
    · have hsame : ∀ i, Function.update c.nPreviewBuffer c.nReleaseIndex none i = some a ↔
          c.nPreviewBuffer i = some a := by
        intro i
        by_cases hindex : i = c.nReleaseIndex
        · rw [hindex, Function.update_self, hslot, Option.some_inj]
          exact iff_of_false (by simp) (fun h => hab h.symm)
        · rw [Function.update_of_ne hindex]
      rcases hc a with ⟨hmem, hslots⟩ | ⟨hnot, hone⟩
      · exact .inl ⟨Finset.mem_insert_of_mem hmem, fun i hi => hslots i ((hsame i).mp hi)⟩
      · refine .inr ⟨fun hmem => ?_, (existsUnique_congr hsame).mpr hone⟩
        exact (Finset.mem_insert.mp hmem).elim hab hnot

/-! ## The first frames -/

/-- Where the two indices are behind the first `k` frames, and which slots are in use. -/
def Phase : ℕ → State → Prop
  | 0, s => s.camera.nPreviewIndex = 1 ∧ s.camera.nReleaseIndex = 0 ∧
      ∀ i, s.camera.nPreviewBuffer i = none
  | 1, s => s.camera.nPreviewIndex = 2 ∧ s.camera.nReleaseIndex = 0 ∧
      s.camera.nPreviewBuffer 0 = none ∧ s.camera.nPreviewBuffer 1 ≠ none ∧
      s.camera.nPreviewBuffer 2 = none
  | 2, s => s.camera.nPreviewIndex = 0 ∧ s.camera.nReleaseIndex = 0 ∧
      s.camera.nPreviewBuffer 0 = none ∧ s.camera.nPreviewBuffer 1 ≠ none
  | 3, s => s.camera.nPreviewIndex = 1 ∧ s.camera.nPreviewBuffer 1 ≠ none ∧
      (s.place = .hasFrame → s.camera.nReleaseIndex = 0)
  | _, _ => False

theorem Phase.slot {k : ℕ} {s : State} (h : Phase k s) :
    s.camera.nPreviewBuffer s.camera.nPreviewIndex = none ↔ k < previewBuffer := by
  match k, h with
  | 0, ⟨hindex, _, hnone⟩ => exact iff_of_true (hnone _) (by decide)
  | 1, ⟨hindex, _, _, _, hslot⟩ => exact iff_of_true (hindex ▸ hslot) (by decide)
  | 2, ⟨hindex, _, hslot, _⟩ => exact iff_of_true (hindex ▸ hslot) (by decide)
  | 3, ⟨hindex, hslot, _⟩ => exact iff_of_false (hindex ▸ hslot) (by decide)

theorem grabCamFrame_slot (b : Fin nbBuffer) (i : Fin previewBuffer) :
    (c.grabCamFrame (.frame b)).2.nPreviewBuffer i =
      if i = c.nPreviewIndex then some b else c.nPreviewBuffer i :=
  Function.update_apply _ _ _ _

theorem grabCamFrame_index (b : Fin nbBuffer) :
    (c.grabCamFrame (.frame b)).2.nPreviewIndex = next c.nPreviewIndex := rfl

theorem Phase.frame {k : ℕ} {p : Place} (h : Phase k ⟨c, p⟩) (hk : k < previewBuffer)
    (b : Fin nbBuffer) : Phase (k + 1) ⟨(c.grabCamFrame (.frame b)).2, .hasFrame⟩ := by
  match k, h with
  | 0, ⟨hindex, hrelease, hnone⟩ =>
    refine ⟨?_, hrelease, ?_, ?_, ?_⟩
    all_goals dsimp only at hindex ⊢
    · rw [grabCamFrame_index, hindex]
      rfl
    · rw [grabCamFrame_slot, hindex, if_neg (by decide)]
      exact hnone 0
    · rw [grabCamFrame_slot, hindex, if_pos rfl]
      exact Option.some_ne_none b
    · rw [grabCamFrame_slot, hindex, if_neg (by decide)]
      exact hnone 2
  | 1, ⟨hindex, hrelease, hzero, hone, _⟩ =>
    refine ⟨?_, hrelease, ?_, ?_⟩
    all_goals dsimp only at hindex ⊢
    · rw [grabCamFrame_index, hindex]
      rfl
    · rw [grabCamFrame_slot, hindex, if_neg (by decide)]
      exact hzero
    · rw [grabCamFrame_slot, hindex, if_neg (by decide)]
      exact hone
  | 2, ⟨hindex, hrelease, hzero, hone⟩ =>
    refine ⟨?_, ?_, fun _ => hrelease⟩
    all_goals dsimp only at hindex ⊢
    · rw [grabCamFrame_index, hindex]
      rfl
    · rw [grabCamFrame_slot, hindex, if_neg (by decide)]
      exact hone

theorem idle_ne : Place.idle ≠ .hasFrame := by decide

theorem Phase.release {k : ℕ} (h : Phase k ⟨c, .hasFrame⟩) (ret : ℤ) :
    Phase k ⟨(c.releaseCamFrame ret).2, .idle⟩ := by
  have hkeep (hslot : c.nPreviewBuffer c.nReleaseIndex = none) :
      (c.releaseCamFrame ret).2 = c := by
    rw [V4L2Camera.releaseCamFrame, hslot]
  match k, h with
  | 0, ⟨hindex, hrelease, hnone⟩ =>
    rw [hkeep (hnone _)]
    exact ⟨hindex, hrelease, hnone⟩
  | 1, ⟨hindex, hrelease, hzero, hslots⟩ =>
    rw [hkeep (by rw [hrelease]; exact hzero)]
    exact ⟨hindex, hrelease, hzero, hslots⟩
  | 2, ⟨hindex, hrelease, hzero, hslots⟩ =>
    rw [hkeep (by rw [hrelease]; exact hzero)]
    exact ⟨hindex, hrelease, hzero, hslots⟩
  | 3, ⟨hindex, hslot, hrelease⟩ =>
    have hrelease' : c.nReleaseIndex = 0 := hrelease rfl
    have hslot' : c.nPreviewBuffer 1 ≠ none := hslot
    rw [V4L2Camera.releaseCamFrame, hrelease']
    cases c.nPreviewBuffer 0 with
    | none => exact ⟨hindex, hslot, fun hplace => absurd hplace idle_ne⟩
    | some b =>
      dsimp only
      split_ifs
      · exact ⟨hindex, hslot, fun hplace => absurd hplace idle_ne⟩
      · refine ⟨hindex, ?_, fun hplace => absurd hplace idle_ne⟩
        show Function.update c.nPreviewBuffer 0 none 1 ≠ none
        rwa [Function.update_of_ne (by decide)]

theorem Phase.step {k : ℕ} {s t : State} {call : Call} (h : Phase k s) (hstep : Step s call t)
    (hk : call.isFrame = true → k < previewBuffer) :
    Phase (k + if call.isFrame then 1 else 0) t := by
  cases hstep with
  | @grab c o hpossible =>
    cases o with
    | frame b => exact h.frame (hk rfl) b
    | selectError => exact h
    | timeOut => exact h
    | dqbufError ret =>
      have hret : ret ≠ 0 := (show ret < 0 from hpossible).ne
      simpa [V4L2Camera.grabCamFrame, hret, Call.isFrame] using h
  | @release c ret => exact h.release ret

theorem owned_step {k : ℕ} {s t : State} {call : Call} (h : Phase k s) (hstep : Step s call t)
    (hc : ∀ a, Owned s.camera a) :
    (∀ a, Owned t.camera a) ↔ (call.isFrame = true → k < previewBuffer) := by
  cases hstep with
  | @grab c o hpossible =>
    cases o with
    | frame b =>
      constructor
      · intro hall _
        refine h.slot.mp ?_
        cases hslot : c.nPreviewBuffer c.nPreviewIndex with
        | none => rfl
        | some a => exact absurd (hall a) (lost_grabCamFrame hc hpossible hslot)
      · intro hk
        exact owned_grabCamFrame hc hpossible (h.slot.mpr (hk rfl))
    | selectError => exact iff_of_true hc (fun hframe => absurd hframe (by decide))
    | timeOut => exact iff_of_true hc (fun hframe => absurd hframe (by decide))
    | dqbufError ret => exact iff_of_true hc (fun hframe => absurd hframe Bool.false_ne_true)
  | @release c ret =>
    exact iff_of_true (owned_releaseCamFrame hc ret)
      (fun hframe => absurd hframe Bool.false_ne_true)

/-! ## Runs -/

theorem frames_cons (call : Call) (l : List Call) :
    frames (call :: l) = frames l + if call.isFrame then 1 else 0 :=
  List.countP_cons

theorem owned_of_run {k : ℕ} {s t : State} {l : List Call} (hrun : previewThread.Run s l t)
    (h : Phase k s) (hc : ∀ a, Owned s.camera a) (hl : k + frames l ≤ previewBuffer) :
    ∀ a, Owned t.camera a := by
  induction hrun generalizing k with
  | nil => exact hc
  | @cons s t r call l hstep _ ih =>
    rw [frames_cons] at hl
    have hk (hframe : call.isFrame = true) : k < previewBuffer := by
      rw [if_pos hframe] at hl
      omega
    exact ih (h.step hstep hk) ((owned_step h hstep hc).mpr hk) (by omega)

theorem lost_of_run {k : ℕ} {s t : State} {l : List Call} (hrun : previewThread.Run s l t)
    (h : Phase k s) (hc : ∀ a, Owned s.camera a) (hl : previewBuffer < k + frames l)
    (hk : k ≤ previewBuffer) :
    ∃ l₁ u, l₁ <+: l ∧ previewThread.Run s l₁ u ∧ ¬ ∀ a, Owned u.camera a := by
  induction hrun generalizing k with
  | nil => exact absurd hl (Nat.not_lt_of_le hk)
  | @cons s t r call l hstep hrest ih =>
    by_cases hframe : call.isFrame = true → k < previewBuffer
    · rw [frames_cons] at hl
      have hnext : k + (if call.isFrame then 1 else 0) ≤ previewBuffer := by
        split_ifs with hcall
        · exact hframe hcall
        · exact hk
      obtain ⟨l₁, u, hprefix, hrun₁, hlost⟩ :=
        ih (h.step hstep hframe) ((owned_step h hstep hc).mpr hframe) (by omega) hnext
      exact ⟨call :: l₁, u, List.cons_prefix_cons.mpr ⟨rfl, hprefix⟩, .cons hstep hrun₁, hlost⟩
    · refine ⟨[call], t, ⟨l, rfl⟩, .single hstep, fun hall => hframe ?_⟩
      exact (owned_step h hstep hc).mp hall

theorem phase_init {s : State} (hinit : previewThread.init s) :
    Phase 0 s ∧ ∀ a, Owned s.camera a := by
  obtain ⟨a, c, hret, rfl⟩ := hinit
  rw [init_eq hret]
  exact ⟨⟨rfl, rfl, fun _ => rfl⟩, fun b => .inl ⟨Finset.mem_univ b, fun i => by simp⟩⟩

/-- **No buffer is lost** after any call of a run of `previewThread` exactly when the run grabs no
more frames than there are slots. -/
theorem owned_throughout_iff {s t : State} {l : List Call} (hinit : previewThread.init s)
    (hrun : previewThread.Run s l t) :
    (∀ l₁ u, l₁ <+: l → previewThread.Run s l₁ u → ∀ a, Owned u.camera a) ↔
      frames l ≤ previewBuffer := by
  obtain ⟨hphase, hc⟩ := phase_init hinit
  constructor
  · intro hall
    by_contra hl
    obtain ⟨l₁, u, hprefix, hrun₁, hlost⟩ :=
      lost_of_run hrun hphase hc (by omega) (Nat.zero_le _)
    exact hlost (hall l₁ u hprefix hrun₁)
  · intro hl l₁ u hprefix hrun₁
    have hframes : frames l₁ ≤ frames l := hprefix.sublist.countP_le
    exact owned_of_run hrun₁ hphase hc (by omega)

/-- All calls of `Init` succeed. -/
def initAnswers : InitAnswers := ⟨0, fun _ => 0, fun _ => false, fun _ => 0⟩

/-- The camera before the first `Init`. -/
def closed : V4L2Camera := ⟨∅, 0, 0, fun _ => none, 0, 0⟩

def started : State := ⟨(closed.init initAnswers).2, .idle⟩

theorem init_started : previewThread.init started :=
  ⟨initAnswers, closed, by decide, rfl⟩

/-- A run in which the driver fills its buffers in turn. -/
def turns : List Call :=
  [.grab (.frame 0), .release 0, .grab (.frame 1), .release 0, .grab (.frame 2), .release 0]

/-- The camera behind these calls, without a look at what the driver has. -/
def after (s : State) : List Call → State
  | [] => s
  | .grab o :: l =>
    after ⟨(s.camera.grabCamFrame o).2,
      if (s.camera.grabCamFrame o).1 ≠ 0 then .idle else .hasFrame⟩ l
  | .release ret :: l => after ⟨(s.camera.releaseCamFrame ret).2, .idle⟩ l

theorem run_turns : previewThread.Run started turns (after started turns) := by
  refine .cons (.grab ?_) (.cons .release (.cons (.grab ?_) (.cons .release
    (.cons (.grab ?_) (.cons .release (.nil _))))))
  all_goals decide

theorem owned_throughout_iff_turns :
    (∀ l₁ u, l₁ <+: turns → previewThread.Run started l₁ u → ∀ a, Owned u.camera a) ↔
      frames turns ≤ previewBuffer :=
  owned_throughout_iff init_started run_turns

/-- The fourth frame goes into the slot of the first one, and buffer 0 is neither queued nor in a
slot. -/
theorem not_owned_throughout :
    ¬ ∀ s l t, previewThread.init s → previewThread.Run s l t →
      ∀ a, a ∈ t.camera.queued ∨ ∃ i, t.camera.nPreviewBuffer i = some a := by
  intro hall
  have hfour : previewThread.Run (after started turns) [.grab (.frame 3)]
      (after (after started turns) [.grab (.frame 3)]) := .single (.grab (by decide))
  have hzero := hall started _ _ init_started (run_turns.append hfour) 0
  revert hzero
  decide

end Camera
end EmevBsp
