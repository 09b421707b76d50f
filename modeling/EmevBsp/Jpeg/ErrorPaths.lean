import EmevBsp.Jpeg.Jpeglib
import Mathlib.Tactic.Common

/-!
# `emxx_jpeglib.c`: what is left after a failure

The instructions of the caller are checked once for what holds before each of them: whether the
mutex is held, whether there is a handle, and which threads were created.  A call that fails either
holds the mutex, which is not given back at `jpege_end`, or comes before the thread that writes the
file, while 0 is returned all the same.

* `checks_emxxYuvToJpeg`: every instruction is reached in a state that fits it.
* `inv_run`: what holds in every state of every run.
* `not_right_sendCommand`: a failing `OMX_SendCommand` leaves the mutex locked.
* `yuvToJpeg_right_iff`: **the promise holds after a return exactly when there is no frame or
  nothing failed.**
-/

namespace EmevBsp
namespace Jpeg

/-! ## What holds before an instruction -/

/-- What is known of the state: the frame has a size, the mutex is held, there is a handle, the two
threads of the output were created, the wait for the data is over, and the handle was freed. -/
structure Known where
  framed : Bool
  locked : Bool
  handle : Bool
  output : Bool
  data : Bool
  waited : Bool
  freed : Bool

namespace Known

/-- After an instruction without a failure. -/
def after (k : Known) : Instr → Known
  | .call .getHandle _ => { k with handle := true }
  | .call .createOutputThread _ => { k with output := true }
  | .call .createOutputDataThread _ => { k with data := true }
  | .checkFrame => { k with framed := true }
  | .lock | .relock => { k with locked := true }
  | .unlock => { k with locked := false }
  | .waitDone => { k with waited := true }
  | .freeHandle => { k with handle := false, freed := true }
  | _ => k

/-- What a call asks for when it does not fail: the handle and the threads are made once. -/
def callOk (k : Known) : Call → Bool
  | .getHandle => !k.handle
  | .createOutputThread => !k.output
  | .createOutputDataThread => !k.data
  | _ => true

/-- What an instruction asks for.  Where a call jumps to `jpege_end`, the mutex is held or nothing
will be written. -/
def fits (k : Known) : Instr → Bool
  | .call c .goOn =>
    c != .getHandle && c != .createOutputThread && c != .createOutputDataThread
  | .call c (.jpegeEnd _) => k.callOk c && k.framed && (k.locked || !k.data)
  | .call c .leave => k.callOk c && k.framed && k.handle
  | .checkFrame => !k.locked && !k.handle
  | .lock | .relock => !k.locked
  | .unlock | .condWait => k.locked
  | .semaphoreInit => !k.data
  | .waitDone => true
  | .freeHandle => k.framed && k.handle && !k.locked && k.waited
  | .semaphoreDeinit => k.waited
  | .returnZero => k.framed && !k.handle && !k.locked && k.waited

/-- The two instructions that follow the release of the handle. -/
def atEnd (i : Instr) : Bool := i == .semaphoreDeinit || i == .returnZero

/-- An instruction fits, also with the release of the handle. -/
def ok (k : Known) (i : Instr) : Bool := k.fits i && (!k.freed || atEnd i)

/-- The instructions fit, one after the other. -/
def checks : Known → List Instr → Bool
  | _, [] => true
  | k, i :: rest => k.ok i && (k.after i).checks rest

theorem checks_append (k : Known) (l l' : List Instr) :
    k.checks (l ++ l') = (k.checks l && (l.foldl after k).checks l') := by
  induction l generalizing k with
  | nil => simp [checks]
  | cons i l ih => rw [List.cons_append, checks, checks, List.foldl_cons, ih, Bool.and_assoc]

theorem checks_calls {k : Known} {l : List Instr} (hframed : k.framed = true)
    (hfreed : k.freed = false) (hend : (k.locked || !k.data) = true)
    (hl : ∀ i ∈ l, k.after i = k ∧ ∃ c, i = .call c Config.failed ∧ k.callOk c = true)
    (l' : List Instr) : k.checks (l ++ l') = k.checks l' := by
  induction l with
  | nil => rfl
  | cons i l ih =>
    obtain ⟨hafter, c, rfl, hc⟩ := hl i (List.mem_cons_self ..)
    have hi : k.ok (.call c Config.failed) = true := by
      rw [Config.failed, ok, fits, hc, hframed, hend, hfreed]
      rfl
    rw [List.cons_append, checks, hi, hafter, ih fun j hj => hl j (List.mem_cons_of_mem _ hj),
      Bool.true_and]

theorem atEnd_of_checks {k : Known} {l : List Instr} (hfreed : k.freed = true)
    (h : k.checks l = true) : ∀ i ∈ l, atEnd i = true := by
  induction l generalizing k with
  | nil => exact fun i hi => absurd hi List.not_mem_nil
  | cons i l ih =>
    rw [checks, Bool.and_eq_true, ok, Bool.and_eq_true, hfreed] at h
    have hi : atEnd i = true := by simpa using h.1.2
    have hafter : (k.after i).freed = true := by
      rw [atEnd, Bool.or_eq_true, beq_iff_eq, beq_iff_eq] at hi
      obtain rfl | rfl := hi <;> exact hfreed
    intro j hj
    obtain rfl | hj := List.mem_cons.mp hj
    · exact hi
    · exact ih hafter h.2 j hj

variable (cfg : Config)

theorem checks_portDefinitions {k : Known} (hframed : k.framed = true)
    (hfreed : k.freed = false) (hend : (k.locked || !k.data) = true) (l' : List Instr) :
    k.checks (cfg.portDefinitions ++ l') = k.checks l' := by
  refine checks_calls hframed hfreed hend (fun i hi => ?_) l'
  rw [Config.portDefinitions, List.mem_flatMap] at hi
  obtain ⟨p, -, hi⟩ := hi
  rw [List.mem_cons] at hi
  obtain rfl | hi := hi
  · exact ⟨rfl, .getParameter, rfl, rfl⟩
  · split_ifs at hi
    · rw [List.mem_singleton] at hi
      exact ⟨hi ▸ rfl, .setParameter, hi, rfl⟩
    · exact absurd hi List.not_mem_nil

theorem checks_buffers {k : Known} {c : ℕ → ℕ → Call} (hframed : k.framed = true)
    (hfreed : k.freed = false) (hend : (k.locked || !k.data) = true)
    (hc : ∀ p j, k.after (.call (c p j) Config.failed) = k ∧ k.callOk (c p j) = true)
    (l' : List Instr) : k.checks (cfg.buffers c ++ l') = k.checks l' := by
  refine checks_calls hframed hfreed hend (fun i hi => ?_) l'
  rw [Config.buffers, List.mem_flatMap] at hi
  obtain ⟨p, -, hi⟩ := hi
  rw [List.mem_map] at hi
  obtain ⟨j, -, rfl⟩ := hi
  exact ⟨(hc p j).1, c p j, rfl, (hc p j).2⟩

/-- Before the call. -/
def start : Known := ⟨false, false, false, false, false, false, false⟩

theorem checks_emxxYuvToJpeg : start.checks cfg.emxxYuvToJpeg = true := by
  have hend : (⟨true, true, true, true, true, true, false⟩ : Known).checks
      ([.condWait, .unlock] ++ Config.jpegeEnd) = true := by decide
  have hencode : (⟨true, false, true, false, false, false, false⟩ : Known).checks
      (cfg.encode ++ Config.jpegeEnd) = true := by
    rw [Config.encode, List.append_assoc, List.append_assoc, checks_append,
      checks_buffers cfg rfl rfl rfl fun _ _ => ⟨rfl, rfl⟩]
    exact hend
  rw [Config.emxxYuvToJpeg, Config.jpegeMain, Config.prepare, checks]
  simp only [List.append_assoc]
  rw [checks_append, checks_portDefinitions cfg rfl rfl rfl, checks_append,
    checks_buffers cfg rfl rfl rfl fun _ _ => ⟨rfl, rfl⟩, checks_append]
  exact hencode

end Known

/-! ## The invariant -/

/-- Nothing that the caller looked at failed. -/
def CallsFine (m : List Event) : Prop := ∀ e ∈ m, e.callFine = true

/-- No byte was lost. -/
def WritesFine (m : List Event) : Prop := ∀ e ∈ m, e.writeFine = true

theorem callsFine_append {m : List Event} {e : Event} :
    CallsFine (m ++ [e]) ↔ CallsFine m ∧ e.callFine = true := by
  rw [CallsFine, List.forall_mem_append, List.forall_mem_singleton]
  rfl

theorem writesFine_append {m : List Event} {e : Event} :
    WritesFine (m ++ [e]) ↔ WritesFine m ∧ e.writeFine = true := by
  rw [WritesFine, List.forall_mem_append, List.forall_mem_singleton]
  rfl

theorem fine_iff {m : List Event} : (∀ e ∈ m, e.fine = true) ↔ CallsFine m ∧ WritesFine m := by
  simp only [CallsFine, WritesFine, Event.fine, Bool.and_eq_true]
  exact ⟨fun h => ⟨fun e he => (h e he).1, fun e he => (h e he).2⟩,
    fun h e he => ⟨h.1 e he, h.2 e he⟩⟩

/-- What is known is so. -/
structure Agrees (cfg : Config) (k : Known) (s : State) : Prop where
  framed : k.framed = true → 0 < cfg.frameSize
  locked : k.locked = true ↔ s.mutex = some .caller
  handle : k.handle = true → s.hasHandle = true
  handles : s.handles = if k.handle then 1 else 0
  output : k.output = false → s.output = .absent
  data : k.data = true ↔ s.data ≠ .absent
  waited : k.waited = true → s.data = .finished

/-- The way of the output buffer: it is filled once, and then written. -/
structure DataInv (cfg : Config) (m : List Event) (s : State) : Prop where
  before : s.data ≠ .written → s.data ≠ .finished → s.file = cfg.file ∧ WritesFine m
  behind : s.data = .written ∨ s.data = .finished → ∃ n ≤ s.outBuf.length,
    s.file = cfg.file ++ [s.outBuf.take n] ∧ (WritesFine m ↔ n = s.outBuf.length)
  awake : s.data ≠ .absent → s.data ≠ .waiting → s.filled = true
  sem : s.data = .absent ∨ s.data = .waiting → 0 < s.dataSem → s.filled = true
  ff : s.ff = true → s.data = .finished
  filled : s.filled = true → s.filling = false
  output : s.output ≠ .finished → s.filling = false ∧ s.filled = false

/-- Something is wrong that stays so: the mutex is held, nothing will be written, or the handle
was not freed. -/
def Damage (cfg : Config) (s : State) : Prop :=
  s.mutex = some .caller ∨ (s.data = .absent ∧ s.file = cfg.file) ∨
    (s.handles ≠ 0 ∧ Instr.freeHandle ∉ s.todo)

/-- What holds in every state of a run. -/
inductive Inv (cfg : Config) (m : List Event) (s : State) : Prop where
  | going (k : Known) : s.result = none → k.checks s.todo = true → Agrees cfg k s →
      DataInv cfg m s → CallsFine m → Inv cfg m s
  | broken : s.result = none → 0 < cfg.frameSize → ¬ CallsFine m →
      (∀ i ∈ s.todo, i ∈ Config.jpegeEnd) → Damage cfg s → Inv cfg m s
  | noFrame : cfg.frameSize ≤ 0 → s.result = some (-1) → s.todo = [] →
      s.mutex ≠ some .caller → s.handles = 0 → Inv cfg m s
  | finished : 0 < cfg.frameSize → s.result = some 0 → s.todo = [] → s.mutex ≠ some .caller →
      s.handles = 0 → s.data = .finished → DataInv cfg m s → CallsFine m → Inv cfg m s
  | failed (r : ℤ) : 0 < cfg.frameSize → s.result = some r → s.todo = [] → ¬ CallsFine m →
      s.mutex = some .caller ∨ s.handles ≠ 0 ∨ (r = 0 ∧ s.data = .absent ∧ s.file = cfg.file) →
      Inv cfg m s

variable {cfg : Config} {m : List Event} {s t : State} {e : Event}

/-! ## Threads and callbacks -/

/-- A step of a thread or of the component: what it leaves alone. -/
structure Outside (s t : State) (e : Event) : Prop where
  todo : t.todo = s.todo
  result : t.result = s.result
  hasHandle : t.hasHandle = s.hasHandle
  handles : t.handles = s.handles
  mutex : t.mutex = some .caller ↔ s.mutex = some .caller
  output : s.output = .absent → t.output = .absent
  data : t.data = .absent ↔ s.data = .absent
  finished : s.data = .finished → t.data = .finished
  file : s.data = .absent → t.file = s.file
  callFine : e.callFine = true

theorem ThreadStep.outside (h : ThreadStep s e t) : Outside s t e := by
  cases h with
  | inputAwake hin _ => constructor <;> simp [Event.callFine]
  | emptyThisBuffer ok hin => constructor <;> simp [Event.callFine]
  | outputAwake hout _ => constructor <;> simp [Event.callFine, hout]
  | fillThisBuffer ok hout => constructor <;> simp [Event.callFine, hout]
  | dataAwake hdata _ => constructor <;> simp [Event.callFine, hdata]
  | fwrite n hdata _ => constructor <;> simp [Event.callFine, hdata]
  | dataFinished hdata => constructor <;> simp [Event.callFine, hdata]

theorem CallbackStep.outside (h : CallbackStep s e t) : Outside s t e := by
  cases h with
  | emptyBufferDone _ => constructor <;> simp [Event.callFine]
  | fillBufferDone data _ => constructor <;> simp [Event.callFine]
  | handlerBegin hmutex => constructor <;> simp [Event.callFine, hmutex]
  | handlerEnd hmutex => constructor <;> simp [Event.callFine, hmutex]

theorem Agrees.outside {k : Known} (h : Agrees cfg k s) (ho : Outside s t e) : Agrees cfg k t where
  framed := h.framed
  locked := h.locked.trans ho.mutex.symm
  handle hk := ho.hasHandle.trans (h.handle hk)
  handles := ho.handles.trans h.handles
  output hk := ho.output (h.output hk)
  data := h.data.trans (not_congr ho.data).symm
  waited hk := ho.finished (h.waited hk)

theorem DataInv.event (he : e.writeFine = true) (hd : DataInv cfg m s) :
    DataInv cfg (m ++ [e]) s := by
  have hw : WritesFine (m ++ [e]) ↔ WritesFine m := by
    rw [writesFine_append, he]
    exact and_iff_left rfl
  refine { hd with before := fun h h' => ?_, behind := fun h => ?_ }
  · exact ⟨(hd.before h h').1, hw.mpr (hd.before h h').2⟩
  · obtain ⟨n, hn, hfile, hfull⟩ := hd.behind h
    exact ⟨n, hn, hfile, hw.trans hfull⟩

theorem DataInv.fwrite {n : ℕ} (hdata : s.data = .awake) (hn : n ≤ s.outBuf.length)
    (hd : DataInv cfg m s) :
    DataInv cfg (m ++ [.fwrite n s.outBuf.length])
      { s with data := .written, file := s.file ++ [s.outBuf.take n] } := by
  obtain ⟨hfile, hwrites⟩ := hd.before (by simp [hdata]) (by simp [hdata])
  constructor
  case before => exact fun h _ => absurd rfl h
  case behind =>
    intro _
    refine ⟨n, hn, by rw [hfile], ?_⟩
    rw [writesFine_append, and_iff_right hwrites, Event.writeFine, beq_iff_eq]
  case awake => exact fun _ _ => hd.awake (by simp [hdata]) (by simp [hdata])
  case sem => exact fun h => absurd h (by simp)
  case ff => exact fun h => absurd (hd.ff h) (by simp [hdata])
  case filled => exact hd.filled
  case output => exact hd.output

theorem ThreadStep.dataInv (h : ThreadStep s e t) (hd : DataInv cfg m s) :
    DataInv cfg (m ++ [e]) t := by
  cases h with
  | inputAwake hin hsem => exact DataInv.event rfl { hd with }
  | emptyThisBuffer ok hin => exact DataInv.event rfl { hd with }
  | outputAwake hout hsem =>
    exact DataInv.event rfl { hd with output := fun _ => hd.output (by simp [hout]) }
  | fillThisBuffer ok hout =>
    obtain ⟨hfilling, hfilled⟩ := hd.output (by simp [hout])
    exact DataInv.event rfl
      { hd with filled := fun h => absurd h (by simp [hfilled]), output := fun h => absurd rfl h }
  | dataAwake hdata hsem =>
    refine DataInv.event rfl
      { hd with before := ?_, behind := ?_, awake := ?_, sem := ?_, ff := ?_ }
    · exact fun _ _ => hd.before (by simp [hdata]) (by simp [hdata])
    · exact fun h => absurd h (by simp)
    · exact fun _ _ => hd.sem (Or.inr hdata) hsem
    · exact fun h => absurd h (by simp)
    · exact fun h => absurd (hd.ff h) (by simp [hdata])
  | fwrite n hdata hn => exact hd.fwrite hdata hn
  | dataFinished hdata =>
    refine DataInv.event rfl
      { hd with before := ?_, behind := ?_, awake := ?_, sem := ?_, ff := ?_ }
    · exact fun _ h => absurd rfl h
    · exact fun _ => hd.behind (Or.inl hdata)
    · exact fun _ _ => hd.awake (by simp [hdata]) (by simp [hdata])
    · exact fun h => absurd h (by simp)
    · exact fun _ => rfl

theorem CallbackStep.dataInv (h : CallbackStep s e t) (hd : DataInv cfg m s) :
    DataInv cfg (m ++ [e]) t := by
  cases h with
  | emptyBufferDone _ => exact DataInv.event rfl { hd with }
  | handlerBegin _ => exact DataInv.event rfl { hd with }
  | handlerEnd _ => exact DataInv.event rfl { hd with }
  | fillBufferDone data hfilling =>
    -- the buffer is not filled yet, so it is not written either
    have hnot : s.filled ≠ true := fun h => by simp [hd.filled h] at hfilling
    have hout : s.output = .finished := by
      by_contra h
      simp [(hd.output h).1] at hfilling
    have hearly : s.data = .absent ∨ s.data = .waiting := by
      by_contra h
      rw [not_or] at h
      exact hnot (hd.awake h.1 h.2)
    refine DataInv.event rfl { hd with
      behind := ?_, awake := ?_, sem := ?_, filled := ?_, output := ?_ }
    · intro h
      obtain hdata | hdata := hearly <;> simp [hdata] at h
    · exact fun _ _ => rfl
    · exact fun _ _ => rfl
    · exact fun _ => rfl
    · exact fun h => absurd hout h

theorem Inv.outside (h : Inv cfg m s) (ho : Outside s t e)
    (hd : DataInv cfg m s → DataInv cfg (m ++ [e]) t) : Inv cfg (m ++ [e]) t := by
  have hcalls : CallsFine m ↔ CallsFine (m ++ [e]) := by
    rw [callsFine_append, ho.callFine]
    exact (and_iff_left rfl).symm
  cases h with
  | going k hres hchecks hagrees hdata hfine =>
    exact .going k (ho.result.trans hres) (ho.todo ▸ hchecks) (hagrees.outside ho) (hd hdata)
      (hcalls.mp hfine)
  | broken hres hframe hfine htodo hdamage =>
    refine .broken (ho.result.trans hres) hframe (mt hcalls.mpr hfine) (ho.todo ▸ htodo) ?_
    obtain hmutex | ⟨hdata, hfile⟩ | ⟨hhandles, hfree⟩ := hdamage
    · exact Or.inl (ho.mutex.mpr hmutex)
    · exact Or.inr (Or.inl ⟨ho.data.mpr hdata, (ho.file hdata).trans hfile⟩)
    · exact Or.inr (Or.inr ⟨ho.handles ▸ hhandles, ho.todo ▸ hfree⟩)
  | noFrame hframe hres htodo hmutex hhandles =>
    exact .noFrame hframe (ho.result.trans hres) (ho.todo.trans htodo) (mt ho.mutex.mp hmutex)
      (ho.handles.trans hhandles)
  | finished hframe hres htodo hmutex hhandles hfin hdata hfine =>
    exact .finished hframe (ho.result.trans hres) (ho.todo.trans htodo) (mt ho.mutex.mp hmutex)
      (ho.handles.trans hhandles) (ho.finished hfin) (hd hdata) (hcalls.mp hfine)
  | failed r hframe hres htodo hfine hwrong =>
    refine .failed r hframe (ho.result.trans hres) (ho.todo.trans htodo) (mt hcalls.mpr hfine) ?_
    obtain hmutex | hhandles | ⟨hr, hdata, hfile⟩ := hwrong
    · exact Or.inl (ho.mutex.mpr hmutex)
    · exact Or.inr (Or.inl (ho.handles ▸ hhandles))
    · exact Or.inr (Or.inr ⟨hr, ho.data.mpr hdata, (ho.file hdata).trans hfile⟩)

/-! ## The caller -/

theorem callOk_of_fits {k : Known} {c : Call} {f : OnFail} (h : k.fits (.call c f) = true) :
    k.callOk c = true := by
  cases f with
  | goOn => cases c <;> simp_all [Known.fits, Known.callOk]
  | jpegeEnd ret =>
    simp only [Known.fits, Bool.and_eq_true] at h
    exact h.1.1
  | leave =>
    simp only [Known.fits, Bool.and_eq_true] at h
    exact h.1.1

theorem Agrees.effect {k : Known} {c : Call} (f : OnFail) (h : Agrees cfg k s)
    (hok : k.callOk c = true) : Agrees cfg (k.after (.call c f)) (c.effect s) := by
  cases c
  case getHandle =>
    have hk : k.handle = false := by simpa [Known.callOk] using hok
    refine { h with handle := fun _ => rfl, handles := ?_ }
    change s.handles + 1 = 1
    rw [h.handles, hk]
    rfl
  case createOutputThread => exact { h with output := fun hk => absurd hk (by simp [Known.after]) }
  case createOutputDataThread =>
    have hk : k.data = false := by simpa [Known.callOk] using hok
    have habsent : s.data = .absent := by
      by_contra hdata
      simp [h.data.mpr hdata] at hk
    refine { h with data := ?_, waited := fun hw => ?_ }
    · exact ⟨fun _ => by simp [Call.effect], fun _ => rfl⟩
    · have hfin := h.waited hw
      simp [habsent] at hfin
  all_goals exact { h with }

theorem DataInv.effect {k : Known} {c : Call} (h : Agrees cfg k s) (hok : k.callOk c = true)
    (hd : DataInv cfg m s) : DataInv cfg m (c.effect s) := by
  cases c
  case createOutputThread =>
    have hk : k.output = false := by simpa [Known.callOk] using hok
    exact { hd with output := fun _ => hd.output (by simp [h.output hk]) }
  case createOutputDataThread =>
    have hk : k.data = false := by simpa [Known.callOk] using hok
    have habsent : s.data = .absent := by
      by_contra hdata
      simp [h.data.mpr hdata] at hk
    refine { hd with before := ?_, behind := ?_, awake := ?_, sem := ?_, ff := ?_ }
    · exact fun _ _ => hd.before (by simp [habsent]) (by simp [habsent])
    · exact fun hdata => absurd hdata (by simp [Call.effect])
    · exact fun _ hdata => absurd rfl hdata
    · exact fun _ hsem => hd.sem (Or.inl habsent) hsem
    · exact fun hff => absurd (hd.ff hff) (by simp [habsent])
  all_goals exact { hd with }

theorem inv_callFails {k : Known} {c : Call} {f : OnFail} {rest : List Instr}
    (hres : s.result = none) (hfits : k.fits (.call c f) = true)
    (hrest : (k.after (.call c f)).checks rest = true) (hagrees : Agrees cfg k s)
    (hdata : DataInv cfg m s) (hfine : CallsFine m) :
    Inv cfg (m ++ [.caller (.call c f) false]) (f.handle { s with todo := rest }) := by
  cases f with
  | goOn =>
    have hafter : k.after (.call c .goOn) = k := by
      cases c <;> first | rfl | simp [Known.fits] at hfits
    exact .going k hres (hafter ▸ hrest) { hagrees with } (DataInv.event rfl { hdata with })
      (callsFine_append.mpr ⟨hfine, rfl⟩)
  | jpegeEnd ret =>
    simp only [Known.fits, Bool.and_eq_true] at hfits
    refine .broken hres (hagrees.framed hfits.1.2) (fun h => ?_) (fun i hi => hi) ?_
    · exact absurd (callsFine_append.mp h).2 Bool.false_ne_true
    · obtain hlocked | hnone := Bool.or_eq_true _ _ ▸ hfits.2
      · exact Or.inl (hagrees.locked.mp hlocked)
      · have habsent : s.data = .absent := by
          by_contra h
          simp [hagrees.data.mpr h] at hnone
        exact Or.inr (Or.inl ⟨habsent, (hdata.before (by simp [habsent]) (by simp [habsent])).1⟩)
  | leave =>
    simp only [Known.fits, Bool.and_eq_true] at hfits
    refine .failed (-1) (hagrees.framed hfits.1.2) rfl rfl (fun h => ?_) (Or.inr (Or.inl ?_))
    · exact absurd (callsFine_append.mp h).2 Bool.false_ne_true
    · change s.handles ≠ 0
      rw [hagrees.handles, hfits.2]
      exact Nat.one_ne_zero

theorem inv_caller_going {k : Known} {i : Instr} {ok : Bool} {rest : List Instr}
    (hres : s.result = none) (hok : k.ok i = true) (hrest : (k.after i).checks rest = true)
    (hagrees : Agrees cfg k s) (hdata : DataInv cfg m s) (hfine : CallsFine m)
    (hexec : i.exec cfg ok { s with todo := rest } = some t) :
    Inv cfg (m ++ [.caller i ok]) t := by
  rw [Known.ok, Bool.and_eq_true] at hok
  obtain ⟨hfits, hend⟩ := hok
  have hcalls (hi : (Event.caller i ok).callFine = true) : CallsFine (m ++ [.caller i ok]) :=
    callsFine_append.mpr ⟨hfine, hi⟩
  cases i with
  | call c f =>
    obtain rfl := Option.some.inj hexec
    cases ok with
    | true =>
      have hc := callOk_of_fits hfits
      refine .going _ ?_ ?_ (Agrees.effect f { hagrees with } hc)
        (DataInv.event rfl (DataInv.effect { hagrees with } hc { hdata with })) (hcalls ?_)
      · cases c <;> exact hres
      · cases c <;> exact hrest
      · cases f <;> rfl
    | false =>
      exact inv_callFails hres hfits hrest hagrees hdata hfine
  | checkFrame =>
    obtain rfl := Option.some.inj hexec
    simp only [Known.fits, Bool.and_eq_true, Bool.not_eq_true'] at hfits
    have hmutex : s.mutex ≠ some .caller := fun h => by
      simp [hagrees.locked.mpr h] at hfits
    split_ifs with hframe
    · refine .noFrame hframe rfl rfl hmutex ?_
      change s.handles = 0
      rw [hagrees.handles, hfits.2]
      rfl
    · exact .going _ hres hrest { hagrees with framed := fun _ => by omega }
        (DataInv.event rfl { hdata with }) (hcalls rfl)
  | lock =>
    rw [Instr.exec] at hexec
    split_ifs at hexec with hmutex
    obtain rfl := Option.some.inj hexec
    exact .going _ hres hrest { hagrees with locked := ⟨fun _ => rfl, fun _ => rfl⟩ }
      (DataInv.event rfl { hdata with }) (hcalls rfl)
  | relock =>
    rw [Instr.exec] at hexec
    split_ifs at hexec with hmutex
    obtain rfl := Option.some.inj hexec
    exact .going _ hres hrest { hagrees with locked := ⟨fun _ => rfl, fun _ => rfl⟩ }
      (DataInv.event rfl { hdata with }) (hcalls rfl)
  | unlock =>
    obtain rfl := Option.some.inj hexec
    refine .going _ hres hrest { hagrees with locked := ?_ } (DataInv.event rfl { hdata with })
      (hcalls rfl)
    exact ⟨fun h => absurd h Bool.false_ne_true, fun h => absurd h (Option.some_ne_none _).symm⟩
  | condWait =>
    obtain rfl := Option.some.inj hexec
    have hlocked : k.locked = true := hfits
    have hfreed : k.freed = false := by simpa [Known.atEnd] using hend
    refine .going { k with locked := false } hres ?_ { hagrees with locked := ?_ }
      (DataInv.event rfl { hdata with }) (hcalls rfl)
    · have hk : { k with locked := true } = k := by rw [← hlocked]
      change (_ && Known.checks { k with locked := true } rest) = true
      rw [hk, show k.checks rest = true from hrest]
      simp [Known.ok, Known.fits, hfreed]
    · exact ⟨fun h => absurd h Bool.false_ne_true, fun h => absurd h (Option.some_ne_none _).symm⟩
  | semaphoreInit =>
    obtain rfl := Option.some.inj hexec
    exact .going _ hres hrest { hagrees with }
      (DataInv.event rfl { hdata with sem := fun _ h => absurd h (Nat.lt_irrefl 0) }) (hcalls rfl)
  | waitDone =>
    rw [Instr.exec] at hexec
    split_ifs at hexec with hdone
    obtain rfl := Option.some.inj hexec
    rw [Bool.and_eq_true] at hdone
    exact .going _ hres hrest { hagrees with waited := fun _ => hdata.ff hdone.2 }
      (DataInv.event rfl { hdata with }) (hcalls rfl)
  | freeHandle =>
    simp only [Known.fits, Bool.and_eq_true] at hfits
    obtain ⟨⟨⟨hframed, hhandle⟩, -⟩, -⟩ := hfits
    have hhandles : s.handles = 1 := by rw [hagrees.handles, hhandle]; rfl
    rw [Instr.exec, hagrees.handle hhandle] at hexec
    obtain rfl := Option.some.inj hexec
    cases ok with
    | true =>
      refine .going _ hres hrest { hagrees with handle := ?_, handles := ?_ }
        (DataInv.event rfl { hdata with }) (hcalls rfl)
      · exact fun h => absurd h Bool.false_ne_true
      · change s.handles - 1 = 0
        rw [hhandles]
    | false =>
      have hatEnd := Known.atEnd_of_checks rfl hrest
      refine .broken hres (hagrees.framed hframed) (fun h => ?_) (fun i hi => ?_)
        (Or.inr (Or.inr ⟨?_, fun hi => ?_⟩))
      · exact absurd (callsFine_append.mp h).2 Bool.false_ne_true
      · have hi := hatEnd i hi
        rw [Known.atEnd, Bool.or_eq_true, beq_iff_eq, beq_iff_eq] at hi
        obtain rfl | rfl := hi <;> simp [Config.jpegeEnd]
      · change s.handles ≠ 0
        rw [hhandles]
        exact Nat.one_ne_zero
      · exact absurd (hatEnd _ hi) (by decide)
  | semaphoreDeinit =>
    obtain rfl := Option.some.inj hexec
    have hfin := hagrees.waited hfits
    exact .going _ hres hrest { hagrees with }
      (DataInv.event rfl { hdata with sem := fun h => by simp [hfin] at h }) (hcalls rfl)
  | returnZero =>
    obtain rfl := Option.some.inj hexec
    simp only [Known.fits, Bool.and_eq_true, Bool.not_eq_true'] at hfits
    obtain ⟨⟨⟨hframed, hhandle⟩, hlocked⟩, hwaited⟩ := hfits
    refine .finished (hagrees.framed hframed) rfl rfl (fun h => ?_) ?_ (hagrees.waited hwaited)
      (DataInv.event rfl { hdata with }) (hcalls rfl)
    · simp [hagrees.locked.mpr h] at hlocked
    · change s.handles = 0
      rw [hagrees.handles, hhandle]
      rfl

theorem inv_caller_broken {i : Instr} {ok : Bool} {rest : List Instr}
    (hres : s.result = none) (hframe : 0 < cfg.frameSize) (hfine : ¬ CallsFine m)
    (htodo : s.todo = i :: rest) (hend : ∀ j ∈ s.todo, j ∈ Config.jpegeEnd)
    (hdamage : Damage cfg s) (hexec : i.exec cfg ok { s with todo := rest } = some t) :
    Inv cfg (m ++ [.caller i ok]) t := by
  have hfine' : ¬ CallsFine (m ++ [.caller i ok]) := fun h => hfine (callsFine_append.mp h).1
  have hrest : ∀ j ∈ rest, j ∈ Config.jpegeEnd := fun j hj =>
    hend j (htodo ▸ List.mem_cons_of_mem i hj)
  have hfree (h : Instr.freeHandle ∉ s.todo) : Instr.freeHandle ∉ rest := fun hj =>
    h (htodo ▸ List.mem_cons_of_mem i hj)
  have hi : i ∈ Config.jpegeEnd := hend i (htodo ▸ List.mem_cons_self ..)
  simp only [Config.jpegeEnd, List.mem_cons, List.not_mem_nil, or_false] at hi
  obtain rfl | rfl | rfl := hi
  · -- a handle that was not freed is not freed again
    have hdamage' : s.mutex = some .caller ∨ (s.data = .absent ∧ s.file = cfg.file) := by
      obtain hmutex | hnone | ⟨-, hfree⟩ := hdamage
      · exact Or.inl hmutex
      · exact Or.inr hnone
      · exact absurd (htodo ▸ List.mem_cons_self ..) hfree
    have hdamage'' (s' : State) (hmutex : s'.mutex = s.mutex) (hdata : s'.data = s.data)
        (hfile : s'.file = s.file) : Damage cfg s' := by
      rw [Damage, hmutex, hdata, hfile]
      exact hdamage'.imp_right Or.inl
    rw [Instr.exec] at hexec
    obtain rfl := Option.some.inj hexec
    split_ifs
    · exact .broken hres hframe hfine' hrest (hdamage'' _ rfl rfl rfl)
    · exact .broken hres hframe hfine' hrest (hdamage'' _ rfl rfl rfl)
    · exact .broken hres hframe hfine' hrest (hdamage'' _ rfl rfl rfl)
  · obtain rfl := Option.some.inj hexec
    exact .broken hres hframe hfine' hrest
      (hdamage.imp_right (Or.imp_right fun h => ⟨h.1, hfree h.2⟩))
  · obtain rfl := Option.some.inj hexec
    refine .failed 0 hframe rfl rfl hfine' ?_
    obtain hmutex | hnone | ⟨hhandles, -⟩ := hdamage
    · exact Or.inl hmutex
    · exact Or.inr (Or.inr ⟨rfl, hnone⟩)
    · exact Or.inr (Or.inl hhandles)

theorem Inv.caller {i : Instr} {ok : Bool} {rest : List Instr} (h : Inv cfg m s)
    (htodo : s.todo = i :: rest) (hexec : i.exec cfg ok { s with todo := rest } = some t) :
    Inv cfg (m ++ [.caller i ok]) t := by
  cases h with
  | going k hres hchecks hagrees hdata hfine =>
    rw [htodo, Known.checks, Bool.and_eq_true] at hchecks
    exact inv_caller_going hres hchecks.1 hchecks.2 hagrees hdata hfine hexec
  | broken hres hframe hfine hend hdamage =>
    exact inv_caller_broken hres hframe hfine htodo hend hdamage hexec
  | noFrame _ _ hnil _ _ => exact absurd (htodo.symm.trans hnil) (List.cons_ne_nil _ _)
  | finished _ _ hnil _ _ _ _ _ => exact absurd (htodo.symm.trans hnil) (List.cons_ne_nil _ _)
  | failed _ _ _ hnil _ _ => exact absurd (htodo.symm.trans hnil) (List.cons_ne_nil _ _)

/-! ## Runs -/

variable {bufs : ℕ → ℕ → Bool}

theorem inv_start : Inv cfg [] (State.start cfg bufs) := by
  refine .going Known.start rfl (Known.checks_emxxYuvToJpeg cfg) ?_ ?_ (by simp [CallsFine])
  · constructor <;> simp [Known.start, State.start]
  · constructor <;> simp [State.start, WritesFine]

theorem inv_step (h : Inv cfg m s) (hstep : Step cfg s e t) : Inv cfg (m ++ [e]) t := by
  cases hstep with
  | caller ok htodo hexec => exact h.caller htodo hexec
  | thread hthread => exact h.outside hthread.outside hthread.dataInv
  | callback hcallback => exact h.outside hcallback.outside hcallback.dataInv

theorem inv_run {l : List Event} (h : (system cfg bufs).Run (State.start cfg bufs) l s) :
    Inv cfg l s :=
  TransitionSystem.Run.history (I := Inv cfg) (fun _ _ _ _ hinv hst => inv_step hinv hst) h []
    inv_start

/-! ## The promise -/

theorem DataInv.written_iff (hd : DataInv cfg m s) (hfin : s.data = .finished) :
    (s.filled = true ∧ s.file = cfg.file ++ [s.outBuf]) ↔ WritesFine m := by
  obtain ⟨n, hn, hfile, hfull⟩ := hd.behind (Or.inr hfin)
  have hfilled := hd.awake (by simp [hfin]) (by simp [hfin])
  rw [hfull, hfile, List.append_cancel_left_eq, List.cons.injEq]
  constructor
  · rintro ⟨-, htake, -⟩
    have hlen := congrArg List.length htake
    rw [List.length_take] at hlen
    omega
  · rintro rfl
    exact ⟨hfilled, List.take_length, rfl⟩

/-- **What a call that returned has done**: everything that it should, exactly when the frame has no
size, or no call that it looks at failed and no byte was lost. -/
theorem yuvToJpeg_right_iff (cfg : Config) (bufs : ℕ → ℕ → Bool) {l : List Event} {s : State}
    {r : ℤ} (h : (system cfg bufs).Run (State.start cfg bufs) l s) (hr : s.result = some r) :
    Right cfg s r ↔ cfg.frameSize ≤ 0 ∨ ∀ e ∈ l, e.fine = true := by
  rw [fine_iff]
  cases inv_run h with
  | going _ hres _ _ _ _ => exact absurd (hr.symm.trans hres) (Option.some_ne_none r)
  | broken hres _ _ _ _ => exact absurd (hr.symm.trans hres) (Option.some_ne_none r)
  | noFrame hframe hres _ hmutex hhandles =>
    obtain rfl := Option.some.inj (hr.symm.trans hres)
    exact ⟨fun _ => Or.inl hframe, fun _ => ⟨hmutex, hhandles, fun h => absurd h (by decide)⟩⟩
  | finished hframe hres _ hmutex hhandles hfin hdata hfine =>
    obtain rfl := Option.some.inj (hr.symm.trans hres)
    constructor
    · exact fun h => Or.inr ⟨hfine, (hdata.written_iff hfin).mp (h.written rfl)⟩
    · rintro (h | ⟨-, hwrites⟩)
      · exact absurd h (by omega)
      · exact ⟨hmutex, hhandles, fun _ => (hdata.written_iff hfin).mpr hwrites⟩
  | failed r' hframe hres _ hfine hwrong =>
    obtain rfl := Option.some.inj (hr.symm.trans hres)
    refine iff_of_false (fun h => ?_) ?_
    · obtain hmutex | hhandles | ⟨hzero, -, hfile⟩ := hwrong
      · exact h.mutex hmutex
      · exact hhandles h.handles
      · have hlast := hfile.symm.trans (h.written hzero).2
        simp at hlast
    · rintro (h | ⟨hcalls, -⟩)
      · omega
      · exact hfine hcalls

/-- A frame of 16 by 16 pixels, with one buffer for each port. -/
def wholeFrame : Config := ⟨16, 16, 0x22, [1, 1], [], []⟩

/-- Every call succeeds, and the two bytes of the picture are written. -/
theorem right_wholeFrame :
    ∃ l s, (system wholeFrame fun _ _ => false).Run (State.start wholeFrame fun _ _ => false) l s ∧
      s.result = some 0 ∧ s.file = [[0xff, 0xd8]] ∧ Right wholeFrame s 0 := by
  have hrun : (system wholeFrame fun _ _ => false).Run
      (State.start wholeFrame fun _ _ => false) _ _ :=
    .cons (.caller true rfl rfl) <| .cons (.caller true rfl rfl) <| .cons (.caller true rfl rfl) <|
    .cons (.caller true rfl rfl) <| .cons (.caller true rfl rfl) <| .cons (.caller true rfl rfl) <|
    .cons (.caller true rfl rfl) <| .cons (.caller true rfl rfl) <| .cons (.caller true rfl rfl) <|
    .cons (.caller true rfl rfl) <| .cons (.caller true rfl rfl) <| .cons (.caller true rfl rfl) <|
    .cons (.caller true rfl rfl) <| .cons (.caller true rfl rfl) <| .cons (.caller true rfl rfl) <|
    .cons (.caller true rfl rfl) <| .cons (.caller true rfl rfl) <| .cons (.caller true rfl rfl) <|
    .cons (.caller true rfl rfl) <| .cons (.caller true rfl rfl) <| .cons (.caller true rfl rfl) <|
    .cons (.caller true rfl rfl) <| .cons (.caller true rfl rfl) <| .cons (.caller true rfl rfl) <|
    .cons (.caller true rfl rfl) <| .cons (.caller true rfl rfl) <| .cons (.caller true rfl rfl) <|
    .cons (.caller true rfl rfl) <| .cons (.caller true rfl rfl) <| .cons (.caller true rfl rfl) <|
    .cons (.thread (.inputAwake rfl (by decide))) <| .cons (.thread (.emptyThisBuffer true rfl)) <|
    .cons (.thread (.outputAwake rfl (by decide))) <| .cons (.thread (.fillThisBuffer true rfl)) <|
    .cons (.callback (.handlerBegin rfl)) <| .cons (.callback (.handlerEnd rfl)) <|
    .cons (.callback (.fillBufferDone [0xff, 0xd8] rfl)) <|
    .cons (.callback (.emptyBufferDone rfl)) <| .cons (.thread (.dataAwake rfl (by decide))) <|
    .cons (.thread (.fwrite 2 rfl (by decide))) <| .cons (.thread (.dataFinished rfl)) <|
    .cons (.caller true rfl rfl) <| .cons (.caller true rfl rfl) <| .cons (.caller true rfl rfl) <|
    .cons (.caller true rfl rfl) <| .cons (.caller true rfl rfl) <| .cons (.caller true rfl rfl) <|
    .cons (.caller true rfl rfl) <| .cons (.caller true rfl rfl) <| .cons (.caller true rfl rfl) <|
    .cons (.caller true rfl rfl) <| .cons (.caller true rfl rfl) <| .cons (.caller true rfl rfl) <|
    .cons (.caller true rfl rfl) <| .cons (.caller true rfl rfl) <| .cons (.caller true rfl rfl) <|
    .cons (.caller true rfl rfl) <| .nil _
  exact ⟨_, _, hrun, rfl, rfl, (yuvToJpeg_right_iff _ _ hrun rfl).mpr (.inr (by decide))⟩

/-- A frame of 16 by 16 pixels. -/
def smallFrame : Config := ⟨16, 16, 0x22, [], [], []⟩

/-- **`OMX_SendCommand` fails**: the call returns 0, and the caller still holds the mutex. -/
theorem not_right_sendCommand :
    ∃ l s, (system smallFrame fun _ _ => false).Run (State.start smallFrame fun _ _ => false) l s ∧
      s.result = some 0 ∧ s.mutex = some .caller ∧ s.file = smallFrame.file ∧
      ¬ Right smallFrame s 0 := by
  have hrun : (system smallFrame fun _ _ => false).Run
      (State.start smallFrame fun _ _ => false) _ _ :=
    .cons (.caller true rfl rfl) <| .cons (.caller true rfl rfl) <|
    .cons (.caller true rfl rfl) <| .cons (.caller true rfl rfl) <|
    .cons (.caller true rfl rfl) <| .cons (.caller true rfl rfl) <|
    .cons (.caller true rfl rfl) <| .cons (.caller true rfl rfl) <|
    .cons (.caller true rfl rfl) <| .cons (.caller true rfl rfl) <|
    .cons (.caller true rfl rfl) <| .cons (.caller true rfl rfl) <|
    .cons (.caller false rfl rfl) <| .cons (.caller true rfl rfl) <|
    .cons (.caller true rfl rfl) <| .cons (.caller true rfl rfl) (.nil _)
  exact ⟨_, _, hrun, rfl, rfl, rfl, fun h => h.mutex rfl⟩

end Jpeg
end EmevBsp
