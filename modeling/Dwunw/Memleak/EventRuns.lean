import Dwunw.Memleak.Events
import Dwunw.Resources

/-!
What the leak tracers print of the events they take out of the ring buffer.

* `ThreadView`: what the kernel lets a capture see of a thread.
* `freshCapture`, `capture_fresh`: what a capture comes to, whatever was captured before.
* `eventReport`, `captureEvent_report`: what is printed of an event.
* `DwunwReach`, `runtime_restores`, `runtime_reports`: the runs of the runtime of
  `memleak_dwunw_user`.
* `MemleakReach`, `memleakUser_reports`: the runs of `memleak_user`.
-/

namespace Dwunw.Memleak

open Monitor Runs Unfold

/-! ### One capture -/

/-- What the kernel lets a capture see of a thread: how an attach comes out, and what a read
returns. -/
structure ThreadView where
  attach : Status
  read : UInt64 → Except Status UInt64

/-- The frames behind the first one that can be read, and the status if the reading stops; none
without a thread that can be attached to. -/
def callerFrames (m : ByteMem) (index : DwarfIndex) (path : CString) (regs : Regset) (n : ℕ) :
    Option ThreadView → List Frame × Option (Option Status)
  | none => ([], none)
  | some view =>
      if view.attach = .ok then
        unfold (unwindStep m index (archFromRegset regs) path view.read) n regs
      else ([], none)

/-- The status of a capture whose frames came out as `st`. -/
def afterView (view : Option ThreadView) (st : Status) : Status :=
  if st = .ok then view.elim .ok ThreadView.attach else st

/-- What a capture comes to into an empty buffer, with a thread to read or without: the status and
the frames, or `none` when a step is undefined. -/
def freshCapture (m : ByteMem) (ld : Loader) (path : CString) (regs : Regset) (maxFrames : ℕ)
    (view : Option ThreadView) : Option (Status × List Frame) :=
  match ld.load path with
  | .error st => some (st, [])
  | .ok (_, index) =>
      match prepareRootFrame regs .zero with
      | .error st => some (afterView view st, [])
      | .ok root =>
          let out := callerFrames m index path regs (maxFrames - 1) view
          (out.2.getD (some .ok)).map fun st => (afterView view st, root.withPath path :: out.1)

/-- What is seen of a capture into an empty buffer: the status and the frames written. -/
def seenCapture (res : CaptureResult) : Status × List Frame := (res.status, writtenFrames res)

variable {m : ByteMem} {ld : Loader} {k : Kernel} {ctx : Context} {req : UnwindRequest}
  {calls : List SysCall} {path : CString} {regs : Regset} {frames : ℕ → Frame} {root : Frame}

/-- The frames that follow an unfolding, as a list. -/
lemma framesFollow_listed {maxFrames : ℕ} {out : List Frame × Option (Option Status)}
    {x : Option (Status × ℕ × (ℕ → Frame))} (h : FramesFollow root frames maxFrames out x) :
    x.map (fun y => (y.1, (List.range y.2.1).map y.2.2)) =
      (out.2.getD (some .ok)).map fun st => (st, root :: out.1) := by
  cases h with
  | undefined h => rw [h]; rfl
  | @ends st frames' hst hroot hframes _ =>
      rw [hst, Option.map_some, Option.map_some]
      congr 2
      dsimp only
      rw [List.range_succ_eq_map, List.map_cons, List.map_map, hroot]
      congr 1
      refine List.ext_getElem (by simp) fun i hi hi' => ?_
      simpa using hframes i hi'

/-- The thread that a request has to read. -/
def threadOf (req : UnwindRequest) (view : ThreadView) : Option ThreadView :=
  if 0 < req.pid then some view else none

/-- The kernel shows a capture this thread, if it has one to read. -/
def Shows (k : Kernel) (req : UnwindRequest) (calls : List SysCall) (view : ThreadView) : Prop :=
  0 < req.pid → FixedReader k req.pid req.tid calls view.attach view.read

/-- Without a thread an attach would be refused. -/
lemma fixedReader_of_nonpos {pid : ℤ} (h : ¬ 0 < pid) (k : Kernel) (tid : ℤ)
    (calls : List SysCall) (f : UInt64 → Except Status UInt64) :
    FixedReader k pid tid calls .invalidArg f where
  attach := by rw [stackReaderAttach, if_pos (not_lt.mp h)]
  reads hok := by cases hok

/-- The status and the frames of a capture, by the thread that it has to read. -/
structure ReadsThread (m : ByteMem) (k : Kernel) (ctx : Context) (req : UnwindRequest)
    (calls : List SysCall) (path : CString) (regs : Regset) (thread : Option ThreadView)
    (st : Status) (f : UInt64 → Except Status UInt64) : Prop where
  fixed : FixedReader k req.pid req.tid calls st f
  status : ∀ st', (if st' = .ok ∧ (attachStep k ctx req calls).1 ≠ .ok then
    (attachStep k ctx req calls).1 else st') = afterView thread st'
  callers : ∀ index, unfold (unwindStep m index (archFromRegset regs) path f)
    (stepBudget ctx req st) regs = callerFrames m index path regs (req.maxFrames - 1) thread

variable (m path regs) in
/-- A request with room for callers whose thread the kernel shows. -/
lemma Shows.reads {view : ThreadView} (h : Shows k req calls view)
    (hready : ctx.stackReaderReady = true) (hmany : 1 < req.maxFrames) :
    ∃ st f, ReadsThread m k ctx req calls path regs (threadOf req view) st f := by
  by_cases hpid : 0 < req.pid
  · have hwants : WantsReader ctx req := ⟨hready, hpid, hmany⟩
    refine ⟨view.attach, view.read, h hpid, fun st' => ?_, fun index => ?_⟩
    · rw [((h hpid).attachStep_eq hwants).2, threadOf, if_pos hpid, afterView]
      by_cases hst : st' = .ok <;> by_cases hatt : view.attach = .ok <;> simp [hst, hatt]
    · rw [threadOf, if_pos hpid, callerFrames, stepBudget]
      by_cases hatt : view.attach = .ok
      · rw [if_pos ⟨hwants, hatt⟩, if_pos hatt]
      · rw [if_neg fun huses => hatt huses.2, if_neg hatt, unfold_zero]
  · have hwants : ¬ WantsReader ctx req := fun hwants => hpid hwants.2.1
    refine ⟨.invalidArg, fun _ => .error .io, fixedReader_of_nonpos hpid k _ calls _,
      fun st' => ?_, fun index => ?_⟩
    · rw [attachStep, if_neg hwants, threadOf, if_neg hpid, afterView]
      by_cases hst : st' = .ok <;> simp [hst]
    · rw [threadOf, if_neg hpid, stepBudget, if_neg fun huses => hwants huses.1, unfold_zero]
      rfl

/-- A capture whose module is loaded. -/
lemma ReadsThread.loaded {thread : Option ThreadView} {st st₀ : Status}
    {f : UInt64 → Except Status UInt64} (h : ReadsThread m k ctx req calls path regs thread st f)
    (hreq : Accepted ctx req path regs frames) {cache : ModuleCache} {slot : Slot}
    (hacquire : moduleCacheAcquire ld ctx.moduleCache path = (st₀, cache, some slot)) :
    (capture m ld k ctx req calls).map seenCapture =
      match prepareRootFrame regs (frames 0) with
      | .error st => some (afterView thread st, [])
      | .ok root =>
          let out := callerFrames m (cache.entries slot).handle.index path regs
            (req.maxFrames - 1) thread
          (out.2.getD (some .ok)).map fun st =>
            (afterView thread st, root.withPath path :: out.1) := by
  have hseen : ∀ x : Status × ℕ × (ℕ → Frame) × ReaderCtx,
      seenCapture (loadedResult k ctx req calls cache slot x) =
        (afterView thread x.1, (List.range x.2.1).map x.2.2.1) := fun x => by
    rw [seenCapture, ← h.status x.1]
    rfl
  rw [capture_loaded hreq hacquire, Option.map_map, Function.comp_def]
  simp only [hseen]
  cases hroot : prepareRootFrame regs (frames 0) with
  | error st' =>
      obtain ⟨rctx, hx⟩ := loadedFrames_error m k ctx req calls path
        (cache.entries slot).handle.index hroot
      rw [hx]
      rfl
  | ok root =>
      have hlisted := framesFollow_listed (loadedFrames_follow m ctx req path h.fixed
        (cache.entries slot).handle.index hreq.maxFrames hroot)
      rw [h.callers] at hlisted
      have hmapped := congrArg (Option.map fun y => (afterView thread y.1, y.2)) hlisted
      rw [Option.map_map, Option.map_map, Option.map_map] at hmapped
      exact hmapped

/-- Whatever was captured on a context before, as long as its cache has room a capture comes out
by the file and the thread alone. -/
theorem capture_fresh {view : ThreadView} (hs : ContextRun.Sound ld ⟨ctx, calls⟩)
    (hroom : ∃ i, (ctx.moduleCache.entries i).state ≠ .active) (hmany : 1 < req.maxFrames)
    (h : Accepted ctx req path regs fun _ => .zero) (hview : Shows k req calls view) :
    (capture m ld k ctx req calls).map seenCapture =
      freshCapture m ld path regs req.maxFrames (threadOf req view) := by
  obtain ⟨st, f, hreads⟩ := hview.reads m path regs hs.readerReady hmany
  have hout := (acquired_or_full hs.loaded hs.paths path).resolve_right fun hfull => by
    obtain ⟨i, hi⟩ := hroom
    exact hi (hfull.1 i)
  rcases hacquire : moduleCacheAcquire ld ctx.moduleCache path with ⟨st₀, cache, slot⟩
  rw [hacquire] at hout
  rw [freshCapture]
  generalize ld.load path = x at hout
  cases hout with
  | error =>
      rw [capture_unloaded h hacquire]
      rfl
  | ok hindex =>
      rw [hreads.loaded h hacquire, hindex]

/-! ### What captures keep -/

/-- Nobody holds a module. -/
def Unheld (c : ModuleCache) : Prop :=
  ∀ i, (c.entries i).state ≠ .active ∧ (c.entries i).refcnt = 0

lemma Unheld.init : Unheld moduleCacheInit := fun _ => ⟨SlotState.noConfusion, rfl⟩

lemma Unheld.room {c : ModuleCache} (h : Unheld c) : ∃ i, (c.entries i).state ≠ .active :=
  ⟨0, (h 0).1⟩

lemma Unheld.restored {c c' : ModuleCache} (h : Unheld c)
    (hrestored : ∀ i, (c.entries i).Restored (c'.entries i)) : Unheld c' := fun i => by
  obtain ⟨hzero, hidle⟩ := (hrestored i).idle (h i).1 (h i).2
  exact ⟨hidle, hzero⟩

lemma Unheld.capture (h : Unheld ctx.moduleCache) {res : CaptureResult}
    (hres : Dwunw.capture m ld k ctx req calls = some res) : Unheld res.ctx.moduleCache := by
  cases capture_outcome hres with
  | refused _ => exact h
  | @unloaded path _ _ _ _ _ hacquire =>
      have hr := moduleCacheAcquire_outcome ld ctx.moduleCache path
      rw [hacquire] at hr
      exact h.restored (acquire_failed_restored hr)
  | @loaded path _ _ _ _ _ _ _ hacquire _ =>
      have hr := moduleCacheAcquire_outcome ld ctx.moduleCache path
      rw [hacquire] at hr
      refine h.restored (acquire_release_restored (fun i => ?_) hr)
      rw [(h i).2]
      decide

lemma capture_sound (hs : ContextRun.Sound ld ⟨ctx, calls⟩) (hshort : req.ShortPath)
    {res : CaptureResult} (hres : capture m ld k ctx req calls = some res) :
    ContextRun.Sound ld ⟨res.ctx, res.calls⟩ := by
  have hnext : ContextRun.Sound ld (ContextRun.next m ld ⟨ctx, calls⟩ (.capture k req)) :=
    hs.next ⟨hshort, Option.isSome_iff_exists.mpr ⟨res, hres⟩⟩
  have heq : ContextRun.next m ld ⟨ctx, calls⟩ (.capture k req) = ⟨res.ctx, res.calls⟩ := by
    simp only [ContextRun.next, hres]
  rwa [heq] at hnext

/-- What every capture into this module keeps, the captures of an event keep. -/
lemma captureEvent_keeps {I : Context → List SysCall → Prop} {mode : DwunwMode} {a : Attempt}
    (hstep : ∀ ctx calls req' res, req'.modulePath = req.modulePath → I ctx calls →
      capture m ld k ctx req' calls = some res → I res.ctx res.calls)
    (hstart : I ctx calls) (h : captureEvent m ld k mode ctx req calls = some a) :
    I a.ctx a.calls := by
  obtain ⟨res, hres, h⟩ := Option.bind_eq_some_iff.mp h
  have hfirst := hstep _ _ _ _ rfl hstart hres
  split_ifs at h
  · cases mode with
    | off =>
        cases h
        exact hfirst
    | force =>
        cases h
        exact hfirst
    | fallback =>
        obtain ⟨res', hres', rfl⟩ := Option.map_eq_some_iff.mp h
        exact hstep _ _ { req with frames := some fun _ => .zero, pid := 0, tid := 0 } _ rfl hfirst
          hres'
  · cases h
    exact hfirst

/-! ### The captures of an event -/

/-- What is printed of a capture that came out like this: the frames; when the thread could not be
read to the end, under `force` a note, under `fallback` a note and the frame of the snapshot
alone. -/
def reportLines (mode : DwunwMode) (thread : Option ThreadView) (pid : UInt32) (comm : CString)
    (frameLines : List Frame → List EventLine) (x : Status × List Frame) : List EventLine :=
  if x.1 = .ok then frameLines x.2
  else
    match thread with
    | none => [.captureFailed pid comm x.1]
    | some _ =>
        match mode with
        | .off => [.captureFailed pid comm x.1]
        | .force => [.readerRequired pid comm x.1]
        | .fallback =>
            .readerFailed pid comm x.1 ::
              match x.2 with
              | [] => [.captureFailed pid comm x.1]
              | root :: _ => frameLines [root]

/-- What is printed of an event, by the file and the thread alone. -/
def eventReport (m : ByteMem) (ld : Loader) (path : CString) (regs : Regset) (mode : DwunwMode)
    (thread : Option ThreadView) (pid : UInt32) (comm : CString)
    (frameLines : List Frame → List EventLine) : Option (List EventLine) :=
  (freshCapture m ld path regs 8 thread).map (reportLines mode thread pid comm frameLines)

lemma prepareRootFrame_error {frame : Frame} {st : Status}
    (h : prepareRootFrame regs frame = .error st) : st = .unsupportedArch := by
  rw [prepareRootFrame, archFromRegset, archResolve] at h
  split_ifs at h <;> cases h
  rfl

/-- Without a thread a capture comes out as with one as far as the frame of the snapshot. -/
lemma freshCapture_none {n : ℕ} {view : ThreadView} {st : Status} {fs : List Frame}
    (h : freshCapture m ld path regs n (some view) = some (st, fs)) :
    freshCapture m ld path regs n none =
      some (if fs = [] then (st, []) else (.ok, fs.take 1)) := by
  rw [freshCapture] at h ⊢
  generalize ld.load path = x at h ⊢
  rcases x with st' | ⟨elf, index⟩
  · cases h
    rfl
  · dsimp only at h ⊢
    cases hroot : prepareRootFrame regs .zero with
    | error st' =>
        rw [hroot] at h
        cases prepareRootFrame_error hroot
        cases h
        rfl
    | ok root =>
        rw [hroot] at h
        obtain ⟨st', -, heq⟩ := Option.map_eq_some_iff.mp h
        cases heq
        rfl

lemma eventRequest_accepted (hready : ctx.moduleCacheReady = true) (path : CString)
    (regs : Regset) (pid tid : ℤ) :
    Accepted ctx (eventRequest path regs pid tid) path regs fun _ => .zero :=
  ⟨rfl, rfl, rfl, Nat.succ_ne_zero 7, hready⟩

lemma eventRequest_shortPath (hshort : path.length < maxPathLen) (regs : Regset) (pid tid : ℤ) :
    (eventRequest path regs pid tid).ShortPath := by
  rintro path' ⟨⟩
  exact hshort

section Lines

variable {failed : Option Status} {res : CaptureResult} {p : UInt32} {comm : CString}
  {frameLines : List Frame → List EventLine}

lemma Attempt.lines_ok (h : res.status = .ok) :
    Attempt.lines ⟨failed, some res, ctx, calls⟩ p comm frameLines =
      (failed.map fun st => .readerFailed p comm st).toList ++
        frameLines (writtenFrames res) := by
  cases failed <;> simp [Attempt.lines, h]

lemma Attempt.lines_error (h : res.status ≠ .ok) :
    Attempt.lines ⟨failed, some res, ctx, calls⟩ p comm frameLines =
      (failed.map fun st => .readerFailed p comm st).toList ++
        [.captureFailed p comm res.status] := by
  cases failed <;> simp [Attempt.lines, h]

end Lines

/-- Whatever was captured before, an event prints its report. -/
theorem captureEvent_report {mode : DwunwMode} {pid tid : ℤ} {view : ThreadView}
    (hs : ContextRun.Sound ld ⟨ctx, calls⟩) (hunheld : Unheld ctx.moduleCache)
    (hshort : path.length < maxPathLen)
    (hview : Shows k (eventRequest path regs pid tid) calls view) (p : UInt32) (comm : CString)
    (frameLines : List Frame → List EventLine) :
    (captureEvent m ld k mode ctx (eventRequest path regs pid tid) calls).map
        (fun a => a.lines p comm frameLines) =
      eventReport m ld path regs mode (threadOf (eventRequest path regs pid tid) view) p comm
        frameLines := by
  have hmany : 1 < (eventRequest path regs pid tid).maxFrames := show 1 < 8 by decide
  have hfirst := capture_fresh (m := m) hs hunheld.room hmany
    (eventRequest_accepted hs.cacheReady path regs pid tid) hview
  have height : (eventRequest path regs pid tid).maxFrames = 8 := rfl
  rw [height] at hfirst
  rw [captureEvent, eventReport, ← hfirst]
  cases hres : capture m ld k ctx (eventRequest path regs pid tid) calls with
  | none => rfl
  | some res =>
      rw [hres] at hfirst
      rw [Option.bind_some, Option.map_some, Option.map_some, seenCapture]
      unfold reportLines
      dsimp only
      by_cases hst : res.status = .ok
      · rw [if_neg fun h => h.1 hst, if_pos hst, Option.map_some, Attempt.lines_ok hst]
        rfl
      rw [if_neg hst]
      by_cases hpid : 0 < pid
      swap
      · have hthread : threadOf (eventRequest path regs pid tid) view = none := if_neg hpid
        rw [if_neg fun h => hpid h.2, hthread, Option.map_some, Attempt.lines_error hst]
        rfl
      have hthread : threadOf (eventRequest path regs pid tid) view = some view := if_pos hpid
      rw [hthread] at hfirst ⊢
      rw [if_pos ⟨hst, hpid⟩]
      cases mode with
      | off =>
          rw [Option.map_some, Attempt.lines_error hst]
          rfl
      | force => rfl
      | fallback =>
          -- the second capture has no thread
          have hs' := capture_sound hs (eventRequest_shortPath hshort regs pid tid) hres
          have hsecond : (capture m ld k res.ctx (eventRequest path regs 0 0) res.calls).map
              seenCapture = freshCapture m ld path regs 8 none :=
            capture_fresh hs' (hunheld.capture hres).room (show 1 < 8 by decide)
              (eventRequest_accepted hs'.cacheReady path regs 0 0)
              (show Shows k _ _ view from fun h => absurd h (lt_irrefl 0))
          rw [freshCapture_none hfirst.symm] at hsecond
          obtain ⟨res', hres', hseen⟩ := Option.map_eq_some_iff.mp hsecond
          have hres'' : capture m ld k res.ctx { eventRequest path regs pid tid with
              frames := some fun _ => .zero, pid := 0, tid := 0 } res.calls = some res' := hres'
          rw [hres'', Option.map_some, Option.map_some]
          cases hwritten : writtenFrames res with
          | nil =>
              rw [hwritten, if_pos rfl] at hseen
              have hst' : res'.status = res.status := congrArg Prod.fst hseen
              rw [Attempt.lines_error (hst'.trans_ne hst), hst']
              rfl
          | cons root rest =>
              rw [hwritten, if_neg (List.cons_ne_nil _ _)] at hseen
              have hst' : res'.status = .ok := congrArg Prod.fst hseen
              have hframes : writtenFrames res' = [root] := congrArg Prod.snd hseen
              rw [Attempt.lines_ok hst', hframes]
              rfl

/-! ### The runtime -/

/-- What is done with the runtime. -/
inductive DwunwOp where
  | setup (mapFd : ℤ) (ring : Bool)
  | poll (err : ℤ) (ds : List Delivery)
  | teardown

def DwunwState.step (k : Kernel) (s : DwunwState) : DwunwOp → Option DwunwState
  | .setup mapFd ring => some { s with rt := (setupDwunwRuntime mapFd ring s.rt).2 }
  | .poll err ds => dwunwMaybePoll k err ds s
  | .teardown => some { s with rt := teardownDwunwRuntime s.rt }

/-- A step, if it is defined. -/
def DwunwState.next (k : Kernel) (s : DwunwState) (op : DwunwOp) : DwunwState :=
  (s.step k op).getD s

/-- The runtime before it is set up. -/
def DwunwState.start (mode : DwunwMode) (calls : List SysCall) : DwunwState :=
  ⟨⟨mode, ⟨moduleCacheInit, false, false⟩, false, false⟩, false, calls, []⟩

/-- The events that a step takes out of the ring buffer. -/
def DwunwOp.deliveries : DwunwOp → List Delivery
  | .poll _ ds => ds
  | _ => []

/-- The states that the runtime comes to when every event it takes out is of this kind. -/
abbrev DwunwReach (k : Kernel) (ok : Delivery → Prop) (mode : DwunwMode) (calls : List SysCall) :
    DwunwState → Prop :=
  Reach (DwunwState.next k)
    (fun s op => (s.step k op).isSome ∧ ∀ d ∈ op.deliveries, ok d) (.start mode calls)

/-- The ways an event is handled: it is skipped, or its captures come out. -/
inductive HandlesEvent (m : ByteMem) (ld : Loader) (k : Kernel) (rt : DwunwRuntime) (dataSz : ℕ)
    (evt : DwunwEvent) (calls : List SysCall) : Option (Handled DwunwRuntime) → Prop
  | skips (h : dataSz < sizeofDwunwEvent ∨ rt.ctxReady = false ∨ evt.regs = none) :
      HandlesEvent m ld k rt dataSz evt calls (some ⟨rt, calls, []⟩)
  | captures {regs : Regset} (hsize : ¬ dataSz < sizeofDwunwEvent) (hready : rt.ctxReady = true)
      (hregs : evt.regs = some regs) :
      HandlesEvent m ld k rt dataSz evt calls
        ((captureEvent m ld k rt.mode rt.ctx (dwunwRequest rt.mode evt regs) calls).map fun a =>
          ⟨{ rt with ctx := a.ctx }, a.calls,
            a.lines evt.tgid evt.comm (dwunwPrintFrames evt.tgid evt.comm)⟩)

/-- Every event is handled in one of these ways. -/
theorem handleDwunwEvent_handles (m : ByteMem) (ld : Loader) (k : Kernel) (rt : DwunwRuntime)
    (dataSz : ℕ) (evt : DwunwEvent) (calls : List SysCall) :
    HandlesEvent m ld k rt dataSz evt calls (handleDwunwEvent m ld k rt dataSz evt calls) := by
  rw [handleDwunwEvent]
  by_cases hskip : dataSz < sizeofDwunwEvent ∨ rt.ctxReady = false
  · rw [if_pos hskip]
    exact .skips (hskip.imp_right .inl)
  rw [if_neg hskip]
  rw [not_or, Bool.not_eq_false] at hskip
  cases hregs : evt.regs with
  | none => exact .skips (.inr (.inr hregs))
  | some regs => exact .captures hskip.1 hskip.2 hregs

lemma dwunwRequest_modulePath (mode : DwunwMode) (evt : DwunwEvent) (regs : Regset) :
    (dwunwRequest mode evt regs).modulePath = some (procExe evt.tgid) := by
  rw [dwunwRequest]
  split_ifs <;> rfl

/-- The rule for what every capture into the module of an event keeps. -/
lemma DwunwState.deliver_keeps {I : Context → List SysCall → Prop} {s t : DwunwState}
    {d : Delivery}
    (hstep : ∀ ctx calls req res, I ctx calls →
      req.modulePath = some (procExe d.event.tgid) →
      capture d.mem d.loader k ctx req calls = some res → I res.ctx res.calls)
    (hstart : I s.rt.ctx s.calls) (h : s.deliver k d = some t) :
    I t.rt.ctx t.calls ∧ ∃ ctx, t.rt = { s.rt with ctx } := by
  obtain ⟨handled, hhandled, rfl⟩ := Option.map_eq_some_iff.mp h
  have hh := handleDwunwEvent_handles d.mem d.loader k s.rt d.dataSz d.event s.calls
  rw [hhandled] at hh
  generalize hx : some handled = x at hh
  cases hh with
  | skips _ =>
      cases hx
      exact ⟨hstart, s.rt.ctx, rfl⟩
  | captures _ _ _ =>
      obtain ⟨a, ha, rfl⟩ := Option.map_eq_some_iff.mp hx.symm
      refine ⟨captureEvent_keeps (fun ctx calls req res hpath hI => ?_) hstart ha, a.ctx, rfl⟩
      exact hstep ctx calls req res hI (hpath.trans (dwunwRequest_modulePath _ _ _))

/-- The ways a setup goes: nothing is wanted, or there is a context afterwards. -/
lemma setupDwunwRuntime_cases (mapFd : ℤ) (ring : Bool) (rt : DwunwRuntime) :
    rt.mode = .off ∧ (setupDwunwRuntime mapFd ring rt).2 = rt ∨
      rt.mode ≠ .off ∧ ∃ rb, (setupDwunwRuntime mapFd ring rt).2 =
        ⟨rt.mode, if rt.ctxReady then rt.ctx else dwunwInit, true, rb⟩ := by
  rw [setupDwunwRuntime]
  by_cases hoff : rt.mode = .off
  · rw [if_pos hoff]
    exact .inl ⟨hoff, rfl⟩
  rw [if_neg hoff]
  refine .inr ⟨hoff, ?_⟩
  have hready : (if rt.ctxReady then rt else { rt with ctx := dwunwInit, ctxReady := true }) =
      ⟨rt.mode, if rt.ctxReady then rt.ctx else dwunwInit, true, rt.rb⟩ := by
    obtain ⟨mode, ctx, ready, rb⟩ := rt
    cases ready <;> rfl
  dsimp only
  rw [hready]
  generalize (if rt.ctxReady then rt.ctx else dwunwInit) = ctx
  split_ifs <;> exact ⟨_, rfl⟩

lemma teardownDwunwRuntime_eq (rt : DwunwRuntime) : teardownDwunwRuntime rt =
    ⟨rt.mode, if rt.ctxReady then dwunwShutdown rt.ctx else rt.ctx, false, false⟩ := by
  obtain ⟨mode, ctx, ready, rb⟩ := rt
  cases ready <;> rfl

lemma Unheld.shutdown (h : Unheld ctx.moduleCache) : Unheld (dwunwShutdown ctx).moduleCache := by
  have hflush : Unheld (moduleCacheFlush ctx.moduleCache) := fun i => by
    rw [moduleCacheFlush_entries]
    refine ⟨?_, ?_⟩
    · rw [CacheEntry.claimed_state]
      exact SlotState.noConfusion
    · rw [CacheEntry.claimed]
      split_ifs
      · exact (h i).2
      · rfl
  rw [dwunwShutdown]
  obtain ⟨cache, cacheReady, readerReady⟩ := ctx
  cases cacheReady <;> cases readerReady
  · exact h
  · exact h
  · exact hflush
  · exact hflush

/-- What is kept whatever the files and the kernel are: the mode; a ring buffer has a context;
under `off` nothing happens; nobody holds a module; and the calls of the captures have given back
what they took. -/
structure DwunwState.Steady (k : Kernel) (mode : DwunwMode) (past : List SysCall)
    (s : DwunwState) : Prop where
  sameMode : s.rt.mode = mode
  ready : s.rt.rb = true → s.rt.ctxReady = true
  off : mode = .off → s.rt.ctxReady = false ∧ s.calls = past ∧ s.printed = []
  unheld : Unheld s.rt.ctx.moduleCache
  held : Reaches (account k) past [] s.calls []

namespace DwunwState.Steady

variable {mode : DwunwMode} {past : List SysCall} {s t : DwunwState}

lemma start (k : Kernel) (mode : DwunwMode) (past : List SysCall) :
    (DwunwState.start mode past).Steady k mode past :=
  ⟨rfl, fun h => Bool.noConfusion h, fun _ => ⟨rfl, rfl, rfl⟩, .init, .refl past []⟩

lemma setup (h : s.Steady k mode past) (mapFd : ℤ) (ring : Bool) :
    DwunwState.Steady k mode past { s with rt := (setupDwunwRuntime mapFd ring s.rt).2 } := by
  rcases setupDwunwRuntime_cases mapFd ring s.rt with ⟨-, hrt⟩ | ⟨hmode, rb, hrt⟩
  · rw [hrt]
    exact h
  · rw [hrt]
    refine ⟨h.sameMode, fun _ => rfl, fun hoff => absurd (h.sameMode.trans hoff) hmode, ?_, h.held⟩
    dsimp only
    split_ifs
    · exact h.unheld
    · exact .init

lemma teardown (h : s.Steady k mode past) :
    DwunwState.Steady k mode past { s with rt := teardownDwunwRuntime s.rt } := by
  rw [teardownDwunwRuntime_eq]
  refine ⟨h.sameMode, fun hrb => Bool.noConfusion hrb, fun hoff => ⟨rfl, (h.off hoff).2⟩, ?_,
    h.held⟩
  dsimp only
  split_ifs
  · exact h.unheld.shutdown
  · exact h.unheld

lemma deliver (h : s.Steady k mode past) (hready : s.rt.ctxReady = true) {d : Delivery}
    (ht : s.deliver k d = some t) : t.Steady k mode past ∧ t.rt.ctxReady = true := by
  obtain ⟨⟨hunheld, hheld⟩, ctx, hrt⟩ := DwunwState.deliver_keeps
    (I := fun ctx calls => Unheld ctx.moduleCache ∧ Reaches (account k) past [] calls [])
    (fun ctx calls req res hI _ hres =>
      ⟨hI.1.capture hres, hI.2.trans (capture_account hres)⟩) ⟨h.unheld, h.held⟩ ht
  have hready' : t.rt.ctxReady = true := by rw [hrt]; exact hready
  refine ⟨⟨by rw [hrt]; exact h.sameMode, fun _ => hready', fun hoff => ?_, hunheld, hheld⟩,
    hready'⟩
  rw [(h.off hoff).1] at hready
  cases hready

lemma poll (h : s.Steady k mode past) {err : ℤ} {ds : List Delivery}
    (ht : dwunwMaybePoll k err ds s = some t) : t.Steady k mode past := by
  rw [dwunwMaybePoll] at ht
  by_cases hrb : s.rt.rb = false
  · rw [if_pos hrb] at ht
    cases ht
    exact h
  rw [if_neg hrb] at ht
  obtain ⟨u, hu, rfl⟩ := Option.map_eq_some_iff.mp ht
  obtain ⟨hsteady, hready⟩ := foldlM_invariant
    (I := fun s => s.Steady k mode past ∧ s.rt.ctxReady = true)
    (fun s d _ t hs ht => hs.1.deliver hs.2 ht)
    ⟨h, h.ready (Bool.eq_true_of_not_eq_false hrb)⟩ hu
  split_ifs
  · refine ⟨hsteady.sameMode, hsteady.ready, fun hoff => ?_, hsteady.unheld, hsteady.held⟩
    rw [(hsteady.off hoff).1] at hready
    cases hready
  · exact hsteady

/-- Every step keeps it. -/
theorem next (h : s.Steady k mode past) {op : DwunwOp} (hdefined : (s.step k op).isSome) :
    (s.next k op).Steady k mode past := by
  obtain ⟨t, ht⟩ := Option.isSome_iff_exists.mp hdefined
  rw [DwunwState.next, ht, Option.getD_some]
  cases op with
  | setup mapFd ring =>
      cases ht
      exact h.setup mapFd ring
  | poll err ds => exact h.poll ht
  | teardown =>
      cases ht
      exact h.teardown

end DwunwState.Steady

/-- Whatever the events, the files and the kernel are: after every step what the captures
attached to and opened is given back, each once, and nobody holds a module; so a capture never
finds the cache full, and under `off` nothing is called and nothing printed. -/
theorem runtime_restores {ok : Delivery → Prop} {mode : DwunwMode} {past : List SysCall}
    {s : DwunwState} (h : DwunwReach k ok mode past s) :
    (∃ new, s.calls = past ++ new ∧ watch (account k) past new [] = some []) ∧
      Unheld s.rt.ctx.moduleCache ∧
      (∀ ld path, (moduleCacheAcquire ld s.rt.ctx.moduleCache path).2.2 = none →
        ∃ st, ld.load path = .error st ∧
          (moduleCacheAcquire ld s.rt.ctx.moduleCache path).1 = st) ∧
      (mode = .off → s.calls = past ∧ s.printed = []) := by
  have hs : s.Steady k mode past :=
    h.invariant (I := DwunwState.Steady k mode past) (.start k mode past)
      fun _ _ _ hs hok => hs.next hok.1
  refine ⟨hs.held, hs.unheld, fun ld path hnone => ?_, fun hoff => (hs.off hoff).2⟩
  have hr := moduleCacheAcquire_outcome ld s.rt.ctx.moduleCache path
  generalize moduleCacheAcquire ld s.rt.ctx.moduleCache path = r at hr hnone
  cases hr with
  | reuses _ _ => cases hnone
  | shares _ _ => cases hnone
  | loads _ _ _ => cases hnone
  | full _ hall => exact absurd (hall 0) (hs.unheld 0).1
  | fails _ _ hload _ => exact ⟨_, hload, rfl⟩

/-- A thread that calls an allocation function with a pointer to its innermost frame. -/
def framedThread : PtRegs := ⟨0, 0, 0, 0, 0, 0x7000, 0x7100, 0x6ff0, 0x1010⟩

def framedHelpers : Helpers := ⟨0x2a0000002a, [0x61], 0, 0, 0, fun _ => none, true⟩

def framedDelivery : Delivery :=
  ⟨framedMem, framedLoader, sizeofDwunwEvent, eventOf framedHelpers framedThread⟩

/-- The runtime when it is set up, and after a poll that takes an event out. -/
def runtimeUp : DwunwState := (DwunwState.start .fallback []).next framedKernel (.setup 3 true)

def runtimePolled : DwunwState := runtimeUp.next framedKernel (.poll 1 [framedDelivery])

lemma runtimeUp_reach {ok : Delivery → Prop} : DwunwReach framedKernel ok .fallback [] runtimeUp :=
  .step (DwunwOp.setup 3 true) .start ⟨rfl, fun _ hd => by cases hd⟩

/-- The poll captures, and gives back what it took. -/
theorem runtimePolled_restored :
    runtimePolled.calls ≠ [] ∧
      ∃ new, runtimePolled.calls = [] ++ new ∧
        watch (account framedKernel) [] new [] = some [] := by
  have hreach : DwunwReach framedKernel (fun _ => True) .fallback [] runtimePolled :=
    .step (DwunwOp.poll 1 [framedDelivery]) runtimeUp_reach ⟨by decide +kernel, fun _ _ => trivial⟩
  exact ⟨by decide +kernel, (runtime_restores hreach).1⟩

/-! ### What is printed -/

lemma decimal_length (n : UInt32) : (decimal n.toNat).length ≤ 10 := by
  have hlt : n.toNat < 10 ^ 10 := n.toNat_lt.trans (by norm_num)
  rw [decimal, List.length_map]
  exact (Nat.length_toDigits_le_iff (by norm_num) (by norm_num)).mpr hlt

/-- The path of a process fits the buffer. -/
lemma procExe_length (pid : UInt32) : (procExe pid).length < maxPathLen := by
  have hlen := decimal_length pid
  simp only [procExe, List.length_append, List.length_cons, List.length_nil, maxPathLen]
  omega

/-- The captures of a runtime on which files do not change. -/
def DwunwState.Loaded (ld : Loader) (s : DwunwState) : Prop :=
  s.rt.ctxReady = true → ContextRun.Sound ld ⟨s.rt.ctx, s.calls⟩

lemma DwunwState.Loaded.deliver {s t : DwunwState} (h : s.Loaded ld)
    (hready : s.rt.ctxReady = true) {d : Delivery} (hd : d.loader = ld)
    (ht : s.deliver k d = some t) : t.Loaded ld := fun _ => by
  refine (DwunwState.deliver_keeps (I := fun ctx calls => ContextRun.Sound ld ⟨ctx, calls⟩)
    (fun ctx calls req res hs hpath hres => ?_) (h hready) ht).1
  rw [hd] at hres
  refine capture_sound hs (fun path hreq => ?_) hres
  rw [hpath] at hreq
  cases hreq
  exact procExe_length _

/-- Every step keeps it while the files do not change. -/
theorem DwunwState.Loaded.next {s : DwunwState} {mode : DwunwMode} {past : List SysCall}
    (h : s.Loaded ld) (hs : s.Steady k mode past) {op : DwunwOp}
    (hdefined : (s.step k op).isSome) (hop : ∀ d ∈ op.deliveries, d.loader = ld) :
    (s.next k op).Loaded ld := by
  obtain ⟨t, ht⟩ := Option.isSome_iff_exists.mp hdefined
  rw [DwunwState.next, ht, Option.getD_some]
  cases op with
  | setup mapFd ring =>
      cases ht
      rcases setupDwunwRuntime_cases mapFd ring s.rt with ⟨-, hrt⟩ | ⟨-, rb, hrt⟩
      · intro hready
        dsimp only at hready ⊢
        rw [hrt] at hready ⊢
        exact h hready
      · intro _
        dsimp only
        rw [hrt]
        dsimp only
        by_cases hready : s.rt.ctxReady = true
        · rw [if_pos hready]
          exact h hready
        · rw [if_neg hready]
          exact ⟨rfl, rfl, .init, .init⟩
  | teardown =>
      cases ht
      intro hready
      dsimp only at hready
      rw [teardownDwunwRuntime_eq] at hready
      cases hready
  | poll err ds =>
      rw [DwunwState.step, dwunwMaybePoll] at ht
      by_cases hrb : s.rt.rb = false
      · rw [if_pos hrb] at ht
        cases ht
        exact h
      rw [if_neg hrb] at ht
      obtain ⟨u, hu, rfl⟩ := Option.map_eq_some_iff.mp ht
      have hu' : u.Loaded ld ∧ u.Steady k mode past ∧ u.rt.ctxReady = true := foldlM_invariant
        (I := fun s => s.Loaded ld ∧ s.Steady k mode past ∧ s.rt.ctxReady = true)
        (fun s d hd t hI ht => ⟨hI.1.deliver hI.2.2 (hop d hd) ht, hI.2.1.deliver hI.2.2 ht⟩)
        ⟨h, hs, hs.ready (Bool.eq_true_of_not_eq_false hrb)⟩ hu
      intro hready
      split_ifs at hready ⊢
      · exact hu'.1 hready
      · exact hu'.1 hready

/-- What the callback prints of a record from the ring buffer. -/
def Delivery.report (mode : DwunwMode) (view : ℤ → ℤ → ThreadView) (d : Delivery) :
    Option (List EventLine) :=
  if d.dataSz < sizeofDwunwEvent then some []
  else
    match d.event.regs with
    | none => some []
    | some regs =>
        eventReport d.mem d.loader (procExe d.event.tgid) regs mode
          (if 0 < toPid d.event.tgid then
            some (view (toPid d.event.tgid) (toPid d.event.pid)) else none)
          d.event.tgid d.event.comm (dwunwPrintFrames d.event.tgid d.event.comm)

/-- The threads stand still: at any time at which the captures have given back what they took, the
kernel shows a capture the same of a thread. -/
def ShowsThreads (k : Kernel) (past : List SysCall) (view : ℤ → ℤ → ThreadView) : Prop :=
  ∀ pid tid calls, 0 < pid → Reaches (account k) past [] calls [] →
    FixedReader k pid tid calls (view pid tid).attach (view pid tid).read

/-- What a failed poll prints. -/
def pollLines (err : ℤ) : List EventLine :=
  if err < 0 ∧ err ≠ -4 ∧ err ≠ -11 then [.pollFailed err] else []

/-- What an event prints, on a kernel that shows its thread. -/
lemma DwunwState.deliver_report {s : DwunwState} {mode : DwunwMode} {past : List SysCall}
    {view : ℤ → ℤ → ThreadView} (h : s.Loaded ld) (hs : s.Steady k mode past)
    (hready : s.rt.ctxReady = true) {d : Delivery} (hd : d.loader = ld)
    (hk : 0 < toPid d.event.tgid →
      FixedReader k (toPid d.event.tgid) (toPid d.event.pid) s.calls
        (view (toPid d.event.tgid) (toPid d.event.pid)).attach
        (view (toPid d.event.tgid) (toPid d.event.pid)).read) :
    (s.deliver k d).map DwunwState.printed = (d.report mode view).map (s.printed ++ ·) := by
  have hmode : s.rt.mode ≠ .off := fun hoff => by
    rw [(hs.off (hs.sameMode.symm.trans hoff)).1] at hready
    cases hready
  have hprinted : (s.deliver k d).map DwunwState.printed =
      ((handleDwunwEvent d.mem d.loader k s.rt d.dataSz d.event s.calls).map
        Handled.printed).map (s.printed ++ ·) := by
    rw [DwunwState.deliver, Option.map_map, Option.map_map]
    rfl
  rw [hprinted, Delivery.report]
  congr 1
  have hh := handleDwunwEvent_handles d.mem d.loader k s.rt d.dataSz d.event s.calls
  generalize handleDwunwEvent d.mem d.loader k s.rt d.dataSz d.event s.calls = x at hh ⊢
  cases hh with
  | skips hskip =>
      rcases hskip with hsize | hnot | hregs
      · rw [if_pos hsize]
        rfl
      · rw [hready] at hnot
        cases hnot
      · rw [hregs, ite_self]
        rfl
  | @captures regs hsize _ hregs =>
      rw [if_neg hsize, hregs, Option.map_map, dwunwRequest, if_pos hmode]
      subst hd
      exact (captureEvent_report (h hready) hs.unheld (procExe_length _) hk _ _ _).trans
        (by rw [hs.sameMode]; rfl)

/-- As long as files do not change, both are kept. -/
lemma DwunwReach.steady {mode : DwunwMode} {past : List SysCall} {s : DwunwState}
    (h : DwunwReach k (fun d => d.loader = ld) mode past s) :
    s.Loaded ld ∧ s.Steady k mode past :=
  h.invariant (I := fun s => s.Loaded ld ∧ s.Steady k mode past)
    ⟨fun hready => Bool.noConfusion hready, .start k mode past⟩
    fun _ _ _ hI hok => ⟨hI.1.next hI.2 hok.1 hok.2, hI.2.next hok.1⟩

/-- As long as files do not change and threads stand still, every poll prints the reports of its
events one after the other, whatever events came before them. -/
theorem runtime_reports {mode : DwunwMode} {past : List SysCall} {view : ℤ → ℤ → ThreadView}
    {s : DwunwState} (hk : ShowsThreads k past view)
    (h : DwunwReach k (fun d => d.loader = ld) mode past s) (hrb : s.rt.rb = true) (err : ℤ)
    {ds : List Delivery} (hds : ∀ d ∈ ds, d.loader = ld) :
    (dwunwMaybePoll k err ds s).map DwunwState.printed =
      (ds.mapM (Delivery.report mode view)).map fun reports =>
        s.printed ++ reports.flatten ++ pollLines err := by
  have hI := DwunwReach.steady h
  have hlog : (ds.foldlM (DwunwState.deliver k) s).map DwunwState.printed =
      (ds.mapM (Delivery.report mode view)).map (s.printed ++ ·.flatten) := foldlM_log
    (I := fun s => s.Loaded ld ∧ s.Steady k mode past ∧ s.rt.ctxReady = true)
    (fun s d hd hI => DwunwState.deliver_report hI.1 hI.2.1 hI.2.2 (hds d hd) fun hpid =>
      hk _ _ _ hpid hI.2.1.held)
    (fun s d hd t hI ht => ⟨hI.1.deliver hI.2.2 (hds d hd) ht, hI.2.1.deliver hI.2.2 ht⟩)
    ⟨hI.1, hI.2, hI.2.ready hrb⟩
  have hpoll : ∀ s : DwunwState, (if err < 0 ∧ err ≠ -4 ∧ err ≠ -11 then
      { s with
        printed := s.printed ++ [.pollFailed err]
        exiting := s.exiting || decide (s.rt.mode = .force) }
      else s).printed = s.printed ++ pollLines err := fun s => by
    rw [pollLines]
    split_ifs
    · rfl
    · exact (List.append_nil _).symm
  rw [dwunwMaybePoll, if_neg (by rw [hrb]; exact Bool.noConfusion), Option.map_map,
    Function.comp_def]
  simp only [hpoll]
  have hmapped := congrArg (Option.map (· ++ pollLines err)) hlog
  rw [Option.map_map, Option.map_map] at hmapped
  exact hmapped

/-- The threads of `framedKernel`. -/
def framedViews : ℤ → ℤ → ThreadView := fun _ _ => ⟨.ok, fun a => .ok (wordAt framedStack a)⟩

lemma framedKernel_shows : ShowsThreads framedKernel [] framedViews := fun _ _ _ hpid _ =>
  StackKernel.fixedReader ⟨hpid, rfl, rfl, fun _ _ _ => rfl⟩

/-- Two events of one thread are reported one after the other. -/
theorem runtimeUp_reports :
    (dwunwMaybePoll framedKernel 2 [framedDelivery, framedDelivery] runtimeUp).map
        DwunwState.printed =
      ([framedDelivery, framedDelivery].mapM (Delivery.report .fallback framedViews)).map
        fun reports => runtimeUp.printed ++ reports.flatten ++ pollLines 2 :=
  runtime_reports framedKernel_shows runtimeUp_reach rfl 2 (by
    intro d hd
    simp only [List.mem_cons, List.not_mem_nil, or_false, or_self] at hd
    rw [hd])

/-! ### The other tracer -/

/-- `handle_event` for one event that `ring_buffer__poll` takes out. -/
def memleakDeliver (m : ByteMem) (ld : Loader) (k : Kernel)
    (readlink : CString → Option CString) (s : Handled Context) (evt : MemleakEvent) :
    Option (Handled Context) :=
  (handleEvent m ld k readlink s.state evt s.calls).map fun h =>
    ⟨h.state, h.calls, s.printed ++ h.printed⟩

/-- The states that `memleak_user` comes to, from `dwunw_init` on. -/
abbrev MemleakReach (m : ByteMem) (ld : Loader) (k : Kernel)
    (readlink : CString → Option CString) (past : List SysCall) : Handled Context → Prop :=
  Reach (fun s evt => (memleakDeliver m ld k readlink s evt).getD s)
    (fun s evt => (memleakDeliver m ld k readlink s evt).isSome) ⟨dwunwInit, past, []⟩

/-- What is kept by every event: what the files are is in the cache, nobody holds a module, and
the calls have given back what they took. -/
structure MemleakSteady (ld : Loader) (k : Kernel) (past : List SysCall) (s : Handled Context) :
    Prop where
  sound : ContextRun.Sound ld ⟨s.state, s.calls⟩
  unheld : Unheld s.state.moduleCache
  held : Reaches (account k) past [] s.calls []

/-- What `handle_event` prints of an event. -/
def MemleakEvent.report (m : ByteMem) (ld : Loader) (readlink : CString → Option CString)
    (view : ℤ → ℤ → ThreadView) (evt : MemleakEvent) : Option (List EventLine) :=
  match memleakEventToRegset evt with
  | .error st => some [.regsetFailed st]
  | .ok regs =>
      eventReport m ld (resolveProcExe readlink evt.pid) regs .fallback
        (if 0 < toPid evt.pid then some (view (toPid evt.pid) (toPid evt.tid)) else none)
        evt.pid evt.comm (memleakPrintFrames evt)

/-- The path of the module fits the buffer. -/
lemma resolveProcExe_length (readlink : CString → Option CString) (pid : UInt32) :
    (resolveProcExe readlink pid).length < maxPathLen := by
  have hlen := decimal_length pid
  rw [resolveProcExe]
  split
  · rw [List.length_take, maxPathLen]
    omega
  · simp only [List.length_append, List.length_cons, List.length_nil, maxPathLen]
    omega

section MemleakUser

variable {readlink : CString → Option CString} {past : List SysCall} {s t : Handled Context}
  {evt : MemleakEvent}

lemma MemleakSteady.deliver (h : MemleakSteady ld k past s)
    (ht : memleakDeliver m ld k readlink s evt = some t) : MemleakSteady ld k past t := by
  obtain ⟨handled, hhandled, rfl⟩ := Option.map_eq_some_iff.mp ht
  unfold handleEvent at hhandled
  split at hhandled
  · cases hhandled
    exact ⟨h.sound, h.unheld, h.held⟩
  · obtain ⟨a, ha, rfl⟩ := Option.map_eq_some_iff.mp hhandled
    obtain ⟨hsound, hunheld, hheld⟩ := captureEvent_keeps
      (I := fun ctx calls => ContextRun.Sound ld ⟨ctx, calls⟩ ∧ Unheld ctx.moduleCache ∧
        Reaches (account k) past [] calls [])
      (fun ctx calls req res hpath hI hres => by
        refine ⟨capture_sound hI.1 (fun path hreq => ?_) hres, hI.2.1.capture hres,
          hI.2.2.trans (capture_account hres)⟩
        rw [hpath] at hreq
        cases hreq
        exact resolveProcExe_length _ _)
      ⟨h.sound, h.unheld, h.held⟩ ha
    exact ⟨hsound, hunheld, hheld⟩

lemma MemleakReach.steady (h : MemleakReach m ld k readlink past s) :
    MemleakSteady ld k past s := by
  refine h.invariant (I := MemleakSteady ld k past) ⟨⟨rfl, rfl, .init, .init⟩, .init, .refl past []⟩
    fun s evt _ hs hdefined => ?_
  obtain ⟨t, ht⟩ := Option.isSome_iff_exists.mp hdefined
  rw [ht]
  exact hs.deliver ht

/-- What an event prints, on a kernel that shows its thread. -/
lemma MemleakSteady.deliver_report (h : MemleakSteady ld k past s) {view : ℤ → ℤ → ThreadView}
    (hk : 0 < toPid evt.pid → FixedReader k (toPid evt.pid) (toPid evt.tid) s.calls
      (view (toPid evt.pid) (toPid evt.tid)).attach (view (toPid evt.pid) (toPid evt.tid)).read) :
    (memleakDeliver m ld k readlink s evt).map Handled.printed =
      (evt.report m ld readlink view).map (s.printed ++ ·) := by
  unfold memleakDeliver handleEvent MemleakEvent.report
  cases memleakEventToRegset evt with
  | error st => rfl
  | ok regs =>
      have hreport : (captureEvent m ld k .fallback s.state (eventRequest
          (resolveProcExe readlink evt.pid) regs (toPid evt.pid) (toPid evt.tid)) s.calls).map
            (fun a => a.lines evt.pid evt.comm (memleakPrintFrames evt)) =
          eventReport m ld (resolveProcExe readlink evt.pid) regs .fallback
            (if 0 < toPid evt.pid then some (view (toPid evt.pid) (toPid evt.tid)) else none)
            evt.pid evt.comm (memleakPrintFrames evt) :=
        captureEvent_report h.sound h.unheld (resolveProcExe_length readlink evt.pid) hk _ _ _
      dsimp only
      rw [← hreport, Option.map_map, Option.map_map, Option.map_map]
      rfl

/-- As long as files do not change and threads stand still, `memleak_user` prints the reports of
its events one after the other. -/
theorem memleakUser_reports {view : ℤ → ℤ → ThreadView} (hk : ShowsThreads k past view)
    (h : MemleakReach m ld k readlink past s) (evts : List MemleakEvent) :
    (evts.foldlM (memleakDeliver m ld k readlink) s).map Handled.printed =
      (evts.mapM (MemleakEvent.report m ld readlink view)).map (s.printed ++ ·.flatten) :=
  foldlM_log (I := MemleakSteady ld k past)
    (fun _ _ _ hs => hs.deliver_report fun hpid => hk _ _ _ hpid hs.held)
    (fun _ _ _ _ hs ht => hs.deliver ht) h.steady

end MemleakUser

/-- An event of the other tracer. -/
def framedEvent : MemleakEvent :=
  ⟨42, 42, 1, 1, 0, 0x6ff0, 0x1010, memleakCaptureRegs framedThread, 0, [0x61]⟩

/-- So they are by the other tracer. -/
theorem memleakUser_reports_framed :
    ([framedEvent, framedEvent].foldlM
        (memleakDeliver framedMem framedLoader framedKernel fun _ => some [0x61])
        ⟨dwunwInit, [], []⟩).map Handled.printed =
      ([framedEvent, framedEvent].mapM
        (MemleakEvent.report framedMem framedLoader (fun _ => some [0x61]) framedViews)).map
        ([] ++ ·.flatten) := by
  have hreach : MemleakReach framedMem framedLoader framedKernel (fun _ => some [0x61]) []
      ⟨dwunwInit, [], []⟩ := .start
  exact memleakUser_reports framedKernel_shows hreach _

end Dwunw.Memleak
