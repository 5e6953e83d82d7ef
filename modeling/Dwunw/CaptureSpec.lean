import Dwunw.Unwind

/-!
What the unwinding loop of `dwunw_capture` can do.

* `WellLinked`: an index on which no step of the loop is undefined.
* `turnEval`, `captureTurn_eval`: the evaluation a turn makes, and the turn around it.
* `CaptureTurn`, `captureTurn_turn`: the ways a turn goes; `captureTurn_cases`: what is left of
  them on such an index.
* `CaptureLoop.Extends`, `captureLoop_ends`: the loop ends, and keeps the frames it starts
  from.
* `Accepted`, `capture_refused`, `capture_unloaded`, `capture_loaded`: the three ways a
  capture goes; `capture_outcome` tells them apart by the result.
-/

namespace Dwunw

open Loop

variable {σ : Type} {m : ByteMem} {index : DwarfIndex} {reader : MemoryRead σ}
  {ops : Option ArchOps} {path : CString} {maxFrames : ℕ}

/-- The CIE pointer of every FDE is good, and the return register of the CIE is a slot of the
snapshot. -/
def WellLinked (index : DwarfIndex) : Prop :=
  ∀ fde ∈ index.fdes.records, ∃ cie, index.cies.deref fde.cie = some cie ∧
    cie.returnReg.toNat < regsetSlots

/-- What `dwunw_cfi_find_fde` finds is an FDE of the table whose range holds the address. -/
lemma cfiFindFde_eq_some {fdes : List FdeRecord} {pc : UInt64} {i : ℕ}
    (h : cfiFindFde fdes pc = some i) :
    ∃ fde, fdes[i]? = some fde ∧ fde ∈ fdes ∧ fde.pcBegin ≤ pc ∧
      pc < fde.pcBegin + fde.pcRange := by
  rw [cfiFindFde, List.findIdx?_eq_some_iff_getElem] at h
  obtain ⟨hlt, hrange, -⟩ := h
  rw [Bool.and_eq_true, decide_eq_true_eq, decide_eq_true_eq] at hrange
  exact ⟨_, List.getElem?_eq_getElem hlt, List.getElem_mem hlt, hrange⟩

/-- The evaluation a turn makes of the `i`-th FDE. -/
def turnEval (m : ByteMem) (index : DwarfIndex) (reader : MemoryRead σ) (s : CaptureLoop σ)
    (i : ℕ) : Option (EvalResult σ) :=
  index.fdes.records[i]?.bind fun fde =>
    (index.cies.deref fde.cie).bind fun cie =>
      cfiEval m cie fde s.cursorRegs.pc s.cursorRegs reader s.ctx (s.frames s.produced)

/-- The variables after an evaluation that failed. -/
def CaptureLoop.failed (s : CaptureLoop σ) (ev : EvalResult σ) : CaptureLoop σ :=
  { s with
    cursorRegs := ev.regs
    frames := Function.update s.frames s.produced ev.frame
    ctx := ev.ctx }

/-- The variables after an evaluation that succeeded. -/
def CaptureLoop.advance (s : CaptureLoop σ) (ops : Option ArchOps) (path : CString)
    (ev : EvalResult σ) : CaptureLoop σ :=
  let frame := { ev.frame with flags := ev.frame.flags &&& ~~~framePartial }
  { produced := s.produced + 1
    cursorRegs := normalizeCursor ops ev.regs
    frames := Function.update s.frames s.produced (frame.withPath path)
    ctx := ev.ctx }

/-- The turn in front of a frame that an FDE is found for. -/
lemma captureTurn_eval (ops : Option ArchOps) (path : CString) {s : CaptureLoop σ} {i : ℕ}
    {ev : EvalResult σ} (hmax : s.produced < maxFrames)
    (hfind : cfiFindFde index.fdes.records s.cursorRegs.pc = some i)
    (hev : turnEval m index reader s i = some ev) :
    captureTurn m index reader ops path maxFrames s =
      if ev.status ≠ .ok then .done (some (ev.status, s.failed ev))
      else .next (s.advance ops path ev) := by
  rw [turnEval] at hev
  rw [captureTurn, if_pos hmax, hfind]
  dsimp only
  rw [hev]
  rfl

/-- The turn in front of a frame whose FDE cannot be evaluated. -/
lemma captureTurn_undefined (ops : Option ArchOps) (path : CString) {s : CaptureLoop σ} {i : ℕ}
    (hmax : s.produced < maxFrames)
    (hfind : cfiFindFde index.fdes.records s.cursorRegs.pc = some i)
    (hev : turnEval m index reader s i = none) :
    captureTurn m index reader ops path maxFrames s = .done none := by
  rw [turnEval] at hev
  rw [captureTurn, if_pos hmax, hfind]
  dsimp only
  rw [hev]

/-- The ways a turn goes. -/
inductive CaptureTurn (m : ByteMem) (index : DwarfIndex) (reader : MemoryRead σ)
    (ops : Option ArchOps) (path : CString) (maxFrames : ℕ) (s : CaptureLoop σ) :
    Turn (CaptureLoop σ) (CaptureEnd σ) → Prop
  | full (hmax : ¬ s.produced < maxFrames) :
      CaptureTurn m index reader ops path maxFrames s (.done (some (.ok, s)))
  | uncovered (hmax : s.produced < maxFrames)
      (hfind : cfiFindFde index.fdes.records s.cursorRegs.pc = none) :
      CaptureTurn m index reader ops path maxFrames s (.done (some (.ok, s)))
  | undefined {i : ℕ} (hmax : s.produced < maxFrames)
      (hfind : cfiFindFde index.fdes.records s.cursorRegs.pc = some i)
      (hev : turnEval m index reader s i = none) :
      CaptureTurn m index reader ops path maxFrames s (.done none)
  | failed {i : ℕ} {ev : EvalResult σ} (hmax : s.produced < maxFrames)
      (hfind : cfiFindFde index.fdes.records s.cursorRegs.pc = some i)
      (hev : turnEval m index reader s i = some ev) (hst : ev.status ≠ .ok) :
      CaptureTurn m index reader ops path maxFrames s (.done (some (ev.status, s.failed ev)))
  | advances {i : ℕ} {ev : EvalResult σ} (hmax : s.produced < maxFrames)
      (hfind : cfiFindFde index.fdes.records s.cursorRegs.pc = some i)
      (hev : turnEval m index reader s i = some ev) (hst : ev.status = .ok) :
      CaptureTurn m index reader ops path maxFrames s (.next (s.advance ops path ev))

/-- A turn goes one of these ways. -/
theorem captureTurn_turn (m : ByteMem) (index : DwarfIndex) (reader : MemoryRead σ)
    (ops : Option ArchOps) (path : CString) (maxFrames : ℕ) (s : CaptureLoop σ) :
    CaptureTurn m index reader ops path maxFrames s
      (captureTurn m index reader ops path maxFrames s) := by
  by_cases hmax : s.produced < maxFrames
  swap
  · rw [captureTurn, if_neg hmax]
    exact .full hmax
  cases hfind : cfiFindFde index.fdes.records s.cursorRegs.pc with
  | none =>
      rw [captureTurn, if_pos hmax, hfind]
      exact .uncovered hmax hfind
  | some i =>
      cases hev : turnEval m index reader s i with
      | none =>
          rw [captureTurn_undefined ops path hmax hfind hev]
          exact .undefined hmax hfind hev
      | some ev =>
          rw [captureTurn_eval ops path hmax hfind hev]
          by_cases hst : ev.status = .ok
          · rw [if_neg (not_not.mpr hst)]
            exact .advances hmax hfind hev hst
          · rw [if_pos hst]
            exact .failed hmax hfind hev hst

/-- On a well-linked index the FDE found for the cursor can be evaluated. -/
lemma exists_turnEval (m : ByteMem) (reader : MemoryRead σ) (hw : WellLinked index)
    {s : CaptureLoop σ} {i : ℕ} (h : cfiFindFde index.fdes.records s.cursorRegs.pc = some i) :
    ∃ ev, turnEval m index reader s i = some ev := by
  obtain ⟨fde, hget, hmem, hlo, hhi⟩ := cfiFindFde_eq_some h
  obtain ⟨cie, hderef, hreg⟩ := hw fde hmem
  have hin : ¬ (s.cursorRegs.pc < fde.pcBegin ∨
      fde.pcBegin + fde.pcRange ≤ s.cursorRegs.pc) :=
    not_or.mpr ⟨UInt64.not_lt.mpr hlo, UInt64.not_le.mpr hhi⟩
  rw [turnEval, hget, Option.bind_some, hderef, Option.bind_some, cfiEval, if_neg hin]
  cases cfiRow m cie fde s.cursorRegs.pc with
  | error st => exact ⟨_, rfl⟩
  | ok row =>
      dsimp only
      rw [dif_pos hreg]
      exact ⟨_, rfl⟩

/-- What a turn can do on a well-linked index: stop, evaluate and fail, or evaluate and go
on. -/
theorem captureTurn_cases (m : ByteMem) (reader : MemoryRead σ) (ops : Option ArchOps)
    (path : CString) (maxFrames : ℕ) (hw : WellLinked index) (s : CaptureLoop σ) :
    captureTurn m index reader ops path maxFrames s = .done (some (.ok, s)) ∨
    ∃ i ev, s.produced < maxFrames ∧
      cfiFindFde index.fdes.records s.cursorRegs.pc = some i ∧
      turnEval m index reader s i = some ev ∧
      captureTurn m index reader ops path maxFrames s =
        if ev.status ≠ .ok then .done (some (ev.status, s.failed ev))
        else .next (s.advance ops path ev) := by
  have hturn := captureTurn_turn m index reader ops path maxFrames s
  generalize captureTurn m index reader ops path maxFrames s = t at hturn
  cases hturn with
  | full _ => exact .inl rfl
  | uncovered _ _ => exact .inl rfl
  | undefined _ hfind hev =>
      obtain ⟨ev, hev'⟩ := exists_turnEval m reader hw hfind
      rw [hev] at hev'
      cases hev'
  | failed hmax hfind hev hst => exact .inr ⟨_, _, hmax, hfind, hev, (if_pos hst).symm⟩
  | advances hmax hfind hev hst =>
      exact .inr ⟨_, _, hmax, hfind, hev, (if_neg (not_not.mpr hst)).symm⟩

/-! ### The whole loop -/

/-- The frames of `s'` go on from those of `s`. -/
def CaptureLoop.Extends (s s' : CaptureLoop σ) : Prop :=
  s.produced ≤ s'.produced ∧ ∀ i < s.produced, s'.frames i = s.frames i

lemma CaptureLoop.Extends.refl (s : CaptureLoop σ) : s.Extends s := ⟨le_rfl, fun _ _ => rfl⟩

lemma CaptureLoop.Extends.trans {s s' s'' : CaptureLoop σ} (h : s.Extends s')
    (h' : s'.Extends s'') : s.Extends s'' :=
  ⟨h.1.trans h'.1, fun i hi => (h'.2 i (lt_of_lt_of_le hi h.1)).trans (h.2 i hi)⟩

lemma CaptureLoop.extends_failed (s : CaptureLoop σ) (ev : EvalResult σ) :
    s.Extends (s.failed ev) :=
  ⟨le_rfl, fun _ hi => Function.update_of_ne (Nat.ne_of_lt hi) _ _⟩

lemma CaptureLoop.extends_advance (s : CaptureLoop σ) (ev : EvalResult σ) :
    s.Extends (s.advance ops path ev) :=
  ⟨Nat.le_succ _, fun _ hi => Function.update_of_ne (Nat.ne_of_lt hi) _ _⟩

/-- On a well-linked index the loop ends, and keeps the frames it starts from. -/
theorem captureLoop_ends (m : ByteMem) (reader : MemoryRead σ) (ops : Option ArchOps)
    (path : CString) (maxFrames : ℕ) (hw : WellLinked index) (s : CaptureLoop σ) :
    ∃ st s', captureLoop m index reader ops path maxFrames s = some (st, s') ∧ s.Extends s' ∧
      Ends (captureTurn m index reader ops path maxFrames) s (some (st, s')) := by
  have hnext (t t' : CaptureLoop σ) (ht : s.Extends t)
      (h : captureTurn m index reader ops path maxFrames t = .next t') :
      s.Extends t' ∧ maxFrames - t'.produced < maxFrames - t.produced := by
    rcases captureTurn_cases m reader ops path maxFrames hw t with
      hdone | ⟨i, ev, hmax, -, -, hturn⟩
    · rw [hdone] at h
      cases h
    · rw [hturn] at h
      split_ifs at h
      cases h
      refine ⟨ht.trans (t.extends_advance ev), ?_⟩
      show maxFrames - (t.produced + 1) < _
      omega
  obtain ⟨r, hr⟩ := run_of_variant (I := s.Extends)
    (μ := fun t => maxFrames - t.produced) hnext (.refl s) (Nat.lt_succ_self _)
  have hends := ends_of_run hr
  obtain ⟨st, s', rfl, hext⟩ : ∃ st s', r = some (st, s') ∧ s.Extends s' := by
    refine Ends.of_invariant (I := s.Extends)
      (Q := fun r => ∃ st s', r = some (st, s') ∧ s.Extends s')
      (fun t t' ht h => (hnext t t' ht h).1) (fun t r ht h => ?_) hends (.refl s)
    rcases captureTurn_cases m reader ops path maxFrames hw t with
      hdone | ⟨i, ev, -, -, -, hturn⟩
    · rw [hdone] at h
      cases h
      exact ⟨_, _, rfl, ht⟩
    · rw [hturn] at h
      split_ifs at h
      cases h
      exact ⟨_, _, rfl, ht.trans (t.extends_failed ev)⟩
  exact ⟨st, s', by rw [captureLoop, hr, Option.getD_some], hext, hends⟩

/-! ### The steps of a capture -/

/-- A request that is checked and found good. -/
structure Accepted (ctx : Context) (req : UnwindRequest) (path : CString) (regs : Regset)
    (frames : ℕ → Frame) : Prop where
  modulePath : req.modulePath = some path
  regs : req.regs = some regs
  frames : req.frames = some frames
  maxFrames : req.maxFrames ≠ 0
  ready : ctx.moduleCacheReady = true

/-- The request makes the capture attach to the thread. -/
def WantsReader (ctx : Context) (req : UnwindRequest) : Prop :=
  ctx.stackReaderReady ∧ 0 < req.pid ∧ 1 < req.maxFrames

instance (ctx : Context) (req : UnwindRequest) : Decidable (WantsReader ctx req) :=
  inferInstanceAs (Decidable (_ ∧ _ ∧ _))

/-- The attach, or what stands in for it when none is wanted. -/
def attachStep (k : Kernel) (ctx : Context) (req : UnwindRequest) (calls : List SysCall) :
    Status × Session × List SysCall :=
  if WantsReader ctx req then stackReaderAttach k req.pid req.tid .zero calls
  else (.ok, .zero, calls)

/-- The capture reads through the session of an attach that came out as `st`. -/
def UsesReader (ctx : Context) (req : UnwindRequest) (st : Status) : Prop :=
  WantsReader ctx req ∧ st = .ok

instance (ctx : Context) (req : UnwindRequest) (st : Status) :
    Decidable (UsesReader ctx req st) := inferInstanceAs (Decidable (_ ∧ _))

/-- The reader that the frames are unwound with, if any. -/
def readerStep (reader : MemoryRead σ) (ctx : Context) (req : UnwindRequest) (st : Status) :
    Option (MemoryRead σ) :=
  if UsesReader ctx req st then some reader else none

/-- The detach, when there is a session to detach. -/
def detachStep (ctx : Context) (req : UnwindRequest) (st : Status) (session : Session)
    (calls : List SysCall) : List SysCall :=
  if UsesReader ctx req st then (stackReaderDetach session calls).2 else calls

section Capture

variable {ld : Loader} {k : Kernel} {ctx : Context} {req : UnwindRequest}
  {calls : List SysCall} {path : CString} {regs : Regset} {frames : ℕ → Frame}

/-- What a capture returns that is refused. -/
def refusedResult (ctx : Context) (req : UnwindRequest) (calls : List SysCall) :
    CaptureResult :=
  ⟨.invalidArg, 0, req.frames.getD fun _ => ⟨0, 0, 0, 0, 0, []⟩, ctx, calls⟩

/-- What a capture returns whose module is not acquired. -/
def unloadedResult (k : Kernel) (ctx : Context) (req : UnwindRequest) (calls : List SysCall)
    (frames : ℕ → Frame) (st : Status) (cache : ModuleCache) : CaptureResult :=
  let att := attachStep k ctx req calls
  ⟨st, 0, frames, { ctx with moduleCache := cache }, detachStep ctx req att.1 att.2.1 att.2.2⟩

/-- The frames that a capture unwinds in the module of a slot. -/
def loadedFrames (m : ByteMem) (k : Kernel) (ctx : Context) (req : UnwindRequest)
    (calls : List SysCall) (path : CString) (regs : Regset) (frames : ℕ → Frame)
    (index : DwarfIndex) : Option (Status × ℕ × (ℕ → Frame) × ReaderCtx) :=
  let att := attachStep k ctx req calls
  captureFrames m index (readerStep (defaultStackReaderMem k) ctx req att.1) path regs frames
    req.maxFrames ⟨att.2.1, att.2.2⟩

/-- What a capture returns whose frames come out as `x`. -/
def loadedResult (k : Kernel) (ctx : Context) (req : UnwindRequest) (calls : List SysCall)
    (cache : ModuleCache) (slot : Slot) (x : Status × ℕ × (ℕ → Frame) × ReaderCtx) :
    CaptureResult :=
  let att := attachStep k ctx req calls
  { status := if x.1 = .ok ∧ att.1 ≠ .ok then att.1 else x.1
    framesWritten := x.2.1
    frames := x.2.2.1
    ctx := { ctx with moduleCache := (moduleCacheRelease cache slot).2 }
    calls := detachStep ctx req att.1 x.2.2.2.session x.2.2.2.calls }

/-- A request that is not good is refused, without any effect. -/
lemma capture_refused (m : ByteMem) (ld : Loader) (k : Kernel) (calls : List SysCall)
    (h : ∀ path regs frames, ¬ Accepted ctx req path regs frames) :
    capture m ld k ctx req calls = some (refusedResult ctx req calls) := by
  rw [capture]
  split
  · next path regs frames hpath hregs hframes =>
    rw [if_pos]
    · rw [refusedResult, hframes]
      rfl
    · by_contra hgood
      rw [not_or, Bool.not_eq_false] at hgood
      exact h path regs frames ⟨hpath, hregs, hframes, hgood.1, hgood.2⟩
  · rfl

/-- A good request whose module cannot be acquired. -/
lemma capture_unloaded (h : Accepted ctx req path regs frames) {st : Status}
    {cache : ModuleCache}
    (hacquire : moduleCacheAcquire ld ctx.moduleCache path = (st, cache, none)) :
    capture m ld k ctx req calls =
      some (unloadedResult k ctx req calls frames st cache) := by
  rw [capture, h.modulePath, h.regs, h.frames]
  dsimp only
  rw [if_neg (by simp [h.maxFrames, h.ready]), hacquire]
  rfl

/-- A good request whose module is acquired: the frames are unwound and the module is
released. -/
lemma capture_loaded (h : Accepted ctx req path regs frames) {st : Status}
    {cache : ModuleCache} {slot : Slot}
    (hacquire : moduleCacheAcquire ld ctx.moduleCache path = (st, cache, some slot)) :
    capture m ld k ctx req calls =
      (loadedFrames m k ctx req calls path regs frames (cache.entries slot).handle.index).map
        (loadedResult k ctx req calls cache slot) := by
  rw [capture, h.modulePath, h.regs, h.frames]
  dsimp only
  rw [if_neg (by simp [h.maxFrames, h.ready]), hacquire]
  rfl

/-- The ways a capture comes out. -/
inductive CaptureOutcome (m : ByteMem) (ld : Loader) (k : Kernel) (ctx : Context)
    (req : UnwindRequest) (calls : List SysCall) : CaptureResult → Prop
  | refused (h : ∀ path regs frames, ¬ Accepted ctx req path regs frames) :
      CaptureOutcome m ld k ctx req calls (refusedResult ctx req calls)
  | unloaded {path : CString} {regs : Regset} {frames : ℕ → Frame} {st : Status}
      {cache : ModuleCache} (h : Accepted ctx req path regs frames)
      (hacquire : moduleCacheAcquire ld ctx.moduleCache path = (st, cache, none)) :
      CaptureOutcome m ld k ctx req calls (unloadedResult k ctx req calls frames st cache)
  | loaded {path : CString} {regs : Regset} {frames : ℕ → Frame} {st : Status}
      {cache : ModuleCache} {slot : Slot} {x : Status × ℕ × (ℕ → Frame) × ReaderCtx}
      (h : Accepted ctx req path regs frames)
      (hacquire : moduleCacheAcquire ld ctx.moduleCache path = (st, cache, some slot))
      (hx : loadedFrames m k ctx req calls path regs frames
        (cache.entries slot).handle.index = some x) :
      CaptureOutcome m ld k ctx req calls (loadedResult k ctx req calls cache slot x)

/-- Every capture that returns has one of these outcomes. -/
theorem capture_outcome {res : CaptureResult} (h : capture m ld k ctx req calls = some res) :
    CaptureOutcome m ld k ctx req calls res := by
  by_cases hgood : ∃ path regs frames, Accepted ctx req path regs frames
  swap
  · have hbad : ∀ path regs frames, ¬ Accepted ctx req path regs frames :=
      fun path regs frames h => hgood ⟨path, regs, frames, h⟩
    rw [capture_refused m ld k calls hbad] at h
    cases h
    exact .refused hbad
  obtain ⟨path, regs, frames, hgood⟩ := hgood
  rcases hacquire : moduleCacheAcquire ld ctx.moduleCache path with ⟨st, cache, _ | slot⟩
  · rw [capture_unloaded hgood hacquire] at h
    cases h
    exact .unloaded hgood hacquire
  · rw [capture_loaded hgood hacquire] at h
    obtain ⟨x, hx, rfl⟩ := Option.map_eq_some_iff.mp h
    exact .loaded hgood hacquire hx

end Capture

end Dwunw
