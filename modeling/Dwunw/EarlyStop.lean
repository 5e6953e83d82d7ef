import Dwunw.Recovery

/-!
Captures that stop before the frames asked for.

`DWUNW_FRAME_FLAG_PARTIAL` is to mark the last frame of a stack that is cut short.  The loop
of `dwunw_capture` clears it in every frame it writes, and does not come back to a frame.

* `TruncationMarked`: the last frame of a capture that stops early is marked.
* `CaptureLoop.Advances`, `UnwindsOn`: an iteration that recovers a caller; the loop never stops
  early behind its first caller.
* `CaptureLoop.RootMarked`: what the flags are on the way; `captureLoop_marked_iff`: the loop.
* `LoopStart`: where a capture enters the loop; `capture_truncationMarked_iff`: the capture.
-/

namespace Dwunw

open Loop

variable {σ : Type} {m : ByteMem} {index : DwarfIndex} {reader : MemoryRead σ}
  {ops : Option ArchOps} {path : CString} {maxFrames : ℕ}

/-! ### The loop -/

/-- The last frame written is marked as partial. -/
def LastMarked (produced : ℕ) (frames : ℕ → Frame) : Prop :=
  (frames (produced - 1)).flags &&& framePartial ≠ 0

/-- There is an FDE for the cursor, and its evaluation succeeds. -/
def CaptureLoop.Advances (m : ByteMem) (index : DwarfIndex) (reader : MemoryRead σ)
    (s : CaptureLoop σ) : Prop :=
  ∃ i ev, cfiFindFde index.fdes.records s.cursorRegs.pc = some i ∧
    turnEval m index reader s i = some ev ∧ ev.status = .ok

/-- Frame 0 is marked as long as it is the only one; behind it the last frame never is. -/
def CaptureLoop.RootMarked (s : CaptureLoop σ) : Prop :=
  1 ≤ s.produced ∧ (LastMarked s.produced s.frames ↔ s.produced = 1)

lemma flags_cleared (flags : UInt32) : flags &&& ~~~framePartial &&& framePartial = 0 := by
  rw [UInt32.and_assoc, framePartial, show (~~~1 &&& 1 : UInt32) = 0 by decide, UInt32.and_zero]

lemma CaptureLoop.RootMarked.advance {s : CaptureLoop σ} (h : s.RootMarked)
    (ev : EvalResult σ) : (s.advance ops path ev).RootMarked := by
  have hpos := h.1
  refine ⟨Nat.le_add_left _ _, fun hmarked => ?_, fun hone => ?_⟩
  · have hlast : (s.advance ops path ev).frames s.produced =
        ({ ev.frame with flags := ev.frame.flags &&& ~~~framePartial } : Frame).withPath path :=
      Function.update_self _ _ _
    rw [LastMarked, show (s.advance ops path ev).produced - 1 = s.produced from rfl,
      hlast] at hmarked
    exact absurd (flags_cleared _) hmarked
  · have : s.produced + 1 = 1 := hone
    omega

/-- A failed evaluation writes behind the last frame only. -/
lemma CaptureLoop.RootMarked.failed {s : CaptureLoop σ} (h : s.RootMarked)
    (ev : EvalResult σ) : (s.failed ev).RootMarked := by
  have hpos := h.1
  refine ⟨hpos, ?_⟩
  have hlast : (s.failed ev).frames (s.produced - 1) = s.frames (s.produced - 1) :=
    Function.update_of_ne (by omega) _ _
  rw [LastMarked, show (s.failed ev).produced = s.produced from rfl, hlast]
  exact h.2

lemma CaptureLoop.RootMarked.reaches {s t : CaptureLoop σ} (hs : s.RootMarked)
    (h : Reaches (captureTurn m index reader ops path maxFrames) s t) : t.RootMarked := by
  refine h.invariant (fun t t' ht hnext => ?_) hs
  have hturn := captureTurn_turn m index reader ops path maxFrames t
  rw [hnext] at hturn
  cases hturn with
  | advances _ _ _ _ => exact ht.advance _

lemma CaptureLoop.RootMarked.ends {s s' : CaptureLoop σ} {st : Status} (hs : s.RootMarked)
    (h : Ends (captureTurn m index reader ops path maxFrames) s (some (st, s'))) :
    s'.RootMarked := by
  obtain ⟨t, ht, hdone⟩ := ends_iff_reaches.mp h
  have hturn := captureTurn_turn m index reader ops path maxFrames t
  rw [hdone] at hturn
  cases hturn with
  | full _ => exact hs.reaches ht
  | uncovered _ _ => exact hs.reaches ht
  | failed _ _ _ _ => exact (hs.reaches ht).failed _

/-- From a first frame that is marked, the frame the loop stops short with is marked exactly
when it stops short nowhere behind that frame. -/
theorem captureLoop_marked_iff {s s' : CaptureLoop σ} {st : Status} (hs : s.RootMarked)
    (h : Ends (captureTurn m index reader ops path maxFrames) s (some (st, s'))) :
    (s'.produced < maxFrames → LastMarked s'.produced s'.frames) ↔
      ∀ t, Reaches (captureTurn m index reader ops path maxFrames) s t → 2 ≤ t.produced →
        t.produced < maxFrames → t.Advances m index reader := by
  constructor
  · intro hmarked t ht htwo hmax
    have hinv := hs.reaches ht
    have hturn := captureTurn_turn m index reader ops path maxFrames t
    have hends (r : CaptureEnd σ) (hr : captureTurn m index reader ops path maxFrames t =
        .done r) : r = some (st, s') := (ends_iff_reaches.mpr ⟨t, ht, hr⟩).unique h
    generalize captureTurn m index reader ops path maxFrames t = x at hturn hends
    cases hturn with
    | full hfull => exact absurd hmax hfull
    | undefined _ _ _ => cases hends _ rfl
    | advances _ hfind hev hst => exact ⟨_, _, hfind, hev, hst⟩
    | uncovered _ _ =>
        cases hends _ rfl
        have hone := hinv.2.mp (hmarked hmax)
        omega
    | failed _ _ _ _ =>
        cases hends _ rfl
        have hone : t.produced = 1 := (hinv.failed _).2.mp (hmarked hmax)
        omega
  · intro hall hmax
    have hinv := hs.ends h
    refine hinv.2.mpr ?_
    by_contra hne
    have htwo : 2 ≤ s'.produced := by
      have hpos := hinv.1
      omega
    obtain ⟨t, ht, hdone⟩ := ends_iff_reaches.mp h
    have hturn := captureTurn_turn m index reader ops path maxFrames t
    rw [hdone] at hturn
    cases hturn with
    | full hfull => exact hfull hmax
    | uncovered _ hfind =>
        obtain ⟨_, _, hfind', -⟩ := hall _ ht htwo hmax
        cases hfind.symm.trans hfind'
    | failed _ hfind hev hst =>
        obtain ⟨_, _, hfind', hev', hok⟩ := hall _ ht htwo hmax
        cases hfind.symm.trans hfind'
        cases hev.symm.trans hev'
        exact hst hok

/-! ### The capture -/

/-- A capture that stops before the frames asked for has marked the last one it wrote. -/
def TruncationMarked (req : UnwindRequest) (res : CaptureResult) : Prop :=
  1 ≤ res.framesWritten → res.framesWritten < req.maxFrames →
    LastMarked res.framesWritten res.frames

/-- The capture goes on behind frame 0, with these variables. -/
inductive LoopStart (ld : Loader) (k : Kernel) (ctx : Context) (req : UnwindRequest)
    (calls : List SysCall) : CString → Regset → DwarfIndex → CaptureLoop ReaderCtx → Prop
  | intro {path : CString} {regs : Regset} {frames : ℕ → Frame} {st : Status}
      {cache : ModuleCache} {slot : Slot} {root : Frame} (h : Accepted ctx req path regs frames)
      (hacquire : moduleCacheAcquire ld ctx.moduleCache path = (st, cache, some slot))
      (hroot : prepareRootFrame regs (frames 0) = .ok root)
      (hreader : UsesReader ctx req (attachStep k ctx req calls).1) :
      LoopStart ld k ctx req calls path regs (cache.entries slot).handle.index
        ⟨1, regs, Function.update frames 0 (root.withPath path),
          ⟨(attachStep k ctx req calls).2.1, (attachStep k ctx req calls).2.2⟩⟩

/-- Behind the first caller every iteration that has room for a frame recovers one: the
unwinding goes on to the last frame asked for. -/
def UnwindsOn (m : ByteMem) (ld : Loader) (k : Kernel) (ctx : Context) (req : UnwindRequest)
    (calls : List SysCall) : Prop :=
  ∀ path regs index s, LoopStart ld k ctx req calls path regs index s →
    ∀ t, Reaches (captureTurn m index (defaultStackReaderMem k) (archFromRegset regs) path
        req.maxFrames) s t →
      2 ≤ t.produced → t.produced < req.maxFrames → t.Advances m index (defaultStackReaderMem k)

section Capture

variable {ld : Loader} {k : Kernel} {ctx : Context} {req : UnwindRequest}
  {calls : List SysCall} {regs : Regset} {frames : ℕ → Frame}

/-- A capture has one start of the loop at most. -/
lemma LoopStart.eq {path' : CString} {regs' : Regset} {index' : DwarfIndex}
    {s s' : CaptureLoop ReaderCtx} (h : LoopStart ld k ctx req calls path regs index s)
    (h' : LoopStart ld k ctx req calls path' regs' index' s') :
    path' = path ∧ regs' = regs ∧ index' = index ∧ s' = s := by
  obtain ⟨hacc, hacquire, hroot, -⟩ := h
  obtain ⟨hacc', hacquire', hroot', -⟩ := h'
  cases hacc.modulePath.symm.trans hacc'.modulePath
  cases hacc.regs.symm.trans hacc'.regs
  cases hacc.frames.symm.trans hacc'.frames
  cases hacquire.symm.trans hacquire'
  cases hroot.symm.trans hroot'
  exact ⟨rfl, rfl, rfl, rfl⟩

lemma prepareRootFrame_flags {frame root : Frame} (h : prepareRootFrame regs frame = .ok root) :
    root.flags = framePartial := by
  simp only [prepareRootFrame, bind, Except.bind] at h
  repeat' split at h
  all_goals cases h
  all_goals rfl

lemma prepareRootFrame_marked {frame root : Frame}
    (h : prepareRootFrame regs frame = .ok root) (frames : ℕ → Frame) :
    LastMarked 1 (Function.update frames 0 (root.withPath path)) := by
  rw [LastMarked, Nat.sub_self, Function.update_self]
  show root.flags &&& framePartial ≠ 0
  rw [prepareRootFrame_flags h]
  decide

lemma LoopStart.rootMarked {s : CaptureLoop ReaderCtx}
    (h : LoopStart ld k ctx req calls path regs index s) : s.RootMarked := by
  obtain ⟨-, -, hroot, -⟩ := h
  exact ⟨le_rfl, iff_of_true (prepareRootFrame_marked hroot _) rfl⟩

/-- A capture that enters the loop returns what the loop leaves behind. -/
lemma LoopStart.ends {s : CaptureLoop ReaderCtx} {res : CaptureResult}
    (hs : LoopStart ld k ctx req calls path regs index s)
    (h : capture m ld k ctx req calls = some res) :
    ∃ st s', Ends (captureTurn m index (defaultStackReaderMem k) (archFromRegset regs) path
        req.maxFrames) s (some (st, s')) ∧
      res.framesWritten = s'.produced ∧ res.frames = s'.frames := by
  obtain @⟨frames, _, cache, slot, root, hacc, hacquire, hroot, hreader⟩ := hs
  rw [capture_loaded hacc hacquire, loadedFrames, readerStep, if_pos hreader, captureFrames,
    hroot, Option.map_eq_some_iff] at h
  obtain ⟨x, hx, rfl⟩ := h
  dsimp only at hx
  split_ifs at hx with hloop
  · obtain ⟨⟨st, s'⟩, hrun, rfl⟩ := Option.map_eq_some_iff.mp hx
    rw [captureLoop, Option.getD_eq_iff] at hrun
    rcases hrun with hrun | ⟨-, hrun⟩
    · exact ⟨st, s', ends_of_run hrun, rfl, rfl⟩
    · cases hrun
  · -- a table without FDEs: the loop would stop at once
    have hnil : (cache.entries slot).handle.index.fdes.records = [] := by
      rw [not_and, Nat.not_lt, Nat.le_zero] at hloop
      exact List.length_eq_zero_iff.mp (hloop hreader.1.2.2)
    cases hx
    refine ⟨.ok, ⟨1, regs, _, ⟨(attachStep k ctx req calls).2.1,
      (attachStep k ctx req calls).2.2⟩⟩, .done ?_, rfl, rfl⟩
    rw [captureTurn, if_pos hreader.1.2.2, hnil]
    rfl

/-- A capture that does not enter the loop writes frame 0 at most. -/
lemma capture_noLoop {res : CaptureResult}
    (hno : ∀ path regs index s, ¬ LoopStart ld k ctx req calls path regs index s)
    (h : capture m ld k ctx req calls = some res) : TruncationMarked req res := by
  intro hone _
  cases capture_outcome h with
  | refused _ => cases hone
  | unloaded _ _ => cases hone
  | @loaded path regs frames st cache slot x hacc hacquire hx =>
      rw [loadedFrames, captureFrames] at hx
      cases hroot : prepareRootFrame regs (frames 0) with
      | error st =>
          rw [hroot] at hx
          cases hx
          cases hone
      | ok root =>
          have hreader : ¬ UsesReader ctx req (attachStep k ctx req calls).1 :=
            fun hreader => hno _ _ _ _ (.intro hacc hacquire hroot hreader)
          rw [hroot, readerStep, if_neg hreader] at hx
          cases hx
          exact prepareRootFrame_marked hroot frames

/-- A capture has marked the last frame of a stack that it cuts short exactly when it does not
stop short behind the first caller. -/
theorem capture_truncationMarked_iff {res : CaptureResult}
    (h : capture m ld k ctx req calls = some res) :
    TruncationMarked req res ↔ UnwindsOn m ld k ctx req calls := by
  by_cases hstart : ∃ path regs index s, LoopStart ld k ctx req calls path regs index s
  swap
  · have hno path regs index s : ¬ LoopStart ld k ctx req calls path regs index s :=
      fun h => hstart ⟨path, regs, index, s, h⟩
    exact iff_of_true (capture_noLoop hno h) fun path regs index s hs =>
      absurd hs (hno path regs index s)
  obtain ⟨path, regs, index, s, hs⟩ := hstart
  obtain ⟨st, s', hends, hwritten, hframes⟩ := hs.ends h
  have hpos := (hs.rootMarked.ends hends).1
  rw [TruncationMarked, hwritten, hframes]
  have hloop := captureLoop_marked_iff hs.rootMarked hends
  constructor
  · intro hmarked path' regs' index' t₀ hs'
    obtain ⟨rfl, rfl, rfl, rfl⟩ := hs.eq hs'
    exact hloop.mp (hmarked hpos)
  · exact fun hon _ => hloop.mpr (hon path regs index s hs)

end Capture

/-! ### A stack that ends in a function without an FDE -/

/-- The memory of a thread whose caller is at the address 0x9000. -/
def outsideStack : ByteMem := memOf 0x7000 [0, 0x90, 0, 0, 0, 0, 0, 0]

/-- The kernel of `nestedKernel` for this thread. -/
def outsideKernel : Kernel :=
  { nestedKernel with processVmReadv := fun _ _ a size => .copied (peek outsideStack size a) }

/-- The second frame has no FDE, and is not marked. -/
theorem outsideStack_unmarked :
    ∃ res, capture nestedMem nestedLoader outsideKernel nestedContext (nestedRequest 3) [] =
        some res ∧ res.framesWritten = 2 ∧ (res.frames 1).pc = 0x9000 ∧
      cfiFindFde nestedIndex.fdes.records 0x9000 = none ∧
      ¬ TruncationMarked (nestedRequest 3) res := by
  have hrun : (capture nestedMem nestedLoader outsideKernel nestedContext (nestedRequest 3)
      []).any fun res => decide (res.framesWritten = 2 ∧ (res.frames 1).pc = 0x9000 ∧
        (res.frames 1).flags = 0) := by
    decide +kernel
  obtain ⟨res, hres, hframes⟩ := (Option.any_eq_true _ _).mp hrun
  obtain ⟨hwritten, hpc, hflags⟩ := of_decide_eq_true hframes
  refine ⟨res, hres, hwritten, hpc, by decide +kernel, fun hmarked => ?_⟩
  rw [TruncationMarked, LastMarked, hwritten, hflags] at hmarked
  exact hmarked (by decide) (by decide) (by decide)

/-- The kernel of `nestedKernel` where the stack cannot be read. -/
def unreadKernel : Kernel := { nestedKernel with processVmReadv := fun _ _ _ _ => .failed }

/-- The first frame is marked when no caller can be read. -/
theorem unreadStack_marked :
    ∃ res, capture nestedMem nestedLoader unreadKernel nestedContext (nestedRequest 3) [] =
        some res ∧ res.status = .io ∧ res.framesWritten = 1 ∧
      TruncationMarked (nestedRequest 3) res ∧
      UnwindsOn nestedMem nestedLoader unreadKernel nestedContext (nestedRequest 3) [] := by
  have hrun : (capture nestedMem nestedLoader unreadKernel nestedContext (nestedRequest 3)
      []).any fun res => decide (res.status = .io ∧ res.framesWritten = 1 ∧
        (res.frames 0).flags = framePartial) := by
    decide +kernel
  obtain ⟨res, hres, hframes⟩ := (Option.any_eq_true _ _).mp hrun
  obtain ⟨hstatus, hwritten, hflags⟩ := of_decide_eq_true hframes
  have hmarked : TruncationMarked (nestedRequest 3) res := by
    intro _ _
    rw [LastMarked, hwritten, hflags]
    decide
  exact ⟨res, hres, hstatus, hwritten, hmarked, (capture_truncationMarked_iff hres).mp hmarked⟩

end Dwunw
