import Dwunw.CaptureSim
import Dwunw.Cfi.ApplyRow
import Dwunw.Lib.Unfold

/-!
A capture as a bounded iteration.

Over a reader that is a fixed function of the address, one step of the unwinder is a
function of the registers: it finds an FDE for the pc, evaluates it and normalizes the
registers, or it stops.  The loop of `dwunw_capture` is that step unfolded within the budget
of frames that are left.

* `unwindStep`: the step.
* `captureTurn_follows`, `captureLoop_follows`, `captureFrames_follows`: a turn, the loop and
  the frames of a capture follow the unfolding.
* `capture_iterates`: what a capture writes, and that a smaller `max_frames` gets a prefix.
-/

namespace Dwunw

open Loop Unfold

/-! ### One step -/

/-- A frame of zero bytes. -/
def Frame.zero : Frame := ⟨0, 0, 0, 0, 0, []⟩

/-- One step of the unwinder: the frame it writes and the registers it goes on with; or it
stops with a status, or is undefined. -/
def unwindStep (m : ByteMem) (index : DwarfIndex) (ops : Option ArchOps) (path : CString)
    (f : UInt64 → Except Status UInt64) (regs : Regset) : Yield Regset Frame (Option Status) :=
  match cfiFindFde index.fdes.records regs.pc with
  | none => .stop (some .ok)
  | some i =>
      match turnEval m index (functionReader f) ⟨0, regs, fun _ => .zero, ()⟩ i with
      | none => .stop none
      | some ev =>
          if ev.status ≠ .ok then .stop (some ev.status)
          else
            .emit ({ ev.frame with flags := ev.frame.flags &&& ~~~framePartial }.withPath path)
              (normalizeCursor ops ev.regs)

/-- Two evaluations that differ at most in what they leave of the frame's former contents,
which is nothing but the path when they succeed. -/
structure SameButFrame {σ : Type} (ev ev' : EvalResult σ) : Prop where
  status : ev.status = ev'.status
  regs : ev.regs = ev'.regs
  ctx : ev.ctx = ev'.ctx
  frame : ev.status = .ok → ev.frame.withPath [] = ev'.frame.withPath []

section Frames

variable {σ : Type} {m : ByteMem} {index : DwarfIndex} {reader : MemoryRead σ}

lemma applyRow_frame (he : ∀ ctx a, (reader ctx a).1 ≠ .error .ok) (row : CfaState)
    (reg : Fin regsetSlots) (regs : Regset) (ctx : σ) (frame frame' : Frame) :
    SameButFrame (applyRow row reg regs reader ctx frame)
      (applyRow row reg regs reader ctx frame') := by
  rw [applyRow, applyRow]
  dsimp only
  have hra := returnAddress_ne_ok he row reg
    (regValue regs row.cfaReg + row.cfaOffset.toUInt64) regs ctx
  generalize returnAddress row reg _ regs reader ctx = x at hra ⊢
  rcases x with ⟨st | ra, ctx'⟩
  · exact ⟨rfl, rfl, rfl, fun hst => absurd (congrArg Except.error hst) hra⟩
  · dsimp only
    rcases updateRegs row _ reader (List.finRange regsetSlots) regs ctx' with ⟨st, regs', ctx''⟩
    cases st <;> exact ⟨rfl, rfl, rfl, fun _ => rfl⟩

/-- What an evaluation leaves does not depend on what the frame held before. -/
theorem turnEval_frame (m : ByteMem) (index : DwarfIndex)
    (he : ∀ ctx a, (reader ctx a).1 ≠ .error .ok) (s s' : CaptureLoop σ)
    (hregs : s.cursorRegs = s'.cursorRegs) (hctx : s.ctx = s'.ctx) (i : ℕ)
    (hin : cfiFindFde index.fdes.records s.cursorRegs.pc = some i) :
    Option.Rel SameButFrame (turnEval m index reader s i) (turnEval m index reader s' i) := by
  obtain ⟨fde, hget, -, hlo, hhi⟩ := cfiFindFde_eq_some hin
  have hpc : ¬ (s.cursorRegs.pc < fde.pcBegin ∨
      fde.pcBegin + fde.pcRange ≤ s.cursorRegs.pc) :=
    not_or.mpr ⟨UInt64.not_lt.mpr hlo, UInt64.not_le.mpr hhi⟩
  rw [turnEval, turnEval, hget, ← hregs, ← hctx, Option.bind_some, Option.bind_some]
  cases index.cies.deref fde.cie with
  | none => exact .none
  | some cie =>
      rw [Option.bind_some, Option.bind_some, cfiEval, cfiEval, if_neg hpc, if_neg hpc]
      cases hrow : cfiRow m cie fde s.cursorRegs.pc with
      | error st => exact .some ⟨rfl, rfl, rfl, fun hst => absurd hst (cfiRow_ne_ok hrow)⟩
      | ok row =>
          dsimp only
          by_cases hreg : cie.returnReg.toNat < regsetSlots
          · rw [dif_pos hreg, dif_pos hreg]
            exact .some (applyRow_frame he row _ _ _ _ _)
          · rw [dif_neg hreg, dif_neg hreg]
            exact .none

end Frames

/-! ### The turns and the loop -/

section Follows

variable {m : ByteMem} {index : DwarfIndex} {ops : Option ArchOps} {path : CString}
  {maxFrames : ℕ} {f : UInt64 → Except Status UInt64}

/-- A turn of the loop from `s` does what the step says: it writes the frame and goes on, or
it stops without counting another frame, or it is undefined. -/
inductive TurnFollows (s : CaptureLoop Unit) : Yield Regset Frame (Option Status) →
    Turn (CaptureLoop Unit) (CaptureEnd Unit) → Prop
  | emit {frame : Frame} {regs : Regset} :
      TurnFollows s (.emit frame regs)
        (.next ⟨s.produced + 1, regs, Function.update s.frames s.produced frame, ()⟩)
  | stop {st : Status} {s' : CaptureLoop Unit} (hproduced : s'.produced = s.produced)
      (hframes : ∀ i ≠ s.produced, s'.frames i = s.frames i) :
      TurnFollows s (.stop (some st)) (.done (some (st, s')))
  | undefined : TurnFollows s (.stop none) (.done none)

lemma withPath_eq {frame frame' : Frame} (h : frame.withPath [] = frame'.withPath [])
    (path : CString) :
    { frame with flags := frame.flags &&& ~~~framePartial }.withPath path =
      { frame' with flags := frame'.flags &&& ~~~framePartial }.withPath path := by
  cases frame
  cases frame'
  simp_all [Frame.withPath]

/-- A turn of the loop is a step of the unfolding. -/
theorem captureTurn_follows (m : ByteMem) (index : DwarfIndex) (ops : Option ArchOps)
    (path : CString) (hf : ∀ a, f a ≠ .error .ok) {s : CaptureLoop Unit}
    (hmax : s.produced < maxFrames) :
    TurnFollows s (unwindStep m index ops path f s.cursorRegs)
      (captureTurn m index (functionReader f) ops path maxFrames s) := by
  rw [unwindStep]
  cases hfind : cfiFindFde index.fdes.records s.cursorRegs.pc with
  | none =>
      rw [captureTurn, if_pos hmax, hfind]
      exact .stop rfl fun _ _ => rfl
  | some i =>
      have hev : Option.Rel SameButFrame (turnEval m index (functionReader f) s i)
          (turnEval m index (functionReader f) ⟨0, s.cursorRegs, fun _ => .zero, ()⟩ i) := by
        refine turnEval_frame m index (fun _ a => ?_) s ⟨0, s.cursorRegs, _, ()⟩ rfl rfl i hfind
        exact hf a
      dsimp only
      generalize turnEval m index (functionReader f) ⟨0, s.cursorRegs, _, ()⟩ i = x at hev ⊢
      cases hl : turnEval m index (functionReader f) s i with
      | none =>
          rw [hl] at hev
          cases hev
          rw [captureTurn_undefined ops path hmax hfind hl]
          exact .undefined
      | some ev =>
          rw [hl] at hev
          obtain ⟨hsame⟩ := hev
          rw [captureTurn_eval ops path hmax hfind hl]
          dsimp only
          rw [← hsame.status]
          by_cases hst : ev.status ≠ .ok
          · rw [if_pos hst, if_pos hst]
            exact .stop rfl fun i hi => Function.update_of_ne hi _ _
          · rw [if_neg hst, if_neg hst, ← hsame.regs,
              ← withPath_eq (hsame.frame (not_not.mp hst)) path]
            exact .emit

/-- The loop from `s` has written what the step unfolds to, and ends as the unfolding
does. -/
inductive LoopFollows (s : CaptureLoop Unit) (maxFrames : ℕ)
    (out : List Frame × Option (Option Status)) : CaptureEnd Unit → Prop
  | undefined (h : out.2 = some none) : LoopFollows s maxFrames out none
  | ends {st : Status} {s' : CaptureLoop Unit} (hst : out.2.getD (some .ok) = some st)
      (hproduced : s'.produced = s.produced + out.1.length)
      (hframes : ∀ i (h : i < out.1.length), s'.frames (s.produced + i) = out.1[i])
      (hbefore : ∀ i < s.produced, s'.frames i = s.frames i)
      (hafter : ∀ i, maxFrames ≤ i → s'.frames i = s.frames i) :
      LoopFollows s maxFrames out (some (st, s'))

/-- One more frame in front. -/
lemma LoopFollows.cons {s : CaptureLoop Unit} {frame : Frame} {regs : Regset}
    {out : List Frame × Option (Option Status)} {e : CaptureEnd Unit}
    (hmax : s.produced < maxFrames)
    (h : LoopFollows ⟨s.produced + 1, regs, Function.update s.frames s.produced frame, ()⟩
      maxFrames out e) : LoopFollows s maxFrames (frame :: out.1, out.2) e := by
  cases h with
  | undefined h => exact .undefined h
  | @ends st s' hst hproduced hframes hbefore hafter =>
      refine .ends hst ?_ (fun i hi => ?_) (fun i hi => ?_) fun i hi => ?_
      · rw [hproduced, List.length_cons]
        show s.produced + 1 + out.1.length = _
        omega
      · cases i with
        | zero =>
            rw [Nat.add_zero, hbefore _ (Nat.lt_succ_self _)]
            exact Function.update_self _ _ _
        | succ i =>
            have hget := hframes i (Nat.lt_of_succ_lt_succ hi)
            rw [show s.produced + (i + 1) = s.produced + 1 + i by omega]
            exact hget
      · rw [hbefore i (Nat.lt_succ_of_lt hi)]
        exact Function.update_of_ne (Nat.ne_of_lt hi) _ _
      · rw [hafter i hi]
        exact Function.update_of_ne (by omega) _ _

/-- With a budget of `n` frames, the loop follows the step unfolded `n` times. -/
theorem captureLoop_follows (m : ByteMem) (index : DwarfIndex) (ops : Option ArchOps)
    (path : CString) (hf : ∀ a, f a ≠ .error .ok) (n : ℕ) {s : CaptureLoop Unit}
    (hn : s.produced + n = maxFrames) :
    LoopFollows s maxFrames (unfold (unwindStep m index ops path f) n s.cursorRegs)
      ((run (captureTurn m index (functionReader f) ops path maxFrames) (n + 1) s).getD
        none) := by
  induction n generalizing s with
  | zero =>
      have hturn : captureTurn m index (functionReader f) ops path maxFrames s =
          .done (some (.ok, s)) := by
        rw [captureTurn, if_neg (by omega)]
      rw [run, hturn]
      exact .ends rfl rfl (fun i hi => absurd hi (Nat.not_lt_zero i)) (fun _ _ => rfl)
        fun _ _ => rfl
  | succ n ih =>
      have hmax : s.produced < maxFrames := by omega
      have hturn := captureTurn_follows m index ops path hf hmax
      rw [run]
      generalize hstep : unwindStep m index ops path f s.cursorRegs = y at hturn
      generalize captureTurn m index (functionReader f) ops path maxFrames s = t at hturn ⊢
      cases hturn with
      | @emit frame regs =>
          rw [unfold_emit hstep]
          have hn' : s.produced + 1 + n = maxFrames := by omega
          exact (ih (s := ⟨s.produced + 1, regs, _, ()⟩) hn').cons hmax
      | @stop st s' hproduced hframes =>
          rw [unfold_stop hstep]
          exact .ends rfl hproduced (fun i hi => absurd hi (Nat.not_lt_zero i))
            (fun i hi => hframes i (Nat.ne_of_lt hi)) fun i hi => hframes i (by omega)
      | undefined =>
          rw [unfold_stop hstep]
          exact .undefined rfl

end Follows

/-! ### The frames of a capture -/

/-- The frames that a capture has room for beyond the first one, if it reads at all. -/
def stepBudget (ctx : Context) (req : UnwindRequest) (st : Status) : ℕ :=
  if UsesReader ctx req st then req.maxFrames - 1 else 0

/-- What is seen of the frames: the root frame, then what the step unfolds to; the rest of
the buffer beyond the budget is what it was. -/
inductive FramesFollow (root : Frame) (frames : ℕ → Frame) (maxFrames : ℕ)
    (out : List Frame × Option (Option Status)) : Option (Status × ℕ × (ℕ → Frame)) → Prop
  | undefined (h : out.2 = some none) : FramesFollow root frames maxFrames out none
  | ends {st : Status} {frames' : ℕ → Frame} (hst : out.2.getD (some .ok) = some st)
      (hroot : frames' 0 = root)
      (hframes : ∀ i (h : i < out.1.length), frames' (i + 1) = out.1[i])
      (hafter : ∀ i, maxFrames ≤ i → frames' i = frames i) :
      FramesFollow root frames maxFrames out (some (st, out.1.length + 1, frames'))

/-- The frames of a capture are the unfolding. -/
theorem captureFrames_follows {f : UInt64 → Except Status UInt64} {ctx : Context}
    {req : UnwindRequest} {st : Status} (hf : UsesReader ctx req st → ∀ a, f a ≠ .error .ok)
    (m : ByteMem) (index : DwarfIndex) (path : CString) {regs : Regset} {frames : ℕ → Frame}
    {root : Frame} (hmax : req.maxFrames ≠ 0)
    (hroot : prepareRootFrame regs (frames 0) = .ok root) :
    FramesFollow (root.withPath path) frames req.maxFrames
      (unfold (unwindStep m index (archFromRegset regs) path f) (stepBudget ctx req st) regs)
      ((captureFrames m index (readerStep (functionReader f) ctx req st) path regs frames
        req.maxFrames ()).map seenFrames) := by
  have hself : Function.update frames 0 (root.withPath path) 0 = root.withPath path :=
    Function.update_self _ _ _
  have hupdate (i : ℕ) (hi : req.maxFrames ≤ i) :
      Function.update frames 0 (root.withPath path) i = frames i :=
    Function.update_of_ne (by omega) _ _
  rw [captureFrames, hroot, readerStep, stepBudget]
  by_cases huses : UsesReader ctx req st
  swap
  · rw [if_neg huses, if_neg huses]
    exact .ends rfl hself (fun i hi => absurd hi (Nat.not_lt_zero i))
      hupdate
  have hmany : 1 < req.maxFrames := huses.1.2.2
  rw [if_pos huses, if_pos huses]
  dsimp only
  by_cases hfdes : 0 < index.fdes.records.length
  · rw [if_pos ⟨hmany, hfdes⟩]
    have hproduced : (⟨1, regs, Function.update frames 0 (root.withPath path), ()⟩ :
        CaptureLoop Unit).produced + (req.maxFrames - 1) = req.maxFrames := by
      show 1 + _ = _
      omega
    have hloop := captureLoop_follows m index (archFromRegset regs) path (hf huses)
      (req.maxFrames - 1) hproduced
    rw [captureLoop]
    dsimp only at hloop ⊢
    generalize (run _ _ _).getD none = e at hloop ⊢
    cases hloop with
    | undefined h => exact .undefined h
    | @ends st s' hst hproduced hframes hbefore hafter =>
        rw [Option.map_some, Option.map_some, seenFrames]
        dsimp only at hproduced ⊢
        rw [hproduced, Nat.add_comm 1]
        refine .ends hst ?_ (fun i hi => ?_) fun i hi => ?_
        · rw [hbefore 0 Nat.one_pos]
          exact hself
        · rw [Nat.add_comm i]
          exact hframes i hi
        · rw [hafter i hi]
          exact hupdate i hi
  · -- without an FDE the first step stops
    rw [if_neg fun h => hfdes h.2]
    have hnil : index.fdes.records = [] := List.length_eq_zero_iff.mp (by omega)
    have hstep : unwindStep m index (archFromRegset regs) path f regs = .stop (some .ok) := by
      rw [unwindStep, hnil]
      rfl
    obtain ⟨n, hn⟩ : ∃ n, req.maxFrames - 1 = n + 1 := ⟨req.maxFrames - 2, by omega⟩
    rw [hn, unfold_stop hstep]
    exact .ends rfl hself (fun i hi => absurd hi (Nat.not_lt_zero i))
      hupdate

/-! ### Whole captures -/

section Capture

variable {m : ByteMem} {ld : Loader} {k : Kernel} {ctx : Context} {req : UnwindRequest}
  {calls : List SysCall} {st : Status} {f : UInt64 → Except Status UInt64} {path : CString}
  {regs : Regset} {frames : ℕ → Frame} {root : Frame}

lemma FixedReader.ne_ok {pid tid : ℤ} (hk : FixedReader k pid tid calls st f) (hst : st = .ok)
    (a : UInt64) : f a ≠ .error .ok := by
  obtain ⟨good, hgood, hreads⟩ := hk.reads hst
  rw [← (hreads _ a hgood).1]
  exact defaultStackReaderMem_ne_ok k _ a

/-- The frames of a capture whose module and root frame are there. -/
lemma loadedFrames_follow (m : ByteMem) (ctx : Context) (req : UnwindRequest) (path : CString)
    (hk : FixedReader k req.pid req.tid calls st f) (index : DwarfIndex)
    (hmax : req.maxFrames ≠ 0) (hroot : prepareRootFrame regs (frames 0) = .ok root) :
    FramesFollow (root.withPath path) frames req.maxFrames
      (unfold (unwindStep m index (archFromRegset regs) path f) (stepBudget ctx req st) regs)
      ((loadedFrames m k ctx req calls path regs frames index).map seenFrames) := by
  rw [captureFrames_fixed hk]
  exact captureFrames_follows (fun huses => hk.ne_ok huses.2) m index path hmax hroot

/-- Without a root frame nothing is unwound. -/
lemma loadedFrames_error (m : ByteMem) (k : Kernel) (ctx : Context) (req : UnwindRequest)
    (calls : List SysCall) (path : CString) (index : DwarfIndex) {st' : Status}
    (hroot : prepareRootFrame regs (frames 0) = .error st') :
    ∃ rctx, loadedFrames m k ctx req calls path regs frames index =
      some (st', 0, frames, rctx) := by
  rw [loadedFrames, captureFrames, hroot]
  exact ⟨_, rfl⟩

/-- What a capture wrote: the root frame, then what the iterates of the step emit, until one
of them stops or the budget is used up; without a reader the root frame alone. -/
structure Iterates (step : Regset → Yield Regset Frame (Option Status)) (uses : Prop)
    (regs : Regset) (root : Frame) (frames : ℕ → Frame) (maxFrames : ℕ) (res : CaptureResult) :
    Prop where
  root : res.frames 0 = root
  written : 1 ≤ res.framesWritten ∧ res.framesWritten ≤ maxFrames
  emitted : ∀ i, i + 1 < res.framesWritten →
    ∃ r r', iterate step i regs = some r ∧ step r = .emit (res.frames (i + 1)) r'
  stops : uses → res.framesWritten = maxFrames ∧ res.status = .ok ∨
    ∃ r, iterate step (res.framesWritten - 1) regs = some r ∧ step r = .stop (some res.status)
  unread : ¬ uses → res.framesWritten = 1
  untouched : ∀ i, maxFrames ≤ i → res.frames i = frames i

lemma stepBudget_lt (ctx : Context) (st : Status) (hmax : req.maxFrames ≠ 0) :
    stepBudget ctx req st < req.maxFrames := by
  rw [stepBudget]
  split <;> omega

lemma capture_iterated (hk : FixedReader k req.pid req.tid calls st f)
    (h : Accepted ctx req path regs frames) (hroot : prepareRootFrame regs (frames 0) = .ok root)
    {cache : ModuleCache} {slot : Slot} {x : Status × ℕ × (ℕ → Frame) × ReaderCtx}
    (hx : loadedFrames m k ctx req calls path regs frames
      (cache.entries slot).handle.index = some x) :
    Iterates
      (unwindStep m (cache.entries slot).handle.index (archFromRegset regs) path f)
      (UsesReader ctx req st) regs (root.withPath path) frames req.maxFrames
      (loadedResult k ctx req calls cache slot x) := by
  have hfollow := loadedFrames_follow m ctx req path hk
    (cache.entries slot).handle.index h.maxFrames hroot
  rw [hx, Option.map_some] at hfollow
  obtain ⟨st', produced, frames', rctx⟩ := x
  generalize hstep : unwindStep m _ (archFromRegset regs) path f = step at hfollow ⊢
  have hlen := unfold_length_le step (stepBudget ctx req st) regs
  have hlt := stepBudget_lt ctx st h.maxFrames
  cases hfollow with
  | ends hst hroot' hframes hafter =>
      refine ⟨hroot', ⟨Nat.le_add_left 1 _, by show _ + 1 ≤ _; omega⟩, fun i hi => ?_,
        fun huses => ?_, fun huses => ?_, hafter⟩
      · have hi' := Nat.lt_of_succ_lt_succ hi
        obtain ⟨t, t', hiter, ht⟩ := unfold_getElem hi'
        exact ⟨t, t', hiter, by rw [ht, ← hframes i hi']; rfl⟩
      · -- the attach came out well, so the status is that of the loop
        have hatt : (attachStep k ctx req calls).1 = .ok := by
          rw [(hk.attachStep_eq huses.1).2, huses.2]
        have hstatus : (loadedResult k ctx req calls cache slot
            (st', (unfold step (stepBudget ctx req st) regs).1.length + 1, frames',
              rctx)).status = st' := if_neg fun hbad => hbad.2 hatt
        rw [hstatus]
        cases hres : (unfold step (stepBudget ctx req st) regs).2 with
        | none =>
            rw [hres] at hst
            have hfull := unfold_full hres
            rw [stepBudget, if_pos huses] at hfull
            refine .inl ⟨?_, (Option.some.inj hst).symm⟩
            show (unfold step (stepBudget ctx req st) regs).1.length + 1 = _
            rw [stepBudget, if_pos huses, hfull]
            have := h.maxFrames
            omega
        | some r =>
            rw [hres] at hst
            obtain ⟨t, hiter, ht⟩ := unfold_result hres
            exact .inr ⟨t, hiter, by rw [ht]; exact congrArg Yield.stop hst⟩
      · rw [stepBudget, if_neg huses] at hlen
        show (unfold step (stepBudget ctx req st) regs).1.length + 1 = 1
        rw [stepBudget, if_neg huses]
        omega

/-- A smaller budget leaves room for as many steps as it can, if there is a reader at all. -/
lemma stepBudget_maxFrames {n : ℕ} (hle : n ≤ req.maxFrames) :
    stepBudget ctx { req with maxFrames := n } st = min (n - 1) (stepBudget ctx req st) := by
  rw [stepBudget, stepBudget]
  by_cases huses : UsesReader ctx req st
  · rw [if_pos huses]
    by_cases hone : 1 < n
    · rw [if_pos ⟨⟨huses.1.1, huses.1.2.1, hone⟩, huses.2⟩]
      show n - 1 = _
      omega
    · rw [if_neg fun h => hone h.1.2.2]
      omega
  · rw [if_neg huses, if_neg fun h => huses ⟨⟨h.1.1, h.1.2.1, ?_⟩, h.2⟩]
    · omega
    · exact lt_of_lt_of_le h.1.2.2 hle

/-- The frames seen within a smaller budget are a prefix of those seen within a larger
one. -/
lemma FramesFollow.shorter {step : Regset → Yield Regset Frame (Option Status)}
    {frames : ℕ → Frame} {n m b c : ℕ} {regs : Regset}
    {x : Option (Status × ℕ × (ℕ → Frame))} {y : Status × ℕ × (ℕ → Frame)} (hbc : b ≤ c)
    (hx : FramesFollow root frames n (unfold step b regs) x)
    (hy : FramesFollow root frames m (unfold step c regs) (some y)) :
    y.2.1 ≤ c + 1 ∧
      ∃ x', x = some x' ∧ x'.2.1 = min (b + 1) y.2.1 ∧ ∀ i < x'.2.1, x'.2.2 i = y.2.2 i := by
  have htake : (unfold step b regs).1 = (unfold step c regs).1.take b := unfold_take hbc regs
  cases hy with
  | @ends _ framesy hsty hrooty hframesy _ =>
      cases hx with
      | undefined hundefined =>
          rw [unfold_result_mono hbc hundefined] at hsty
          cases hsty
      | @ends _ framesx _ hrootx hframesx _ =>
          refine ⟨Nat.succ_le_succ (unfold_length_le step c regs), _, rfl, ?_, fun i hi => ?_⟩
          · show (unfold step b regs).1.length + 1 = min (b + 1) (_ + 1)
            rw [htake, List.length_take]
            omega
          · cases i with
            | zero => exact hrootx.trans hrooty.symm
            | succ i =>
                have hi' : i < (unfold step b regs).1.length := Nat.lt_of_succ_lt_succ hi
                have hi'' : i < (unfold step c regs).1.length := by
                  rw [htake, List.length_take] at hi'
                  omega
                show framesx (i + 1) = framesy (i + 1)
                rw [hframesx i hi', hframesy i hi'']
                simp only [htake, List.getElem_take]

/-- A capture with a smaller `max_frames` writes a prefix of what it would have written. -/
theorem capture_shorter {k' : Kernel} {calls' : List SysCall}
    (hk : FixedReader k req.pid req.tid calls st f)
    (hk' : FixedReader k' req.pid req.tid calls' st f) {res : CaptureResult}
    (hres : capture m ld k ctx req calls = some res) {n : ℕ} (hn : n ≤ req.maxFrames) :
    ∃ res', capture m ld k' ctx { req with maxFrames := n } calls' = some res' ∧
      res'.framesWritten = min n res.framesWritten ∧
      ∀ i < res'.framesWritten, res'.frames i = res.frames i := by
  by_cases hzero : n = 0
  · -- nothing is asked for, and nothing is written
    refine ⟨_, capture_refused m ld k' calls' fun _ _ _ h => h.maxFrames hzero, ?_,
      fun i hi => absurd hi (Nat.not_lt_zero i)⟩
    rw [hzero, Nat.zero_min]
    rfl
  have hwritten (r : CaptureResult) (h : res.framesWritten = 0) (h' : r.framesWritten = 0) :
      r.framesWritten = min n res.framesWritten ∧
        ∀ i < r.framesWritten, r.frames i = res.frames i := by
    rw [h, h', Nat.min_zero]
    exact ⟨rfl, fun i hi => absurd hi (Nat.not_lt_zero i)⟩
  cases capture_outcome hres with
  | refused hbad =>
      refine ⟨_, capture_refused m ld k' calls' fun path regs frames h => ?_, hwritten _ rfl rfl⟩
      exact hbad path regs frames ⟨h.modulePath, h.regs, h.frames, by omega, h.ready⟩
  | unloaded h hacquire =>
      have h' : Accepted ctx { req with maxFrames := n } _ _ _ :=
        ⟨h.modulePath, h.regs, h.frames, hzero, h.ready⟩
      exact ⟨_, capture_unloaded h' hacquire, hwritten _ rfl rfl⟩
  | @loaded path regs frames _ cache slot x h hacquire hx =>
      have h' : Accepted ctx { req with maxFrames := n } path regs frames :=
        ⟨h.modulePath, h.regs, h.frames, hzero, h.ready⟩
      have hcapture {y : Status × ℕ × (ℕ → Frame) × ReaderCtx}
          (hy : loadedFrames m k' ctx { req with maxFrames := n } calls' path regs frames
            (cache.entries slot).handle.index = some y) :
          capture m ld k' ctx { req with maxFrames := n } calls' =
            some (loadedResult k' ctx { req with maxFrames := n } calls' cache slot y) := by
        rw [capture_loaded h' hacquire, hy, Option.map_some]
      cases hroot : prepareRootFrame regs (frames 0) with
      | error st' =>
          obtain ⟨rctx, hx'⟩ := loadedFrames_error m k ctx req calls path
            (cache.entries slot).handle.index hroot
          obtain ⟨rctx', hy⟩ := loadedFrames_error m k' ctx { req with maxFrames := n } calls' path
            (cache.entries slot).handle.index hroot
          obtain rfl := Option.some.inj (hx.symm.trans hx')
          exact ⟨_, hcapture hy, hwritten _ rfl rfl⟩
      | ok root =>
          have hlong := loadedFrames_follow m ctx req path hk
            (cache.entries slot).handle.index h.maxFrames hroot
          have hshort := loadedFrames_follow m ctx { req with maxFrames := n } path hk'
            (cache.entries slot).handle.index hzero hroot
          rw [hx, Option.map_some] at hlong
          rw [stepBudget_maxFrames hn] at hshort
          obtain ⟨hroom, x', hx', hcount, hframes⟩ := hshort.shorter (min_le_right _ _) hlong
          obtain ⟨y, hy, rfl⟩ := Option.map_eq_some_iff.mp hx'
          refine ⟨_, hcapture hy, ?_, hframes⟩
          change x.2.1 ≤ _ at hroom
          change y.2.1 = min _ x.2.1 at hcount
          show y.2.1 = min n x.2.1
          omega

/-- A capture is undefined only if an iterate of the step within its budget is. -/
theorem capture_undefined (hk : FixedReader k req.pid req.tid calls st f)
    (hnone : capture m ld k ctx req calls = none) :
    ∃ path regs frames st₀ cache slot, Accepted ctx req path regs frames ∧
      moduleCacheAcquire ld ctx.moduleCache path = (st₀, cache, some slot) ∧
      ∃ i r, i + 1 < req.maxFrames ∧
        iterate (unwindStep m (cache.entries slot).handle.index (archFromRegset regs) path f) i
          regs = some r ∧
        unwindStep m (cache.entries slot).handle.index (archFromRegset regs) path f r =
          .stop none := by
  by_cases hgood : ∃ path regs frames, Accepted ctx req path regs frames
  swap
  · rw [capture_refused m ld k calls fun path regs frames h => hgood ⟨path, regs, frames, h⟩]
      at hnone
    cases hnone
  obtain ⟨path, regs, frames, h⟩ := hgood
  rcases hacquire : moduleCacheAcquire ld ctx.moduleCache path with ⟨st₀, cache, _ | slot⟩
  · rw [capture_unloaded h hacquire] at hnone
    cases hnone
  refine ⟨path, regs, frames, st₀, cache, slot, h, hacquire, ?_⟩
  rw [capture_loaded h hacquire, Option.map_eq_none_iff] at hnone
  cases hroot : prepareRootFrame regs (frames 0) with
  | error st' =>
      obtain ⟨rctx, hx⟩ := loadedFrames_error m k ctx req calls path
        (cache.entries slot).handle.index hroot
      rw [hx] at hnone
      cases hnone
  | ok root =>
      have hfollow := loadedFrames_follow m ctx req path hk
        (cache.entries slot).handle.index h.maxFrames hroot
      rw [hnone, Option.map_none] at hfollow
      have hlt := stepBudget_lt ctx st h.maxFrames
      cases hfollow with
      | undefined hundefined =>
          obtain ⟨r, hiter, hstep⟩ := unfold_result hundefined
          exact ⟨_, r, (Nat.succ_lt_succ (unfold_result_lt hundefined)).trans_le hlt, hiter, hstep⟩

/-- Over a reader that is a fixed function of the address a capture is a bounded iteration of
the step, and is consistent in its prefixes; it is undefined only if an iterate of the step
is. -/
theorem capture_iterates {k' : Kernel} {calls' : List SysCall}
    (hk : FixedReader k req.pid req.tid calls st f)
    (hk' : FixedReader k' req.pid req.tid calls' st f) :
    (∀ res, capture m ld k ctx req calls = some res →
      (∀ path regs frames st₀ cache slot root, Accepted ctx req path regs frames →
        moduleCacheAcquire ld ctx.moduleCache path = (st₀, cache, some slot) →
        prepareRootFrame regs (frames 0) = .ok root →
        Iterates (unwindStep m (cache.entries slot).handle.index (archFromRegset regs) path f)
          (UsesReader ctx req st) regs (root.withPath path) frames req.maxFrames res) ∧
      ∀ n ≤ req.maxFrames, ∃ res',
        capture m ld k' ctx { req with maxFrames := n } calls' = some res' ∧
        res'.framesWritten = min n res.framesWritten ∧
        ∀ i < res'.framesWritten, res'.frames i = res.frames i) ∧
    (capture m ld k ctx req calls = none →
      ∃ path regs frames st₀ cache slot, Accepted ctx req path regs frames ∧
        moduleCacheAcquire ld ctx.moduleCache path = (st₀, cache, some slot) ∧
        ∃ i r, i + 1 < req.maxFrames ∧
          iterate (unwindStep m (cache.entries slot).handle.index (archFromRegset regs) path f) i
            regs = some r ∧
          unwindStep m (cache.entries slot).handle.index (archFromRegset regs) path f r =
            .stop none) := by
  refine ⟨fun res hres => ⟨fun path regs frames st₀ cache slot root h hacquire hroot => ?_,
    fun n hn => capture_shorter hk hk' hres hn⟩, capture_undefined hk⟩
  rw [capture_loaded h hacquire] at hres
  obtain ⟨x, hx, rfl⟩ := Option.map_eq_some_iff.mp hres
  exact capture_iterated hk h hroot hx

end Capture

/-- The capture of a stack of two calls, with every smaller budget. -/
theorem capture_iterates_nested :
    ∃ res, capture nestedMem nestedLoader nestedKernel dwunwInit (nestedRequest 3) [] = some res ∧
      ∀ n ≤ 3, ∃ res',
        capture nestedMem nestedLoader nestedKernel dwunwInit (nestedRequest n) [] = some res' ∧
        res'.framesWritten = min n res.framesWritten ∧
        ∀ i < res'.framesWritten, res'.frames i = res.frames i := by
  have hdefined : (capture nestedMem nestedLoader nestedKernel dwunwInit (nestedRequest 3)
      []).isSome := by decide +kernel
  obtain ⟨res, hres⟩ := Option.isSome_iff_exists.mp hdefined
  exact ⟨res, hres,
    ((capture_iterates (nestedKernel_fixed []) (nestedKernel_fixed [])).1 res hres).2⟩

end Dwunw
