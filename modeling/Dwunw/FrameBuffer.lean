import Dwunw.EarlyStop
import Dwunw.Iteration

/-!
What a capture leaves in the frame buffer behind the frames it has written.

An evaluation writes the frame, and overwrites the registers, while it is still reading.

* `TurnReadable`: an evaluation of the unwinding loop that can read all it has to.
* `captureLoop_keeps`: such a loop leaves the rest of the buffer alone.
* `captureLoop_rebuffered`: the loop goes the same way over any buffer.
* `capture_bufferKept_iff`: a capture leaves the rest of the buffer alone exactly when all its
  evaluations can read what they have to.
* `evaluation_atomic_iff`: this, together with what it rests on, for a single evaluation.
-/

namespace Dwunw

open Loop

variable {σ : Type} {m : ByteMem} {index : DwarfIndex} {reader : MemoryRead σ}
  {ops : Option ArchOps} {path : CString} {maxFrames : ℕ}

/-! ### The loop -/

/-- The FDE that is found for the cursor has its saved registers where they can be read. -/
def TurnReadable (m : ByteMem) (index : DwarfIndex) (reader : MemoryRead σ)
    (s : CaptureLoop σ) : Prop :=
  ∀ i fde cie, cfiFindFde index.fdes.records s.cursorRegs.pc = some i →
    index.fdes.records[i]? = some fde → index.cies.deref fde.cie = some cie →
      SavedRegsReadable m cie fde s.cursorRegs.pc s.cursorRegs reader s.ctx

lemma turnEval_eq_some {s : CaptureLoop σ} {i : ℕ} {ev : EvalResult σ} :
    turnEval m index reader s i = some ev ↔
      ∃ fde cie, index.fdes.records[i]? = some fde ∧ index.cies.deref fde.cie = some cie ∧
        cfiEval m cie fde s.cursorRegs.pc s.cursorRegs reader s.ctx (s.frames s.produced) =
          some ev := by
  rw [turnEval, Option.bind_eq_some_iff]
  simp only [Option.bind_eq_some_iff]
  grind

lemma TurnReadable.frame_eq (he : FailsWithError reader) {s : CaptureLoop σ}
    (h : TurnReadable m index reader s) {i : ℕ} {ev : EvalResult σ}
    (hfind : cfiFindFde index.fdes.records s.cursorRegs.pc = some i)
    (hev : turnEval m index reader s i = some ev) (hst : ev.status ≠ .ok) :
    ev.frame = s.frames s.produced := by
  obtain ⟨fde, cie, hget, hderef, hev⟩ := turnEval_eq_some.mp hev
  exact ((evalAtomic_iff he).mpr (h i fde cie hfind hget hderef) _ ev hev hst).2

/-- The buffer behind the frames counted is as it was. -/
def CaptureLoop.RestIs (frames : ℕ → Frame) (s : CaptureLoop σ) : Prop :=
  ∀ i, s.produced ≤ i → s.frames i = frames i

lemma CaptureLoop.RestIs.reaches {frames : ℕ → Frame} {s t : CaptureLoop σ}
    (hs : s.RestIs frames) (h : Reaches (captureTurn m index reader ops path maxFrames) s t) :
    t.RestIs frames := by
  refine h.invariant (fun u u' hu hnext => ?_) hs
  have hturn := captureTurn_turn m index reader ops path maxFrames u
  rw [hnext] at hturn
  cases hturn with
  | advances _ _ _ _ =>
      intro i hi
      have hlt : u.produced < i := hi
      exact (Function.update_of_ne hlt.ne' _ _).trans (hu i hlt.le)

/-- A loop whose evaluations can read what they have to leaves the rest of the buffer alone. -/
theorem captureLoop_keeps (he : FailsWithError reader) {frames : ℕ → Frame}
    {s s' : CaptureLoop σ} {st : Status} (hs : s.RestIs frames)
    (h : Ends (captureTurn m index reader ops path maxFrames) s (some (st, s')))
    (hread : ∀ t, Reaches (captureTurn m index reader ops path maxFrames) s t →
      t.produced < maxFrames → TurnReadable m index reader t) : s'.RestIs frames := by
  obtain ⟨t, ht, hdone⟩ := ends_iff_reaches.mp h
  have hrest := hs.reaches ht
  have hturn := captureTurn_turn m index reader ops path maxFrames t
  rw [hdone] at hturn
  cases hturn with
  | full _ => exact hrest
  | uncovered _ _ => exact hrest
  | @failed _ ev hmax hfind hev hst =>
      have hframe := (hread t ht hmax).frame_eq he hfind hev hst
      have hsame : (t.failed ev).frames = t.frames := by
        rw [CaptureLoop.failed, hframe]
        exact Function.update_eq_self _ _
      intro i hi
      rw [hsame]
      exact hrest i hi

/-- The loop goes the same way over any buffer. -/
lemma captureLoop_rebuffered (he : FailsWithError reader) {s t u : CaptureLoop σ}
    (h : Reaches (captureTurn m index reader ops path maxFrames) s t)
    (hu : u.produced = s.produced ∧ u.cursorRegs = s.cursorRegs ∧ u.ctx = s.ctx) :
    ∃ v, Reaches (captureTurn m index reader ops path maxFrames) u v ∧
      v.produced = t.produced ∧ v.cursorRegs = t.cursorRegs ∧ v.ctx = t.ctx := by
  induction h generalizing u with
  | refl s => exact ⟨u, .refl u, hu⟩
  | @head s s' t hnext _ ih =>
      obtain ⟨hproduced, hregs, hctx⟩ := hu
      have hturn := captureTurn_turn m index reader ops path maxFrames s
      rw [hnext] at hturn
      cases hturn with
      | @advances i ev hmax hfind hev hst =>
          have hrel := turnEval_frame m index he s u hregs.symm hctx.symm i hfind
          rw [hev] at hrel
          obtain ⟨ev', hev', hsame⟩ : ∃ ev', turnEval m index reader u i = some ev' ∧
              SameButFrame ev ev' := by
            generalize turnEval m index reader u i = x at hrel ⊢
            cases hrel with
            | some h => exact ⟨_, rfl, h⟩
          have hnext' : captureTurn m index reader ops path maxFrames u =
              .next (u.advance ops path ev') := by
            rw [captureTurn_eval ops path (hproduced ▸ hmax) (hregs ▸ hfind) hev',
              if_neg (not_not.mpr (hsame.status.symm.trans hst))]
          obtain ⟨v, hv, hsim⟩ := ih (u := u.advance ops path ev')
            ⟨congrArg (· + 1) hproduced, congrArg (normalizeCursor ops) hsame.regs.symm,
              hsame.ctx.symm⟩
          exact ⟨v, .head hnext' hv, hsim⟩

/-- The loop runs to its end within its fuel. -/
lemma captureLoop_of_ends {s : CaptureLoop σ} {r : CaptureEnd σ}
    (h : Ends (captureTurn m index reader ops path maxFrames) s r) :
    captureLoop m index reader ops path maxFrames s = r := by
  have hvariant (t t' : CaptureLoop σ)
      (hnext : captureTurn m index reader ops path maxFrames t = .next t') :
      maxFrames - t'.produced < maxFrames - t.produced := by
    have hturn := captureTurn_turn m index reader ops path maxFrames t
    rw [hnext] at hturn
    cases hturn with
    | advances hmax _ _ _ =>
        show maxFrames - (t.produced + 1) < maxFrames - t.produced
        omega
  obtain ⟨r', hr⟩ := run_of_variant (I := fun _ => True)
    (μ := fun t : CaptureLoop σ => maxFrames - t.produced)
    (fun t t' _ hnext => ⟨trivial, hvariant t t' hnext⟩) trivial (Nat.lt_succ_self _)
  rw [captureLoop, hr, Option.getD_some]
  exact (ends_of_run hr).unique h

/-! ### The capture -/

section Capture

variable {ld : Loader} {k : Kernel} {ctx : Context} {req : UnwindRequest}
  {calls : List SysCall} {regs : Regset}

/-- The request with another frame buffer. -/
def UnwindRequest.withFrames (req : UnwindRequest) (frames : ℕ → Frame) : UnwindRequest :=
  { req with frames := some frames }

/-- Whatever the frame buffer holds: the capture leaves it alone behind the frames it has
counted. -/
def BufferKept (m : ByteMem) (ld : Loader) (k : Kernel) (ctx : Context) (req : UnwindRequest)
    (calls : List SysCall) : Prop :=
  ∀ frames res, capture m ld k ctx (req.withFrames frames) calls = some res →
    ∀ i, res.framesWritten ≤ i → res.frames i = frames i

/-- Whatever the frame buffer holds: the evaluations of the capture find the saved registers
where they can be read. -/
def RegistersReadable (m : ByteMem) (ld : Loader) (k : Kernel) (ctx : Context)
    (req : UnwindRequest) (calls : List SysCall) : Prop :=
  ∀ frames path regs index s,
    LoopStart ld k ctx (req.withFrames frames) calls path regs index s →
      ∀ t, Reaches (captureTurn m index (defaultStackReaderMem k) (archFromRegset regs) path
          req.maxFrames) s t →
        t.produced < req.maxFrames → TurnReadable m index (defaultStackReaderMem k) t

lemma exists_prepareRootFrame {frame root : Frame} (h : prepareRootFrame regs frame = .ok root)
    (frame' : Frame) : ∃ root', prepareRootFrame regs frame' = .ok root' := by
  simp only [prepareRootFrame, bind, Except.bind] at h ⊢
  repeat' split at h
  all_goals cases h
  all_goals simp_all

/-- A capture that enters the loop over one buffer enters it over every buffer. -/
lemma LoopStart.rebuffered {frames : ℕ → Frame} {s : CaptureLoop ReaderCtx}
    (h : LoopStart ld k ctx (req.withFrames frames) calls path regs index s)
    (frames' : ℕ → Frame) :
    ∃ s', LoopStart ld k ctx (req.withFrames frames') calls path regs index s' ∧
      s'.RestIs frames' ∧
      s'.produced = s.produced ∧ s'.cursorRegs = s.cursorRegs ∧ s'.ctx = s.ctx := by
  obtain ⟨hacc, hacquire, hroot, hreader⟩ := h
  obtain ⟨root', hroot'⟩ := exists_prepareRootFrame hroot (frames' 0)
  have hacc' : Accepted ctx (req.withFrames frames') path regs frames' :=
    ⟨hacc.modulePath, hacc.regs, rfl, hacc.maxFrames, hacc.ready⟩
  refine ⟨_, .intro hacc' hacquire hroot' hreader, fun i hi => ?_, rfl, rfl, rfl⟩
  have hlt : 1 ≤ i := hi
  exact Function.update_of_ne (by omega) _ _

lemma LoopStart.restIs {frames : ℕ → Frame} {s : CaptureLoop ReaderCtx}
    (h : LoopStart ld k ctx (req.withFrames frames) calls path regs index s) :
    s.RestIs frames := by
  obtain ⟨hacc, -, -, -⟩ := h
  cases hacc.frames
  intro i hi
  have hlt : 1 ≤ i := hi
  exact Function.update_of_ne (by omega) _ _

/-- A capture returns what its loop ends with. -/
lemma LoopStart.returns {s s' : CaptureLoop ReaderCtx} {st : Status}
    (hs : LoopStart ld k ctx req calls path regs index s)
    (h : Ends (captureTurn m index (defaultStackReaderMem k) (archFromRegset regs) path
      req.maxFrames) s (some (st, s'))) :
    ∃ res, capture m ld k ctx req calls = some res ∧ res.framesWritten = s'.produced ∧
      res.frames = s'.frames := by
  have hsome : (capture m ld k ctx req calls).isSome := by
    obtain ⟨hacc, hacquire, hroot, hreader⟩ := hs
    rw [capture_loaded hacc hacquire, loadedFrames, readerStep, if_pos hreader, captureFrames,
      hroot, Option.isSome_map]
    dsimp only
    split_ifs
    · rw [captureLoop_of_ends h]
      rfl
    · rfl
  obtain ⟨res, hres⟩ := Option.isSome_iff_exists.mp hsome
  obtain ⟨_, _, hends, hwritten, hframes⟩ := hs.ends hres
  cases hends.unique h
  exact ⟨res, hres, hwritten, hframes⟩

/-- A capture that does not enter the loop writes frame 0 at most. -/
lemma capture_rest {frames : ℕ → Frame} {res : CaptureResult}
    (hno : ∀ path regs index s,
      ¬ LoopStart ld k ctx (req.withFrames frames) calls path regs index s)
    (h : capture m ld k ctx (req.withFrames frames) calls = some res) {i : ℕ}
    (hi : res.framesWritten ≤ i) : res.frames i = frames i := by
  cases capture_outcome h with
  | refused _ => rfl
  | unloaded hacc _ =>
      cases hacc.frames
      rfl
  | @loaded path regs _ st cache slot x hacc hacquire hx =>
      cases hacc.frames
      rw [loadedFrames, captureFrames] at hx
      cases hroot : prepareRootFrame regs (frames 0) with
      | error st =>
          rw [hroot] at hx
          cases hx
          rfl
      | ok root =>
          have hreader : ¬ UsesReader ctx (req.withFrames frames)
              (attachStep k ctx (req.withFrames frames) calls).1 :=
            fun hreader => hno _ _ _ _ (.intro hacc hacquire hroot hreader)
          rw [hroot, readerStep, if_neg hreader] at hx
          cases hx
          have hlt : 1 ≤ i := hi
          exact Function.update_of_ne (by omega) _ _

/-- A capture leaves the frame buffer alone behind the frames it has counted exactly when all
its evaluations can read the registers that have been saved. -/
theorem capture_bufferKept_iff :
    BufferKept m ld k ctx req calls ↔ RegistersReadable m ld k ctx req calls := by
  have he : FailsWithError (defaultStackReaderMem k) := defaultStackReaderMem_ne_ok k
  constructor
  · intro hkept frames path regs index s hs t ht hmax i fde cie hfind hget hderef
    -- the same loop over a buffer of frames that are marked
    let marked : Frame := ⟨0, 0, 0, 0, 1, []⟩
    obtain ⟨s', hs', hrest, hsame⟩ := hs.rebuffered fun _ => marked
    obtain ⟨t', ht', hproduced, hregs, hctx⟩ := captureLoop_rebuffered he ht hsame
    have hmarked : t'.frames t'.produced = marked := hrest.reaches ht' _ le_rfl
    refine savedRegsReadable_of_frame he marked (show (1 : UInt32) ≠ 0 by decide)
      fun ev hev hst => ?_
    have hev' : turnEval m index (defaultStackReaderMem k) t' i = some ev := by
      rw [turnEval_eq_some, hmarked, hregs, hctx]
      exact ⟨fde, cie, hget, hderef, hev⟩
    have hdone : captureTurn m index (defaultStackReaderMem k) (archFromRegset regs) path
        req.maxFrames t' = .done (some (ev.status, t'.failed ev)) := by
      rw [captureTurn_eval _ path (hproduced ▸ hmax) (hregs ▸ hfind) hev', if_pos hst]
    obtain ⟨res, hres, hwritten, hframes⟩ := hs'.returns (ends_iff_reaches.mpr ⟨t', ht', hdone⟩)
    have hlast := hkept _ res hres t'.produced (le_of_eq hwritten)
    rw [hframes] at hlast
    exact (Function.update_self _ _ _).symm.trans hlast
  · intro hread frames res h i hi
    by_cases hstart : ∃ path regs index s,
        LoopStart ld k ctx (req.withFrames frames) calls path regs index s
    · obtain ⟨path, regs, index, s, hs⟩ := hstart
      obtain ⟨_, s', hends, hwritten, hframes⟩ := hs.ends h
      rw [hframes]
      exact captureLoop_keeps he hs.restIs hends (hread frames path regs index s hs) i
        (hwritten ▸ hi)
    · exact capture_rest (fun path regs index s hs => hstart ⟨path, regs, index, s, hs⟩) h hi

/-- An evaluation that fails leaves the registers and the frame as they were exactly when no
saved register is what it fails at, and so does a capture with the rest of its buffer. -/
theorem evaluation_atomic_iff {m' : ByteMem} {cie : CieRecord} {fde : FdeRecord} {pc : UInt64}
    {rctx : σ} (he : FailsWithError reader) :
    (EvalAtomic m' cie fde pc regs reader rctx ↔
      SavedRegsReadable m' cie fde pc regs reader rctx) ∧
    (BufferKept m ld k ctx req calls ↔ RegistersReadable m ld k ctx req calls) :=
  ⟨evalAtomic_iff he, capture_bufferKept_iff⟩

end Capture

/-! ### A stack with a word that cannot be read -/

/-- Every word of the stack is its own address, but the one at 0x7008 cannot be read. -/
def holeAt7008 (_ : Unit) (a : UInt64) : Except Status UInt64 × Unit :=
  (if a = 0x7008 then .error .io else .ok a, ())

/-- The second read fails when the frame and one register are written. -/
theorem savedFde_halfChanged :
    FailsWithError holeAt7008 ∧
    (∃ ev, cfiEval savedMem savedCie savedFde 0x1010 savedRegs holeAt7008 () .zero = some ev ∧
      ev.status = .io ∧ savedRegs.regs 3 = 5 ∧ ev.regs.regs 3 = 0x7010 ∧
      ev.frame.pc = 0x7018) ∧
    ¬ EvalAtomic savedMem savedCie savedFde 0x1010 savedRegs holeAt7008 () := by
  have hrun : (cfiEval savedMem savedCie savedFde 0x1010 savedRegs holeAt7008 () .zero).any
      fun ev => decide (ev.status = .io ∧ ev.regs.regs 3 = 0x7010 ∧ ev.frame.pc = 0x7018) := by
    decide +kernel
  obtain ⟨ev, hev, hresult⟩ := (Option.any_eq_true _ _).mp hrun
  obtain ⟨hst, hr3, hpc⟩ := of_decide_eq_true hresult
  refine ⟨fun c a => ?_, ⟨ev, hev, hst, rfl, hr3, hpc⟩, fun hatomic => ?_⟩
  · rw [holeAt7008]
    split_ifs <;> simp
  · have hframe := (hatomic .zero ev hev (by rw [hst]; decide)).2
    rw [hframe] at hpc
    exact absurd hpc (by decide)

/-- When both reads succeed all is written. -/
theorem savedFde_atomic :
    EvalAtomic savedMem savedCie savedFde 0x1010 savedRegs ownAddress () ∧
    (BufferKept nestedMem nestedLoader nestedKernel nestedContext (nestedRequest 3) [] ↔
      RegistersReadable nestedMem nestedLoader nestedKernel nestedContext (nestedRequest 3)
        []) := by
  obtain ⟨heval, hcapture⟩ := evaluation_atomic_iff (m := nestedMem)
    (failsWithError_of_total ownAddress_total)
  exact ⟨heval.mpr (savedRegsReadable_of_total ownAddress_total), hcapture⟩

end Dwunw
