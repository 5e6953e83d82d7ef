import Dwunw.EarlyStop
import Dwunw.Cfi.Boundaries

/-!
The rows that callers are unwound with.

A return address is the address behind a call.  The call belongs to the function and to the row
of the address in front; `dwunw_capture` looks up the return address itself.

* `CallerStep`, `CallerStep.pc`: a step that starts from the return address of the step before.
* `CallerRowUsed`: the step uses the FDE and the row of the call; `CallerRowUsed.cfiEval`: it
  evaluates what a lookup of the call would.
* `ReturnsInside`, `callerRowUsed_iff`: a return address behind which neither changes.
* `capture_callerRows_iff`: all steps of a capture.
-/

namespace Dwunw

open Loop

variable {σ : Type} {m : ByteMem} {index : DwarfIndex} {reader : MemoryRead σ}
  {ops : Option ArchOps} {path : CString} {maxFrames : ℕ}

/-! ### One step -/

/-- The step from these variables uses the FDE and the row of the address in front of `ra`. -/
structure CallerRowUsed (m : ByteMem) (index : DwarfIndex) (t : CaptureLoop σ) (ra : UInt64) :
    Prop where
  fde : cfiFindFde index.fdes.records t.cursorRegs.pc = cfiFindFde index.fdes.records (ra - 1)
  row : ∀ i fde cie, cfiFindFde index.fdes.records t.cursorRegs.pc = some i →
    index.fdes.records[i]? = some fde → index.cies.deref fde.cie = some cie →
      rowSearch m cie fde t.cursorRegs.pc = rowSearch m cie fde (ra - 1)

/-- The return address is inside the first FDE that it borders on, if there is one, and none of
the rows of the FDE it is in starts there. -/
structure ReturnsInside (m : ByteMem) (index : DwarfIndex) (ra : UInt64) : Prop where
  fde : FindInside index.fdes.records ra
  row : ∀ i fde cie, cfiFindFde index.fdes.records ra = some i →
    index.fdes.records[i]? = some fde → index.cies.deref fde.cie = some cie →
      ¬ StartsRow m cie fde ra

/-- An address that is found with the one in front is not the first of all. -/
lemma ne_zero_of_found {fdes : List FdeRecord} {pc : UInt64} {i : ℕ}
    (h : cfiFindFde fdes (pc - 1) = some i) : pc ≠ 0 := by
  rintro rfl
  obtain ⟨fde, -, -, hlo, hhi⟩ := cfiFindFde_eq_some h
  obtain ⟨⟨hlt, -⟩, -⟩ := FdeRecord.covers_pred_iff.mp ⟨hlo, hhi⟩
  exact Nat.not_lt_zero _ hlt

/-- The return address is looked up like the call exactly when it is inside. -/
theorem callerRowUsed_iff {t : CaptureLoop σ} {ra : UInt64} (h : t.cursorRegs.pc = ra) :
    CallerRowUsed m index t ra ↔ ReturnsInside m index ra := by
  subst h
  constructor
  · intro hused
    refine ⟨cfiFindFde_pred_iff.mp hused.fde, fun i fde cie hfind hget hderef => ?_⟩
    have hpc := ne_zero_of_found (hused.fde.symm.trans hfind)
    exact (rowSearch_pred_iff hpc).mp (hused.row i fde cie hfind hget hderef)
  · intro hinside
    have hfde := cfiFindFde_pred_iff.mpr hinside.fde
    refine ⟨hfde, fun i fde cie hfind hget hderef => ?_⟩
    have hpc := ne_zero_of_found (hfde.symm.trans hfind)
    exact (rowSearch_pred_iff hpc).mpr (hinside.row i fde cie hfind hget hderef)

/-- Such a step evaluates the FDE as a step that starts from the call does. -/
theorem CallerRowUsed.cfiEval {t : CaptureLoop σ} {ra : UInt64} {i : ℕ} {fde : FdeRecord}
    {cie : CieRecord} (h : CallerRowUsed m index t ra)
    (hfind : cfiFindFde index.fdes.records t.cursorRegs.pc = some i)
    (hget : index.fdes.records[i]? = some fde) (hderef : index.cies.deref fde.cie = some cie)
    (regs : Regset) (ctx : σ) (frame : Frame) :
    Dwunw.cfiEval m cie fde t.cursorRegs.pc regs reader ctx frame =
      Dwunw.cfiEval m cie fde (ra - 1) regs reader ctx frame := by
  have hcovers {pc : UInt64} (hpc : cfiFindFde index.fdes.records pc = some i) :
      ¬ (pc < fde.pcBegin ∨ fde.pcBegin + fde.pcRange ≤ pc) := by
    obtain ⟨fde', hget', -, hlo, hhi⟩ := cfiFindFde_eq_some hpc
    cases hget.symm.trans hget'
    exact fun hnot => FdeRecord.not_covers_iff.mpr hnot ⟨hlo, hhi⟩
  have hrow := cfiRow_of_rowSearch (h.row i fde cie hfind hget hderef)
  rw [Dwunw.cfiEval, Dwunw.cfiEval, if_neg (hcovers hfind),
    if_neg (hcovers (h.fde.symm.trans hfind)), hrow]

/-! ### The return address of the step before -/

/-- No architecture changes the pc when it normalizes the registers. -/
lemma normalizeCursor_pc (regs regs' : Regset) :
    (normalizeCursor (archFromRegset regs) regs').pc = regs'.pc := by
  rw [archFromRegset, archResolve]
  split_ifs <;> rfl

/-- An evaluation that succeeds leaves the return address as the pc. -/
lemma cfiEval_pc {cie : CieRecord} {fde : FdeRecord} {pc : UInt64} {regs : Regset} {ctx : σ}
    {frame : Frame} {ev : EvalResult σ} (he : FailsWithError reader)
    (h : cfiEval m cie fde pc regs reader ctx frame = some ev) (hok : ev.status = .ok) :
    ev.regs.pc = ev.frame.ra := by
  cases cfiEval_evaluation he h with
  | outside _ => cases hok
  | noRow _ hst _ => exact absurd hok hst
  | applies _ _ _ hev =>
      cases hev with
      | noReturn hst _ => exact absurd hok hst
      | unread hst _ _ => exact absurd hok hst
      | applied _ _ => rfl

/-- A turn that goes on sets the cursor to the return address in the frame it writes. -/
lemma captureTurn_pc (he : FailsWithError reader) {regs : Regset} {t t' : CaptureLoop σ}
    (h : captureTurn m index reader (archFromRegset regs) path maxFrames t = .next t') :
    t'.cursorRegs.pc = (t'.frames t.produced).ra := by
  have hturn := captureTurn_turn m index reader (archFromRegset regs) path maxFrames t
  rw [h] at hturn
  cases hturn with
  | @advances i ev _ _ hev hst =>
      obtain ⟨fde, -, hev⟩ := Option.bind_eq_some_iff.mp hev
      obtain ⟨cie, -, hev⟩ := Option.bind_eq_some_iff.mp hev
      have hframe : (t.advance (archFromRegset regs) path ev).frames t.produced =
          ({ ev.frame with flags := ev.frame.flags &&& ~~~framePartial } : Frame).withPath path :=
        Function.update_self _ _ _
      rw [hframe]
      exact (normalizeCursor_pc regs ev.regs).trans (cfiEval_pc he hev hst)

/-! ### The capture -/

/-- A capture comes, over the index, to a step with these variables; the step before has
produced the return address. -/
inductive CallerStep (m : ByteMem) (ld : Loader) (k : Kernel) (ctx : Context)
    (req : UnwindRequest) (calls : List SysCall) :
    DwarfIndex → CaptureLoop ReaderCtx → UInt64 → Prop
  | intro {path : CString} {regs : Regset} {index : DwarfIndex} {s t t' : CaptureLoop ReaderCtx}
      (hs : LoopStart ld k ctx req calls path regs index s)
      (ht : Reaches (captureTurn m index (defaultStackReaderMem k) (archFromRegset regs) path
        req.maxFrames) s t)
      (hnext : captureTurn m index (defaultStackReaderMem k) (archFromRegset regs) path
        req.maxFrames t = .next t') (hmax : t'.produced < req.maxFrames) :
      CallerStep m ld k ctx req calls index t' (t'.frames t.produced).ra

/-- Every step of a capture that starts from a return address uses the FDE and the row of the
call. -/
def CallersUnwound (m : ByteMem) (ld : Loader) (k : Kernel) (ctx : Context)
    (req : UnwindRequest) (calls : List SysCall) : Prop :=
  ∀ index t ra, CallerStep m ld k ctx req calls index t ra → CallerRowUsed m index t ra

section Capture

variable {ld : Loader} {k : Kernel} {ctx : Context} {req : UnwindRequest}
  {calls : List SysCall}

/-- The step starts from the return address. -/
theorem CallerStep.pc {t : CaptureLoop ReaderCtx} {ra : UInt64}
    (h : CallerStep m ld k ctx req calls index t ra) : t.cursorRegs.pc = ra := by
  cases h with
  | intro _ _ hnext _ => exact captureTurn_pc (defaultStackReaderMem_ne_ok k) hnext

/-- A capture uses the FDE and the row of every call exactly when every return address it goes on
from is inside them. -/
theorem capture_callerRows_iff :
    CallersUnwound m ld k ctx req calls ↔
      ∀ index t ra, CallerStep m ld k ctx req calls index t ra → ReturnsInside m index ra :=
  forall_congr' fun _ => forall_congr' fun _ => forall_congr' fun _ =>
    forall_congr' fun hstep => callerRowUsed_iff hstep.pc

end Capture

/-! ### A call at the end of a function -/

/-- The memory of a thread whose function ends with the call it is in: the return address is
0x2000, the end of the range of `nestedFde`. -/
def noreturnStack : ByteMem :=
  memOf 0x7000 [0, 0x20, 0, 0, 0, 0, 0, 0, 0x30, 0x10, 0, 0, 0, 0, 0, 0]

/-- The kernel of `nestedKernel` for this thread. -/
def noreturnKernel : Kernel :=
  { nestedKernel with processVmReadv := fun _ _ a size => .copied (peek noreturnStack size a) }

/-- The program of `nestedCie`, and `DW_CFA_def_cfa_offset 16`. -/
def noreturnMem : ByteMem := memOf 0x5000 [0x0c, 7, 8, 0x90, 1, 0x0e, 16]

/-- The FDE of a function that starts at 0x2000. -/
def nextFde : FdeRecord := ⟨⟨some 0, 0⟩, 24, 0x2000, 0x1000, 0x5005, 2⟩

/-- The index of a module with both functions. -/
def noreturnIndex : DwarfIndex := { nestedIndex with fdes := ⟨some 1, [nestedFde, nextFde]⟩ }

def noreturnLoader : Loader := ⟨fun _ => .ok .zero, fun _ => .ok noreturnIndex⟩

/-- The variables with which the loop starts. -/
def noreturnStart : CaptureLoop ReaderCtx :=
  ⟨1, nestedRegs, Function.update (fun _ => ⟨0, 0, 0, 0, 0, []⟩) 0
      ⟨0x1010, 0x7000, 0x7000, 0x1010, framePartial, [0x61]⟩,
    ⟨(attachStep noreturnKernel nestedContext (nestedRequest 3) []).2.1,
      (attachStep noreturnKernel nestedContext (nestedRequest 3) []).2.2⟩⟩

/-- The first turn recovers the return address. -/
lemma noreturn_callerStep {ld : Loader}
    (hstart : LoopStart ld noreturnKernel nestedContext (nestedRequest 3) [] [0x61] nestedRegs
      index noreturnStart)
    (hturn : (match captureTurn m index (defaultStackReaderMem noreturnKernel)
        (archFromRegset nestedRegs) [0x61] 3 noreturnStart with
      | .next t => decide (t.produced = 2 ∧ (t.frames 1).ra = 0x2000)
      | .done _ => false) = true) :
    ∃ t, CallerStep m ld noreturnKernel nestedContext (nestedRequest 3) [] index t 0x2000 := by
  split at hturn
  · next t hnext =>
      obtain ⟨hproduced, hra⟩ := of_decide_eq_true hturn
      have hmax : t.produced < (nestedRequest 3).maxFrames := by
        rw [hproduced]
        decide
      exact ⟨t, hra ▸ .intro hstart (.refl _) hnext hmax⟩
  · cases hturn

lemma noreturn_start {ld : Loader} {st : Status} {cache : ModuleCache} {slot : Slot}
    (hacquire : moduleCacheAcquire ld moduleCacheInit [0x61] = (st, cache, some slot))
    (hindex : (cache.entries slot).handle.index = index) :
    LoopStart ld noreturnKernel nestedContext (nestedRequest 3) [] [0x61] nestedRegs index
      noreturnStart := by
  subst hindex
  have hroot : prepareRootFrame nestedRegs ⟨0, 0, 0, 0, 0, []⟩ =
      .ok ⟨0x1010, 0x7000, 0x7000, 0x1010, framePartial, []⟩ := rfl
  have hreader : UsesReader nestedContext (nestedRequest 3)
      (attachStep noreturnKernel nestedContext (nestedRequest 3) []).1 := by decide +kernel
  exact .intro ⟨rfl, rfl, rfl, show 3 ≠ 0 by decide, rfl⟩ hacquire hroot hreader

/-- A return address that is the first byte behind its function is looked up in the next one, or in
none. -/
theorem noreturnCall_misattributed :
    (∃ res, capture noreturnMem noreturnLoader noreturnKernel nestedContext (nestedRequest 3) [] =
        some res ∧ (res.frames 1).ra = 0x2000 ∧ (res.frames 2).cfa = 0x7010) ∧
    (cfiFindFde noreturnIndex.fdes.records 0x2000 = some 1 ∧
      cfiFindFde noreturnIndex.fdes.records 0x1fff = some 0 ∧
      ¬ CallersUnwound noreturnMem noreturnLoader noreturnKernel nestedContext
        (nestedRequest 3) []) ∧
    (cfiFindFde nestedIndex.fdes.records 0x2000 = none ∧
      cfiFindFde nestedIndex.fdes.records 0x1fff = some 0 ∧
      ¬ CallersUnwound nestedMem nestedLoader noreturnKernel nestedContext
        (nestedRequest 3) []) := by
  have hrun : (capture noreturnMem noreturnLoader noreturnKernel nestedContext (nestedRequest 3)
      []).any fun res => decide ((res.frames 1).ra = 0x2000 ∧ (res.frames 2).cfa = 0x7010) := by
    decide +kernel
  obtain ⟨res, hres, hframes⟩ := (Option.any_eq_true _ _).mp hrun
  have hnext : LoopStart noreturnLoader noreturnKernel nestedContext (nestedRequest 3) [] [0x61]
      nestedRegs noreturnIndex noreturnStart := noreturn_start rfl rfl
  have hnone : LoopStart nestedLoader noreturnKernel nestedContext (nestedRequest 3) [] [0x61]
      nestedRegs nestedIndex noreturnStart := noreturn_start rfl rfl
  refine ⟨⟨res, hres, of_decide_eq_true hframes⟩,
    ⟨by decide +kernel, by decide +kernel, fun h => ?_⟩,
    ⟨by decide +kernel, by decide +kernel, fun h => ?_⟩⟩
  · obtain ⟨t, ht⟩ := noreturn_callerStep (m := noreturnMem) hnext (by decide +kernel)
    have hsame := (h _ t _ ht).fde
    rw [ht.pc] at hsame
    exact absurd hsame (by decide +kernel)
  · obtain ⟨t, ht⟩ := noreturn_callerStep (m := nestedMem) hnone (by decide +kernel)
    have hsame := (h _ t _ ht).fde
    rw [ht.pc] at hsame
    exact absurd hsame (by decide +kernel)

end Dwunw
