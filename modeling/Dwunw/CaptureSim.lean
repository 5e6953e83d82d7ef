import Dwunw.Recovery

/-!
Captures over two memory readers that return the same.

A reader carries a context from read to read.  Two readers whose contexts are related and
that return the same at every address, leaving related contexts, cannot be told apart by
anything between acquire and release.

* `Simulates`: such readers.
* `cfiEval_rel`, `captureTurn_rel`, `captureLoop_rel`, `captureFrames_rel`: they come out
  alike at every level of the unwinder.
* `FixedReader`: on a kernel an attach has a given outcome, and the default reader is a
  fixed function of the address from then on.
* `captureFrames_fixed`: the frames that a capture unwinds are then those that are unwound
  with that function.
-/

namespace Dwunw

open Loop

variable {σ σ' : Type} {R : σ → σ' → Prop} {reader : MemoryRead σ} {reader' : MemoryRead σ'}

/-- From related contexts the readers return the same and leave related contexts. -/
def Simulates (R : σ → σ' → Prop) (reader : MemoryRead σ) (reader' : MemoryRead σ') : Prop :=
  ∀ ctx ctx' a, R ctx ctx' →
    (reader ctx a).1 = (reader' ctx' a).1 ∧ R (reader ctx a).2 (reader' ctx' a).2

/-- Pairs of equal values and related contexts. -/
def SameThen {α : Type} (R : σ → σ' → Prop) (x : α × σ) (x' : α × σ') : Prop :=
  x.1 = x'.1 ∧ R x.2 x'.2

/-! ### One evaluation -/

section Eval

variable {ctx : σ} {ctx' : σ'}

lemma applyRule_rel (hsim : Simulates R reader reader') (hctx : R ctx ctx') (kind : RuleKind)
    (offset : Int64) (cfa : UInt64) :
    SameThen R (applyRule kind offset cfa reader ctx) (applyRule kind offset cfa reader' ctx') := by
  cases kind with
  | offset => exact hsim ctx ctx' _ hctx
  | sameValue => exact ⟨rfl, hctx⟩
  | undefined => exact ⟨rfl, hctx⟩

lemma returnAddress_rel (hsim : Simulates R reader reader') (hctx : R ctx ctx') (row : CfaState)
    (reg : Fin regsetSlots) (cfa : UInt64) (regs : Regset) :
    SameThen R (returnAddress row reg cfa regs reader ctx)
      (returnAddress row reg cfa regs reader' ctx') := by
  rw [returnAddress, returnAddress]
  cases (row.regs reg).kind with
  | sameValue => exact ⟨rfl, hctx⟩
  | offset => exact applyRule_rel hsim hctx _ _ _
  | undefined => exact ⟨rfl, hctx⟩

/-- The updated registers are the same, and the contexts stay related. -/
def SameUpdate (R : σ → σ' → Prop) (x : Status × Regset × σ) (x' : Status × Regset × σ') :
    Prop :=
  x.1 = x'.1 ∧ x.2.1 = x'.2.1 ∧ R x.2.2 x'.2.2

lemma updateRegs_rel (hsim : Simulates R reader reader') (row : CfaState) (cfa : UInt64)
    (slots : List (Fin regsetSlots)) (regs : Regset) {ctx : σ} {ctx' : σ'} (hctx : R ctx ctx') :
    SameUpdate R (updateRegs row cfa reader slots regs ctx)
      (updateRegs row cfa reader' slots regs ctx') := by
  induction slots generalizing regs ctx ctx' with
  | nil => exact ⟨rfl, rfl, hctx⟩
  | cons i slots ih =>
      rw [updateRegs, updateRegs]
      cases (row.regs i).kind with
      | sameValue => exact ih regs hctx
      | undefined => exact ih _ hctx
      | offset =>
          have hrule := applyRule_rel hsim hctx .offset (row.regs i).offset cfa
          dsimp only
          generalize applyRule .offset (row.regs i).offset cfa reader ctx = x at hrule ⊢
          generalize applyRule .offset (row.regs i).offset cfa reader' ctx' = x' at hrule ⊢
          obtain ⟨r, c⟩ := x
          obtain ⟨r', c'⟩ := x'
          obtain ⟨heq, hc⟩ := hrule
          obtain rfl : r = r' := heq
          cases r with
          | error st => exact ⟨rfl, rfl, hc⟩
          | ok v => exact ih _ hc

/-- The evaluations come out the same, and the contexts stay related. -/
structure SameEval (R : σ → σ' → Prop) (ev : EvalResult σ) (ev' : EvalResult σ') : Prop where
  status : ev.status = ev'.status
  regs : ev.regs = ev'.regs
  frame : ev.frame = ev'.frame
  ctx : R ev.ctx ev'.ctx

lemma applyRow_rel (hsim : Simulates R reader reader') (hctx : R ctx ctx') (row : CfaState)
    (reg : Fin regsetSlots) (regs : Regset) (frame : Frame) :
    SameEval R (applyRow row reg regs reader ctx frame)
      (applyRow row reg regs reader' ctx' frame) := by
  rw [applyRow, applyRow]
  generalize regValue regs row.cfaReg + row.cfaOffset.toUInt64 = cfa
  dsimp only
  have hra := returnAddress_rel hsim hctx row reg cfa regs
  generalize returnAddress row reg cfa regs reader ctx = x at hra ⊢
  generalize returnAddress row reg cfa regs reader' ctx' = x' at hra ⊢
  obtain ⟨r, c⟩ := x
  obtain ⟨r', c'⟩ := x'
  obtain ⟨heq, hc⟩ := hra
  obtain rfl : r = r' := heq
  cases r with
  | error st => exact ⟨rfl, rfl, rfl, hc⟩
  | ok ra =>
      dsimp only
      have hup := updateRegs_rel hsim row cfa (List.finRange regsetSlots) regs hc
      generalize updateRegs row cfa reader (List.finRange regsetSlots) regs c = x at hup ⊢
      generalize updateRegs row cfa reader' (List.finRange regsetSlots) regs c' = x' at hup ⊢
      obtain ⟨st, regs₁, c₁⟩ := x
      obtain ⟨st', regs₁', c₁'⟩ := x'
      obtain ⟨hst, hregs, hc₁⟩ := hup
      obtain rfl : st = st' := hst
      obtain rfl : regs₁ = regs₁' := hregs
      cases st <;> exact ⟨rfl, rfl, rfl, hc₁⟩

/-- Two readers that are in step evaluate a row alike. -/
theorem cfiEval_rel (hsim : Simulates R reader reader') (hctx : R ctx ctx') (m : ByteMem)
    (cie : CieRecord) (fde : FdeRecord) (pc : UInt64) (regs : Regset) (frame : Frame) :
    Option.Rel (SameEval R) (cfiEval m cie fde pc regs reader ctx frame)
      (cfiEval m cie fde pc regs reader' ctx' frame) := by
  rw [cfiEval, cfiEval]
  by_cases hpc : pc < fde.pcBegin ∨ fde.pcBegin + fde.pcRange ≤ pc
  · rw [if_pos hpc, if_pos hpc]
    exact .some ⟨rfl, rfl, rfl, hctx⟩
  rw [if_neg hpc, if_neg hpc]
  cases cfiRow m cie fde pc with
  | error st => exact .some ⟨rfl, rfl, rfl, hctx⟩
  | ok row =>
      dsimp only
      by_cases hreg : cie.returnReg.toNat < regsetSlots
      · rw [dif_pos hreg, dif_pos hreg]
        exact .some (applyRow_rel hsim hctx row _ regs frame)
      · rw [dif_neg hreg, dif_neg hreg]
        exact .none

end Eval

/-! ### The loop -/

/-- The variables of two loops are the same, and their contexts are related. -/
structure SameLoop (R : σ → σ' → Prop) (s : CaptureLoop σ) (s' : CaptureLoop σ') : Prop where
  produced : s.produced = s'.produced
  cursorRegs : s.cursorRegs = s'.cursorRegs
  frames : s.frames = s'.frames
  ctx : R s.ctx s'.ctx

/-- Two loops end with the same status and the same variables, or are both undefined. -/
abbrev SameEnd (R : σ → σ' → Prop) : CaptureEnd σ → CaptureEnd σ' → Prop :=
  Option.Rel fun e e' => e.1 = e'.1 ∧ SameLoop R e.2 e'.2

lemma turnEval_rel (hsim : Simulates R reader reader') (m : ByteMem) (index : DwarfIndex)
    {s : CaptureLoop σ} {s' : CaptureLoop σ'} (hs : SameLoop R s s') (i : ℕ) :
    Option.Rel (SameEval R) (turnEval m index reader s i) (turnEval m index reader' s' i) := by
  rw [turnEval, turnEval, hs.produced, hs.cursorRegs, hs.frames]
  cases index.fdes.records[i]? with
  | none => exact .none
  | some fde =>
      rw [Option.bind_some, Option.bind_some]
      cases index.cies.deref fde.cie with
      | none => exact .none
      | some cie => exact cfiEval_rel hsim hs.ctx m cie fde _ _ _

/-- They are in step after a turn of the loop. -/
theorem captureTurn_rel (hsim : Simulates R reader reader') (m : ByteMem) (index : DwarfIndex)
    (ops : Option ArchOps) (path : CString) (maxFrames : ℕ) {s : CaptureLoop σ}
    {s' : CaptureLoop σ'} (hs : SameLoop R s s') :
    Turn.Rel (SameLoop R) (SameEnd R) (captureTurn m index reader ops path maxFrames s)
      (captureTurn m index reader' ops path maxFrames s') := by
  by_cases hmax : s.produced < maxFrames
  swap
  · rw [captureTurn, captureTurn, ← hs.produced, if_neg hmax, if_neg hmax]
    exact .done (.some ⟨rfl, hs⟩)
  have hmax' : s'.produced < maxFrames := hs.produced ▸ hmax
  cases hfind : cfiFindFde index.fdes.records s.cursorRegs.pc with
  | none =>
      have hfind' := hfind
      rw [hs.cursorRegs] at hfind'
      rw [captureTurn, captureTurn, if_pos hmax, if_pos hmax', hfind, hfind']
      exact .done (.some ⟨rfl, hs⟩)
  | some i =>
      have hfind' := hfind
      rw [hs.cursorRegs] at hfind'
      have hev := turnEval_rel hsim m index hs i
      cases hl : turnEval m index reader s i with
      | none =>
          rw [hl] at hev
          cases hr : turnEval m index reader' s' i with
          | some ev' =>
              rw [hr] at hev
              cases hev
          | none =>
              rw [captureTurn_undefined ops path hmax hfind hl,
                captureTurn_undefined ops path hmax' hfind' hr]
              exact .done .none
      | some ev =>
          rw [hl] at hev
          cases hr : turnEval m index reader' s' i with
          | none =>
              rw [hr] at hev
              cases hev
          | some ev' =>
              rw [hr] at hev
              obtain ⟨hev⟩ := hev
              rw [captureTurn_eval ops path hmax hfind hl,
                captureTurn_eval ops path hmax' hfind' hr, ← hev.status]
              by_cases hst : ev.status ≠ .ok
              · rw [if_pos hst, if_pos hst]
                refine .done (.some ⟨rfl, hs.produced, hev.regs, ?_, hev.ctx⟩)
                show Function.update _ _ _ = Function.update _ _ _
                rw [hs.produced, hs.frames, hev.frame]
              · rw [if_neg hst, if_neg hst]
                refine .next ⟨congrArg (· + 1) hs.produced, ?_, ?_, hev.ctx⟩
                · show normalizeCursor _ _ = normalizeCursor _ _
                  rw [hev.regs]
                · show Function.update _ _ _ = Function.update _ _ _
                  rw [hs.produced, hs.frames, hev.frame]

/-- They are in step after the loop. -/
theorem captureLoop_rel (hsim : Simulates R reader reader') (m : ByteMem) (index : DwarfIndex)
    (ops : Option ArchOps) (path : CString) (maxFrames : ℕ) {s : CaptureLoop σ}
    {s' : CaptureLoop σ'} (hs : SameLoop R s s') :
    SameEnd R (captureLoop m index reader ops path maxFrames s)
      (captureLoop m index reader' ops path maxFrames s') := by
  have hrun := run_rel (Q := SameEnd R)
    (fun t t' ht => captureTurn_rel hsim m index ops path maxFrames ht)
    (maxFrames - s.produced + 1) hs
  rw [captureLoop, captureLoop, ← hs.produced]
  generalize run (captureTurn m index reader ops path maxFrames) _ s = x at hrun ⊢
  generalize run (captureTurn m index reader' ops path maxFrames) _ s' = x' at hrun ⊢
  cases hrun with
  | none => exact .none
  | some h => exact h

/-- Status, frame count and frames are the same, and the contexts are related. -/
def SameFrames (R : σ → σ' → Prop) (x : Status × ℕ × (ℕ → Frame) × σ)
    (x' : Status × ℕ × (ℕ → Frame) × σ') : Prop :=
  x.1 = x'.1 ∧ x.2.1 = x'.2.1 ∧ x.2.2.1 = x'.2.2.1 ∧ R x.2.2.2 x'.2.2.2

/-- They are in step after all frames of a capture. -/
theorem captureFrames_rel {reader : Option (MemoryRead σ)} {reader' : Option (MemoryRead σ')}
    (hsim : Option.Rel (Simulates R) reader reader') (m : ByteMem) (index : DwarfIndex)
    (path : CString) (regs : Regset) (frames : ℕ → Frame) (maxFrames : ℕ) {ctx : σ} {ctx' : σ'}
    (hctx : R ctx ctx') :
    Option.Rel (SameFrames R) (captureFrames m index reader path regs frames maxFrames ctx)
      (captureFrames m index reader' path regs frames maxFrames ctx') := by
  rw [captureFrames, captureFrames]
  cases prepareRootFrame regs (frames 0) with
  | error st => exact .some ⟨rfl, rfl, rfl, hctx⟩
  | ok root =>
      dsimp only
      cases hsim with
      | none => exact .some ⟨rfl, rfl, rfl, hctx⟩
      | @some reader reader' hsim =>
          dsimp only
          by_cases hloop : 1 < maxFrames ∧ 0 < index.fdes.records.length
          · rw [if_pos hloop, if_pos hloop]
            have hs : SameLoop R
                ⟨1, regs, Function.update frames 0 (root.withPath path), ctx⟩
                ⟨1, regs, Function.update frames 0 (root.withPath path), ctx'⟩ :=
              ⟨rfl, rfl, rfl, hctx⟩
            have hl := captureLoop_rel hsim m index (archFromRegset regs) path maxFrames hs
            generalize captureLoop m index reader _ path maxFrames _ = x at hl ⊢
            generalize captureLoop m index reader' _ path maxFrames _ = x' at hl ⊢
            cases hl with
            | none => exact .none
            | some h => exact .some ⟨h.1, h.2.produced, h.2.frames, h.2.ctx⟩
          · rw [if_neg hloop, if_neg hloop]
            exact .some ⟨rfl, rfl, rfl, hctx⟩

/-- What every read keeps true of the context is true of the context that the frames leave. -/
theorem captureFrames_keeps {I : σ → Prop} {reader : Option (MemoryRead σ)} {m : ByteMem}
    {index : DwarfIndex} {path : CString} {regs : Regset} {frames : ℕ → Frame} {maxFrames : ℕ}
    {ctx : σ} {x : Status × ℕ × (ℕ → Frame) × σ}
    (hread : ∀ r, reader = some r → ∀ ctx a, I ctx → I (r ctx a).2) (hctx : I ctx)
    (hx : captureFrames m index reader path regs frames maxFrames ctx = some x) :
    I x.2.2.2 := by
  -- the reader simulates itself on the contexts with `I`
  have hsim : Option.Rel (Simulates fun c c' => c = c' ∧ I c) reader reader := by
    cases reader with
    | none => exact .none
    | some r =>
        refine .some ?_
        rintro c c' a ⟨rfl, hc⟩
        exact ⟨rfl, rfl, hread r rfl c a hc⟩
  have hrel := captureFrames_rel hsim m index path regs frames maxFrames ⟨rfl, hctx⟩
  rw [hx] at hrel
  obtain ⟨h⟩ := hrel
  exact h.2.2.2.2

/-! ### Fixed readers -/

/-- The reader that returns a fixed function of the address. -/
def functionReader (f : UInt64 → Except Status UInt64) : MemoryRead Unit := fun _ a => (f a, ())

/-- After the calls made so far, attaching on the kernel comes out as `st`, and if it
succeeds the default reader returns a fixed function of the address from then on. -/
structure FixedReader (k : Kernel) (pid tid : ℤ) (calls : List SysCall) (st : Status)
    (f : UInt64 → Except Status UInt64) : Prop where
  attach : (stackReaderAttach k pid tid .zero calls).1 = st
  reads : st = .ok → ∃ good : ReaderCtx → Prop,
    good ⟨(stackReaderAttach k pid tid .zero calls).2.1,
      (stackReaderAttach k pid tid .zero calls).2.2⟩ ∧
    ∀ ctx a, good ctx → (defaultStackReaderMem k ctx a).1 = f a ∧
      good (defaultStackReaderMem k ctx a).2

/-- A kernel that returns the bytes of a stack is a fixed function of the address. -/
lemma StackKernel.fixedReader {k : Kernel} {pid tid : ℤ} {calls : List SysCall}
    {stack : ByteMem} (hk : StackKernel k pid tid calls stack fun _ => True) :
    FixedReader k pid tid calls .ok fun a => .ok (wordAt stack a) where
  attach := by rw [hk.attach_ok]
  reads _ := by
    refine ⟨fun ctx => ctx.session = attachedSession pid tid, by rw [hk.attach_ok], ?_⟩
    intro ctx a hctx
    obtain ⟨ctx', hctx', hread⟩ := hk.reads ctx a hctx trivial
    rw [hread]
    exact ⟨rfl, hctx'⟩

lemma nestedKernel_fixed (calls : List SysCall) :
    FixedReader nestedKernel 42 42 calls .ok fun a => .ok (wordAt nestedStack a) :=
  StackKernel.fixedReader ⟨show (0 : ℤ) < 42 by decide, rfl, rfl, fun _ _ _ => rfl⟩

lemma FixedReader.attachStep_eq {k : Kernel} {ctx : Context} {req : UnwindRequest}
    {calls : List SysCall} {st : Status} {f : UInt64 → Except Status UInt64}
    (hk : FixedReader k req.pid req.tid calls st f) (hwants : WantsReader ctx req) :
    attachStep k ctx req calls = stackReaderAttach k req.pid req.tid .zero calls ∧
      (attachStep k ctx req calls).1 = st := by
  rw [attachStep, if_pos hwants]
  exact ⟨rfl, hk.attach⟩

/-- What the caller sees of the frames: the status, their number, and the buffer. -/
def seenFrames (x : Status × ℕ × (ℕ → Frame) × σ) : Status × ℕ × (ℕ → Frame) :=
  (x.1, x.2.1, x.2.2.1)

lemma SameFrames.seen {x : Option (Status × ℕ × (ℕ → Frame) × σ)}
    {x' : Option (Status × ℕ × (ℕ → Frame) × σ')} (h : Option.Rel (SameFrames R) x x') :
    x.map seenFrames = x'.map seenFrames := by
  cases h with
  | none => rfl
  | some h =>
      rw [Option.map_some, Option.map_some, seenFrames, seenFrames, h.1, h.2.1, h.2.2.1]

/-- A capture whose attach came out as `st` reads through the default reader as it would
through the function. -/
theorem captureFrames_fixed {k : Kernel} {ctx : Context} {req : UnwindRequest}
    {calls : List SysCall} {st : Status} {f : UInt64 → Except Status UInt64}
    (hk : FixedReader k req.pid req.tid calls st f) (m : ByteMem) (index : DwarfIndex)
    (path : CString) (regs : Regset) (frames : ℕ → Frame) :
    (loadedFrames m k ctx req calls path regs frames index).map seenFrames =
      (captureFrames m index (readerStep (functionReader f) ctx req st) path regs frames
        req.maxFrames ()).map seenFrames := by
  rw [loadedFrames]
  by_cases hwants : WantsReader ctx req
  swap
  · -- nothing is read
    rw [readerStep, readerStep, if_neg fun h => hwants h.1, if_neg fun h => hwants h.1]
    exact SameFrames.seen
      (captureFrames_rel (R := fun _ _ => True) .none m index path regs frames _ trivial)
  obtain ⟨hstep, hst⟩ := hk.attachStep_eq hwants
  rw [hst, readerStep, readerStep]
  by_cases hok : st = .ok
  · obtain ⟨good, hgood, hreads⟩ := hk.reads hok
    rw [if_pos ⟨hwants, hok⟩, if_pos ⟨hwants, hok⟩, hstep]
    refine SameFrames.seen (captureFrames_rel (R := fun ctx _ => good ctx) (.some ?_) m index
      path regs frames _ hgood)
    exact fun ctx _ a hctx => hreads ctx a hctx
  · rw [if_neg fun h => hok h.2, if_neg fun h => hok h.2]
    exact SameFrames.seen
      (captureFrames_rel (R := fun _ _ => True) .none m index path regs frames _ trivial)

end Dwunw
