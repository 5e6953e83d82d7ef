import Dwunw.CaptureSpec
import Dwunw.Cfi.ApplyRow

/-!
Recovering the frames of a stack without frame pointers.

On x86-64 such code addresses its frame from the stack pointer, so every row has the form
CFA = `r7` + `n`, with the return address at CFA - 8 and no rule for `r7`: the stack pointer
of the caller is the CFA itself.  `dwunw_cfi_eval` writes the CFA to `regs->sp`, and leaves
`regs->regs[7]` as it was.

* `CallRow`, `spAt`, `CallStack`: such rows, the stack pointers of the frames, and a stack of
  nested calls laid out in memory.
* `applyRow_ok`, `applyRow_cfa`: what one evaluation of such a row does, and that `r7` stays.
* `Recovers`: the frames that a capture should have written.
* `capture_recovers_iff`: it has written them exactly when there is one call at most.
-/

namespace Dwunw

open Loop Sweep

/-! ### Reading the stack -/

/-- The 64-bit word at an address. -/
def wordAt (stack : ByteMem) (a : UInt64) : UInt64 := UInt64.ofNat (leNat (peek stack 8 a))

/-- From a good context the reader returns the words of the stack, where it can be read, and
leaves a good context. -/
def Reads {σ : Type} (reader : MemoryRead σ) (good : σ → Prop) (stack : ByteMem)
    (readable : UInt64 → Prop) : Prop :=
  ∀ ctx a, good ctx → readable a →
    ∃ ctx', good ctx' ∧ reader ctx a = (.ok (wordAt stack a), ctx')

/-- The thread that is attached to. -/
def attachedTid (pid tid : ℤ) : ℤ := if tid ≤ 0 then pid else tid

/-- The session after a successful attach. -/
def attachedSession (pid tid : ℤ) : Session :=
  ⟨pid, attachedTid pid tid, -1, .processVm, true⟩

/-- The kernel lets the thread be attached to, and returns the bytes of the stack. -/
structure StackKernel (k : Kernel) (pid tid : ℤ) (calls : List SysCall) (stack : ByteMem)
    (readable : UInt64 → Prop) : Prop where
  pid_pos : 0 < pid
  attach : k.ptraceAttach calls (attachedTid pid tid) = true
  stops : k.waitpid (calls ++ [.ptraceAttach (attachedTid pid tid)]) (attachedTid pid tid) =
    .stopped
  read : ∀ calls a, readable a →
    k.processVmReadv calls (attachedTid pid tid) a 8 = .copied (peek stack 8 a)

variable {k : Kernel} {pid tid : ℤ} {calls : List SysCall} {stack : ByteMem}
  {readable : UInt64 → Prop}

lemma StackKernel.attach_ok (hk : StackKernel k pid tid calls stack readable) :
    stackReaderAttach k pid tid .zero calls =
      (.ok, attachedSession pid tid,
        calls ++ [.ptraceAttach (attachedTid pid tid)] ++ [.waitpid (attachedTid pid tid)]) := by
  have hpid := hk.pid_pos
  have ha := hk.attach
  have hw := hk.stops
  rw [stackReaderAttach, if_neg (by omega)]
  dsimp only
  rw [show (if tid ≤ 0 then pid else tid) = attachedTid pid tid from rfl, if_pos ha, hw]
  rfl

/-- The default reader on such a kernel. -/
lemma StackKernel.reads (hk : StackKernel k pid tid calls stack readable) :
    Reads (defaultStackReaderMem k) (fun ctx => ctx.session = attachedSession pid tid) stack
      readable := by
  rintro ⟨_, calls'⟩ a rfl ha
  have hread : stackReaderRead k (attachedSession pid tid) calls' a 8 =
      (.ok (peek stack 8 a), attachedSession pid tid,
        calls' ++ [.processVmReadv (attachedTid pid tid) a 8]) := by
    have hvm : processVmRead k (attachedSession pid tid) calls' a 8 =
        (.ok (peek stack 8 a), calls' ++ [.processVmReadv (attachedTid pid tid) a 8]) := by
      rw [processVmRead]
      rw [show (attachedSession pid tid).tid = attachedTid pid tid from rfl, hk.read _ _ ha]
      dsimp only
      rw [exactly, if_pos (peek_length _ _ _)]
      rfl
    rw [stackReaderRead, if_neg (by decide),
      show (attachedSession pid tid).backend = .processVm from rfl]
    dsimp only
    rw [hvm]
  refine ⟨⟨attachedSession pid tid, calls' ++ [.processVmReadv (attachedTid pid tid) a 8]⟩,
    rfl, ?_⟩
  rw [defaultStackReaderMem]
  dsimp only
  rw [hread]
  rfl

/-! ### One row -/

/-- The row of a frame addressed from the stack pointer: CFA = `r7` + `n`, the return address
at CFA - 8, and no rule for `r7`. -/
structure CallRow (row : CfaState) (n : UInt64) : Prop where
  cfaReg : row.cfaReg = 7
  cfaOffset : row.cfaOffset.toUInt64 = n
  returnRule : row.regs 16 = ⟨.offset, -8⟩
  spRule : (row.regs 7).kind = .sameValue

/-- Every slot that the row reads can be read. -/
def SlotsReadable (row : CfaState) (cfa : UInt64) (readable : UInt64 → Prop) : Prop :=
  ∀ i, (row.regs i).kind = .offset → readable (cfa + (row.regs i).offset.toUInt64)

variable {σ : Type} {reader : MemoryRead σ} {good : σ → Prop} {row : CfaState} {n cfa : UInt64}

/-- A register without a rule keeps its value. -/
lemma updateRegs_sameValue {i : Fin regsetSlots} (hi : (row.regs i).kind = .sameValue)
    (slots : List (Fin regsetSlots)) (regs : Regset) (ctx : σ) :
    (updateRegs row cfa reader slots regs ctx).2.1.regs i = regs.regs i := by
  rw [updateRegs_eq_sweep]
  refine sweep_kept (fun c v hfetch => ?_) slots regs.regs ctx
  rw [slotFetch, hi] at hfetch
  exact (Except.ok.inj hfetch).symm

/-- Where every slot can be read the update goes through. -/
lemma updateRegs_ok (hr : Reads reader good stack readable)
    (hs : SlotsReadable row cfa readable) (slots : List (Fin regsetSlots)) (regs : Regset)
    {ctx : σ} (hctx : good ctx) :
    ∃ regs' ctx', updateRegs row cfa reader slots regs ctx = (.ok, regs', ctx') := by
  have hfetch : Fetches (slotFetch row cfa reader) slots ctx := by
    refine .of_invariant (fun i c hc => slotFetch_ok (fun hi => ?_) hc) slots hctx
    obtain ⟨c', hc', hread⟩ := hr c _ hc (hs i hi)
    exact ⟨_, c', hread, hc'⟩
  rw [updateRegs_eq_sweep]
  dsimp only
  rw [(sweep_ok_iff _ _ _).mpr hfetch]
  exact ⟨_, _, rfl⟩

/-- The CFA that comes out of such a row is counted from `r7`. -/
lemma CallRow.cfa_eq (h : CallRow row n) (regs : Regset) :
    regValue regs row.cfaReg + row.cfaOffset.toUInt64 = regs.regs 7 + n := by
  rw [h.cfaReg, h.cfaOffset, regValue, if_neg (by decide), dif_pos (by decide)]
  rfl

lemma add_neg_eight (a : UInt64) : a + (-8 : Int64).toUInt64 = a - 8 :=
  (UInt64.sub_eq_add_neg a 8).symm

/-- The return address under such a row is the word below the CFA. -/
lemma CallRow.returnAddress_eq (h : CallRow row n) (regs : Regset) (ctx : σ) :
    returnAddress row 16 cfa regs reader ctx = reader ctx (cfa - 8) := by
  rw [returnAddress, h.returnRule, ← add_neg_eight]
  rfl

/-- A row of a call under which everything can be read: the return address is the word below
the CFA, the stack pointer is the CFA, and `r7` stays. -/
theorem applyRow_ok (h : CallRow row n) (hr : Reads reader good stack readable) {regs : Regset}
    (hcfa : regs.regs 7 + n = cfa) (hs : SlotsReadable row cfa readable) {ctx : σ}
    (hctx : good ctx) (frame : Frame) :
    ∃ regs' ctx', applyRow row 16 regs reader ctx frame =
        { status := .ok
          regs := { (regs' : Regset) with pc := wordAt stack (cfa - 8), sp := cfa }
          frame := { frame with
            pc := wordAt stack (cfa - 8)
            ra := wordAt stack (cfa - 8)
            sp := cfa
            cfa := cfa
            flags := 0 }
          ctx := ctx' } ∧
      regs'.regs 7 = regs.regs 7 := by
  have hslot : readable (cfa - 8) := by
    have h16 := hs 16 (by rw [h.returnRule])
    rwa [h.returnRule, add_neg_eight] at h16
  obtain ⟨ctx₁, hctx₁, hread⟩ := hr ctx _ hctx hslot
  obtain ⟨regs', ctx₂, hup⟩ :=
    updateRegs_ok hr hs (List.finRange regsetSlots) regs hctx₁
  refine ⟨regs', ctx₂, ?_, ?_⟩
  · rw [applyRow, h.cfa_eq, hcfa]
    dsimp only
    rw [h.returnAddress_eq, hread]
    dsimp only
    rw [hup]
  · have hsp : (updateRegs row cfa reader (List.finRange regsetSlots) regs ctx₁).2.1.regs 7 =
        regs.regs 7 := updateRegs_sameValue h.spRule _ _ _
    rwa [hup] at hsp

/-- Whatever the reader does, an evaluation of such a row that succeeds has its CFA counted
from `r7`. -/
theorem applyRow_cfa (h : CallRow row n) (he : ∀ ctx a, (reader ctx a).1 ≠ .error .ok)
    {regs : Regset} (hcfa : regs.regs 7 + n = cfa) {ctx : σ} {frame : Frame}
    (hok : (applyRow row 16 regs reader ctx frame).status = .ok) :
    (applyRow row 16 regs reader ctx frame).frame.cfa = cfa := by
  have happ := applyRow_application he row 16 regs ctx frame
  generalize applyRow row 16 regs reader ctx frame = ev at happ hok ⊢
  cases happ with
  | noReturn hst _ => exact absurd hok hst
  | unread hst _ _ => exact absurd hok hst
  | applied _ _ => exact (h.cfa_eq regs).trans hcfa

/-! ### A stack of calls -/

/-- The stack pointers of the frames: each is `n i` above the one before. -/
def spAt (sp₀ : UInt64) (n : ℕ → UInt64) : ℕ → UInt64
  | 0 => sp₀
  | i + 1 => spAt sp₀ n i + n i

/-- The FDE found for `pc` is good, returns through `r16`, and has a row of a call for `pc`
whose slots can be read. -/
def CallAt (m : ByteMem) (index : DwarfIndex) (readable : UInt64 → Prop) (pc n cfa : UInt64) :
    Prop :=
  ∃ i fde cie row, cfiFindFde index.fdes.records pc = some i ∧
    index.fdes.records[i]? = some fde ∧ index.cies.deref fde.cie = some cie ∧
    cie.returnReg = 16 ∧ cfiRow m cie fde pc = .ok row ∧ CallRow row n ∧
    SlotsReadable row cfa readable

/-- A stack of `calls` nested calls, the innermost at `pc 0` with its stack pointer at `sp₀`:
call `i` takes `n i` bytes, and the word below its end is the return address `pc (i + 1)`. -/
structure CallStack (m : ByteMem) (index : DwarfIndex) (stack : ByteMem)
    (readable : UInt64 → Prop) (calls : ℕ) (pc n : ℕ → UInt64) (sp₀ : UInt64) : Prop where
  row : ∀ i < calls, CallAt m index readable (pc i) (n i) (spAt sp₀ n (i + 1))
  size : ∀ i < calls, 8 ≤ n i
  returns : ∀ i < calls, wordAt stack (spAt sp₀ n (i + 1) - 8) = pc (i + 1)

/-- The evaluation of a turn whose cursor is in a call. -/
lemma CallAt.turnEval_eq {m : ByteMem} {index : DwarfIndex} {pc n cfa : UInt64}
    (h : CallAt m index readable pc n cfa) (reader : MemoryRead σ) {s : CaptureLoop σ}
    (hpc : s.cursorRegs.pc = pc) :
    ∃ i row, cfiFindFde index.fdes.records s.cursorRegs.pc = some i ∧ CallRow row n ∧
      SlotsReadable row cfa readable ∧ turnEval m index reader s i =
        some (applyRow row 16 s.cursorRegs reader s.ctx (s.frames s.produced)) := by
  obtain ⟨i, fde, cie, row, hfind, hget, hderef, hreg, hrow, hcall, hslots⟩ := h
  refine ⟨i, row, hpc ▸ hfind, hcall, hslots, ?_⟩
  obtain ⟨fde', hget', -, hlo, hhi⟩ := cfiFindFde_eq_some hfind
  obtain rfl : fde = fde' := Option.some.inj (hget.symm.trans hget')
  have hin : ¬ (pc < fde.pcBegin ∨ fde.pcBegin + fde.pcRange ≤ pc) :=
    not_or.mpr ⟨UInt64.not_lt.mpr hlo, UInt64.not_le.mpr hhi⟩
  have hlt : cie.returnReg.toNat < regsetSlots := by rw [hreg]; decide
  have h16 : (⟨cie.returnReg.toNat, hlt⟩ : Fin regsetSlots) = 16 := by
    rw [Fin.ext_iff]
    exact congrArg UInt8.toNat hreg
  rw [turnEval, hget, Option.bind_some, hderef, Option.bind_some, cfiEval, hpc, if_neg hin, hrow]
  dsimp only
  rw [dif_pos hlt, h16]

/-! ### The turns of the unwinding loop -/

section Turns

variable {m : ByteMem} {index : DwarfIndex} {path : CString} {maxFrames : ℕ}
  {pc n cfa cfa' : UInt64} {s : CaptureLoop σ}

/-- A turn in a call whose CFA comes out right goes on with the caller, and `r7` stays. -/
lemma captureTurn_call (path : CString) (s : CaptureLoop σ)
    (h : CallAt m index readable pc n cfa)
    (hr : Reads reader good stack readable) (hmax : s.produced < maxFrames)
    (hpc : s.cursorRegs.pc = pc) (hcfa : s.cursorRegs.regs 7 + n = cfa) (hctx : good s.ctx) :
    ∃ s', captureTurn m index reader (some archOpsX86_64) path maxFrames s = .next s' ∧
      s'.produced = s.produced + 1 ∧
      (s'.frames s.produced).pc = wordAt stack (cfa - 8) ∧
      (s'.frames s.produced).sp = cfa ∧ (s'.frames s.produced).cfa = cfa ∧
      s'.cursorRegs.pc = wordAt stack (cfa - 8) ∧
      s'.cursorRegs.regs 7 = s.cursorRegs.regs 7 := by
  obtain ⟨i, row, hfind, hcall, hslots, hev⟩ := h.turnEval_eq reader hpc
  obtain ⟨regs', ctx', happly, h7⟩ :=
    applyRow_ok hcall hr hcfa hslots hctx (s.frames s.produced)
  rw [happly] at hev
  refine ⟨_, (captureTurn_eval _ _ hmax hfind hev).trans (if_neg (by simp)), rfl, ?_, ?_, ?_, rfl,
    h7⟩ <;> rw [CaptureLoop.advance] <;> dsimp only <;> rw [Function.update_self] <;> rfl

/-- A turn in a call writes a frame whose CFA is counted from `r7`, or ends the loop. -/
lemma captureTurn_stale (path : CString) (h : CallAt m index readable pc n cfa')
    (he : ∀ ctx a, (reader ctx a).1 ≠ .error .ok) (hmax : s.produced < maxFrames)
    (hpc : s.cursorRegs.pc = pc) (hcfa : s.cursorRegs.regs 7 + n = cfa) :
    (∃ st s', captureTurn m index reader (some archOpsX86_64) path maxFrames s =
        .done (some (st, s')) ∧ s'.produced = s.produced) ∨
    ∃ s', captureTurn m index reader (some archOpsX86_64) path maxFrames s = .next s' ∧
      s'.produced = s.produced + 1 ∧ (s'.frames s.produced).cfa = cfa := by
  obtain ⟨i, row, hfind, hcall, -, hev⟩ := h.turnEval_eq reader hpc
  have hturn := captureTurn_eval (some archOpsX86_64) path hmax hfind hev
  by_cases hok : (applyRow row 16 s.cursorRegs reader s.ctx (s.frames s.produced)).status = .ok
  · refine .inr ⟨_, hturn.trans (if_neg (not_not.mpr hok)), rfl, ?_⟩
    rw [CaptureLoop.advance]
    dsimp only
    rw [Function.update_self]
    exact applyRow_cfa hcall he hcfa hok
  · exact .inl ⟨_, _, hturn.trans (if_pos hok), rfl⟩

/-- What comes after a turn keeps the frames written so far. -/
lemma extends_of_next {ops : Option ArchOps} {s s' s'' : CaptureLoop σ} {st : Status}
    (hw : WellLinked index)
    (h : Ends (captureTurn m index reader ops path maxFrames) s (some (st, s'')))
    (hs : captureTurn m index reader ops path maxFrames s = .next s') :
    Ends (captureTurn m index reader ops path maxFrames) s' (some (st, s'')) ∧
      s'.Extends s'' := by
  obtain ⟨st', s₁, -, hext, hends⟩ := captureLoop_ends m reader ops path maxFrames hw s'
  cases h.unique (.next hs hends)
  exact ⟨hends, hext⟩

/-! ### The first two callers -/

variable {st : Status} {s' : CaptureLoop σ} {regs : Regset} {frames : ℕ → Frame} {ctx : σ}
  {depth : ℕ} {pc n : ℕ → UInt64}

/-- The turn that writes the first caller. -/
lemma CallStack.first_turn (path : CString) (frames : ℕ → Frame)
    (hs : CallStack m index stack readable depth pc n regs.sp) (hdepth : 0 < depth)
    (hr : Reads reader good stack readable) (hmax : 1 < maxFrames) (hpc : regs.pc = pc 0)
    (h7 : regs.regs 7 = regs.sp) (hctx : good ctx) :
    ∃ s₁, captureTurn m index reader (some archOpsX86_64) path maxFrames ⟨1, regs, frames, ctx⟩ =
        .next s₁ ∧
      s₁.produced = 2 ∧ (s₁.frames 1).pc = pc 1 ∧ (s₁.frames 1).sp = spAt regs.sp n 1 ∧
      (s₁.frames 1).cfa = spAt regs.sp n 1 ∧ s₁.cursorRegs.pc = pc 1 ∧
      s₁.cursorRegs.regs 7 = regs.sp := by
  have hcfa : regs.regs 7 + n 0 = spAt regs.sp n 1 := by rw [h7]; rfl
  obtain ⟨s₁, hturn, hproduced, hra, hsp, hcfa₁, hpc₁, hstay⟩ :=
    captureTurn_call path ⟨1, regs, frames, ctx⟩ (hs.row 0 hdepth) hr hmax hpc hcfa hctx
  rw [hs.returns 0 hdepth] at hra hpc₁
  exact ⟨s₁, hturn, hproduced, hra, hsp, hcfa₁, hpc₁, hstay.trans h7⟩

/-- The frame of the first caller is right. -/
lemma CallStack.first_frame
    (hs : CallStack m index stack readable depth pc n regs.sp) (hdepth : 0 < depth)
    (hw : WellLinked index) (hr : Reads reader good stack readable) (hmax : 1 < maxFrames)
    (hpc : regs.pc = pc 0) (h7 : regs.regs 7 = regs.sp) (hctx : good ctx)
    (hends : Ends (captureTurn m index reader (some archOpsX86_64) path maxFrames)
      ⟨1, regs, frames, ctx⟩ (some (st, s'))) :
    2 ≤ s'.produced ∧ (s'.frames 1).pc = pc 1 ∧ (s'.frames 1).sp = spAt regs.sp n 1 ∧
      (s'.frames 1).cfa = spAt regs.sp n 1 := by
  obtain ⟨s₁, hturn, hproduced, hra, hsp, hcfa, -, -⟩ :=
    hs.first_turn path frames hdepth hr hmax hpc h7 hctx
  obtain ⟨-, hlen, hkeep⟩ := extends_of_next hw hends hturn
  rw [hproduced] at hlen hkeep
  rw [hkeep 1 (by decide)]
  exact ⟨hlen, hra, hsp, hcfa⟩

/-- The frame of the second caller, where it is written, has its CFA counted from the stack
pointer of the innermost frame. -/
lemma CallStack.second_frame
    (hs : CallStack m index stack readable depth pc n regs.sp) (hdepth : 1 < depth)
    (hw : WellLinked index) (hr : Reads reader good stack readable)
    (he : ∀ ctx a, (reader ctx a).1 ≠ .error .ok) (hmax : 2 < maxFrames) (hpc : regs.pc = pc 0)
    (h7 : regs.regs 7 = regs.sp) (hctx : good ctx)
    (hends : Ends (captureTurn m index reader (some archOpsX86_64) path maxFrames)
      ⟨1, regs, frames, ctx⟩ (some (st, s'))) :
    s'.produced = 2 ∨ (s'.frames 2).cfa = regs.sp + n 1 := by
  obtain ⟨s₁, hturn, hproduced, -, -, -, hpc₁, hstay⟩ :=
    hs.first_turn path frames (by omega) hr (show 1 < maxFrames by omega) hpc h7 hctx
  obtain ⟨hends₁, -⟩ := extends_of_next hw hends hturn
  rcases captureTurn_stale path (hs.row 1 hdepth) he (hproduced.symm ▸ hmax) hpc₁
    (congrArg (· + n 1) hstay) with ⟨st', s₂, hdone, hsame⟩ | ⟨s₂, hturn₂, hproduced₂, hcfa⟩
  · cases hends₁.unique (.done hdone)
    exact .inl (hsame.trans hproduced)
  · obtain ⟨-, -, hkeep⟩ := extends_of_next hw hends₁ hturn₂
    rw [hproduced] at hproduced₂ hcfa
    rw [hproduced₂] at hkeep
    exact .inr (by rw [hkeep 2 (by decide), hcfa])

end Turns

/-! ### The capture -/

/-- A capture of an x86-64 thread whose module loads into a slot and whose attach succeeds;
the kernel returns the bytes of the stack, and `r7` is the stack pointer. -/
structure CaptureOfCalls (ld : Loader) (k : Kernel) (ctx : Context) (req : UnwindRequest)
    (calls : List SysCall) (stack : ByteMem) (readable : UInt64 → Prop) (path : CString)
    (regs : Regset) (frames : ℕ → Frame) (cache : ModuleCache) (slot : Slot) : Prop where
  path_eq : req.modulePath = some path
  regs_eq : req.regs = some regs
  frames_eq : req.frames = some frames
  arch : regs.arch = 1
  stackPointer : regs.regs 7 = regs.sp
  cacheReady : ctx.moduleCacheReady = true
  readerReady : ctx.stackReaderReady = true
  acquired : moduleCacheAcquire ld ctx.moduleCache path = (.ok, cache, some slot)
  kernel : StackKernel k req.pid req.tid calls stack readable

lemma exists_rootFrame {regs : Regset} (h : regs.arch = 1) (frame : Frame) :
    archFromRegset regs = some archOpsX86_64 ∧
      ∃ root, prepareRootFrame regs frame = .ok root := by
  have hops : archFromRegset regs = some archOpsX86_64 := by
    rw [archFromRegset, archResolve, if_pos h]
  refine ⟨hops, ?_⟩
  rw [prepareRootFrame, hops]
  exact ⟨_, rfl⟩

/-- The loop that fills the frames of an x86-64 module with FDEs. -/
lemma captureFrames_loop (m : ByteMem) {index : DwarfIndex} (reader : MemoryRead σ)
    (path : CString) {regs : Regset} (frames : ℕ → Frame) {maxFrames : ℕ}
    (hw : WellLinked index) (harch : regs.arch = 1) (hmax : 1 < maxFrames)
    (hfdes : 0 < index.fdes.records.length) (ctx : σ) :
    ∃ frames' st s', Ends (captureTurn m index reader (some archOpsX86_64) path maxFrames)
        ⟨1, regs, frames', ctx⟩ (some (st, s')) ∧
      1 ≤ s'.produced ∧ captureFrames m index (some reader) path regs frames maxFrames ctx =
        some (st, s'.produced, s'.frames, s'.ctx) := by
  obtain ⟨hops, root, hroot⟩ := exists_rootFrame harch (frames 0)
  obtain ⟨st, s', hloop, hext, hends⟩ :=
    captureLoop_ends m reader (some archOpsX86_64) path maxFrames hw
      ⟨1, regs, Function.update frames 0 (root.withPath path), ctx⟩
  refine ⟨_, st, s', hends, hext.1, ?_⟩
  rw [captureFrames, hroot]
  dsimp only
  rw [if_pos ⟨hmax, hfdes⟩, hops, hloop]
  rfl

/-- Frame 0 of an x86-64 capture is always written. -/
lemma captureFrames_root (m : ByteMem) {index : DwarfIndex} (reader : Option (MemoryRead σ))
    (path : CString) {regs : Regset} (frames : ℕ → Frame) (maxFrames : ℕ)
    (hw : WellLinked index) (harch : regs.arch = 1) (ctx : σ) :
    ∃ st produced frames' ctx', 1 ≤ produced ∧
      captureFrames m index reader path regs frames maxFrames ctx =
        some (st, produced, frames', ctx') := by
  obtain ⟨-, root, hroot⟩ := exists_rootFrame harch (frames 0)
  by_cases hloop : 1 < maxFrames ∧ 0 < index.fdes.records.length
  · cases reader with
    | some reader =>
        obtain ⟨_, st, s', -, hone, h⟩ :=
          captureFrames_loop m reader path frames hw harch hloop.1 hloop.2 ctx
        exact ⟨_, _, _, _, hone, h⟩
    | none =>
        rw [captureFrames, hroot]
        exact ⟨_, _, _, _, le_rfl, rfl⟩
  · rw [captureFrames, hroot]
    cases reader with
    | none => exact ⟨_, _, _, _, le_rfl, rfl⟩
    | some reader =>
        dsimp only
        rw [if_neg hloop]
        exact ⟨_, _, _, _, le_rfl, rfl⟩

/-- The capture around the frames: with room for a second frame it reads through the session
it has attached. -/
lemma CaptureOfCalls.capture_eq {ld : Loader} {ctx : Context} {req : UnwindRequest}
    {path : CString} {regs : Regset} {frames : ℕ → Frame} {cache : ModuleCache} {slot : Slot}
    (m : ByteMem) (h : CaptureOfCalls ld k ctx req calls stack readable path regs frames cache
      slot) (hpos : 0 < req.maxFrames) :
    ∃ reader rctx finish, capture m ld k ctx req calls =
        (captureFrames m (cache.entries slot).handle.index reader path regs frames
          req.maxFrames rctx).map finish ∧
      (∀ x, (finish x).framesWritten = x.2.1 ∧ (finish x).frames = x.2.2.1) ∧
      (1 < req.maxFrames → reader = some (defaultStackReaderMem k) ∧
        rctx.session = attachedSession req.pid req.tid) := by
  have hvalid : ¬ (req.maxFrames = 0 ∨ ctx.moduleCacheReady = false) := by
    rw [h.cacheReady]
    simp only [or_false, Bool.true_eq_false]
    omega
  rw [capture, h.path_eq, h.regs_eq, h.frames_eq]
  dsimp only
  rw [if_neg hvalid, h.acquired]
  by_cases hmax : 1 < req.maxFrames
  · have hwanted : ctx.stackReaderReady = true ∧ 0 < req.pid ∧ 1 < req.maxFrames :=
      ⟨h.readerReady, h.kernel.pid_pos, hmax⟩
    simp only [if_pos hwanted, h.kernel.attach_ok]
    exact ⟨_, _, _, rfl, fun _ => ⟨rfl, rfl⟩, fun _ => ⟨if_pos ⟨hwanted, trivial⟩, rfl⟩⟩
  · exact ⟨_, _, _, rfl, fun _ => ⟨rfl, rfl⟩, fun hlt => absurd hlt hmax⟩

/-- Frames `0` to `calls` have been written, and the frame of every caller has its return
address and its stack pointer. -/
def Recovers (result : Option CaptureResult) (calls : ℕ) (pc n : ℕ → UInt64) (sp₀ : UInt64) :
    Prop :=
  ∃ r, result = some r ∧ calls + 1 ≤ r.framesWritten ∧
    ∀ i, 1 ≤ i → i ≤ calls → (r.frames i).pc = pc i ∧
      (r.frames i).sp = spAt sp₀ n i ∧ (r.frames i).cfa = spAt sp₀ n i

/-- The frames of a stack of calls are recovered exactly when there is one call at most: the
second caller's CFA is counted from the stack pointer of the innermost frame. -/
theorem capture_recovers_iff {m : ByteMem} {ld : Loader} {ctx : Context} {req : UnwindRequest}
    {path : CString} {regs : Regset} {frames : ℕ → Frame} {cache : ModuleCache} {slot : Slot}
    {depth : ℕ} {pc n : ℕ → UInt64}
    (h : CaptureOfCalls ld k ctx req calls stack readable path regs frames cache slot)
    (hw : WellLinked (cache.entries slot).handle.index)
    (hs : CallStack m (cache.entries slot).handle.index stack readable depth pc n regs.sp)
    (hpc : regs.pc = pc 0) (hmax : depth < req.maxFrames) :
    Recovers (capture m ld k ctx req calls) depth pc n regs.sp ↔ depth ≤ 1 := by
  obtain ⟨reader, rctx, finish, hcapture, hfinish, hreader⟩ := h.capture_eq m (by omega)
  rw [hcapture]
  rcases Nat.eq_zero_or_pos depth with rfl | hdepth
  · -- without a call only frame 0 is asked for
    obtain ⟨st, produced, frames', ctx', hone, hframes⟩ :=
      captureFrames_root m reader path frames req.maxFrames hw h.arch rctx
    refine ⟨fun _ => Nat.zero_le 1, fun _ => ⟨_, by rw [hframes]; rfl, ?_, by omega⟩⟩
    rwa [(hfinish _).1]
  obtain ⟨rfl, hsession⟩ := hreader (by omega)
  have hfdes : 0 < (cache.entries slot).handle.index.fdes.records.length := by
    obtain ⟨i, _, _, _, hfind, -⟩ := hs.row 0 hdepth
    obtain ⟨_, hget, -⟩ := cfiFindFde_eq_some hfind
    exact (Nat.zero_le i).trans_lt (List.getElem?_eq_some_iff.mp hget).1
  obtain ⟨frames', st, s', hends, -, hframes⟩ :=
    captureFrames_loop m (defaultStackReaderMem k) path frames hw h.arch
      (show 1 < req.maxFrames by omega) hfdes rctx
  rw [hframes]
  constructor
  · rintro ⟨r, hr, hwritten, hall⟩
    obtain rfl := Option.some.inj hr
    rw [(hfinish _).1] at hwritten
    by_contra hlt
    rcases hs.second_frame (by omega) hw h.kernel.reads (defaultStackReaderMem_ne_ok k) (by omega)
      hpc h.stackPointer hsession hends with hproduced | hcfa
    · dsimp only at hwritten
      omega
    · obtain ⟨-, -, hright⟩ := hall 2 (by omega) (by omega)
      rw [(hfinish _).2, hcfa] at hright
      have hsize := hs.size 0 hdepth
      simp only [spAt] at hright
      grind
  · intro hle
    obtain rfl : depth = 1 := by omega
    obtain ⟨hproduced, hframe⟩ :=
      hs.first_frame hdepth hw h.kernel.reads hmax hpc h.stackPointer hsession hends
    refine ⟨_, rfl, ?_, fun i hlo hhi => ?_⟩
    · rw [(hfinish _).1]
      exact hproduced
    · obtain rfl : i = 1 := by omega
      rw [(hfinish _).2]
      exact hframe

/-! ### Two nested calls -/

/-- A CIE with the row CFA = `r7` + 8 and the return address at CFA - 8 (`DW_CFA_def_cfa`,
`DW_CFA_offset`), whose program lies at address 0x5000. -/
def nestedCie : CieRecord := ⟨1, 8, 16, 0, -8, 1, 0, 0, 0, 0x5000, 5⟩

/-- The host memory: the program of `nestedCie`. -/
def nestedMem : ByteMem := memOf 0x5000 [0x0c, 7, 8, 0x90, 1]

/-- An FDE of it without a program of its own, for the addresses from 0x1000 to 0x2000. -/
def nestedFde : FdeRecord := ⟨⟨some 0, 0⟩, 16, 0x1000, 0x1000, 0x5005, 0⟩

/-- The index of a module with this one FDE. -/
def nestedIndex : DwarfIndex :=
  { DwarfIndex.zero with
    cies := ⟨some 0, [nestedCie]⟩
    fdes := ⟨some 1, [nestedFde]⟩ }

/-- The memory of the thread: the return addresses 0x1020 and 0x1030 at the stack pointer
0x7000 and above it. -/
def nestedStack : ByteMem :=
  memOf 0x7000 [0x20, 0x10, 0, 0, 0, 0, 0, 0, 0x30, 0x10, 0, 0, 0, 0, 0, 0]

def nestedLoader : Loader := ⟨fun _ => .ok .zero, fun _ => .ok nestedIndex⟩

def nestedKernel : Kernel where
  ptraceAttach _ _ := true
  waitpid _ _ := .stopped
  processVmReadv _ _ a size := .copied (peek nestedStack size a)
  openMem _ _ := none
  pread _ _ _ _ := none

def nestedContext : Context := ⟨moduleCacheInit, true, true⟩

def nestedRegs : Regset :=
  ⟨1, 1, 0, 0x7000, 0x1010, Function.update (fun _ => 0) 7 0x7000⟩

def nestedRequest (maxFrames : ℕ) : UnwindRequest :=
  ⟨some [0x61], some nestedRegs, some fun _ => ⟨0, 0, 0, 0, 0, []⟩, maxFrames, 0, 42, 42⟩

def nestedPc (i : ℕ) : UInt64 := 0x1010 + 0x10 * UInt64.ofNat i

/-- The cache once the module has been loaded. -/
def nestedCache : ModuleCache := (moduleCacheAcquire nestedLoader moduleCacheInit [0x61]).2.1

lemma nestedCache_index : (nestedCache.entries 0).handle.index = nestedIndex := by
  rfl

lemma nestedCapture (maxFrames : ℕ) :
    CaptureOfCalls nestedLoader nestedKernel nestedContext (nestedRequest maxFrames) []
      nestedStack (fun _ => True) [0x61] nestedRegs (fun _ => ⟨0, 0, 0, 0, 0, []⟩) nestedCache
      0 where
  path_eq := rfl
  regs_eq := rfl
  frames_eq := rfl
  arch := rfl
  stackPointer := rfl
  cacheReady := rfl
  readerReady := rfl
  acquired := rfl
  kernel := ⟨show (0 : ℤ) < 42 by decide, rfl, rfl, fun _ _ _ => rfl⟩

lemma nestedIndex_wellLinked : WellLinked (nestedCache.entries 0).handle.index := by
  rw [nestedCache_index]
  intro fde hfde
  obtain rfl := List.mem_singleton.mp hfde
  exact ⟨nestedCie, rfl, by decide⟩

lemma nestedPc_callAt {i : ℕ} (hi : i < 2) (cfa : UInt64) :
    CallAt nestedMem nestedIndex (fun _ => True) (nestedPc i) 8 cfa := by
  have hfind : cfiFindFde nestedIndex.fdes.records (nestedPc i) = some 0 := by
    obtain rfl | rfl : i = 0 ∨ i = 1 := by omega
    · decide +kernel
    · decide +kernel
  have hrow : (cfiRow nestedMem nestedCie nestedFde (nestedPc i)).toOption.map (fun row =>
      (row.cfaReg, row.cfaOffset.toUInt64, row.regs 16, (row.regs 7).kind)) =
        some (7, 8, ⟨.offset, -8⟩, .sameValue) := by
    obtain rfl | rfl : i = 0 ∨ i = 1 := by omega
    · decide +kernel
    · decide +kernel
  cases h : cfiRow nestedMem nestedCie nestedFde (nestedPc i) with
  | error st =>
      rw [h] at hrow
      cases hrow
  | ok row =>
      rw [h, Except.toOption, Option.map_some, Option.some.injEq] at hrow
      injection hrow with hreg hrow
      injection hrow with hoffset hrow
      injection hrow with hreturn hsame
      exact ⟨0, nestedFde, nestedCie, row, hfind, rfl, rfl, rfl, h,
        ⟨hreg, hoffset, hreturn, hsame⟩, fun _ _ => trivial⟩

lemma nestedStack_calls {depth : ℕ} (h : depth ≤ 2) :
    CallStack nestedMem (nestedCache.entries 0).handle.index nestedStack (fun _ => True) depth
      nestedPc (fun _ => 8) nestedRegs.sp where
  row i hi := by
    rw [nestedCache_index]
    exact nestedPc_callAt (hi.trans_le h) _
  size _ _ := by decide
  returns i hi := by
    obtain rfl | rfl : i = 0 ∨ i = 1 := by omega
    · decide +kernel
    · decide +kernel

/-- One caller is recovered. -/
theorem nestedCalls_one_recovered :
    Recovers (capture nestedMem nestedLoader nestedKernel nestedContext (nestedRequest 2) []) 1
      nestedPc (fun _ => 8) nestedRegs.sp :=
  (capture_recovers_iff (nestedCapture 2) nestedIndex_wellLinked
    (nestedStack_calls (by decide)) rfl (by decide)).mpr le_rfl

/-- Of two the second is not. -/
theorem nestedCalls_two_lost :
    CaptureOfCalls nestedLoader nestedKernel nestedContext (nestedRequest 3) []
        nestedStack (fun _ => True) [0x61] nestedRegs (fun _ => ⟨0, 0, 0, 0, 0, []⟩)
        nestedCache 0 ∧
      WellLinked (nestedCache.entries 0).handle.index ∧
      CallStack nestedMem (nestedCache.entries 0).handle.index nestedStack (fun _ => True) 2
        nestedPc (fun _ => 8) nestedRegs.sp ∧
      nestedRegs.pc = nestedPc 0 ∧ 2 < (nestedRequest 3).maxFrames ∧
      ¬ Recovers (capture nestedMem nestedLoader nestedKernel nestedContext (nestedRequest 3) [])
        2 nestedPc (fun _ => 8) nestedRegs.sp := by
  refine ⟨nestedCapture 3, nestedIndex_wellLinked, nestedStack_calls le_rfl, rfl, by decide, ?_⟩
  rintro ⟨r, hr, -, hall⟩
  have hcfa : (capture nestedMem nestedLoader nestedKernel nestedContext (nestedRequest 3)
      []).map (fun r => (r.frames 2).cfa) = some 0x7008 := by
    decide +kernel
  rw [hr, Option.map_some, (hall 2 (by decide) le_rfl).2.2] at hcfa
  exact absurd hcfa (by decide)

end Dwunw
