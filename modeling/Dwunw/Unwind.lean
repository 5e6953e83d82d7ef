import Dwunw.ModuleCache
import Dwunw.StackReader

/-!
The capture of a stack: `src/unwinder/dwunw_unwind.c`.

`captureTurn` is one turn of the unwinding loop over any memory reader; `capture` is
`dwunw_capture` with the module cache and the default stack reader.  Following the CIE
pointer of an FDE whose table has moved, or indexing past the register slots, is undefined
in C; such a capture is `none`.
-/

namespace Dwunw

open Loop

/-- `struct dwunw_unwind_request`; a `NULL` field is `none`, and a frame buffer is its
contents. -/
structure UnwindRequest where
  modulePath : Option CString
  regs : Option Regset
  frames : Option (ℕ → Frame)
  maxFrames : ℕ
  options : UInt32
  pid : ℤ
  tid : ℤ

/-- `struct dwunw_context`, less the reader's reserved word. -/
structure Context where
  moduleCache : ModuleCache
  moduleCacheReady : Bool
  stackReaderReady : Bool

/-- `dwunw_init`. -/
def dwunwInit : Context := ⟨moduleCacheInit, true, true⟩

/-- `DWUNW_FRAME_FLAG_PARTIAL`. -/
def framePartial : UInt32 := 1

/-- `prepare_root_frame`: the frame to be written into `frame`. -/
def prepareRootFrame (regs : Regset) (frame : Frame) : Except Status Frame :=
  match archFromRegset regs with
  | none => .error .unsupportedArch
  | some ops => do
      let cfa ← match ops.computeCfa regs with
        | .error .notImplemented => .ok regs.sp
        | r => r
      let win ← match ops.openFrame regs with
        | .error .notImplemented =>
            match ops.readReturnAddr regs with
            | .error .notImplemented => .ok ⟨cfa, regs.pc⟩
            | .error st => .error st
            | .ok ra => .ok ⟨cfa, ra⟩
        | r => r
      .ok { frame with
        pc := regs.pc
        sp := regs.sp
        cfa := win.cfa
        ra := win.ra
        flags := framePartial }

/-- `strncpy` of the module path into a frame. -/
def Frame.withPath (f : Frame) (path : CString) : Frame :=
  { f with modulePath := path.take (maxPathLen - 1) }

/-- The local variables of the unwinding loop. -/
structure CaptureLoop (σ : Type) where
  produced : ℕ
  cursorRegs : Regset
  frames : ℕ → Frame
  ctx : σ

/-- How the unwinding loop ends: the status and the variables, or `none` when a step is
undefined. -/
abbrev CaptureEnd (σ : Type) := Option (Status × CaptureLoop σ)

/-- `ops->normalize`, its status ignored. -/
def normalizeCursor (ops : Option ArchOps) (regs : Regset) : Regset :=
  match ops with
  | some ops => (ops.normalize regs).2
  | none => regs

/-- One turn of the unwinding loop of `dwunw_capture`. -/
def captureTurn {σ : Type} (m : ByteMem) (index : DwarfIndex) (reader : MemoryRead σ)
    (ops : Option ArchOps) (path : CString) (maxFrames : ℕ) (s : CaptureLoop σ) :
    Turn (CaptureLoop σ) (CaptureEnd σ) :=
  if s.produced < maxFrames then
    match cfiFindFde index.fdes.records s.cursorRegs.pc with
    | none => .done (some (.ok, s))
    | some i =>
        match index.fdes.records[i]?.bind fun fde =>
            (index.cies.deref fde.cie).bind fun cie =>
              cfiEval m cie fde s.cursorRegs.pc s.cursorRegs reader s.ctx
                (s.frames s.produced) with
        | none => .done none
        | some ev =>
            if ev.status ≠ .ok then
              .done (some (ev.status, { s with
                cursorRegs := ev.regs
                frames := Function.update s.frames s.produced ev.frame
                ctx := ev.ctx }))
            else
              let frame := { ev.frame with flags := ev.frame.flags &&& ~~~framePartial }
              .next
                { produced := s.produced + 1
                  cursorRegs := normalizeCursor ops ev.regs
                  frames := Function.update s.frames s.produced (frame.withPath path)
                  ctx := ev.ctx }
  else .done (some (.ok, s))

/-- The unwinding loop of `dwunw_capture`.  Every turn adds a frame, so the number of frames
that are left is fuel enough. -/
def captureLoop {σ : Type} (m : ByteMem) (index : DwarfIndex) (reader : MemoryRead σ)
    (ops : Option ArchOps) (path : CString) (maxFrames : ℕ) (s : CaptureLoop σ) :
    CaptureEnd σ :=
  (run (captureTurn m index reader ops path maxFrames) (maxFrames - s.produced + 1) s).getD none

/-- What `dwunw_capture` leaves behind: the status, `*frames_written`, the frame buffer, the
context and the system calls. -/
structure CaptureResult where
  status : Status
  framesWritten : ℕ
  frames : ℕ → Frame
  ctx : Context
  calls : List SysCall

/-- The part of `dwunw_capture` between acquire and release: the status, the number of frames
produced, the frames, and the reader's context. -/
def captureFrames {σ : Type} (m : ByteMem) (index : DwarfIndex) (reader : Option (MemoryRead σ))
    (path : CString) (regs : Regset) (frames : ℕ → Frame) (maxFrames : ℕ) (ctx : σ) :
    Option (Status × ℕ × (ℕ → Frame) × σ) :=
  match prepareRootFrame regs (frames 0) with
  | .error st => some (st, 0, frames, ctx)
  | .ok root =>
      let frames := Function.update frames 0 (root.withPath path)
      match reader with
      | none => some (.ok, 1, frames, ctx)
      | some reader =>
          if 1 < maxFrames ∧ 0 < index.fdes.records.length then
            (captureLoop m index reader (archFromRegset regs) path maxFrames
              ⟨1, regs, frames, ctx⟩).map fun (st, s) => (st, s.produced, s.frames, s.ctx)
          else some (.ok, 1, frames, ctx)

/-- `dwunw_capture`. -/
def capture (m : ByteMem) (ld : Loader) (k : Kernel) (ctx : Context) (req : UnwindRequest)
    (calls : List SysCall) : Option CaptureResult :=
  match req.modulePath, req.regs, req.frames with
  | some path, some regs, some frames =>
      if req.maxFrames = 0 ∨ ctx.moduleCacheReady = false then
        some ⟨.invalidArg, 0, frames, ctx, calls⟩
      else
        -- attach
        let wanted := ctx.stackReaderReady ∧ 0 < req.pid ∧ 1 < req.maxFrames
        let (readerStatus, session, calls) :=
          if wanted then stackReaderAttach k req.pid req.tid .zero calls
          else (.ok, .zero, calls)
        let usingReader := wanted ∧ readerStatus = .ok
        let finish (session : Session) (calls : List SysCall) : List SysCall :=
          if usingReader then (stackReaderDetach session calls).2 else calls
        match moduleCacheAcquire ld ctx.moduleCache path with
        | (st, cache, none) =>
            some ⟨st, 0, frames, { ctx with moduleCache := cache }, finish session calls⟩
        | (_, cache, some slot) =>
            let reader := if usingReader then some (defaultStackReaderMem k) else none
            (captureFrames m (cache.entries slot).handle.index reader path regs frames
                req.maxFrames ⟨session, calls⟩).map fun (st, produced, frames, rctx) =>
              { status := if st = .ok ∧ readerStatus ≠ .ok then readerStatus else st
                framesWritten := produced
                frames
                ctx := { ctx with moduleCache := (moduleCacheRelease cache slot).2 }
                calls := finish rctx.session rctx.calls }
  | _, _, frames =>
      some ⟨.invalidArg, 0, frames.getD fun _ => ⟨0, 0, 0, 0, 0, []⟩, ctx, calls⟩

end Dwunw
