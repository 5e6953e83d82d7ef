import Dwunw.Memleak.Probes
import Dwunw.Transparency
import Dwunw.WholeStack

/-!
The events of the leak tracers: `examples/memleak_bcc_dwunw/memleak_dwunw_user.c` and
`examples/bpf_memleak/memleak_user.c`.

The programs put a snapshot of the registers of a thread into a ring buffer.  User space takes
the events out, captures the stack of the thread from the snapshot, and prints it.  A capture that
fails although there was a thread to read is given up or made again without the thread.

* `captureEvent`: the captures of one event.
* `handleDwunwEvent`, `handleEvent`: the callbacks of the two tracers.
* `DwunwRuntime`, `setupDwunwRuntime`, `dwunwMaybePoll`, `teardownDwunwRuntime`: the context and
  the ring buffer, from setup to teardown.
-/

namespace Dwunw.Memleak

open Unfold

/-! ### Snapshots -/

/-- The decimal digits of a number. -/
def decimal (n : ℕ) : CString := (Nat.toDigits 10 n).map fun c => c.toNat.toUInt8

/-- `"/proc/%u/exe"`. -/
def procExe (pid : UInt32) : CString :=
  [0x2f, 0x70, 0x72, 0x6f, 0x63, 0x2f] ++ decimal pid.toNat ++ [0x2f, 0x65, 0x78, 0x65]

/-- `dwunw_regset_prepare` for the number of an architecture that is 32 bits wide. -/
def regsetPrepareWide (arch : UInt32) : Status × Regset :=
  if arch.toNat < 2 ^ 16 then regsetPrepare arch.toUInt16
  else (.unsupportedArch, ⟨0, 0, 0, 0, 0, fun _ => 0⟩)

/-- `copy_dwunw_regset`; the architecture of the snapshot is not copied. -/
def copyDwunwRegset (dst : Regset) (src : RegsetSnapshot) : Regset :=
  { dst with
    version := src.version
    flags := src.flags
    sp := src.sp
    pc := src.pc
    regs := src.regs }

/-- The register set of an event, if its architecture is supported. -/
def DwunwEvent.regs (evt : DwunwEvent) : Option Regset :=
  match regsetPrepareWide evt.arch with
  | (.ok, regset) => some (copyDwunwRegset regset evt.regset)
  | _ => none

/-- `struct memleak_event`. -/
structure MemleakEvent where
  pid : UInt32
  tid : UInt32
  arch : UInt16
  regVersion : UInt16
  timestampNs : UInt64
  sp : UInt64
  pc : UInt64
  regs : Fin regsetSlots → UInt64
  cookie : UInt64
  comm : List UInt8

/-- `memleak_capture_regs`, on x86-64: the slots that it fills from the registers it is passed. -/
def memleakCaptureRegs (ctx : PtRegs) : Fin regsetSlots → UInt64 :=
  let regs : Fin regsetSlots → UInt64 := fun _ => 0
  let regs := Function.update regs 0 ctx.ax
  let regs := Function.update regs 1 ctx.bx
  let regs := Function.update regs 2 ctx.cx
  let regs := Function.update regs 3 ctx.dx
  let regs := Function.update regs 4 ctx.si
  let regs := Function.update regs 5 ctx.di
  let regs := Function.update regs 6 ctx.bp
  Function.update regs 7 ctx.sp

/-- `memleak_event_to_regset`. -/
def memleakEventToRegset (evt : MemleakEvent) : Except Status Regset :=
  match regsetPrepare evt.arch with
  | (.ok, out) => .ok { out with sp := evt.sp, pc := evt.pc, regs := evt.regs }
  | (st, _) => .error st

/-! ### Handling an event -/

/-- `enum dwunw_mode`. -/
inductive DwunwMode where
  | off
  | fallback
  | force
  deriving DecidableEq, Repr

/-- How the captures of an event come out: the status with which the one that had the thread to
read failed, and the one that is reported, if any. -/
structure Attempt where
  failed : Option Status
  result : Option CaptureResult
  ctx : Context
  calls : List SysCall

/-- The captures of an event.  One that fails although it had a thread to read is given up or is
made again without the thread, into a buffer of zero bytes. -/
def captureEvent (m : ByteMem) (ld : Loader) (k : Kernel) (mode : DwunwMode) (ctx : Context)
    (req : UnwindRequest) (calls : List SysCall) : Option Attempt :=
  (capture m ld k ctx req calls).bind fun res =>
    if res.status ≠ .ok ∧ 0 < req.pid then
      match mode with
      | .force => some ⟨some res.status, none, res.ctx, res.calls⟩
      | .fallback =>
          (capture m ld k res.ctx { req with frames := some fun _ => .zero, pid := 0, tid := 0 }
            res.calls).map fun res' => ⟨some res.status, some res', res'.ctx, res'.calls⟩
      | .off => some ⟨none, some res, res.ctx, res.calls⟩
    else some ⟨none, some res, res.ctx, res.calls⟩

/-- What the callbacks print. -/
inductive EventLine where
  | regsetFailed (err : Status)
  | readerRequired (pid : UInt32) (comm : CString) (err : Status)
  | readerFailed (pid : UInt32) (comm : CString) (err : Status)
  | captureFailed (pid : UInt32) (comm : CString) (err : Status)
  | captured (pid : UInt32) (comm : CString) (written : ℕ)
  | event (pid : UInt32) (comm : CString) (pc : UInt64)
  | frame (i : ℕ) (pc sp ra : UInt64) (flags : UInt32) (modulePath : Option CString)
  | pollFailed (err : ℤ)
  deriving DecidableEq, Repr

/-- The frames that a capture has written. -/
def writtenFrames (res : CaptureResult) : List Frame :=
  (List.range res.framesWritten).map res.frames

/-- What is printed of the captures of an event of a process, when `frameLines` are the lines of
the frames. -/
def Attempt.lines (a : Attempt) (pid : UInt32) (comm : CString)
    (frameLines : List Frame → List EventLine) : List EventLine :=
  match a.failed, a.result with
  | some st, none => [.readerRequired pid comm st]
  | failed, some res =>
      (failed.map fun st => .readerFailed pid comm st).toList ++
        if res.status ≠ .ok then [.captureFailed pid comm res.status]
        else frameLines (writtenFrames res)
  | none, none => []

/-- The header of `handle_dwunw_event`, and `dwunw_print_frames`. -/
def dwunwPrintFrames (pid : UInt32) (comm : CString) (frames : List Frame) : List EventLine :=
  .captured pid comm frames.length ::
    frames.mapIdx fun i f => .frame i f.pc f.sp f.ra f.flags (some f.modulePath)

/-- The lines of the frames in `handle_event`. -/
def memleakPrintFrames (evt : MemleakEvent) (frames : List Frame) : List EventLine :=
  .event evt.pid evt.comm evt.pc ::
    frames.mapIdx fun i f => .frame i f.pc f.sp f.ra f.flags none

/-- The request of an event: up to eight frames, in a buffer of zero bytes. -/
def eventRequest (path : CString) (regs : Regset) (pid tid : ℤ) : UnwindRequest :=
  ⟨some path, some regs, some fun _ => .zero, 8, 0, pid, tid⟩

/-- The conversion to `pid_t`. -/
def toPid (pid : UInt32) : ℤ := pid.toInt32.toInt

/-- `struct dwunw_runtime`; the ring buffer is there or is not. -/
structure DwunwRuntime where
  mode : DwunwMode
  ctx : Context
  ctxReady : Bool
  rb : Bool

/-- `sizeof(struct memleak_dwunw_event)`. -/
def sizeofDwunwEvent : ℕ := 312

/-- What a callback leaves: the state, the system calls, and what it has printed. -/
structure Handled (σ : Type) where
  state : σ
  calls : List SysCall
  printed : List EventLine

/-- The request of `handle_dwunw_event`. -/
def dwunwRequest (mode : DwunwMode) (evt : DwunwEvent) (regs : Regset) : UnwindRequest :=
  if mode ≠ .off then eventRequest (procExe evt.tgid) regs (toPid evt.tgid) (toPid evt.pid)
  else eventRequest (procExe evt.tgid) regs 0 0

/-- `handle_dwunw_event`. -/
def handleDwunwEvent (m : ByteMem) (ld : Loader) (k : Kernel) (rt : DwunwRuntime) (dataSz : ℕ)
    (evt : DwunwEvent) (calls : List SysCall) : Option (Handled DwunwRuntime) :=
  if dataSz < sizeofDwunwEvent ∨ rt.ctxReady = false then some ⟨rt, calls, []⟩
  else
    match evt.regs with
    | none => some ⟨rt, calls, []⟩
    | some regs =>
        (captureEvent m ld k rt.mode rt.ctx (dwunwRequest rt.mode evt regs) calls).map fun a =>
          ⟨{ rt with ctx := a.ctx }, a.calls,
            a.lines evt.tgid evt.comm (dwunwPrintFrames evt.tgid evt.comm)⟩

/-- `resolve_proc_exe` and what stands in for its result when it fails: the target of the link
that `readlink` returns, cut to the buffer, or `"[pid:%u]"`. -/
def resolveProcExe (readlink : CString → Option CString) (pid : UInt32) : CString :=
  match readlink (procExe pid) with
  | some target => target.take (maxPathLen - 1)
  | none => [0x5b, 0x70, 0x69, 0x64, 0x3a] ++ decimal pid.toNat ++ [0x5d]

/-- `handle_event`. -/
def handleEvent (m : ByteMem) (ld : Loader) (k : Kernel) (readlink : CString → Option CString)
    (ctx : Context) (evt : MemleakEvent) (calls : List SysCall) : Option (Handled Context) :=
  match memleakEventToRegset evt with
  | .error st => some ⟨ctx, calls, [.regsetFailed st]⟩
  | .ok regs =>
      let req := eventRequest (resolveProcExe readlink evt.pid) regs (toPid evt.pid) (toPid evt.tid)
      (captureEvent m ld k .fallback ctx req calls).map fun a =>
        ⟨a.ctx, a.calls, a.lines evt.pid evt.comm (memleakPrintFrames evt)⟩

/-! ### The runtime -/

/-- `setup_dwunw_runtime`; `bpf_map__fd` returns `mapFd`, and `ring_buffer__new` comes out as
`ring`. -/
def setupDwunwRuntime (mapFd : ℤ) (ring : Bool) (rt : DwunwRuntime) : ℤ × DwunwRuntime :=
  if rt.mode = .off then (0, rt)
  else
    let rt := if rt.ctxReady then rt else { rt with ctx := dwunwInit, ctxReady := true }
    if rt.rb then (0, rt)
    else if mapFd < 0 then (-1, rt)
    else if ring then (0, { rt with rb := true })
    else (-1, rt)

/-- `dwunw_shutdown`. -/
def dwunwShutdown (ctx : Context) : Context :=
  let ctx :=
    if ctx.moduleCacheReady then
      { ctx with moduleCache := moduleCacheFlush ctx.moduleCache, moduleCacheReady := false }
    else ctx
  if ctx.stackReaderReady then { ctx with stackReaderReady := false } else ctx

/-- `teardown_dwunw_runtime`. -/
def teardownDwunwRuntime (rt : DwunwRuntime) : DwunwRuntime :=
  let rt := { rt with rb := false }
  if rt.ctxReady then { rt with ctx := dwunwShutdown rt.ctx, ctxReady := false } else rt

/-- An event that is taken out of the ring buffer, the memory and the files as they are then, and
the size of the record. -/
structure Delivery where
  mem : ByteMem
  loader : Loader
  dataSz : ℕ
  event : DwunwEvent

/-- The runtime of the tracer, `exiting`, the system calls so far, and what was printed. -/
structure DwunwState where
  rt : DwunwRuntime
  exiting : Bool
  calls : List SysCall
  printed : List EventLine

/-- The callback for one event. -/
def DwunwState.deliver (k : Kernel) (s : DwunwState) (d : Delivery) : Option DwunwState :=
  (handleDwunwEvent d.mem d.loader k s.rt d.dataSz d.event s.calls).map fun h =>
    { s with rt := h.state, calls := h.calls, printed := s.printed ++ h.printed }

/-- `dwunw_maybe_poll`: `ring_buffer__poll` calls back for every event, and returns `err`. -/
def dwunwMaybePoll (k : Kernel) (err : ℤ) (ds : List Delivery) (s : DwunwState) :
    Option DwunwState :=
  if s.rt.rb = false then some s
  else
    (ds.foldlM (DwunwState.deliver k) s).map fun s =>
      -- `EINTR` and `EAGAIN` are no failures
      if err < 0 ∧ err ≠ -4 ∧ err ≠ -11 then
        { s with
          printed := s.printed ++ [.pollFailed err]
          exiting := s.exiting || decide (s.rt.mode = .force) }
      else s

end Dwunw.Memleak
