import Dwunw.Cfi.Eval

/-!
The default stack reader of `src/utils/stack_reader.c`.

The kernel is a parameter: it answers every system call from the calls made before, so any
sequence of outcomes is the behaviour of some kernel.  The list of the calls made so far is
the only state outside the session.
-/

namespace Dwunw

/-- A system call. -/
inductive SysCall where
  | ptraceAttach (tid : ℤ)
  | ptraceDetach (tid : ℤ)
  | waitpid (tid : ℤ)
  | processVmReadv (tid : ℤ) (address : UInt64) (size : ℕ)
  | openMem (pid : ℤ)
  | pread (fd : ℤ) (address : UInt64) (size : ℕ)
  | close (fd : ℤ)
  deriving DecidableEq, Repr

/-- How a `waitpid` that is repeated while it is interrupted comes out. -/
inductive WaitResult where
  | failed
  | stopped
  | notStopped
  deriving DecidableEq, Repr

/-- How `process_vm_readv` comes out: the bytes copied, one of the error numbers for which
the reader falls back, or another one. -/
inductive ReadvResult where
  | copied (bs : List UInt8)
  | unavailable
  | failed
  deriving DecidableEq, Repr

/-- The kernel: its answer to a call after the calls made before it. -/
structure Kernel where
  ptraceAttach : List SysCall → ℤ → Bool
  waitpid : List SysCall → ℤ → WaitResult
  processVmReadv : List SysCall → ℤ → UInt64 → ℕ → ReadvResult
  openMem : List SysCall → ℤ → Option ℕ
  pread : List SysCall → ℤ → UInt64 → ℕ → Option (List UInt8)

/-- The `DWUNW_STACK_READER_BACKEND_*` constants. -/
inductive Backend where
  | none
  | processVm
  | procMem
  deriving DecidableEq, Repr

/-- `struct dwunw_stack_reader_session`. -/
structure Session where
  pid : ℤ
  tid : ℤ
  memFd : ℤ
  backend : Backend
  attached : Bool
  deriving DecidableEq, Repr

/-- A session of zero bytes. -/
def Session.zero : Session := ⟨0, 0, 0, .none, false⟩

/-- `dwunw_stack_reader_attach`. -/
def stackReaderAttach (k : Kernel) (pid tid : ℤ) (session : Session) (calls : List SysCall) :
    Status × Session × List SysCall :=
  if pid ≤ 0 then (.invalidArg, session, calls)
  else
    let tid := if tid ≤ 0 then pid else tid
    let attach := calls ++ [.ptraceAttach tid]
    if k.ptraceAttach calls tid then
      let waited := attach ++ [.waitpid tid]
      match k.waitpid attach tid with
      | .stopped => (.ok, ⟨pid, tid, -1, .processVm, true⟩, waited)
      | _ => (.io, .zero, waited ++ [.ptraceDetach tid])
    else (.io, .zero, attach)

/-- `dwunw_stack_reader_detach`. -/
def stackReaderDetach (session : Session) (calls : List SysCall) : Session × List SysCall :=
  let calls := if 0 ≤ session.memFd then calls ++ [.close session.memFd] else calls
  let calls := if session.attached then calls ++ [.ptraceDetach session.tid] else calls
  (.zero, calls)

/-- The bytes of a read, when there are as many as were asked for. -/
def exactly (size : ℕ) (bs : List UInt8) : Option (List UInt8) :=
  if bs.length = size then some bs else none

/-- `stack_reader_process_vm_read`. -/
def processVmRead (k : Kernel) (session : Session) (calls : List SysCall) (address : UInt64)
    (size : ℕ) : Except Status (List UInt8) × List SysCall :=
  let calls' := calls ++ [.processVmReadv session.tid address size]
  match k.processVmReadv calls session.tid address size with
  | .copied bs => ((exactly size bs).elim (.error .io) .ok, calls')
  | .unavailable => (.error .notImplemented, calls')
  | .failed => (.error .io, calls')

/-- `stack_reader_proc_mem_read`; the path of a pid always fits its buffer. -/
def procMemRead (k : Kernel) (session : Session) (calls : List SysCall) (address : UInt64)
    (size : ℕ) : Except Status (List UInt8) × Session × List SysCall :=
  let read (session : Session) (calls : List SysCall) :
      Except Status (List UInt8) × Session × List SysCall :=
    let calls' := calls ++ [.pread session.memFd address size]
    match k.pread calls session.memFd address size with
    | some bs => ((exactly size bs).elim (.error .io) .ok, session, calls')
    | none => (.error .io, session, calls')
  if session.memFd < 0 then
    let calls' := calls ++ [.openMem session.pid]
    match k.openMem calls session.pid with
    | none => (.error .io, session, calls')
    | some fd => read { session with memFd := fd } calls'
  else read session calls

/-- `dwunw_stack_reader_read`. -/
def stackReaderRead (k : Kernel) (session : Session) (calls : List SysCall) (address : UInt64)
    (size : ℕ) : Except Status (List UInt8) × Session × List SysCall :=
  if size = 0 then (.error .invalidArg, session, calls)
  else
    match session.backend with
    | .none => (.error .notImplemented, session, calls)
    | .procMem => procMemRead k session calls address size
    | .processVm =>
        match processVmRead k session calls address size with
        | (.error .notImplemented, calls) =>
            procMemRead k { session with backend := .procMem } calls address size
        | (r, calls) => (r, session, calls)

/-- What the reader of a capture carries from read to read: the session and the calls made
so far. -/
structure ReaderCtx where
  session : Session
  calls : List SysCall

/-- `default_stack_reader_mem` for the eight bytes of a register. -/
def defaultStackReaderMem (k : Kernel) : MemoryRead ReaderCtx := fun ctx address =>
  match stackReaderRead k ctx.session ctx.calls address 8 with
  | (.ok bs, session, calls) => (.ok (UInt64.ofNat (leNat bs)), ⟨session, calls⟩)
  | (.error st, session, calls) => (.error st, ⟨session, calls⟩)

/-! ### Failures -/

lemma exactly_ne_ok (size : ℕ) (bs : List UInt8) :
    (exactly size bs).elim (.error .io) Except.ok ≠ Except.error Status.ok := by
  rw [exactly]
  split <;> simp

lemma processVmRead_ne_ok (k : Kernel) (session : Session) (calls : List SysCall) (a : UInt64)
    (size : ℕ) : (processVmRead k session calls a size).1 ≠ .error .ok := by
  rw [processVmRead]
  split
  · exact exactly_ne_ok _ _
  · simp
  · simp

lemma procMemRead_ne_ok (k : Kernel) (session : Session) (calls : List SysCall) (a : UInt64)
    (size : ℕ) : (procMemRead k session calls a size).1 ≠ .error .ok := by
  have hread (session : Session) (calls : List SysCall) :
      (match k.pread calls session.memFd a size with
        | some bs => ((exactly size bs).elim (.error .io) .ok, session,
            calls ++ [.pread session.memFd a size])
        | none => (.error .io, session, calls ++ [.pread session.memFd a size]) :
        Except Status (List UInt8) × Session × List SysCall).1 ≠ .error .ok := by
    split
    · exact exactly_ne_ok _ _
    · simp
  rw [procMemRead]
  dsimp only
  split
  · split
    · simp
    · next fd _ => exact hread { session with memFd := fd } _
  · exact hread _ _

/-- The default reader never fails with `DWUNW_OK`. -/
lemma defaultStackReaderMem_ne_ok (k : Kernel) (ctx : ReaderCtx) (a : UInt64) :
    (defaultStackReaderMem k ctx a).1 ≠ .error .ok := by
  have hne : (stackReaderRead k ctx.session ctx.calls a 8).1 ≠ .error .ok := by
    rw [stackReaderRead, if_neg (by decide)]
    split
    · simp
    · exact procMemRead_ne_ok _ _ _ _ _
    · have hvm := processVmRead_ne_ok k ctx.session ctx.calls a 8
      split
      · exact procMemRead_ne_ok _ _ _ _ _
      · next h => rwa [h] at hvm
  rw [defaultStackReaderMem]
  split
  · simp
  · next h =>
    rw [h] at hne
    exact fun heq => hne (by simpa using heq)

end Dwunw
