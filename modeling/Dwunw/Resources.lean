import Dwunw.CacheInv
import Dwunw.CaptureSim
import Dwunw.Lib.Monitor

/-!
What a capture takes and gives back.

A successful `PTRACE_ATTACH` takes a thread, a successful `open` of `/proc/<pid>/mem` takes
a descriptor; a `PTRACE_DETACH` gives the thread back and a `close` the descriptor.

* `account`: the monitor of the system calls that keeps what is held, and rejects giving
  back what is not held.
* `SessionHolds`: what is held is what the session says; attach establishes it, every read
  keeps it, and detach gives everything back.
* `acquire_release_entries`: an acquire and the release of what it returned.
* `capture_releases`: a capture ends with nothing held, and leaves the references to the
  active modules as they were.
-/

namespace Dwunw

open Monitor

/-! ### The account of the system calls -/

/-- What a process can hold: a thread it traces, or an open descriptor. -/
inductive Resource where
  | thread (tid : ℤ)
  | descriptor (fd : ℤ)
  deriving DecidableEq, Repr

/-- Give one back. -/
def giveBack (held : List Resource) (r : Resource) : Option (List Resource) :=
  if r ∈ held then some (held.erase r) else none

/-- What is held after a call; a detach from a thread that is not traced and a close of a
descriptor that is not open are rejected. -/
def account (k : Kernel) (past : List SysCall) (call : SysCall) (held : List Resource) :
    Option (List Resource) :=
  match call with
  | .ptraceAttach tid => some (if k.ptraceAttach past tid then .thread tid :: held else held)
  | .ptraceDetach tid => giveBack held (.thread tid)
  | .openMem pid =>
      match k.openMem past pid with
      | some fd => some (.descriptor fd :: held)
      | none => some held
  | .close fd => giveBack held (.descriptor fd)
  | .waitpid _ => some held
  | .processVmReadv _ _ _ => some held
  | .pread _ _ _ => some held

/-- What a session holds. -/
def Session.held (session : Session) : List Resource :=
  (if 0 ≤ session.memFd then [.descriptor session.memFd] else []) ++
    if session.attached then [.thread session.tid] else []

/-- Since the calls `past` exactly what the session holds has been taken and not given
back. -/
def SessionHolds (k : Kernel) (past : List SysCall) (ctx : ReaderCtx) : Prop :=
  Reaches (account k) past [] ctx.calls ctx.session.held

variable {k : Kernel} {past calls : List SysCall} {session : Session}

lemma account_close (k : Kernel) (calls : List SysCall) (fd : ℤ) (held : List Resource) :
    account k calls (.close fd) (.descriptor fd :: held) = some held := by
  rw [account, giveBack, if_pos List.mem_cons_self, List.erase_cons_head]

lemma account_ptraceDetach (k : Kernel) (calls : List SysCall) (tid : ℤ)
    (held : List Resource) :
    account k calls (.ptraceDetach tid) (.thread tid :: held) = some held := by
  rw [account, giveBack, if_pos List.mem_cons_self, List.erase_cons_head]

/-! ### Attach and detach -/

/-- The ways an attach goes, with what is held afterwards when `held` was before. -/
inductive AttachOutcome (k : Kernel) (session : Session) (calls : List SysCall)
    (held : List Resource) : Status × Session × List SysCall → Prop
  | refused : AttachOutcome k session calls held (.invalidArg, session, calls)
  | failed {calls' : List SysCall} (h : Reaches (account k) calls held calls' held) :
      AttachOutcome k session calls held (.io, .zero, calls')
  | attached {pid tid : ℤ} {calls' : List SysCall}
      (h : Reaches (account k) calls held calls' (.thread tid :: held)) :
      AttachOutcome k session calls held (.ok, ⟨pid, tid, -1, .processVm, true⟩, calls')

/-- Every attach has one of these outcomes. -/
theorem stackReaderAttach_outcome (k : Kernel) (pid tid : ℤ) (session : Session)
    (calls : List SysCall) (held : List Resource) :
    AttachOutcome k session calls held (stackReaderAttach k pid tid session calls) := by
  rw [stackReaderAttach]
  by_cases hpid : pid ≤ 0
  · rw [if_pos hpid]
    exact .refused
  rw [if_neg hpid]
  dsimp only
  generalize (if tid ≤ 0 then pid else tid) = t
  by_cases hattach : k.ptraceAttach calls t = true
  swap
  · rw [if_neg hattach]
    refine .failed ((Reaches.refl calls held).event ?_)
    rw [account, if_neg hattach]
  rw [if_pos hattach]
  have htaken : Reaches (account k) calls held (calls ++ [.ptraceAttach t])
      (.thread t :: held) := by
    refine (Reaches.refl calls held).event ?_
    rw [account, if_pos hattach]
  have hwaited : Reaches (account k) calls held (calls ++ [.ptraceAttach t] ++ [.waitpid t])
      (.thread t :: held) := htaken.event rfl
  have hgiven : Reaches (account k) calls held
      (calls ++ [.ptraceAttach t] ++ [.waitpid t] ++ [.ptraceDetach t]) held :=
    hwaited.event (account_ptraceDetach k _ t held)
  cases k.waitpid (calls ++ [.ptraceAttach t]) t with
  | failed => exact .failed hgiven
  | notStopped => exact .failed hgiven
  | stopped => exact .attached hwaited

/-- A successful attach leaves a session that holds the thread, a failed one nothing. -/
theorem stackReaderAttach_holds (k : Kernel) (pid tid : ℤ) (calls : List SysCall) :
    ((stackReaderAttach k pid tid .zero calls).1 = .ok →
      SessionHolds k calls ⟨(stackReaderAttach k pid tid .zero calls).2.1,
        (stackReaderAttach k pid tid .zero calls).2.2⟩) ∧
    ((stackReaderAttach k pid tid .zero calls).1 ≠ .ok →
      Reaches (account k) calls [] (stackReaderAttach k pid tid .zero calls).2.2 []) := by
  have hout := stackReaderAttach_outcome k pid tid .zero calls []
  generalize stackReaderAttach k pid tid .zero calls = x at hout ⊢
  cases hout with
  | refused => exact ⟨fun h => Status.noConfusion h, fun _ => .refl calls []⟩
  | failed h => exact ⟨fun h => Status.noConfusion h, fun _ => h⟩
  | attached h => exact ⟨fun _ => h, fun hne => absurd rfl hne⟩

/-- A detach gives back what the session holds, and nothing else. -/
theorem stackReaderDetach_gives (k : Kernel) (session : Session) (calls : List SysCall)
    (held : List Resource) :
    Reaches (account k) calls (session.held ++ held) (stackReaderDetach session calls).2 held := by
  have hstart (all : List Resource) : Reaches (account k) calls all calls all := .refl calls all
  by_cases hfd : 0 ≤ session.memFd <;> by_cases hatt : session.attached = true
  · simp only [Session.held, stackReaderDetach, if_pos hfd, if_pos hatt, List.cons_append,
      List.nil_append]
    have hclosed : Reaches (account k) calls
        (.descriptor session.memFd :: .thread session.tid :: held)
        (calls ++ [.close session.memFd]) (.thread session.tid :: held) :=
      (hstart _).event (account_close k calls session.memFd _)
    exact hclosed.event (account_ptraceDetach k _ session.tid held)
  · simp only [Session.held, stackReaderDetach, if_pos hfd, if_neg hatt, List.cons_append,
      List.nil_append]
    exact (hstart _).event (account_close k calls session.memFd held)
  · simp only [Session.held, stackReaderDetach, if_neg hfd, if_pos hatt, List.cons_append,
      List.nil_append]
    exact (hstart _).event (account_ptraceDetach k calls session.tid held)
  · simp only [Session.held, stackReaderDetach, if_neg hfd, if_neg hatt, List.nil_append]
    exact hstart held

/-- A detach gives back what the session holds. -/
theorem stackReaderDetach_holds (h : SessionHolds k past ⟨session, calls⟩) :
    Reaches (account k) past [] (stackReaderDetach session calls).2 [] := by
  have hgives := stackReaderDetach_gives k session calls []
  rw [List.append_nil] at hgives
  exact h.trans hgives

/-! ### Reads -/

/-- A call that neither takes nor gives back. -/
lemma account_idle {held : List Resource} {call : SysCall}
    (h : account k calls call held = some held) :
    Reaches (account k) calls held (calls ++ [call]) held := (Reaches.refl calls held).event h

/-- What a read does to the session and the calls: it opens a descriptor for the session at
most. -/
def Opens (k : Kernel) (session : Session) (calls : List SysCall) (session' : Session)
    (calls' : List SysCall) : Prop :=
  ∃ opened, session'.held = opened ++ session.held ∧ session'.attached = session.attached ∧
    ∀ held, Reaches (account k) calls held calls' (opened ++ held)

/-- The kernel's part of a read, whatever it returns. -/
lemma procMemRead_opens (k : Kernel) (session : Session) (calls : List SysCall) (a : UInt64)
    (size : ℕ) : Opens k session calls (procMemRead k session calls a size).2.1
      (procMemRead k session calls a size).2.2 := by
  rw [procMemRead]
  dsimp only
  by_cases hfd : session.memFd < 0
  swap
  · rw [if_neg hfd]
    split <;> exact ⟨[], rfl, rfl, fun held => account_idle rfl⟩
  rw [if_pos hfd]
  cases hopen : k.openMem calls session.pid with
  | none =>
      refine ⟨[], rfl, rfl, fun held => account_idle ?_⟩
      rw [account, hopen]
  | some fd =>
      have hheld : ({ session with memFd := fd } : Session).held =
          [.descriptor fd] ++ session.held := by
        have hnone : ¬ 0 ≤ session.memFd := by omega
        simp only [Session.held, if_pos (Int.natCast_nonneg fd), if_neg hnone]
        rfl
      have hopened (held : List Resource) : Reaches (account k) calls held
          (calls ++ [.openMem session.pid]) ([.descriptor fd] ++ held) := by
        refine (Reaches.refl calls held).event ?_
        rw [account, hopen]
        rfl
      dsimp only
      split <;> exact ⟨_, hheld, rfl, fun held => (hopened held).event rfl⟩

/-- `dwunw_stack_reader_read`. -/
theorem stackReaderRead_opens (k : Kernel) (session : Session) (calls : List SysCall)
    (a : UInt64) (size : ℕ) : Opens k session calls (stackReaderRead k session calls a size).2.1
      (stackReaderRead k session calls a size).2.2 := by
  have hnothing : Opens k session calls session calls :=
    ⟨[], rfl, rfl, fun held => .refl calls held⟩
  rw [stackReaderRead]
  by_cases hsize : size = 0
  · rw [if_pos hsize]
    exact hnothing
  rw [if_neg hsize]
  cases session.backend with
  | none => exact hnothing
  | procMem => exact procMemRead_opens k session calls a size
  | processVm =>
      have hcalls : (processVmRead k session calls a size).2 =
          calls ++ [.processVmReadv session.tid a size] := by
        rw [processVmRead]
        split <;> rfl
      have hidle (held : List Resource) : Reaches (account k) calls held
          (calls ++ [.processVmReadv session.tid a size]) held := account_idle rfl
      dsimp only
      generalize processVmRead k session calls a size = x at hcalls ⊢
      obtain ⟨r, calls'⟩ := x
      obtain rfl : calls' = _ := hcalls
      split
      · next heq =>
        cases heq
        obtain ⟨opened, hheld, hatt, hreach⟩ := procMemRead_opens k
          { session with backend := .procMem } (calls ++ [.processVmReadv session.tid a size])
          a size
        exact ⟨opened, hheld, hatt, fun held => (hidle held).trans (hreach held)⟩
      · next heq =>
        cases heq
        exact ⟨[], rfl, rfl, hidle⟩

/-- Every read keeps the session as the account of what is held. -/
theorem defaultStackReaderMem_holds {ctx : ReaderCtx} (h : SessionHolds k past ctx)
    (a : UInt64) : SessionHolds k past (defaultStackReaderMem k ctx a).2 := by
  obtain ⟨session, calls⟩ := ctx
  obtain ⟨opened, hheld, -, hreach⟩ := stackReaderRead_opens k session calls a 8
  have hread : SessionHolds k past ⟨(stackReaderRead k session calls a 8).2.1,
      (stackReaderRead k session calls a 8).2.2⟩ := by
    rw [SessionHolds, hheld]
    exact h.trans (hreach session.held)
  rw [defaultStackReaderMem]
  dsimp only
  split
  · next heq =>
    rw [heq] at hread
    exact hread
  · next heq =>
    rw [heq] at hread
    exact hread

/-! ### A whole capture -/

section Capture

variable {m : ByteMem} {ld : Loader} {ctx : Context} {req : UnwindRequest}

/-- An attach that no reader is used with has left nothing to give back. -/
lemma attachStep_unused (h : ¬ UsesReader ctx req (attachStep k ctx req calls).1) :
    Reaches (account k) calls [] (attachStep k ctx req calls).2.2 [] := by
  rw [attachStep] at h ⊢
  by_cases hwants : WantsReader ctx req
  · rw [if_pos hwants] at h ⊢
    exact (stackReaderAttach_holds k req.pid req.tid calls).2 fun hok => h ⟨hwants, hok⟩
  · rw [if_neg hwants]
    exact .refl calls []

/-- An attach that a reader is used with has left a session that holds the thread. -/
lemma attachStep_used (h : UsesReader ctx req (attachStep k ctx req calls).1) :
    SessionHolds k calls ⟨(attachStep k ctx req calls).2.1, (attachStep k ctx req calls).2.2⟩ := by
  have hok := h.2
  rw [attachStep, if_pos h.1] at hok ⊢
  exact (stackReaderAttach_holds k req.pid req.tid calls).1 hok

/-- When a capture returns nothing that it took is held. -/
theorem capture_account {res : CaptureResult} (h : capture m ld k ctx req calls = some res) :
    Reaches (account k) calls [] res.calls [] := by
  cases capture_outcome h with
  | refused _ => exact .refl calls []
  | unloaded _ _ =>
      show Reaches (account k) calls [] (detachStep _ _ _ _ _) []
      rw [detachStep]
      by_cases huses : UsesReader ctx req (attachStep k ctx req calls).1
      · rw [if_pos huses]
        exact stackReaderDetach_holds (attachStep_used huses)
      · rw [if_neg huses]
        exact attachStep_unused huses
  | @loaded path regs frames _ cache slot x _ _ hx =>
      show Reaches (account k) calls [] (detachStep _ _ _ _ _) []
      rw [loadedFrames, readerStep] at hx
      rw [detachStep]
      by_cases huses : UsesReader ctx req (attachStep k ctx req calls).1
      · rw [if_pos huses] at hx ⊢
        refine stackReaderDetach_holds (captureFrames_keeps (I := SessionHolds k calls) ?_
          (attachStep_used huses) hx)
        rintro r ⟨⟩ rctx a hrctx
        exact defaultStackReaderMem_holds hrctx a
      · rw [if_neg huses] at hx ⊢
        refine captureFrames_keeps (I := fun rctx => Reaches (account k) calls [] rctx.calls [])
          ?_ (attachStep_unused huses) hx
        rintro r ⟨⟩

end Capture

/-! ### The references -/

/-- An entry that a capture leaves: an active one has its references and its module, one
that nobody held is not held afterwards either. -/
structure CacheEntry.Restored (e e' : CacheEntry) : Prop where
  active : e.state = .active → e'.refcnt = e.refcnt ∧ e'.handle = e.handle
  idle : e.state ≠ .active → e.refcnt = 0 → e'.refcnt = 0 ∧ e'.state ≠ .active

lemma CacheEntry.Restored.refl (e : CacheEntry) : e.Restored e :=
  ⟨fun _ => ⟨rfl, rfl⟩, fun h h' => ⟨h', h⟩⟩

/-- A release touches no other entry. -/
lemma release_entries_of_ne (c : ModuleCache) {i j : Slot} (h : i ≠ j) :
    (moduleCacheRelease c j).2.entries i = c.entries i := by
  have hr := moduleCacheRelease_outcome c j
  generalize moduleCacheRelease c j = r at hr ⊢
  cases hr with
  | refused _ => rfl
  | last _ _ => exact ModuleCache.set_entries_of_ne c h _
  | drops _ _ _ => exact ModuleCache.set_entries_of_ne c h _

/-- The release of the only reference to an active module leaves it warm. -/
lemma release_only (c : ModuleCache) (i : Slot) {e : CacheEntry} (hactive : e.state = .active)
    (hone : e.refcnt = 1) :
    (moduleCacheRelease (c.set i e) i).2.entries i = e.warmed (c.warmClock + 1) := by
  have hr := moduleCacheRelease_outcome (c.set i e) i
  generalize moduleCacheRelease (c.set i e) i = r at hr ⊢
  cases hr with
  | refused h => simp [hactive, hone] at h
  | last _ _ => simp
  | drops _ _ hne => simp [hone] at hne

/-- The release of one reference more than there were. -/
lemma release_shared (c : ModuleCache) (i : Slot) {e : CacheEntry} (hactive : e.state = .active)
    (hbound : e.refcnt.toNat + 1 < 2 ^ 32) :
    e.Restored ((moduleCacheRelease (c.set i e.shared) i).2.entries i) := by
  have hr := moduleCacheRelease_outcome (c.set i e.shared) i
  have hcnt : e.shared.refcnt.toNat = e.refcnt.toNat + 1 := by
    rw [CacheEntry.shared, UInt32.toNat_add]
    exact Nat.mod_eq_of_lt hbound
  refine ⟨fun _ => ?_, fun h => absurd hactive h⟩
  generalize moduleCacheRelease (c.set i e.shared) i = r at hr ⊢
  cases hr with
  | refused h =>
      rw [ModuleCache.set_entries_self] at h
      rcases h with h | h
      · exact absurd (hactive.symm.trans h) (by decide)
      · rw [h] at hcnt
        exact absurd hcnt.symm (Nat.succ_ne_zero _)
  | last _ h =>
      rw [ModuleCache.set_entries_self] at h
      rw [h] at hcnt
      have hzero : e.refcnt = 0 := UInt32.toNat_inj.mp (Nat.succ.inj hcnt).symm
      simp [CacheEntry.warmed, CacheEntry.shared, hzero]
  | drops _ _ _ => simp [CacheEntry.dropped, CacheEntry.shared]

/-- An acquire and the release of the slot it returned. -/
theorem acquire_release_restored {ld : Loader} {c cache : ModuleCache} {path : CString}
    {st : Status} {slot : Slot} (hbound : ∀ i, (c.entries i).refcnt.toNat + 1 < 2 ^ 32)
    (hr : AcquireOutcome ld c path (st, cache, some slot)) (i : Slot) :
    (c.entries i).Restored ((moduleCacheRelease cache slot).2.entries i) := by
  by_cases hi : i = slot
  swap
  · rw [release_entries_of_ne _ hi]
    cases hr <;> rw [ModuleCache.set_entries_of_ne _ hi] <;> exact .refl _
  subst hi
  cases hr with
  | reuses _ hwarm =>
      rw [release_only c i rfl rfl]
      exact ⟨fun h => absurd (hwarm.symm.trans h) (by decide), fun _ _ => ⟨rfl, nofun⟩⟩
  | shares _ hactive => exact release_shared c i hactive (hbound i)
  | loads _ hclaims _ =>
      rw [release_only c i rfl rfl]
      exact ⟨fun h => absurd h hclaims.not_active, fun _ _ => ⟨rfl, nofun⟩⟩

/-- An acquire that fails. -/
theorem acquire_failed_restored {ld : Loader} {c cache : ModuleCache} {path : CString}
    {st : Status} (hr : AcquireOutcome ld c path (st, cache, none)) (i : Slot) :
    (c.entries i).Restored (cache.entries i) := by
  cases hr with
  | full _ _ => exact .refl _
  | @fails j _ _ _ hclaims _ _ =>
      by_cases hi : i = j
      swap
      · rw [ModuleCache.set_entries_of_ne _ hi]
        exact .refl _
      subst hi
      rw [ModuleCache.set_entries_self]
      refine ⟨fun h => absurd h hclaims.not_active, fun _ hzero => ⟨?_, ?_⟩⟩
      · show (c.entries i).claimed.refcnt = 0
        rw [CacheEntry.claimed]
        split
        · exact hzero
        · rfl
      · show (c.entries i).claimed.state ≠ .active
        rw [CacheEntry.claimed_state]
        decide

/-- Whatever the kernel, the loader and the unwinder do: when a capture returns, what it
attached to and opened has been detached and closed, each once; the modules that were active
have the references and the contents they had; and a module that was taken up for the capture
only is held by nobody. -/
theorem capture_releases {m : ByteMem} {ld : Loader} {ctx : Context} {req : UnwindRequest}
    {res : CaptureResult}
    (hbound : ∀ i, (ctx.moduleCache.entries i).refcnt.toNat + 1 < 2 ^ 32)
    (h : capture m ld k ctx req calls = some res) :
    (∃ new, res.calls = calls ++ new ∧ watch (account k) calls new [] = some []) ∧
    ∀ i, (ctx.moduleCache.entries i).Restored (res.ctx.moduleCache.entries i) := by
  refine ⟨capture_account h, fun i => ?_⟩
  cases capture_outcome h with
  | refused _ => exact .refl _
  | @unloaded path _ _ _ _ _ hacquire =>
      have hr := moduleCacheAcquire_outcome ld ctx.moduleCache path
      rw [hacquire] at hr
      exact acquire_failed_restored hr i
  | @loaded path _ _ _ _ _ _ _ hacquire _ =>
      have hr := moduleCacheAcquire_outcome ld ctx.moduleCache path
      rw [hacquire] at hr
      exact acquire_release_restored hbound hr i

/-- A kernel that reads the memory of the thread through `/proc`. -/
def procKernel : Kernel :=
  { nestedKernel with
    processVmReadv := fun _ _ _ _ => .unavailable
    openMem := fun _ _ => some 3
    pread := fun _ _ a size => some (peek nestedStack size a) }

/-- A capture that reads through `/proc/PID/mem` closes it. -/
theorem capture_releases_proc :
    ∃ res, capture nestedMem nestedLoader procKernel dwunwInit (nestedRequest 3) [] = some res ∧
      .openMem 42 ∈ res.calls ∧ watch (account procKernel) [] res.calls [] = some [] := by
  have hdefined : (capture nestedMem nestedLoader procKernel dwunwInit (nestedRequest 3)
      []).any fun res => decide (.openMem 42 ∈ res.calls) := by decide +kernel
  obtain ⟨res, hres, hopen⟩ := (Option.any_eq_true _ _).mp hdefined
  obtain ⟨⟨new, hnew, hwatch⟩, -⟩ := capture_releases (by decide) hres
  exact ⟨res, hres, of_decide_eq_true hopen, by rwa [hnew, List.nil_append]⟩

end Dwunw
