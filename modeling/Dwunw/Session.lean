import Dwunw.Lib.Runs
import Dwunw.Resources

/-!
A stack reader session over its whole life.

`dwunw_stack_reader_attach` and `dwunw_stack_reader_detach` clear the session with `memset`,
and 0 is a descriptor: a session that is not attached looks as if it had opened it.

* `SessionOp`, `SessionRun.next`: the three calls on one session, in any order.
* `Owned`: detach has given back only what the session has taken, and a detach of a session that
  is not attached has called nothing.
* `SessionRun.Accounted`: an attached session owns what it is about to give back; it is kept by
  every call.
* `session_owned_iff`: a life of the session is like this exactly when every detach is of a
  session that is attached or has no descriptor.
-/

namespace Dwunw

open Monitor Runs

/-- A call on a session. -/
inductive SessionOp where
  | attach (pid tid : ℤ)
  | read (address : UInt64) (size : ℕ)
  | detach
  deriving DecidableEq, Repr

/-- A session, and the system calls so far. -/
structure SessionRun where
  session : Session
  calls : List SysCall
  deriving DecidableEq, Repr

/-- A call is made. -/
def SessionRun.next (k : Kernel) (s : SessionRun) : SessionOp → SessionRun
  | .attach pid tid =>
      let x := stackReaderAttach k pid tid s.session s.calls
      ⟨x.2.1, x.2.2⟩
  | .read address size =>
      let x := stackReaderRead k s.session s.calls address size
      ⟨x.2.1, x.2.2⟩
  | .detach =>
      let x := stackReaderDetach s.session s.calls
      ⟨x.1, x.2⟩

/-- A detach of a session that is not attached calls nothing. -/
def SessionRun.DetachesSilently (s : SessionRun) (op : SessionOp) : Prop :=
  op = .detach → s.session.attached = false →
    (stackReaderDetach s.session s.calls).2 = s.calls

/-- Along the calls of a list, detach closes only descriptors that a read of this session has
opened and nothing has closed, detaches only from threads that an attach has attached to and
nothing has detached from, and does nothing to a session that is not attached. -/
def Owned (k : Kernel) (s : SessionRun) (ops : List SessionOp) : Prop :=
  (∃ held, Reaches (account k) s.calls [] (ops.foldl (SessionRun.next k) s).calls held) ∧
    Allowed (SessionRun.next k) SessionRun.DetachesSilently s ops

/-- A detach is of a session that is attached, or has no descriptor. -/
def SessionRun.DetachesOwn (s : SessionRun) (op : SessionOp) : Prop :=
  op = .detach → s.session.attached = true ∨ s.session.memFd < 0

instance (s : SessionRun) (op : SessionOp) : Decidable (s.DetachesOwn op) :=
  inferInstanceAs (Decidable (_ → _))

/-! ### What a session owns -/

/-- Since the calls `past` only what is held has been given back, and an attached session has
what it holds. -/
def SessionRun.Accounted (k : Kernel) (past : List SysCall) (s : SessionRun) : Prop :=
  ∃ held, Reaches (account k) past [] s.calls held ∧
    (s.session.attached = true → ∃ others, held = s.session.held ++ others)

variable {k : Kernel} {past : List SysCall} {s : SessionRun}

/-- A detach that does not find the session attached calls nothing exactly when there is no
descriptor to close. -/
lemma stackReaderDetach_silent_iff {session : Session} {calls : List SysCall}
    (h : session.attached = false) :
    (stackReaderDetach session calls).2 = calls ↔ session.memFd < 0 := by
  rw [stackReaderDetach, h]
  dsimp only
  rw [if_neg Bool.false_ne_true]
  by_cases hfd : 0 ≤ session.memFd
  · rw [if_pos hfd]
    exact iff_of_false (by simp) (Int.not_lt.mpr hfd)
  · rw [if_neg hfd]
    exact iff_of_true rfl (Int.not_le.mp hfd)

lemma SessionRun.Accounted.attach (h : s.Accounted k past) (pid tid : ℤ) :
    (s.next k (.attach pid tid)).Accounted k past := by
  obtain ⟨held, hreach, howns⟩ := h
  have hout := stackReaderAttach_outcome k pid tid s.session s.calls held
  rw [SessionRun.next]
  generalize stackReaderAttach k pid tid s.session s.calls = x at hout ⊢
  cases hout with
  | refused => exact ⟨held, hreach, howns⟩
  | failed h => exact ⟨held, hreach.trans h, fun hatt => Bool.noConfusion hatt⟩
  | attached h => exact ⟨_, hreach.trans h, fun _ => ⟨held, rfl⟩⟩

lemma SessionRun.Accounted.read (h : s.Accounted k past) (address : UInt64) (size : ℕ) :
    (s.next k (.read address size)).Accounted k past := by
  obtain ⟨held, hreach, howns⟩ := h
  obtain ⟨opened, hheld, hatt, hopens⟩ :=
    stackReaderRead_opens k s.session s.calls address size
  refine ⟨opened ++ held, hreach.trans (hopens held), fun hatt' => ?_⟩
  obtain ⟨others, rfl⟩ := howns (hatt.symm.trans hatt')
  refine ⟨others, ?_⟩
  rw [SessionRun.next, hheld, List.append_assoc]

lemma SessionRun.Accounted.detach (h : s.Accounted k past) (hown : s.DetachesOwn .detach) :
    (s.next k .detach).Accounted k past := by
  obtain ⟨held, hreach, howns⟩ := h
  cases hatt : s.session.attached with
  | false =>
      have hfd := (hown rfl).resolve_left (by rw [hatt]; exact Bool.false_ne_true)
      refine ⟨held, ?_, fun hatt' => Bool.noConfusion hatt'⟩
      rwa [SessionRun.next, (stackReaderDetach_silent_iff hatt).mpr hfd]
  | true =>
      obtain ⟨others, rfl⟩ := howns hatt
      refine ⟨others, hreach.trans (stackReaderDetach_gives k _ _ _), fun hatt' => ?_⟩
      exact Bool.noConfusion hatt'

/-- Every call keeps the account, a detach one that is the session's own. -/
theorem SessionRun.Accounted.next (h : s.Accounted k past) {op : SessionOp}
    (hown : s.DetachesOwn op) : (s.next k op).Accounted k past := by
  cases op with
  | attach pid tid => exact h.attach pid tid
  | read address size => exact h.read address size
  | detach => exact h.detach hown

/-- A step is silent where it has to be exactly when it is the session's own. -/
lemma detachesSilently_iff {op : SessionOp} : s.DetachesSilently op ↔ s.DetachesOwn op := by
  cases op with
  | attach pid tid => exact iff_of_true (fun h => by cases h) fun h => by cases h
  | read address size => exact iff_of_true (fun h => by cases h) fun h => by cases h
  | detach =>
      cases hatt : s.session.attached with
      | true =>
          refine iff_of_true (fun _ hno => ?_) fun _ => .inl hatt
          rw [hatt] at hno
          cases hno
      | false =>
          refine ⟨fun h _ => .inr ((stackReaderDetach_silent_iff hatt).mp (h rfl hatt)),
            fun h _ _ => (stackReaderDetach_silent_iff hatt).mpr ?_⟩
          refine (h rfl).resolve_left ?_
          rw [hatt]
          exact Bool.false_ne_true

/-! ### The whole life -/

/-- From a session that is not attached, detach releases only what the session owns exactly when
every detach is of a session that is attached or has no descriptor. -/
theorem session_owned_iff (hstart : s.session.attached = false) (ops : List SessionOp) :
    Owned k s ops ↔ Allowed (SessionRun.next k) SessionRun.DetachesOwn s ops := by
  have hsame : Allowed (SessionRun.next k) SessionRun.DetachesSilently s ops ↔
      Allowed (SessionRun.next k) SessionRun.DetachesOwn s ops := by
    clear hstart
    induction ops generalizing s with
    | nil => exact Iff.rfl
    | cons op ops ih => exact and_congr detachesSilently_iff ih
  refine ⟨fun h => hsame.mp h.2, fun h => ⟨?_, hsame.mpr h⟩⟩
  have hinit : s.Accounted k s.calls :=
    ⟨[], .refl s.calls [], fun hatt => by rw [hstart] at hatt; cases hatt⟩
  obtain ⟨held, hreach, -⟩ := (Reach.of_list h).invariant (I := SessionRun.Accounted k s.calls)
    hinit fun t op _ ht hown => ht.next hown
  exact ⟨held, hreach⟩

/-! ### A detach after a failed attach -/

/-- A kernel that lets nothing be attached to. -/
def refusingKernel : Kernel := { nestedKernel with ptraceAttach := fun _ _ => false }

/-- Descriptor 0 is closed after an attach that failed, and by a second detach. -/
theorem failedAttach_closes_zero :
    ([.attach 42 42, .detach].foldl (SessionRun.next refusingKernel) ⟨.zero, []⟩).calls =
        [.ptraceAttach 42, .close 0] ∧
      ¬ Owned refusingKernel ⟨.zero, []⟩ [.attach 42 42, .detach] ∧
    ([.attach 42 42, .detach, .detach].foldl (SessionRun.next nestedKernel) ⟨.zero, []⟩).calls =
        [.ptraceAttach 42, .waitpid 42, .ptraceDetach 42, .close 0] ∧
      ¬ Owned nestedKernel ⟨.zero, []⟩ [.attach 42 42, .detach, .detach] := by
  refine ⟨by decide, fun h => ?_, by decide, fun h => ?_⟩
  · have hsilent := h.2.2.1 rfl rfl
    exact absurd hsilent (by decide)
  · have hsilent := h.2.2.2.1 rfl rfl
    exact absurd hsilent (by decide)

/-- Two attaches, each with its detach. -/
theorem session_owned_proc :
    Owned procKernel ⟨.zero, []⟩
      [.attach 42 42, .read 0x7000 8, .read 0x7008 8, .detach, .attach 42 0, .detach] :=
  (session_owned_iff rfl _).mpr (by decide)

end Dwunw
