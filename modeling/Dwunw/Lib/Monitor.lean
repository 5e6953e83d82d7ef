import Mathlib.Tactic

/-!
Monitors of a trace.

A monitor looks at one event after another, each with the events before it, and keeps a
state; it can reject an event.  What a program does is then stated as the state the monitor
is left in.

* `watch`: the state after the events of a trace, unless one is rejected.
* `watch_append`: a trace that goes on.
* `Reaches`: the trace has gone on and the monitor has come to a state; `Reaches.event` and
  `Reaches.trans` are its rules.
-/

namespace Monitor

variable {ε σ : Type*}

/-- The state after `events`, when `past` came before them. -/
def watch (step : List ε → ε → σ → Option σ) : List ε → List ε → σ → Option σ
  | _, [], s => some s
  | past, e :: events, s => (step past e s).bind (watch step (past ++ [e]) events)

variable {step : List ε → ε → σ → Option σ} {past past' past'' events events' : List ε}
  {s s' s'' : σ}

/-- A trace that goes on is watched from where the monitor was. -/
lemma watch_append (past events events' : List ε) (s : σ) :
    watch step past (events ++ events') s =
      (watch step past events s).bind (watch step (past ++ events) events') := by
  induction events generalizing past s with
  | nil => simp [watch]
  | cons e events ih =>
      rw [List.cons_append, watch, watch, Option.bind_assoc]
      congr
      funext t
      rw [ih, List.append_assoc, List.singleton_append]

/-- The trace went on from `past` to `past'`, and the monitor from `s` to `s'`. -/
def Reaches (step : List ε → ε → σ → Option σ) (past : List ε) (s : σ) (past' : List ε)
    (s' : σ) : Prop :=
  ∃ events, past' = past ++ events ∧ watch step past events s = some s'

lemma Reaches.refl (past : List ε) (s : σ) : Reaches step past s past s :=
  ⟨[], (List.append_nil past).symm, rfl⟩

lemma Reaches.trans (h : Reaches step past s past' s') (h' : Reaches step past' s' past'' s'') :
    Reaches step past s past'' s'' := by
  obtain ⟨events, rfl, hs⟩ := h
  obtain ⟨events', rfl, hs'⟩ := h'
  refine ⟨events ++ events', List.append_assoc _ _ _, ?_⟩
  rw [watch_append, hs, Option.bind_some, hs']

/-- One more event. -/
lemma Reaches.event {e : ε} (h : Reaches step past s past' s') (he : step past' e s' = some s'') :
    Reaches step past s (past' ++ [e]) s'' :=
  h.trans ⟨[e], rfl, by rw [watch, he]; rfl⟩

end Monitor
