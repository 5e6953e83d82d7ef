import Mathlib.Tactic

/-!
Runs of a system that takes one labelled step after another.

`next` says what a step does and `ok` which steps a run may take: a step that `ok` rules
out can be made, but no run makes it.

* `Reach`: the states that runs from a state come to, with the invariant rule
  `Reach.invariant`.
* `Allowed`, `Reach.of_list`: a list of steps as a run, for runs that are computed.
* `foldlM_invariant`, `foldlM_log`: lists of steps that may fail, and what they write.
-/

namespace Runs

variable {σ α : Type*}

/-- The states that the runs from `s₀` come to. -/
inductive Reach (next : σ → α → σ) (ok : σ → α → Prop) (s₀ : σ) : σ → Prop
  | start : Reach next ok s₀ s₀
  | step {s : σ} (a : α) (h : Reach next ok s₀ s) (ha : ok s a) : Reach next ok s₀ (next s a)

variable {next : σ → α → σ} {ok : σ → α → Prop} {s₀ s t : σ}

/-- The invariant rule: what holds at the start and is kept by every step of a run holds of
every state the runs come to. -/
theorem Reach.invariant {I : σ → Prop} (h : Reach next ok s₀ s) (hstart : I s₀)
    (hstep : ∀ s a, Reach next ok s₀ s → I s → ok s a → I (next s a)) : I s := by
  induction h with
  | start => exact hstart
  | step a h ha ih => exact hstep _ a h ih ha

lemma Reach.trans (h : Reach next ok s₀ s) (h' : Reach next ok s t) : Reach next ok s₀ t := by
  induction h' with
  | start => exact h
  | step a _ ha ih => exact .step a ih ha

/-- A run may take the steps of a list, one after the other. -/
def Allowed (next : σ → α → σ) (ok : σ → α → Prop) : σ → List α → Prop
  | _, [] => True
  | s, a :: as => ok s a ∧ Allowed next ok (next s a) as

instance Allowed.decidable [∀ s a, Decidable (ok s a)] (s : σ) :
    (as : List α) → Decidable (Allowed next ok s as)
  | [] => isTrue trivial
  | a :: as =>
      match (inferInstance : Decidable (ok s a)), Allowed.decidable (next s a) as with
      | isTrue h, isTrue h' => isTrue ⟨h, h'⟩
      | isFalse h, _ => isFalse fun h' => h h'.1
      | _, isFalse h => isFalse fun h' => h h'.2

/-- The run along a list of steps. -/
theorem Reach.of_list {as : List α} (h : Allowed next ok s as) :
    Reach next ok s (as.foldl next s) := by
  induction as generalizing s with
  | nil => exact .start
  | cons a as ih => exact (Reach.step a .start h.1).trans (ih h.2)

/-! ### Steps that may fail -/

section Partial

variable {step : σ → α → Option σ} {I : σ → Prop} {as : List α}

/-- The invariant rule for a list of steps that all succeed. -/
theorem foldlM_invariant (hstep : ∀ s, ∀ a ∈ as, ∀ t, I s → step s a = some t → I t) (hs : I s)
    (h : as.foldlM step s = some t) : I t := by
  induction as generalizing s with
  | nil =>
      cases h
      exact hs
  | cons a as ih =>
      obtain ⟨s', hs', h⟩ := Option.bind_eq_some_iff.mp h
      exact ih (fun s b hb => hstep s b (List.mem_cons_of_mem a hb))
        (hstep s a List.mem_cons_self s' hs hs') h

/-- Steps that write a log, each the entries that belong to its label whatever came before, write
the entries of the labels in order. -/
theorem foldlM_log {β : Type*} {log : σ → List β} {entries : α → Option (List β)}
    (hlog : ∀ s, ∀ a ∈ as, I s → (step s a).map log = (entries a).map (log s ++ ·))
    (hstep : ∀ s, ∀ a ∈ as, ∀ t, I s → step s a = some t → I t) (hs : I s) :
    (as.foldlM step s).map log = (as.mapM entries).map (log s ++ ·.flatten) := by
  induction as generalizing s with
  | nil => simp
  | cons a as ih =>
      have hhead := hlog s a List.mem_cons_self hs
      rw [List.foldlM_cons, List.mapM_cons]
      cases ha : step s a with
      | none =>
          rw [ha, Option.map_none, eq_comm, Option.map_eq_none_iff] at hhead
          rw [hhead]
          rfl
      | some s' =>
          rw [ha, Option.map_some, eq_comm, Option.map_eq_some_iff] at hhead
          obtain ⟨es, hes, hlog'⟩ := hhead
          have htail := ih (fun s b hb => hlog s b (List.mem_cons_of_mem a hb))
            (fun s b hb => hstep s b (List.mem_cons_of_mem a hb))
            (hstep s a List.mem_cons_self s' hs ha)
          rw [hes]
          show (as.foldlM step s').map log = _
          rw [htail, ← hlog']
          cases as.mapM entries <;> simp

end Partial

end Runs
