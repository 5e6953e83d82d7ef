import Mathlib.Tactic

/-!
Generators run within a budget.

A generator is a step function: from a state it either emits something and hands on the next
state, or stops with a result.  Run within a budget it emits as much as the budget allows.

* `Yield`: what one step comes to.
* `iterate`: the state after so many steps, if none of them stops.
* `unfold`: what is emitted within a budget, and the result if a step stops before the
  budget is used up.
* `unfold_take`: a smaller budget emits a prefix.
* `unfold_getElem`: what is emitted at a place is what the iterate of that place emits.
* `unfold_result`, `unfold_full`: a run ends before its budget is used up exactly when the
  iterate it has come to stops.
* `unfold_guided`: a run that is known state by state.
-/

namespace Unfold

variable {σ α ρ : Type*}

/-- What one step comes to. -/
inductive Yield (σ α ρ : Type*) where
  | emit (a : α) (s : σ)
  | stop (r : ρ)

/-- The state after `n` steps. -/
def iterate (step : σ → Yield σ α ρ) : ℕ → σ → Option σ
  | 0, s => some s
  | n + 1, s =>
      match step s with
      | .emit _ s' => iterate step n s'
      | .stop _ => none

/-- What is emitted within a budget, and the result of the step that stops, if one does. -/
def unfold (step : σ → Yield σ α ρ) : ℕ → σ → List α × Option ρ
  | 0, _ => ([], none)
  | n + 1, s =>
      match step s with
      | .emit a s' => (a :: (unfold step n s').1, (unfold step n s').2)
      | .stop r => ([], some r)

variable {step : σ → Yield σ α ρ} {s s' : σ} {a : α} {r : ρ}

@[simp] lemma unfold_zero (step : σ → Yield σ α ρ) (s : σ) : unfold step 0 s = ([], none) := rfl

lemma unfold_emit (h : step s = .emit a s') (n : ℕ) :
    unfold step (n + 1) s = (a :: (unfold step n s').1, (unfold step n s').2) := by
  simp [unfold, h]

lemma unfold_stop (h : step s = .stop r) (n : ℕ) :
    unfold step (n + 1) s = ([], some r) := by
  simp [unfold, h]

lemma iterate_succ (h : step s = .emit a s') (n : ℕ) :
    iterate step (n + 1) s = iterate step n s' := by
  simp [iterate, h]

/-- One step more, at the end. -/
lemma iterate_snoc {n : ℕ} {s'' : σ} (h : iterate step n s = some s')
    (hs : step s' = .emit a s'') : iterate step (n + 1) s = some s'' := by
  induction n generalizing s with
  | zero =>
      obtain rfl : s = s' := Option.some.inj h
      rw [iterate_succ hs]
      rfl
  | succ n ih =>
      cases hstep : step s with
      | stop r => simp [iterate, hstep] at h
      | emit b t =>
          rw [iterate_succ hstep] at h ⊢
          exact ih h

lemma unfold_length_le (step : σ → Yield σ α ρ) (n : ℕ) (s : σ) :
    (unfold step n s).1.length ≤ n := by
  induction n generalizing s with
  | zero => simp
  | succ n ih =>
      cases h : step s with
      | emit a s' => simpa [unfold_emit h] using ih s'
      | stop r => simp [unfold_stop h]

/-- A smaller budget emits a prefix. -/
theorem unfold_take {n m : ℕ} (hnm : n ≤ m) (s : σ) :
    (unfold step n s).1 = (unfold step m s).1.take n := by
  induction n generalizing m s with
  | zero => simp
  | succ n ih =>
      obtain ⟨m, rfl⟩ : ∃ k, m = k + 1 := ⟨m - 1, by omega⟩
      cases h : step s with
      | emit a s' => simp [unfold_emit h, ih (Nat.le_of_succ_le_succ hnm) s']
      | stop r => simp [unfold_stop h]

/-- What is emitted at a place is what the iterate of that place emits. -/
theorem unfold_getElem {n i : ℕ} (hi : i < (unfold step n s).1.length) :
    ∃ t t', iterate step i s = some t ∧ step t = .emit (unfold step n s).1[i] t' := by
  induction n generalizing s i with
  | zero => simp at hi
  | succ n ih =>
      cases h : step s with
      | stop r => simp [unfold_stop h] at hi
      | emit a s' =>
          simp only [unfold_emit h] at hi ⊢
          cases i with
          | zero => exact ⟨s, s', rfl, h⟩
          | succ i =>
              obtain ⟨t, t', hiter, hstep⟩ := ih (Nat.lt_of_succ_lt_succ hi)
              exact ⟨t, t', by rw [iterate_succ h, hiter], by simpa using hstep⟩

/-- A run that ends with a result has come to an iterate that stops with it. -/
theorem unfold_result {n : ℕ} (hr : (unfold step n s).2 = some r) :
    ∃ t, iterate step (unfold step n s).1.length s = some t ∧ step t = .stop r := by
  induction n generalizing s with
  | zero => simp at hr
  | succ n ih =>
      cases h : step s with
      | stop r' =>
          simp only [unfold_stop h, Option.some.injEq] at hr
          exact ⟨s, by simp [unfold_stop h, iterate], by rw [h, hr]⟩
      | emit a s' =>
          simp only [unfold_emit h] at hr ⊢
          obtain ⟨t, hiter, hstep⟩ := ih hr
          exact ⟨t, by rw [List.length_cons, iterate_succ h, hiter], hstep⟩

/-- A run that ends with a result has not used its budget up. -/
lemma unfold_result_lt {n : ℕ} (hr : (unfold step n s).2 = some r) :
    (unfold step n s).1.length < n := by
  induction n generalizing s with
  | zero => simp at hr
  | succ n ih =>
      cases h : step s with
      | stop r' => simp [unfold_stop h]
      | emit a s' =>
          simp only [unfold_emit h] at hr ⊢
          simpa using ih hr

/-- A run without a result has used its budget up. -/
theorem unfold_full {n : ℕ} (hr : (unfold step n s).2 = none) :
    (unfold step n s).1.length = n := by
  induction n generalizing s with
  | zero => simp
  | succ n ih =>
      cases h : step s with
      | stop r => simp [unfold_stop h] at hr
      | emit a s' =>
          simp only [unfold_emit h] at hr ⊢
          simp [ih hr]

/-- A result within a smaller budget is the result within a larger one. -/
lemma unfold_result_mono {n m : ℕ} (hnm : n ≤ m) (hr : (unfold step n s).2 = some r) :
    (unfold step m s).2 = some r := by
  induction n generalizing m s with
  | zero => simp at hr
  | succ n ih =>
      obtain ⟨m, rfl⟩ : ∃ k, m = k + 1 := ⟨m - 1, by omega⟩
      cases h : step s with
      | stop r' => simpa [unfold_stop h] using hr
      | emit a s' =>
          simp only [unfold_emit h] at hr ⊢
          exact ih (Nat.le_of_succ_le_succ hnm) hr

/-- The rule for a run that is known state by state: when every state emits what belongs to its
place, for `d` places, and the last one stops or uses the budget up, that is the whole run. -/
theorem unfold_guided {P : ℕ → σ → Prop} {Q : ℕ → α → Prop} {d n : ℕ} (hd : d ≤ n)
    (hstep : ∀ i < d, ∀ s, P i s → ∃ a s', step s = .emit a s' ∧ Q i a ∧ P (i + 1) s')
    (hstop : d = n ∨ ∀ s, P d s → step s = .stop r) (hs : P 0 s) :
    ∃ as, unfold step n s = (as, if d = n then none else some r) ∧ as.length = d ∧
      ∀ i, ∀ h : i < as.length, Q i as[i] := by
  induction d generalizing P Q n s with
  | zero =>
      refine ⟨[], ?_, rfl, fun i hi => absurd hi (Nat.not_lt_zero i)⟩
      cases n with
      | zero => rfl
      | succ n =>
          rw [unfold_stop (hstop.resolve_left (Nat.succ_ne_zero n).symm s hs),
            if_neg (Nat.succ_ne_zero n).symm]
  | succ d ih =>
      obtain ⟨n, rfl⟩ : ∃ k, n = k + 1 := ⟨n - 1, by omega⟩
      obtain ⟨a, s', hemit, ha, hs'⟩ := hstep 0 (Nat.succ_pos d) s hs
      obtain ⟨as, has, hlen, hQ⟩ := ih (P := fun i => P (i + 1)) (Q := fun i => Q (i + 1))
        (Nat.le_of_succ_le_succ hd) (fun i hi => hstep (i + 1) (Nat.succ_lt_succ hi))
        (hstop.imp_left Nat.succ_inj.mp) hs'
      refine ⟨a :: as, ?_, by rw [List.length_cons, hlen], fun i hi => ?_⟩
      · rw [unfold_emit hemit, has]
        simp only [Nat.add_right_cancel_iff]
      · cases i with
        | zero => exact ha
        | succ i => exact hQ i (Nat.lt_of_succ_lt_succ hi)

end Unfold
