import Dwunw.Lib.Loop

/-!
Computations that note what they do.

A program is written once more with a log: each operation of interest is a computation of its
own that leaves a note, and what the log holds is then a matter of how the program runs, not of a
list kept beside it.

* `Logged`: a value and the notes on the way to it, with `val_bind` and `log_bind`.
* `runLogged`: a loop whose turns leave notes; `runLogged_val`, `runLogged_log` say that it runs
  as the loop without them, and that the log is that of its turns.
-/

/-- A value, and the notes that were made on the way to it. -/
structure Logged (ω α : Type) where
  val : α
  log : List ω

namespace Logged

variable {ω α β : Type}

instance : Monad (Logged ω) where
  pure a := ⟨a, []⟩
  bind x f := ⟨(f x.val).val, x.log ++ (f x.val).log⟩

@[simp] lemma val_pure (a : α) : (pure a : Logged ω α).val = a := rfl

@[simp] lemma log_pure (a : α) : (pure a : Logged ω α).log = [] := rfl

@[simp] lemma val_bind (x : Logged ω α) (f : α → Logged ω β) :
    (x >>= f).val = (f x.val).val := rfl

@[simp] lemma log_bind (x : Logged ω α) (f : α → Logged ω β) :
    (x >>= f).log = x.log ++ (f x.val).log := rfl

@[simp] lemma val_ite (P : Prop) [Decidable P] (x y : Logged ω α) :
    (if P then x else y).val = if P then x.val else y.val := apply_ite val P x y

end Logged

namespace Loop

variable {ω σ ρ : Type} {step : σ → Logged ω (Turn σ ρ)}

/-- A loop whose turns leave notes, run for at most `n` turns. -/
def runLogged (step : σ → Logged ω (Turn σ ρ)) : ℕ → σ → Logged ω (Option ρ)
  | 0, _ => pure none
  | n + 1, s => do
      match ← step s with
      | .next s' => runLogged step n s'
      | .done r => pure (some r)

lemma runLogged_val (n : ℕ) (s : σ) :
    (runLogged step n s).val = run (fun s => (step s).val) n s := by
  induction n generalizing s with
  | zero => rfl
  | succ n ih =>
      rw [runLogged, run, Logged.val_bind]
      cases (step s).val with
      | next s' => exact ih s'
      | done r => rfl

lemma runLogged_log (n : ℕ) (s : σ) :
    (runLogged step n s).log =
      (visited (fun s => (step s).val) n s).flatMap fun s => (step s).log := by
  induction n generalizing s with
  | zero => rfl
  | succ n ih =>
      rw [runLogged, visited, Logged.log_bind]
      cases (step s).val with
      | next s' =>
          rw [List.flatMap_cons]
          exact congrArg _ (ih s')
      | done r =>
          rw [List.flatMap_singleton]
          exact List.append_nil _

end Loop
