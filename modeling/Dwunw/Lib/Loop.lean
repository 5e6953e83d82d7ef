import Mathlib.Tactic

/-!
Loops as iterated turns.

A loop is a function `step` that makes one turn: it either hands on the state for the
next turn or leaves the loop with a result.  Everything a development needs to know about
such a loop is a fact about single turns, and this file turns those facts into facts about
whole runs.

* `Loop.Ends`: the big-step reading, from a state the loop ends with a result;
  `Ends.unique` is determinacy and `Ends.of_invariant` the invariant rule.
* `Loop.Reaches`: the states a run passes through, with its own invariant rule
  `Reaches.invariant`; `ends_iff_reaches` connects the two readings.
* `Loop.run`: the loop with fuel, the reading that can be computed.  `ends_of_run` compares
  it with `Ends`, and `run_of_variant` is termination: with a variant that every turn
  decreases, as much fuel as the variant says is enough.
* `visited`: the states of a run as a list, for checks by computation; `run_collects` is the
  rule for what the turns of a run add up to.
* `run_rel`: two loops whose turns come out alike run alike; `run_congr`: they need to agree
  where the first one comes by only.
* `run_in_step`: two loops that stay in step where they come by together, and what the pairs of
  states add up to; `exists_split`: where two loops part first.
-/

namespace Loop

variable {σ ρ : Type*}

/-- The outcome of one turn of a loop. -/
inductive Turn (σ ρ : Type*) where
  | next (s : σ)
  | done (r : ρ)

/-- The loop run for at most `n` turns. -/
def run (step : σ → Turn σ ρ) : ℕ → σ → Option ρ
  | 0, _ => none
  | n + 1, s =>
      match step s with
      | .next s' => run step n s'
      | .done r => some r

/-- From `s` the loop ends with the result `r`. -/
inductive Ends (step : σ → Turn σ ρ) : σ → ρ → Prop
  | done {s : σ} {r : ρ} : step s = .done r → Ends step s r
  | next {s s' : σ} {r : ρ} : step s = .next s' → Ends step s' r → Ends step s r

/-- A run from `s` passes through `s'`. -/
inductive Reaches (step : σ → Turn σ ρ) : σ → σ → Prop
  | refl (s : σ) : Reaches step s s
  | head {s s' s'' : σ} : step s = .next s' → Reaches step s' s'' → Reaches step s s''

variable {step : σ → Turn σ ρ} {s s' : σ} {r r' : ρ}

/-! ### Ending -/

/-- A loop is deterministic: it ends with one result at most. -/
theorem Ends.unique (h : Ends step s r) : Ends step s r' → r = r' := by
  induction h with
  | done hs =>
      rintro (hs' | ⟨hs', -⟩) <;> rw [hs] at hs' <;> cases hs'
      rfl
  | next hs _ ih =>
      rintro (hs' | ⟨hs', h'⟩) <;> rw [hs] at hs' <;> cases hs'
      exact ih h'

/-- The invariant rule: what every turn preserves and every exit turns into `Q` gives `Q`
of the result. -/
theorem Ends.of_invariant {I : σ → Prop} {Q : ρ → Prop}
    (hnext : ∀ s s', I s → step s = .next s' → I s')
    (hdone : ∀ s r, I s → step s = .done r → Q r)
    (h : Ends step s r) (hs : I s) : Q r := by
  induction h with
  | done hr => exact hdone _ _ hs hr
  | next hs' _ ih => exact ih (hnext _ _ hs hs')

/-! ### Reaching -/

lemma Reaches.trans {s'' : σ} (h : Reaches step s s') : Reaches step s' s'' →
    Reaches step s s'' := by
  induction h with
  | refl _ => exact id
  | head hs _ ih => exact fun h' => .head hs (ih h')

lemma Reaches.tail {s'' : σ} (h : Reaches step s s') (hs : step s' = .next s'') :
    Reaches step s s'' :=
  h.trans (.head hs (.refl _))

/-- The invariant rule for the states on the way. -/
theorem Reaches.invariant {I : σ → Prop}
    (hnext : ∀ s s', I s → step s = .next s' → I s')
    (h : Reaches step s s') (hs : I s) : I s' := by
  induction h with
  | refl _ => exact hs
  | head hs' _ ih => exact ih (hnext _ _ hs hs')

/-- A loop ends with `r` exactly when it reaches a state whose turn is the exit with `r`. -/
theorem ends_iff_reaches : Ends step s r ↔ ∃ s', Reaches step s s' ∧ step s' = .done r := by
  constructor
  · intro h
    induction h with
    | done hs => exact ⟨_, .refl _, hs⟩
    | next hs _ ih =>
        obtain ⟨s'', hr, hd⟩ := ih
        exact ⟨s'', .head hs hr, hd⟩
  · rintro ⟨s', hr, hd⟩
    induction hr with
    | refl _ => exact .done hd
    | head hs _ ih => exact .next hs (ih hd)

/-! ### Running with fuel -/

lemma ends_of_run {n : ℕ} (h : run step n s = some r) : Ends step s r := by
  induction n generalizing s with
  | zero => simp [run] at h
  | succ n ih =>
      rw [run] at h
      cases hs : step s with
      | next s' => rw [hs] at h; exact .next hs (ih h)
      | done r' =>
          rw [hs] at h
          cases h
          exact .done hs

/-- Termination by a variant: if every turn from a state of the invariant `I` decreases
`μ`, then `μ s + 1` turns are enough. -/
theorem run_of_variant {I : σ → Prop} {μ : σ → ℕ}
    (hnext : ∀ s s', I s → step s = .next s' → I s' ∧ μ s' < μ s)
    {n : ℕ} (hs : I s) (hn : μ s < n) : ∃ r, run step n s = some r := by
  induction n generalizing s with
  | zero => omega
  | succ n ih =>
      cases h : step s with
      | done r => exact ⟨r, by simp [run, h]⟩
      | next s' =>
          obtain ⟨hs', hlt⟩ := hnext s s' hs h
          obtain ⟨r, hr⟩ := ih hs' (by omega)
          exact ⟨r, by simp [run, h, hr]⟩

/-! ### The states of a run, listed -/

/-- The states of a run of at most `n` turns. -/
def visited (step : σ → Turn σ ρ) : ℕ → σ → List σ
  | 0, _ => []
  | n + 1, s =>
      match step s with
      | .next s' => s :: visited step n s'
      | .done _ => [s]

/-- The list is complete for a run that ends within its fuel. -/
theorem Reaches.mem_visited {n : ℕ} (h : Reaches step s s') (hr : run step n s = some r) :
    s' ∈ visited step n s := by
  induction h generalizing n with
  | refl s =>
      cases n with
      | zero => simp [run] at hr
      | succ n => rw [visited]; cases step s <;> simp
  | head hs _ ih =>
      cases n with
      | zero => simp [run] at hr
      | succ n =>
          rw [run, hs] at hr
          rw [visited, hs]
          exact List.mem_cons_of_mem _ (ih hr)

/-- The list holds states of the run only. -/
theorem reaches_of_mem_visited {n : ℕ} (h : s' ∈ visited step n s) : Reaches step s s' := by
  induction n generalizing s with
  | zero => exact absurd h List.not_mem_nil
  | succ n ih =>
      rw [visited] at h
      cases hs : step s with
      | done r =>
          rw [hs] at h
          rw [List.mem_singleton.mp h]
          exact .refl _
      | next s'' =>
          rw [hs] at h
          rcases List.mem_cons.mp h with rfl | h
          · exact .refl _
          · exact .head hs (ih h)

/-- What every turn adds to a list, `g`, the run adds turn by turn. -/
theorem run_collects {β : Type*} {f g : σ → List β} {h : ρ → List β}
    (hnext : ∀ s s', step s = .next s' → f s' = f s ++ g s)
    (hdone : ∀ s r, step s = .done r → h r = f s ++ g s) {n : ℕ}
    (hr : run step n s = some r) : h r = f s ++ (visited step n s).flatMap g := by
  induction n generalizing s with
  | zero => simp [run] at hr
  | succ n ih =>
      rw [run] at hr
      rw [visited]
      cases hs : step s with
      | done r' =>
          rw [hs] at hr
          cases hr
          rw [hdone s r hs, List.flatMap_singleton]
      | next s' =>
          rw [hs] at hr
          rw [ih hr, hnext s s' hs, List.flatMap_cons, List.append_assoc]

/-! ### Two loops in step -/

/-- Two turns come out alike: both go on with states related by `R`, or both leave with
results related by `Q`. -/
inductive Turn.Rel {σ' ρ' : Type*} (R : σ → σ' → Prop) (Q : ρ → ρ' → Prop) :
    Turn σ ρ → Turn σ' ρ' → Prop
  | next {s : σ} {s' : σ'} (h : R s s') : Turn.Rel R Q (.next s) (.next s')
  | done {r : ρ} {r' : ρ'} (h : Q r r') : Turn.Rel R Q (.done r) (.done r')

lemma Turn.Rel.mono {σ' ρ' : Type*} {R R' : σ → σ' → Prop} {Q Q' : ρ → ρ' → Prop}
    {t : Turn σ ρ} {t' : Turn σ' ρ'} (h : Turn.Rel R Q t t') (hR : ∀ s s', R s s' → R' s s')
    (hQ : ∀ r r', Q r r' → Q' r r') : Turn.Rel R' Q' t t' := by
  cases h with
  | next h => exact .next (hR _ _ h)
  | done h => exact .done (hQ _ _ h)

/-- Two loops whose turns come out alike from related states run alike. -/
theorem run_rel {σ' ρ' : Type*} {step' : σ' → Turn σ' ρ'} {R : σ → σ' → Prop}
    {Q : ρ → ρ' → Prop} (hturn : ∀ s s', R s s' → Turn.Rel R Q (step s) (step' s')) (n : ℕ)
    {s : σ} {s' : σ'} (h : R s s') : Option.Rel Q (run step n s) (run step' n s') := by
  induction n generalizing s s' with
  | zero => exact .none
  | succ n ih =>
      have ht := hturn s s' h
      rw [run, run]
      generalize step s = t, step' s' = t' at ht
      cases ht with
      | next h' => exact ih h'
      | done h' => exact .some h'

/-- Two loops with the same turns wherever the first one comes by run alike. -/
theorem run_congr {step' : σ → Turn σ ρ} (h : ∀ t, Reaches step s t → step t = step' t)
    (n : ℕ) : run step n s = run step' n s := by
  induction n generalizing s with
  | zero => rfl
  | succ n ih =>
      rw [run, run, ← h s (.refl s)]
      cases hs : step s with
      | done r => rfl
      | next s' => exact ih fun t ht => h t (.head hs ht)

section InStep

variable {σ' ρ' : Type*} {step' : σ' → Turn σ' ρ'} {R G A L : σ → σ' → Prop}
  {Q B : ρ → ρ' → Prop} {K : ρ → Prop}

/-- Two loops that are in step, `R`, and go on so from every pair of states that they come to,
since it meets `G`: they run alike, through as many states.  What their states agree on, `A`,
their results agree on as well, `B`, when every pair on the way keeps it, `L`; as far as results
of a kind `K` go. -/
theorem run_in_step
    (hturn : ∀ s s', R s s' → G s s' →
      Turn.Rel (fun t t' => R t t' ∧ (A t t' ↔ A s s' ∧ L s s'))
        (fun r r' => Q r r' ∧ (K r → (B r r' ↔ A s s' ∧ L s s'))) (step s) (step' s'))
    {n : ℕ} {s : σ} {s' : σ'} (h : R s s')
    (hall : ∀ p ∈ (visited step n s).zip (visited step' n s'), G p.1 p.2) :
    (visited step n s).length = (visited step' n s').length ∧
      Option.Rel (fun r r' => Q r r' ∧ (K r → (B r r' ↔ A s s' ∧
        ∀ p ∈ (visited step n s).zip (visited step' n s'), L p.1 p.2)))
        (run step n s) (run step' n s') := by
  induction n generalizing s s' with
  | zero => exact ⟨rfl, .none⟩
  | succ n ih =>
      have hG : G s s' := by
        rw [visited, visited] at hall
        cases hs : step s <;> cases hs' : step' s' <;> rw [hs, hs'] at hall <;>
          exact hall (s, s') (by simp)
      have ht := hturn s s' h hG
      rw [visited, visited] at hall ⊢
      rw [run, run]
      generalize step s = t, step' s' = t' at ht hall
      cases ht with
      | @next u u' hu =>
          obtain ⟨hR, hA⟩ := hu
          dsimp only at hall ⊢
          rw [List.zip_cons_cons, List.forall_mem_cons] at hall
          obtain ⟨hlen, hrel⟩ := ih hR hall.2
          refine ⟨by rw [List.length_cons, List.length_cons, hlen], ?_⟩
          simpa only [hA, List.zip_cons_cons, List.forall_mem_cons, and_assoc] using hrel
      | done hr =>
          refine ⟨rfl, .some ?_⟩
          simpa using hr

/-- Two loops that are in step part first at a pair of states that is in step still. -/
theorem exists_split (hturn : ∀ s s', R s s' → G s s' → Turn.Rel R Q (step s) (step' s'))
    {n : ℕ} {s : σ} {s' : σ'} (h : R s s')
    (hnot : ¬ ∀ p ∈ (visited step n s).zip (visited step' n s'), G p.1 p.2) :
    ∃ t ∈ visited step n s, ∃ t' ∈ visited step' n s', R t t' ∧ ¬ G t t' := by
  induction n generalizing s s' with
  | zero => exact absurd (by simp [visited]) hnot
  | succ n ih =>
      by_cases hG : G s s'
      · have ht := hturn s s' h hG
        rw [visited, visited] at hnot ⊢
        generalize step s = t, step' s' = t' at ht hnot
        cases ht with
        | next hR =>
            dsimp only at hnot ⊢
            rw [List.zip_cons_cons, List.forall_mem_cons, not_and] at hnot
            obtain ⟨t, ht, t', ht', hsplit⟩ := ih hR (hnot hG)
            exact ⟨t, List.mem_cons_of_mem _ ht, t', List.mem_cons_of_mem _ ht', hsplit⟩
        | done _ => exact absurd (by simpa using hG) hnot
      · refine ⟨s, ?_, s', ?_, h, hG⟩
        · rw [visited]
          cases step s <;> simp
        · rw [visited]
          cases step' s' <;> simp

end InStep

end Loop
