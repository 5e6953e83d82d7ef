import Mathlib.Tactic

/-!
A loop that overwrites the entries of a table in place, one after the other.

What becomes of an entry is fetched when its turn comes.  Fetching can fail, can leave the
entry as it is, and hands a context on from entry to entry; when it fails, what has been
written stays written.

* `sweep`: the loop.
* `Fetches`: no fetch fails; `sweep_ok_iff`: this is when the loop ends well.
  `Fetches.of_invariant` is the rule for contexts that stay good.
* `sweep_kept`: an entry for which nothing is ever fetched stays.
* `sweep_fixed`: when what is fetched is a function of the entry, a loop that ends well has
  assigned all entries at once.
-/

namespace Sweep

variable {ι α γ ε : Type*}

/-- From this context on no fetch of the list fails. -/
def Fetches (fetch : ι → γ → Except ε (Option α) × γ) : List ι → γ → Prop
  | [], _ => True
  | i :: is, c =>
      match fetch i c with
      | (.error _, _) => False
      | (.ok _, c) => Fetches fetch is c

variable {fetch : ι → γ → Except ε (Option α) × γ}

/-- While the context is good fetching does not fail, and it leaves a good one. -/
theorem Fetches.of_invariant {I : γ → Prop}
    (h : ∀ i c, I c → ∃ v c', fetch i c = (.ok v, c') ∧ I c') (is : List ι) {c : γ} (hc : I c) :
    Fetches fetch is c := by
  induction is generalizing c with
  | nil => trivial
  | cons i is ih =>
      obtain ⟨v, c', hfetch, hc'⟩ := h i c hc
      rw [Fetches, hfetch]
      exact ih hc'

variable [DecidableEq ι]

/-- Write an entry, or leave it. -/
def store (table : ι → α) (i : ι) : Option α → ι → α
  | none => table
  | some a => Function.update table i a

/-- Overwrite the entries of a list, one after the other. -/
def sweep (fetch : ι → γ → Except ε (Option α) × γ) :
    List ι → (ι → α) → γ → Except ε Unit × (ι → α) × γ
  | [], table, c => (.ok (), table, c)
  | i :: is, table, c =>
      match fetch i c with
      | (.error e, c) => (.error e, table, c)
      | (.ok v, c) => sweep fetch is (store table i v) c

/-- The loop ends well exactly when no fetch fails. -/
theorem sweep_ok_iff (is : List ι) (table : ι → α) (c : γ) :
    (sweep fetch is table c).1 = .ok () ↔ Fetches fetch is c := by
  induction is generalizing table c with
  | nil => simp [sweep, Fetches]
  | cons i is ih =>
      rw [sweep, Fetches]
      rcases fetch i c with ⟨e | v, c'⟩
      · simp
      · exact ih _ c'

lemma store_getD (table : ι → α) (i : ι) (v : Option α) :
    store table i v i = v.getD (table i) := by
  cases v <;> simp [store]

lemma store_of_ne (table : ι → α) {i j : ι} (h : j ≠ i) (v : Option α) :
    store table i v j = table j := by
  cases v <;> simp [store, h]

/-- An entry that is not in the list stays. -/
lemma sweep_of_notMem {is : List ι} {j : ι} (hj : j ∉ is) (table : ι → α) (c : γ) :
    (sweep fetch is table c).2.1 j = table j := by
  induction is generalizing table c with
  | nil => rfl
  | cons i is ih =>
      rw [List.mem_cons, not_or] at hj
      rw [sweep]
      rcases fetch i c with ⟨e | v, c'⟩
      · rfl
      · rw [ih hj.2, store_of_ne _ hj.1]

/-- An entry for which nothing is ever fetched stays. -/
lemma sweep_kept {j : ι} (hj : ∀ c v, (fetch j c).1 = .ok v → v = none) (is : List ι)
    (table : ι → α) (c : γ) : (sweep fetch is table c).2.1 j = table j := by
  induction is generalizing table c with
  | nil => rfl
  | cons i is ih =>
      rw [sweep]
      rcases hf : fetch i c with ⟨e | v, c'⟩
      · rfl
      · refine (ih _ c').trans ?_
        by_cases hij : j = i
        · subst hij
          rw [hj c v (by rw [hf]), store]
        · exact store_of_ne _ hij _

/-- When what is fetched is a function of the entry, a loop that ends well has assigned the
entries of its list at once. -/
theorem sweep_fixed {val : ι → Except ε (Option α)} (hfetch : ∀ i c, (fetch i c).1 = val i)
    {is : List ι} (hnodup : is.Nodup) {table : ι → α} {c : γ}
    (hok : (sweep fetch is table c).1 = .ok ()) :
    ∀ i ∈ is, ∃ v, val i = .ok v ∧ (sweep fetch is table c).2.1 i = v.getD (table i) := by
  induction is generalizing table c with
  | nil => simp
  | cons i is ih =>
      obtain ⟨hnot, hnodup⟩ := List.nodup_cons.mp hnodup
      have hi := hfetch i c
      rw [sweep] at hok ⊢
      rcases hf : fetch i c with ⟨e | v, c'⟩
      · rw [hf] at hok
        cases hok
      · rw [hf] at hok hi
        dsimp only at hok hi ⊢
        rw [List.forall_mem_cons]
        refine ⟨⟨v, hi.symm, ?_⟩, fun j hj => ?_⟩
        · rw [sweep_of_notMem hnot, store_getD]
        · obtain ⟨v', hv', hw⟩ := ih hnodup hok j hj
          have hji : j ≠ i := fun h => hnot (h ▸ hj)
          exact ⟨v', hv', by rw [hw, store_of_ne _ hji]⟩

end Sweep
