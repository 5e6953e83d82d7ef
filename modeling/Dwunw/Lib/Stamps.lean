import Mathlib.Tactic

/-!
Two ways of numbering the same events.

Slots are stamped when something happens to them, once by the program and once by an
observer of its history.  The two stampings agree on a set of slots when they put its
members in the same order and neither gives a stamp twice; whoever has the least stamp by
the one is then the earliest by the other.

* `Agree S f g`: `f` and `g` put the members of `S` in the same strict order.
* `Agree.mono`, `Agree.congr`, `Agree.stamp`: members leave, nothing happens to them, or a
  slot gets a stamp later than all others by both.
* `Agree.lt_of_le`: the least by `f` is the strictly earliest by `g`.
-/

namespace Stamps

variable {ι α β : Type*} [LinearOrder α] [LinearOrder β] {S T : Set ι} {f f' : ι → α}
  {g g' : ι → β}

/-- The stampings `f` and `g` put the members of `S` in the same order, without ties. -/
structure Agree (S : Set ι) (f : ι → α) (g : ι → β) : Prop where
  lt_iff : ∀ i ∈ S, ∀ j ∈ S, f i < f j ↔ g i < g j
  injOn : Set.InjOn f S

lemma Agree.mono (h : Agree S f g) (hT : T ⊆ S) : Agree T f g :=
  ⟨fun i hi j hj => h.lt_iff i (hT hi) j (hT hj), h.injOn.mono hT⟩

lemma Agree.congr (h : Agree S f g) (hf : ∀ i ∈ S, f' i = f i) (hg : ∀ i ∈ S, g' i = g i) :
    Agree S f' g' where
  lt_iff i hi j hj := by rw [hf i hi, hf j hj, hg i hi, hg j hj, h.lt_iff i hi j hj]
  injOn i hi j hj hij := h.injOn hi hj (by rw [← hf i hi, ← hf j hj, hij])

/-- No slot is stamped before the first event. -/
lemma Agree.empty (f : ι → α) (g : ι → β) : Agree ∅ f g :=
  ⟨fun _ h => h.elim, fun _ h => h.elim⟩

/-- A slot gets a stamp later than those of all members, by both stampings. -/
lemma Agree.stamp {i : ι} (h : Agree S f g) (hf : ∀ j ∈ S, j ≠ i → f' j = f j ∧ f j < f' i)
    (hg : ∀ j ∈ S, j ≠ i → g' j = g j ∧ g j < g' i) : Agree (insert i S) f' g' := by
  have hmem (j : ι) (hj : j ∈ insert i S) (hne : j ≠ i) : j ∈ S :=
    (Set.mem_insert_iff.mp hj).resolve_left hne
  refine ⟨fun j hj k hk => ?_, fun j hj k hk hjk => ?_⟩
  · by_cases hji : j = i <;> by_cases hki : k = i
    · rw [hji, hki, lt_self_iff_false, lt_self_iff_false]
    · obtain ⟨hfk, hlt⟩ := hf k (hmem k hk hki) hki
      obtain ⟨hgk, hlt'⟩ := hg k (hmem k hk hki) hki
      rw [hji, hfk, hgk]
      exact iff_of_false hlt.not_gt hlt'.not_gt
    · obtain ⟨hfj, hlt⟩ := hf j (hmem j hj hji) hji
      obtain ⟨hgj, hlt'⟩ := hg j (hmem j hj hji) hji
      rw [hki, hfj, hgj]
      exact iff_of_true hlt hlt'
    · have hjS := hmem j hj hji
      have hkS := hmem k hk hki
      rw [(hf j hjS hji).1, (hf k hkS hki).1, (hg j hjS hji).1, (hg k hkS hki).1]
      exact h.lt_iff j hjS k hkS
  · by_cases hji : j = i <;> by_cases hki : k = i
    · rw [hji, hki]
    · obtain ⟨hfk, hlt⟩ := hf k (hmem k hk hki) hki
      rw [hji, hfk] at hjk
      exact absurd hjk hlt.ne'
    · obtain ⟨hfj, hlt⟩ := hf j (hmem j hj hji) hji
      rw [hki, hfj] at hjk
      exact absurd hjk hlt.ne
    · have hjS := hmem j hj hji
      have hkS := hmem k hk hki
      rw [(hf j hjS hji).1, (hf k hkS hki).1] at hjk
      exact h.injOn hjS hkS hjk

/-- The least by the one stamping is the strictly earliest by the other. -/
theorem Agree.lt_of_le {i j : ι} (h : Agree S f g) (hi : i ∈ S) (hj : j ∈ S) (hne : j ≠ i)
    (hle : f i ≤ f j) : g i < g j :=
  (h.lt_iff i hi j hj).mp (lt_of_le_of_ne hle fun heq => hne (h.injOn hj hi heq.symm))

end Stamps
