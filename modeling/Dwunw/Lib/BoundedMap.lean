import Mathlib.Data.Finmap
import Mathlib.Tactic

/-!
Finite maps that hold a bounded number of entries.

* `BoundedMap`: a finite map with at most `n` entries.
* `put`, `modify`, `delete`, with what `lookup` finds afterwards; only `put` can fail, at a new
  key of a map that is full.
* `tally`: the sum of a weight over the entries; `tally_put_add` and `tally_delete_add` say what the
  operations do to it.
-/

/-- A finite map with at most `n` entries. -/
structure BoundedMap (κ ν : Type) (n : ℕ) where
  contents : Finmap fun _ : κ => ν
  bounded : contents.keys.card ≤ n

namespace BoundedMap

variable {κ ν : Type} {n : ℕ} [DecidableEq κ]

instance [DecidableEq ν] : DecidableEq (BoundedMap κ ν n) := fun m m' =>
  decidable_of_iff (m.contents = m'.contents) (by cases m; cases m'; simp)

@[ext] lemma ext_lookup {m m' : BoundedMap κ ν n}
    (h : ∀ k, m.contents.lookup k = m'.contents.lookup k) : m = m' := by
  obtain ⟨c, hc⟩ := m
  obtain ⟨c', hc'⟩ := m'
  obtain rfl : c = c' := Finmap.ext_lookup h
  rfl

/-- The map without entries. -/
def empty : BoundedMap κ ν n := ⟨∅, by simp⟩

/-- The value of a key. -/
def lookup (m : BoundedMap κ ν n) (k : κ) : Option ν := m.contents.lookup k

/-- No new key has room. -/
def Full (m : BoundedMap κ ν n) : Prop := n ≤ m.contents.keys.card

instance (m : BoundedMap κ ν n) : Decidable m.Full := inferInstanceAs (Decidable (_ ≤ _))

lemma keys_insert (c : Finmap fun _ : κ => ν) (k : κ) (v : ν) :
    (c.insert k v).keys = insert k c.keys := by
  ext k'
  rw [Finmap.mem_keys, Finmap.mem_insert, Finset.mem_insert, Finmap.mem_keys]

/-- A key gets a value, whether it had one before or not. -/
def put (m : BoundedMap κ ν n) (k : κ) (v : ν) : Option (BoundedMap κ ν n) :=
  if h : k ∈ m.contents ∨ m.contents.keys.card < n then
    some ⟨m.contents.insert k v, by
      rw [keys_insert]
      rcases h with h | h
      · rw [Finset.insert_eq_self.mpr (Finmap.mem_keys.mpr h)]
        exact m.bounded
      · exact (Finset.card_insert_le _ _).trans h⟩
  else none

/-- The value of a key is changed in place. -/
def modify (m : BoundedMap κ ν n) (k : κ) (f : ν → ν) : BoundedMap κ ν n :=
  match h : m.contents.lookup k with
  | none => m
  | some v => ⟨m.contents.insert k (f v), by
      rw [keys_insert, Finset.insert_eq_self.mpr
        (Finmap.mem_keys.mpr (Finmap.mem_of_lookup_eq_some h))]
      exact m.bounded⟩

/-- A key loses its value. -/
def delete (m : BoundedMap κ ν n) (k : κ) : BoundedMap κ ν n :=
  ⟨m.contents.erase k, by
    rw [Finmap.keys_erase]
    exact (Finset.card_le_card (Finset.erase_subset _ _)).trans m.bounded⟩

variable {m m' : BoundedMap κ ν n} {k k' : κ} {v : ν}

/-! ### Lookups -/

@[simp] lemma lookup_empty (k : κ) : (empty : BoundedMap κ ν n).lookup k = none :=
  Finmap.lookup_empty k

lemma contents_put (h : m.put k v = some m') : m'.contents = m.contents.insert k v := by
  rw [put] at h
  split_ifs at h
  rw [← Option.some.inj h]

/-- Only a new key can be refused, by a map that is full. -/
lemma put_eq_none_iff : m.put k v = none ↔ m.lookup k = none ∧ m.Full := by
  have hmem : k ∉ m.contents ↔ m.lookup k = none := Finmap.lookup_eq_none.symm
  rw [put, dite_eq_right_iff]
  constructor
  · intro h
    by_contra hnot
    refine absurd (h ?_) (Option.some_ne_none _)
    rw [← hmem] at hnot
    by_cases hk : k ∈ m.contents
    · exact .inl hk
    · exact .inr (not_le.mp fun hfull => hnot ⟨hk, hfull⟩)
  · rintro ⟨hk, hfull⟩ (h | h)
    · exact absurd h (hmem.mpr hk)
    · exact absurd h (not_lt.mpr hfull)

@[simp] lemma lookup_put_self (h : m.put k v = some m') : m'.lookup k = some v := by
  rw [lookup, contents_put h, Finmap.lookup_insert]

lemma lookup_put_of_ne (h : m.put k v = some m') (hne : k' ≠ k) :
    m'.lookup k' = m.lookup k' := by
  rw [lookup, contents_put h, Finmap.lookup_insert_of_ne _ hne, lookup]

@[simp] lemma lookup_delete_self (m : BoundedMap κ ν n) (k : κ) : (m.delete k).lookup k = none :=
  Finmap.lookup_erase k m.contents

@[simp] lemma lookup_delete_of_ne (m : BoundedMap κ ν n) (hne : k' ≠ k) :
    (m.delete k).lookup k' = m.lookup k' := Finmap.lookup_erase_ne hne

lemma modify_of_none (f : ν → ν) (h : m.lookup k = none) : m.modify k f = m := by
  rw [modify]
  split
  · rfl
  · next heq => exact absurd (h.symm.trans heq) (by simp)

lemma contents_modify (f : ν → ν) (h : m.lookup k = some v) :
    (m.modify k f).contents = m.contents.insert k (f v) := by
  rw [modify]
  split
  · next heq => exact absurd (h.symm.trans heq) (by simp)
  · next heq => rw [Option.some.inj (h.symm.trans heq)]

@[simp] lemma lookup_modify_self (m : BoundedMap κ ν n) (k : κ) (f : ν → ν) :
    (m.modify k f).lookup k = (m.lookup k).map f := by
  cases h : m.lookup k with
  | none => rw [modify_of_none f h, h, Option.map_none]
  | some v => rw [lookup, contents_modify f h, Finmap.lookup_insert, Option.map_some]

@[simp] lemma lookup_modify_of_ne (m : BoundedMap κ ν n) (f : ν → ν) (hne : k' ≠ k) :
    (m.modify k f).lookup k' = m.lookup k' := by
  cases h : m.lookup k with
  | none => rw [modify_of_none f h]
  | some v => rw [lookup, contents_modify f h, Finmap.lookup_insert_of_ne _ hne, lookup]

/-! ### Room -/

lemma keys_put (h : m.put k v = some m') : m'.contents.keys = insert k m.contents.keys := by
  rw [contents_put h, keys_insert]

@[simp] lemma keys_modify (m : BoundedMap κ ν n) (k : κ) (f : ν → ν) :
    (m.modify k f).contents.keys = m.contents.keys := by
  cases h : m.lookup k with
  | none => rw [modify_of_none f h]
  | some v =>
      rw [contents_modify f h, keys_insert, Finset.insert_eq_self]
      exact Finmap.mem_keys.mpr (Finmap.mem_of_lookup_eq_some h)

/-! ### Tallies -/

section Tally

variable {M : Type} [AddCommMonoid M] (w : κ → ν → M)

/-- The sum of a weight over the entries. -/
def tally (m : BoundedMap κ ν n) : M := (m.contents.entries.map fun e => w e.1 e.2).sum

/-- The weight of a key that may have no value. -/
def weightAt (m : BoundedMap κ ν n) (k : κ) : M := (m.lookup k).elim 0 (w k)

/-- Entries without weight. -/
lemma tally_eq_zero (h : ∀ k v, m.lookup k = some v → w k v = 0) : tally w m = 0 := by
  refine Multiset.sum_eq_zero fun x hx => ?_
  obtain ⟨⟨k, v⟩, he, rfl⟩ := Multiset.mem_map.mp hx
  exact h k v (Finmap.lookup_eq_some_iff.mpr he)

omit [DecidableEq κ] in
/-- A tally of images is the image of a tally. -/
lemma tally_map {N : Type} [AddCommMonoid N] (f : M →+ N) (m : BoundedMap κ ν n) :
    tally (fun k v => f (w k v)) m = f (tally w m) := by
  rw [tally, tally, map_multiset_sum, Multiset.map_map]
  rfl

/-- A new key brings its weight. -/
lemma tally_insert_new (h : m'.contents = m.contents.insert k v) (hk : m.lookup k = none) :
    tally w m' = tally w m + w k v := by
  rw [tally, h, Finmap.entries_insert_of_notMem (Finmap.lookup_eq_none.mp hk), Multiset.map_cons,
    Multiset.sum_cons, add_comm]
  rfl

/-- A key takes its weight away. -/
lemma tally_delete_add (m : BoundedMap κ ν n) (k : κ) :
    tally w (m.delete k) + weightAt w m k = tally w m := by
  cases h : m.lookup k with
  | none =>
      have hsame : m.delete k = m := by
        ext1 k'
        by_cases hk : k' = k
        · rw [hk]
          exact (lookup_delete_self m k).trans h.symm
        · exact lookup_delete_of_ne m hk
      rw [weightAt, h, hsame, Option.elim_none, add_zero]
  | some v =>
      have hback : m.contents = (m.delete k).contents.insert k v := by
        refine Finmap.ext_lookup fun k' => ?_
        by_cases hk : k' = k
        · rw [hk, Finmap.lookup_insert]
          exact h
        · rw [Finmap.lookup_insert_of_ne _ hk]
          exact (lookup_delete_of_ne m hk).symm
      rw [weightAt, h, Option.elim_some, tally_insert_new w hback (lookup_delete_self m k)]

/-- A new value brings its weight, and takes that of the value it replaces away. -/
lemma tally_put_add (h : m.put k v = some m') :
    tally w m' + weightAt w m k = tally w m + w k v := by
  have hdel : m'.contents = (m.delete k).contents.insert k v := by
    rw [contents_put h]
    refine Finmap.ext_lookup fun k' => ?_
    by_cases hk : k' = k
    · rw [hk, Finmap.lookup_insert, Finmap.lookup_insert]
    · rw [Finmap.lookup_insert_of_ne _ hk, Finmap.lookup_insert_of_ne _ hk]
      exact (lookup_delete_of_ne m hk).symm
  rw [tally_insert_new w hdel (lookup_delete_self m k), add_right_comm, tally_delete_add]

end Tally

/-! ### Enumerations -/

/-- A list of the keys, each once. -/
structure Enumerates (order : List κ) (m : BoundedMap κ ν n) : Prop where
  nodup : order.Nodup
  mem_iff : ∀ k, k ∈ order ↔ (m.lookup k).isSome

variable {order order' : List κ}

lemma Enumerates.of_keys (hnodup : order.Nodup) (hkeys : order.toFinset = m.contents.keys) :
    Enumerates order m := by
  refine ⟨hnodup, fun k => ?_⟩
  rw [← List.mem_toFinset, hkeys, Finmap.mem_keys, lookup, Finmap.lookup_isSome]

lemma Enumerates.keys_eq (h : Enumerates order m) : m.contents.entries.keys = order := by
  refine (Multiset.Nodup.ext m.contents.nodupKeys.nodup_keys
    (Multiset.coe_nodup.mpr h.nodup)).mpr fun k => ?_
  rw [Multiset.mem_coe, h.mem_iff, Option.isSome_iff_ne_none]
  exact ((not_congr Finmap.lookup_eq_none).trans not_not).symm

lemma Enumerates.length_le (h : Enumerates order m) : order.length ≤ n := by
  have hcard : m.contents.entries.keys.card ≤ n := m.bounded
  rwa [h.keys_eq] at hcard

lemma Enumerates.perm (h : Enumerates order m) (h' : Enumerates order' m) : order.Perm order' :=
  (List.perm_ext_iff_of_nodup h.nodup h'.nodup).mpr fun k => (h.mem_iff k).trans (h'.mem_iff k).symm

/-- A tally is a sum over the keys. -/
lemma Enumerates.tally_eq {M : Type} [AddCommMonoid M] (h : Enumerates order m)
    (w : κ → ν → M) : tally w m = (order.map (weightAt w m)).sum := by
  rw [← Multiset.sum_coe, ← Multiset.map_coe, ← h.keys_eq, Multiset.keys, Multiset.map_map, tally]
  refine congrArg Multiset.sum (Multiset.map_congr rfl fun e he => ?_)
  obtain ⟨k, v⟩ := e
  rw [Function.comp_apply, weightAt, lookup, Finmap.lookup_eq_some_iff.mpr he, Option.elim_some]

end BoundedMap
