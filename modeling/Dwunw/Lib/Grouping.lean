import Mathlib.Tactic

/-!
Items grouped by a key.

A list of groups is searched from its front for the key of an item.  The item is merged into the
group that is found, or makes a group of its own at the end.

* `Grouper`: how a group is made, and what an item adds to it; no item changes the key of a group.
* `Grouper.find_collect`, `Grouper.collect_nodup`: each key has one group, which is what the items
  of the key come to.
* `Grouper.Measures`, `Grouper.measure_eq_sum`, `Grouper.collect_perm`: a quantity that adds up,
  and that does not hang on the order of the items.
-/

/-- How items are put into groups. -/
structure Grouper (κ α γ : Type) where
  key : α → κ
  keyOf : γ → κ
  make : α → γ
  merge : γ → α → γ
  keyOf_make : ∀ a, keyOf (make a) = key a
  keyOf_merge : ∀ g a, keyOf (merge g a) = keyOf g

namespace Grouper

variable {κ α γ : Type} [DecidableEq κ] (G : Grouper κ α γ)

/-- One more item. -/
def add : List γ → α → List γ
  | [], a => [G.make a]
  | g :: gs, a => if G.keyOf g = G.key a then G.merge g a :: gs else g :: add gs a

/-- The groups of a list of items. -/
def collect (as : List α) : List γ := as.foldl G.add []

omit [DecidableEq κ] in
/-- What items come to that are all of one key. -/
def whole : List α → Option γ
  | [] => none
  | a :: as => some (as.foldl G.merge (G.make a))

omit [DecidableEq κ] in
lemma whole_append (as : List α) (a : α) :
    G.whole (as ++ [a]) = some ((G.whole as).elim (G.make a) fun g => G.merge g a) := by
  cases as with
  | nil => rfl
  | cons b bs => simp only [whole, List.cons_append, List.foldl_append, List.foldl_cons,
      List.foldl_nil, Option.elim_some]

variable {G}

lemma collect_append (as : List α) (a : α) : G.collect (as ++ [a]) = G.add (G.collect as) a := by
  rw [collect, collect, List.foldl_append, List.foldl_cons, List.foldl_nil]

/-- An item changes the group of its key only. -/
lemma find_add (gs : List γ) (a : α) (k : κ) :
    (G.add gs a).find? (fun g => G.keyOf g = k) =
      if G.key a = k then
        some ((gs.find? fun g => G.keyOf g = k).elim (G.make a) fun g => G.merge g a)
      else gs.find? fun g => G.keyOf g = k := by
  induction gs with
  | nil =>
      rw [add, List.find?_singleton, G.keyOf_make]
      by_cases hk : G.key a = k
      · simp [hk]
      · simp [hk]
  | cons g gs ih =>
      rw [add]
      by_cases hg : G.keyOf g = G.key a
      · rw [if_pos hg, List.find?_cons, List.find?_cons, G.keyOf_merge, hg]
        by_cases hk : G.key a = k
        · simp [hk]
        · simp [hk]
      · rw [if_neg hg, List.find?_cons, List.find?_cons, ih]
        by_cases hk : G.keyOf g = k
        · have hne : G.key a ≠ k := fun h => hg (hk.trans h.symm)
          simp [hk, hne]
        · simp [hk]

/-- The group of a key is what its items come to. -/
theorem find_collect (as : List α) (k : κ) :
    (G.collect as).find? (fun g => G.keyOf g = k) = G.whole (as.filter fun a => G.key a = k) := by
  induction as using List.reverseRecOn with
  | nil => rfl
  | append_singleton as a ih =>
      rw [collect_append, find_add, ih, List.filter_append]
      by_cases hk : G.key a = k
      · rw [if_pos hk, List.filter_singleton, decide_eq_true hk, cond_true, whole_append]
      · rw [if_neg hk, List.filter_singleton, decide_eq_false hk, cond_false, List.append_nil]

lemma keys_add (gs : List γ) (a : α) :
    (G.add gs a).map G.keyOf =
      if G.key a ∈ gs.map G.keyOf then gs.map G.keyOf else gs.map G.keyOf ++ [G.key a] := by
  induction gs with
  | nil => rw [add, List.map_singleton, G.keyOf_make]; rfl
  | cons g gs ih =>
      rw [add]
      by_cases hg : G.keyOf g = G.key a
      · rw [if_pos hg, List.map_cons, List.map_cons, G.keyOf_merge, hg,
          if_pos List.mem_cons_self]
      · rw [if_neg hg, List.map_cons, List.map_cons, ih]
        by_cases hmem : G.key a ∈ gs.map G.keyOf
        · rw [if_pos hmem, if_pos (List.mem_cons_of_mem _ hmem)]
        · rw [if_neg hmem, if_neg fun h => (List.mem_cons.mp h).elim (fun h => hg h.symm) hmem]
          rfl

/-- A key has one group. -/
theorem collect_nodup (as : List α) : ((G.collect as).map G.keyOf).Nodup := by
  induction as using List.reverseRecOn with
  | nil => exact List.nodup_nil
  | append_singleton as a ih =>
      rw [collect_append, keys_add]
      split_ifs with hmem
      · exact ih
      · exact List.nodup_append.mpr ⟨ih, List.nodup_singleton _, by
          rintro k hk _ hk' rfl
          exact hmem (List.mem_singleton.mp hk' ▸ hk)⟩

/-- There are no more groups than items. -/
lemma length_collect_le (as : List α) : (G.collect as).length ≤ as.length := by
  induction as using List.reverseRecOn with
  | nil => exact le_rfl
  | append_singleton as a ih =>
      rw [← List.length_map (f := G.keyOf), collect_append, keys_add]
      split_ifs
      · rw [List.length_map]
        exact ih.trans (by simp)
      · rw [List.length_append, List.length_map, List.length_append]
        exact Nat.add_le_add_right ih 1

/-- A group is the one of its key. -/
lemma mem_collect {as : List α} {g : γ} :
    g ∈ G.collect as ↔ G.whole (as.filter fun a => G.key a = G.keyOf g) = some g := by
  rw [← find_collect]
  constructor
  · intro hg
    obtain ⟨g', hfind⟩ := Option.isSome_iff_exists.mp
      (List.find?_isSome (p := fun g' => decide (G.keyOf g' = G.keyOf g)).mpr ⟨g, hg, by simp⟩)
    have hkey : G.keyOf g' = G.keyOf g := by simpa using List.find?_some hfind
    rw [hfind, List.inj_on_of_nodup_map (collect_nodup as) (List.mem_of_find?_eq_some hfind) hg
      hkey]
  · exact List.mem_of_find?_eq_some

/-- An item has a group. -/
lemma exists_group {as : List α} {a : α} (ha : a ∈ as) :
    ∃ g ∈ G.collect as, G.keyOf g = G.key a := by
  have hmem : a ∈ as.filter fun b => G.key b = G.key a :=
    List.mem_filter.mpr ⟨ha, decide_eq_true rfl⟩
  have hfind := find_collect (G := G) as (G.key a)
  cases hall : as.filter fun b => G.key b = G.key a with
  | nil =>
      rw [hall] at hmem
      cases hmem
  | cons b bs =>
      rw [hall, whole] at hfind
      exact ⟨_, List.mem_of_find?_eq_some hfind, by simpa using List.find?_some hfind⟩

/-- A key has a group if and only if it is the key of an item. -/
lemma exists_group_iff {as : List α} {k : κ} :
    (∃ g ∈ G.collect as, G.keyOf g = k) ↔ ∃ a ∈ as, G.key a = k := by
  constructor
  · rintro ⟨g, hg, rfl⟩
    cases hitems : as.filter fun a => G.key a = G.keyOf g with
    | nil =>
        have hwhole := mem_collect.mp hg
        rw [hitems] at hwhole
        cases hwhole
    | cons a items =>
        obtain ⟨ha, hk⟩ := List.mem_filter.mp
          (hitems ▸ List.mem_cons_self : a ∈ as.filter fun a => G.key a = G.keyOf g)
        exact ⟨a, ha, of_decide_eq_true hk⟩
  · rintro ⟨a, ha, rfl⟩
    exact exists_group ha

/-! ### Quantities that add up -/

section Measures

variable {M : Type} [AddCommMonoid M]

/-- A quantity of a group to which each item brings its own. -/
structure Measures (G : Grouper κ α γ) (μ : γ → M) (ν : α → M) : Prop where
  make : ∀ a, μ (G.make a) = ν a
  merge : ∀ g a, μ (G.merge g a) = μ g + ν a

variable {μ : γ → M} {ν : α → M}

omit [DecidableEq κ] in
lemma Measures.whole (h : Measures G μ ν) {as : List α} {g : γ} (hg : G.whole as = some g) :
    μ g = (as.map ν).sum := by
  induction as using List.reverseRecOn generalizing g with
  | nil => cases hg
  | append_singleton as a ih =>
      rw [whole_append] at hg
      rw [← Option.some.inj hg, List.map_append, List.sum_append, List.map_singleton,
        List.sum_singleton]
      cases hwhole : G.whole as with
      | none =>
          cases as with
          | nil => rw [Option.elim_none, h.make, List.map_nil, List.sum_nil, zero_add]
          | cons b bs => cases hwhole
      | some g' => rw [Option.elim_some, h.merge, ih hwhole]

/-- The quantity of a group is the sum over the items of its key. -/
theorem measure_eq_sum (h : Measures G μ ν) {as : List α} {g : γ} (hg : g ∈ G.collect as) :
    μ g = ((as.filter fun a => G.key a = G.keyOf g).map ν).sum :=
  h.whole (mem_collect.mp hg)

omit [DecidableEq κ] in
lemma whole_eq_none {as : List α} : G.whole as = none ↔ as = [] := by
  cases as <;> simp [Grouper.whole]

/-- The groups, by key and quantity, are the same in whatever order the items come. -/
theorem collect_perm (h : Measures G μ ν) {as bs : List α} (hperm : as.Perm bs) :
    ((G.collect as).map fun g => (G.keyOf g, μ g)).Perm
      ((G.collect bs).map fun g => (G.keyOf g, μ g)) := by
  have hnodup : ∀ cs : List α, ((G.collect cs).map fun g => (G.keyOf g, μ g)).Nodup := fun cs =>
    List.Nodup.of_map Prod.fst (by
      rw [List.map_map]
      exact collect_nodup cs)
  have hsub : ∀ {cs ds : List α}, cs.Perm ds → ∀ x,
      x ∈ (G.collect cs).map (fun g => (G.keyOf g, μ g)) →
      x ∈ (G.collect ds).map fun g => (G.keyOf g, μ g) := by
    intro cs ds hcd x hx
    obtain ⟨g, hg, rfl⟩ := List.mem_map.mp hx
    have hfilter := hcd.filter fun a => decide (G.key a = G.keyOf g)
    cases hwhole : G.whole (ds.filter fun a => G.key a = G.keyOf g) with
    | none =>
        rw [whole_eq_none.mp hwhole] at hfilter
        rw [mem_collect, hfilter.eq_nil] at hg
        cases hg
    | some g' =>
        have hg' : g' ∈ G.collect ds := by
          refine List.mem_of_find?_eq_some (p := fun g' => G.keyOf g' = G.keyOf g) ?_
          rw [find_collect, hwhole]
        have hkey : G.keyOf g' = G.keyOf g := by
          rw [← find_collect] at hwhole
          simpa using List.find?_some hwhole
        refine List.mem_map.mpr ⟨g', hg', Prod.ext hkey ?_⟩
        show μ g' = μ g
        rw [measure_eq_sum h hg, measure_eq_sum h hg', hkey]
        exact ((hfilter.map ν).sum_eq).symm
  exact (List.perm_ext_iff_of_nodup (hnodup as) (hnodup bs)).mpr fun x =>
    ⟨hsub hperm x, hsub hperm.symm x⟩

end Measures

end Grouper
