import Mathlib.Data.List.Sort
import Mathlib.Tactic

/-!
Sorting with a comparator.

`qsort` puts an array in some order that its comparator agrees with; where the comparator says
that two elements are equal it leaves open which comes first.

* `Qsort`: a function that sorts; `Qsort.merge` is one, so that there is one.
* `Qsort.take_first`: what is cut off at the end comes after what is kept.
* `Qsort.map_sort_eq`: what the comparator compares comes out the same, however ties are broken.
-/

/-- What `qsort` may do. -/
structure Qsort {α : Type} (cmp : α → α → ℤ) where
  sort : List α → List α
  perm : ∀ as, (sort as).Perm as
  sorted : ∀ as, (sort as).Pairwise fun a b => cmp a b ≤ 0

namespace Qsort

variable {α : Type} {cmp : α → α → ℤ}

/-- A merge sort, for a comparator that compares every two elements in the same direction. -/
def merge (htrans : ∀ a b c, cmp a b ≤ 0 → cmp b c ≤ 0 → cmp a c ≤ 0)
    (htotal : ∀ a b, cmp a b ≤ 0 ∨ cmp b a ≤ 0) : Qsort cmp where
  sort as := as.mergeSort fun a b => cmp a b ≤ 0
  perm as := List.mergeSort_perm as _
  sorted as := by
    refine (List.pairwise_mergeSort (fun a b c => ?_) (fun a b => ?_) as).imp of_decide_eq_true
    · simpa using htrans a b c
    · simpa using htotal a b

/-- What is kept comes before what is cut off. -/
lemma take_first (q : Qsort cmp) (as : List α) (n : ℕ) :
    ∀ a ∈ (q.sort as).take n, ∀ b ∈ (q.sort as).drop n, cmp a b ≤ 0 := by
  have hsorted := q.sorted as
  rw [← List.take_append_drop n (q.sort as), List.pairwise_append] at hsorted
  exact hsorted.2.2

/-- Elements that are compared by a value come out with these values in one order. -/
lemma map_sort_eq {β : Type} [LinearOrder β] {f : α → β} (hcmp : ∀ a b, cmp a b ≤ 0 ↔ f b ≤ f a)
    (q q' : Qsort cmp) {as bs : List α} (hperm : (as.map f).Perm (bs.map f)) :
    (q.sort as).map f = (q'.sort bs).map f := by
  have hsorted : ∀ (q : Qsort cmp) (cs : List α), ((q.sort cs).map f).SortedGE := fun q cs =>
    (List.pairwise_map.mpr ((q.sorted cs).imp (hcmp _ _).mp)).sortedGE
  refine List.Perm.eq_of_sortedGE (hsorted q as) (hsorted q' bs) ?_
  exact ((q.perm as).map f).trans (hperm.trans ((q'.perm bs).map f).symm)

end Qsort
