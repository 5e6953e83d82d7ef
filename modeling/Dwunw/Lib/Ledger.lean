import Mathlib.Data.List.Perm.Basic
import Mathlib.Data.List.Nodup

/-!
Ledgers of an allocator.

A ledger lists the blocks that were handed out and those that were given back.  It is balanced
for a list of live blocks when every block was handed out once, and is either live or was given
back, once as well.

* `Balanced`, with `Balanced.alloc` and `Balanced.release` for the two operations.
-/

namespace Ledger

variable {α : Type*}

/-- The blocks that were handed out are those that were given back and the live ones. -/
structure Balanced (allocated freed live : List α) : Prop where
  nodup : allocated.Nodup
  perm : allocated.Perm (freed ++ live)

namespace Balanced

variable {allocated freed live live' : List α} {b : α}

lemma nil : Balanced ([] : List α) [] [] := ⟨List.nodup_nil, .nil⟩

/-- The order of the live blocks does not matter. -/
lemma reorder (h : Balanced allocated freed live) (hlive : live.Perm live') :
    Balanced allocated freed live' := ⟨h.nodup, h.perm.trans (hlive.append_left freed)⟩

/-- A block is handed out. -/
lemma alloc (h : Balanced allocated freed live) (hb : b ∉ allocated) :
    Balanced (b :: allocated) freed (b :: live) :=
  ⟨List.nodup_cons.mpr ⟨hb, h.nodup⟩, (h.perm.cons b).trans List.perm_middle.symm⟩

/-- Live blocks are given back. -/
lemma release {bs : List α} (h : Balanced allocated freed (bs ++ live)) :
    Balanced allocated (bs ++ freed) live := by
  refine ⟨h.nodup, h.perm.trans ?_⟩
  rw [← List.append_assoc]
  exact List.perm_append_comm.append_right live

end Balanced

end Ledger
