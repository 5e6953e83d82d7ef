import Mathlib.Tactic

/-!
Walks up a stack.

A row says where the frame of a call ends, counted from one register, and which registers the
call has saved there.  The registers of the caller follow: what is saved is in memory, the stack
pointer is the end of the frame, and everything else is as it was.  A walker that leaves the stack
pointer as it was, too, goes wrong where a row counts from it.

* `Row`, `Returns`: rows, and the registers of the caller.
* `Restores`: the walker that keeps the stack pointer.
* `Walk`: the registers up a stack of calls.
* `carried`, `stale`: what that walker has for the stack pointer, and all its registers.
* `cfa_stale_iff`, `Walk.restores_stale`: where it finds the end of a frame, and that it goes on
  from there.
* `restart`, `Walk.restart`: a walk of which other registers are known at the start.
-/

namespace StackWalk

variable {ι α : Type*}

/-- A row: the register that the end of the frame is counted from, and the places of the saved
registers, counted from there. -/
@[ext]
structure Row (ι α : Type*) where
  base : ι
  offset : α
  saved : ι → Option α

section

variable [Add α]

/-- The end of the frame, the canonical frame address. -/
def Row.cfa (row : Row ι α) (regs : ι → α) : α := regs row.base + row.offset

/-- The registers of the caller. -/
structure Returns (mem : α → Option α) (sp : ι) (row : Row ι α) (regs regs' : ι → α) : Prop where
  saved : ∀ i place, row.saved i = some place → mem (row.cfa regs + place) = some (regs' i)
  stackPointer : row.saved sp = none → regs' sp = row.cfa regs
  kept : ∀ i, row.saved i = none → i ≠ sp → regs' i = regs i

/-- The registers of the caller, for a walker that knows of no stack pointer. -/
structure Restores (mem : α → Option α) (row : Row ι α) (regs regs' : ι → α) : Prop where
  saved : ∀ i place, row.saved i = some place → mem (row.cfa regs + place) = some (regs' i)
  kept : ∀ i, row.saved i = none → regs' i = regs i

/-- What is restored is determined. -/
lemma Restores.unique {mem : α → Option α} {row : Row ι α} {regs regs₁ regs₂ : ι → α}
    (h₁ : Restores mem row regs regs₁) (h₂ : Restores mem row regs regs₂) : regs₁ = regs₂ := by
  funext i
  cases hi : row.saved i with
  | none => rw [h₁.kept i hi, h₂.kept i hi]
  | some place => exact Option.some.inj ((h₁.saved i place hi).symm.trans (h₂.saved i place hi))

/-- The registers up a stack of `depth` calls. -/
def Walk (mem : α → Option α) (sp : ι) (depth : ℕ) (rows : ℕ → Row ι α) (regs : ℕ → ι → α) :
    Prop := ∀ i < depth, Returns mem sp (rows i) (regs i) (regs (i + 1))

end

variable [DecidableEq ι] (sp : ι) (rows : ℕ → Row ι α) (regs : ℕ → ι → α)

/-- The stack pointer where it is only what a call has saved. -/
def carried : ℕ → α
  | 0 => regs 0 sp
  | i + 1 => if ((rows i).saved sp).isSome then regs (i + 1) sp else carried i

/-- The registers with that stack pointer. -/
def stale (i : ℕ) : ι → α := Function.update (regs i) sp (carried sp rows regs i)

lemma stale_zero : stale sp rows regs 0 = regs 0 := Function.update_eq_self _ _

variable {sp rows regs}

lemma stale_of_ne {j : ι} (h : j ≠ sp) (i : ℕ) : stale sp rows regs i j = regs i j :=
  Function.update_of_ne h _ _

/-- The end of a frame comes out right unless it is counted from a stale stack pointer. -/
theorem cfa_stale_iff [Add α] [IsRightCancelAdd α] {row : Row ι α} {i : ℕ} :
    row.cfa (stale sp rows regs i) = row.cfa (regs i) ↔
      (row.base = sp → carried sp rows regs i = regs i sp) := by
  rw [Row.cfa, Row.cfa, add_left_inj, stale, Function.update_apply]
  by_cases hbase : row.base = sp
  · rw [if_pos hbase, hbase]
    exact ⟨fun h _ => h, fun h => h rfl⟩
  · rw [if_neg hbase]
    exact iff_of_true rfl fun h => absurd h hbase

/-- From a frame whose end comes out right the walker goes on with its registers. -/
theorem Walk.restores_stale [Add α] {mem : α → Option α} {depth i : ℕ}
    (h : Walk mem sp depth rows regs) (hi : i < depth)
    (hcfa : (rows i).cfa (stale sp rows regs i) = (rows i).cfa (regs i)) :
    Restores mem (rows i) (stale sp rows regs i) (stale sp rows regs (i + 1)) := by
  constructor
  · intro j place hj
    rw [hcfa, (h i hi).saved j place hj, stale, Function.update_apply]
    split_ifs with hsp
    · rw [carried, ← hsp, hj, Option.isSome_some, if_pos rfl]
    · rfl
  · intro j hj
    by_cases hsp : j = sp
    · rw [hsp] at hj ⊢
      rw [stale, stale, Function.update_self, Function.update_self, carried, hj]
      rfl
    · rw [stale_of_ne hsp, stale_of_ne hsp]
      exact (h i hi).kept j hj hsp

/-! ### Other registers at the start -/

variable (sp rows regs) in
/-- The registers of a walk of which others are known at the start: they stay where nothing is
saved. -/
def restart (start : ι → α) : ℕ → ι → α
  | 0, j => start j
  | i + 1, j =>
      if ((rows i).saved j).isSome ∨ j = sp then regs (i + 1) j else restart start i j

section Restart

variable [Add α] {mem : α → Option α} {depth i : ℕ} {start : ι → α} {j : ι}

/-- A register that is the same at the start is the same all the way up. -/
lemma Walk.restart_same (h : Walk mem sp depth rows regs) (hstart : start j = regs 0 j)
    (hi : i ≤ depth) : restart sp rows regs start i j = regs i j := by
  induction i with
  | zero => exact hstart
  | succ i ih =>
      rw [restart]
      split_ifs with hj
      · rfl
      · rw [not_or, Option.not_isSome_iff_eq_none] at hj
        rw [ih (Nat.le_of_succ_le hi), (h i hi).kept j hj.1 hj.2]

/-- A walk whose frames are counted from registers that are the same at the start goes the same
way. -/
theorem Walk.restart (h : Walk mem sp depth rows regs)
    (hbase : ∀ i < depth, start (rows i).base = regs 0 (rows i).base) :
    Walk mem sp depth rows (restart sp rows regs start) ∧
      ∀ i < depth, (rows i).cfa (StackWalk.restart sp rows regs start i) =
        (rows i).cfa (regs i) := by
  have hcfa : ∀ i < depth, (rows i).cfa (StackWalk.restart sp rows regs start i) =
      (rows i).cfa (regs i) := fun i hi => by
    rw [Row.cfa, Row.cfa, h.restart_same (hbase i hi) hi.le]
  refine ⟨fun i hi => ⟨fun j place hj => ?_, fun hsp => ?_, fun j hj hne => ?_⟩, hcfa⟩
  · rw [hcfa i hi, (h i hi).saved j place hj, StackWalk.restart, hj]
    rfl
  · rw [hcfa i hi, StackWalk.restart, if_pos (.inr rfl), (h i hi).stackPointer hsp]
  · rw [StackWalk.restart, hj, if_neg (not_or.mpr ⟨by simp, hne⟩)]

omit [Add α] in
/-- What is carried for the stack pointer is the same when it is at the start. -/
lemma carried_restart (hstart : start sp = regs 0 sp) (i : ℕ) :
    carried sp rows (StackWalk.restart sp rows regs start) i = carried sp rows regs i := by
  induction i with
  | zero => exact hstart
  | succ i ih =>
      have hsp : StackWalk.restart sp rows regs start (i + 1) sp = regs (i + 1) sp :=
        if_pos (.inr rfl)
      rw [carried, carried, ih, hsp]

end Restart

end StackWalk
