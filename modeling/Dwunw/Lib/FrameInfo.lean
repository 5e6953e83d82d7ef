import Dwunw.Lib.CallFrame

/-!
Call frame information, as version 5 of DWARF defines it.

A module has common entries, each with the factors of its programs, the column of the return
address and initial instructions, and for every range of addresses an entry that names a common
one and has a program of its own.  Numbers are those of `ℕ` and `ℤ`.

* `Cie`, `Fde`, `Entry`: the entries of a module, in the order of its section.
* `Cie.initial`, `Fde.rows`: the row that a program starts from, and the table that it makes.
* `rowAt`: the row of an address, and where the return address is.
* `rowAt_eq_some`: where the row comes from.
-/

namespace CallFrame

/-- A common information entry. -/
structure Cie (n : ℕ) where
  codeAlign : ℕ
  dataAlign : ℤ
  returnReg : ℕ
  program : List (Instr n)

/-- A frame description entry: the number of its common entry, its range and its program. -/
structure Fde (n : ℕ) where
  cie : ℕ
  start : ℕ
  size : ℕ
  program : List (Instr n)

inductive Entry (n : ℕ) where
  | cie (c : Cie n)
  | fde (f : Fde n)

variable {n : ℕ}

def Entry.isCie : Entry n → Bool
  | .cie _ => true
  | .fde _ => false

/-- The common entries, in order. -/
def cies : List (Entry n) → List (Cie n)
  | [] => []
  | .cie c :: es => c :: cies es
  | .fde _ :: es => cies es

/-- The frame description entries, in order. -/
def fdes : List (Entry n) → List (Fde n)
  | [] => []
  | .cie _ :: es => fdes es
  | .fde f :: es => f :: fdes es

lemma mem_of_mem_cies {es : List (Entry n)} {c : Cie n} (h : c ∈ cies es) : Entry.cie c ∈ es := by
  induction es with
  | nil => cases h
  | cons e es ih =>
      cases e with
      | cie c' =>
          rcases List.mem_cons.mp h with rfl | h
          · exact List.mem_cons_self
          · exact List.mem_cons_of_mem _ (ih h)
      | fde f => exact List.mem_cons_of_mem _ (ih h)

lemma mem_of_mem_fdes {es : List (Entry n)} {f : Fde n} (h : f ∈ fdes es) : Entry.fde f ∈ es := by
  induction es with
  | nil => cases h
  | cons e es ih =>
      cases e with
      | cie c => exact List.mem_cons_of_mem _ (ih h)
      | fde f' =>
          rcases List.mem_cons.mp h with rfl | h
          · exact List.mem_cons_self
          · exact List.mem_cons_of_mem _ (ih h)

/-- The address is in the range of the entry. -/
def Fde.Has (f : Fde n) (pc : ℕ) : Prop := f.start ≤ pc ∧ pc < f.start + f.size

instance (f : Fde n) (pc : ℕ) : Decidable (f.Has pc) := inferInstanceAs (Decidable (_ ∧ _))

/-- Locations advance by factored deltas. -/
def Cie.addressing (c : Cie n) : Addressing ℕ := ⟨id, fun loc d => loc + d * c.codeAlign⟩

/-- The row after the initial instructions, from the row that the ABI has. -/
def Cie.initial (abi : Row) (c : Cie n) : Row := (exec c.dataAlign abi ⟨abi, []⟩ c.program).row

/-- The table of the range. -/
def Fde.rows (abi : Row) (c : Cie n) (f : Fde n) : List (ℕ × Row) :=
  table c.addressing c.dataAlign (c.initial abi) f.start ⟨c.initial abi, []⟩ f.program

/-- The row that the entries have for an address, of the first range that has it, and the column
of the return address. -/
def rowAt (abi : Row) (es : List (Entry n)) (pc : ℕ) : Option (Row × ℕ) :=
  ((fdes es).find? fun f => decide (f.Has pc)).bind fun f =>
    ((cies es)[f.cie]?).bind fun c =>
      (lastRow (f.rows abi c) pc).map fun row => (row, c.returnReg)

/-- A row comes from the first range that has the address. -/
lemma rowAt_eq_some {abi row : Row} {es : List (Entry n)} {pc ra : ℕ} :
    rowAt abi es pc = some (row, ra) ↔
      ∃ f c, (fdes es).find? (fun f => decide (f.Has pc)) = some f ∧ (cies es)[f.cie]? = some c ∧
        lastRow (f.rows abi c) pc = some row ∧ c.returnReg = ra := by
  simp only [rowAt, Option.bind_eq_some_iff, Option.map_eq_some_iff, Prod.mk.injEq]
  constructor
  · rintro ⟨f, hf, c, hc, _, hrow, rfl, rfl⟩
    exact ⟨f, c, hf, hc, hrow, rfl⟩
  · rintro ⟨f, c, hf, hc, hrow, rfl⟩
    exact ⟨f, hf, c, hc, row, hrow, rfl, rfl⟩

end CallFrame
