import Dwunw.Cfi.Read

/-!
The records and growable tables of `src/dwarf/cfi.h` and `src/dwarf/cfi.c`.

`realloc` hands out a fresh block every time it grows a table and gives the old block back,
so a pointer into a table is a block together with an index, and it is good only as long as
the table still lives in that block.  The heap keeps count of its calls, of the blocks handed
out and of the blocks given back; which calls succeed is a parameter of it.

* `CieRecord`, `FdeRecord`: `struct dwunw_cie_record`, `struct dwunw_fde_record`.
* `Heap.realloc`, `Heap.free`: the allocator.
* `vectorReserve`, `cieVectorAppend`, `fdeVectorAppend`: the growable arrays.
* `findCie`: the lookup of a CIE by its offset.
-/

namespace Dwunw

/-- `struct dwunw_cie_record`; the pointers are host addresses. -/
structure CieRecord where
  version : UInt8
  addressSize : UInt8
  returnReg : UInt8
  ptrEncoding : UInt8
  dataAlign : Int64
  codeAlign : UInt64
  offset : UInt64
  augmentation : UInt64
  augmentationLen : UInt64
  instructions : UInt64
  instructionsSize : UInt64
  deriving DecidableEq, Repr

/-- A block of the allocator, `none` for `NULL`. -/
abbrev Block := Option ℕ

/-- `const struct dwunw_cie_record *`: an element of a table in a block. -/
structure CiePtr where
  block : Block
  index : ℕ
  deriving DecidableEq, Repr

/-- `struct dwunw_fde_record`. -/
structure FdeRecord where
  cie : CiePtr
  offset : UInt64
  pcBegin : UInt64
  pcRange : UInt64
  instructions : UInt64
  instructionsSize : UInt64
  deriving DecidableEq, Repr

/-! ### The allocator -/

/-- The allocator: whether the `n`-th `realloc` succeeds, the number of calls so far, and the
blocks handed out and given back, latest first.  A block is named by the call that made
it. -/
structure Heap where
  grants : ℕ → Bool
  calls : ℕ
  allocated : List ℕ
  freed : List ℕ

/-- The allocator before its first call. -/
def Heap.fresh (grants : ℕ → Bool) : Heap := ⟨grants, 0, [], []⟩

/-- `realloc`: on success the data is in a fresh block and the old one is given back, on
failure the old block stays. -/
def Heap.realloc (h : Heap) (old : Block) : Block × Heap :=
  if h.grants h.calls then
    (some h.calls, { h with
      calls := h.calls + 1
      allocated := h.calls :: h.allocated
      freed := old.toList ++ h.freed })
  else (none, { h with calls := h.calls + 1 })

/-- `free`. -/
def Heap.free (h : Heap) (b : Block) : Heap := { h with freed := b.toList ++ h.freed }

/-! ### Growable arrays -/

/-- `struct cie_vector` and `struct fde_vector`: the block of the data, the records in it and
the capacity. -/
structure RecordVector (α : Type) where
  data : Block
  records : List α
  capacity : ℕ

/-- A table handed to the caller: the block and the records. -/
structure RecordTable (α : Type) where
  data : Block
  records : List α

variable {α : Type}

/-- `struct cie_vector cies = {0}`. -/
def RecordVector.zero : RecordVector α := ⟨none, [], 0⟩

/-- A `NULL` table with count zero. -/
def RecordTable.null : RecordTable α := ⟨none, []⟩

abbrev CieVector := RecordVector CieRecord

abbrev FdeVector := RecordVector FdeRecord

/-- `vector_reserve`. -/
def vectorReserve (heap : Heap) (vec : RecordVector α) (minCap : ℕ) :
    Status × RecordVector α × Heap :=
  if minCap ≤ vec.capacity then (.ok, vec, heap)
  else
    let newCap := if vec.capacity = 0 then 8 else vec.capacity * 2
    let newCap := if newCap < minCap then minCap else newCap
    match heap.realloc vec.data with
    | (none, heap) => (.io, vec, heap)
    | (some b, heap) => (.ok, { vec with data := some b, capacity := newCap }, heap)

/-- The common body of `cie_vector_append` and `fde_vector_append`. -/
def vectorAppend (heap : Heap) (vec : RecordVector α) (rec : α) :
    Status × RecordVector α × Heap :=
  match vectorReserve heap vec (vec.records.length + 1) with
  | (.ok, vec, heap) => (.ok, { vec with records := vec.records ++ [rec] }, heap)
  | (st, vec, heap) => (st, vec, heap)

/-- `cie_vector_append`. -/
def cieVectorAppend (heap : Heap) (vec : CieVector) (rec : CieRecord) :
    Status × CieVector × Heap := vectorAppend heap vec rec

/-- `fde_vector_append`. -/
def fdeVectorAppend (heap : Heap) (vec : FdeVector) (rec : FdeRecord) :
    Status × FdeVector × Heap := vectorAppend heap vec rec

/-- `find_cie`: the first CIE of the vector with this offset, and the pointer to it. -/
def findCie (vec : CieVector) (offset : UInt64) : Option (CiePtr × CieRecord) :=
  match vec.records.findIdx? (·.offset = offset) with
  | none => none
  | some i => vec.records[i]?.map fun cie => (⟨vec.data, i⟩, cie)

/-- The record a pointer leads to, when the table still lives in the pointer's block. -/
def RecordTable.deref (table : RecordTable α) (ptr : CiePtr) : Option α :=
  if ptr.block = table.data then table.records[ptr.index]? else none

/-! ### What an append does -/

/-- An append either fails, with the vector as it was, or adds the record at the end; the
vector has moved to a new block exactly when it was full. -/
lemma vectorAppend_cases (heap : Heap) (vec : RecordVector α) (rec : α) :
    (∃ heap', vectorAppend heap vec rec = (.io, vec, heap')) ∨
    (vec.records.length + 1 ≤ vec.capacity ∧
      vectorAppend heap vec rec = (.ok, { vec with records := vec.records ++ [rec] }, heap)) ∨
    (vec.capacity < vec.records.length + 1 ∧ heap.grants heap.calls ∧
      vectorAppend heap vec rec = (.ok,
        { data := some heap.calls
          records := vec.records ++ [rec]
          capacity := max (if vec.capacity = 0 then 8 else vec.capacity * 2)
            (vec.records.length + 1) },
        { heap with
          calls := heap.calls + 1
          allocated := heap.calls :: heap.allocated
          freed := vec.data.toList ++ heap.freed })) := by
  unfold vectorAppend vectorReserve
  by_cases hcap : vec.records.length + 1 ≤ vec.capacity
  · exact .inr (.inl ⟨hcap, by rw [if_pos hcap]⟩)
  · rw [if_neg hcap]
    by_cases hg : heap.grants heap.calls
    · refine .inr (.inr ⟨by omega, hg, ?_⟩)
      simp only [Heap.realloc, hg, if_true]
      congr 3
      split_ifs <;> omega
    · exact .inl ⟨{ heap with calls := heap.calls + 1 }, by simp [Heap.realloc, hg]⟩

/-- An append that succeeds adds the record at the end. -/
lemma vectorAppend_ok_records {α : Type} {hp hp' : Heap} {vec vec' : RecordVector α} {rec : α}
    (h : vectorAppend hp vec rec = (.ok, vec', hp')) : vec'.records = vec.records ++ [rec] := by
  rcases vectorAppend_cases hp vec rec with ⟨_, hv⟩ | ⟨-, hv⟩ | ⟨-, -, hv⟩ <;>
    rw [hv] at h <;> cases h <;> rfl

/-- A lookup that succeeds has found an element of the vector with the offset asked for, and
no element before it has that offset. -/
lemma findCie_eq_some {vec : CieVector} {offset : UInt64} {ptr : CiePtr} {cie : CieRecord} :
    findCie vec offset = some (ptr, cie) ↔
      ptr.block = vec.data ∧ vec.records[ptr.index]? = some cie ∧
        vec.records.findIdx? (·.offset = offset) = some ptr.index := by
  unfold findCie
  cases h : vec.records.findIdx? (·.offset = offset) with
  | none => simp
  | some i =>
      simp only [Option.map_eq_some_iff, Prod.mk.injEq, Option.some.injEq]
      constructor
      · rintro ⟨c, hc, rfl, rfl⟩
        exact ⟨rfl, hc, rfl⟩
      · rintro ⟨hb, hc, rfl⟩
        exact ⟨cie, hc, by rw [← hb], rfl⟩

lemma findCie_eq_none {vec : CieVector} {offset : UInt64} :
    findCie vec offset = none ↔ ∀ cie ∈ vec.records, cie.offset ≠ offset := by
  unfold findCie
  cases h : vec.records.findIdx? (·.offset = offset) with
  | none => simpa using h
  | some i =>
      rw [List.findIdx?_eq_some_iff_getElem] at h
      obtain ⟨hlt, ho, -⟩ := h
      simp only [List.getElem?_eq_getElem hlt, Option.map_some, reduceCtorEq, false_iff]
      intro hall
      exact hall _ (List.getElem_mem hlt) (by simpa using ho)

end Dwunw
