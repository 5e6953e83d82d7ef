import Dwunw.Cfi.Links
import Dwunw.Cfi.Footprint
import Dwunw.Lib.Ledger

/-!
Who owns the blocks of the tables.

`realloc` gives the old block of a table back when it succeeds and leaves it alone when it fails,
and `dwunw_cfi_build` gives both blocks back on its error exits.

* `Owns`: since some point the allocator has handed out blocks, and each of them is live or was
  given back once.
* `TablesOwned`: the live blocks are those of the two tables; every turn of `parse_section`
  keeps this, however it ends.
* `BuildError`, `cfiBuild_outcome`: a build takes an error exit, or it hands out both tables.
* `cfiBuild_failed`, `cfiBuild_built`: a failed build leaves no block, and an accepted one the
  blocks of its two tables.
-/

namespace Dwunw

open Loop Ledger

variable {m : ByteMem} {heap : Heap} {secs : Sections}

/-! ### The allocator -/

/-- What the allocator has handed out since `old` is live, or was given back once. -/
structure Owns (old new : Heap) (live : List ℕ) : Prop where
  calls : old.calls ≤ new.calls
  ledger : ∃ allocated freed, new.allocated = allocated ++ old.allocated ∧
    new.freed = freed ++ old.freed ∧ Balanced allocated freed live ∧
    ∀ b ∈ allocated, b < new.calls

namespace Owns

variable {old new : Heap} {live live' : List ℕ}

lemma refl (h : Heap) : Owns h h [] :=
  ⟨Nat.le_refl _, [], [], rfl, rfl, .nil, fun _ hb => absurd hb List.not_mem_nil⟩

lemma reorder (h : Owns old new live) (hlive : live.Perm live') : Owns old new live' := by
  obtain ⟨allocated, freed, ha, hf, hbalanced, hlt⟩ := h.ledger
  exact ⟨h.calls, allocated, freed, ha, hf, hbalanced.reorder hlive, hlt⟩

/-- `realloc` replaces the old block by a fresh one, or leaves it. -/
lemma realloc {b : Block} (h : Owns old new (b.toList ++ live)) :
    Owns old (new.realloc b).2 (((new.realloc b).1.or b).toList ++ live) := by
  obtain ⟨allocated, freed, ha, hf, hbalanced, hlt⟩ := h.ledger
  rw [Heap.realloc]
  by_cases hg : new.grants new.calls
  · rw [if_pos hg]
    have hfresh : new.calls ∉ allocated := fun hmem => (hlt _ hmem).false
    refine ⟨h.calls.trans (Nat.le_succ _), new.calls :: allocated, b.toList ++ freed, ?_, ?_,
      hbalanced.release.alloc hfresh, ?_⟩
    · rw [List.cons_append, ha]
    · rw [List.append_assoc, hf]
    · intro b' hb'
      rcases List.mem_cons.mp hb' with rfl | hb'
      · exact Nat.lt_succ_self _
      · exact (hlt b' hb').trans (Nat.lt_succ_self _)
  · rw [if_neg hg]
    exact ⟨h.calls.trans (Nat.le_succ _), allocated, freed, ha, hf, hbalanced,
      fun b' hb' => (hlt b' hb').trans (Nat.lt_succ_self _)⟩

lemma free {b : Block} (h : Owns old new (b.toList ++ live)) : Owns old (new.free b) live := by
  obtain ⟨allocated, freed, ha, hf, hbalanced, hlt⟩ := h.ledger
  refine ⟨h.calls, allocated, b.toList ++ freed, ha, ?_, hbalanced.release, hlt⟩
  rw [Heap.free, List.append_assoc, hf]

end Owns

/-! ### Growable arrays -/

/-- A vector has room for its records, and a block as soon as it has room. -/
structure RecordVector.Housed {α : Type} (vec : RecordVector α) : Prop where
  fits : vec.records.length ≤ vec.capacity
  block : 0 < vec.capacity → vec.data ≠ none

lemma RecordVector.Housed.data_ne {α : Type} {vec : RecordVector α} (h : vec.Housed)
    (hne : vec.records ≠ []) : vec.data ≠ none :=
  h.block ((List.length_pos_iff.mpr hne).trans_le h.fits)

/-- An append keeps the account: the vector has its old block, or a new one in its place. -/
lemma vectorAppend_owns {α : Type} {old : Heap} {vec : RecordVector α} {live : List ℕ} (rec : α)
    (h : Owns old heap (vec.data.toList ++ live)) (hvec : vec.Housed) :
    Owns old (vectorAppend heap vec rec).2.2
        ((vectorAppend heap vec rec).2.1.data.toList ++ live) ∧
      (vectorAppend heap vec rec).2.1.Housed ∧
      ((vectorAppend heap vec rec).1 = .ok ∨ (vectorAppend heap vec rec).1 = .io) := by
  rw [vectorAppend, vectorReserve]
  by_cases hroom : vec.records.length + 1 ≤ vec.capacity
  · rw [if_pos hroom]
    refine ⟨h, ⟨?_, hvec.block⟩, .inl rfl⟩
    rw [List.length_append]
    exact hroom
  rw [if_neg hroom]
  have hrealloc := h.realloc
  dsimp only
  rcases hr : heap.realloc vec.data with ⟨_ | b, heap'⟩
  · rw [hr] at hrealloc
    exact ⟨hrealloc, hvec, .inr rfl⟩
  · rw [hr] at hrealloc
    refine ⟨hrealloc, ⟨?_, fun _ => Option.some_ne_none b⟩, .inl rfl⟩
    dsimp only
    rw [List.length_append, List.length_singleton]
    split_ifs <;> omega

/-! ### Sections -/

/-- The live blocks are those of the two tables. -/
structure TablesOwned (old : Heap) (t : ParseState) : Prop where
  owns : Owns old t.heap (t.cies.data.toList ++ t.fdes.data.toList)
  cies : t.cies.Housed
  fdes : t.fdes.Housed

variable {old : Heap} {t : ParseState}

lemma TablesOwned.init (heap : Heap) : TablesOwned heap (.init heap) :=
  ⟨.refl heap, ⟨Nat.le_refl _, fun h => absurd h (lt_irrefl _)⟩,
    ⟨Nat.le_refl _, fun h => absurd h (lt_irrefl _)⟩⟩

lemma TablesOwned.noteEntry (h : TablesOwned old t) (e : EntryAccesses) :
    TablesOwned old (t.noteEntry e) := ⟨h.owns, h.cies, h.fdes⟩

/-- Storing a record keeps the account, also where it fails. -/
lemma TablesOwned.storeRecord (h : TablesOwned old t) (rec : EntryRecord) :
    TablesOwned old (storeRecord t rec).2 ∧
      ((storeRecord t rec).1 = .ok ∨ (storeRecord t rec).1 = .io) := by
  cases rec with
  | cie cie =>
      obtain ⟨howns, hhoused, hst⟩ := vectorAppend_owns cie h.owns h.cies
      exact ⟨⟨howns, hhoused, h.fdes⟩, hst⟩
  | fde fde =>
      have hswap := h.owns.reorder List.perm_append_comm
      obtain ⟨howns, hhoused, hst⟩ := vectorAppend_owns fde hswap h.fdes
      exact ⟨⟨howns.reorder List.perm_append_comm, h.cies, hhoused⟩, hst⟩

/-- The statuses with which a section ends. -/
def SectionStatus (st : Status) : Prop := st = .ok ∨ ParseError st ∨ st = .io

/-- A turn keeps the account, whether it goes on or ends the loop. -/
lemma TablesOwned.turn (m : ByteMem) (sec : Section) (isEh : Bool) {s : SectionState}
    (h : TablesOwned old s.tables) :
    TablesOwned old (turnTables (sectionTurn m sec isEh s)) ∧
      ∀ r, sectionTurn m sec isEh s = .done r → SectionStatus r.1 := by
  rw [sectionTurn]
  by_cases hp : s.ptr + 4 ≤ sec.stop
  swap
  · rw [if_neg hp]
    refine ⟨h, ?_⟩
    rintro r ⟨⟩
    exact .inl rfl
  rw [if_pos hp]
  dsimp only
  have hnote := h.noteEntry ⟨sec, s.ptr, u32At m s.ptr,
    (parseEntry sec isEh s.tables.cies s.ptr).accesses m⟩
  cases hx : (parseEntry sec isEh s.tables.cies s.ptr).val m with
  | error e =>
      refine ⟨hnote, ?_⟩
      rintro r ⟨⟩
      exact .inr (.inl (parseEntry_errors _ hx))
  | ok r =>
      rcases r with _ | ⟨rec, stop⟩
      · refine ⟨hnote, ?_⟩
        rintro r ⟨⟩
        exact .inl rfl
      obtain ⟨howned, hst⟩ := hnote.storeRecord rec
      dsimp only
      split
      · next t' hstore =>
          rw [hstore] at howned
          exact ⟨howned, fun r hr => by cases hr⟩
      · next st t' _ hstore =>
          rw [hstore] at howned hst
          refine ⟨howned, ?_⟩
          rintro r ⟨⟩
          exact hst.imp_right .inr

/-- Parsing a section keeps the account, however it ends. -/
lemma TablesOwned.parseSection (m : ByteMem) (sec : Section) (isEh : Bool)
    (h : TablesOwned old t) :
    TablesOwned old (parseSection m sec isEh t).2 ∧
      SectionStatus (parseSection m sec isEh t).1 := by
  rw [Dwunw.parseSection]
  split_ifs with h0
  · exact ⟨h, .inl rfl⟩
  cases hr : run (sectionTurn m sec isEh) (sec.size.toNat + 1) ⟨sec.data, t⟩ with
  | none => exact ⟨h, .inr (.inl (.inl rfl))⟩
  | some r =>
      refine (ends_of_run hr).of_invariant (I := fun s => TablesOwned old s.tables)
        (Q := fun r => TablesOwned old r.2 ∧ SectionStatus r.1) ?_ ?_ h
      · intro s s' hs hnext
        have hturn := (hs.turn m sec isEh).1
        rwa [hnext] at hturn
      · intro s r' hs hdone
        obtain ⟨hturn, hst⟩ := hs.turn m sec isEh
        rw [hdone] at hturn
        exact ⟨hturn, hst r' hdone⟩

/-! ### Both sections -/

/-- The statuses with which a build fails. -/
def BuildError (st : Status) : Prop := ParseError st ∨ st = .io ∨ st = .noDebugData

lemma SectionStatus.buildError {st : Status} (h : SectionStatus st) (hne : st ≠ .ok) :
    BuildError st := (h.resolve_left hne).imp_right .inl

/-- A build ends with one of the error exits, or with both tables. -/
lemma cfiBuild_outcome (m : ByteMem) (heap : Heap) (secs : Sections) :
    ∃ t, TablesOwned heap t ∧
      ((∃ st, BuildError st ∧ cfiBuild m heap secs = .failed st t) ∨
        t.fdes.records ≠ [] ∧ cfiBuild m heap secs = .built t) := by
  obtain ⟨hehOwned, hehStatus⟩ :=
    (TablesOwned.init heap).parseSection m secs.ehFrame true
  rw [cfiBuild]
  generalize parseSection m secs.ehFrame true (.init heap) = r at *
  obtain ⟨st, t⟩ := r
  by_cases hst : st = .ok
  · subst hst
    obtain ⟨hdbgOwned, hdbgStatus⟩ := hehOwned.parseSection m secs.debugFrame false
    dsimp only at hdbgOwned hdbgStatus ⊢
    generalize parseSection m secs.debugFrame false t = r at *
    obtain ⟨st', t'⟩ := r
    by_cases hst' : st' = .ok
    · subst hst'
      refine ⟨t', hdbgOwned, ?_⟩
      dsimp only
      by_cases hempty : t'.fdes.records.length = 0
      · rw [if_pos hempty]
        exact .inl ⟨_, .inr (.inr rfl), rfl⟩
      · rw [if_neg hempty]
        exact .inr ⟨fun hnil => hempty (List.length_eq_zero_iff.mpr hnil), rfl⟩
    · refine ⟨t', hdbgOwned, .inl ⟨st', hdbgStatus.buildError hst', ?_⟩⟩
      cases st' with
      | ok => exact absurd rfl hst'
      | _ => rfl
  · refine ⟨t, hehOwned, .inl ⟨st, hehStatus.buildError hst, ?_⟩⟩
    cases st with
    | ok => exact absurd rfl hst
    | _ => rfl

lemma BuildError.ne_ok {st : Status} (h : BuildError st) : st ≠ .ok := by
  rcases h with h | rfl | rfl
  · exact h.ne_ok
  · decide
  · decide

/-- An error exit gives both blocks back. -/
lemma TablesOwned.failed (h : TablesOwned old t) (st : Status) :
    Owns old (BuildResult.failed st t).heap [] := by
  have hcies := h.owns.free
  rw [← List.append_nil t.fdes.data.toList] at hcies
  exact hcies.free

/-- A build that fails hands out no tables and leaves no block. -/
lemma cfiBuild_failed (h : (cfiBuild m heap secs).status ≠ .ok) :
    BuildError (cfiBuild m heap secs).status ∧ (cfiBuild m heap secs).cies = .null ∧
      (cfiBuild m heap secs).fdes = .null ∧ Owns heap (cfiBuild m heap secs).heap [] := by
  obtain ⟨t, howned, ⟨st, hst, hb⟩ | ⟨-, hb⟩⟩ := cfiBuild_outcome m heap secs
  · rw [hb]
    exact ⟨hst, rfl, rfl, howned.failed st⟩
  · rw [hb] at h
    exact absurd rfl h

/-- A build that is accepted hands out both tables, each with a block of its own. -/
lemma cfiBuild_built (h : (cfiBuild m heap secs).status = .ok) :
    Owns heap (cfiBuild m heap secs).heap
        ((cfiBuild m heap secs).cies.data.toList ++ (cfiBuild m heap secs).fdes.data.toList) ∧
      (cfiBuild m heap secs).cies.data ≠ none ∧ (cfiBuild m heap secs).fdes.data ≠ none ∧
      1 ≤ (cfiBuild m heap secs).fdes.records.length := by
  obtain ⟨hcies, hfdes⟩ := cfiBuild_tables h
  obtain ⟨t, howned, ⟨st, hst, hb⟩ | ⟨hne, hb⟩⟩ := cfiBuild_outcome m heap secs
  · rw [hb] at h
    exact absurd h hst.ne_ok
  rw [hb] at hcies hfdes ⊢
  refine ⟨howned.owns, howned.cies.data_ne fun hnil => ?_, howned.fdes.data_ne hne,
    List.length_pos_iff.mpr hne⟩
  -- an FDE is linked to a CIE of the table
  rw [BuildResult.built, hnil] at hcies
  rw [List.forall₂_nil_right_iff.mp hcies] at hfdes
  obtain ⟨fde, rest, hfde⟩ := List.exists_cons_of_ne_nil hne
  rw [BuildResult.built, hfde] at hfdes
  obtain ⟨o, os, hlink, -, -⟩ := List.forall₂_cons_right_iff.mp hfdes
  cases hlink.link

end Dwunw
