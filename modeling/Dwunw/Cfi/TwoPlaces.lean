import Dwunw.Cfi.Placement

/-!
A build at two places.

Two parsers over the same bytes go in step from entry to entry, with tables that differ in the
addresses of FDEs at most, until one of them turns an entry down and the other one does not.

* `TakenAt`, `GetsThrough`, `TurnedDown`: how one build ends, by the entries that the parser comes
  to; `getsThrough_iff`, `turnedDown_iff`.
* `StatesTwin`, `StaysInStep`, `SameAddresses`: two parsers at one entry; `sectionTurn_in_step` is
  what one turn preserves, `turnedDownAt_of_split` how the two part.
* `stepPairs`: the entries that two builds come to, side by side; `cfiBuild_in_step` and
  `cfiBuild_split` for the two ways.
* `cfiBuild_placement_iff`: when two builds come out alike.
-/

namespace Dwunw

open Loop Traced

/-! ### How a build ends -/

section OneBuild

variable {m : ByteMem} {sec : Section} {isEh : Bool} {t : ParseState} {s : SectionState}
  {st : Status} {heap : Heap} {secs : Sections}

/-- The entry at the cursor, if there is one, is decoded and stored. -/
def TakenAt (m : ByteMem) (sec : Section) (isEh : Bool) (s : SectionState) : Prop :=
  s.ptr + 4 ≤ sec.stop →
    ∃ r, (parseEntry sec isEh s.tables.cies s.ptr).val m = .ok r ∧
      ∀ p ∈ r, (storeRecord s.tables p.1).1 = .ok

/-- The entry at the cursor is turned down with this status. -/
def TurnedDownAt (m : ByteMem) (sec : Section) (isEh : Bool) (st : Status) (s : SectionState) :
    Prop :=
  s.ptr + 4 ≤ sec.stop ∧ (parseEntry sec isEh s.tables.cies s.ptr).val m = .error st

lemma storeRecord_noteEntry (t : ParseState) (e : EntryAccesses) (rec : EntryRecord) :
    (storeRecord (t.noteEntry e) rec).1 = (storeRecord t rec).1 := by
  cases rec <;> rfl

/-- The append that fails is out of memory. -/
lemma storeRecord_status (t : ParseState) (rec : EntryRecord) :
    (storeRecord t rec).1 = .ok ∨ (storeRecord t rec).1 = .io := by
  cases rec with
  | cie cie =>
      rw [storeRecord, cieVectorAppend]
      rcases vectorAppend_cases t.heap t.cies cie with ⟨_, hv⟩ | ⟨-, hv⟩ | ⟨-, -, hv⟩ <;>
        rw [hv] <;> simp
  | fde fde =>
      rw [storeRecord, fdeVectorAppend]
      rcases vectorAppend_cases t.heap t.fdes fde with ⟨_, hv⟩ | ⟨-, hv⟩ | ⟨-, -, hv⟩ <;>
        rw [hv] <;> simp

/-- How a turn that ends the loop comes to its status. -/
lemma sectionTurn_done {r : Status × ParseState} (h : sectionTurn m sec isEh s = .done r) :
    (r.1 = .ok ↔ TakenAt m sec isEh s) ∧
      (ParseError r.1 → TurnedDownAt m sec isEh r.1 s) := by
  rw [sectionTurn] at h
  by_cases hp : s.ptr + 4 ≤ sec.stop
  swap
  · rw [if_neg hp] at h
    cases h
    exact ⟨iff_of_true rfl fun h => absurd h hp, fun h => absurd rfl h.ne_ok⟩
  rw [if_pos hp] at h
  dsimp only at h
  rw [TakenAt, TurnedDownAt]
  rcases hx : (parseEntry sec isEh s.tables.cies s.ptr).val m with st | _ | ⟨rec, stop⟩
  · rw [hx] at h
    cases h
    refine ⟨iff_of_false (parseEntry_errors _ hx).ne_ok ?_, fun _ => ⟨hp, rfl⟩⟩
    intro htaken
    obtain ⟨r, hr, -⟩ := htaken hp
    cases hr
  · rw [hx] at h
    cases h
    exact ⟨iff_of_true rfl fun _ => ⟨none, rfl, fun _ h => by cases h⟩,
      fun h => absurd rfl h.ne_ok⟩
  · rw [hx] at h
    dsimp only at h
    have hstore := storeRecord_noteEntry s.tables (entryNote m sec isEh s) rec
    have hstatus := storeRecord_status s.tables rec
    rw [entryNote] at hstore
    rcases hst : storeRecord (s.tables.noteEntry
      ⟨sec, s.ptr, u32At m s.ptr, (parseEntry sec isEh s.tables.cies s.ptr).accesses m⟩) rec
      with ⟨st, t'⟩
    rw [hst] at h hstore
    dsimp only at hstore
    rw [← hstore] at hstatus
    rcases hstatus with rfl | rfl
    · cases h
    · cases h
      refine ⟨iff_of_false (fun h => Status.noConfusion h) ?_,
        fun h => absurd h (by simp [ParseError])⟩
      intro htaken
      obtain ⟨r, hr, hall⟩ := htaken hp
      cases hr
      have hok := hall _ rfl
      rw [← hstore] at hok
      cases hok

/-- A turn that goes on has taken its entry. -/
lemma takenAt_of_next {s' : SectionState} (h : sectionTurn m sec isEh s = .next s') :
    TakenAt m sec isEh s := by
  obtain ⟨hat, hfit, -, rec, hd, hst⟩ := sectionTurn_next.mp h
  refine fun _ => ⟨_, parseEntry_eq_some.mpr ⟨hat.2, hfit, rfl, hd⟩, ?_⟩
  rintro _ ⟨⟩
  rw [← storeRecord_noteEntry s.tables (entryNote m sec isEh s) rec, hst]

/-- An entry that is turned down ends the loop. -/
lemma sectionTurn_of_turnedDown (h : TurnedDownAt m sec isEh st s) :
    ∃ t, sectionTurn m sec isEh s = .done (st, t) := by
  rw [sectionTurn, if_pos h.1]
  dsimp only
  rw [h.2]
  exact ⟨_, rfl⟩

/-- A section is accepted when every entry that the parser comes to is taken. -/
lemma parseSection_ok_iff (hm : sec.Mapped) :
    (parseSection m sec isEh t).1 = .ok ↔
      ∀ s ∈ sectionStates m sec isEh t, TakenAt m sec isEh s := by
  by_cases h0 : sec.data = 0 ∨ sec.size = 0
  · rw [parseSection, if_pos h0, sectionStates, if_pos h0]
    exact iff_of_true rfl fun _ h => absurd h List.not_mem_nil
  have hends : Ends (sectionTurn m sec isEh) ⟨sec.data, t⟩ (parseSection m sec isEh t) :=
    parseSection_ends hm h0 t
  constructor
  · intro hok s hs
    have hreach := ((mem_sectionStates_iff hm).mp hs).2
    cases hturn : sectionTurn m sec isEh s with
    | next s' => exact takenAt_of_next hturn
    | done r =>
        have hr := hends.unique (ends_iff_reaches.mpr ⟨s, hreach, hturn⟩)
        rw [hr] at hok
        exact (sectionTurn_done hturn).1.mp hok
  · intro hall
    obtain ⟨s, hreach, hturn⟩ := ends_iff_reaches.mp hends
    exact (sectionTurn_done hturn).1.mpr (hall s ((mem_sectionStates_iff hm).mpr ⟨h0, hreach⟩))

/-- A section is turned down with the status of an entry that the parser comes to. -/
lemma parseSection_error_iff (hm : sec.Mapped) (hst : ParseError st) :
    (parseSection m sec isEh t).1 = st ↔
      ∃ s ∈ sectionStates m sec isEh t, TurnedDownAt m sec isEh st s := by
  by_cases h0 : sec.data = 0 ∨ sec.size = 0
  · rw [parseSection, if_pos h0, sectionStates, if_pos h0]
    refine iff_of_false hst.ne_ok.symm ?_
    rintro ⟨s, hs, -⟩
    exact absurd hs List.not_mem_nil
  have hends : Ends (sectionTurn m sec isEh) ⟨sec.data, t⟩ (parseSection m sec isEh t) :=
    parseSection_ends hm h0 t
  constructor
  · intro h
    obtain ⟨s, hreach, hturn⟩ := ends_iff_reaches.mp hends
    have hdown := (sectionTurn_done hturn).2 (h ▸ hst)
    rw [h] at hdown
    exact ⟨s, (mem_sectionStates_iff hm).mpr ⟨h0, hreach⟩, hdown⟩
  · rintro ⟨s, hs, hdown⟩
    obtain ⟨t', hturn⟩ := sectionTurn_of_turnedDown hdown
    rw [hends.unique (ends_iff_reaches.mpr ⟨s, ((mem_sectionStates_iff hm).mp hs).2, hturn⟩)]

/-- How many FDEs an accepted section adds to the table. -/
lemma parseSection_fde_count {m : ByteMem} {sec : Section} {t t' : ParseState}
    (h : parseSection m sec isEh t = (.ok, t')) :
    t'.fdes.records.length =
      t.fdes.records.length + ((entryHeads m sec).filter (!·.isCie isEh)).length := by
  refine parseSection_ok_induction
    (P := fun hs t' => t'.fdes.records.length =
      t.fdes.records.length + (hs.filter (!·.isCie isEh)).length)
    (fun _ _ _ h => h) (fun hs h t₁ rec t₂ _ hcount hd hst => ?_) h (by simp)
  rcases storeRecord_ok hst with ⟨cie, rfl, -, hf, -⟩ | ⟨fde, rfl, hv, -, -⟩
  · cases hd with
    | cie hid _ => rw [hf, hcount, List.filter_append]; simp [hid]
  · cases hd with
    | fde hid _ =>
        rw [vectorAppend_ok_records hv, List.length_append, hcount, List.filter_append]
        simp [hid, Nat.add_assoc]

/-- The parser comes to an entry that it turns down with this status. -/
def TurnedDown (m : ByteMem) (heap : Heap) (secs : Sections) (st : Status) : Prop :=
  ∃ b ∈ buildStates m heap secs, TurnedDownAt m (b.frame secs) b.isEh st b.state

/-- The parser takes every entry that it comes to, and one of them is an FDE. -/
structure GetsThrough (m : ByteMem) (heap : Heap) (secs : Sections) : Prop where
  taken : ∀ b ∈ buildStates m heap secs, TakenAt m (b.frame secs) b.isEh b.state
  fde : (entryHeads m secs.ehFrame).filter (!·.isCie true) ≠ [] ∨
    (entryHeads m secs.debugFrame).filter (!·.isCie false) ≠ []

/-- The states of a build are those of its sections. -/
lemma forall_mem_buildStates_iff {P : BuildState → Prop} :
    (∀ b ∈ buildStates m heap secs, P b) ↔
      (∀ s ∈ sectionStates m secs.ehFrame true (.init heap), P ⟨true, s⟩) ∧
        ∀ t, parseSection m secs.ehFrame true (.init heap) = (.ok, t) →
          ∀ s ∈ sectionStates m secs.debugFrame false t, P ⟨false, s⟩ := by
  rw [buildStates, List.forall_mem_append, List.forall_mem_map]
  refine and_congr_right fun _ => ?_
  rcases parseSection m secs.ehFrame true (.init heap) with ⟨st, t⟩
  cases st
  case ok =>
    dsimp only
    rw [List.forall_mem_map]
    constructor
    · rintro h _ ⟨⟩
      exact h
    · exact fun h => h t rfl
  all_goals
    refine iff_of_true (fun _ h => absurd h List.not_mem_nil) fun _ h => ?_
    cases h

/-- A build is accepted when the parser gets through. -/
theorem getsThrough_iff (heh : secs.ehFrame.Mapped) (hdbg : secs.debugFrame.Mapped) :
    GetsThrough m heap secs ↔ (cfiBuild m heap secs).status = .ok := by
  have hcount {t t' : ParseState} (h : parseSection m secs.ehFrame true (.init heap) = (.ok, t))
      (h' : parseSection m secs.debugFrame false t = (.ok, t')) :
      t'.fdes.records.length = 0 ↔
        ¬ ((entryHeads m secs.ehFrame).filter (!·.isCie true) ≠ [] ∨
          (entryHeads m secs.debugFrame).filter (!·.isCie false) ≠ []) := by
    have h0 : (ParseState.init heap).fdes.records.length = 0 := rfl
    rw [parseSection_fde_count h', parseSection_fde_count h, h0, not_or, not_not, not_not,
      ← List.length_eq_zero_iff, ← List.length_eq_zero_iff]
    omega
  have hiff : GetsThrough m heap secs ↔
      (∀ b ∈ buildStates m heap secs, TakenAt m (b.frame secs) b.isEh b.state) ∧
        ((entryHeads m secs.ehFrame).filter (!·.isCie true) ≠ [] ∨
          (entryHeads m secs.debugFrame).filter (!·.isCie false) ≠ []) :=
    ⟨fun h => ⟨h.taken, h.fde⟩, fun h => ⟨h.1, h.2⟩⟩
  rw [hiff, forall_mem_buildStates_iff]
  constructor
  · rintro ⟨⟨he, hd⟩, hfde⟩
    have hok := (parseSection_ok_iff heh).mpr he
    rcases hx : parseSection m secs.ehFrame true (.init heap) with ⟨st, t⟩
    rw [hx] at hok
    obtain rfl : st = .ok := hok
    have hok' := (parseSection_ok_iff hdbg).mpr (hd t hx)
    rcases hx' : parseSection m secs.debugFrame false t with ⟨st', t'⟩
    rw [hx'] at hok'
    obtain rfl : st' = .ok := hok'
    rw [cfiBuild, hx]
    dsimp only
    rw [hx']
    dsimp only
    rw [if_neg fun h0 => (hcount hx hx').mp h0 hfde]
    rfl
  · intro hok
    obtain ⟨t, t', hx, hx', hne, -⟩ := cfiBuild_ok hok
    refine ⟨⟨(parseSection_ok_iff heh).mp (by rw [hx]), fun t₁ ht₁ => ?_⟩, ?_⟩
    · rw [hx] at ht₁
      cases ht₁
      exact (parseSection_ok_iff hdbg).mp (by rw [hx'])
    · by_contra hnone
      exact hne (List.length_eq_zero_iff.mp ((hcount hx hx').mpr hnone))

/-- A build is turned down with the status of an entry that the parser comes to. -/
theorem turnedDown_iff (heh : secs.ehFrame.Mapped) (hdbg : secs.debugFrame.Mapped)
    (hst : ParseError st) : TurnedDown m heap secs st ↔ (cfiBuild m heap secs).status = st := by
  have hnot : TurnedDown m heap secs st ↔
      ¬ ∀ b ∈ buildStates m heap secs, ¬ TurnedDownAt m (b.frame secs) b.isEh st b.state := by
    rw [TurnedDown]
    push Not
    rfl
  have hnone : st ≠ .noDebugData := by
    rcases hst with rfl | rfl <;> decide
  have hsec {sec : Section} {isEh : Bool} {t : ParseState} (hm : sec.Mapped) :
      (∀ s ∈ sectionStates m sec isEh t, ¬ TurnedDownAt m sec isEh st s) ↔
        (parseSection m sec isEh t).1 ≠ st := by
    rw [Ne, parseSection_error_iff hm hst]
    push Not
    rfl
  rw [hnot, forall_mem_buildStates_iff, ← not_iff_not, not_not]
  have he : (∀ s ∈ sectionStates m secs.ehFrame true (.init heap), ¬ TurnedDownAt m secs.ehFrame
      true st s) ↔ (parseSection m secs.ehFrame true (.init heap)).1 ≠ st := hsec heh
  have hd (t : ParseState) : (∀ s ∈ sectionStates m secs.debugFrame false t,
      ¬ TurnedDownAt m secs.debugFrame false st s) ↔
        (parseSection m secs.debugFrame false t).1 ≠ st := hsec hdbg
  refine (and_congr he (forall₂_congr fun t _ => hd t)).trans ?_
  rw [cfiBuild]
  rcases hx : parseSection m secs.ehFrame true (.init heap) with ⟨st₁, t⟩
  cases st₁
  case ok =>
    have hok : Status.ok ≠ st := hst.ne_ok.symm
    dsimp only
    rcases hx' : parseSection m secs.debugFrame false t with ⟨st₂, t'⟩
    have hiff : (Status.ok ≠ st ∧ ∀ u, (Status.ok, t) = (Status.ok, u) →
        (parseSection m secs.debugFrame false u).1 ≠ st) ↔ st₂ ≠ st := by
      refine ⟨fun h => ?_, fun h => ⟨hok, ?_⟩⟩
      · have hne := h.2 t rfl
        rwa [hx'] at hne
      · rintro _ ⟨⟩
        rwa [hx']
    rw [hiff]
    cases st₂
    case ok =>
      dsimp only
      by_cases h0 : t'.fdes.records.length = 0
      · rw [if_pos h0]
        exact iff_of_true hok hnone.symm
      · rw [if_neg h0]
        rfl
    all_goals rfl
  all_goals
    refine and_iff_left ?_
    rintro _ ⟨⟩

end OneBuild

/-! ### The tables of two builds -/

variable {m₁ m₂ : ByteMem} {sec₁ sec₂ : Section} {isEh : Bool} {t₁ t₂ : ParseState}

/-- The numbers of a CIE record: everything but its host addresses. -/
def CieRecord.numbers (cie : CieRecord) : CieRecord :=
  { cie with augmentation := 0, instructions := 0 }

/-- The numbers of an FDE record: everything but its host address. -/
def FdeRecord.numbers (fde : FdeRecord) : FdeRecord := { fde with instructions := 0 }

/-- The numbers of a record, if it is an FDE. -/
def EntryRecord.fdeNumbers : EntryRecord → Option FdeRecord
  | .cie _ => none
  | .fde r => some r.numbers

/-- Two FDE records of a parent agree when its addresses are not relative to themselves, or the
section has not moved. -/
lemma FdeTwin.numbers_eq_iff {cie : CieRecord} {δ : UInt64} {fde₁ fde₂ : FdeRecord}
    (h : FdeTwin cie δ fde₁ fde₂) :
    fde₁.numbers = fde₂.numbers ↔ (cie.Pcrel → δ = 0) := by
  have hnum := h.numbers
  have hpc := h.pcBegin
  simp only [FdeRecord.mk.injEq] at hnum
  obtain ⟨h1, h2, -, h4, -, h6⟩ := hnum
  simp only [FdeRecord.numbers, FdeRecord.mk.injEq, h1, h2, h4, h6, true_and, and_true]
  rw [hpc]
  split_ifs with hp <;> simp only [hp, true_imp_iff, false_imp_iff, iff_true] <;> grind

/-- Two records of one kind; of a CIE, with the same numbers. -/
inductive RecordsTwin (m₁ m₂ : ByteMem) : EntryRecord → EntryRecord → Prop
  | cie {cie₁ cie₂ : CieRecord} (h : CieTwin m₁ m₂ cie₁ cie₂) :
      RecordsTwin m₁ m₂ (.cie cie₁) (.cie cie₂)
  | fde (fde₁ fde₂ : FdeRecord) : RecordsTwin m₁ m₂ (.fde fde₁) (.fde fde₂)

/-- The tables of two runs: the same blocks, CIEs that agree, and as many FDEs. -/
structure TablesTwin (m₁ m₂ : ByteMem) (t₁ t₂ : ParseState) : Prop where
  heap : t₁.heap = t₂.heap
  cies : CiesTwin m₁ m₂ t₁.cies t₂.cies
  data : t₁.fdes.data = t₂.fdes.data
  capacity : t₁.fdes.capacity = t₂.fdes.capacity
  length : t₁.fdes.records.length = t₂.fdes.records.length

/-- Two FDE tables of the same numbers. -/
def FdesAgree (t₁ t₂ : ParseState) : Prop :=
  t₁.fdes.records.map (·.numbers) = t₂.fdes.records.map (·.numbers)

lemma TablesTwin.note (h : TablesTwin m₁ m₂ t₁ t₂) (e₁ e₂ : EntryAccesses) :
    TablesTwin m₁ m₂ (t₁.noteEntry e₁) (t₂.noteEntry e₂) :=
  ⟨h.heap, h.cies, h.data, h.capacity, h.length⟩

/-- Appending to two vectors of one shape comes out alike. -/
lemma vectorAppend_twin {α : Type} (hp : Heap) {v₁ v₂ : RecordVector α} (r₁ r₂ : α)
    (hd : v₁.data = v₂.data) (hc : v₁.capacity = v₂.capacity)
    (hl : v₁.records.length = v₂.records.length) :
    (∃ hp', vectorAppend hp v₁ r₁ = (.io, v₁, hp') ∧ vectorAppend hp v₂ r₂ = (.io, v₂, hp')) ∨
    ∃ data cap hp', vectorAppend hp v₁ r₁ = (.ok, ⟨data, v₁.records ++ [r₁], cap⟩, hp') ∧
      vectorAppend hp v₂ r₂ = (.ok, ⟨data, v₂.records ++ [r₂], cap⟩, hp') := by
  obtain ⟨d₁, l₁, k₁⟩ := v₁
  obtain ⟨d₂, l₂, k₂⟩ := v₂
  dsimp only at hd hc hl
  subst hd hc
  unfold vectorAppend vectorReserve
  rw [← hl]
  by_cases hcap : l₁.length + 1 ≤ k₁
  · rw [if_pos hcap, if_pos hcap]
    exact .inr ⟨_, _, _, rfl, rfl⟩
  · rw [if_neg hcap, if_neg hcap]
    by_cases hg : hp.grants hp.calls
    · simp only [Heap.realloc, hg, if_true]
      exact .inr ⟨_, _, _, rfl, rfl⟩
    · simp only [Heap.realloc, hg]
      exact .inl ⟨_, rfl, rfl⟩

/-- What two runs make of one entry: a status, tables, and when the FDE tables agree. -/
structure StoredTwin (m₁ m₂ : ByteMem) (agree : Prop) (r₁ r₂ : Status × ParseState) : Prop where
  status : r₁.1 = r₂.1
  tables : TablesTwin m₁ m₂ r₁.2 r₂.2
  agree : r₁.1 = .ok → (FdesAgree r₁.2 r₂.2 ↔ agree)

/-- Storing the two records of one entry. -/
lemma TablesTwin.store (h : TablesTwin m₁ m₂ t₁ t₂) {rec₁ rec₂ : EntryRecord}
    (hrec : RecordsTwin m₁ m₂ rec₁ rec₂) :
    StoredTwin m₁ m₂ (FdesAgree t₁ t₂ ∧ rec₁.fdeNumbers = rec₂.fdeNumbers)
      (storeRecord t₁ rec₁) (storeRecord t₂ rec₂) := by
  cases hrec with
  | @cie cie₁ cie₂ hc =>
      rw [storeRecord, storeRecord, cieVectorAppend, cieVectorAppend, ← h.heap]
      rcases vectorAppend_twin t₁.heap cie₁ cie₂ h.cies.data h.cies.capacity
        h.cies.records.length_eq with ⟨hp, h₁, h₂⟩ | ⟨data, cap, hp, h₁, h₂⟩ <;> rw [h₁, h₂]
      · exact ⟨rfl, ⟨rfl, h.cies, h.data, h.capacity, h.length⟩, fun hok => by cases hok⟩
      · exact ⟨rfl, ⟨rfl, ⟨rfl, rfl, List.rel_append h.cies.records (.cons hc .nil)⟩, h.data,
          h.capacity, h.length⟩, fun _ => (and_iff_left rfl).symm⟩
  | fde fde₁ fde₂ =>
      rw [storeRecord, storeRecord, fdeVectorAppend, fdeVectorAppend, ← h.heap]
      rcases vectorAppend_twin t₁.heap fde₁ fde₂ h.data h.capacity h.length with
        ⟨hp, h₁, h₂⟩ | ⟨data, cap, hp, h₁, h₂⟩ <;> rw [h₁, h₂]
      · exact ⟨rfl, ⟨rfl, h.cies, h.data, h.capacity, h.length⟩, fun hok => by cases hok⟩
      · refine ⟨rfl, ⟨rfl, h.cies, rfl, rfl, ?_⟩, fun _ => ?_⟩
        · rw [List.length_append, List.length_append, h.length]
          rfl
        · rw [FdesAgree, FdesAgree, List.map_append, List.map_append, EntryRecord.fdeNumbers,
            EntryRecord.fdeNumbers, Option.some.injEq]
          constructor
          · intro heq
            obtain ⟨hall, hone⟩ := List.append_inj' heq rfl
            exact ⟨hall, List.singleton_inj.mp hone⟩
          · rintro ⟨hall, hone⟩
            rw [hall, List.map_singleton, hone]
            rfl

/-! ### Two parsers at one entry -/

/-- The status with which the entry at the cursor is decoded. -/
def entryStatus (m : ByteMem) (sec : Section) (isEh : Bool) (s : SectionState) : Status :=
  match (parseEntry sec isEh s.tables.cies s.ptr).val m with
  | .ok _ => .ok
  | .error st => st

/-- The numbers that the entry at the cursor is decoded to, if it is an FDE. -/
def entryNumbers (m : ByteMem) (sec : Section) (isEh : Bool) (s : SectionState) :
    Option FdeRecord :=
  match (parseEntry sec isEh s.tables.cies s.ptr).val m with
  | .ok (some r) => r.1.fdeNumbers
  | _ => none

/-- Two parsers go on in step from an entry: the augmentation length there wraps at both places or
at none, and an entry that is read behind the section has one status. -/
structure StaysInStep (m₁ m₂ : ByteMem) (sec₁ sec₂ : Section) (isEh : Bool)
    (s₁ s₂ : SectionState) : Prop where
  wraps : (headAt m₁ s₁.ptr).Wraps m₁ sec₁ isEh s₁.tables.cies ↔
    (headAt m₂ s₂.ptr).Wraps m₂ sec₂ isEh s₂.tables.cies
  short : (headAt m₁ s₁.ptr).ShortAtEnd sec₁ →
    entryStatus m₁ sec₁ isEh s₁ = entryStatus m₂ sec₂ isEh s₂

instance (m₁ m₂ : ByteMem) (sec₁ sec₂ : Section) (isEh : Bool) (s₁ s₂ : SectionState) :
    Decidable (StaysInStep m₁ m₂ sec₁ sec₂ isEh s₁ s₂) :=
  decidable_of_iff (_ ∧ _) ⟨fun h => ⟨h.1, h.2⟩, fun h => ⟨h.wraps, h.short⟩⟩

/-- Two parsers get the same addresses from an entry: its section has not moved if they are
relative to themselves, and what is read behind the section is the same. -/
structure SameAddresses (m₁ m₂ : ByteMem) (sec₁ sec₂ : Section) (isEh : Bool)
    (s₁ s₂ : SectionState) : Prop where
  pcrel : (headAt m₁ s₁.ptr).FitsIn sec₁ → ¬ (headAt m₁ s₁.ptr).ShortAtEnd sec₁ →
    (headAt m₁ s₁.ptr).isCie isEh = false →
      ∀ r ∈ findCie s₁.tables.cies (fdeCieOffset sec₁ (headAt m₁ s₁.ptr).id (s₁.ptr + 4 + 4) isEh),
        r.2.Pcrel → sec₁.data = sec₂.data
  short : (headAt m₁ s₁.ptr).ShortAtEnd sec₁ →
    entryNumbers m₁ sec₁ isEh s₁ = entryNumbers m₂ sec₂ isEh s₂

instance (m₁ m₂ : ByteMem) (sec₁ sec₂ : Section) (isEh : Bool) (s₁ s₂ : SectionState) :
    Decidable (SameAddresses m₁ m₂ sec₁ sec₂ isEh s₁ s₂) :=
  decidable_of_iff (_ ∧ _) ⟨fun h => ⟨h.1, h.2⟩, fun h => ⟨h.pcrel, h.short⟩⟩

/-- Two parsers at one entry of their section, with tables that agree so far. -/
structure StatesTwin (m₁ m₂ : ByteMem) (sec₁ sec₂ : Section) (s₁ s₂ : SectionState) : Prop where
  ptr : Twin m₁ m₂ s₁.ptr sec₁.stop s₂.ptr sec₂.stop
  tables : TablesTwin m₁ m₂ s₁.tables s₂.tables

/-- What two parsers in step decode an entry to; the records have the same addresses when
`same`. -/
inductive EntriesTwin (m₁ m₂ : ByteMem) (sec₁ sec₂ : Section) (same : Prop) :
    Option (EntryRecord × UInt64) → Option (EntryRecord × UInt64) → Prop
  | terminator (h : same) : EntriesTwin m₁ m₂ sec₁ sec₂ same none none
  | entry {rec₁ rec₂ : EntryRecord} {q₁ q₂ : UInt64} (hrec : RecordsTwin m₁ m₂ rec₁ rec₂)
      (hq : Twin m₁ m₂ q₁ sec₁.stop q₂ sec₂.stop)
      (hsame : rec₁.fdeNumbers = rec₂.fdeNumbers ↔ same) :
      EntriesTwin m₁ m₂ sec₁ sec₂ same (some (rec₁, q₁)) (some (rec₂, q₂))

variable {s₁ s₂ : SectionState}

/-- An entry that is read inside its section. -/
lemma parseEntry_inside (hs : SameBytes m₁ m₂ sec₁ sec₂) (h : StatesTwin m₁ m₂ sec₁ sec₂ s₁ s₂)
    (hp : s₁.ptr.toNat + 4 ≤ sec₁.stop.toNat) (hend : ¬ (headAt m₁ s₁.ptr).ShortAtEnd sec₁)
    (hstay : StaysInStep m₁ m₂ sec₁ sec₂ isEh s₁ s₂) :
    Sim m₁ m₂ (EntriesTwin m₁ m₂ sec₁ sec₂ (SameAddresses m₁ m₂ sec₁ sec₂ isEh s₁ s₂))
      (parseEntry sec₁ isEh s₁.tables.cies s₁.ptr)
      (parseEntry sec₂ isEh s₂.tables.cies s₂.ptr) := by
  have hmoved : sec₁.data - sec₂.data = 0 ↔ sec₁.data = sec₂.data := by grind
  cases parseEntry_sim hs h.tables.cies h.ptr hp hend hstay.wraps with
  | error h₁ h₂ => exact .error h₁ h₂
  | ok h₁ h₂ hr =>
      refine .ok h₁ h₂ ?_
      cases hr with
      | terminator =>
          have h0 := parseEntry_eq_none h₁
          exact .terminator ⟨fun hfits => absurd h0 hfits.1, fun hshort => absurd hshort hend⟩
      | cie hc hq =>
          obtain ⟨-, -, -, hd⟩ := parseEntry_eq_some.mp h₁
          cases hd with
          | cie hid _ =>
              refine .entry (.cie hc) hq (iff_of_true rfl ⟨fun _ _ hfde => ?_, fun hshort =>
                absurd hshort hend⟩)
              rw [hid] at hfde
              cases hfde
      | @fde fde₁ fde₂ q₁ q₂ hf hq =>
          obtain ⟨h0, hstop, -, hd⟩ := parseEntry_eq_some.mp h₁
          obtain ⟨cie, hcie, hf⟩ := hf
          cases hd with
          | fde hid hparse =>
              obtain ⟨-, cie', hfind⟩ := parseFde_link hparse
              rw [headAt_start] at hfind
              obtain rfl : cie = cie' := by
                have hcie' := (findCie_eq_some.mp hfind).2.1
                rw [hcie', Option.mem_some_iff] at hcie
                exact hcie.symm
              refine .entry (.fde _ _) hq ?_
              rw [EntryRecord.fdeNumbers, EntryRecord.fdeNumbers, Option.some.injEq,
                hf.numbers_eq_iff, hmoved]
              constructor
              · refine fun hpcrel => ⟨fun _ _ _ r hr => ?_, fun hshort => absurd hshort hend⟩
                rw [hfind, Option.mem_some_iff] at hr
                subst hr
                exact hpcrel
              · exact fun hsame => hsame.pcrel ⟨h0, hstop⟩ hend hid _ hfind

/-- A short entry that is read behind its section. -/
lemma parseEntry_behind (hs : SameBytes m₁ m₂ sec₁ sec₂) (h : StatesTwin m₁ m₂ sec₁ sec₂ s₁ s₂)
    (hp : s₁.ptr.toNat + 4 ≤ sec₁.stop.toNat) (hend : (headAt m₁ s₁.ptr).ShortAtEnd sec₁)
    (hstay : StaysInStep m₁ m₂ sec₁ sec₂ isEh s₁ s₂) :
    Sim m₁ m₂ (EntriesTwin m₁ m₂ sec₁ sec₂ (SameAddresses m₁ m₂ sec₁ sec₂ isEh s₁ s₂))
      (parseEntry sec₁ isEh s₁.tables.cies s₁.ptr)
      (parseEntry sec₂ isEh s₂.tables.cies s₂.ptr) := by
  have hh := headsTwin hs h.ptr hp
  have hleft := h.ptr.left_eq
  have hp₂ : s₂.ptr.toNat + 4 ≤ sec₂.stop.toNat := by omega
  have hshort₂ : (headAt m₂ s₂.ptr).Short sec₂ := by
    refine ⟨hh.fits_iff.mp hend.1.1, ?_⟩
    rw [hh.length_eq]
    exact hend.1.2
  have hst := hstay.short hend
  rw [entryStatus, entryStatus] at hst
  cases hx₁ : (parseEntry sec₁ isEh s₁.tables.cies s₁.ptr).val m₁ with
  | error st₁ =>
      cases hx₂ : (parseEntry sec₂ isEh s₂.tables.cies s₂.ptr).val m₂ with
      | error st₂ =>
          rw [hx₁, hx₂] at hst
          obtain rfl : st₁ = st₂ := hst
          exact .error hx₁ hx₂
      | ok r₂ =>
          rw [hx₁, hx₂] at hst
          exact absurd hst (parseEntry_errors _ hx₁).ne_ok
  | ok r₁ =>
      cases hx₂ : (parseEntry sec₂ isEh s₂.tables.cies s₂.ptr).val m₂ with
      | error st₂ =>
          rw [hx₁, hx₂] at hst
          exact absurd hst.symm (parseEntry_errors _ hx₂).ne_ok
      | ok r₂ =>
          obtain ⟨fde₁, rfl⟩ := parseEntry_short_ok hs.mapped₁ hp hend.1 hx₁
          obtain ⟨fde₂, rfl⟩ := parseEntry_short_ok hs.mapped₂ hp₂ hshort₂ hx₂
          refine .ok hx₁ hx₂ (.entry (.fde _ _) (hh.next h.ptr hend.1.1) ?_)
          have hnum : entryNumbers m₁ sec₁ isEh s₁ = entryNumbers m₂ sec₂ isEh s₂ ↔
              (EntryRecord.fde fde₁).fdeNumbers = (EntryRecord.fde fde₂).fdeNumbers := by
            rw [entryNumbers, entryNumbers, hx₁, hx₂]
          rw [← hnum]
          exact ⟨fun heq => ⟨fun _ hnot => absurd hend hnot, fun _ => heq⟩, fun h => h.short hend⟩

/-- Two parsers in step come to the end of their sections together. -/
lemma StatesTwin.atLength_iff (hs : SameBytes m₁ m₂ sec₁ sec₂)
    (h : StatesTwin m₁ m₂ sec₁ sec₂ s₁ s₂) :
    s₁.ptr + 4 ≤ sec₁.stop ↔ s₂.ptr + 4 ≤ sec₂.stop := by
  have hle₁ := hs.mapped₁.stop_le
  have hle₂ := hs.mapped₂.stop_le
  have hptr₁ := h.ptr.le₁
  have hptr₂ := h.ptr.le₂
  rw [UInt64.le_iff_toNat_le] at hptr₁ hptr₂
  rw [← UInt64.not_lt, ← UInt64.not_lt]
  exact not_congr (h.ptr.lt_add_iff (by simp; omega) (by simp; omega))

lemma StatesTwin.room (hs : SameBytes m₁ m₂ sec₁ sec₂) (h : StatesTwin m₁ m₂ sec₁ sec₂ s₁ s₂)
    (hp : s₁.ptr + 4 ≤ sec₁.stop) : s₁.ptr.toNat + 4 ≤ sec₁.stop.toNat := by
  have hle₁ := hs.mapped₁.stop_le
  have hptr₁ := h.ptr.le₁
  rw [UInt64.le_iff_toNat_le] at hptr₁ hp
  rwa [UInt64.toNat_add_of_lt (by simp; omega)] at hp

/-- One turn of two parsers in step. -/
theorem sectionTurn_in_step (hs : SameBytes m₁ m₂ sec₁ sec₂) (h : StatesTwin m₁ m₂ sec₁ sec₂ s₁ s₂)
    (hstay : s₁.ptr + 4 ≤ sec₁.stop → StaysInStep m₁ m₂ sec₁ sec₂ isEh s₁ s₂) :
    Turn.Rel
      (fun u₁ u₂ => StatesTwin m₁ m₂ sec₁ sec₂ u₁ u₂ ∧ (FdesAgree u₁.tables u₂.tables ↔
        FdesAgree s₁.tables s₂.tables ∧
          (s₁.ptr + 4 ≤ sec₁.stop → SameAddresses m₁ m₂ sec₁ sec₂ isEh s₁ s₂)))
      (fun r₁ r₂ => (r₁.1 = r₂.1 ∧ TablesTwin m₁ m₂ r₁.2 r₂.2) ∧ (r₁.1 = .ok →
        (FdesAgree r₁.2 r₂.2 ↔ FdesAgree s₁.tables s₂.tables ∧
          (s₁.ptr + 4 ≤ sec₁.stop → SameAddresses m₁ m₂ sec₁ sec₂ isEh s₁ s₂))))
      (sectionTurn m₁ sec₁ isEh s₁) (sectionTurn m₂ sec₂ isEh s₂) := by
  rw [sectionTurn, sectionTurn]
  by_cases hp : s₁.ptr + 4 ≤ sec₁.stop
  swap
  · rw [if_neg hp, if_neg fun hp₂ => hp ((h.atLength_iff hs).mpr hp₂)]
    exact .done ⟨⟨rfl, h.tables⟩, fun _ => (and_iff_left fun hp' => absurd hp' hp).symm⟩
  rw [if_pos hp, if_pos ((h.atLength_iff hs).mp hp)]
  simp only [hp, true_imp_iff]
  have hpn := h.room hs hp
  have hsim : Sim m₁ m₂
      (EntriesTwin m₁ m₂ sec₁ sec₂ (SameAddresses m₁ m₂ sec₁ sec₂ isEh s₁ s₂))
      (parseEntry sec₁ isEh s₁.tables.cies s₁.ptr)
      (parseEntry sec₂ isEh s₂.tables.cies s₂.ptr) := by
    by_cases hend : (headAt m₁ s₁.ptr).ShortAtEnd sec₁
    · exact parseEntry_behind hs h hpn hend (hstay hp)
    · exact parseEntry_inside hs h hpn hend (hstay hp)
  cases hsim with
  | @error st h₁ h₂ =>
      rw [h₁, h₂]
      exact .done ⟨⟨rfl, h.tables.note _ _⟩, fun hok => absurd hok (parseEntry_errors _ h₁).ne_ok⟩
  | ok h₁ h₂ hr =>
      rw [h₁, h₂]
      cases hr with
      | terminator hsame =>
          exact .done ⟨⟨rfl, h.tables.note _ _⟩, fun _ => (and_iff_left hsame).symm⟩
      | @entry rec₁ rec₂ q₁ q₂ hrec hq hsame =>
          have hstore := (h.tables.note (entryNote m₁ sec₁ isEh s₁)
            (entryNote m₂ sec₂ isEh s₂)).store hrec
          rw [hsame, entryNote, entryNote] at hstore
          dsimp only
          generalize storeRecord (s₁.tables.noteEntry _) rec₁ = x₁ at hstore
          generalize storeRecord (s₂.tables.noteEntry _) rec₂ = x₂ at hstore
          obtain ⟨st, t₁⟩ := x₁
          obtain ⟨st₂, t₂⟩ := x₂
          obtain ⟨hst, htab, hagree⟩ := hstore
          obtain rfl : st = st₂ := hst
          cases st
          case ok => exact .next ⟨⟨hq, htab⟩, hagree rfl⟩
          all_goals exact .done ⟨⟨rfl, htab⟩, fun hok => by cases hok⟩

/-- An entry from which two parsers in step do not go on in step is turned down by one of them. -/
lemma turnedDownAt_of_split (hs : SameBytes m₁ m₂ sec₁ sec₂)
    (h : StatesTwin m₁ m₂ sec₁ sec₂ s₁ s₂) (hp : s₁.ptr + 4 ≤ sec₁.stop)
    (hstay : ¬ StaysInStep m₁ m₂ sec₁ sec₂ isEh s₁ s₂) :
    ∃ st, ParseError st ∧
      (TurnedDownAt m₁ sec₁ isEh st s₁ ∨ TurnedDownAt m₂ sec₂ isEh st s₂) := by
  have hp₂ := (h.atLength_iff hs).mp hp
  by_cases hwraps : (headAt m₁ s₁.ptr).Wraps m₁ sec₁ isEh s₁.tables.cies ↔
    (headAt m₂ s₂.ptr).Wraps m₂ sec₂ isEh s₂.tables.cies
  swap
  · refine ⟨.badFormat, .inl rfl, ?_⟩
    exact (parseEntry_split hs h.tables.cies h.ptr (h.room hs hp) hwraps).imp (⟨hp, ·⟩) (⟨hp₂, ·⟩)
  have hst : entryStatus m₁ sec₁ isEh s₁ ≠ entryStatus m₂ sec₂ isEh s₂ :=
    fun heq => hstay ⟨hwraps, fun _ => heq⟩
  rw [entryStatus, entryStatus] at hst
  cases hx₁ : (parseEntry sec₁ isEh s₁.tables.cies s₁.ptr).val m₁ with
  | error st => exact ⟨st, parseEntry_errors _ hx₁, .inl ⟨hp, hx₁⟩⟩
  | ok r₁ =>
      cases hx₂ : (parseEntry sec₂ isEh s₂.tables.cies s₂.ptr).val m₂ with
      | error st => exact ⟨st, parseEntry_errors _ hx₂, .inr ⟨hp₂, hx₂⟩⟩
      | ok r₂ =>
          rw [hx₁, hx₂] at hst
          exact absurd rfl hst

/-! ### Two sections -/

lemma SameBytes.empty_iff (hs : SameBytes m₁ m₂ sec₁ sec₂) :
    sec₁.data = 0 ∨ sec₁.size = 0 ↔ sec₂.data = 0 ∨ sec₂.size = 0 := by
  rw [hs.null_iff, hs.size_eq]

lemma statesTwin_start (hs : SameBytes m₁ m₂ sec₁ sec₂) (ht : TablesTwin m₁ m₂ t₁ t₂) :
    StatesTwin m₁ m₂ sec₁ sec₂ ⟨sec₁.data, t₁⟩ ⟨sec₂.data, t₂⟩ := ⟨hs.bytes, ht⟩

/-- The two states at an entry of a section, and what the parsers do from there. -/
def SectionStays (m₁ m₂ : ByteMem) (sec₁ sec₂ : Section) (isEh : Bool) (t₁ t₂ : ParseState) :
    Prop :=
  ∀ p ∈ (sectionStates m₁ sec₁ isEh t₁).zip (sectionStates m₂ sec₂ isEh t₂),
    p.1.ptr + 4 ≤ sec₁.stop → StaysInStep m₁ m₂ sec₁ sec₂ isEh p.1 p.2

/-- The two states at an entry of a section, and the addresses that the parsers get there. -/
def SectionAddresses (m₁ m₂ : ByteMem) (sec₁ sec₂ : Section) (isEh : Bool)
    (t₁ t₂ : ParseState) : Prop :=
  ∀ p ∈ (sectionStates m₁ sec₁ isEh t₁).zip (sectionStates m₂ sec₂ isEh t₂),
    p.1.ptr + 4 ≤ sec₁.stop → SameAddresses m₁ m₂ sec₁ sec₂ isEh p.1 p.2

/-- Two sections that are parsed in step. -/
theorem parseSection_in_step (hs : SameBytes m₁ m₂ sec₁ sec₂) (ht : TablesTwin m₁ m₂ t₁ t₂)
    (hall : SectionStays m₁ m₂ sec₁ sec₂ isEh t₁ t₂) :
    (sectionStates m₁ sec₁ isEh t₁).length = (sectionStates m₂ sec₂ isEh t₂).length ∧
      StoredTwin m₁ m₂
        (FdesAgree t₁ t₂ ∧ SectionAddresses m₁ m₂ sec₁ sec₂ isEh t₁ t₂)
        (parseSection m₁ sec₁ isEh t₁) (parseSection m₂ sec₂ isEh t₂) := by
  rw [SectionStays] at hall
  rw [SectionAddresses]
  rw [sectionStates, sectionStates] at hall ⊢
  rw [parseSection, parseSection]
  by_cases h0 : sec₁.data = 0 ∨ sec₁.size = 0
  · rw [if_pos h0, if_pos (hs.empty_iff.mp h0), if_pos h0, if_pos (hs.empty_iff.mp h0)]
    exact ⟨rfl, rfl, ht, fun _ => (and_iff_left fun p hp => absurd hp List.not_mem_nil).symm⟩
  have h0₂ := fun h => h0 (hs.empty_iff.mpr h)
  rw [if_neg h0, if_neg h0₂] at hall ⊢
  rw [if_neg h0, if_neg h0₂]
  obtain ⟨r₁, hr₁⟩ := run_sectionTurn hs.mapped₁ m₁ isEh t₁
  obtain ⟨r₂, hr₂⟩ := run_sectionTurn hs.mapped₂ m₂ isEh t₂
  rw [hs.size_eq] at hall hr₁ ⊢
  obtain ⟨hlen, hrel⟩ := run_in_step
    (G := fun s₁ s₂ => s₁.ptr + 4 ≤ sec₁.stop → StaysInStep m₁ m₂ sec₁ sec₂ isEh s₁ s₂)
    (R := StatesTwin m₁ m₂ sec₁ sec₂) (A := fun s₁ s₂ => FdesAgree s₁.tables s₂.tables)
    (L := fun s₁ s₂ => s₁.ptr + 4 ≤ sec₁.stop → SameAddresses m₁ m₂ sec₁ sec₂ isEh s₁ s₂)
    (Q := fun r₁ r₂ => r₁.1 = r₂.1 ∧ TablesTwin m₁ m₂ r₁.2 r₂.2)
    (B := fun r₁ r₂ => FdesAgree r₁.2 r₂.2) (K := fun r => r.1 = .ok)
    (fun _ _ hstep => sectionTurn_in_step hs hstep) (statesTwin_start hs ht) hall
  refine ⟨hlen, ?_⟩
  rw [hr₁, hr₂] at hrel ⊢
  cases hrel with
  | some h => exact ⟨h.1.1, h.1.2, h.2⟩

/-- Two sections that are not parsed in step: one of them is turned down. -/
theorem parseSection_split (hs : SameBytes m₁ m₂ sec₁ sec₂) (ht : TablesTwin m₁ m₂ t₁ t₂)
    (hnot : ¬ SectionStays m₁ m₂ sec₁ sec₂ isEh t₁ t₂) :
    ∃ st, ParseError st ∧
      ((parseSection m₁ sec₁ isEh t₁).1 = st ∨ (parseSection m₂ sec₂ isEh t₂).1 = st) := by
  rw [SectionStays] at hnot
  obtain ⟨s₁, hs₁, s₂, hs₂, h, hp, hstay⟩ : ∃ s₁ ∈ sectionStates m₁ sec₁ isEh t₁,
      ∃ s₂ ∈ sectionStates m₂ sec₂ isEh t₂, StatesTwin m₁ m₂ sec₁ sec₂ s₁ s₂ ∧
        s₁.ptr + 4 ≤ sec₁.stop ∧ ¬ StaysInStep m₁ m₂ sec₁ sec₂ isEh s₁ s₂ := by
    rw [sectionStates, sectionStates] at hnot ⊢
    by_cases h0 : sec₁.data = 0 ∨ sec₁.size = 0
    · rw [if_pos h0] at hnot
      exact absurd (fun p hp => absurd hp List.not_mem_nil) hnot
    have h0₂ := fun h => h0 (hs.empty_iff.mpr h)
    rw [if_neg h0, if_neg h0₂] at hnot ⊢
    rw [hs.size_eq] at hnot ⊢
    obtain ⟨s₁, hs₁, s₂, hs₂, h, hsplit⟩ := exists_split
      (G := fun s₁ s₂ => s₁.ptr + 4 ≤ sec₁.stop → StaysInStep m₁ m₂ sec₁ sec₂ isEh s₁ s₂)
      (R := StatesTwin m₁ m₂ sec₁ sec₂) (Q := fun r₁ r₂ => r₁.1 = r₂.1)
      (fun u₁ u₂ hstep hstay => (sectionTurn_in_step hs hstep hstay).mono
        (fun _ _ h => h.1) fun _ _ h => h.1.1) (statesTwin_start hs ht) hnot
    rw [Classical.not_imp] at hsplit
    exact ⟨s₁, hs₁, s₂, hs₂, h, hsplit⟩
  obtain ⟨st, hst, hdown⟩ := turnedDownAt_of_split hs h hp hstay
  refine ⟨st, hst, ?_⟩
  rw [parseSection_error_iff hs.mapped₁ hst, parseSection_error_iff hs.mapped₂ hst]
  exact hdown.imp (⟨s₁, hs₁, ·⟩) (⟨s₂, hs₂, ·⟩)

/-! ### Two builds -/

/-- The sections of one image, the same bytes at two places. -/
structure SameImage (m₁ m₂ : ByteMem) (secs₁ secs₂ : Sections) : Prop where
  eh : SameBytes m₁ m₂ secs₁.ehFrame secs₂.ehFrame
  debug : SameBytes m₁ m₂ secs₁.debugFrame secs₂.debugFrame

/-- Two builds come out alike: with one status and, when they are accepted, with tables of
the same numbers, in which every lookup finds the same place. -/
structure ComeOutAlike (b₁ b₂ : BuildResult) : Prop where
  status : b₁.status = b₂.status
  cies : b₁.status = .ok →
    b₁.cies.records.map (·.numbers) = b₂.cies.records.map (·.numbers)
  fdes : b₁.status = .ok →
    b₁.fdes.records.map (·.numbers) = b₂.fdes.records.map (·.numbers)
  find : b₁.status = .ok →
    ∀ pc, cfiFindFde b₁.fdes.records pc = cfiFindFde b₂.fdes.records pc

/-- The states of two builds, side by side. -/
def stepPairs (m₁ m₂ : ByteMem) (heap : Heap) (secs₁ secs₂ : Sections) :
    List (BuildState × BuildState) :=
  (buildStates m₁ heap secs₁).zip (buildStates m₂ heap secs₂)

/-- Two builds go on in step from an entry. -/
def StaysAt (m₁ m₂ : ByteMem) (secs₁ secs₂ : Sections) (p : BuildState × BuildState) : Prop :=
  p.1.AtLength secs₁ → StaysInStep m₁ m₂ (p.1.frame secs₁) (p.1.frame secs₂) p.1.isEh p.1.state
    p.2.state

instance (m₁ m₂ : ByteMem) (secs₁ secs₂ : Sections) (p : BuildState × BuildState) :
    Decidable (StaysAt m₁ m₂ secs₁ secs₂ p) := inferInstanceAs (Decidable (_ → _))

/-- Two builds get the same addresses from an entry. -/
def AgreesAt (m₁ m₂ : ByteMem) (secs₁ secs₂ : Sections) (p : BuildState × BuildState) : Prop :=
  p.1.AtLength secs₁ → SameAddresses m₁ m₂ (p.1.frame secs₁) (p.1.frame secs₂) p.1.isEh
    p.1.state p.2.state

instance (m₁ m₂ : ByteMem) (secs₁ secs₂ : Sections) (p : BuildState × BuildState) :
    Decidable (AgreesAt m₁ m₂ secs₁ secs₂ p) := inferInstanceAs (Decidable (_ → _))

variable {secs₁ secs₂ : Sections} {heap : Heap}

lemma mem_zip_append {α β : Type} {as as' : List α} {bs bs' : List β} {p : α × β}
    (h : p ∈ as.zip bs) : p ∈ (as ++ as').zip (bs ++ bs') := by
  induction as generalizing bs with
  | nil => exact absurd h List.not_mem_nil
  | cons a as ih =>
      cases bs with
      | nil => exact absurd h (by simp)
      | cons b bs =>
          rw [List.zip_cons_cons] at h
          rw [List.cons_append, List.cons_append, List.zip_cons_cons]
          rcases List.mem_cons.mp h with rfl | h
          · exact List.mem_cons_self
          · exact List.mem_cons_of_mem _ (ih h)

/-- Two states in `.eh_frame`, side by side. -/
lemma mem_stepPairs {p : SectionState × SectionState}
    (h : p ∈ (sectionStates m₁ secs₁.ehFrame true (.init heap)).zip
      (sectionStates m₂ secs₂.ehFrame true (.init heap))) :
    (⟨true, p.1⟩, ⟨true, p.2⟩) ∈ stepPairs m₁ m₂ heap secs₁ secs₂ := by
  refine mem_zip_append ?_
  rw [List.zip_map]
  exact List.mem_map_of_mem (f := Prod.map (BuildState.mk true) (BuildState.mk true)) h

/-- The states of two builds whose `.eh_frame`s are parsed in step. -/
lemma forall_mem_stepPairs_iff {P : BuildState × BuildState → Prop} {u₁ u₂ : ParseState}
    {st : Status} (he₁ : parseSection m₁ secs₁.ehFrame true (.init heap) = (st, u₁))
    (he₂ : parseSection m₂ secs₂.ehFrame true (.init heap) = (st, u₂))
    (hlen : (sectionStates m₁ secs₁.ehFrame true (.init heap)).length =
      (sectionStates m₂ secs₂.ehFrame true (.init heap)).length) :
    (∀ p ∈ stepPairs m₁ m₂ heap secs₁ secs₂, P p) ↔
      (∀ p ∈ (sectionStates m₁ secs₁.ehFrame true (.init heap)).zip
        (sectionStates m₂ secs₂.ehFrame true (.init heap)), P (⟨true, p.1⟩, ⟨true, p.2⟩)) ∧
      (st = .ok → ∀ p ∈ (sectionStates m₁ secs₁.debugFrame false u₁).zip
        (sectionStates m₂ secs₂.debugFrame false u₂), P (⟨false, p.1⟩, ⟨false, p.2⟩)) := by
  rw [stepPairs, buildStates, buildStates, he₁, he₂, List.zip_append (by simpa using hlen),
    List.forall_mem_append, List.zip_map, List.forall_mem_map]
  refine and_congr_right fun _ => ?_
  cases st
  case ok =>
    dsimp only
    rw [List.zip_map, List.forall_mem_map]
    exact ⟨fun h _ => h, fun h => h rfl⟩
  all_goals exact iff_of_true (fun _ h => absurd h List.not_mem_nil) fun hok => by cases hok

lemma CiesTwin.map_numbers {cies₁ cies₂ : CieVector} (h : CiesTwin m₁ m₂ cies₁ cies₂) :
    cies₁.records.map (·.numbers) = cies₂.records.map (·.numbers) := by
  have hrecords := h.records
  generalize cies₁.records = l₁, cies₂.records = l₂ at hrecords
  induction hrecords with
  | nil => rfl
  | cons hc _ ih =>
      rw [List.map_cons, List.map_cons, ih]
      exact congrArg (· :: _) hc.numbers

/-- Lookups by address depend on the numbers only. -/
lemma cfiFindFde_of_numbers {fdes₁ fdes₂ : List FdeRecord}
    (h : fdes₁.map (·.numbers) = fdes₂.map (·.numbers)) (pc : UInt64) :
    cfiFindFde fdes₁ pc = cfiFindFde fdes₂ pc := by
  have hnum (fdes : List FdeRecord) :
      cfiFindFde (fdes.map (·.numbers)) pc = cfiFindFde fdes pc := by
    rw [cfiFindFde, cfiFindFde, List.findIdx?_map]
    rfl
  rw [← hnum, h, hnum]

lemma tablesTwin_init (heap : Heap) : TablesTwin m₁ m₂ (.init heap) (.init heap) :=
  ⟨rfl, ⟨rfl, rfl, .nil⟩, rfl, rfl, rfl⟩

/-- Two builds that stay in step come out with one status, and with FDEs of the same numbers
exactly when they get the same addresses from every entry. -/
theorem cfiBuild_in_step (hs : SameImage m₁ m₂ secs₁ secs₂)
    (hall : ∀ p ∈ stepPairs m₁ m₂ heap secs₁ secs₂, StaysAt m₁ m₂ secs₁ secs₂ p) :
    (cfiBuild m₁ heap secs₁).status = (cfiBuild m₂ heap secs₂).status ∧
      ((cfiBuild m₁ heap secs₁).status = .ok →
        (cfiBuild m₁ heap secs₁).cies.records.map (·.numbers) =
            (cfiBuild m₂ heap secs₂).cies.records.map (·.numbers) ∧
        ((cfiBuild m₁ heap secs₁).fdes.records.map (·.numbers) =
            (cfiBuild m₂ heap secs₂).fdes.records.map (·.numbers) ↔
          ∀ p ∈ stepPairs m₁ m₂ heap secs₁ secs₂, AgreesAt m₁ m₂ secs₁ secs₂ p)) := by
  obtain ⟨hlen, heh⟩ := parseSection_in_step hs.eh (tablesTwin_init heap)
    fun p hp => hall _ (mem_stepPairs hp)
  rcases he₁ : parseSection m₁ secs₁.ehFrame true (.init heap) with ⟨st, u₁⟩
  rcases he₂ : parseSection m₂ secs₂.ehFrame true (.init heap) with ⟨st₂, u₂⟩
  rw [he₁, he₂] at heh
  obtain ⟨hst, hu, hagree⟩ := heh
  obtain rfl : st = st₂ := hst
  rw [forall_mem_stepPairs_iff he₁ he₂ hlen] at hall ⊢
  rw [cfiBuild, cfiBuild, he₁, he₂]
  cases st
  case ok =>
    obtain ⟨-, hdbg⟩ := parseSection_in_step hs.debug hu fun p hp => hall.2 rfl p hp
    dsimp only
    generalize parseSection m₁ secs₁.debugFrame false u₁ = x₁ at hdbg ⊢
    generalize parseSection m₂ secs₂.debugFrame false u₂ = x₂ at hdbg ⊢
    obtain ⟨st, v₁⟩ := x₁
    obtain ⟨st₂, v₂⟩ := x₂
    obtain ⟨hst, hv, hagree'⟩ := hdbg
    obtain rfl : st = st₂ := hst
    cases st
    case ok =>
      dsimp only at hv hagree hagree' ⊢
      have hlen : v₁.fdes.records.length = v₂.fdes.records.length := hv.length
      rw [← hlen]
      by_cases h0 : v₁.fdes.records.length = 0
      · rw [if_pos h0, if_pos h0]
        exact ⟨rfl, fun hok => by cases hok⟩
      · rw [if_neg h0, if_neg h0]
        refine ⟨rfl, fun _ => ⟨hv.cies.map_numbers, (hagree' rfl).trans ?_⟩⟩
        rw [hagree rfl]
        have hinit : FdesAgree (.init heap) (.init heap) := rfl
        simp only [hinit, true_and, true_imp_iff]
        rfl
    all_goals exact ⟨rfl, fun hok => by cases hok⟩
  all_goals exact ⟨rfl, fun hok => by cases hok⟩

lemma cfiBuild_status_of_eh {m : ByteMem} {secs : Sections} {st : Status} (hst : ParseError st)
    (h : (parseSection m secs.ehFrame true (.init heap)).1 = st) :
    (cfiBuild m heap secs).status = st := by
  rw [cfiBuild]
  generalize parseSection m secs.ehFrame true (.init heap) = x at h
  obtain ⟨st', t⟩ := x
  obtain rfl : st' = st := h
  rcases hst with rfl | rfl <;> rfl

lemma cfiBuild_status_of_debug {m : ByteMem} {secs : Sections} {st : Status} {t : ParseState}
    (hst : ParseError st) (he : parseSection m secs.ehFrame true (.init heap) = (.ok, t))
    (h : (parseSection m secs.debugFrame false t).1 = st) :
    (cfiBuild m heap secs).status = st := by
  rw [cfiBuild, he]
  dsimp only
  generalize parseSection m secs.debugFrame false t = x at h
  obtain ⟨st', t'⟩ := x
  obtain rfl : st' = st := h
  rcases hst with rfl | rfl <;> rfl

/-- Of two builds that do not stay in step one turns an entry down. -/
theorem cfiBuild_split (hs : SameImage m₁ m₂ secs₁ secs₂)
    (hnot : ¬ ∀ p ∈ stepPairs m₁ m₂ heap secs₁ secs₂, StaysAt m₁ m₂ secs₁ secs₂ p) :
    ∃ st, ParseError st ∧
      ((cfiBuild m₁ heap secs₁).status = st ∨ (cfiBuild m₂ heap secs₂).status = st) := by
  by_cases heh : SectionStays m₁ m₂ secs₁.ehFrame secs₂.ehFrame true (.init heap) (.init heap)
  swap
  · obtain ⟨st, hst, h⟩ := parseSection_split hs.eh (tablesTwin_init heap) heh
    exact ⟨st, hst, h.imp (cfiBuild_status_of_eh hst) (cfiBuild_status_of_eh hst)⟩
  obtain ⟨hlen, htwin⟩ := parseSection_in_step hs.eh (tablesTwin_init heap) heh
  rcases he₁ : parseSection m₁ secs₁.ehFrame true (.init heap) with ⟨st, u₁⟩
  rcases he₂ : parseSection m₂ secs₂.ehFrame true (.init heap) with ⟨st₂, u₂⟩
  rw [he₁, he₂] at htwin
  obtain ⟨hst, hu, -⟩ := htwin
  obtain rfl : st = st₂ := hst
  rw [forall_mem_stepPairs_iff he₁ he₂ hlen, not_and] at hnot
  obtain ⟨rfl, hdbg⟩ := Classical.not_imp.mp (hnot heh)
  obtain ⟨st, hst, h⟩ := parseSection_split hs.debug hu hdbg
  exact ⟨st, hst, h.imp (cfiBuild_status_of_debug hst he₁) (cfiBuild_status_of_debug hst he₂)⟩

/-- A `.debug_frame` whose CIE has its FDEs' addresses relative to themselves. -/
def pcrelFrame : List UInt8 :=
  [14, 0, 0, 0, 0xff, 0xff, 0xff, 0xff, 1, 0x7a, 0x52, 0, 1, 0x78, 16, 1, 0x14, 0] ++
    [21, 0, 0, 0, 0, 0, 0, 0] ++ leBytes 8 0x100 ++ leBytes 8 0x10 ++ [0]

/-- A `.debug_frame` at two places. -/
lemma debugFrameAt_sameImage {bs : List UInt8} (data₁ data₂ : UInt64)
    (h₁ : (debugFrameAt data₁ bs).debugFrame.Mapped)
    (h₂ : (debugFrameAt data₂ bs).debugFrame.Mapped) (hlen : bs.length < 2 ^ 63)
    (hd₁ : data₁ ≠ 0) (hd₂ : data₂ ≠ 0) :
    SameImage (memOf data₁ bs) (memOf data₂ bs) (debugFrameAt data₁ bs)
      (debugFrameAt data₂ bs) := by
  have hsize : (UInt64.ofNat bs.length).toNat = bs.length :=
    UInt64.toNat_ofNat_of_lt' (by show _ < 2 ^ 64; omega)
  have hspan (data : UInt64) (h : (debugFrameAt data bs).debugFrame.Mapped) :
      data.toNat + bs.length = (debugFrameAt data bs).debugFrame.stop.toNat := by
    rw [h.stop_toNat]
    exact congrArg _ hsize.symm
  refine ⟨⟨(by decide : Section.null.Mapped), (by decide : Section.null.Mapped), Iff.rfl, rfl, [],
    Span.nil_iff.mpr rfl, Span.nil_iff.mpr rfl⟩, ⟨h₁, h₂, iff_of_false hd₁ hd₂, rfl, bs, ?_, ?_⟩⟩
  · exact ⟨holds_memOf _ (by omega), hspan data₁ h₁⟩
  · exact ⟨holds_memOf _ (by omega), hspan data₂ h₂⟩

end Dwunw
