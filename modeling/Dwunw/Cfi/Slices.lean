import Dwunw.Cfi.Footprint
import Dwunw.Cfi.Links

/-!
Where the instructions of a record lie.

A record holds the address of its instructions and their size, both computed in 64 bits: the
address is the cursor behind the fields of the entry plus the length of the augmentation data,
the size is what is left up to the declared end.

* `cieFields`, `fdeFields`: the fields of an entry, and the length of the augmentation data
  behind them, as the parser reads them.
* `SliceInside`: the instructions start where fields and augmentation data end, and end where
  the entry ends, inside its section.  All sums are those of `ℕ`.
* `parseSection_bounds`: the entries of an accepted section lie in the section.
* `cfiBuild_slices_iff`: the instructions of all records of an accepted build lie where they
  belong exactly when every entry holds its id and no augmentation length is so large that the
  end of the data wraps around.
-/

namespace Dwunw

open Loop Traced

variable {m : ByteMem} {sec : Section} {isEh : Bool} {heap : Heap} {secs : Sections}

/-! ### The fields of an entry -/

/-- The fields of an entry: the cursor behind them, and the length of the augmentation data
that follow. -/
structure EntryFields where
  stop : UInt64
  augSize : UInt64
  deriving DecidableEq, Repr

/-- The length of the augmentation data, when there is one. -/
def augmentationField (z : Bool) (payload entryEnd : UInt64) : Reader EntryFields :=
  if z then do
    let (augSize, payload) ← readUleb payload entryEnd
    pure ⟨payload, augSize⟩
  else pure ⟨payload, 0⟩

/-- The fields of a CIE. -/
def cieFields (sec : Section) (entryStart payload entryEnd : UInt64) (isEh : Bool) :
    Reader EntryFields := do
  let (cie, payload) ← parseCieHeader sec entryStart payload entryEnd isEh
  let z ← startsWithZ .entry cie
  augmentationField z payload entryEnd

/-- The fields of an FDE whose parent is `cie`. -/
def fdeFields (sec : Section) (cie : CieRecord) (payload entryEnd : UInt64) :
    Reader EntryFields := do
  let (_, _, payload) ← parseFdeRange sec cie.fdeEncoding payload entryEnd
  let z ← startsWithZ .parent cie
  augmentationField z payload entryEnd

/-- The instructions as the parser computes them from the fields, for an entry whose payload
is not past its end. -/
structure ComputedFrom (payload entryEnd : UInt64) (f : EntryFields)
    (instructions size : UInt64) : Prop where
  start : instructions = f.stop + f.augSize
  size : size = entryEnd - instructions
  lower : payload ≤ f.stop
  fields : f.stop ≤ entryEnd
  upper : instructions ≤ entryEnd

/-- The parser's way through the augmentation length is the field. -/
lemma readAugmentationSize_field {payload stop : UInt64} {r : UInt64 × UInt64}
    (h : (readAugmentationSize payload stop).val m = .ok r) :
    ∃ f, (augmentationField true payload stop).val m = .ok f ∧ r.2 = f.stop + f.augSize ∧
      payload ≤ f.stop ∧ f.stop ≤ stop ∧ r.2 ≤ stop := by
  obtain ⟨u, hu, h⟩ := val_bind_eq_ok h
  obtain ⟨hlt, hle⟩ := readUleb_advance hu
  dsimp only at h
  by_cases hs : stop < u.2 + u.1
  · rw [if_pos hs] at h
    cases h
  · rw [if_neg hs] at h
    cases h
    refine ⟨⟨u.2, u.1⟩, ?_, rfl, UInt64.le_of_lt hlt, hle, UInt64.not_lt.mp hs⟩
    rw [augmentationField, if_pos rfl, val_bind_ok hu, val_pure]

/-- Where a CIE has its instructions. -/
lemma parseCie_instructions {start payload stop : UInt64} {cie : CieRecord}
    (hstop : stop.toNat ≤ 2 ^ 63)
    (h : (parseCie sec start payload stop isEh).val m = .ok cie) :
    ∃ f, (cieFields sec start payload stop isEh).val m = .ok f ∧
      ComputedFrom payload stop f cie.instructions cie.instructionsSize := by
  obtain ⟨r, hr, h⟩ := val_bind_eq_ok h
  obtain ⟨z, hz, h⟩ := val_bind_eq_ok h
  obtain ⟨-, hlo, hhi⟩ := (parseCieHeader_within hstop).post _ hr
  have hfields {f : EntryFields} (hf : (augmentationField z r.2 stop).val m = .ok f) :
      (cieFields sec start payload stop isEh).val m = .ok f := by
    rw [cieFields, val_bind_ok hr, val_bind_ok hz, hf]
  cases z with
  | true =>
      rw [if_pos rfl] at h
      obtain ⟨a, ha, h⟩ := val_bind_eq_ok h
      obtain ⟨_, -, h⟩ := val_bind_eq_ok h
      obtain ⟨f, hf, hsum, hge, hle, hend⟩ := readAugmentationSize_field ha
      cases h
      exact ⟨f, hfields hf, hsum, rfl, UInt64.le_trans hlo hge, hle, hend⟩
  | false =>
      rw [if_neg (by decide)] at h
      cases h
      exact ⟨⟨r.2, 0⟩, hfields rfl, (UInt64.add_zero _).symm, rfl, hlo, hhi, hhi⟩

/-- `parse_fde` once the parent is known. -/
def parseFdeUnder (sec : Section) (entryStart payload entryEnd : UInt64) (ptr : CiePtr)
    (cie : CieRecord) : Reader FdeRecord := do
  let (pcBegin, pcRange, payload) ← parseFdeRange sec cie.fdeEncoding payload entryEnd
  let fde : FdeRecord :=
    { cie := ptr
      offset := entryStart - sec.data
      pcBegin
      pcRange
      instructions := 0
      instructionsSize := 0 }
  let z ← startsWithZ .parent cie
  if z then do
    let (_, augEnd) ← readAugmentationSize payload entryEnd
    pure { fde with instructions := augEnd, instructionsSize := entryEnd - augEnd }
  else pure { fde with instructions := payload, instructionsSize := entryEnd - payload }

lemma parseFde_of_findCie {start payload stop : UInt64} {id : UInt32} {cies : CieVector}
    {ptr : CiePtr} {cie : CieRecord}
    (h : findCie cies (fdeCieOffset sec id payload isEh) = some (ptr, cie)) :
    parseFde sec start id payload stop isEh cies =
      parseFdeUnder sec start payload stop ptr cie := by
  rw [parseFde, h]
  rfl

/-- Where an FDE has its instructions. -/
lemma parseFdeUnder_instructions {start payload stop : UInt64} {ptr : CiePtr}
    {cie : CieRecord} {fde : FdeRecord} (hp : payload ≤ stop)
    (h : (parseFdeUnder sec start payload stop ptr cie).val m = .ok fde) :
    ∃ f, (fdeFields sec cie payload stop).val m = .ok f ∧
      ComputedFrom payload stop f fde.instructions fde.instructionsSize := by
  obtain ⟨r, hr, h⟩ := val_bind_eq_ok h
  obtain ⟨z, hz, h⟩ := val_bind_eq_ok h
  obtain ⟨hlo, hhi⟩ : payload ≤ r.2.2 ∧ r.2.2 ≤ stop := (parseFdeRange_within hp).post _ hr
  have hfields {f : EntryFields} (hf : (augmentationField z r.2.2 stop).val m = .ok f) :
      (fdeFields sec cie payload stop).val m = .ok f := by
    rw [fdeFields, val_bind_ok hr, val_bind_ok hz, hf]
  cases z with
  | true =>
      rw [if_pos rfl] at h
      obtain ⟨a, ha, h⟩ := val_bind_eq_ok h
      obtain ⟨f, hf, hsum, hge, hle, hend⟩ := readAugmentationSize_field ha
      cases h
      exact ⟨f, hfields hf, hsum, rfl, UInt64.le_trans hlo hge, hle, hend⟩
  | false =>
      rw [if_neg (by decide)] at h
      cases h
      exact ⟨⟨r.2.2, 0⟩, hfields rfl, (UInt64.add_zero _).symm, rfl, hlo, hhi, hhi⟩

/-! ### Where the entries of an accepted section lie -/

/-- The entry lies in its section, from its length field to its declared end. -/
structure HeadIn (sec : Section) (h : EntryHead) : Prop where
  lower : sec.data.toNat ≤ h.start.toNat
  upper : h.start.toNat + 4 + h.length.toNat ≤ sec.data.toNat + sec.size.toNat

lemma run_bounds (hm : sec.Mapped) {n : ℕ} {s : SectionState} {t : ParseState}
    (hlo : sec.data ≤ s.ptr) (hhi : s.ptr ≤ sec.stop)
    (h : run (sectionTurn m sec isEh) n s = some (.ok, t)) :
    ∀ hd ∈ headsFrom m sec n s.ptr, HeadIn sec hd := by
  induction n generalizing s with
  | zero => simp [run] at h
  | succ n ih =>
      rw [run] at h
      rw [headsFrom]
      cases hturn : sectionTurn m sec isEh s with
      | done r =>
          rw [hturn] at h
          cases h
          rw [if_neg (sectionTurn_done_ok hturn).1]
          simp
      | next s' =>
          rw [hturn] at h
          obtain ⟨hat, hstop, hptr, -⟩ := sectionTurn_next.mp hturn
          obtain ⟨hhi', hadv⟩ := sectionTurn_advance hm hhi hturn
          rw [if_pos hat, ← hptr]
          intro hd hmem
          rcases List.mem_cons.mp hmem with rfl | hmem
          · rw [UInt64.le_iff_toNat_le] at hlo hhi hstop
            have hle := hm.stop_le
            rw [EntryHead.stop_toNat (by rw [headAt_start]; omega), hm.stop_toNat] at hstop
            exact ⟨hlo, hstop⟩
          · refine ih ?_ hhi' h hd hmem
            rw [UInt64.le_iff_toNat_le] at hlo ⊢
            omega

/-- The entries of an accepted section lie in the section. -/
lemma parseSection_bounds (hm : sec.Mapped) {t t' : ParseState}
    (h : parseSection m sec isEh t = (.ok, t')) : ∀ hd ∈ entryHeads m sec, HeadIn sec hd := by
  rw [parseSection] at h
  rw [entryHeads]
  by_cases h0 : sec.data = 0 ∨ sec.size = 0
  · simp [h0]
  · rw [if_neg h0] at h ⊢
    have hstart : sec.data ≤ sec.stop := by
      rw [UInt64.le_iff_toNat_le, hm.stop_toNat]
      omega
    cases hr : run (sectionTurn m sec isEh) (sec.size.toNat + 1) ⟨sec.data, t⟩ with
    | none => rw [hr] at h; cases h
    | some r =>
        rw [hr, Option.getD_some] at h
        subst h
        exact run_bounds hm (UInt64.le_refl _) hstart hr

/-- An entry of a mapped section. -/
structure Origin.Placed (o : Origin) : Prop where
  mapped : o.sec.Mapped
  bounds : HeadIn o.sec o.head

lemma origins_placed (heh : secs.ehFrame.Mapped) (hdbg : secs.debugFrame.Mapped)
    (h : (cfiBuild m heap secs).status = .ok) : ∀ o ∈ origins m secs, o.Placed := by
  obtain ⟨t, t', he, hd, -, -⟩ := cfiBuild_ok h
  intro o ho
  rcases List.mem_append.mp ho with ho | ho <;> obtain ⟨hd', hmem, rfl⟩ := List.mem_map.mp ho
  · exact ⟨heh, parseSection_bounds heh he hd' hmem⟩
  · exact ⟨hdbg, parseSection_bounds hdbg hd hd' hmem⟩

/-! ### One slice -/

/-- The instructions of the entry `o` lie where they belong: behind the length, the id, the
other fields and the augmentation data, up to the declared end of the entry, and inside the
section. -/
structure SliceAfter (o : Origin) (f : EntryFields) (instructions size : UInt64) : Prop where
  fields : o.head.start.toNat + 8 ≤ f.stop.toNat
  start : instructions.toNat = f.stop.toNat + f.augSize.toNat
  stop : instructions.toNat + size.toNat = o.head.start.toNat + 4 + o.head.length.toNat
  lower : o.sec.data.toNat ≤ o.head.start.toNat
  upper : o.head.start.toNat + 4 + o.head.length.toNat ≤ o.sec.data.toNat + o.sec.size.toNat

/-- The instructions of an entry lie behind the fields read for it. -/
def SliceInside (o : Origin) (fields : Except Status EntryFields)
    (instructions size : UInt64) : Prop :=
  ∃ f, fields = .ok f ∧ SliceAfter o f instructions size

/-- The entry holds its id, and its augmentation length is below 2⁶³. -/
def EntryFits (o : Origin) (fields : Except Status EntryFields) : Prop :=
  4 ≤ o.head.length.toNat ∧ ∀ f, fields = .ok f → f.augSize.toNat < 2 ^ 63

instance (o : Origin) (f : EntryFields) (instructions size : UInt64) :
    Decidable (SliceAfter o f instructions size) :=
  decidable_of_iff (o.head.start.toNat + 8 ≤ f.stop.toNat ∧
      instructions.toNat = f.stop.toNat + f.augSize.toNat ∧
      instructions.toNat + size.toNat = o.head.start.toNat + 4 + o.head.length.toNat ∧
      o.sec.data.toNat ≤ o.head.start.toNat ∧
      o.head.start.toNat + 4 + o.head.length.toNat ≤ o.sec.data.toNat + o.sec.size.toNat)
    ⟨fun ⟨h1, h2, h3, h4, h5⟩ => ⟨h1, h2, h3, h4, h5⟩,
      fun ⟨h1, h2, h3, h4, h5⟩ => ⟨h1, h2, h3, h4, h5⟩⟩

instance (o : Origin) (fields : Except Status EntryFields) (instructions size : UInt64) :
    Decidable (SliceInside o fields instructions size) :=
  match fields with
  | .error _ => isFalse fun ⟨_, h, _⟩ => nomatch h
  | .ok f => decidable_of_iff (SliceAfter o f instructions size)
      ⟨fun h => ⟨f, rfl, h⟩, fun ⟨_, h, hs⟩ => by cases h; exact hs⟩

instance (o : Origin) (fields : Except Status EntryFields) : Decidable (EntryFits o fields) :=
  inferInstanceAs (Decidable (_ ∧ _))

lemma Origin.Placed.stop_toNat {o : Origin} (h : o.Placed) :
    o.head.stop.toNat = o.head.start.toNat + 4 + o.head.length.toNat := by
  have hm := h.mapped
  have hu := h.bounds.upper
  rw [Section.Mapped] at hm
  exact EntryHead.stop_toNat (by omega)

lemma Origin.Placed.stop_le {o : Origin} (h : o.Placed) : o.head.stop.toNat ≤ 2 ^ 63 := by
  have hm := h.mapped
  have hu := h.bounds.upper
  rw [Section.Mapped] at hm
  rw [h.stop_toNat]
  omega

lemma Origin.Placed.payload_toNat {o : Origin} (h : o.Placed) :
    (o.head.start + 4 + 4).toNat = o.head.start.toNat + 8 := by
  have hm := h.mapped
  have hu := h.bounds.upper
  rw [Section.Mapped] at hm
  have h4 : (o.head.start + 4).toNat = o.head.start.toNat + 4 :=
    UInt64.toNat_add_of_lt (by simp; omega)
  rw [UInt64.toNat_add_of_lt (by rw [h4]; simp; omega), h4]
  rfl

lemma Origin.Placed.payload_le {o : Origin} (h : o.Placed)
    (hid : 4 ≤ o.head.length.toNat) : o.head.start + 4 + 4 ≤ o.head.stop := by
  rw [UInt64.le_iff_toNat_le, h.payload_toNat, h.stop_toNat]
  omega

/-- The instructions of an entry that is parsed lie where they belong exactly when the entry
holds its id and its augmentation length is below 2⁶³: the end of the augmentation data is in
the entry modulo 2⁶⁴. -/
lemma sliceInside_iff {o : Origin} {fields : Except Status EntryFields}
    {instructions size : UInt64} (ho : o.Placed)
    (hc : 4 ≤ o.head.length.toNat → ∃ f, fields = .ok f ∧
      ComputedFrom (o.head.start + 4 + 4) o.head.stop f instructions size) :
    SliceInside o fields instructions size ↔ EntryFits o fields := by
  have hstop := ho.stop_toNat
  have hle := ho.stop_le
  constructor
  · rintro ⟨f, rfl, hf, hs, he, -, -⟩
    refine ⟨by omega, ?_⟩
    rintro _ ⟨⟩
    omega
  · rintro ⟨hid, hfit⟩
    obtain ⟨f, rfl, hf⟩ := hc hid
    have haug := hfit f rfl
    have hlo := hf.lower
    have hfld := hf.fields
    have hup := hf.upper
    rw [UInt64.le_iff_toNat_le] at hlo hfld
    rw [ho.payload_toNat] at hlo
    have hsum : instructions.toNat = f.stop.toNat + f.augSize.toNat := by
      rw [hf.start]
      exact UInt64.toNat_add_of_lt (by omega)
    have hsize : size.toNat = o.head.stop.toNat - instructions.toNat := by
      rw [hf.size, UInt64.toNat_sub_of_le _ _ hup]
    rw [UInt64.le_iff_toNat_le] at hup
    exact ⟨f, rfl, hlo, hsum, by omega, ho.bounds.lower, ho.bounds.upper⟩

/-! ### A whole build -/

/-- The fields of the CIE `o`. -/
def Origin.cieFields (m : ByteMem) (o : Origin) : Except Status EntryFields :=
  (Dwunw.cieFields o.sec o.head.start (o.head.start + 4 + 4) o.head.stop o.isEh).val m

/-- The fields of the FDE `o` under the parent `cie`. -/
def Origin.fdeFields (m : ByteMem) (o : Origin) (cie : CieRecord) : Except Status EntryFields :=
  (Dwunw.fdeFields o.sec cie (o.head.start + 4 + 4) o.head.stop).val m

/-- The parent of the FDE `o`: what the first of the CIEs at the offset looked up decodes
to. -/
def Origin.parent (m : ByteMem) (cs : List Origin) (o : Origin) : Option CieRecord :=
  (cs.find? (·.offset = o.lookupOffset)).bind fun c =>
    ((parseCie c.sec c.head.start (c.head.start + 4 + 4) c.head.stop c.isEh).val m).toOption

/-- The record of the FDE `o` is what it decodes to under the record it is linked to. -/
def FdeParsedFrom (m : ByteMem) (cies : List CieRecord) (o : Origin) (fde : FdeRecord) : Prop :=
  ∃ cie ∈ cies[fde.cie.index]?,
    (parseFdeUnder o.sec o.head.start (o.head.start + 4 + 4) o.head.stop fde.cie cie).val m =
      .ok fde

/-- The records of the table stay where they are when others are added. -/
lemma FdeParsedFrom.append {cies : List CieRecord} {o : Origin} {fde : FdeRecord}
    (cies' : List CieRecord) (h : FdeParsedFrom m cies o fde) :
    FdeParsedFrom m (cies ++ cies') o fde := by
  obtain ⟨cie, hcie, hp⟩ := h
  obtain ⟨hlt, -⟩ := List.getElem?_eq_some_iff.mp hcie
  refine ⟨cie, ?_, hp⟩
  rw [List.getElem?_append_left hlt]
  exact hcie

/-- The FDEs of an accepted build, each with the record it is linked to. -/
theorem cfiBuild_fdes (h : (cfiBuild m heap secs).status = .ok) :
    List.Forall₂ (FdeParsedFrom m (cfiBuild m heap secs).cies.records)
      (fdeOrigins (origins m secs)) (cfiBuild m heap secs).fdes.records := by
  obtain ⟨t, hinv, -, hb⟩ := cfiBuild_ok_induction
    (P := fun os t => List.Forall₂ (FdeParsedFrom m t.cies.records) (fdeOrigins os)
      t.fdes.records)
    (fun _ _ _ h => h)
    (fun os o t rec t' _ hinv hd hst => by
      rcases storeRecord_ok hst with ⟨cie, rfl, hv, hf, -⟩ | ⟨fde, rfl, hv, hc, -⟩
      · cases hd with
        | cie hid hp =>
            have hfde : fdeOrigins (os ++ [o]) = fdeOrigins os := by
              simp [fdeOrigins, Origin.isCie, hid]
            rw [hf, hfde, vectorAppend_ok_records hv]
            exact hinv.imp fun _ _ h => h.append [cie]
      · cases hd with
        | fde hid hp =>
            have hfde : fdeOrigins (os ++ [o]) = fdeOrigins os ++ [o] := by
              simp [fdeOrigins, Origin.isCie, hid]
            obtain ⟨-, cie, hfind⟩ := parseFde_link hp
            rw [parseFde_of_findCie hfind] at hp
            rw [vectorAppend_ok_records hv, hc, hfde]
            exact List.rel_append hinv
              (.cons ⟨cie, (findCie_eq_some.mp hfind).2.1, hp⟩ .nil))
    h .nil
  rw [hb]
  exact hinv

lemma forall₂_both {α β : Type} {R S : α → β → Prop} {as : List α} {bs : List β}
    (hR : List.Forall₂ R as bs) (hS : List.Forall₂ S as bs) :
    List.Forall₂ (fun a b => R a b ∧ S a b) as bs := by
  induction hR with
  | nil => exact .nil
  | cons hab _ ih =>
      cases hS with
      | cons hab' hS => exact .cons ⟨hab, hab'⟩ (ih hS)

/-- The record an FDE is linked to is its parent. -/
lemma parent_eq_of_linked {cs : List Origin} {cies : List CieRecord} {o : Origin}
    {fde : FdeRecord} {cie : CieRecord} (hcies : List.Forall₂ (ParsedFrom m) cs cies)
    (hl : LinkedFirst cs o fde) (hcie : cie ∈ cies[fde.cie.index]?) :
    o.parent m cs = some cie := by
  obtain ⟨hlt, -, -⟩ := List.findIdx?_eq_some_iff_getElem.mp hl.link
  obtain ⟨cie', hcie', hp⟩ := parsedFrom_getElem? hcies (List.getElem?_eq_getElem hlt)
  rw [Option.mem_def, hcie', Option.some.injEq] at hcie
  subst hcie
  rw [ParsedFrom] at hp
  rw [Origin.parent, List.find?_eq_bind_findIdx?_getElem?, hl.link, Option.bind_some,
    List.getElem?_eq_getElem hlt, Option.bind_some, hp]
  rfl

/-- The record of the CIE `o` has its instructions where they belong. -/
def CieSlice (m : ByteMem) (o : Origin) (cie : CieRecord) : Prop :=
  SliceInside o (o.cieFields m) cie.instructions cie.instructionsSize

/-- The record of the FDE `o` has its instructions where they belong. -/
def FdeSlice (m : ByteMem) (cies : List CieRecord) (o : Origin) (fde : FdeRecord) : Prop :=
  ∃ cie ∈ cies[fde.cie.index]?,
    SliceInside o (o.fdeFields m cie) fde.instructions fde.instructionsSize

/-- All records of a build have their instructions where they belong. -/
structure SlicesInside (m : ByteMem) (secs : Sections) (b : BuildResult) : Prop where
  cies : List.Forall₂ (CieSlice m) (cieOrigins (origins m secs)) b.cies.records
  fdes : List.Forall₂ (FdeSlice m b.cies.records) (fdeOrigins (origins m secs)) b.fdes.records

/-- Every entry holds its id, and no augmentation length is 2⁶³ or more. -/
structure EntriesFit (m : ByteMem) (secs : Sections) : Prop where
  cies : ∀ o ∈ cieOrigins (origins m secs), EntryFits o (o.cieFields m)
  fdes : ∀ o ∈ fdeOrigins (origins m secs),
    ∀ cie ∈ o.parent m (cieOrigins (origins m secs)), EntryFits o (o.fdeFields m cie)

/-- The instructions of all records of an accepted build lie behind the fields of their
entries, up to the ends of the entries and inside the sections, exactly when every entry holds
its id and no augmentation length is 2⁶³ or more. -/
theorem cfiBuild_slices_iff (heh : secs.ehFrame.Mapped) (hdbg : secs.debugFrame.Mapped)
    (h : (cfiBuild m heap secs).status = .ok) :
    SlicesInside m secs (cfiBuild m heap secs) ↔ EntriesFit m secs := by
  have hplaced := origins_placed heh hdbg h
  obtain ⟨hcies, hlinks⟩ := cfiBuild_tables h
  have hfdes := cfiBuild_fdes h
  generalize cfiBuild m heap secs = b at *
  -- the CIEs
  have hC : List.Forall₂ (CieSlice m) (cieOrigins (origins m secs)) b.cies.records ↔
      ∀ o ∈ cieOrigins (origins m secs), EntryFits o (o.cieFields m) := by
    refine forall₂_iff_of_forall₂ (fun o cie hl => ?_)
      ((List.forall₂_and_left _ _).mpr
        ⟨fun o ho => hplaced o (List.mem_of_mem_filter ho), hcies⟩)
    obtain ⟨ho, hp⟩ := hl
    exact sliceInside_iff ho fun _ => parseCie_instructions ho.stop_le hp
  -- the FDEs, each under the record it is linked to
  have hF : List.Forall₂ (FdeSlice m b.cies.records) (fdeOrigins (origins m secs))
        b.fdes.records ↔
      ∀ o ∈ fdeOrigins (origins m secs),
        ∀ cie ∈ o.parent m (cieOrigins (origins m secs)), EntryFits o (o.fdeFields m cie) := by
    refine forall₂_iff_of_forall₂ (fun o fde hl => ?_)
      ((List.forall₂_and_left _ _).mpr
        ⟨fun o ho => hplaced o (List.mem_of_mem_filter ho), forall₂_both hlinks hfdes⟩)
    obtain ⟨ho, hl, cie, hcie, hp⟩ := hl
    have hpar := parent_eq_of_linked hcies hl hcie
    have hone : SliceInside o (o.fdeFields m cie) fde.instructions fde.instructionsSize ↔
        EntryFits o (o.fdeFields m cie) :=
      sliceInside_iff ho fun hid => parseFdeUnder_instructions (ho.payload_le hid) hp
    rw [Option.mem_def] at hcie
    simp only [FdeSlice, Option.mem_def, hcie, hpar, Option.some.injEq, exists_eq_left',
      forall_eq', hone]
  exact ⟨fun hs => ⟨hC.mp hs.cies, hF.mp hs.fdes⟩, fun hf => ⟨hC.mpr hf.cies, hF.mpr hf.fdes⟩⟩

instance (m : ByteMem) (o : Origin) (cie : CieRecord) : Decidable (CieSlice m o cie) :=
  inferInstanceAs (Decidable (SliceInside ..))

/-- A `.debug_frame` with one CIE, whose augmentation length is written in the ten bytes
`aug`, and an FDE of it. -/
def augmentedFrame (aug : List UInt8) : List UInt8 :=
  [20, 0, 0, 0, 0xff, 0xff, 0xff, 0xff, 1, 0x7a, 0, 1, 0x78, 16] ++ aug ++
    [21, 0, 0, 0, 0, 0, 0, 0] ++ leBytes 8 0x1000 ++ leBytes 8 0x10 ++ [0]

/-- The build over `augmentedFrame`. -/
def augmentedBuild (aug : List UInt8) : BuildResult :=
  cfiBuild (memOf 0x1000 (augmentedFrame aug)) (.fresh fun _ => true)
    (debugFrameAt 0x1000 (augmentedFrame aug))

/-- The length 2⁶⁴ − 8. -/
def wrappingLength : List UInt8 := 0xf8 :: List.replicate 8 0xff ++ [1]

/-- The build accepts the length 2⁶⁴ − 8, and the instructions of the CIE start eight bytes
in front of the end of its fields. -/
theorem wrappingLength_slice_outside :
    (augmentedBuild wrappingLength).status = .ok ∧
      ¬ SlicesInside (memOf 0x1000 (augmentedFrame wrappingLength))
        (debugFrameAt 0x1000 (augmentedFrame wrappingLength))
        (augmentedBuild wrappingLength) := by
  have hnot : ¬ List.Forall₂ (CieSlice (memOf 0x1000 (augmentedFrame wrappingLength)))
      (cieOrigins (origins (memOf 0x1000 (augmentedFrame wrappingLength))
        (debugFrameAt 0x1000 (augmentedFrame wrappingLength))))
      (augmentedBuild wrappingLength).cies.records := by decide +kernel
  exact ⟨by decide +kernel, fun h => hnot h.cies⟩

/-- The length 0 in ten bytes. -/
def paddedZero : List UInt8 := List.replicate 9 0x80 ++ [0]

/-- An augmentation length of ten bytes that is zero does no harm. -/
theorem paddedZero_slices_inside :
    (augmentedBuild paddedZero).cies.records.length = 1 ∧
      (augmentedBuild paddedZero).fdes.records.length = 1 ∧
      SlicesInside (memOf 0x1000 (augmentedFrame paddedZero))
        (debugFrameAt 0x1000 (augmentedFrame paddedZero)) (augmentedBuild paddedZero) :=
  ⟨by decide +kernel, by decide +kernel,
    (cfiBuild_slices_iff (by decide) (by decide) (by decide +kernel)).mpr
      ⟨by decide +kernel, by decide +kernel⟩⟩

end Dwunw
