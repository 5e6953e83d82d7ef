import Dwunw.Cfi.Parse
import Dwunw.Cfi.ReadSpec

/-!
The walk over a section: what `parse_section` visits, and what an accepted section has been
through.

* `EntryHead`, `entryHeads`: the entries of a section as their length fields alone lay them
  out.  Nothing here parses a record.
* `val_parseEntry`: one entry, by cases on its length, its end and its id.
* `sectionTurn_next`, `sectionTurn_done_ok`: what a turn of the loop can do.
* `parseSection_ok_induction`: the invariant rule for accepted sections, along the entry
  heads; `cfiBuild_ok` splits an accepted build into its two sections.
* `parseCieHeader_eq`, `parseCieHeader_ok`: the header of a CIE in steps, and what a header that
  is parsed has been through.
* `Section.Mapped`, `parseSection_ends`: a section in user space is parsed to its end.
* `buildStates`: the states that a build passes through, one for each entry it comes to;
  `mem_sectionStates_iff` and `cfiBuild_entries` compare the list with the loop.
-/

namespace Dwunw

open Loop Traced

variable {m : ByteMem} {sec : Section} {isEh : Bool}

/-! ### The entries of a section -/

/-- The header of an entry: where it starts, and its first two words. -/
structure EntryHead where
  start : UInt64
  length : UInt32
  id : UInt32
  deriving DecidableEq, Repr

/-- The declared end of an entry. -/
def EntryHead.stop (h : EntryHead) : UInt64 := h.start + 4 + h.length.toUInt64

/-- The header at an address. -/
def headAt (m : ByteMem) (ptr : UInt64) : EntryHead := ⟨ptr, u32At m ptr, u32At m (ptr + 4)⟩

@[simp] lemma headAt_start (ptr : UInt64) : (headAt m ptr).start = ptr := rfl

/-- Whether a cursor is at an entry: a length field fits, and it is no terminator. -/
def AtEntry (m : ByteMem) (sec : Section) (ptr : UInt64) : Prop :=
  ptr + 4 ≤ sec.stop ∧ (headAt m ptr).length ≠ 0

instance (m : ByteMem) (sec : Section) (ptr : UInt64) : Decidable (AtEntry m sec ptr) :=
  inferInstanceAs (Decidable (_ ∧ _))

/-- The entry headers from a cursor on, `n` of them at most. -/
def headsFrom (m : ByteMem) (sec : Section) : ℕ → UInt64 → List EntryHead
  | 0, _ => []
  | n + 1, ptr =>
      if AtEntry m sec ptr then headAt m ptr :: headsFrom m sec n (headAt m ptr).stop else []

/-- The entry headers of a section, up to its terminator or its end. -/
def entryHeads (m : ByteMem) (sec : Section) : List EntryHead :=
  if sec.data = 0 ∨ sec.size = 0 then [] else headsFrom m sec (sec.size.toNat + 1) sec.data

/-- A header that belongs to the entry at its start. -/
def EntryHead.Reads (m : ByteMem) (h : EntryHead) : Prop := h = headAt m h.start

/-- Whether a header is that of a CIE. -/
def EntryHead.isCie (isEh : Bool) (h : EntryHead) : Bool := isCieId isEh h.id

/-! ### One entry -/

lemma val_readU32_at (ptr : UInt64) : (readU32 ptr).val m = .ok (u32At m ptr) := by
  rw [readU32, val_bind_ok (val_bytes _ _ _ _), val_pure, u32At]

/-- One entry, by cases on its header. -/
lemma val_parseEntry (cies : CieVector) (ptr : UInt64) :
    (parseEntry sec isEh cies ptr).val m =
      if (headAt m ptr).length = 0 then .ok none
      else if sec.stop < (headAt m ptr).stop then .error .badFormat
      else if (headAt m ptr).isCie isEh then
        ((parseCie sec ptr (ptr + 4 + 4) (headAt m ptr).stop isEh).val m).map
          fun cie => some (.cie cie, (headAt m ptr).stop)
      else
        ((parseFde sec ptr (headAt m ptr).id (ptr + 4 + 4) (headAt m ptr).stop isEh cies).val
          m).map fun fde => some (.fde fde, (headAt m ptr).stop) := by
  have hmap {α β : Type} (x : Reader α) (f : α → β) :
      (x >>= fun a => pure (f a)).val m = (x.val m).map f := by
    cases hx : x.val m with
    | error e => rw [val_bind_error hx]; rfl
    | ok a => rw [val_bind_ok hx]; rfl
  change _ = if u32At m ptr = 0 then _
    else if sec.stop < ptr + 4 + (u32At m ptr).toUInt64 then _
    else if isCieId isEh (u32At m (ptr + 4)) then _ else _
  rw [parseEntry, val_bind_ok (val_readU32_at ptr)]
  by_cases h0 : u32At m ptr = 0
  · rw [if_pos h0, if_pos h0, val_pure]
  rw [if_neg h0, if_neg h0]
  by_cases hs : sec.stop < ptr + 4 + (u32At m ptr).toUInt64
  · rw [if_pos hs, if_pos hs, val_fail]
  rw [if_neg hs, if_neg hs, val_bind_ok (val_readU32_at (ptr + 4))]
  by_cases hc : isCieId isEh (u32At m (ptr + 4))
  · rw [if_pos hc, if_pos hc, hmap]
    rfl
  · rw [if_neg hc, if_neg hc, hmap]
    rfl

/-- The entry at the start of `h` decodes to `rec`. -/
inductive DecodesTo (m : ByteMem) (sec : Section) (isEh : Bool) (cies : CieVector)
    (h : EntryHead) : EntryRecord → Prop
  | cie {cie : CieRecord} (hid : h.isCie isEh = true)
      (hp : (parseCie sec h.start (h.start + 4 + 4) h.stop isEh).val m = .ok cie) :
      DecodesTo m sec isEh cies h (.cie cie)
  | fde {fde : FdeRecord} (hid : h.isCie isEh = false)
      (hp : (parseFde sec h.start h.id (h.start + 4 + 4) h.stop isEh cies).val m = .ok fde) :
      DecodesTo m sec isEh cies h (.fde fde)

lemma parseEntry_eq_none {cies : CieVector} {ptr : UInt64}
    (h : (parseEntry sec isEh cies ptr).val m = .ok none) : (headAt m ptr).length = 0 := by
  rw [val_parseEntry] at h
  by_contra h0
  rw [if_neg h0] at h
  split_ifs at h
  · generalize (parseCie sec ptr _ _ isEh).val m = x at h
    cases x <;> cases h
  · generalize (parseFde sec ptr _ _ _ isEh cies).val m = x at h
    cases x <;> cases h

/-- What an entry that is parsed has been through. -/
lemma parseEntry_eq_some {cies : CieVector} {ptr stop : UInt64} {rec : EntryRecord} :
    (parseEntry sec isEh cies ptr).val m = .ok (some (rec, stop)) ↔
      (headAt m ptr).length ≠ 0 ∧ (headAt m ptr).stop ≤ sec.stop ∧
        stop = (headAt m ptr).stop ∧ DecodesTo m sec isEh cies (headAt m ptr) rec := by
  have hnot : ¬ sec.stop < (headAt m ptr).stop ↔ (headAt m ptr).stop ≤ sec.stop := by
    rw [UInt64.lt_iff_toNat_lt, UInt64.le_iff_toNat_le]
    omega
  rw [val_parseEntry]
  by_cases h0 : (headAt m ptr).length = 0
  · simp [h0]
  rw [if_neg h0, ← hnot]
  by_cases hs : sec.stop < (headAt m ptr).stop
  · simp [hs]
  rw [if_neg hs]
  constructor
  · intro h
    by_cases hc : (headAt m ptr).isCie isEh
    · rw [if_pos hc] at h
      cases hx : (parseCie sec ptr (ptr + 4 + 4) (headAt m ptr).stop isEh).val m with
      | error e => rw [hx] at h; cases h
      | ok cie =>
          rw [hx] at h
          cases h
          exact ⟨h0, hs, rfl, .cie hc hx⟩
    · rw [if_neg hc] at h
      cases hx : (parseFde sec ptr (headAt m ptr).id (ptr + 4 + 4) (headAt m ptr).stop isEh
          cies).val m with
      | error e => rw [hx] at h; cases h
      | ok fde =>
          rw [hx] at h
          cases h
          exact ⟨h0, hs, rfl, .fde (by simpa using hc) hx⟩
  · rintro ⟨-, -, rfl, hd⟩
    cases hd with
    | cie hc hp =>
        rw [headAt_start] at hp
        rw [if_pos hc, hp]
        rfl
    | fde hc hp =>
        rw [headAt_start] at hp
        rw [if_neg (by simpa using hc), hp]
        rfl

/-! ### The header of a CIE -/

/-- The record of a CIE when its numbers have been read. -/
def numberedCie (sec : Section) (entryStart payload : UInt64) (version : UInt8) (augLen : ℕ)
    (codeAlign : UInt64) (dataAlign : Int64) (returnReg : UInt64) : CieRecord where
  version
  addressSize := 8
  returnReg := returnReg.toUInt8
  ptrEncoding := dwEhPeAbsptr
  dataAlign
  codeAlign
  offset := entryStart - sec.data
  augmentation := payload + 1
  augmentationLen := UInt64.ofNat augLen
  instructions := 0
  instructionsSize := 0

/-- The last step of `parseCieHeader`: the address size that `.debug_frame` has from version 3
on. -/
def readAddressSize (isEh : Bool) (entryEnd : UInt64) (cie : CieRecord) (payload : UInt64) :
    Reader (CieRecord × UInt64) :=
  if !isEh ∧ 3 ≤ cie.version then
    if entryEnd < payload + 2 then .fail .badFormat
    else do
      let addressSize ← .byte .entry payload
      pure ({ cie with addressSize }, payload + 2)
  else pure (cie, payload)

lemma parseCieHeader_eq (sec : Section) (start payload stop : UInt64) (isEh : Bool) :
    parseCieHeader sec start payload stop isEh =
      (if stop ≤ payload then .fail .badFormat
      else do
        let version ← .byte .entry payload
        let augLen ← strnlen (payload + 1) (stop - (payload + 1)).toNat
        if stop ≤ payload + 1 + UInt64.ofNat augLen then .fail .badFormat
        else do
          let codeAlign ← readUleb (payload + 1 + (UInt64.ofNat augLen + 1)) stop
          let dataAlign ← readSleb codeAlign.2 stop
          let returnReg ← readUleb dataAlign.2 stop
          readAddressSize isEh stop (numberedCie sec start payload version augLen codeAlign.1
            dataAlign.1 returnReg.1) returnReg.2) := rfl

/-- A header whose string and numbers are read. -/
lemma val_parseCieHeader {start payload stop : UInt64} {augLen : ℕ}
    {codeAlign returnReg : UInt64 × UInt64} {dataAlign : Int64 × UInt64}
    (hp : payload < stop)
    (hlen : (strnlen (payload + 1) (stop - (payload + 1)).toNat).val m = .ok augLen)
    (ha : payload + 1 + UInt64.ofNat augLen < stop)
    (hcode : (readUleb (payload + 1 + (UInt64.ofNat augLen + 1)) stop).val m = .ok codeAlign)
    (hdata : (readSleb codeAlign.2 stop).val m = .ok dataAlign)
    (hret : (readUleb dataAlign.2 stop).val m = .ok returnReg) :
    (parseCieHeader sec start payload stop isEh).val m =
      (readAddressSize isEh stop (numberedCie sec start payload (m payload) augLen codeAlign.1
        dataAlign.1 returnReg.1) returnReg.2).val m := by
  rw [parseCieHeader_eq, if_neg (UInt64.not_le.mpr hp), val_byte_bind, val_bind_ok hlen,
    if_neg (UInt64.not_le.mpr ha), val_bind_ok hcode, val_bind_ok hdata, val_bind_ok hret]

lemma readAddressSize_ok {stop c : UInt64} {cie : CieRecord} {r : CieRecord × UInt64}
    (h : (readAddressSize isEh stop cie c).val m = .ok r) :
    r.1 = { cie with addressSize := r.1.addressSize } := by
  rw [readAddressSize] at h
  by_cases hv : !isEh ∧ 3 ≤ cie.version
  · rw [if_pos hv] at h
    by_cases h2 : stop < c + 2
    · rw [if_pos h2] at h
      cases h
    · rw [if_neg h2, val_byte_bind] at h
      cases h
      rfl
  · rw [if_neg hv] at h
    cases h
    rfl

/-- What a CIE header that is parsed has been through. -/
lemma parseCieHeader_ok {start payload stop : UInt64} {r : CieRecord × UInt64}
    (h : (parseCieHeader sec start payload stop isEh).val m = .ok r) :
    ∃ augLen codeAlign dataAlign returnReg,
      ¬ stop ≤ payload ∧
      (strnlen (payload + 1) (stop - (payload + 1)).toNat).val m = .ok augLen ∧
      ¬ stop ≤ payload + 1 + UInt64.ofNat augLen ∧
      (readUleb (payload + 1 + (UInt64.ofNat augLen + 1)) stop).val m = .ok codeAlign ∧
      (readSleb codeAlign.2 stop).val m = .ok dataAlign ∧
      (readUleb dataAlign.2 stop).val m = .ok returnReg ∧
      (readAddressSize isEh stop (numberedCie sec start payload (m payload) augLen codeAlign.1
        dataAlign.1 returnReg.1) returnReg.2).val m = .ok r := by
  rw [parseCieHeader_eq] at h
  by_cases hp : stop ≤ payload
  · rw [if_pos hp] at h
    cases h
  rw [if_neg hp, val_byte_bind] at h
  obtain ⟨augLen, hlen, h⟩ := val_bind_eq_ok h
  by_cases ha : stop ≤ payload + 1 + UInt64.ofNat augLen
  · rw [if_pos ha] at h
    cases h
  rw [if_neg ha] at h
  obtain ⟨codeAlign, hcode, h⟩ := val_bind_eq_ok h
  obtain ⟨dataAlign, hdata, h⟩ := val_bind_eq_ok h
  obtain ⟨returnReg, hret, h⟩ := val_bind_eq_ok h
  exact ⟨augLen, codeAlign, dataAlign, returnReg, hp, hlen, ha, hcode, hdata, hret, h⟩

/-! ### Errors -/

/-- The statuses with which a record is turned down. -/
def ParseError (st : Status) : Prop := st = .badFormat ∨ st = .notImplemented

lemma ParseError.ne_ok {st : Status} (h : ParseError st) : st ≠ .ok := by
  rcases h with rfl | rfl <;> decide

lemma readUleb_errors {c stop : UInt64} : ErrorsIn m ParseError (readUleb c stop) :=
  fun _ h => .inl (readUleb_error h)

lemma readSleb_errors {c stop : UInt64} : ErrorsIn m ParseError (readSleb c stop) :=
  fun _ h => .inl (readSleb_error h)

lemma readFixedSize_errors {c stop size : UInt64} :
    ErrorsIn m ParseError (readFixedSize c stop size) := fun _ h => .inl (readFixedSize_error h)

lemma readEncodedPointer_errors {encoding : UInt8} {c start stop : UInt64} :
    ErrorsIn m ParseError (readEncodedPointer encoding c start stop) := by
  refine ErrorsIn.bind ?_ fun r => ?_
  · rw [readPointerFormat]
    split_ifs
    any_goals exact readFixedSize_errors
    · exact readUleb_errors
    · exact .fail (.inr rfl)
  · obtain ⟨raw, cursor⟩ := r
    dsimp only
    split_ifs
    · exact .pure
    · exact .pure
    · exact .fail (.inr rfl)

lemma strnlen_errors {p : UInt64} {n : ℕ} : ErrorsIn m ParseError (strnlen p n) := by
  induction n generalizing p with
  | zero => exact .pure
  | succ n ih =>
      refine ErrorsIn.byte.bind fun c => ?_
      by_cases hc : c = 0
      · rw [if_pos hc]
        exact .pure
      · rw [if_neg hc]
        exact ih.bind fun _ => .pure

lemma startsWithZ_errors {via : Via} {cie : CieRecord} :
    ErrorsIn m ParseError (startsWithZ via cie) := by
  rw [startsWithZ]
  by_cases h : cie.augmentationLen = 0
  · rw [if_pos h]
    exact .pure
  · rw [if_neg h]
    exact ErrorsIn.byte.bind fun _ => .pure

lemma readAddressSize_errors {stop c : UInt64} {cie : CieRecord} :
    ErrorsIn m ParseError (readAddressSize isEh stop cie c) := by
  rw [readAddressSize]
  split_ifs
  · exact .fail (.inl rfl)
  · exact ErrorsIn.byte.bind fun _ => .pure
  · exact .pure

lemma parseCieHeader_errors {start payload stop : UInt64} :
    ErrorsIn m ParseError (parseCieHeader sec start payload stop isEh) := by
  rw [parseCieHeader_eq]
  by_cases hp : stop ≤ payload
  · rw [if_pos hp]
    exact .fail (.inl rfl)
  rw [if_neg hp]
  refine ErrorsIn.byte.bind fun version => strnlen_errors.bind fun augLen => ?_
  by_cases ha : stop ≤ payload + 1 + UInt64.ofNat augLen
  · rw [if_pos ha]
    exact .fail (.inl rfl)
  rw [if_neg ha]
  exact readUleb_errors.bind fun _ => readSleb_errors.bind fun _ =>
    readUleb_errors.bind fun _ => readAddressSize_errors

lemma readAugmentationSize_errors {payload stop : UInt64} :
    ErrorsIn m ParseError (readAugmentationSize payload stop) := by
  refine readUleb_errors.bind fun r => ?_
  dsimp only
  by_cases h : stop < r.2 + r.1
  · rw [if_pos h]
    exact .fail (.inl rfl)
  · rw [if_neg h]
    exact .pure

lemma augmentationLoop_errors {augmentation augEnd i payload : UInt64} {n : ℕ}
    {encoding : UInt8} :
    ErrorsIn m ParseError (augmentationLoop augmentation augEnd n i payload encoding) := by
  induction n generalizing i payload encoding with
  | zero => exact .pure
  | succ n ih =>
      refine ErrorsIn.byte.bind fun c => ?_
      by_cases hc : c = 0x52
      · rw [if_pos hc]
        by_cases hp : augEnd ≤ payload
        · rw [if_pos hp]
          exact .fail (.inl rfl)
        · rw [if_neg hp]
          exact ErrorsIn.byte.bind fun _ => ih
      · rw [if_neg hc]
        exact .pure

lemma parseCie_errors {start payload stop : UInt64} :
    ErrorsIn m ParseError (parseCie sec start payload stop isEh) := by
  refine parseCieHeader_errors.bind fun r => startsWithZ_errors.bind fun z => ?_
  by_cases hz : z = true
  · rw [if_pos hz]
    exact readAugmentationSize_errors.bind fun _ => augmentationLoop_errors.bind fun _ => .pure
  · rw [if_neg hz]
    exact .pure

lemma parseFde_errors {start payload stop : UInt64} {id : UInt32} {cies : CieVector} :
    ErrorsIn m ParseError (parseFde sec start id payload stop isEh cies) := by
  rw [parseFde]
  cases findCie cies (fdeCieOffset sec id payload isEh) with
  | none => exact .fail (.inl rfl)
  | some r =>
      refine ErrorsIn.bind (readEncodedPointer_errors.bind fun _ =>
        readEncodedPointer_errors.bind fun _ => .pure) fun range =>
          startsWithZ_errors.bind fun z => ?_
      by_cases hz : z = true
      · rw [if_pos hz]
        exact readAugmentationSize_errors.bind fun _ => .pure
      · rw [if_neg hz]
        exact .pure

/-- A record is turned down with `DWUNW_ERR_BAD_FORMAT` or `DWUNW_ERR_NOT_IMPLEMENTED`. -/
theorem parseEntry_errors {cies : CieVector} {ptr : UInt64} :
    ErrorsIn m ParseError (parseEntry sec isEh cies ptr) := by
  intro st h
  rw [val_parseEntry] at h
  by_cases h0 : (headAt m ptr).length = 0
  · rw [if_pos h0] at h
    cases h
  rw [if_neg h0] at h
  by_cases hs : sec.stop < (headAt m ptr).stop
  · rw [if_pos hs] at h
    cases h
    exact .inl rfl
  rw [if_neg hs] at h
  split_ifs at h
  · cases hx : (parseCie sec ptr (ptr + 4 + 4) (headAt m ptr).stop isEh).val m with
    | error e =>
        rw [hx] at h
        cases h
        exact parseCie_errors _ hx
    | ok _ => rw [hx] at h; cases h
  · cases hx : (parseFde sec ptr (headAt m ptr).id (ptr + 4 + 4) (headAt m ptr).stop isEh
        cies).val m with
    | error e =>
        rw [hx] at h
        cases h
        exact parseFde_errors _ hx
    | ok _ => rw [hx] at h; cases h

/-! ### One turn -/

/-- The note of what is read for the entry at a cursor. -/
def entryNote (m : ByteMem) (sec : Section) (isEh : Bool) (s : SectionState) : EntryAccesses :=
  ⟨sec, s.ptr, u32At m s.ptr, (parseEntry sec isEh s.tables.cies s.ptr).accesses m⟩

/-- A turn that goes on has decoded the entry at the cursor and stored its record. -/
lemma sectionTurn_next {s s' : SectionState} :
    sectionTurn m sec isEh s = .next s' ↔
      AtEntry m sec s.ptr ∧ (headAt m s.ptr).stop ≤ sec.stop ∧
        s'.ptr = (headAt m s.ptr).stop ∧
        ∃ rec, DecodesTo m sec isEh s.tables.cies (headAt m s.ptr) rec ∧
          storeRecord (s.tables.noteEntry (entryNote m sec isEh s)) rec = (.ok, s'.tables) := by
  obtain ⟨ptr', t'⟩ := s'
  rw [sectionTurn]
  by_cases hp : s.ptr + 4 ≤ sec.stop
  swap
  · simp [hp, AtEntry]
  rw [if_pos hp]
  dsimp only
  cases hx : (parseEntry sec isEh s.tables.cies s.ptr).val m with
  | error e =>
      simp only [reduceCtorEq, false_iff]
      rintro ⟨⟨-, h0⟩, hs, -, rec, hd, -⟩
      rw [parseEntry_eq_some.mpr ⟨h0, hs, rfl, hd⟩] at hx
      cases hx
  | ok r =>
      cases r with
      | none =>
          have h0 := parseEntry_eq_none hx
          simp [AtEntry, h0]
      | some r =>
          obtain ⟨rec, stop⟩ := r
          obtain ⟨h0, hs, rfl, hd⟩ := parseEntry_eq_some.mp hx
          dsimp only
          constructor
          · intro h
            refine ⟨⟨hp, h0⟩, hs, ?_⟩
            split at h
            · next t hst =>
                cases h
                exact ⟨rfl, rec, hd, hst⟩
            · cases h
          · rintro ⟨-, -, rfl, rec', hd', hst⟩
            have hrec := parseEntry_eq_some.mpr ⟨h0, hs, rfl, hd'⟩
            rw [hx] at hrec
            cases hrec
            rw [entryNote] at hst
            rw [hst]

/-- A turn that ends the section well is past the last entry, and stores nothing. -/
lemma sectionTurn_done_ok {s : SectionState} {t : ParseState}
    (h : sectionTurn m sec isEh s = .done (.ok, t)) :
    ¬ AtEntry m sec s.ptr ∧
      (t = s.tables ∨ t = s.tables.noteEntry (entryNote m sec isEh s)) := by
  rw [sectionTurn] at h
  by_cases hp : s.ptr + 4 ≤ sec.stop
  swap
  · rw [if_neg hp] at h
    cases h
    exact ⟨fun h => hp h.1, .inl rfl⟩
  rw [if_pos hp] at h
  dsimp only at h
  cases hx : (parseEntry sec isEh s.tables.cies s.ptr).val m with
  | error e =>
      rw [hx] at h
      cases h
      exact absurd rfl (parseEntry_errors _ hx).ne_ok
  | ok r =>
      rw [hx] at h
      rcases r with _ | ⟨rec, stop⟩
      · cases h
        exact ⟨fun h => h.2 (parseEntry_eq_none hx), .inr rfl⟩
      · dsimp only at h
        rcases hst : storeRecord (s.tables.noteEntry
          ⟨sec, s.ptr, u32At m s.ptr, (parseEntry sec isEh s.tables.cies s.ptr).accesses m⟩) rec
          with ⟨st, t'⟩
        rw [hst] at h
        cases st <;> cases h

/-! ### Storing a record -/

/-- Storing a record appends it to its table and leaves the other table alone. -/
lemma storeRecord_ok {t t' : ParseState} {rec : EntryRecord}
    (h : storeRecord t rec = (.ok, t')) :
    (∃ cie, rec = .cie cie ∧ vectorAppend t.heap t.cies cie = (.ok, t'.cies, t'.heap) ∧
      t'.fdes = t.fdes ∧ t'.entries = t.entries) ∨
    ∃ fde, rec = .fde fde ∧ vectorAppend t.heap t.fdes fde = (.ok, t'.fdes, t'.heap) ∧
      t'.cies = t.cies ∧ t'.entries = t.entries := by
  cases rec with
  | cie cie =>
      refine .inl ⟨cie, rfl, ?_⟩
      rw [storeRecord, cieVectorAppend] at h
      rcases hv : vectorAppend t.heap t.cies cie with ⟨st, v, hp⟩
      rw [hv] at h
      cases h
      exact ⟨rfl, rfl, rfl⟩
  | fde fde =>
      refine .inr ⟨fde, rfl, ?_⟩
      rw [storeRecord, fdeVectorAppend] at h
      rcases hv : vectorAppend t.heap t.fdes fde with ⟨st, v, hp⟩
      rw [hv] at h
      cases h
      exact ⟨rfl, rfl, rfl⟩

/-! ### Accepted sections -/

lemma run_ok_induction {P : List EntryHead → ParseState → Prop}
    (hnote : ∀ hs t e, P hs t → P hs (t.noteEntry e))
    (hstep : ∀ hs h t rec t', h.Reads m → P hs t → DecodesTo m sec isEh t.cies h rec →
      storeRecord t rec = (.ok, t') → P (hs ++ [h]) t')
    {n : ℕ} {s : SectionState} {t' : ParseState} {hs : List EntryHead}
    (h : run (sectionTurn m sec isEh) n s = some (.ok, t')) (hP : P hs s.tables) :
    P (hs ++ headsFrom m sec n s.ptr) t' := by
  induction n generalizing s hs with
  | zero => simp [run] at h
  | succ n ih =>
      rw [run] at h
      cases hturn : sectionTurn m sec isEh s with
      | done r =>
          rw [hturn] at h
          cases h
          obtain ⟨hat, ht⟩ := sectionTurn_done_ok hturn
          rw [headsFrom, if_neg hat, List.append_nil]
          rcases ht with rfl | rfl
          · exact hP
          · exact hnote _ _ _ hP
      | next s' =>
          rw [hturn] at h
          obtain ⟨hat, -, hptr, rec, hd, hst⟩ := sectionTurn_next.mp hturn
          have hP' := hstep hs (headAt m s.ptr) _ rec s'.tables rfl (hnote _ _ _ hP) hd hst
          have := ih h hP'
          rw [hptr, List.append_assoc, List.singleton_append] at this
          rwa [headsFrom, if_pos hat]

/-- The invariant rule for accepted sections: what holds at the start and is kept by every
entry that is decoded and stored holds at the end, of all the entries of the section. -/
theorem parseSection_ok_induction {P : List EntryHead → ParseState → Prop}
    (hnote : ∀ hs t e, P hs t → P hs (t.noteEntry e))
    (hstep : ∀ hs h t rec t', h.Reads m → P hs t → DecodesTo m sec isEh t.cies h rec →
      storeRecord t rec = (.ok, t') → P (hs ++ [h]) t')
    {t t' : ParseState} (h : parseSection m sec isEh t = (.ok, t')) (ht : P [] t) :
    P (entryHeads m sec) t' := by
  rw [parseSection] at h
  rw [entryHeads]
  by_cases h0 : sec.data = 0 ∨ sec.size = 0
  · rw [if_pos h0] at h ⊢
    cases h
    exact ht
  · rw [if_neg h0] at h ⊢
    cases hr : run (sectionTurn m sec isEh) (sec.size.toNat + 1) ⟨sec.data, t⟩ with
    | none => rw [hr] at h; cases h
    | some r =>
        rw [hr, Option.getD_some] at h
        subst h
        exact run_ok_induction hnote hstep hr ht

/-- An accepted build has accepted both sections, and has an FDE. -/
theorem cfiBuild_ok {heap : Heap} {secs : Sections}
    (h : (cfiBuild m heap secs).status = .ok) :
    ∃ t t', parseSection m secs.ehFrame true (.init heap) = (.ok, t) ∧
      parseSection m secs.debugFrame false t = (.ok, t') ∧ t'.fdes.records ≠ [] ∧
      cfiBuild m heap secs = .built t' := by
  rw [cfiBuild] at h ⊢
  rcases he : parseSection m secs.ehFrame true (.init heap) with ⟨st, t⟩
  rw [he] at h
  cases st
  case ok =>
    rcases hd : parseSection m secs.debugFrame false t with ⟨st, t'⟩
    dsimp only at h
    rw [hd] at h
    cases st
    case ok =>
      dsimp only at h ⊢
      by_cases h0 : t'.fdes.records.length = 0
      · rw [if_pos h0] at h
        cases h
      · rw [hd]
        dsimp only
        rw [if_neg h0]
        exact ⟨t, t', rfl, hd, by simpa using h0, rfl⟩
    all_goals cases h
  all_goals cases h

/-! ### Sections in user space -/

/-- A section that lies in the lower half of the address space, all that user space has. -/
def Section.Mapped (s : Section) : Prop := s.data.toNat + s.size.toNat ≤ 2 ^ 63

instance (s : Section) : Decidable s.Mapped := inferInstanceAs (Decidable (_ ≤ _))

lemma Section.Mapped.stop_toNat (h : sec.Mapped) :
    sec.stop.toNat = sec.data.toNat + sec.size.toNat := by
  rw [Section.Mapped] at h
  exact UInt64.toNat_add_of_lt (by omega)

lemma Section.Mapped.stop_le (h : sec.Mapped) : sec.stop.toNat ≤ 2 ^ 63 := by
  rw [h.stop_toNat]
  exact h

/-- In a mapped section the end of an entry is the sum it is meant to be. -/
lemma EntryHead.stop_toNat {h : EntryHead} (hlt : h.start.toNat ≤ 2 ^ 63) :
    h.stop.toNat = h.start.toNat + 4 + h.length.toNat := by
  have hl := h.length.toNat_lt
  have h4 : (h.start + 4).toNat = h.start.toNat + 4 :=
    UInt64.toNat_add_of_lt (by simp; omega)
  rw [EntryHead.stop, UInt64.toNat_add_of_lt (by rw [h4, UInt32.toNat_toUInt64]; omega), h4,
    UInt32.toNat_toUInt64]

/-- A turn of the loop moves the cursor forward, inside the section. -/
lemma sectionTurn_advance {s s' : SectionState} (hm : sec.Mapped) (hs : s.ptr ≤ sec.stop)
    (h : sectionTurn m sec isEh s = .next s') : s'.ptr ≤ sec.stop ∧
      s.ptr.toNat + 4 ≤ s'.ptr.toNat := by
  obtain ⟨-, hstop, hptr, -⟩ := sectionTurn_next.mp h
  have hle := hm.stop_le
  rw [UInt64.le_iff_toNat_le] at hs
  have := EntryHead.stop_toNat (h := headAt m s.ptr) (by rw [headAt_start]; omega)
  rw [hptr, this, headAt_start]
  exact ⟨hstop, by omega⟩

/-- The fuel of `parse_section` is enough in user space. -/
lemma run_sectionTurn (hm : sec.Mapped) (m : ByteMem) (isEh : Bool) (t : ParseState) :
    ∃ r, run (sectionTurn m sec isEh) (sec.size.toNat + 1) ⟨sec.data, t⟩ = some r := by
  have hstart : sec.data ≤ sec.stop := by
    rw [UInt64.le_iff_toNat_le, hm.stop_toNat]
    omega
  have hnext (s s' : SectionState) (hs : s.ptr ≤ sec.stop)
      (h : sectionTurn m sec isEh s = .next s') :
      s'.ptr ≤ sec.stop ∧ sec.stop.toNat - s'.ptr.toNat < sec.stop.toNat - s.ptr.toNat := by
    obtain ⟨hle, hadv⟩ := sectionTurn_advance hm hs h
    refine ⟨hle, ?_⟩
    rw [UInt64.le_iff_toNat_le] at hle
    omega
  refine run_of_variant (I := fun s : SectionState => s.ptr ≤ sec.stop)
    (μ := fun s => sec.stop.toNat - s.ptr.toNat) hnext hstart ?_
  show sec.stop.toNat - sec.data.toNat < _
  rw [hm.stop_toNat]
  omega

/-- A section in user space is parsed to its end: the loop ends, and `parseSection` is what
it ends with. -/
theorem parseSection_ends (hm : sec.Mapped) (h0 : ¬ (sec.data = 0 ∨ sec.size = 0))
    (t : ParseState) :
    Ends (sectionTurn m sec isEh) ⟨sec.data, t⟩ (parseSection m sec isEh t) := by
  obtain ⟨r, hr⟩ := run_sectionTurn hm m isEh t
  rw [parseSection, if_neg h0, hr, Option.getD_some]
  exact ends_of_run hr

/-! ### The states of a build -/

/-- The states of the loop over a section. -/
def sectionStates (m : ByteMem) (sec : Section) (isEh : Bool) (t : ParseState) :
    List SectionState :=
  if sec.data = 0 ∨ sec.size = 0 then []
  else visited (sectionTurn m sec isEh) (sec.size.toNat + 1) ⟨sec.data, t⟩

/-- Where the parser is: over which section, and in which state of its loop. -/
structure BuildState where
  isEh : Bool
  state : SectionState

/-- The states that a build passes through. -/
def buildStates (m : ByteMem) (heap : Heap) (secs : Sections) : List BuildState :=
  (sectionStates m secs.ehFrame true (.init heap)).map (⟨true, ·⟩) ++
    match parseSection m secs.ehFrame true (.init heap) with
    | (.ok, t) => (sectionStates m secs.debugFrame false t).map (⟨false, ·⟩)
    | _ => []

/-- The `.eh_frame` or the `.debug_frame`. -/
def Sections.frame (secs : Sections) (isEh : Bool) : Section :=
  if isEh then secs.ehFrame else secs.debugFrame

/-- The section that the parser is in. -/
def BuildState.frame (secs : Sections) (b : BuildState) : Section := secs.frame b.isEh

/-- The header of the entry that the parser is at. -/
def BuildState.head (m : ByteMem) (b : BuildState) : EntryHead := headAt m b.state.ptr

/-- The parser is at the length field of an entry, or of the terminator. -/
def BuildState.AtLength (secs : Sections) (b : BuildState) : Prop :=
  b.state.ptr + 4 ≤ (b.frame secs).stop

instance (secs : Sections) (b : BuildState) : Decidable (b.AtLength secs) :=
  inferInstanceAs (Decidable (_ ≤ _))

lemma mem_sectionStates_iff (hm : sec.Mapped) {t : ParseState} {s : SectionState} :
    s ∈ sectionStates m sec isEh t ↔
      ¬ (sec.data = 0 ∨ sec.size = 0) ∧ Reaches (sectionTurn m sec isEh) ⟨sec.data, t⟩ s := by
  rw [sectionStates]
  by_cases h0 : sec.data = 0 ∨ sec.size = 0
  · rw [if_pos h0]
    exact iff_of_false List.not_mem_nil fun h => h.1 h0
  · rw [if_neg h0, and_iff_right h0]
    constructor
    · exact reaches_of_mem_visited
    · intro hs
      obtain ⟨r, hr⟩ := run_sectionTurn hm m isEh t
      exact hs.mem_visited hr

/-- The cursor of a state of the loop lies in the section. -/
lemma ptr_of_mem_sectionStates (hm : sec.Mapped) {t : ParseState} {s : SectionState}
    (h : s ∈ sectionStates m sec isEh t) : sec.data ≤ s.ptr ∧ s.ptr ≤ sec.stop := by
  have hstart : sec.data ≤ sec.stop := by
    rw [UInt64.le_iff_toNat_le, hm.stop_toNat]
    omega
  refine ((mem_sectionStates_iff hm).mp h).2.invariant
    (I := fun s => sec.data ≤ s.ptr ∧ s.ptr ≤ sec.stop) ?_ ⟨UInt64.le_refl _, hstart⟩
  rintro s s' ⟨hlo, hhi⟩ hs
  obtain ⟨hhi', hadv⟩ := sectionTurn_advance hm hhi hs
  refine ⟨?_, hhi'⟩
  rw [UInt64.le_iff_toNat_le] at hlo ⊢
  omega

/-- The note of the entry at a state, if there is one. -/
def entryNotes (m : ByteMem) (sec : Section) (isEh : Bool) (s : SectionState) :
    List EntryAccesses :=
  if s.ptr + 4 ≤ sec.stop then [entryNote m sec isEh s] else []

/-- The tables after a turn, whether it goes on or ends the loop. -/
def turnTables : Turn SectionState (Status × ParseState) → ParseState
  | .next s => s.tables
  | .done r => r.2

lemma storeRecord_entries (t : ParseState) (rec : EntryRecord) :
    (storeRecord t rec).2.entries = t.entries := by
  cases rec <;> rfl

/-- A turn notes what it reads. -/
lemma sectionTurn_entries (m : ByteMem) (sec : Section) (isEh : Bool) (s : SectionState) :
    (turnTables (sectionTurn m sec isEh s)).entries =
      s.tables.entries ++ entryNotes m sec isEh s := by
  rw [sectionTurn, entryNotes]
  by_cases hp : s.ptr + 4 ≤ sec.stop
  swap
  · rw [if_neg hp, if_neg hp, List.append_nil]
    rfl
  rw [if_pos hp, if_pos hp]
  dsimp only
  rcases (parseEntry sec isEh s.tables.cies s.ptr).val m with st | _ | ⟨rec, stop⟩
  · rfl
  · rfl
  · have hentries := storeRecord_entries (s.tables.noteEntry (entryNote m sec isEh s)) rec
    rw [entryNote] at hentries
    dsimp only
    split <;> next h => rw [h] at hentries; exact hentries

/-- Parsing a section notes what is read in each of its states. -/
lemma parseSection_entries (hm : sec.Mapped) (t : ParseState) :
    (parseSection m sec isEh t).2.entries =
      t.entries ++ (sectionStates m sec isEh t).flatMap (entryNotes m sec isEh) := by
  rw [parseSection, sectionStates]
  by_cases h0 : sec.data = 0 ∨ sec.size = 0
  · rw [if_pos h0, if_pos h0, List.flatMap_nil, List.append_nil]
  rw [if_neg h0, if_neg h0]
  obtain ⟨r, hr⟩ := run_sectionTurn hm m isEh t
  rw [hr, Option.getD_some]
  refine run_collects (f := fun s => s.tables.entries) (h := fun r => r.2.entries) ?_ ?_ hr
  · intro s s' hs
    have hentries := sectionTurn_entries m sec isEh s
    rwa [hs] at hentries
  · intro s r hs
    have hentries := sectionTurn_entries m sec isEh s
    rwa [hs] at hentries

/-- A build notes what is read in each of its states. -/
theorem cfiBuild_entries {heap : Heap} {secs : Sections} (heh : secs.ehFrame.Mapped)
    (hdbg : secs.debugFrame.Mapped) :
    (cfiBuild m heap secs).entries = (buildStates m heap secs).flatMap fun b =>
      entryNotes m (b.frame secs) b.isEh b.state := by
  have he : (parseSection m secs.ehFrame true (.init heap)).2.entries = _ :=
    parseSection_entries heh (.init heap)
  rw [cfiBuild, buildStates, List.flatMap_append, List.flatMap_map]
  generalize parseSection m secs.ehFrame true (.init heap) = x at he ⊢
  obtain ⟨st, t⟩ := x
  cases st
  case ok =>
    have hd : (parseSection m secs.debugFrame false t).2.entries = _ :=
      parseSection_entries hdbg t
    dsimp only at he hd ⊢
    rw [List.flatMap_map]
    generalize parseSection m secs.debugFrame false t = x at hd ⊢
    obtain ⟨st', t'⟩ := x
    dsimp only at hd ⊢
    rw [he] at hd
    cases st'
    case ok =>
      dsimp only
      by_cases h0 : t'.fdes.records.length = 0
      · rw [if_pos h0]
        exact hd
      · rw [if_neg h0]
        exact hd
    all_goals exact hd
  all_goals
    dsimp only
    rw [List.flatMap_nil, List.append_nil]
    exact he

end Dwunw
