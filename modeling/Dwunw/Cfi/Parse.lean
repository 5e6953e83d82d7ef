import Dwunw.Lib.Loop
import Dwunw.Cfi.Tables

/-!
The CFI parser of `src/dwarf/cfi.c`: `parse_cie`, `parse_fde`, `parse_section`,
`dwunw_cfi_build`, `dwunw_cfi_free` and `dwunw_cfi_find_fde`.

`parseCie` and `parseFde` decode one record; the append that ends the C functions is
`storeRecord`.  `parseEntry` is the body of the loop of `parse_section` up to that append, a
single computation over memory, so that one footprint and one two-run lemma cover everything
an entry reads.  `sectionTurn` is one turn of the loop.  Besides the tables the parse state
keeps a record of what was read for each entry.
-/

namespace Dwunw

open Loop

/-- `struct dwunw_dwarf_section`. -/
structure Section where
  data : UInt64
  size : UInt64
  deriving DecidableEq, Repr

/-- `section->data + section->size`. -/
def Section.stop (s : Section) : UInt64 := s.data + s.size

/-- `struct dwunw_dwarf_sections`. -/
structure Sections where
  debugInfo : Section
  debugFrame : Section
  ehFrame : Section
  deriving DecidableEq, Repr

/-- A section that is not there. -/
def Section.null : Section := ⟨0, 0⟩

/-! ### One CIE -/

/-- `strnlen`. -/
def strnlen (p : UInt64) : ℕ → Reader ℕ
  | 0 => pure 0
  | n + 1 => do
      let c ← .byte .entry p
      if c = 0 then pure 0
      else do
        let len ← strnlen (p + 1) n
        pure (len + 1)

/-- `rec->augmentation_len > 0 && rec->augmentation[0] == 'z'`. -/
def startsWithZ (via : Via) (cie : CieRecord) : Reader Bool :=
  if cie.augmentationLen = 0 then pure false
  else do
    let c ← .byte via cie.augmentation
    pure (c = 0x7a)

/-- The fields of a CIE in front of its augmentation data, and the cursor after them. -/
def parseCieHeader (sec : Section) (entryStart payload entryEnd : UInt64) (isEh : Bool) :
    Reader (CieRecord × UInt64) :=
  if entryEnd ≤ payload then .fail .badFormat
  else do
    let version ← .byte .entry payload
    let augmentation := payload + 1
    let augLen ← strnlen augmentation (entryEnd - augmentation).toNat
    if entryEnd ≤ augmentation + UInt64.ofNat augLen then .fail .badFormat
    else do
      let (codeAlign, payload) ←
        readUleb (augmentation + (UInt64.ofNat augLen + 1)) entryEnd
      let (dataAlign, payload) ← readSleb payload entryEnd
      let (returnReg, payload) ← readUleb payload entryEnd
      let cie : CieRecord :=
        { version
          addressSize := 8
          returnReg := returnReg.toUInt8
          ptrEncoding := dwEhPeAbsptr
          dataAlign
          codeAlign
          offset := entryStart - sec.data
          augmentation
          augmentationLen := UInt64.ofNat augLen
          instructions := 0
          instructionsSize := 0 }
      if !isEh ∧ 3 ≤ version then
        if entryEnd < payload + 2 then .fail .badFormat
        else do
          let addressSize ← .byte .entry payload
          -- the segment selector size is skipped, not read
          pure ({ cie with addressSize }, payload + 2)
      else pure (cie, payload)

/-- The length of the augmentation data: the cursor after it and the end of the data.  The
end is compared after a 64-bit sum. -/
def readAugmentationSize (payload entryEnd : UInt64) : Reader (UInt64 × UInt64) := do
  let (augSize, payload) ← readUleb payload entryEnd
  if entryEnd < payload + augSize then .fail .badFormat
  else pure (payload, payload + augSize)

/-- The loop over the augmentation letters after `z`: the first argument counts the letters
that are left, and the result is the pointer encoding. -/
def augmentationLoop (augmentation augEnd : UInt64) :
    ℕ → UInt64 → UInt64 → UInt8 → Reader UInt8
  | 0, _, _, ptrEncoding => pure ptrEncoding
  | n + 1, i, payload, ptrEncoding => do
      let c ← .byte .entry (augmentation + i)
      if c = 0x52 then
        if augEnd ≤ payload then .fail .badFormat
        else do
          let ptrEncoding ← .byte .entry payload
          augmentationLoop augmentation augEnd n (i + 1) (payload + 1) ptrEncoding
      else pure ptrEncoding

/-- `parse_cie` up to its `cie_vector_append`. -/
def parseCie (sec : Section) (entryStart payload entryEnd : UInt64) (isEh : Bool) :
    Reader CieRecord := do
  let (cie, payload) ← parseCieHeader sec entryStart payload entryEnd isEh
  let z ← startsWithZ .entry cie
  if z then do
    let (payload, augEnd) ← readAugmentationSize payload entryEnd
    let ptrEncoding ← augmentationLoop cie.augmentation augEnd
      (cie.augmentationLen.toNat - 1) 1 payload cie.ptrEncoding
    pure { cie with
      ptrEncoding
      instructions := augEnd
      instructionsSize := entryEnd - augEnd }
  else pure { cie with
    instructions := payload
    instructionsSize := entryEnd - payload }

/-! ### One FDE -/

/-- The offset of the CIE an FDE asks for.  In `.eh_frame` it is counted back from the
payload, the address after the CIE pointer. -/
def fdeCieOffset (sec : Section) (ciePointer : UInt32) (payload : UInt64) (isEh : Bool) :
    UInt64 :=
  if isEh then (payload - sec.data) - ciePointer.toUInt64 else ciePointer.toUInt64

/-- The two addresses of an FDE, and the cursor after them. -/
def parseFdeRange (sec : Section) (encoding : UInt8) (payload entryEnd : UInt64) :
    Reader (UInt64 × UInt64 × UInt64) := do
  let (pcBegin, payload) ← readEncodedPointer encoding payload sec.data entryEnd
  let (pcRange, payload) ← readEncodedPointer (encoding &&& 0x0f) payload sec.data entryEnd
  pure (pcBegin, pcRange, payload)

/-- `parse_fde` up to its `fde_vector_append`. -/
def parseFde (sec : Section) (entryStart : UInt64) (ciePointer : UInt32)
    (payload entryEnd : UInt64) (isEh : Bool) (cies : CieVector) : Reader FdeRecord :=
  match findCie cies (fdeCieOffset sec ciePointer payload isEh) with
  | none => .fail .badFormat
  | some (ptr, cie) => do
      let encoding := if cie.ptrEncoding ≠ 0 then cie.ptrEncoding else dwEhPeAbsptr
      let (pcBegin, pcRange, payload) ← parseFdeRange sec encoding payload entryEnd
      let fde : FdeRecord :=
        { cie := ptr
          offset := entryStart - sec.data
          pcBegin
          pcRange
          instructions := 0
          instructionsSize := 0 }
      let z ← startsWithZ .parent cie
      if z then do
        let (_, augEnd) ← readAugmentationSize payload entryEnd
        pure { fde with instructions := augEnd, instructionsSize := entryEnd - augEnd }
      else pure { fde with instructions := payload, instructionsSize := entryEnd - payload }

/-! ### A section -/

/-- The `uint32_t` at an address, as `read_u32` returns it. -/
def u32At (m : ByteMem) (ptr : UInt64) : UInt32 :=
  UInt32.ofNat (leNat (peek m 4 ptr))

/-- What an entry decodes to. -/
inductive EntryRecord where
  | cie (cie : CieRecord)
  | fde (fde : FdeRecord)
  deriving DecidableEq, Repr

/-- Whether the id field makes the entry a CIE. -/
def isCieId (isEh : Bool) (id : UInt32) : Bool :=
  (isEh && id == 0) || (!isEh && id == 0xffffffff)

/-- One entry of a section: `none` at the terminator, otherwise the record and the end of the
entry. -/
def parseEntry (sec : Section) (isEh : Bool) (cies : CieVector) (ptr : UInt64) :
    Reader (Option (EntryRecord × UInt64)) := do
  let length ← readU32 ptr
  if length = 0 then pure none
  else if sec.stop < ptr + 4 + length.toUInt64 then .fail .badFormat
  else do
    let id ← readU32 (ptr + 4)
    if isCieId isEh id then do
      let cie ← parseCie sec ptr (ptr + 4 + 4) (ptr + 4 + length.toUInt64) isEh
      pure (some (.cie cie, ptr + 4 + length.toUInt64))
    else do
      let fde ← parseFde sec ptr id (ptr + 4 + 4) (ptr + 4 + length.toUInt64) isEh cies
      pure (some (.fde fde, ptr + 4 + length.toUInt64))

/-- What was read for one entry: its section, its start, its declared length, and the
accesses. -/
structure EntryAccesses where
  sec : Section
  start : UInt64
  length : UInt32
  accesses : List (Via × UInt64)

/-- The state the parser carries through both sections. -/
structure ParseState where
  cies : CieVector
  fdes : FdeVector
  heap : Heap
  entries : List EntryAccesses

/-- The state of the loop of `parse_section`. -/
structure SectionState where
  ptr : UInt64
  tables : ParseState

/-- The append that ends `parse_cie` and `parse_fde`. -/
def storeRecord (t : ParseState) : EntryRecord → Status × ParseState
  | .cie cie =>
      let (st, cies, heap) := cieVectorAppend t.heap t.cies cie
      (st, { t with cies, heap })
  | .fde fde =>
      let (st, fdes, heap) := fdeVectorAppend t.heap t.fdes fde
      (st, { t with fdes, heap })

/-- Note what an entry read. -/
def ParseState.noteEntry (t : ParseState) (e : EntryAccesses) : ParseState :=
  { t with entries := t.entries ++ [e] }

/-- One turn of the loop of `parse_section`. -/
def sectionTurn (m : ByteMem) (sec : Section) (isEh : Bool) (s : SectionState) :
    Turn SectionState (Status × ParseState) :=
  if s.ptr + 4 ≤ sec.stop then
    let x := parseEntry sec isEh s.tables.cies s.ptr
    let t := s.tables.noteEntry ⟨sec, s.ptr, u32At m s.ptr, x.accesses m⟩
    match x.val m with
    | .error st => .done (st, t)
    | .ok none => .done (.ok, t)
    | .ok (some (rec, entryEnd)) =>
        match storeRecord t rec with
        | (.ok, t) => .next ⟨entryEnd, t⟩
        | (st, t) => .done (st, t)
  else .done (.ok, s.tables)

/-- `parse_section`.  Each turn takes four bytes at least, so the size is fuel enough for a
section that does not reach the top of the address space. -/
def parseSection (m : ByteMem) (sec : Section) (isEh : Bool) (t : ParseState) :
    Status × ParseState :=
  if sec.data = 0 ∨ sec.size = 0 then (.ok, t)
  else (run (sectionTurn m sec isEh) (sec.size.toNat + 1) ⟨sec.data, t⟩).getD (.badFormat, t)

/-! ### Both sections -/

/-- What `dwunw_cfi_build` leaves behind: the status, the two tables with their counts, the
heap, and the record of the reads. -/
structure BuildResult where
  status : Status
  cies : RecordTable CieRecord
  fdes : RecordTable FdeRecord
  heap : Heap
  entries : List EntryAccesses

/-- `dwunw_cfi_free`. -/
def cfiFree (heap : Heap) (cies fdes : Block) : Heap := (heap.free cies).free fdes

/-- The state before the first section. -/
def ParseState.init (heap : Heap) : ParseState := ⟨.zero, .zero, heap, []⟩

/-- The error exits of `dwunw_cfi_build`. -/
def BuildResult.failed (st : Status) (t : ParseState) : BuildResult :=
  ⟨st, .null, .null, cfiFree t.heap t.cies.data t.fdes.data, t.entries⟩

/-- The way out of `dwunw_cfi_build` with both tables. -/
def BuildResult.built (t : ParseState) : BuildResult :=
  ⟨.ok, ⟨t.cies.data, t.cies.records⟩, ⟨t.fdes.data, t.fdes.records⟩, t.heap, t.entries⟩

/-- `dwunw_cfi_build`. -/
def cfiBuild (m : ByteMem) (heap : Heap) (secs : Sections) : BuildResult :=
  match parseSection m secs.ehFrame true (.init heap) with
  | (.ok, t) =>
      match parseSection m secs.debugFrame false t with
      | (.ok, t) => if t.fdes.records.length = 0 then .failed .noDebugData t else .built t
      | (st, t) => .failed st t
  | (st, t) => .failed st t

/-- `dwunw_cfi_find_fde`: the index of the record it returns a pointer to. -/
def cfiFindFde (fdes : List FdeRecord) (pc : UInt64) : Option ℕ :=
  fdes.findIdx? fun fde => decide (fde.pcBegin ≤ pc) && decide (pc < fde.pcBegin + fde.pcRange)

end Dwunw
