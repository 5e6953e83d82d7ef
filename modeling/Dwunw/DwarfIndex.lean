import Dwunw.Cfi.Ownership
import Dwunw.Elf.Contents

/-!
The index of a module, of `src/dwarf/dwarf_index.c`.

`dwunw_dwarf_index_init` collects the sections into the index and then builds the tables; a build
that fails for want of frame data leaves an index without tables, and everything else is an
error.

* `dwarfIndexReset`, `dwarfIndexInit`: the two functions.
* `BuildAllOrNothing`, `cfiBuild_allOrNothing`: a build hands out all records or none, and the
  index is complete or without tables when it succeeds.
* `ClearedOnFailure`, `clearedOnFailure_iff`: a failing index is empty exactly when nothing fails
  behind the lookup of `.debug_info` (`LateFailure`).
-/

namespace Dwunw

open Traced

/-- What `dwunw_dwarf_index_init` leaves behind. -/
structure IndexResult where
  status : Status
  index : DwarfIndex
  heap : Heap

/-- `dwunw_dwarf_index_reset`. -/
def dwarfIndexReset (heap : Heap) (index : DwarfIndex) : Heap × DwarfIndex :=
  (if index.cies.data ≠ none ∨ index.fdes.data ≠ none then
    cfiFree heap index.cies.data index.fdes.data else heap, .zero)

/-- The part of `dwunw_dwarf_index_init` behind the collection: the tables. -/
def dwarfIndexTables (m : ByteMem) (heap : Heap) (index : DwarfIndex) : IndexResult :=
  let b := cfiBuild m heap index.sections
  let index := { index with cies := b.cies, fdes := b.fdes }
  if b.status ≠ .ok ∧ b.status ≠ .noDebugData ∧ b.status ≠ .notImplemented ∧
      b.status ≠ .badFormat then ⟨b.status, index, b.heap⟩
  else ⟨.ok, { index with flags := 0 }, b.heap⟩

/-- `dwunw_dwarf_index_init`; a handle is `none` where it is `NULL`.  The computation of the
sections does not fail, but returns its status with them. -/
def dwarfIndexInit (m : ByteMem) (heap : Heap) (index : DwarfIndex) (handle : Option ElfHandle) :
    IndexResult :=
  if handle = none then ⟨.invalidArg, index, heap⟩
  else
    let (heap, index) := dwarfIndexReset heap index
    match (elfCollectDwarf handle).val m with
    | .error st => ⟨st, index, heap⟩
    | .ok (st, sections) =>
        let index := { index with sections }
        if st ≠ .ok then ⟨st, index, heap⟩ else dwarfIndexTables m heap index

variable {m : ByteMem} {heap : Heap} {secs : Sections} {h : ElfHandle}

/-! ### Tables -/

/-- The tables hold one record for each entry of `.eh_frame` and then of `.debug_frame`, in
order. -/
structure Complete (m : ByteMem) (secs : Sections) (cies : RecordTable CieRecord)
    (fdes : RecordTable FdeRecord) : Prop where
  cieRecords : List.Forall₂ (ParsedFrom m) (cieOrigins (origins m secs)) cies.records
  fdeRecords : List.Forall₂ (LinkedFirst (cieOrigins (origins m secs)))
    (fdeOrigins (origins m secs)) fdes.records
  fdes_pos : 1 ≤ fdes.records.length

/-- A build hands out both tables, complete and with their blocks, or no table and no block. -/
structure BuildAllOrNothing (m : ByteMem) (heap : Heap) (secs : Sections) : Prop where
  failed : (cfiBuild m heap secs).status ≠ .ok →
    (cfiBuild m heap secs).cies = .null ∧ (cfiBuild m heap secs).fdes = .null ∧
      Owns heap (cfiBuild m heap secs).heap []
  built : (cfiBuild m heap secs).status = .ok →
    Complete m secs (cfiBuild m heap secs).cies (cfiBuild m heap secs).fdes ∧
      Owns heap (cfiBuild m heap secs).heap
        ((cfiBuild m heap secs).cies.data.toList ++ (cfiBuild m heap secs).fdes.data.toList) ∧
      (cfiBuild m heap secs).cies.data ≠ none ∧ (cfiBuild m heap secs).fdes.data ≠ none

/-- An index has complete tables or none. -/
def CompleteOrNone (m : ByteMem) (index : DwarfIndex) : Prop :=
  (index.cies = .null ∧ index.fdes = .null) ∨
    Complete m index.sections index.cies index.fdes

lemma cfiBuild_complete (hok : (cfiBuild m heap secs).status = .ok) :
    Complete m secs (cfiBuild m heap secs).cies (cfiBuild m heap secs).fdes :=
  ⟨(cfiBuild_tables hok).1, (cfiBuild_tables hok).2, (cfiBuild_built hok).2.2.2⟩

/-- The tables of an index are those of a build of its sections, whatever its status. -/
lemma dwarfIndexTables_index (m : ByteMem) (heap : Heap) (index : DwarfIndex) :
    (dwarfIndexTables m heap index).index.sections = index.sections ∧
      (dwarfIndexTables m heap index).index.cies = (cfiBuild m heap index.sections).cies ∧
      (dwarfIndexTables m heap index).index.fdes = (cfiBuild m heap index.sections).fdes := by
  rw [dwarfIndexTables]
  dsimp only
  split_ifs
  · exact ⟨rfl, rfl, rfl⟩
  · exact ⟨rfl, rfl, rfl⟩

lemma dwarfIndexTables_completeOrNone (m : ByteMem) (heap : Heap) (index : DwarfIndex) :
    CompleteOrNone m (dwarfIndexTables m heap index).index := by
  obtain ⟨hsections, hcies, hfdes⟩ := dwarfIndexTables_index m heap index
  rw [CompleteOrNone, hsections, hcies, hfdes]
  by_cases hok : (cfiBuild m heap index.sections).status = .ok
  · exact .inr (cfiBuild_complete hok)
  · obtain ⟨-, hnocies, hnofdes, -⟩ := cfiBuild_failed hok
    exact .inl ⟨hnocies, hnofdes⟩

/-- An index that is initialised has complete tables or none. -/
lemma dwarfIndexInit_completeOrNone {index : DwarfIndex} {handle : Option ElfHandle}
    (hok : (dwarfIndexInit m heap index handle).status = .ok) :
    CompleteOrNone m (dwarfIndexInit m heap index handle).index := by
  rw [dwarfIndexInit] at hok ⊢
  by_cases hnull : handle = none
  · rw [if_pos hnull] at hok
    cases hok
  rw [if_neg hnull] at hok ⊢
  dsimp only at hok ⊢
  cases hcollect : (elfCollectDwarf handle).val m with
  | error st => exact .inl ⟨rfl, rfl⟩
  | ok r =>
      dsimp only
      split_ifs with hst
      · exact .inl ⟨rfl, rfl⟩
      · exact dwarfIndexTables_completeOrNone m _ _

/-- A build is all or nothing, and so are the tables of an index. -/
theorem cfiBuild_allOrNothing (m : ByteMem) (heap : Heap) (secs : Sections) :
    BuildAllOrNothing m heap secs ∧
      ∀ index handle, (dwarfIndexInit m heap index handle).status = .ok →
        CompleteOrNone m (dwarfIndexInit m heap index handle).index := by
  refine ⟨⟨fun hfailed => (cfiBuild_failed hfailed).2, fun hok => ?_⟩,
    fun _ _ hok => dwarfIndexInit_completeOrNone hok⟩
  obtain ⟨howns, hcies, hfdes, -⟩ := cfiBuild_built hok
  exact ⟨cfiBuild_complete hok, howns, hcies, hfdes⟩

/-! ### Failures -/

/-- The image of a handle is a block of memory. -/
structure ElfHandle.InMemory (h : ElfHandle) : Prop where
  image_ne : h.image ≠ 0
  image_le : h.image.toNat + h.size.toNat < 2 ^ 64

/-- So is that of every file that is opened, where the allocator gives blocks of the address
space. -/
theorem ElfHandle.InMemory.of_open {calls : ElfCalls} {path : Option CString}
    (hmalloc : ∀ n, calls.malloc n ≠ 0 → (calls.malloc n).toNat + n.toNat < 2 ^ 64)
    (hopen : (elfOpen calls path).val m = .ok h) : h.InMemory := by
  obtain ⟨himage, hblock⟩ := elfOpen_image hopen
  refine ⟨himage, ?_⟩
  rw [hblock] at himage ⊢
  exact hmalloc h.size himage

/-- There is no section of this name, or its range is accepted. -/
def InRange (m : ByteMem) (h : ElfHandle) (name : CString) : Prop :=
  ∀ sh, headerOf m h name = some sh → RangeAccepted m h sh

/-- The slice of a section that may be missing. -/
def foundSlice (m : ByteMem) (h : ElfHandle) (name : CString) : Section :=
  (headerOf m h name).elim .null (sliceAt m h)

/-- What a collection fills in when nothing is out of range. -/
def collectedSections (m : ByteMem) (h : ElfHandle) : Sections :=
  ⟨foundSlice m h debugInfoName, foundSlice m h debugFrameName, foundSlice m h ehFrameName⟩

/-- An index of zero bytes that fails is of zero bytes again. -/
def ClearedOnFailure (m : ByteMem) (heap : Heap) (h : ElfHandle) : Prop :=
  (dwarfIndexInit m heap .zero (some h)).status ≠ .ok →
    (dwarfIndexInit m heap .zero (some h)).index = .zero

/-- `.debug_info` is found, and then a frame section is out of range or the build runs out of
memory. -/
def LateFailure (m : ByteMem) (heap : Heap) (h : ElfHandle) : Prop :=
  (∃ sh, headerOf m h debugInfoName = some sh ∧ RangeAccepted m h sh) ∧
    (¬ InRange m h debugFrameName ∨ ¬ InRange m h ehFrameName ∨
      (cfiBuild m heap (collectedSections m h)).status = .io)

lemma collectOptional_inRange {name : CString} (hname : InRange m h name) :
    (collectOptional (some h) name).val m = .ok (.ok, foundSlice m h name) := by
  rw [collectOptional, val_bind_ok (val_elfGetSection name .null), foundSlice]
  cases hsh : headerOf m h name with
  | none => rfl
  | some sh =>
      rw [lookupResult, if_pos (hname sh hsh)]
      rfl

lemma collectOptional_outOfRange {name : CString} (hname : ¬ InRange m h name) :
    (collectOptional (some h) name).val m = .ok (.badFormat, .null) := by
  obtain ⟨sh, hsh⟩ := not_forall.mp hname
  obtain ⟨hsh, hrejected⟩ := Classical.not_imp.mp hsh
  rw [collectOptional, val_bind_ok (val_elfGetSection name .null), hsh, lookupResult,
    if_neg hrejected]
  rfl

/-- A collection without `.debug_info` leaves nothing. -/
lemma elfCollectDwarf_noInfo
    (hinfo : ¬ ∃ sh, headerOf m h debugInfoName = some sh ∧ RangeAccepted m h sh) :
    ∃ st, st ≠ .ok ∧ (elfCollectDwarf (some h)).val m = .ok (st, ⟨.null, .null, .null⟩) := by
  rw [elfCollectDwarf, val_bind_ok (val_elfGetSection debugInfoName .null)]
  cases hsh : headerOf m h debugInfoName with
  | none => exact ⟨.noDebugData, by decide, rfl⟩
  | some sh =>
      rw [lookupResult, if_neg fun haccepted => hinfo ⟨sh, hsh, haccepted⟩]
      exact ⟨.badFormat, by decide, rfl⟩

/-- A collection with `.debug_info` fills in its slice, however it goes on. -/
lemma elfCollectDwarf_info {sh : UInt64} (hsh : headerOf m h debugInfoName = some sh)
    (haccepted : RangeAccepted m h sh) :
    (InRange m h debugFrameName ∧ InRange m h ehFrameName ∧
      (elfCollectDwarf (some h)).val m = .ok (.ok, collectedSections m h)) ∨
    ((¬ InRange m h debugFrameName ∨ ¬ InRange m h ehFrameName) ∧ ∃ sections,
      (elfCollectDwarf (some h)).val m = .ok (.badFormat, sections) ∧
        sections.debugInfo = sliceAt m h sh) := by
  have hinfo : (elfGetSection (some h) (some debugInfoName) .null).val m =
      .ok (.ok, sliceAt m h sh) := by
    rw [val_elfGetSection, hsh, lookupResult, if_pos haccepted]
  have hslice : foundSlice m h debugInfoName = sliceAt m h sh := by
    rw [foundSlice, hsh]
    rfl
  rw [elfCollectDwarf, val_bind_ok hinfo]
  dsimp only
  rw [if_neg (not_not.mpr rfl)]
  by_cases hframe : InRange m h debugFrameName
  swap
  · rw [val_bind_ok (collectOptional_outOfRange hframe)]
    exact .inr ⟨.inl hframe, _, rfl, rfl⟩
  rw [val_bind_ok (collectOptional_inRange hframe)]
  dsimp only
  rw [if_neg (not_not.mpr rfl)]
  by_cases heh : InRange m h ehFrameName
  · rw [val_bind_ok (collectOptional_inRange heh), collectedSections, hslice]
    exact .inl ⟨hframe, heh, rfl⟩
  · rw [val_bind_ok (collectOptional_outOfRange heh)]
    exact .inr ⟨.inr heh, _, rfl, rfl⟩

/-- A slice that is accepted is not the empty descriptor. -/
lemma sliceAt_ne_null (hmem : h.InMemory) {sh : UInt64} (haccepted : RangeAccepted m h sh) :
    sliceAt m h sh ≠ .null := by
  intro hnull
  have hblock := hmem.image_le
  have hdata : h.image + shOffsetAt m h sh = 0 := congrArg Section.data hnull
  have hsize : shSizeAt m h sh = 0 := congrArg Section.size hnull
  rw [RangeAccepted, hsize, UInt64.add_zero, UInt64.not_lt, UInt64.le_iff_toNat_le] at haccepted
  have hnat := congrArg UInt64.toNat hdata
  rw [UInt64.toNat_add, Nat.mod_eq_of_lt (by omega), show (0 : UInt64).toNat = 0 from rfl] at hnat
  exact hmem.image_ne (UInt64.toNat_inj.mp (by rw [show (0 : UInt64).toNat = 0 from rfl]; omega))

/-- The tables of an index fail when the build runs out of memory, and the sections stay. -/
lemma dwarfIndexTables_status (m : ByteMem) (heap : Heap) (index : DwarfIndex) :
    (dwarfIndexTables m heap index).status ≠ .ok ↔
      (cfiBuild m heap index.sections).status = .io := by
  have herror : (cfiBuild m heap index.sections).status ≠ .ok →
      BuildError (cfiBuild m heap index.sections).status := fun hne => (cfiBuild_failed hne).1
  rw [dwarfIndexTables]
  generalize cfiBuild m heap index.sections = b at *
  obtain ⟨st, cies, fdes, hp, entries⟩ := b
  dsimp only at herror ⊢
  constructor
  · intro hfailed
    split_ifs at hfailed with hst
    · rcases herror hst.1 with (hbad | hnot) | hio | hno
      · exact absurd hbad hst.2.2.2
      · exact absurd hnot hst.2.2.1
      · exact hio
      · exact absurd hno hst.2.1
    · exact absurd rfl hfailed
  · rintro rfl
    rw [if_pos (by decide)]
    exact (by decide : Status.io ≠ .ok)

/-- A failing index is empty exactly when nothing fails behind the lookup of `.debug_info`. -/
theorem clearedOnFailure_iff (hmem : h.InMemory) :
    ClearedOnFailure m heap h ↔ ¬ LateFailure m heap h := by
  have hsome : some h ≠ none := Option.some_ne_none h
  have hreset : dwarfIndexReset heap .zero = (heap, .zero) := by
    rw [dwarfIndexReset, if_neg (by simp [DwarfIndex.zero, RecordTable.null])]
  rw [ClearedOnFailure, dwarfIndexInit, if_neg hsome, hreset]
  dsimp only
  by_cases hinfo : ∃ sh, headerOf m h debugInfoName = some sh ∧ RangeAccepted m h sh
  swap
  · obtain ⟨st, hst, hcollect⟩ := elfCollectDwarf_noInfo hinfo
    rw [hcollect]
    dsimp only
    rw [if_pos hst]
    exact iff_of_true (fun _ => rfl) fun hlate => hinfo hlate.1
  obtain ⟨sh, hsh, haccepted⟩ := hinfo
  -- an index with this slice is not empty
  have hne {index : DwarfIndex} (hslice : index.sections.debugInfo = sliceAt m h sh) :
      index ≠ .zero := by
    rintro rfl
    exact sliceAt_ne_null hmem haccepted hslice.symm
  rcases elfCollectDwarf_info hsh haccepted with
    ⟨hframe, heh, hcollect⟩ | ⟨hrange, sections, hcollect, hslice⟩
  · rw [hcollect]
    dsimp only
    rw [if_neg (not_not.mpr rfl), dwarfIndexTables_status]
    have hslice : foundSlice m h debugInfoName = sliceAt m h sh := by
      rw [foundSlice, hsh]
      rfl
    have hkept := (dwarfIndexTables_index m heap
      { DwarfIndex.zero with sections := collectedSections m h }).1
    constructor
    · rintro hcleared ⟨-, hout | hout | hio⟩
      · exact hout hframe
      · exact hout heh
      · exact hne ((congrArg Sections.debugInfo hkept).trans hslice) (hcleared hio)
    · exact fun hnot hio => absurd ⟨⟨sh, hsh, haccepted⟩, .inr (.inr hio)⟩ hnot
  · rw [hcollect]
    dsimp only
    rw [if_pos (by decide)]
    have hfailed : Status.badFormat ≠ .ok := by decide
    refine iff_of_false (fun hcleared => hne hslice (hcleared hfailed)) (not_not.mpr ?_)
    exact ⟨⟨sh, hsh, haccepted⟩, hrange.imp_right .inl⟩

/-- A file with the section `.debug_info`, and an `.eh_frame` whose range is not in the file. -/
def cutFrameFile : List UInt8 :=
  elf64File [shdr64 0 3 256 23, shdr64 1 1 256 23, shdr64 13 1 256 4096]
    (0 :: (debugInfoName ++ 0 :: (ehFrameName ++ [0])))

/-- When the range of `.eh_frame` is not in the file, the section found before it stays in the
index. -/
theorem cutFrameFile_kept :
    (elfOpen debugOnlyCalls (some [0x61])).val (memOf 0x10000 cutFrameFile) =
        .ok (openedHandle .elf64 cutFrameFile 0x10000 [0x61]) ∧
      (dwarfIndexInit (memOf 0x10000 cutFrameFile) (.fresh fun _ => true) .zero
        (some (openedHandle .elf64 cutFrameFile 0x10000 [0x61]))).status = .badFormat ∧
      (dwarfIndexInit (memOf 0x10000 cutFrameFile) (.fresh fun _ => true) .zero
        (some (openedHandle .elf64 cutFrameFile 0x10000 [0x61]))).index.sections =
          ⟨⟨0x10100, 23⟩, .null, .null⟩ ∧
      ¬ ClearedOnFailure (memOf 0x10000 cutFrameFile) (.fresh fun _ => true)
        (openedHandle .elf64 cutFrameFile 0x10000 [0x61]) := by
  have hstatus : (dwarfIndexInit (memOf 0x10000 cutFrameFile) (.fresh fun _ => true) .zero
      (some (openedHandle .elf64 cutFrameFile 0x10000 [0x61]))).status = .badFormat := by
    decide +kernel
  have hsections : (dwarfIndexInit (memOf 0x10000 cutFrameFile) (.fresh fun _ => true) .zero
      (some (openedHandle .elf64 cutFrameFile 0x10000 [0x61]))).index.sections =
        ⟨⟨0x10100, 23⟩, .null, .null⟩ := by
    decide +kernel
  refine ⟨by decide +kernel, hstatus, hsections, fun hcleared => ?_⟩
  rw [hcleared (by rw [hstatus]; decide)] at hsections
  exact absurd hsections (by decide)

/-- When the first section is the one that is not in the file, nothing stays. -/
theorem farInfo_cleared :
    ClearedOnFailure (memOf 0x10000 (infoFile 192 4096)) (.fresh fun _ => true) infoHandle := by
  refine (clearedOnFailure_iff ⟨by decide, by decide⟩).mpr ?_
  rintro ⟨⟨sh, hsh, haccepted⟩, -⟩
  have hheader : headerOf (memOf 0x10000 (infoFile 192 4096)) infoHandle debugInfoName =
      some 0x10080 := by
    decide +kernel
  rw [hheader, Option.some.injEq] at hsh
  subst hsh
  exact absurd haccepted (by decide +kernel)

end Dwunw
