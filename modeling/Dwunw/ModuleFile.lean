import Dwunw.Cfi.FrameInfo
import Dwunw.DwarfIndex
import Dwunw.Elf.Contents
import Dwunw.Transparency
import Dwunw.WholeStack

/-!
From the bytes of a file to the frames of a capture.

A module is built with call frame information, its file is read into memory, the index is made of
the section there, the cache keeps the index, and a capture walks the stack by it.

* `HasFrames`: a file whose `.debug_frame` is that of a list of entries.
* `fileLoader`, `fileLoader_load`: opening the file and making the index, as the cache does it.
* `moduleRow`, `TablesLoaded.rowAt`: the row of an address, from the entries and from the index.
* `fileIndex_rows`: what the loader makes of a file has the rows of its entries.
* `ModuleChain`: a stack of calls by the rows of the entries.
* `fileCapture_follows_iff`: in every history of a context, a capture of such a module writes the
  frames of such a stack exactly when no frame is counted from a stale stack pointer.
-/

namespace Dwunw

open CallFrame Elf Traced

variable {m : ByteMem} {c : FileClass} {file : List UInt8} {es : List (Entry 8)}
  {tail : List UInt8} {path : CString}

/-! ### Files -/

/-- A well-formed file with a `.debug_info` and no `.eh_frame`, whose `.debug_frame` has these
entries, with nothing or a terminator and any bytes behind them. -/
structure HasFrames (c : FileClass) (file : List UInt8) (es : List (Entry 8)) (tail : List UInt8) :
    Prop where
  wellFormed : WellFormed c file
  info : ∃ s, Elf.lookup c file debugInfoName = some s ∧ AcceptedRange file s
  frame : ∃ s, Elf.lookup c file debugFrameName = some s ∧ s.Plain ∧
    Elf.contents file s = frameSection es ++ tail
  noEhFrame : Elf.lookup c file ehFrameName = none
  trailer : IsTrailer tail

/-- The file is read into memory of user space. -/
structure ReadIn (calls : ElfCalls) (m : ByteMem) (file : List UInt8) : Prop extends
    Loads calls m file where
  user : (calls.malloc (UInt64.ofNat file.length)).toNat + file.length ≤ 2 ^ 63

/-- The sections that the loader collects of such a file. -/
lemma HasFrames.laidOut (path : CString) {image : UInt64} (h : HasFrames c file es tail)
    (hholds : Holds m image file) (himage : image ≠ 0)
    (huser : image.toNat + file.length ≤ 2 ^ 63) :
    ∃ sections, (elfCollectDwarf (some (openedHandle c file image path))).val m =
        .ok (.ok, sections) ∧ LaidOut m sections (es.map debugEntry) tail := by
  obtain ⟨info, hinfo, haccepted⟩ := h.info
  obtain ⟨s, hframe, hplain, hcontents⟩ := h.frame
  have hstored := h.wellFormed.stored s (lookup_mem hframe) hplain.1
  have hspan := span_sliceOf hholds (by omega) hstored
  have hsize : (sliceOf image s).size.toNat = s.size := by
    rw [sliceOf, UInt64.toNat_ofNat', Nat.mod_eq_of_lt (by omega)]
  have hdata : (sliceOf image s).data.toNat = image.toNat + s.offset :=
    UInt64.toNat_add_ofNat (by omega)
  refine ⟨⟨sliceOf image info, sliceOf image s, .null⟩,
    (collectDwarf_openedHandle hholds h.wellFormed (by omega)).mpr ?_, ⟨rfl, ?_, ?_, h.trailer, ?_⟩⟩
  · rw [hinfo, hframe, h.noEhFrame]
    exact ⟨Option.some_ne_none info, ⟨haccepted, rfl⟩, ⟨(Nat.mod_le _ _).trans hstored, rfl⟩, rfl⟩
  · intro hzero
    have := congrArg UInt64.toNat hzero
    rw [hdata, show (0 : UInt64).toNat = 0 from rfl] at this
    exact himage (UInt64.toNat_inj.mp (by rw [show (0 : UInt64).toNat = 0 from rfl]; omega))
  · rw [Section.Mapped]
    dsimp only
    omega
  · rw [hcontents] at hspan
    exact hspan

/-! ### Loading -/

/-- Opening a file and making its index, with an allocator that never fails. -/
def fileLoader (m : ByteMem) (calls : CString → ElfCalls) : Loader where
  elfOpen path := (elfOpen (calls path) (some path)).val m
  indexInit elf :=
    let r := dwarfIndexInit m (.fresh fun _ => true) .zero (some elf)
    if r.status ≠ .ok then .error r.status else .ok r.index

/-- An index is made of the tables of a build that comes out well. -/
lemma dwarfIndexInit_built {heap : Heap} {elf : ElfHandle} {sections : Sections}
    (hcollect : (elfCollectDwarf (some elf)).val m = .ok (.ok, sections))
    (hok : (cfiBuild m heap sections).status = .ok) :
    (dwarfIndexInit m heap .zero (some elf)).status = .ok ∧
      (dwarfIndexInit m heap .zero (some elf)).index.cies = (cfiBuild m heap sections).cies ∧
      (dwarfIndexInit m heap .zero (some elf)).index.fdes = (cfiBuild m heap sections).fdes := by
  have hreset : dwarfIndexReset heap .zero = (heap, .zero) := by
    rw [dwarfIndexReset, if_neg (by simp [DwarfIndex.zero, RecordTable.null])]
  rw [dwarfIndexInit, if_neg (Option.some_ne_none _), hreset]
  dsimp only
  rw [hcollect]
  dsimp only
  rw [if_neg (not_not.mpr rfl), dwarfIndexTables]
  dsimp only
  rw [if_neg fun hbad => hbad.1 hok]
  exact ⟨rfl, rfl, rfl⟩

/-- Such a file is loaded, with an index that has its entries. -/
theorem fileLoader_load {calls : CString → ElfCalls} (h : HasFrames c file es tail)
    (hw : Producible es) (hread : ReadIn (calls path) m file) :
    ∃ elf index, (fileLoader m calls).load path = .ok (elf, index) ∧
      TablesLoaded m es index.cies index.fdes := by
  obtain ⟨sections, hcollect, hlaid⟩ := h.laidOut path hread.holds hread.block hread.user
  have hgrants : ∀ n, (Heap.fresh fun _ => true).grants n = true := fun _ => rfl
  obtain ⟨hok, hloaded⟩ := cfiBuild_tablesLoaded hw hlaid hgrants
  obtain ⟨hstatus, hcies, hfdes⟩ := dwarfIndexInit_built hcollect hok
  refine ⟨openedHandle c file ((calls path).malloc (UInt64.ofNat file.length)) path, _, ?_,
    hcies ▸ hfdes ▸ hloaded⟩
  rw [Loader.load, fileLoader]
  dsimp only
  rw [elfOpen_openedHandle h.wellFormed hread.toLoads]
  dsimp only
  rw [if_neg (not_not.mpr hstatus)]

/-- No step of a capture by such an index is undefined. -/
lemma TablesLoaded.wellLinked {index : DwarfIndex} (h : TablesLoaded m es index.cies index.fdes)
    (hw : Producible es) : WellLinked index := by
  intro fde hfde
  obtain ⟨cie, hderef⟩ := Option.isSome_iff_exists.mp (h.linked fde hfde)
  refine ⟨cie, hderef, ?_⟩
  have hmem : cie ∈ index.cies.records := by
    rw [RecordTable.deref] at hderef
    split_ifs at hderef
    exact List.mem_of_getElem? hderef
  have hregs : ∀ cie ∈ index.cies.records, cie.returnReg.toNat < regsetSlots := by
    refine forall₂_right h.cies fun c hc cie hcie => ?_
    rw [hcie.returnReg]
    exact (hw.cies c hc).returnReg
  exact hregs cie hmem

/-! ### Rows -/

/-- A row, as it is applied to the slots of a snapshot. -/
def callerRow (row : Row) (base : Fin regsetSlots) : CallerRow where
  base := base
  offset := (Int64.ofInt row.cfaOffset).toUInt64
  saved i :=
    match row.rule i with
    | .offset k => some (Int64.ofInt k).toUInt64
    | _ => none

/-- The row that the entries have for an address, and the slot of the return address. -/
def moduleRow (es : List (Entry 8)) (pc : UInt64) : Option (CallerRow × Fin regsetSlots) :=
  (rowAt defaultRow es pc.toNat).bind fun (row, ra) =>
    row.cfaReg.bind fun base =>
      if h : base < regsetSlots ∧ ra < regsetSlots then
        some (callerRow row ⟨base, h.1⟩, ⟨ra, h.2⟩)
      else none

lemma moduleRow_eq_some {pc : UInt64} {row : CallerRow} {ra : Fin regsetSlots} :
    moduleRow es pc = some (row, ra) ↔ ∃ r, rowAt defaultRow es pc.toNat = some (r, ra.val) ∧
      r.cfaReg = some row.base.val ∧ row = callerRow r row.base := by
  simp only [moduleRow, Option.bind_eq_some_iff, Prod.exists]
  constructor
  · rintro ⟨r, ra', hr, base, hbase, hslots⟩
    split_ifs at hslots with hlt
    cases hslots
    exact ⟨r, hr, hbase, rfl⟩
  · rintro ⟨r, hr, hbase, hrow⟩
    refine ⟨r, ra.val, hr, row.base.val, hbase, ?_⟩
    rw [dif_pos ⟨row.base.isLt, ra.isLt⟩]
    exact congrArg some (Prod.ext hrow.symm rfl)

/-- The state of a row is described by it. -/
lemma describes_rowState {row : Row} {base : Fin regsetSlots} (hbase : row.cfaReg = some base.val) :
    (rowState row).Describes (callerRow row base) := by
  have hlt : base.val < 32 := base.isLt
  refine ⟨?_, rfl, fun i => ?_⟩
  · rw [rowState, hbase, cfaRegState, UInt16.toNat_ofNat', Nat.mod_eq_of_lt (by omega)]
    rfl
  · show (match row.rule i with
      | .offset k => some (Int64.ofInt k).toUInt64
      | _ => none) = if (ruleState (row.rule i)).kind = .offset then
        some (ruleState (row.rule i)).offset.toUInt64 else none
    cases row.rule i <;> rfl

/-- The index has the rows that the entries have. -/
theorem TablesLoaded.rowAt {index : DwarfIndex} (h : TablesLoaded m es index.cies index.fdes)
    (hw : Producible es) {pc : UInt64} {row : CallerRow} {ra : Fin regsetSlots}
    (hrow : moduleRow es pc = some (row, ra)) : RowAt m index pc row ra := by
  obtain ⟨r, hr, hbase, hrow⟩ := moduleRow_eq_some.mp hrow
  obtain ⟨i, fde, cie, hfind, hget, hderef, hra, hcfi⟩ :=
    h.rows hw hr (by rw [hbase]; exact Option.some_ne_none _)
  refine ⟨i, fde, cie, rowState r, hfind, hget, hderef, hra, hcfi, ?_⟩
  rw [hrow]
  exact describes_rowState hbase

/-- What the loader makes of such a file: an FDE is found for the addresses in the ranges of the
entries and for no other, and its row is the one that the entries have. -/
theorem fileIndex_rows {calls : CString → ElfCalls} (h : HasFrames c file es tail)
    (hw : Producible es) (hread : ReadIn (calls path) m file) :
    ∃ elf index, (fileLoader m calls).load path = .ok (elf, index) ∧
      (∀ pc, (cfiFindFde index.fdes.records pc).isSome ↔ ∃ f ∈ fdes es, f.Has pc.toNat) ∧
      ∀ pc row ra, moduleRow es pc = some (row, ra) → RowAt m index pc row ra := by
  obtain ⟨elf, index, hload, htables⟩ := fileLoader_load h hw hread
  exact ⟨elf, index, hload, htables.found_iff hw, fun _ _ _ hrow => htables.rowAt hw hrow⟩

/-! ### Captures -/

/-- A stack of `depth` calls: the registers of the callers by the rows of the entries, and their
return addresses. -/
structure ModuleChain (es : List (Entry 8)) (f : UInt64 → Except Status UInt64)
    (sp : Fin regsetSlots) (depth : ℕ) (rows : ℕ → CallerRow) (ra : ℕ → Fin regsetSlots)
    (pc : ℕ → UInt64) (callers : ℕ → Fin regsetSlots → UInt64) : Prop where
  row : ∀ i < depth, moduleRow es (pc i) = some (rows i, ra i)
  walk : StackWalk.Walk (readable f) sp depth rows callers
  returns : ∀ i < depth, pc (i + 1) = callers (i + 1) (ra i)
  ra_ne : ∀ i < depth, ra i ≠ sp

section Capture

variable {f : UInt64 → Except Status UInt64} {sp : Fin regsetSlots} {depth : ℕ}
  {rows : ℕ → CallerRow} {ras : ℕ → Fin regsetSlots} {pc : ℕ → UInt64}
  {callers : ℕ → Fin regsetSlots → UInt64} {k : Kernel} {req : UnwindRequest} {regs : Regset}
  {frames : ℕ → Frame} {calls : CString → ElfCalls} {calls₀ : List SysCall} {s : ContextRun}

end Capture

/-! ### A file of a module with frame pointers -/

/-- A slot as the operand of `DW_CFA_offset`. -/
def slotOperand (i : Fin regsetSlots) : Fin 64 := i.castLE (by decide)

/-- The rules of functions with frame pointers. -/
def framedCommon : Cie 8 :=
  ⟨1, -8, 16, [.defCfa (.ofNat 6) (.ofNat 16), .offset (slotOperand 6) (.ofNat 2),
    .offset (slotOperand 16) (.ofNat 1)]⟩

/-- Such functions, at the addresses from 0x1000 to 0x2000. -/
def framedEntries : List (Entry 8) := [.cie framedCommon, .fde ⟨0, 0x1000, 0x1000, []⟩]

/-- A file with these entries in its `.debug_frame`. -/
def framedFile : List UInt8 :=
  elf64File [shdr64 0 3 256 26, shdr64 1 1 256 4, shdr64 13 1 282 44]
    (0 :: (debugInfoName ++ 0 :: (debugFrameName ++ 0 :: frameSection framedEntries)))

def framedCalls : ElfCalls := ⟨3, some 326, fun _ => 0x10000, fun n => n.toNat⟩

lemma framedFile_hasFrames : HasFrames .elf64 framedFile framedEntries [] where
  wellFormed := ⟨by decide +kernel, by decide +kernel, by decide +kernel, by decide +kernel,
    by decide +kernel, by decide +kernel, by decide +kernel, by decide +kernel,
    by decide +kernel, by decide +kernel, by decide +kernel⟩
  info := ⟨⟨1, 1, 0, 256, 4⟩, by decide +kernel, by decide +kernel⟩
  frame := ⟨⟨13, 1, 0, 282, 44⟩, by decide +kernel, by decide +kernel, by decide +kernel⟩
  noEhFrame := by decide +kernel
  trailer := .inl rfl

lemma framedEntries_producible : Producible framedEntries where
  frame := by
    refine ⟨?_, ?_, ⟨by decide, trivial⟩, ⟨_, List.mem_cons_of_mem _ List.mem_cons_self⟩⟩
    · intro e he
      fin_cases he <;> decide +kernel
    · intro f hf
      simp only [framedEntries, List.map_cons, List.map_nil, debugEntry, List.mem_cons,
        reduceCtorEq, DebugEntry.fde.injEq, false_or, List.not_mem_nil, or_false] at hf
      subst hf
      decide +kernel
  steady := by
    rintro ⟨k, -, hlt⟩
    have hpos := Nat.one_le_two_pow (n := k)
    have hcount : framedEntries.countP Entry.isCie = 1 := rfl
    omega
  cies := by
    intro c hc
    fin_cases hc
    exact ⟨by decide, by decide, by decide, by decide +kernel⟩
  fdes := by
    intro f hf
    fin_cases hf
    exact ⟨by decide, by decide⟩
  tables := by
    intro f hf c hc
    fin_cases hf
    obtain rfl := Option.some.inj hc
    exact ⟨by decide +kernel, by decide +kernel⟩

lemma framedEntries_row {i : ℕ} (hi : i < 3) :
    moduleRow framedEntries (nestedPc i) = some (framedRow, 16) := by
  have hrow : rowAt defaultRow framedEntries (nestedPc i).toNat =
      some (framedCommon.initial defaultRow, 16) := by
    refine rowAt_eq_some.mpr ⟨⟨0, 0x1000, 0x1000, []⟩, framedCommon, ?_, rfl, ?_, rfl⟩
    · interval_cases i <;> rfl
    · interval_cases i <;> rfl
  have hsaved : ∀ j, framedRow.saved j =
      (callerRow (framedCommon.initial defaultRow) 6).saved j := by decide +kernel
  have hoffset : framedRow.offset =
      (callerRow (framedCommon.initial defaultRow) 6).offset := by decide +kernel
  exact moduleRow_eq_some.mpr ⟨_, hrow, by decide +kernel,
    StackWalk.Row.ext rfl hoffset (funext hsaved)⟩

lemma framedFile_readIn : ReadIn framedCalls (memOf 0x10000 framedFile) framedFile :=
  ⟨⟨by decide +kernel, by decide +kernel, by decide +kernel, by decide +kernel,
    by decide +kernel, holds_memOf _ (by decide +kernel)⟩, by decide +kernel⟩

/-- The loader when every path is that of the file. -/
def framedFileLoader : Loader := fileLoader (memOf 0x10000 framedFile) fun _ => framedCalls

/-- The row of a function that keeps a frame pointer. -/
theorem fileIndex_rows_framed :
    ∃ elf index, framedFileLoader.load [0x61] = .ok (elf, index) ∧
      RowAt (memOf 0x10000 framedFile) index (nestedPc 0) framedRow 16 := by
  have hindex : ∃ elf index, framedFileLoader.load [0x61] = .ok (elf, index) ∧ _ ∧
      ∀ pc row ra, moduleRow framedEntries pc = some (row, ra) →
        RowAt (memOf 0x10000 framedFile) index pc row ra :=
    fileIndex_rows framedFile_hasFrames framedEntries_producible framedFile_readIn
  obtain ⟨elf, index, hload, -, hrows⟩ := hindex
  exact ⟨elf, index, hload, hrows _ _ _ (framedEntries_row (by decide))⟩

end Dwunw
