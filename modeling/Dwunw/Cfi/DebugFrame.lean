import Dwunw.Cfi.Layout

/-!
The `.debug_frame` round trip.

* `DebugEntry`: a version-1 CIE without augmentation, or an FDE that names a CIE by its
  number; `debugFrameBytes` lays a list of them out.
* `FdeMatches`, `RoundTrip`: the tables say what the entries said.
* `parseFde_laid`: `parse_fde` on a laid-out FDE.
* `ends_debugFrame`: the loop of `parse_section` from any point of a laid-out section on, by
  induction over the entries that are left.
* `cfiBuild_debugFrame`: `dwunw_cfi_build` inverts the layout.
-/

namespace Dwunw

open Leb128 Loop Traced

variable {m : ByteMem} {sec : Section}

/-! ### Entries of `.debug_frame` -/

/-- A version-1 CIE without augmentation. -/
structure DebugCie where
  codeAlign : UInt64
  dataAlign : Int64
  returnReg : Fin 32
  instructions : List UInt8

/-- An FDE: the number of its CIE among the CIEs of the list, its range and its program. -/
structure DebugFde where
  cie : ℕ
  pcBegin : UInt64
  pcRange : UInt64
  instructions : List UInt8

inductive DebugEntry where
  | cie (c : DebugCie)
  | fde (f : DebugFde)

/-- The fields of the CIE as the layout takes them. -/
def DebugCie.body (c : DebugCie) : CieBody :=
  { version := 1
    augmentation := none
    codeAlign := c.codeAlign
    dataAlign := c.dataAlign
    returnReg := UInt8.ofNat c.returnReg
    instructions := c.instructions }

/-- The FDE behind its CIE pointer, with 8-byte addresses. -/
def DebugFde.bytes (f : DebugFde) : List UInt8 :=
  leBytes 8 f.pcBegin.toNat ++ (leBytes 8 f.pcRange.toNat ++ f.instructions)

def DebugEntry.frame : DebugEntry → FrameEntry
  | .cie c => .cie c.body
  | .fde f => .fde f.cie f.bytes

/-- The layout of a `.debug_frame` section. -/
def debugFrameBytes (es : List DebugEntry) : List UInt8 := frameBytes false (es.map (·.frame))

/-- The CIEs of a list with their offsets. -/
def debugCies (offset : ℕ) : List DebugEntry → List (ℕ × DebugCie)
  | [] => []
  | .cie c :: es => (offset, c) :: debugCies (offset + (DebugEntry.cie c).frame.size) es
  | .fde f :: es => debugCies (offset + (DebugEntry.fde f).frame.size) es

/-- The FDEs of a list with their offsets. -/
def debugFdes (offset : ℕ) : List DebugEntry → List (ℕ × DebugFde)
  | [] => []
  | .cie c :: es => debugFdes (offset + (DebugEntry.cie c).frame.size) es
  | .fde f :: es => (offset, f) :: debugFdes (offset + (DebugEntry.fde f).frame.size) es

/-- The list can be written in 32-bit DWARF format: no length is reserved, every FDE names a
CIE in front of it, and the offset of a CIE that is named fits the pointer and is not the id
of a CIE.  And there is an FDE. -/
structure DebugFrameWellFormed (es : List DebugEntry) : Prop where
  lengths : ∀ e ∈ es, 4 + e.frame.body.length < maxEntryLength
  pointers : ∀ f, DebugEntry.fde f ∈ es →
    (cieOffsets (es.map (·.frame))).getD f.cie 0 < 0xffffffff
  names : NamesEarlier 0 (es.map (·.frame))
  hasFde : ∃ f, DebugEntry.fde f ∈ es

/-- The record of an FDE that lies in memory: its own fields, where its program is, and the
place of its CIE in the table. -/
structure FdeMatches (m : ByteMem) (offset : ℕ) (f : DebugFde) (fde : FdeRecord) : Prop where
  cie : fde.cie.index = f.cie
  offset : fde.offset = UInt64.ofNat offset
  pcBegin : fde.pcBegin = f.pcBegin
  pcRange : fde.pcRange = f.pcRange
  instructions : Holds m fde.instructions f.instructions
  instructionsSize : fde.instructionsSize = UInt64.ofNat f.instructions.length

/-- The tables hold the entries of the list: in list order, each with its fields, and each FDE
with the index of the CIE that it names. -/
structure RoundTrip (m : ByteMem) (es : List DebugEntry) (r : BuildResult) : Prop where
  status : r.status = .ok
  cies : List.Forall₂ (fun c cie => CieMatches m c.1 c.2.body cie) (debugCies 0 es)
    r.cies.records
  fdes : List.Forall₂ (fun f fde => FdeMatches m f.1 f.2 fde) (debugFdes 0 es) r.fdes.records
  linked : ∀ fde ∈ r.fdes.records, ∃ cie, r.cies.records[fde.cie.index]? = some cie

/-! ### The layout of a list -/

lemma laidCies_frame (offset : ℕ) (es : List DebugEntry) :
    laidCies offset (es.map (·.frame)) =
      (debugCies offset es).map fun c => (c.1, c.2.body) := by
  induction es generalizing offset with
  | nil => rfl
  | cons e es ih =>
      cases e with
      | cie c =>
          rw [List.map_cons, DebugEntry.frame, laidCies, ih]
          rfl
      | fde f =>
          rw [List.map_cons, DebugEntry.frame, laidCies, ih]
          rfl

lemma DebugCie.wellFormed (c : DebugCie) : c.body.WellFormed false := by
  have hlt : c.returnReg.val < 32 := c.returnReg.isLt
  have hreg : (UInt8.ofNat c.returnReg.val).toNat = c.returnReg.val :=
    UInt8.toNat_ofNat_of_lt' (Nat.lt_trans hlt (by decide))
  refine ⟨fun _ => (by decide : (1 : UInt8) < 3), ?_, by simp [DebugCie.body]⟩
  rw [DebugCie.body, UInt8.lt_iff_toNat_lt, hreg]
  exact Nat.lt_trans hlt (by decide)

/-- An FDE that names one of the `n` CIEs in front of it, or a later one as it comes. -/
lemma NamesEarlier.parent_lt {n : ℕ} (offset : ℕ) {es : List FrameEntry} (h : NamesEarlier n es)
    {k : ℕ} {body : List UInt8} (hk : FrameEntry.fde k body ∈ es) :
    k < n + (laidCies offset es).length := by
  induction es generalizing n offset with
  | nil => simp at hk
  | cons e es ih =>
      cases e with
      | cie c =>
          rw [laidCies, List.length_cons]
          have hk' : FrameEntry.fde k body ∈ es := by simpa using hk
          have := ih (offset + (FrameEntry.cie c).size) h hk'
          omega
      | fde k' body' =>
          rw [laidCies]
          rcases List.mem_cons.mp hk with heq | hk
          · cases heq
            have := h.1
            omega
          · exact ih _ h.2 hk

lemma debugFdes_ne_nil {offset : ℕ} {es : List DebugEntry} {f : DebugFde}
    (h : DebugEntry.fde f ∈ es) : debugFdes offset es ≠ [] := by
  induction es generalizing offset with
  | nil => simp at h
  | cons e es ih =>
      cases e with
      | cie c => exact ih (by simpa using h)
      | fde f' => exact List.cons_ne_nil _ _

lemma mem_frames_of_mem_debugFdes {offset : ℕ} {es : List DebugEntry} {f : ℕ × DebugFde}
    (h : f ∈ debugFdes offset es) :
    FrameEntry.fde f.2.cie f.2.bytes ∈ es.map (·.frame) := by
  induction es generalizing offset with
  | nil => simp [debugFdes] at h
  | cons e es ih =>
      rw [List.map_cons]
      cases e with
      | cie c => exact List.mem_cons_of_mem _ (ih h)
      | fde f' =>
          rcases List.mem_cons.mp h with rfl | h
          · exact List.mem_cons_self
          · exact List.mem_cons_of_mem _ (ih h)

/-! ### One FDE -/

/-- `read_encoded_pointer` on an 8-byte address. -/
lemma readEncodedPointer_absptr (start : UInt64) {c stop v : UInt64} {rest : List UInt8}
    (h : Span m c stop (leBytes 8 v.toNat ++ rest)) :
    ∃ c', (readEncodedPointer dwEhPeAbsptr c start stop).val m = .ok (v, c') ∧
      Span m c' stop rest := by
  obtain ⟨c', hread, hrest⟩ := readFixedSize_word h
  refine ⟨c', ?_, hrest⟩
  have hformat : (readPointerFormat (pointerFormat dwEhPeAbsptr) c stop).val m = .ok (v, c') := by
    rw [pointerFormat, if_pos rfl, readPointerFormat, if_pos rfl, hread]
  rw [readEncodedPointer, val_bind_ok hformat]
  dsimp only
  rw [if_pos (by decide), val_pure, UInt64.add_zero]

/-- `parse_fde` on a laid-out FDE of a CIE without augmentation. -/
theorem parseFde_laid {entryStart payload stop : UInt64} {id : UInt32} {cies : CieVector}
    {offset : ℕ} {f : DebugFde} {ptr : CiePtr} {cie : CieRecord}
    (hfind : findCie cies id.toUInt64 = some (ptr, cie)) (hptr : ptr.index = f.cie)
    (henc : cie.ptrEncoding = dwEhPeAbsptr) (haug : cie.augmentationLen = 0)
    (hoff : entryStart - sec.data = UInt64.ofNat offset) (h : Span m payload stop f.bytes) :
    ∃ fde, (parseFde sec entryStart id payload stop false cies).val m = .ok fde ∧
      FdeMatches m offset f fde := by
  obtain ⟨p, hbegin, h⟩ := readEncodedPointer_absptr sec.data h
  obtain ⟨q, hrange, h⟩ := readEncodedPointer_absptr sec.data h
  have hzero : dwEhPeAbsptr &&& 0x0f = dwEhPeAbsptr := by decide
  have hboth : (parseFdeRange sec dwEhPeAbsptr payload stop).val m =
      .ok (f.pcBegin, f.pcRange, q) := by
    rw [parseFdeRange, val_bind_ok hbegin]
    dsimp only
    rw [hzero, val_bind_ok hrange, val_pure]
  have hkey : fdeCieOffset sec id payload false = id.toUInt64 := by
    rw [fdeCieOffset, if_neg (by decide)]
  rw [parseFde, hkey, hfind]
  dsimp only
  rw [henc, if_neg (by decide), val_bind_ok hboth]
  dsimp only
  rw [startsWithZ, if_pos haug, val_bind_ok (val_pure _ _), if_neg (by simp), val_pure]
  exact ⟨_, rfl, hptr, hoff, rfl, rfl, h.holds, h.sub_eq⟩

/-- The turn on a laid-out FDE stores its record and leaves the CIEs alone. -/
theorem sectionTurn_laidFde {cies : List (ℕ × CieBody)} {offset : ℕ} {s : SectionState}
    {f : DebugFde} {rest : List UInt8} (hm : sec.Mapped)
    (hlen : 4 + f.bytes.length < maxEntryLength) (hparent : f.cie < cies.length)
    (hplain : ∀ c ∈ cies, c.2.augmentation = none) (hptr : cies[f.cie].1 < 0xffffffff)
    (hs : LaidState m sec cies offset s)
    (h : Span m s.ptr sec.stop (entryBytes cies[f.cie].1 f.bytes ++ rest)) :
    ∃ s' fde, sectionTurn m sec false s = .next s' ∧
      LaidState m sec cies (offset + (DebugEntry.fde f).frame.size) s' ∧
      s'.tables.fdes.records = s.tables.fdes.records ++ [fde] ∧ FdeMatches m offset f fde ∧
      Span m s'.ptr sec.stop rest := by
  have hid : cies[f.cie].1 < 2 ^ 32 := by omega
  obtain ⟨hat, hfit⟩ := atEntry_laid hm hlen hid h
  obtain ⟨hhead, hstop, hbody, hrest⟩ := headAt_laid hlen hid h
  obtain ⟨cie, hfind, hmatch⟩ := hs.findCie_laid hparent
  have hnone := hplain _ (List.getElem_mem hparent)
  have henc : cie.ptrEncoding = dwEhPeAbsptr := by
    rw [hmatch.ptrEncoding, CieBody.encoding, hnone]
  have haug : cie.augmentationLen = 0 := by
    rw [hmatch.augmentationLen, CieBody.string, hnone]
    rfl
  have hkey : ((headAt m s.ptr).id).toUInt64 = UInt64.ofNat cies[f.cie].1 := by
    rw [hhead]
    apply UInt64.toNat_inj.mp
    dsimp only
    rw [UInt32.toNat_toUInt64, UInt32.toNat_ofNat', UInt64.toNat_ofNat']
    omega
  have hisFde : (headAt m s.ptr).isCie false = false := by
    rw [hhead, EntryHead.isCie, isCieId]
    have hne : UInt32.ofNat cies[f.cie].1 ≠ 0xffffffff := by
      intro h0
      have := congrArg UInt32.toNat h0
      rw [UInt32.toNat_ofNat', Nat.mod_eq_of_lt hid] at this
      simp at this
      omega
    simpa using hne
  rw [← hkey] at hfind
  obtain ⟨fde, hparse, hfde⟩ := parseFde_laid hfind rfl henc haug hs.offset_eq hbody
  obtain ⟨vec, heap, happ, hrec, hg⟩ := vectorAppend_granted hs.grants s.tables.fdes fde
  refine ⟨⟨(headAt m s.ptr).stop, { s.tables with
      fdes := vec
      heap
      entries := s.tables.entries ++ [entryNote m sec false s] }⟩, fde, ?_, ?_, hrec, hfde, hrest⟩
  · refine sectionTurn_next.mpr ⟨hat, hfit, rfl, .fde fde, .fde hisFde hparse, ?_⟩
    rw [storeRecord, ParseState.noteEntry, fdeVectorAppend]
    dsimp only
    rw [happ]
  · refine ⟨?_, hs.records, hs.spread, fun c hc => ?_, hg⟩
    · dsimp only
      rw [hstop, hs.ptr, FrameEntry.size, DebugEntry.frame, FrameEntry.body]
      omega
    · have := hs.before c hc
      omega

/-! ### The whole section -/

/-- The loop of `parse_section` in front of the entries `es` of a laid-out section: it ends
well, with these entries behind the ones already in the tables. -/
theorem ends_debugFrame {es : List DebugEntry} {cies : List (ℕ × CieBody)}
    {fdes : List (ℕ × DebugFde)} {offset : ℕ} {s : SectionState} {tail : List UInt8}
    (hm : sec.Mapped) (ht : IsTrailer tail) (hs : LaidState m sec cies offset s)
    (hplain : ∀ c ∈ cies, c.2.augmentation = none)
    (hf : List.Forall₂ (fun f fde => FdeMatches m f.1 f.2 fde) fdes s.tables.fdes.records)
    (hlen : ∀ e ∈ es, 4 + e.frame.body.length < maxEntryLength)
    (hptr : ∀ f, DebugEntry.fde f ∈ es →
      ((cies ++ laidCies offset (es.map (·.frame))).map (·.1)).getD f.cie 0 < 0xffffffff)
    (hnames : NamesEarlier cies.length (es.map (·.frame)))
    (h : Span m s.ptr sec.stop (frameBytesFrom false
      ((cies ++ laidCies offset (es.map (·.frame))).map (·.1)) offset (es.map (·.frame)) ++
        tail)) :
    ∃ t, Ends (sectionTurn m sec false) s (.ok, t) ∧
      List.Forall₂ (fun c cie => CieMatches m c.1 c.2 cie)
        (cies ++ laidCies offset (es.map (·.frame))) t.cies.records ∧
      List.Forall₂ (fun f fde => FdeMatches m f.1 f.2 fde) (fdes ++ debugFdes offset es)
        t.fdes.records := by
  induction es generalizing cies fdes offset s with
  | nil =>
      obtain ⟨t, hturn, hc, hfd⟩ := sectionTurn_trailer false hm ht h
      refine ⟨t, .done hturn, ?_, ?_⟩
      · rw [hc]
        simpa [laidCies] using hs.records
      · rw [hfd]
        simpa [debugFdes] using hf
  | cons e es ih =>
      have hlen' (e' : DebugEntry) (he' : e' ∈ es) : 4 + e'.frame.body.length < maxEntryLength :=
        hlen e' (List.mem_cons_of_mem _ he')
      cases e with
      | cie c =>
          have hshift : cies ++ laidCies offset ((DebugEntry.cie c :: es).map (·.frame)) =
              (cies ++ [(offset, c.body)]) ++
                laidCies (offset + (FrameEntry.cie c.body).size) (es.map (·.frame)) := by
            rw [List.append_assoc]
            rfl
          rw [hshift] at hptr h ⊢
          rw [List.map_cons, frameBytesFrom, List.append_assoc] at h
          obtain ⟨s', hturn, hs', hfdes, hrest⟩ := sectionTurn_laidCie hm
            ⟨hlen _ List.mem_cons_self, c.wellFormed⟩ hs h
          have hplain' (c' : ℕ × CieBody) (hc' : c' ∈ cies ++ [(offset, c.body)]) :
              c'.2.augmentation = none := by
            rcases List.mem_append.mp hc' with hc' | hc'
            · exact hplain c' hc'
            · rw [List.mem_singleton.mp hc']
              rfl
          have hptr' (f : DebugFde) (hf' : DebugEntry.fde f ∈ es) :=
            hptr f (List.mem_cons_of_mem _ hf')
          have hnames' : NamesEarlier (cies ++ [(offset, c.body)]).length
              (es.map (·.frame)) := by
            rw [List.length_append, List.length_singleton]
            exact hnames
          obtain ⟨t, hends, hcies, hfds⟩ := ih hs' hplain' (by rw [hfdes]; exact hf) hlen' hptr'
            hnames' hrest
          exact ⟨t, .next hturn hends, hcies, hfds⟩
      | fde f =>
          have hparent : f.cie < cies.length := hnames.1
          have hkey : ((cies ++ laidCies offset
              ((DebugEntry.fde f :: es).map (·.frame))).map (·.1)).getD f.cie 0 =
              cies[f.cie].1 := by
            rw [List.getD_eq_getElem?_getD, List.getElem?_eq_getElem (by simp; omega),
              Option.getD_some, List.getElem_map,
              List.getElem_append_left hparent]
          have hsmall := hptr f List.mem_cons_self
          rw [hkey] at hsmall
          rw [List.map_cons, frameBytesFrom, List.append_assoc] at h
          have hid : (DebugEntry.fde f).frame.id false ((cies ++ laidCies offset
              ((DebugEntry.fde f :: es).map (·.frame))).map (·.1)) offset = cies[f.cie].1 := hkey
          rw [List.map_cons] at hid
          rw [hid] at h
          obtain ⟨s', fde, hturn, hs', hfdes, hmatch, hrest⟩ := sectionTurn_laidFde hm
            (hlen _ List.mem_cons_self) hparent hplain hsmall hs h
          have hf' : List.Forall₂ (fun f fde => FdeMatches m f.1 f.2 fde)
              (fdes ++ [(offset, f)]) s'.tables.fdes.records := by
            rw [hfdes]
            exact List.rel_append hf (.cons hmatch .nil)
          have hptr' (f' : DebugFde) (hf' : DebugEntry.fde f' ∈ es) :=
            hptr f' (List.mem_cons_of_mem _ hf')
          obtain ⟨t, hends, hcies, hfds⟩ := ih hs' hplain hf' hlen' hptr' hnames.2 hrest
          refine ⟨t, .next hturn hends, hcies, ?_⟩
          rwa [List.append_assoc] at hfds

/-- The `.debug_frame` round trip: `dwunw_cfi_build` on a laid-out section, with nothing or a
terminator and any bytes behind it, returns the entries. -/
theorem cfiBuild_debugFrame {heap : Heap} {secs : Sections} {es : List DebugEntry}
    {tail : List UInt8} (hg : ∀ n, heap.grants n = true) (heh : secs.ehFrame = .null)
    (h0 : secs.debugFrame.data ≠ 0) (hm : secs.debugFrame.Mapped) (ht : IsTrailer tail)
    (hw : DebugFrameWellFormed es)
    (h : Span m secs.debugFrame.data secs.debugFrame.stop (debugFrameBytes es ++ tail)) :
    RoundTrip m es (cfiBuild m heap secs) := by
  have hstart : LaidState m secs.debugFrame [] 0 ⟨secs.debugFrame.data, .init heap⟩ :=
    ⟨rfl, .nil, .nil, by simp, hg⟩
  have hoffsets : (([] : List (ℕ × CieBody)) ++ laidCies 0 (es.map (·.frame))).map (·.1) =
      cieOffsets (es.map (·.frame)) := rfl
  obtain ⟨t, hends, hcies, hfdes⟩ := ends_debugFrame hm ht hstart (by simp) .nil hw.lengths
    (by rw [hoffsets]; exact hw.pointers) hw.names (by rw [hoffsets]; exact h)
  have hsize : secs.debugFrame.size ≠ 0 := by
    intro hz
    have hl := h.length_eq
    rw [hm.stop_toNat, hz, debugFrameBytes, frameBytes] at hl
    cases es with
    | nil => simpa using hw.hasFde
    | cons e es =>
        rw [List.map_cons, frameBytesFrom] at hl
        simp only [List.length_append, entryBytes_length] at hl
        simp at hl
  have hsection := (parseSection_ends hm (not_or.mpr ⟨h0, hsize⟩) (.init heap)).unique hends
  have heh' : parseSection m secs.ehFrame true (.init heap) = (.ok, .init heap) := by
    rw [heh, parseSection, if_pos (.inl rfl)]
  rw [List.nil_append] at hcies hfdes
  have hcount : ¬ t.fdes.records.length = 0 := by
    obtain ⟨f, hf⟩ := hw.hasFde
    rw [← hfdes.length_eq, List.length_eq_zero_iff]
    exact debugFdes_ne_nil hf
  have hbuild : cfiBuild m heap secs = .built t := by
    rw [cfiBuild, heh']
    dsimp only
    rw [hsection]
    dsimp only
    rw [if_neg hcount]
  rw [hbuild]
  refine ⟨rfl, ?_, hfdes, fun fde hfde => ?_⟩
  · rw [laidCies_frame, List.forall₂_map_left_iff] at hcies
    exact hcies
  · obtain ⟨i, hi, rfl⟩ := List.mem_iff_getElem.mp hfde
    have hi' : i < (debugFdes 0 es).length := by rwa [hfdes.length_eq]
    have hindex : (t.fdes.records[i]).cie.index = ((debugFdes 0 es)[i]).2.cie :=
      ((List.forall₂_iff_get.mp hfdes).2 i hi' hi).cie
    have hparent := hw.names.parent_lt 0
      (mem_frames_of_mem_debugFdes (List.getElem_mem hi'))
    rw [Nat.zero_add, hcies.length_eq] at hparent
    refine ⟨_, List.getElem?_eq_getElem (l := t.cies.records) ?_⟩
    exact lt_of_eq_of_lt hindex hparent

/-- A CIE with its initial rule, and an FDE of it. -/
def simpleFrame : List DebugEntry :=
  [.cie ⟨1, -8, 16, [0x0c, 7, 8]⟩, .fde ⟨0, 0x1000, 0x40, [0x90, 1]⟩]

/-- The section of `simpleFrame`, with a terminator and a byte behind it. -/
def simpleSections : Sections :=
  ⟨.null, ⟨0x1000, UInt64.ofNat (debugFrameBytes simpleFrame ++ [0, 0, 0, 0, 9]).length⟩, .null⟩

/-- A section with a terminator, and a byte behind it. -/
theorem simpleFrame_roundTrip :
    RoundTrip (memOf 0x1000 (debugFrameBytes simpleFrame ++ [0, 0, 0, 0, 9])) simpleFrame
      (cfiBuild (memOf 0x1000 (debugFrameBytes simpleFrame ++ [0, 0, 0, 0, 9]))
        (.fresh fun _ => true) simpleSections) := by
  have hspan : Span (memOf 0x1000 (debugFrameBytes simpleFrame ++ [0, 0, 0, 0, 9]))
      simpleSections.debugFrame.data simpleSections.debugFrame.stop
      (debugFrameBytes simpleFrame ++ [0, 0, 0, 0, 9]) :=
    ⟨holds_memOf _ (by decide +kernel), by decide +kernel⟩
  refine cfiBuild_debugFrame (fun _ => rfl) rfl (by decide) (by decide +kernel)
    (.inr ⟨[9], rfl⟩) ⟨?_, ?_, ?_, ⟨⟨0, 0x1000, 0x40, [0x90, 1]⟩, ?_⟩⟩ hspan
  · intro e he
    fin_cases he <;> decide +kernel
  · intro f hf
    simp only [simpleFrame, List.mem_cons, reduceCtorEq, DebugEntry.fde.injEq, false_or,
      List.not_mem_nil, or_false] at hf
    subst hf
    decide +kernel
  · exact ⟨by decide, trivial⟩
  · exact List.mem_cons_of_mem _ List.mem_cons_self

end Dwunw
