import Dwunw.Cfi.DebugFrame
import Dwunw.Cfi.Ranges
import Dwunw.Cfi.RowTable
import Dwunw.Cfi.Slices
import Dwunw.Lib.FrameInfo

/-!
From the call frame information of a module to the rows that the unwinder finds.

* `debugEntry`, `frameSection`: the entries of a module as a `.debug_frame` section.
* `Producible`: the entries fit the section and the tables of the unwinder.
* `Regrows`, `LaidOut.origins`: when the CIE table moves after an FDE was linked.
* `CieLoaded`, `FdeLoaded`, `TablesLoaded`: the tables have the entries, and their programs lie in
  memory.
* `cfiBuild_tablesLoaded`: a build of the section loads them.
* `cfiRow_basic`: the row of an FDE is that of its table.
* `TablesLoaded.rows`, `TablesLoaded.found_iff`: for every address, the tables have the row that
  the entries have.
-/

namespace Dwunw

open CallFrame Loop Traced

variable {m : ByteMem} {sec : Section} {secs : Sections} {heap : Heap} {es : List (Entry 8)}

/-! ### Entries -/

def debugCie (c : Cie 8) : DebugCie :=
  ⟨UInt64.ofNat c.codeAlign, Int64.ofInt c.dataAlign, Fin.ofNat 32 c.returnReg, encode c.program⟩

def debugFde (f : Fde 8) : DebugFde :=
  ⟨f.cie, UInt64.ofNat f.start, UInt64.ofNat f.size, encode f.program⟩

def debugEntry : Entry 8 → DebugEntry
  | .cie c => .cie (debugCie c)
  | .fde f => .fde (debugFde f)

/-- The `.debug_frame` section of a list of entries. -/
def frameSection (es : List (Entry 8)) : List UInt8 := debugFrameBytes (es.map debugEntry)

/-- The numbers of a CIE fit their fields, and its program can be read. -/
structure CieProducible (c : Cie 8) : Prop where
  codeAlign : c.codeAlign < 2 ^ 64
  dataAlign : -2 ^ 63 ≤ c.dataAlign ∧ c.dataAlign < 2 ^ 63
  returnReg : c.returnReg < regsetSlots
  program : BasicProgram c.program

/-- The range of an FDE ends below the top of the address space, and its program can be read. -/
structure FdeProducible (f : Fde 8) : Prop where
  range : f.start + f.size < 2 ^ 64
  program : BasicProgram f.program

/-- The locations of a table do not decrease, and fit a word. -/
structure TableFits (c : Cie 8) (f : Fde 8) : Prop where
  increasing : ((f.rows defaultRow c).map (·.1)).Pairwise (· ≤ ·)
  locations : ∀ r ∈ f.rows defaultRow c, r.1 < 2 ^ 64

/-- The table of the CIEs is full when an FDE has been linked and another CIE is to come. -/
def Regrows (es : List (Entry 8)) : Prop :=
  ∃ k, (es.takeWhile Entry.isCie).length ≤ 8 * 2 ^ k ∧ 8 * 2 ^ k < es.countP Entry.isCie

/-- The entries can be written in 32-bit DWARF format, and the unwinder can hold them. -/
structure Producible (es : List (Entry 8)) : Prop where
  frame : DebugFrameWellFormed (es.map debugEntry)
  steady : ¬ Regrows es
  cies : ∀ c ∈ cies es, CieProducible c
  fdes : ∀ f ∈ fdes es, FdeProducible f
  tables : ∀ f ∈ CallFrame.fdes es, ∀ c ∈ (CallFrame.cies es)[f.cie]?, TableFits c f

lemma debugCies_entries (offset : ℕ) (es : List (Entry 8)) :
    (debugCies offset (es.map debugEntry)).map (·.2) = (cies es).map debugCie := by
  induction es generalizing offset with
  | nil => rfl
  | cons e es ih =>
      cases e with
      | cie c => exact congrArg (debugCie c :: ·) (ih _)
      | fde f => exact ih _

lemma debugFdes_entries (offset : ℕ) (es : List (Entry 8)) :
    (debugFdes offset (es.map debugEntry)).map (·.2) = (fdes es).map debugFde := by
  induction es generalizing offset with
  | nil => rfl
  | cons e es ih =>
      cases e with
      | cie c => exact ih _
      | fde f => exact congrArg (debugFde f :: ·) (ih _)

/-! ### The headers of a laid-out section -/

def FrameEntry.isCie : FrameEntry → Bool
  | .cie _ => true
  | .fde _ _ => false

/-- The header of a laid-out entry: which kind it has, and its length. -/
structure HeadOf (e : FrameEntry) (hd : EntryHead) : Prop where
  isCie : hd.isCie false = e.isCie
  length : 4 ≤ hd.length.toNat

/-- The pointers of all FDEs fit their fields, and are not the id of a CIE. -/
def PointersFit (offsets : List ℕ) (frames : List FrameEntry) : Prop :=
  ∀ k body, FrameEntry.fde k body ∈ frames → offsets.getD k 0 < 0xffffffff

/-- The id of a laid-out entry says what it is. -/
lemma id_laid {offsets : List ℕ} {e : FrameEntry} (offset : ℕ)
    (hptr : ∀ k body, FrameEntry.fde k body = e → offsets.getD k 0 < 0xffffffff) :
    e.id false offsets offset < 2 ^ 32 ∧
      isCieId false (UInt32.ofNat (e.id false offsets offset)) = e.isCie := by
  cases e with
  | cie c =>
      exact ⟨(by decide : 0xffffffff < 2 ^ 32), (by decide : isCieId false 0xffffffff = true)⟩
  | fde k body =>
      have hlt := hptr k body rfl
      rw [FrameEntry.id, if_neg (by decide)]
      refine ⟨by omega, ?_⟩
      have hne : UInt32.ofNat (offsets.getD k 0) ≠ 0xffffffff := by
        intro h0
        have := congrArg UInt32.toNat h0
        rw [UInt32.toNat_ofNat', Nat.mod_eq_of_lt (by omega),
          show (0xffffffff : UInt32).toNat = 0xffffffff from rfl] at this
        omega
      simpa [isCieId, FrameEntry.isCie] using hne

/-- The headers of a laid-out section are those of its entries. -/
lemma headsFrom_laid {frames : List FrameEntry} {offsets : List ℕ} {tail : List UInt8}
    (hm : sec.Mapped) (ht : IsTrailer tail)
    (hlen : ∀ e ∈ frames, 4 + e.body.length < maxEntryLength) (hptr : PointersFit offsets frames)
    {n offset : ℕ} (hn : frames.length < n) {ptr : UInt64}
    (h : Span m ptr sec.stop (frameBytesFrom false offsets offset frames ++ tail)) :
    List.Forall₂ HeadOf frames (headsFrom m sec n ptr) := by
  induction frames generalizing n offset ptr with
  | nil =>
      obtain ⟨n, rfl⟩ := Nat.exists_eq_add_of_lt hn
      obtain ⟨t, hturn, -⟩ := sectionTurn_trailer (s := ⟨ptr, .init (.fresh fun _ => true)⟩)
        false hm ht h
      rw [headsFrom, if_neg (sectionTurn_done_ok hturn).1]
      exact .nil
  | cons e frames ih =>
      obtain ⟨n, rfl⟩ : ∃ k, n = k + 1 := ⟨n - 1, by omega⟩
      obtain ⟨hid, hkind⟩ := id_laid offset fun k body he => hptr k body (he ▸ List.mem_cons_self)
      have hlong := hlen e List.mem_cons_self
      rw [frameBytesFrom, List.append_assoc] at h
      obtain ⟨hat, -⟩ := atEntry_laid (s := ⟨ptr, .init (.fresh fun _ => true)⟩) hm hlong hid h
      obtain ⟨hhead, -, -, hrest⟩ := headAt_laid hlong hid h
      rw [headsFrom, if_pos hat]
      refine .cons ⟨?_, ?_⟩ (ih (fun e he => hlen e (List.mem_cons_of_mem _ he))
        (fun k body hk => hptr k body (List.mem_cons_of_mem _ hk)) (by simpa using hn) hrest)
      · rw [hhead, EntryHead.isCie, hkind]
      · rw [maxEntryLength] at hlong
        rw [hhead]
        dsimp only
        rw [UInt32.toNat_ofNat', Nat.mod_eq_of_lt (by omega)]
        omega

lemma frameBytesFrom_length (offsets : List ℕ) (offset : ℕ) (frames : List FrameEntry) :
    8 * frames.length ≤ (frameBytesFrom false offsets offset frames).length := by
  induction frames generalizing offset with
  | nil => exact Nat.zero_le _
  | cons e frames ih =>
      have := ih (offset + e.size)
      rw [frameBytesFrom, List.length_append, entryBytes_length, List.length_cons]
      omega

/-- A section that is laid out, with nothing or a terminator and any bytes behind it, and no
`.eh_frame`. -/
structure LaidOut (m : ByteMem) (secs : Sections) (es : List DebugEntry) (tail : List UInt8) :
    Prop where
  noEhFrame : secs.ehFrame = .null
  data : secs.debugFrame.data ≠ 0
  mapped : secs.debugFrame.Mapped
  trailer : IsTrailer tail
  holds : Span m secs.debugFrame.data secs.debugFrame.stop (debugFrameBytes es ++ tail)

section LaidOut

variable {ds : List DebugEntry} {tail : List UInt8}

lemma DebugFrameWellFormed.ne_nil (hw : DebugFrameWellFormed ds) : ds ≠ [] := by
  obtain ⟨f, hf⟩ := hw.hasFde
  exact List.ne_nil_of_mem hf

/-- The section is as long as its entries need. -/
lemma LaidOut.entries_lt (h : LaidOut m secs ds tail) :
    8 * ds.length ≤ secs.debugFrame.size.toNat := by
  have hl := h.holds.length_eq
  have hbytes := frameBytesFrom_length (cieOffsets (ds.map (·.frame))) 0 (ds.map (·.frame))
  rw [h.mapped.stop_toNat, debugFrameBytes, frameBytes, List.length_append] at hl
  rw [List.length_map] at hbytes
  omega

lemma LaidOut.size_ne (h : LaidOut m secs ds tail) (hw : DebugFrameWellFormed ds) :
    secs.debugFrame.size ≠ 0 := by
  intro hzero
  have hlt := h.entries_lt
  have hpos := List.length_pos_iff.mpr hw.ne_nil
  rw [hzero] at hlt
  have : (0 : UInt64).toNat = 0 := rfl
  omega

/-- The entries that a build goes through are those of the list. -/
lemma LaidOut.origins (h : LaidOut m secs ds tail) (hw : DebugFrameWellFormed ds) :
    List.Forall₂ (fun d o => HeadOf d.frame o.head ∧ o.isEh = false) ds (origins m secs) := by
  have heh : entryHeads m secs.ehFrame = [] := by
    rw [h.noEhFrame, entryHeads, if_pos (.inl rfl)]
  have hlen : ∀ e ∈ ds.map (·.frame), 4 + e.body.length < maxEntryLength := by
    simpa using hw.lengths
  have hptr : PointersFit (cieOffsets (ds.map (·.frame))) (ds.map (·.frame)) := by
    intro k body hk
    obtain ⟨d, hd, he⟩ := List.mem_map.mp hk
    cases d with
    | cie c => cases he
    | fde f =>
        cases he
        exact hw.pointers f hd
  have hheads := headsFrom_laid h.mapped h.trailer hlen hptr
    (n := secs.debugFrame.size.toNat + 1) (by have := h.entries_lt; simp; omega) h.holds
  rw [Dwunw.origins, heh, List.map_nil, List.nil_append, entryHeads,
    if_neg (not_or.mpr ⟨h.data, h.size_ne hw⟩), List.forall₂_map_right_iff]
  rw [List.forall₂_map_left_iff] at hheads
  exact hheads.imp fun _ _ hhead => ⟨hhead, rfl⟩

/-- A build of the section comes out well, with the entries in its tables. -/
lemma LaidOut.built (h : LaidOut m secs ds tail) (hw : DebugFrameWellFormed ds)
    (hg : ∀ n, heap.grants n = true) :
    ∃ t, cfiBuild m heap secs = .built t ∧
      List.Forall₂ (fun c cie => CieMatches m c.1 c.2.body cie) (debugCies 0 ds)
        t.cies.records ∧
      List.Forall₂ (fun f fde => FdeMatches m f.1 f.2 fde) (debugFdes 0 ds) t.fdes.records := by
  have hstart : LaidState m secs.debugFrame [] 0 ⟨secs.debugFrame.data, .init heap⟩ :=
    ⟨rfl, .nil, .nil, by simp, hg⟩
  obtain ⟨t, hends, hcies, hfdes⟩ := ends_debugFrame h.mapped h.trailer hstart (by simp) .nil
    hw.lengths hw.pointers hw.names h.holds
  rw [List.nil_append, laidCies_frame, List.forall₂_map_left_iff] at hcies
  rw [List.nil_append] at hfdes
  have hsection := (parseSection_ends h.mapped (not_or.mpr ⟨h.data, h.size_ne hw⟩)
    (.init heap)).unique hends
  have heh : parseSection m secs.ehFrame true (.init heap) = (.ok, .init heap) := by
    rw [h.noEhFrame, parseSection, if_pos (.inl rfl)]
  have hsome : t.fdes.records.length ≠ 0 := by
    obtain ⟨f, hf⟩ := hw.hasFde
    rw [← hfdes.length_eq]
    exact List.length_pos_iff.mpr (debugFdes_ne_nil hf) |>.ne'
  refine ⟨t, ?_, hcies, hfdes⟩
  rw [cfiBuild, heh]
  dsimp only
  rw [hsection]
  dsimp only
  rw [if_neg hsome]

end LaidOut

/-! ### Where the programs end -/

section Tables

variable {α β : Type} {as : List α} {bs : List β} {R : α → β → Prop}

/-- What follows from the relation for every element of the second list. -/
lemma forall₂_right {P : β → Prop} (h : List.Forall₂ R as bs)
    (hR : ∀ a ∈ as, ∀ b, R a b → P b) : ∀ b ∈ bs, P b := by
  induction h with
  | nil => exact fun b hb => absurd hb List.not_mem_nil
  | cons hab _ ih =>
      refine List.forall_mem_cons.mpr ⟨hR _ List.mem_cons_self _ hab, ih fun a ha => ?_⟩
      exact hR a (List.mem_cons_of_mem _ ha)

/-- Facts about the elements of both lists, beside the relation. -/
lemma forall₂_with {P : α → Prop} {Q : β → Prop} (h : List.Forall₂ R as bs) (hP : ∀ a ∈ as, P a)
    (hQ : ∀ b ∈ bs, Q b) : List.Forall₂ (fun a b => P a ∧ Q b ∧ R a b) as bs :=
  (List.forall₂_and_left _ _).mpr ⟨hP, ((List.forall₂_and_left _ _).mpr ⟨hQ, h.flip⟩).flip⟩

lemma ComputedFrom.end_toNat {payload entryEnd : UInt64} {f : EntryFields}
    {instructions size : UInt64} (h : ComputedFrom payload entryEnd f instructions size) :
    instructions.toNat + size.toNat = entryEnd.toNat := by
  have hle := UInt64.le_iff_toNat_le.mp h.upper
  rw [h.size, UInt64.toNat_sub_of_le _ _ h.upper]
  omega

/-- The program of a CIE ends below the top of the address space. -/
lemma cies_end (heh : secs.ehFrame.Mapped) (hdbg : secs.debugFrame.Mapped)
    (h : (cfiBuild m heap secs).status = .ok) :
    ∀ cie ∈ (cfiBuild m heap secs).cies.records,
      cie.instructions.toNat + cie.instructionsSize.toNat < 2 ^ 64 := by
  refine forall₂_right (cfiBuild_tables h).1 fun o ho cie hparsed => ?_
  have hplaced := origins_placed heh hdbg h o (List.mem_of_mem_filter ho)
  obtain ⟨f, -, hf⟩ := parseCie_instructions hplaced.stop_le hparsed
  have hle := hplaced.stop_le
  rw [hf.end_toNat]
  omega

/-- The program of an FDE ends below the top of the address space, if the entries hold ids. -/
lemma fdes_end (heh : secs.ehFrame.Mapped) (hdbg : secs.debugFrame.Mapped)
    (h : (cfiBuild m heap secs).status = .ok)
    (hid : ∀ o ∈ origins m secs, 4 ≤ o.head.length.toNat) :
    ∀ fde ∈ (cfiBuild m heap secs).fdes.records,
      fde.instructions.toNat + fde.instructionsSize.toNat < 2 ^ 64 := by
  refine forall₂_right (cfiBuild_fdes h) fun o ho fde hparsed => ?_
  have hmem := List.mem_of_mem_filter ho
  have hplaced := origins_placed heh hdbg h o hmem
  obtain ⟨cie, -, hunder⟩ := hparsed
  obtain ⟨f, -, hf⟩ := parseFdeUnder_instructions (hplaced.payload_le (hid o hmem)) hunder
  have hle := hplaced.stop_le
  rw [hf.end_toNat]
  omega

end Tables

/-! ### Loaded tables -/

/-- The record of a CIE has its numbers, and its program lies in memory. -/
structure CieLoaded (m : ByteMem) (c : Cie 8) (cie : CieRecord) : Prop where
  addressSize : cie.addressSize = 8
  codeAlign : cie.codeAlign.toNat = c.codeAlign
  dataAlign : cie.dataAlign.toInt = c.dataAlign
  returnReg : cie.returnReg.toNat = c.returnReg
  program : Span m cie.instructions (cie.instructions + cie.instructionsSize) (encode c.program)

/-- The record of an FDE has its numbers, and its program lies in memory. -/
structure FdeLoaded (m : ByteMem) (f : Fde 8) (fde : FdeRecord) : Prop where
  cie : fde.cie.index = f.cie
  pcBegin : fde.pcBegin.toNat = f.start
  pcRange : fde.pcRange.toNat = f.size
  program : Span m fde.instructions (fde.instructions + fde.instructionsSize) (encode f.program)

/-- The tables have the entries, and the links from the FDEs lead to the CIEs. -/
structure TablesLoaded (m : ByteMem) (es : List (Entry 8)) (cs : RecordTable CieRecord)
    (fs : RecordTable FdeRecord) : Prop where
  cies : List.Forall₂ (CieLoaded m) (cies es) cs.records
  fdes : List.Forall₂ (FdeLoaded m) (fdes es) fs.records
  linked : ∀ fde ∈ fs.records, (cs.deref fde.cie).isSome

/-- Bytes that do not wrap around. -/
lemma span_of_holds {p size : UInt64} {bs : List UInt8} (h : Holds m p bs)
    (hsize : size = UInt64.ofNat bs.length) (hlen : bs.length < 2 ^ 64)
    (hend : p.toNat + size.toNat < 2 ^ 64) : Span m p (p + size) bs := by
  have hnat : size.toNat = bs.length := by
    rw [hsize, UInt64.toNat_ofNat', Nat.mod_eq_of_lt hlen]
  exact ⟨h, by rw [UInt64.toNat_add_of_lt hend, hnat]⟩

lemma CieMatches.loaded {offset : ℕ} {c : Cie 8} {cie : CieRecord}
    (h : CieMatches m offset (debugCie c).body cie) (hc : CieProducible c)
    (hlen : (encode c.program).length < 2 ^ 64)
    (hend : cie.instructions.toNat + cie.instructionsSize.toNat < 2 ^ 64) : CieLoaded m c cie := by
  refine ⟨h.addressSize, ?_, ?_, ?_,
    span_of_holds h.instructions h.instructionsSize hlen hend⟩
  · rw [h.codeAlign]
    exact (UInt64.toNat_ofNat').trans (Nat.mod_eq_of_lt hc.codeAlign)
  · rw [h.dataAlign]
    exact Int64.toInt_ofInt_of_le hc.dataAlign.1 hc.dataAlign.2
  · have hlt : c.returnReg < 32 := hc.returnReg
    rw [h.returnReg]
    show (UInt8.ofNat (c.returnReg % 32)).toNat = _
    rw [UInt8.toNat_ofNat', Nat.mod_eq_of_lt hlt, Nat.mod_eq_of_lt (by omega)]

lemma FdeMatches.loaded {offset : ℕ} {f : Fde 8} {fde : FdeRecord}
    (h : FdeMatches m offset (debugFde f) fde) (hf : FdeProducible f)
    (hlen : (encode f.program).length < 2 ^ 64)
    (hend : fde.instructions.toNat + fde.instructionsSize.toNat < 2 ^ 64) : FdeLoaded m f fde := by
  have hrange := hf.range
  refine ⟨h.cie, ?_, ?_, span_of_holds h.instructions h.instructionsSize hlen hend⟩
  · rw [h.pcBegin]
    exact (UInt64.toNat_ofNat').trans (Nat.mod_eq_of_lt (by omega))
  · rw [h.pcRange]
    exact (UInt64.toNat_ofNat').trans (Nat.mod_eq_of_lt (by omega))

/-- The links of a build are good when the CIE table does not move after the first FDE. -/
lemma cfiBuild_linked (h : (cfiBuild m heap secs).status = .ok)
    (hsteady : ¬ GrowsAfterLink (origins m secs)) :
    ∀ fde ∈ (cfiBuild m heap secs).fdes.records,
      ((cfiBuild m heap secs).cies.deref fde.cie).isSome := by
  obtain ⟨t, hinv, -, hb⟩ := cfiBuild_ok_induction (P := LinkInv)
    (fun _ _ _ h => ⟨h.count, h.fits, h.block, h.fdes, h.index, h.old, h.valid⟩)
    (fun os o t rec t' _ hinv hd hst => by
      rcases storeRecord_ok hst with ⟨cie, rfl, hv, hf, -⟩ | ⟨fde, rfl, hv, hc, -⟩
      · cases hd with
        | cie hid _ => exact hinv.cie hid hv hf
      · cases hd with
        | fde hid hp =>
            obtain ⟨-, cie, hfind⟩ := parseFde_link hp
            exact hinv.fde hid hfind hv hc)
    h ⟨rfl, .empty, by simp [cieCount], by simp [ParseState.init, RecordVector.zero],
      by simp [ParseState.init, RecordVector.zero], by simp [ParseState.init, RecordVector.zero],
      iff_of_true (by simp [ParseState.init, RecordVector.zero])
        (not_growsAfterLink_of_all (by simp))⟩
  rw [hb]
  intro fde hfde
  have hidx : fde.cie.index < t.cies.records.length := by
    rw [hinv.count]
    exact hinv.index fde hfde
  rw [RecordTable.deref, BuildResult.built, if_pos (hinv.valid.mpr hsteady fde hfde),
    List.getElem?_eq_getElem hidx]
  rfl

/-- The CIE table grows after the first FDE exactly when the entries say so. -/
lemma growsAfterLink_iff {os : List Origin}
    (h : List.Forall₂ (fun e o => o.isCie = e.isCie) es os) : GrowsAfterLink os ↔ Regrows es := by
  have hmap : os.map Origin.isCie = es.map Entry.isCie := by
    refine List.forall₂_eq_eq_eq ▸ ?_
    rw [List.forall₂_map_left_iff, List.forall₂_map_right_iff]
    exact (h.imp fun _ _ he => he).flip
  have hbefore : ciesBeforeFde os = (es.takeWhile Entry.isCie).length := by
    have := congrArg (fun l => (l.takeWhile id).length) hmap
    simpa [List.takeWhile_map, ciesBeforeFde] using this
  have hcount : cieCount os = es.countP Entry.isCie := by
    have := congrArg (List.countP id) hmap
    simpa [List.countP_map, cieCount] using this
  rw [GrowsAfterLink, Regrows, hbefore, hcount]

/-- The programs are shorter than the entries that hold them. -/
lemma program_lt {d : DebugEntry} (hlen : 4 + d.frame.body.length < maxEntryLength) :
    match d with
    | .cie c => c.instructions.length < 2 ^ 64
    | .fde f => f.instructions.length < 2 ^ 64 := by
  rw [maxEntryLength] at hlen
  cases d with
  | cie c =>
      have hle : c.instructions.length ≤ c.body.bytes.length := by
        simp only [DebugCie.body, CieBody.bytes, List.length_cons, List.length_append]
        omega
      have hbody : (DebugEntry.cie c).frame.body = c.body.bytes := rfl
      rw [hbody] at hlen
      dsimp only
      omega
  | fde f =>
      have hbody : (DebugEntry.fde f).frame.body = f.bytes := rfl
      rw [hbody, DebugFde.bytes, List.length_append, List.length_append] at hlen
      dsimp only
      omega

/-- A build of the section of a list of entries loads them. -/
theorem cfiBuild_tablesLoaded {tail : List UInt8} (hw : Producible es)
    (h : LaidOut m secs (es.map debugEntry) tail) (hg : ∀ n, heap.grants n = true) :
    (cfiBuild m heap secs).status = .ok ∧
      TablesLoaded m es (cfiBuild m heap secs).cies (cfiBuild m heap secs).fdes := by
  obtain ⟨t, hbuilt, hcies, hfdes⟩ := h.built hw.frame hg
  have hok : (cfiBuild m heap secs).status = .ok := by rw [hbuilt, BuildResult.built]
  have horigins := h.origins (m := m) hw.frame
  have heh : secs.ehFrame.Mapped := by
    rw [h.noEhFrame]
    exact (by decide : Section.null.Mapped)
  have hciesEnd := cies_end heh h.mapped hok
  have hfdesEnd := fdes_end heh h.mapped hok
    (forall₂_right horigins fun _ _ _ hhead => hhead.1.length)
  have hlen {e : Entry 8} (he : e ∈ es) := program_lt (hw.frame.lengths _ (List.mem_map_of_mem he))
  have hgrows : ¬ GrowsAfterLink (origins m secs) := by
    refine mt (growsAfterLink_iff ?_).mp hw.steady
    rw [List.forall₂_map_left_iff] at horigins
    refine horigins.imp fun e o ho => ?_
    have hkind : (debugEntry e).frame.isCie = e.isCie := by cases e <;> rfl
    rw [Origin.isCie, ho.2, ho.1.isCie, hkind]
  refine ⟨hok, ?_, ?_, cfiBuild_linked hok hgrows⟩
  · have hmatch : List.Forall₂ (fun c cie => ∃ offset, CieMatches m offset (debugCie c).body cie)
        (cies es) t.cies.records := by
      rw [← List.forall₂_map_left_iff (f := debugCie)
        (R := fun d cie => ∃ offset, CieMatches m offset d.body cie), ← debugCies_entries 0,
        List.forall₂_map_left_iff]
      exact hcies.imp fun c _ hc => ⟨c.1, hc⟩
    rw [hbuilt] at hciesEnd ⊢
    refine (forall₂_with hmatch (fun c hc => And.intro (hw.cies c hc)
      (hlen (mem_of_mem_cies hc))) hciesEnd).imp fun c cie hc => ?_
    obtain ⟨⟨hproducible, hlt⟩, hend, offset, hmatch⟩ := hc
    exact hmatch.loaded hproducible hlt hend
  · have hmatch : List.Forall₂ (fun f fde => ∃ offset, FdeMatches m offset (debugFde f) fde)
        (fdes es) t.fdes.records := by
      rw [← List.forall₂_map_left_iff (f := debugFde)
        (R := fun d fde => ∃ offset, FdeMatches m offset d fde), ← debugFdes_entries 0,
        List.forall₂_map_left_iff]
      exact hfdes.imp fun f _ hf => ⟨f.1, hf⟩
    rw [hbuilt] at hfdesEnd ⊢
    refine (forall₂_with hmatch (fun f hf => And.intro (hw.fdes f hf)
      (hlen (mem_of_mem_fdes hf))) hfdesEnd).imp fun f fde hf => ?_
    obtain ⟨⟨hproducible, hlt⟩, hend, offset, hmatch⟩ := hf
    exact hmatch.loaded hproducible hlt hend

/-! ### Rows -/

/-- The row of an FDE whose programs are basic is the row of its table. -/
lemma cfiRow_basic {cie : CieRecord} {fde : FdeRecord} {pc : UInt64} {row : Row}
    {cieProg fdeProg : List (Instr 8)} (haddr : cie.addressSize = 8)
    (hcieProg : BasicProgram cieProg) (hfdeProg : BasicProgram fdeProg)
    (hcie : Span m cie.instructions (cie.instructions + cie.instructionsSize) (encode cieProg))
    (hfde : Span m fde.instructions (fde.instructions + fde.instructionsSize) (encode fdeProg))
    (hpc : fde.pcBegin ≤ pc)
    (hmono : ((fdeTable cie fde cieProg fdeProg).map (·.1)).Pairwise (· ≤ ·))
    (hbound : ∀ r ∈ fdeTable cie fde cieProg fdeProg, r.1 < 2 ^ 64)
    (hrow : lastRow (fdeTable cie fde cieProg fdeProg) pc.toNat = some row)
    (hreg : row.cfaReg ≠ none) : cfiRow m cie fde pc = .ok (rowState row) := by
  have hn : cie.addressSize.toNat = 8 := congrArg UInt8.toNat haddr
  have hinit : Trackable (initialRow cie cieProg) :=
    trackable_exec hcieProg represents_default.1 represents_default.1
  have hfirst : executeCfi m cie cie.instructions cie.instructionsSize fde.pcBegin
      0xffffffffffffffff cfaStateReset cfaStateReset =
        (.ok, rowState (initialRow cie cieProg)) := by
    rw [← List.append_nil (encode cieProg)] at hcie
    have hends := ends_basic fde.pcBegin 0xffffffffffffffff ⟨cie.instructions, 0, cfaStateReset⟩
      defaultRow ⟨defaultRow, []⟩ hn hcieProg (.inl rfl) rfl hcie
    rw [executed_max] at hends
    exact (executeCfi_ends _ _ _ _ _ _ hcie.add_lt).unique hends
  obtain ⟨hexecuted, -⟩ := executed_word pc hbound
  rw [UInt64.ofNat_toNat] at hexecuted
  have hlast := (lastRow_table (UInt64.le_iff_toNat_le.mp hpc) hmono).symm.trans hrow
  rw [Option.some.injEq] at hlast
  have hsecond : executeCfi m cie fde.instructions fde.instructionsSize fde.pcBegin pc
      (rowState (initialRow cie cieProg)) (rowState (initialRow cie cieProg)) =
        (.ok, rowState row) := by
    rw [← List.append_nil (encode fdeProg)] at hfde
    have hends := ends_basic fde.pcBegin pc
      ⟨fde.instructions, 0, rowState (initialRow cie cieProg)⟩ (initialRow cie cieProg)
      ⟨initialRow cie cieProg, []⟩ hn hfdeProg (.inl rfl) rfl hfde
    rw [UInt64.add_zero, hexecuted, hlast] at hends
    exact (executeCfi_ends _ _ _ _ _ _ hfde.add_lt).unique hends
  have htracked : Trackable row := by
    obtain ⟨post, hpost⟩ :=
      executed_prefix (naturalAddressing cie) pc.toNat fde.pcBegin.toNat fdeProg
    rw [← hlast]
    refine trackable_exec (fun i hi => hfdeProg i ?_) hinit hinit
    rw [hpost]
    exact List.mem_append_left _ hi
  have hcfa : (rowState row).cfaReg ≠ noCfaReg := by
    obtain ⟨r, hr⟩ := Option.ne_none_iff_exists'.mp hreg
    have hlt := htracked.reg r hr
    rw [rowState, hr]
    intro heq
    have := congrArg UInt16.toNat heq
    rw [cfaRegState, UInt16.toNat_ofNat', Nat.mod_eq_of_lt (by omega),
      show noCfaReg.toNat = 0xffff from rfl] at this
    omega
  rw [cfiRow, hfirst]
  dsimp only
  rw [if_neg (fun h => h.1 rfl), hsecond]
  dsimp only
  rw [if_neg (fun h => h.1 rfl), if_neg hcfa]

/-- A search in two lists whose elements answer it alike. -/
lemma findIdx?_forall₂ {α β : Type} {as : List α} {bs : List β} {R : α → β → Prop} {p : α → Bool}
    {q : β → Bool} (h : List.Forall₂ (fun a b => p a = q b ∧ R a b) as bs) :
    (∀ a, as.find? p = some a → ∃ i b, bs.findIdx? q = some i ∧ bs[i]? = some b ∧ R a b) ∧
      (as.find? p = none → bs.findIdx? q = none) := by
  induction h with
  | nil => simp
  | @cons a b as bs hab _ ih =>
      rw [List.find?_cons, List.findIdx?_cons, ← hab.1]
      cases p a with
      | true =>
          refine ⟨fun a' ha' => ?_, fun hnone => absurd hnone (Option.some_ne_none a)⟩
          obtain rfl := Option.some.inj ha'
          exact ⟨0, b, rfl, rfl, hab.2⟩
      | false =>
          refine ⟨fun a' ha' => ?_, fun hnone => congrArg (Option.map _) (ih.2 hnone)⟩
          obtain ⟨i, b', hi, hget, hR⟩ := ih.1 a' ha'
          exact ⟨i + 1, b', congrArg (Option.map _) hi, hget, hR⟩

namespace TablesLoaded

variable {cs : RecordTable CieRecord} {fs : RecordTable FdeRecord} {pc : UInt64}

/-- The FDEs of the entries and of the table cover the same addresses. -/
lemma answers (h : TablesLoaded m es cs fs) (hw : Producible es) (pc : UInt64) :
    List.Forall₂ (fun f fde => decide (f.Has pc.toNat) = decide (fde.Holds pc ∧ fde.Fits) ∧
      FdeProducible f ∧ FdeLoaded m f fde) (CallFrame.fdes es) fs.records := by
  refine (forall₂_with h.fdes hw.fdes fun _ _ => trivial).imp fun f fde hf => ?_
  obtain ⟨hproducible, -, hloaded⟩ := hf
  refine ⟨decide_eq_decide.mpr ?_, hproducible, hloaded⟩
  have hrange := hproducible.range
  rw [FdeRecord.Holds, FdeRecord.Fits, hloaded.pcBegin, hloaded.pcRange, Fde.Has]
  exact ⟨fun hhas => ⟨hhas, hrange⟩, fun hhas => hhas.1⟩

/-- An FDE is found for the addresses in the ranges of the entries. -/
theorem found_iff (h : TablesLoaded m es cs fs) (hw : Producible es) (pc : UInt64) :
    (cfiFindFde fs.records pc).isSome ↔ ∃ f ∈ CallFrame.fdes es, f.Has pc.toNat := by
  obtain ⟨hsome, hnone⟩ := findIdx?_forall₂ (h.answers hw pc)
  rw [cfiFindFde_eq]
  cases hfind : (CallFrame.fdes es).find? fun f => decide (f.Has pc.toNat) with
  | none =>
      rw [hnone hfind]
      refine iff_of_false Bool.false_ne_true fun hhas => ?_
      obtain ⟨f, hf, hhas⟩ := hhas
      exact List.find?_eq_none.mp hfind f hf (decide_eq_true hhas)
  | some f =>
      obtain ⟨i, fde, hi, -⟩ := hsome f hfind
      rw [hi]
      have hhas := List.find?_some hfind
      exact iff_of_true rfl ⟨f, List.mem_of_find?_eq_some hfind, of_decide_eq_true hhas⟩

/-- For every address, the tables have the row that the entries have. -/
theorem rows (h : TablesLoaded m es cs fs) (hw : Producible es) {row : Row} {ra : ℕ}
    (hrow : rowAt defaultRow es pc.toNat = some (row, ra)) (hreg : row.cfaReg ≠ none) :
    ∃ i fde cie, cfiFindFde fs.records pc = some i ∧ fs.records[i]? = some fde ∧
      cs.deref fde.cie = some cie ∧ cie.returnReg.toNat = ra ∧
      cfiRow m cie fde pc = .ok (rowState row) := by
  obtain ⟨f, c, hfind, hc, hlast, hra⟩ := rowAt_eq_some.mp hrow
  obtain ⟨i, fde, hi, hget, hproducible, hfde⟩ := (findIdx?_forall₂ (h.answers hw pc)).1 f hfind
  have hf := List.mem_of_find?_eq_some hfind
  have hhas := List.find?_some hfind
  -- the record of the CIE is where the link of the FDE leads to
  obtain ⟨hclt, hcget⟩ := List.getElem?_eq_some_iff.mp hc
  have hlt : f.cie < cs.records.length := h.cies.length_eq ▸ hclt
  have hcie : CieLoaded m c cs.records[f.cie] :=
    hcget ▸ (List.forall₂_iff_get.mp h.cies).2 f.cie hclt hlt
  have hderef : cs.deref fde.cie = some cs.records[f.cie] := by
    have hlinked := h.linked fde (List.mem_of_getElem? hget)
    rw [RecordTable.deref] at hlinked ⊢
    split_ifs at hlinked ⊢ with hblock
    · rw [hfde.cie, List.getElem?_eq_getElem hlt]
    · cases hlinked
  have htable : fdeTable cs.records[f.cie] fde c.program f.program = f.rows defaultRow c := by
    rw [fdeTable, initialRow, naturalAddressing, hcie.codeAlign, hcie.dataAlign, hfde.pcBegin]
    rfl
  have hfits := hw.tables f hf c hc
  refine ⟨i, fde, _, by rw [cfiFindFde_eq, hi], hget, hderef, hcie.returnReg.trans hra, ?_⟩
  refine cfiRow_basic hcie.addressSize (hw.cies c (List.mem_of_getElem? hc)).program
    hproducible.program hcie.program hfde.program ?_ (htable ▸ hfits.increasing)
    (htable ▸ hfits.locations) (htable ▸ hlast) hreg
  rw [UInt64.le_iff_toNat_le, hfde.pcBegin]
  exact (of_decide_eq_true hhas).1

end TablesLoaded

end Dwunw
