import Dwunw.Cfi.Layout

/-!
The linkage of `.eh_frame`.

An FDE of `.eh_frame` holds the distance from its CIE pointer back to its CIE.  `parse_fde`
counts that distance from the address behind the pointer, four bytes too far, and no CIE
starts there.

* `EhFrameWellFormed`, `EhFrameLinked`: the sections in question and what they should come to.
* `sectionTurn_laidEhFde`: the first FDE of such a section is turned down.
* `parseSection_ehFrame_iff`: the section is accepted and linked exactly when it holds no FDE;
  with an FDE in it the whole build fails.
-/

namespace Dwunw

open Leb128 Loop Traced

variable {m : ByteMem} {sec : Section}

/-- A well-formed `.eh_frame` section: its CIEs have the id 0, and the pointer of every FDE
leads back from the pointer itself to a CIE in front of it.  What an FDE says behind its
pointer is left open. -/
structure EhFrameWellFormed (es : List FrameEntry) : Prop where
  encodable : EncodableFrom true (cieOffsets es) 0 es
  names : NamesEarlier 0 es

/-- The CIE numbers that the FDEs of a list name. -/
def namedParents : List FrameEntry → List ℕ
  | [] => []
  | .cie _ :: es => namedParents es
  | .fde parent _ :: es => parent :: namedParents es

/-- `dwunw_cfi_build` gets through the `.eh_frame` section, and has linked every FDE of it to
the CIE it points back to. -/
def EhFrameLinked (m : ByteMem) (heap : Heap) (secs : Sections) (es : List FrameEntry) : Prop :=
  ∃ t, parseSection m secs.ehFrame true (.init heap) = (.ok, t) ∧
    List.Forall₂ (fun parent fde => fde.cie.index = parent) (namedParents es) t.fdes.records

/-- The offset that `parse_fde` looks up for an FDE at `offset` whose CIE starts at `parent`:
four bytes into the CIE. -/
lemma fdeCieOffset_laid {ptr : UInt64} {offset parent : ℕ} (hp : parent + 8 ≤ offset)
    (hid : offset + 4 - parent < 2 ^ 32) (hptr : ptr.toNat = sec.data.toNat + offset)
    (hlt : ptr.toNat + 8 < 2 ^ 64) :
    fdeCieOffset sec (UInt32.ofNat (offset + 4 - parent)) (ptr + 4 + 4) true =
      UInt64.ofNat (parent + 4) := by
  have hpay : (ptr + 4 + 4).toNat = ptr.toNat + 8 := by
    have := UInt64.toNat_add_ofNat (p := ptr) (n := 8) (by omega)
    rwa [show ptr + UInt64.ofNat 8 = ptr + 4 + 4 by grind] at this
  have hdiff : (ptr + 4 + 4 - sec.data).toNat = offset + 8 := by
    rw [UInt64.toNat_sub_of_le _ _ (by rw [UInt64.le_iff_toNat_le]; omega)]
    omega
  have hback : (UInt32.ofNat (offset + 4 - parent)).toUInt64.toNat = offset + 4 - parent := by
    rw [UInt32.toNat_toUInt64, UInt32.toNat_ofNat', Nat.mod_eq_of_lt hid]
  apply UInt64.toNat_inj.mp
  rw [fdeCieOffset, if_pos rfl, UInt64.toNat_sub_of_le _ _
    (by rw [UInt64.le_iff_toNat_le]; omega), hdiff, hback, UInt64.toNat_ofNat',
    Nat.mod_eq_of_lt (by omega)]
  omega

/-- The turn on an FDE fails: the offset it looks up is four bytes into its CIE. -/
theorem sectionTurn_laidEhFde {cies : List (ℕ × CieBody)} {offset parent : ℕ}
    {s : SectionState} {body rest : List UInt8} (hm : sec.Mapped)
    (hlen : 4 + body.length < maxEntryLength) (hparent : parent < cies.length)
    (hid : offset + 4 - cies[parent].1 < 2 ^ 32) (hs : LaidState m sec cies offset s)
    (h : Span m s.ptr sec.stop (entryBytes (offset + 4 - cies[parent].1) body ++ rest)) :
    ∃ t, sectionTurn m sec true s = .done (.badFormat, t) := by
  obtain ⟨⟨hin, h0⟩, hfit⟩ := atEntry_laid hm hlen hid h
  obtain ⟨hhead, -, -, -⟩ := headAt_laid hlen hid h
  have hbefore := hs.before _ (List.getElem_mem hparent)
  have hlt := h.length_lt
  rw [List.length_append, entryBytes_length] at hlt
  have hisFde : (headAt m s.ptr).isCie true = false := by
    rw [hhead, EntryHead.isCie, isCieId]
    have hne : UInt32.ofNat (offset + 4 - cies[parent].1) ≠ 0 := by
      intro hz
      have := congrArg UInt32.toNat hz
      rw [UInt32.toNat_ofNat', Nat.mod_eq_of_lt hid] at this
      simp at this
      omega
    simpa using hne
  have hfind : findCie s.tables.cies
      (fdeCieOffset sec (headAt m s.ptr).id (s.ptr + 4 + 4) true) = none := by
    rw [hhead]
    dsimp only
    rw [fdeCieOffset_laid hbefore hid hs.ptr (by omega)]
    exact hs.findCie_between hparent
  have hfail : (parseEntry sec true s.tables.cies s.ptr).val m = .error .badFormat := by
    rw [val_parseEntry, if_neg h0, if_neg (UInt64.not_lt.mpr hfit), hisFde, if_neg (by simp),
      parseFde, hfind]
    rfl
  rw [sectionTurn, if_pos hin]
  dsimp only
  rw [hfail]
  exact ⟨_, rfl⟩

/-- The loop of `parse_section` in front of the entries `es` of a well-formed `.eh_frame`: it
gets through them exactly when none of them is an FDE. -/
theorem ends_ehFrame {es : List FrameEntry} {cies : List (ℕ × CieBody)} {offset : ℕ}
    {s : SectionState} {tail : List UInt8} (hm : sec.Mapped) (ht : IsTrailer tail)
    (hs : LaidState m sec cies offset s)
    (he : EncodableFrom true ((cies ++ laidCies offset es).map (·.1)) offset es)
    (hnames : NamesEarlier cies.length es)
    (h : Span m s.ptr sec.stop
      (frameBytesFrom true ((cies ++ laidCies offset es).map (·.1)) offset es ++ tail)) :
    ∃ t, Ends (sectionTurn m sec true) s
        (if namedParents es = [] then .ok else .badFormat, t) ∧
      (namedParents es = [] → t.fdes = s.tables.fdes) := by
  induction es generalizing cies offset s with
  | nil =>
      obtain ⟨t, hturn, -, hf⟩ := sectionTurn_trailer true hm ht h
      exact ⟨t, .done hturn, fun _ => hf⟩
  | cons e es ih =>
      cases e with
      | cie c =>
          have hshift : cies ++ laidCies offset (.cie c :: es) =
              (cies ++ [(offset, c)]) ++ laidCies (offset + (FrameEntry.cie c).size) es := by
            rw [List.append_assoc]
            rfl
          rw [hshift] at he h
          rw [frameBytesFrom, List.append_assoc] at h
          obtain ⟨s', hturn, hs', hfdes, hrest⟩ := sectionTurn_laidCie hm he.1 hs h
          have hnames' : NamesEarlier (cies ++ [(offset, c)]).length es := by
            rw [List.length_append, List.length_singleton]
            exact hnames
          obtain ⟨t, hends, hf⟩ := ih hs' he.2 hnames' hrest
          exact ⟨t, .next hturn hends, fun hnone => (hf hnone).trans hfdes⟩
      | fde parent body =>
          have hparent : parent < cies.length := hnames.1
          have hid : (FrameEntry.fde parent body).id true
              ((cies ++ laidCies offset (.fde parent body :: es)).map (·.1)) offset =
              offset + 4 - cies[parent].1 := by
            rw [FrameEntry.id, if_pos rfl, List.getD_eq_getElem?_getD,
              List.getElem?_eq_getElem (by simp; omega), Option.getD_some, List.getElem_map,
              List.getElem_append_left hparent]
          have hsmall := he.1.2.1
          rw [frameBytesFrom, List.append_assoc, hid] at h
          rw [hid] at hsmall
          obtain ⟨t, hturn⟩ := sectionTurn_laidEhFde hm he.1.1 hparent hsmall hs h
          rw [namedParents, if_neg (List.cons_ne_nil _ _)]
          exact ⟨t, .done hturn, fun hnone => absurd hnone (List.cons_ne_nil _ _)⟩

/-- A well-formed `.eh_frame` section is accepted and linked exactly when it holds no FDE.
With an FDE in it `dwunw_cfi_build` fails, whatever `.debug_frame` holds. -/
theorem parseSection_ehFrame_iff {heap : Heap} {secs : Sections} {es : List FrameEntry}
    {tail : List UInt8} (hg : ∀ n, heap.grants n = true) (h0 : secs.ehFrame.data ≠ 0)
    (hm : secs.ehFrame.Mapped) (ht : IsTrailer tail) (hw : EhFrameWellFormed es)
    (h : Span m secs.ehFrame.data secs.ehFrame.stop (frameBytes true es ++ tail)) :
    (EhFrameLinked m heap secs es ↔ namedParents es = []) ∧
      (namedParents es ≠ [] → (cfiBuild m heap secs).status = .badFormat) := by
  have hstart : LaidState m secs.ehFrame [] 0 ⟨secs.ehFrame.data, .init heap⟩ :=
    ⟨rfl, .nil, .nil, by simp, hg⟩
  have hoffsets : (([] : List (ℕ × CieBody)) ++ laidCies 0 es).map (·.1) = cieOffsets es := rfl
  have hsection : ∃ t, parseSection m secs.ehFrame true (.init heap) =
        (if namedParents es = [] then .ok else .badFormat, t) ∧
      (namedParents es = [] → t.fdes.records = []) := by
    by_cases hsize : secs.ehFrame.size = 0
    · have hes : es = [] := by
        have hl := h.length_eq
        rw [hm.stop_toNat, hsize, frameBytes] at hl
        cases es with
        | nil => rfl
        | cons e es =>
            rw [frameBytesFrom] at hl
            simp only [List.length_append, entryBytes_length] at hl
            simp at hl
      rw [hes, parseSection, if_pos (.inr hsize)]
      exact ⟨_, rfl, fun _ => rfl⟩
    · obtain ⟨t, hends, hf⟩ := ends_ehFrame hm ht hstart (by rw [hoffsets]; exact hw.encodable)
        hw.names (by rw [hoffsets]; exact h)
      exact ⟨t, (parseSection_ends hm (not_or.mpr ⟨h0, hsize⟩) (.init heap)).unique hends,
        fun hnone => by rw [hf hnone]; rfl⟩
  obtain ⟨t, hparse, hfdes⟩ := hsection
  refine ⟨⟨?_, fun hnone => ?_⟩, fun hsome => ?_⟩
  · rintro ⟨t', hok, -⟩
    by_contra hsome
    rw [hparse, if_neg hsome] at hok
    cases hok
  · rw [if_pos hnone] at hparse
    exact ⟨t, hparse, by rw [hnone, hfdes hnone]; exact .nil⟩
  · rw [if_neg hsome] at hparse
    rw [cfiBuild, hparse]
    rfl

/-- A CIE with augmentation `zR` and absolute 4-byte addresses, and an FDE that points back to
it. -/
def linkedFrame : List FrameEntry :=
  [.cie ⟨1, some [.pointerEncoding dwEhPeUdata4], 1, -8, 16, [0x0c, 7, 8, 0x90, 1]⟩,
    .fde 0 [0, 0x10, 0, 0, 0x40, 0, 0, 0, 0, 0x41, 0x0e, 16]]

/-- The section of `linkedFrame`. -/
def linkedSections : Sections :=
  ⟨.null, .null, ⟨0x1000, UInt64.ofNat (frameBytes true linkedFrame).length⟩⟩

lemma linkedFrame_wellFormed : EhFrameWellFormed linkedFrame := by
  refine ⟨⟨⟨by decide +kernel, by decide, by decide, ?_⟩, ⟨by decide +kernel, by decide +kernel,
    by decide +kernel⟩, trivial⟩, by decide, trivial⟩
  intro letters hletters l hl
  cases hletters
  rw [List.mem_singleton.mp hl]
  trivial

/-- A section with an FDE is not linked. -/
theorem linkedFrame_linked_iff :
    EhFrameLinked (memOf 0x1000 (frameBytes true linkedFrame)) (.fresh fun _ => true)
      linkedSections linkedFrame ↔ namedParents linkedFrame = [] :=
  have hspan : Span (memOf 0x1000 (frameBytes true linkedFrame)) linkedSections.ehFrame.data
      linkedSections.ehFrame.stop (frameBytes true linkedFrame ++ []) := by
    rw [List.append_nil]
    exact ⟨holds_memOf _ (by decide +kernel), by decide +kernel⟩
  (parseSection_ehFrame_iff (fun _ => rfl) (by decide) (by decide +kernel) (.inl rfl)
    linkedFrame_wellFormed hspan).1

/-- The section of `linkedFrame` is well formed, and the build turns it down. -/
theorem linkedFrame_rejected :
    EhFrameWellFormed linkedFrame ∧
      ¬ EhFrameLinked (memOf 0x1000 (frameBytes true linkedFrame)) (.fresh fun _ => true)
        linkedSections linkedFrame ∧
      (cfiBuild (memOf 0x1000 (frameBytes true linkedFrame)) (.fresh fun _ => true)
        linkedSections).status = .badFormat := by
  have hstatus : (parseSection (memOf 0x1000 (frameBytes true linkedFrame))
      linkedSections.ehFrame true (.init (.fresh fun _ => true))).1 = .badFormat := by
    decide +kernel
  refine ⟨linkedFrame_wellFormed, ?_, by decide +kernel⟩
  rintro ⟨t, hok, -⟩
  rw [hok] at hstatus
  cases hstatus

end Dwunw
