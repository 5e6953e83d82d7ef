import Dwunw.Cfi.Walk

/-!
The other side of the parser: how a producer lays out a call-frame section.

* `CieBody`: what a CIE says, with its augmentation letters and their data; `CieBody.bytes`
  is its layout behind the id field.
* `FrameEntry`, `frameBytes`: a list of entries and its layout in 32-bit DWARF format, in
  either kind of section.  The pointer of an FDE is the offset of its CIE in `.debug_frame`,
  and the distance back to it in `.eh_frame`.
* `readUleb_encodeUnsigned`, `readSleb_encodeSigned`, `readFixedSize_word`: a reader on a
  field that was laid out returns the field and stands behind it.
* `parseCie_laid`: the parser on a laid-out CIE.
* `headAt_laid`: the header of a laid-out entry.
* `LaidState`: the parser in front of the entries that are left, with the CIEs it has stored;
  `sectionTurn_laidCie` is the turn on a CIE and `sectionTurn_trailer` the turn behind the
  last entry.  `findCie_laid` and `findCie_between` are the lookups in such a state.
-/

namespace Dwunw

open Leb128 Loop Traced

variable {m : ByteMem} {sec : Section} {isEh : Bool}

/-! ### Fields -/

/-- `read_uleb` on a number in its minimal encoding. -/
lemma readUleb_encodeUnsigned {c stop : UInt64} {v : UInt64} {rest : List UInt8}
    (h : Span m c stop (encodeUnsigned v.toNat ++ rest)) :
    ∃ c', (readUleb c stop).val m = .ok (v, c') ∧ Span m c' stop rest := by
  have hl := h.length_eq
  rw [List.length_append] at hl
  have hread : (readUleb c stop).val m = _ := readUleb_group (group_encodeUnsigned v.toNat)
    (encodeUnsigned_length v.toNat_lt) h.left.holds (by omega)
  rw [unsigned_encodeUnsigned, UInt64.ofNat_toNat] at hread
  exact ⟨_, hread, h.append⟩

/-- `read_sleb` on a number in its minimal encoding. -/
lemma readSleb_encodeSigned {c stop : UInt64} {v : Int64} {rest : List UInt8}
    (h : Span m c stop (encodeSigned v.toInt ++ rest)) :
    ∃ c', (readSleb c stop).val m = .ok (v, c') ∧ Span m c' stop rest := by
  have hl := h.length_eq
  rw [List.length_append] at hl
  have hread : (readSleb c stop).val m = _ := readSleb_group (group_encodeSigned v.toInt)
    (encodeSigned_length v.le_toInt v.toInt_lt) h.left.holds (by omega)
  rw [signed_encodeSigned, Int64.ofInt_toInt] at hread
  exact ⟨_, hread, h.append⟩

/-- `read_fixed_size` on a 64-bit word. -/
lemma readFixedSize_word {c stop : UInt64} {v : UInt64} {rest : List UInt8}
    (h : Span m c stop (leBytes 8 v.toNat ++ rest)) :
    ∃ c', (readFixedSize c stop 8).val m = .ok (v, c') ∧ Span m c' stop rest := by
  have hread := readFixedSize_leBytes (n := 8) (.inr (.inr (.inr rfl)))
    (by simpa using v.toNat_lt) h
  rw [UInt64.ofNat_toNat] at hread
  have happ := h.append
  rw [leBytes_length] at happ
  exact ⟨_, hread, happ⟩

/-- `strnlen` on a string and its terminator. -/
lemma strnlen_laid {p stop : UInt64} {s rest : List UInt8} {n : ℕ} (hs : ∀ c ∈ s, c ≠ 0)
    (hn : s.length < n) (h : Span m p stop (s ++ 0 :: rest)) :
    (strnlen p n).val m = .ok s.length := by
  induction s generalizing p n with
  | nil =>
      obtain ⟨n, rfl⟩ : ∃ k, n = k + 1 := ⟨n - 1, by simp at hn; omega⟩
      rw [strnlen, val_byte_bind, if_pos h.cons.1, val_pure]
      rfl
  | cons c s ih =>
      rw [List.length_cons] at hn
      obtain ⟨n, rfl⟩ : ∃ k, n = k + 1 := ⟨n - 1, by omega⟩
      have hc : m p ≠ 0 := by
        rw [h.cons.1]
        exact hs c List.mem_cons_self
      have hs' (c : UInt8) (hc : c ∈ s) : c ≠ 0 := hs c (List.mem_cons_of_mem _ hc)
      have hrest := ih (n := n) hs' (by omega) h.cons.2
      rw [strnlen, val_byte_bind, if_neg hc, val_bind_ok hrest, val_pure, List.length_cons]

/-! ### One CIE -/

/-- An augmentation letter behind the `z`, with its data. -/
inductive AugmentationLetter where
  /-- The letter `R`: the encoding of the FDE addresses. -/
  | pointerEncoding (encoding : UInt8)
  /-- A letter the parser does not look behind. -/
  | other (letter : UInt8) (data : List UInt8)
  deriving DecidableEq, Repr

/-- The letter as it stands in the augmentation string. -/
def AugmentationLetter.letter : AugmentationLetter → UInt8
  | .pointerEncoding _ => 0x52
  | .other c _ => c

/-- The data of the letter. -/
def AugmentationLetter.data : AugmentationLetter → List UInt8
  | .pointerEncoding e => [e]
  | .other _ data => data

/-- The other letters are neither `R` nor the end of the string. -/
def AugmentationLetter.WellFormed : AugmentationLetter → Prop
  | .pointerEncoding _ => True
  | .other c _ => c ≠ 0x52 ∧ c ≠ 0

instance : DecidablePred AugmentationLetter.WellFormed
  | .pointerEncoding _ => inferInstanceAs (Decidable True)
  | .other _ _ => inferInstanceAs (Decidable (_ ∧ _))

/-- What a CIE says. -/
structure CieBody where
  version : UInt8
  /-- `none` for the empty augmentation, otherwise the letters behind the `z`. -/
  augmentation : Option (List AugmentationLetter)
  codeAlign : UInt64
  dataAlign : Int64
  returnReg : UInt8
  instructions : List UInt8

namespace CieBody

/-- The augmentation string, without its terminator. -/
def string (c : CieBody) : List UInt8 :=
  match c.augmentation with
  | none => []
  | some letters => 0x7a :: letters.map (·.letter)

/-- The augmentation data of a list of letters. -/
def dataOf (letters : List AugmentationLetter) : List UInt8 := letters.flatMap (·.data)

/-- The augmentation data with its length in front. -/
def augmentationData (c : CieBody) : List UInt8 :=
  match c.augmentation with
  | none => []
  | some letters => encodeUnsigned (dataOf letters).length ++ dataOf letters

/-- The CIE behind its id field. -/
def bytes (c : CieBody) : List UInt8 :=
  c.version :: (c.string ++ 0 :: (encodeUnsigned c.codeAlign.toNat ++
    (encodeSigned c.dataAlign.toInt ++ (encodeUnsigned c.returnReg.toNat ++
      (c.augmentationData ++ c.instructions)))))

/-- The version is one the section kind can hold in this layout, the return register takes
one byte in every version, and the augmentation letters are what they are called. -/
structure WellFormed (isEh : Bool) (c : CieBody) : Prop where
  version : isEh = false → c.version < 3
  returnReg : c.returnReg < 128
  letters : ∀ letters ∈ c.augmentation, ∀ l ∈ letters, l.WellFormed

/-- The last encoding that the leading `R` letters give. -/
def leadingEncoding : List AugmentationLetter → UInt8 → UInt8
  | .pointerEncoding e :: letters, _ => leadingEncoding letters e
  | _, e => e

/-- The pointer encoding the parser finds. -/
def encoding (c : CieBody) : UInt8 :=
  match c.augmentation with
  | none => dwEhPeAbsptr
  | some letters => leadingEncoding letters dwEhPeAbsptr

lemma string_ne_zero {c : CieBody} (h : c.WellFormed isEh) : ∀ b ∈ c.string, b ≠ 0 := by
  rw [string]
  cases ha : c.augmentation with
  | none => simp
  | some letters =>
      intro b hb
      rcases List.mem_cons.mp hb with rfl | hb
      · decide
      · obtain ⟨l, hl, rfl⟩ := List.mem_map.mp hb
        cases l with
        | pointerEncoding e =>
            show (0x52 : UInt8) ≠ 0
            decide
        | other c data => exact (h.letters letters ha _ hl).2

end CieBody

/-- The record of a CIE that lies in memory: its own fields, and where its strings are. -/
structure CieMatches (m : ByteMem) (offset : ℕ) (c : CieBody) (cie : CieRecord) : Prop where
  version : cie.version = c.version
  addressSize : cie.addressSize = 8
  returnReg : cie.returnReg = c.returnReg
  ptrEncoding : cie.ptrEncoding = c.encoding
  dataAlign : cie.dataAlign = c.dataAlign
  codeAlign : cie.codeAlign = c.codeAlign
  offset : cie.offset = UInt64.ofNat offset
  augmentation : Holds m cie.augmentation c.string
  augmentationLen : cie.augmentationLen = UInt64.ofNat c.string.length
  instructions : Holds m cie.instructions c.instructions
  instructionsSize : cie.instructionsSize = UInt64.ofNat c.instructions.length

/-- The augmentation loop on the letters that are left, with their data at the payload. -/
lemma augmentationLoop_laid {augmentation i payload augEnd : UInt64}
    {letters : List AugmentationLetter} (encoding : UInt8) (tail : List UInt8)
    (hl : ∀ l ∈ letters, l.WellFormed)
    (hstr : Holds m (augmentation + i) (letters.map (·.letter)))
    (hdata : Span m payload augEnd (CieBody.dataOf letters ++ tail)) :
    (augmentationLoop augmentation augEnd letters.length i payload encoding).val m =
      .ok (CieBody.leadingEncoding letters encoding) := by
  induction letters generalizing i payload encoding with
  | nil => rfl
  | cons l letters ih =>
      have hc : m (augmentation + i) = l.letter := hstr.1
      rw [List.length_cons, augmentationLoop, val_byte_bind, hc]
      cases l with
      | pointerEncoding e =>
          have hspan : Span m payload augEnd (e :: (CieBody.dataOf letters ++ tail)) := hdata
          have hlt := hspan.head_lt
          have hnot : ¬ augEnd ≤ payload := UInt64.not_le.mpr hlt
          have hl' (l : AugmentationLetter) (h : l ∈ letters) : l.WellFormed :=
            hl l (List.mem_cons_of_mem _ h)
          have hstr' : Holds m (augmentation + (i + 1)) (letters.map (·.letter)) := by
            rw [← UInt64.add_assoc]
            exact hstr.2
          rw [if_pos (show AugmentationLetter.letter (.pointerEncoding e) = 0x52 from rfl),
            if_neg hnot, val_byte_bind, hspan.cons.1]
          exact ih _ hl' hstr' hspan.cons.2
      | other c data =>
          have hne : AugmentationLetter.letter (.other c data) ≠ 0x52 :=
            (hl _ List.mem_cons_self).1
          rw [if_neg hne, val_pure]
          rfl

/-- The string and the fields of a header lie behind its version byte. -/
lemma header_spans {payload stop : UInt64} {version : UInt8} {string fields : List UInt8}
    (hs : ∀ b ∈ string, b ≠ 0)
    (h : Span m payload stop (version :: (string ++ 0 :: fields))) :
    m payload = version ∧ Holds m (payload + 1) string ∧
      (strnlen (payload + 1) (stop - (payload + 1)).toNat).val m = .ok string.length ∧
      payload + 1 + UInt64.ofNat string.length < stop ∧
      Span m (payload + 1 + (UInt64.ofNat string.length + 1)) stop fields := by
  have haug := h.cons.2
  have hnul := haug.append
  have hlen := strnlen_laid (n := (stop - (payload + 1)).toNat) hs
    (by rw [haug.sub_toNat]; simp) haug
  refine ⟨h.cons.1, haug.left.holds, hlen, hnul.head_lt, ?_⟩
  rw [← UInt64.add_assoc]
  exact hnul.cons.2

/-- The string of a header is shorter than the address space. -/
lemma header_string_lt {payload stop : UInt64} {version : UInt8} {string fields : List UInt8}
    (h : Span m payload stop (version :: (string ++ 0 :: fields))) :
    string.length < 2 ^ 64 := by
  have hlt := h.length_lt
  simp only [List.length_cons, List.length_append] at hlt
  omega

/-- The test for a `z` in front of the augmentation string of a record. -/
lemma startsWithZ_laid {via : Via} {cie : CieRecord} {string : List UInt8}
    (hlen : string.length < 2 ^ 64) (hs : Holds m cie.augmentation string)
    (hl : cie.augmentationLen = UInt64.ofNat string.length) :
    (startsWithZ via cie).val m = .ok (decide (string.head? = some 0x7a)) := by
  rw [startsWithZ]
  cases string with
  | nil =>
      rw [if_pos (by rw [hl]; rfl), val_pure]
      rfl
  | cons b string =>
      have hne : cie.augmentationLen ≠ 0 := by
        intro h0
        have := congrArg UInt64.toNat (hl.symm.trans h0)
        rw [UInt64.toNat_ofNat', Nat.mod_eq_of_lt hlen] at this
        simp at this
      rw [if_neg hne, val_byte_bind, hs.1, val_pure]
      simp

/-- The fields in front of the augmentation data. -/
lemma parseCieHeader_laid (sec : Section) (entryStart : UInt64) {payload stop : UInt64}
    {c : CieBody}
    (hw : c.WellFormed isEh) (h : Span m payload stop c.bytes) :
    ∃ payload',
      (parseCieHeader sec entryStart payload stop isEh).val m =
        .ok ({ version := c.version
               addressSize := 8
               returnReg := c.returnReg
               ptrEncoding := dwEhPeAbsptr
               dataAlign := c.dataAlign
               codeAlign := c.codeAlign
               offset := entryStart - sec.data
               augmentation := payload + 1
               augmentationLen := UInt64.ofNat c.string.length
               instructions := 0
               instructionsSize := 0 }, payload') ∧
      Holds m (payload + 1) c.string ∧
      Span m payload' stop (c.augmentationData ++ c.instructions) := by
  obtain ⟨hver, hstr, hlen, hnul, hfields⟩ := header_spans (CieBody.string_ne_zero hw) h
  obtain ⟨p₁, hcode, h₁⟩ := readUleb_encodeUnsigned hfields
  obtain ⟨p₂, hdata, h₂⟩ := readSleb_encodeSigned h₁
  obtain ⟨p₃, hreg, h₃⟩ := readUleb_encodeUnsigned (v := c.returnReg.toUInt64) (by
    rw [UInt8.toNat_toUInt64]
    exact h₂)
  refine ⟨p₃, ?_, hstr, h₃⟩
  have hearly : ¬ ((!isEh) = true ∧ 3 ≤ c.version) := by
    rintro ⟨he, hv⟩
    exact absurd (hw.version (by simpa using he)) (UInt8.not_lt.mpr hv)
  rw [val_parseCieHeader h.head_lt hlen hnul hcode hdata hreg, readAddressSize, numberedCie, hver,
    if_neg hearly, val_pure]
  simp

/-- The size of augmentation data that is laid out in front of other bytes. -/
lemma readAugmentationSize_laid {p stop : UInt64} {data bs : List UInt8}
    (h : Span m p stop (encodeUnsigned data.length ++ (data ++ bs))) :
    ∃ q, (readAugmentationSize p stop).val m = .ok (q, q + UInt64.ofNat data.length) ∧
      Span m q stop (data ++ bs) := by
  have hlt := h.length_lt
  rw [List.length_append, List.length_append] at hlt
  have hlen : (UInt64.ofNat data.length).toNat = data.length := by
    rw [UInt64.toNat_ofNat', Nat.mod_eq_of_lt (by omega)]
  obtain ⟨q, hsize, hq⟩ := readUleb_encodeUnsigned (v := UInt64.ofNat data.length) (by
    rw [hlen]
    exact h)
  refine ⟨q, ?_, hq⟩
  rw [readAugmentationSize, val_bind_ok hsize]
  dsimp only
  rw [if_neg (UInt64.not_lt.mpr hq.append.le), val_pure]

/-- `parse_cie` on a CIE that was laid out: every field comes back. -/
theorem parseCie_laid {entryStart payload stop : UInt64} {offset : ℕ} {c : CieBody}
    (hw : c.WellFormed isEh) (hoff : entryStart - sec.data = UInt64.ofNat offset)
    (h : Span m payload stop c.bytes) :
    ∃ cie, (parseCie sec entryStart payload stop isEh).val m = .ok cie ∧
      CieMatches m offset c cie := by
  obtain ⟨p, hheader, hstr, hrest⟩ := parseCieHeader_laid sec entryStart hw h
  have hslen := header_string_lt h
  rw [parseCie, val_bind_ok hheader]
  dsimp only
  rcases ha : c.augmentation with _ | letters
  · have hs : c.string = [] := by rw [CieBody.string, ha]
    have hd : c.augmentationData = [] := by rw [CieBody.augmentationData, ha]
    have henc : c.encoding = dwEhPeAbsptr := by rw [CieBody.encoding, ha]
    rw [hd, List.nil_append] at hrest
    rw [val_bind_ok (startsWithZ_laid hslen hstr rfl), if_neg (by simp [hs]), val_pure]
    exact ⟨_, rfl, ⟨rfl, rfl, rfl, henc.symm, rfl, rfl, hoff, hstr, rfl, hrest.holds,
      hrest.sub_eq⟩⟩
  · have hs : c.string = 0x7a :: letters.map (·.letter) := by rw [CieBody.string, ha]
    have hd : c.augmentationData =
        encodeUnsigned (CieBody.dataOf letters).length ++ CieBody.dataOf letters := by
      rw [CieBody.augmentationData, ha]
    have henc : c.encoding = CieBody.leadingEncoding letters dwEhPeAbsptr := by
      rw [CieBody.encoding, ha]
    rw [hd, List.append_assoc] at hrest
    obtain ⟨q, haugsize, hq⟩ := readAugmentationSize_laid hrest
    have hletters : (UInt64.ofNat c.string.length).toNat - 1 = letters.length := by
      rw [UInt64.toNat_ofNat', Nat.mod_eq_of_lt hslen, hs]
      simp
    have hstr' : Holds m (payload + 1 + 1) (letters.map (·.letter)) := by
      rw [hs] at hstr
      exact hstr.2
    have hloop := augmentationLoop_laid dwEhPeAbsptr [] (hw.letters letters ha) hstr'
      (by simpa using hq.left)
    rw [val_bind_ok (startsWithZ_laid hslen hstr rfl), if_pos (by simp [hs]),
      val_bind_ok haugsize]
    dsimp only
    rw [hletters, val_bind_ok hloop, val_pure]
    exact ⟨_, rfl, ⟨rfl, rfl, rfl, henc.symm, rfl, rfl, hoff, hstr, rfl, hq.append.holds,
      hq.append.sub_eq⟩⟩

/-! ### Entries -/

/-- An entry as it is laid out: its length, its id and its body. -/
def entryBytes (id : ℕ) (body : List UInt8) : List UInt8 :=
  leBytes 4 (4 + body.length) ++ (leBytes 4 id ++ body)

@[simp] lemma entryBytes_length (id : ℕ) (body : List UInt8) :
    (entryBytes id body).length = 8 + body.length := by
  simp only [entryBytes, List.length_append, leBytes_length]
  omega

lemma u32At_leBytes {p stop : UInt64} {v : ℕ} {rest : List UInt8} (hv : v < 2 ^ 32)
    (h : Span m p stop (leBytes 4 v ++ rest)) :
    u32At m p = UInt32.ofNat v ∧ Span m (p + 4) stop rest := by
  have hpeek := h.left.holds.peek_eq
  have happ := h.append
  rw [leBytes_length] at hpeek happ
  refine ⟨?_, happ⟩
  rw [u32At, hpeek, leNat_leBytes, Nat.mod_eq_of_lt (by simpa using hv)]

/-- The largest length of an entry in 32-bit DWARF format. -/
def maxEntryLength : ℕ := 0xfffffff0

/-- The header of a laid-out entry, and what lies behind it. -/
theorem headAt_laid {p stop : UInt64} {id : ℕ} {body rest : List UInt8}
    (hlen : 4 + body.length < maxEntryLength) (hid : id < 2 ^ 32)
    (h : Span m p stop (entryBytes id body ++ rest)) :
    headAt m p = ⟨p, UInt32.ofNat (4 + body.length), UInt32.ofNat id⟩ ∧
      (headAt m p).stop.toNat = p.toNat + 8 + body.length ∧
      Span m (p + 4 + 4) (headAt m p).stop body ∧ Span m (headAt m p).stop stop rest := by
  rw [maxEntryLength] at hlen
  have hlt := h.length_lt
  rw [List.length_append, entryBytes_length] at hlt
  have hspan := h
  rw [entryBytes, List.append_assoc, List.append_assoc] at hspan
  obtain ⟨hlength, hspan⟩ := u32At_leBytes (by omega) hspan
  obtain ⟨hid', hspan⟩ := u32At_leBytes hid hspan
  have hhead : headAt m p = ⟨p, UInt32.ofNat (4 + body.length), UInt32.ofNat id⟩ := by
    rw [headAt, hlength, hid']
  have hstop : (headAt m p).stop = p + 4 + 4 + UInt64.ofNat body.length := by
    have hl : (UInt32.ofNat (4 + body.length)).toUInt64 = 4 + UInt64.ofNat body.length := by
      apply UInt64.toNat_inj.mp
      rw [UInt32.toNat_toUInt64, UInt32.toNat_ofNat', UInt64.toNat_add, UInt64.toNat_ofNat']
      have : (4 : UInt64).toNat = 4 := rfl
      omega
    rw [hhead, EntryHead.stop, hl, UInt64.add_assoc (p + 4)]
  have hp : (p + 4 + 4).toNat = p.toNat + 8 := by
    have := UInt64.toNat_add_ofNat (p := p) (n := 8) (by omega)
    rwa [show p + UInt64.ofNat 8 = p + 4 + 4 by grind] at this
  refine ⟨hhead, ?_, ?_, ?_⟩
  · rw [hstop, UInt64.toNat_add_ofNat (by omega), hp]
  · rw [hstop]
    exact hspan.left
  · rw [hstop]
    exact hspan.append

/-- An entry of a section as a producer thinks of it: a CIE, or an FDE with a body that names
its CIE by its number. -/
inductive FrameEntry where
  | cie (c : CieBody)
  | fde (parent : ℕ) (body : List UInt8)

namespace FrameEntry

/-- The entry behind its id field. -/
def body : FrameEntry → List UInt8
  | .cie c => c.bytes
  | .fde _ body => body

/-- The number of bytes of the whole entry. -/
def size (e : FrameEntry) : ℕ := 8 + e.body.length

/-- The id field of an entry at an offset, where the CIEs of the section start at `cies`. -/
def id (isEh : Bool) (cies : List ℕ) (offset : ℕ) : FrameEntry → ℕ
  | .cie _ => if isEh then 0 else 0xffffffff
  | .fde parent _ => if isEh then offset + 4 - cies.getD parent 0 else cies.getD parent 0

end FrameEntry

/-- Where the CIEs of a list of entries start, and what they say. -/
def laidCies (offset : ℕ) : List FrameEntry → List (ℕ × CieBody)
  | [] => []
  | .cie c :: es => (offset, c) :: laidCies (offset + (FrameEntry.cie c).size) es
  | .fde k b :: es => laidCies (offset + (FrameEntry.fde k b).size) es

/-- The offsets of the CIEs. -/
def cieOffsets (es : List FrameEntry) : List ℕ := (laidCies 0 es).map (·.1)

/-- The layout of the entries from an offset on. -/
def frameBytesFrom (isEh : Bool) (cies : List ℕ) (offset : ℕ) : List FrameEntry → List UInt8
  | [] => []
  | e :: es => entryBytes (e.id isEh cies offset) e.body ++
      frameBytesFrom isEh cies (offset + e.size) es

/-- The layout of a section. -/
def frameBytes (isEh : Bool) (es : List FrameEntry) : List UInt8 :=
  frameBytesFrom isEh (cieOffsets es) 0 es

/-- The entry can be written in 32-bit DWARF format: its length is none of the reserved ones,
and the pointer of an FDE fits its field without being the id of a CIE. -/
def FrameEntry.Encodable (isEh : Bool) (cies : List ℕ) (offset : ℕ) (e : FrameEntry) : Prop :=
  4 + e.body.length < maxEntryLength ∧
    match e with
    | .cie c => c.WellFormed isEh
    | .fde _ _ => e.id isEh cies offset < 2 ^ 32 ∧
        isCieId isEh (UInt32.ofNat (e.id isEh cies offset)) = false

/-- All entries can be written. -/
def EncodableFrom (isEh : Bool) (cies : List ℕ) (offset : ℕ) : List FrameEntry → Prop
  | [] => True
  | e :: es => e.Encodable isEh cies offset ∧ EncodableFrom isEh cies (offset + e.size) es

/-- Every FDE names a CIE in front of it, `n` of which there are already. -/
def NamesEarlier (n : ℕ) : List FrameEntry → Prop
  | [] => True
  | .cie _ :: es => NamesEarlier (n + 1) es
  | .fde parent _ :: es => parent < n ∧ NamesEarlier n es

/-- What may follow the entries: nothing, or a zero-length terminator and any bytes. -/
def IsTrailer (tail : List UInt8) : Prop := tail = [] ∨ ∃ junk, tail = [0, 0, 0, 0] ++ junk

/-! ### The parser on a laid-out section -/

/-- The parser at an offset of a laid-out section, with the CIEs `cies` in its table: each has
its offset, and the entries between two of them take up room. -/
structure LaidState (m : ByteMem) (sec : Section) (cies : List (ℕ × CieBody)) (offset : ℕ)
    (s : SectionState) : Prop where
  ptr : s.ptr.toNat = sec.data.toNat + offset
  records : List.Forall₂ (fun c cie => CieMatches m c.1 c.2 cie) cies s.tables.cies.records
  spread : cies.Pairwise fun a b => a.1 + 8 ≤ b.1
  before : ∀ c ∈ cies, c.1 + 8 ≤ offset
  grants : ∀ n, s.tables.heap.grants n = true

/-- While the allocator grants every request an append succeeds. -/
lemma vectorAppend_granted {α : Type} {heap : Heap} (hg : ∀ n, heap.grants n = true)
    (vec : RecordVector α) (rec : α) :
    ∃ vec' heap', vectorAppend heap vec rec = (.ok, vec', heap') ∧
      vec'.records = vec.records ++ [rec] ∧ ∀ n, heap'.grants n = true := by
  rw [vectorAppend, vectorReserve]
  by_cases hcap : vec.records.length + 1 ≤ vec.capacity
  · rw [if_pos hcap]
    exact ⟨_, _, rfl, rfl, hg⟩
  · rw [if_neg hcap, Heap.realloc, if_pos (hg _)]
    exact ⟨_, _, rfl, rfl, hg⟩

lemma LaidState.offset_eq {cies : List (ℕ × CieBody)} {offset : ℕ} {s : SectionState}
    (hs : LaidState m sec cies offset s) : s.ptr - sec.data = UInt64.ofNat offset := by
  have hp := hs.ptr
  have hlt := s.ptr.toNat_lt
  apply UInt64.toNat_inj.mp
  rw [UInt64.toNat_sub_of_le _ _ (by rw [UInt64.le_iff_toNat_le]; omega), UInt64.toNat_ofNat',
    Nat.mod_eq_of_lt (by omega)]
  omega

/-- The parser in front of a laid-out entry is at an entry that fits. -/
lemma atEntry_laid {id : ℕ} {s : SectionState} {body rest : List UInt8} (hm : sec.Mapped)
    (hlen : 4 + body.length < maxEntryLength)
    (hid : id < 2 ^ 32) (h : Span m s.ptr sec.stop (entryBytes id body ++ rest)) :
    AtEntry m sec s.ptr ∧ (headAt m s.ptr).stop ≤ sec.stop := by
  obtain ⟨hhead, -, -, hrest⟩ := headAt_laid hlen hid h
  have hl := h.length_eq
  have hle := hm.stop_le
  rw [List.length_append, entryBytes_length] at hl
  rw [maxEntryLength] at hlen
  refine ⟨⟨?_, ?_⟩, hrest.le⟩
  · have h4 : (s.ptr + 4).toNat = s.ptr.toNat + 4 :=
      UInt64.toNat_add_ofNat (n := 4) (by omega)
    rw [UInt64.le_iff_toNat_le, h4]
    omega
  · rw [hhead]
    intro h0
    have := congrArg UInt32.toNat h0
    rw [UInt32.toNat_ofNat', Nat.mod_eq_of_lt (by omega)] at this
    simp at this

/-- The turn on a laid-out CIE stores its record. -/
theorem sectionTurn_laidCie {cies : List (ℕ × CieBody)} {allCies : List ℕ} {offset : ℕ}
    {s : SectionState} {c : CieBody} {rest : List UInt8} (hm : sec.Mapped)
    (he : (FrameEntry.cie c).Encodable isEh allCies offset)
    (hs : LaidState m sec cies offset s)
    (h : Span m s.ptr sec.stop
      (entryBytes ((FrameEntry.cie c).id isEh allCies offset) c.bytes ++ rest)) :
    ∃ s', sectionTurn m sec isEh s = .next s' ∧
      LaidState m sec (cies ++ [(offset, c)]) (offset + (FrameEntry.cie c).size) s' ∧
      s'.tables.fdes = s.tables.fdes ∧ Span m s'.ptr sec.stop rest := by
  obtain ⟨hlen, hw⟩ := he
  have hid : (FrameEntry.cie c).id isEh allCies offset < 2 ^ 32 := by
    rw [FrameEntry.id]
    split_ifs <;> omega
  obtain ⟨hat, hfit⟩ := atEntry_laid hm hlen hid h
  obtain ⟨hhead, hstop, hbody, hrest⟩ := headAt_laid hlen hid h
  obtain ⟨cie, hparse, hmatch⟩ := parseCie_laid hw hs.offset_eq hbody
  have hcie : (headAt m s.ptr).isCie isEh = true := by
    rw [hhead, EntryHead.isCie, FrameEntry.id]
    dsimp only
    cases isEh <;> decide
  obtain ⟨vec, heap, happ, hrec, hg⟩ := vectorAppend_granted hs.grants s.tables.cies cie
  refine ⟨⟨(headAt m s.ptr).stop, { s.tables with
      cies := vec
      heap
      entries := s.tables.entries ++ [entryNote m sec isEh s] }⟩, ?_, ?_, rfl, hrest⟩
  · refine sectionTurn_next.mpr ⟨hat, hfit, rfl, .cie cie, .cie hcie hparse, ?_⟩
    rw [storeRecord, ParseState.noteEntry, cieVectorAppend]
    dsimp only
    rw [happ]
  · refine ⟨?_, ?_, ?_, ?_, hg⟩
    · dsimp only
      rw [hstop, hs.ptr, FrameEntry.size, FrameEntry.body]
      omega
    · dsimp only
      rw [hrec]
      exact List.rel_append hs.records (.cons hmatch .nil)
    · refine List.pairwise_append.mpr ⟨hs.spread, List.pairwise_singleton _ _, ?_⟩
      intro a ha b hb
      rw [List.mem_singleton.mp hb]
      exact hs.before a ha
    · intro a ha
      have hsize : 8 ≤ (FrameEntry.cie c).size := Nat.le_add_right _ _
      rcases List.mem_append.mp ha with ha | ha
      · have := hs.before a ha
        omega
      · rw [List.mem_singleton.mp ha]
        dsimp only
        omega

/-- Behind the last entry the loop ends well, and the tables are as they were. -/
lemma sectionTurn_trailer (isEh : Bool) {s : SectionState} {tail : List UInt8} (hm : sec.Mapped)
    (ht : IsTrailer tail) (h : Span m s.ptr sec.stop tail) :
    ∃ t, sectionTurn m sec isEh s = .done (.ok, t) ∧ t.cies = s.tables.cies ∧
      t.fdes = s.tables.fdes := by
  have hle := hm.stop_le
  have hl := h.length_eq
  have h4 : (s.ptr + 4).toNat = s.ptr.toNat + 4 := UInt64.toNat_add_ofNat (n := 4) (by omega)
  rcases ht with rfl | ⟨junk, rfl⟩
  · rw [List.length_nil] at hl
    have hnot : ¬ s.ptr + 4 ≤ sec.stop := by
      rw [UInt64.le_iff_toNat_le, h4]
      omega
    rw [sectionTurn, if_neg hnot]
    exact ⟨_, rfl, rfl, rfl⟩
  · have hin : s.ptr + 4 ≤ sec.stop := by
      rw [List.length_append] at hl
      simp only [List.length_cons, List.length_nil] at hl
      rw [UInt64.le_iff_toNat_le, h4]
      omega
    have hzero : u32At m s.ptr = 0 := by
      rw [show [0, 0, 0, 0] = leBytes 4 0 by decide] at h
      exact (u32At_leBytes (by omega) h).1
    have hval : (parseEntry sec isEh s.tables.cies s.ptr).val m = .ok none := by
      rw [val_parseEntry, if_pos (show (headAt m s.ptr).length = 0 from hzero)]
    rw [sectionTurn, if_pos hin]
    dsimp only
    rw [hval]
    exact ⟨_, rfl, rfl, rfl⟩

namespace LaidState

variable {cies : List (ℕ × CieBody)} {offset : ℕ} {s : SectionState}

lemma length_eq (hs : LaidState m sec cies offset s) :
    s.tables.cies.records.length = cies.length := hs.records.length_eq.symm

lemma get (hs : LaidState m sec cies offset s) {k : ℕ} (hk : k < cies.length) :
    ∃ cie, s.tables.cies.records[k]? = some cie ∧ CieMatches m cies[k].1 cies[k].2 cie := by
  have hk' : k < s.tables.cies.records.length := by rwa [hs.length_eq]
  exact ⟨_, List.getElem?_eq_getElem hk', (List.forall₂_iff_get.mp hs.records).2 k hk hk'⟩

/-- The offsets of the CIEs do not wrap. -/
lemma offset_lt (hs : LaidState m sec cies offset s) {k : ℕ} (hk : k < cies.length) :
    cies[k].1 + 8 < 2 ^ 64 := by
  have := hs.before _ (List.getElem_mem hk)
  have := hs.ptr
  have := s.ptr.toNat_lt
  omega

/-- The record at an index has the offset of the CIE there. -/
lemma offset_getElem (hs : LaidState m sec cies offset s) {k : ℕ} (hk : k < cies.length)
    (hk' : k < s.tables.cies.records.length) :
    (s.tables.cies.records[k].offset).toNat = cies[k].1 := by
  have hlt := hs.offset_lt hk
  have hoff : s.tables.cies.records[k].offset = UInt64.ofNat cies[k].1 :=
    ((List.forall₂_iff_get.mp hs.records).2 k hk hk').offset
  rw [hoff, UInt64.toNat_ofNat', Nat.mod_eq_of_lt (by omega)]

/-- The lookup of the offset of a CIE finds that CIE. -/
theorem findCie_laid (hs : LaidState m sec cies offset s) {k : ℕ} (hk : k < cies.length) :
    ∃ cie, findCie s.tables.cies (UInt64.ofNat cies[k].1) =
        some (⟨s.tables.cies.data, k⟩, cie) ∧ CieMatches m cies[k].1 cies[k].2 cie := by
  obtain ⟨cie, hget, hmatch⟩ := hs.get hk
  have hlen : k < s.tables.cies.records.length := by rwa [hs.length_eq]
  refine ⟨cie, findCie_eq_some.mpr ⟨rfl, hget, ?_⟩, hmatch⟩
  rw [List.findIdx?_eq_some_iff_getElem]
  have hkth := hs.offset_lt hk
  refine ⟨hlen, ?_, fun j hj => ?_⟩
  · have : s.tables.cies.records[k].offset = UInt64.ofNat cies[k].1 := by
      apply UInt64.toNat_inj.mp
      rw [hs.offset_getElem hk hlen, UInt64.toNat_ofNat', Nat.mod_eq_of_lt (by omega)]
    simpa using this
  · have hj : j < k := hj
    have hjlen : j < s.tables.cies.records.length := by omega
    have hspread := List.pairwise_iff_getElem.mp hs.spread j k (by omega) hk hj
    have hne : s.tables.cies.records[j].offset ≠ UInt64.ofNat cies[k].1 := by
      intro heq
      have := congrArg UInt64.toNat heq
      rw [hs.offset_getElem (by omega) hjlen, UInt64.toNat_ofNat',
        Nat.mod_eq_of_lt (by omega)] at this
      omega
    simpa using hne

/-- Four bytes into a CIE no CIE starts. -/
theorem findCie_between (hs : LaidState m sec cies offset s) {k : ℕ} (hk : k < cies.length) :
    findCie s.tables.cies (UInt64.ofNat (cies[k].1 + 4)) = none := by
  rw [findCie_eq_none]
  intro cie hcie heq
  obtain ⟨j, hj, rfl⟩ := List.mem_iff_getElem.mp hcie
  have hkth := hs.offset_lt hk
  have hj' : j < cies.length := by rwa [← hs.length_eq]
  have heq := congrArg UInt64.toNat heq
  rw [hs.offset_getElem hj' hj, UInt64.toNat_ofNat', Nat.mod_eq_of_lt (by omega)] at heq
  rcases Nat.lt_trichotomy j k with hjk | rfl | hjk
  · have := List.pairwise_iff_getElem.mp hs.spread j k hj' hk hjk
    omega
  · omega
  · have := List.pairwise_iff_getElem.mp hs.spread k j hk hj' hjk
    omega

end LaidState

end Dwunw
