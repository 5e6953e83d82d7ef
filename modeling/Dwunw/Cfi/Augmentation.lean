import Dwunw.Cfi.Versions

/-!
The augmentation letters of a CIE.

The letters `R`, `L`, `P` and `S` behind a `z` say, in their order, what the augmentation data
consists of.  `parse_cie` takes the data of `R` letters, and stops at the first other one.  The
data stand behind the fields of the header, whose order is that of the version.

* `EhLetter`, `AugmentedCie`: a CIE with such letters, as the versions lay it out; `pointerByte`:
  the encoding that `R` gives.
* `AugmentationHonoured`: the record has this encoding, and the instructions behind the
  augmentation data; so the FDEs are read with it.
* `frontEncoding_eq_iff`: the letters with which the parser finds the encoding.
* `HeaderCut`, `AugmentedCie.DataFound`: where the parser looks for the augmentation data, and
  where it finds them; `LengthInPlace.dataFound` names the layouts in which they are found
  whatever they are.
* `augmentationHonoured_iff`: the CIEs, and with them the FDEs, that are read as laid out.
-/

namespace Dwunw

open Leb128 Traced

/-! ### The letters -/

/-- An augmentation letter behind the `z`, with its data. -/
inductive EhLetter where
  /-- `R`, with the encoding of the FDE addresses. -/
  | R (encoding : UInt8)
  /-- `L`, with the encoding of the pointers to language-specific data. -/
  | L (encoding : UInt8)
  /-- `P`, with an encoding and a pointer to the personality routine, of whatever size. -/
  | P (encoding : UInt8) (pointer : List UInt8)
  /-- `S`, without data. -/
  | S
  deriving DecidableEq, Repr

/-- The letter as it stands in the augmentation string. -/
def EhLetter.char : EhLetter → UInt8
  | .R _ => 0x52
  | .L _ => 0x4c
  | .P _ _ => 0x50
  | .S => 0x53

/-- The data of the letter. -/
def EhLetter.data : EhLetter → List UInt8
  | .R encoding => [encoding]
  | .L encoding => [encoding]
  | .P encoding pointer => encoding :: pointer
  | .S => []

lemma EhLetter.char_ne_zero (l : EhLetter) : l.char ≠ 0 := by
  cases l <;> simp [EhLetter.char]

/-- The encoding that the letters give the FDE addresses. -/
def pointerByte : List EhLetter → UInt8
  | [] => dwEhPeAbsptr
  | .R encoding :: _ => encoding
  | .L _ :: letters => pointerByte letters
  | .P _ _ :: letters => pointerByte letters
  | .S :: letters => pointerByte letters

/-- The letter `R` is the first one, or gives the encoding that FDE addresses have without
it. -/
def PointerByteInFront (letters : List EhLetter) : Prop :=
  ∀ encoding, .R encoding ∈ letters → encoding = dwEhPeAbsptr ∨
    letters.head? = some (.R encoding)

/-- The encoding that the first letter gives the FDE addresses. -/
def frontEncoding : List EhLetter → UInt8
  | .R encoding :: _ => encoding
  | _ => dwEhPeAbsptr

lemma pointerByte_of_notMem {letters : List EhLetter} (h : ∀ e, .R e ∉ letters) :
    pointerByte letters = dwEhPeAbsptr := by
  induction letters with
  | nil => rfl
  | cons l letters ih =>
      have hrest := ih fun e he => h e (List.mem_cons_of_mem _ he)
      cases l with
      | R e => exact absurd List.mem_cons_self (h e)
      | L _ => exact hrest
      | P _ _ => exact hrest
      | S => exact hrest

lemma pointerByte_of_mem {letters : List EhLetter} (hn : (letters.map EhLetter.char).Nodup)
    {encoding : UInt8} (h : .R encoding ∈ letters) : pointerByte letters = encoding := by
  induction letters with
  | nil => cases h
  | cons l letters ih =>
      rw [List.map_cons, List.nodup_cons] at hn
      rcases List.mem_cons.mp h with rfl | hmem
      · rfl
      have hrest := ih hn.2 hmem
      cases l with
      | R e => exact absurd (List.mem_map.mpr ⟨_, hmem, rfl⟩) hn.1
      | L _ => exact hrest
      | P _ _ => exact hrest
      | S => exact hrest

/-- The parser looks at the letter `R` only where it stands in front of the others. -/
theorem frontEncoding_eq_iff {letters : List EhLetter}
    (hn : (letters.map EhLetter.char).Nodup) :
    frontEncoding letters = pointerByte letters ↔ PointerByteInFront letters := by
  have hlater {l : EhLetter} {rest : List EhLetter} (hl : ∀ e, l ≠ .R e)
      (hn : ((l :: rest).map EhLetter.char).Nodup) :
      dwEhPeAbsptr = pointerByte (l :: rest) ↔ PointerByteInFront (l :: rest) := by
    constructor
    · intro h e he
      rw [pointerByte_of_mem hn he] at h
      exact .inl h.symm
    · intro h
      by_cases hr : ∃ e, .R e ∈ l :: rest
      · obtain ⟨e, he⟩ := hr
        rw [pointerByte_of_mem hn he]
        rcases h e he with rfl | hhead
        · rfl
        · exact absurd (Option.some.inj hhead) (hl e)
      · rw [pointerByte_of_notMem fun e he => hr ⟨e, he⟩]
  cases letters with
  | nil => exact iff_of_true rfl fun e he => by cases he
  | cons l rest =>
      cases l with
      | L _ => exact hlater (fun e he => by cases he) hn
      | P _ _ => exact hlater (fun e he => by cases he) hn
      | S => exact hlater (fun e he => by cases he) hn
      | R e =>
          refine iff_of_true rfl fun e' he' => ?_
          have hbyte : e = e' := pointerByte_of_mem hn he'
          exact .inr (by rw [← hbyte]; rfl)

/-! ### The layout -/

/-- What a CIE with these letters behind a `z` says. -/
structure AugmentedCie where
  form : CieForm
  letters : List EhLetter
  codeAlign : UInt64
  dataAlign : Int64
  returnReg : UInt64
  instructions : List UInt8

namespace AugmentedCie

/-- The return register, a byte in version 1 and a number later on. -/
def register (c : AugmentedCie) : List UInt8 :=
  match c.form with
  | .dwarf2 => [c.returnReg.toUInt8]
  | _ => encodeUnsigned c.returnReg.toNat

/-- The augmentation data. -/
def data (c : AugmentedCie) : List UInt8 := c.letters.flatMap EhLetter.data

/-- The augmentation string, without its terminator. -/
def string (c : AugmentedCie) : List UInt8 := 0x7a :: c.letters.map EhLetter.char

/-- The augmentation data with their length in front, and the instructions. -/
def body (c : AugmentedCie) : List UInt8 :=
  encodeUnsigned c.data.length ++ (c.data ++ c.instructions)

/-- The fields behind the augmentation string. -/
def fields (c : AugmentedCie) : List UInt8 :=
  c.form.sizes ++ (encodeUnsigned c.codeAlign.toNat ++ (encodeSigned c.dataAlign.toInt ++
    (c.register ++ c.body)))

/-- The CIE behind its id field. -/
def bytes (c : AugmentedCie) : List UInt8 := c.form.version :: (c.string ++ 0 :: c.fields)

lemma string_ne_zero (c : AugmentedCie) : ∀ b ∈ c.string, b ≠ 0 := by
  intro b hb
  rcases List.mem_cons.mp hb with rfl | hb
  · decide
  · obtain ⟨l, -, rfl⟩ := List.mem_map.mp hb
    exact l.char_ne_zero

end AugmentedCie

/-! ### Where the parser looks for the data -/

/-- How many size bytes the parser takes behind the three numbers of a header. -/
def lateSizes (isEh : Bool) (version : UInt8) : ℕ := if !isEh ∧ 3 ≤ version then 2 else 0

/-- The fields are three numbers, the size bytes that the parser takes, and a rest. -/
def HeaderCut (isEh : Bool) (version : UInt8) (fields rest : List UInt8) : Prop :=
  ∃ code data reg sizes, fields = code ++ (data ++ (reg ++ (sizes ++ rest))) ∧
    (Group code ∧ code.length ≤ 10) ∧ (Group data ∧ data.length ≤ 10) ∧
    (Group reg ∧ reg.length ≤ 10) ∧ sizes.length = lateSizes isEh version

/-- Where the parser looks for the length of the augmentation data stands a number that leads to
the end of the data; and behind it the byte of `R`, if `R` is the first letter. -/
def AugmentedCie.DataFound (isEh : Bool) (c : AugmentedCie) : Prop :=
  ∃ length rest, HeaderCut isEh c.form.version c.fields (length ++ rest) ∧
    (Group length ∧ length.length ≤ 10) ∧
    (unsigned length + c.instructions.length) % 2 ^ 64 = rest.length ∧
    ∀ e, c.letters.head? = some (.R e) →
      rest.head? = some e ∧ c.instructions.length < rest.length

variable {m : ByteMem} {sec : Section} {isEh : Bool} {start payload stop : UInt64}

section Header

variable {version : UInt8} {string fields rest : List UInt8}

/-- A header that is parsed has been cut. -/
lemma HeaderCut.of_parseCieHeader {r : CieRecord × UInt64} (hs : ∀ b ∈ string, b ≠ 0)
    (huser : stop.toNat ≤ 2 ^ 63) (h : Span m payload stop (version :: (string ++ 0 :: fields)))
    (hparse : (parseCieHeader sec start payload stop isEh).val m = .ok r) :
    ∃ rest, HeaderCut isEh version fields rest ∧ Span m r.2 stop rest ∧
      r.1.augmentation = payload + 1 ∧ r.1.augmentationLen = UInt64.ofNat string.length ∧
      r.1.ptrEncoding = dwEhPeAbsptr := by
  obtain ⟨hver, -, hstrnlen, -, hfields⟩ := header_spans hs h
  obtain ⟨augLen, ⟨code, p₁⟩, ⟨data, p₂⟩, ⟨reg, p₃⟩, -, hlen', -, hcode, hdata, hreg, hheader⟩ :=
    parseCieHeader_ok hparse
  rw [hstrnlen] at hlen'
  cases hlen'
  dsimp only at hdata hreg hheader
  -- the three numbers are the first bytes of the fields
  obtain ⟨g₁, hg₁, hl₁, hh₁, he₁, rfl, rfl⟩ := readUleb_ok_iff.mp hcode
  obtain ⟨rest₁, rfl⟩ := hfields.exists_append hh₁ he₁
  have hfields₁ := hfields.append
  obtain ⟨g₂, hg₂, hl₂, hh₂, he₂, rfl, rfl⟩ := readSleb_ok_iff.mp hdata
  obtain ⟨rest₂, rfl⟩ := hfields₁.exists_append hh₂ he₂
  have hfields₂ := hfields₁.append
  obtain ⟨g₃, hg₃, hl₃, hh₃, he₃, rfl, rfl⟩ := readUleb_ok_iff.mp hreg
  obtain ⟨rest₃, rfl⟩ := hfields₂.exists_append hh₃ he₃
  have hfields₃ := hfields₂.append
  rw [readAddressSize, numberedCie, hver] at hheader
  by_cases hv : !isEh ∧ 3 ≤ version
  · rw [if_pos hv] at hheader
    have hle := hfields₃.le
    rw [UInt64.le_iff_toNat_le] at hle
    generalize payload + 1 + (UInt64.ofNat string.length + 1) + UInt64.ofNat g₁.length +
      UInt64.ofNat g₂.length + UInt64.ofNat g₃.length = p at hfields₃ hheader hle
    have htwo : (p + 2).toNat = p.toNat + 2 := UInt64.toNat_add_of_lt (by simp; omega)
    by_cases hroom : stop < p + 2
    · rw [if_pos hroom] at hheader
      cases hheader
    rw [if_neg hroom, val_byte_bind, val_pure] at hheader
    cases hheader
    rw [UInt64.lt_iff_toNat_lt, htwo] at hroom
    have hlength := hfields₃.length_eq
    -- the two size bytes
    rcases rest₃ with _ | ⟨a, _ | ⟨s, rest⟩⟩
    · rw [List.length_nil] at hlength
      omega
    · rw [List.length_singleton] at hlength
      omega
    · have hrest := hfields₃.cons.2.cons.2
      rw [UInt64.add_assoc, show (1 : UInt64) + 1 = 2 from rfl] at hrest
      refine ⟨rest, ⟨g₁, g₂, g₃, [a, s], rfl, ⟨hg₁, hl₁⟩, ⟨hg₂, hl₂⟩, ⟨hg₃, hl₃⟩, ?_⟩, hrest,
        rfl, rfl, rfl⟩
      rw [lateSizes, if_pos hv]
      rfl
  · rw [if_neg hv, val_pure] at hheader
    cases hheader
    refine ⟨rest₃, ⟨g₁, g₂, g₃, [], rfl, ⟨hg₁, hl₁⟩, ⟨hg₂, hl₂⟩, ⟨hg₃, hl₃⟩, ?_⟩, hfields₃, rfl,
      rfl, rfl⟩
    rw [lateSizes, if_neg hv]
    rfl

/-- The parser gets through the header of fields that can be cut. -/
lemma HeaderCut.parseCieHeader (sec : Section) (start : UInt64) (hs : ∀ b ∈ string, b ≠ 0)
    (h : Span m payload stop (version :: (string ++ 0 :: fields)))
    (hcut : HeaderCut isEh version fields rest) :
    ∃ cie p, (parseCieHeader sec start payload stop isEh).val m = .ok (cie, p) ∧
      Span m p stop rest ∧ cie.augmentation = payload + 1 ∧
      cie.augmentationLen = UInt64.ofNat string.length ∧ cie.ptrEncoding = dwEhPeAbsptr := by
  obtain ⟨hver, -, hstrnlen, hnul, hfields⟩ := header_spans hs h
  obtain ⟨g₁, g₂, g₃, sizes, rfl, ⟨hg₁, hl₁⟩, ⟨hg₂, hl₂⟩, ⟨hg₃, hl₃⟩, hsizes⟩ := hcut
  have hl := hfields.length_eq
  have hl' := hfields.append.length_eq
  have hl'' := hfields.append.append.length_eq
  rw [List.length_append] at hl hl' hl''
  have hcode : (readUleb _ stop).val m = _ :=
    readUleb_group hg₁ hl₁ hfields.left.holds (by omega)
  have hdata : (readSleb _ stop).val m = _ :=
    readSleb_group hg₂ hl₂ hfields.append.left.holds (by omega)
  have hreg : (readUleb _ stop).val m = _ :=
    readUleb_group hg₃ hl₃ hfields.append.append.left.holds (by omega)
  have hrest := hfields.append.append.append
  rw [val_parseCieHeader h.head_lt hstrnlen hnul hcode hdata hreg, readAddressSize, numberedCie,
    hver]
  by_cases hv : !isEh ∧ 3 ≤ version
  · rw [lateSizes, if_pos hv] at hsizes
    obtain ⟨a, s, rfl⟩ := List.length_eq_two.mp hsizes
    have hprogram := hrest.cons.2.cons.2
    rw [UInt64.add_assoc, show (1 : UInt64) + 1 = 2 from rfl] at hprogram
    rw [if_pos hv, if_neg (UInt64.not_lt.mpr hprogram.le), val_byte_bind, val_pure]
    exact ⟨_, _, rfl, hprogram, rfl, rfl, rfl⟩
  · rw [lateSizes, if_neg hv] at hsizes
    obtain rfl := List.length_eq_zero_iff.mp hsizes
    rw [if_neg hv, val_pure]
    exact ⟨_, _, rfl, hrest, rfl, rfl, rfl⟩

end Header

/-! ### The letters as the parser takes them -/

/-- The loop takes a byte for an `R` in front, and ends at the next letter. -/
lemma augmentationLoop_letters {augmentation payload augEnd : UInt64} {letters : List EhLetter}
    (hn : (letters.map EhLetter.char).Nodup)
    (hstr : Holds m (augmentation + 1) (letters.map EhLetter.char)) :
    (augmentationLoop augmentation augEnd letters.length 1 payload dwEhPeAbsptr).val m =
      match letters with
      | .R _ :: _ => if augEnd ≤ payload then .error .badFormat else .ok (m payload)
      | _ => .ok dwEhPeAbsptr := by
  have hstops {i payload : UInt64} {encoding : UInt8} {letters : List EhLetter}
      (hR : ∀ l ∈ letters.head?, l.char ≠ 0x52)
      (hstr : Holds m (augmentation + i) (letters.map EhLetter.char)) :
      (augmentationLoop augmentation augEnd letters.length i payload encoding).val m =
        .ok encoding := by
    cases letters with
    | nil => rfl
    | cons l letters =>
        rw [List.length_cons, augmentationLoop, val_byte_bind, hstr.1, if_neg (hR l rfl), val_pure]
  cases letters with
  | nil => rfl
  | cons l letters =>
      cases l with
      | R e =>
          rw [List.map_cons, List.nodup_cons] at hn
          have hR : ∀ l ∈ letters.head?, l.char ≠ 0x52 := fun l hl hchar =>
            hn.1 (List.mem_map.mpr ⟨l, List.mem_of_mem_head? hl, hchar⟩)
          have hrest : Holds m (augmentation + (1 + 1)) (letters.map EhLetter.char) := by
            rw [← UInt64.add_assoc]
            exact hstr.2
          rw [List.length_cons, augmentationLoop, val_byte_bind, hstr.1,
            if_pos (show EhLetter.char (.R e) = 0x52 from rfl)]
          dsimp only
          by_cases hend : augEnd ≤ payload
          · rw [if_pos hend, if_pos hend, val_fail]
          · rw [if_neg hend, if_neg hend, val_byte_bind, hstops hR hrest]
      | L e => exact hstops (by rintro _ ⟨⟩; exact (by decide : (0x4c : UInt8) ≠ 0x52)) hstr
      | P e p => exact hstops (by rintro _ ⟨⟩; exact (by decide : (0x50 : UInt8) ≠ 0x52)) hstr
      | S => exact hstops (by rintro _ ⟨⟩; exact (by decide : (0x53 : UInt8) ≠ 0x52)) hstr

/-- The loop gives the encoding of the first letter where the byte of an `R` is at the cursor, in
front of the end of the data. -/
lemma augmentationLoop_front {augmentation payload augEnd : UInt64} {letters : List EhLetter}
    {rest program : List UInt8} (hn : (letters.map EhLetter.char).Nodup)
    (hstr : Holds m (augmentation + 1) (letters.map EhLetter.char))
    (hrest : Span m payload stop rest) (hprogram : Span m augEnd stop program) :
    (augmentationLoop augmentation augEnd letters.length 1 payload dwEhPeAbsptr).val m =
        .ok (frontEncoding letters) ↔
      ∀ e, letters.head? = some (.R e) →
        rest.head? = some e ∧ program.length < rest.length := by
  rw [augmentationLoop_letters hn hstr]
  cases letters with
  | nil => exact iff_of_true rfl nofun
  | cons l letters =>
      cases l with
      | L _ => exact iff_of_true rfl nofun
      | P _ _ => exact iff_of_true rfl nofun
      | S => exact iff_of_true rfl nofun
      | R e =>
          have hl := hrest.length_eq
          have hl' := hprogram.length_eq
          have hend : augEnd ≤ payload ↔ rest.length ≤ program.length := by
            rw [UInt64.le_iff_toNat_le]
            omega
          have hhead : (∀ e', (EhLetter.R e :: letters).head? = some (.R e') →
              rest.head? = some e' ∧ program.length < rest.length) ↔
                rest.head? = some e ∧ program.length < rest.length := by
            refine ⟨fun h => h e rfl, ?_⟩
            rintro h _ ⟨⟩
            exact h
          rw [hhead]
          dsimp only
          by_cases hle : rest.length ≤ program.length
          · rw [if_pos (hend.mpr hle)]
            exact iff_of_false nofun fun h => absurd h.2 (Nat.not_lt.mpr hle)
          · rw [if_neg fun h => hle (hend.mp h), frontEncoding, Except.ok.injEq,
              and_iff_left (Nat.not_le.mp hle)]
            cases rest with
            | nil => exact absurd (Nat.zero_le _) hle
            | cons b rest =>
                rw [hrest.cons.1, List.head?_cons, Option.some.injEq]

/-! ### The records -/

/-- The addresses of an FDE are read with the encoding of its CIE. -/
lemma parseFde_range {id : UInt32} {cies : CieVector} {ptr : CiePtr} {cie : CieRecord}
    {fde : FdeRecord} (hcie : findCie cies (fdeCieOffset sec id payload isEh) = some (ptr, cie))
    (h : (parseFde sec start id payload stop isEh cies).val m = .ok fde) :
    ∃ next, (parseFdeRange sec cie.ptrEncoding payload stop).val m =
      .ok (fde.pcBegin, fde.pcRange, next) := by
  have hencoding : (if cie.ptrEncoding ≠ 0 then cie.ptrEncoding else dwEhPeAbsptr) =
      cie.ptrEncoding := by
    by_cases h0 : cie.ptrEncoding = 0
    · rw [if_neg (not_not.mpr h0), h0]
      rfl
    · rw [if_pos h0]
  rw [parseFde, hcie] at h
  dsimp only at h
  rw [hencoding] at h
  obtain ⟨range, hrange, h⟩ := val_bind_eq_ok h
  obtain ⟨z, -, h⟩ := val_bind_eq_ok h
  refine ⟨range.2.2, hrange.trans ?_⟩
  by_cases hz : z = true
  · rw [if_pos hz] at h
    obtain ⟨_, -, h⟩ := val_bind_eq_ok h
    cases h
    rfl
  · rw [if_neg hz] at h
    cases h
    rfl

/-- The record of a CIE with these letters in front of its instructions: the encoding is the one
of the letters, the instructions are those behind the augmentation data, and the addresses of
an FDE that finds this record are read with the encoding of the letters. -/
structure AugmentationHonoured (m : ByteMem) (sec : Section) (isEh : Bool) (stop : UInt64)
    (letters : List EhLetter) (program : List UInt8) (cie : CieRecord) : Prop where
  ptrEncoding : cie.ptrEncoding = pointerByte letters
  instructions : Span m cie.instructions stop program
  instructionsSize : cie.instructionsSize = UInt64.ofNat program.length
  fdes : ∀ (cies : CieVector) (ptr : CiePtr) (start payload stop : UInt64) (id : UInt32)
      (fde : FdeRecord), findCie cies (fdeCieOffset sec id payload isEh) = some (ptr, cie) →
    (parseFde sec start id payload stop isEh cies).val m = .ok fde →
      ∃ next, (parseFdeRange sec (pointerByte letters) payload stop).val m =
        .ok (fde.pcBegin, fde.pcRange, next)

/-- Where a number of bytes leads to behind a cursor, counted from the end of the entry. -/
lemma data_end_iff {q : UInt64} {data : List UInt8} {n k : ℕ} (h : Span m q stop data)
    (hk : k ≤ stop.toNat) :
    (n + k) % 2 ^ 64 = data.length ↔ (q + UInt64.ofNat n).toNat + k = stop.toNat := by
  have hl := h.length_eq
  have hq := q.toNat_lt
  have hstop := stop.toNat_lt
  rw [UInt64.toNat_add, UInt64.toNat_ofNat']
  omega

/-- The instructions of a CIE lie at its end. -/
lemma AugmentedCie.instructions_span {c : AugmentedCie} (h : Span m payload stop c.bytes) :
    ∃ q, Span m q stop c.instructions := by
  obtain ⟨front, hfront⟩ : ∃ front, c.bytes = front ++ c.instructions := by
    refine ⟨c.form.version :: (c.string ++ 0 :: (c.form.sizes ++
      (encodeUnsigned c.codeAlign.toNat ++ (encodeSigned c.dataAlign.toInt ++ (c.register ++
        (encodeUnsigned c.data.length ++ c.data)))))), ?_⟩
    simp [AugmentedCie.bytes, AugmentedCie.fields, AugmentedCie.body]
  rw [hfront] at h
  exact ⟨_, h.append⟩

/-- What the parser does with such a CIE behind its header. -/
lemma AugmentedCie.parseCie_of_header {c : AugmentedCie} {cie : CieRecord} {p : UInt64}
    (h : Span m payload stop c.bytes)
    (hheader : (parseCieHeader sec start payload stop isEh).val m = .ok (cie, p))
    (haug : cie.augmentation = payload + 1)
    (hlen : cie.augmentationLen = UInt64.ofNat c.string.length)
    (henc : cie.ptrEncoding = dwEhPeAbsptr) :
    (parseCie sec start payload stop isEh).val m =
      (readAugmentationSize p stop >>= fun r => augmentationLoop (payload + 1) r.2
        c.letters.length 1 r.1 dwEhPeAbsptr >>= fun encoding => pure { cie with
          ptrEncoding := encoding
          instructions := r.2
          instructionsSize := stop - r.2 }).val m := by
  have hslen := header_string_lt h
  have hstr := (header_spans c.string_ne_zero h).2.1
  have hletters : (UInt64.ofNat c.string.length).toNat - 1 = c.letters.length := by
    rw [UInt64.toNat_ofNat', Nat.mod_eq_of_lt hslen, AugmentedCie.string]
    simp
  have hz : (startsWithZ .entry cie).val m = .ok true := by
    rw [startsWithZ_laid hslen (by rwa [haug]) hlen]
    rfl
  rw [parseCie, val_bind_ok hheader]
  dsimp only
  rw [val_bind_ok hz, if_pos rfl, haug, hlen, hletters, henc]

/-- The length of the augmentation data is the number at the cursor. -/
lemma readAugmentationSize_span {p q augEnd : UInt64} {rest : List UInt8}
    (hrest : Span m p stop rest)
    (h : (readAugmentationSize p stop).val m = .ok (q, augEnd)) :
    ∃ g data, rest = g ++ data ∧ Group g ∧ g.length ≤ 10 ∧ q = p + UInt64.ofNat g.length ∧
      augEnd = q + UInt64.ofNat (unsigned g) := by
  obtain ⟨⟨size, q'⟩, hread, h⟩ := val_bind_eq_ok h
  obtain ⟨g, hg, hg10, hholds, hend, rfl, rfl⟩ := readUleb_ok_iff.mp hread
  obtain ⟨data, rfl⟩ := hrest.exists_append hholds hend
  dsimp only at h
  by_cases hover : stop < p + UInt64.ofNat g.length + UInt64.ofNat (unsigned g)
  · rw [if_pos hover] at h
    cases h
  rw [if_neg hover, val_pure] at h
  cases h
  exact ⟨g, data, rfl, hg, hg10, rfl, rfl⟩

/-- The loop comes to the byte of the letters only where it is that of the first one, or of
none. -/
lemma frontEncoding_of_loop {augmentation payload augEnd : UInt64} {letters : List EhLetter}
    (hn : (letters.map EhLetter.char).Nodup)
    (hstr : Holds m (augmentation + 1) (letters.map EhLetter.char))
    (hloop : (augmentationLoop augmentation augEnd letters.length 1 payload dwEhPeAbsptr).val m =
      .ok (pointerByte letters)) :
    frontEncoding letters = pointerByte letters := by
  rw [augmentationLoop_letters hn hstr] at hloop
  cases letters with
  | nil => rfl
  | cons l letters =>
      cases l with
      | R e => rfl
      | L _ => exact Except.ok.inj hloop
      | P _ _ => exact Except.ok.inj hloop
      | S => exact Except.ok.inj hloop

/-- A CIE with the letters `R`, `L`, `P` and `S`, each once at most, is read as it is laid out
exactly when `R` is the first of them, gives the encoding there is without it, or is not there;
and the length of its augmentation data is found. -/
theorem augmentationHonoured_iff {c : AugmentedCie} (hn : (c.letters.map EhLetter.char).Nodup)
    (huser : stop.toNat ≤ 2 ^ 63) (h : Span m payload stop c.bytes) :
    (∃ cie, (parseCie sec start payload stop isEh).val m = .ok cie ∧
      AugmentationHonoured m sec isEh stop c.letters c.instructions cie) ↔
        PointerByteInFront c.letters ∧ c.DataFound isEh := by
  have hstr := (header_spans c.string_ne_zero h).2.1
  rw [← frontEncoding_eq_iff hn]
  constructor
  · rintro ⟨cie', hparse, hhonoured⟩
    obtain ⟨⟨cie, p⟩, hheader, -⟩ := val_bind_eq_ok hparse
    obtain ⟨rest, hcut, hrest, haug, hlen, henc⟩ :=
      HeaderCut.of_parseCieHeader c.string_ne_zero huser h hheader
    rw [AugmentedCie.parseCie_of_header h hheader haug hlen henc] at hparse
    obtain ⟨⟨q, augEnd⟩, hsize, hparse⟩ := val_bind_eq_ok hparse
    obtain ⟨encoding, hloop, hparse⟩ := val_bind_eq_ok hparse
    cases hparse
    obtain ⟨g, data, rfl, hg, hg10, rfl, rfl⟩ := readAugmentationSize_span hrest hsize
    have hdata := hrest.append
    have hprogram := hhonoured.instructions
    obtain rfl : encoding = pointerByte c.letters := hhonoured.ptrEncoding
    have hfront := frontEncoding_of_loop hn hstr.2 hloop
    rw [← hfront] at hloop
    refine ⟨hfront, g, data, hcut, ⟨hg, hg10⟩, ?_,
      (augmentationLoop_front hn hstr.2 hdata hprogram).mp hloop⟩
    have hl := hprogram.length_eq
    rw [data_end_iff hdata (by omega)]
    exact hl
  · rintro ⟨hfront, g, data, hcut, ⟨hg, hg10⟩, hlength, hletter⟩
    obtain ⟨cie, p, hheader, hrest, haug, hlen, henc⟩ :=
      HeaderCut.parseCieHeader sec start c.string_ne_zero h hcut
    obtain ⟨q, hq⟩ := c.instructions_span h
    have hdata := hrest.append
    have hl := hrest.length_eq
    rw [List.length_append] at hl
    have hl' := hq.length_eq
    rw [data_end_iff hdata (by omega), ← hl', Nat.add_right_cancel_iff, UInt64.toNat_inj] at hlength
    have hread : (readUleb p stop).val m = _ :=
      readUleb_group hg hg10 hrest.left.holds (by omega)
    have hsize : (readAugmentationSize p stop).val m = .ok (p + UInt64.ofNat g.length, q) := by
      rw [readAugmentationSize, val_bind_ok hread]
      dsimp only
      rw [hlength, if_neg (UInt64.not_lt.mpr hq.le), val_pure]
    have hloop := (augmentationLoop_front hn hstr.2 hdata hq).mpr hletter
    rw [AugmentedCie.parseCie_of_header h hheader haug hlen henc, val_bind_ok hsize,
      val_bind_ok hloop, val_pure, hfront]
    refine ⟨_, rfl, rfl, hq, hq.sub_eq, ?_⟩
    intro cies ptr start payload stop id fde hfind hfde
    exact parseFde_range hfind hfde

/-! ### Layouts in which the data are found -/

/-- The length of the augmentation data stands where the parser looks for it: the fields in front
of it have the parser's order, or are as many bytes. -/
def AugmentedCie.LengthInPlace (isEh : Bool) (c : AugmentedCie) : Prop :=
  match c.form with
  | .dwarf2 => c.returnReg < 128
  | .dwarf3 => isEh = true
  | .dwarf4 a s => isEh = false ∧ (a.toNat < 128 ∧ s.toNat < 128) ∧
      (encodeUnsigned c.codeAlign.toNat).length = 1 ∧
      (encodeSigned c.dataAlign.toInt).length = 1 ∧ (encodeUnsigned c.returnReg.toNat).length = 1

/-- Three numbers of the layout are three numbers of the parser. -/
lemma headerCut_of_numbers {c : AugmentedCie} (hsizes : c.form.sizes = [])
    (hreg : Group c.register ∧ c.register.length ≤ 10)
    (hlate : lateSizes isEh c.form.version = 0) :
    HeaderCut isEh c.form.version c.fields c.body := by
  refine ⟨encodeUnsigned c.codeAlign.toNat, encodeSigned c.dataAlign.toInt, c.register, [], ?_,
    ⟨group_encodeUnsigned _, encodeUnsigned_length c.codeAlign.toNat_lt⟩,
    ⟨group_encodeSigned _, encodeSigned_length c.dataAlign.le_toInt c.dataAlign.toInt_lt⟩, hreg,
    hlate.symm⟩
  rw [AugmentedCie.fields, hsizes]
  rfl

/-- A length in its place is where the parser cuts the fields. -/
lemma AugmentedCie.LengthInPlace.headerCut {c : AugmentedCie} (h : c.LengthInPlace isEh) :
    HeaderCut isEh c.form.version c.fields c.body := by
  rw [LengthInPlace] at h
  cases hform : c.form with
  | dwarf2 =>
      rw [hform] at h
      have hlt : c.returnReg.toUInt8.toNat < 128 := by
        rw [UInt64.toNat_toUInt8]
        exact lt_of_le_of_lt (Nat.mod_le _ _) (UInt64.lt_iff_toNat_lt.mp h)
      rw [← hform]
      refine headerCut_of_numbers (by rw [hform]; rfl) ?_ (by rw [hform]; cases isEh <;> rfl)
      rw [register, hform]
      exact ⟨.last hlt, by simp⟩
  | dwarf3 =>
      rw [hform] at h
      obtain rfl : isEh = true := h
      rw [← hform]
      refine headerCut_of_numbers (by rw [hform]; rfl) ?_ rfl
      rw [register, hform]
      exact ⟨group_encodeUnsigned _, encodeUnsigned_length c.returnReg.toNat_lt⟩
  | dwarf4 a s =>
      rw [hform] at h
      obtain ⟨rfl, ⟨ha, hs⟩, hcode, hdata, hreg⟩ := h
      have hgroup := group_encodeUnsigned c.codeAlign.toNat
      obtain ⟨x, hx⟩ := List.length_eq_one_iff.mp hcode
      obtain ⟨y, hy⟩ := List.length_eq_one_iff.mp hdata
      obtain ⟨z, hz⟩ := List.length_eq_one_iff.mp hreg
      rw [hx] at hgroup
      refine ⟨[a], [s], [x], [y, z], ?_, ⟨.last ha, by simp⟩, ⟨.last hs, by simp⟩,
        ⟨hgroup, by simp⟩, rfl⟩
      rw [fields, register, hform]
      dsimp only
      rw [hx, hy, hz]
      rfl

/-- Where the length of the augmentation data is in its place, the data are found. -/
theorem AugmentedCie.LengthInPlace.dataFound {c : AugmentedCie} (h : c.LengthInPlace isEh)
    (hlen : c.bytes.length < 2 ^ 64) : c.DataFound isEh := by
  have hrest : c.data.length + c.instructions.length < 2 ^ 64 := by
    have hle : (c.data ++ c.instructions).length ≤ c.bytes.length := by
      simp only [bytes, fields, body, List.length_cons, List.length_append]
      omega
    rw [List.length_append] at hle
    omega
  refine ⟨encodeUnsigned c.data.length, c.data ++ c.instructions, h.headerCut,
    ⟨group_encodeUnsigned _, encodeUnsigned_length (by omega)⟩, ?_, fun e he => ?_⟩
  · rw [unsigned_encodeUnsigned, List.length_append, Nat.mod_eq_of_lt hrest]
  · obtain ⟨letters, hletters⟩ : ∃ letters, c.letters = .R e :: letters :=
      ⟨_, (List.cons_head?_tail he).symm⟩
    rw [data, hletters, List.flatMap_cons, List.append_assoc, List.length_append]
    refine ⟨rfl, ?_⟩
    rw [EhLetter.data, List.length_singleton, List.length_append]
    omega

/-! ### `zPLR` and `zRS` -/

/-- The letters of compiled C++ code: a personality routine, language-specific data, and 4-byte
FDE addresses relative to their place. -/
def cxxLetters : List EhLetter := [.P 0x9b [0xf0, 0xff, 0xff, 0xff], .L 0x1b, .R 0x1b]

/-- The letters of a signal frame with 4-byte addresses. -/
def signalLetters : List EhLetter := [.R dwEhPeUdata4, .S]

/-- A CIE for the return register 16. -/
def augmentedCie (form : CieForm) (letters : List EhLetter) : AugmentedCie :=
  ⟨form, letters, 1, -8, 16, [0x0c, 7, 8, 0x90, 1]⟩

/-- The entry that holds a CIE at `0x5000` ends here. -/
def AugmentedCie.entryEnd (c : AugmentedCie) : UInt64 := 0x5000 + UInt64.ofNat c.bytes.length

/-- The encoding that the parser finds in a CIE that lies at `0x5000`. -/
def AugmentedCie.foundEncoding (c : AugmentedCie) (isEh : Bool) : Option UInt8 :=
  ((parseCie ⟨0x5000, 0x1000⟩ 0x5000 0x5000 c.entryEnd isEh).val
    (memOf 0x5000 c.bytes)).toOption.map (·.ptrEncoding)

/-- The byte of an `R` behind other letters is not found. -/
theorem cxxLetters_ignored :
    pointerByte cxxLetters = 0x1b ∧ (augmentedCie .dwarf2 cxxLetters).foundEncoding true = some 0 ∧
      ¬ ∃ cie, (parseCie ⟨0x5000, 0x1000⟩ 0x5000 0x5000 (augmentedCie .dwarf2 cxxLetters).entryEnd
          true).val (memOf 0x5000 (augmentedCie .dwarf2 cxxLetters).bytes) = .ok cie ∧
        AugmentationHonoured (memOf 0x5000 (augmentedCie .dwarf2 cxxLetters).bytes)
          ⟨0x5000, 0x1000⟩ true (augmentedCie .dwarf2 cxxLetters).entryEnd cxxLetters
          (augmentedCie .dwarf2 cxxLetters).instructions cie := by
  have hzero : (augmentedCie .dwarf2 cxxLetters).foundEncoding true = some 0 := by decide +kernel
  refine ⟨rfl, hzero, ?_⟩
  rintro ⟨cie, hparse, hhonoured⟩
  rw [AugmentedCie.foundEncoding, hparse, Except.toOption, Option.map_some,
    hhonoured.ptrEncoding] at hzero
  exact absurd hzero (by decide)

/-- In `.debug_frame` of version 3 the parser takes the length and the byte of `R` for the size
fields of version 4, and the first instruction for the length. -/
example : (augmentedCie .dwarf3 signalLetters).foundEncoding false = none := by decide +kernel

/-- In `.debug_frame` of version 4 the fields are in another order, but as many bytes. -/
theorem signalLetters_honoured :
    ∃ cie, (parseCie ⟨0x5000, 0x1000⟩ 0x5000 0x5000
        (augmentedCie (.dwarf4 8 0) signalLetters).entryEnd false).val
          (memOf 0x5000 (augmentedCie (.dwarf4 8 0) signalLetters).bytes) = .ok cie ∧
      AugmentationHonoured (memOf 0x5000 (augmentedCie (.dwarf4 8 0) signalLetters).bytes)
        ⟨0x5000, 0x1000⟩ false (augmentedCie (.dwarf4 8 0) signalLetters).entryEnd signalLetters
        (augmentedCie (.dwarf4 8 0) signalLetters).instructions cie := by
  refine (augmentationHonoured_iff (c := augmentedCie (.dwarf4 8 0) signalLetters) (by decide)
    (by decide +kernel) (span_memOf (by decide +kernel))).mpr ⟨fun e he => ?_, ?_⟩
  · rcases List.mem_cons.mp he with heq | he
    · exact .inr (congrArg some heq.symm)
    · exact absurd he (by simp)
  · refine AugmentedCie.LengthInPlace.dataFound ?_ (by decide +kernel)
    exact ⟨rfl, by decide, by decide, by decide, by decide⟩

end Dwunw
