import Dwunw.Cfi.Layout

/-!
The versions of a CIE in `.debug_frame`.

The header of a CIE is three LEB128 numbers behind the augmentation string.  In version 1 the
third is a plain byte, and in version 4 two size bytes stand in front of all three.  The
parser looks for two size bytes behind the three numbers, from version 3 on.

* `VersionedCie`: a CIE as the versions lay it out; `VersionedCie.bytes` is its layout.
* `TakenApart`: how the parser cuts the bytes behind the augmentation string into fields, a
  statement about lists; `TakenApart.of_parseCie` and `TakenApart.parseCie` connect it with
  the parser.
* `fields_takenApart_iff`: where the cut is that of the layout.  The three numbers of the parser
  and the numbers of the layout have one terminating byte each, so counting them leaves only
  size bytes that are numbers of one byte.
* `recovered_iff`: the parser recovers a CIE of version 1, none of version 3, and one of version
  4 only where all its fields are the same number.
-/

namespace Dwunw

open Leb128 Traced

/-! ### The layout -/

/-- The versions of a CIE, with the size fields that one of them has. -/
inductive CieForm where
  | dwarf2
  | dwarf3
  | dwarf4 (addressSize segmentSelectorSize : UInt8)
  deriving DecidableEq, Repr

namespace CieForm

/-- The version byte. -/
def version : CieForm → UInt8
  | dwarf2 => 1
  | dwarf3 => 3
  | dwarf4 _ _ => 4

/-- The size fields behind the augmentation string. -/
def sizes : CieForm → List UInt8
  | dwarf2 => []
  | dwarf3 => []
  | dwarf4 a s => [a, s]

/-- The return register, a byte in version 1 and a number later on. -/
def register : CieForm → UInt8 → List UInt8
  | dwarf2, r => [r]
  | dwarf3, r => encodeUnsigned r.toNat
  | dwarf4 _ _, r => encodeUnsigned r.toNat

end CieForm

/-- What a CIE of `.debug_frame` says. -/
structure VersionedCie where
  form : CieForm
  /-- The augmentation string, without its terminator. -/
  augmentation : List UInt8
  codeAlign : UInt64
  dataAlign : Int64
  returnReg : UInt8
  instructions : List UInt8

namespace VersionedCie

/-- The fields behind the augmentation string. -/
def fields (c : VersionedCie) : List UInt8 :=
  c.form.sizes ++ (encodeUnsigned c.codeAlign.toNat ++
    (encodeSigned c.dataAlign.toInt ++ (c.form.register c.returnReg ++ c.instructions)))

/-- The CIE behind its id field. -/
def bytes (c : VersionedCie) : List UInt8 :=
  c.form.version :: (c.augmentation ++ 0 :: c.fields)

/-- The augmentation string is one, and not of the kind that announces augmentation data; the
return register is one of the numbered registers. -/
structure WellFormed (c : VersionedCie) : Prop where
  augmentation : ∀ b ∈ c.augmentation, b ≠ 0
  noData : c.augmentation.head? ≠ some 0x7a
  returnReg : c.returnReg < 32

/-- The record holds what the CIE says, and its instructions are those of the CIE. -/
structure Recovered (m : ByteMem) (stop : UInt64) (c : VersionedCie) (cie : CieRecord) : Prop where
  codeAlign : cie.codeAlign = c.codeAlign
  dataAlign : cie.dataAlign = c.dataAlign
  returnReg : cie.returnReg = c.returnReg
  addressSize : ∀ a s, c.form = .dwarf4 a s → cie.addressSize = a
  instructions : Span m cie.instructions stop c.instructions
  instructionsSize : cie.instructionsSize = UInt64.ofNat c.instructions.length

end VersionedCie

/-! ### How the parser takes a header apart -/

/-- The size fields where the parser looks for them, behind the three numbers. -/
def LateSizes (version addressSize : UInt8) (sizes : List UInt8) : Prop :=
  if 3 ≤ version then ∃ s, sizes = [addressSize, s] else sizes = []

/-- The parser cuts these bytes into three numbers, the size fields and a program, and finds
the fields of the record in them. -/
def TakenApart (version : UInt8) (bytes : List UInt8) (cie : CieRecord) (program : List UInt8) :
    Prop :=
  ∃ code data reg sizes,
    bytes = code ++ (data ++ (reg ++ (sizes ++ program))) ∧
    (Group code ∧ code.length ≤ 10 ∧ cie.codeAlign = UInt64.ofNat (unsigned code)) ∧
    (Group data ∧ data.length ≤ 10 ∧ cie.dataAlign = Int64.ofInt (signed data)) ∧
    (Group reg ∧ reg.length ≤ 10 ∧ cie.returnReg = (UInt64.ofNat (unsigned reg)).toUInt8) ∧
    LateSizes version cie.addressSize sizes

variable {m : ByteMem} {sec : Section}

/-- Two bytes are in front of a program that starts two bytes behind a cursor. -/
lemma exists_two_bytes {c stop : UInt64} {bs program : List UInt8} (h : Span m c stop bs)
    (hprogram : Span m (c + 2) stop program) (hlow : 2 ≤ (c + 2).toNat) :
    ∃ a s, bs = a :: s :: program := by
  have hl := h.length_eq
  have hl' := hprogram.length_eq
  have hc : (c + 2).toNat = c.toNat + 2 := by
    rw [UInt64.toNat_add] at hlow ⊢
    have h2 : (2 : UInt64).toNat = 2 := rfl
    have := c.toNat_lt
    omega
  match bs, h with
  | [], _ =>
      simp only [List.length_nil] at hl
      omega
  | [_], _ =>
      simp only [List.length_singleton] at hl
      omega
  | a :: s :: bs, h =>
      have hrest := h.cons.2.cons.2
      rw [show c + 1 + 1 = c + 2 by grind] at hrest
      refine ⟨a, s, ?_⟩
      rw [hrest.holds.unique hprogram.holds (by
        have := hrest.length_eq
        omega)]

section Header

variable {start payload stop : UInt64} {version : UInt8} {string fields program : List UInt8}
  {cie : CieRecord}

/-- A parsed header has been taken apart. -/
lemma TakenApart.of_parseCie (hs : ∀ b ∈ string, b ≠ 0) (hz : string.head? ≠ some 0x7a)
    (h : Span m payload stop (version :: (string ++ 0 :: fields)))
    (hparse : (parseCie sec start payload stop false).val m = .ok cie)
    (hprogram : Span m cie.instructions stop program)
    (hlen : program.length ≤ fields.length) :
    TakenApart version fields cie program := by
  obtain ⟨hver, hstr, hstrnlen, -, hfields⟩ := header_spans hs h
  have hbound := h.length_eq
  have hslen := header_string_lt h
  obtain ⟨⟨cie₀, p⟩, hheader, htail⟩ := val_bind_eq_ok hparse
  obtain ⟨augLen, ⟨code, p₁⟩, ⟨data, p₂⟩, ⟨reg, p₃⟩, -, hlen', -, hcode, hdata, hreg, hheader⟩ :=
    parseCieHeader_ok hheader
  rw [hstrnlen] at hlen'
  cases hlen'
  dsimp only at hdata hreg hheader htail
  -- the three numbers are the first bytes of the fields
  obtain ⟨g₁, hg₁, hl₁, hh₁, he₁, rfl, rfl⟩ := readUleb_ok_iff.mp hcode
  obtain ⟨rest₁, rfl⟩ := hfields.exists_append hh₁ he₁
  have hfields₁ := hfields.append
  obtain ⟨g₂, hg₂, hl₂, hh₂, he₂, rfl, rfl⟩ := readSleb_ok_iff.mp hdata
  obtain ⟨rest₂, rfl⟩ := hfields₁.exists_append hh₂ he₂
  have hfields₂ := hfields₁.append
  obtain ⟨g₃, hg₃, hl₃, hh₃, he₃, rfl, rfl⟩ := readUleb_ok_iff.mp hreg
  obtain ⟨rest₃, rfl⟩ := hfields₂.exists_append hh₃ he₃
  have hfields₃ := hfields₂.append
  rw [readAddressSize, numberedCie, hver] at hheader
  by_cases hv : 3 ≤ version
  · rw [if_pos ⟨rfl, hv⟩] at hheader
    by_cases hroom : stop < payload + 1 + (UInt64.ofNat string.length + 1) +
        UInt64.ofNat g₁.length + UInt64.ofNat g₂.length + UInt64.ofNat g₃.length + 2
    · rw [if_pos hroom] at hheader
      cases hheader
    rw [if_neg hroom, val_byte_bind, val_pure] at hheader
    cases hheader
    rw [val_bind_ok (startsWithZ_laid hslen hstr rfl), decide_eq_false hz, if_neg (by simp),
      val_pure] at htail
    cases htail
    dsimp only at hprogram
    refine ⟨g₁, g₂, g₃, ?_⟩
    obtain ⟨a, s, rfl⟩ := exists_two_bytes hfields₃ hprogram (by
      simp only [List.length_cons, List.length_append] at hbound hlen
      have := hprogram.length_eq
      omega)
    refine ⟨[a, s], rfl, ⟨hg₁, hl₁, rfl⟩, ⟨hg₂, hl₂, rfl⟩, ⟨hg₃, hl₃, rfl⟩, ?_⟩
    rw [LateSizes, if_pos hv]
    exact ⟨s, by rw [← hfields₃.cons.1]⟩
  · rw [if_neg (fun h => hv h.2), val_pure] at hheader
    cases hheader
    rw [val_bind_ok (startsWithZ_laid hslen hstr rfl), decide_eq_false hz, if_neg (by simp),
      val_pure] at htail
    cases htail
    dsimp only at hprogram
    obtain rfl : rest₃ = program := hfields₃.holds.unique hprogram.holds (by
      have := hfields₃.length_eq
      have := hprogram.length_eq
      omega)
    refine ⟨g₁, g₂, g₃, [], rfl, ⟨hg₁, hl₁, rfl⟩, ⟨hg₂, hl₂, rfl⟩, ⟨hg₃, hl₃, rfl⟩, ?_⟩
    rw [LateSizes, if_neg hv]

/-- The parser gets through the header of a CIE that can be taken apart, to its program. -/
lemma TakenApart.parseCieHeader (hs : ∀ b ∈ string, b ≠ 0)
    (h : Span m payload stop (version :: (string ++ 0 :: fields)))
    (ht : TakenApart version fields cie program) :
    ∃ cie' p, (parseCieHeader sec start payload stop false).val m = .ok (cie', p) ∧
      (cie'.augmentation = payload + 1 ∧
        cie'.augmentationLen = UInt64.ofNat string.length) ∧
      cie'.codeAlign = cie.codeAlign ∧ cie'.dataAlign = cie.dataAlign ∧
      cie'.returnReg = cie.returnReg ∧ (3 ≤ version → cie'.addressSize = cie.addressSize) ∧
      Span m p stop program := by
  obtain ⟨hver, -, hstrnlen, hnul, hfields⟩ := header_spans hs h
  obtain ⟨g₁, g₂, g₃, sizes, rfl, ⟨hg₁, hl₁, hcode⟩, ⟨hg₂, hl₂, hdata⟩, ⟨hg₃, hl₃, hreg⟩,
    hsizes⟩ := ht
  have hl := hfields.length_eq
  have hl' := hfields.append.length_eq
  have hl'' := hfields.append.append.length_eq
  rw [List.length_append] at hl hl' hl''
  have hcode' : (readUleb _ stop).val m = _ :=
    readUleb_group hg₁ hl₁ hfields.left.holds (by omega)
  have hdata' : (readSleb _ stop).val m = _ :=
    readSleb_group hg₂ hl₂ hfields.append.left.holds (by omega)
  have hreg' : (readUleb _ stop).val m = _ :=
    readUleb_group hg₃ hl₃ hfields.append.append.left.holds (by omega)
  have hrest := hfields.append.append.append
  rw [hcode, hdata, hreg, val_parseCieHeader h.head_lt hstrnlen hnul hcode' hdata' hreg',
    readAddressSize, numberedCie, hver]
  by_cases hv : 3 ≤ version
  · rw [LateSizes, if_pos hv] at hsizes
    obtain ⟨s, rfl⟩ := hsizes
    have hprogram := hrest.cons.2.cons.2
    rw [UInt64.add_assoc, show (1 : UInt64) + 1 = 2 from rfl] at hprogram
    rw [if_pos ⟨rfl, hv⟩, if_neg (UInt64.not_lt.mpr hprogram.le), val_byte_bind, hrest.cons.1,
      val_pure]
    exact ⟨_, _, rfl, ⟨rfl, rfl⟩, rfl, rfl, rfl, fun _ => rfl, hprogram⟩
  · rw [LateSizes, if_neg hv] at hsizes
    subst hsizes
    rw [if_neg (fun h => hv h.2), val_pure]
    exact ⟨_, _, rfl, ⟨rfl, rfl⟩, rfl, rfl, rfl, fun h => absurd h hv, hrest⟩

/-- A CIE that can be taken apart is parsed, and its program is found. -/
lemma TakenApart.parseCie (hs : ∀ b ∈ string, b ≠ 0) (hz : string.head? ≠ some 0x7a)
    (h : Span m payload stop (version :: (string ++ 0 :: fields)))
    (ht : TakenApart version fields cie program) :
    ∃ cie', (parseCie sec start payload stop false).val m = .ok cie' ∧
      cie'.codeAlign = cie.codeAlign ∧ cie'.dataAlign = cie.dataAlign ∧
      cie'.returnReg = cie.returnReg ∧ (3 ≤ version → cie'.addressSize = cie.addressSize) ∧
      Span m cie'.instructions stop program ∧
      cie'.instructionsSize = UInt64.ofNat program.length := by
  have hslen := header_string_lt h
  obtain ⟨cie', p, hheader, ⟨haug, hauglen⟩, hcode, hdata, hreg, haddress, hprogram⟩ :=
    ht.parseCieHeader hs h
  have hstr := (header_spans hs h).2.1
  rw [← haug] at hstr
  rw [Dwunw.parseCie, val_bind_ok hheader, val_bind_ok (startsWithZ_laid hslen hstr hauglen),
    decide_eq_false hz, if_neg (by simp), val_pure]
  exact ⟨_, rfl, hcode, hdata, hreg, haddress, hprogram, hprogram.sub_eq⟩

end Header

/-! ### Where the two orders agree -/

/-- Where the parser looks for the fields of the CIE it finds them: they are in front of the size
bytes in version 1, and in version 4 each of them is the number that the next one is. -/
def VersionedCie.FieldsInPlace (c : VersionedCie) : Prop :=
  match c.form with
  | .dwarf2 => True
  | .dwarf3 => False
  | .dwarf4 a s => s = a ∧ c.codeAlign = a.toUInt64 ∧ c.dataAlign = Int64.ofInt a.toNat ∧
      c.returnReg = a

/-- Three numbers and two bytes are two bytes and three numbers, the last of them of one byte,
only where all but the first number of the two bytes have one byte. -/
lemma shifted_groups {a s r x y : UInt8} {g₁ g₂ g₃ u v : List UInt8} (hg₁ : Group g₁)
    (hg₂ : Group g₂) (hg₃ : Group g₃) (hu : Group u) (hv : Group v)
    (h : a :: s :: (u ++ (v ++ [r])) = g₁ ++ (g₂ ++ (g₃ ++ [x, y]))) :
    g₁ = [a] ∧ g₂ = [s] ∧ g₃ = u ∧ v = [x] ∧ r = y ∧ a.toNat < 128 ∧ s.toNat < 128 := by
  obtain ⟨v', z, rfl⟩ : ∃ v' z, v = v' ++ [z] :=
    ⟨_, _, (List.dropLast_append_getLast hv.ne_nil).symm⟩
  -- the last byte of both sides, the one in front of it, and what is left
  obtain ⟨hinit, hr⟩ : a :: s :: (u ++ (v' ++ [z])) = g₁ ++ (g₂ ++ (g₃ ++ [x])) ∧
      [r] = [y] := List.append_inj' (by simpa using h) rfl
  obtain ⟨hinit, hx⟩ : a :: s :: (u ++ v') = g₁ ++ (g₂ ++ g₃) ∧ [z] = [x] :=
    List.append_inj' (by simpa using hinit) rfl
  -- three numbers end on the right, and one of them in `u`
  have hcount := congrArg terminators hinit
  have hv' := hv.terminators
  rw [terminators_cons, terminators_cons, terminators_append, terminators_append,
    terminators_append, hu.terminators, hg₁.terminators, hg₂.terminators, hg₃.terminators]
    at hcount
  rw [terminators_append, terminators_cons, if_pos (group_append_singleton_iff.mp hv).2] at hv'
  obtain ⟨ha, hs⟩ : a.toNat < 128 ∧ s.toNat < 128 := by
    split_ifs at hcount with hs ha
    · exact ⟨ha, hs⟩
    all_goals omega
  obtain ⟨h₁, hrest⟩ := hg₁.append_inj (Group.last ha) hinit.symm
  obtain ⟨h₂, hrest⟩ := hg₂.append_inj (Group.last hs) hrest
  obtain ⟨h₃, hnil⟩ := hg₃.append_inj hu ((List.append_nil _).trans hrest)
  rw [← hnil, List.nil_append]
  exact ⟨h₁, h₂, h₃, hx, (List.cons.inj hr).1, ha, hs⟩

/-- The encoding of a number of one group. -/
lemma encodeUnsigned_of_lt {n : ℕ} (h : n < 128) : encodeUnsigned n = [UInt8.ofNat n] := by
  rw [encodeUnsigned]
  cases n with
  | zero => rfl
  | succ n => rw [encodeUnsignedAux, if_pos h]

lemma encodeSigned_of_lt {n : ℕ} (h : n < 64) : encodeSigned n = [UInt8.ofNat n] := by
  rw [encodeSigned]
  cases n with
  | zero => rfl
  | succ n =>
      rw [Int.natAbs_natCast, encodeSignedAux, if_pos ⟨by omega, by omega⟩]
      congr 2
      omega

lemma unsigned_singleton {b : UInt8} (h : b.toNat < 128) : unsigned [b] = b.toNat := by
  rw [unsigned, unsigned, Nat.mod_eq_of_lt h, Nat.mul_zero, Nat.add_zero]

lemma signed_singleton {b : UInt8} (h : b.toNat < 64) : signed [b] = b.toNat := by
  have hmod : (b.toNat : ℤ) % 128 = b.toNat := by omega
  rw [signed, Nat.mod_eq_of_lt (by omega), if_pos h, hmod]

lemma signed_singleton_inj {a b : UInt8} (ha : a.toNat < 128) (hb : b.toNat < 128)
    (h : Int64.ofInt (signed [a]) = Int64.ofInt (signed [b])) : a = b := by
  apply UInt8.toNat_inj.mp
  rw [Int64.ofInt_eq_ofInt_iff, signed, signed, Nat.mod_eq_of_lt ha, Nat.mod_eq_of_lt hb] at h
  split_ifs at h <;> omega

section Fields

variable {c : VersionedCie} {cie : CieRecord}

/-- The fields of the record are in place when they are those of the CIE. -/
lemma VersionedCie.FieldsInPlace.of_takenApart (hw : c.WellFormed)
    (ht : TakenApart c.form.version c.fields cie c.instructions)
    (hcode : cie.codeAlign = c.codeAlign) (hdata : cie.dataAlign = c.dataAlign)
    (hreg : cie.returnReg = c.returnReg)
    (haddress : ∀ a s, c.form = .dwarf4 a s → cie.addressSize = a) : c.FieldsInPlace := by
  obtain ⟨g₁, g₂, g₃, sizes, hfields, ⟨hg₁, -, hcode'⟩, ⟨hg₂, -, hdata'⟩, ⟨hg₃, -, hreg'⟩,
    hsizes⟩ := ht
  have hr : encodeUnsigned c.returnReg.toNat = [c.returnReg] := by
    have h32 : (32 : UInt8).toNat = 32 := rfl
    have := UInt8.lt_iff_toNat_lt.mp hw.returnReg
    rw [encodeUnsigned_of_lt (by omega), UInt8.ofNat_toNat]
  rw [FieldsInPlace]
  rw [fields] at hfields
  cases hform : c.form with
  | dwarf2 => trivial
  | dwarf3 =>
      rw [hform] at hfields hsizes
      rw [CieForm.sizes, CieForm.register, List.nil_append] at hfields
      have hrest := ((group_encodeUnsigned _).append_inj hg₁ hfields).2
      have hrest := ((group_encodeSigned _).append_inj hg₂ hrest).2
      have hrest := ((group_encodeUnsigned _).append_inj hg₃ hrest).2
      rw [LateSizes, CieForm.version, if_pos (by decide)] at hsizes
      obtain ⟨s, rfl⟩ := hsizes
      have hlength := congrArg List.length hrest
      rw [List.length_append, List.length_cons, List.length_singleton] at hlength
      omega
  | dwarf4 a s =>
      rw [hform] at hfields hsizes
      rw [LateSizes, CieForm.version, if_pos (by decide), haddress a s hform] at hsizes
      obtain ⟨y, rfl⟩ := hsizes
      rw [CieForm.sizes, CieForm.register, hr] at hfields
      have hfields' : a :: s :: (encodeUnsigned c.codeAlign.toNat ++
          (encodeSigned c.dataAlign.toInt ++ [c.returnReg])) = g₁ ++ (g₂ ++ (g₃ ++ [a, y])) := by
        refine (List.append_left_inj c.instructions).mp ?_
        simpa using hfields
      obtain ⟨rfl, rfl, rfl, hv, -, ha, hs⟩ := shifted_groups hg₁ hg₂ hg₃
        (group_encodeUnsigned _) (group_encodeSigned _) hfields'
      have hcodeAlign : c.codeAlign = a.toUInt64 := by
        rw [← hcode, hcode', unsigned_singleton ha, UInt64.ofNat_uInt8ToNat]
      have hreturnReg : c.returnReg = a := by
        rw [← hreg, hreg', unsigned_encodeUnsigned, hcodeAlign, UInt64.ofNat_toNat,
          UInt8.toUInt8_toUInt64]
      have hdataAlign : c.dataAlign = Int64.ofInt (signed [a]) := by
        rw [← hv, signed_encodeSigned, Int64.ofInt_toInt]
      have hsize : s = a :=
        signed_singleton_inj hs ha (hdata'.symm.trans (hdata.trans hdataAlign))
      have ha32 := UInt8.lt_iff_toNat_lt.mp (hreturnReg ▸ hw.returnReg)
      refine ⟨hsize, hcodeAlign, ?_, hreturnReg⟩
      rw [hdataAlign, signed_singleton (by
        have h32 : (32 : UInt8).toNat = 32 := rfl
        omega)]

/-- The record that the CIE asks for, but for the places of its strings. -/
def VersionedCie.record (c : VersionedCie) : CieRecord where
  version := c.form.version
  addressSize := match c.form with
    | .dwarf4 a _ => a
    | _ => 8
  returnReg := c.returnReg
  ptrEncoding := dwEhPeAbsptr
  dataAlign := c.dataAlign
  codeAlign := c.codeAlign
  offset := 0
  augmentation := 0
  augmentationLen := UInt64.ofNat c.augmentation.length
  instructions := 0
  instructionsSize := UInt64.ofNat c.instructions.length

/-- Where its fields are in place a CIE can be taken apart. -/
lemma VersionedCie.FieldsInPlace.takenApart (hw : c.WellFormed) (hc : c.FieldsInPlace) :
    TakenApart c.form.version c.fields c.record c.instructions := by
  have h32 : (32 : UInt8).toNat = 32 := rfl
  have hr := UInt8.lt_iff_toNat_lt.mp hw.returnReg
  rw [FieldsInPlace] at hc
  rw [fields]
  cases hform : c.form with
  | dwarf2 =>
      refine ⟨encodeUnsigned c.codeAlign.toNat, encodeSigned c.dataAlign.toInt, [c.returnReg], [],
        rfl, ⟨group_encodeUnsigned _, encodeUnsigned_length c.codeAlign.toNat_lt, ?_⟩,
        ⟨group_encodeSigned _, encodeSigned_length c.dataAlign.le_toInt c.dataAlign.toInt_lt, ?_⟩,
        ⟨.last (by omega), by simp, ?_⟩, ?_⟩
      · rw [unsigned_encodeUnsigned, UInt64.ofNat_toNat, record]
      · rw [signed_encodeSigned, Int64.ofInt_toInt, record]
      · rw [unsigned_singleton (by omega), UInt64.ofNat_uInt8ToNat, UInt8.toUInt8_toUInt64,
          record]
      · rw [LateSizes, CieForm.version, if_neg (by decide)]
  | dwarf3 =>
      rw [hform] at hc
      exact hc.elim
  | dwarf4 a s =>
      rw [hform] at hc
      obtain ⟨hsize, hcode', hdata', hreg'⟩ := hc
      rw [hreg'] at hr
      have hunsigned : encodeUnsigned a.toNat = [a] := by
        rw [encodeUnsigned_of_lt (by omega), UInt8.ofNat_toNat]
      have hsigned : encodeSigned c.dataAlign.toInt = [a] := by
        rw [hdata', Int64.toInt_ofInt_of_le (by omega) (by omega),
          encodeSigned_of_lt (by omega), UInt8.ofNat_toNat]
      have hgroup : Group [a] := .last (by omega)
      refine ⟨[a], [a], [a], [a, a], ?_, ⟨hgroup, by simp, ?_⟩, ⟨hgroup, by simp, ?_⟩,
        ⟨hgroup, by simp, ?_⟩, ?_⟩
      · rw [CieForm.sizes, CieForm.register, hsize, hsigned, hcode', hreg',
          UInt8.toNat_toUInt64, hunsigned]
        rfl
      · rw [unsigned_singleton (by omega), UInt64.ofNat_uInt8ToNat, record, hcode']
      · rw [signed_singleton (by omega), record, hdata']
      · rw [unsigned_singleton (by omega), UInt64.ofNat_uInt8ToNat, UInt8.toUInt8_toUInt64,
          record, hreg']
      · rw [LateSizes, CieForm.version, if_pos (by decide), record, hform]
        exact ⟨a, rfl⟩

end Fields

/-! ### The parser on the versions -/

/-- A CIE of `.debug_frame` is recovered exactly when its fields are where the parser looks for
them. -/
theorem recovered_iff {start payload stop : UInt64} {c : VersionedCie} (hw : c.WellFormed)
    (h : Span m payload stop c.bytes) :
    (∃ cie, (parseCie sec start payload stop false).val m = .ok cie ∧ c.Recovered m stop cie) ↔
      c.FieldsInPlace := by
  have hlength : c.instructions.length ≤ c.fields.length := by
    simp only [VersionedCie.fields, List.length_append]
    omega
  constructor
  · rintro ⟨cie, hparse, hrec⟩
    have ht := TakenApart.of_parseCie hw.augmentation hw.noData h hparse hrec.instructions hlength
    exact .of_takenApart hw ht hrec.codeAlign hrec.dataAlign hrec.returnReg hrec.addressSize
  · intro hc
    obtain ⟨cie, hparse, hcode, hdata, hreg, haddress, hprogram, hsize⟩ :=
      (hc.takenApart hw).parseCie hw.augmentation hw.noData h
    refine ⟨cie, hparse, hcode, hdata, hreg, fun a s hform => ?_, hprogram, hsize⟩
    rw [hform] at haddress
    rw [haddress (show (3 : UInt8) ≤ 4 by decide), VersionedCie.record, hform]

/-! ### A header of version 4 -/

/-- A CIE of version 4 as a compiler for 64-bit code writes it. -/
def compiledCie : VersionedCie := ⟨.dwarf4 8 0, [], 1, -8, 16, [0x0c, 7, 8, 0x90, 1]⟩

/-- The same rules in version 1. -/
def plainCie : VersionedCie := ⟨.dwarf2, [], 1, -8, 16, [0x0c, 7, 8, 0x90, 1]⟩

/-- The fields that the parser finds in a CIE that lies at `0x5000`. -/
def foundFields (c : VersionedCie) : Option (UInt64 × Int64 × UInt8 × UInt8 × UInt64) :=
  ((parseCie ⟨0x5000, 0x1000⟩ 0x5000 0x5000 (0x5000 + UInt64.ofNat c.bytes.length) false).val
    (memOf 0x5000 c.bytes)).toOption.map fun cie =>
      (cie.codeAlign, cie.dataAlign, cie.returnReg, cie.addressSize, cie.instructionsSize)

lemma wellFormed_of_plain {c : VersionedCie} (hs : c.augmentation = []) (hr : c.returnReg < 32) :
    c.WellFormed where
  augmentation := by
    rw [hs]
    exact fun b hb => absurd hb (List.not_mem_nil)
  noData := by
    rw [hs]
    exact fun h => absurd h (by decide)
  returnReg := hr

/-- The fields of a version 4 CIE as compilers write it are found two bytes too far. -/
theorem compiledCie_misread :
    compiledCie.WellFormed ∧
      Span (memOf 0x5000 compiledCie.bytes) 0x5000
        (0x5000 + UInt64.ofNat compiledCie.bytes.length) compiledCie.bytes ∧
      foundFields compiledCie = some (8, 0, 1, 120, 5) ∧
      ¬ ∃ cie, (parseCie ⟨0x5000, 0x1000⟩ 0x5000 0x5000
          (0x5000 + UInt64.ofNat compiledCie.bytes.length) false).val
            (memOf 0x5000 compiledCie.bytes) = .ok cie ∧
        compiledCie.Recovered (memOf 0x5000 compiledCie.bytes)
          (0x5000 + UInt64.ofNat compiledCie.bytes.length) cie := by
  have hfound : foundFields compiledCie = some (8, 0, 1, 120, 5) := by decide +kernel
  refine ⟨wellFormed_of_plain rfl (by decide), span_memOf (by decide +kernel), hfound, ?_⟩
  rintro ⟨cie, hparse, hrec⟩
  rw [foundFields, hparse, Except.toOption, Option.map_some, hrec.codeAlign] at hfound
  have hcode : compiledCie.codeAlign = 8 := congrArg Prod.fst (Option.some.inj hfound)
  exact absurd hcode (by decide)

/-- A version 1 CIE is recovered. -/
theorem plainCie_recovered :
    ∃ cie, (parseCie ⟨0x5000, 0x1000⟩ 0x5000 0x5000
        (0x5000 + UInt64.ofNat plainCie.bytes.length) false).val
          (memOf 0x5000 plainCie.bytes) = .ok cie ∧
      plainCie.Recovered (memOf 0x5000 plainCie.bytes)
        (0x5000 + UInt64.ofNat plainCie.bytes.length) cie :=
  (recovered_iff (wellFormed_of_plain rfl (by decide)) (span_memOf (by decide +kernel))).mpr
    trivial

end Dwunw
