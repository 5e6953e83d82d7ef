import Dwunw.Cfi.Layout

/-!
Encoded pointers.

* `PointerFormat`: the value formats of the `DW_EH_PE` table, and the two signed formats that
  `read_encoded_pointer` knows by other numbers; `encode`, `Represents`: how a number is written
  in them, and which can be.
* `word`: the number as a 64-bit word, extended with its sign.
* `readEncodedPointer_absolute`: nothing is added to a value that is not relative.
* `readEncodedPointer_decodes_iff`: the formats that are decoded to the number written.
-/

namespace Dwunw

open Leb128 Traced

/-! ### The formats -/

/-- The value formats of the `DW_EH_PE` table, and the signed ones of `read_encoded_pointer`. -/
inductive PointerFormat where
  | absptr
  | uleb128
  | udata2
  | udata4
  | udata8
  | sleb128
  | sdata2
  | sdata4
  | sdata8
  | ownSdata4
  | ownSdata8
  deriving DecidableEq, Repr

namespace PointerFormat

/-- The encoding byte of a value in this format that is not relative to anything. -/
def tag : PointerFormat → UInt8
  | absptr => 0x00
  | uleb128 => 0x01
  | udata2 => 0x02
  | udata4 => 0x03
  | udata8 => 0x04
  | sleb128 => 0x09
  | sdata2 => 0x0a
  | sdata4 => 0x0b
  | sdata8 => 0x0c
  | ownSdata4 => dwEhPeSdata4
  | ownSdata8 => dwEhPeSdata8

/-- The size of a value, when it is fixed. -/
def size : PointerFormat → Option ℕ
  | absptr => some 8
  | uleb128 => none
  | udata2 => some 2
  | udata4 => some 4
  | udata8 => some 8
  | sleb128 => none
  | sdata2 => some 2
  | sdata4 => some 4
  | sdata8 => some 8
  | ownSdata4 => some 4
  | ownSdata8 => some 8

/-- The formats of numbers with a sign. -/
def signed : PointerFormat → Bool
  | absptr => false
  | uleb128 => false
  | udata2 => false
  | udata4 => false
  | udata8 => false
  | sleb128 => true
  | sdata2 => true
  | sdata4 => true
  | sdata8 => true
  | ownSdata4 => true
  | ownSdata8 => true

/-- The number fits the format; a LEB128 number has 64 bits. -/
def Represents (f : PointerFormat) (v : ℤ) : Prop :=
  let bits := 8 * f.size.getD 8
  if f.signed then -2 ^ (bits - 1) ≤ v ∧ v < 2 ^ (bits - 1) else 0 ≤ v ∧ v < 2 ^ bits

/-- How a number is written. -/
def encode (f : PointerFormat) (v : ℤ) : List UInt8 :=
  match f.size with
  | some n => leBytes n (v % 256 ^ n).toNat
  | none => if f.signed then encodeSigned v else encodeUnsigned v.toNat

end PointerFormat

/-- A number as a 64-bit word, extended with its sign. -/
def word (v : ℤ) : UInt64 := UInt64.ofNat (v % 2 ^ 64).toNat

/-- Wherever a number is written in the format, `read_encoded_pointer` returns it, extended to
64 bits, and stands behind it. -/
def PointerFormat.Decodes (f : PointerFormat) (v : ℤ) : Prop :=
  ∀ (m : ByteMem) (c sectionStart stop : UInt64) (rest : List UInt8),
    Span m c stop (f.encode v ++ rest) →
      (readEncodedPointer f.tag c sectionStart stop).val m =
        .ok (word v, c + UInt64.ofNat (f.encode v).length)

/-- The formats `read_encoded_pointer` has the number and the signs of right: the unsigned ones
and its own 8-byte one, and its own 4-byte one for numbers that are not negative. -/
def PointerFormat.Honoured (f : PointerFormat) (v : ℤ) : Prop :=
  f.signed = false ∨ f = .ownSdata8 ∨ f = .ownSdata4 ∧ 0 ≤ v

/-! ### Reading -/

variable {m : ByteMem} {c sectionStart stop : UInt64}

/-- Nothing is added to a value that is not relative. -/
lemma readEncodedPointer_absolute {encoding : UInt8} (h : pointerApplication encoding = 0) :
    (readEncodedPointer encoding c sectionStart stop).val m =
      (readPointerFormat (pointerFormat encoding) c stop).val m := by
  rw [readEncodedPointer]
  cases hr : (readPointerFormat (pointerFormat encoding) c stop).val m with
  | error st => exact val_bind_error hr _
  | ok x =>
      rw [val_bind_ok hr]
      dsimp only
      rw [if_pos h, val_pure, UInt64.add_zero]

/-- A byte string can be laid out. -/
lemma exists_span {bs : List UInt8} (h : bs.length < 2 ^ 64) :
    ∃ m c stop, Span m c stop (bs ++ []) := by
  rw [List.append_nil]
  have h0 : (0 : UInt64).toNat = 0 := rfl
  exact ⟨memOf 0 bs, 0, _, span_memOf (by omega)⟩

/-- A word is determined by its residue. -/
lemma word_eq_iff {v : ℤ} {n : ℕ} (hn : n < 2 ^ 64) :
    word v = UInt64.ofNat n ↔ (v % 2 ^ 64).toNat = n := by
  rw [word, ← UInt64.toNat_inj, UInt64.toNat_ofNat', UInt64.toNat_ofNat']
  omega

variable {f : PointerFormat} {v : ℤ}

/-- A format of fixed size that is read without a sign. -/
lemma PointerFormat.decodes_fixed {n : ℕ} (hsize : f.size = some n) (hn : IsFixedSize n)
    (hread : ∀ m c sectionStart stop, (readEncodedPointer f.tag c sectionStart stop).val m =
      (readFixedSize c stop (UInt64.ofNat n)).val m) :
    f.Decodes v ↔ (v % 2 ^ 64).toNat = (v % 256 ^ n).toNat := by
  have hencode : f.encode v = leBytes n (v % 256 ^ n).toNat := by rw [encode, hsize]
  have hlt : (v % 256 ^ n).toNat < 256 ^ n := by
    rcases hn with rfl | rfl | rfl | rfl <;> norm_num <;> omega
  have hlt' : (v % 256 ^ n).toNat < 2 ^ 64 := by
    rcases hn with rfl | rfl | rfl | rfl <;> norm_num <;> omega
  rw [← word_eq_iff hlt']
  have hlaid (m : ByteMem) (c sectionStart stop : UInt64) (rest : List UInt8)
      (h : Span m c stop (f.encode v ++ rest)) :
      (readEncodedPointer f.tag c sectionStart stop).val m =
        .ok (UInt64.ofNat (v % 256 ^ n).toNat, c + UInt64.ofNat (f.encode v).length) := by
    rw [hencode] at h
    rw [hread, readFixedSize_leBytes hn hlt h, hencode, leBytes_length]
  constructor
  · intro hdecodes
    have hlen : (f.encode v).length < 2 ^ 64 := by
      rw [hencode, leBytes_length]
      exact hn.lt
    obtain ⟨m, c, stop, hspan⟩ := exists_span hlen
    have h := hdecodes m c 0 stop [] hspan
    rw [hlaid m c 0 stop [] hspan] at h
    exact (Prod.ext_iff.mp (Except.ok.inj h)).1.symm
  · intro hword m c sectionStart stop rest h
    rw [hlaid m c sectionStart stop rest h, hword]

/-- A format that is not known. -/
lemma PointerFormat.not_decodes (hlen : (f.encode v).length < 2 ^ 64)
    (hread : ∀ m c sectionStart stop, (readEncodedPointer f.tag c sectionStart stop).val m =
      .error .notImplemented) : ¬ f.Decodes v := by
  intro hdecodes
  obtain ⟨m, c, stop, hspan⟩ := exists_span hlen
  have h := hdecodes m c 0 stop [] hspan
  rw [hread] at h
  cases h

lemma PointerFormat.uleb128_decodes (h : uleb128.Represents v) : uleb128.Decodes v := by
  obtain ⟨hlo, hhi⟩ : 0 ≤ v ∧ v < 2 ^ 64 := h
  intro m c sectionStart stop rest hspan
  have hl := hspan.length_eq
  rw [List.length_append] at hl
  have hencode : uleb128.encode v = encodeUnsigned v.toNat := rfl
  rw [hencode] at hspan hl ⊢
  have hread : (readUleb c stop).val m = _ := readUleb_group (group_encodeUnsigned v.toNat)
    (encodeUnsigned_length (by omega)) hspan.left.holds (by omega)
  rw [readEncodedPointer_absolute (by decide)]
  refine hread.trans ?_
  rw [unsigned_encodeUnsigned, word, Int.emod_eq_of_lt hlo hhi]

/-- The unsigned formats. -/
lemma PointerFormat.unsigned_decodes (hf : f.signed = false) (h : f.Represents v) :
    f.Decodes v := by
  cases f with
  | absptr =>
      refine (decodes_fixed (n := 8) rfl (by simp [IsFixedSize])
        fun _ _ _ _ => (readEncodedPointer_absolute (by decide)).trans rfl).mpr ?_
      norm_num
  | udata8 =>
      refine (decodes_fixed (n := 8) rfl (by simp [IsFixedSize])
        fun _ _ _ _ => (readEncodedPointer_absolute (by decide)).trans rfl).mpr ?_
      norm_num
  | udata4 =>
      obtain ⟨hlo, hhi⟩ : 0 ≤ v ∧ v < 2 ^ 32 := h
      refine (decodes_fixed (n := 4) rfl (by simp [IsFixedSize])
        fun _ _ _ _ => (readEncodedPointer_absolute (by decide)).trans rfl).mpr ?_
      norm_num
      omega
  | udata2 =>
      obtain ⟨hlo, hhi⟩ : 0 ≤ v ∧ v < 2 ^ 16 := h
      refine (decodes_fixed (n := 2) rfl (by simp [IsFixedSize])
        fun _ _ _ _ => (readEncodedPointer_absolute (by decide)).trans rfl).mpr ?_
      norm_num
      omega
  | uleb128 => exact uleb128_decodes h
  | sleb128 => exact absurd hf (by decide)
  | sdata2 => exact absurd hf (by decide)
  | sdata4 => exact absurd hf (by decide)
  | sdata8 => exact absurd hf (by decide)
  | ownSdata4 => exact absurd hf (by decide)
  | ownSdata8 => exact absurd hf (by decide)

/-- The signed formats of the table have other numbers than `read_encoded_pointer` looks for. -/
lemma PointerFormat.table_not_decodes (hf : f = sleb128 ∨ f = sdata2 ∨ f = sdata4 ∨ f = sdata8)
    (h : f.Represents v) : ¬ f.Decodes v := by
  rcases hf with rfl | rfl | rfl | rfl
  · obtain ⟨hlo, hhi⟩ : -2 ^ 63 ≤ v ∧ v < 2 ^ 63 := h
    have hlen : (sleb128.encode v).length ≤ 10 := encodeSigned_length hlo hhi
    exact not_decodes (by omega)
      fun _ _ _ _ => (readEncodedPointer_absolute (by decide)).trans rfl
  all_goals
    refine not_decodes ?_ fun _ _ _ _ => (readEncodedPointer_absolute (by decide)).trans rfl
    rw [encode, size]
    simp only [leBytes_length]
    norm_num

/-- A number that fits a format is decoded wherever it is written exactly when the format is an
unsigned one, or one of the two signed ones that `read_encoded_pointer` has, the shorter of
these with a number that is not negative. -/
theorem readEncodedPointer_decodes_iff (h : f.Represents v) : f.Decodes v ↔ f.Honoured v := by
  cases hf : f.signed with
  | false => exact iff_of_true (PointerFormat.unsigned_decodes hf h) (.inl hf)
  | true =>
  have hhonoured : f.Honoured v ↔ f = .ownSdata8 ∨ f = .ownSdata4 ∧ 0 ≤ v := by
    rw [PointerFormat.Honoured, hf, or_iff_right Bool.true_eq_false.mp]
  rw [hhonoured]
  by_cases htable : f = .sleb128 ∨ f = .sdata2 ∨ f = .sdata4 ∨ f = .sdata8
  · refine iff_of_false (PointerFormat.table_not_decodes htable h) ?_
    rcases htable with rfl | rfl | rfl | rfl <;> simp
  have hown : f = .ownSdata8 ∨ f = .ownSdata4 := by
    cases f <;> simp_all [PointerFormat.signed]
  rcases hown with rfl | rfl
  · refine iff_of_true ((PointerFormat.decodes_fixed (n := 8) rfl (by simp [IsFixedSize])
      fun _ _ _ _ => (readEncodedPointer_absolute (by decide)).trans rfl).mpr ?_) (.inl rfl)
    norm_num
  · -- four bytes are read without their sign
    obtain ⟨hlo, hhi⟩ : -2 ^ 31 ≤ v ∧ v < 2 ^ 31 := h
    rw [PointerFormat.decodes_fixed (n := 4) rfl (by simp [IsFixedSize])
      fun _ _ _ _ => (readEncodedPointer_absolute (by decide)).trans rfl]
    simp only [reduceCtorEq, false_or, true_and]
    norm_num
    omega

/-- An address in the lower half of the format's range. -/
theorem udata4_decoded : PointerFormat.udata4.Decodes 0x401000 := by
  have hfits : (0 : ℤ) ≤ 0x401000 ∧ (0x401000 : ℤ) < 2 ^ 32 := by decide
  have hrepresents : PointerFormat.udata4.Represents 0x401000 := hfits
  exact (readEncodedPointer_decodes_iff hrepresents).mpr (.inl rfl)

/-- The distance -16 as `pcrel | sdata4` pointers hold it: four bytes at address 0x5000. -/
def negativeMem : ByteMem := memOf 0x5000 [0xf0, 0xff, 0xff, 0xff]

/-- A negative value is not decoded in the standard's format, and not extended in the code's own. -/
theorem negative_misread :
    (PointerFormat.sdata4.Represents (-16) ∧
      PointerFormat.sdata4.encode (-16) = [0xf0, 0xff, 0xff, 0xff] ∧
      (readEncodedPointer PointerFormat.sdata4.tag 0x5000 0x5000 0x5004).val negativeMem =
        .error .notImplemented ∧
      ¬ PointerFormat.sdata4.Decodes (-16)) ∧
    PointerFormat.ownSdata4.Represents (-16) ∧
      (readEncodedPointer PointerFormat.ownSdata4.tag 0x5000 0x5000 0x5004).val negativeMem =
        .ok (0xfffffff0, 0x5004) ∧
      word (-16) = 0xfffffffffffffff0 ∧ ¬ PointerFormat.ownSdata4.Decodes (-16) := by
  have hspan : Span negativeMem 0x5000 0x5004 [0xf0, 0xff, 0xff, 0xff] :=
    ⟨holds_memOf 0x5000 (by decide), rfl⟩
  have hread : (readEncodedPointer PointerFormat.ownSdata4.tag 0x5000 0x5000 0x5004).val
      negativeMem = .ok (0xfffffff0, 0x5004) := by
    rfl
  have hfits : -2 ^ 31 ≤ (-16 : ℤ) ∧ (-16 : ℤ) < 2 ^ 31 := by decide
  refine ⟨⟨hfits, rfl, rfl, fun h => ?_⟩, hfits, hread, by decide, fun h => ?_⟩
  · cases h negativeMem 0x5000 0x5000 0x5004 [] hspan
  · have hword := h negativeMem 0x5000 0x5000 0x5004 [] hspan
    rw [hread] at hword
    exact absurd (Prod.ext_iff.mp (Except.ok.inj hword)).1 (by decide)

end Dwunw
