import Dwunw.Cfi.Registers

/-!
The signed arithmetic of the parser and of the interpreter.

Two operations on `int64_t` can leave the range: the shifts of `read_sleb`, with the negation
that extends the sign, and the products with the data alignment.  The logs of the parser and of
the interpreter hold the numbers that these operations stand for, taken as integers (`Fits`).

* `readSlebOps_fit_iff`: those of one number are in range unless it ends in its ninth byte with
  the sign bit, or a tenth byte adds to it (`SlebInRange`).
* `TurnInRange`, `cfiTurnOps_fit_iff`: those of one turn of `execute_cfi`, by the numbers that
  its instruction encodes (`NumberAt`) and the quotients of the range by the data alignment
  (`WithinQuotient`).
* `dataAlignAt`, `parseCieOps_fit_iff`, `parseCieHeader_dataAlign`: where `parse_cie` reads the
  data alignment.
* `SignedOpsFit`, `signedOpsFit_iff`: those of a CIE and of any program are in range exactly when
  the numbers are.
* `readSleb_exact`, `mul_exact`: what is in range is computed exactly.
-/

namespace Dwunw

open Leb128 Loop Traced

variable {m : ByteMem} {c stop : UInt64}

/-- An integer is an `int64_t`. -/
def FitsInt64 (x : ℤ) : Prop := -2 ^ 63 ≤ x ∧ x < 2 ^ 63

instance : DecidablePred FitsInt64 := fun _ => inferInstanceAs (Decidable (_ ∧ _))

/-- The results of the signed operations in a log. -/
def signedOps {α : Type} (x : Logged CfiOp α) : List ℤ := x.log.filterMap CfiOp.signed?

/-- All signed operations of a computation are in range. -/
def Fits {α : Type} (x : Logged CfiOp α) : Prop := ∀ n ∈ signedOps x, FitsInt64 n

lemma Fits.pure {α : Type} (a : α) : Fits (pure a) := fun _ hn => absurd hn List.not_mem_nil

lemma fits_bind {α β : Type} {x : Logged CfiOp α} {f : α → Logged CfiOp β} :
    Fits (x >>= f) ↔ Fits x ∧ Fits (f x.val) := by
  rw [Fits, signedOps, Logged.log_bind, List.filterMap_append, List.forall_mem_append]
  rfl

lemma fits_shiftLeft {x : Int64} {k : ℕ} : Fits (shiftLeft x k) ↔ FitsInt64 (x.toInt * 2 ^ k) :=
  List.forall_mem_singleton

lemma fits_negate {x : Int64} : Fits (negate x) ↔ FitsInt64 (-x.toInt) := List.forall_mem_singleton

lemma fits_multiply {x y : Int64} : Fits (multiply x y) ↔ FitsInt64 (x.toInt * y.toInt) :=
  List.forall_mem_singleton

lemma fits_ite {α : Type} {P : Prop} [Decidable P] {x y : Logged CfiOp α} :
    Fits (if P then x else y) ↔ (P → Fits x) ∧ (¬ P → Fits y) := by
  by_cases h : P
  · simp [h]
  · simp [h]

/-! ### Encoded numbers -/

/-- The bytes between a cursor and a stop begin with a LEB128 number. -/
structure GroupAt (m : ByteMem) (c stop : UInt64) (g : List UInt8) : Prop where
  group : Group g
  holds : Holds m c g
  inside : c.toNat + g.length ≤ stop.toNat

/-- They begin with a number of ten bytes at most, as the readers take it. -/
structure NumberAt (m : ByteMem) (c stop : UInt64) (g : List UInt8) : Prop
    extends GroupAt m c stop g where
  short : g.length ≤ 10

/-- Where a product with the data alignment `d` stays in the range of `int64_t`. -/
def WithinQuotient (n d : ℤ) : Prop :=
  if 0 < d then -(2 ^ 63 / d) ≤ n ∧ n ≤ (2 ^ 63 - 1) / d
  else if d < 0 then -((2 ^ 63 - 1) / -d) ≤ n ∧ n ≤ 2 ^ 63 / -d
  else True

lemma fitsInt64_mul_iff {n d : ℤ} : FitsInt64 (n * d) ↔ WithinQuotient n d := by
  rw [FitsInt64, WithinQuotient]
  split_ifs with hpos hneg
  · have hlow : -(2 ^ 63 / d) ≤ n ↔ -n * d ≤ 2 ^ 63 :=
      neg_le.trans (Int.le_ediv_iff_mul_le hpos)
    have hhigh : n ≤ (2 ^ 63 - 1) / d ↔ n * d ≤ 2 ^ 63 - 1 := Int.le_ediv_iff_mul_le hpos
    rw [hlow, hhigh, neg_mul]
    omega
  · have hd : 0 < -d := by omega
    have hlow : -((2 ^ 63 - 1) / -d) ≤ n ↔ -n * -d ≤ 2 ^ 63 - 1 :=
      neg_le.trans (Int.le_ediv_iff_mul_le hd)
    have hhigh : n ≤ 2 ^ 63 / -d ↔ n * -d ≤ 2 ^ 63 := Int.le_ediv_iff_mul_le hd
    rw [hlow, hhigh, neg_mul_neg, mul_neg]
    omega
  · have hd : d = 0 := by omega
    rw [hd, mul_zero]
    simp

/-! ### `read_sleb` -/

/-- The first bytes from a cursor on are read, and each asks for another one. -/
def Continues (m : ByteMem) (stop : UInt64) : ℕ → UInt64 → Prop
  | 0, _ => True
  | k + 1, cursor =>
      (cursor < stop ∧ m cursor &&& 0x80 ≠ 0) ∧ Continues m stop k (cursor + 1)

/-- The byte at a cursor is read as the last one of a number, and has the sign bit. -/
def EndsSigned (m : ByteMem) (cursor stop : UInt64) : Prop :=
  cursor < stop ∧ m cursor &&& 0x80 = 0 ∧ m cursor &&& 0x40 ≠ 0

/-- The number at a cursor does not end in its ninth byte with the sign bit, and its tenth byte,
if it has one, adds nothing. -/
structure SlebInRange (m : ByteMem) (cursor stop : UInt64) : Prop where
  ninth : Continues m stop 8 cursor → ¬ EndsSigned m (cursor + 8) stop
  tenth : Continues m stop 9 cursor → cursor + 9 < stop → m (cursor + 9) &&& 0x7f = 0

/-- Seven bits as an `int64_t`. -/
lemma toInt_group (b : UInt8) :
    (b &&& 0x7f).toUInt64.toInt64.toInt = ((b &&& 0x7f).toNat : ℤ) := by
  have hb : (b &&& 0x7f).toNat < 2 ^ 8 := (b &&& 0x7f).toNat_lt
  rw [← UInt64.ofNat_uInt8ToNat, UInt64.toInt64_ofNat', Int64.toInt_ofNat_of_lt (by omega)]

/-- A group of seven bits, shifted where a byte before the tenth stands. -/
lemma fitsInt64_group (b : UInt8) {shift : ℕ} (h : shift ≤ 56) :
    FitsInt64 ((b &&& 0x7f).toNat * 2 ^ shift) := by
  have hb : (b &&& 0x7f).toNat < 128 := by
    rw [UInt8.toNat_and]
    exact (Nat.and_le_right).trans_lt (by decide)
  have hle : (b &&& 0x7f).toNat * 2 ^ shift ≤ 127 * 2 ^ 56 :=
    Nat.mul_le_mul (by omega) (Nat.pow_le_pow_right (by omega) h)
  have hcast : (((b &&& 0x7f).toNat * 2 ^ shift : ℕ) : ℤ) ≤ 127 * 2 ^ 56 := by exact_mod_cast hle
  push_cast at hcast
  exact ⟨(by decide : (-2 : ℤ) ^ 63 ≤ 0).trans (by positivity), hcast.trans_lt (by decide)⟩

/-- The tenth group is shifted to the sign bit and beyond. -/
lemma fitsInt64_tenth_iff (b : UInt8) :
    FitsInt64 ((b &&& 0x7f).toNat * 2 ^ 63) ↔ b &&& 0x7f = 0 := by
  rw [FitsInt64, ← UInt8.toNat_inj, show (0 : UInt8).toNat = 0 from rfl]
  omega

/-- The sign and its negation, where a byte before the ninth ends the number. -/
lemma fits_sign_iff {shift : ℕ} (h : shift ≤ 63) :
    Fits (shiftLeft 1 shift) ∧ Fits (negate (shiftLeft 1 shift).val) ↔ shift ≠ 63 := by
  rw [fits_shiftLeft, fits_negate]
  have hone : (1 : Int64).toInt = 1 := by decide
  rw [hone, one_mul]
  constructor
  · rintro ⟨⟨-, hlt⟩, -⟩ rfl
    exact lt_irrefl _ hlt
  · intro hne
    have hsmall : ∀ k < 63, ((1 : Int64) <<< Int64.ofNat k).toInt = 2 ^ k := by decide +kernel
    have hval : (shiftLeft 1 shift).val.toInt = 2 ^ shift := hsmall shift (by omega)
    have hle : (2 : ℤ) ^ shift ≤ 2 ^ 62 := pow_le_pow_right₀ (by decide) (by omega)
    have hpos : (0 : ℤ) < 2 ^ shift := by positivity
    rw [hval]
    refine ⟨⟨?_, ?_⟩, ?_, ?_⟩ <;> omega

/-- The turn for the tenth byte. -/
lemma readSlebLoop_tenth {result : Int64} :
    Fits (readSlebLoopLogged m stop 1 c result 63) ↔ (c < stop → m c &&& 0x7f = 0) := by
  rw [readSlebLoopLogged]
  by_cases hc : c < stop
  · rw [if_pos hc, fits_bind, fits_shiftLeft, toInt_group, fitsInt64_tenth_iff]
    have hrest (group : Int64) : Fits (if m c &&& 0x80 = 0 then
        if 63 + 7 < 64 ∧ m c &&& 0x40 ≠ 0 then do
          let sign ← shiftLeft 1 (63 + 7)
          let extension ← negate sign
          pure (.ok (result ||| group ||| extension, c + 1))
        else pure (.ok (result ||| group, c + 1))
        else if 64 ≤ 63 + 7 then pure (.error .badFormat)
        else readSlebLoopLogged m stop 0 (c + 1) (result ||| group) (63 + 7)) := by
      have hsign : ¬ (63 + 7 < 64 ∧ m c &&& 0x40 ≠ 0) := by omega
      rw [if_neg hsign, if_pos (show 64 ≤ 63 + 7 by omega)]
      split_ifs
      · exact .pure _
      · exact .pure _
    rw [and_iff_left (hrest _)]
    exact ⟨fun h _ => h, fun h => h hc⟩
  · rw [if_neg hc]
    exact iff_of_true (.pure _) fun h => absurd h hc

/-- The turn for an earlier byte. -/
lemma readSlebLoop_turn {n shift : ℕ} {result : Int64} (h : shift ≤ 56) :
    Fits (readSlebLoopLogged m stop (n + 1) c result shift) ↔
      (EndsSigned m c stop → shift ≠ 56) ∧
        (c < stop ∧ m c &&& 0x80 ≠ 0 → Fits (readSlebLoopLogged m stop n (c + 1)
          (result ||| (shiftLeft (m c &&& 0x7f).toUInt64.toInt64 shift).val) (shift + 7))) := by
  rw [readSlebLoopLogged, EndsSigned]
  by_cases hc : c < stop
  swap
  · rw [if_neg hc]
    exact iff_of_true (.pure _)
      ⟨fun hends => absurd hends.1 hc, fun hmore => absurd hmore.1 hc⟩
  rw [if_pos hc, fits_bind, fits_shiftLeft, toInt_group, and_iff_right (fitsInt64_group _ h)]
  dsimp only
  by_cases hlast : m c &&& 0x80 = 0
  · rw [if_pos hlast, and_iff_left fun hmore : _ ∧ _ => absurd hlast hmore.2]
    by_cases hsign : m c &&& 0x40 = 0
    · rw [if_neg fun hneg => hneg.2 hsign]
      exact iff_of_true (.pure _) fun hends => absurd hsign hends.2.2
    · rw [if_pos ⟨by omega, hsign⟩, fits_bind, fits_bind, and_iff_left (Fits.pure _),
        fits_sign_iff (by omega)]
      exact ⟨fun hne _ => by omega, fun hne => by have := hne ⟨hc, hlast, hsign⟩; omega⟩
  · rw [if_neg hlast, if_neg (by omega),
      and_iff_right fun hends : _ ∧ _ ∧ _ => absurd hends.2.1 hlast]
    exact ⟨fun hrest _ => hrest, fun hrest => hrest ⟨hc, hlast⟩⟩

/-- The operations of the loop from the turn on that is `n` turns in front of the ninth. -/
lemma readSlebLoop_fit_iff {n : ℕ} {result : Int64} (hn : n ≤ 8) :
    Fits (readSlebLoopLogged m stop (n + 2) c result (7 * (8 - n))) ↔
      (Continues m stop n c → ¬ EndsSigned m (c + UInt64.ofNat n) stop) ∧
        (Continues m stop (n + 1) c → c + UInt64.ofNat (n + 1) < stop →
          m (c + UInt64.ofNat (n + 1)) &&& 0x7f = 0) := by
  induction n generalizing c result with
  | zero =>
      rw [readSlebLoop_turn (by omega), readSlebLoop_tenth]
      simp [Continues]
  | succ n ih =>
      have hshift : 7 * (8 - (n + 1)) + 7 = 7 * (8 - n) := by omega
      have hcontinues (k : ℕ) : Continues m stop (k + 1) c ↔
          (c < stop ∧ m c &&& 0x80 ≠ 0) ∧ Continues m stop k (c + 1) := Iff.rfl
      rw [readSlebLoop_turn (by omega), hshift, ih (by omega),
        and_iff_right fun _ => by omega, hcontinues n, hcontinues (n + 1),
        UInt64.add_ofNat_succ c n, UInt64.add_ofNat_succ c (n + 1)]
      tauto

/-- The operations of `read_sleb` are in range exactly when the number is. -/
theorem readSlebOps_fit_iff : Fits (readSlebLogged m c stop) ↔ SlebInRange m c stop := by
  rw [readSlebLogged]
  refine (readSlebLoop_fit_iff (Nat.le_refl 8)).trans ?_
  exact ⟨fun h => ⟨h.1, h.2⟩, fun h => ⟨h.ninth, h.tenth⟩⟩

/-- Bytes that ask for another one are read as such. -/
lemma continues_of_holds {xs : List UInt8} (hxs : ∀ x ∈ xs, 128 ≤ x.toNat) (hh : Holds m c xs)
    (hend : c.toNat + xs.length < stop.toNat) : Continues m stop xs.length c := by
  induction xs generalizing c with
  | nil => trivial
  | cons x xs ih =>
      have hlt := stop.toNat_lt
      obtain ⟨hx, hxs⟩ := List.forall_mem_cons.mp hxs
      rw [List.length_cons] at hend
      have hc1 : (c + 1).toNat = c.toNat + 1 := UInt64.toNat_add_of_lt (by simp; omega)
      refine ⟨⟨UInt64.lt_iff_toNat_lt.mpr (by omega), ?_⟩, ih hxs hh.2 (by omega)⟩
      rw [hh.1, Ne, UInt8.and_0x80_eq_zero_iff]
      omega

/-- A number of ten bytes at a cursor, where the code looks at its tenth byte. -/
lemma tenth_of_group {xs : List UInt8} {b : UInt8} (hlen : xs.length = 9)
    (hg : Group (xs ++ [b])) (hh : Holds m c (xs ++ [b])) (hend : c.toNat + 9 < stop.toNat) :
    Continues m stop 9 c ∧ c + 9 < stop ∧ m (c + 9) = b := by
  have hlt := stop.toNat_lt
  obtain ⟨hinit, hlast⟩ := Holds.append_iff.mp hh
  have hcontinues : Continues m stop xs.length c :=
    continues_of_holds (group_append_singleton_iff.mp hg).1 hinit (by omega)
  have hlast : m (c + UInt64.ofNat xs.length) = b := hlast.1
  rw [hlen] at hcontinues hlast
  have hnext : (c + 9).toNat = c.toNat + 9 :=
    UInt64.toNat_add_of_lt (show c.toNat + (9 : UInt64).toNat < 2 ^ 64 by simp; omega)
  exact ⟨hcontinues, UInt64.lt_iff_toNat_lt.mpr (by omega), hlast⟩

/-- A number of nine bytes at most is an `int64_t`. -/
lemma fitsInt64_signed {g : List UInt8} (hlen : g.length ≤ 9) : FitsInt64 (signed g) := by
  have hlt : (unsigned g : ℤ) < 128 ^ g.length := by exact_mod_cast unsigned_lt g
  have hle : (128 : ℤ) ^ g.length ≤ 128 ^ 9 := pow_le_pow_right₀ (by decide) hlen
  rw [signed_eq, FitsInt64]
  split_ifs <;> omega

/-- A tenth byte has to be a sign and nothing else. -/
lemma fitsInt64_signed_tenth_iff {xs : List UInt8} {b : UInt8} (hlen : xs.length = 9) :
    FitsInt64 (signed (xs ++ [b])) ↔ signed [b] = 0 ∨ signed [b] = -1 := by
  have hlt : (unsigned xs : ℤ) < 128 ^ xs.length := by exact_mod_cast unsigned_lt xs
  rw [signed_append xs (List.cons_ne_nil b []), FitsInt64]
  rw [hlen] at hlt ⊢
  omega

/-- The number at a cursor is an `int64_t` where the operations on it are in range. -/
lemma SlebInRange.fitsInt64 {g : List UInt8} (h : SlebInRange m c stop)
    (hg : NumberAt m c stop g) : FitsInt64 (signed g) := by
  have hlen := hg.short
  have hend := hg.inside
  rcases Nat.lt_or_ge g.length 10 with hshort | hlong
  · exact fitsInt64_signed (by omega)
  · obtain ⟨xs, b, rfl⟩ := (List.eq_nil_or_concat' g).resolve_left hg.group.ne_nil
    rw [List.length_append, List.length_singleton] at hlen hlong hend
    have hnine : xs.length = 9 := by omega
    have hten : c.toNat + 9 < stop.toNat := by omega
    obtain ⟨hcontinues, hlt, hlast⟩ := tenth_of_group hnine hg.group hg.holds hten
    have hzero := h.tenth hcontinues hlt
    have hb : b.toNat % 128 = 0 := by
      rw [hlast, ← UInt8.toNat_inj, UInt8.toNat_and] at hzero
      have hmod := Nat.and_two_pow_sub_one_eq_mod b.toNat 7
      exact hmod.symm.trans hzero
    have hsign : signed [b] = 0 := by
      rw [signed, hb, if_pos (by omega)]
      omega
    exact (fitsInt64_signed_tenth_iff hnine).mpr (.inl hsign)

/-- A number in range is read exactly. -/
theorem readSleb_exact {v : Int64} {c' : UInt64} (h : SlebInRange m c stop)
    (hread : (readSleb c stop).val m = .ok (v, c')) :
    ∃ g, Group g ∧ Holds m c g ∧ v.toInt = signed g := by
  obtain ⟨g, hg, hlen, hh, hend, rfl, -⟩ := readSleb_ok_iff.mp hread
  have hfits := h.fitsInt64 ⟨⟨hg, hh, hend⟩, hlen⟩
  exact ⟨g, hg, hh, Int64.toInt_ofInt_of_le hfits.1 hfits.2⟩

/-- A product in range is computed exactly. -/
theorem mul_exact {x y : Int64} (h : FitsInt64 (x.toInt * y.toInt)) :
    (x * y).toInt = x.toInt * y.toInt := by
  rw [Int64.toInt_mul]
  exact Int.bmod_eq_of_le h.1 h.2

/-! ### Operands -/

variable {α : Type} {s : CfiLoop} {cie : CieRecord}

/-- What follows an unsigned operand, which is taken as the word that it ends in. -/
lemma fits_onReadUleb {k : UInt64 → UInt64 → Logged CfiOp (Turn CfiLoop (Status × CfaState))} :
    Fits (onReadLogged s ((readUleb c stop).val m) k) ↔ ∀ g, NumberAt m c stop g →
      Fits (k (UInt64.ofNat (unsigned g)) (c + UInt64.ofNat g.length)) := by
  constructor
  · intro hfits g hg
    rw [readUleb_ok_iff.mpr ⟨g, hg.group, hg.short, hg.holds, hg.inside, rfl, rfl⟩] at hfits
    exact hfits
  · intro hall
    rcases hread : (readUleb c stop).val m with st | ⟨v, c'⟩
    · exact .pure _
    · obtain ⟨g, hg, hlen, hh, hend, rfl, rfl⟩ := readUleb_ok_iff.mp hread
      exact hall g ⟨⟨hg, hh, hend⟩, hlen⟩

/-- What follows a signed operand. -/
lemma fits_onReadSleb {k : Int64 → UInt64 → Logged CfiOp (Turn CfiLoop (Status × CfaState))} :
    Fits (do
        let offset ← readSlebLogged m c stop
        onReadLogged s offset k) ↔
      SlebInRange m c stop ∧ ∀ g, NumberAt m c stop g →
        Fits (k (Int64.ofInt (signed g)) (c + UInt64.ofNat g.length)) := by
  rw [fits_bind, readSlebOps_fit_iff, readSlebLogged_val]
  refine and_congr_right fun _ => ?_
  constructor
  · intro hfits g hg
    rw [readSleb_ok_iff.mpr ⟨g, hg.group, hg.short, hg.holds, hg.inside, rfl, rfl⟩] at hfits
    exact hfits
  · intro hall
    rcases hread : (readSleb c stop).val m with st | ⟨v, c'⟩
    · exact .pure _
    · obtain ⟨g, hg, hlen, hh, hend, rfl, rfl⟩ := readSleb_ok_iff.mp hread
      exact hall g ⟨⟨hg, hh, hend⟩, hlen⟩

/-! ### `execute_cfi` -/

/-- The numbers that the instruction at a cursor encodes are in range, and so are their products
with the data alignment.  An unsigned operand is taken as the `int64_t` of its word. -/
structure TurnInRange (m : ByteMem) (cie : CieRecord) (stop cursor : UInt64) : Prop where
  offset : cursor < stop → m cursor &&& 0xc0 = 0x80 → (m cursor &&& 0x3f).toNat < regsetSlots →
    ∀ g, NumberAt m (cursor + 1) stop g →
      WithinQuotient ((unsigned g : ℤ).bmod (2 ^ 64)) cie.dataAlign.toInt
  offsetExtended : cursor < stop → m cursor = 0x11 →
    ∀ reg, NumberAt m (cursor + 1) stop reg → unsigned reg % 2 ^ 64 < regsetSlots →
      ∀ g, NumberAt m (cursor + 1 + UInt64.ofNat reg.length) stop g →
        WithinQuotient ((unsigned g : ℤ).bmod (2 ^ 64)) cie.dataAlign.toInt
  defCfaSf : cursor < stop → m cursor = 0x1a → ∀ reg, NumberAt m (cursor + 1) stop reg →
    SlebInRange m (cursor + 1 + UInt64.ofNat reg.length) stop ∧
      ∀ g, NumberAt m (cursor + 1 + UInt64.ofNat reg.length) stop g →
        WithinQuotient (signed g) cie.dataAlign.toInt
  defCfaOffsetSf : cursor < stop → m cursor = 0x1b → SlebInRange m (cursor + 1) stop ∧
    ∀ g, NumberAt m (cursor + 1) stop g → WithinQuotient (signed g) cie.dataAlign.toInt

/-- The product with an unsigned operand. -/
lemma fits_multiply_unsigned {g : List UInt8} {d : Int64} :
    Fits (multiply (UInt64.ofNat (unsigned g)).toInt64 d) ↔
      WithinQuotient ((unsigned g : ℤ).bmod (2 ^ 64)) d.toInt := by
  rw [fits_multiply, fitsInt64_mul_iff, UInt64.toInt64_ofNat', Int64.toInt_ofNat']
  rfl

/-- The product with a signed operand that is in range. -/
lemma fits_multiply_signed {g : List UInt8} {d : Int64} (h : SlebInRange m c stop)
    (hg : NumberAt m c stop g) :
    Fits (multiply (Int64.ofInt (signed g)) d) ↔ WithinQuotient (signed g) d.toInt := by
  have hfits := h.fitsInt64 hg
  rw [fits_multiply, fitsInt64_mul_iff, Int64.toInt_ofInt_of_le hfits.1 hfits.2]

/-- Nothing but indices is noted for a store. -/
lemma fits_storeRule {reg : ℕ} {rule : RegRule} {state : CfaState} :
    Fits (storeRule state reg rule) := fun _ hn => absurd hn List.not_mem_nil

lemma fits_copyRule {reg : ℕ} {state initial : CfaState} :
    Fits (copyRule state initial reg) := fun _ hn => absurd hn List.not_mem_nil

variable {pcBegin targetPc : UInt64} {initial : CfaState}

/-- The rule of a register that is a slot is made of a product. -/
lemma fits_storeProduct {x d : Int64} {reg : ℕ} {state : CfaState} {cursor pcOffset : UInt64}
    {rest : Turn CfiLoop (Status × CfaState)} :
    Fits (if reg < regsetSlots then do
        let product ← multiply x d
        let state ← storeRule state reg ⟨.offset, product⟩
        pure (.next ⟨cursor, pcOffset, state⟩)
      else pure rest) ↔ (reg < regsetSlots → Fits (multiply x d)) := by
  rw [fits_ite, fits_bind, fits_bind, and_iff_right fits_storeRule, and_iff_left (Fits.pure _),
    and_iff_left fun _ => Fits.pure _]

/-- The instructions of the switch without a product make no signed operation. -/
lemma cfiSwitch_fits {opcode : UInt8} (h11 : opcode ≠ 0x11) (h1a : opcode ≠ 0x1a)
    (h1b : opcode ≠ 0x1b) :
    Fits (cfiSwitchLogged m cie stop pcBegin targetPc initial s opcode c) := by
  simp only [cfiSwitchLogged, if_neg h11, if_neg h1a, if_neg h1b, fits_ite, fits_onReadUleb,
    fits_bind, fits_copyRule, Fits.pure, implies_true, and_self]

lemma cfiSwitch_offsetExtended :
    Fits (cfiSwitchLogged m cie stop pcBegin targetPc initial s 0x11 c) ↔
      ∀ reg, NumberAt m c stop reg → unsigned reg % 2 ^ 64 < regsetSlots →
        ∀ g, NumberAt m (c + UInt64.ofNat reg.length) stop g →
          WithinQuotient ((unsigned g : ℤ).bmod (2 ^ 64)) cie.dataAlign.toInt := by
  simp +decide only [cfiSwitchLogged, reduceIte, fits_onReadUleb, fits_storeProduct,
    fits_multiply_unsigned, UInt64.toNat_ofNat']
  exact forall₂_congr fun reg _ =>
    ⟨fun h hslot g hg => h g hg hslot, fun h g hg hslot => h hslot g hg⟩

lemma cfiSwitch_defCfaSf :
    Fits (cfiSwitchLogged m cie stop pcBegin targetPc initial s 0x1a c) ↔
      ∀ reg, NumberAt m c stop reg → SlebInRange m (c + UInt64.ofNat reg.length) stop ∧
        ∀ g, NumberAt m (c + UInt64.ofNat reg.length) stop g →
          WithinQuotient (signed g) cie.dataAlign.toInt := by
  simp +decide only [cfiSwitchLogged, reduceIte, fits_onReadUleb, fits_onReadSleb]
  refine forall₂_congr fun reg _ => and_congr_right fun hsleb => forall₂_congr fun g hg => ?_
  rw [fits_bind, fits_multiply_signed hsleb hg, and_iff_left (Fits.pure _)]

lemma cfiSwitch_defCfaOffsetSf :
    Fits (cfiSwitchLogged m cie stop pcBegin targetPc initial s 0x1b c) ↔
      SlebInRange m c stop ∧
        ∀ g, NumberAt m c stop g → WithinQuotient (signed g) cie.dataAlign.toInt := by
  simp +decide only [cfiSwitchLogged, reduceIte, fits_onReadSleb]
  refine and_congr_right fun hsleb => forall₂_congr fun g hg => ?_
  rw [fits_bind, fits_multiply_signed hsleb hg, and_iff_left (Fits.pure _)]

/-- The operations of one turn are in range exactly when its numbers are. -/
theorem cfiTurnOps_fit_iff :
    Fits (cfiTurnLogged m cie stop pcBegin targetPc initial s) ↔
      TurnInRange m cie stop s.cursor := by
  rw [cfiTurnLogged]
  by_cases hc : s.cursor < stop
  swap
  · rw [if_neg hc]
    exact iff_of_true (.pure _) ⟨fun h => absurd h hc, fun h => absurd h hc,
      fun h => absurd h hc, fun h => absurd h hc⟩
  rw [if_pos hc]
  dsimp only
  -- an opcode with operands of its own has no operand in its upper bits
  have hplain {op : UInt8} (hop : op &&& 0xc0 = 0) (hbits : m s.cursor &&& 0xc0 ≠ 0) :
      m s.cursor ≠ op := fun h => hbits (h ▸ hop)
  by_cases hadvance : m s.cursor &&& 0xc0 = 0x40
  · have hbits : m s.cursor &&& 0xc0 ≠ 0 := by rw [hadvance]; decide
    rw [if_pos hadvance, fits_ite]
    refine iff_of_true ⟨fun _ => .pure _, fun _ => .pure _⟩
      ⟨fun _ h => absurd (hadvance.symm.trans h) (by decide),
        fun _ h => absurd h (hplain (by decide) hbits),
        fun _ h => absurd h (hplain (by decide) hbits),
        fun _ h => absurd h (hplain (by decide) hbits)⟩
  rw [if_neg hadvance]
  by_cases hoffset : m s.cursor &&& 0xc0 = 0x80
  · have hbits : m s.cursor &&& 0xc0 ≠ 0 := by rw [hoffset]; decide
    rw [if_pos hoffset, fits_onReadUleb]
    simp only [fits_storeProduct, fits_multiply_unsigned]
    constructor
    · intro h
      exact ⟨fun _ _ hslot g hg => h g hg hslot, fun _ h => absurd h (hplain (by decide) hbits),
        fun _ h => absurd h (hplain (by decide) hbits),
        fun _ h => absurd h (hplain (by decide) hbits)⟩
    · intro h g hg hslot
      exact h.offset hc hoffset hslot g hg
  rw [if_neg hoffset]
  by_cases hrestore : m s.cursor &&& 0xc0 = 0xc0
  · have hbits : m s.cursor &&& 0xc0 ≠ 0 := by rw [hrestore]; decide
    rw [if_pos hrestore, fits_ite, fits_bind]
    refine iff_of_true ⟨fun _ => ⟨fits_copyRule, .pure _⟩, fun _ => .pure _⟩
      ⟨fun _ h => absurd h hoffset, fun _ h => absurd h (hplain (by decide) hbits),
        fun _ h => absurd h (hplain (by decide) hbits),
        fun _ h => absurd h (hplain (by decide) hbits)⟩
  rw [if_neg hrestore]
  by_cases h11 : m s.cursor = 0x11
  · rw [h11, cfiSwitch_offsetExtended]
    exact ⟨fun h => ⟨fun _ h => absurd h hoffset, fun _ _ => h,
        fun _ h => absurd (h11.symm.trans h) (by decide),
        fun _ h => absurd (h11.symm.trans h) (by decide)⟩,
      fun h => h.offsetExtended hc h11⟩
  by_cases h1a : m s.cursor = 0x1a
  · rw [h1a, cfiSwitch_defCfaSf]
    exact ⟨fun h => ⟨fun _ h => absurd h hoffset, fun _ h => absurd h h11, fun _ _ => h,
        fun _ h => absurd (h1a.symm.trans h) (by decide)⟩,
      fun h => h.defCfaSf hc h1a⟩
  by_cases h1b : m s.cursor = 0x1b
  · rw [h1b, cfiSwitch_defCfaOffsetSf]
    exact ⟨fun h => ⟨fun _ h => absurd h hoffset, fun _ h => absurd h h11,
        fun _ h => absurd h h1a, fun _ _ => h⟩,
      fun h => h.defCfaOffsetSf hc h1b⟩
  exact iff_of_true (cfiSwitch_fits h11 h1a h1b)
    ⟨fun _ h => absurd h hoffset, fun _ h => absurd h h11, fun _ h => absurd h h1a,
      fun _ h => absurd h h1b⟩

/-! ### A CIE and its programs -/

/-- Where `parse_cie` calls `read_sleb` for the data alignment. -/
def dataAlignAt (m : ByteMem) (payload entryEnd : UInt64) : Option UInt64 :=
  if entryEnd ≤ payload then none
  else
    match (strnlen (payload + 1) (entryEnd - (payload + 1)).toNat).val m with
    | .error _ => none
    | .ok augLen =>
        if entryEnd ≤ payload + 1 + UInt64.ofNat augLen then none
        else
          match (readUleb (payload + 1 + (UInt64.ofNat augLen + 1)) entryEnd).val m with
          | .error _ => none
          | .ok (_, cursor) => some cursor

/-- The operations of `parse_cie` are those of the data alignment. -/
theorem parseCieOps_fit_iff {sec : Section} {isEh : Bool} {start payload entryEnd : UInt64} :
    Fits (parseCieHeaderLogged m sec start payload entryEnd isEh) ↔
      ∀ cursor, dataAlignAt m payload entryEnd = some cursor → SlebInRange m cursor entryEnd := by
  rw [parseCieHeaderLogged, dataAlignAt]
  by_cases hp : entryEnd ≤ payload
  · rw [if_pos hp, if_pos hp]
    exact iff_of_true (.pure _) fun _ h => absurd h (by simp)
  rw [if_neg hp, if_neg hp]
  dsimp only
  rcases (strnlen (payload + 1) (entryEnd - (payload + 1)).toNat).val m with st | augLen
  · exact iff_of_true (.pure _) fun _ h => absurd h (by simp)
  dsimp only [onOk]
  by_cases ha : entryEnd ≤ payload + 1 + UInt64.ofNat augLen
  · rw [if_pos ha, if_pos ha]
    exact iff_of_true (.pure _) fun _ h => absurd h (by simp)
  rw [if_neg ha, if_neg ha]
  rcases (readUleb (payload + 1 + (UInt64.ofNat augLen + 1)) entryEnd).val m with
    st | ⟨codeAlign, cursor⟩
  · exact iff_of_true (.pure _) fun _ h => absurd h (by simp)
  dsimp only
  rw [fits_bind, readSlebOps_fit_iff, and_iff_left]
  · simp
  -- nothing signed is left behind the data alignment
  rcases (readSlebLogged m cursor entryEnd).val with st | ⟨dataAlign, payload⟩
  · exact .pure _
  dsimp only
  rcases (readUleb payload entryEnd).val m with st | ⟨returnReg, payload⟩
  · exact .pure _
  dsimp only
  rw [fits_ite, fits_ite]
  exact ⟨fun _ => ⟨fun _ => .pure _, fun _ => .pure _⟩, fun _ => .pure _⟩

/-- The data alignment of a CIE is read there. -/
theorem parseCieHeader_dataAlign {sec : Section} {isEh : Bool} {start payload entryEnd : UInt64}
    {r : CieRecord × UInt64}
    (h : (parseCieHeader sec start payload entryEnd isEh).val m = .ok r) :
    ∃ cursor c', dataAlignAt m payload entryEnd = some cursor ∧
      (readSleb cursor entryEnd).val m = .ok (r.1.dataAlign, c') := by
  obtain ⟨_, codeAlign, dataAlign, _, hp, hlen, ha, hcode, hdata, -, hheader⟩ :=
    parseCieHeader_ok h
  refine ⟨codeAlign.2, dataAlign.2, ?_, ?_⟩
  · rw [dataAlignAt, if_neg hp, hlen]
    dsimp only
    rw [if_neg ha, hcode]
  · rw [readAddressSize_ok hheader]
    exact hdata

/-- The signed operations of a CIE that is parsed, and of a program that is run with a CIE, are
in range. -/
structure SignedOpsFit (m : ByteMem) (sec : Section) (isEh : Bool)
    (start payload entryEnd : UInt64) (cie : CieRecord)
    (program programSize pcBegin targetPc : UInt64) (state initial : CfaState) : Prop where
  parse : Fits (parseCieHeaderLogged m sec start payload entryEnd isEh)
  execute : Fits (executeCfiLogged m cie program programSize pcBegin targetPc state initial)

/-- Signed arithmetic stays in range exactly when the alignment that is parsed does, and in every
turn the numbers that its instruction encodes. -/
theorem signedOpsFit_iff {sec : Section} {isEh : Bool} {start payload entryEnd : UInt64}
    {program programSize pcBegin targetPc : UInt64} {state : CfaState} :
    SignedOpsFit m sec isEh start payload entryEnd cie program programSize pcBegin targetPc state
        initial ↔
      (∀ cursor, dataAlignAt m payload entryEnd = some cursor → SlebInRange m cursor entryEnd) ∧
        ∀ s ∈ visited (cfiTurn m cie (program + programSize) pcBegin targetPc initial)
          (programSize.toNat + 1) ⟨program, 0, state⟩,
          TurnInRange m cie (program + programSize) s.cursor := by
  have hexecute : Fits (executeCfiLogged m cie program programSize pcBegin targetPc state
      initial) ↔
      ∀ s ∈ visited (cfiTurn m cie (program + programSize) pcBegin targetPc initial)
        (programSize.toNat + 1) ⟨program, 0, state⟩,
        TurnInRange m cie (program + programSize) s.cursor := by
    simp only [Fits, signedOps, executeCfiLogged_log, List.filterMap_flatMap,
      List.forall_mem_flatMap]
    exact forall₂_congr fun s _ => cfiTurnOps_fit_iff
  have hparse : Fits (parseCieHeaderLogged m sec start payload entryEnd isEh) ↔ _ :=
    parseCieOps_fit_iff
  rw [← hparse, ← hexecute]
  exact ⟨fun h => ⟨h.parse, h.execute⟩, fun h => ⟨h.1, h.2⟩⟩

/-- A program with the number `-2 ^ 62`, which ends in its ninth byte. -/
def ninthByteMem : ByteMem :=
  memOf 0x1000 [0x1b, 0x80, 0x80, 0x80, 0x80, 0x80, 0x80, 0x80, 0x80, 0x40]

/-- A CIE with the data alignment 1. -/
def unitCie : CieRecord := ⟨1, 8, 16, 0, 1, 1, 0, 0, 0, 0, 0⟩

/-- The shift of its sign leaves the range. -/
theorem ninthByte_overflows :
    ¬ SignedOpsFit ninthByteMem ⟨0x1000, 10⟩ true 0x1000 0x100a 0x100a unitCie 0x1000 10 0x400000
      0x400000 cfaStateReset cfaStateReset := by
  intro h
  have hmem : (2 : ℤ) ^ 63 ∈ signedOps (executeCfiLogged ninthByteMem unitCie 0x1000 10 0x400000
      0x400000 cfaStateReset cfaStateReset) := by decide +kernel
  exact absurd (h.execute _ hmem) (by decide)

end Dwunw
