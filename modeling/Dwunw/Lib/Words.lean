import Mathlib.Tactic

/-!
Facts about machine words: single bytes, 64-bit words and two's complement.

* `UInt8.forall_of_lt` reduces a statement about every byte to its 256 cases; the masks of a
  byte follow.
* `UInt64.or_shiftLeft`: setting bits above a small number adds them.
* `Int64.or_neg_shiftLeft`: setting all bits from a position on subtracts its weight.
* `Int64.ofInt_eq_ofInt_iff`: two integers are one 64-bit word when they agree modulo
  `2 ^ 64`.
-/

lemma UInt8.forall_of_lt {P : UInt8 → Prop} (h : ∀ n < 256, P (UInt8.ofNat n)) (b : UInt8) :
    P b := by
  have := h b.toNat b.toNat_lt
  rwa [UInt8.ofNat_toNat] at this

lemma UInt8.and_0x80_eq_zero_iff (b : UInt8) : b &&& 0x80 = 0 ↔ b.toNat < 128 := by
  refine UInt8.forall_of_lt (P := fun b => b &&& 0x80 = 0 ↔ b.toNat < 128) ?_ b
  decide +kernel

lemma UInt8.and_0x40_eq_zero_iff (b : UInt8) : b &&& 0x40 = 0 ↔ b.toNat % 128 < 64 := by
  refine UInt8.forall_of_lt (P := fun b => b &&& 0x40 = 0 ↔ b.toNat % 128 < 64) ?_ b
  decide +kernel

lemma UInt8.toNat_and_0x7f (b : UInt8) : (b &&& 0x7f).toNat = b.toNat % 128 :=
  Nat.and_two_pow_sub_one_eq_mod b.toNat 7

lemma UInt64.toNat_add_of_lt {a b : UInt64} (h : a.toNat + b.toNat < 2 ^ 64) :
    (a + b).toNat = a.toNat + b.toNat := by
  rw [UInt64.toNat_add, Nat.mod_eq_of_lt h]

/-- Setting bits from position `s` on of a word below `2 ^ s` adds them. -/
lemma UInt64.or_shiftLeft {r x : UInt64} {s : ℕ} (hs : s < 64) (hr : r.toNat < 2 ^ s) :
    r ||| (x <<< UInt64.ofNat s) = r + UInt64.ofNat (x.toNat * 2 ^ s) := by
  apply UInt64.toNat_inj.mp
  have hshift : (UInt64.ofNat s).toNat % 64 = s := by
    rw [UInt64.toNat_ofNat']
    omega
  have hp : 2 ^ 64 = 2 ^ (64 - s) * 2 ^ s := by
    rw [← pow_add]
    congr 1
    omega
  have hy : x.toNat * 2 ^ s % 2 ^ 64 = x.toNat % 2 ^ (64 - s) * 2 ^ s := by
    rw [hp, Nat.mul_mod_mul_right]
  have hlt : r.toNat + x.toNat % 2 ^ (64 - s) * 2 ^ s < 2 ^ 64 := by
    have hx := Nat.mod_lt x.toNat (Nat.two_pow_pos (64 - s))
    have hle : (x.toNat % 2 ^ (64 - s) + 1) * 2 ^ s ≤ 2 ^ (64 - s) * 2 ^ s :=
      Nat.mul_le_mul_right _ hx
    rw [hp]
    rw [Nat.add_mul, Nat.one_mul] at hle
    omega
  rw [UInt64.toNat_or, UInt64.toNat_shiftLeft, hshift, UInt64.toNat_add, UInt64.toNat_ofNat',
    Nat.shiftLeft_eq, hy, Nat.mod_eq_of_lt hlt, Nat.or_comm, ← Nat.shiftLeft_eq,
    ← Nat.shiftLeft_add_eq_or_of_lt hr, Nat.add_comm]

/-- A left shift of a signed word is the shift of its bits. -/
lemma UInt64.toInt64_shiftLeft {x : UInt64} {s : ℕ} (hs : s < 64) :
    x.toInt64 <<< Int64.ofNat s = (x <<< UInt64.ofNat s).toInt64 := by
  have hmod : BitVec.ofNat 64 s % 64 = BitVec.ofNat 64 s := by
    apply BitVec.eq_of_toNat_eq
    have h64 : (64 : BitVec 64).toNat = 64 := by decide
    rw [BitVec.toNat_umod, BitVec.toNat_ofNat, h64]
    omega
  have hsmod : (BitVec.ofNat 64 s).smod 64 = BitVec.ofNat 64 s := by
    apply BitVec.eq_of_toInt_eq
    have h64 : (64 : BitVec 64).toInt = 64 := by decide
    have hs' : (BitVec.ofNat 64 s).toInt = s := by
      rw [BitVec.toInt_ofNat', Int.bmod_eq_of_le] <;> omega
    rw [BitVec.toInt_smod, hs', h64, Int.fmod_eq_emod_of_nonneg _ (by omega)]
    omega
  apply Int64.toBitVec.inj
  show x.toBitVec <<< (BitVec.ofNat 64 s).smod 64 = x.toBitVec <<< (BitVec.ofNat 64 s % 64)
  rw [hsmod, hmod]

/-- Two integers are the same 64-bit word when they agree modulo `2 ^ 64`. -/
lemma Int64.ofInt_eq_ofInt_iff {a b : ℤ} :
    Int64.ofInt a = Int64.ofInt b ↔ (2 : ℤ) ^ 64 ∣ a - b := by
  rw [← Int64.toInt_inj, Int64.toInt_ofInt, Int64.toInt_ofInt,
    Int.bmod_eq_bmod_iff_bmod_sub_eq_zero, ← Int.dvd_iff_bmod_eq_zero]
  rfl

/-- The bits of a negated power of two. -/
lemma UInt64.neg_one_shiftLeft {s : ℕ} (hs : s < 64) :
    -((1 : UInt64) <<< UInt64.ofNat s) = UInt64.ofNat (2 ^ (64 - s) - 1) <<< UInt64.ofNat s := by
  have hshift : (UInt64.ofNat s).toNat % 64 = s := by
    rw [UInt64.toNat_ofNat']
    omega
  have hp : 2 ^ 64 = 2 ^ (64 - s) * 2 ^ s := by
    rw [← pow_add]
    congr 1
    omega
  have hpos := Nat.two_pow_pos s
  have hone : (1 : UInt64).toNat = 1 := rfl
  have hpow : 2 ^ (64 - s) ≤ 2 ^ 64 := Nat.pow_le_pow_right (by omega) (by omega)
  have hslt : 2 ^ s < 2 ^ 64 := Nat.pow_lt_pow_right (by omega) hs
  have hk : (UInt64.ofNat (2 ^ (64 - s) - 1)).toNat = 2 ^ (64 - s) - 1 := by
    rw [UInt64.toNat_ofNat', Nat.mod_eq_of_lt]
    have := Nat.two_pow_pos (64 - s)
    omega
  have hweight : (2 ^ (64 - s) - 1) * 2 ^ s = 2 ^ 64 - 2 ^ s := by
    rw [Nat.sub_mul, Nat.one_mul, ← hp]
  apply UInt64.toNat_inj.mp
  rw [UInt64.toNat_neg, UInt64.toNat_shiftLeft, UInt64.toNat_shiftLeft, hshift, hone, hk,
    Nat.shiftLeft_eq, Nat.shiftLeft_eq, hweight, Nat.one_mul, Nat.mod_eq_of_lt hslt]
  rfl

/-- Setting all bits from position `s` on of a word below `2 ^ s` subtracts the weight of
that position. -/
lemma Int64.or_neg_shiftLeft {r : UInt64} {s : ℕ} (hs : s < 64) (hr : r.toNat < 2 ^ s) :
    r.toInt64 ||| -((1 : Int64) <<< Int64.ofNat s) = Int64.ofInt (r.toNat - 2 ^ s) := by
  have hone : (1 : Int64) = (1 : UInt64).toInt64 := rfl
  have hpos := Nat.two_pow_pos (64 - s)
  have hpow : 2 ^ (64 - s) ≤ 2 ^ 64 := Nat.pow_le_pow_right (by omega) (by omega)
  have hk : (UInt64.ofNat (2 ^ (64 - s) - 1)).toNat = 2 ^ (64 - s) - 1 := by
    rw [UInt64.toNat_ofNat', Nat.mod_eq_of_lt (by omega)]
  have hp : (2 : ℤ) ^ 64 = 2 ^ (64 - s) * 2 ^ s := by
    rw [← pow_add]
    congr 1
    omega
  rw [hone, UInt64.toInt64_shiftLeft hs, ← UInt64.toInt64_neg, ← UInt64.toInt64_or,
    UInt64.neg_one_shiftLeft hs, UInt64.or_shiftLeft hs hr, hk]
  obtain ⟨n, rfl⟩ : ∃ n, r = UInt64.ofNat n := ⟨r.toNat, UInt64.ofNat_toNat.symm⟩
  rw [← UInt64.ofNat_add, UInt64.toInt64_ofNat', ← Int64.ofInt_eq_ofNat,
    Int64.ofInt_eq_ofInt_iff]
  have hn : (2 : ℤ) ^ 64 ∣ (n : ℤ) - (UInt64.ofNat n).toNat := by
    rw [UInt64.toNat_ofNat']
    omega
  have hcast : (((2 ^ (64 - s) - 1) * 2 ^ s : ℕ) : ℤ) = 2 ^ 64 - 2 ^ s := by
    rw [Nat.cast_mul, Nat.cast_sub (by omega), hp]
    push_cast
    ring
  rw [Nat.cast_add, hcast]
  omega
