import Mathlib.Tactic

/-!
The LEB128 number format.

A number is cut into groups of seven bits, lowest first; a byte carries one group, and its
top bit says that another byte follows.

* `Group`: the byte strings that are one LEB128 number, the top bit set on every byte but
  the last.  `Group.append_inj` is prefix-freeness, and `Group.terminators` counts the one byte
  of a number that asks for no other.
* `unsigned`, `signed`: the number a group denotes, with no bound on its size; a signed
  group is read in two's complement, so `signed_eq` subtracts `128 ^ length` from the
  unsigned reading when the last byte has its sign bit.
* `unsigned_append`, `signed_append`: what the bytes in front of a place add.
* `encodeUnsigned`, `encodeSigned`: the two encoders, inverted by the readings
  (`unsigned_encodeUnsigned`, `signed_encodeSigned`), with their length bounds.
* `IsMinimal`: the shortest group of a number.  There is one, and the encoders give it
  (`isMinimal_unsigned_iff`, `isMinimal_signed_iff`).
-/

namespace Leb128

/-- The byte strings that are one LEB128 number. -/
inductive Group : List UInt8 → Prop
  | last {b : UInt8} (h : b.toNat < 128) : Group [b]
  | more {b : UInt8} {g : List UInt8} (h : 128 ≤ b.toNat) (hg : Group g) : Group (b :: g)

/-- The number a group denotes when it is read unsigned. -/
def unsigned : List UInt8 → ℕ
  | [] => 0
  | b :: g => b.toNat % 128 + 128 * unsigned g

/-- The number a group denotes when it is read in two's complement. -/
def signed : List UInt8 → ℤ
  | [] => 0
  | [b] => if b.toNat % 128 < 64 then b.toNat % 128 else b.toNat % 128 - 128
  | b :: c :: g => b.toNat % 128 + 128 * signed (c :: g)

/-- Whether the last byte of a group has its sign bit. -/
def negative : List UInt8 → Bool
  | [] => false
  | [b] => 64 ≤ b.toNat % 128
  | _ :: c :: g => negative (c :: g)

/-! ### Groups -/

lemma Group.ne_nil {g : List UInt8} (hg : Group g) : g ≠ [] := by
  cases hg <;> simp

lemma Group.length_pos {g : List UInt8} (hg : Group g) : 0 < g.length :=
  List.length_pos_of_ne_nil hg.ne_nil

/-- LEB128 is prefix-free: a number is determined by any string that starts with it. -/
lemma Group.append_inj {g g' r r' : List UInt8} (hg : Group g) (hg' : Group g')
    (h : g ++ r = g' ++ r') : g = g' ∧ r = r' := by
  induction hg generalizing g' with
  | last hb =>
      cases hg' with
      | last _ => simpa using h
      | more hb' _ =>
          simp only [List.cons_append, List.cons.injEq] at h
          rw [h.1] at hb
          omega
  | more hb _ ih =>
      cases hg' with
      | last hb' =>
          simp only [List.cons_append, List.cons.injEq] at h
          rw [h.1] at hb
          omega
      | more _ hg'' =>
          simp only [List.cons_append, List.cons.injEq] at h
          obtain ⟨hg, hr⟩ := ih hg'' h.2
          exact ⟨by rw [h.1, hg], hr⟩

/-- The number of numbers that end in a byte string. -/
def terminators (bs : List UInt8) : ℕ := bs.countP fun b => b.toNat < 128

lemma terminators_append (xs ys : List UInt8) :
    terminators (xs ++ ys) = terminators xs + terminators ys := List.countP_append

lemma terminators_cons (b : UInt8) (bs : List UInt8) :
    terminators (b :: bs) = terminators bs + if b.toNat < 128 then 1 else 0 := by
  simp [terminators, List.countP_cons]

/-- One number ends in a group. -/
lemma Group.terminators {g : List UInt8} (hg : Group g) : terminators g = 1 := by
  induction hg with
  | last hb => rw [terminators_cons, if_pos hb]; rfl
  | more hb _ ih => rw [terminators_cons, if_neg (by omega), ih]

/-- The last byte of a group, and only that one, asks for no other. -/
lemma group_append_singleton_iff {xs : List UInt8} {b : UInt8} :
    Group (xs ++ [b]) ↔ (∀ x ∈ xs, 128 ≤ x.toNat) ∧ b.toNat < 128 := by
  induction xs with
  | nil =>
      constructor
      · intro hg
        cases hg with
        | last hb => exact ⟨by simp, hb⟩
        | more _ hg => exact absurd rfl hg.ne_nil
      · intro h
        exact .last h.2
  | cons x xs ih =>
      rw [List.cons_append, List.forall_mem_cons, and_assoc, ← ih]
      constructor
      · intro hg
        generalize hys : xs ++ [b] = ys at hg
        cases hg with
        | last => simp at hys
        | more hx hg => exact ⟨hx, hg⟩
      · intro h
        exact .more h.1 h.2

/-! ### The two readings -/

lemma unsigned_lt (g : List UInt8) : unsigned g < 128 ^ g.length := by
  induction g with
  | nil => simp [unsigned]
  | cons b g ih =>
      have hb : b.toNat % 128 < 128 := Nat.mod_lt _ (by omega)
      rw [unsigned, List.length_cons, pow_succ]
      omega

/-- The signed reading differs from the unsigned one by the weight of the sign. -/
lemma signed_eq (g : List UInt8) :
    signed g = unsigned g - if negative g then (128 : ℤ) ^ g.length else 0 := by
  match g with
  | [] => simp [signed, unsigned, negative]
  | [b] =>
      have hb : b.toNat % 128 < 128 := Nat.mod_lt _ (by omega)
      simp only [signed, unsigned, negative, List.length_singleton, pow_one, decide_eq_true_eq]
      split_ifs <;> push_cast <;> omega
  | b :: c :: g =>
      have ih := signed_eq (c :: g)
      have hu : unsigned (b :: c :: g) = b.toNat % 128 + 128 * unsigned (c :: g) := rfl
      have hl : (b :: c :: g).length = (c :: g).length + 1 := rfl
      rw [signed, ih, hu, negative, hl, pow_succ]
      split_ifs <;> push_cast <;> ring

lemma signed_nonneg_iff (g : List UInt8) : 0 ≤ signed g ↔ negative g = false := by
  have hlt : (unsigned g : ℤ) < 128 ^ g.length := by exact_mod_cast unsigned_lt g
  rw [signed_eq]
  cases negative g <;> simp
  · omega

/-- Bytes in front of a number are its lowest groups. -/
lemma unsigned_append (xs ys : List UInt8) :
    unsigned (xs ++ ys) = unsigned xs + 128 ^ xs.length * unsigned ys := by
  induction xs with
  | nil => simp [unsigned]
  | cons x xs ih =>
      rw [List.cons_append, unsigned, ih, unsigned, List.length_cons, pow_succ]
      ring

lemma signed_cons {b : UInt8} {g : List UInt8} (hg : g ≠ []) :
    signed (b :: g) = b.toNat % 128 + 128 * signed g := by
  cases g with
  | nil => exact absurd rfl hg
  | cons c g => rfl

/-- The sign is that of the last bytes. -/
lemma signed_append (xs : List UInt8) {ys : List UInt8} (hys : ys ≠ []) :
    signed (xs ++ ys) = unsigned xs + 128 ^ xs.length * signed ys := by
  induction xs with
  | nil => simp [unsigned]
  | cons x xs ih =>
      have hne : xs ++ ys ≠ [] := by simp [hys]
      rw [List.cons_append, signed_cons hne, ih, unsigned, List.length_cons, pow_succ]
      push_cast
      ring

/-! ### The unsigned encoder -/

/-- The groups of `n`, at most `fuel + 1` of them. -/
def encodeUnsignedAux : ℕ → ℕ → List UInt8
  | 0, n => [UInt8.ofNat (n % 128)]
  | fuel + 1, n =>
      if n < 128 then [UInt8.ofNat n]
      else UInt8.ofNat (n % 128 + 128) :: encodeUnsignedAux fuel (n / 128)

/-- The minimal encoding of a natural number. -/
def encodeUnsigned (n : ℕ) : List UInt8 := encodeUnsignedAux n n

lemma encodeUnsignedAux_spec {fuel n : ℕ} (h : n ≤ fuel) :
    Group (encodeUnsignedAux fuel n) ∧ unsigned (encodeUnsignedAux fuel n) = n := by
  have hsize : UInt8.size = 256 := rfl
  induction fuel generalizing n with
  | zero =>
      obtain rfl : n = 0 := by omega
      exact ⟨.last (by decide), by decide⟩
  | succ fuel ih =>
      rw [encodeUnsignedAux]
      split_ifs with hn
      · have hb : (UInt8.ofNat n).toNat = n := UInt8.toNat_ofNat_of_lt' (by omega)
        exact ⟨.last (by omega), by simp only [unsigned, hb]; omega⟩
      · have hb : (UInt8.ofNat (n % 128 + 128)).toNat = n % 128 + 128 :=
          UInt8.toNat_ofNat_of_lt' (by omega)
        obtain ⟨hg, hv⟩ := ih (n := n / 128) (by omega)
        exact ⟨.more (by omega) hg, by simp only [unsigned, hb, hv]; omega⟩

lemma group_encodeUnsigned (n : ℕ) : Group (encodeUnsigned n) :=
  (encodeUnsignedAux_spec le_rfl).1

/-- The unsigned reading inverts the unsigned encoder. -/
theorem unsigned_encodeUnsigned (n : ℕ) : unsigned (encodeUnsigned n) = n :=
  (encodeUnsignedAux_spec le_rfl).2

lemma encodeUnsignedAux_length {k fuel n : ℕ} (h : n < 128 ^ (k + 1)) :
    (encodeUnsignedAux fuel n).length ≤ k + 1 := by
  induction fuel generalizing k n with
  | zero => simp [encodeUnsignedAux]
  | succ fuel ih =>
      rw [encodeUnsignedAux]
      split_ifs with hn
      · simp
      · cases k with
        | zero => simp at h; omega
        | succ k =>
            have hdiv : n / 128 < 128 ^ (k + 1) := by
              rw [Nat.div_lt_iff_lt_mul (by omega), ← pow_succ]
              exact h
            simpa using ih hdiv

/-- A 64-bit number takes ten groups at most. -/
lemma encodeUnsigned_length {n : ℕ} (h : n < 2 ^ 64) : (encodeUnsigned n).length ≤ 10 :=
  encodeUnsignedAux_length (k := 9) (by omega)

/-! ### The signed encoder -/

/-- The groups of `v` in two's complement, at most `fuel + 1` of them. -/
def encodeSignedAux : ℕ → ℤ → List UInt8
  | 0, v => [UInt8.ofNat (v % 128).toNat]
  | fuel + 1, v =>
      if -64 ≤ v ∧ v < 64 then [UInt8.ofNat (v % 128).toNat]
      else UInt8.ofNat ((v % 128).toNat + 128) :: encodeSignedAux fuel (v / 128)

/-- The minimal encoding of an integer. -/
def encodeSigned (v : ℤ) : List UInt8 := encodeSignedAux v.natAbs v

lemma encodeSignedAux_spec {fuel : ℕ} {v : ℤ} (h : v.natAbs ≤ fuel) :
    Group (encodeSignedAux fuel v) ∧ signed (encodeSignedAux fuel v) = v := by
  have hsize : UInt8.size = 256 := rfl
  induction fuel generalizing v with
  | zero =>
      obtain rfl : v = 0 := by omega
      exact ⟨.last (by decide), by decide⟩
  | succ fuel ih =>
      rw [encodeSignedAux]
      split_ifs with hv
      · have hb : (UInt8.ofNat (v % 128).toNat).toNat = (v % 128).toNat :=
          UInt8.toNat_ofNat_of_lt' (by omega)
        refine ⟨.last (by omega), ?_⟩
        simp only [signed, hb]
        split_ifs <;> omega
      · have hb : (UInt8.ofNat ((v % 128).toNat + 128)).toNat = (v % 128).toNat + 128 :=
          UInt8.toNat_ofNat_of_lt' (by omega)
        obtain ⟨hg, hs⟩ := ih (v := v / 128) (by omega)
        refine ⟨.more (by omega) hg, ?_⟩
        rw [signed_cons hg.ne_nil, hb, hs]
        omega

lemma group_encodeSigned (v : ℤ) : Group (encodeSigned v) := (encodeSignedAux_spec le_rfl).1

/-- The signed reading inverts the signed encoder. -/
theorem signed_encodeSigned (v : ℤ) : signed (encodeSigned v) = v :=
  (encodeSignedAux_spec le_rfl).2

lemma encodeSignedAux_length {k fuel : ℕ} {v : ℤ} (hlo : -(64 * 128 ^ k) ≤ v)
    (hhi : v < 64 * 128 ^ k) : (encodeSignedAux fuel v).length ≤ k + 1 := by
  induction fuel generalizing k v with
  | zero => simp [encodeSignedAux]
  | succ fuel ih =>
      rw [encodeSignedAux]
      split_ifs with hv
      · simp
      · cases k with
        | zero => simp at hlo hhi; omega
        | succ k =>
            have hlen := ih (k := k) (v := v / 128) (by rw [pow_succ] at hlo; omega)
              (by rw [pow_succ] at hhi; omega)
            simpa using hlen

/-- A 64-bit signed number takes ten groups at most. -/
lemma encodeSigned_length {v : ℤ} (hlo : -2 ^ 63 ≤ v) (hhi : v < 2 ^ 63) :
    (encodeSigned v).length ≤ 10 :=
  encodeSignedAux_length (k := 9) (by omega) (by omega)

/-! ### Minimal encodings -/

/-- The shortest group that denotes a number under one of the readings. -/
structure IsMinimal {α : Type*} (read : List UInt8 → α) (n : α) (g : List UInt8) : Prop where
  group : Group g
  value : read g = n
  shortest : ∀ g', Group g' → read g' = n → g.length ≤ g'.length

/-- Groups of one length that denote one number are equal. -/
lemma Group.unsigned_inj {g g' : List UInt8} (hg : Group g) (hg' : Group g')
    (hlen : g.length = g'.length) (h : unsigned g = unsigned g') : g = g' := by
  induction hg generalizing g' with
  | @last b hb =>
      cases hg' with
      | @last b' hb' =>
          rw [unsigned, unsigned, unsigned, unsigned] at h
          rw [show b = b' from UInt8.toNat_inj.mp (by omega)]
      | more _ hg' => exact absurd (by simpa using hlen.symm) hg'.ne_nil
  | @more b g hb hg ih =>
      cases hg' with
      | last _ => exact absurd (by simpa using hlen) hg.ne_nil
      | @more b' g' hb' hg' =>
          have hlt := b.toNat_lt
          have hlt' := b'.toNat_lt
          rw [unsigned, unsigned] at h
          rw [show b = b' from UInt8.toNat_inj.mp (by omega),
            ih hg' (by simpa using hlen) (by omega)]

/-- The unsigned reading is what the signed one leaves modulo the weight of the sign. -/
lemma signed_emod (g : List UInt8) : signed g % 128 ^ g.length = unsigned g := by
  have hlt : (unsigned g : ℤ) < 128 ^ g.length := by exact_mod_cast unsigned_lt g
  have hmod : (unsigned g : ℤ) % 128 ^ g.length = unsigned g :=
    Int.emod_eq_of_lt (Int.natCast_nonneg _) hlt
  rw [signed_eq]
  split_ifs
  · rw [Int.sub_emod_right, hmod]
  · rw [sub_zero, hmod]

lemma Group.signed_inj {g g' : List UInt8} (hg : Group g) (hg' : Group g')
    (hlen : g.length = g'.length) (h : signed g = signed g') : g = g' := by
  refine hg.unsigned_inj hg' hlen ?_
  have hmod := signed_emod g
  rw [h, hlen, signed_emod g'] at hmod
  exact_mod_cast hmod.symm

/-- The range of the signed numbers of one length. -/
lemma signed_bounds (xs : List UInt8) (b : UInt8) :
    -(64 * 128 ^ xs.length) ≤ signed (xs ++ [b]) ∧ signed (xs ++ [b]) < 64 * 128 ^ xs.length := by
  have hlt : (unsigned xs : ℤ) < 128 ^ xs.length := by exact_mod_cast unsigned_lt xs
  have hb : -64 ≤ signed [b] ∧ signed [b] ≤ 63 := by
    rw [signed]
    split_ifs <;> omega
  have hpos : (0 : ℤ) ≤ 128 ^ xs.length := by positivity
  rw [signed_append xs (List.cons_ne_nil b [])]
  constructor
  · have hlow := mul_le_mul_of_nonneg_left hb.1 hpos
    omega
  · have hhigh := mul_le_mul_of_nonneg_left hb.2 hpos
    omega

/-- A minimal encoding is what an encoder gives that is never longer than a group. -/
lemma isMinimal_iff {α : Type*} {read : List UInt8 → α} {encode : α → List UInt8} {n : α}
    {g : List UInt8} (hencode : Group (encode n) ∧ read (encode n) = n)
    (hle : ∀ {g'}, Group g' → (encode (read g')).length ≤ g'.length)
    (hinj : ∀ {g g'}, Group g → Group g' → g.length = g'.length → read g = read g' → g = g') :
    IsMinimal read n g ↔ g = encode n := by
  constructor
  · intro h
    have hlong := hle h.group
    rw [h.value] at hlong
    have hshort := h.shortest _ hencode.1 hencode.2
    exact hinj h.group hencode.1 (by omega) (h.value.trans hencode.2.symm)
  · rintro rfl
    refine ⟨hencode.1, hencode.2, fun g' hg' hval => ?_⟩
    rw [← hval]
    exact hle hg'

/-- The unsigned encoder gives the shortest group of a number, and there is no other. -/
theorem isMinimal_unsigned_iff {n : ℕ} {g : List UInt8} :
    IsMinimal unsigned n g ↔ g = encodeUnsigned n := by
  refine isMinimal_iff ⟨group_encodeUnsigned n, unsigned_encodeUnsigned n⟩ ?_ Group.unsigned_inj
  intro g' hg'
  obtain ⟨k, hk⟩ : ∃ k, g'.length = k + 1 := ⟨g'.length - 1, by have := hg'.length_pos; omega⟩
  have hlt := unsigned_lt g'
  rw [hk] at hlt ⊢
  exact encodeUnsignedAux_length hlt

/-- The signed encoder gives the shortest group of a number, and there is no other. -/
theorem isMinimal_signed_iff {n : ℤ} {g : List UInt8} :
    IsMinimal signed n g ↔ g = encodeSigned n := by
  refine isMinimal_iff ⟨group_encodeSigned n, signed_encodeSigned n⟩ ?_ Group.signed_inj
  intro g' hg'
  obtain ⟨xs, b, rfl⟩ := (List.eq_nil_or_concat' g').resolve_left hg'.ne_nil
  obtain ⟨hlo, hhi⟩ := signed_bounds xs b
  rw [List.length_append, List.length_singleton]
  exact encodeSignedAux_length hlo hhi

end Leb128
