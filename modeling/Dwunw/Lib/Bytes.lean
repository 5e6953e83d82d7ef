import Dwunw.Lib.Traced

/-!
Byte strings lying in memory.

* `Holds m p bs`: the bytes `bs` lie in the memory `m` from the address `p` on.
* `Span m c e bs`: between the cursor `c` and the end `e` lie exactly the bytes `bs`, and the
  addresses do not wrap.  This is how a cursor into a memory is read as the list of the bytes
  that are left: `Span.lt_iff`, `Span.cons` and `Span.append` move the cursor.
* `peek`: the bytes that lie somewhere.
* `Twin`: the same bytes left at two places.
* `leNat`: a byte string read as a little-endian number, inverted by `leBytes`.
* `memOf`: the memory that holds one byte string and is zero elsewhere.
-/

lemma UInt64.add_ofNat_succ (p : UInt64) (n : ℕ) :
    p + UInt64.ofNat (n + 1) = p + 1 + UInt64.ofNat n := by
  rw [UInt64.ofNat_add, show UInt64.ofNat 1 = 1 from rfl, UInt64.add_comm _ 1,
    ← UInt64.add_assoc]

lemma UInt64.toNat_add_ofNat {p : UInt64} {n : ℕ} (h : p.toNat + n < 2 ^ 64) :
    (p + UInt64.ofNat n).toNat = p.toNat + n := by
  rw [UInt64.toNat_add, UInt64.toNat_ofNat', Nat.mod_eq_of_lt (a := n) (by omega),
    Nat.mod_eq_of_lt h]

/-- The bytes `bs` lie in memory from `p` on. -/
def Holds (m : ByteMem) : UInt64 → List UInt8 → Prop
  | _, [] => True
  | p, b :: bs => m p = b ∧ Holds m (p + 1) bs

namespace Holds

variable {m : ByteMem}

instance decidable (m : ByteMem) : (p : UInt64) → (bs : List UInt8) → Decidable (Holds m p bs)
  | _, [] => isTrue trivial
  | p, b :: bs =>
      have := decidable m (p + 1) bs
      inferInstanceAs (Decidable (m p = b ∧ Holds m (p + 1) bs))

lemma append_iff {p : UInt64} {xs ys : List UInt8} :
    Holds m p (xs ++ ys) ↔ Holds m p xs ∧ Holds m (p + UInt64.ofNat xs.length) ys := by
  induction xs generalizing p with
  | nil => simp [Holds]
  | cons x xs ih =>
      rw [List.cons_append, Holds, Holds, ih, List.length_cons, UInt64.add_ofNat_succ, and_assoc]

/-- Two strings of one length at one place are one string. -/
lemma unique {p : UInt64} {xs ys : List UInt8} (hx : Holds m p xs) (hy : Holds m p ys)
    (hl : xs.length = ys.length) : xs = ys := by
  induction xs generalizing p ys with
  | nil => exact (List.length_eq_zero_iff.mp hl.symm).symm
  | cons x xs ih =>
      cases ys with
      | nil => simp at hl
      | cons y ys =>
          rw [← hx.1, ← hy.1, ih hx.2 hy.2 (by simpa using hl)]

end Holds

/-- The `n` bytes from an address on. -/
def peek (m : ByteMem) : ℕ → UInt64 → List UInt8
  | 0, _ => []
  | n + 1, p => m p :: peek m n (p + 1)

@[simp] lemma peek_length (m : ByteMem) (n : ℕ) (p : UInt64) : (peek m n p).length = n := by
  induction n generalizing p with
  | zero => rfl
  | succ n ih => rw [peek, List.length_cons, ih]

lemma holds_peek (m : ByteMem) (n : ℕ) (p : UInt64) : Holds m p (peek m n p) := by
  induction n generalizing p with
  | zero => trivial
  | succ n ih => exact ⟨rfl, ih (p + 1)⟩

lemma Holds.peek_eq {m : ByteMem} {p : UInt64} {bs : List UInt8} (h : Holds m p bs) :
    peek m bs.length p = bs :=
  (holds_peek m bs.length p).unique h (peek_length m _ p)

@[simp] lemma Traced.val_bytes {ε τ : Type} (t : τ) (n : ℕ) (p : UInt64) (m : ByteMem) :
    (Traced.bytes t n p : Traced ε τ _).val m = .ok (peek m n p) := by
  induction n generalizing p with
  | zero => rfl
  | succ n ih =>
      rw [Traced.bytes, Traced.val_byte_bind, Traced.val_bind_ok (ih (p + 1))]
      rfl

/-- Between the cursor `c` and the end `e` lie exactly the bytes `bs`. -/
structure Span (m : ByteMem) (c e : UInt64) (bs : List UInt8) : Prop where
  holds : Holds m c bs
  length_eq : c.toNat + bs.length = e.toNat

namespace Span

variable {m : ByteMem} {c e : UInt64} {b : UInt8} {bs xs ys : List UInt8}

lemma le (h : Span m c e bs) : c ≤ e := by
  have := h.length_eq
  rw [UInt64.le_iff_toNat_le]
  omega

@[simp] lemma nil_iff : Span m c e [] ↔ c = e := by
  refine ⟨fun h => ?_, ?_⟩
  · exact UInt64.toNat_inj.mp (by simpa using h.length_eq)
  · rintro rfl
    exact ⟨trivial, rfl⟩

/-- A cursor is before the end exactly when bytes are left. -/
lemma lt_iff (h : Span m c e bs) : c < e ↔ bs ≠ [] := by
  have := h.length_eq
  rw [UInt64.lt_iff_toNat_lt]
  cases bs <;> simp at * <;> omega

lemma length_lt (h : Span m c e bs) : c.toNat + bs.length < 2 ^ 64 := by
  have := h.length_eq
  have := e.toNat_lt
  omega

lemma append (h : Span m c e (xs ++ ys)) : Span m (c + UInt64.ofNat xs.length) e ys := by
  have hlt := h.length_lt
  have hl := h.length_eq
  rw [List.length_append] at hlt hl
  refine ⟨(Holds.append_iff.mp h.holds).2, ?_⟩
  rw [UInt64.toNat_add_ofNat (by omega)]
  omega

/-- The part of a span in front of a point inside it. -/
lemma left (h : Span m c e (xs ++ ys)) : Span m c (c + UInt64.ofNat xs.length) xs := by
  have hlt := h.length_lt
  rw [List.length_append] at hlt
  exact ⟨(Holds.append_iff.mp h.holds).1, by rw [UInt64.toNat_add_ofNat (by omega)]⟩

lemma cons (h : Span m c e (b :: bs)) : m c = b ∧ Span m (c + 1) e bs := by
  have h' : Span m c e ([b] ++ bs) := h
  exact ⟨h.holds.1, h'.append⟩

lemma head_lt (h : Span m c e (b :: bs)) : c < e := h.lt_iff.mpr (by simp)

/-- The number of bytes left, as the pointer difference computes it. -/
lemma sub_eq (h : Span m c e bs) : e - c = UInt64.ofNat bs.length := by
  have hl := h.length_eq
  have hlt := h.length_lt
  apply UInt64.toNat_inj.mp
  rw [UInt64.toNat_sub_of_le _ _ h.le, UInt64.toNat_ofNat', Nat.mod_eq_of_lt (by omega)]
  omega

lemma sub_toNat (h : Span m c e bs) : (e - c).toNat = bs.length := by
  have hlt := h.length_lt
  rw [h.sub_eq, UInt64.toNat_ofNat', Nat.mod_eq_of_lt (by omega)]

/-- Bytes that lie at the cursor and end in front of the end are the first ones of the span. -/
lemma exists_append (h : Span m c e bs) (hx : Holds m c xs)
    (hle : c.toNat + xs.length ≤ e.toNat) : ∃ ys, bs = xs ++ ys := by
  have hl := h.length_eq
  have hsplit := h.holds
  rw [← List.take_append_drop xs.length bs] at hsplit
  have htake : bs.take xs.length = xs := by
    refine (Holds.append_iff.mp hsplit).1.unique hx ?_
    rw [List.length_take]
    omega
  refine ⟨bs.drop xs.length, ?_⟩
  conv_lhs => rw [← List.take_append_drop xs.length bs, htake]

/-- A span whose end is given by a size does not wrap. -/
lemma add_lt {size : UInt64} (h : Span m c (c + size) bs) : c.toNat + size.toNat < 2 ^ 64 := by
  have hl := h.length_eq
  have hlt := h.length_lt
  have hsub := h.sub_toNat
  rw [show c + size - c = size by grind] at hsub
  omega

end Span

/-! ### The same bytes at two places -/

/-- Between cursor and end lie the same bytes, in two memories at two places. -/
def Twin (m₁ m₂ : ByteMem) (c₁ e₁ c₂ e₂ : UInt64) : Prop :=
  ∃ bs, Span m₁ c₁ e₁ bs ∧ Span m₂ c₂ e₂ bs

namespace Twin

variable {m₁ m₂ : ByteMem} {c₁ e₁ c₂ e₂ : UInt64}

lemma le₁ (h : Twin m₁ m₂ c₁ e₁ c₂ e₂) : c₁ ≤ e₁ := by
  obtain ⟨bs, h₁, -⟩ := h
  exact h₁.le

lemma le₂ (h : Twin m₁ m₂ c₁ e₁ c₂ e₂) : c₂ ≤ e₂ := by
  obtain ⟨bs, -, h₂⟩ := h
  exact h₂.le

/-- As many bytes are left. -/
lemma left_eq (h : Twin m₁ m₂ c₁ e₁ c₂ e₂) : c₁.toNat + e₂.toNat = c₂.toNat + e₁.toNat := by
  obtain ⟨bs, h₁, h₂⟩ := h
  have := h₁.length_eq
  have := h₂.length_eq
  omega

lemma sub_eq (h : Twin m₁ m₂ c₁ e₁ c₂ e₂) : e₁ - c₁ = e₂ - c₂ := by
  obtain ⟨bs, h₁, h₂⟩ := h
  rw [h₁.sub_eq, h₂.sub_eq]

lemma lt_iff (h : Twin m₁ m₂ c₁ e₁ c₂ e₂) : c₁ < e₁ ↔ c₂ < e₂ := by
  obtain ⟨bs, h₁, h₂⟩ := h
  rw [h₁.lt_iff, h₂.lt_iff]

/-- A step that does not wrap goes past both ends or past none. -/
lemma lt_add_iff (h : Twin m₁ m₂ c₁ e₁ c₂ e₂) {x : UInt64}
    (hx₁ : c₁.toNat + x.toNat < 2 ^ 64) (hx₂ : c₂.toNat + x.toNat < 2 ^ 64) :
    e₁ < c₁ + x ↔ e₂ < c₂ + x := by
  have hleft := h.left_eq
  rw [UInt64.lt_iff_toNat_lt, UInt64.lt_iff_toNat_lt, UInt64.toNat_add, UInt64.toNat_add,
    Nat.mod_eq_of_lt hx₁, Nat.mod_eq_of_lt hx₂]
  omega

/-- A step that does not wrap reaches both ends or none. -/
lemma le_add_iff (h : Twin m₁ m₂ c₁ e₁ c₂ e₂) {x : UInt64}
    (hx₁ : c₁.toNat + x.toNat < 2 ^ 64) (hx₂ : c₂.toNat + x.toNat < 2 ^ 64) :
    e₁ ≤ c₁ + x ↔ e₂ ≤ c₂ + x := by
  have hleft := h.left_eq
  rw [UInt64.le_iff_toNat_le, UInt64.le_iff_toNat_le, UInt64.toNat_add, UInt64.toNat_add,
    Nat.mod_eq_of_lt hx₁, Nat.mod_eq_of_lt hx₂]
  omega

/-- The next byte is the same. -/
lemma head (h : Twin m₁ m₂ c₁ e₁ c₂ e₂) (hlt : c₁ < e₁) :
    m₁ c₁ = m₂ c₂ ∧ Twin m₁ m₂ (c₁ + 1) e₁ (c₂ + 1) e₂ := by
  obtain ⟨bs, h₁, h₂⟩ := h
  cases bs with
  | nil => exact absurd rfl (h₁.lt_iff.mp hlt)
  | cons b bs => exact ⟨h₁.cons.1.trans h₂.cons.1.symm, bs, h₁.cons.2, h₂.cons.2⟩

lemma split_at (h : Twin m₁ m₂ c₁ e₁ c₂ e₂) {n : ℕ} (hn : c₁.toNat + n ≤ e₁.toNat) :
    ∃ xs ys, xs.length = n ∧ Span m₁ c₁ e₁ (xs ++ ys) ∧ Span m₂ c₂ e₂ (xs ++ ys) := by
  obtain ⟨bs, h₁, h₂⟩ := h
  have hl := h₁.length_eq
  refine ⟨bs.take n, bs.drop n, ?_, ?_, ?_⟩
  · rw [List.length_take]
    omega
  · rwa [List.take_append_drop]
  · rwa [List.take_append_drop]

/-- Stepping over `n` bytes that are left. -/
lemma skip (h : Twin m₁ m₂ c₁ e₁ c₂ e₂) {n : ℕ} (hn : c₁.toNat + n ≤ e₁.toNat) :
    Twin m₁ m₂ (c₁ + UInt64.ofNat n) e₁ (c₂ + UInt64.ofNat n) e₂ := by
  obtain ⟨xs, ys, rfl, h₁, h₂⟩ := h.split_at hn
  exact ⟨ys, h₁.append, h₂.append⟩

/-- The next `n` bytes, as far as they are left. -/
lemma prefix_to (h : Twin m₁ m₂ c₁ e₁ c₂ e₂) {n : ℕ} (hn : c₁.toNat + n ≤ e₁.toNat) :
    Twin m₁ m₂ c₁ (c₁ + UInt64.ofNat n) c₂ (c₂ + UInt64.ofNat n) := by
  obtain ⟨xs, ys, rfl, h₁, h₂⟩ := h.split_at hn
  exact ⟨xs, h₁.left, h₂.left⟩

lemma peek_eq (h : Twin m₁ m₂ c₁ e₁ c₂ e₂) {n : ℕ} (hn : c₁.toNat + n ≤ e₁.toNat) :
    peek m₁ n c₁ = peek m₂ n c₂ := by
  obtain ⟨xs, ys, rfl, h₁, h₂⟩ := h.split_at hn
  rw [h₁.left.holds.peek_eq, h₂.left.holds.peek_eq]

end Twin

/-! ### Little-endian numbers -/

/-- A byte string read as a little-endian number. -/
def leNat : List UInt8 → ℕ
  | [] => 0
  | b :: bs => b.toNat + 256 * leNat bs

/-- The `n` low bytes of a number, lowest first. -/
def leBytes : ℕ → ℕ → List UInt8
  | 0, _ => []
  | n + 1, v => UInt8.ofNat (v % 256) :: leBytes n (v / 256)

@[simp] lemma leBytes_length (n v : ℕ) : (leBytes n v).length = n := by
  induction n generalizing v with
  | zero => rfl
  | succ n ih => rw [leBytes, List.length_cons, ih]

lemma leNat_lt (bs : List UInt8) : leNat bs < 256 ^ bs.length := by
  induction bs with
  | nil => simp [leNat]
  | cons b bs ih =>
      have hb := b.toNat_lt
      rw [leNat, List.length_cons, pow_succ]
      omega

lemma leNat_append (xs ys : List UInt8) :
    leNat (xs ++ ys) = leNat xs + 256 ^ xs.length * leNat ys := by
  induction xs with
  | nil => simp [leNat]
  | cons x xs ih =>
      rw [List.cons_append, leNat, leNat, ih, List.length_cons, pow_succ]
      ring

lemma leNat_eq_zero_iff {bs : List UInt8} : leNat bs = 0 ↔ bs = List.replicate bs.length 0 := by
  induction bs with
  | nil => simp [leNat]
  | cons b bs ih =>
      rw [leNat, List.length_cons, List.replicate_succ, List.cons.injEq, ← ih,
        ← UInt8.toNat_inj]
      simp

/-- Reading inverts writing, up to the bytes written. -/
lemma leNat_leBytes (n v : ℕ) : leNat (leBytes n v) = v % 256 ^ n := by
  induction n generalizing v with
  | zero => simp [leNat, leBytes, Nat.mod_one]
  | succ n ih =>
      have hb : (UInt8.ofNat (v % 256)).toNat = v % 256 :=
        UInt8.toNat_ofNat_of_lt' (Nat.mod_lt _ (by decide))
      rw [leBytes, leNat, hb, ih, pow_succ, mul_comm (256 ^ n), Nat.mod_mul]

/-! ### Memories that hold one string -/

/-- The memory that holds `bs` from `base` on and is zero elsewhere. -/
def memOf (base : UInt64) (bs : List UInt8) : ByteMem := fun a => bs.getD (a - base).toNat 0

lemma holds_memOf_aux (base : UInt64) (xs ys : List UInt8) (h : xs.length + ys.length ≤ 2 ^ 64) :
    Holds (memOf base (xs ++ ys)) (base + UInt64.ofNat xs.length) ys := by
  induction ys generalizing xs with
  | nil => trivial
  | cons y ys ih =>
      rw [List.length_cons] at h
      refine ⟨?_, ?_⟩
      · have hx : (base + UInt64.ofNat xs.length - base).toNat = xs.length := by
          rw [UInt64.add_comm, UInt64.add_sub_cancel, UInt64.toNat_ofNat',
            Nat.mod_eq_of_lt (by omega)]
        rw [memOf, hx]
        simp
      · have := ih (xs ++ [y]) (by simp; omega)
        rw [List.append_assoc, List.singleton_append, List.length_append,
          List.length_singleton, UInt64.ofNat_add, ← UInt64.add_assoc] at this
        exact this

/-- The memory of a string holds it. -/
lemma holds_memOf (base : UInt64) {bs : List UInt8} (h : bs.length ≤ 2 ^ 64) :
    Holds (memOf base bs) base bs := by
  simpa using holds_memOf_aux base [] bs (by simpa using h)

lemma span_memOf {base : UInt64} {bs : List UInt8} (h : base.toNat + bs.length < 2 ^ 64) :
    Span (memOf base bs) base (base + UInt64.ofNat bs.length) bs :=
  ⟨holds_memOf base (by omega), (UInt64.toNat_add_ofNat h).symm⟩
