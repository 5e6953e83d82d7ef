import Mathlib.Tactic

/-!
Computations that read a byte memory, may fail, and leave a trace of what they read.

The memory is flat: every 64-bit address holds a byte.  A computation `Traced ε τ α` is a
function of the memory; it returns a value or an error together with the list of the
accesses it made, each tagged with what the reader went through (`τ`).

* `val` and `accesses`: the two halves of an outcome, and how they compose along `bind`.
* `Within S Q x`: the footprint triple, every access of `x` satisfies `S` and every value it
  returns satisfies `Q`; `Within.bind`, `Within.mono` are its rules.
* `Sim R x₁ x₂`: the two-run relation, `x₁` on one memory and `x₂` on another fail alike or
  return values related by `R`; `Sim.bind` is its rule.
-/

/-- A byte memory with 64-bit addresses. -/
abbrev ByteMem := UInt64 → UInt8

/-- A traced computation over a byte memory. -/
def Traced (ε τ α : Type) : Type := ByteMem → Except ε α × List (τ × UInt64)

namespace Traced

variable {ε τ α β : Type}

/-- The value or error of a computation on a memory. -/
def val (x : Traced ε τ α) (m : ByteMem) : Except ε α := (x m).1

/-- The accesses a computation makes on a memory, in order. -/
def accesses (x : Traced ε τ α) (m : ByteMem) : List (τ × UInt64) := (x m).2

protected def pure (a : α) : Traced ε τ α := fun _ => (.ok a, [])

protected def bind (x : Traced ε τ α) (f : α → Traced ε τ β) : Traced ε τ β := fun m =>
  match x m with
  | (.ok a, l) => ((f a m).1, l ++ (f a m).2)
  | (.error e, l) => (.error e, l)

instance : Monad (Traced ε τ) where
  pure := Traced.pure
  bind := Traced.bind

/-- Fail. -/
def fail (e : ε) : Traced ε τ α := fun _ => (.error e, [])

/-- Read the byte at an address, through `t`. -/
def byte (t : τ) (a : UInt64) : Traced ε τ UInt8 := fun m => (.ok (m a), [(t, a)])

/-- Read `n` consecutive bytes, through `t`. -/
def bytes (t : τ) : ℕ → UInt64 → Traced ε τ (List UInt8)
  | 0, _ => pure []
  | n + 1, a => do
      let b ← byte t a
      let bs ← bytes t n (a + 1)
      pure (b :: bs)

/-! ### Values and accesses -/

@[simp] lemma val_pure (a : α) (m : ByteMem) :
    (pure a : Traced ε τ α).val m = .ok a := rfl

@[simp] lemma val_fail (e : ε) (m : ByteMem) : (fail e : Traced ε τ α).val m = .error e := rfl

lemma val_bind (x : Traced ε τ α) (f : α → Traced ε τ β) (m : ByteMem) :
    (x >>= f).val m = x.val m >>= fun a => (f a).val m := by
  show (Traced.bind x f m).1 = _
  unfold Traced.bind val
  rcases x m with ⟨_ | _, l⟩ <;> rfl

lemma val_bind_ok {x : Traced ε τ α} {m : ByteMem} {a : α} (h : x.val m = .ok a)
    (f : α → Traced ε τ β) : (x >>= f).val m = (f a).val m := by
  rw [val_bind, h]; rfl

lemma val_bind_error {x : Traced ε τ α} {m : ByteMem} {e : ε} (h : x.val m = .error e)
    (f : α → Traced ε τ β) : (x >>= f).val m = .error e := by
  rw [val_bind, h]; rfl

/-- Reading one byte first. -/
@[simp] lemma val_byte_bind (t : τ) (a : UInt64) (f : UInt8 → Traced ε τ β) (m : ByteMem) :
    (byte t a >>= f).val m = (f (m a)).val m := val_bind_ok rfl f

/-- A sequence that succeeds has succeeded in both parts. -/
lemma val_bind_eq_ok {x : Traced ε τ α} {f : α → Traced ε τ β} {m : ByteMem} {b : β}
    (h : (x >>= f).val m = .ok b) : ∃ a, x.val m = .ok a ∧ (f a).val m = .ok b := by
  cases hx : x.val m with
  | error e => rw [val_bind_error hx] at h; cases h
  | ok a => exact ⟨a, rfl, by rw [← h, val_bind_ok hx]⟩

@[simp] lemma accesses_pure (a : α) (m : ByteMem) :
    (pure a : Traced ε τ α).accesses m = [] := rfl

@[simp] lemma accesses_fail (e : ε) (m : ByteMem) :
    (fail e : Traced ε τ α).accesses m = [] := rfl

@[simp] lemma accesses_byte (t : τ) (a : UInt64) (m : ByteMem) :
    (byte t a : Traced ε τ UInt8).accesses m = [(t, a)] := rfl

lemma accesses_bind_ok {x : Traced ε τ α} {m : ByteMem} {a : α} (h : x.val m = .ok a)
    (f : α → Traced ε τ β) : (x >>= f).accesses m = x.accesses m ++ (f a).accesses m := by
  show (Traced.bind x f m).2 = _
  unfold Traced.bind accesses
  unfold val at h
  rcases hx : x m with ⟨_ | b, l⟩ <;> rw [hx] at h <;> cases h
  rfl

lemma accesses_bind_error {x : Traced ε τ α} {m : ByteMem} {e : ε} (h : x.val m = .error e)
    (f : α → Traced ε τ β) : (x >>= f).accesses m = x.accesses m := by
  show (Traced.bind x f m).2 = _
  unfold Traced.bind accesses
  unfold val at h
  rcases hx : x m with ⟨_ | b, l⟩
  · rfl
  · rw [hx] at h; cases h

lemma mem_accesses_bind_left {x : Traced ε τ α} {m : ByteMem} {p : τ × UInt64}
    (h : p ∈ x.accesses m) (f : α → Traced ε τ β) : p ∈ (x >>= f).accesses m := by
  cases hx : x.val m with
  | error e => rwa [accesses_bind_error hx]
  | ok a =>
      rw [accesses_bind_ok hx]
      exact List.mem_append_left _ h

lemma mem_accesses_bind_right {x : Traced ε τ α} {m : ByteMem} {a : α} (hx : x.val m = .ok a)
    {f : α → Traced ε τ β} {p : τ × UInt64} (h : p ∈ (f a).accesses m) :
    p ∈ (x >>= f).accesses m := by
  rw [accesses_bind_ok hx]
  exact List.mem_append_right _ h

/-- Reading `n` bytes accesses the `n` addresses from `a` on. -/
lemma mem_accesses_bytes (t : τ) {n i : ℕ} (a : UInt64) (m : ByteMem) (hi : i < n) :
    (t, a + UInt64.ofNat i) ∈ (bytes t n a : Traced ε τ (List UInt8)).accesses m := by
  induction n generalizing a i with
  | zero => omega
  | succ n ih =>
      have hbyte : (byte t a : Traced ε τ UInt8).val m = .ok (m a) := rfl
      rw [bytes]
      cases i with
      | zero => exact mem_accesses_bind_left (by simp) _
      | succ i =>
          refine mem_accesses_bind_right hbyte ?_
          have h := ih (a + 1) (i := i) (by omega)
          rw [show a + UInt64.ofNat (i + 1) = a + 1 + UInt64.ofNat i by
            rw [UInt64.ofNat_add, show UInt64.ofNat 1 = 1 from rfl, UInt64.add_comm _ 1,
              ← UInt64.add_assoc]]
          exact mem_accesses_bind_left h _

/-- What holds of every value of a computation can be checked on the one it returns. -/
instance decidableForallOk {P : α → Prop} [∀ a, Decidable (P a)] (r : Except ε α) :
    Decidable (∀ a, r = .ok a → P a) :=
  match r with
  | .error _ => isTrue nofun
  | .ok a => decidable_of_iff (P a) ⟨by rintro h _ ⟨⟩; exact h, fun h => h a rfl⟩

instance decidableExistsOk {P : α → Prop} [∀ a, Decidable (P a)] (r : Except ε α) :
    Decidable (∃ a, r = .ok a ∧ P a) :=
  match r with
  | .error _ => isFalse nofun
  | .ok a => decidable_of_iff (P a) ⟨fun h => ⟨a, rfl, h⟩, by rintro ⟨_, ⟨⟩, h⟩; exact h⟩

/-! ### Footprints -/

/-- On the memory `m` every access of `x` satisfies `S`, and a value it returns satisfies
`Q`. -/
structure Within (m : ByteMem) (S : τ × UInt64 → Prop) (Q : α → Prop) (x : Traced ε τ α) :
    Prop where
  reads : ∀ p ∈ x.accesses m, S p
  post : ∀ a, x.val m = .ok a → Q a

variable {m : ByteMem} {S S' : τ × UInt64 → Prop} {Q Q' : α → Prop} {x : Traced ε τ α}

lemma Within.mono (h : Within m S Q x) (hS : ∀ p, S p → S' p) (hQ : ∀ a, Q a → Q' a) :
    Within m S' Q' x :=
  ⟨fun p hp => hS p (h.reads p hp), fun a ha => hQ a (h.post a ha)⟩

lemma Within.pure {a : α} (h : Q a) : Within m S Q (pure a : Traced ε τ α) :=
  ⟨by simp, by rintro b ⟨⟩; exact h⟩

lemma Within.fail (e : ε) : Within m S Q (fail e : Traced ε τ α) :=
  ⟨by simp, by rintro b ⟨⟩⟩

lemma Within.byte {t : τ} {a : UInt64} {Q : UInt8 → Prop} (hS : S (t, a)) (hQ : Q (m a)) :
    Within m S Q (byte t a : Traced ε τ UInt8) :=
  ⟨by simpa using hS, by rintro b ⟨⟩; exact hQ⟩

/-- A value that is returned is the one that is returned. -/
lemma Within.with_val (h : Within m S Q x) : Within m S (fun a => Q a ∧ x.val m = .ok a) x :=
  ⟨h.reads, fun a ha => ⟨h.post a ha, ha⟩⟩

/-- The sequencing rule. -/
theorem Within.bind {R : β → Prop} {f : α → Traced ε τ β} (h : Within m S Q x)
    (hf : ∀ a, Q a → Within m S R (f a)) : Within m S R (x >>= f) := by
  cases hx : x.val m with
  | error e =>
      refine ⟨fun p hp => ?_, fun b hb => ?_⟩
      · rw [accesses_bind_error hx] at hp
        exact h.reads p hp
      · rw [val_bind_error hx] at hb
        cases hb
  | ok a =>
      have ha := hf a (h.post a hx)
      refine ⟨fun p hp => ?_, fun b hb => ?_⟩
      · rw [accesses_bind_ok hx, List.mem_append] at hp
        exact hp.elim (h.reads p) (ha.reads p)
      · rw [val_bind_ok hx] at hb
        exact ha.post b hb

/-- Reading `n` bytes reads the `n` addresses from `a` on and returns `n` bytes. -/
lemma Within.bytes {t : τ} (n : ℕ) (a : UInt64) (hS : ∀ i < n, S (t, a + UInt64.ofNat i)) :
    Within m S (fun bs => bs.length = n) (bytes t n a : Traced ε τ (List UInt8)) := by
  induction n generalizing a with
  | zero => exact .pure rfl
  | succ n ih =>
      have h0 : S (t, a) := by simpa using hS 0 (by omega)
      refine (Within.byte h0 trivial : Within m S (fun _ => True) _).bind fun b _ => ?_
      have hrest : ∀ i < n, S (t, a + 1 + UInt64.ofNat i) := by
        intro i hi
        have h := hS (i + 1) (by omega)
        rwa [UInt64.ofNat_add, show (UInt64.ofNat 1) = 1 from rfl, UInt64.add_comm _ 1,
          ← UInt64.add_assoc] at h
      exact (ih (a + 1) hrest).bind fun bs hbs => .pure (by simp [hbs])

/-! ### Errors -/

/-- On the memory `m` every error of `x` satisfies `E`. -/
def ErrorsIn (m : ByteMem) (E : ε → Prop) (x : Traced ε τ α) : Prop :=
  ∀ e, x.val m = .error e → E e

variable {E : ε → Prop}

lemma ErrorsIn.pure {a : α} : ErrorsIn m E (pure a : Traced ε τ α) := by
  rintro e ⟨⟩

lemma ErrorsIn.fail {e : ε} (h : E e) : ErrorsIn m E (fail e : Traced ε τ α) := by
  rintro e' ⟨⟩
  exact h

lemma ErrorsIn.byte {t : τ} {a : UInt64} : ErrorsIn m E (byte t a : Traced ε τ UInt8) := by
  rintro e ⟨⟩

lemma ErrorsIn.bind {f : α → Traced ε τ β} (h : ErrorsIn m E x)
    (hf : ∀ a, ErrorsIn m E (f a)) : ErrorsIn m E (x >>= f) := by
  intro e he
  cases hx : x.val m with
  | error e' =>
      rw [val_bind_error hx] at he
      cases he
      exact h e hx
  | ok a =>
      rw [val_bind_ok hx] at he
      exact hf a e he

/-! ### Two runs -/

/-- `x₁` on `m₁` and `x₂` on `m₂` fail with the same error or return values related by
`R`. -/
inductive Sim (m₁ m₂ : ByteMem) (R : α → β → Prop) (x₁ : Traced ε τ α) (x₂ : Traced ε τ β) :
    Prop
  | ok {a : α} {b : β} : x₁.val m₁ = .ok a → x₂.val m₂ = .ok b → R a b → Sim m₁ m₂ R x₁ x₂
  | error {e : ε} : x₁.val m₁ = .error e → x₂.val m₂ = .error e → Sim m₁ m₂ R x₁ x₂

variable {m₁ m₂ : ByteMem} {R : α → β → Prop} {x₁ : Traced ε τ α} {x₂ : Traced ε τ β}

lemma Sim.pure {a : α} {b : β} (h : R a b) :
    Sim m₁ m₂ R (pure a : Traced ε τ α) (pure b) := .ok rfl rfl h

lemma Sim.fail (e : ε) : Sim m₁ m₂ R (fail e : Traced ε τ α) (fail e) := .error rfl rfl

lemma Sim.byte {R : UInt8 → UInt8 → Prop} {t : τ} {a b : UInt64} (h : R (m₁ a) (m₂ b)) :
    Sim m₁ m₂ R (byte t a : Traced ε τ UInt8) (byte t b) := .ok rfl rfl h

lemma Sim.mono {R' : α → β → Prop} (h : Sim m₁ m₂ R x₁ x₂) (hR : ∀ a b, R a b → R' a b) :
    Sim m₁ m₂ R' x₁ x₂ := by
  cases h with
  | ok h₁ h₂ hr => exact .ok h₁ h₂ (hR _ _ hr)
  | error h₁ h₂ => exact .error h₁ h₂

/-- The sequencing rule for two runs, with the two values at hand. -/
theorem Sim.bind_val {γ δ : Type} {R' : γ → δ → Prop} {f₁ : α → Traced ε τ γ}
    {f₂ : β → Traced ε τ δ} (h : Sim m₁ m₂ R x₁ x₂)
    (hf : ∀ a b, x₁.val m₁ = .ok a → x₂.val m₂ = .ok b → R a b →
      Sim m₁ m₂ R' (f₁ a) (f₂ b)) :
    Sim m₁ m₂ R' (x₁ >>= f₁) (x₂ >>= f₂) := by
  cases h with
  | error h₁ h₂ => exact .error (val_bind_error h₁ _) (val_bind_error h₂ _)
  | ok h₁ h₂ hR =>
      cases hf _ _ h₁ h₂ hR with
      | ok h₁' h₂' hR' =>
          exact .ok (by rw [val_bind_ok h₁, h₁']) (by rw [val_bind_ok h₂, h₂']) hR'
      | error h₁' h₂' =>
          exact .error (by rw [val_bind_ok h₁, h₁']) (by rw [val_bind_ok h₂, h₂'])

/-- The sequencing rule for two runs. -/
theorem Sim.bind {γ δ : Type} {R' : γ → δ → Prop} {f₁ : α → Traced ε τ γ}
    {f₂ : β → Traced ε τ δ} (h : Sim m₁ m₂ R x₁ x₂)
    (hf : ∀ a b, R a b → Sim m₁ m₂ R' (f₁ a) (f₂ b)) :
    Sim m₁ m₂ R' (x₁ >>= f₁) (x₂ >>= f₂) :=
  h.bind_val fun a b _ _ => hf a b

end Traced
