import Dwunw.Lib.Leb128
import Dwunw.Lib.Words
import Dwunw.Cfi.Read

/-!
What the byte readers do.

`read_uleb` and `read_sleb` are one loop over the bytes of a number (`lebLoop`), with two ways to
take a byte in.  They succeed exactly on a LEB128 group of ten bytes at most that ends before the
stop, and return its value modulo `2 ^ 64` (`readUleb_ok_iff`, `readSleb_ok_iff`): the loop
decides which groups are taken (`lebLoop_ok_iff`), and the value is arithmetic on the bytes of
the group (`lebValue_uleb`, `lebValue_sleb`).  Everything else about them follows from that: what
they read lies in front of the stop (`readUleb_within`), a smaller stop behind the group makes no
difference, and on two memories with the same bytes they agree.
-/

namespace Dwunw

open Leb128 Traced

variable {m : ByteMem} {c c' stop : UInt64}

/-- An access of the entry being parsed, at an address from `lo` on and before `hi`. -/
def InEntry (lo hi : UInt64) (p : Via × UInt64) : Prop := p.1 = .entry ∧ lo ≤ p.2 ∧ p.2 < hi

lemma InEntry.mono {lo lo' hi hi' : UInt64} (hlo : lo' ≤ lo) (hhi : hi ≤ hi')
    {p : Via × UInt64} (h : InEntry lo hi p) : InEntry lo' hi' p :=
  ⟨h.1, UInt64.le_trans hlo h.2.1, UInt64.lt_of_lt_of_le h.2.2 hhi⟩

/-! ### The loop of the LEB128 readers -/

section LebLoop

variable {α : Type} (add finish : α → UInt8 → ℕ → α)

/-- The loop that `read_uleb` and `read_sleb` have in common: `add` takes in the seven bits of a
byte at a shift, and `finish` is what the last byte and the shift behind it still do. -/
def lebLoop (stop : UInt64) : ℕ → UInt64 → α → ℕ → Reader (α × UInt64)
  | 0, _, _, _ => .fail .badFormat
  | n + 1, cursor, result, shift =>
      if cursor < stop then do
        let byte ← .byte .entry cursor
        let result := add result byte shift
        if byte &&& 0x80 = 0 then pure (finish result byte (shift + 7), cursor + 1)
        else if 64 ≤ shift + 7 then .fail .badFormat
        else lebLoop stop n (cursor + 1) result (shift + 7)
      else .fail .badFormat

/-- What the loop makes of the bytes of a group. -/
def lebValue : List UInt8 → α → ℕ → α
  | [], result, _ => result
  | [b], result, shift => finish (add result b shift) b (shift + 7)
  | b :: b' :: g, result, shift => lebValue (b' :: g) (add result b shift) (shift + 7)

variable {add finish}

lemma lebValue_cons {b : UInt8} {g : List UInt8} (hg : g ≠ []) (result : α) (shift : ℕ) :
    lebValue add finish (b :: g) result shift =
      lebValue add finish g (add result b shift) (shift + 7) := by
  cases g with
  | nil => exact absurd rfl hg
  | cons b' g => rfl

/-- The loop on a group that fits the turns that are left. -/
lemma lebLoop_group {g : List UInt8} (hg : Group g) {n k : ℕ} {result : α} (hnk : n + k = 10)
    (hlen : g.length ≤ n) (hh : Holds m c g) (hend : c.toNat + g.length ≤ stop.toNat) :
    (lebLoop add finish stop n c result (7 * k)).val m =
      .ok (lebValue add finish g result (7 * k), c + UInt64.ofNat g.length) := by
  induction hg generalizing n k c result with
  | @last b hb =>
      rw [List.length_singleton] at hlen hend
      obtain ⟨n, rfl⟩ : ∃ j, n = j + 1 := ⟨n - 1, by omega⟩
      have hc : c < stop := UInt64.lt_iff_toNat_lt.mpr (by omega)
      have hbyte : m c &&& 0x80 = 0 := by
        rw [hh.1, UInt8.and_0x80_eq_zero_iff]
        exact hb
      rw [lebLoop, if_pos hc, val_byte_bind, if_pos hbyte, val_pure, hh.1]
      rfl
  | @more b g hb hg ih =>
      have hlt := stop.toNat_lt
      rw [List.length_cons] at hlen hend
      obtain ⟨n, rfl⟩ : ∃ j, n = j + 1 := ⟨n - 1, by omega⟩
      have hc : c < stop := UInt64.lt_iff_toNat_lt.mpr (by omega)
      have hbyte : ¬ m c &&& 0x80 = 0 := by
        rw [hh.1, UInt8.and_0x80_eq_zero_iff]
        omega
      have hc1 : (c + 1).toNat = c.toNat + 1 := UInt64.toNat_add_of_lt (by simp; omega)
      have hpos := hg.length_pos
      rw [lebLoop, if_pos hc, val_byte_bind, if_neg hbyte, if_neg (by omega), hh.1,
        show 7 * k + 7 = 7 * (k + 1) by omega, ih (by omega) (by omega) hh.2 (by omega),
        lebValue_cons hg.ne_nil, List.length_cons, UInt64.add_ofNat_succ]
      rfl

/-- When the loop succeeds it has read a group that ends before the stop. -/
lemma group_of_lebLoop {n : ℕ} {result v : α} {shift : ℕ}
    (h : (lebLoop add finish stop n c result shift).val m = .ok (v, c')) :
    ∃ g, Group g ∧ g.length ≤ n ∧ Holds m c g ∧ c.toNat + g.length ≤ stop.toNat := by
  induction n generalizing c result shift with
  | zero => simp [lebLoop] at h
  | succ n ih =>
      rw [lebLoop] at h
      by_cases hc : c < stop
      · rw [if_pos hc, val_byte_bind] at h
        rw [UInt64.lt_iff_toNat_lt] at hc
        by_cases hb : m c &&& 0x80 = 0
        · rw [UInt8.and_0x80_eq_zero_iff] at hb
          exact ⟨[m c], .last hb, by simp, ⟨rfl, trivial⟩, by simpa using hc⟩
        · rw [if_neg hb] at h
          rw [UInt8.and_0x80_eq_zero_iff] at hb
          split_ifs at h with hs
          · simp at h
          · obtain ⟨g, hg, hlen, hh, hend⟩ := ih h
            have hc1 : (c + 1).toNat = c.toNat + 1 :=
              UInt64.toNat_add_of_lt (by have := stop.toNat_lt; simp; omega)
            exact ⟨m c :: g, .more (by omega) hg, by simpa using hlen, ⟨rfl, hh⟩,
              by rw [List.length_cons]; omega⟩
      · rw [if_neg hc] at h
        simp at h

/-- The loop succeeds exactly on a group of ten bytes at most that ends before the stop, and
returns what the bytes are decoded to. -/
lemma lebLoop_ok_iff {result v : α} {decode : List UInt8 → α}
    (hvalue : ∀ g : List UInt8, Group g → g.length ≤ 10 →
      lebValue add finish g result 0 = decode g) :
    (lebLoop add finish stop 10 c result 0).val m = .ok (v, c') ↔
      ∃ g, Group g ∧ g.length ≤ 10 ∧ Holds m c g ∧ c.toNat + g.length ≤ stop.toNat ∧
        v = decode g ∧ c' = c + UInt64.ofNat g.length := by
  have hread {g : List UInt8} (hg : Group g) (hlen : g.length ≤ 10) (hh : Holds m c g)
      (hend : c.toNat + g.length ≤ stop.toNat) :
      (lebLoop add finish stop 10 c result 0).val m =
        .ok (decode g, c + UInt64.ofNat g.length) := by
    rw [← hvalue g hg hlen]
    exact lebLoop_group (k := 0) hg (by omega) hlen hh hend
  constructor
  · intro h
    obtain ⟨g, hg, hlen, hh, hend⟩ := group_of_lebLoop h
    rw [hread hg hlen hh hend] at h
    cases h
    exact ⟨g, hg, hlen, hh, hend, rfl, rfl⟩
  · rintro ⟨g, hg, hlen, hh, hend, rfl, rfl⟩
    exact hread hg hlen hh hend

/-- The loop fails with `DWUNW_ERR_BAD_FORMAT` only. -/
lemma lebLoop_error {n : ℕ} {result : α} {shift : ℕ} {st : Status}
    (h : (lebLoop add finish stop n c result shift).val m = .error st) : st = .badFormat := by
  induction n generalizing c result shift with
  | zero => simpa [lebLoop] using h.symm
  | succ n ih =>
      rw [lebLoop] at h
      by_cases hc : c < stop
      · rw [if_pos hc, val_byte_bind] at h
        by_cases hb : m c &&& 0x80 = 0
        · rw [if_pos hb] at h
          simp at h
        · rw [if_neg hb] at h
          by_cases hs : 64 ≤ shift + 7
          · rw [if_pos hs] at h
            simpa using h.symm
          · rw [if_neg hs] at h
            exact ih h
      · rw [if_neg hc] at h
        simpa using h.symm

/-- The loop reads between its cursor and the stop. -/
lemma lebLoop_reads {n : ℕ} {result : α} {shift : ℕ} :
    ∀ p ∈ (lebLoop add finish stop n c result shift).accesses m, InEntry c stop p := by
  induction n generalizing c result shift with
  | zero => simp [lebLoop]
  | succ n ih =>
      rw [lebLoop]
      by_cases hc : c < stop
      · have hc1 : c ≤ c + 1 := by grind
        rw [if_pos hc]
        refine (Within.bind (Q := fun _ => True) (R := fun _ => True)
          (.byte ⟨rfl, UInt64.le_refl c, hc⟩ trivial) fun b _ => ?_).reads
        by_cases hb : b &&& 0x80 = 0
        · rw [if_pos hb]
          exact .pure trivial
        rw [if_neg hb]
        by_cases hs : 64 ≤ shift + 7
        · rw [if_pos hs]
          exact .fail _
        · rw [if_neg hs]
          exact ⟨fun p hp => (ih p hp).mono hc1 (UInt64.le_refl _), fun _ _ => trivial⟩
      · rw [if_neg hc]
        simp

end LebLoop

/-! ### `read_uleb` -/

lemma or_byte_shiftLeft (byte : UInt8) {result : UInt64} {k : ℕ} (hk : k < 10)
    (hr : result.toNat < 2 ^ (7 * k)) :
    result ||| ((byte &&& 0x7f).toUInt64 <<< UInt64.ofNat (7 * k)) =
      result + UInt64.ofNat (byte.toNat % 128 * 2 ^ (7 * k)) := by
  rw [UInt64.or_shiftLeft (by omega) hr, UInt8.toNat_toUInt64, UInt8.toNat_and_0x7f]

lemma toNat_or_byte_lt (byte : UInt8) {result : UInt64} {k : ℕ}
    (hr : result.toNat < 2 ^ (7 * k)) :
    (result + UInt64.ofNat (byte.toNat % 128 * 2 ^ (7 * k))).toNat < 2 ^ (7 * (k + 1)) := by
  have hb : byte.toNat % 128 < 128 := Nat.mod_lt _ (by omega)
  have hmul : byte.toNat % 128 * 2 ^ (7 * k) ≤ 127 * 2 ^ (7 * k) :=
    Nat.mul_le_mul_right _ (by omega)
  have hpow : 2 ^ (7 * (k + 1)) = 128 * 2 ^ (7 * k) := by
    rw [show 7 * (k + 1) = 7 + 7 * k by omega, pow_add]
    norm_num
  rw [UInt64.toNat_add, UInt64.toNat_ofNat', hpow]
  calc (result.toNat + byte.toNat % 128 * 2 ^ (7 * k) % 2 ^ 64) % 2 ^ 64
      ≤ result.toNat + byte.toNat % 128 * 2 ^ (7 * k) :=
        (Nat.mod_le _ _).trans (Nat.add_le_add_left (Nat.mod_le _ _) _)
    _ < 128 * 2 ^ (7 * k) := by omega

/-- What a turn of `read_uleb` adds. -/
def ulebAdd (result : UInt64) (byte : UInt8) (shift : ℕ) : UInt64 :=
  result ||| ((byte &&& 0x7f).toUInt64 <<< UInt64.ofNat shift)

lemma readUleb_eq_loop (c stop : UInt64) :
    readUleb c stop = lebLoop ulebAdd (fun result _ _ => result) stop 10 c 0 0 := by
  have hloop (n : ℕ) (c result : UInt64) (shift : ℕ) : readUlebLoop stop n c result shift =
      lebLoop ulebAdd (fun result _ _ => result) stop n c result shift := by
    induction n generalizing c result shift with
    | zero => rfl
    | succ n ih =>
        rw [readUlebLoop, lebLoop]
        simp only [ih]
        rfl
  exact hloop 10 c 0 0

/-- The loop of `read_uleb` adds a group to the result, at the shift where it stands. -/
lemma lebValue_uleb {g : List UInt8} (hg : Group g) {k : ℕ} {result : UInt64}
    (hk : g.length + k ≤ 10) (hr : result.toNat < 2 ^ (7 * k)) :
    lebValue ulebAdd (fun result _ _ => result) g result (7 * k) =
      result + UInt64.ofNat (unsigned g * 2 ^ (7 * k)) := by
  induction hg generalizing k result with
  | @last b hb =>
      rw [List.length_singleton] at hk
      rw [lebValue, ulebAdd, or_byte_shiftLeft b (by omega) hr]
      simp [unsigned]
  | @more b g hb hg ih =>
      rw [List.length_cons] at hk
      have hval : b.toNat % 128 * 2 ^ (7 * k) + unsigned g * 2 ^ (7 * (k + 1)) =
          unsigned (b :: g) * 2 ^ (7 * k) := by
        rw [unsigned, show 7 * (k + 1) = 7 + 7 * k by omega, pow_add]
        ring
      rw [lebValue_cons hg.ne_nil, ulebAdd, or_byte_shiftLeft b (by omega) hr,
        show 7 * k + 7 = 7 * (k + 1) by omega, ih (by omega) (toNat_or_byte_lt b hr),
        UInt64.add_assoc, ← UInt64.ofNat_add, hval]

/-- `read_uleb` succeeds exactly on a group of ten bytes at most that ends before the stop,
and returns its value modulo `2 ^ 64`. -/
theorem readUleb_ok_iff {v : UInt64} :
    (readUleb c stop).val m = .ok (v, c') ↔
      ∃ g, Group g ∧ g.length ≤ 10 ∧ Holds m c g ∧ c.toNat + g.length ≤ stop.toNat ∧
        v = UInt64.ofNat (unsigned g) ∧ c' = c + UInt64.ofNat g.length := by
  rw [readUleb_eq_loop]
  refine lebLoop_ok_iff fun g hg hlen => ?_
  have h0 : (0 : UInt64).toNat < 2 ^ (7 * 0) := by decide
  have h := lebValue_uleb (k := 0) hg hlen h0
  simpa using h

/-- `read_uleb` on a group of ten bytes at most. -/
theorem readUleb_group {g : List UInt8} (hg : Group g) (hlen : g.length ≤ 10)
    (hh : Holds m c g) (hend : c.toNat + g.length ≤ stop.toNat) :
    (readUleb c stop).val m = .ok (UInt64.ofNat (unsigned g), c + UInt64.ofNat g.length) :=
  readUleb_ok_iff.mpr ⟨g, hg, hlen, hh, hend, rfl, rfl⟩

/-- The unsigned LEB128 number in the bytes between two cursors. -/
def ulebBetween (m : ByteMem) (c c' : UInt64) : ℕ := unsigned (peek m (c' - c).toNat c)

/-- What `read_uleb` returns is this number modulo `2 ^ 64`. -/
lemma readUleb_ulebBetween {v : UInt64} (h : (readUleb c stop).val m = .ok (v, c')) :
    v = UInt64.ofNat (ulebBetween m c c') := by
  obtain ⟨g, -, -, hh, hend, rfl, rfl⟩ := readUleb_ok_iff.mp h
  have hlt := stop.toNat_lt
  have hlen : (c + UInt64.ofNat g.length - c).toNat = g.length := by
    rw [UInt64.add_comm, UInt64.add_sub_cancel, UInt64.toNat_ofNat', Nat.mod_eq_of_lt (by omega)]
  rw [ulebBetween, hlen, hh.peek_eq]

/-- `read_uleb` fails with `DWUNW_ERR_BAD_FORMAT` only. -/
lemma readUleb_error {st : Status} (h : (readUleb c stop).val m = .error st) :
    st = .badFormat := by
  rw [readUleb_eq_loop] at h
  exact lebLoop_error h

/-- `read_uleb` on a group of any length. -/
theorem readUleb_of_group {g rest : List UInt8} (hg : Group g)
    (h : Span m c stop (g ++ rest)) :
    (readUleb c stop).val m =
      if g.length ≤ 10 then .ok (UInt64.ofNat (unsigned g), c + UInt64.ofNat g.length)
      else .error .badFormat := by
  have hl := h.length_eq
  rw [List.length_append] at hl
  by_cases hlen : g.length ≤ 10
  · rw [if_pos hlen, readUleb_group hg hlen h.left.holds (by omega)]
  · rw [if_neg hlen]
    cases hr : (readUleb c stop).val m with
    | error st => rw [readUleb_error hr]
    | ok r =>
        -- a shorter group cannot lie in front of `g`
        obtain ⟨g', hg', hlen', hh, hend, -, -⟩ := readUleb_ok_iff.mp hr
        obtain ⟨rest', happ⟩ := h.exists_append hh hend
        have heq := (hg'.append_inj hg happ.symm).1
        rw [heq] at hlen'
        exact absurd hlen' hlen

/-! ### `read_sleb` -/

lemma toInt64_or_byte_shiftLeft (byte : UInt8) {result : UInt64} {k : ℕ} (hk : k < 10)
    (hr : result.toNat < 2 ^ (7 * k)) :
    result.toInt64 ||| ((byte &&& 0x7f).toUInt64.toInt64 <<< Int64.ofNat (7 * k)) =
      (result + UInt64.ofNat (byte.toNat % 128 * 2 ^ (7 * k))).toInt64 := by
  rw [UInt64.toInt64_shiftLeft (by omega), ← UInt64.toInt64_or, or_byte_shiftLeft byte hk hr]

/-- Below the tenth byte the sum does not wrap. -/
lemma toNat_add_byte (byte : UInt8) {result : UInt64} {k : ℕ} (hk : k < 9)
    (hr : result.toNat < 2 ^ (7 * k)) :
    (result + UInt64.ofNat (byte.toNat % 128 * 2 ^ (7 * k))).toNat =
      result.toNat + byte.toNat % 128 * 2 ^ (7 * k) := by
  have hb : byte.toNat % 128 < 128 := Nat.mod_lt _ (by omega)
  have hmul : byte.toNat % 128 * 2 ^ (7 * k) ≤ 127 * 2 ^ (7 * k) :=
    Nat.mul_le_mul_right _ (by omega)
  have hle : 2 ^ (7 * k) ≤ 2 ^ 56 := Nat.pow_le_pow_right (by omega) (by omega)
  rw [UInt64.toNat_add, UInt64.toNat_ofNat', Nat.mod_eq_of_lt (b := 2 ^ 64) (by omega),
    Nat.mod_eq_of_lt (by omega)]

/-- The value `read_sleb` returns when the last byte is read at shift `7 * k`. -/
lemma readSleb_last (b : UInt8) {result : UInt64} {k : ℕ} (hk : k < 10)
    (hr : result.toNat < 2 ^ (7 * k)) :
    (if 7 * k + 7 < 64 ∧ b &&& 0x40 ≠ 0 then
        (result + UInt64.ofNat (b.toNat % 128 * 2 ^ (7 * k))).toInt64 |||
          -((1 : Int64) <<< Int64.ofNat (7 * k + 7))
      else (result + UInt64.ofNat (b.toNat % 128 * 2 ^ (7 * k))).toInt64) =
      Int64.ofInt (result.toNat + signed [b] * 2 ^ (7 * k)) := by
  have hb : b.toNat % 128 < 128 := Nat.mod_lt _ (by omega)
  obtain ⟨r, rfl⟩ : ∃ r, result = UInt64.ofNat r := ⟨result.toNat, UInt64.ofNat_toNat.symm⟩
  have hplain : (UInt64.ofNat r + UInt64.ofNat (b.toNat % 128 * 2 ^ (7 * k))).toInt64 =
      Int64.ofInt ((UInt64.ofNat r).toNat + (b.toNat % 128 : ℕ) * 2 ^ (7 * k)) := by
    rw [← UInt64.ofNat_add, UInt64.toInt64_ofNat', ← Int64.ofInt_eq_ofNat,
      Int64.ofInt_eq_ofInt_iff]
    push_cast
    rw [UInt64.toNat_ofNat']
    omega
  by_cases hneg : b &&& 0x40 = 0
  · have hs : signed [b] = (b.toNat % 128 : ℕ) := by
      rw [UInt8.and_0x40_eq_zero_iff] at hneg
      simp [signed, hneg]
    rw [if_neg (by tauto), hplain, hs]
  · have hs : signed [b] = (b.toNat % 128 : ℕ) - 128 := by
      rw [UInt8.and_0x40_eq_zero_iff] at hneg
      simp [signed, hneg]
    have hpow : (2 : ℤ) ^ (7 * k + 7) = 128 * 2 ^ (7 * k) := by
      rw [pow_add]
      ring
    by_cases hk9 : k < 9
    · have hlt := toNat_or_byte_lt b hr
      have hnat := toNat_add_byte b hk9 hr
      rw [if_pos ⟨by omega, hneg⟩, show 7 * k + 7 = 7 * (k + 1) by omega,
        Int64.or_neg_shiftLeft (by omega) hlt, hnat, hs, show 7 * (k + 1) = 7 * k + 7 by omega,
        hpow]
      congr 1
      push_cast
      ring
    · -- the tenth byte: the sign extension is skipped, its weight is a multiple of `2 ^ 64`
      obtain rfl : k = 9 := by omega
      rw [if_neg (by omega), hplain, hs, Int64.ofInt_eq_ofInt_iff]
      norm_num
      omega

/-- What a turn of `read_sleb` adds. -/
def slebAdd (result : Int64) (byte : UInt8) (shift : ℕ) : Int64 :=
  result ||| ((byte &&& 0x7f).toUInt64.toInt64 <<< Int64.ofNat shift)

/-- The sign that `read_sleb` extends behind the last byte. -/
def slebFinish (result : Int64) (byte : UInt8) (shift : ℕ) : Int64 :=
  if shift < 64 ∧ byte &&& 0x40 ≠ 0 then result ||| -((1 : Int64) <<< Int64.ofNat shift)
  else result

lemma readSleb_eq_loop (c stop : UInt64) :
    readSleb c stop = lebLoop slebAdd slebFinish stop 10 c 0 0 := by
  have hloop (n : ℕ) (c : UInt64) (result : Int64) (shift : ℕ) :
      readSlebLoop stop n c result shift = lebLoop slebAdd slebFinish stop n c result shift := by
    induction n generalizing c result shift with
    | zero => rfl
    | succ n ih =>
        rw [readSlebLoop, lebLoop]
        simp only [ih, slebFinish, apply_ite Prod.mk, apply_ite pure, ite_apply]
        rfl
  exact hloop 10 c 0 0

/-- The loop of `read_sleb` adds a group to the result, at the shift where it stands. -/
lemma lebValue_sleb {g : List UInt8} (hg : Group g) {k : ℕ} {result : UInt64}
    (hk : g.length + k ≤ 10) (hr : result.toNat < 2 ^ (7 * k)) :
    lebValue slebAdd slebFinish g result.toInt64 (7 * k) =
      Int64.ofInt (result.toNat + signed g * 2 ^ (7 * k)) := by
  induction hg generalizing k result with
  | @last b hb =>
      rw [List.length_singleton] at hk
      rw [lebValue, slebAdd, toInt64_or_byte_shiftLeft b (by omega) hr, slebFinish,
        readSleb_last b (by omega) hr]
  | @more b g hb hg ih =>
      have hpos := hg.length_pos
      rw [List.length_cons] at hk
      have hnat := toNat_add_byte b (by omega) hr
      have hval : (((result.toNat + b.toNat % 128 * 2 ^ (7 * k) : ℕ) : ℤ) +
          signed g * 2 ^ (7 * (k + 1))) = result.toNat + signed (b :: g) * 2 ^ (7 * k) := by
        rw [signed_cons hg.ne_nil, show 7 * (k + 1) = 7 + 7 * k by omega, pow_add]
        push_cast
        ring
      rw [lebValue_cons hg.ne_nil, slebAdd, toInt64_or_byte_shiftLeft b (by omega) hr,
        show 7 * k + 7 = 7 * (k + 1) by omega, ih (by omega) (toNat_or_byte_lt b hr), hnat, hval]

/-- `read_sleb` succeeds exactly on a group of ten bytes at most that ends before the stop,
and returns its value modulo `2 ^ 64`. -/
theorem readSleb_ok_iff {v : Int64} :
    (readSleb c stop).val m = .ok (v, c') ↔
      ∃ g, Group g ∧ g.length ≤ 10 ∧ Holds m c g ∧ c.toNat + g.length ≤ stop.toNat ∧
        v = Int64.ofInt (signed g) ∧ c' = c + UInt64.ofNat g.length := by
  rw [readSleb_eq_loop]
  refine lebLoop_ok_iff fun g hg hlen => ?_
  have h0 : (0 : UInt64).toNat < 2 ^ (7 * 0) := by decide
  have h := lebValue_sleb (k := 0) hg hlen h0
  simpa using h

/-- `read_sleb` on a group of ten bytes at most. -/
theorem readSleb_group {g : List UInt8} (hg : Group g) (hlen : g.length ≤ 10)
    (hh : Holds m c g) (hend : c.toNat + g.length ≤ stop.toNat) :
    (readSleb c stop).val m = .ok (Int64.ofInt (signed g), c + UInt64.ofNat g.length) :=
  readSleb_ok_iff.mpr ⟨g, hg, hlen, hh, hend, rfl, rfl⟩

/-- `read_sleb` fails with `DWUNW_ERR_BAD_FORMAT` only. -/
lemma readSleb_error {st : Status} (h : (readSleb c stop).val m = .error st) :
    st = .badFormat := by
  rw [readSleb_eq_loop] at h
  exact lebLoop_error h

/-! ### How far the readers go -/

/-- An address reached by stepping over bytes that end before the stop. -/
lemma add_ofNat_bounds {n : ℕ} (hn : 0 < n) (h : c.toNat + n ≤ stop.toNat) :
    c < c + UInt64.ofNat n ∧ c + UInt64.ofNat n ≤ stop := by
  have hlt := stop.toNat_lt
  rw [UInt64.lt_iff_toNat_lt, UInt64.le_iff_toNat_le, UInt64.toNat_add_ofNat (by omega)]
  omega

lemma readUleb_advance {v : UInt64} (h : (readUleb c stop).val m = .ok (v, c')) :
    c < c' ∧ c' ≤ stop := by
  obtain ⟨g, hg, -, -, hend, -, rfl⟩ := readUleb_ok_iff.mp h
  exact add_ofNat_bounds hg.length_pos hend

lemma readSleb_advance {v : Int64} (h : (readSleb c stop).val m = .ok (v, c')) :
    c < c' ∧ c' ≤ stop := by
  obtain ⟨g, hg, -, -, hend, -, rfl⟩ := readSleb_ok_iff.mp h
  exact add_ofNat_bounds hg.length_pos hend

/-- What a reader of a variable-length field promises: it reads between its cursor and the
stop and leaves the cursor behind the field. -/
def Advances {α : Type} (m : ByteMem) (c stop : UInt64) (x : Reader (α × UInt64)) : Prop :=
  Within m (InEntry c stop) (fun r => c < r.2 ∧ r.2 ≤ stop) x

/-- `read_uleb` goes forward, and not past the end. -/
theorem readUleb_within : Advances m c stop (readUleb c stop) := by
  refine ⟨?_, fun _ h => readUleb_advance h⟩
  rw [readUleb_eq_loop]
  exact lebLoop_reads

/-- `read_sleb` goes forward, and not past the end. -/
theorem readSleb_within : Advances m c stop (readSleb c stop) := by
  refine ⟨?_, fun _ h => readSleb_advance h⟩
  rw [readSleb_eq_loop]
  exact lebLoop_reads

/-! ### Fixed sizes -/

@[simp] lemma val_readU32 (p : UInt64) :
    (readU32 p).val m = .ok (UInt32.ofNat (leNat (peek m 4 p))) := by
  rw [readU32, val_bind_ok (val_bytes _ _ _ _), val_pure]

@[simp] lemma val_readU64 (p : UInt64) :
    (readU64 p).val m = .ok (UInt64.ofNat (leNat (peek m 8 p))) := by
  rw [readU64, val_bind_ok (val_bytes _ _ _ _), val_pure]

lemma readU32_within {S : Via × UInt64 → Prop} {p : UInt64}
    (hS : ∀ i < 4, S (.entry, p + UInt64.ofNat i)) :
    Within m S (fun _ => True) (readU32 p) :=
  (Within.bytes 4 p hS).bind fun _ _ => .pure trivial

lemma readU64_within {S : Via × UInt64 → Prop} {p : UInt64}
    (hS : ∀ i < 8, S (.entry, p + UInt64.ofNat i)) :
    Within m S (fun _ => True) (readU64 p) :=
  (Within.bytes 8 p hS).bind fun _ _ => .pure trivial

/-- The operand sizes `read_fixed_size` knows. -/
def IsFixedSize (n : ℕ) : Prop := n = 1 ∨ n = 2 ∨ n = 4 ∨ n = 8

/-- `read_fixed_size` reads a little-endian number of a known size. -/
theorem val_readFixedSize {n : ℕ} (hn : IsFixedSize n) :
    (readFixedSize c stop (UInt64.ofNat n)).val m =
      if stop - c < UInt64.ofNat n then .error .badFormat
      else .ok (UInt64.ofNat (leNat (peek m n c)), c + UInt64.ofNat n) := by
  rw [readFixedSize]
  by_cases hlen : stop - c < UInt64.ofNat n
  · rw [if_pos hlen, if_pos hlen, val_fail]
  · rw [if_neg hlen, if_neg hlen]
    have hu32 : (UInt32.ofNat (leNat (peek m 4 c))).toUInt64 =
        UInt64.ofNat (leNat (peek m 4 c)) := by
      have hlt := leNat_lt (peek m 4 c)
      rw [peek_length] at hlt
      apply UInt64.toNat_inj.mp
      rw [UInt32.toNat_toUInt64, UInt32.toNat_ofNat', UInt64.toNat_ofNat']
      omega
    have hu8 : (m c).toUInt64 = UInt64.ofNat (leNat (peek m 1 c)) := by
      apply UInt64.toNat_inj.mp
      have := (m c).toNat_lt
      rw [UInt8.toNat_toUInt64, UInt64.toNat_ofNat']
      simp only [peek, leNat]
      omega
    rcases hn with rfl | rfl | rfl | rfl
    · rw [if_neg (by decide), if_neg (by decide), if_neg (by decide), if_pos (by decide),
        val_byte_bind, val_pure, hu8]
    · rw [if_neg (by decide), if_neg (by decide), if_pos (by decide),
        val_bind_ok (val_bytes _ _ _ _), val_pure]
    · rw [if_neg (by decide), if_pos (by decide), val_bind_ok (val_readU32 _), val_pure, hu32]
    · rw [if_pos (by decide), val_bind_ok (val_readU64 _), val_pure]

/-- `read_fixed_size` on a number that was written with that size. -/
lemma readFixedSize_leBytes {n v : ℕ} {rest : List UInt8} (hn : IsFixedSize n)
    (hv : v < 256 ^ n) (h : Span m c stop (leBytes n v ++ rest)) :
    (readFixedSize c stop (UInt64.ofNat n)).val m =
      .ok (UInt64.ofNat v, c + UInt64.ofNat n) := by
  have hpeek := h.left.holds.peek_eq
  rw [leBytes_length] at hpeek
  have hnot : ¬ stop - c < UInt64.ofNat n := by
    have hlt := h.length_lt
    rw [List.length_append, leBytes_length] at hlt
    rw [UInt64.lt_iff_toNat_lt, h.sub_toNat, List.length_append, leBytes_length,
      UInt64.toNat_ofNat', Nat.mod_eq_of_lt (by omega)]
    omega
  rw [val_readFixedSize hn, if_neg hnot, hpeek, leNat_leBytes, Nat.mod_eq_of_lt hv]

/-- Another size is rejected. -/
lemma val_readFixedSize_of_not {size : UInt64} (hs : ¬ IsFixedSize size.toNat) :
    (readFixedSize c stop size).val m = .error .badFormat := by
  have h (n : ℕ) (hn : n < 2 ^ 64) (hf : IsFixedSize n) : size ≠ UInt64.ofNat n := by
    rintro rfl
    rw [UInt64.toNat_ofNat', Nat.mod_eq_of_lt hn] at hs
    exact hs hf
  rw [readFixedSize]
  split_ifs with h0 h8 h4 h2 h1
  · rfl
  · exact absurd h8 (h 8 (by omega) (by simp [IsFixedSize]))
  · exact absurd h4 (h 4 (by omega) (by simp [IsFixedSize]))
  · exact absurd h2 (h 2 (by omega) (by simp [IsFixedSize]))
  · exact absurd h1 (h 1 (by omega) (by simp [IsFixedSize]))
  · rfl

/-- `read_fixed_size` fails with `DWUNW_ERR_BAD_FORMAT` only. -/
lemma readFixedSize_error {size : UInt64} {st : Status}
    (h : (readFixedSize c stop size).val m = .error st) : st = .badFormat := by
  by_cases hs : IsFixedSize size.toNat
  · rw [← UInt64.ofNat_toNat (x := size), val_readFixedSize hs] at h
    split_ifs at h
    cases h
    rfl
  · rw [val_readFixedSize_of_not hs] at h
    cases h
    rfl

/-- The bounds that the length check of `read_fixed_size` gives a cursor in front of the
stop. -/
lemma toNat_add_le_of_sub {n : ℕ} (hn : n < 2 ^ 64) (hc : c ≤ stop)
    (h : ¬ stop - c < UInt64.ofNat n) : c.toNat + n ≤ stop.toNat := by
  rw [UInt64.lt_iff_toNat_lt, UInt64.toNat_sub_of_le _ _ hc, UInt64.toNat_ofNat',
    Nat.mod_eq_of_lt hn] at h
  rw [UInt64.le_iff_toNat_le] at hc
  omega

lemma IsFixedSize.lt {n : ℕ} (hn : IsFixedSize n) : n < 2 ^ 64 := by
  rcases hn with rfl | rfl | rfl | rfl <;> omega

lemma IsFixedSize.pos {n : ℕ} (hn : IsFixedSize n) : 0 < n := by
  rcases hn with rfl | rfl | rfl | rfl <;> omega

/-- On a cursor in front of the stop `read_fixed_size` stays in front of it. -/
theorem readFixedSize_within {size : UInt64} (hc : c ≤ stop) :
    Advances m c stop (readFixedSize c stop size) := by
  have hin {n : ℕ} (h : c.toNat + n ≤ stop.toNat) (i : ℕ) (hi : i < n) :
      InEntry c stop (.entry, c + UInt64.ofNat i) := by
    have hlt := stop.toNat_lt
    refine ⟨rfl, ?_, ?_⟩
    · rw [UInt64.le_iff_toNat_le, UInt64.toNat_add_ofNat (by omega)]
      omega
    · rw [UInt64.lt_iff_toNat_lt, UInt64.toNat_add_ofNat (by omega)]
      omega
  refine ⟨?_, fun r hr => ?_⟩
  · refine Within.reads (Q := fun _ => True) ?_
    rw [readFixedSize]
    split_ifs with h0 h8 h4 h2 h1
    · exact .fail _
    · subst h8
      exact (readU64_within (hin (toNat_add_le_of_sub (n := 8) (by omega) hc h0))).bind
        fun _ _ => .pure trivial
    · subst h4
      exact (readU32_within (hin (toNat_add_le_of_sub (n := 4) (by omega) hc h0))).bind
        fun _ _ => .pure trivial
    · subst h2
      exact (Within.bytes 2 c (hin (toNat_add_le_of_sub (n := 2) (by omega) hc h0))).bind
        fun _ _ => .pure trivial
    · subst h1
      have h := hin (toNat_add_le_of_sub (n := 1) (by omega) hc h0) 0 (by omega)
      exact (Within.byte (Q := fun _ => True) (by simpa using h) trivial).bind
        fun _ _ => .pure trivial
    · exact .fail _
  · by_cases hs : IsFixedSize size.toNat
    · rw [← UInt64.ofNat_toNat (x := size), val_readFixedSize hs] at hr
      split_ifs at hr with hlen
      cases hr
      exact add_ofNat_bounds hs.pos (toNat_add_le_of_sub hs.lt hc hlen)
    · rw [val_readFixedSize_of_not hs] at hr
      cases hr

/-! ### Encoded pointers -/

lemma readPointerFormat_within {format : UInt8} (hc : c ≤ stop) :
    Advances m c stop (readPointerFormat format c stop) := by
  rw [readPointerFormat]
  split_ifs
  any_goals exact readFixedSize_within hc
  · exact readUleb_within
  · exact .fail _

/-- On a cursor in front of the stop `read_encoded_pointer` stays in front of it. -/
theorem readEncodedPointer_within {encoding : UInt8} {sectionStart : UInt64} (hc : c ≤ stop) :
    Advances m c stop (readEncodedPointer encoding c sectionStart stop) := by
  refine Within.bind (readPointerFormat_within hc) fun r hr => ?_
  obtain ⟨raw, cursor⟩ := r
  dsimp only
  split_ifs
  · exact .pure hr
  · exact .pure hr
  · exact .fail _

end Dwunw
