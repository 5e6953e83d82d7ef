import Dwunw.Cfi.SignedOps

/-!
The LEB128 readers against the number format.

`read_uleb` and `read_sleb` differ in what they make of a group of bytes; which groups they take
is the same for both.  `ReadsGroups` is that common part, and the two results are proved from it.

* `RoundTrips`: a reader returns a value from an encoding of it and stands behind the encoding,
  and fails on the encoding cut short.  `leb128_roundTrip`: both readers do so on the minimal
  encoding of every value.
* `ReadsExactly`: a reader returns the number that it has consumed, and rejects a number that
  its type cannot hold.  The readers shift the tenth byte by 63, and what leaves the word is
  lost, so they do this exactly where a number that ends in its tenth byte has nothing there but
  the top bit, or the sign (`TenthByte`, `leb128_exact_iff`).
-/

namespace Dwunw

open Leb128 Traced

variable {m : ByteMem} {c stop : UInt64} {α : Type}

/-! ### Groups at a cursor -/

namespace GroupAt

lemma of_span {g rest : List UInt8} (hg : Group g) (h : Span m c stop (g ++ rest)) :
    GroupAt m c stop g := by
  have hl := h.length_eq
  rw [List.length_append] at hl
  exact ⟨hg, h.left.holds, by omega⟩

/-- A byte that asks for another one, in front of a number. -/
lemma cons {g : List UInt8} (hc : c < stop) (hb : m c &&& 0x80 ≠ 0)
    (h : GroupAt m (c + 1) stop g) : GroupAt m c stop (m c :: g) := by
  have hlt := stop.toNat_lt
  rw [UInt64.lt_iff_toNat_lt] at hc
  rw [Ne, UInt8.and_0x80_eq_zero_iff] at hb
  have hc1 : (c + 1).toNat = c.toNat + 1 := UInt64.toNat_add_of_lt (by simp; omega)
  have hinside := h.inside
  refine ⟨.more (by omega) h.group, ⟨rfl, h.holds⟩, ?_⟩
  rw [List.length_cons]
  omega

/-- There is one number at a cursor at most. -/
lemma unique {g g' : List UInt8} (h : GroupAt m c stop g) (h' : GroupAt m c stop g') :
    g = g' := by
  have hspan : Span m c stop (peek m (stop.toNat - c.toNat) c) := by
    have hinside := h.inside
    exact ⟨holds_peek m _ c, by rw [peek_length]; omega⟩
  obtain ⟨r, hr⟩ := hspan.exists_append h.holds h.inside
  obtain ⟨r', hr'⟩ := hspan.exists_append h'.holds h'.inside
  exact (h.group.append_inj h'.group (hr.symm.trans hr')).1

end GroupAt

/-- What the two readers have in common: they succeed exactly on a number of ten bytes at most,
and otherwise fail with `DWUNW_ERR_BAD_FORMAT`. -/
structure ReadsGroups (m : ByteMem) (c stop : UInt64) (read : Reader (α × UInt64))
    (decode : List UInt8 → α) : Prop where
  ok_iff : ∀ v c', read.val m = .ok (v, c') ↔ ∃ g, GroupAt m c stop g ∧ g.length ≤ 10 ∧
    v = decode g ∧ c' = c + UInt64.ofNat g.length
  error : ∀ st, read.val m = .error st → st = .badFormat

lemma readsGroups_of_ok_iff {read : Reader (α × UInt64)} {decode : List UInt8 → α}
    (hok : ∀ {v c'}, read.val m = .ok (v, c') ↔ ∃ g, Group g ∧ g.length ≤ 10 ∧ Holds m c g ∧
      c.toNat + g.length ≤ stop.toNat ∧ v = decode g ∧ c' = c + UInt64.ofNat g.length)
    (herror : ∀ {st}, read.val m = .error st → st = .badFormat) :
    ReadsGroups m c stop read decode := by
  refine ⟨fun v c' => hok.trans ?_, fun st => herror⟩
  constructor
  · rintro ⟨g, hg, hlen, hh, hend, hv, hc'⟩
    exact ⟨g, ⟨hg, hh, hend⟩, hlen, hv, hc'⟩
  · rintro ⟨g, ⟨hg, hh, hend⟩, hlen, hv, hc'⟩
    exact ⟨g, hg, hlen, hh, hend, hv, hc'⟩

/-- `read_uleb` reads groups of seven bits. -/
theorem readUleb_readsGroups (m : ByteMem) (c stop : UInt64) :
    ReadsGroups m c stop (readUleb c stop) fun g => UInt64.ofNat (unsigned g) :=
  readsGroups_of_ok_iff readUleb_ok_iff readUleb_error

/-- `read_sleb` reads groups of seven bits. -/
theorem readSleb_readsGroups (m : ByteMem) (c stop : UInt64) :
    ReadsGroups m c stop (readSleb c stop) fun g => Int64.ofInt (signed g) :=
  readsGroups_of_ok_iff readSleb_ok_iff readSleb_error

namespace ReadsGroups

variable {read : Reader (α × UInt64)} {decode : List UInt8 → α}

lemma ok (h : ReadsGroups m c stop read decode) {g : List UInt8} (hg : GroupAt m c stop g)
    (hlen : g.length ≤ 10) : read.val m = .ok (decode g, c + UInt64.ofNat g.length) :=
  (h.ok_iff _ _).mpr ⟨g, hg, hlen, rfl, rfl⟩

/-- The reader fails where no number of ten bytes at most lies. -/
lemma fails (h : ReadsGroups m c stop read decode)
    (hnone : ∀ g, GroupAt m c stop g → 10 < g.length) : read.val m = .error .badFormat := by
  cases hr : read.val m with
  | error st => rw [h.error st hr]
  | ok r =>
      obtain ⟨g, hg, hlen, -, -⟩ := (h.ok_iff r.1 r.2).mp hr
      exact absurd hlen (Nat.not_le.mpr (hnone g hg))

end ReadsGroups

/-! ### Round trips -/

/-- A reader inverts one encoding of a value: in front of any bytes it returns the value and
stands behind the encoding, and it fails where the encoding is cut short. -/
structure RoundTrips (read : UInt64 → UInt64 → Reader (α × UInt64)) (v : α)
    (g : List UInt8) : Prop where
  full : ∀ (m : ByteMem) (c stop : UInt64) (rest : List UInt8), Span m c stop (g ++ rest) →
    (read c stop).val m = .ok (v, c + UInt64.ofNat g.length)
  cut : ∀ (m : ByteMem) (c stop : UInt64) (p : List UInt8), p <+: g → p ≠ g →
    Span m c stop p → (read c stop).val m = .error .badFormat

/-- Both readers invert every group of ten bytes at most. -/
lemma roundTrips_of_readsGroups {read : UInt64 → UInt64 → Reader (α × UInt64)}
    {decode : List UInt8 → α} (hread : ∀ m c stop, ReadsGroups m c stop (read c stop) decode)
    {g : List UInt8} (hg : Group g) (hlen : g.length ≤ 10) : RoundTrips read (decode g) g := by
  constructor
  · intro m c stop rest hspan
    exact (hread m c stop).ok (.of_span hg hspan) hlen
  · intro m c stop p hp hne hspan
    refine (hread m c stop).fails fun g' hg' => ?_
    -- a number in what is left of `g` would be `g`, with nothing missing
    obtain ⟨ys, rfl⟩ := hspan.exists_append hg'.holds hg'.inside
    obtain ⟨zs, rfl⟩ := hp
    obtain ⟨-, hrest⟩ := hg'.group.append_inj hg
      (show g' ++ (ys ++ zs) = (g' ++ ys ++ zs) ++ [] by simp)
    obtain ⟨-, rfl⟩ := List.append_eq_nil_iff.mp hrest
    exact absurd (List.append_nil _).symm hne

/-- Both readers invert the minimal encoding of every value of their types. -/
theorem leb128_roundTrip :
    (∀ (v : UInt64) (g : List UInt8), IsMinimal unsigned v.toNat g → RoundTrips readUleb v g) ∧
    (∀ (v : Int64) (g : List UInt8), IsMinimal signed v.toInt g → RoundTrips readSleb v g) := by
  constructor
  · intro v g hg
    have hlen : g.length ≤ 10 := by
      rw [isMinimal_unsigned_iff.mp hg]
      exact encodeUnsigned_length v.toNat_lt
    have hv : UInt64.ofNat (unsigned g) = v := by rw [hg.value, UInt64.ofNat_toNat]
    rw [← hv]
    exact roundTrips_of_readsGroups readUleb_readsGroups hg.group hlen
  · intro v g hg
    have hlen : g.length ≤ 10 := by
      rw [isMinimal_signed_iff.mp hg]
      exact encodeSigned_length v.le_toInt v.toInt_lt
    have hv : Int64.ofInt (signed g) = v := by rw [hg.value, Int64.ofInt_toInt]
    rw [← hv]
    exact roundTrips_of_readsGroups readSleb_readsGroups hg.group hlen

/-- The extreme values, whose tenth byte is the top bit or the sign. -/
theorem leb128_roundTrip_extremes :
    RoundTrips readUleb 0xffffffffffffffff
      [0xff, 0xff, 0xff, 0xff, 0xff, 0xff, 0xff, 0xff, 0xff, 0x01] ∧
    RoundTrips readSleb Int64.minValue
      [0x80, 0x80, 0x80, 0x80, 0x80, 0x80, 0x80, 0x80, 0x80, 0x7f] :=
  ⟨leb128_roundTrip.1 _ _ (isMinimal_unsigned_iff.mpr (by decide +kernel)),
    leb128_roundTrip.2 _ _ (isMinimal_signed_iff.mpr (by decide +kernel))⟩

/-! ### Exact numbers -/

/-- A reader is exact on the bytes at a cursor: what it returns is the number it has consumed,
and it rejects a number that no value of its type is. -/
structure ReadsExactly (m : ByteMem) (c stop : UInt64) (read : Reader (α × UInt64))
    (toInt : α → ℤ) (number : List UInt8 → ℤ) : Prop where
  returned : ∀ v c', read.val m = .ok (v, c') → ∃ g, GroupAt m c stop g ∧
    c' = c + UInt64.ofNat g.length ∧ toInt v = number g
  rejected : ∀ g, GroupAt m c stop g → (∀ v, toInt v ≠ number g) →
    read.val m = .error .badFormat

/-- If the number at a cursor has a tenth byte and ends there, then `P` holds of that byte. -/
def TenthByte (m : ByteMem) (c stop : UInt64) (P : UInt8 → Prop) : Prop :=
  Continues m stop 9 c → c + 9 < stop → m (c + 9) &&& 0x80 = 0 → P (m (c + 9))

/-- The bytes that are read as a number up to a last one. -/
lemma groupAt_of_continues {k : ℕ} (hk : Continues m stop k c)
    (hend : c + UInt64.ofNat k < stop) (hlast : m (c + UInt64.ofNat k) &&& 0x80 = 0) :
    GroupAt m c stop (peek m k c ++ [m (c + UInt64.ofNat k)]) := by
  induction k generalizing c with
  | zero =>
      rw [show c + UInt64.ofNat 0 = c by simp] at hend hlast ⊢
      rw [UInt8.and_0x80_eq_zero_iff] at hlast
      rw [UInt64.lt_iff_toNat_lt] at hend
      exact ⟨.last hlast, ⟨rfl, trivial⟩, hend⟩
  | succ k ih =>
      rw [UInt64.add_ofNat_succ] at hend hlast ⊢
      exact (ih hk.2 hend hlast).cons hk.1.1 hk.1.2

/-- A reader is exact where each number of ten bytes at most is the value it is decoded to. -/
lemma ReadsGroups.exact_iff {read : Reader (α × UInt64)} {decode : List UInt8 → α}
    {toInt : α → ℤ} {number : List UInt8 → ℤ} (h : ReadsGroups m c stop read decode) :
    ReadsExactly m c stop read toInt number ↔
      ∀ g, GroupAt m c stop g → g.length ≤ 10 → toInt (decode g) = number g := by
  constructor
  · intro hexact g hg hlen
    obtain ⟨g', hg', -, hval⟩ := hexact.returned _ _ (h.ok hg hlen)
    rw [hg.unique hg', ← hval, hg.unique hg']
  · intro hall
    constructor
    · intro v c' hread
      obtain ⟨g, hg, hlen, rfl, hc'⟩ := (h.ok_iff v c').mp hread
      exact ⟨g, hg, hc', hall g hg hlen⟩
    · intro g hg hfits
      refine h.fails fun g' hg' => ?_
      rw [hg'.unique hg]
      by_contra hlen
      exact hfits _ (hall g hg (Nat.not_lt.mp hlen))

/-- Where nine bytes always fit, the tenth one decides. -/
lemma tenthByte_iff {Fits : List UInt8 → Prop} {P : UInt8 → Prop}
    (hshort : ∀ g : List UInt8, g.length ≤ 9 → Fits g)
    (hten : ∀ (xs : List UInt8) (b : UInt8), xs.length = 9 → b.toNat < 128 →
      (Fits (xs ++ [b]) ↔ P b)) :
    (∀ g, GroupAt m c stop g → g.length ≤ 10 → Fits g) ↔ TenthByte m c stop P := by
  constructor
  · intro hall hcontinues hend hlast
    have hg : GroupAt m c stop (peek m 9 c ++ [m (c + 9)]) :=
      groupAt_of_continues hcontinues hend hlast
    refine (hten _ _ (peek_length m 9 c) (group_append_singleton_iff.mp hg.group).2).mp ?_
    exact hall _ hg (by simp)
  · intro htenth g hg hlen
    rcases Nat.lt_or_ge g.length 10 with hlt | hge
    · exact hshort g (by omega)
    · obtain ⟨xs, b, rfl⟩ := (List.eq_nil_or_concat' g).resolve_left hg.group.ne_nil
      have hinside := hg.inside
      rw [List.length_append, List.length_singleton] at hlen hge hinside
      have hnine : xs.length = 9 := by omega
      obtain ⟨hcontinues, hend, rfl⟩ :=
        tenth_of_group hnine hg.group hg.holds (show c.toNat + 9 < stop.toNat by omega)
      have hb := (group_append_singleton_iff.mp hg.group).2
      exact (hten xs _ hnine hb).mpr
        (htenth hcontinues hend ((UInt8.and_0x80_eq_zero_iff _).mpr hb))

/-- An unsigned number is its word when it is below the range of the word. -/
lemma toNat_ofNat_unsigned_iff {g : List UInt8} :
    ((UInt64.ofNat (unsigned g)).toNat : ℤ) = unsigned g ↔ unsigned g < 2 ^ 64 := by
  rw [UInt64.toNat_ofNat']
  omega

/-- A signed number is its word when it is in the range of the word. -/
lemma toInt_ofInt_signed_iff {g : List UInt8} :
    (Int64.ofInt (signed g)).toInt = signed g ↔ FitsInt64 (signed g) := by
  constructor
  · intro h
    rw [← h]
    exact ⟨Int64.le_toInt _, Int64.toInt_lt _⟩
  · intro h
    exact Int64.toInt_ofInt_of_le h.1 h.2

/-- `read_uleb` is exact where a number of ten bytes has only the top bit in its tenth byte. -/
lemma readUleb_exact_iff :
    ReadsExactly m c stop (readUleb c stop) (fun v => v.toNat) (fun g => unsigned g) ↔
      TenthByte m c stop fun b => b ≤ 1 := by
  refine (readUleb_readsGroups m c stop).exact_iff.trans (tenthByte_iff ?_ ?_)
  · intro g hlen
    refine toNat_ofNat_unsigned_iff.mpr ?_
    calc unsigned g < 128 ^ g.length := unsigned_lt g
      _ ≤ 128 ^ 9 := Nat.pow_le_pow_right (by omega) hlen
      _ < 2 ^ 64 := by norm_num
  · intro xs b hlen hb
    have hlt := unsigned_lt xs
    have hval : unsigned [b] = b.toNat := by simp only [unsigned]; omega
    rw [toNat_ofNat_unsigned_iff, unsigned_append, hval, UInt8.le_iff_toNat_le]
    rw [hlen] at hlt ⊢
    show _ ↔ b.toNat ≤ 1
    omega

/-- `read_sleb` is exact where a number of ten bytes has only the sign in its tenth byte. -/
lemma readSleb_exact_iff :
    ReadsExactly m c stop (readSleb c stop) Int64.toInt signed ↔
      TenthByte m c stop fun b => b = 0x00 ∨ b = 0x7f := by
  refine (readSleb_readsGroups m c stop).exact_iff.trans (tenthByte_iff ?_ ?_)
  · intro g hlen
    exact toInt_ofInt_signed_iff.mpr (fitsInt64_signed hlen)
  · intro xs b hlen hb
    rw [toInt_ofInt_signed_iff, fitsInt64_signed_tenth_iff hlen, signed, ← UInt8.toNat_inj,
      ← UInt8.toNat_inj, Nat.mod_eq_of_lt hb]
    show _ ↔ b.toNat = 0 ∨ b.toNat = 127
    split_ifs <;> omega

/-- Both readers are exact unless the number ends in a tenth byte that the shift cuts off. -/
theorem leb128_exact_iff (m : ByteMem) (c stop : UInt64) :
    (ReadsExactly m c stop (readUleb c stop) (fun v => v.toNat) (fun g => unsigned g) ↔
      TenthByte m c stop fun b => b ≤ 1) ∧
    (ReadsExactly m c stop (readSleb c stop) Int64.toInt signed ↔
      TenthByte m c stop fun b => b = 0x00 ∨ b = 0x7f) :=
  ⟨readUleb_exact_iff, readSleb_exact_iff⟩

/-- A number of ten bytes, with nothing in front of the last one. -/
def tenBytes (b : UInt8) : List UInt8 := List.replicate 9 0x80 ++ [b]

lemma tenBytes_group {b : UInt8} (hb : b.toNat < 128) : Group (tenBytes b) := by
  refine group_append_singleton_iff.mpr ⟨fun x hx => ?_, hb⟩
  rw [List.eq_of_mem_replicate hx]
  decide

/-- The numbers `2 ^ 64` and `2 ^ 63` are returned as `0` and as the least `int64_t`. -/
theorem tenBytes_truncated :
    (unsigned (tenBytes 0x02) = 2 ^ 64 ∧
      (readUleb 0x1000 0x100a).val (memOf 0x1000 (tenBytes 0x02)) = .ok (0, 0x100a) ∧
      ¬ ReadsExactly (memOf 0x1000 (tenBytes 0x02)) 0x1000 0x100a (readUleb 0x1000 0x100a)
        (fun v => v.toNat) fun g => unsigned g) ∧
    (signed (tenBytes 0x01) = 2 ^ 63 ∧
      (readSleb 0x1000 0x100a).val (memOf 0x1000 (tenBytes 0x01)) =
        .ok (Int64.minValue, 0x100a) ∧
      ¬ ReadsExactly (memOf 0x1000 (tenBytes 0x01)) 0x1000 0x100a (readSleb 0x1000 0x100a)
        Int64.toInt signed) := by
  have hu : unsigned (tenBytes 0x02) = 2 ^ 64 := by decide +kernel
  have hs : signed (tenBytes 0x01) = 2 ^ 63 := by decide +kernel
  have hread : (readUleb 0x1000 0x100a).val (memOf 0x1000 (tenBytes 0x02)) =
      .ok (0, 0x100a) := by decide +kernel
  have hreads : (readSleb 0x1000 0x100a).val (memOf 0x1000 (tenBytes 0x01)) =
      .ok (Int64.minValue, 0x100a) := by decide +kernel
  refine ⟨⟨hu, hread, fun h => ?_⟩, hs, hreads, fun h => ?_⟩
  · have hg : GroupAt (memOf 0x1000 (tenBytes 0x02)) 0x1000 0x100a (tenBytes 0x02) :=
      ⟨tenBytes_group (by decide), by decide +kernel, by decide +kernel⟩
    have herr := h.rejected _ hg fun v hv => by
      have hlt := v.toNat_lt
      rw [hu] at hv
      omega
    rw [hread] at herr
    cases herr
  · have hg : GroupAt (memOf 0x1000 (tenBytes 0x01)) 0x1000 0x100a (tenBytes 0x01) :=
      ⟨tenBytes_group (by decide), by decide +kernel, by decide +kernel⟩
    have herr := h.rejected _ hg fun v hv => by
      have hlt := v.toInt_lt
      rw [hs] at hv
      omega
    rw [hreads] at herr
    cases herr

end Dwunw
