import Dwunw.Cfi.Links
import Dwunw.Cfi.Footprint

/-!
One entry at two places.

Two parsers that read the same bytes through cursors as far from their ends take the same
branches and read the same numbers.  Host addresses get into the results at one place: an address
encoded relative to itself is taken relative to where its bytes lie in the host.

* `readUleb_sim`, `readFixedSize_sim`, `readEncodedPointer_sim`: the readers; `Past` is what two
  cursors behind their ends have in common.
* `AugmentationWraps`: the one sum of addresses that may wrap at one place and not at the other;
  `readAugmentationSize_split`: then one place turns the entry down.
* `parseCie_sim`, `parseFde_sim`, `parseFde_past`: the records; `FdeTwin` carries the difference
  of the two bases.
* `parseEntry_sim`: an entry that is read inside its section, or so far in front of its end;
  `parseEntry_split`: one whose augmentation length wraps at one place only.
-/

namespace Dwunw

open Loop Traced

variable {m₁ m₂ : ByteMem} {c₁ e₁ c₂ e₂ : UInt64}

/-! ### The readers -/

/-- Two readers return the same value and leave the same bytes. -/
def SameRead {α : Type} (m₁ m₂ : ByteMem) (e₁ e₂ : UInt64) (r₁ r₂ : α × UInt64) : Prop :=
  r₁.1 = r₂.1 ∧ Twin m₁ m₂ r₁.2 e₁ r₂.2 e₂

lemma lebLoop_sim {α : Type} {add finish : α → UInt8 → ℕ → α} {n : ℕ} {result : α} {shift : ℕ}
    (h : Twin m₁ m₂ c₁ e₁ c₂ e₂) :
    Sim m₁ m₂ (SameRead m₁ m₂ e₁ e₂) (lebLoop add finish e₁ n c₁ result shift)
      (lebLoop add finish e₂ n c₂ result shift) := by
  induction n generalizing c₁ c₂ result shift with
  | zero => exact .fail _
  | succ n ih =>
      rw [lebLoop, lebLoop]
      by_cases hc : c₁ < e₁
      · obtain ⟨hb, hnext⟩ := h.head hc
        rw [if_pos hc, if_pos (h.lt_iff.mp hc)]
        refine Sim.bind (Sim.byte (R := Eq) hb) fun b _ hb => ?_
        subst hb
        by_cases h8 : b &&& 0x80 = 0
        · rw [if_pos h8, if_pos h8]
          exact .pure ⟨rfl, hnext⟩
        rw [if_neg h8, if_neg h8]
        by_cases hs : 64 ≤ shift + 7
        · rw [if_pos hs, if_pos hs]
          exact .fail _
        · rw [if_neg hs, if_neg hs]
          exact ih hnext
      · rw [if_neg hc, if_neg fun hc₂ => hc (h.lt_iff.mpr hc₂)]
        exact .fail _

lemma readUleb_sim (h : Twin m₁ m₂ c₁ e₁ c₂ e₂) :
    Sim m₁ m₂ (SameRead m₁ m₂ e₁ e₂) (readUleb c₁ e₁) (readUleb c₂ e₂) := by
  rw [readUleb_eq_loop, readUleb_eq_loop]
  exact lebLoop_sim h

lemma readSleb_sim (h : Twin m₁ m₂ c₁ e₁ c₂ e₂) :
    Sim m₁ m₂ (SameRead m₁ m₂ e₁ e₂) (readSleb c₁ e₁) (readSleb c₂ e₂) := by
  rw [readSleb_eq_loop, readSleb_eq_loop]
  exact lebLoop_sim h

lemma readFixedSize_sim {size : UInt64} (h : Twin m₁ m₂ c₁ e₁ c₂ e₂) :
    Sim m₁ m₂ (SameRead m₁ m₂ e₁ e₂) (readFixedSize c₁ e₁ size) (readFixedSize c₂ e₂ size) := by
  by_cases hs : IsFixedSize size.toNat
  · have h₁ : (readFixedSize c₁ e₁ (UInt64.ofNat size.toNat)).val m₁ = _ := val_readFixedSize hs
    have h₂ : (readFixedSize c₂ e₂ (UInt64.ofNat size.toNat)).val m₂ = _ := val_readFixedSize hs
    rw [UInt64.ofNat_toNat] at h₁ h₂
    by_cases hlt : e₁ - c₁ < size
    · rw [if_pos hlt] at h₁
      rw [h.sub_eq] at hlt
      rw [if_pos hlt] at h₂
      exact .error h₁ h₂
    · have hlt₂ := hlt
      rw [h.sub_eq] at hlt₂
      rw [if_neg hlt] at h₁
      rw [if_neg hlt₂] at h₂
      have hn := toNat_add_le_of_sub (n := size.toNat) size.toNat_lt h.le₁
        (by rwa [UInt64.ofNat_toNat])
      refine .ok h₁ h₂ ⟨by rw [h.peek_eq hn], ?_⟩
      have := h.skip hn
      rwa [UInt64.ofNat_toNat] at this
  · exact .error (val_readFixedSize_of_not hs) (val_readFixedSize_of_not hs)

lemma readPointerFormat_sim {format : UInt8} (h : Twin m₁ m₂ c₁ e₁ c₂ e₂) :
    Sim m₁ m₂ (SameRead m₁ m₂ e₁ e₂) (readPointerFormat format c₁ e₁)
      (readPointerFormat format c₂ e₂) := by
  rw [readPointerFormat, readPointerFormat]
  split_ifs
  any_goals exact readFixedSize_sim h
  · exact readUleb_sim h
  · exact .fail _

/-- An address relative to itself differs by the difference of the two places, any other
address not at all.  `C` is what the two cursors have in common. -/
lemma readEncodedPointer_sim {C : UInt64 → UInt64 → Prop} {encoding : UInt8} {d₁ d₂ : UInt64}
    (hC : ∀ q₁ q₂, C q₁ q₂ → e₁ - q₁ = e₂ - q₂)
    (h : Sim m₁ m₂ (fun r₁ r₂ => r₁.1 = r₂.1 ∧ C r₁.2 r₂.2)
      (readPointerFormat (pointerFormat encoding) c₁ e₁)
      (readPointerFormat (pointerFormat encoding) c₂ e₂)) :
    Sim m₁ m₂
      (fun r₁ r₂ => r₁.1 = r₂.1 + (if pointerApplication encoding = dwEhPePcrel then e₁ - e₂
        else 0) ∧ C r₁.2 r₂.2)
      (readEncodedPointer encoding c₁ d₁ e₁) (readEncodedPointer encoding c₂ d₂ e₂) := by
  refine h.bind fun r₁ r₂ hr => ?_
  obtain ⟨raw₁, p₁⟩ := r₁
  obtain ⟨raw₂, p₂⟩ := r₂
  obtain ⟨hraw, hp⟩ := hr
  dsimp only at hraw hp ⊢
  subst hraw
  by_cases h0 : pointerApplication encoding = 0
  · have hne : pointerApplication encoding ≠ dwEhPePcrel := by rw [h0]; decide
    rw [if_pos h0, if_pos h0, if_neg hne]
    exact .pure ⟨by grind, hp⟩
  rw [if_neg h0, if_neg h0]
  by_cases hpc : pointerApplication encoding = dwEhPePcrel
  · rw [if_pos hpc, if_pos hpc, if_pos hpc]
    refine .pure ⟨?_, hp⟩
    have := hC _ _ hp
    dsimp only
    grind
  · rw [if_neg hpc, if_neg hpc, if_neg hpc]
    exact .fail _

/-! ### Behind the end -/

/-- Two cursors as far behind their ends, each in front of `n` bytes that are the same. -/
structure Past (m₁ m₂ : ByteMem) (n : ℕ) (c₁ e₁ c₂ e₂ : UInt64) : Prop where
  behind₁ : e₁ < c₁
  behind₂ : e₂ < c₂
  sub_eq : e₁ - c₁ = e₂ - c₂
  room₁ : c₁.toNat + n ≤ 2 ^ 63
  room₂ : c₂.toNat + n ≤ 2 ^ 63
  bytes : peek m₁ n c₁ = peek m₂ n c₂

namespace Past

variable {n : ℕ}

/-- The bytes that are left, as the pointer difference computes them, are many. -/
lemma sub_ge {c e : UInt64} (h : e < c) (hc : c.toNat ≤ 2 ^ 63) {k : ℕ} (hk : k ≤ 8) :
    ¬ e - c < UInt64.ofNat k := by
  rw [UInt64.lt_iff_toNat_lt] at h
  rw [UInt64.lt_iff_toNat_lt, UInt64.toNat_sub, UInt64.toNat_ofNat', Nat.mod_eq_of_lt (by omega)]
  omega

lemma peek_take (m : ByteMem) {k n : ℕ} (hk : k ≤ n) (c : UInt64) :
    (peek m n c).take k = peek m k c := by
  induction k generalizing n c with
  | zero => rfl
  | succ k ih =>
      cases n with
      | zero => omega
      | succ n => rw [peek, peek, List.take_succ_cons, ih (by omega)]

lemma peek_drop (m : ByteMem) {k n : ℕ} (hk : k ≤ n) (c : UInt64) :
    (peek m n c).drop k = peek m (n - k) (c + UInt64.ofNat k) := by
  induction k generalizing n c with
  | zero => simp
  | succ k ih =>
      cases n with
      | zero => omega
      | succ n =>
          rw [peek, List.drop_succ_cons, ih (by omega), UInt64.add_ofNat_succ,
            Nat.add_sub_add_right]

/-- Behind `k` of the bytes. -/
lemma skip (h : Past m₁ m₂ n c₁ e₁ c₂ e₂) {k : ℕ} (hk : k ≤ n) :
    Past m₁ m₂ (n - k) (c₁ + UInt64.ofNat k) e₁ (c₂ + UInt64.ofNat k) e₂ := by
  have hr₁ := h.room₁
  have hr₂ := h.room₂
  have h₁ : (c₁ + UInt64.ofNat k).toNat = c₁.toNat + k := UInt64.toNat_add_ofNat (by omega)
  have h₂ : (c₂ + UInt64.ofNat k).toNat = c₂.toNat + k := UInt64.toNat_add_ofNat (by omega)
  have hb₁ := h.behind₁
  have hb₂ := h.behind₂
  rw [UInt64.lt_iff_toNat_lt] at hb₁ hb₂
  refine ⟨?_, ?_, ?_, by omega, by omega, ?_⟩
  · rw [UInt64.lt_iff_toNat_lt]
    omega
  · rw [UInt64.lt_iff_toNat_lt]
    omega
  · have := h.sub_eq
    grind
  · rw [← peek_drop m₁ hk, ← peek_drop m₂ hk, h.bytes]

lemma shorten (h : Past m₁ m₂ n c₁ e₁ c₂ e₂) {k : ℕ} (hk : k ≤ n) :
    Past m₁ m₂ k c₁ e₁ c₂ e₂ := by
  have hr₁ := h.room₁
  have hr₂ := h.room₂
  exact ⟨h.behind₁, h.behind₂, h.sub_eq, by omega, by omega, by
    rw [← peek_take m₁ hk, ← peek_take m₂ hk, h.bytes]⟩

end Past

/-- Behind the end nothing but the length check stops `read_fixed_size`, and it passes. -/
lemma readFixedSize_past {n k : ℕ} (h : Past m₁ m₂ n c₁ e₁ c₂ e₂) (hk : IsFixedSize k)
    (hn : k ≤ n) (h8 : k ≤ 8) :
    Sim m₁ m₂ (fun r₁ r₂ => r₁.1 = r₂.1 ∧ Past m₁ m₂ (n - k) r₁.2 e₁ r₂.2 e₂)
      (readFixedSize c₁ e₁ (UInt64.ofNat k)) (readFixedSize c₂ e₂ (UInt64.ofNat k)) := by
  have hr₁ := h.room₁
  have hr₂ := h.room₂
  have h₁ : (readFixedSize c₁ e₁ (UInt64.ofNat k)).val m₁ = _ := val_readFixedSize hk
  have h₂ : (readFixedSize c₂ e₂ (UInt64.ofNat k)).val m₂ = _ := val_readFixedSize hk
  rw [if_neg (Past.sub_ge h.behind₁ (by omega) h8)] at h₁
  rw [if_neg (Past.sub_ge h.behind₂ (by omega) h8)] at h₂
  refine .ok h₁ h₂ ⟨?_, h.skip hn⟩
  dsimp only
  rw [← Past.peek_take m₁ hn, ← Past.peek_take m₂ hn, h.bytes]

lemma readUleb_past {m : ByteMem} {c e : UInt64} (h : e < c) :
    (readUleb c e).val m = .error .badFormat := by
  have hc : ¬ c < e := by
    rw [UInt64.lt_iff_toNat_lt] at h ⊢
    omega
  rw [readUleb_eq_loop, lebLoop, if_neg hc]
  rfl

/-- Behind the end an encoded value of eight bytes at most is read. -/
lemma readPointerFormat_past {n : ℕ} {format : UInt8}
    (h : Past m₁ m₂ (n + 8) c₁ e₁ c₂ e₂) :
    Sim m₁ m₂ (fun r₁ r₂ => r₁.1 = r₂.1 ∧ Past m₁ m₂ n r₁.2 e₁ r₂.2 e₂)
      (readPointerFormat format c₁ e₁) (readPointerFormat format c₂ e₂) := by
  have hfixed (k : ℕ) (hk : IsFixedSize k) (h8 : k ≤ 8) :
      Sim m₁ m₂ (fun r₁ r₂ => r₁.1 = r₂.1 ∧ Past m₁ m₂ n r₁.2 e₁ r₂.2 e₂)
        (readFixedSize c₁ e₁ (UInt64.ofNat k)) (readFixedSize c₂ e₂ (UInt64.ofNat k)) :=
    (readFixedSize_past h hk (by omega) h8).mono fun _ _ hr => ⟨hr.1, hr.2.shorten (by omega)⟩
  rw [readPointerFormat, readPointerFormat]
  split_ifs
  · exact hfixed 8 (by simp [IsFixedSize]) (by omega)
  · exact hfixed 4 (by simp [IsFixedSize]) (by omega)
  · exact hfixed 2 (by simp [IsFixedSize]) (by omega)
  · exact .error (readUleb_past h.behind₁) (readUleb_past h.behind₂)
  · exact hfixed 4 (by simp [IsFixedSize]) (by omega)
  · exact hfixed 8 (by simp [IsFixedSize]) (by omega)
  · exact .fail _

/-! ### One CIE -/

lemma strnlen_sim {n : ℕ} (h : Twin m₁ m₂ c₁ e₁ c₂ e₂) (hn : c₁.toNat + n ≤ e₁.toNat) :
    Sim m₁ m₂ Eq (strnlen c₁ n) (strnlen c₂ n) := by
  induction n generalizing c₁ c₂ with
  | zero => exact .pure rfl
  | succ n ih =>
      have hc : c₁ < e₁ := by
        rw [UInt64.lt_iff_toNat_lt]
        omega
      obtain ⟨hb, hnext⟩ := h.head hc
      have hc1 : (c₁ + 1).toNat = c₁.toNat + 1 :=
        UInt64.toNat_add_of_lt (by have := e₁.toNat_lt; simp; omega)
      refine Sim.bind (Sim.byte (R := Eq) hb) fun b _ hb => ?_
      subst hb
      by_cases h0 : b = 0
      · rw [if_pos h0, if_pos h0]
        exact .pure rfl
      · rw [if_neg h0, if_neg h0]
        refine (ih hnext (by omega)).bind fun l _ hl => .pure ?_
        rw [hl]

/-- Two CIE records that agree in every number, and whose augmentation strings start
alike. -/
structure CieTwin (m₁ m₂ : ByteMem) (cie₁ cie₂ : CieRecord) : Prop where
  numbers : { cie₁ with augmentation := 0, instructions := 0 } =
    { cie₂ with augmentation := 0, instructions := 0 }
  letter : cie₁.augmentationLen ≠ 0 → m₁ cie₁.augmentation = m₂ cie₂.augmentation

/-- What two CIE headers have in common: the numbers, and the bytes of the string and behind
it. -/
structure HeaderTwin (m₁ m₂ : ByteMem) (e₁ e₂ : UInt64) (r₁ r₂ : CieRecord × UInt64) :
    Prop where
  numbers : { r₁.1 with augmentation := 0, instructions := 0 } =
    { r₂.1 with augmentation := 0, instructions := 0 }
  string : Twin m₁ m₂ r₁.1.augmentation e₁ r₂.1.augmentation e₂
  fits : r₁.1.augmentation.toNat + r₁.1.augmentationLen.toNat < e₁.toNat
  rest : Twin m₁ m₂ r₁.2 e₁ r₂.2 e₂

variable {sec₁ sec₂ : Section} {isEh : Bool} {start₁ start₂ p₁ p₂ : UInt64}

/-- The address size of two CIEs that agree so far. -/
lemma readAddressSize_sim {cie₁ cie₂ : CieRecord} (he₁ : e₁.toNat ≤ 2 ^ 63)
    (he₂ : e₂.toNat ≤ 2 ^ 63) (h : HeaderTwin m₁ m₂ e₁ e₂ (cie₁, c₁) (cie₂, c₂)) :
    Sim m₁ m₂ (HeaderTwin m₁ m₂ e₁ e₂) (readAddressSize isEh e₁ cie₁ c₁)
      (readAddressSize isEh e₂ cie₂ c₂) := by
  obtain ⟨hnum, hstr, hfits, hr⟩ := h
  dsimp only at hnum hstr hfits hr
  have hver : cie₁.version = cie₂.version := by
    have := congrArg CieRecord.version hnum
    exact this
  rw [readAddressSize, readAddressSize, hver]
  by_cases hv : !isEh ∧ 3 ≤ cie₂.version
  swap
  · rw [if_neg hv, if_neg hv]
    exact .pure ⟨hnum, hstr, hfits, hr⟩
  rw [if_pos hv, if_pos hv]
  have hle₁ := hr.le₁
  have hle₂ := hr.le₂
  rw [UInt64.le_iff_toNat_le] at hle₁ hle₂
  have htwo : (c₁ + 2).toNat = c₁.toNat + 2 := UInt64.toNat_add_of_lt (by simp; omega)
  have hroom : e₁ < c₁ + 2 ↔ e₂ < c₂ + 2 :=
    hr.lt_add_iff (by simp; omega) (by simp; omega)
  by_cases h2 : e₁ < c₁ + 2
  · rw [if_pos h2, if_pos (hroom.mp h2)]
    exact .fail _
  rw [if_neg h2, if_neg fun h2₂ => h2 (hroom.mpr h2₂)]
  rw [UInt64.lt_iff_toNat_lt] at h2
  have hlt : c₁ < e₁ := by
    rw [UInt64.lt_iff_toNat_lt]
    omega
  refine Sim.bind (Sim.byte (R := Eq) (hr.head hlt).1) fun size _ hs => ?_
  subst hs
  refine .pure ⟨?_, hstr, hfits, hr.skip (n := 2) (by omega)⟩
  rw [CieRecord.mk.injEq] at hnum ⊢
  tauto

lemma parseCieHeader_sim (h : Twin m₁ m₂ p₁ e₁ p₂ e₂) (he₁ : e₁.toNat ≤ 2 ^ 63)
    (he₂ : e₂.toNat ≤ 2 ^ 63) (hoff : start₁ - sec₁.data = start₂ - sec₂.data) :
    Sim m₁ m₂ (HeaderTwin m₁ m₂ e₁ e₂) (parseCieHeader sec₁ start₁ p₁ e₁ isEh)
      (parseCieHeader sec₂ start₂ p₂ e₂ isEh) := by
  rw [parseCieHeader_eq, parseCieHeader_eq]
  by_cases hp : p₁ < e₁
  swap
  · have hp₂ : ¬ p₂ < e₂ := fun hp₂ => hp (h.lt_iff.mpr hp₂)
    rw [if_pos (UInt64.not_lt.mp hp), if_pos (UInt64.not_lt.mp hp₂)]
    exact .fail _
  have hp₂ := h.lt_iff.mp hp
  rw [if_neg (UInt64.not_le.mpr hp), if_neg (UInt64.not_le.mpr hp₂)]
  obtain ⟨hv, haug⟩ := h.head hp
  refine Sim.bind (Sim.byte (R := Eq) hv) fun version _ hv => ?_
  subst hv
  rw [haug.sub_eq]
  have hall : (p₁ + 1).toNat + (e₂ - (p₂ + 1)).toNat ≤ e₁.toNat := by
    rw [← haug.sub_eq, UInt64.toNat_sub_of_le _ _ haug.le₁]
    have := haug.le₁
    rw [UInt64.le_iff_toNat_le] at this
    omega
  have hw : Within m₁ (fun _ => True) (fun len => len ≤ (e₂ - (p₂ + 1)).toNat)
      (strnlen (p₁ + 1) (e₂ - (p₂ + 1)).toNat) := strnlen_within fun _ _ => trivial
  refine (strnlen_sim haug hall).bind_val fun augLen _ hval _ hl => ?_
  subst hl
  have hl := hw.post _ hval
  have hin : (p₁ + 1).toNat + augLen ≤ e₁.toNat := by omega
  have hleft := haug.left_eq
  have hlen : (UInt64.ofNat augLen).toNat = augLen :=
    UInt64.toNat_ofNat_of_lt' (by show _ < 2 ^ 64; omega)
  have hsum : (p₁ + 1 + UInt64.ofNat augLen).toNat = (p₁ + 1).toNat + augLen :=
    UInt64.toNat_add_ofNat (by omega)
  have hroom : e₁ ≤ p₁ + 1 + UInt64.ofNat augLen ↔ e₂ ≤ p₂ + 1 + UInt64.ofNat augLen :=
    haug.le_add_iff (by omega) (by omega)
  by_cases ha : e₁ ≤ p₁ + 1 + UInt64.ofNat augLen
  · rw [if_pos ha, if_pos (hroom.mp ha)]
    exact .fail _
  rw [if_neg ha, if_neg fun ha₂ => ha (hroom.mpr ha₂)]
  rw [UInt64.le_iff_toNat_le, hsum] at ha
  have hfits : (p₁ + 1).toNat + (UInt64.ofNat augLen).toNat < e₁.toNat := by omega
  have hbody : Twin m₁ m₂ (p₁ + 1 + (UInt64.ofNat augLen + 1)) e₁
      (p₂ + 1 + (UInt64.ofNat augLen + 1)) e₂ := by
    have := haug.skip (n := augLen + 1) (by omega)
    rwa [UInt64.ofNat_add] at this
  refine (readUleb_sim hbody).bind fun a₁ a₂ ha => ?_
  obtain ⟨codeAlign, a₁⟩ := a₁
  obtain ⟨_, a₂⟩ := a₂
  obtain ⟨rfl, ha⟩ := ha
  refine (readSleb_sim ha).bind fun b₁ b₂ hb => ?_
  obtain ⟨dataAlign, b₁⟩ := b₁
  obtain ⟨_, b₂⟩ := b₂
  obtain ⟨rfl, hb⟩ := hb
  refine (readUleb_sim hb).bind fun r₁ r₂ hr => ?_
  obtain ⟨returnReg, r₁⟩ := r₁
  obtain ⟨_, r₂⟩ := r₂
  obtain ⟨rfl, hr⟩ := hr
  refine readAddressSize_sim he₁ he₂ ⟨?_, haug, hfits, hr⟩
  rw [numberedCie, numberedCie, hoff]

/-- The first letter of two augmentation strings that start alike. -/
lemma startsWithZ_sim {via : Via} {cie₁ cie₂ : CieRecord}
    (hlen : cie₁.augmentationLen = cie₂.augmentationLen)
    (hl : cie₁.augmentationLen ≠ 0 → m₁ cie₁.augmentation = m₂ cie₂.augmentation) :
    Sim m₁ m₂ (fun z₁ z₂ => z₁ = z₂ ∧ (z₁ = true → cie₁.augmentationLen ≠ 0))
      (startsWithZ via cie₁) (startsWithZ via cie₂) := by
  rw [startsWithZ, startsWithZ, ← hlen]
  by_cases h0 : cie₁.augmentationLen = 0
  · rw [if_pos h0, if_pos h0]
    exact .pure ⟨rfl, by simp⟩
  · rw [if_neg h0, if_neg h0]
    refine Sim.bind (Sim.byte (R := Eq) (hl h0)) fun b _ hb => ?_
    subst hb
    exact .pure ⟨rfl, fun _ => h0⟩

lemma startsWithZ_eq {via : Via} {cie₁ cie₂ : CieRecord} {z : Bool}
    (hlen : cie₁.augmentationLen = cie₂.augmentationLen)
    (hl : cie₁.augmentationLen ≠ 0 → m₁ cie₁.augmentation = m₂ cie₂.augmentation)
    (hz : (startsWithZ via cie₁).val m₁ = .ok z) : (startsWithZ via cie₂).val m₂ = .ok z := by
  have hsim : Sim m₁ m₂ _ (startsWithZ via cie₁) (startsWithZ via cie₂) := startsWithZ_sim hlen hl
  cases hsim with
  | error h₁ h₂ =>
      rw [h₁] at hz
      cases hz
  | ok h₁ h₂ hzz =>
      rw [h₁] at hz
      rw [h₂, ← hzz.1, hz]

/-- The augmentation length at this cursor takes the end of the data past the top of the address
space. -/
def AugmentationWraps (m : ByteMem) (payload stop : UInt64) : Prop :=
  ∃ r, (readUleb payload stop).val m = .ok r ∧ 2 ^ 64 ≤ r.2.toNat + r.1.toNat

instance (m : ByteMem) (payload stop : UInt64) : Decidable (AugmentationWraps m payload stop) :=
  decidableExistsOk _

lemma augmentationWraps_iff {m : ByteMem} {p e : UInt64} {r : UInt64 × UInt64}
    (h : (readUleb p e).val m = .ok r) :
    AugmentationWraps m p e ↔ 2 ^ 64 ≤ r.2.toNat + r.1.toNat := by
  refine ⟨?_, fun hw => ⟨r, h, hw⟩⟩
  rintro ⟨r', h', hw⟩
  rw [h, Except.ok.injEq] at h'
  rwa [h']

/-- The augmentation data of two entries: the same bytes, or no bytes as the cursor is past their
end; and as much left behind them. -/
structure DataTwin (m₁ m₂ : ByteMem) (e₁ e₂ : UInt64) (r₁ r₂ : UInt64 × UInt64) : Prop where
  data : Twin m₁ m₂ r₁.1 r₁.2 r₂.1 r₂.2 ∨ (r₁.2 ≤ r₁.1 ∧ r₂.2 ≤ r₂.1)
  left_eq : e₁ - r₁.2 = e₂ - r₂.2

/-- The size of the augmentation data, where it wraps at both places or at none. -/
lemma readAugmentationSize_sim (h : Twin m₁ m₂ p₁ e₁ p₂ e₂) (he₁ : e₁.toNat ≤ 2 ^ 63)
    (he₂ : e₂.toNat ≤ 2 ^ 63)
    (hwraps : AugmentationWraps m₁ p₁ e₁ ↔ AugmentationWraps m₂ p₂ e₂) :
    Sim m₁ m₂ (DataTwin m₁ m₂ e₁ e₂) (readAugmentationSize p₁ e₁)
      (readAugmentationSize p₂ e₂) := by
  rw [readAugmentationSize, readAugmentationSize]
  refine (readUleb_sim h).bind_val fun r₁ r₂ hval₁ hval₂ hr => ?_
  rw [augmentationWraps_iff hval₁, augmentationWraps_iff hval₂] at hwraps
  obtain ⟨size, q₁⟩ := r₁
  obtain ⟨_, q₂⟩ := r₂
  obtain ⟨rfl, hq⟩ := hr
  dsimp only at hwraps hq ⊢
  have hle₁ := hq.le₁
  have hle₂ := hq.le₂
  have hleft : e₁ - (q₁ + size) = e₂ - (q₂ + size) := by
    have := hq.sub_eq
    grind
  rw [UInt64.le_iff_toNat_le] at hle₁ hle₂
  have hsize := size.toNat_lt
  by_cases hw : 2 ^ 64 ≤ q₁.toNat + size.toNat
  · -- both ends are in front of their cursors
    have hw₂ := hwraps.mp hw
    have hback {q : UInt64} (hq : q.toNat ≤ 2 ^ 63) (hw : 2 ^ 64 ≤ q.toNat + size.toNat) :
        (q + size).toNat < q.toNat := by
      rw [UInt64.toNat_add, Nat.mod_eq_sub_mod hw, Nat.mod_eq_of_lt (by omega)]
      omega
    have h₁ := hback (by omega) hw
    have h₂ := hback (by omega) hw₂
    have hend₁ : ¬ e₁ < q₁ + size := by
      rw [UInt64.lt_iff_toNat_lt]
      omega
    have hend₂ : ¬ e₂ < q₂ + size := by
      rw [UInt64.lt_iff_toNat_lt]
      omega
    rw [if_neg hend₁, if_neg hend₂]
    exact .pure ⟨.inr ⟨UInt64.le_iff_toNat_le.mpr h₁.le, UInt64.le_iff_toNat_le.mpr h₂.le⟩, hleft⟩
  · have hw₂ : ¬ 2 ^ 64 ≤ q₂.toNat + size.toNat := fun hw₂ => hw (hwraps.mpr hw₂)
    have hsum : (q₁ + size).toNat = q₁.toNat + size.toNat := UInt64.toNat_add_of_lt (by omega)
    have hroom : e₁ < q₁ + size ↔ e₂ < q₂ + size := hq.lt_add_iff (by omega) (by omega)
    by_cases hend : e₁ < q₁ + size
    · rw [if_pos hend, if_pos (hroom.mp hend)]
      exact .fail _
    · rw [if_neg hend, if_neg fun hend₂ => hend (hroom.mpr hend₂)]
      rw [UInt64.lt_iff_toNat_lt] at hend
      have hpre := hq.prefix_to (n := size.toNat) (by omega)
      rw [UInt64.ofNat_toNat] at hpre
      exact .pure ⟨.inl hpre, hleft⟩

/-- A length that wraps at one place only is turned down at the other one. -/
lemma readAugmentationSize_split (h : Twin m₁ m₂ p₁ e₁ p₂ e₂) (he₁ : e₁.toNat ≤ 2 ^ 63)
    (he₂ : e₂.toNat ≤ 2 ^ 63)
    (hwraps : ¬ (AugmentationWraps m₁ p₁ e₁ ↔ AugmentationWraps m₂ p₂ e₂)) :
    (readAugmentationSize p₁ e₁).val m₁ = .error .badFormat ∨
      (readAugmentationSize p₂ e₂).val m₂ = .error .badFormat := by
  have hfails {m : ByteMem} {p e size q : UInt64} (he : e.toNat ≤ 2 ^ 63)
      (hval : (readUleb p e).val m = .ok (size, q)) (hbig : 2 ^ 63 ≤ size.toNat)
      (hw : ¬ 2 ^ 64 ≤ q.toNat + size.toNat) :
      (readAugmentationSize p e).val m = .error .badFormat := by
    have hq : p < q := (readUleb_advance hval).1
    rw [UInt64.lt_iff_toNat_lt] at hq
    have hsum : (q + size).toNat = q.toNat + size.toNat := UInt64.toNat_add_of_lt (by omega)
    have hend : e < q + size := by
      rw [UInt64.lt_iff_toNat_lt]
      omega
    rw [readAugmentationSize, val_bind_ok hval]
    dsimp only
    rw [if_pos hend, val_fail]
  cases readUleb_sim h with
  | error h₁ h₂ =>
      refine absurd (iff_of_false ?_ ?_) hwraps
      · rintro ⟨r, hr, -⟩
        rw [h₁] at hr
        cases hr
      · rintro ⟨r, hr, -⟩
        rw [h₂] at hr
        cases hr
  | @ok r₁ r₂ hval₁ hval₂ hr =>
      rw [augmentationWraps_iff hval₁, augmentationWraps_iff hval₂] at hwraps
      obtain ⟨size, q₁⟩ := r₁
      obtain ⟨_, q₂⟩ := r₂
      obtain ⟨rfl, hq⟩ := hr
      dsimp only at hwraps hq
      have hle₁ := hq.le₁
      have hle₂ := hq.le₂
      rw [UInt64.le_iff_toNat_le] at hle₁ hle₂
      by_cases hw : 2 ^ 64 ≤ q₁.toNat + size.toNat
      · have hbig : 2 ^ 63 ≤ size.toNat := by omega
        exact .inr (hfails he₂ hval₂ hbig fun hw₂ => hwraps (iff_of_true hw hw₂))
      · have hw₂ : 2 ^ 64 ≤ q₂.toNat + size.toNat :=
          not_not.mp fun hw₂ => hwraps (iff_of_false hw hw₂)
        have hbig : 2 ^ 63 ≤ size.toNat := by omega
        exact .inl (hfails he₁ hval₁ hbig hw)

lemma augmentationLoop_sim {g₁ g₂ a₁ a₂ i : UInt64} {n : ℕ} {encoding : UInt8}
    (hg : Twin m₁ m₂ g₁ e₁ g₂ e₂) (hn : g₁.toNat + i.toNat + n < e₁.toNat)
    (h : Twin m₁ m₂ p₁ a₁ p₂ a₂ ∨ (a₁ ≤ p₁ ∧ a₂ ≤ p₂)) :
    Sim m₁ m₂ Eq (augmentationLoop g₁ a₁ n i p₁ encoding)
      (augmentationLoop g₂ a₂ n i p₂ encoding) := by
  induction n generalizing i p₁ p₂ encoding with
  | zero => exact .pure rfl
  | succ n ih =>
      have hlt := e₁.toNat_lt
      have hone : (i + 1).toNat = i.toNat + 1 := UInt64.toNat_add_of_lt (by simp; omega)
      have hletter : m₁ (g₁ + i) = m₂ (g₂ + i) := by
        have hrest := hg.skip (n := i.toNat) (by omega)
        rw [UInt64.ofNat_toNat] at hrest
        refine (hrest.head ?_).1
        rw [UInt64.lt_iff_toNat_lt, UInt64.toNat_add_of_lt (by omega)]
        omega
      rw [augmentationLoop, augmentationLoop]
      refine Sim.bind (Sim.byte (R := Eq) hletter) fun c _ hc => ?_
      subst hc
      by_cases hR : c = 0x52
      swap
      · rw [if_neg hR, if_neg hR]
        exact .pure rfl
      rw [if_pos hR, if_pos hR]
      rcases h with h | ⟨h₁, h₂⟩
      swap
      · rw [if_pos h₁, if_pos h₂]
        exact .fail _
      by_cases hp : p₁ < a₁
      · obtain ⟨hb, hnext⟩ := h.head hp
        rw [if_neg (UInt64.not_le.mpr hp), if_neg (UInt64.not_le.mpr (h.lt_iff.mp hp))]
        refine Sim.bind (Sim.byte (R := Eq) hb) fun b _ hb => ?_
        subst hb
        exact ih (by omega) (.inl hnext)
      · have hp₂ : ¬ p₂ < a₂ := fun hp₂ => hp (h.lt_iff.mpr hp₂)
        rw [if_pos (UInt64.not_lt.mp hp), if_pos (UInt64.not_lt.mp hp₂)]
        exact .fail _

/-- The augmentation length of a CIE takes the end of its data past the top of the address
space. -/
def CieWraps (m : ByteMem) (sec : Section) (isEh : Bool) (start payload stop : UInt64) : Prop :=
  ∃ r, (parseCieHeader sec start payload stop isEh).val m = .ok r ∧
    (startsWithZ .entry r.1).val m = .ok true ∧ AugmentationWraps m r.2 stop

instance (m : ByteMem) (sec : Section) (isEh : Bool) (start payload stop : UInt64) :
    Decidable (CieWraps m sec isEh start payload stop) := decidableExistsOk _

lemma cieWraps_iff {m : ByteMem} {sec : Section} {start payload stop : UInt64} {z : Bool}
    {r : CieRecord × UInt64} (h : (parseCieHeader sec start payload stop isEh).val m = .ok r)
    (hz : (startsWithZ .entry r.1).val m = .ok z) :
    CieWraps m sec isEh start payload stop ↔ z = true ∧ AugmentationWraps m r.2 stop := by
  constructor
  · rintro ⟨r', h', hz', hw⟩
    rw [h, Except.ok.injEq] at h'
    subst h'
    rw [hz, Except.ok.injEq] at hz'
    exact ⟨hz', hw⟩
  · rintro ⟨rfl, hw⟩
    exact ⟨r, h, hz, hw⟩

lemma not_cieWraps_of_error {m : ByteMem} {sec : Section} {start payload stop : UInt64}
    {st : Status} (h : (parseCieHeader sec start payload stop isEh).val m = .error st) :
    ¬ CieWraps m sec isEh start payload stop := by
  rintro ⟨r, hr, -⟩
  rw [h] at hr
  cases hr

/-- Looking for the letter `z` does not fail. -/
lemma startsWithZ_ok (m : ByteMem) (via : Via) (cie : CieRecord) :
    ∃ z, (startsWithZ via cie).val m = .ok z := by
  rw [startsWithZ]
  by_cases h0 : cie.augmentationLen = 0
  · rw [if_pos h0]
    exact ⟨_, rfl⟩
  · rw [if_neg h0]
    exact ⟨_, rfl⟩

/-- The first letters of two strings that are alike. -/
lemma HeaderTwin.letter {r₁ r₂ : CieRecord × UInt64} (h : HeaderTwin m₁ m₂ e₁ e₂ r₁ r₂)
    (h0 : r₁.1.augmentationLen ≠ 0) : m₁ r₁.1.augmentation = m₂ r₂.1.augmentation := by
  have hpos : r₁.1.augmentationLen.toNat ≠ 0 := fun h => h0 (UInt64.toNat_inj.mp h)
  have hfits := h.fits
  refine (h.string.head ?_).1
  rw [UInt64.lt_iff_toNat_lt]
  omega

lemma HeaderTwin.augmentationLen {r₁ r₂ : CieRecord × UInt64}
    (h : HeaderTwin m₁ m₂ e₁ e₂ r₁ r₂) : r₁.1.augmentationLen = r₂.1.augmentationLen := by
  have := congrArg CieRecord.augmentationLen h.numbers
  exact this

/-- One CIE at two places. -/
theorem parseCie_sim (h : Twin m₁ m₂ p₁ e₁ p₂ e₂) (he₁ : e₁.toNat ≤ 2 ^ 63)
    (he₂ : e₂.toNat ≤ 2 ^ 63) (hoff : start₁ - sec₁.data = start₂ - sec₂.data)
    (hwraps : CieWraps m₁ sec₁ isEh start₁ p₁ e₁ ↔ CieWraps m₂ sec₂ isEh start₂ p₂ e₂) :
    Sim m₁ m₂ (CieTwin m₁ m₂) (parseCie sec₁ start₁ p₁ e₁ isEh)
      (parseCie sec₂ start₂ p₂ e₂ isEh) := by
  refine (parseCieHeader_sim h he₁ he₂ hoff).bind_val fun r₁ r₂ hval₁ hval₂ hr => ?_
  refine (startsWithZ_sim hr.augmentationLen hr.letter).bind_val fun z _ hz₁ hz₂ hzz => ?_
  obtain ⟨rfl, hz0⟩ := hzz
  rw [cieWraps_iff hval₁ hz₁, cieWraps_iff hval₂ hz₂] at hwraps
  have hletter := hr.letter
  obtain ⟨cie₁, q₁⟩ := r₁
  obtain ⟨cie₂, q₂⟩ := r₂
  obtain ⟨hnum, hstr, hin, hrest⟩ := hr
  dsimp only at hnum hstr hin hrest hletter hz0 hwraps ⊢
  simp only [CieRecord.mk.injEq] at hnum
  obtain ⟨h1, h2, h3, h4, h5, h6, h7, -, h9, -, -⟩ := hnum
  by_cases hzt : z = true
  · rw [if_pos hzt, if_pos hzt]
    have hpos : cie₁.augmentationLen.toNat ≠ 0 := fun h => hz0 hzt (UInt64.toNat_inj.mp h)
    subst hzt
    simp only [true_and] at hwraps
    refine (readAugmentationSize_sim hrest he₁ he₂ hwraps).bind fun s₁ s₂ hs => ?_
    obtain ⟨hdata, hleft⟩ := hs
    rw [← h9, ← h4]
    have hn : cie₁.augmentation.toNat + (1 : UInt64).toNat + (cie₁.augmentationLen.toNat - 1) <
        e₁.toNat := by
      have hone : (1 : UInt64).toNat = 1 := rfl
      omega
    refine (augmentationLoop_sim hstr hn hdata).bind fun encoding _ henc => .pure ?_
    subst henc
    refine ⟨?_, hletter⟩
    simp only [CieRecord.mk.injEq]
    exact ⟨h1, h2, h3, trivial, h5, h6, h7, trivial, trivial, trivial, hleft⟩
  · rw [if_neg hzt, if_neg hzt]
    refine .pure ⟨?_, hletter⟩
    simp only [CieRecord.mk.injEq]
    exact ⟨h1, h2, h3, h4, h5, h6, h7, trivial, h9, trivial, hrest.sub_eq⟩

/-- A CIE whose augmentation length wraps at one place only is turned down at the other one. -/
lemma parseCie_split (h : Twin m₁ m₂ p₁ e₁ p₂ e₂) (he₁ : e₁.toNat ≤ 2 ^ 63)
    (he₂ : e₂.toNat ≤ 2 ^ 63) (hoff : start₁ - sec₁.data = start₂ - sec₂.data)
    (hwraps : ¬ (CieWraps m₁ sec₁ isEh start₁ p₁ e₁ ↔ CieWraps m₂ sec₂ isEh start₂ p₂ e₂)) :
    (parseCie sec₁ start₁ p₁ e₁ isEh).val m₁ = .error .badFormat ∨
      (parseCie sec₂ start₂ p₂ e₂ isEh).val m₂ = .error .badFormat := by
  have hfails {m : ByteMem} {sec : Section} {start payload stop : UInt64}
      {r : CieRecord × UInt64} (h : (parseCieHeader sec start payload stop isEh).val m = .ok r)
      (hz : (startsWithZ .entry r.1).val m = .ok true)
      (ha : (readAugmentationSize r.2 stop).val m = .error .badFormat) :
      (parseCie sec start payload stop isEh).val m = .error .badFormat := by
    rw [parseCie, val_bind_ok h]
    dsimp only
    rw [val_bind_ok hz, if_pos rfl, val_bind_error ha]
  have hheader : Sim m₁ m₂ (HeaderTwin m₁ m₂ e₁ e₂) (parseCieHeader sec₁ start₁ p₁ e₁ isEh)
    (parseCieHeader sec₂ start₂ p₂ e₂ isEh) := parseCieHeader_sim h he₁ he₂ hoff
  cases hheader with
  | error h₁ h₂ =>
      exact absurd (iff_of_false (not_cieWraps_of_error h₁) (not_cieWraps_of_error h₂)) hwraps
  | @ok r₁ r₂ hval₁ hval₂ hr =>
      obtain ⟨z, hz₁⟩ := startsWithZ_ok m₁ .entry r₁.1
      have hz₂ : (startsWithZ .entry r₂.1).val m₂ = .ok z :=
        startsWithZ_eq hr.augmentationLen hr.letter hz₁
      rw [cieWraps_iff hval₁ hz₁, cieWraps_iff hval₂ hz₂] at hwraps
      cases z with
      | false => exact absurd (by simp) hwraps
      | true =>
          simp only [true_and] at hwraps
          exact (readAugmentationSize_split hr.rest he₁ he₂ hwraps).imp (hfails hval₁ hz₁)
            (hfails hval₂ hz₂)

/-! ### One FDE -/

/-- Whether the addresses of a CIE's FDEs are relative to themselves. -/
def CieRecord.Pcrel (cie : CieRecord) : Prop := cie.ptrEncoding &&& 0x70 = dwEhPePcrel

instance (cie : CieRecord) : Decidable cie.Pcrel := inferInstanceAs (Decidable (_ = _))

lemma CieRecord.pcrel_iff (cie : CieRecord) :
    pointerApplication cie.fdeEncoding = dwEhPePcrel ↔ cie.Pcrel := by
  rw [CieRecord.Pcrel, CieRecord.fdeEncoding]
  generalize cie.ptrEncoding = b
  refine UInt8.forall_of_lt (P := fun b => pointerApplication (if b ≠ 0 then b else dwEhPeAbsptr) =
    dwEhPePcrel ↔ b &&& 0x70 = dwEhPePcrel) ?_ b
  decide +kernel

/-- The length of an FDE is never relative to anything. -/
lemma pointerApplication_and_0x0f (b : UInt8) : pointerApplication (b &&& 0x0f) = 0 := by
  refine UInt8.forall_of_lt (P := fun b => pointerApplication (b &&& 0x0f) = 0) ?_ b
  decide +kernel

/-- Two FDE records of a parent that agree, up to the distance `δ` of the two places. -/
structure FdeTwin (cie : CieRecord) (δ : UInt64) (fde₁ fde₂ : FdeRecord) : Prop where
  numbers : { fde₁ with pcBegin := 0, instructions := 0 } =
    { fde₂ with pcBegin := 0, instructions := 0 }
  pcBegin : fde₁.pcBegin = fde₂.pcBegin + if cie.Pcrel then δ else 0

/-- The two addresses of an FDE.  `C` and `D` are what the cursors behind the first and behind
the second one have in common. -/
lemma parseFdeRange_sim_of {C D : UInt64 → UInt64 → Prop} {cie : CieRecord}
    (hC : ∀ q₁ q₂, C q₁ q₂ → e₁ - q₁ = e₂ - q₂) (hD : ∀ q₁ q₂, D q₁ q₂ → e₁ - q₁ = e₂ - q₂)
    (hfst : ∀ format, Sim m₁ m₂ (fun r₁ r₂ => r₁.1 = r₂.1 ∧ C r₁.2 r₂.2)
      (readPointerFormat format p₁ e₁) (readPointerFormat format p₂ e₂))
    (hsnd : ∀ format q₁ q₂, C q₁ q₂ → Sim m₁ m₂ (fun r₁ r₂ => r₁.1 = r₂.1 ∧ D r₁.2 r₂.2)
      (readPointerFormat format q₁ e₁) (readPointerFormat format q₂ e₂)) :
    Sim m₁ m₂
      (fun r₁ r₂ => r₁.1 = r₂.1 + (if cie.Pcrel then e₁ - e₂ else 0) ∧ r₁.2.1 = r₂.2.1 ∧
        D r₁.2.2 r₂.2.2)
      (parseFdeRange sec₁ cie.fdeEncoding p₁ e₁) (parseFdeRange sec₂ cie.fdeEncoding p₂ e₂) := by
  refine (readEncodedPointer_sim hC (hfst _)).bind fun r₁ r₂ hr => ?_
  obtain ⟨hbegin, hr⟩ := hr
  simp only [cie.pcrel_iff] at hbegin
  refine (readEncodedPointer_sim hD (hsnd _ _ _ hr)).bind fun s₁ s₂ hs => ?_
  obtain ⟨hrange, hs⟩ := hs
  rw [if_neg (by rw [pointerApplication_and_0x0f]; decide)] at hrange
  exact .pure ⟨hbegin, by rw [hrange]; grind, hs⟩

lemma parseFdeRange_sim {cie : CieRecord} (h : Twin m₁ m₂ p₁ e₁ p₂ e₂) :
    Sim m₁ m₂
      (fun r₁ r₂ => r₁.1 = r₂.1 + (if cie.Pcrel then e₁ - e₂ else 0) ∧ r₁.2.1 = r₂.2.1 ∧
        Twin m₁ m₂ r₁.2.2 e₁ r₂.2.2 e₂)
      (parseFdeRange sec₁ cie.fdeEncoding p₁ e₁) (parseFdeRange sec₂ cie.fdeEncoding p₂ e₂) :=
  parseFdeRange_sim_of (C := fun q₁ q₂ => Twin m₁ m₂ q₁ e₁ q₂ e₂)
    (D := fun q₁ q₂ => Twin m₁ m₂ q₁ e₁ q₂ e₂) (fun _ _ h => h.sub_eq) (fun _ _ h => h.sub_eq)
    (fun _ => readPointerFormat_sim h) fun _ _ _ h => readPointerFormat_sim h

/-- The two addresses of an FDE whose payload is behind its end. -/
lemma parseFdeRange_past {cie : CieRecord} (h : Past m₁ m₂ 16 p₁ e₁ p₂ e₂) :
    Sim m₁ m₂
      (fun r₁ r₂ => r₁.1 = r₂.1 + (if cie.Pcrel then e₁ - e₂ else 0) ∧ r₁.2.1 = r₂.2.1 ∧
        Past m₁ m₂ 0 r₁.2.2 e₁ r₂.2.2 e₂)
      (parseFdeRange sec₁ cie.fdeEncoding p₁ e₁) (parseFdeRange sec₂ cie.fdeEncoding p₂ e₂) :=
  parseFdeRange_sim_of (C := fun q₁ q₂ => Past m₁ m₂ 8 q₁ e₁ q₂ e₂)
    (D := fun q₁ q₂ => Past m₁ m₂ 0 q₁ e₁ q₂ e₂) (fun _ _ h => h.sub_eq) (fun _ _ h => h.sub_eq)
    (fun _ => readPointerFormat_past h) fun _ _ _ h => readPointerFormat_past h

/-- Two CIE tables of records that agree, in blocks of one name. -/
structure CiesTwin (m₁ m₂ : ByteMem) (cies₁ cies₂ : CieVector) : Prop where
  data : cies₁.data = cies₂.data
  capacity : cies₁.capacity = cies₂.capacity
  records : List.Forall₂ (CieTwin m₁ m₂) cies₁.records cies₂.records

lemma CieTwin.offset {cie₁ cie₂ : CieRecord} (h : CieTwin m₁ m₂ cie₁ cie₂) :
    cie₁.offset = cie₂.offset := by
  have := congrArg CieRecord.offset h.numbers
  exact this

lemma CieTwin.fdeEncoding {cie₁ cie₂ : CieRecord} (h : CieTwin m₁ m₂ cie₁ cie₂) :
    cie₁.fdeEncoding = cie₂.fdeEncoding := by
  have := congrArg CieRecord.ptrEncoding h.numbers
  rw [CieRecord.fdeEncoding, CieRecord.fdeEncoding, show cie₁.ptrEncoding = cie₂.ptrEncoding from
    this]

lemma CieTwin.augmentationLen {cie₁ cie₂ : CieRecord} (h : CieTwin m₁ m₂ cie₁ cie₂) :
    cie₁.augmentationLen = cie₂.augmentationLen := by
  have := congrArg CieRecord.augmentationLen h.numbers
  exact this

/-- The two addresses of FDEs of two CIEs that agree. -/
lemma CieTwin.range_sim {cie₁ cie₂ : CieRecord} (hc : CieTwin m₁ m₂ cie₁ cie₂)
    (h : Twin m₁ m₂ p₁ e₁ p₂ e₂) :
    Sim m₁ m₂
      (fun r₁ r₂ => r₁.1 = r₂.1 + (if cie₁.Pcrel then e₁ - e₂ else 0) ∧ r₁.2.1 = r₂.2.1 ∧
        Twin m₁ m₂ r₁.2.2 e₁ r₂.2.2 e₂)
      (parseFdeRange sec₁ cie₁.fdeEncoding p₁ e₁) (parseFdeRange sec₂ cie₂.fdeEncoding p₂ e₂) := by
  rw [← hc.fdeEncoding]
  exact parseFdeRange_sim h

lemma findIdx?_of_cieTwin {l₁ l₂ : List CieRecord} (offset : UInt64)
    (h : List.Forall₂ (CieTwin m₁ m₂) l₁ l₂) :
    l₁.findIdx? (·.offset = offset) = l₂.findIdx? (·.offset = offset) := by
  induction h with
  | nil => rfl
  | cons hc _ ih => rw [List.findIdx?_cons, List.findIdx?_cons, ih, hc.offset]

/-- Lookups in the two tables find the same place, and records that agree. -/
lemma CiesTwin.findCie {cies₁ cies₂ : CieVector} (h : CiesTwin m₁ m₂ cies₁ cies₂)
    (offset : UInt64) :
    (findCie cies₁ offset = none ∧ findCie cies₂ offset = none) ∨
    ∃ ptr cie₁ cie₂, findCie cies₁ offset = some (ptr, cie₁) ∧
      findCie cies₂ offset = some (ptr, cie₂) ∧ CieTwin m₁ m₂ cie₁ cie₂ := by
  have hidx := findIdx?_of_cieTwin offset h.records
  unfold Dwunw.findCie
  rw [← hidx, ← h.data]
  cases hi : cies₁.records.findIdx? (·.offset = offset) with
  | none => exact .inl ⟨rfl, rfl⟩
  | some i =>
      right
      have hlt₁ := (List.findIdx?_eq_some_iff_getElem.mp hi).1
      have hlt₂ : i < cies₂.records.length := h.records.length_eq ▸ hlt₁
      refine ⟨⟨cies₁.data, i⟩, cies₁.records[i], cies₂.records[i], ?_, ?_, h.records.get _ _⟩
      · simp [hlt₁]
      · simp [hlt₂]

/-- The augmentation length of an FDE takes the end of its data past the top of the address
space. -/
def FdeWraps (m : ByteMem) (sec : Section) (isEh : Bool) (cies : CieVector) (id : UInt32)
    (payload stop : UInt64) : Prop :=
  ∃ p ∈ findCie cies (fdeCieOffset sec id payload isEh),
    ∃ r, (parseFdeRange sec p.2.fdeEncoding payload stop).val m = .ok r ∧
      (startsWithZ .parent p.2).val m = .ok true ∧ AugmentationWraps m r.2.2 stop

instance (m : ByteMem) (sec : Section) (isEh : Bool) (cies : CieVector) (id : UInt32)
    (payload stop : UInt64) : Decidable (FdeWraps m sec isEh cies id payload stop) :=
  inferInstanceAs (Decidable (∃ _ ∈ _, _))

section FdeWraps

variable {m : ByteMem} {sec : Section} {cies : CieVector} {id : UInt32} {payload stop : UInt64}
  {p : CiePtr × CieRecord} {r : UInt64 × UInt64 × UInt64} {z : Bool}

lemma fdeWraps_iff (hf : findCie cies (fdeCieOffset sec id payload isEh) = some p)
    (h : (parseFdeRange sec p.2.fdeEncoding payload stop).val m = .ok r)
    (hz : (startsWithZ .parent p.2).val m = .ok z) :
    FdeWraps m sec isEh cies id payload stop ↔ z = true ∧ AugmentationWraps m r.2.2 stop := by
  constructor
  · rintro ⟨p', hf', r', h', hz', hw⟩
    rw [Option.mem_def, hf, Option.some.injEq] at hf'
    subst hf'
    rw [h, Except.ok.injEq] at h'
    subst h'
    rw [hz, Except.ok.injEq] at hz'
    exact ⟨hz', hw⟩
  · rintro ⟨rfl, hw⟩
    exact ⟨p, hf, r, h, hz, hw⟩

lemma not_fdeWraps_of_none (hf : findCie cies (fdeCieOffset sec id payload isEh) = none) :
    ¬ FdeWraps m sec isEh cies id payload stop := by
  rintro ⟨p, hp, -⟩
  rw [hf] at hp
  cases hp

lemma not_fdeWraps_of_error {st : Status}
    (hf : findCie cies (fdeCieOffset sec id payload isEh) = some p)
    (h : (parseFdeRange sec p.2.fdeEncoding payload stop).val m = .error st) :
    ¬ FdeWraps m sec isEh cies id payload stop := by
  rintro ⟨p', hf', r', h', -⟩
  rw [Option.mem_def, hf, Option.some.injEq] at hf'
  subst hf'
  rw [h] at h'
  cases h'

end FdeWraps

/-- What two FDEs decode to: a parent in the table, and records that agree up to `δ`. -/
def FdeAlike (cies₁ : CieVector) (δ : UInt64) (fde₁ fde₂ : FdeRecord) : Prop :=
  ∃ cie ∈ cies₁.records[fde₁.cie.index]?, FdeTwin cie δ fde₁ fde₂

variable {cies₁ cies₂ : CieVector} {id : UInt32} {δ : UInt64}

/-- One FDE at two places. -/
theorem parseFde_sim (hcies : CiesTwin m₁ m₂ cies₁ cies₂) (h : Twin m₁ m₂ p₁ e₁ p₂ e₂)
    (he₁ : e₁.toNat ≤ 2 ^ 63) (he₂ : e₂.toNat ≤ 2 ^ 63)
    (hoff : start₁ - sec₁.data = start₂ - sec₂.data)
    (hpay : p₁ - sec₁.data = p₂ - sec₂.data) (hδ : e₁ - e₂ = δ)
    (hwraps : FdeWraps m₁ sec₁ isEh cies₁ id p₁ e₁ ↔ FdeWraps m₂ sec₂ isEh cies₂ id p₂ e₂) :
    Sim m₁ m₂ (FdeAlike cies₁ δ) (parseFde sec₁ start₁ id p₁ e₁ isEh cies₁)
      (parseFde sec₂ start₂ id p₂ e₂ isEh cies₂) := by
  have hlookup : fdeCieOffset sec₁ id p₁ isEh = fdeCieOffset sec₂ id p₂ isEh := by
    rw [fdeCieOffset, fdeCieOffset, hpay]
  rw [parseFde, parseFde]
  rcases hcies.findCie (fdeCieOffset sec₁ id p₁ isEh) with
    ⟨h₁, h₂⟩ | ⟨ptr, cie₁, cie₂, h₁, h₂, hc⟩
  · rw [hlookup] at h₂
    rw [h₁, h₂]
    exact .fail _
  rw [hlookup] at h₂
  rw [h₁, h₂]
  have hmem : cies₁.records[ptr.index]? = some cie₁ := (findCie_eq_some.mp h₁).2.1
  change Sim m₁ m₂ _ (parseFdeRange sec₁ cie₁.fdeEncoding p₁ e₁ >>= _)
    (parseFdeRange sec₂ cie₂.fdeEncoding p₂ e₂ >>= _)
  refine (hc.range_sim h).bind_val fun r₁ r₂ hval₁ hval₂ hr => ?_
  refine (startsWithZ_sim hc.augmentationLen hc.letter).bind_val fun z _ hz₁ hz₂ hzz => ?_
  obtain ⟨rfl, -⟩ := hzz
  rw [fdeWraps_iff h₁ hval₁ hz₁, fdeWraps_iff h₂ hval₂ hz₂] at hwraps
  obtain ⟨begin₁, range₁, q₁⟩ := r₁
  obtain ⟨begin₂, range₂, q₂⟩ := r₂
  obtain ⟨hbegin, hsize, hq⟩ := hr
  dsimp only at hbegin hsize hq hwraps ⊢
  subst hsize
  rw [hδ] at hbegin
  by_cases hzt : z = true
  · rw [if_pos hzt, if_pos hzt]
    simp only [hzt, true_and] at hwraps
    refine (readAugmentationSize_sim hq he₁ he₂ hwraps).bind
      fun s₁ s₂ hs => .pure ⟨cie₁, hmem, ?_, hbegin⟩
    simp only [hoff, hs.left_eq]
  · rw [if_neg hzt, if_neg hzt]
    refine .pure ⟨cie₁, hmem, ?_, hbegin⟩
    simp only [hoff, hq.sub_eq]

/-- An FDE whose payload is behind its end. -/
lemma parseFde_past (hcies : CiesTwin m₁ m₂ cies₁ cies₂) (h : Past m₁ m₂ 16 p₁ e₁ p₂ e₂)
    (hoff : start₁ - sec₁.data = start₂ - sec₂.data)
    (hpay : p₁ - sec₁.data = p₂ - sec₂.data) (hδ : e₁ - e₂ = δ) :
    Sim m₁ m₂ (FdeAlike cies₁ δ) (parseFde sec₁ start₁ id p₁ e₁ isEh cies₁)
      (parseFde sec₂ start₂ id p₂ e₂ isEh cies₂) := by
  have hlookup : fdeCieOffset sec₁ id p₁ isEh = fdeCieOffset sec₂ id p₂ isEh := by
    rw [fdeCieOffset, fdeCieOffset, hpay]
  rw [parseFde, parseFde, ← hlookup]
  rcases hcies.findCie (fdeCieOffset sec₁ id p₁ isEh) with
    ⟨h₁, h₂⟩ | ⟨ptr, cie₁, cie₂, h₁, h₂, hc⟩
  · rw [h₁, h₂]
    exact .fail _
  rw [h₁, h₂]
  have hmem : cies₁.records[ptr.index]? = some cie₁ := (findCie_eq_some.mp h₁).2.1
  change Sim m₁ m₂ _ (parseFdeRange sec₁ cie₁.fdeEncoding p₁ e₁ >>= _)
    (parseFdeRange sec₂ cie₂.fdeEncoding p₂ e₂ >>= _)
  rw [← hc.fdeEncoding]
  refine (parseFdeRange_past h).bind fun r₁ r₂ hr => ?_
  obtain ⟨begin₁, range₁, q₁⟩ := r₁
  obtain ⟨begin₂, range₂, q₂⟩ := r₂
  obtain ⟨hbegin, hsize, hq⟩ := hr
  dsimp only at hbegin hsize hq ⊢
  subst hsize
  rw [hδ] at hbegin
  refine (startsWithZ_sim hc.augmentationLen hc.letter).bind fun z _ hzz => ?_
  obtain ⟨rfl, -⟩ := hzz
  by_cases hzt : z = true
  · -- no augmentation length is read behind the end
    rw [if_pos hzt, if_pos hzt]
    refine .error (e := .badFormat) ?_ ?_
    · rw [readAugmentationSize]
      exact val_bind_error (val_bind_error (readUleb_past hq.behind₁) _) _
    · rw [readAugmentationSize]
      exact val_bind_error (val_bind_error (readUleb_past hq.behind₂) _) _
  · rw [if_neg hzt, if_neg hzt]
    refine .pure ⟨cie₁, hmem, ?_, hbegin⟩
    simp only [hoff, hq.sub_eq]

/-- An FDE whose augmentation length wraps at one place only is turned down at the other one. -/
lemma parseFde_split (start₁ start₂ : UInt64) (hcies : CiesTwin m₁ m₂ cies₁ cies₂)
    (h : Twin m₁ m₂ p₁ e₁ p₂ e₂)
    (he₁ : e₁.toNat ≤ 2 ^ 63) (he₂ : e₂.toNat ≤ 2 ^ 63)
    (hpay : p₁ - sec₁.data = p₂ - sec₂.data)
    (hwraps : ¬ (FdeWraps m₁ sec₁ isEh cies₁ id p₁ e₁ ↔
      FdeWraps m₂ sec₂ isEh cies₂ id p₂ e₂)) :
    (parseFde sec₁ start₁ id p₁ e₁ isEh cies₁).val m₁ = .error .badFormat ∨
      (parseFde sec₂ start₂ id p₂ e₂ isEh cies₂).val m₂ = .error .badFormat := by
  have hfails {m : ByteMem} {sec : Section} {cies : CieVector} {start payload stop : UInt64}
      {p : CiePtr × CieRecord} {r : UInt64 × UInt64 × UInt64}
      (hf : findCie cies (fdeCieOffset sec id payload isEh) = some p)
      (h : (parseFdeRange sec p.2.fdeEncoding payload stop).val m = .ok r)
      (hz : (startsWithZ .parent p.2).val m = .ok true)
      (ha : (readAugmentationSize r.2.2 stop).val m = .error .badFormat) :
      (parseFde sec start id payload stop isEh cies).val m = .error .badFormat := by
    obtain ⟨ptr, cie⟩ := p
    change (parseFdeRange sec (if cie.ptrEncoding ≠ 0 then cie.ptrEncoding else dwEhPeAbsptr)
      payload stop).val m = .ok r at h
    change (startsWithZ .parent cie).val m = .ok true at hz
    rw [parseFde, hf]
    dsimp only
    rw [val_bind_ok h, val_bind_ok hz, if_pos rfl, val_bind_error ha]
  have hlookup : fdeCieOffset sec₁ id p₁ isEh = fdeCieOffset sec₂ id p₂ isEh := by
    rw [fdeCieOffset, fdeCieOffset, hpay]
  rcases hcies.findCie (fdeCieOffset sec₁ id p₁ isEh) with
    ⟨h₁, h₂⟩ | ⟨ptr, cie₁, cie₂, h₁, h₂, hc⟩
  · rw [hlookup] at h₂
    exact absurd (iff_of_false (not_fdeWraps_of_none h₁) (not_fdeWraps_of_none h₂)) hwraps
  rw [hlookup] at h₂
  cases (hc.range_sim h : Sim m₁ m₂ _ (parseFdeRange sec₁ cie₁.fdeEncoding p₁ e₁)
    (parseFdeRange sec₂ cie₂.fdeEncoding p₂ e₂)) with
  | error hr₁ hr₂ =>
      exact absurd (iff_of_false (not_fdeWraps_of_error h₁ hr₁) (not_fdeWraps_of_error h₂ hr₂))
        hwraps
  | @ok r₁ r₂ hval₁ hval₂ hr =>
      obtain ⟨z, hz₁⟩ := startsWithZ_ok m₁ .parent cie₁
      have hz₂ : (startsWithZ .parent cie₂).val m₂ = .ok z :=
        startsWithZ_eq hc.augmentationLen hc.letter hz₁
      rw [fdeWraps_iff h₁ hval₁ hz₁, fdeWraps_iff h₂ hval₂ hz₂] at hwraps
      cases z with
      | false => exact absurd (by simp) hwraps
      | true =>
          simp only [true_and] at hwraps
          exact (readAugmentationSize_split hr.2.2 he₁ he₂ hwraps).imp (hfails h₁ hval₁ hz₁)
            (hfails h₂ hval₂ hz₂)

/-! ### One entry -/

/-- The augmentation length of an entry that holds its id takes the end of its data past the top
of the address space. -/
def EntryHead.Wraps (m : ByteMem) (sec : Section) (isEh : Bool) (cies : CieVector)
    (h : EntryHead) : Prop :=
  (h.FitsIn sec ∧ 4 ≤ h.length.toNat) ∧
    (h.isCie isEh = true ∧ CieWraps m sec isEh h.start (h.start + 4 + 4) h.stop ∨
      h.isCie isEh = false ∧ FdeWraps m sec isEh cies h.id (h.start + 4 + 4) h.stop)

instance (m : ByteMem) (sec : Section) (isEh : Bool) (cies : CieVector) (h : EntryHead) :
    Decidable (h.Wraps m sec isEh cies) :=
  inferInstanceAs (Decidable ((_ ∧ _) ∧ (_ ∧ _ ∨ _ ∧ _)))

/-- A short entry so near to the end of its section that there is no room for an id and two
addresses of eight bytes. -/
def EntryHead.ShortAtEnd (sec : Section) (h : EntryHead) : Prop :=
  h.Short sec ∧ sec.stop.toNat < h.start.toNat + 24

instance (sec : Section) (h : EntryHead) : Decidable (h.ShortAtEnd sec) :=
  inferInstanceAs (Decidable (_ ∧ _))

/-- What one entry decodes to at two places. -/
inductive EntryTwin (m₁ m₂ : ByteMem) (sec₁ sec₂ : Section) (cies₁ : CieVector) :
    Option (EntryRecord × UInt64) → Option (EntryRecord × UInt64) → Prop
  | terminator : EntryTwin m₁ m₂ sec₁ sec₂ cies₁ none none
  | cie {cie₁ cie₂ : CieRecord} {q₁ q₂ : UInt64} (h : CieTwin m₁ m₂ cie₁ cie₂)
      (hq : Twin m₁ m₂ q₁ sec₁.stop q₂ sec₂.stop) :
      EntryTwin m₁ m₂ sec₁ sec₂ cies₁ (some (.cie cie₁, q₁)) (some (.cie cie₂, q₂))
  | fde {fde₁ fde₂ : FdeRecord} {q₁ q₂ : UInt64}
      (h : FdeAlike cies₁ (sec₁.data - sec₂.data) fde₁ fde₂)
      (hq : Twin m₁ m₂ q₁ sec₁.stop q₂ sec₂.stop) :
      EntryTwin m₁ m₂ sec₁ sec₂ cies₁ (some (.fde fde₁, q₁)) (some (.fde fde₂, q₂))

lemma EntryTwin.rest {cies : CieVector} {rec₁ rec₂ : EntryRecord} {q₁ q₂ : UInt64}
    (h : EntryTwin m₁ m₂ sec₁ sec₂ cies (some (rec₁, q₁)) (some (rec₂, q₂))) :
    Twin m₁ m₂ q₁ sec₁.stop q₂ sec₂.stop := by
  cases h <;> assumption

/-- Two sections in user space that hold the same bytes. -/
structure SameBytes (m₁ m₂ : ByteMem) (sec₁ sec₂ : Section) : Prop where
  mapped₁ : sec₁.Mapped
  mapped₂ : sec₂.Mapped
  null_iff : sec₁.data = 0 ↔ sec₂.data = 0
  size_eq : sec₁.size = sec₂.size
  bytes : Twin m₁ m₂ sec₁.data sec₁.stop sec₂.data sec₂.stop

variable {q₁ q₂ : UInt64}

/-- Cursors with the same bytes left have the same offset. -/
lemma SameBytes.offset_eq (h : SameBytes m₁ m₂ sec₁ sec₂)
    (hp : Twin m₁ m₂ p₁ sec₁.stop p₂ sec₂.stop) : p₁ - sec₁.data = p₂ - sec₂.data := by
  have h₁ := hp.sub_eq
  have h₂ := h.bytes.sub_eq
  grind

lemma u32At_eq (h : Twin m₁ m₂ c₁ e₁ c₂ e₂) (hn : c₁.toNat + 4 ≤ e₁.toNat) :
    u32At m₁ c₁ = u32At m₂ c₂ := by
  rw [u32At, u32At, h.peek_eq hn]

/-- The parts of an entry that ends at `q₁` and `q₂`: its id, what is behind the id, and the
section from there and from the end of the entry on. -/
structure PartsTwin (m₁ m₂ : ByteMem) (p₁ q₁ e₁ p₂ q₂ e₂ : UInt64) : Prop where
  id : Twin m₁ m₂ (p₁ + 4) q₁ (p₂ + 4) q₂
  payload : Twin m₁ m₂ (p₁ + 4 + 4) q₁ (p₂ + 4 + 4) q₂
  rest : Twin m₁ m₂ (p₁ + 4 + 4) e₁ (p₂ + 4 + 4) e₂
  next : Twin m₁ m₂ q₁ e₁ q₂ e₂

lemma partsTwin_of_length {length : UInt32} (h : Twin m₁ m₂ p₁ e₁ p₂ e₂)
    (hlong : 4 ≤ length.toNat) (hfit : p₁.toNat + 4 + length.toNat ≤ e₁.toNat) :
    PartsTwin m₁ m₂ p₁ (p₁ + 4 + length.toUInt64) e₁ p₂ (p₂ + 4 + length.toUInt64) e₂ := by
  have hlt := e₁.toNat_lt
  have hn : p₁.toNat + (4 + length.toNat) ≤ e₁.toNat := by omega
  have hofNat : UInt64.ofNat (4 + length.toNat) = 4 + length.toUInt64 := by
    rw [UInt64.ofNat_add]
    congr 1
    apply UInt64.toNat_inj.mp
    rw [UInt64.toNat_ofNat', UInt32.toNat_toUInt64]
    omega
  have hend (p : UInt64) : p + UInt64.ofNat (4 + length.toNat) = p + 4 + length.toUInt64 := by
    rw [hofNat, UInt64.add_assoc]
  have height (p : UInt64) : p + UInt64.ofNat 8 = p + 4 + 4 := by
    rw [UInt64.add_assoc]
    rfl
  have hq : (p₁ + 4 + length.toUInt64).toNat = p₁.toNat + (4 + length.toNat) := by
    rw [← hend, UInt64.toNat_add_ofNat (by omega)]
  have hentry := h.prefix_to hn
  have hnext := h.skip hn
  rw [hend, hend] at hentry hnext
  have hpay := hentry.skip (n := 8) (by omega)
  have hrest := h.skip (n := 8) (by omega)
  rw [height, height] at hpay hrest
  exact ⟨hentry.skip (n := 4) (by omega), hpay, hrest, hnext⟩

/-- The header of an entry at two places. -/
structure HeadsTwin (m₁ m₂ : ByteMem) (sec₁ sec₂ : Section) (p₁ p₂ : UInt64) : Prop where
  length_eq : (headAt m₂ p₂).length = (headAt m₁ p₁).length
  stop₁ : (headAt m₁ p₁).stop.toNat = p₁.toNat + 4 + (headAt m₁ p₁).length.toNat
  stop₂ : (headAt m₂ p₂).stop.toNat = p₂.toNat + 4 + (headAt m₁ p₁).length.toNat
  stop_sub : (headAt m₁ p₁).stop - (headAt m₂ p₂).stop = sec₁.data - sec₂.data
  fits_iff : (headAt m₁ p₁).FitsIn sec₁ ↔ (headAt m₂ p₂).FitsIn sec₂

lemma headsTwin (hs : SameBytes m₁ m₂ sec₁ sec₂) (h : Twin m₁ m₂ p₁ sec₁.stop p₂ sec₂.stop)
    (hp : p₁.toNat + 4 ≤ sec₁.stop.toNat) : HeadsTwin m₁ m₂ sec₁ sec₂ p₁ p₂ := by
  have hle₁ := hs.mapped₁.stop_le
  have hle₂ := hs.mapped₂.stop_le
  have hleft := h.left_eq
  have hlen : (headAt m₂ p₂).length = (headAt m₁ p₁).length := (u32At_eq h hp).symm
  have hstop₁ : (headAt m₁ p₁).stop.toNat = p₁.toNat + 4 + (headAt m₁ p₁).length.toNat :=
    EntryHead.stop_toNat (by rw [headAt_start]; omega)
  have hstop₂ : (headAt m₂ p₂).stop.toNat = p₂.toNat + 4 + (headAt m₁ p₁).length.toNat := by
    rw [← hlen]
    exact EntryHead.stop_toNat (by rw [headAt_start]; omega)
  refine ⟨hlen, hstop₁, hstop₂, ?_, ?_⟩
  · have hoff := hs.offset_eq h
    rw [EntryHead.stop, EntryHead.stop, hlen, headAt_start, headAt_start]
    grind
  · rw [EntryHead.FitsIn, EntryHead.FitsIn, hlen, UInt64.le_iff_toNat_le, UInt64.le_iff_toNat_le,
      hstop₁, hstop₂]
    refine and_congr_right fun _ => ?_
    omega

/-- The section behind an entry that fits. -/
lemma HeadsTwin.next (hh : HeadsTwin m₁ m₂ sec₁ sec₂ p₁ p₂)
    (h : Twin m₁ m₂ p₁ sec₁.stop p₂ sec₂.stop) (hfits : (headAt m₁ p₁).FitsIn sec₁) :
    Twin m₁ m₂ (headAt m₁ p₁).stop sec₁.stop (headAt m₂ p₂).stop sec₂.stop := by
  have hfit := hfits.2
  rw [UInt64.le_iff_toNat_le, hh.stop₁] at hfit
  have hnext := h.skip (n := 4 + (headAt m₁ p₁).length.toNat) (by omega)
  have hend (p : UInt64) : p + UInt64.ofNat (4 + (headAt m₁ p₁).length.toNat) =
      p + 4 + (headAt m₁ p₁).length.toUInt64 := by
    have hlt := (headAt m₁ p₁).length.toNat_lt
    have hofNat : UInt64.ofNat (headAt m₁ p₁).length.toNat =
        (headAt m₁ p₁).length.toUInt64 := by
      apply UInt64.toNat_inj.mp
      rw [UInt64.toNat_ofNat', UInt32.toNat_toUInt64]
      omega
    rw [UInt64.ofNat_add, hofNat, ← UInt64.add_assoc]
    rfl
  rw [hend, hend] at hnext
  rw [EntryHead.stop, EntryHead.stop, hh.length_eq]
  exact hnext

/-- The value of an entry that fits, by its id. -/
lemma val_parseEntry_of_fits {m : ByteMem} {sec : Section} {ptr : UInt64} (isEh : Bool)
    (cies : CieVector) (h : (headAt m ptr).FitsIn sec) :
    (parseEntry sec isEh cies ptr).val m =
      if (headAt m ptr).isCie isEh then
        ((parseCie sec ptr (ptr + 4 + 4) (headAt m ptr).stop isEh).val m).map
          fun cie => some (.cie cie, (headAt m ptr).stop)
      else
        ((parseFde sec ptr (headAt m ptr).id (ptr + 4 + 4) (headAt m ptr).stop isEh cies).val
          m).map fun fde => some (.fde fde, (headAt m ptr).stop) := by
  rw [val_parseEntry, if_neg h.1, if_neg (UInt64.not_lt.mpr h.2)]

/-- Two entries that fit, whose ids are the same and whose records decode alike. -/
lemma parseEntry_sim_of_fits {cies₁ cies₂ : CieVector}
    (hfits₁ : (headAt m₁ p₁).FitsIn sec₁) (hfits₂ : (headAt m₂ p₂).FitsIn sec₂)
    (hid : (headAt m₂ p₂).id = (headAt m₁ p₁).id)
    (hnext : Twin m₁ m₂ (headAt m₁ p₁).stop sec₁.stop (headAt m₂ p₂).stop sec₂.stop)
    (hcie : (headAt m₁ p₁).isCie isEh = true → Sim m₁ m₂ (CieTwin m₁ m₂)
      (parseCie sec₁ p₁ (p₁ + 4 + 4) (headAt m₁ p₁).stop isEh)
      (parseCie sec₂ p₂ (p₂ + 4 + 4) (headAt m₂ p₂).stop isEh))
    (hfde : (headAt m₁ p₁).isCie isEh = false →
      Sim m₁ m₂ (FdeAlike cies₁ (sec₁.data - sec₂.data))
        (parseFde sec₁ p₁ (headAt m₁ p₁).id (p₁ + 4 + 4) (headAt m₁ p₁).stop isEh cies₁)
        (parseFde sec₂ p₂ (headAt m₁ p₁).id (p₂ + 4 + 4) (headAt m₂ p₂).stop isEh cies₂)) :
    Sim m₁ m₂ (EntryTwin m₁ m₂ sec₁ sec₂ cies₁) (parseEntry sec₁ isEh cies₁ p₁)
      (parseEntry sec₂ isEh cies₂ p₂) := by
  have hval₁ := val_parseEntry_of_fits isEh cies₁ hfits₁
  have hval₂ := val_parseEntry_of_fits isEh cies₂ hfits₂
  have hkind : (headAt m₂ p₂).isCie isEh = (headAt m₁ p₁).isCie isEh := by
    rw [EntryHead.isCie, EntryHead.isCie, hid]
  rw [hkind, hid] at hval₂
  cases hk : (headAt m₁ p₁).isCie isEh with
  | true =>
      rw [hk, if_pos rfl] at hval₁ hval₂
      cases hcie hk with
      | error h₁ h₂ =>
          rw [h₁] at hval₁
          rw [h₂] at hval₂
          exact .error hval₁ hval₂
      | ok h₁ h₂ hc =>
          rw [h₁] at hval₁
          rw [h₂] at hval₂
          exact .ok hval₁ hval₂ (.cie hc hnext)
  | false =>
      rw [hk, if_neg Bool.false_ne_true] at hval₁ hval₂
      cases hfde hk with
      | error h₁ h₂ =>
          rw [h₁] at hval₁
          rw [h₂] at hval₂
          exact .error hval₁ hval₂
      | ok h₁ h₂ hf =>
          rw [h₁] at hval₁
          rw [h₂] at hval₂
          exact .ok hval₁ hval₂ (.fde hf hnext)

lemma EntryHead.wraps_iff_cie {m : ByteMem} {sec : Section} {cies : CieVector} {h : EntryHead}
    (hfits : h.FitsIn sec) (hlong : 4 ≤ h.length.toNat) (hk : h.isCie isEh = true) :
    h.Wraps m sec isEh cies ↔ CieWraps m sec isEh h.start (h.start + 4 + 4) h.stop := by
  rw [EntryHead.Wraps, hk]
  simp [hfits, hlong]

lemma EntryHead.wraps_iff_fde {m : ByteMem} {sec : Section} {cies : CieVector} {h : EntryHead}
    (hfits : h.FitsIn sec) (hlong : 4 ≤ h.length.toNat) (hk : h.isCie isEh = false) :
    h.Wraps m sec isEh cies ↔ FdeWraps m sec isEh cies h.id (h.start + 4 + 4) h.stop := by
  rw [EntryHead.Wraps, hk]
  simp [hfits, hlong]

/-- The parts of a long entry that fits. -/
lemma HeadsTwin.parts (hh : HeadsTwin m₁ m₂ sec₁ sec₂ p₁ p₂)
    (h : Twin m₁ m₂ p₁ sec₁.stop p₂ sec₂.stop) (hfits : (headAt m₁ p₁).FitsIn sec₁)
    (hlong : 4 ≤ (headAt m₁ p₁).length.toNat) :
    PartsTwin m₁ m₂ p₁ (headAt m₁ p₁).stop sec₁.stop p₂ (headAt m₂ p₂).stop sec₂.stop := by
  have hfit := hfits.2
  rw [UInt64.le_iff_toNat_le, hh.stop₁] at hfit
  have hparts := partsTwin_of_length h hlong hfit
  rw [EntryHead.stop, EntryHead.stop, hh.length_eq]
  exact hparts

/-- The id of an entry, where it lies in the section. -/
lemma headAt_id_eq (h : Twin m₁ m₂ p₁ e₁ p₂ e₂) (hp : p₁.toNat + 8 ≤ e₁.toNat) :
    (headAt m₂ p₂).id = (headAt m₁ p₁).id := by
  have hlt := e₁.toNat_lt
  have hskip : Twin m₁ m₂ (p₁ + 4) e₁ (p₂ + 4) e₂ := h.skip (n := 4) (by omega)
  refine (u32At_eq hskip ?_).symm
  rw [UInt64.toNat_add_of_lt (by simp; omega)]
  simp only [UInt64.reduceToNat]
  omega

/-- Behind the end of a short entry, where its section goes on. -/
lemma HeadsTwin.past (hh : HeadsTwin m₁ m₂ sec₁ sec₂ p₁ p₂)
    (h : Twin m₁ m₂ p₁ sec₁.stop p₂ sec₂.stop) (he₁ : sec₁.stop.toNat ≤ 2 ^ 63)
    (he₂ : sec₂.stop.toNat ≤ 2 ^ 63) (hshort : (headAt m₁ p₁).length.toNat < 4)
    (hroom : p₁.toNat + 24 ≤ sec₁.stop.toNat) :
    Past m₁ m₂ 16 (p₁ + 4 + 4) (headAt m₁ p₁).stop (p₂ + 4 + 4) (headAt m₂ p₂).stop := by
  have hleft := h.left_eq
  have height (p : UInt64) : p + UInt64.ofNat 8 = p + 4 + 4 := by
    rw [UInt64.add_assoc]
    rfl
  have h₁ : (p₁ + 4 + 4).toNat = p₁.toNat + 8 := by
    rw [← height, UInt64.toNat_add_ofNat (by omega)]
  have h₂ : (p₂ + 4 + 4).toNat = p₂.toNat + 8 := by
    rw [← height, UInt64.toNat_add_ofNat (by omega)]
  have hstop₁ := hh.stop₁
  have hstop₂ := hh.stop₂
  have hskip := h.skip (n := 8) (by omega)
  rw [height, height] at hskip
  refine ⟨?_, ?_, ?_, by omega, by omega, hskip.peek_eq (by omega)⟩
  · rw [UInt64.lt_iff_toNat_lt]
    omega
  · rw [UInt64.lt_iff_toNat_lt]
    omega
  · rw [EntryHead.stop, EntryHead.stop, hh.length_eq, headAt_start, headAt_start]
    grind

/-- A CIE whose payload is behind its end is turned down. -/
lemma parseCie_of_le {m : ByteMem} {sec : Section} {start payload stop : UInt64}
    (h : stop ≤ payload) : (parseCie sec start payload stop isEh).val m = .error .badFormat := by
  refine val_bind_error ?_ _
  rw [parseCieHeader_eq, if_pos h, val_fail]

/-- The id of a short entry reaches behind its end. -/
lemma stop_le_payload {m : ByteMem} {p : UInt64} (hp : p.toNat + 8 < 2 ^ 64)
    (hstop : (headAt m p).stop.toNat = p.toNat + 4 + (headAt m p).length.toNat)
    (hshort : (headAt m p).length.toNat < 4) : (headAt m p).stop ≤ p + 4 + 4 := by
  have h4 : (p + 4).toNat = p.toNat + 4 := UInt64.toNat_add_of_lt (by simp; omega)
  rw [UInt64.le_iff_toNat_le, UInt64.toNat_add_of_lt (by rw [h4]; simp; omega), h4, hstop]
  simp only [UInt64.reduceToNat]
  omega

/-- One entry at two places, where it is read inside the section and its augmentation length wraps
at both places or at none. -/
theorem parseEntry_sim {cies₁ cies₂ : CieVector} (hs : SameBytes m₁ m₂ sec₁ sec₂)
    (hcies : CiesTwin m₁ m₂ cies₁ cies₂) (h : Twin m₁ m₂ p₁ sec₁.stop p₂ sec₂.stop)
    (hp : p₁.toNat + 4 ≤ sec₁.stop.toNat) (hend : ¬ (headAt m₁ p₁).ShortAtEnd sec₁)
    (hwraps : (headAt m₁ p₁).Wraps m₁ sec₁ isEh cies₁ ↔
      (headAt m₂ p₂).Wraps m₂ sec₂ isEh cies₂) :
    Sim m₁ m₂ (EntryTwin m₁ m₂ sec₁ sec₂ cies₁) (parseEntry sec₁ isEh cies₁ p₁)
      (parseEntry sec₂ isEh cies₂ p₂) := by
  have hle₁ := hs.mapped₁.stop_le
  have hle₂ := hs.mapped₂.stop_le
  have hleft := h.left_eq
  have hh := headsTwin hs h hp
  by_cases hfits₁ : (headAt m₁ p₁).FitsIn sec₁
  swap
  · -- the terminator, or an entry that does not fit
    have hfits₂ : ¬ (headAt m₂ p₂).FitsIn sec₂ := fun hf => hfits₁ (hh.fits_iff.mpr hf)
    by_cases h0 : (headAt m₁ p₁).length = 0
    · refine .ok (a := none) (b := none) ?_ ?_ .terminator
      · rw [val_parseEntry, if_pos h0]
      · rw [val_parseEntry, if_pos (hh.length_eq.trans h0)]
    · have h0₂ : (headAt m₂ p₂).length ≠ 0 := by rwa [hh.length_eq]
      refine .error (e := .badFormat) ?_ ?_
      · rw [val_parseEntry, if_neg h0,
          if_pos (UInt64.not_le.mp fun hle => hfits₁ ⟨h0, hle⟩)]
      · rw [val_parseEntry, if_neg h0₂,
          if_pos (UInt64.not_le.mp fun hle => hfits₂ ⟨h0₂, hle⟩)]
  have hfits₂ := hh.fits_iff.mp hfits₁
  have hnext := hh.next h hfits₁
  have hfit₁ := hfits₁.2
  rw [UInt64.le_iff_toNat_le, hh.stop₁] at hfit₁
  have hfit₂ := hfits₂.2
  rw [UInt64.le_iff_toNat_le] at hfit₂
  have hstop₂ := hh.stop₂
  by_cases hlong : 4 ≤ (headAt m₁ p₁).length.toNat
  · have hparts := hh.parts h hfits₁ hlong
    have hlong₂ : 4 ≤ (headAt m₂ p₂).length.toNat := by rwa [hh.length_eq]
    have hid := headAt_id_eq h (by omega)
    have hstop₁ : (headAt m₁ p₁).stop.toNat ≤ 2 ^ 63 := by
      rw [hh.stop₁]
      omega
    have hkind : (headAt m₂ p₂).isCie isEh = (headAt m₁ p₁).isCie isEh := by
      rw [EntryHead.isCie, EntryHead.isCie, hid]
    refine parseEntry_sim_of_fits hfits₁ hfits₂ hid hnext (fun hk => ?_) fun hk => ?_
    · rw [EntryHead.wraps_iff_cie hfits₁ hlong hk,
        EntryHead.wraps_iff_cie hfits₂ hlong₂ (hkind.trans hk)] at hwraps
      exact parseCie_sim hparts.payload hstop₁ (by omega) (hs.offset_eq h) hwraps
    · rw [EntryHead.wraps_iff_fde hfits₁ hlong hk,
        EntryHead.wraps_iff_fde hfits₂ hlong₂ (hkind.trans hk), hid] at hwraps
      exact parseFde_sim hcies hparts.payload hstop₁ (by omega) (hs.offset_eq h)
        (hs.offset_eq hparts.rest) hh.stop_sub hwraps
  · have hroom : p₁.toNat + 24 ≤ sec₁.stop.toNat := by
      by_contra hroom
      exact hend ⟨⟨hfits₁, UInt32.lt_iff_toNat_lt.mpr (Nat.not_le.mp hlong)⟩,
        Nat.not_le.mp hroom⟩
    have hshort := Nat.not_le.mp hlong
    have hshort₂ : (headAt m₂ p₂).length.toNat < 4 := by rwa [hh.length_eq]
    have hskip : Twin m₁ m₂ (p₁ + 4 + 4) sec₁.stop (p₂ + 4 + 4) sec₂.stop := by
      have hskip := h.skip (n := 8) (by omega)
      have height (p : UInt64) : p + UInt64.ofNat 8 = p + 4 + 4 := by
        rw [UInt64.add_assoc]
        rfl
      rwa [height, height] at hskip
    refine parseEntry_sim_of_fits hfits₁ hfits₂ (headAt_id_eq h (by omega)) hnext
      (fun _ => ?_) fun _ => ?_
    · exact .error (parseCie_of_le (stop_le_payload (by omega) hh.stop₁ hshort))
        (parseCie_of_le (stop_le_payload (by omega) (hh.length_eq ▸ hh.stop₂) hshort₂))
    · exact parseFde_past hcies (hh.past h hle₁ hle₂ hshort hroom) (hs.offset_eq h)
        (hs.offset_eq hskip) hh.stop_sub

/-- An entry whose augmentation length wraps at one place only is turned down at the other one. -/
theorem parseEntry_split {cies₁ cies₂ : CieVector} (hs : SameBytes m₁ m₂ sec₁ sec₂)
    (hcies : CiesTwin m₁ m₂ cies₁ cies₂) (h : Twin m₁ m₂ p₁ sec₁.stop p₂ sec₂.stop)
    (hp : p₁.toNat + 4 ≤ sec₁.stop.toNat)
    (hwraps : ¬ ((headAt m₁ p₁).Wraps m₁ sec₁ isEh cies₁ ↔
      (headAt m₂ p₂).Wraps m₂ sec₂ isEh cies₂)) :
    (parseEntry sec₁ isEh cies₁ p₁).val m₁ = .error .badFormat ∨
      (parseEntry sec₂ isEh cies₂ p₂).val m₂ = .error .badFormat := by
  have hle₁ := hs.mapped₁.stop_le
  have hle₂ := hs.mapped₂.stop_le
  have hh := headsTwin hs h hp
  have hlong_iff : (headAt m₁ p₁).FitsIn sec₁ ∧ 4 ≤ (headAt m₁ p₁).length.toNat ↔
      (headAt m₂ p₂).FitsIn sec₂ ∧ 4 ≤ (headAt m₂ p₂).length.toNat := by
    rw [hh.fits_iff, hh.length_eq]
  by_cases hlong : (headAt m₁ p₁).FitsIn sec₁ ∧ 4 ≤ (headAt m₁ p₁).length.toNat
  swap
  · exact absurd (iff_of_false (fun hw => hlong hw.1) fun hw => hlong (hlong_iff.mpr hw.1)) hwraps
  obtain ⟨hfits₂, hlong₂⟩ := hlong_iff.mp hlong
  obtain ⟨hfits₁, hlong₁⟩ := hlong
  have hfit₁ := hfits₁.2
  have hfit₂ := hfits₂.2
  rw [UInt64.le_iff_toNat_le] at hfit₁ hfit₂
  have hstop₁ := hh.stop₁
  have hparts := hh.parts h hfits₁ hlong₁
  have hid := headAt_id_eq h (by omega)
  have hkind : (headAt m₂ p₂).isCie isEh = (headAt m₁ p₁).isCie isEh := by
    rw [EntryHead.isCie, EntryHead.isCie, hid]
  rw [val_parseEntry_of_fits _ _ hfits₁, val_parseEntry_of_fits _ _ hfits₂, hkind]
  cases hk : (headAt m₁ p₁).isCie isEh with
  | true =>
      rw [EntryHead.wraps_iff_cie hfits₁ hlong₁ hk,
        EntryHead.wraps_iff_cie hfits₂ hlong₂ (hkind.trans hk)] at hwraps
      rw [if_pos rfl, if_pos rfl]
      rcases parseCie_split hparts.payload (by omega) (by omega) (hs.offset_eq h) hwraps with
        he | he
      · exact .inl (by rw [he]; rfl)
      · exact .inr (by rw [he]; rfl)
  | false =>
      rw [EntryHead.wraps_iff_fde hfits₁ hlong₁ hk,
        EntryHead.wraps_iff_fde hfits₂ hlong₂ (hkind.trans hk), hid] at hwraps
      rw [if_neg Bool.false_ne_true, if_neg Bool.false_ne_true, hid]
      rcases parseFde_split p₁ p₂ hcies hparts.payload (by omega) (by omega)
        (hs.offset_eq hparts.rest) hwraps with he | he
      · exact .inl (by rw [he]; rfl)
      · exact .inr (by rw [he]; rfl)

/-- A short entry that is taken is an FDE. -/
lemma parseEntry_short_ok {m : ByteMem} {sec : Section} {cies : CieVector} {p : UInt64}
    {r : Option (EntryRecord × UInt64)} (hm : sec.Mapped) (hp : p.toNat + 4 ≤ sec.stop.toNat)
    (h : (headAt m p).Short sec) (hval : (parseEntry sec isEh cies p).val m = .ok r) :
    ∃ fde, r = some (.fde fde, (headAt m p).stop) := by
  have hle := hm.stop_le
  have hshort : (headAt m p).length.toNat < 4 := UInt32.lt_iff_toNat_lt.mp h.2
  have hstop : (headAt m p).stop.toNat = p.toNat + 4 + (headAt m p).length.toNat :=
    EntryHead.stop_toNat (by rw [headAt_start]; omega)
  rw [val_parseEntry_of_fits _ _ h.1] at hval
  cases hk : (headAt m p).isCie isEh with
  | true =>
      rw [hk, if_pos rfl, parseCie_of_le (stop_le_payload (by omega) hstop hshort)] at hval
      cases hval
  | false =>
      rw [hk, if_neg Bool.false_ne_true] at hval
      cases hx : (parseFde sec p (headAt m p).id (p + 4 + 4) (headAt m p).stop isEh cies).val m with
      | error st =>
          rw [hx] at hval
          cases hval
      | ok fde =>
          rw [hx] at hval
          cases hval
          exact ⟨fde, rfl⟩

end Dwunw
