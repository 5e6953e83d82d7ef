import Dwunw.Cfi.Walk

/-!
Which bytes the parser reads.

While it parses one entry, the parser reads through the cursor of that entry; and for an FDE
it looks at the first letter of the augmentation string of the parent CIE.

* `parseCie_within`, `parseFde_within`: between the payload and the end of the entry, as long
  as the payload is not past that end.
* `EntryHead.Short`: an entry that declares fewer bytes than its id field takes.  There the
  payload starts past the end, and the id itself is read past it.
* `AsksLetter`: an FDE that gets to the letter of its parent.
* `cfiBuild_reads_in_bounds_iff`: all reads of a build stay in their section and in their
  entry exactly when every entry that the parser comes to keeps them there (`KeepsInside`).
-/

namespace Dwunw

open Loop Traced

variable {m : ByteMem} {sec : Section} {isEh : Bool}

/-! ### The parts of a record -/

/-- `strnlen` reads the bytes it is allowed to look at. -/
lemma strnlen_within {S : Via × UInt64 → Prop} {p : UInt64} {n : ℕ}
    (hS : ∀ i < n, S (.entry, p + UInt64.ofNat i)) :
    Within m S (fun len => len ≤ n) (strnlen p n) := by
  induction n generalizing p with
  | zero => exact .pure le_rfl
  | succ n ih =>
      have h0 : S (.entry, p) := by simpa using hS 0 (by omega)
      have hrest : ∀ i < n, S (.entry, p + 1 + UInt64.ofNat i) := by
        intro i hi
        rw [← UInt64.add_ofNat_succ]
        exact hS (i + 1) (by omega)
      refine (Within.byte h0 trivial : Within m S (fun _ => True) _).bind fun c _ => ?_
      by_cases hc : c = 0
      · rw [if_pos hc]
        exact .pure (by omega)
      · rw [if_neg hc]
        exact (ih hrest).bind fun len hlen => .pure (by omega)

/-- An augmentation string that starts in the entry and leaves room for its terminator. -/
def AugmentationIn (lo stop : UInt64) (cie : CieRecord) : Prop :=
  lo ≤ cie.augmentation ∧ cie.augmentation.toNat + cie.augmentationLen.toNat < stop.toNat

/-- The address size of a CIE lies in the entry. -/
lemma readAddressSize_within {lo stop c : UInt64} {cie : CieRecord}
    (hstop : stop.toNat ≤ 2 ^ 63) (hcie : AugmentationIn lo stop cie) (hlo : lo ≤ c)
    (hle : c ≤ stop) :
    Within m (InEntry lo stop) (fun r => AugmentationIn lo stop r.1 ∧ lo ≤ r.2 ∧ r.2 ≤ stop)
      (readAddressSize isEh stop cie c) := by
  rw [readAddressSize]
  by_cases hv : !isEh ∧ 3 ≤ cie.version
  swap
  · rw [if_neg hv]
    exact .pure ⟨hcie, hlo, hle⟩
  rw [if_pos hv]
  by_cases hend : stop < c + 2
  · rw [if_pos hend]
    exact .fail _
  rw [if_neg hend]
  rw [UInt64.le_iff_toNat_le] at hle
  have htwo : (c + 2).toNat = c.toNat + 2 := UInt64.toNat_add_of_lt (by simp; omega)
  rw [UInt64.lt_iff_toNat_lt, htwo] at hend
  have hlt : c < stop := by
    rw [UInt64.lt_iff_toNat_lt]
    omega
  refine (Within.byte (Q := fun _ => True) ⟨rfl, hlo, hlt⟩ trivial).bind
    fun b _ => .pure ⟨hcie, ?_, ?_⟩
  · show lo ≤ c + 2
    rw [UInt64.le_iff_toNat_le] at hlo ⊢
    omega
  · show c + 2 ≤ stop
    rw [UInt64.le_iff_toNat_le]
    omega

/-- The header of a CIE is read between the payload and the end of the entry. -/
lemma parseCieHeader_within {start payload stop : UInt64} (hstop : stop.toNat ≤ 2 ^ 63) :
    Within m (InEntry payload stop)
      (fun r => AugmentationIn payload stop r.1 ∧ payload ≤ r.2 ∧ r.2 ≤ stop)
      (parseCieHeader sec start payload stop isEh) := by
  rw [parseCieHeader_eq]
  by_cases hp : stop ≤ payload
  · rw [if_pos hp]
    exact .fail _
  rw [if_neg hp]
  rw [UInt64.le_iff_toNat_le] at hp
  have haug : (payload + 1).toNat = payload.toNat + 1 :=
    UInt64.toNat_add_of_lt (by simp; omega)
  have haugle : payload + 1 ≤ stop := by
    rw [UInt64.le_iff_toNat_le]
    omega
  have hleft : (stop - (payload + 1)).toNat = stop.toNat - (payload.toNat + 1) := by
    rw [UInt64.toNat_sub_of_le _ _ haugle, haug]
  have hlt : payload < stop := by
    rw [UInt64.lt_iff_toNat_lt]
    omega
  have hstr : ∀ i < (stop - (payload + 1)).toNat,
      InEntry payload stop (.entry, payload + 1 + UInt64.ofNat i) := by
    intro i hi
    rw [hleft] at hi
    refine ⟨rfl, ?_, ?_⟩
    · rw [UInt64.le_iff_toNat_le, UInt64.toNat_add_ofNat (by omega)]
      omega
    · rw [UInt64.lt_iff_toNat_lt, UInt64.toNat_add_ofNat (by omega)]
      omega
  refine (Within.byte (Q := fun _ => True) ⟨rfl, UInt64.le_refl _, hlt⟩ trivial).bind
    fun version _ => ?_
  refine (strnlen_within hstr).bind fun augLen hlen => ?_
  rw [hleft] at hlen
  by_cases ha : stop ≤ payload + 1 + UInt64.ofNat augLen
  · rw [if_pos ha]
    exact .fail _
  rw [if_neg ha]
  rw [UInt64.le_iff_toNat_le, UInt64.toNat_add_ofNat (by omega)] at ha
  -- the string and its terminator lie in front of the end
  have hcur : payload ≤ payload + 1 + (UInt64.ofNat augLen + 1) := by
    have hone : UInt64.ofNat augLen + 1 = UInt64.ofNat (augLen + 1) := by
      rw [UInt64.ofNat_add]
      rfl
    rw [UInt64.le_iff_toNat_le, hone, UInt64.toNat_add_ofNat (by omega)]
    omega
  have hin (c : CieRecord) (h1 : c.augmentation = payload + 1)
      (h2 : c.augmentationLen = UInt64.ofNat augLen) : AugmentationIn payload stop c := by
    refine ⟨?_, ?_⟩
    · rw [h1, UInt64.le_iff_toNat_le]
      omega
    · rw [h1, h2, UInt64.toNat_ofNat_of_lt' (by show _ < 2 ^ 64; omega)]
      omega
  refine (readUleb_within.mono (fun _ h => h.mono hcur (UInt64.le_refl _)) fun _ h => h).bind
    fun r1 h1 => ?_
  have hle1 := UInt64.le_trans hcur (UInt64.le_of_lt h1.1)
  refine (readSleb_within.mono (fun _ h => h.mono hle1 (UInt64.le_refl _)) fun _ h => h).bind
    fun r2 h2 => ?_
  have hle2 := UInt64.le_trans hle1 (UInt64.le_of_lt h2.1)
  refine (readUleb_within.mono (fun _ h => h.mono hle2 (UInt64.le_refl _)) fun _ h => h).bind
    fun r3 h3 => ?_
  have hle3 := UInt64.le_trans hle2 (UInt64.le_of_lt h3.1)
  exact readAddressSize_within hstop (hin _ rfl rfl) hle3 h3.2

/-- The augmentation length lies in the entry, and so does the end of the data, as far as the
sum does not wrap. -/
lemma readAugmentationSize_within {payload stop : UInt64} :
    Within m (InEntry payload stop) (fun r => payload ≤ r.1 ∧ r.1 ≤ stop ∧ r.2 ≤ stop)
      (readAugmentationSize payload stop) := by
  refine readUleb_within.bind fun r hr => ?_
  dsimp only
  by_cases h : stop < r.2 + r.1
  · rw [if_pos h]
    exact .fail _
  · rw [if_neg h]
    exact .pure ⟨UInt64.le_of_lt hr.1, hr.2, UInt64.not_lt.mp h⟩

/-- The loop over the augmentation letters reads letters, and data in front of the end of the
data. -/
lemma augmentationLoop_within {lo stop augmentation augEnd i payload : UInt64} {n : ℕ}
    {encoding : UInt8} (hi : lo.toNat ≤ augmentation.toNat)
    (hn : augmentation.toNat + i.toNat + n ≤ stop.toNat) (hlo : lo ≤ payload)
    (hend : augEnd ≤ stop) :
    Within m (InEntry lo stop) (fun _ => True)
      (augmentationLoop augmentation augEnd n i payload encoding) := by
  have hlt := stop.toNat_lt
  induction n generalizing i payload encoding with
  | zero => exact .pure trivial
  | succ n ih =>
      have hsum : (augmentation + i).toNat = augmentation.toNat + i.toNat :=
        UInt64.toNat_add_of_lt (by omega)
      have hone : (i + 1).toNat = i.toNat + 1 := UInt64.toNat_add_of_lt (by simp; omega)
      have hle : lo ≤ augmentation + i := by
        rw [UInt64.le_iff_toNat_le]
        omega
      have hlt : augmentation + i < stop := by
        rw [UInt64.lt_iff_toNat_lt]
        omega
      refine (Within.byte (Q := fun _ => True) ⟨rfl, hle, hlt⟩ trivial).bind fun c _ => ?_
      by_cases hc : c = 0x52
      · rw [if_pos hc]
        by_cases hp : augEnd ≤ payload
        · rw [if_pos hp]
          exact .fail _
        · rw [if_neg hp]
          have hpe : payload < augEnd := by grind
          refine (Within.byte (Q := fun _ => True)
            ⟨rfl, hlo, UInt64.lt_of_lt_of_le hpe hend⟩ trivial).bind fun b _ => ?_
          exact ih (by omega) (by grind)
      · rw [if_neg hc]
        exact .pure trivial

/-- The first letter of the augmentation is looked at when there is one. -/
lemma startsWithZ_within {S : Via × UInt64 → Prop} {via : Via} {cie : CieRecord}
    (hS : cie.augmentationLen ≠ 0 → S (via, cie.augmentation)) :
    Within m S (fun z => z = true → cie.augmentationLen ≠ 0) (startsWithZ via cie) := by
  rw [startsWithZ]
  by_cases h : cie.augmentationLen = 0
  · rw [if_pos h]
    exact .pure (by simp)
  · rw [if_neg h]
    exact (Within.byte (Q := fun _ => True) (hS h) trivial).bind fun _ _ => .pure fun _ => h

/-- A CIE is read between its payload and its end. -/
theorem parseCie_within {start payload stop : UInt64} (hstop : stop.toNat ≤ 2 ^ 63) :
    Within m (InEntry payload stop) (AugmentationIn payload stop)
      (parseCie sec start payload stop isEh) := by
  refine (parseCieHeader_within hstop).bind fun r ⟨haug, hlo, hhi⟩ => ?_
  dsimp only
  have hz : r.1.augmentationLen ≠ 0 → InEntry payload stop (.entry, r.1.augmentation) := by
    intro h0
    have hpos : r.1.augmentationLen.toNat ≠ 0 := fun h => h0 (UInt64.toNat_inj.mp h)
    refine ⟨rfl, haug.1, ?_⟩
    have := haug.2
    rw [UInt64.lt_iff_toNat_lt]
    dsimp only
    omega
  refine (startsWithZ_within hz).bind fun z hz => ?_
  by_cases hzt : z = true
  · rw [if_pos hzt]
    have hpos : r.1.augmentationLen.toNat ≠ 0 := fun h => hz hzt (UInt64.toNat_inj.mp h)
    have haug1 := haug.1
    have haug2 := haug.2
    rw [UInt64.le_iff_toNat_le] at haug1
    refine (readAugmentationSize_within.mono (fun _ h => h.mono hlo (UInt64.le_refl _))
      fun _ h => h).bind fun r' hr' => ?_
    refine (augmentationLoop_within haug1 ?_ (UInt64.le_trans hlo hr'.1) hr'.2.2).bind
      fun _ _ => .pure haug
    have h1 : (1 : UInt64).toNat = 1 := rfl
    omega
  · rw [if_neg hzt]
    exact .pure haug

/-- The two addresses of an FDE are read between the payload and the end of the entry. -/
lemma parseFdeRange_within {encoding : UInt8} {payload stop : UInt64} (hp : payload ≤ stop) :
    Within m (InEntry payload stop) (fun r => payload ≤ r.2.2 ∧ r.2.2 ≤ stop)
      (parseFdeRange sec encoding payload stop) := by
  refine (readEncodedPointer_within hp).bind fun r hr => ?_
  have hle := UInt64.le_of_lt hr.1
  refine ((readEncodedPointer_within hr.2).mono
    (fun _ h => h.mono hle (UInt64.le_refl _)) fun _ h => h).bind fun r' hr' => ?_
  exact .pure ⟨UInt64.le_trans hle (UInt64.le_of_lt hr'.1), hr'.2⟩

/-- The encoding `parse_fde` takes from a CIE. -/
def CieRecord.fdeEncoding (cie : CieRecord) : UInt8 :=
  if cie.ptrEncoding ≠ 0 then cie.ptrEncoding else dwEhPeAbsptr

/-- An FDE of this CIE that reads its addresses asks for the first letter of the augmentation of
the CIE. -/
def AsksLetter (m : ByteMem) (sec : Section) (payload stop : UInt64) (cie : CieRecord) : Prop :=
  cie.augmentationLen ≠ 0 ∧
    ((parseFdeRange sec cie.fdeEncoding payload stop).val m).toOption.isSome = true

instance (m : ByteMem) (sec : Section) (payload stop : UInt64) (cie : CieRecord) :
    Decidable (AsksLetter m sec payload stop cie) := inferInstanceAs (Decidable (_ ∧ _))

/-- An FDE whose payload is not past its end is read between the two, apart from the first
augmentation letter of its parent. -/
theorem parseFde_within {start payload stop : UInt64} {id : UInt32} {cies : CieVector}
    (hp : payload ≤ stop) :
    Within m
      (fun p => InEntry payload stop p ∨
        ∃ r ∈ findCie cies (fdeCieOffset sec id payload isEh),
          AsksLetter m sec payload stop r.2 ∧ p.2 = r.2.augmentation)
      (fun _ => True) (parseFde sec start id payload stop isEh cies) := by
  rw [parseFde]
  cases hf : findCie cies (fdeCieOffset sec id payload isEh) with
  | none => exact .fail _
  | some r =>
      obtain ⟨ptr, cie⟩ := r
      dsimp only
      refine (((parseFdeRange_within hp).with_val).mono (fun _ h => Or.inl h) fun _ h => h).bind
        fun r hr => ?_
      obtain ⟨hr, hval⟩ := hr
      have hletter (h0 : cie.augmentationLen ≠ 0) : AsksLetter m sec payload stop cie := by
        refine ⟨h0, ?_⟩
        rw [CieRecord.fdeEncoding, hval]
        rfl
      refine (startsWithZ_within fun h0 => .inr ⟨_, rfl, hletter h0, rfl⟩).bind fun z _ => ?_
      by_cases hz : z = true
      · rw [if_pos hz]
        exact (readAugmentationSize_within.mono
          (fun _ h => Or.inl (h.mono hr.1 (UInt64.le_refl _))) fun _ h => h).bind
            fun _ _ => .pure trivial
      · rw [if_neg hz]
        exact .pure trivial

/-- The letter is read. -/
theorem parseFde_letter {start payload stop : UInt64} {id : UInt32} {cies : CieVector}
    {r : CiePtr × CieRecord} (hr : r ∈ findCie cies (fdeCieOffset sec id payload isEh))
    (h : AsksLetter m sec payload stop r.2) :
    (.parent, r.2.augmentation) ∈ (parseFde sec start id payload stop isEh cies).accesses m := by
  obtain ⟨ptr, cie⟩ := r
  obtain ⟨h0, hrange⟩ := h
  rw [parseFde, Option.mem_def.mp hr]
  cases hval : (parseFdeRange sec cie.fdeEncoding payload stop).val m with
  | error st =>
      rw [hval] at hrange
      cases hrange
  | ok range =>
      refine mem_accesses_bind_right hval (mem_accesses_bind_left ?_ _)
      rw [startsWithZ, if_neg h0]
      exact mem_accesses_bind_left (List.mem_singleton_self _) _

/-! ### One entry -/

/-- The declared end of the entry. -/
def EntryAccesses.stop (e : EntryAccesses) : UInt64 := e.start + 4 + e.length.toUInt64

/-- The entry is no terminator, and fits the section. -/
def EntryHead.FitsIn (sec : Section) (h : EntryHead) : Prop := h.length ≠ 0 ∧ h.stop ≤ sec.stop

instance (sec : Section) (h : EntryHead) : Decidable (h.FitsIn sec) :=
  inferInstanceAs (Decidable (_ ∧ _))

/-- The entry declares fewer bytes than its id takes, but some, and they fit the section. -/
def EntryHead.Short (sec : Section) (h : EntryHead) : Prop := h.FitsIn sec ∧ h.length < 4

instance (sec : Section) (h : EntryHead) : Decidable (h.Short sec) :=
  inferInstanceAs (Decidable (_ ∧ _))

/-- The address lies between the start of the entry and its declared end. -/
def EntryHead.Contains (h : EntryHead) (a : UInt64) : Prop := h.start ≤ a ∧ a < h.stop

instance (h : EntryHead) (a : UInt64) : Decidable (h.Contains a) :=
  inferInstanceAs (Decidable (_ ∧ _))

/-- The entry is no short one, and an FDE asks for no letter of its parent outside of itself. -/
structure EntryHead.KeepsInside (m : ByteMem) (sec : Section) (isEh : Bool) (cies : CieVector)
    (h : EntryHead) : Prop where
  long : ¬ h.Short sec
  letter : h.FitsIn sec → h.isCie isEh = false →
    ∀ r ∈ findCie cies (fdeCieOffset sec h.id (h.start + 4 + 4) isEh),
      AsksLetter m sec (h.start + 4 + 4) h.stop r.2 → h.Contains r.2.augmentation

instance (m : ByteMem) (sec : Section) (isEh : Bool) (cies : CieVector) (h : EntryHead) :
    Decidable (h.KeepsInside m sec isEh cies) :=
  decidable_of_iff (_ ∧ _) ⟨fun h => ⟨h.1, h.2⟩, fun h => ⟨h.long, h.letter⟩⟩

/-- The address has an offset below the size of the section. -/
def Section.Contains (s : Section) (a : UInt64) : Prop := a - s.data < s.size

instance (s : Section) (a : UInt64) : Decidable (s.Contains a) :=
  inferInstanceAs (Decidable (_ < _))

/-- The address lies between the start of the entry and its declared end. -/
def EntryAccesses.Contains (e : EntryAccesses) (a : UInt64) : Prop := e.start ≤ a ∧ a < e.stop

lemma Section.Mapped.contains (h : sec.Mapped) {a : UInt64} (hlo : sec.data ≤ a)
    (hhi : a < sec.stop) : sec.Contains a := by
  have hs := h.stop_toNat
  rw [Section.Contains, UInt64.lt_iff_toNat_lt, UInt64.toNat_sub_of_le _ _ hlo]
  rw [UInt64.lt_iff_toNat_lt] at hhi
  rw [UInt64.le_iff_toNat_le] at hlo
  omega

lemma readU32_within_entry {lo p : UInt64} (hi : UInt64) (hlo : lo ≤ p)
    (hp : p.toNat + 4 ≤ hi.toNat) :
    Within m (InEntry lo hi) (fun v => v = u32At m p) (readU32 p) := by
  have hlt := hi.toNat_lt
  refine ⟨?_, fun v hv => ?_⟩
  · refine (readU32_within fun i hi' => ⟨rfl, ?_, ?_⟩).reads
    · rw [UInt64.le_iff_toNat_le] at hlo ⊢
      rw [UInt64.toNat_add_ofNat (by omega)]
      omega
    · rw [UInt64.lt_iff_toNat_lt, UInt64.toNat_add_ofNat (by omega)]
      omega
  · rw [val_readU32_at] at hv
    cases hv
    rfl

/-- The length of an entry is read inside the entry, and inside the section whatever it says. -/
lemma readLength_within {ptr : UInt64} (hm : sec.Mapped)
    (hptr : ptr.toNat + 4 ≤ sec.stop.toNat) :
    Within m (fun p => InEntry ptr (headAt m ptr).stop p ∧ p.2 < sec.stop)
      (fun v => v = (headAt m ptr).length) (readU32 ptr) := by
  have hle := hm.stop_le
  have h4 : (ptr + 4).toNat = ptr.toNat + 4 := UInt64.toNat_add_of_lt (by simp; omega)
  have hstop : (headAt m ptr).stop.toNat = ptr.toNat + 4 + (headAt m ptr).length.toNat :=
    EntryHead.stop_toNat (by rw [headAt_start]; omega)
  refine (readU32_within_entry (ptr + 4) (UInt64.le_refl ptr) ?_).mono
    (fun p hp => ⟨hp.mono (UInt64.le_refl _) ?_, ?_⟩) fun _ h => h
  · rw [h4]
  · rw [UInt64.le_iff_toNat_le, hstop, h4]
    omega
  · have hlt := hp.2.2
    rw [UInt64.lt_iff_toNat_lt] at hlt ⊢
    omega

/-- The id and the payload of an entry that is long enough. -/
lemma payload_bounds {ptr : UInt64} (hm : sec.Mapped) (hptr : ptr.toNat + 4 ≤ sec.stop.toNat)
    (hfit : (headAt m ptr).stop ≤ sec.stop) (h4 : 4 ≤ (headAt m ptr).length.toNat) :
    ptr ≤ ptr + 4 ∧ ptr ≤ ptr + 4 + 4 ∧ (ptr + 4).toNat + 4 ≤ (headAt m ptr).stop.toNat ∧
      ptr + 4 + 4 ≤ (headAt m ptr).stop := by
  have hle := hm.stop_le
  have hstop : (headAt m ptr).stop.toNat = ptr.toNat + 4 + (headAt m ptr).length.toNat :=
    EntryHead.stop_toNat (by rw [headAt_start]; omega)
  have hid : (ptr + 4).toNat = ptr.toNat + 4 := UInt64.toNat_add_of_lt (by simp; omega)
  rw [UInt64.le_iff_toNat_le] at hfit
  have hpay : (ptr + 4 + 4).toNat = ptr.toNat + 4 + 4 := by
    rw [UInt64.toNat_add_of_lt (by rw [hid]; simp; omega), hid]
    rfl
  simp only [UInt64.le_iff_toNat_le]
  omega

/-- An entry that is not short is read between its start and its end, and inside the section,
apart from the letter that an FDE asks for. -/
theorem parseEntry_within (isEh : Bool) (cies : CieVector) {ptr : UInt64} (hm : sec.Mapped)
    (hptr : ptr.toNat + 4 ≤ sec.stop.toNat) (hshort : ¬ (headAt m ptr).Short sec) :
    Within m
      (fun p => InEntry ptr (headAt m ptr).stop p ∧ p.2 < sec.stop ∨
        (headAt m ptr).FitsIn sec ∧ (headAt m ptr).isCie isEh = false ∧
          ∃ r ∈ findCie cies (fdeCieOffset sec (headAt m ptr).id (ptr + 4 + 4) isEh),
            AsksLetter m sec (ptr + 4 + 4) (headAt m ptr).stop r.2 ∧ p.2 = r.2.augmentation)
      (fun _ => True) (parseEntry sec isEh cies ptr) := by
  have hwide {lo p} (hp : InEntry lo (headAt m ptr).stop p) (hlo : ptr ≤ lo)
      (hs : (headAt m ptr).stop ≤ sec.stop) :
      InEntry ptr (headAt m ptr).stop p ∧ p.2 < sec.stop :=
    ⟨hp.mono hlo (UInt64.le_refl _), UInt64.lt_of_lt_of_le hp.2.2 hs⟩
  rw [parseEntry]
  refine ((readLength_within hm hptr).mono (fun _ h => Or.inl h) fun _ h => h).bind
    fun length hlen => ?_
  subst hlen
  by_cases h0 : (headAt m ptr).length = 0
  · rw [if_pos h0]
    exact .pure trivial
  rw [if_neg h0]
  by_cases hs : sec.stop < ptr + 4 + (headAt m ptr).length.toUInt64
  · rw [if_pos hs]
    exact .fail _
  rw [if_neg hs]
  have hfit : (headAt m ptr).stop ≤ sec.stop := UInt64.not_lt.mp hs
  have h4 : 4 ≤ (headAt m ptr).length.toNat := by
    by_contra hlt
    exact hshort ⟨⟨h0, hfit⟩, UInt32.lt_iff_toNat_lt.mpr (Nat.not_le.mp hlt)⟩
  obtain ⟨hlo4, hlo8, hid, hpayload⟩ := payload_bounds hm hptr hfit h4
  refine Within.bind (Q := fun id => id = (headAt m ptr).id) ?_ fun id hid => ?_
  · exact (readU32_within_entry _ (UInt64.le_refl (ptr + 4)) hid).mono
      (fun p hp => .inl (hwide hp hlo4 hfit)) fun _ h => h
  subst hid
  by_cases hc : isCieId isEh (headAt m ptr).id
  · rw [if_pos hc]
    exact ((parseCie_within (le_trans (UInt64.le_iff_toNat_le.mp hfit) hm.stop_le)).mono
      (fun p hp => Or.inl (hwide hp hlo8 hfit)) fun _ h => h).bind fun _ _ => .pure trivial
  · rw [if_neg hc]
    refine ((parseFde_within hpayload).mono (fun p hp => ?_) fun _ h => h).bind
      fun _ _ => .pure trivial
    rcases hp with hp | hp
    · exact .inl (hwide hp hlo8 hfit)
    · exact .inr ⟨⟨h0, hfit⟩, by simpa [EntryHead.isCie] using hc, hp⟩

/-- The id of a short entry is read past the declared end. -/
theorem parseEntry_short {cies : CieVector} {ptr : UInt64} (h : (headAt m ptr).Short sec) :
    (.entry, (headAt m ptr).stop) ∈ (parseEntry sec isEh cies ptr).accesses m := by
  obtain ⟨⟨h0, hs⟩, hlt⟩ := h
  have hmem : (Via.entry, (headAt m ptr).stop) ∈ (readU32 (ptr + 4)).accesses m := by
    have hlen : (headAt m ptr).length.toNat < 4 := UInt32.lt_iff_toNat_lt.mp hlt
    have hofNat : UInt64.ofNat (headAt m ptr).length.toNat = (headAt m ptr).length.toUInt64 := by
      apply UInt64.toNat_inj.mp
      rw [UInt64.toNat_ofNat', UInt32.toNat_toUInt64]
      omega
    rw [readU32, EntryHead.stop, headAt_start, ← hofNat]
    exact mem_accesses_bind_left (mem_accesses_bytes _ _ _ hlen) _
  rw [parseEntry]
  refine mem_accesses_bind_right (val_readU32_at ptr) ?_
  change _ ∈ accesses (if (headAt m ptr).length = 0 then _
    else if sec.stop < (headAt m ptr).stop then _ else _) m
  rw [if_neg h0, if_neg (UInt64.not_lt.mpr hs)]
  exact mem_accesses_bind_left hmem _

/-- The letter that an FDE asks for is read. -/
theorem parseEntry_letter {cies : CieVector} {ptr : UInt64} {r : CiePtr × CieRecord}
    (hfits : (headAt m ptr).FitsIn sec) (hid : (headAt m ptr).isCie isEh = false)
    (hr : r ∈ findCie cies (fdeCieOffset sec (headAt m ptr).id (ptr + 4 + 4) isEh))
    (h : AsksLetter m sec (ptr + 4 + 4) (headAt m ptr).stop r.2) :
    (.parent, r.2.augmentation) ∈ (parseEntry sec isEh cies ptr).accesses m := by
  rw [parseEntry]
  refine mem_accesses_bind_right (val_readU32_at ptr) ?_
  change _ ∈ accesses (if (headAt m ptr).length = 0 then _
    else if sec.stop < (headAt m ptr).stop then _ else _) m
  rw [if_neg hfits.1, if_neg (UInt64.not_lt.mpr hfits.2)]
  refine mem_accesses_bind_right (val_readU32_at (ptr + 4)) ?_
  change _ ∈ accesses (if (headAt m ptr).isCie isEh = true then _ else _) m
  rw [if_neg (by simp [hid])]
  exact mem_accesses_bind_left (parseFde_letter hr h) _

/-! ### A whole build -/

/-- Every byte that is read for an entry lies in its section, and between its start and its
declared end. -/
def EntryAccesses.InBounds (e : EntryAccesses) : Prop :=
  ∀ p ∈ e.accesses, e.sec.Contains p.2 ∧ e.Contains p.2

/-- The reads of one entry. -/
lemma entryNote_inBounds_iff (hm : sec.Mapped) {s : SectionState} (hlo : sec.data ≤ s.ptr)
    (hhi : s.ptr ≤ sec.stop) (hp : s.ptr + 4 ≤ sec.stop) :
    (entryNote m sec isEh s).InBounds ↔
      (headAt m s.ptr).KeepsInside m sec isEh s.tables.cies := by
  have hle := hm.stop_le
  rw [UInt64.le_iff_toNat_le] at hhi
  have hptr := hp
  rw [UInt64.le_iff_toNat_le, UInt64.toNat_add_of_lt (by simp; omega)] at hptr
  constructor
  · intro h
    refine ⟨fun hshort => ?_, fun hfits hid r hr hasks => ?_⟩
    · exact absurd (h _ (parseEntry_short hshort)).2.2 (UInt64.lt_irrefl _)
    · exact (h _ (parseEntry_letter hfits hid hr hasks)).2
  · intro h p hread
    rcases (parseEntry_within isEh s.tables.cies hm hptr h.long).reads p hread with
      ⟨⟨-, hge, hlt⟩, hin⟩ | ⟨hfits, hid, r, hr, hasks, ha⟩
    · exact ⟨hm.contains (UInt64.le_trans hlo hge) hin, hge, hlt⟩
    · obtain ⟨hge, hlt⟩ := h.letter hfits hid r hr hasks
      rw [ha]
      exact ⟨hm.contains (UInt64.le_trans hlo hge) (UInt64.lt_of_lt_of_le hlt hfits.2), hge, hlt⟩

/-- The cursor of a build lies in the section that the parser is in. -/
lemma ptr_of_mem_buildStates {heap : Heap} {secs : Sections} (heh : secs.ehFrame.Mapped)
    (hdbg : secs.debugFrame.Mapped) {b : BuildState} (hb : b ∈ buildStates m heap secs) :
    (b.frame secs).Mapped ∧ (b.frame secs).data ≤ b.state.ptr ∧
      b.state.ptr ≤ (b.frame secs).stop := by
  rw [buildStates] at hb
  rcases List.mem_append.mp hb with hb | hb
  · obtain ⟨s, hs, rfl⟩ := List.mem_map.mp hb
    exact ⟨heh, ptr_of_mem_sectionStates heh hs⟩
  · split at hb
    · obtain ⟨s, hs, rfl⟩ := List.mem_map.mp hb
      exact ⟨hdbg, ptr_of_mem_sectionStates hdbg hs⟩
    · exact absurd hb List.not_mem_nil

/-- All reads of a build stay in their section and in their entry exactly when the parser comes
to no short entry, and to no FDE that asks for a letter of its parent outside of itself. -/
theorem cfiBuild_reads_in_bounds_iff {heap : Heap} {secs : Sections}
    (heh : secs.ehFrame.Mapped) (hdbg : secs.debugFrame.Mapped) :
    (∀ e ∈ (cfiBuild m heap secs).entries, e.InBounds) ↔
      ∀ b ∈ buildStates m heap secs, b.AtLength secs →
        (b.head m).KeepsInside m (b.frame secs) b.isEh b.state.tables.cies := by
  rw [cfiBuild_entries heh hdbg, List.forall_mem_flatMap]
  refine forall₂_congr fun b hb => ?_
  obtain ⟨hm, hlo, hhi⟩ := ptr_of_mem_buildStates heh hdbg hb
  rw [entryNotes]
  by_cases hp : b.state.ptr + 4 ≤ (b.frame secs).stop
  · rw [if_pos hp, List.forall_mem_singleton, entryNote_inBounds_iff hm hlo hhi hp]
    exact ⟨fun h _ => h, fun h => h hp⟩
  · rw [if_neg hp]
    exact iff_of_true (fun _ he => absurd he List.not_mem_nil) fun h => absurd h hp

/-! ### Letters of parents -/

/-- The augmentation strings of the CIEs that a section adds lie in it, in front of the cursor. -/
lemma augmentation_of_mem_sectionStates (hm : sec.Mapped) {t : ParseState} {s : SectionState}
    (h : s ∈ sectionStates m sec isEh t) {cie : CieRecord} (hcie : cie ∈ s.tables.cies.records) :
    cie ∈ t.cies.records ∨
      (cie.augmentationLen ≠ 0 → sec.data ≤ cie.augmentation ∧ cie.augmentation < s.ptr) := by
  have hstart : sec.data ≤ sec.stop := by
    rw [UInt64.le_iff_toNat_le, hm.stop_toNat]
    omega
  have hle := hm.stop_le
  refine (((mem_sectionStates_iff hm).mp h).2.invariant
    (I := fun s => (sec.data ≤ s.ptr ∧ s.ptr ≤ sec.stop) ∧ ∀ cie ∈ s.tables.cies.records,
      cie ∈ t.cies.records ∨
        (cie.augmentationLen ≠ 0 → sec.data ≤ cie.augmentation ∧ cie.augmentation < s.ptr))
    ?_ ⟨⟨UInt64.le_refl _, hstart⟩, fun _ h => .inl h⟩).2 cie hcie
  rintro s s' ⟨⟨hlo, hhi⟩, hall⟩ hs
  obtain ⟨hhi', hadv⟩ := sectionTurn_advance hm hhi hs
  obtain ⟨hat, hfit, hptr, rec, hd, hst⟩ := sectionTurn_next.mp hs
  rw [UInt64.le_iff_toNat_le] at hlo hhi
  have hold : ∀ cie ∈ s.tables.cies.records, cie ∈ t.cies.records ∨
      (cie.augmentationLen ≠ 0 → sec.data ≤ cie.augmentation ∧ cie.augmentation < s'.ptr) := by
    intro cie hcie
    refine (hall cie hcie).imp_right fun h h0 => ⟨(h h0).1, ?_⟩
    have hlt := (h h0).2
    rw [UInt64.lt_iff_toNat_lt] at hlt ⊢
    omega
  refine ⟨⟨UInt64.le_iff_toNat_le.mpr (by omega), hhi'⟩, ?_⟩
  rcases storeRecord_ok hst with ⟨new, rfl, hv, -, -⟩ | ⟨_, rfl, -, hcies, -⟩
  · rw [vectorAppend_ok_records hv]
    intro cie hcie
    rcases List.mem_append.mp hcie with hcie | hcie
    · exact hold cie hcie
    rw [List.mem_singleton.mp hcie]
    -- the string of a CIE lies between the payload and the end of its entry
    cases hd with
    | cie _ hparse =>
        rw [headAt_start] at hparse
        have hfit' := hfit
        rw [UInt64.le_iff_toNat_le] at hfit'
        obtain ⟨hge, hlt⟩ := (parseCie_within (by omega)).post _ hparse
        have h4 : (s.ptr + 4).toNat = s.ptr.toNat + 4 := UInt64.toNat_add_of_lt (by simp; omega)
        have h8 : (s.ptr + 4 + 4).toNat = s.ptr.toNat + 8 := by
          rw [UInt64.toNat_add_of_lt (by rw [h4]; simp; omega), h4]
          rfl
        rw [UInt64.le_iff_toNat_le, h8] at hge
        refine .inr fun _ => ⟨UInt64.le_iff_toNat_le.mpr (by omega), ?_⟩
        rw [hptr, UInt64.lt_iff_toNat_lt]
        omega
  · rw [hcies]
    exact hold

/-- The CIEs of an accepted section are those of one of its states. -/
lemma cies_of_parseSection_ok (hm : sec.Mapped) {t t' : ParseState}
    (h : parseSection m sec isEh t = (.ok, t')) :
    t'.cies = t.cies ∨ ∃ s ∈ sectionStates m sec isEh t, t'.cies = s.tables.cies := by
  by_cases h0 : sec.data = 0 ∨ sec.size = 0
  · rw [parseSection, if_pos h0] at h
    cases h
    exact .inl rfl
  have hends : Ends (sectionTurn m sec isEh) ⟨sec.data, t⟩ (.ok, t') :=
    h ▸ parseSection_ends hm h0 t
  obtain ⟨s, hs, hdone⟩ := ends_iff_reaches.mp hends
  refine .inr ⟨s, (mem_sectionStates_iff hm).mpr ⟨h0, hs⟩, ?_⟩
  rcases (sectionTurn_done_ok hdone).2 with rfl | rfl
  · rfl
  · rfl

/-- In sections that do not overlap no FDE holds the letter of its parent: it keeps the parser
inside when it asks for none. -/
theorem keepsInside_iff_of_disjoint {heap : Heap} {secs : Sections} (heh : secs.ehFrame.Mapped)
    (hdbg : secs.debugFrame.Mapped)
    (hdisj : ∀ a, ¬ (secs.ehFrame.Contains a ∧ secs.debugFrame.Contains a)) {b : BuildState}
    (hb : b ∈ buildStates m heap secs) :
    (b.head m).KeepsInside m (b.frame secs) b.isEh b.state.tables.cies ↔
      ¬ (b.head m).Short (b.frame secs) ∧
        ((b.head m).FitsIn (b.frame secs) → (b.head m).isCie b.isEh = false →
          ∀ r ∈ findCie b.state.tables.cies (fdeCieOffset (b.frame secs) (b.head m).id
              ((b.head m).start + 4 + 4) b.isEh),
            ¬ AsksLetter m (b.frame secs) ((b.head m).start + 4 + 4) (b.head m).stop r.2) := by
  obtain ⟨hm, hlo, -⟩ := ptr_of_mem_buildStates heh hdbg hb
  have hin {a : UInt64} (hfits : (b.head m).FitsIn (b.frame secs)) (ha : (b.head m).Contains a) :
      (b.frame secs).Contains a :=
    hm.contains (UInt64.le_trans hlo ha.1) (UInt64.lt_of_lt_of_le ha.2 hfits.2)
  have hinit : ∀ cie ∈ (ParseState.init heap).cies.records, False := nofun
  -- a letter lies in front of the cursor, or in the other section
  have hout {cie : CieRecord} (hcie : cie ∈ b.state.tables.cies.records)
      (h0 : cie.augmentationLen ≠ 0) (hfits : (b.head m).FitsIn (b.frame secs)) :
      ¬ (b.head m).Contains cie.augmentation := by
    intro hc
    rw [buildStates] at hb
    rcases List.mem_append.mp hb with hb | hb
    · obtain ⟨s, hs, rfl⟩ := List.mem_map.mp hb
      rcases augmentation_of_mem_sectionStates heh hs hcie with hold | hnew
      · exact hinit _ hold
      · exact UInt64.not_le.mpr (hnew h0).2 hc.1
    split at hb
    swap
    · exact absurd hb List.not_mem_nil
    next t ht =>
      obtain ⟨s, hs, rfl⟩ := List.mem_map.mp hb
      rcases augmentation_of_mem_sectionStates hdbg hs hcie with hold | hnew
      · rcases cies_of_parseSection_ok heh ht with hcies | ⟨s', hs', hcies⟩
        · rw [hcies] at hold
          exact hinit _ hold
        rw [hcies] at hold
        rcases augmentation_of_mem_sectionStates heh hs' hold with hold | hnew
        · exact hinit _ hold
        · have hlt := UInt64.lt_of_lt_of_le (hnew h0).2 (ptr_of_mem_sectionStates heh hs').2
          exact hdisj _ ⟨heh.contains (hnew h0).1 hlt, hin hfits hc⟩
      · exact UInt64.not_le.mpr (hnew h0).2 hc.1
  constructor
  · intro h
    refine ⟨h.long, fun hfits hid r hr hasks => ?_⟩
    exact hout (List.mem_of_getElem? (findCie_eq_some.mp hr).2.1) hasks.1 hfits
      (h.letter hfits hid r hr hasks)
  · rintro ⟨hlong, hnone⟩
    exact ⟨hlong, fun hfits hid r hr hasks => absurd hasks (hnone hfits hid r hr)⟩

/-- A `.debug_frame` with one CIE, and one more byte string behind it. -/
def cieThen (bs : List UInt8) : List UInt8 :=
  [9, 0, 0, 0, 0xff, 0xff, 0xff, 0xff, 1, 0, 1, 0x78, 16] ++ bs

/-- An FDE of the CIE at offset 0, for eight bytes. -/
def plainFde : List UInt8 := [20, 0, 0, 0, 0, 0, 0, 0] ++ leBytes 8 0x1000 ++ leBytes 8 8

/-- The sections of an image whose `.debug_frame` is `cieThen bs`. -/
def cieThenSections (bs : List UInt8) : Sections :=
  ⟨.null, ⟨0x1000, UInt64.ofNat (cieThen bs).length⟩, .null⟩

/-- An entry of one byte at the end of the section: its id and its addresses are read from
behind the section. -/
theorem shortEntry_reads_outside :
    ¬ ∀ e ∈ (cfiBuild (memOf 0x1000 (cieThen [1, 0, 0, 0, 0])) (.fresh fun _ => true)
      (cieThenSections [1, 0, 0, 0, 0])).entries, e.InBounds := by
  intro h
  have hout : ∃ e ∈ (cfiBuild (memOf 0x1000 (cieThen [1, 0, 0, 0, 0])) (.fresh fun _ => true)
      (cieThenSections [1, 0, 0, 0, 0])).entries, ∃ p ∈ e.accesses, ¬ e.sec.Contains p.2 := by
    decide +kernel
  obtain ⟨e, he, p, hp, hnot⟩ := hout
  exact hnot (h e he p hp).1

/-- The build over `cieThen` with an FDE of the CIE behind it, which has no augmentation. -/
theorem plainFde_reads_in_bounds :
    (cfiBuild (memOf 0x1000 (cieThen plainFde)) (.fresh fun _ => true)
      (cieThenSections plainFde)).entries.length = 2 ∧
    ∀ e ∈ (cfiBuild (memOf 0x1000 (cieThen plainFde)) (.fresh fun _ => true)
      (cieThenSections plainFde)).entries, e.InBounds :=
  ⟨by decide +kernel,
    (cfiBuild_reads_in_bounds_iff (by decide) (by decide)).mpr (by decide +kernel)⟩

end Dwunw
