import Mathlib.Data.List.TakeWhile
import Dwunw.Cfi.Walk

/-!
The links from FDEs to CIEs in the tables of an accepted build.

Both sections are accumulated into one pair of tables, so an accepted build has gone through
one list of entries, `origins`: those of `.eh_frame`, then those of `.debug_frame`.  Two
facts about the links follow from what one entry does.

* `GrowsAfterLink`, `cfiBuild_links_valid_iff`: a link is a pointer into the CIE table, and
  the table moves when it grows.  All links of the result are good exactly when the table
  does not grow after the first FDE.
* `lookupOffset`, `cfiBuild_tables`: an FDE is linked to the first CIE of the table at the
  offset it asks for, in whichever section that CIE stands.
  `cfiBuild_parents_designated_iff` says when this is the CIE the FDE designates.
-/

namespace Dwunw

open Loop Traced

variable {m : ByteMem} {heap : Heap} {secs : Sections}

/-! ### The entries of a build -/

/-- An entry of a build: its section, how that section is read, and its header. -/
structure Origin where
  sec : Section
  isEh : Bool
  head : EntryHead

/-- Whether an entry is a CIE. -/
def Origin.isCie (o : Origin) : Bool := o.head.isCie o.isEh

/-- The offset of an entry in its section. -/
def Origin.offset (o : Origin) : UInt64 := o.head.start - o.sec.data

/-- The entries of both sections, in the order in which they are parsed. -/
def origins (m : ByteMem) (secs : Sections) : List Origin :=
  (entryHeads m secs.ehFrame).map (⟨secs.ehFrame, true, ·⟩) ++
    (entryHeads m secs.debugFrame).map (⟨secs.debugFrame, false, ·⟩)

/-- The invariant rule for accepted builds. -/
theorem cfiBuild_ok_induction {P : List Origin → ParseState → Prop}
    (hnote : ∀ os t e, P os t → P os (t.noteEntry e))
    (hstep : ∀ os o t rec t', o.head.Reads m → P os t →
      DecodesTo m o.sec o.isEh t.cies o.head rec → storeRecord t rec = (.ok, t') →
      P (os ++ [o]) t')
    (h : (cfiBuild m heap secs).status = .ok) (h0 : P [] (.init heap)) :
    ∃ t, P (origins m secs) t ∧ t.fdes.records ≠ [] ∧ cfiBuild m heap secs = .built t := by
  obtain ⟨t, t', heh, hdbg, hne, hb⟩ := cfiBuild_ok h
  have hP : P ((entryHeads m secs.ehFrame).map (⟨secs.ehFrame, true, ·⟩)) t :=
    parseSection_ok_induction (P := fun hs t => P (hs.map (⟨secs.ehFrame, true, ·⟩)) t)
      (fun _ _ _ => hnote _ _ _)
      (fun hs h t rec t' hr hP hd hst => by
        rw [List.map_append]
        exact hstep _ ⟨secs.ehFrame, true, h⟩ t rec t' hr hP hd hst) heh h0
  refine ⟨t', ?_, hne, hb⟩
  refine parseSection_ok_induction
    (P := fun hs t => P ((entryHeads m secs.ehFrame).map (⟨secs.ehFrame, true, ·⟩) ++
      hs.map (⟨secs.debugFrame, false, ·⟩)) t)
    (fun _ _ _ => hnote _ _ _)
    (fun hs h t rec t' hr hP hd hst => ?_) hdbg (by simpa using hP)
  rw [List.map_append, ← List.append_assoc]
  exact hstep _ ⟨secs.debugFrame, false, h⟩ t rec t' hr hP hd hst

/-! ### What one record holds -/

/-- What follows the header of a CIE sets the encoding of the addresses and the
instructions. -/
lemma parseCie_header {sec : Section} {isEh : Bool} {start payload stop : UInt64}
    {cie : CieRecord} (h : (parseCie sec start payload stop isEh).val m = .ok cie) :
    ∃ r, (parseCieHeader sec start payload stop isEh).val m = .ok r ∧
      cie = { r.1 with
        ptrEncoding := cie.ptrEncoding
        instructions := cie.instructions
        instructionsSize := cie.instructionsSize } := by
  obtain ⟨r, hr, h⟩ := val_bind_eq_ok h
  obtain ⟨z, -, h⟩ := val_bind_eq_ok h
  refine ⟨r, hr, ?_⟩
  by_cases hz : z = true
  · rw [if_pos hz] at h
    obtain ⟨_, -, h⟩ := val_bind_eq_ok h
    obtain ⟨_, -, h⟩ := val_bind_eq_ok h
    cases h
    rfl
  · rw [if_neg hz] at h
    cases h
    rfl

/-- A CIE record holds the offset of its entry. -/
lemma parseCie_offset {sec : Section} {isEh : Bool} {start payload stop : UInt64}
    {cie : CieRecord} (h : (parseCie sec start payload stop isEh).val m = .ok cie) :
    cie.offset = start - sec.data := by
  obtain ⟨r, hr, hcie⟩ := parseCie_header h
  obtain ⟨_, _, _, _, -, -, -, -, -, -, hheader⟩ := parseCieHeader_ok hr
  rw [hcie, readAddressSize_ok hheader]
  rfl

/-- An FDE record holds the offset of its entry and the pointer that `find_cie` returned. -/
lemma parseFde_link {sec : Section} {isEh : Bool} {start payload stop : UInt64} {id : UInt32}
    {cies : CieVector} {fde : FdeRecord}
    (h : (parseFde sec start id payload stop isEh cies).val m = .ok fde) :
    fde.offset = start - sec.data ∧
      ∃ cie, findCie cies (fdeCieOffset sec id payload isEh) = some (fde.cie, cie) := by
  rw [parseFde] at h
  cases hf : findCie cies (fdeCieOffset sec id payload isEh) with
  | none => rw [hf] at h; cases h
  | some r =>
      rw [hf] at h
      obtain ⟨range, -, h⟩ := val_bind_eq_ok h
      obtain ⟨z, -, h⟩ := val_bind_eq_ok h
      by_cases hz : z = true
      · rw [if_pos hz] at h
        obtain ⟨_, -, h⟩ := val_bind_eq_ok h
        cases h
        exact ⟨rfl, r.2, rfl⟩
      · rw [if_neg hz] at h
        cases h
        exact ⟨rfl, r.2, rfl⟩

/-! ### The CIE table moves when it grows -/

/-- The number of CIEs in front of the first FDE. -/
def ciesBeforeFde (os : List Origin) : ℕ := (os.takeWhile Origin.isCie).length

/-- The number of CIEs. -/
def cieCount (os : List Origin) : ℕ := os.countP Origin.isCie

/-- The CIE table is full, with `8 * 2 ^ k` CIEs, when an FDE has been linked already and
another CIE is to come. -/
def GrowsAfterLink (os : List Origin) : Prop :=
  ∃ k, ciesBeforeFde os ≤ 8 * 2 ^ k ∧ 8 * 2 ^ k < cieCount os

/-- Every link leads to an element of the CIE table that is handed back. -/
def LinksValid (b : BuildResult) : Prop :=
  ∀ fde ∈ b.fdes.records, (b.cies.deref fde.cie).isSome

instance (b : BuildResult) : Decidable (LinksValid b) :=
  inferInstanceAs (Decidable (∀ _ ∈ _, _))

/-- The capacity of a table that has grown to hold `count` records: the least of the sizes
`0, 8, 16, 32, …` that is large enough. -/
inductive FitsCapacity : ℕ → ℕ → Prop
  | empty : FitsCapacity 0 0
  | grown {count k : ℕ} (hpos : 0 < count) (hle : count ≤ 8 * 2 ^ k)
      (hmin : ∀ j < k, 8 * 2 ^ j < count) : FitsCapacity count (8 * 2 ^ k)

namespace FitsCapacity

lemma le {count cap : ℕ} (h : FitsCapacity count cap) : count ≤ cap := by
  cases h with
  | empty => rfl
  | grown _ hle _ => exact hle

/-- There is room for one more record. -/
lemma succ_of_lt {count cap : ℕ} (h : FitsCapacity count cap) (hlt : count < cap) :
    FitsCapacity (count + 1) cap := by
  cases h with
  | empty => omega
  | grown hpos _ hmin => exact .grown (by omega) hlt fun j hj => Nat.lt_succ_of_lt (hmin j hj)

/-- The table is full, and `vector_reserve` makes room. -/
lemma succ_of_full {cap : ℕ} (h : FitsCapacity cap cap) :
    FitsCapacity (cap + 1) (max (if cap = 0 then 8 else cap * 2) (cap + 1)) := by
  generalize hc : cap = count at h
  cases h with
  | empty => exact .grown (k := 0) (by omega) (by omega) (by omega)
  | @grown _ k hpos hle hmin =>
      rw [if_neg (by omega), max_eq_left (by omega),
        show 8 * 2 ^ k * 2 = 8 * 2 ^ (k + 1) by rw [pow_succ]; ring]
      refine .grown (by omega) (by rw [pow_succ]; omega) fun j hj => ?_
      have hpow : 2 ^ j ≤ 2 ^ k := Nat.pow_le_pow_right (by omega) (by omega)
      omega

end FitsCapacity

section Growth

variable {os : List Origin} {o : Origin}

lemma ciesBeforeFde_le : ciesBeforeFde os ≤ cieCount os := by
  rw [ciesBeforeFde, cieCount, List.countP_eq_length_filter]
  have h : os.takeWhile Origin.isCie = (os.takeWhile Origin.isCie).filter Origin.isCie :=
    (List.filter_eq_self.mpr fun a ha => List.mem_takeWhile_imp ha).symm
  rw [h]
  exact ((List.takeWhile_sublist _).filter _).length_le

/-- While no FDE has been met, all entries are CIEs in front of the first FDE. -/
lemma ciesBeforeFde_of_all (h : ∀ o ∈ os, o.isCie = true) :
    ciesBeforeFde os = cieCount os := by
  rw [ciesBeforeFde, cieCount, List.takeWhile_eq_self_iff.mpr h, List.countP_eq_length.mpr h]

/-- Once an FDE has been met, nothing stands in front of it any more. -/
lemma ciesBeforeFde_append (h : ¬ ∀ o ∈ os, o.isCie = true) :
    ciesBeforeFde (os ++ [o]) = ciesBeforeFde os := by
  rw [ciesBeforeFde, ciesBeforeFde, List.takeWhile_append, if_neg]
  intro hl
  exact h (List.takeWhile_eq_self_iff.mp ((List.takeWhile_prefix _).eq_of_length hl))

lemma cieCount_append_cie (h : o.isCie = true) : cieCount (os ++ [o]) = cieCount os + 1 := by
  simp [cieCount, List.countP_append, h]

lemma cieCount_append_fde (h : o.isCie = false) : cieCount (os ++ [o]) = cieCount os := by
  simp [cieCount, List.countP_append, h]

lemma not_growsAfterLink_of_all (h : ∀ o ∈ os, o.isCie = true) : ¬ GrowsAfterLink os := by
  rintro ⟨k, hle, hlt⟩
  rw [ciesBeforeFde_of_all h] at hle
  omega

lemma growsAfterLink_append_fde (h : o.isCie = false) :
    GrowsAfterLink (os ++ [o]) ↔ GrowsAfterLink os := by
  have hn : ciesBeforeFde (os ++ [o]) = ciesBeforeFde os := by
    by_cases hall : ∀ o ∈ os, o.isCie = true
    · rw [ciesBeforeFde, ciesBeforeFde, List.takeWhile_append_of_pos hall,
        List.takeWhile_cons_of_neg (by simp [h]), List.append_nil,
        List.takeWhile_eq_self_iff.mpr hall]
    · exact ciesBeforeFde_append hall
  rw [GrowsAfterLink, GrowsAfterLink, hn, cieCount_append_fde h]

/-- A CIE that still fits the table does not make it grow. -/
lemma growsAfterLink_append_cie {cap : ℕ} (h : o.isCie = true)
    (hf : FitsCapacity (cieCount os) cap) (hlt : cieCount os < cap) :
    GrowsAfterLink (os ++ [o]) ↔ GrowsAfterLink os := by
  by_cases hall : ∀ o ∈ os, o.isCie = true
  · have hall' : ∀ o' ∈ os ++ [o], o'.isCie = true := by
      intro o' ho'
      rcases List.mem_append.mp ho' with ho' | ho'
      · exact hall o' ho'
      · rwa [List.mem_singleton.mp ho']
    exact iff_of_false (not_growsAfterLink_of_all hall') (not_growsAfterLink_of_all hall)
  · rw [GrowsAfterLink, GrowsAfterLink, ciesBeforeFde_append hall, cieCount_append_cie h]
    generalize cieCount os = count at *
    refine exists_congr fun j => and_congr_right fun _ => ⟨fun hj => ?_, fun hj => by omega⟩
    rcases Nat.lt_succ_iff_lt_or_eq.mp hj with hj | hj
    · exact hj
    · -- the count is a capacity itself, so the table would be full
      cases hf with
      | empty => omega
      | @grown _ k _ hle hmin =>
          rcases Nat.lt_or_ge j k with hjk | hjk
          · exact hmin j hjk
          · have : 2 ^ k ≤ 2 ^ j := Nat.pow_le_pow_right (by omega) hjk
            omega

/-- A CIE that does not fit the table makes it grow, after a link if there is one. -/
lemma growsAfterLink_append_full (h : o.isCie = true)
    (hf : FitsCapacity (cieCount os) (cieCount os)) (hpos : 0 < cieCount os)
    (hfde : ¬ ∀ o ∈ os, o.isCie = true) : GrowsAfterLink (os ++ [o]) := by
  have hle : ciesBeforeFde os ≤ cieCount os := ciesBeforeFde_le
  have happ : cieCount (os ++ [o]) = cieCount os + 1 := cieCount_append_cie h
  rw [GrowsAfterLink, ciesBeforeFde_append hfde, happ]
  generalize hc : cieCount os = count at *
  cases hf with
  | empty => omega
  | grown _ _ _ => exact ⟨_, hle, Nat.lt_succ_self _⟩

end Growth

/-- What holds of the tables after the entries `os`, as far as the links are concerned. -/
structure LinkInv (os : List Origin) (t : ParseState) : Prop where
  count : t.cies.records.length = cieCount os
  fits : FitsCapacity (cieCount os) t.cies.capacity
  block : 0 < cieCount os → ∃ b < t.heap.calls, t.cies.data = some b
  fdes : t.fdes.records = [] ↔ ∀ o ∈ os, o.isCie = true
  index : ∀ fde ∈ t.fdes.records, fde.cie.index < cieCount os
  old : ∀ fde ∈ t.fdes.records, ∃ b < t.heap.calls, fde.cie.block = some b
  valid : (∀ fde ∈ t.fdes.records, fde.cie.block = t.cies.data) ↔ ¬ GrowsAfterLink os

lemma LinkInv.cie {os : List Origin} {o : Origin} {t t' : ParseState} {cie : CieRecord}
    (h : LinkInv os t) (ho : o.isCie = true)
    (hst : vectorAppend t.heap t.cies cie = (.ok, t'.cies, t'.heap)) (hf : t'.fdes = t.fdes) :
    LinkInv (os ++ [o]) t' := by
  have hcount : cieCount (os ++ [o]) = cieCount os + 1 := cieCount_append_cie ho
  have hall : (∀ o' ∈ os ++ [o], o'.isCie = true) ↔ ∀ o' ∈ os, o'.isCie = true := by
    simp [or_imp, forall_and, ho]
  rcases vectorAppend_cases t.heap t.cies cie with ⟨_, hv⟩ | ⟨hcap, hv⟩ | ⟨hcap, -, hv⟩ <;>
    rw [hv] at hst <;> cases t' <;> cases hst
  · -- the record fits the block
    dsimp only at hf ⊢
    subst hf
    rw [h.count] at hcap
    refine ⟨?_, ?_, ?_, ?_, ?_, h.old, ?_⟩
    · rw [hcount, List.length_append, h.count, List.length_singleton]
    · rw [hcount]
      exact h.fits.succ_of_lt hcap
    · intro _
      rcases Nat.eq_zero_or_pos (cieCount os) with h0 | hpos
      · have hfit := h.fits
        rw [h0] at hfit hcap
        generalize t.cies.capacity = cap at hfit hcap
        cases hfit with
        | empty => omega
        | grown hpos _ _ => omega
      · exact h.block hpos
    · rw [h.fdes, hall]
    · intro fde hfde
      have := h.index fde hfde
      omega
    · rw [h.valid, growsAfterLink_append_cie ho h.fits hcap]
  · -- the table moves to a new block, and every old link is left behind
    dsimp only at hf ⊢
    subst hf
    have hfull : t.cies.capacity = cieCount os := by
      have := h.fits.le
      rw [h.count] at hcap
      omega
    have hfits := h.fits
    rw [hfull] at hfits
    refine ⟨?_, ?_, ?_, ?_, ?_, ?_, ?_⟩
    · rw [hcount, List.length_append, h.count, List.length_singleton]
    · rw [hcount, hfull, h.count]
      exact hfits.succ_of_full
    · exact fun _ => ⟨_, Nat.lt_succ_self _, rfl⟩
    · rw [h.fdes, hall]
    · intro fde hfde
      have := h.index fde hfde
      omega
    · intro fde hfde
      obtain ⟨b, hb, hblock⟩ := h.old fde hfde
      exact ⟨b, Nat.lt_succ_of_lt hb, hblock⟩
    · by_cases hnone : t.fdes.records = []
      · refine iff_of_true (by simp [hnone]) (not_growsAfterLink_of_all ?_)
        exact hall.mpr (h.fdes.mp hnone)
      · obtain ⟨fde, hfde⟩ := List.exists_mem_of_ne_nil _ hnone
        refine iff_of_false (fun hv => ?_) (not_not.mpr ?_)
        · obtain ⟨b, hb, hblock⟩ := h.old fde hfde
          have := hv fde hfde
          rw [hblock, Option.some.injEq] at this
          omega
        · have hpos := h.index fde hfde
          exact growsAfterLink_append_full ho hfits (by omega) (fun ha => hnone (h.fdes.mpr ha))

lemma LinkInv.fde {os : List Origin} {o : Origin} {t t' : ParseState} {fde : FdeRecord}
    {cie : CieRecord} {offset : UInt64} (h : LinkInv os t) (ho : o.isCie = false)
    (hfind : findCie t.cies offset = some (fde.cie, cie))
    (hst : vectorAppend t.heap t.fdes fde = (.ok, t'.fdes, t'.heap)) (hc : t'.cies = t.cies) :
    LinkInv (os ++ [o]) t' := by
  obtain ⟨hblock, hget, -⟩ := findCie_eq_some.mp hfind
  have hcount : cieCount (os ++ [o]) = cieCount os := cieCount_append_fde ho
  have hidx : fde.cie.index < cieCount os := by
    rw [← h.count]
    exact (List.getElem?_eq_some_iff.mp hget).1
  obtain ⟨b, hb, hdata⟩ := h.block (by omega)
  have hall : ¬ ∀ o' ∈ os ++ [o], o'.isCie = true := by
    intro ha
    have := ha o (by simp)
    simp [ho] at this
  have hrec : t'.fdes.records = t.fdes.records ++ [fde] ∧ t.heap.calls ≤ t'.heap.calls := by
    rcases vectorAppend_cases t.heap t.fdes fde with ⟨_, hv⟩ | ⟨-, hv⟩ | ⟨-, -, hv⟩ <;>
      rw [hv] at hst <;> cases t' <;> cases hst
    · exact ⟨rfl, le_rfl⟩
    · exact ⟨rfl, Nat.le_succ _⟩
  obtain ⟨hrec, hcalls⟩ := hrec
  refine ⟨by rw [hc, hcount, h.count], by rw [hc, hcount]; exact h.fits,
    fun _ => ⟨b, by omega, by rw [hc, hdata]⟩, ?_, ?_, ?_, ?_⟩
  · exact iff_of_false (by simp [hrec]) hall
  · rw [hrec, hcount]
    intro f hf
    rcases List.mem_append.mp hf with hf | hf
    · exact h.index f hf
    · rwa [List.mem_singleton.mp hf]
  · rw [hrec]
    intro f hf
    rcases List.mem_append.mp hf with hf | hf
    · obtain ⟨b', hb', hf'⟩ := h.old f hf
      exact ⟨b', by omega, hf'⟩
    · rw [List.mem_singleton.mp hf, hblock]
      exact ⟨b, by omega, hdata⟩
  · rw [growsAfterLink_append_fde ho, ← h.valid, hrec, hc]
    simp [or_imp, forall_and, hblock]

/-- The links of an accepted build are good exactly when the CIE table does not grow after
the first FDE. -/
theorem cfiBuild_links_valid_iff (h : (cfiBuild m heap secs).status = .ok) :
    LinksValid (cfiBuild m heap secs) ↔ ¬ GrowsAfterLink (origins m secs) := by
  obtain ⟨t, hinv, -, hb⟩ := cfiBuild_ok_induction (P := LinkInv)
    (fun _ _ _ h => ⟨h.count, h.fits, h.block, h.fdes, h.index, h.old, h.valid⟩)
    (fun os o t rec t' _ hinv hd hst => by
      rcases storeRecord_ok hst with ⟨cie, rfl, hv, hf, -⟩ | ⟨fde, rfl, hv, hc, -⟩
      · cases hd with
        | cie hid _ => exact hinv.cie hid hv hf
      · cases hd with
        | fde hid hp =>
            obtain ⟨-, cie, hfind⟩ := parseFde_link hp
            exact hinv.fde hid hfind hv hc)
    h ⟨rfl, .empty, by simp [cieCount], by simp [ParseState.init, RecordVector.zero],
      by simp [ParseState.init, RecordVector.zero], by simp [ParseState.init, RecordVector.zero],
      iff_of_true (by simp [ParseState.init, RecordVector.zero])
        (not_growsAfterLink_of_all (by simp))⟩
  rw [← hinv.valid, hb]
  refine forall₂_congr fun fde hfde => ?_
  have hidx : fde.cie.index < t.cies.records.length := by
    rw [hinv.count]
    exact hinv.index fde hfde
  simp only [BuildResult.built, RecordTable.deref]
  split_ifs with hblock <;> simp [hblock, hidx]

/-- Nine CIEs with an FDE of the first one behind it: the ninth does not fit the block of
the first eight. -/
def movingCies : List UInt8 :=
  let cie : List UInt8 := [9, 0, 0, 0, 0xff, 0xff, 0xff, 0xff, 1, 0, 1, 0x78, 16]
  let fde : List UInt8 := [20, 0, 0, 0, 0, 0, 0, 0] ++ leBytes 8 0x1000 ++ leBytes 8 0x10
  cie ++ fde ++ (List.replicate 8 cie).flatten

/-- The sections of an image that holds one `.debug_frame` at an address. -/
def debugFrameAt (data : UInt64) (bs : List UInt8) : Sections :=
  ⟨.null, ⟨data, UInt64.ofNat bs.length⟩, .null⟩

/-- The build accepts the nine CIEs, and the FDE is left with a pointer into the block that
was given back. -/
theorem movingCies_link_dangles :
    let b := cfiBuild (memOf 0x1000 movingCies) (.fresh fun _ => true)
      (debugFrameAt 0x1000 movingCies)
    b.status = .ok ∧ ¬ LinksValid b := by
  decide +kernel

/-- The condition fails on this section, which is accepted. -/
theorem movingCies_growsAfterLink :
    (cfiBuild (memOf 0x1000 movingCies) (.fresh fun _ => true)
      (debugFrameAt 0x1000 movingCies)).status = .ok ∧
    GrowsAfterLink (origins (memOf 0x1000 movingCies) (debugFrameAt 0x1000 movingCies)) := by
  have hok : (cfiBuild (memOf 0x1000 movingCies) (.fresh fun _ => true)
      (debugFrameAt 0x1000 movingCies)).status = .ok := by decide +kernel
  refine ⟨hok, not_not.mp fun h => ?_⟩
  have hbad : ¬ LinksValid (cfiBuild (memOf 0x1000 movingCies) (.fresh fun _ => true)
      (debugFrameAt 0x1000 movingCies)) := by decide +kernel
  exact hbad ((cfiBuild_links_valid_iff hok).mpr h)

/-! ### One table for both sections -/

/-- The offset `find_cie` is asked for by an FDE. -/
def Origin.lookupOffset (o : Origin) : UInt64 :=
  fdeCieOffset o.sec o.head.id (o.head.start + 4 + 4) o.isEh

/-- The offset of the CIE that an FDE designates: in `.eh_frame` its CIE pointer is the
distance from the field itself back to the CIE, in `.debug_frame` it is the offset. -/
def Origin.designatedOffset (o : Origin) : UInt64 :=
  if o.isEh then (o.head.start + 4 - o.sec.data) - o.head.id.toUInt64 else o.head.id.toUInt64

/-- In `.eh_frame` the code counts from the end of the field, four bytes too far. -/
lemma Origin.lookupOffset_eq (o : Origin) :
    o.lookupOffset = if o.isEh then o.designatedOffset + 4 else o.designatedOffset := by
  rw [lookupOffset, designatedOffset, fdeCieOffset]
  split_ifs
  · grind
  · rfl

/-- The CIEs of a build. -/
def cieOrigins (os : List Origin) : List Origin := os.filter (·.isCie)

/-- The FDEs of a build. -/
def fdeOrigins (os : List Origin) : List Origin := os.filter (!·.isCie)

/-- The record that the CIE `o` decodes to. -/
def ParsedFrom (m : ByteMem) (o : Origin) (cie : CieRecord) : Prop :=
  (parseCie o.sec o.head.start (o.head.start + 4 + 4) o.head.stop o.isEh).val m = .ok cie

/-- The record of the FDE `o`, linked to the first of the CIEs at the offset that is looked
up. -/
structure LinkedFirst (cs : List Origin) (o : Origin) (fde : FdeRecord) : Prop where
  offset : fde.offset = o.offset
  link : cs.findIdx? (·.offset = o.lookupOffset) = some fde.cie.index

lemma LinkedFirst.append {cs : List Origin} {o : Origin} {fde : FdeRecord} (cs' : List Origin)
    (h : LinkedFirst cs o fde) : LinkedFirst (cs ++ cs') o fde :=
  ⟨h.offset, by rw [List.findIdx?_append, h.link, Option.some_or]⟩

/-- What the tables hold after the entries `os`: a record for each CIE, and a record for each
FDE with its link. -/
structure TableInv (m : ByteMem) (os : List Origin) (t : ParseState) : Prop where
  cies : List.Forall₂ (ParsedFrom m) (cieOrigins os) t.cies.records
  fdes : List.Forall₂ (LinkedFirst (cieOrigins os)) (fdeOrigins os) t.fdes.records

/-- Looking an offset up among the records is looking it up among the entries. -/
lemma findIdx?_of_parsedFrom {cs : List Origin} {cies : List CieRecord} {offset : UInt64}
    (h : List.Forall₂ (ParsedFrom m) cs cies) :
    cies.findIdx? (·.offset = offset) = cs.findIdx? (·.offset = offset) := by
  induction h with
  | nil => rfl
  | cons hp _ ih =>
      rw [List.findIdx?_cons, List.findIdx?_cons, ih, parseCie_offset hp, Origin.offset]

/-- The tables of an accepted build: its CIEs in order, and its FDEs in order, each linked
to the first CIE at the offset it looks up. -/
theorem cfiBuild_tables (h : (cfiBuild m heap secs).status = .ok) :
    List.Forall₂ (ParsedFrom m) (cieOrigins (origins m secs))
        (cfiBuild m heap secs).cies.records ∧
      List.Forall₂ (LinkedFirst (cieOrigins (origins m secs))) (fdeOrigins (origins m secs))
        (cfiBuild m heap secs).fdes.records := by
  obtain ⟨t, hinv, -, hb⟩ := cfiBuild_ok_induction (P := TableInv m)
    (fun _ _ _ h => ⟨h.cies, h.fdes⟩)
    (fun os o t rec t' _ hinv hd hst => by
      rcases storeRecord_ok hst with ⟨cie, rfl, hv, hf, -⟩ | ⟨fde, rfl, hv, hc, -⟩
      · cases hd with
        | cie hid hp =>
            have hcie : cieOrigins (os ++ [o]) = cieOrigins os ++ [o] := by
              simp [cieOrigins, Origin.isCie, hid]
            have hfde : fdeOrigins (os ++ [o]) = fdeOrigins os := by
              simp [fdeOrigins, Origin.isCie, hid]
            refine ⟨?_, ?_⟩
            · rw [vectorAppend_ok_records hv, hcie]
              exact List.rel_append hinv.cies (.cons hp .nil)
            · rw [hf, hfde, hcie]
              exact hinv.fdes.imp fun _ _ hl => hl.append [o]
      · cases hd with
        | fde hid hp =>
            have hcie : cieOrigins (os ++ [o]) = cieOrigins os := by
              simp [cieOrigins, Origin.isCie, hid]
            have hfde : fdeOrigins (os ++ [o]) = fdeOrigins os ++ [o] := by
              simp [fdeOrigins, Origin.isCie, hid]
            obtain ⟨hoff, cie, hfind⟩ := parseFde_link hp
            obtain ⟨-, -, hidx⟩ := findCie_eq_some.mp hfind
            rw [findIdx?_of_parsedFrom hinv.cies] at hidx
            refine ⟨by rw [hc, hcie]; exact hinv.cies, ?_⟩
            rw [vectorAppend_ok_records hv, hcie, hfde]
            exact List.rel_append hinv.fdes (.cons ⟨hoff, hidx⟩ .nil))
    h ⟨.nil, .nil⟩
  rw [hb]
  exact ⟨hinv.cies, hinv.fdes⟩

/-- The FDE `o` is linked to a record that was parsed from a CIE of its own section, at the
offset that `o` designates. -/
def ParentDesignated (m : ByteMem) (cs : List Origin) (cies : List CieRecord) (o : Origin)
    (fde : FdeRecord) : Prop :=
  ∃ c ∈ cs[fde.cie.index]?, ∃ cie ∈ cies[fde.cie.index]?, ParsedFrom m c cie ∧
    c.isEh = o.isEh ∧ c.offset = o.designatedOffset

/-- Every FDE of a build has the parent it designates. -/
def ParentsDesignated (m : ByteMem) (secs : Sections) (b : BuildResult) : Prop :=
  List.Forall₂ (ParentDesignated m (cieOrigins (origins m secs)) b.cies.records)
    (fdeOrigins (origins m secs)) b.fdes.records

instance (m : ByteMem) (o : Origin) (cie : CieRecord) : Decidable (ParsedFrom m o cie) :=
  inferInstanceAs (Decidable (_ = _))

instance (m : ByteMem) (cs : List Origin) (cies : List CieRecord) (o : Origin)
    (fde : FdeRecord) : Decidable (ParentDesignated m cs cies o fde) :=
  inferInstanceAs (Decidable (∃ _ ∈ _, ∃ _ ∈ _, _))

instance (m : ByteMem) (secs : Sections) (b : BuildResult) :
    Decidable (ParentsDesignated m secs b) := inferInstanceAs (Decidable (List.Forall₂ ..))

/-- No FDE stands in `.eh_frame`, and no FDE of `.debug_frame` designates an offset at which
`.eh_frame` has a CIE. -/
def NoCollision (os : List Origin) : Prop :=
  ∀ o ∈ fdeOrigins os, o.isEh = false ∧
    ∀ c ∈ cieOrigins os, c.isEh = true → c.offset ≠ o.designatedOffset

lemma cieOrigins_origins (m : ByteMem) (secs : Sections) : ∃ ehs dbgs : List Origin,
    cieOrigins (origins m secs) = ehs ++ dbgs ∧ (∀ c ∈ ehs, c.isEh = true) ∧
      ∀ c ∈ dbgs, c.isEh = false := by
  refine ⟨_, _, List.filter_append .., ?_, ?_⟩ <;>
  · intro c hc
    obtain ⟨h, -, rfl⟩ := List.mem_map.mp (List.mem_of_mem_filter hc)
    rfl

lemma parsedFrom_getElem? {cs : List Origin} {cies : List CieRecord} {i : ℕ} {c : Origin}
    (h : List.Forall₂ (ParsedFrom m) cs cies) (hc : cs[i]? = some c) :
    ∃ cie, cies[i]? = some cie ∧ ParsedFrom m c cie := by
  obtain ⟨hi, rfl⟩ := List.getElem?_eq_some_iff.mp hc
  have hi' : i < cies.length := h.length_eq ▸ hi
  exact ⟨cies[i], List.getElem?_eq_getElem hi', h.get hi hi'⟩

/-- For an FDE that is linked to the first CIE at the offset looked up, in a table that holds
the CIEs of `.eh_frame` first: the link is as designated exactly when the FDE is one of
`.debug_frame` and `.eh_frame` has no CIE at that offset. -/
lemma parentDesignated_iff {ehs dbgs : List Origin} {cies : List CieRecord}
    (heh : ∀ c ∈ ehs, c.isEh = true) (hdbg : ∀ c ∈ dbgs, c.isEh = false)
    (hcies : List.Forall₂ (ParsedFrom m) (ehs ++ dbgs) cies) {o : Origin} {fde : FdeRecord}
    (h : LinkedFirst (ehs ++ dbgs) o fde) :
    ParentDesignated m (ehs ++ dbgs) cies o fde ↔ o.isEh = false ∧
      ∀ c ∈ ehs ++ dbgs, c.isEh = true → c.offset ≠ o.designatedOffset := by
  have hl := o.lookupOffset_eq
  replace h := h.link
  obtain ⟨hlt, hoff, -⟩ := List.findIdx?_eq_some_iff_getElem.mp h
  simp only [decide_eq_true_eq] at hoff
  cases ho : o.isEh with
  | true =>
      -- the CIE found is four bytes behind the designated offset
      rw [ho, if_pos rfl] at hl
      refine iff_of_false ?_ (by simp)
      rintro ⟨c, hc, -, -, -, -, hd⟩
      rw [List.getElem?_eq_getElem hlt, Option.mem_some_iff] at hc
      rw [hc, hl, hd] at hoff
      grind
  | false =>
      rw [ho, if_neg (by decide)] at hl
      rw [hl] at h hoff
      rw [List.findIdx?_append] at h
      constructor
      · rintro ⟨c, hc, -, -, -, hce, -⟩
        refine ⟨rfl, fun c' hc' heh' hoff' => ?_⟩
        have hmem : c' ∈ ehs := by
          rcases List.mem_append.mp hc' with hc' | hc'
          · exact hc'
          · rw [hdbg c' hc'] at heh'
            cases heh'
        -- an `.eh_frame` CIE at the offset would have been found before `c`
        cases hf : ehs.findIdx? (·.offset = o.designatedOffset) with
        | none =>
            have := List.findIdx?_eq_none_iff.mp hf c' hmem
            simp [hoff'] at this
        | some i =>
            rw [hf, Option.some_or, Option.some.injEq] at h
            have hi := (List.findIdx?_eq_some_iff_getElem.mp hf).1
            rw [List.getElem?_append_left (by omega), List.getElem?_eq_getElem (by omega),
              Option.mem_some_iff] at hc
            rw [← hc, heh _ (List.getElem_mem _), ho] at hce
            cases hce
      · rintro ⟨-, hno⟩
        have hnone : ehs.findIdx? (·.offset = o.designatedOffset) = none := by
          rw [List.findIdx?_eq_none_iff]
          intro c hc
          simpa using hno c (List.mem_append_left _ hc) (heh c hc)
        rw [hnone, Option.none_or, Option.map_eq_some_iff] at h
        obtain ⟨i, -, hi⟩ := h
        have hget := List.getElem?_eq_getElem hlt
        obtain ⟨cie, hcie, hparsed⟩ := parsedFrom_getElem? hcies hget
        refine ⟨_, hget, cie, hcie, hparsed, ?_, hoff⟩
        rw [List.getElem_append_right (by omega), ho]
        exact hdbg _ (List.getElem_mem _)

lemma forall₂_iff_of_forall₂ {α β : Type} {L P : α → β → Prop} {Q : α → Prop}
    (hLP : ∀ a b, L a b → (P a b ↔ Q a)) {as : List α} {bs : List β}
    (h : List.Forall₂ L as bs) : List.Forall₂ P as bs ↔ ∀ a ∈ as, Q a := by
  induction h with
  | nil => simp
  | cons hab _ ih => simp [hLP _ _ hab, ih]

/-- Every FDE of an accepted build is linked to the CIE of its own section that it
designates exactly when `.eh_frame` has no FDE and no CIE whose offset an FDE of
`.debug_frame` designates. -/
theorem cfiBuild_parents_designated_iff (h : (cfiBuild m heap secs).status = .ok) :
    ParentsDesignated m secs (cfiBuild m heap secs) ↔ NoCollision (origins m secs) := by
  obtain ⟨ehs, dbgs, hcs, heh, hdbg⟩ := cieOrigins_origins m secs
  obtain ⟨hcies, hlinks⟩ := cfiBuild_tables h
  rw [ParentsDesignated, NoCollision]
  rw [hcs] at *
  refine forall₂_iff_of_forall₂ (Q := fun o => o.isEh = false ∧ ∀ c ∈ ehs ++ dbgs, _) ?_ hlinks
  exact fun _ _ hl => parentDesignated_iff heh hdbg hcies hl

/-- A CIE and an FDE that points to offset 0, after a section that has a CIE of its own
there. -/
def collidingSections : Sections × List UInt8 :=
  let cie (id align : List UInt8) : List UInt8 := [9, 0, 0, 0] ++ id ++ [1, 0] ++ align ++ [16]
  let eh := cie [0, 0, 0, 0] [1, 0x78]
  let dbg := cie [0xff, 0xff, 0xff, 0xff] [4, 0x7c] ++
    [20, 0, 0, 0, 0, 0, 0, 0] ++ leBytes 8 0x1000 ++ leBytes 8 0x10
  (⟨.null, ⟨0x100d, UInt64.ofNat dbg.length⟩, ⟨0x1000, 13⟩⟩, eh ++ dbg)

/-- The FDE of `.debug_frame` gets the CIE of `.eh_frame`. -/
theorem collidingSections_parent_misplaced :
    let m := memOf 0x1000 collidingSections.2
    let b := cfiBuild m (.fresh fun _ => true) collidingSections.1
    b.status = .ok ∧ ¬ ParentsDesignated m collidingSections.1 b := by
  decide +kernel

/-- The condition fails on these sections, which are accepted. -/
theorem collidingSections_collide :
    (cfiBuild (memOf 0x1000 collidingSections.2) (.fresh fun _ => true)
      collidingSections.1).status = .ok ∧
    ¬ NoCollision (origins (memOf 0x1000 collidingSections.2) collidingSections.1) := by
  have hok : (cfiBuild (memOf 0x1000 collidingSections.2) (.fresh fun _ => true)
      collidingSections.1).status = .ok := by decide +kernel
  refine ⟨hok, fun h => ?_⟩
  have hbad : ¬ ParentsDesignated (memOf 0x1000 collidingSections.2) collidingSections.1
      (cfiBuild (memOf 0x1000 collidingSections.2) (.fresh fun _ => true)
        collidingSections.1) := by decide +kernel
  exact hbad ((cfiBuild_parents_designated_iff hok).mpr h)

end Dwunw
