import Dwunw.Lib.Words
import Dwunw.Elf.Loader

/-!
Where the sections of an opened file lie.

The loader compares the end of a section with the size of the image after a 64-bit sum, once for
the string table and once for the slices it hands out.  A sum that wraps can be small enough
for the comparison, and the slice then starts or ends outside the image.

* `fieldAt`, `val_elfGetSection`: behind the checks of `dwunw_elf_open` nothing fails, and a
  lookup is a search through `sectionHeaders` for the first header of the name.
* `InImage`: a slice lies in the image, in exact arithmetic; `inImage_iff` says when a slice
  that passed the comparison does.
* `SectionsInside`: the string table and every slice that is handed out lie in the image.
* `RangesFit`: no header that such a slice comes from has a sum that wraps into the image.
* `sectionsInside_iff`: the two are the same, for every file that is opened; and
  `RangesFit.of_elf32`: a file of 32-bit words always has the second.
-/

namespace Dwunw

open Traced

variable {m : ByteMem} {h : ElfHandle}

/-! ### Lookups as searches -/

/-- The little-endian number of `n` bytes at an address, as a 64-bit word. -/
def fieldAt (m : ByteMem) (n : ℕ) (p : UInt64) : UInt64 := UInt64.ofNat (leNat (peek m n p))

@[simp] lemma val_elfField (via : ElfVia) (n : ℕ) (p : UInt64) :
    (elfField via n p).val m = .ok (fieldAt m n p) := by
  rw [elfField, val_bind_ok (val_bytes _ _ _ _), val_pure, fieldAt]

/-- `hdr->sh_offset`. -/
def shOffsetAt (m : ByteMem) (h : ElfHandle) (sh : UInt64) : UInt64 :=
  fieldAt m h.layout.wordSize (sh + h.layout.shOffset)

/-- `hdr->sh_size`. -/
def shSizeAt (m : ByteMem) (h : ElfHandle) (sh : UInt64) : UInt64 :=
  fieldAt m h.layout.wordSize (sh + h.layout.shSize)

lemma val_sectionRange (sh : UInt64) :
    (sectionRange h sh).val m = .ok (shOffsetAt m h sh, shSizeAt m h sh) := by
  rw [sectionRange, val_bind_ok (val_elfField _ _ _), val_bind_ok (val_elfField _ _ _), val_pure,
    shOffsetAt, shSizeAt]

/-- `strcmp` finds the string with its terminator. -/
lemma val_strcmpEq (p : UInt64) (name : CString) :
    (strcmpEq p name).val m = .ok (decide (Holds m p (name ++ [0]))) := by
  induction name generalizing p with
  | nil =>
      rw [strcmpEq, val_byte_bind, val_pure]
      simp [Holds]
  | cons c name ih =>
      rw [strcmpEq, val_byte_bind]
      by_cases hc : m p = c
      · rw [if_pos hc, ih]
        simp [Holds, hc]
      · rw [if_neg hc, val_pure]
        simp [Holds, hc]

/-- The name of the section of a header is this one. -/
def Named (m : ByteMem) (h : ElfHandle) (name : CString) (sh : UInt64) : Prop :=
  Holds m (h.shstrtab + fieldAt m 4 (sh + h.layout.shName)) (name ++ [0])

instance (m : ByteMem) (h : ElfHandle) (name : CString) : DecidablePred (Named m h name) :=
  fun _ => Holds.decidable _ _ _

/-- The section headers of the table that lie in the image, as far as the loader checks it. -/
def sectionHeaders (h : ElfHandle) : List UInt64 :=
  (List.range' 0 h.shnum.toNat).filterMap fun i => elfSectionHeader h (UInt16.ofNat i)

/-- The header of the section of a name: the first one. -/
def headerOf (m : ByteMem) (h : ElfHandle) (name : CString) : Option UInt64 :=
  (sectionHeaders h).find? fun sh => decide (Named m h name sh)

/-- The range of a header passes the comparison with the size of the image. -/
def RangeAccepted (m : ByteMem) (h : ElfHandle) (sh : UInt64) : Prop :=
  ¬ h.size < shOffsetAt m h sh + shSizeAt m h sh

instance (m : ByteMem) (h : ElfHandle) : DecidablePred (RangeAccepted m h) :=
  fun _ => inferInstanceAs (Decidable (¬ _))

/-- The slice of a header. -/
def sliceAt (m : ByteMem) (h : ElfHandle) (sh : UInt64) : Section :=
  ⟨h.image + shOffsetAt m h sh, shSizeAt m h sh⟩

lemma val_elfSectionSlice (sh : UInt64) :
    (elfSectionSlice h sh).val m =
      .ok (if RangeAccepted m h sh then (.ok, sliceAt m h sh) else (.badFormat, .null)) := by
  rw [elfSectionSlice, val_bind_ok (val_sectionRange sh)]
  dsimp only
  by_cases haccepted : RangeAccepted m h sh
  · rw [if_pos haccepted, if_neg haccepted, val_pure, sliceAt]
  · rw [if_neg haccepted, if_pos (not_not.mp haccepted), val_pure]

/-- What a lookup answers, from the header that it finds. -/
def lookupResult (m : ByteMem) (h : ElfHandle) (out : Section) : Option UInt64 → Status × Section
  | none => (.noDebugData, out)
  | some sh => if RangeAccepted m h sh then (.ok, sliceAt m h sh) else (.badFormat, .null)

lemma val_elfGetSectionLoop (name : CString) (out : Section) (n i : ℕ) :
    (elfGetSectionLoop h name out n (UInt16.ofNat i)).val m =
      .ok (lookupResult m h out
        (((List.range' i n).filterMap fun i => elfSectionHeader h (UInt16.ofNat i)).find?
          fun sh => decide (Named m h name sh))) := by
  induction n generalizing i with
  | zero => rfl
  | succ n ih =>
      have hnext : UInt16.ofNat i + 1 = UInt16.ofNat (i + 1) := by
        rw [UInt16.ofNat_add]
        rfl
      rw [elfGetSectionLoop, List.range'_succ, List.filterMap_cons, hnext]
      cases hsh : elfSectionHeader h (UInt16.ofNat i) with
      | none => exact ih (i + 1)
      | some sh =>
          dsimp only
          rw [val_bind_ok (val_elfField _ _ _), val_bind_ok (val_strcmpEq _ _), List.find?_cons]
          by_cases hname : Named m h name sh
          · rw [decide_eq_true hname, decide_eq_true (show Holds m _ _ from hname), if_pos rfl,
              val_elfSectionSlice, lookupResult]
          · rw [decide_eq_false hname, decide_eq_false (show ¬ Holds m _ _ from hname),
              if_neg Bool.false_ne_true, ih (i + 1)]

/-- A lookup finds the first header of the name. -/
theorem val_elfGetSection (name : CString) (out : Section) :
    (elfGetSection (some h) (some name) out).val m =
      .ok (lookupResult m h out (headerOf m h name)) :=
  val_elfGetSectionLoop name out h.shnum.toNat 0

/-! ### Opening a file -/

lemma elfLocateShstrtab_ok {h₁ : ElfHandle} (hlocate : (elfLocateShstrtab h₁).val m = .ok h) :
    ∃ sh, elfSectionHeader h₁ h₁.shstrndx = some sh ∧ RangeAccepted m h₁ sh ∧
      h = { h₁ with shstrtab := h₁.image + shOffsetAt m h₁ sh } := by
  rw [elfLocateShstrtab] at hlocate
  by_cases hindex : h₁.shnum ≤ h₁.shstrndx
  · rw [if_pos hindex] at hlocate
    cases hlocate
  rw [if_neg hindex] at hlocate
  cases hsh : elfSectionHeader h₁ h₁.shstrndx with
  | none =>
      rw [hsh] at hlocate
      cases hlocate
  | some sh =>
      rw [hsh] at hlocate
      dsimp only at hlocate
      rw [val_bind_ok (val_sectionRange sh)] at hlocate
      dsimp only at hlocate
      by_cases haccepted : RangeAccepted m h₁ sh
      · rw [if_neg haccepted] at hlocate
        cases hlocate
        exact ⟨sh, rfl, haccepted, rfl⟩
      · rw [if_pos (not_not.mp haccepted)] at hlocate
        cases hlocate

/-- A file that is opened has an image of its size, with a header that could be read and a
string table that was found. -/
lemma elfOpen_ok {calls : ElfCalls} {path : Option CString}
    (hopen : (elfOpen calls path).val m = .ok h) :
    ∃ size h₀ h₁ h₂ path, (elfLoadImage calls .zero size).val m = .ok h₀ ∧
      (elfParseHeaders h₀).val m = .ok h₁ ∧ (elfLocateShstrtab h₁).val m = .ok h₂ ∧
      h = { h₂ with path } := by
  unfold elfOpen at hopen
  split at hopen
  · cases hopen
  · split_ifs at hopen with hfd
    · cases hopen
    split at hopen
    · cases hopen
    · split_ifs at hopen with hsize
      · cases hopen
      obtain ⟨h₀, hload, hopen⟩ := val_bind_eq_ok hopen
      obtain ⟨h₂, hinit, hopen⟩ := val_bind_eq_ok hopen
      obtain ⟨h₁, hparse, hlocate⟩ := val_bind_eq_ok hinit
      rw [val_pure] at hopen
      cases hopen
      exact ⟨_, h₀, h₁, h₂, _, hload, hparse, hlocate, rfl⟩

/-- The string table of a file that is opened is the one of its header, which passed the
comparison. -/
theorem elfOpen_shstrtab {calls : ElfCalls} {path : Option CString}
    (hopen : (elfOpen calls path).val m = .ok h) :
    ∃ sh, elfSectionHeader h h.shstrndx = some sh ∧ RangeAccepted m h sh ∧
      h.shstrtab = h.image + shOffsetAt m h sh := by
  obtain ⟨-, -, h₁, h₂, path, -, -, hlocate, rfl⟩ := elfOpen_ok hopen
  obtain ⟨sh, hsh, haccepted, rfl⟩ := elfLocateShstrtab_ok hlocate
  exact ⟨sh, hsh, haccepted, rfl⟩

/-- The image is read into the block that was allocated for it. -/
lemma elfLoadImage_ok {calls : ElfCalls} {h₀ : ElfHandle} {size : UInt64}
    (hload : (elfLoadImage calls h₀ size).val m = .ok h) :
    calls.malloc size ≠ 0 ∧ h = { h₀ with image := calls.malloc size, size } := by
  rw [elfLoadImage] at hload
  split_ifs at hload with himage hread
  · cases hload
  · cases hload
  · cases hload
    exact ⟨himage, rfl⟩

lemma parseClassHeader_image {l : ElfLayout} {h₀ : ElfHandle}
    (hparse : (parseClassHeader l h₀).val m = .ok h) :
    h.image = h₀.image ∧ h.size = h₀.size := by
  rw [parseClassHeader] at hparse
  split at hparse
  · cases hparse
  · rw [val_bind_ok (val_elfField _ _ _), val_bind_ok (val_elfField _ _ _),
      val_bind_ok (val_elfField _ _ _), val_bind_ok (val_elfField _ _ _), val_pure] at hparse
    cases hparse
    exact ⟨rfl, rfl⟩

/-- The header is read without a change of the image. -/
lemma elfParseHeaders_image {h₀ : ElfHandle} (hparse : (elfParseHeaders h₀).val m = .ok h) :
    h.image = h₀.image ∧ h.size = h₀.size := by
  -- the table is only looked at
  have htable {h₁ : ElfHandle} (h₁_eq : h₁.image = h₀.image ∧ h₁.size = h₀.size)
      (hlast : (if h₁.shoff = 0 ∨ h₁.shentsize = 0 ∨ h₁.shnum = 0 then Traced.fail .badFormat
        else pure h₁ : ElfReader ElfHandle).val m = .ok h) :
      h.image = h₀.image ∧ h.size = h₀.size := by
    split at hlast
    · cases hlast
    · cases hlast
      exact h₁_eq
  rw [elfParseHeaders] at hparse
  split at hparse
  · cases hparse
  obtain ⟨magic, -, hparse⟩ := val_bind_eq_ok hparse
  split at hparse
  · cases hparse
  rw [val_byte_bind, val_byte_bind] at hparse
  split at hparse
  · cases hparse
  dsimp only at hparse
  split at hparse
  · obtain ⟨h₁, hclass, hparse⟩ := val_bind_eq_ok hparse
    have hsame := parseClassHeader_image hclass
    exact htable hsame hparse
  · split at hparse
    · obtain ⟨h₁, hclass, hparse⟩ := val_bind_eq_ok hparse
      have hsame := parseClassHeader_image hclass
      exact htable hsame hparse
    · cases hparse

/-- The image of a file that is opened is an allocated block. -/
theorem elfOpen_image {calls : ElfCalls} {path : Option CString}
    (hopen : (elfOpen calls path).val m = .ok h) :
    h.image ≠ 0 ∧ h.image = calls.malloc h.size := by
  obtain ⟨size, h₀, h₁, h₂, path, hload, hparse, hlocate, rfl⟩ := elfOpen_ok hopen
  obtain ⟨himage, rfl⟩ := elfLoadImage_ok hload
  obtain ⟨himage₁, hsize₁⟩ := elfParseHeaders_image hparse
  obtain ⟨sh, -, -, rfl⟩ := elfLocateShstrtab_ok hlocate
  dsimp only at himage₁ hsize₁ ⊢
  rw [himage₁, hsize₁]
  exact ⟨himage, rfl⟩

/-! ### Slices of the image -/

/-- A slice lies in the image: it starts at an offset of the image, and ends in it. -/
def InImage (h : ElfHandle) (s : Section) : Prop :=
  ∃ o : ℕ, o + s.size.toNat ≤ h.size.toNat ∧ s.data = h.image + UInt64.ofNat o

/-- The range of a header is not accepted because its end wrapped. -/
def RangeFits (m : ByteMem) (h : ElfHandle) (sh : UInt64) : Prop :=
  RangeAccepted m h sh → (shOffsetAt m h sh).toNat + (shSizeAt m h sh).toNat < 2 ^ 64

/-- A slice that was accepted lies in the image when its end did not wrap. -/
lemma inImage_iff {sh : UInt64} (haccepted : RangeAccepted m h sh) :
    InImage h (sliceAt m h sh) ↔ RangeFits m h sh := by
  have hsize := h.size.toNat_lt
  constructor
  · rintro ⟨o, hle, hdata⟩ -
    rw [sliceAt] at hle hdata
    have ho : shOffsetAt m h sh = UInt64.ofNat o := (UInt64.add_right_inj _).mp hdata
    dsimp only at hle
    rw [ho, UInt64.toNat_ofNat', Nat.mod_eq_of_lt (by omega)]
    omega
  · intro hfits
    have hlt := hfits haccepted
    have hle := UInt64.le_iff_toNat_le.mp (UInt64.not_lt.mp haccepted)
    rw [UInt64.toNat_add_of_lt hlt] at hle
    exact ⟨(shOffsetAt m h sh).toNat, hle, by rw [sliceAt, UInt64.ofNat_toNat]⟩

/-- The string table and all slices that are handed out lie in the image. -/
structure SectionsInside (m : ByteMem) (h : ElfHandle) : Prop where
  shstrtab : ∃ sh, elfSectionHeader h h.shstrndx = some sh ∧
    InImage h ⟨h.shstrtab, shSizeAt m h sh⟩
  getSection : ∀ (name : CString) out s, 0 ∉ name →
    (elfGetSection (some h) (some name) out).val m = .ok (.ok, s) → InImage h s
  collectDwarf : ∀ st sections, (elfCollectDwarf (some h)).val m = .ok (st, sections) →
    (sections.debugInfo = .null ∨ InImage h sections.debugInfo) ∧
      (sections.debugFrame = .null ∨ InImage h sections.debugFrame) ∧
      (sections.ehFrame = .null ∨ InImage h sections.ehFrame)

/-- Neither the header of the string table nor the first header of any name has a range that
is accepted because its end wrapped.  A name holds no zero byte. -/
structure RangesFit (m : ByteMem) (h : ElfHandle) : Prop where
  shstrtab : ∀ sh, elfSectionHeader h h.shstrndx = some sh → RangeFits m h sh
  named : ∀ (name : CString) sh, 0 ∉ name → headerOf m h name = some sh → RangeFits m h sh

/-- A lookup that finds no section leaves an empty descriptor empty. -/
lemma lookupResult_null (sh : Option UInt64) :
    (lookupResult m h .null sh).1 = .ok ∨ (lookupResult m h .null sh).2 = .null := by
  cases sh with
  | none => exact .inr rfl
  | some sh =>
      rw [lookupResult]
      split_ifs
      · exact .inl rfl
      · exact .inr rfl

/-- A lookup answers that a section is there when it found one, and the range was accepted. -/
lemma lookupResult_ok {out s : Section} {sh : Option UInt64}
    (hs : lookupResult m h out sh = (.ok, s)) :
    ∃ sh', sh = some sh' ∧ RangeAccepted m h sh' ∧ s = sliceAt m h sh' := by
  cases sh with
  | none => cases hs
  | some sh' =>
      rw [lookupResult] at hs
      split_ifs at hs with haccepted
      · cases hs
        exact ⟨sh', rfl, haccepted, rfl⟩
      · cases hs

/-- An empty descriptor, or a section that is found by its name. -/
def NullOrFound (m : ByteMem) (h : ElfHandle) (s : Section) : Prop :=
  s = .null ∨ ∃ name : CString, 0 ∉ name ∧
    (elfGetSection (some h) (some name) .null).val m = .ok (.ok, s)

lemma nullOrFound_getSection {name : CString} {st : Status} {s : Section} (hname : 0 ∉ name)
    (hget : (elfGetSection (some h) (some name) .null).val m = .ok (st, s)) :
    NullOrFound m h s := by
  have hresult := hget
  rw [val_elfGetSection, Except.ok.injEq] at hresult
  rcases lookupResult_null (m := m) (h := h) (headerOf m h name) with hst | hs
  · rw [hresult] at hst
    exact .inr ⟨name, hname, by rw [hget, show st = .ok from hst]⟩
  · rw [hresult] at hs
    exact .inl hs

lemma nullOrFound_collectOptional {name : CString} {st : Status} {s : Section}
    (hname : 0 ∉ name) (hcollect : (collectOptional (some h) name).val m = .ok (st, s)) :
    NullOrFound m h s := by
  obtain ⟨⟨st', s'⟩, hget, hcollect⟩ := val_bind_eq_ok hcollect
  dsimp only at hcollect
  split_ifs at hcollect with hmissing
  · cases hcollect
    exact .inl rfl
  · cases hcollect
    exact nullOrFound_getSection hname hget

/-- The descriptors of `dwunw_elf_collect_dwarf` are empty or were found by name, also where it
stops early. -/
lemma elfCollectDwarf_slices {st : Status} {sections : Sections}
    (hcollect : (elfCollectDwarf (some h)).val m = .ok (st, sections)) :
    NullOrFound m h sections.debugInfo ∧ NullOrFound m h sections.debugFrame ∧
      NullOrFound m h sections.ehFrame := by
  obtain ⟨⟨st₁, info⟩, hinfo, hcollect⟩ := val_bind_eq_ok hcollect
  have hinfo' := nullOrFound_getSection (by decide) hinfo
  dsimp only at hcollect
  split_ifs at hcollect with hst₁
  · cases hcollect
    exact ⟨hinfo', .inl rfl, .inl rfl⟩
  obtain ⟨⟨st₂, frame⟩, hframe, hcollect⟩ := val_bind_eq_ok hcollect
  have hframe' := nullOrFound_collectOptional (by decide) hframe
  dsimp only at hcollect
  split_ifs at hcollect with hst₂
  · cases hcollect
    exact ⟨hinfo', hframe', .inl rfl⟩
  obtain ⟨⟨st₃, eh⟩, heh, hcollect⟩ := val_bind_eq_ok hcollect
  cases hcollect
  exact ⟨hinfo', hframe', nullOrFound_collectOptional (by decide) heh⟩

/-- The slices of a file that was opened lie in its image exactly when no range that is
accepted has an end that wrapped. -/
theorem sectionsInside_iff {calls : ElfCalls} {path : Option CString}
    (hopen : (elfOpen calls path).val m = .ok h) : SectionsInside m h ↔ RangesFit m h := by
  obtain ⟨sh₀, hsh₀, haccepted₀, hshstrtab⟩ := elfOpen_shstrtab hopen
  have htable : (⟨h.shstrtab, shSizeAt m h sh₀⟩ : Section) = sliceAt m h sh₀ := by
    rw [sliceAt, hshstrtab]
  constructor
  · intro hinside
    refine ⟨fun sh hsh => ?_, fun name sh hname hsh haccepted => ?_⟩
    · obtain ⟨sh', hsh', himage⟩ := hinside.shstrtab
      rw [hsh₀, Option.some.injEq] at hsh hsh'
      subst hsh hsh'
      rw [htable] at himage
      exact (inImage_iff haccepted₀).mp himage
    · refine (inImage_iff haccepted).mp (hinside.getSection name .null _ hname ?_) haccepted
      rw [val_elfGetSection, hsh, lookupResult, if_pos haccepted]
  · intro hfits
    have hget (name : CString) (out s : Section) (hname : 0 ∉ name)
        (hs : (elfGetSection (some h) (some name) out).val m = .ok (.ok, s)) : InImage h s := by
      rw [val_elfGetSection, Except.ok.injEq] at hs
      obtain ⟨sh, hsh, haccepted, rfl⟩ := lookupResult_ok hs
      exact (inImage_iff haccepted).mpr (hfits.named name sh hname hsh)
    have hfound (s : Section) (hs : NullOrFound m h s) : s = .null ∨ InImage h s :=
      hs.imp_right fun ⟨name, hname, hs⟩ => hget name .null s hname hs
    refine ⟨⟨sh₀, hsh₀, ?_⟩, hget, fun st sections hcollect => ?_⟩
    · rw [htable]
      exact (inImage_iff haccepted₀).mpr (hfits.shstrtab sh₀ hsh₀)
    · obtain ⟨hinfo, hframe, heh⟩ := elfCollectDwarf_slices hcollect
      exact ⟨hfound _ hinfo, hfound _ hframe, hfound _ heh⟩

/-! ### The two classes -/

lemma fieldAt_lt {n : ℕ} (hn : n ≤ 8) (p : UInt64) : (fieldAt m n p).toNat < 256 ^ n := by
  have hlt := leNat_lt (peek m n p)
  rw [peek_length] at hlt
  have hpow : 256 ^ n ≤ 256 ^ 8 := Nat.pow_le_pow_right (by omega) hn
  rw [fieldAt, UInt64.toNat_ofNat', Nat.mod_eq_of_lt (by omega)]
  exact hlt

/-- The sum of two 32-bit words does not wrap. -/
theorem RangesFit.of_elf32 (hclass : h.elfClass ≠ elfClass64) : RangesFit m h := by
  have hlayout : h.layout = elf32Layout := if_neg hclass
  have hfits (sh : UInt64) : RangeFits m h sh := by
    intro _
    have hoffset : (fieldAt m 4 _).toNat < _ := fieldAt_lt (by omega) (sh + elf32Layout.shOffset)
    have hsize : (fieldAt m 4 _).toNat < _ := fieldAt_lt (by omega) (sh + elf32Layout.shSize)
    rw [shOffsetAt, shSizeAt, hlayout]
    show (fieldAt m 4 _).toNat + (fieldAt m 4 _).toNat < 2 ^ 64
    omega
  exact ⟨fun sh _ => hfits sh, fun _ sh _ _ => hfits sh⟩

/-! ### A file with one section -/

/-- An `Elf64_Shdr`. -/
def shdr64 (name type offset size : ℕ) : List UInt8 :=
  leBytes 4 name ++ leBytes 4 type ++ leBytes 8 0 ++ leBytes 8 0 ++ leBytes 8 offset ++
    leBytes 8 size ++ leBytes 4 0 ++ leBytes 4 0 ++ leBytes 8 1 ++ leBytes 8 0

/-- An `Elf64_Ehdr` with two section headers right behind it, the first of them that of the
string table. -/
def ehdr64 : List UInt8 :=
  elfMag ++ [elfClass64, elfData2Lsb, 1, 0] ++ leBytes 8 0 ++ leBytes 2 1 ++ leBytes 2 62 ++
    leBytes 4 1 ++ leBytes 8 0 ++ leBytes 8 0 ++ leBytes 8 64 ++ leBytes 4 0 ++ leBytes 2 64 ++
    leBytes 2 0 ++ leBytes 2 0 ++ leBytes 2 64 ++ leBytes 2 2 ++ leBytes 2 0

/-- A file with the section `.debug_info` at this offset and of this size. -/
def infoFile (offset size : ℕ) : List UInt8 :=
  ehdr64 ++ shdr64 0 3 192 13 ++ shdr64 1 1 offset size ++ 0 :: (debugInfoName ++ [0])

/-- Opening the file succeeds, with the image at `0x10000`. -/
def infoCalls : ElfCalls := ⟨3, some 205, fun _ => 0x10000, fun n => n.toNat⟩

/-- The handle of the file. -/
def infoHandle : ElfHandle where
  path := ['a'].map fun c => UInt8.ofNat c.toNat
  image := 0x10000
  size := 205
  elfClass := elfClass64
  elfData := elfData2Lsb
  shoff := 64
  shentsize := 64
  shnum := 2
  shstrndx := 0
  shstrtab := 0x100c0

/-- A section whose end wraps is handed out in front of the image. -/
theorem wrappedInfo_outside :
    (elfOpen infoCalls (some infoHandle.path)).val (memOf 0x10000 (infoFile (2 ^ 64 - 16) 32)) =
        .ok infoHandle ∧
      (elfGetSection (some infoHandle) (some debugInfoName) .null).val
          (memOf 0x10000 (infoFile (2 ^ 64 - 16) 32)) =
        .ok (.ok, ⟨0x10000 - 16, 32⟩) ∧
      ¬ InImage infoHandle ⟨0x10000 - 16, 32⟩ ∧
      ¬ SectionsInside (memOf 0x10000 (infoFile (2 ^ 64 - 16) 32)) infoHandle := by
  have hget : (elfGetSection (some infoHandle) (some debugInfoName) .null).val
      (memOf 0x10000 (infoFile (2 ^ 64 - 16) 32)) = .ok (.ok, ⟨0x10000 - 16, 32⟩) := by
    decide +kernel
  have houtside : ¬ InImage infoHandle ⟨0x10000 - 16, 32⟩ := by
    rintro ⟨o, hle, hdata⟩
    have hle : o + 32 ≤ 205 := hle
    have hdata : (0x10000 - 16 : UInt64) = 0x10000 + UInt64.ofNat o := hdata
    have hdata := congrArg UInt64.toNat hdata
    have hbase : (0x10000 : UInt64).toNat = 0x10000 := rfl
    have hlow : (0x10000 - 16 : UInt64).toNat = 0x10000 - 16 := rfl
    rw [UInt64.toNat_add_ofNat (by omega)] at hdata
    omega
  exact ⟨by decide +kernel, hget, houtside, fun h => houtside (h.getSection _ _ _ (by decide) hget)⟩

/-- A section that lies in the file is handed out there. -/
theorem plainInfo_inside : SectionsInside (memOf 0x10000 (infoFile 192 13)) infoHandle := by
  have hheaders : sectionHeaders infoHandle = [0x10040, 0x10080] := by decide +kernel
  have hfits : ∀ sh ∈ sectionHeaders infoHandle,
      (shOffsetAt (memOf 0x10000 (infoFile 192 13)) infoHandle sh).toNat +
        (shSizeAt (memOf 0x10000 (infoFile 192 13)) infoHandle sh).toNat < 2 ^ 64 := by
    rw [hheaders]
    exact List.forall_mem_cons.mpr
      ⟨by decide +kernel, List.forall_mem_singleton.mpr (by decide +kernel)⟩
  have hopen : (elfOpen infoCalls (some infoHandle.path)).val
      (memOf 0x10000 (infoFile 192 13)) = .ok infoHandle := by
    decide +kernel
  refine (sectionsInside_iff hopen).mpr
    ⟨fun sh hsh _ => hfits sh ?_, fun name sh _ hsh _ => hfits sh ?_⟩
  · have hsh₀ : elfSectionHeader infoHandle infoHandle.shstrndx = some 0x10040 := by
      decide +kernel
    rw [hsh₀, Option.some.injEq] at hsh
    rw [hheaders, ← hsh]
    exact List.mem_cons_self
  · exact List.mem_of_find?_eq_some hsh

end Dwunw
