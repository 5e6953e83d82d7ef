import Dwunw.Elf.Image

/-!
Where the section headers and the names of sections are read.

The loader compares the end of an entry of the section table with the size of the image, with a
64-bit sum and with the entry size out of the file.  What it reads at the entry is an
`Elf32_Shdr` or `Elf64_Shdr`, whatever the entry size is.  The names are compared in place, and
the size of the string table plays no role in that.

* `HeaderInside`: a header that is not rejected lies in the image as a whole.
* `headerInside_iff`: this is so unless the end of the entry wraps into the image (`EntryWraps`),
  or the entries are shorter than a header and this one is at the end of the image (`EntryCut`).
* `HeaderInside.fields`: what is read at a header that is inside lies in the image.
* `mem_accesses_strcmpEq`, `name_mem_accesses_elfGetSection`: the bytes that the comparisons of
  a lookup read.
* `NamesIn`, `NameEnds`, `namesIn_iff`: they lie in a slice exactly when every name that is
  compared starts in it, and what it holds from there on is not just the beginning of the name
  asked for; `namesInside_iff`: the slices are the image and the string table.
-/

namespace Dwunw

open Traced

variable {m : ByteMem} {h : ElfHandle}

/-! ### Section headers -/

/-- `sizeof(Elf64_Shdr)` or `sizeof(Elf32_Shdr)`. -/
def ElfHandle.shdrSize (h : ElfHandle) : UInt64 := if h.elfClass = elfClass64 then 64 else 40

/-- The offset of an entry of the section table, as the loader computes it. -/
def entryOffset (h : ElfHandle) (i : UInt16) : UInt64 :=
  h.shoff + i.toUInt64 * h.shentsize.toUInt64

/-- A header that is not rejected lies in the image. -/
def HeaderInside (h : ElfHandle) (i : UInt16) : Prop :=
  ∀ sh, elfSectionHeader h i = some sh → InImage h ⟨sh, h.shdrSize⟩

/-- The end of an entry, without wrapping. -/
def entryEnd (h : ElfHandle) (i : UInt16) : ℕ := (entryOffset h i).toNat + h.shentsize.toNat

/-- The end of the entry wraps to an offset in the image. -/
def EntryWraps (h : ElfHandle) (i : UInt16) : Prop :=
  2 ^ 64 ≤ entryEnd h i ∧ entryEnd h i ≤ 2 ^ 64 + h.size.toNat

/-- The entries are shorter than a header, and this one ends among the last bytes of the image,
of which there are as many as a header has more than an entry. -/
def EntryCut (h : ElfHandle) (i : UInt16) : Prop :=
  h.shentsize.toUInt64 < h.shdrSize ∧ entryEnd h i ≤ h.size.toNat ∧
    h.size.toNat < entryEnd h i + (h.shdrSize.toNat - h.shentsize.toNat)

/-- A header is not rejected when the end of its entry, taken modulo 2^64, is in the image. -/
lemma elfSectionHeader_eq_some {i : UInt16} {sh : UInt64} :
    elfSectionHeader h i = some sh ↔
      ((entryOffset h i).toNat + h.shentsize.toNat) % 2 ^ 64 ≤ h.size.toNat ∧
        sh = h.image + entryOffset h i := by
  have hend : h.size < entryOffset h i + h.shentsize.toUInt64 ↔
      ¬ ((entryOffset h i).toNat + h.shentsize.toNat) % 2 ^ 64 ≤ h.size.toNat := by
    rw [UInt64.lt_iff_toNat_lt, UInt64.toNat_add, UInt16.toNat_toUInt64, Nat.not_le]
  rw [elfSectionHeader, ← entryOffset]
  by_cases hin : ((entryOffset h i).toNat + h.shentsize.toNat) % 2 ^ 64 ≤ h.size.toNat
  · rw [if_neg fun hout => hend.mp hout hin, Option.some.injEq]
    exact ⟨fun hsh => ⟨hin, hsh.symm⟩, fun hsh => hsh.2.symm⟩
  · rw [if_pos (hend.mpr hin)]
    exact ⟨fun hsh => (Option.some_ne_none sh hsh.symm).elim, fun hsh => absurd hsh.1 hin⟩

/-- A slice at an offset lies in the image when its end, without wrapping, does. -/
lemma inImage_offset_iff {o n : UInt64} :
    InImage h ⟨h.image + o, n⟩ ↔ o.toNat + n.toNat ≤ h.size.toNat := by
  have hsize := h.size.toNat_lt
  constructor
  · rintro ⟨k, hle, hdata⟩
    dsimp only at hle hdata
    rw [(UInt64.add_right_inj _).mp hdata, UInt64.toNat_ofNat', Nat.mod_eq_of_lt (by omega)]
    exact hle
  · exact fun hle => ⟨o.toNat, hle, by rw [UInt64.ofNat_toNat]⟩

/-- An entry whose end did not wrap is accepted when it ends in the image, and then its header
lies in the image unless it is longer than the entry and the image ends before it. -/
lemma headerInside_of_end {i : UInt16} (hend : entryEnd h i < 2 ^ 64) :
    HeaderInside h i ↔ ¬ EntryCut h i := by
  rw [entryEnd] at hend
  have haccepted : elfSectionHeader h i = some (h.image + entryOffset h i) ↔
      entryEnd h i ≤ h.size.toNat := by
    rw [elfSectionHeader_eq_some, Nat.mod_eq_of_lt hend, entryEnd]
    exact and_iff_left rfl
  rw [EntryCut, UInt64.lt_iff_toNat_lt, UInt16.toNat_toUInt64]
  constructor
  · rintro hinside ⟨hshort, hin, hcut⟩
    have himage := inImage_offset_iff.mp (hinside _ (haccepted.mpr hin))
    rw [entryEnd] at hcut
    omega
  · intro hcut sh hsh
    obtain ⟨hin, rfl⟩ := elfSectionHeader_eq_some.mp hsh
    rw [Nat.mod_eq_of_lt hend] at hin
    rw [inImage_offset_iff]
    rw [entryEnd] at hcut
    omega

/-- Exactly two kinds of entries are accepted with a header that is not in the image. -/
theorem headerInside_iff (himage : h.size.toNat < 2 ^ 63) {i : UInt16} :
    HeaderInside h i ↔ ¬ EntryWraps h i ∧ ¬ EntryCut h i := by
  have hentry := h.shentsize.toNat_lt
  by_cases hend : entryEnd h i < 2 ^ 64
  · have hwraps : ¬ EntryWraps h i := fun hwraps => absurd hend (not_lt.mpr hwraps.1)
    rw [headerInside_of_end hend, and_iff_right hwraps]
  have hcut : ¬ EntryCut h i := fun hcut => by
    have hin := hcut.2.1
    omega
  rw [and_iff_left hcut]
  -- the entry starts far behind the image, and so does the header
  have hfar : h.size.toNat < (entryOffset h i).toNat := by
    rw [entryEnd] at hend
    omega
  have hmod : entryEnd h i % 2 ^ 64 = entryEnd h i - 2 ^ 64 := by
    have hoffset := (entryOffset h i).toNat_lt
    have hlt : entryEnd h i < 2 ^ 64 + 2 ^ 64 := by
      rw [entryEnd]
      omega
    omega
  constructor
  · rintro hinside ⟨-, hin⟩
    have hsh : elfSectionHeader h i = some (h.image + entryOffset h i) :=
      elfSectionHeader_eq_some.mpr ⟨by rw [← entryEnd, hmod]; omega, rfl⟩
    have := inImage_offset_iff.mp (hinside _ hsh)
    omega
  · intro hwraps sh hsh
    obtain ⟨hin, -⟩ := elfSectionHeader_eq_some.mp hsh
    rw [← entryEnd, hmod] at hin
    exact absurd ⟨not_lt.mp hend, by omega⟩ hwraps

/-- A field of a header that lies in the image is read in the image. -/
lemma elfField_inside {sh o : UInt64} {n : ℕ} (hin : InImage h ⟨sh, h.shdrSize⟩)
    (hfield : o.toNat + n ≤ h.shdrSize.toNat) :
    Within m (fun q => ∃ k < h.size.toNat, q.2 = h.image + UInt64.ofNat k) (fun _ => True)
      (elfField .sectionHeader n (sh + o)) := by
  obtain ⟨k, hk, hsh⟩ := hin
  dsimp only at hk hsh
  refine (Within.bytes n _ fun j hj => ⟨k + o.toNat + j, by omega, ?_⟩).bind
    fun _ _ => .pure trivial
  dsimp only
  rw [hsh, UInt64.ofNat_add, UInt64.ofNat_add, UInt64.ofNat_toNat, UInt64.add_assoc,
    UInt64.add_assoc, UInt64.add_assoc]

/-- So are the range of its section and the place of its name. -/
theorem HeaderInside.fields {i : UInt16} {sh : UInt64} (hinside : HeaderInside h i)
    (hsh : elfSectionHeader h i = some sh) :
    Within m (fun q => ∃ k < h.size.toNat, q.2 = h.image + UInt64.ofNat k) (fun _ => True)
        (sectionRange h sh) ∧
      Within m (fun q => ∃ k < h.size.toNat, q.2 = h.image + UInt64.ofNat k) (fun _ => True)
        (elfField .sectionHeader 4 (sh + h.layout.shName)) := by
  have hin := hinside sh hsh
  have hfields : h.layout.shOffset.toNat + h.layout.wordSize ≤ h.shdrSize.toNat ∧
      h.layout.shSize.toNat + h.layout.wordSize ≤ h.shdrSize.toNat ∧
      h.layout.shName.toNat + 4 ≤ h.shdrSize.toNat := by
    rw [ElfHandle.layout, ElfHandle.shdrSize]
    split_ifs <;> decide
  obtain ⟨hoffset, hsize, hname⟩ := hfields
  exact ⟨(elfField_inside hin hoffset).bind fun _ _ =>
    (elfField_inside hin hsize).bind fun _ _ => .pure trivial, elfField_inside hin hname⟩

/-- A table that lies in the image, with entries that are long enough, has all of its headers in
the image. -/
theorem HeaderInside.of_table {i : UInt16} (hi : i < h.shnum)
    (hsize : h.shdrSize.toNat ≤ h.shentsize.toNat)
    (htable : h.shoff.toNat + h.shnum.toNat * h.shentsize.toNat ≤ h.size.toNat) :
    HeaderInside h i := by
  have hlt := h.size.toNat_lt
  have hnext : (i.toNat + 1) * h.shentsize.toNat ≤ h.shnum.toNat * h.shentsize.toNat :=
    Nat.mul_le_mul_right _ (UInt16.lt_iff_toNat_lt.mp hi)
  rw [Nat.add_mul, Nat.one_mul] at hnext
  have hoffset : (entryOffset h i).toNat = h.shoff.toNat + i.toNat * h.shentsize.toNat := by
    rw [entryOffset, UInt64.toNat_add, UInt64.toNat_mul, UInt16.toNat_toUInt64,
      UInt16.toNat_toUInt64, Nat.mod_eq_of_lt (a := i.toNat * _) (by omega),
      Nat.mod_eq_of_lt (by omega)]
  refine (headerInside_of_end (by rw [entryEnd]; omega)).mpr fun hcut => ?_
  have hshort := UInt64.lt_iff_toNat_lt.mp hcut.1
  rw [UInt16.toNat_toUInt64] at hshort
  exact absurd hshort (not_lt.mpr hsize)

/-- An ELF64 file without sections of its own: its header, with a section table of one entry of
this offset and size, and two bytes. -/
def bareFile (shoff shentsize : ℕ) : List UInt8 :=
  elfMag ++ [elfClass64, elfData2Lsb, 1, 0] ++ leBytes 8 0 ++ leBytes 2 1 ++ leBytes 2 62 ++
    leBytes 4 1 ++ leBytes 8 0 ++ leBytes 8 0 ++ leBytes 8 shoff ++ leBytes 4 0 ++
    leBytes 2 64 ++ leBytes 2 0 ++ leBytes 2 0 ++ leBytes 2 shentsize ++ leBytes 2 1 ++
    leBytes 2 0 ++ [0, 0]

/-- The handle of its image at `0x10000`. -/
def bareHandle (shoff : UInt64) (shentsize : UInt16) : ElfHandle :=
  { ElfHandle.zero with
    image := 0x10000
    size := 66
    elfClass := elfClass64
    elfData := elfData2Lsb
    shoff
    shentsize
    shnum := 1 }

/-- A file whose section table is its last 64 bytes has its only header inside. -/
theorem headerInside_bareFile :
    (elfParseHeaders { ElfHandle.zero with image := 0x10000, size := 66 }).val
        (memOf 0x10000 (bareFile 2 64)) = .ok (bareHandle 2 64) ∧
      HeaderInside (bareHandle 2 64) 0 := by
  refine ⟨by decide +kernel, (headerInside_iff (by decide)).mpr ⟨fun hwraps => ?_, fun hcut => ?_⟩⟩
  · exact absurd hwraps.1 (by decide +kernel)
  · exact absurd hcut.1 (by decide)

/-- A header that is taken to be shorter than it is, and one whose end wraps. -/
theorem bareFile_outside :
    (elfParseHeaders { ElfHandle.zero with image := 0x10000, size := 66 }).val
        (memOf 0x10000 (bareFile 64 2)) = .ok (bareHandle 64 2) ∧
      elfSectionHeader (bareHandle 64 2) 0 = some 0x10040 ∧ ¬ HeaderInside (bareHandle 64 2) 0 ∧
      (elfParseHeaders { ElfHandle.zero with image := 0x10000, size := 66 }).val
        (memOf 0x10000 (bareFile (2 ^ 64 - 64) 64)) = .ok (bareHandle (0 - 64) 64) ∧
      elfSectionHeader (bareHandle (0 - 64) 64) 0 = some (0x10000 - 64) ∧
      ¬ HeaderInside (bareHandle (0 - 64) 64) 0 := by
  have hcut : elfSectionHeader (bareHandle 64 2) 0 = some (0x10000 + 64) := by decide +kernel
  have hwrapped : elfSectionHeader (bareHandle (0 - 64) 64) 0 = some (0x10000 + (0 - 64)) := by
    decide +kernel
  refine ⟨by decide +kernel, hcut, fun hinside => ?_, by decide +kernel, hwrapped,
    fun hinside => ?_⟩
  · exact absurd (inImage_offset_iff.mp (hinside _ hcut)) (by decide +kernel)
  · exact absurd (inImage_offset_iff.mp (hinside _ hwrapped)) (by decide +kernel)

/-! ### Names -/

/-- A comparison reads the bytes behind those that are the same. -/
lemma mem_accesses_strcmpEq {p a : UInt64} {name : CString} :
    (ElfVia.name, a) ∈ (strcmpEq p name).accesses m ↔
      ∃ j ≤ name.length, Holds m p (name.take j) ∧ a = p + UInt64.ofNat j := by
  induction name generalizing p with
  | nil =>
      have hbyte : (Traced.byte .name p : ElfReader UInt8).val m = .ok (m p) := rfl
      rw [strcmpEq, accesses_bind_ok hbyte, accesses_byte, accesses_pure, List.append_nil,
        List.mem_singleton, Prod.mk.injEq]
      constructor
      · exact fun ha => ⟨0, Nat.le_refl 0, trivial, by simp [ha.2]⟩
      · rintro ⟨j, hj, -, ha⟩
        rw [Nat.le_zero.mp hj] at ha
        exact ⟨rfl, by simpa using ha⟩
  | cons c name ih =>
      have hbyte : (Traced.byte .name p : ElfReader UInt8).val m = .ok (m p) := rfl
      rw [strcmpEq, accesses_bind_ok hbyte, accesses_byte, List.mem_append, List.mem_singleton,
        Prod.mk.injEq]
      constructor
      · rintro (ha | ha)
        · exact ⟨0, Nat.zero_le _, trivial, by simp [ha.2]⟩
        · by_cases hc : m p = c
          · rw [if_pos hc] at ha
            obtain ⟨j, hj, hholds, ha⟩ := ih.mp ha
            exact ⟨j + 1, Nat.succ_le_succ hj, ⟨hc, hholds⟩, by rw [ha, UInt64.add_ofNat_succ]⟩
          · rw [if_neg hc, accesses_pure] at ha
            cases ha
      · rintro ⟨j, hj, hholds, ha⟩
        cases j with
        | zero => exact .inl ⟨rfl, by simpa using ha⟩
        | succ j =>
            rw [List.take_succ_cons] at hholds
            rw [if_pos hholds.1]
            exact .inr (ih.mpr ⟨j, Nat.le_of_succ_le_succ hj, hholds.2, by
              rw [ha, UInt64.add_ofNat_succ]⟩)

/-- A computation that reads section headers only. -/
def ReadsHeaders {α : Type} (m : ByteMem) (x : ElfReader α) : Prop :=
  Within m (fun q => q.1 = ElfVia.sectionHeader) (fun _ => True) x

lemma readsHeaders_elfField (n : ℕ) (p : UInt64) :
    ReadsHeaders m (elfField .sectionHeader n p) :=
  (Within.bytes n p fun _ _ => rfl).bind fun _ _ => .pure trivial

lemma readsHeaders_elfSectionSlice (sh : UInt64) : ReadsHeaders m (elfSectionSlice h sh) := by
  have hrange : ReadsHeaders m (sectionRange h sh) :=
    (readsHeaders_elfField _ _).bind fun _ _ =>
      (readsHeaders_elfField _ _).bind fun _ _ => .pure trivial
  refine hrange.bind fun r _ => ?_
  dsimp only
  split_ifs
  · exact .pure trivial
  · exact .pure trivial

/-- It reads no names. -/
lemma ReadsHeaders.name_not_mem {α : Type} {x : ElfReader α} {a : UInt64}
    (hx : ReadsHeaders m x) : (ElfVia.name, a) ∉ x.accesses m :=
  fun ha => by cases hx.reads _ ha

/-- Where the name of a header is. -/
def nameAt (m : ByteMem) (h : ElfHandle) (sh : UInt64) : UInt64 :=
  h.shstrtab + fieldAt m 4 (sh + h.layout.shName)

/-- The headers whose names a search compares: up to the first of the name. -/
def searched (m : ByteMem) (h : ElfHandle) (name : CString) : List UInt64 → List UInt64
  | [] => []
  | sh :: rest => sh :: if Named m h name sh then [] else searched m h name rest

/-- The headers whose names a lookup compares. -/
def comparedHeaders (m : ByteMem) (h : ElfHandle) (name : CString) : List UInt64 :=
  searched m h name (sectionHeaders h)

lemma name_mem_accesses_loop {name : CString} {out : Section} {a : UInt64} (n i : ℕ) :
    (ElfVia.name, a) ∈ (elfGetSectionLoop h name out n (UInt16.ofNat i)).accesses m ↔
      ∃ sh ∈ searched m h name
          ((List.range' i n).filterMap fun i => elfSectionHeader h (UInt16.ofNat i)),
        (ElfVia.name, a) ∈ (strcmpEq (nameAt m h sh) name).accesses m := by
  induction n generalizing i with
  | zero => simp [elfGetSectionLoop, searched]
  | succ n ih =>
      have hnext : UInt16.ofNat i + 1 = UInt16.ofNat (i + 1) := by
        rw [UInt16.ofNat_add]
        rfl
      rw [elfGetSectionLoop, List.range'_succ, List.filterMap_cons, hnext]
      cases hsh : elfSectionHeader h (UInt16.ofNat i) with
      | none => exact ih (i + 1)
      | some sh =>
          dsimp only
          rw [accesses_bind_ok (val_elfField _ _ _), List.mem_append,
            or_iff_right (readsHeaders_elfField _ _).name_not_mem,
            accesses_bind_ok (val_strcmpEq _ _), List.mem_append, ← nameAt, searched]
          by_cases hname : Named m h name sh
          · rw [decide_eq_true (show Holds m (nameAt m h sh) _ from hname), if_pos rfl,
              if_pos hname, or_iff_left (readsHeaders_elfSectionSlice sh).name_not_mem]
            simp
          · rw [decide_eq_false (show ¬ Holds m (nameAt m h sh) _ from hname),
              if_neg Bool.false_ne_true, if_neg hname, ih (i + 1)]
            simp

/-- What a lookup reads as names are the comparisons with the headers up to the first one of
the name. -/
theorem name_mem_accesses_elfGetSection {name : CString} {out : Section} {a : UInt64} :
    (ElfVia.name, a) ∈ (elfGetSection (some h) (some name) out).accesses m ↔
      ∃ sh ∈ comparedHeaders m h name,
        (ElfVia.name, a) ∈ (strcmpEq (nameAt m h sh) name).accesses m :=
  name_mem_accesses_loop h.shnum.toNat 0

/-- The names are read inside a slice of memory. -/
def NamesIn (m : ByteMem) (h : ElfHandle) (t : Section) (name : CString) (out : Section) : Prop :=
  ∀ a, (ElfVia.name, a) ∈ (elfGetSection (some h) (some name) out).accesses m →
    ∃ k < t.size.toNat, a = t.data + UInt64.ofNat k

/-- The bytes of a slice from an offset on. -/
def sliceFrom (m : ByteMem) (t : Section) (o : UInt64) : List UInt8 :=
  peek m (t.size.toNat - o.toNat) (t.data + o)

/-- The name of a header starts in the slice, and the rest of the slice is not the beginning of
the name asked for, so that the comparison ends. -/
def NameEnds (m : ByteMem) (h : ElfHandle) (t : Section) (name : CString) (sh : UInt64) : Prop :=
  nameAt m h sh - t.data < t.size ∧ ¬ sliceFrom m t (nameAt m h sh - t.data) <+: name

/-- The image. -/
def imageSlice (h : ElfHandle) : Section := ⟨h.image, h.size⟩

/-- The string table of section names, with the size that its header says. -/
def nameTableSlice (m : ByteMem) (h : ElfHandle) : Section :=
  ⟨h.shstrtab, (elfSectionHeader h h.shstrndx).elim 0 (shSizeAt m h)⟩

/-- In a file that is opened this is the section of the header of the string table. -/
theorem nameTableSlice_of_open {calls : ElfCalls} {path : Option CString}
    (hopen : (elfOpen calls path).val m = .ok h) :
    ∃ sh, elfSectionHeader h h.shstrndx = some sh ∧ RangeAccepted m h sh ∧
      nameTableSlice m h = sliceAt m h sh := by
  obtain ⟨sh, hsh, haccepted, htable⟩ := elfOpen_shstrtab hopen
  exact ⟨sh, hsh, haccepted, by rw [nameTableSlice, hsh, htable]; rfl⟩

variable {t : Section}

/-- One byte at a distance from an offset. -/
lemma byte_inside_iff {o : UInt64} {j : ℕ} :
    (∃ k < t.size.toNat, t.data + o + UInt64.ofNat j = t.data + UInt64.ofNat k) ↔
      (o.toNat + j) % 2 ^ 64 < t.size.toNat := by
  have hsize := t.size.toNat_lt
  have hoffset (k : ℕ) (hk : k < t.size.toNat) :
      t.data + o + UInt64.ofNat j = t.data + UInt64.ofNat k ↔ (o.toNat + j) % 2 ^ 64 = k := by
    rw [UInt64.add_assoc, UInt64.add_right_inj, ← UInt64.toNat_inj, UInt64.toNat_add,
      UInt64.toNat_ofNat', UInt64.toNat_ofNat', Nat.add_mod_mod,
      Nat.mod_eq_of_lt (a := k) (by omega)]
  constructor
  · rintro ⟨k, hk, hbyte⟩
    rw [(hoffset k hk).mp hbyte]
    exact hk
  · exact fun hk => ⟨_, hk, (hoffset _ hk).mpr rfl⟩

/-- A comparison stays in the slice exactly when the rest of the slice makes it end. -/
lemma strcmpEq_inside_iff {o : UInt64} {name : CString} :
    (∀ a, (ElfVia.name, a) ∈ (strcmpEq (t.data + o) name).accesses m →
      ∃ k < t.size.toNat, a = t.data + UInt64.ofNat k) ↔
        o < t.size ∧ ¬ sliceFrom m t o <+: name := by
  have hsize := t.size.toNat_lt
  rw [UInt64.lt_iff_toNat_lt]
  constructor
  · intro hinside
    have hbyte (j : ℕ) (hj : j ≤ name.length) (hh : Holds m (t.data + o) (name.take j)) :
        (o.toNat + j) % 2 ^ 64 < t.size.toNat :=
      byte_inside_iff.mp (hinside _ (mem_accesses_strcmpEq.mpr ⟨j, hj, hh, rfl⟩))
    have hstart := hbyte 0 (Nat.zero_le _) trivial
    rw [Nat.add_zero, Nat.mod_eq_of_lt o.toNat_lt] at hstart
    refine ⟨hstart, fun hstarts => ?_⟩
    have hlen := hstarts.length_le
    have htake := List.prefix_iff_eq_take.mp hstarts
    rw [sliceFrom, peek_length] at hlen htake
    have hout := hbyte (t.size.toNat - o.toNat) hlen (htake ▸ holds_peek m _ _)
    rw [Nat.add_sub_cancel' hstart.le, Nat.mod_eq_of_lt hsize] at hout
    exact hout.false
  · rintro ⟨hstart, hends⟩ a ha
    obtain ⟨j, hj, hholds, rfl⟩ := mem_accesses_strcmpEq.mp ha
    have hshort : j < t.size.toNat - o.toNat := by
      by_contra hlong
      refine hends (List.prefix_iff_eq_take.mpr ?_)
      have hsplit : name.take j = name.take (t.size.toNat - o.toNat) ++
          (name.take j).drop (t.size.toNat - o.toNat) := by
        conv_lhs => rw [← List.take_append_drop (t.size.toNat - o.toNat) (name.take j)]
        rw [List.take_take, Nat.min_eq_left (Nat.not_lt.mp hlong)]
      rw [hsplit] at hholds
      rw [sliceFrom, peek_length]
      refine (holds_peek m _ _).unique (Holds.append_iff.mp hholds).1 ?_
      rw [peek_length, List.length_take]
      omega
    rw [byte_inside_iff, Nat.mod_eq_of_lt (by omega)]
    omega

/-- The names are read inside a slice exactly when every name that is compared ends there. -/
lemma namesIn_iff {name : CString} {out : Section} :
    NamesIn m h t name out ↔ ∀ sh ∈ comparedHeaders m h name, NameEnds m h t name sh := by
  have hoffset (sh : UInt64) : nameAt m h sh = t.data + (nameAt m h sh - t.data) := by
    rw [UInt64.add_comm, UInt64.sub_add_cancel]
  constructor
  · intro hinside sh hsh
    refine strcmpEq_inside_iff.mp fun a ha => hinside a ?_
    rw [← hoffset] at ha
    exact name_mem_accesses_elfGetSection.mpr ⟨sh, hsh, ha⟩
  · intro hends a ha
    obtain ⟨sh, hsh, ha⟩ := name_mem_accesses_elfGetSection.mp ha
    rw [hoffset] at ha
    exact strcmpEq_inside_iff.mpr (hends sh hsh) a ha

/-- This is so for the image, and for the string table. -/
theorem namesInside_iff {name : CString} {out : Section} :
    (NamesIn m h (imageSlice h) name out ↔
      ∀ sh ∈ comparedHeaders m h name, NameEnds m h (imageSlice h) name sh) ∧
    (NamesIn m h (nameTableSlice m h) name out ↔
      ∀ sh ∈ comparedHeaders m h name, NameEnds m h (nameTableSlice m h) name sh) :=
  ⟨namesIn_iff, namesIn_iff⟩

/-- A name that is terminated in the slice ends. -/
theorem NameEnds.of_terminated {name : CString} {sh : UInt64} (hname : 0 ∉ name)
    (hzero : 0 ∈ sliceFrom m t (nameAt m h sh - t.data)) : NameEnds m h t name sh := by
  refine ⟨?_, fun hstarts => hname (hstarts.subset hzero)⟩
  have hlong := List.length_pos_of_mem hzero
  rw [sliceFrom, peek_length] at hlong
  rw [UInt64.lt_iff_toNat_lt]
  omega

/-- A file with the section `.debug_info`, whose name is said to be at this offset of the string
table. -/
def misnamedFile (name : ℕ) : List UInt8 :=
  ehdr64 ++ shdr64 0 3 192 13 ++ shdr64 name 1 192 13 ++ 0 :: (debugInfoName ++ [0])

/-- A name is read past the end of the image. -/
theorem misnamedFile_outside :
    (elfOpen infoCalls (some infoHandle.path)).val (memOf 0x10000 (misnamedFile 0x10000)) =
        .ok infoHandle ∧
      (ElfVia.name, 0x200c0) ∈ (elfGetSection (some infoHandle) (some debugInfoName) .null).accesses
        (memOf 0x10000 (misnamedFile 0x10000)) ∧
      ¬ NamesIn (memOf 0x10000 (misnamedFile 0x10000)) infoHandle (imageSlice infoHandle)
        debugInfoName .null ∧
      ¬ NamesIn (memOf 0x10000 (misnamedFile 0x10000)) infoHandle
        (nameTableSlice (memOf 0x10000 (misnamedFile 0x10000)) infoHandle) debugInfoName .null := by
  have hread : (ElfVia.name, 0x200c0) ∈
      (elfGetSection (some infoHandle) (some debugInfoName) .null).accesses
        (memOf 0x10000 (misnamedFile 0x10000)) := by
    decide +kernel
  refine ⟨by decide +kernel, hread, fun hinside => ?_, fun hinside => ?_⟩
  · exact absurd (hinside _ hread) (by decide +kernel)
  · exact absurd (hinside _ hread) (by decide +kernel)

end Dwunw
