import Dwunw.Elf.Lookup

/-!
What the slices of a well-formed file contain.

A section of the type `SHT_NOBITS` has a range, but the bytes there belong to something else, and
in a section with the flag `SHF_COMPRESSED` they are not its contents either.  The loader reads
neither the type nor the flags.

* `Faithful`, `ContentsFaithful`: every slice of a collection has the contents of its section, and
  is empty where the bytes in the range are not the contents.
* `contentsFaithful_iff`: this is so exactly when no section that is collected deceives: all
  three are plain or of size 0, or the collection fails.
-/

namespace Dwunw

open Traced Elf

variable {m : ByteMem} {c : FileClass} {f : List UInt8} {h : ElfHandle} {image : UInt64}
  {path : CString}

/-- A slice has the contents of its section; it is empty for a section whose contents are not the
bytes in its range. -/
def Faithful (m : ByteMem) (f : List UInt8) : Option SectionHeader → Section → Prop
  | none, d => d = .null
  | some s, d =>
      if s.Plain then Span m d.data (d.data + d.size) (Elf.contents f s) else d.size = 0

/-- Every slice of a collection has the contents of its section. -/
def ContentsFaithful (m : ByteMem) (c : FileClass) (f : List UInt8) (h : ElfHandle) : Prop :=
  ∀ sections, (elfCollectDwarf (some h)).val m = .ok (.ok, sections) →
    Faithful m f (lookup c f debugInfoName) sections.debugInfo ∧
      Faithful m f (lookup c f debugFrameName) sections.debugFrame ∧
      Faithful m f (lookup c f ehFrameName) sections.ehFrame

/-- A range and a size are 64-bit words at most. -/
lemma sectionHeader_lt {s : SectionHeader} (hs : s ∈ Elf.sectionHeaders c f) :
    s.offset < 2 ^ 64 ∧ s.size < 2 ^ 64 := by
  obtain ⟨-, -, -, -, -, -, hword, -⟩ := layout_le c
  obtain ⟨i, -, rfl⟩ := List.mem_map.mp hs
  exact ⟨word_lt hword _, word_lt hword _⟩

/-- The slice of a section with its contents in the file holds them. -/
lemma span_sliceOf (hholds : Holds m image f) (hblock : image.toNat + f.length < 2 ^ 64)
    {s : SectionHeader} (hs : s.offset + s.size ≤ f.length) :
    Span m (sliceOf image s).data ((sliceOf image s).data + (sliceOf image s).size)
      (Elf.contents f s) := by
  have hlength : (Elf.contents f s).length = s.size := by
    rw [Elf.contents, List.length_take, List.length_drop]
    omega
  have hrest := holds_drop hholds (show s.offset ≤ f.length by omega)
  rw [← List.take_append_drop s.size (f.drop s.offset)] at hrest
  have hdata : (image + UInt64.ofNat s.offset).toNat = image.toNat + s.offset :=
    UInt64.toNat_add_ofNat (by omega)
  have hend : (image + UInt64.ofNat s.offset + UInt64.ofNat s.size).toNat =
      image.toNat + s.offset + s.size := by
    rw [UInt64.toNat_add_ofNat (by omega), hdata]
  refine ⟨(Holds.append_iff.mp hrest).1, ?_⟩
  rw [hlength, sliceOf]
  dsimp only
  rw [hdata, hend]

/-- A slice that describes its section is faithful exactly when the section is plain, or says
that it is empty. -/
lemma Describes.faithful_iff (hf : WellFormed c f) (hholds : Holds m image f)
    (hblock : image.toNat + f.length < 2 ^ 64) {name : List UInt8} {d : Section}
    (hd : Describes f image (lookup c f name) d) :
    Faithful m f (lookup c f name) d ↔
      ∀ s, lookup c f name = some s → s.Plain ∨ s.size = 0 := by
  cases hs : lookup c f name with
  | none =>
      rw [hs] at hd
      exact iff_of_true hd fun s hs => absurd hs.symm (Option.some_ne_none s)
  | some s =>
      rw [hs] at hd
      have hsize := (sectionHeader_lt (lookup_mem hs)).2
      rw [Faithful, hd.2]
      simp only [Option.some.injEq, forall_eq']
      by_cases hplain : s.Plain
      · rw [if_pos hplain]
        exact iff_of_true
          (span_sliceOf hholds hblock (hf.stored s (lookup_mem hs) hplain.1)) (.inl hplain)
      · rw [if_neg hplain, or_iff_right hplain, ← UInt64.toNat_inj, sliceOf,
          UInt64.toNat_ofNat', Nat.mod_eq_of_lt hsize, show (0 : UInt64).toNat = 0 from rfl]

/-- The slices have the contents of their sections exactly when none of the sections that are
collected has contents that are not the bytes in its range. -/
theorem contentsFaithful_iff {calls : ElfCalls} (hf : WellFormed c f) (hcalls : Loads calls m f)
    (hopen : (elfOpen calls (some path)).val m = .ok h) :
    ContentsFaithful m c f h ↔
      (Collects c f → ∀ name ∈ dwarfNames, ∀ s, lookup c f name = some s →
        s.Plain ∨ s.size = 0) := by
  have hblock := hcalls.block_le
  have hlen : f.length < 2 ^ 64 := by omega
  have hholds := hcalls.holds
  rw [elfOpen_openedHandle hf hcalls, Except.ok.injEq] at hopen
  subst hopen
  rw [← collects_iff path hholds hf hlen, forall_exists_index]
  refine forall_congr' fun sections => forall_congr' fun hcollect => ?_
  obtain ⟨-, hinfo, hframe, heh⟩ := (collectDwarf_openedHandle hholds hf hlen).mp hcollect
  rw [hinfo.faithful_iff hf hholds hblock, hframe.faithful_iff hf hholds hblock,
    heh.faithful_iff hf hholds hblock, dwarfNames, List.forall_mem_cons, List.forall_mem_cons,
    List.forall_mem_singleton]

/-- An ELF64 file with these section headers right behind its header, the first of them that of
the string table. -/
def elf64File (headers : List (List UInt8)) (rest : List UInt8) : List UInt8 :=
  elfMag ++ [elfClass64, elfData2Lsb, 1, 0] ++ leBytes 8 0 ++ leBytes 2 1 ++ leBytes 2 62 ++
    leBytes 4 1 ++ leBytes 8 0 ++ leBytes 8 0 ++ leBytes 8 64 ++ leBytes 4 0 ++ leBytes 2 64 ++
    leBytes 2 0 ++ leBytes 2 0 ++ leBytes 2 64 ++ leBytes 2 headers.length ++ leBytes 2 0 ++
    headers.flatten ++ rest

/-- A file of debug information only: its `.eh_frame` has the type `SHT_NOBITS`, and the range
that it has left is that of the section table. -/
def debugOnlyFile : List UInt8 :=
  elf64File [shdr64 0 3 256 23, shdr64 1 1 256 23, shdr64 13 8 64 192]
    (0 :: (debugInfoName ++ 0 :: (ehFrameName ++ [0])))

/-- Opening it succeeds, with the image at `0x10000`. -/
def debugOnlyCalls : ElfCalls := ⟨3, some 279, fun _ => 0x10000, fun n => n.toNat⟩

/-- A section of a file of debug information that has no contents is taken from what stands in its
place. -/
theorem debugOnlyFile_deceives :
    (elfOpen debugOnlyCalls (some [0x61])).val (memOf 0x10000 debugOnlyFile) =
        .ok (openedHandle .elf64 debugOnlyFile 0x10000 [0x61]) ∧
      WellFormed .elf64 debugOnlyFile ∧
      lookup .elf64 debugOnlyFile ehFrameName = some ⟨13, nobits, 0, 64, 192⟩ ∧
      (elfCollectDwarf (some (openedHandle .elf64 debugOnlyFile 0x10000 [0x61]))).val
        (memOf 0x10000 debugOnlyFile) = .ok (.ok, ⟨⟨0x10100, 23⟩, .null, ⟨0x10040, 192⟩⟩) ∧
      ¬ ContentsFaithful (memOf 0x10000 debugOnlyFile) .elf64 debugOnlyFile
        (openedHandle .elf64 debugOnlyFile 0x10000 [0x61]) := by
  have hlookup : lookup .elf64 debugOnlyFile ehFrameName = some ⟨13, nobits, 0, 64, 192⟩ := by
    decide +kernel
  have hcollect : (elfCollectDwarf (some (openedHandle .elf64 debugOnlyFile 0x10000 [0x61]))).val
      (memOf 0x10000 debugOnlyFile) = .ok (.ok, ⟨⟨0x10100, 23⟩, .null, ⟨0x10040, 192⟩⟩) := by
    decide +kernel
  have hf : WellFormed .elf64 debugOnlyFile :=
    ⟨by decide +kernel, by decide +kernel, by decide +kernel, by decide +kernel,
      by decide +kernel, by decide +kernel, by decide +kernel, by decide +kernel,
      by decide +kernel, by decide +kernel, by decide +kernel⟩
  refine ⟨by decide +kernel, hf, hlookup, hcollect, fun hfaithful => ?_⟩
  obtain ⟨-, -, heh⟩ := hfaithful _ hcollect
  rw [hlookup, Faithful, if_neg (by decide)] at heh
  exact absurd heh (by decide)

/-- A section that is not compressed is taken as it is. -/
theorem plainInfo_contents :
    ContentsFaithful (memOf 0x10000 (infoFile 192 13)) .elf64 (infoFile 192 13) infoHandle := by
  have hopen : (elfOpen infoCalls (some infoHandle.path)).val (memOf 0x10000 (infoFile 192 13)) =
      .ok infoHandle := by
    decide +kernel
  have hplain : ∀ s ∈ Elf.sectionHeaders .elf64 (infoFile 192 13), s.Plain := by decide +kernel
  exact (contentsFaithful_iff wellFormed_infoFile loads_infoFile hopen).mpr
    fun _ _ _ s hs => .inl (hplain s (lookup_mem hs))

end Dwunw
