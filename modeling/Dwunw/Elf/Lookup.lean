import Dwunw.Elf.Headers
import Dwunw.Lib.Elf

/-!
The loader on well-formed files.

`Lib/Elf.lean` says what the sections of a file are.  The loader works on an image of the file in
memory, with 64-bit words and the offsets of `<elf.h>`; on a well-formed file it finds just these
sections.

* `Loads`: the system calls of `dwunw_elf_open` succeed, and the image holds the file.
* `openedHandle`, `elfOpen_openedHandle`: the handle of a well-formed file.
* `val_getSection_openedHandle`: a lookup is `Elf.lookup`, behind the comparison of the range.
* `Collects`, `collects_iff`: when a collection succeeds.
* `LookupCorrect`, `elfOpen_lookupCorrect`: where all ranges are inside, a lookup answers with
  the range of the first section of the name, and the collection with all sections there are.
-/

namespace Dwunw

open Traced Elf

/-- The calls of `dwunw_elf_open` succeed, with an image that holds this file. -/
structure Loads (calls : ElfCalls) (m : ByteMem) (f : List UInt8) : Prop where
  opened : ¬ calls.fd < 0
  stat : calls.fstatSize = some (UInt64.ofNat f.length)
  block : calls.malloc (UInt64.ofNat f.length) ≠ 0
  block_le : (calls.malloc (UInt64.ofNat f.length)).toNat + f.length < 2 ^ 64
  read : calls.pread (UInt64.ofNat f.length) = f.length
  holds : Holds m (calls.malloc (UInt64.ofNat f.length)) f

/-- The layout of a class, as the loader has it. -/
def modelLayout : FileClass → ElfLayout
  | .elf32 => elf32Layout
  | .elf64 => elf64Layout

/-- The handle of a well-formed file behind `dwunw_elf_parse_headers`. -/
def parsedHandle (c : FileClass) (f : List UInt8) (image : UInt64) : ElfHandle :=
  { ElfHandle.zero with
    image
    size := UInt64.ofNat f.length
    elfClass := c.byte
    elfData := littleEndian
    shoff := UInt64.ofNat (header c f).shoff
    shentsize := UInt16.ofNat (header c f).shentsize
    shnum := UInt16.ofNat (header c f).shnum
    shstrndx := UInt16.ofNat (header c f).shstrndx }

/-- The handle of a well-formed file behind `dwunw_elf_open`. -/
def openedHandle (c : FileClass) (f : List UInt8) (image : UInt64) (path : CString) : ElfHandle :=
  { parsedHandle c f image with
    path := path.take (maxPathLen - 1)
    shstrtab := image + UInt64.ofNat (nameTable c f).offset }

variable {m : ByteMem} {c : FileClass} {f : List UInt8} {image : UInt64} {i : ℕ} {path : CString}

/-! ### Fields -/

/-- A field of the image is the number in the file. -/
lemma fieldAt_file (h : Holds m image f) {o n : ℕ} (hle : o + n ≤ f.length) :
    fieldAt m n (image + UInt64.ofNat o) = UInt64.ofNat (number f o n) := by
  rw [fieldAt, number, peek_of_holds h hle]

lemma layout_parsedHandle (c : FileClass) (f : List UInt8) (image : UInt64) :
    (parsedHandle c f image).layout = modelLayout c := by
  cases c with
  | elf32 => rfl
  | elf64 => rfl

/-- The loader and the format have the same layouts. -/
lemma modelLayout_eq (c : FileClass) :
    modelLayout c = ⟨UInt64.ofNat c.layout.headerSize, UInt64.ofNat c.layout.shoff,
      UInt64.ofNat c.layout.shentsize, UInt64.ofNat c.layout.shnum,
      UInt64.ofNat c.layout.shstrndx, c.layout.wordSize, UInt64.ofNat c.layout.name,
      UInt64.ofNat c.layout.offset, UInt64.ofNat c.layout.size⟩ := by
  cases c with
  | elf32 => rfl
  | elf64 => rfl

/-- The fields of the ELF header are in it, and those of a section header in that. -/
lemma layout_le (c : FileClass) :
    16 ≤ c.layout.headerSize ∧ c.layout.headerSize ≤ 64 ∧
      c.layout.shoff + c.layout.wordSize ≤ c.layout.headerSize ∧
      c.layout.shentsize + 2 ≤ c.layout.headerSize ∧ c.layout.shnum + 2 ≤ c.layout.headerSize ∧
      c.layout.shstrndx + 2 ≤ c.layout.headerSize ∧ c.layout.wordSize ≤ 8 ∧
      c.layout.name + 4 ≤ c.layout.entrySize ∧
      c.layout.offset + c.layout.wordSize ≤ c.layout.entrySize ∧
      c.layout.size + c.layout.wordSize ≤ c.layout.entrySize := by
  cases c with
  | elf32 => decide
  | elf64 => decide

lemma word_lt (hn : i ≤ 8) (o : ℕ) : number f o i < 2 ^ 64 :=
  (number_lt f o i).trans_le (Nat.pow_le_pow_right (by decide) hn)

lemma half_lt (o : ℕ) : number f o 2 < 2 ^ 16 := number_lt f o 2

lemma header_shnum_lt : (header c f).shnum < 2 ^ 16 := half_lt _

lemma header_shentsize_lt : (header c f).shentsize < 2 ^ 16 := half_lt _

/-! ### Entries of the section table -/

/-- The offset of an entry does not wrap. -/
lemma entryOffset_parsedHandle (hf : WellFormed c f) (hlen : f.length < 2 ^ 64)
    (hi : i < (header c f).shnum) :
    entryOffset (parsedHandle c f image) (UInt16.ofNat i) = UInt64.ofNat (entry c f i) := by
  have hle := hf.entry_le hi
  have hnum := header_shnum_lt (c := c) (f := f)
  have hsize := header_shentsize_lt (c := c) (f := f)
  apply UInt64.toNat_inj.mp
  rw [entry] at hle
  rw [entryOffset, parsedHandle, UInt64.toNat_add, UInt64.toNat_mul, UInt16.toNat_toUInt64,
    UInt16.toNat_toUInt64, UInt16.toNat_ofNat', UInt16.toNat_ofNat', UInt64.toNat_ofNat',
    UInt64.toNat_ofNat', Nat.mod_eq_of_lt (a := i) (by omega), Nat.mod_eq_of_lt hsize,
    Nat.mod_eq_of_lt (a := (header c f).shoff) (by omega),
    Nat.mod_eq_of_lt (a := i * _) (by omega), entry]

/-- The entries of the table are not rejected. -/
lemma elfSectionHeader_parsedHandle (hf : WellFormed c f) (hlen : f.length < 2 ^ 64)
    (hi : i < (header c f).shnum) :
    elfSectionHeader (parsedHandle c f image) (UInt16.ofNat i) =
      some (image + UInt64.ofNat (entry c f i)) := by
  have hle := hf.entry_le hi
  have hsize := header_shentsize_lt (c := c) (f := f)
  rw [elfSectionHeader_eq_some, entryOffset_parsedHandle hf hlen hi]
  refine ⟨?_, rfl⟩
  show ((UInt64.ofNat (entry c f i)).toNat + (UInt16.ofNat (header c f).shentsize).toNat) % 2 ^ 64 ≤
    (UInt64.ofNat f.length).toNat
  rw [UInt64.toNat_ofNat', UInt16.toNat_ofNat', UInt64.toNat_ofNat', Nat.mod_eq_of_lt hsize,
    Nat.mod_eq_of_lt hlen, Nat.mod_eq_of_lt (a := entry c f i) (by omega)]
  exact (Nat.mod_le _ _).trans hle

/-- A field of a section header, inside the entry. -/
lemma fieldAt_entry (h : Holds m image f) (hf : WellFormed c f) (hi : i < (header c f).shnum)
    {o n : ℕ} (hle : o + n ≤ c.layout.entrySize) :
    fieldAt m n (image + UInt64.ofNat (entry c f i) + UInt64.ofNat o) =
      UInt64.ofNat (number f (entry c f i + o) n) := by
  have hentry := hf.entry_le hi
  have hsize := hf.entry_size
  rw [UInt64.add_assoc, ← UInt64.ofNat_add]
  exact fieldAt_file h (by omega)

lemma shOffsetAt_entry (h : Holds m image f) (hf : WellFormed c f)
    (hi : i < (header c f).shnum) :
    shOffsetAt m (parsedHandle c f image) (image + UInt64.ofNat (entry c f i)) =
      UInt64.ofNat (sectionHeader c f i).offset := by
  obtain ⟨-, -, -, -, -, -, -, -, hle, -⟩ := layout_le c
  rw [shOffsetAt, layout_parsedHandle, modelLayout_eq]
  exact fieldAt_entry h hf hi hle

lemma shSizeAt_entry (h : Holds m image f) (hf : WellFormed c f) (hi : i < (header c f).shnum) :
    shSizeAt m (parsedHandle c f image) (image + UInt64.ofNat (entry c f i)) =
      UInt64.ofNat (sectionHeader c f i).size := by
  obtain ⟨-, -, -, -, -, -, -, -, -, hle⟩ := layout_le c
  rw [shSizeAt, layout_parsedHandle, modelLayout_eq]
  exact fieldAt_entry h hf hi hle

/-! ### Opening -/

/-- A file of a class is long enough for its header, and no longer than a word can say. -/
lemma parseClassHeader_file (h : Holds m image f) (hf : WellFormed c f) (hlen : f.length < 2 ^ 64) :
    (parseClassHeader (modelLayout c)
      { ElfHandle.zero with
        image
        size := UInt64.ofNat f.length
        elfClass := c.byte
        elfData := littleEndian }).val m = .ok (parsedHandle c f image) := by
  obtain ⟨-, hsmall, hshoff, hshentsize, hshnum, hshstrndx, -⟩ := layout_le c
  have hle := hf.header_le
  have hfield {o n : ℕ} (ho : o + n ≤ c.layout.headerSize) :
      (elfField .header n (image + UInt64.ofNat o)).val m = .ok (UInt64.ofNat (number f o n)) := by
    rw [val_elfField, fieldAt_file h (by omega)]
  have hlong : ¬ UInt64.ofNat f.length < UInt64.ofNat c.layout.headerSize := by
    rw [UInt64.lt_iff_toNat_lt, UInt64.toNat_ofNat', UInt64.toNat_ofNat', Nat.mod_eq_of_lt hlen,
      Nat.mod_eq_of_lt (by omega)]
    omega
  rw [modelLayout_eq, parseClassHeader, if_neg hlong, val_bind_ok (hfield hshoff),
    val_bind_ok (hfield hshentsize), val_bind_ok (hfield hshnum), val_bind_ok (hfield hshstrndx),
    val_pure]
  have hword (n : ℕ) : (UInt64.ofNat n).toUInt16 = UInt16.ofNat n := by
    apply UInt16.toNat_inj.mp
    rw [UInt64.toNat_toUInt16, UInt64.toNat_ofNat', UInt16.toNat_ofNat',
      Nat.mod_mod_of_dvd n (by decide)]
  rw [parsedHandle, header, ← hword, ← hword, ← hword]

/-- The table of a well-formed file is there. -/
lemma parsedHandle_table (hf : WellFormed c f) (hlen : f.length < 2 ^ 64) :
    ¬ ((parsedHandle c f image).shoff = 0 ∨ (parsedHandle c f image).shentsize = 0 ∨
      (parsedHandle c f image).shnum = 0) := by
  obtain ⟨-, -, -, -, -, -, -, hname, -⟩ := layout_le c
  have hpos := hf.shoff_pos
  have htable := hf.table
  have hentry := hf.entry_size
  have hindex := hf.shstrndx_lt
  have hnum := header_shnum_lt (c := c) (f := f)
  have hsize := header_shentsize_lt (c := c) (f := f)
  rw [← UInt64.toNat_inj, ← UInt16.toNat_inj, ← UInt16.toNat_inj]
  dsimp only [parsedHandle]
  rw [UInt64.toNat_ofNat', UInt16.toNat_ofNat', UInt16.toNat_ofNat', Nat.mod_eq_of_lt (by omega),
    Nat.mod_eq_of_lt hsize, Nat.mod_eq_of_lt hnum]
  show ¬ (_ = 0 ∨ _ = 0 ∨ _ = 0)
  omega

/-- `dwunw_elf_parse_headers` accepts a well-formed file. -/
lemma elfParseHeaders_file (h : Holds m image f) (hf : WellFormed c f) (hlen : f.length < 2 ^ 64) :
    (elfParseHeaders { ElfHandle.zero with image, size := UInt64.ofNat f.length }).val m =
      .ok (parsedHandle c f image) := by
  obtain ⟨hbig, -⟩ := layout_le c
  have hle := hf.header_le
  have hlong : ¬ UInt64.ofNat f.length < eiNident := by
    rw [UInt64.lt_iff_toNat_lt, UInt64.toNat_ofNat', Nat.mod_eq_of_lt hlen,
      show eiNident.toNat = 16 from rfl]
    omega
  have hmagic : peek m elfMag.length image = elfMag := by
    have hpeek := peek_of_holds h (show 0 + 4 ≤ f.length by omega)
    rw [List.drop_zero, hf.ident, show image + UInt64.ofNat 0 = image from UInt64.add_zero _]
      at hpeek
    exact hpeek
  have hbyte {k : ℕ} {b : UInt8} (hb : f[k]? = some b) : m (image + UInt64.ofNat k) = b := by
    obtain ⟨hk, hget⟩ := List.getElem?_eq_some_iff.mp hb
    have hrest := holds_drop h hk.le
    rw [List.drop_eq_getElem_cons hk, hget] at hrest
    exact hrest.1
  have hclass : m (image + eiClass) = c.byte := hbyte hf.fileClass
  have hdata : m (image + eiData) = elfData2Lsb := hbyte hf.data
  have hparse := parseClassHeader_file h hf hlen
  have htable : ¬ ((parsedHandle c f image).shoff = 0 ∨ (parsedHandle c f image).shentsize = 0 ∨
      (parsedHandle c f image).shnum = 0) := parsedHandle_table hf hlen
  rw [elfParseHeaders, if_neg hlong, val_bind_ok (val_bytes _ _ _ _), hmagic,
    if_neg (not_not.mpr rfl), val_byte_bind, val_byte_bind, if_neg (not_not.mpr hdata)]
  dsimp only
  rw [hclass, hdata]
  cases c with
  | elf32 =>
      rw [if_neg (by decide), if_pos (show FileClass.elf32.byte = elfClass32 from rfl)]
      refine (val_bind_ok hparse _).trans ?_
      rw [if_neg htable, val_pure]
  | elf64 =>
      rw [if_pos (show FileClass.elf64.byte = elfClass64 from rfl)]
      refine (val_bind_ok hparse _).trans ?_
      rw [if_neg htable, val_pure]

/-- The string table of a well-formed file is found. -/
lemma elfLocateShstrtab_file (h : Holds m image f) (hf : WellFormed c f)
    (hlen : f.length < 2 ^ 64) :
    (elfLocateShstrtab (parsedHandle c f image)).val m =
      .ok { parsedHandle c f image with
        shstrtab := image + UInt64.ofNat (nameTable c f).offset } := by
  have hindex := hf.shstrndx_lt
  have hnum := header_shnum_lt (c := c) (f := f)
  have htable := hf.nameTable_le
  have hlt : ¬ (parsedHandle c f image).shnum ≤ (parsedHandle c f image).shstrndx := by
    rw [UInt16.le_iff_toNat_le]
    dsimp only [parsedHandle]
    rw [UInt16.toNat_ofNat', UInt16.toNat_ofNat', Nat.mod_eq_of_lt hnum,
      Nat.mod_eq_of_lt (by omega)]
    omega
  have hsh : elfSectionHeader (parsedHandle c f image) (parsedHandle c f image).shstrndx =
      some (image + UInt64.ofNat (entry c f (header c f).shstrndx)) :=
    elfSectionHeader_parsedHandle hf hlen hindex
  rw [elfLocateShstrtab, if_neg hlt, hsh]
  dsimp only
  rw [val_bind_ok (val_sectionRange _), shOffsetAt_entry h hf hindex, shSizeAt_entry h hf hindex]
  dsimp only
  rw [if_neg, val_pure]
  · rfl
  · rw [← UInt64.ofNat_add, UInt64.lt_iff_toNat_lt]
    dsimp only [parsedHandle]
    rw [UInt64.toNat_ofNat', UInt64.toNat_ofNat', Nat.mod_eq_of_lt hlen]
    exact Nat.not_lt.mpr ((Nat.mod_le _ _).trans htable)

/-- A well-formed file is opened. -/
theorem elfOpen_openedHandle {calls : ElfCalls} (hf : WellFormed c f) (hcalls : Loads calls m f) :
    (elfOpen calls (some path)).val m =
      .ok (openedHandle c f (calls.malloc (UInt64.ofNat f.length)) path) := by
  obtain ⟨hbig, -⟩ := layout_le c
  have hle := hf.header_le
  have hblock := hcalls.block_le
  have hlen : f.length < 2 ^ 64 := by omega
  have hsize : (UInt64.ofNat f.length).toNat = f.length := by
    rw [UInt64.toNat_ofNat', Nat.mod_eq_of_lt hlen]
  have hpos : UInt64.ofNat f.length ≠ 0 := by
    intro hzero
    have := congrArg UInt64.toNat hzero
    rw [hsize, show (0 : UInt64).toNat = 0 from rfl] at this
    omega
  have hread : ¬ (calls.pread (UInt64.ofNat f.length) < 0 ∨
      calls.pread (UInt64.ofNat f.length) ≠ (UInt64.ofNat f.length).toNat) := by
    rw [hcalls.read, hsize]
    omega
  have hload : (elfLoadImage calls .zero (UInt64.ofNat f.length)).val m =
      .ok { ElfHandle.zero with
        image := calls.malloc (UInt64.ofNat f.length), size := UInt64.ofNat f.length } := by
    rw [elfLoadImage]
    dsimp only
    rw [if_neg hcalls.block, if_neg hread, val_pure]
  rw [elfOpen, if_neg hcalls.opened, hcalls.stat]
  dsimp only
  rw [if_neg hpos, val_bind_ok hload, elfInitialize]
  have hinit := elfLocateShstrtab_file hcalls.holds hf hlen
  rw [val_bind_ok (by
    rw [val_bind_ok (elfParseHeaders_file hcalls.holds hf hlen)]
    exact hinit), val_pure]
  rfl

/-! ### Lookups -/

/-- The slice of a section. -/
def sliceOf (image : UInt64) (s : SectionHeader) : Section :=
  ⟨image + UInt64.ofNat s.offset, UInt64.ofNat s.size⟩

/-- The range of a section passes the comparison with the size of the file, with a 64-bit sum. -/
def AcceptedRange (f : List UInt8) (s : SectionHeader) : Prop :=
  (s.offset + s.size) % 2 ^ 64 ≤ f.length

instance (f : List UInt8) : DecidablePred (AcceptedRange f) :=
  fun _ => inferInstanceAs (Decidable (_ ≤ _))

/-- What a lookup answers, from the section that the file has. -/
def sectionAnswer (f : List UInt8) (image : UInt64) (out : Section) :
    Option SectionHeader → Status × Section
  | none => (.noDebugData, out)
  | some s => if AcceptedRange f s then (.ok, sliceOf image s) else (.badFormat, .null)

/-- The headers of the table are the entries of the file. -/
lemma sectionHeaders_openedHandle (hf : WellFormed c f) (hlen : f.length < 2 ^ 64) :
    sectionHeaders (openedHandle c f image path) =
      (List.range (header c f).shnum).map fun i => image + UInt64.ofNat (entry c f i) := by
  have hnum : (openedHandle c f image path).shnum.toNat = (header c f).shnum := by
    show (UInt16.ofNat _).toNat = _
    rw [UInt16.toNat_ofNat', Nat.mod_eq_of_lt header_shnum_lt]
  rw [sectionHeaders, hnum, ← List.range_eq_range', ← List.filterMap_eq_map]
  refine List.filterMap_congr fun i hi => ?_
  exact elfSectionHeader_parsedHandle hf hlen (List.mem_range.mp hi)

/-- The comparison finds the section whose name is the one asked for. -/
lemma named_openedHandle (h : Holds m image f) (hf : WellFormed c f) (hi : i < (header c f).shnum)
    {name : CString} (hname : 0 ∉ name) :
    Named m (openedHandle c f image path) name (image + UInt64.ofNat (entry c f i)) ↔
      sectionName c f (sectionHeader c f i) = name := by
  have hzero := hf.name_terminated (sectionHeader_mem hi)
  obtain ⟨-, -, -, -, -, -, -, hle, -⟩ := layout_le c
  have hfield : fieldAt m 4 (image + UInt64.ofNat (entry c f i) +
      (openedHandle c f image path).layout.shName) =
        UInt64.ofNat (sectionHeader c f i).name := by
    rw [show (openedHandle c f image path).layout = modelLayout c from
      layout_parsedHandle c f image, modelLayout_eq]
    exact fieldAt_entry h hf hi hle
  have hlong : (nameTable c f).offset + (sectionHeader c f i).name ≤ f.length := by
    have hpos := List.length_pos_of_mem hzero
    rw [List.length_drop] at hpos
    omega
  have hat : (openedHandle c f image path).shstrtab + UInt64.ofNat (sectionHeader c f i).name =
      image + UInt64.ofNat ((nameTable c f).offset + (sectionHeader c f i).name) := by
    rw [UInt64.ofNat_add, ← UInt64.add_assoc]
    rfl
  rw [Named, hfield, hat, holds_string_iff hname hzero (holds_drop h hlong), sectionName, stringAt]

/-- The range of a section, as the loader compares it. -/
lemma rangeAccepted_openedHandle (h : Holds m image f) (hf : WellFormed c f)
    (hlen : f.length < 2 ^ 64) (hi : i < (header c f).shnum) :
    RangeAccepted m (openedHandle c f image path) (image + UInt64.ofNat (entry c f i)) ↔
      AcceptedRange f (sectionHeader c f i) := by
  have hoffset : shOffsetAt m (openedHandle c f image path) (image + UInt64.ofNat (entry c f i)) =
      UInt64.ofNat (sectionHeader c f i).offset := shOffsetAt_entry h hf hi
  have hsize : shSizeAt m (openedHandle c f image path) (image + UInt64.ofNat (entry c f i)) =
      UInt64.ofNat (sectionHeader c f i).size := shSizeAt_entry h hf hi
  rw [RangeAccepted, AcceptedRange, hoffset, hsize, ← UInt64.ofNat_add, UInt64.not_lt,
    UInt64.le_iff_toNat_le, UInt64.toNat_ofNat',
    show (openedHandle c f image path).size.toNat = f.length from
      (UInt64.toNat_ofNat').trans (Nat.mod_eq_of_lt hlen)]

lemma sliceAt_openedHandle (h : Holds m image f) (hf : WellFormed c f)
    (hi : i < (header c f).shnum) :
    sliceAt m (openedHandle c f image path) (image + UInt64.ofNat (entry c f i)) =
      sliceOf image (sectionHeader c f i) := by
  have hoffset : shOffsetAt m (openedHandle c f image path) (image + UInt64.ofNat (entry c f i)) =
      UInt64.ofNat (sectionHeader c f i).offset := shOffsetAt_entry h hf hi
  have hsize : shSizeAt m (openedHandle c f image path) (image + UInt64.ofNat (entry c f i)) =
      UInt64.ofNat (sectionHeader c f i).size := shSizeAt_entry h hf hi
  rw [sliceAt, sliceOf, hoffset, hsize]
  rfl

/-- A lookup in a well-formed file. -/
theorem val_getSection_openedHandle (h : Holds m image f) (hf : WellFormed c f)
    (hlen : f.length < 2 ^ 64) {name : CString} (hname : 0 ∉ name) (out : Section) :
    (elfGetSection (some (openedHandle c f image path)) (some name) out).val m =
      .ok (sectionAnswer f image out (lookup c f name)) := by
  have hsearch : headerOf m (openedHandle c f image path) name =
      ((List.range (header c f).shnum).find? fun i =>
        decide (sectionName c f (sectionHeader c f i) = name)).map
          fun i => image + UInt64.ofNat (entry c f i) := by
    rw [headerOf, sectionHeaders_openedHandle hf hlen, List.find?_map]
    refine congrArg (Option.map _) (List.find?_congr fun i hi => ?_)
    exact decide_eq_decide.mpr (named_openedHandle h hf (List.mem_range.mp hi) hname)
  have hlookup : lookup c f name = ((List.range (header c f).shnum).find? fun i =>
      decide (sectionName c f (sectionHeader c f i) = name)).map (sectionHeader c f) :=
    List.find?_map
  rw [val_elfGetSection, hsearch, hlookup]
  cases hfind : (List.range (header c f).shnum).find? fun i =>
      decide (sectionName c f (sectionHeader c f i) = name) with
  | none => rfl
  | some i =>
      have hi := List.mem_range.mp (List.mem_of_find?_eq_some hfind)
      rw [Option.map_some, Option.map_some, lookupResult, sectionAnswer,
        sliceAt_openedHandle h hf hi]
      simp only [rangeAccepted_openedHandle h hf hlen hi]

/-! ### Collections -/

/-- The collection succeeds when all three lookups do. -/
lemma elfCollectDwarf_ok_iff {handle : Option ElfHandle} {sections : Sections} :
    (elfCollectDwarf handle).val m = .ok (.ok, sections) ↔
      (elfGetSection handle (some debugInfoName) .null).val m = .ok (.ok, sections.debugInfo) ∧
        (collectOptional handle debugFrameName).val m = .ok (.ok, sections.debugFrame) ∧
        (collectOptional handle ehFrameName).val m = .ok (.ok, sections.ehFrame) := by
  constructor
  · intro hcollect
    obtain ⟨⟨st₁, info⟩, hinfo, hcollect⟩ := val_bind_eq_ok hcollect
    dsimp only at hcollect
    split_ifs at hcollect with hst₁
    · cases hcollect
      exact absurd rfl hst₁
    obtain ⟨⟨st₂, frame⟩, hframe, hcollect⟩ := val_bind_eq_ok hcollect
    dsimp only at hcollect
    split_ifs at hcollect with hst₂
    · cases hcollect
      exact absurd rfl hst₂
    obtain ⟨⟨st₃, eh⟩, heh, hcollect⟩ := val_bind_eq_ok hcollect
    cases hcollect
    rw [hinfo, hframe, heh, not_not.mp hst₁, not_not.mp hst₂]
    exact ⟨rfl, rfl, rfl⟩
  · rintro ⟨hinfo, hframe, heh⟩
    rw [elfCollectDwarf, val_bind_ok hinfo]
    dsimp only
    rw [if_neg (not_not.mpr rfl), val_bind_ok hframe]
    dsimp only
    rw [if_neg (not_not.mpr rfl), val_bind_ok heh]
    rfl

/-- A descriptor is empty where the file has no such section, else the slice of the section. -/
def Describes (f : List UInt8) (image : UInt64) : Option SectionHeader → Section → Prop
  | none, d => d = .null
  | some s, d => AcceptedRange f s ∧ d = sliceOf image s

lemma getSection_ok_iff (h : Holds m image f) (hf : WellFormed c f) (hlen : f.length < 2 ^ 64)
    {name : CString} (hname : 0 ∉ name) {d : Section} :
    (elfGetSection (some (openedHandle c f image path)) (some name) .null).val m = .ok (.ok, d) ↔
      lookup c f name ≠ none ∧ Describes f image (lookup c f name) d := by
  rw [val_getSection_openedHandle h hf hlen hname]
  cases lookup c f name with
  | none => simp [sectionAnswer]
  | some s =>
      by_cases haccepted : AcceptedRange f s
      · simp [sectionAnswer, Describes, haccepted, eq_comm]
      · simp [sectionAnswer, Describes, haccepted]

lemma collectOptional_ok_iff (h : Holds m image f) (hf : WellFormed c f) (hlen : f.length < 2 ^ 64)
    {name : CString} (hname : 0 ∉ name) {d : Section} :
    (collectOptional (some (openedHandle c f image path)) name).val m = .ok (.ok, d) ↔
      Describes f image (lookup c f name) d := by
  rw [collectOptional, val_bind_ok (val_getSection_openedHandle h hf hlen hname .null)]
  cases lookup c f name with
  | none => simp [sectionAnswer, Describes, eq_comm]
  | some s =>
      by_cases haccepted : AcceptedRange f s
      · simp [sectionAnswer, Describes, haccepted, eq_comm]
      · simp [sectionAnswer, Describes, haccepted]

/-- The collection of a well-formed file. -/
theorem collectDwarf_openedHandle (h : Holds m image f) (hf : WellFormed c f)
    (hlen : f.length < 2 ^ 64) {sections : Sections} :
    (elfCollectDwarf (some (openedHandle c f image path))).val m = .ok (.ok, sections) ↔
      lookup c f debugInfoName ≠ none ∧
        Describes f image (lookup c f debugInfoName) sections.debugInfo ∧
        Describes f image (lookup c f debugFrameName) sections.debugFrame ∧
        Describes f image (lookup c f ehFrameName) sections.ehFrame := by
  rw [elfCollectDwarf_ok_iff, getSection_ok_iff h hf hlen (by decide),
    collectOptional_ok_iff h hf hlen (by decide), collectOptional_ok_iff h hf hlen (by decide),
    and_assoc]

/-- The sections that are collected. -/
def dwarfNames : List CString := [debugInfoName, debugFrameName, ehFrameName]

/-- The file has a `.debug_info`, and the ranges of the three sections pass the comparison. -/
def Collects (c : FileClass) (f : List UInt8) : Prop :=
  lookup c f debugInfoName ≠ none ∧
    ∀ name ∈ dwarfNames, ∀ s, lookup c f name = some s → AcceptedRange f s

/-- A collection succeeds exactly when the three ranges pass. -/
lemma collects_iff (path : CString) (hholds : Holds m image f) (hf : WellFormed c f)
    (hlen : f.length < 2 ^ 64) :
    (∃ sections, (elfCollectDwarf (some (openedHandle c f image path))).val m =
      .ok (.ok, sections)) ↔ Collects c f := by
  have hdescribes (name : CString) : (∃ d, Describes f image (lookup c f name) d) ↔
      ∀ s, lookup c f name = some s → AcceptedRange f s := by
    cases lookup c f name with
    | none => simp [Describes]
    | some s => simp [Describes]
  rw [Collects, dwarfNames, List.forall_mem_cons, List.forall_mem_cons, List.forall_mem_singleton,
    ← hdescribes, ← hdescribes, ← hdescribes]
  simp only [collectDwarf_openedHandle hholds hf hlen]
  constructor
  · rintro ⟨sections, hsome, hinfo, hframe, heh⟩
    exact ⟨hsome, ⟨_, hinfo⟩, ⟨_, hframe⟩, ⟨_, heh⟩⟩
  · rintro ⟨hsome, ⟨info, hinfo⟩, ⟨frame, hframe⟩, ⟨eh, heh⟩⟩
    exact ⟨⟨info, frame, eh⟩, hsome, hinfo, hframe, heh⟩

/-! ### Files with all ranges inside -/

/-- The loader finds the sections that the file has. -/
structure LookupCorrect (m : ByteMem) (c : FileClass) (f : List UInt8) (h : ElfHandle) : Prop where
  found : ∀ name out s, 0 ∉ name → lookup c f name = some s →
    (elfGetSection (some h) (some name) out).val m = .ok (.ok, sliceOf h.image s)
  missing : ∀ name out, 0 ∉ name →
    ((∃ r, (elfGetSection (some h) (some name) out).val m = .ok (.noDebugData, r)) ↔
      ∀ s ∈ Elf.sectionHeaders c f, sectionName c f s ≠ name)
  collects : (∃ sections, (elfCollectDwarf (some h)).val m = .ok (.ok, sections)) ↔
    ∃ s ∈ Elf.sectionHeaders c f, sectionName c f s = debugInfoName
  collected : ∀ sections, (elfCollectDwarf (some h)).val m = .ok (.ok, sections) →
    Describes f h.image (lookup c f debugInfoName) sections.debugInfo ∧
      Describes f h.image (lookup c f debugFrameName) sections.debugFrame ∧
      Describes f h.image (lookup c f ehFrameName) sections.ehFrame
  emptyFrame : ∀ sections, (elfCollectDwarf (some h)).val m = .ok (.ok, sections) →
    (sections.debugFrame = .null ↔
        ∀ s ∈ Elf.sectionHeaders c f, sectionName c f s ≠ debugFrameName) ∧
      (sections.ehFrame = .null ↔ ∀ s ∈ Elf.sectionHeaders c f, sectionName c f s ≠ ehFrameName)

/-- A range that is inside is accepted. -/
lemma acceptedRange_of_inside (hranges : RangesInside c f) {name : List UInt8} {s : SectionHeader}
    (hs : lookup c f name = some s) : AcceptedRange f s :=
  (Nat.mod_le _ _).trans (hranges s (lookup_mem hs))

/-- The slice of a section is not the empty descriptor. -/
lemma sliceOf_ne_null {s : SectionHeader} (himage : image ≠ 0)
    (hblock : image.toNat + f.length < 2 ^ 64) (hs : s.offset + s.size ≤ f.length) :
    sliceOf image s ≠ .null := by
  intro hnull
  have hdata : image + UInt64.ofNat s.offset = 0 := congrArg Section.data hnull
  have hnat := congrArg UInt64.toNat hdata
  rw [UInt64.toNat_add_ofNat (by omega), show (0 : UInt64).toNat = 0 from rfl] at hnat
  exact himage (UInt64.toNat_inj.mp (by rw [show (0 : UInt64).toNat = 0 from rfl]; omega))

lemma Describes.null_iff (hranges : RangesInside c f) (himage : image ≠ 0)
    (hblock : image.toNat + f.length < 2 ^ 64) {name : List UInt8} {d : Section}
    (hd : Describes f image (lookup c f name) d) :
    d = .null ↔ ∀ s ∈ Elf.sectionHeaders c f, sectionName c f s ≠ name := by
  rw [← lookup_eq_none]
  cases hs : lookup c f name with
  | none =>
      rw [hs] at hd
      exact iff_of_true hd rfl
  | some s =>
      rw [hs] at hd
      rw [hd.2]
      exact iff_of_false (sliceOf_ne_null himage hblock (hranges s (lookup_mem hs)))
        (Option.some_ne_none s)

/-- A well-formed file with all ranges inside is opened, and its sections are found. -/
theorem elfOpen_lookupCorrect {calls : ElfCalls} (hf : WellFormed c f) (hranges : RangesInside c f)
    (hcalls : Loads calls m f) :
    ∃ h, (elfOpen calls (some path)).val m = .ok h ∧ LookupCorrect m c f h := by
  have hblock := hcalls.block_le
  have hlen : f.length < 2 ^ 64 := by omega
  have hget {name : CString} (hname : 0 ∉ name) (out : Section) :
      (elfGetSection (some (openedHandle c f (calls.malloc (UInt64.ofNat f.length)) path))
        (some name) out).val m = .ok (sectionAnswer f _ out (lookup c f name)) :=
    val_getSection_openedHandle hcalls.holds hf hlen hname out
  refine ⟨_, elfOpen_openedHandle hf hcalls, ?_, ?_, ?_, ?_, ?_⟩
  · intro name out s hname hs
    rw [hget hname, hs, sectionAnswer, if_pos (acceptedRange_of_inside hranges hs)]
    rfl
  · intro name out hname
    rw [← lookup_eq_none, hget hname]
    cases hs : lookup c f name with
    | none => simp [sectionAnswer]
    | some s => simp [sectionAnswer, acceptedRange_of_inside hranges hs]
  · rw [collects_iff path hcalls.holds hf hlen, Collects, and_iff_left fun name _ s hs =>
      acceptedRange_of_inside hranges hs, Ne, lookup_eq_none]
    push Not
    rfl
  · exact fun sections hcollect => ((collectDwarf_openedHandle hcalls.holds hf hlen).mp hcollect).2
  · intro sections hcollect
    obtain ⟨-, -, hframe, heh⟩ := (collectDwarf_openedHandle hcalls.holds hf hlen).mp hcollect
    exact ⟨hframe.null_iff hranges hcalls.block hblock, heh.null_iff hranges hcalls.block hblock⟩

/-- The file with one section is well-formed. -/
lemma wellFormed_infoFile : WellFormed .elf64 (infoFile 192 13) :=
  ⟨by decide +kernel, by decide +kernel, by decide +kernel, by decide +kernel, by decide +kernel,
    by decide +kernel, by decide +kernel, by decide +kernel, by decide +kernel,
    by decide +kernel, by decide +kernel⟩

lemma loads_infoFile : Loads infoCalls (memOf 0x10000 (infoFile 192 13)) (infoFile 192 13) :=
  ⟨by decide +kernel, by decide +kernel, by decide +kernel, by decide +kernel, by decide +kernel,
    holds_memOf _ (by decide +kernel)⟩

/-- A file with one section. -/
theorem plainInfo_lookupCorrect :
    ∃ h, (elfOpen infoCalls (some infoHandle.path)).val (memOf 0x10000 (infoFile 192 13)) = .ok h ∧
      LookupCorrect (memOf 0x10000 (infoFile 192 13)) .elf64 (infoFile 192 13) h :=
  elfOpen_lookupCorrect wellFormed_infoFile (by decide +kernel) loads_infoFile

end Dwunw
