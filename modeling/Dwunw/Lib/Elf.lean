import Dwunw.Lib.Bytes

/-!
ELF files and their sections.

A file is the string of its bytes, and what its headers say are natural numbers, so that no sum
wraps.  The files are little-endian; a section is a header of the section table, and its name is
a C string in the string table of section names.

* `FileClass`, `Layout`: the two classes of files, and where their fields are.
* `header`, `sectionHeaders`, `sectionName`, `contents`: what a file says.
* `lookup`: the first section of a name.
* `WellFormed`: the headers, the names and the stored contents lie in the file, and
  `RangesInside`: so does every range, also that of a section that stores nothing.
* `entry_le`, `sectionHeader_mem`: the entries of the table of a well-formed file.
* `holds_string_iff`: how a comparison in memory finds a C string.
-/

namespace Elf

/-- The classes of ELF files. -/
inductive FileClass where
  | elf32
  | elf64
  deriving DecidableEq, Repr

/-- The size of the ELF header and the offsets of its fields, the width of an offset or a size,
and the size of a section header and the offsets of its fields. -/
structure Layout where
  headerSize : ℕ
  shoff : ℕ
  shentsize : ℕ
  shnum : ℕ
  shstrndx : ℕ
  wordSize : ℕ
  entrySize : ℕ
  name : ℕ
  type : ℕ
  flags : ℕ
  offset : ℕ
  size : ℕ

/-- The layout of a class. -/
def FileClass.layout : FileClass → Layout
  | .elf32 => ⟨52, 32, 46, 48, 50, 4, 40, 0, 4, 8, 16, 20⟩
  | .elf64 => ⟨64, 40, 58, 60, 62, 8, 64, 0, 4, 8, 24, 32⟩

/-- The class byte of the identification. -/
def FileClass.byte : FileClass → UInt8
  | .elf32 => 1
  | .elf64 => 2

/-- The first four bytes of a file. -/
def magic : List UInt8 := [0x7f, 0x45, 0x4c, 0x46]

/-- The byte of the identification that says that a file is little-endian. -/
def littleEndian : UInt8 := 1

/-- The number in the `n` bytes from an offset on. -/
def number (f : List UInt8) (o n : ℕ) : ℕ := leNat ((f.drop o).take n)

lemma number_lt (f : List UInt8) (o n : ℕ) : number f o n < 256 ^ n :=
  (leNat_lt _).trans_le (Nat.pow_le_pow_right (by decide) (List.length_take_le _ _))

/-! ### What a file says -/

/-- Where the section table is, how long and how many its entries are, and which of them is the
string table of section names. -/
structure Header where
  shoff : ℕ
  shentsize : ℕ
  shnum : ℕ
  shstrndx : ℕ
  deriving DecidableEq, Repr

/-- A section header. -/
structure SectionHeader where
  name : ℕ
  type : ℕ
  flags : ℕ
  offset : ℕ
  size : ℕ
  deriving DecidableEq, Repr

variable (c : FileClass) (f : List UInt8)

def header : Header where
  shoff := number f c.layout.shoff c.layout.wordSize
  shentsize := number f c.layout.shentsize 2
  shnum := number f c.layout.shnum 2
  shstrndx := number f c.layout.shstrndx 2

/-- The offset of an entry of the section table. -/
def entry (i : ℕ) : ℕ := (header c f).shoff + i * (header c f).shentsize

def sectionHeader (i : ℕ) : SectionHeader where
  name := number f (entry c f i + c.layout.name) 4
  type := number f (entry c f i + c.layout.type) 4
  flags := number f (entry c f i + c.layout.flags) c.layout.wordSize
  offset := number f (entry c f i + c.layout.offset) c.layout.wordSize
  size := number f (entry c f i + c.layout.size) c.layout.wordSize

/-- The section table. -/
def sectionHeaders : List SectionHeader :=
  (List.range (header c f).shnum).map (sectionHeader c f)

/-- The header of the string table of section names. -/
def nameTable : SectionHeader := sectionHeader c f (header c f).shstrndx

/-- The C string at an offset. -/
def stringAt (o : ℕ) : List UInt8 := (f.drop o).takeWhile (· ≠ 0)

def sectionName (s : SectionHeader) : List UInt8 := stringAt f ((nameTable c f).offset + s.name)

/-- The bytes in the range of a section. -/
def contents (s : SectionHeader) : List UInt8 := (f.drop s.offset).take s.size

/-- The first section of a name. -/
def lookup (name : List UInt8) : Option SectionHeader :=
  (sectionHeaders c f).find? fun s => decide (sectionName c f s = name)

/-- `SHT_NOBITS`: the section has a size, but nothing of it is stored. -/
def nobits : ℕ := 8

/-- `SHF_COMPRESSED`: what is stored are compressed data. -/
def compressedFlag : ℕ := 0x800

/-- The contents of the section are the bytes in its range. -/
def SectionHeader.Plain (s : SectionHeader) : Prop :=
  s.type ≠ nobits ∧ s.flags &&& compressedFlag = 0

instance : DecidablePred SectionHeader.Plain := fun _ => inferInstanceAs (Decidable (_ ∧ _))

/-- The headers, the section names and the stored contents lie in the file. -/
structure WellFormed : Prop where
  ident : f.take 4 = magic
  fileClass : f[4]? = some c.byte
  data : f[5]? = some littleEndian
  header_le : c.layout.headerSize ≤ f.length
  shoff_pos : 0 < (header c f).shoff
  entry_size : c.layout.entrySize ≤ (header c f).shentsize
  table : (header c f).shoff + (header c f).shnum * (header c f).shentsize ≤ f.length
  shstrndx_lt : (header c f).shstrndx < (header c f).shnum
  nameTable_le : (nameTable c f).offset + (nameTable c f).size ≤ f.length
  names : ∀ s ∈ sectionHeaders c f, 0 ∈ (contents f (nameTable c f)).drop s.name
  stored : ∀ s ∈ sectionHeaders c f, s.type ≠ nobits → s.offset + s.size ≤ f.length

/-- Every section lies in the file. -/
def RangesInside : Prop := ∀ s ∈ sectionHeaders c f, s.offset + s.size ≤ f.length

instance : Decidable (RangesInside c f) :=
  inferInstanceAs (Decidable (∀ s ∈ sectionHeaders c f, _ ≤ _))

variable {c f} {i : ℕ}

lemma sectionHeader_mem (hi : i < (header c f).shnum) :
    sectionHeader c f i ∈ sectionHeaders c f :=
  List.mem_map_of_mem (List.mem_range.mpr hi)

/-- An entry of the table lies in the file. -/
lemma WellFormed.entry_le (hf : WellFormed c f) (hi : i < (header c f).shnum) :
    entry c f i + (header c f).shentsize ≤ f.length := by
  have hnext : (i + 1) * (header c f).shentsize ≤ (header c f).shnum * (header c f).shentsize :=
    Nat.mul_le_mul_right _ hi
  have htable := hf.table
  rw [Nat.add_mul, Nat.one_mul] at hnext
  rw [entry]
  omega

/-- A name ends in the file. -/
lemma WellFormed.name_terminated (hf : WellFormed c f) {s : SectionHeader}
    (hs : s ∈ sectionHeaders c f) : 0 ∈ f.drop ((nameTable c f).offset + s.name) := by
  have hzero := hf.names s hs
  rw [contents, List.drop_take, List.drop_drop] at hzero
  exact List.mem_of_mem_take hzero

/-- The first section of a name has the name. -/
lemma lookup_mem {name : List UInt8} {s : SectionHeader} (h : lookup c f name = some s) :
    s ∈ sectionHeaders c f := List.mem_of_find?_eq_some h

lemma lookup_eq_none {name : List UInt8} :
    lookup c f name = none ↔ ∀ s ∈ sectionHeaders c f, sectionName c f s ≠ name := by
  rw [lookup, List.find?_eq_none]
  simp

/-! ### Files in memory -/

variable {m : ByteMem} {p : UInt64}

/-- Part of a file that lies in memory. -/
lemma holds_drop (h : Holds m p f) {o : ℕ} (ho : o ≤ f.length) :
    Holds m (p + UInt64.ofNat o) (f.drop o) := by
  rw [← List.take_append_drop o f] at h
  have hrest := (Holds.append_iff.mp h).2
  rwa [List.length_take, Nat.min_eq_left ho] at hrest

lemma peek_of_holds (h : Holds m p f) {o n : ℕ} (hle : o + n ≤ f.length) :
    peek m n (p + UInt64.ofNat o) = (f.drop o).take n := by
  have hrest := holds_drop h (show o ≤ f.length by omega)
  rw [← List.take_append_drop n (f.drop o)] at hrest
  have hpeek := (Holds.append_iff.mp hrest).1.peek_eq
  rwa [List.length_take, List.length_drop, Nat.min_eq_left (by omega)] at hpeek

/-- A string with its terminator lies in memory at a C string exactly when it is that. -/
lemma holds_string_iff {name xs : List UInt8} (hname : 0 ∉ name) (hzero : 0 ∈ xs)
    (h : Holds m p xs) : Holds m p (name ++ [0]) ↔ xs.takeWhile (· ≠ 0) = name := by
  induction xs generalizing p name with
  | nil => cases hzero
  | cons x xs ih =>
      by_cases hx : x = 0
      · rw [List.takeWhile_cons_of_neg (by simpa using hx)]
        cases name with
        | nil => simpa [Holds, hx] using h.1
        | cons b name =>
            have hb : (0 : UInt8) ≠ b := fun hb => hname (hb ▸ List.mem_cons_self)
            simp only [List.cons_append, Holds, h.1, hx, reduceCtorEq, iff_false, not_and]
            exact fun heq => absurd heq hb
      · have hzero' := (List.mem_cons.mp hzero).resolve_left (Ne.symm hx)
        rw [List.takeWhile_cons_of_pos (by simpa using hx)]
        cases name with
        | nil => simp [Holds, h.1, hx]
        | cons b name =>
            have hrest : Holds m (p + 1) (name ++ [0]) ↔ xs.takeWhile (· ≠ 0) = name :=
              ih (fun hmem => hname (List.mem_cons_of_mem _ hmem)) hzero' h.2
            rw [List.cons_append, Holds, h.1, hrest, List.cons.injEq]

end Elf
