import Dwunw.ModuleCache

/-!
The ELF loader of `src/dwarf/elf_loader.c`.

The image of a file is a block of host memory; every pointer into it is the address of the
image plus an offset out of the file, and the comparisons are those of 64-bit words.  The two
classes of ELF files differ in where their fields are and in how wide they are, and `ElfLayout`
holds what `<elf.h>` says about both.  A file that is opened is host memory behind
`pread`, so what the functions below read is the contents of the file.

The out pointers of the C functions are not `NULL` here; a function that fills one in on some of
its paths only gets its old value and returns the new one with the status.
-/

namespace Dwunw

open Traced

/-- What a byte of an image is read through: the ELF header, a section header, or the name of a
section. -/
inductive ElfVia where
  | header
  | sectionHeader
  | name
  deriving DecidableEq, Repr

/-- A computation over an image in host memory that fails with a status code. -/
abbrev ElfReader (α : Type) := Traced Status ElfVia α

/-! ### `<elf.h>` -/

/-- `EI_NIDENT`. -/
def eiNident : UInt64 := 16

/-- `EI_CLASS`. -/
def eiClass : UInt64 := 4

/-- `EI_DATA`. -/
def eiData : UInt64 := 5

/-- `ELFMAG`. -/
def elfMag : List UInt8 := [0x7f, 0x45, 0x4c, 0x46]

/-- `ELFCLASS32`. -/
def elfClass32 : UInt8 := 1

/-- `ELFCLASS64`. -/
def elfClass64 : UInt8 := 2

/-- `ELFDATA2LSB`. -/
def elfData2Lsb : UInt8 := 1

/-- The size of an ELF header, where its fields are, the width of an offset or a size in the
file, and where the fields of a section header are. -/
structure ElfLayout where
  ehdrSize : UInt64
  eShoff : UInt64
  eShentsize : UInt64
  eShnum : UInt64
  eShstrndx : UInt64
  wordSize : ℕ
  shName : UInt64
  shOffset : UInt64
  shSize : UInt64
  deriving DecidableEq, Repr

/-- `Elf64_Ehdr` and `Elf64_Shdr`. -/
def elf64Layout : ElfLayout where
  ehdrSize := 64
  eShoff := 40
  eShentsize := 58
  eShnum := 60
  eShstrndx := 62
  wordSize := 8
  shName := 0
  shOffset := 24
  shSize := 32

/-- `Elf32_Ehdr` and `Elf32_Shdr`. -/
def elf32Layout : ElfLayout where
  ehdrSize := 52
  eShoff := 32
  eShentsize := 46
  eShnum := 48
  eShstrndx := 50
  wordSize := 4
  shName := 0
  shOffset := 16
  shSize := 20

/-- The layout behind `handle->elf_class == ELFCLASS64`. -/
def ElfHandle.layout (h : ElfHandle) : ElfLayout :=
  if h.elfClass = elfClass64 then elf64Layout else elf32Layout

/-- A little-endian field, widened to 64 bits. -/
def elfField (via : ElfVia) (n : ℕ) (p : UInt64) : ElfReader UInt64 := do
  let bs ← .bytes via n p
  pure (UInt64.ofNat (leNat bs))

/-! ### Opening a file -/

/-- How the calls of `dwunw_elf_open` come out: the descriptor of `open`, the size that `fstat`
finds, the addresses that `malloc` gives, and the count that `pread` returns. -/
structure ElfCalls where
  fd : ℤ
  fstatSize : Option UInt64
  malloc : UInt64 → UInt64
  pread : UInt64 → ℤ

/-- `dwunw_elf_load_image`. -/
def elfLoadImage (calls : ElfCalls) (handle : ElfHandle) (size : UInt64) : ElfReader ElfHandle :=
  let image := calls.malloc size
  if image = 0 then .fail .io
  else if calls.pread size < 0 ∨ calls.pread size ≠ size.toNat then .fail .io
  else pure { handle with image, size }

/-- The part of `dwunw_elf_parse_headers` that reads the header of one class. -/
def parseClassHeader (l : ElfLayout) (handle : ElfHandle) : ElfReader ElfHandle :=
  if handle.size < l.ehdrSize then .fail .badFormat
  else do
    let shoff ← elfField .header l.wordSize (handle.image + l.eShoff)
    let shentsize ← elfField .header 2 (handle.image + l.eShentsize)
    let shnum ← elfField .header 2 (handle.image + l.eShnum)
    let shstrndx ← elfField .header 2 (handle.image + l.eShstrndx)
    pure { handle with
      shoff
      shentsize := shentsize.toUInt16
      shnum := shnum.toUInt16
      shstrndx := shstrndx.toUInt16 }

/-- `dwunw_elf_parse_headers`. -/
def elfParseHeaders (handle : ElfHandle) : ElfReader ElfHandle :=
  if handle.size < eiNident then .fail .badFormat
  else do
    let magic ← .bytes .header elfMag.length handle.image
    if magic ≠ elfMag then .fail .badFormat
    else do
      let elfClass ← .byte .header (handle.image + eiClass)
      let elfData ← .byte .header (handle.image + eiData)
      if elfData ≠ elfData2Lsb then .fail .badFormat
      else do
        let handle ←
          if elfClass = elfClass64 then
            parseClassHeader elf64Layout { handle with elfClass, elfData }
          else if elfClass = elfClass32 then
            parseClassHeader elf32Layout { handle with elfClass, elfData }
          else .fail .badFormat
        if handle.shoff = 0 ∨ handle.shentsize = 0 ∨ handle.shnum = 0 then .fail .badFormat
        else pure handle

/-- `dwunw_elf_section_header`; `none` is `NULL`. -/
def elfSectionHeader (handle : ElfHandle) (index : UInt16) : Option UInt64 :=
  let offset := handle.shoff + index.toUInt64 * handle.shentsize.toUInt64
  if handle.size < offset + handle.shentsize.toUInt64 then none
  else some (handle.image + offset)

/-- `hdr->sh_offset` and `hdr->sh_size`. -/
def sectionRange (handle : ElfHandle) (sh : UInt64) : ElfReader (UInt64 × UInt64) := do
  let offset ← elfField .sectionHeader handle.layout.wordSize (sh + handle.layout.shOffset)
  let size ← elfField .sectionHeader handle.layout.wordSize (sh + handle.layout.shSize)
  pure (offset, size)

/-- `dwunw_elf_locate_shstrtab`.  The end of the table is compared after a 64-bit sum, which a
file of 32-bit words cannot make wrap. -/
def elfLocateShstrtab (handle : ElfHandle) : ElfReader ElfHandle :=
  if handle.shnum ≤ handle.shstrndx then .fail .badFormat
  else match elfSectionHeader handle handle.shstrndx with
    | none => .fail .badFormat
    | some sh => do
        let (offset, size) ← sectionRange handle sh
        if handle.size < offset + size then .fail .badFormat
        else pure { handle with shstrtab := handle.image + offset }

/-- `dwunw_elf_initialize`. -/
def elfInitialize (handle : ElfHandle) : ElfReader ElfHandle := do
  let handle ← elfParseHeaders handle
  elfLocateShstrtab handle

/-- `dwunw_elf_open`; the path is `none` where it is `NULL`.  The descriptor is closed on every
path behind `open`, and a failure leaves a handle of zero bytes. -/
def elfOpen (calls : ElfCalls) (path : Option CString) : ElfReader ElfHandle :=
  match path with
  | none => .fail .invalidArg
  | some path =>
      if calls.fd < 0 then .fail .io
      else match calls.fstatSize with
        | none => .fail .io
        | some size =>
            if size = 0 then .fail .badFormat
            else do
              let handle ← elfLoadImage calls .zero size
              let handle ← elfInitialize handle
              pure { handle with path := path.take (maxPathLen - 1) }

/-! ### Sections -/

/-- `strcmp(p, name) == 0` for a string in host memory. -/
def strcmpEq (p : UInt64) : CString → ElfReader Bool
  | [] => do
      let b ← .byte .name p
      pure (b = 0)
  | c :: name => do
      let b ← .byte .name p
      if b = c then strcmpEq (p + 1) name else pure false

/-- `dwunw_elf_section_slice`. -/
def elfSectionSlice (handle : ElfHandle) (sh : UInt64) : ElfReader (Status × Section) := do
  let (offset, size) ← sectionRange handle sh
  if handle.size < offset + size then pure (.badFormat, .null)
  else pure (.ok, ⟨handle.image + offset, size⟩)

/-- The loop of `dwunw_elf_get_section`, with the number of section headers that are left. -/
def elfGetSectionLoop (handle : ElfHandle) (name : CString) (out : Section) :
    ℕ → UInt16 → ElfReader (Status × Section)
  | 0, _ => pure (.noDebugData, out)
  | n + 1, i =>
      match elfSectionHeader handle i with
      | none => elfGetSectionLoop handle name out n (i + 1)
      | some sh => do
          let shName ← elfField .sectionHeader 4 (sh + handle.layout.shName)
          let same ← strcmpEq (handle.shstrtab + shName) name
          if same then elfSectionSlice handle sh
          else elfGetSectionLoop handle name out n (i + 1)

/-- `dwunw_elf_get_section`; a handle or a name is `none` where it is `NULL`. -/
def elfGetSection (handle : Option ElfHandle) (name : Option CString) (out : Section) :
    ElfReader (Status × Section) :=
  match handle, name with
  | some handle, some name => elfGetSectionLoop handle name out handle.shnum.toNat 0
  | _, _ => pure (.invalidArg, out)

/-- A string literal as a C string. -/
def cString (s : List Char) : CString := s.map fun c => UInt8.ofNat c.toNat

def debugInfoName : CString :=
  cString ['.', 'd', 'e', 'b', 'u', 'g', '_', 'i', 'n', 'f', 'o']

def debugFrameName : CString :=
  cString ['.', 'd', 'e', 'b', 'u', 'g', '_', 'f', 'r', 'a', 'm', 'e']

def ehFrameName : CString := cString ['.', 'e', 'h', '_', 'f', 'r', 'a', 'm', 'e']

/-- The lookup of a frame section, which may be missing: a missing one is an empty
descriptor. -/
def collectOptional (handle : Option ElfHandle) (name : CString) :
    ElfReader (Status × Section) := do
  let (st, out) ← elfGetSection handle (some name) .null
  if st = .noDebugData then pure (.ok, .null) else pure (st, out)

/-- `dwunw_elf_collect_dwarf`: the sections as far as they were filled in. -/
def elfCollectDwarf (handle : Option ElfHandle) : ElfReader (Status × Sections) := do
  let (st, debugInfo) ← elfGetSection handle (some debugInfoName) .null
  if st ≠ .ok then pure (st, ⟨debugInfo, .null, .null⟩)
  else do
    let (st, debugFrame) ← collectOptional handle debugFrameName
    if st ≠ .ok then pure (st, ⟨debugInfo, debugFrame, .null⟩)
    else do
      let (st, ehFrame) ← collectOptional handle ehFrameName
      pure (st, ⟨debugInfo, debugFrame, ehFrame⟩)

end Dwunw
