import Dwunw.Lib.Bytes

/-!
The status codes of `include/dwunw/status.h`, the configuration constants of
`include/dwunw/config.h`, and host memory.

Host memory is the flat memory of the process the library runs in: the ELF images it has
loaded, hence the sections, the instruction bytes and the augmentation strings that the
tables point to, are addresses of it.  `Via` tells the accesses of a parser apart: through
the pointers of the entry it is parsing, or through the record of the parent CIE.
-/

namespace Dwunw

/-- `dwunw_status_t`. -/
inductive Status where
  | ok
  | invalidArg
  | unsupportedArch
  | notImplemented
  | io
  | badFormat
  | noDebugData
  | cacheFull
  deriving DecidableEq, Repr

/-- `DWUNW_REGSET_SLOTS`. -/
abbrev regsetSlots : ℕ := 32

instance : NeZero regsetSlots := ⟨by decide⟩

/-- `DWUNW_MAX_PATH_LEN`. -/
def maxPathLen : ℕ := 512

/-- `DWUNW_MODULE_CACHE_CAPACITY`. -/
abbrev moduleCacheCapacity : ℕ := 16

/-- A NUL-terminated C string, without its terminator. -/
abbrev CString := List UInt8

/-- What a byte of a section is read through: the cursor of the entry being parsed, or the
record of the CIE an FDE is linked to. -/
inductive Via where
  | entry
  | parent
  deriving DecidableEq, Repr

/-- A computation over host memory that fails with a status code. -/
abbrev Reader (α : Type) := Traced Status Via α

end Dwunw
