import Dwunw.Status

/-!
Register snapshots and the per-architecture operations: `include/dwunw/arch_ops.h`,
`src/core/dwunw_arch_registry.c` and `src/arch/*/arch_ops.c`.

The three architectures implement the same four operations; arm64 and mips32 share one body
with their own frame-pointer register, return-address register and frame-record size.
-/

namespace Dwunw

/-- `enum dwunw_arch_id`. -/
inductive ArchId where
  | x86_64
  | arm64
  | mips32
  deriving DecidableEq, Repr

/-- `struct dwunw_regset`. -/
structure Regset where
  arch : UInt16
  version : UInt16
  flags : UInt32
  sp : UInt64
  pc : UInt64
  regs : Fin regsetSlots → UInt64

/-- `struct dwunw_frame_window`. -/
structure FrameWindow where
  cfa : UInt64
  ra : UInt64
  deriving DecidableEq, Repr

/-- `DWUNW_REGSET_VERSION`. -/
def regsetVersion : UInt16 := 1

/-- The number of an architecture. -/
def ArchId.toUInt16 : ArchId → UInt16
  | .x86_64 => 1
  | .arm64 => 2
  | .mips32 => 3

/-- `struct dwunw_arch_ops`; every architecture fills in all four operations. -/
structure ArchOps where
  arch : ArchId
  normalize : Regset → Status × Regset
  computeCfa : Regset → Except Status UInt64
  readReturnAddr : Regset → Except Status UInt64
  openFrame : Regset → Except Status FrameWindow

/-- The `normalize` of all three architectures. -/
def normalizeAs (arch : ArchId) (regs : Regset) : Status × Regset :=
  (.ok, { regs with
    arch := arch.toUInt16
    version := if regs.version = 0 then regsetVersion else regs.version })

/-! ### x86_64 -/

def x86_64ComputeCfa (regs : Regset) : Except Status UInt64 := .ok regs.sp

def x86_64ReadReturnAddr (regs : Regset) : Except Status UInt64 := .ok regs.pc

def x86_64OpenFrame (regs : Regset) : Except Status FrameWindow := .ok ⟨regs.sp, regs.pc⟩

/-- `dwunw_arch_ops_x86_64`. -/
def archOpsX86_64 : ArchOps :=
  ⟨.x86_64, normalizeAs .x86_64, x86_64ComputeCfa, x86_64ReadReturnAddr, x86_64OpenFrame⟩

/-! ### arm64 and mips32 -/

/-- `compute_cfa` of an architecture with a frame record of this size at its frame
pointer. -/
def recordComputeCfa (fp : Fin regsetSlots) (recordSize : UInt64) (regs : Regset) :
    Except Status UInt64 :=
  .ok (if regs.regs fp ≠ 0 then regs.regs fp + recordSize else regs.sp)

/-- `read_return_addr` of an architecture with a return-address register. -/
def linkReadReturnAddr (lr : Fin regsetSlots) (regs : Regset) : Except Status UInt64 :=
  .ok (if regs.regs lr = 0 then regs.pc else regs.regs lr)

/-- `open_frame` from the other two operations. -/
def recordOpenFrame (fp lr : Fin regsetSlots) (recordSize : UInt64) (regs : Regset) :
    Except Status FrameWindow := do
  let cfa ← recordComputeCfa fp recordSize regs
  let ra ← linkReadReturnAddr lr regs
  pure ⟨cfa, ra⟩

/-- `dwunw_arch_ops_arm64`: the frame pointer is x29, the link register x30, and the saved
pair takes 16 bytes. -/
def archOpsArm64 : ArchOps :=
  ⟨.arm64, normalizeAs .arm64, recordComputeCfa 29 16, linkReadReturnAddr 30,
    recordOpenFrame 29 30 16⟩

/-- `dwunw_arch_ops_mips32`: the frame pointer is r30, the return address r31, and the saved
pair takes 8 bytes. -/
def archOpsMips32 : ArchOps :=
  ⟨.mips32, normalizeAs .mips32, recordComputeCfa 30 8, linkReadReturnAddr 31,
    recordOpenFrame 30 31 8⟩

/-! ### The registry -/

/-- `dwunw_arch_resolve`. -/
def archResolve (arch : UInt16) : Option ArchOps :=
  if arch = 1 then some archOpsX86_64
  else if arch = 2 then some archOpsArm64
  else if arch = 3 then some archOpsMips32
  else none

/-- `dwunw_arch_from_regset`. -/
def archFromRegset (regs : Regset) : Option ArchOps := archResolve regs.arch

/-- `dwunw_regset_prepare`. -/
def regsetPrepare (arch : UInt16) : Status × Regset :=
  let cleared : Regset := ⟨arch, regsetVersion, 0, 0, 0, fun _ => 0⟩
  match archResolve arch with
  | none => (.unsupportedArch, cleared)
  | some ops => ops.normalize cleared

end Dwunw
