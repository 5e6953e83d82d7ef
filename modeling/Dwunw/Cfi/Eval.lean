import Dwunw.Arch
import Dwunw.Cfi.Parse

/-!
The CFI interpreter of `src/dwarf/cfi.c`: `execute_cfi` and `dwunw_cfi_eval`.

* `cfiTurn`: one turn of the loop of `execute_cfi`, one arm for each opcode;
  `executeCfi` runs it over a program.
* `cfiRow`: the part of `dwunw_cfi_eval` that replays the two programs.
* `cfiEval`: the rest of it, which turns the row into the caller's registers and frame.  A
  return register that is no slot of the snapshot makes the C code index past two arrays;
  that outcome is `none`.
-/

namespace Dwunw

open Loop

/-! ### The virtual machine -/

/-- `enum rule_kind`. -/
inductive RuleKind where
  | undefined
  | sameValue
  | offset
  deriving DecidableEq, Repr

/-- `struct reg_rule`. -/
structure RegRule where
  kind : RuleKind
  offset : Int64
  deriving DecidableEq, Repr

/-- `struct cfa_state`. -/
structure CfaState where
  cfaReg : UInt16
  cfaOffset : Int64
  regs : Fin regsetSlots → RegRule

/-- `UINT16_MAX`, the CFA register that stands for none. -/
def noCfaReg : UInt16 := 0xffff

/-- `cfa_state_reset`. -/
def cfaStateReset : CfaState := ⟨noCfaReg, 0, fun _ => ⟨.sameValue, 0⟩⟩

/-- Give a register a rule; a register that is no slot is not tracked. -/
def CfaState.setRule (s : CfaState) (reg : ℕ) (rule : RegRule) : CfaState :=
  { s with regs := fun i => if i.val = reg then rule else s.regs i }

/-- Give a register its rule in another state; a register that is no slot is not tracked. -/
def CfaState.restoreRule (s initial : CfaState) (reg : ℕ) : CfaState :=
  { s with regs := fun i => if i.val = reg then initial.regs i else s.regs i }

/-- The local variables of the loop of `execute_cfi`. -/
structure CfiLoop where
  cursor : UInt64
  pcOffset : UInt64
  state : CfaState

/-- Go on with an operand, or leave the loop with the status of the reader that failed. -/
def onRead {α : Type} (s : CfiLoop) (r : Except Status (α × UInt64))
    (k : α → UInt64 → Turn CfiLoop (Status × CfaState)) : Turn CfiLoop (Status × CfaState) :=
  match r with
  | .error st => .done (st, s.state)
  | .ok (v, cursor) => k v cursor

/-- `(int64_t)offset * cie->data_align`. -/
def factoredOffset (cie : CieRecord) (offset : UInt64) : Int64 := offset.toInt64 * cie.dataAlign

/-- The location opcodes of the `switch`: a fixed-size operand gives the new offset, and
passing the target sets the cursor to the end. -/
def locationTurn (m : ByteMem) (stop pcBegin targetPc : UInt64) (s : CfiLoop)
    (cursor size : UInt64) (newOffset : UInt64 → UInt64) : Turn CfiLoop (Status × CfaState) :=
  onRead s ((readFixedSize cursor stop size).val m) fun v cursor =>
    if targetPc < pcBegin + newOffset v then .next ⟨stop, newOffset v, s.state⟩
    else .next ⟨cursor, newOffset v, s.state⟩

/-- The `switch (opcode)` of `execute_cfi`; `cursor` is past the opcode. -/
def cfiSwitch (m : ByteMem) (cie : CieRecord) (stop pcBegin targetPc : UInt64)
    (initial : CfaState) (s : CfiLoop) (opcode : UInt8) (cursor : UInt64) :
    Turn CfiLoop (Status × CfaState) :=
  if opcode = 0x00 then -- DW_CFA_nop
    .next ⟨cursor, s.pcOffset, s.state⟩
  else if opcode = 0x01 then -- DW_CFA_set_loc
    locationTurn m stop pcBegin targetPc s cursor cie.addressSize.toUInt64
      fun loc => loc - pcBegin
  else if opcode = 0x02 then -- DW_CFA_advance_loc1
    locationTurn m stop pcBegin targetPc s cursor 1
      fun delta => s.pcOffset + delta * cie.codeAlign
  else if opcode = 0x03 then -- DW_CFA_advance_loc2
    locationTurn m stop pcBegin targetPc s cursor 2
      fun delta => s.pcOffset + delta * cie.codeAlign
  else if opcode = 0x04 then -- DW_CFA_advance_loc4
    locationTurn m stop pcBegin targetPc s cursor 4
      fun delta => s.pcOffset + delta * cie.codeAlign
  else if opcode = 0x0c then -- DW_CFA_def_cfa
    onRead s ((readUleb cursor stop).val m) fun reg cursor =>
      onRead s ((readUleb cursor stop).val m) fun offset cursor =>
        .next ⟨cursor, s.pcOffset,
          { s.state with cfaReg := reg.toUInt16, cfaOffset := offset.toInt64 }⟩
  else if opcode = 0x0d then -- DW_CFA_def_cfa_register
    onRead s ((readUleb cursor stop).val m) fun reg cursor =>
      .next ⟨cursor, s.pcOffset, { s.state with cfaReg := reg.toUInt16 }⟩
  else if opcode = 0x0e then -- DW_CFA_def_cfa_offset
    onRead s ((readUleb cursor stop).val m) fun offset cursor =>
      .next ⟨cursor, s.pcOffset, { s.state with cfaOffset := offset.toInt64 }⟩
  else if opcode = 0x0f then -- DW_CFA_def_cfa_expression
    .done (.notImplemented, s.state)
  else if opcode = 0x10 then -- DW_CFA_expression
    .done (.notImplemented, s.state)
  else if opcode = 0x11 then -- taken for DW_CFA_offset_extended
    onRead s ((readUleb cursor stop).val m) fun reg cursor =>
      onRead s ((readUleb cursor stop).val m) fun offset cursor =>
        .next ⟨cursor, s.pcOffset,
          if reg.toNat < regsetSlots then
            s.state.setRule reg.toNat ⟨.offset, factoredOffset cie offset⟩
          else s.state⟩
  else if opcode = 0x12 then -- taken for DW_CFA_restore_extended
    onRead s ((readUleb cursor stop).val m) fun reg cursor =>
      .next ⟨cursor, s.pcOffset,
        if reg.toNat < regsetSlots then s.state.restoreRule initial reg.toNat else s.state⟩
  else if opcode = 0x1a then -- taken for DW_CFA_def_cfa_sf
    onRead s ((readUleb cursor stop).val m) fun reg cursor =>
      onRead s ((readSleb cursor stop).val m) fun offset cursor =>
        .next ⟨cursor, s.pcOffset,
          { s.state with cfaReg := reg.toUInt16, cfaOffset := offset * cie.dataAlign }⟩
  else if opcode = 0x1b then -- taken for DW_CFA_def_cfa_offset_sf
    onRead s ((readSleb cursor stop).val m) fun offset cursor =>
      .next ⟨cursor, s.pcOffset, { s.state with cfaOffset := offset * cie.dataAlign }⟩
  else .done (.notImplemented, s.state)

/-- One turn of the loop of `execute_cfi`. -/
def cfiTurn (m : ByteMem) (cie : CieRecord) (stop pcBegin targetPc : UInt64)
    (initial : CfaState) (s : CfiLoop) : Turn CfiLoop (Status × CfaState) :=
  if s.cursor < stop then
    let opcode := m s.cursor
    let operand := opcode &&& 0x3f
    if opcode &&& 0xc0 = 0x40 then -- DW_CFA_advance_loc
      let pcOffset := s.pcOffset + operand.toUInt64 * cie.codeAlign
      if targetPc < pcBegin + pcOffset then .done (.ok, s.state)
      else .next ⟨s.cursor + 1, pcOffset, s.state⟩
    else if opcode &&& 0xc0 = 0x80 then -- DW_CFA_offset
      onRead s ((readUleb (s.cursor + 1) stop).val m) fun offset cursor =>
        .next ⟨cursor, s.pcOffset,
          if operand.toNat < regsetSlots then
            s.state.setRule operand.toNat ⟨.offset, factoredOffset cie offset⟩
          else s.state⟩
    else if opcode &&& 0xc0 = 0xc0 then -- DW_CFA_restore
      .next ⟨s.cursor + 1, s.pcOffset,
        if operand.toNat < regsetSlots then s.state.restoreRule initial operand.toNat
        else s.state⟩
    else cfiSwitch m cie stop pcBegin targetPc initial s opcode (s.cursor + 1)
  else .done (.ok, s.state)

/-- `execute_cfi`: the status, and the state it leaves behind also when it fails.  Every turn
takes one byte at least, so the size is fuel enough. -/
def executeCfi (m : ByteMem) (cie : CieRecord) (program programSize pcBegin targetPc : UInt64)
    (state initial : CfaState) : Status × CfaState :=
  (run (cfiTurn m cie (program + programSize) pcBegin targetPc initial)
    (programSize.toNat + 1) ⟨program, 0, state⟩).getD (.ok, state)

/-! ### Evaluation -/

/-- `struct dwunw_frame`. -/
structure Frame where
  pc : UInt64
  sp : UInt64
  cfa : UInt64
  ra : UInt64
  flags : UInt32
  modulePath : CString
  deriving DecidableEq, Repr

/-- `dwunw_memory_read_fn`, reading eight bytes: the context, the address, and the value or
the status. -/
abbrev MemoryRead (σ : Type) := σ → UInt64 → Except Status UInt64 × σ

/-- `reg_value`. -/
def regValue (regs : Regset) (reg : UInt16) : UInt64 :=
  if reg = noCfaReg then 0
  else if h : reg.toNat < regsetSlots then regs.regs ⟨reg.toNat, h⟩
  else 0

/-- `apply_rule`. -/
def applyRule {σ : Type} (kind : RuleKind) (offset : Int64) (cfa : UInt64)
    (reader : MemoryRead σ) (ctx : σ) : Except Status UInt64 × σ :=
  match kind with
  | .offset => reader ctx (cfa + offset.toUInt64)
  | _ => (.error .notImplemented, ctx)

/-- The row for `pc`: the CIE program and the FDE program up to `pc`.  A program that meets
an opcode without implementation counts as ended there. -/
def cfiRow (m : ByteMem) (cie : CieRecord) (fde : FdeRecord) (pc : UInt64) :
    Except Status CfaState :=
  let current := cfaStateReset
  match executeCfi m cie cie.instructions cie.instructionsSize fde.pcBegin 0xffffffffffffffff
      current current with
  | (st, current) =>
      if st ≠ .ok ∧ st ≠ .notImplemented then .error st
      else
        match executeCfi m cie fde.instructions fde.instructionsSize fde.pcBegin pc
            current current with
        | (st, current) =>
            if st ≠ .ok ∧ st ≠ .notImplemented then .error st
            else if current.cfaReg = noCfaReg then .error .notImplemented
            else .ok current

/-- What `dwunw_cfi_eval` leaves behind: the status, the registers, the frame and the context
of the reader. -/
structure EvalResult (σ : Type) where
  status : Status
  regs : Regset
  frame : Frame
  ctx : σ

/-- Set one register. -/
def Regset.setReg (regs : Regset) (i : Fin regsetSlots) (v : UInt64) : Regset :=
  { regs with regs := Function.update regs.regs i v }

/-- The loop that updates the register snapshot, over the slots that are left. -/
def updateRegs {σ : Type} (row : CfaState) (cfa : UInt64) (reader : MemoryRead σ) :
    List (Fin regsetSlots) → Regset → σ → Status × Regset × σ
  | [], regs, ctx => (.ok, regs, ctx)
  | i :: slots, regs, ctx =>
      match (row.regs i).kind with
      | .sameValue => updateRegs row cfa reader slots regs ctx
      | .offset =>
          match applyRule .offset (row.regs i).offset cfa reader ctx with
          | (.error st, ctx) => (st, regs, ctx)
          | (.ok v, ctx) => updateRegs row cfa reader slots (regs.setReg i v) ctx
      | .undefined => updateRegs row cfa reader slots (regs.setReg i 0) ctx

/-- The return address under a row. -/
def returnAddress {σ : Type} (row : CfaState) (reg : Fin regsetSlots) (cfa : UInt64)
    (regs : Regset) (reader : MemoryRead σ) (ctx : σ) : Except Status UInt64 × σ :=
  match (row.regs reg).kind with
  | .sameValue => (.ok (regs.regs reg), ctx)
  | .offset => applyRule .offset (row.regs reg).offset cfa reader ctx
  | .undefined => (.error .notImplemented, ctx)

/-- `dwunw_cfi_eval` once the row is known and the return register is a slot. -/
def applyRow {σ : Type} (row : CfaState) (reg : Fin regsetSlots) (regs : Regset)
    (reader : MemoryRead σ) (ctx : σ) (frame : Frame) : EvalResult σ :=
  let cfa := regValue regs row.cfaReg + row.cfaOffset.toUInt64
  match returnAddress row reg cfa regs reader ctx with
  | (.error st, ctx) => ⟨st, regs, frame, ctx⟩
  | (.ok ra, ctx) =>
      let frame := { frame with pc := ra, ra := ra, sp := cfa, cfa := cfa, flags := 0 }
      match updateRegs row cfa reader (List.finRange regsetSlots) regs ctx with
      | (.ok, regs, ctx) => ⟨.ok, { regs with pc := ra, sp := cfa }, frame, ctx⟩
      | (st, regs, ctx) => ⟨st, regs, frame, ctx⟩

/-- `dwunw_cfi_eval`, with `cie` the record `fde->cie` points to; `none` when the return
register is no slot. -/
def cfiEval {σ : Type} (m : ByteMem) (cie : CieRecord) (fde : FdeRecord) (pc : UInt64)
    (regs : Regset) (reader : MemoryRead σ) (ctx : σ) (frame : Frame) :
    Option (EvalResult σ) :=
  if pc < fde.pcBegin ∨ fde.pcBegin + fde.pcRange ≤ pc then some ⟨.invalidArg, regs, frame, ctx⟩
  else
    match cfiRow m cie fde pc with
    | .error st => some ⟨st, regs, frame, ctx⟩
    | .ok row =>
        if h : cie.returnReg.toNat < regsetSlots then
          some (applyRow row ⟨cie.returnReg.toNat, h⟩ regs reader ctx frame)
        else none

end Dwunw
