import Dwunw.Cfi.EvalSpec
import Dwunw.Lib.Logged

/-!
The interpreter of `src/dwarf/cfi.c` with a log.

The functions of `Cfi.Read`, `Cfi.Parse` and `Cfi.Eval` once more.  Every element of a register
array that they take leaves its index in the log, and every operation on `int64_t` that can leave
the range leaves the integer that it stands for.

* `CfiOp`: the notes.  `elementAt`, `storeRule`, `copyRule`, `storeReg`, `shiftLeft`, `negate`,
  `multiply`: the operations that make them.
* `readSlebLogged`, `parseCieHeaderLogged`, `cfiTurnLogged`, `executeCfiLogged`,
  `cfiEvalLogged`: the functions, each with a lemma that its value is that of the model.
-/

namespace Dwunw

open Loop Traced

/-- What is noted: the index of an element of a register array, and the result of a signed
operation in exact arithmetic. -/
inductive CfiOp where
  | index (i : ℕ)
  | signed (x : ℤ)
  deriving DecidableEq, Repr

/-- The indices among the notes. -/
def CfiOp.index? : CfiOp → Option ℕ
  | .index i => some i
  | .signed _ => none

/-- The signed results among the notes. -/
def CfiOp.signed? : CfiOp → Option ℤ
  | .index _ => none
  | .signed x => some x

/-! ### The operations -/

/-- `x << k` of an `int64_t`. -/
def shiftLeft (x : Int64) (k : ℕ) : Logged CfiOp Int64 :=
  ⟨x <<< Int64.ofNat k, [.signed (x.toInt * 2 ^ k)]⟩

/-- `-x` of an `int64_t`. -/
def negate (x : Int64) : Logged CfiOp Int64 := ⟨-x, [.signed (-x.toInt)]⟩

/-- `x * y` of two `int64_t`. -/
def multiply (x y : Int64) : Logged CfiOp Int64 := ⟨x * y, [.signed (x.toInt * y.toInt)]⟩

/-- An element of an array of `DWUNW_REGSET_SLOTS` elements, if it is there. -/
def elementAt {α : Type} (array : Fin regsetSlots → α) (i : ℕ) : Logged CfiOp (Option α) :=
  ⟨if h : i < regsetSlots then some (array ⟨i, h⟩) else none, [.index i]⟩

/-- Store a rule. -/
def storeRule (s : CfaState) (reg : ℕ) (rule : RegRule) : Logged CfiOp CfaState :=
  ⟨s.setRule reg rule, [.index reg]⟩

/-- Copy a rule from another row. -/
def copyRule (s initial : CfaState) (reg : ℕ) : Logged CfiOp CfaState :=
  ⟨s.restoreRule initial reg, [.index reg]⟩

/-- Store a value into a register of the snapshot. -/
def storeReg (regs : Regset) (i : Fin regsetSlots) (v : UInt64) : Logged CfiOp Regset :=
  ⟨regs.setReg i v, [.index i]⟩

/-! ### `read_sleb` -/

/-- The loop of `read_sleb`. -/
def readSlebLoopLogged (m : ByteMem) (stop : UInt64) :
    ℕ → UInt64 → Int64 → ℕ → Logged CfiOp (Except Status (Int64 × UInt64))
  | 0, _, _, _ => pure (.error .badFormat)
  | n + 1, cursor, result, shift =>
      if cursor < stop then do
        let byte := m cursor
        let group ← shiftLeft (byte &&& 0x7f).toUInt64.toInt64 shift
        let result := result ||| group
        if byte &&& 0x80 = 0 then
          if shift + 7 < 64 ∧ byte &&& 0x40 ≠ 0 then do
            let sign ← shiftLeft 1 (shift + 7)
            let extension ← negate sign
            pure (.ok (result ||| extension, cursor + 1))
          else pure (.ok (result, cursor + 1))
        else if 64 ≤ shift + 7 then pure (.error .badFormat)
        else readSlebLoopLogged m stop n (cursor + 1) result (shift + 7)
      else pure (.error .badFormat)

/-- `read_sleb`. -/
def readSlebLogged (m : ByteMem) (cursor stop : UInt64) :
    Logged CfiOp (Except Status (Int64 × UInt64)) :=
  readSlebLoopLogged m stop 10 cursor 0 0

variable {m : ByteMem} {stop : UInt64}

lemma readSlebLoopLogged_val (n : ℕ) (c : UInt64) (result : Int64) (shift : ℕ) :
    (readSlebLoopLogged m stop n c result shift).val =
      (readSlebLoop stop n c result shift).val m := by
  induction n generalizing c result shift with
  | zero => rfl
  | succ n ih =>
      rw [readSlebLoopLogged, readSlebLoop]
      by_cases hc : c < stop
      swap
      · rw [if_neg hc, if_neg hc]
        rfl
      rw [if_pos hc, if_pos hc, val_byte_bind, Logged.val_bind]
      dsimp only [shiftLeft]
      by_cases hlast : m c &&& 0x80 = 0
      · rw [if_pos hlast, if_pos hlast]
        by_cases hsign : shift + 7 < 64 ∧ m c &&& 0x40 ≠ 0
        · rw [if_pos hsign, if_pos hsign]
          rfl
        · rw [if_neg hsign, if_neg hsign]
          rfl
      · rw [if_neg hlast, if_neg hlast]
        by_cases hlong : 64 ≤ shift + 7
        · rw [if_pos hlong, if_pos hlong]
          rfl
        · rw [if_neg hlong, if_neg hlong]
          exact ih _ _ _

@[simp] lemma readSlebLogged_val (c : UInt64) :
    (readSlebLogged m c stop).val = (readSleb c stop).val m :=
  readSlebLoopLogged_val 10 c 0 0

/-! ### `parse_cie` -/

/-- Go on with a value, or leave with the status of what failed. -/
def onOk {α β : Type} (r : Except Status α) (k : α → Logged CfiOp (Except Status β)) :
    Logged CfiOp (Except Status β) :=
  match r with
  | .error st => pure (.error st)
  | .ok a => k a

@[simp] lemma onOk_val {α β : Type} (r : Except Status α)
    (k : α → Logged CfiOp (Except Status β)) :
    (onOk r k).val = r >>= fun a => (k a).val := by
  cases r <;> rfl

/-- The fields of a CIE in front of its augmentation data. -/
def parseCieHeaderLogged (m : ByteMem) (sec : Section) (entryStart payload entryEnd : UInt64)
    (isEh : Bool) : Logged CfiOp (Except Status (CieRecord × UInt64)) :=
  if entryEnd ≤ payload then pure (.error .badFormat)
  else
    let version := m payload
    let augmentation := payload + 1
    onOk ((strnlen augmentation (entryEnd - augmentation).toNat).val m) fun augLen =>
      if entryEnd ≤ augmentation + UInt64.ofNat augLen then pure (.error .badFormat)
      else
        onOk ((readUleb (augmentation + (UInt64.ofNat augLen + 1)) entryEnd).val m)
          fun (codeAlign, payload) => do
            let dataAlign ← readSlebLogged m payload entryEnd
            onOk dataAlign fun (dataAlign, payload) =>
              onOk ((readUleb payload entryEnd).val m) fun (returnReg, payload) =>
                let cie : CieRecord :=
                  { version
                    addressSize := 8
                    returnReg := returnReg.toUInt8
                    ptrEncoding := dwEhPeAbsptr
                    dataAlign
                    codeAlign
                    offset := entryStart - sec.data
                    augmentation
                    augmentationLen := UInt64.ofNat augLen
                    instructions := 0
                    instructionsSize := 0 }
                if !isEh ∧ 3 ≤ version then
                  if entryEnd < payload + 2 then pure (.error .badFormat)
                  else pure (.ok ({ cie with addressSize := m payload }, payload + 2))
                else pure (.ok (cie, payload))

/-- Logging changes nothing of what the header of a CIE comes to. -/
theorem parseCieHeaderLogged_val (sec : Section) (entryStart payload entryEnd : UInt64)
    (isEh : Bool) :
    (parseCieHeaderLogged m sec entryStart payload entryEnd isEh).val =
      (parseCieHeader sec entryStart payload entryEnd isEh).val m := by
  rw [parseCieHeaderLogged, parseCieHeader]
  by_cases hp : entryEnd ≤ payload
  · rw [if_pos hp, if_pos hp]
    rfl
  rw [if_neg hp, if_neg hp, val_byte_bind, val_bind, onOk_val]
  congr 1
  funext augLen
  by_cases ha : entryEnd ≤ payload + 1 + UInt64.ofNat augLen
  · rw [if_pos ha, if_pos ha]
    rfl
  rw [if_neg ha, if_neg ha, val_bind, onOk_val]
  congr 1
  funext codeAlign
  rw [val_bind, Logged.val_bind, readSlebLogged_val, onOk_val]
  congr 1
  funext dataAlign
  rw [val_bind, onOk_val]
  congr 1
  funext returnReg
  dsimp only
  by_cases hversion : !isEh ∧ 3 ≤ m payload
  · rw [if_pos hversion, if_pos hversion]
    by_cases hshort : entryEnd < returnReg.2 + 2
    · rw [if_pos hshort, if_pos hshort]
      rfl
    · rw [if_neg hshort, if_neg hshort]
      rfl
  · rw [if_neg hversion, if_neg hversion]
    rfl

/-! ### `execute_cfi` -/

/-- Go on with an operand, or leave the loop with the status of the reader that failed. -/
def onReadLogged {α : Type} (s : CfiLoop) (r : Except Status (α × UInt64))
    (k : α → UInt64 → Logged CfiOp (Turn CfiLoop (Status × CfaState))) :
    Logged CfiOp (Turn CfiLoop (Status × CfaState)) :=
  match r with
  | .error st => pure (.done (st, s.state))
  | .ok (v, cursor) => k v cursor

@[simp] lemma onReadLogged_val {α : Type} (s : CfiLoop) (r : Except Status (α × UInt64))
    (k : α → UInt64 → Logged CfiOp (Turn CfiLoop (Status × CfaState))) :
    (onReadLogged s r k).val = onRead s r fun v cursor => (k v cursor).val := by
  rcases r with st | ⟨v, cursor⟩ <;> rfl

/-- The `switch (opcode)` of `execute_cfi`; `cursor` is past the opcode. -/
def cfiSwitchLogged (m : ByteMem) (cie : CieRecord) (stop pcBegin targetPc : UInt64)
    (initial : CfaState) (s : CfiLoop) (opcode : UInt8) (cursor : UInt64) :
    Logged CfiOp (Turn CfiLoop (Status × CfaState)) :=
  if opcode = 0x00 then -- DW_CFA_nop
    pure (.next ⟨cursor, s.pcOffset, s.state⟩)
  else if opcode = 0x01 then -- DW_CFA_set_loc
    pure (locationTurn m stop pcBegin targetPc s cursor cie.addressSize.toUInt64
      fun loc => loc - pcBegin)
  else if opcode = 0x02 then -- DW_CFA_advance_loc1
    pure (locationTurn m stop pcBegin targetPc s cursor 1
      fun delta => s.pcOffset + delta * cie.codeAlign)
  else if opcode = 0x03 then -- DW_CFA_advance_loc2
    pure (locationTurn m stop pcBegin targetPc s cursor 2
      fun delta => s.pcOffset + delta * cie.codeAlign)
  else if opcode = 0x04 then -- DW_CFA_advance_loc4
    pure (locationTurn m stop pcBegin targetPc s cursor 4
      fun delta => s.pcOffset + delta * cie.codeAlign)
  else if opcode = 0x0c then -- DW_CFA_def_cfa
    onReadLogged s ((readUleb cursor stop).val m) fun reg cursor =>
      onReadLogged s ((readUleb cursor stop).val m) fun offset cursor =>
        pure (.next ⟨cursor, s.pcOffset,
          { s.state with cfaReg := reg.toUInt16, cfaOffset := offset.toInt64 }⟩)
  else if opcode = 0x0d then -- DW_CFA_def_cfa_register
    onReadLogged s ((readUleb cursor stop).val m) fun reg cursor =>
      pure (.next ⟨cursor, s.pcOffset, { s.state with cfaReg := reg.toUInt16 }⟩)
  else if opcode = 0x0e then -- DW_CFA_def_cfa_offset
    onReadLogged s ((readUleb cursor stop).val m) fun offset cursor =>
      pure (.next ⟨cursor, s.pcOffset, { s.state with cfaOffset := offset.toInt64 }⟩)
  else if opcode = 0x0f then -- DW_CFA_def_cfa_expression
    pure (.done (.notImplemented, s.state))
  else if opcode = 0x10 then -- DW_CFA_expression
    pure (.done (.notImplemented, s.state))
  else if opcode = 0x11 then -- taken for DW_CFA_offset_extended
    onReadLogged s ((readUleb cursor stop).val m) fun reg cursor =>
      onReadLogged s ((readUleb cursor stop).val m) fun offset cursor =>
        if reg.toNat < regsetSlots then do
          let product ← multiply offset.toInt64 cie.dataAlign
          let state ← storeRule s.state reg.toNat ⟨.offset, product⟩
          pure (.next ⟨cursor, s.pcOffset, state⟩)
        else pure (.next ⟨cursor, s.pcOffset, s.state⟩)
  else if opcode = 0x12 then -- taken for DW_CFA_restore_extended
    onReadLogged s ((readUleb cursor stop).val m) fun reg cursor =>
      if reg.toNat < regsetSlots then do
        let state ← copyRule s.state initial reg.toNat
        pure (.next ⟨cursor, s.pcOffset, state⟩)
      else pure (.next ⟨cursor, s.pcOffset, s.state⟩)
  else if opcode = 0x1a then -- taken for DW_CFA_def_cfa_sf
    onReadLogged s ((readUleb cursor stop).val m) fun reg cursor => do
      let offset ← readSlebLogged m cursor stop
      onReadLogged s offset fun offset cursor => do
        let product ← multiply offset cie.dataAlign
        pure (.next ⟨cursor, s.pcOffset,
          { s.state with cfaReg := reg.toUInt16, cfaOffset := product }⟩)
  else if opcode = 0x1b then do -- taken for DW_CFA_def_cfa_offset_sf
    let offset ← readSlebLogged m cursor stop
    onReadLogged s offset fun offset cursor => do
      let product ← multiply offset cie.dataAlign
      pure (.next ⟨cursor, s.pcOffset, { s.state with cfaOffset := product }⟩)
  else pure (.done (.notImplemented, s.state))

/-- One turn of the loop of `execute_cfi`. -/
def cfiTurnLogged (m : ByteMem) (cie : CieRecord) (stop pcBegin targetPc : UInt64)
    (initial : CfaState) (s : CfiLoop) : Logged CfiOp (Turn CfiLoop (Status × CfaState)) :=
  if s.cursor < stop then
    let opcode := m s.cursor
    let operand := opcode &&& 0x3f
    if opcode &&& 0xc0 = 0x40 then -- DW_CFA_advance_loc
      let pcOffset := s.pcOffset + operand.toUInt64 * cie.codeAlign
      if targetPc < pcBegin + pcOffset then pure (.done (.ok, s.state))
      else pure (.next ⟨s.cursor + 1, pcOffset, s.state⟩)
    else if opcode &&& 0xc0 = 0x80 then -- DW_CFA_offset
      onReadLogged s ((readUleb (s.cursor + 1) stop).val m) fun offset cursor =>
        if operand.toNat < regsetSlots then do
          let product ← multiply offset.toInt64 cie.dataAlign
          let state ← storeRule s.state operand.toNat ⟨.offset, product⟩
          pure (.next ⟨cursor, s.pcOffset, state⟩)
        else pure (.next ⟨cursor, s.pcOffset, s.state⟩)
    else if opcode &&& 0xc0 = 0xc0 then -- DW_CFA_restore
      if operand.toNat < regsetSlots then do
        let state ← copyRule s.state initial operand.toNat
        pure (.next ⟨s.cursor + 1, s.pcOffset, state⟩)
      else pure (.next ⟨s.cursor + 1, s.pcOffset, s.state⟩)
    else cfiSwitchLogged m cie stop pcBegin targetPc initial s opcode (s.cursor + 1)
  else pure (.done (.ok, s.state))

variable {cie : CieRecord} {pcBegin targetPc : UInt64} {initial : CfaState}

/-- The state behind a choice. -/
lemma next_ite {P : Prop} [Decidable P] {cursor pcOffset : UInt64} {s t : CfaState} :
    (Turn.next ⟨cursor, pcOffset, if P then s else t⟩ : Turn CfiLoop (Status × CfaState)) =
      if P then .next ⟨cursor, pcOffset, s⟩ else .next ⟨cursor, pcOffset, t⟩ :=
  apply_ite (fun s => (Turn.next ⟨cursor, pcOffset, s⟩ : Turn CfiLoop (Status × CfaState))) P s t

/-- Logging changes nothing of a turn. -/
theorem cfiTurnLogged_val (s : CfiLoop) :
    (cfiTurnLogged m cie stop pcBegin targetPc initial s).val =
      cfiTurn m cie stop pcBegin targetPc initial s := by
  simp only [cfiTurnLogged, cfiSwitchLogged, cfiTurn, cfiSwitch, Logged.val_ite, Logged.val_pure,
    Logged.val_bind, onReadLogged_val, readSlebLogged_val, next_ite, multiply, storeRule, copyRule,
    factoredOffset]

/-- `execute_cfi`. -/
def executeCfiLogged (m : ByteMem) (cie : CieRecord)
    (program programSize pcBegin targetPc : UInt64) (state initial : CfaState) :
    Logged CfiOp (Status × CfaState) := do
  let r ← runLogged (cfiTurnLogged m cie (program + programSize) pcBegin targetPc initial)
    (programSize.toNat + 1) ⟨program, 0, state⟩
  pure (r.getD (.ok, state))

/-- Logging changes nothing of a program. -/
theorem executeCfiLogged_val (program programSize : UInt64) (state : CfaState) :
    (executeCfiLogged m cie program programSize pcBegin targetPc state initial).val =
      executeCfi m cie program programSize pcBegin targetPc state initial := by
  rw [executeCfiLogged, executeCfi, Logged.val_bind, runLogged_val]
  simp only [cfiTurnLogged_val, Logged.val_pure]

/-- The notes of a run are those of its turns. -/
theorem executeCfiLogged_log (program programSize : UInt64) (state : CfaState) :
    (executeCfiLogged m cie program programSize pcBegin targetPc state initial).log =
      (visited (cfiTurn m cie (program + programSize) pcBegin targetPc initial)
        (programSize.toNat + 1) ⟨program, 0, state⟩).flatMap fun s =>
          (cfiTurnLogged m cie (program + programSize) pcBegin targetPc initial s).log := by
  rw [executeCfiLogged, Logged.log_bind, runLogged_log, Logged.log_pure, List.append_nil]
  simp only [cfiTurnLogged_val]

/-! ### `dwunw_cfi_eval` -/

/-- `cfa_state_reset`. -/
def cfaStateResetLogged : Logged CfiOp CfaState :=
  ⟨cfaStateReset, (List.range regsetSlots).map .index⟩

/-- The part of `dwunw_cfi_eval` that replays the two programs. -/
def cfiRowLogged (m : ByteMem) (cie : CieRecord) (fde : FdeRecord) (pc : UInt64) :
    Logged CfiOp (Except Status CfaState) := do
  let current ← cfaStateResetLogged
  match ← executeCfiLogged m cie cie.instructions cie.instructionsSize fde.pcBegin
      0xffffffffffffffff current current with
  | (st, current) =>
      if st ≠ .ok ∧ st ≠ .notImplemented then pure (.error st)
      else do
        match ← executeCfiLogged m cie fde.instructions fde.instructionsSize fde.pcBegin pc
            current current with
        | (st, current) =>
            if st ≠ .ok ∧ st ≠ .notImplemented then pure (.error st)
            else if current.cfaReg = noCfaReg then pure (.error .notImplemented)
            else pure (.ok current)

/-- Logging changes nothing of a row. -/
theorem cfiRowLogged_val (cie : CieRecord) (fde : FdeRecord) (pc : UInt64) :
    (cfiRowLogged m cie fde pc).val = cfiRow m cie fde pc := by
  simp only [cfiRowLogged, cfiRow, Logged.val_bind, Logged.val_ite, Logged.val_pure,
    executeCfiLogged_val, cfaStateResetLogged]

/-- `reg_value`. -/
def regValueLogged (regs : Regset) (reg : UInt16) : Logged CfiOp UInt64 :=
  if reg = noCfaReg then pure 0
  else if reg.toNat < regsetSlots then do
    let v ← elementAt regs.regs reg.toNat
    pure (v.getD 0)
  else pure 0

lemma regValueLogged_val (regs : Regset) (reg : UInt16) :
    (regValueLogged regs reg).val = regValue regs reg := by
  rw [regValueLogged, regValue]
  split_ifs with hnone hreg
  · rfl
  · rw [Logged.val_bind, elementAt, dif_pos hreg]
    rfl
  · rfl

variable {σ : Type}

/-- The loop that updates the register snapshot. -/
def updateRegsLogged (row : CfaState) (cfa : UInt64) (reader : MemoryRead σ) :
    List (Fin regsetSlots) → Regset → σ → Logged CfiOp (Status × Regset × σ)
  | [], regs, ctx => pure (.ok, regs, ctx)
  | i :: slots, regs, ctx => do
      let rule ← elementAt row.regs i.val
      match (rule.getD (row.regs i)).kind with
      | .sameValue => updateRegsLogged row cfa reader slots regs ctx
      | .offset =>
          match applyRule .offset (row.regs i).offset cfa reader ctx with
          | (.error st, ctx) => pure (st, regs, ctx)
          | (.ok v, ctx) => do
              let regs ← storeReg regs i v
              updateRegsLogged row cfa reader slots regs ctx
      | .undefined => do
          let regs ← storeReg regs i 0
          updateRegsLogged row cfa reader slots regs ctx

lemma elementAt_val {α : Type} (array : Fin regsetSlots → α) (i : Fin regsetSlots) :
    (elementAt array i.val).val = some (array i) := dif_pos i.isLt

lemma updateRegsLogged_val (row : CfaState) (cfa : UInt64) (reader : MemoryRead σ)
    (slots : List (Fin regsetSlots)) (regs : Regset) (ctx : σ) :
    (updateRegsLogged row cfa reader slots regs ctx).val =
      updateRegs row cfa reader slots regs ctx := by
  induction slots generalizing regs ctx with
  | nil => rfl
  | cons i slots ih =>
      rw [updateRegsLogged, updateRegs, Logged.val_bind, elementAt_val, Option.getD_some]
      cases (row.regs i).kind with
      | undefined => exact ih _ _
      | sameValue => exact ih _ _
      | offset =>
          dsimp only
          rcases applyRule .offset (row.regs i).offset cfa reader ctx with ⟨st | v, ctx'⟩
          · rfl
          · exact ih _ _

/-- The return address under a row, for a return register that need not be a slot; `none` when
an element is taken that is not there. -/
def returnAddressLogged (row : CfaState) (reg : ℕ) (cfa : UInt64) (regs : Regset)
    (reader : MemoryRead σ) (ctx : σ) : Logged CfiOp (Option (Except Status UInt64 × σ)) := do
  match ← elementAt row.regs reg with
  | none => pure none
  | some rule =>
      match rule.kind with
      | .sameValue => do
          let v ← elementAt regs.regs reg
          pure (v.map fun v => (.ok v, ctx))
      | .offset => pure (some (applyRule .offset rule.offset cfa reader ctx))
      | .undefined => pure (some (.error .notImplemented, ctx))

lemma returnAddressLogged_val (row : CfaState) (reg : ℕ) (cfa : UInt64) (regs : Regset)
    (reader : MemoryRead σ) (ctx : σ) :
    (returnAddressLogged row reg cfa regs reader ctx).val =
      if h : reg < regsetSlots then some (returnAddress row ⟨reg, h⟩ cfa regs reader ctx)
      else none := by
  rw [returnAddressLogged, Logged.val_bind]
  by_cases h : reg < regsetSlots
  · rw [dif_pos h, elementAt_val row.regs ⟨reg, h⟩, returnAddress]
    dsimp only
    cases (row.regs ⟨reg, h⟩).kind with
    | undefined => rfl
    | sameValue =>
        dsimp only
        rw [Logged.val_bind, elementAt_val regs.regs ⟨reg, h⟩]
        rfl
    | offset => rfl
  · rw [dif_neg h, elementAt, dif_neg h]
    rfl

/-- `dwunw_cfi_eval` once the row is known. -/
def applyRowLogged (row : CfaState) (returnReg : UInt8) (regs : Regset) (reader : MemoryRead σ)
    (ctx : σ) (frame : Frame) : Logged CfiOp (Option (EvalResult σ)) := do
  let base ← regValueLogged regs row.cfaReg
  let cfa := base + row.cfaOffset.toUInt64
  match ← returnAddressLogged row returnReg.toNat cfa regs reader ctx with
  | none => pure none
  | some (.error st, ctx) => pure (some ⟨st, regs, frame, ctx⟩)
  | some (.ok ra, ctx) => do
      let frame := { frame with pc := ra, ra := ra, sp := cfa, cfa := cfa, flags := 0 }
      match ← updateRegsLogged row cfa reader (List.finRange regsetSlots) regs ctx with
      | (.ok, regs, ctx) => pure (some ⟨.ok, { regs with pc := ra, sp := cfa }, frame, ctx⟩)
      | (st, regs, ctx) => pure (some ⟨st, regs, frame, ctx⟩)

lemma applyRowLogged_val (row : CfaState) (returnReg : UInt8) (regs : Regset)
    (reader : MemoryRead σ) (ctx : σ) (frame : Frame) :
    (applyRowLogged row returnReg regs reader ctx frame).val =
      if h : returnReg.toNat < regsetSlots then
        some (applyRow row ⟨returnReg.toNat, h⟩ regs reader ctx frame)
      else none := by
  rw [applyRowLogged, Logged.val_bind, regValueLogged_val, Logged.val_bind,
    returnAddressLogged_val]
  by_cases h : returnReg.toNat < regsetSlots
  · rw [dif_pos h, dif_pos h, applyRow]
    dsimp only
    rcases returnAddress row ⟨returnReg.toNat, h⟩ (regValue regs row.cfaReg +
      row.cfaOffset.toUInt64) regs reader ctx with ⟨st | ra, ctx'⟩
    · rfl
    · dsimp only
      rw [Logged.val_bind, updateRegsLogged_val]
      rcases updateRegs row _ reader (List.finRange regsetSlots) regs ctx' with
        ⟨st, regs', ctx''⟩
      cases st <;> rfl
  · rw [dif_neg h, dif_neg h]
    rfl

/-- `dwunw_cfi_eval`. -/
def cfiEvalLogged (m : ByteMem) (cie : CieRecord) (fde : FdeRecord) (pc : UInt64)
    (regs : Regset) (reader : MemoryRead σ) (ctx : σ) (frame : Frame) :
    Logged CfiOp (Option (EvalResult σ)) :=
  if pc < fde.pcBegin ∨ fde.pcBegin + fde.pcRange ≤ pc then
    pure (some ⟨.invalidArg, regs, frame, ctx⟩)
  else do
    match ← cfiRowLogged m cie fde pc with
    | .error st => pure (some ⟨st, regs, frame, ctx⟩)
    | .ok row => applyRowLogged row cie.returnReg regs reader ctx frame

/-- Logging changes nothing of an evaluation. -/
theorem cfiEvalLogged_val (cie : CieRecord) (fde : FdeRecord) (pc : UInt64) (regs : Regset)
    (reader : MemoryRead σ) (ctx : σ) (frame : Frame) :
    (cfiEvalLogged m cie fde pc regs reader ctx frame).val =
      cfiEval m cie fde pc regs reader ctx frame := by
  rw [cfiEvalLogged, cfiEval, Logged.val_ite]
  refine if_congr Iff.rfl rfl ?_
  rw [Logged.val_bind, cfiRowLogged_val]
  cases cfiRow m cie fde pc with
  | error st => rfl
  | ok row => exact applyRowLogged_val row cie.returnReg regs reader ctx frame

end Dwunw
