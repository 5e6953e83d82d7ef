import Dwunw.Cfi.EvalSpec
import Dwunw.Lib.CallFrame

/-!
`execute_cfi` on the call-frame instructions of DWARF.

* `rowState`: the row of a call-frame program as a `struct cfa_state`, its offsets modulo
  `2 ^ 64`; `Represents` adds that the struct can hold the row.
* `wordAddressing`: the locations as 64-bit words; `naturalAddressing`: as natural numbers.
* `Implemented`, `Readable`, `asRead`: which instructions `execute_cfi` has an arm for, which
  operands its readers accept, and the one instruction it takes for another with the same
  operands.
* `cfiTurn_unimplemented`, `cfiTurn_unreadable`, `cfiTurn_moves`, `cfiTurn_updates`,
  `cfiTurn_defCfaSf`: the turn on every instruction.
-/

namespace Dwunw

open CallFrame Leb128 Loop Traced

variable {m : ByteMem} {cie : CieRecord} {stop pcBegin targetPc : UInt64} {n : ℕ}

/-! ### Rows -/

/-- A rule as a `struct reg_rule`; the rules that the struct has no kind for are lost. -/
def ruleState : Rule → RegRule
  | .sameValue => ⟨.sameValue, 0⟩
  | .offset k => ⟨.offset, Int64.ofInt k⟩
  | _ => ⟨.undefined, 0⟩

/-- The CFA register as the 16-bit field. -/
def cfaRegState : Option ℕ → UInt16
  | none => noCfaReg
  | some r => UInt16.ofNat r

/-- A row as a `struct cfa_state`. -/
def rowState (row : Row) : CfaState :=
  ⟨cfaRegState row.cfaReg, Int64.ofInt row.cfaOffset, fun i => ruleState (row.rule i)⟩

/-- A row whose rules a `struct cfa_state` has kinds for: the CFA is no expression, and the
tracked registers are undefined, unchanged, or at an offset. -/
structure Tracked (row : Row) : Prop where
  cfa : row.cfaExpression = none
  rules : ∀ i < regsetSlots,
    row.rule i = .undefined ∨ row.rule i = .sameValue ∨ ∃ k, row.rule i = .offset k

/-- A row that a `struct cfa_state` can hold: the CFA register, too, is none of the numbers
that the field cannot tell apart. -/
structure Trackable (row : Row) : Prop extends Tracked row where
  reg : ∀ r ∈ row.cfaReg, r < 0xffff

/-- The state is that of the row. -/
def Represents (row : Row) (s : CfaState) : Prop := Trackable row ∧ s = rowState row

/-- The row before the initial instructions, with the defaults of `cfa_state_reset`. -/
def defaultRow : Row := ⟨none, 0, none, fun _ => .sameValue⟩

lemma represents_default : Represents defaultRow cfaStateReset :=
  ⟨⟨⟨rfl, fun _ _ => .inr (.inl rfl)⟩, nofun⟩, rfl⟩

lemma rowState_setRule {row : Row} {r : ℕ} {rule : Rule} :
    rowState (row.setRule r rule) =
      if r < regsetSlots then (rowState row).setRule r (ruleState rule) else rowState row := by
  have hreg (i : Fin regsetSlots) : ruleState ((row.setRule r rule).rule i) =
      if i.val = r then ruleState rule else ruleState (row.rule i) := by
    rw [Row.setRule]
    dsimp only
    rw [Function.update_apply]
    split_ifs <;> rfl
  split_ifs with h
  · simp only [rowState, CfaState.setRule, hreg]
    rfl
  · have hne (i : Fin regsetSlots) : i.val ≠ r := by omega
    simp only [rowState, hreg, if_neg (hne _)]
    rfl

lemma rowState_restoreRule {row initial : Row} {r : ℕ} :
    rowState (row.setRule r (initial.rule r)) =
      if r < regsetSlots then (rowState row).restoreRule (rowState initial) r
      else rowState row := by
  rw [rowState_setRule]
  split_ifs
  · rw [CfaState.setRule, CfaState.restoreRule]
    congr 1
    funext i
    by_cases hi : i.val = r
    · rw [if_pos hi, if_pos hi, ← hi]
      rfl
    · rw [if_neg hi, if_neg hi]
  · rfl

lemma factoredOffset_ofNat (k : ℕ) :
    factoredOffset cie (UInt64.ofNat k) = Int64.ofInt (k * cie.dataAlign.toInt) := by
  rw [factoredOffset, UInt64.toInt64_ofNat', Int64.ofInt_mul, Int64.ofInt_toInt,
    Int64.ofInt_eq_ofNat]

lemma toUInt16_ofNat (k : ℕ) : (UInt64.ofNat k).toUInt16 = UInt16.ofNat k := by
  apply UInt16.toNat_inj.mp
  rw [UInt64.toNat_toUInt16, UInt64.toNat_ofNat', UInt16.toNat_ofNat']
  omega

/-! ### Instructions -/

/-- The locations as 64-bit words. -/
def wordAddressing (cie : CieRecord) : Addressing UInt64 :=
  ⟨UInt64.ofNat, fun loc d => loc + UInt64.ofNat d * cie.codeAlign⟩

/-- The locations as natural numbers. -/
def naturalAddressing (cie : CieRecord) : Addressing ℕ :=
  ⟨id, fun loc d => loc + d * cie.codeAlign.toNat⟩

/-- Moving a location commutes with taking it as a word. -/
lemma location_word (i : Instr n) (loc : ℕ) :
    i.location (wordAddressing cie) (UInt64.ofNat loc) =
      (i.location (naturalAddressing cie) loc).map UInt64.ofNat := by
  have hadvance (d : ℕ) : UInt64.ofNat loc + UInt64.ofNat d * cie.codeAlign =
      UInt64.ofNat (loc + d * cie.codeAlign.toNat) := by
    rw [UInt64.ofNat_add, UInt64.ofNat_mul, UInt64.ofNat_toNat]
  cases i <;> first | rfl | exact congrArg some (hadvance _)

lemma ofNat_lt_iff (pc : UInt64) {loc : ℕ} (h : loc < 2 ^ 64) :
    pc < UInt64.ofNat loc ↔ pc.toNat < loc := by
  rw [UInt64.lt_iff_toNat_lt, UInt64.toNat_ofNat', Nat.mod_eq_of_lt h]

/-- The instructions that `execute_cfi` has an arm for, be it the wrong one. -/
def Implemented : Instr n → Prop
  | .nop | .setLoc _ | .advanceLoc _ | .advanceLoc1 _ | .advanceLoc2 _ | .advanceLoc4 _
  | .offset _ _ | .restore _ | .defCfa _ _ | .defCfaRegister _ | .defCfaOffset _
  | .offsetExtendedSf _ _ | .defCfaSf _ _ => True
  | _ => False

instance : DecidablePred (Implemented (n := n)) := fun i => by
  cases i <;> first | exact isTrue trivial | exact isFalse id

/-- An operand that `read_uleb` accepts. -/
def Short (x : Leb) : Prop := x.bytes.length ≤ 10

instance : DecidablePred Short := fun _ => inferInstanceAs (Decidable (_ ≤ _))

/-- The instructions whose operands the readers accept.  Of `DW_CFA_def_cfa_sf` only the
register is read. -/
def Readable : Instr n → Prop
  | .setLoc _ => IsFixedSize n
  | .offset _ x => Short x
  | .defCfa r x => Short r ∧ Short x
  | .defCfaRegister r => Short r
  | .defCfaOffset x => Short x
  | .offsetExtendedSf r x => Short r ∧ Short x
  | .defCfaSf r _ => Short r
  | _ => True

instance : DecidablePred IsFixedSize := fun _ => inferInstanceAs (Decidable (_ ∨ _))

instance : DecidablePred (Readable (n := n)) := fun i => by
  cases i <;> dsimp only [Readable] <;> infer_instance

/-- The instruction is `DW_CFA_def_cfa_sf`. -/
def IsDefCfaSf : Instr n → Prop
  | .defCfaSf _ _ => True
  | _ => False

instance : DecidablePred (IsDefCfaSf (n := n)) := fun i => by
  cases i <;> first | exact isTrue trivial | exact isFalse id

/-- The instructions that `execute_cfi` gets past as a whole. -/
def Passable (i : Instr n) : Prop := Implemented i ∧ ¬ IsDefCfaSf i

/-- A register operand as `read_uleb` returns it. -/
def wordRegister (r : Leb) : Leb := .ofNat (r.toNat % 2 ^ 64)

lemma toNat_ofNat_reg (r : Leb) : (UInt64.ofNat r.toNat).toNat = (wordRegister r).toNat :=
  UInt64.toNat_ofNat'.trans (unsigned_encodeUnsigned _).symm

/-- What `execute_cfi` takes an instruction for: opcode `0x11` is `DW_CFA_offset_extended_sf`,
and it reads a register of 64 bits and an unsigned operand. -/
def asRead : Instr n → Instr n
  | .offsetExtendedSf r x => .offsetExtended (wordRegister r) x
  | i => i

lemma tracked_setRule {row : Row} (h : Tracked row) {r : ℕ} {rule : Rule}
    (hrule : r < regsetSlots →
      rule = .undefined ∨ rule = .sameValue ∨ ∃ k, rule = .offset k) :
    Tracked (row.setRule r rule) := by
  refine ⟨h.cfa, fun i hi => ?_⟩
  rw [Row.setRule]
  dsimp only
  rw [Function.update_apply]
  split_ifs with heq
  · exact hrule (heq ▸ hi)
  · exact h.rules i hi

lemma tracked_apply {i : Instr n} {dataAlign : ℤ} {init : Row} {M : Machine} (hi : Passable i)
    (hinit : Tracked init) (hM : Tracked M.row) : Tracked (i.apply dataAlign init M).row := by
  cases i with
  | offset r x => exact tracked_setRule hM fun _ => .inr (.inr ⟨_, rfl⟩)
  | restore r => exact tracked_setRule hM fun hr => hinit.rules r hr
  | offsetExtendedSf r x => exact tracked_setRule hM fun _ => .inr (.inr ⟨_, rfl⟩)
  | defCfa r x => exact ⟨rfl, hM.rules⟩
  | defCfaRegister | defCfaOffset => exact ⟨hM.cfa, hM.rules⟩
  | nop | setLoc | advanceLoc | advanceLoc1 | advanceLoc2 | advanceLoc4 => exact hM
  | defCfaSf r x => exact absurd trivial hi.2
  | _ => exact hi.1.elim

/-- Instructions that are passed keep the row one with rules that can be tracked. -/
lemma tracked_exec {prog : List (Instr n)} {dataAlign : ℤ} {init : Row} {M : Machine}
    (hprog : ∀ i ∈ prog, Passable i) (hinit : Tracked init) (hM : Tracked M.row) :
    Tracked (exec dataAlign init M prog).row := by
  induction prog generalizing M with
  | nil => exact hM
  | cons i prog ih =>
      exact ih (fun j hj => hprog j (List.mem_cons_of_mem _ hj))
        (tracked_apply (hprog i List.mem_cons_self) hinit hM)

/-! ### Operands -/

/-- `read_uleb` on an operand. -/
lemma readUleb_operand {c : UInt64} {x : Leb} {rest : List UInt8}
    (h : Span m c stop (x.bytes ++ rest)) :
    (readUleb c stop).val m =
      if Short x then .ok (UInt64.ofNat x.toNat, c + UInt64.ofNat x.bytes.length)
      else .error .badFormat := readUleb_of_group x.group h

/-! ### The byte of the opcode -/

/-- An opcode without operand in its byte leads to the `switch`. -/
lemma cfiTurn_switch {initial : CfaState} {s : CfiLoop} {opcode : UInt8}
    (hop : opcode &&& 0xc0 = 0) (hc : s.cursor < stop) (hm : m s.cursor = opcode) :
    cfiTurn m cie stop pcBegin targetPc initial s =
      cfiSwitch m cie stop pcBegin targetPc initial s opcode (s.cursor + 1) := by
  rw [cfiTurn, if_pos hc, hm]
  dsimp only
  rw [hop, if_neg (by decide), if_neg (by decide), if_neg (by decide)]

lemma advanceLoc_byte (d : Fin 64) :
    UInt8.ofNat (0x40 + d) &&& 0xc0 = 0x40 ∧ UInt8.ofNat (0x40 + d) &&& 0x3f = UInt8.ofNat d := by
  revert d
  decide

lemma offset_byte (r : Fin 64) :
    UInt8.ofNat (0x80 + r) &&& 0xc0 = 0x80 ∧ UInt8.ofNat (0x80 + r) &&& 0x3f = UInt8.ofNat r := by
  revert r
  decide

lemma restore_byte (r : Fin 64) :
    UInt8.ofNat (0xc0 + r) &&& 0xc0 = 0xc0 ∧ UInt8.ofNat (0xc0 + r) &&& 0x3f = UInt8.ofNat r := by
  revert r
  decide

lemma toNat_ofNat_fin (r : Fin 64) : (UInt8.ofNat r).toNat = r := by
  revert r
  decide

lemma toUInt64_ofNat_fin (r : Fin 64) : (UInt8.ofNat r).toUInt64 = UInt64.ofNat r := by
  revert r
  decide

/-! ### The turn on an instruction -/

section Turns

variable {initial : CfaState} {s : CfiLoop} {rest : List UInt8}

lemma bytes_head (i : Instr n) : ∃ b bs, i.bytes = b :: bs := by
  cases i <;> exact ⟨_, _, rfl⟩

/-- An instruction without an arm ends the run. -/
theorem cfiTurn_unimplemented {i : Instr n} (hi : ¬ Implemented i)
    (h : Span m s.cursor stop (i.bytes ++ rest)) :
    cfiTurn m cie stop pcBegin targetPc initial s = .done (.notImplemented, s.state) := by
  rw [cfiTurn_notImplemented_iff]
  obtain ⟨b, bs, hb⟩ := bytes_head i
  rw [hb, List.cons_append] at h
  refine ⟨h.head_lt, ?_, rfl⟩
  rw [h.cons.1]
  cases i <;> first | exact absurd trivial hi | (cases hb; decide)

/-- Reading an unsigned operand. -/
lemma onRead_operand {c : UInt64} {x : Leb}
    (k : UInt64 → UInt64 → Turn CfiLoop (Status × CfaState))
    (h : Span m c stop (x.bytes ++ rest)) :
    onRead s ((readUleb c stop).val m) k =
      if Short x then k (UInt64.ofNat x.toNat) (c + UInt64.ofNat x.bytes.length)
      else .done (.badFormat, s.state) := by
  rw [readUleb_operand h]
  split_ifs <;> rfl

/-- Reading two unsigned operands. -/
lemma onRead_operands {c : UInt64} {x y : Leb}
    (k : UInt64 → UInt64 → UInt64 → Turn CfiLoop (Status × CfaState))
    (h : Span m c stop (x.bytes ++ (y.bytes ++ rest))) :
    onRead s ((readUleb c stop).val m) (fun u c => onRead s ((readUleb c stop).val m) (k u)) =
      if Short x ∧ Short y then
        k (UInt64.ofNat x.toNat) (UInt64.ofNat y.toNat)
          (c + UInt64.ofNat (x.bytes ++ y.bytes).length)
      else .done (.badFormat, s.state) := by
  rw [onRead_operand _ h, onRead_operand _ h.append, UInt64.add_assoc, ← UInt64.ofNat_add,
    ← List.length_append]
  split_ifs <;> first | rfl | (exfalso; tauto)

/-- The turn on an instruction that gives a rule or the CFA, other than
`DW_CFA_def_cfa_sf`. -/
theorem cfiTurn_updates (pcBegin targetPc : UInt64) (init : Row) {i : Instr n} {loc : UInt64}
    {M : Machine} (hi : Passable i)
    (hloc : i.location (wordAddressing cie) loc = none) (hs : s.state = rowState M.row)
    (h : Span m s.cursor stop (i.bytes ++ rest)) :
    cfiTurn m cie stop pcBegin targetPc (rowState init) s =
      if Readable i then
        .next ⟨s.cursor + UInt64.ofNat i.bytes.length, s.pcOffset,
          rowState ((asRead i).apply cie.dataAlign.toInt init M).row⟩
      else .done (.badFormat, s.state) := by
  have hcursor (bs : List UInt8) :
      s.cursor + 1 + UInt64.ofNat bs.length = s.cursor + UInt64.ofNat (bs.length + 1) :=
    (UInt64.add_ofNat_succ _ _).symm
  cases i with
  | nop =>
      rw [cfiTurn_switch (by decide) h.head_lt h.cons.1, cfiSwitch, if_pos rfl,
        if_pos (show Readable (.nop : Instr n) from trivial), hs]
      rfl
  | offset r x =>
      rw [cfiTurn, if_pos h.head_lt, h.cons.1]
      dsimp only
      rw [(offset_byte r).1, (offset_byte r).2, if_neg (by decide), if_pos rfl,
        onRead_operand _ h.cons.2, toNat_ofNat_fin, factoredOffset_ofNat, hs, hcursor]
      have hstate : rowState ((asRead (.offset r x : Instr n)).apply cie.dataAlign.toInt init
          M).row = _ := rowState_setRule
      rw [hstate]
      exact if_congr Iff.rfl rfl rfl
  | restore r =>
      rw [cfiTurn, if_pos h.head_lt, h.cons.1]
      dsimp only
      rw [(restore_byte r).1, (restore_byte r).2, if_neg (by decide), if_neg (by decide),
        if_pos rfl, toNat_ofNat_fin, hs, if_pos (show Readable (.restore r : Instr n) from trivial)]
      have hstate : rowState ((asRead (.restore r : Instr n)).apply cie.dataAlign.toInt init
          M).row = _ := rowState_restoreRule
      rw [hstate]
      rfl
  | defCfa r x =>
      have hspan : Span m (s.cursor + 1) stop (r.bytes ++ x.bytes ++ rest) := h.cons.2
      rw [List.append_assoc] at hspan
      rw [cfiTurn_switch (by decide) h.head_lt h.cons.1]
      have harm : cfiSwitch m cie stop pcBegin targetPc (rowState init) s 0x0c (s.cursor + 1) =
          onRead s ((readUleb (s.cursor + 1) stop).val m) fun reg cursor =>
            onRead s ((readUleb cursor stop).val m) fun offset cursor =>
              .next ⟨cursor, s.pcOffset,
                { s.state with cfaReg := reg.toUInt16, cfaOffset := offset.toInt64 }⟩ := rfl
      rw [harm, onRead_operands _ hspan, hs, hcursor, toUInt16_ofNat, UInt64.toInt64_ofNat',
        ← Int64.ofInt_eq_ofNat]
      exact if_congr Iff.rfl rfl rfl
  | defCfaRegister r =>
      rw [cfiTurn_switch (by decide) h.head_lt h.cons.1]
      have harm : cfiSwitch m cie stop pcBegin targetPc (rowState init) s 0x0d (s.cursor + 1) =
          onRead s ((readUleb (s.cursor + 1) stop).val m) fun reg cursor =>
            .next ⟨cursor, s.pcOffset, { s.state with cfaReg := reg.toUInt16 }⟩ := rfl
      rw [harm, onRead_operand _ h.cons.2, hs, hcursor, toUInt16_ofNat]
      exact if_congr Iff.rfl rfl rfl
  | defCfaOffset x =>
      rw [cfiTurn_switch (by decide) h.head_lt h.cons.1]
      have harm : cfiSwitch m cie stop pcBegin targetPc (rowState init) s 0x0e (s.cursor + 1) =
          onRead s ((readUleb (s.cursor + 1) stop).val m) fun offset cursor =>
            .next ⟨cursor, s.pcOffset, { s.state with cfaOffset := offset.toInt64 }⟩ := rfl
      rw [harm, onRead_operand _ h.cons.2, hs, hcursor, UInt64.toInt64_ofNat',
        ← Int64.ofInt_eq_ofNat]
      exact if_congr Iff.rfl rfl rfl
  | offsetExtendedSf r x =>
      have hspan : Span m (s.cursor + 1) stop (r.bytes ++ x.bytes ++ rest) := h.cons.2
      rw [List.append_assoc] at hspan
      rw [cfiTurn_switch (by decide) h.head_lt h.cons.1]
      have harm : cfiSwitch m cie stop pcBegin targetPc (rowState init) s 0x11 (s.cursor + 1) =
          onRead s ((readUleb (s.cursor + 1) stop).val m) fun reg cursor =>
            onRead s ((readUleb cursor stop).val m) fun offset cursor =>
              .next ⟨cursor, s.pcOffset,
                if reg.toNat < regsetSlots then
                  s.state.setRule reg.toNat ⟨.offset, factoredOffset cie offset⟩
                else s.state⟩ := rfl
      rw [harm, onRead_operands _ hspan, hs, hcursor, toNat_ofNat_reg, factoredOffset_ofNat]
      have hstate : rowState ((asRead (.offsetExtendedSf r x : Instr n)).apply
          cie.dataAlign.toInt init M).row = _ := rowState_setRule
      rw [hstate]
      exact if_congr Iff.rfl rfl rfl
  | defCfaSf r x => exact absurd trivial hi.2
  | setLoc a => cases hloc
  | advanceLoc d => cases hloc
  | advanceLoc1 d => cases hloc
  | advanceLoc2 d => cases hloc
  | advanceLoc4 d => cases hloc
  | _ => exact hi.1.elim

/-- The turn on `DW_CFA_def_cfa_sf`, taken for `DW_CFA_restore_extended`: the signed operand is
left standing in front of the cursor. -/
theorem cfiTurn_defCfaSf (cie : CieRecord) (pcBegin targetPc : UInt64) (initial : CfaState)
    {r x : Leb}
    (h : Span m s.cursor stop ((Instr.defCfaSf r x : Instr n).bytes ++ rest)) :
    cfiTurn m cie stop pcBegin targetPc initial s =
      if Short r then
        .next ⟨s.cursor + UInt64.ofNat (r.bytes.length + 1), s.pcOffset,
          if (wordRegister r).toNat < regsetSlots then
            s.state.restoreRule initial (wordRegister r).toNat
          else s.state⟩
      else .done (.badFormat, s.state) := by
  have hspan : Span m (s.cursor + 1) stop (r.bytes ++ x.bytes ++ rest) := h.cons.2
  rw [List.append_assoc] at hspan
  rw [cfiTurn_switch (by decide) h.head_lt h.cons.1]
  have harm : cfiSwitch m cie stop pcBegin targetPc initial s 0x12 (s.cursor + 1) =
      onRead s ((readUleb (s.cursor + 1) stop).val m) fun reg cursor =>
        .next ⟨cursor, s.pcOffset,
          if reg.toNat < regsetSlots then s.state.restoreRule initial reg.toNat else s.state⟩ :=
    rfl
  rw [harm, onRead_operand _ hspan, toNat_ofNat_reg, UInt64.add_ofNat_succ]

/-- How a turn comes out that moves the location to `loc`: beyond the target the run is over,
by one of two exits, and else it goes on behind the instruction. -/
structure MovesTo (stop pcBegin targetPc loc : UInt64) (s : CfiLoop) (length : ℕ)
    (t : Turn CfiLoop (Status × CfaState)) : Prop where
  beyond : targetPc < loc → t = .done (.ok, s.state) ∨ ∃ off, t = .next ⟨stop, off, s.state⟩
  within : ¬ targetPc < loc →
    t = .next ⟨s.cursor + UInt64.ofNat length, loc - pcBegin, s.state⟩

/-- The location opcodes of the `switch`. -/
lemma locationTurn_moves {k v : ℕ} {loc : UInt64} {newOffset : UInt64 → UInt64}
    (hk : IsFixedSize k) (hv : v < 256 ^ k)
    (hloc : newOffset (UInt64.ofNat v) = loc - pcBegin)
    (h : Span m (s.cursor + 1) stop (leBytes k v ++ rest)) :
    MovesTo stop pcBegin targetPc loc s (k + 1)
      (locationTurn m stop pcBegin targetPc s (s.cursor + 1) (UInt64.ofNat k) newOffset) := by
  have hback : pcBegin + (loc - pcBegin) = loc := by grind
  rw [locationTurn, readFixedSize_leBytes hk hv h, onRead_ok, hloc, hback]
  refine ⟨fun hpass => .inr ⟨_, by rw [if_pos hpass]⟩, fun hpass => ?_⟩
  rw [if_neg hpass, UInt64.add_ofNat_succ]

/-- The turn on an instruction that moves the location. -/
theorem cfiTurn_moves (targetPc : UInt64) (initial : CfaState) {i : Instr n} {loc : UInt64}
    (hn : cie.addressSize.toNat = n)
    (hloc : i.location (wordAddressing cie) (pcBegin + s.pcOffset) = some loc)
    (hr : Readable i) (h : Span m s.cursor stop (i.bytes ++ rest)) :
    MovesTo stop pcBegin targetPc loc s i.bytes.length
      (cfiTurn m cie stop pcBegin targetPc initial s) := by
  have hoffset (d : UInt64) : s.pcOffset + d * cie.codeAlign =
      pcBegin + s.pcOffset + d * cie.codeAlign - pcBegin := by grind
  cases i with
  | setLoc a =>
      cases hloc
      have hsize : cie.addressSize.toUInt64 = UInt64.ofNat n := by
        rw [← hn, ← UInt8.toNat_toUInt64, UInt64.ofNat_toNat]
      rw [cfiTurn_switch (by decide) h.head_lt h.cons.1]
      have harm : cfiSwitch m cie stop pcBegin targetPc initial s 0x01 (s.cursor + 1) =
          locationTurn m stop pcBegin targetPc s (s.cursor + 1) cie.addressSize.toUInt64
            fun loc => loc - pcBegin := rfl
      rw [harm, hsize, Instr.bytes, List.length_cons, leBytes_length]
      exact locationTurn_moves hr a.isLt rfl h.cons.2
  | advanceLoc d =>
      cases hloc
      have hdelta : (UInt8.ofNat d).toUInt64 = UInt64.ofNat d := toUInt64_ofNat_fin d
      have hback : pcBegin + (s.pcOffset + UInt64.ofNat d * cie.codeAlign) =
          pcBegin + s.pcOffset + UInt64.ofNat d * cie.codeAlign := (UInt64.add_assoc _ _ _).symm
      rw [cfiTurn, if_pos h.head_lt, h.cons.1]
      dsimp only
      rw [(advanceLoc_byte d).1, (advanceLoc_byte d).2, if_pos rfl, hdelta, hback]
      refine ⟨fun hpass => .inl (if_pos hpass), fun hpass => (if_neg hpass).trans ?_⟩
      rw [hoffset]
      rfl
  | advanceLoc1 d =>
      cases hloc
      rw [cfiTurn_switch (by decide) h.head_lt h.cons.1]
      exact locationTurn_moves (k := 1) (.inl rfl) d.toNat_lt (hoffset _) h.cons.2
  | advanceLoc2 d =>
      cases hloc
      rw [cfiTurn_switch (by decide) h.head_lt h.cons.1]
      exact locationTurn_moves (k := 2) (.inr (.inl rfl)) d.toNat_lt (hoffset _) h.cons.2
  | advanceLoc4 d =>
      cases hloc
      rw [cfiTurn_switch (by decide) h.head_lt h.cons.1]
      exact locationTurn_moves (k := 4) (.inr (.inr (.inl rfl))) d.toNat_lt (hoffset _) h.cons.2
  | _ => cases hloc

/-- An instruction with operands the readers do not accept ends the run. -/
theorem cfiTurn_unreadable {i : Instr n} {init : Row} {M : Machine}
    (hn : cie.addressSize.toNat = n) (hi : Implemented i) (hr : ¬ Readable i)
    (hs : s.state = rowState M.row) (h : Span m s.cursor stop (i.bytes ++ rest)) :
    cfiTurn m cie stop pcBegin targetPc (rowState init) s = .done (.badFormat, s.state) := by
  by_cases hsf : IsDefCfaSf i
  · cases i with
    | defCfaSf r x => exact (cfiTurn_defCfaSf _ _ _ _ h).trans (if_neg hr)
    | _ => exact hsf.elim
  cases hloc : i.location (wordAddressing cie) 0 with
  | none => rw [cfiTurn_updates _ _ _ ⟨hi, hsf⟩ hloc hs h, if_neg hr]
  | some loc =>
      cases i with
      | setLoc a =>
          have hsize : ¬ IsFixedSize cie.addressSize.toUInt64.toNat := by
            rw [UInt8.toNat_toUInt64, hn]
            exact hr
          rw [cfiTurn_switch (by decide) h.head_lt h.cons.1]
          have harm : cfiSwitch m cie stop pcBegin targetPc (rowState init) s 0x01
              (s.cursor + 1) =
              locationTurn m stop pcBegin targetPc s (s.cursor + 1) cie.addressSize.toUInt64
                fun loc => loc - pcBegin := rfl
          rw [harm, locationTurn, val_readFixedSize_of_not hsize, onRead_error]
      | _ => first | exact absurd trivial hr | cases hloc

end Turns

/-- The register operand of the x86-64 stack pointer. -/
def rspReg : Leb := .ofNat 7

end Dwunw
