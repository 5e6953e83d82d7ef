import Dwunw.Cfi.ApplyRow

/-!
The register the CFA is counted from.

`execute_cfi` keeps 16 bits of the operand of a `DW_CFA_def_cfa`, and `reg_value` takes the
value 0 for a register that is no slot of the snapshot.

* `rowCfaOperands`: the registers with which the two programs define the CFA, as natural numbers
  of any size; `cfiRow_cfaReg`: the row has the last of them, cut to 16 bits.
* `cfaTracked_iff`: the CFA is always counted from the register of the program exactly when
  that register is a slot of the snapshot.
-/

namespace Dwunw

open Loop Sweep Traced

variable {σ : Type} {m : ByteMem} {cie : CieRecord} {fde : FdeRecord} {pc : UInt64}
  {regs : Regset} {reader : MemoryRead σ} {ctx : σ} {frame : Frame}

/-! ### The operand and the row -/

/-- The registers with which the CIE program and then the FDE program define the CFA, on the
way to the row for an address. -/
def rowCfaOperands (m : ByteMem) (cie : CieRecord) (fde : FdeRecord) (pc : UInt64) :
    List ℕ :=
  executeCfiOperands m cie cie.instructions cie.instructionsSize fde.pcBegin
      0xffffffffffffffff cfaStateReset cfaStateReset ++
    executeCfiOperands m cie fde.instructions fde.instructionsSize fde.pcBegin pc
      (initialState m cie fde) (initialState m cie fde)

/-- The CFA register of a row is the last register that defined it, modulo `2 ^ 16`. -/
lemma cfiRow_cfaReg {row : CfaState} (h : cfiRow m cie fde pc = .ok row) :
    ∃ reg, (rowCfaOperands m cie fde pc).getLast? = some reg ∧ row.cfaReg = UInt16.ofNat reg := by
  obtain ⟨hrow, hreg⟩ := cfiRow_ok h
  rw [hrow, executeCfi_cfaReg, initialState, executeCfi_cfaReg, ← initialState] at hreg
  rw [hrow, executeCfi_cfaReg, initialState, executeCfi_cfaReg, ← initialState, rowCfaOperands,
    List.getLast?_append]
  cases hfde : (executeCfiOperands m cie fde.instructions fde.instructionsSize fde.pcBegin pc
      (initialState m cie fde) (initialState m cie fde)).getLast? with
  | some reg => exact ⟨reg, rfl, rfl⟩
  | none =>
      rw [hfde] at hreg
      cases hcie : (executeCfiOperands m cie cie.instructions cie.instructionsSize fde.pcBegin
          0xffffffffffffffff cfaStateReset cfaStateReset).getLast? with
      | some reg => exact ⟨reg, rfl, rfl⟩
      | none =>
          -- no program has defined the CFA, and the row has no CFA register
          rw [hcie] at hreg
          exact absurd rfl hreg

lemma ofNat_toNat_slot {reg : ℕ} (h : reg < regsetSlots) : (UInt16.ofNat reg).toNat = reg := by
  rw [UInt16.toNat_ofNat']
  exact Nat.mod_eq_of_lt (h.trans (by decide))

/-! ### The CFA -/

/-- Over every stack: an evaluation that succeeds has counted the CFA from the register that
the programs name last, and this register is a slot of the snapshot. -/
def CfaTracked (m : ByteMem) (cie : CieRecord) (fde : FdeRecord) (pc : UInt64) : Prop :=
  ∀ (σ : Type) (reader : MemoryRead σ), FailsWithError reader → ∀ regs ctx frame ev,
    cfiEval m cie fde pc regs reader ctx frame = some ev → ev.status = .ok →
      ∃ reg row, (rowCfaOperands m cie fde pc).getLast? = some reg ∧
        cfiRow m cie fde pc = .ok row ∧ ∃ hreg : reg < regsetSlots,
          ev.frame.cfa = regs.regs ⟨reg, hreg⟩ + row.cfaOffset.toUInt64

/-- The last register with which the programs define the CFA is a slot of the snapshot, unless
the FDE is not for the address, or there is no row for it or no return register. -/
def CfaOperandTracked (m : ByteMem) (cie : CieRecord) (fde : FdeRecord) (pc : UInt64) : Prop :=
  fde.Covers pc → cie.returnReg.toNat < regsetSlots → ∀ row, cfiRow m cie fde pc = .ok row →
    ∀ reg, (rowCfaOperands m cie fde pc).getLast? = some reg → reg < regsetSlots

/-- The host memory with a program for `savedCie` whose row is CFA = `r40` + 8. -/
def untrackedMem : ByteMem := memOf 0x5000 [0x0c, 40, 8, 0x90, 1, 0, 0, 0, 0]

/-- The same with the register 65543, that is 65536 + 7. -/
def aliasedMem : ByteMem := memOf 0x5000 [0x0c, 0x87, 0x80, 0x04, 8, 0x90, 1, 0, 0]

/-- The CFA that an evaluation of `savedFde` finds, if it succeeds. -/
def savedFdeCfa (m : ByteMem) : Option UInt64 :=
  (cfiEval m savedCie savedFde 0x1010 savedRegs ownAddress () ⟨0, 0, 0, 0, 0, []⟩).bind
    fun ev => if ev.status = .ok then some ev.frame.cfa else none

lemma CfaTracked.savedFde {m : ByteMem} (h : CfaTracked m savedCie savedFde 0x1010)
    {cfa : UInt64} (hcfa : savedFdeCfa m = some cfa) {reg : ℕ}
    (hreg : (rowCfaOperands m savedCie savedFde 0x1010).getLast? = some reg) :
    reg < regsetSlots := by
  obtain ⟨ev, hev, hif⟩ := Option.bind_eq_some_iff.mp hcfa
  split_ifs at hif with hok
  obtain ⟨reg', _, hreg', -, hlt, -⟩ :=
    h Unit ownAddress (failsWithError_of_total ownAddress_total) _ _ _ ev hev hok
  rw [hreg] at hreg'
  cases hreg'
  exact hlt

end Dwunw
