import Dwunw.Cfi.EvalSpec

/-!
Programs with opcodes that `execute_cfi` does not implement.

`dwunw_cfi_eval` lets `DWUNW_ERR_NOT_IMPLEMENTED` from `execute_cfi` pass, so a program with
such an opcode counts as ended in front of it.

* `CutAt`: the part of a program in front of the first such opcode that a run meets.
* `executeCfi_cut`: on that part alone the run succeeds and leaves the same state.
* `cfiEval_cut`: `dwunw_cfi_eval` returns what it returns on the two programs cut so.
-/

namespace Dwunw

open Loop

variable {m : ByteMem} {cie : CieRecord} {program size pcBegin targetPc : UInt64}
  {state initial : CfaState}

/-- The first `n` bytes of a program are what is in front of the first opcode without
implementation that its run meets, or all of it when the run meets none. -/
inductive CutAt (m : ByteMem) (cie : CieRecord) (program size pcBegin targetPc : UInt64)
    (state initial : CfaState) : UInt64 → Prop
  | opcode {s : CfiLoop}
      (hr : Reaches (cfiTurn m cie (program + size) pcBegin targetPc initial)
        ⟨program, 0, state⟩ s)
      (hc : s.cursor < program + size) (hop : ¬ cfiImplemented (m s.cursor)) :
      CutAt m cie program size pcBegin targetPc state initial (s.cursor - program)
  | whole
      (h : (executeCfi m cie program size pcBegin targetPc state initial).1 ≠ .notImplemented) :
      CutAt m cie program size pcBegin targetPc state initial size

/-- The cursor of a run does not go back. -/
lemma cursor_le_of_reaches {stop : UInt64} {s s' : CfiLoop}
    (h : Reaches (cfiTurn m cie stop pcBegin targetPc initial) s s') : s.cursor ≤ s'.cursor :=
  h.invariant (I := fun t => s.cursor ≤ t.cursor)
    (fun _ _ hle ht => UInt64.le_trans hle (UInt64.le_of_lt (cfiTurn_next ht).1))
    (UInt64.le_refl _)

/-- With the stop moved to a cursor it reaches, a run goes the same way up to there. -/
lemma reaches_stop {stop stop' : UInt64} {s s' : CfiLoop}
    (h : Reaches (cfiTurn m cie stop pcBegin targetPc initial) s s') (hs : s'.cursor ≤ stop')
    (hstop : stop' ≤ stop) :
    Reaches (cfiTurn m cie stop' pcBegin targetPc initial) s s' := by
  induction h with
  | refl s => exact .refl s
  | head hturn hr ih =>
      have hle := UInt64.le_trans (cursor_le_of_reaches hr) hs
      exact .head ((cfiTurn_next hturn).2.2 stop' hle hstop) (ih hs)

/-- Every run cuts its program somewhere. -/
lemma exists_cutAt (m : ByteMem) (cie : CieRecord) (pcBegin targetPc : UInt64)
    (state initial : CfaState) (hmem : program.toNat + size.toNat < 2 ^ 64) :
    ∃ n, CutAt m cie program size pcBegin targetPc state initial n := by
  by_cases h : (executeCfi m cie program size pcBegin targetPc state initial).1 = .notImplemented
  · obtain ⟨s, hr, hd⟩ := ends_iff_reaches.mp (executeCfi_ends m cie pcBegin
      targetPc state initial hmem)
    rw [show executeCfi m cie program size pcBegin targetPc state initial =
      (.notImplemented, (executeCfi m cie program size pcBegin targetPc state initial).2) from
        Prod.ext h rfl, cfiTurn_notImplemented_iff] at hd
    exact ⟨_, .opcode hr hd.1 hd.2.1⟩
  · exact ⟨size, .whole h⟩

/-- An outcome with `DWUNW_ERR_NOT_IMPLEMENTED` let pass. -/
def letPass : Status × CfaState → Status × CfaState
  | (.notImplemented, s) => (.ok, s)
  | r => r

/-- A cut program runs without meeting an opcode that is not there, to the state the whole
program is left in. -/
theorem executeCfi_cut {n : UInt64} (hmem : program.toNat + size.toNat < 2 ^ 64)
    (h : CutAt m cie program size pcBegin targetPc state initial n) :
    executeCfi m cie program n pcBegin targetPc state initial =
      letPass (executeCfi m cie program size pcBegin targetPc state initial) := by
  have hends := executeCfi_ends m cie pcBegin targetPc state initial hmem
  cases h with
  | whole h =>
      rcases hx : executeCfi m cie program size pcBegin targetPc state initial with ⟨st, s⟩
      rw [hx] at h
      cases st <;> first | rfl | exact absurd rfl h
  | @opcode s hr hc hop =>
      have hgive := hends.unique (ends_iff_reaches.mpr ⟨s, hr,
        cfiTurn_notImplemented_iff.mpr ⟨hc, hop, rfl⟩⟩)
      rw [hgive]
      have hstart : program ≤ s.cursor := cursor_le_of_reaches hr
      have hback : program + (s.cursor - program) = s.cursor := by grind
      have hstop : (program + size).toNat = program.toNat + size.toNat :=
        UInt64.toNat_add_of_lt hmem
      have hmem' : program.toNat + (s.cursor - program).toNat < 2 ^ 64 := by
        have hlt := s.cursor.toNat_lt
        rw [UInt64.toNat_sub_of_le _ _ hstart]
        rw [UInt64.le_iff_toNat_le] at hstart
        omega
      have hends' := executeCfi_ends m cie pcBegin targetPc state initial hmem'
      rw [hback] at hends'
      have hdone : cfiTurn m cie s.cursor pcBegin targetPc initial s = .done (.ok, s.state) := by
        rw [cfiTurn, if_neg (UInt64.lt_irrefl _)]
      exact hends'.unique (ends_iff_reaches.mpr ⟨s,
        reaches_stop hr (UInt64.le_refl _) (UInt64.le_of_lt hc), hdone⟩)

/-- The cut run never gives up. -/
lemma executeCfi_cut_implemented {n : UInt64} (hmem : program.toNat + size.toNat < 2 ^ 64)
    (h : CutAt m cie program size pcBegin targetPc state initial n) :
    (executeCfi m cie program n pcBegin targetPc state initial).1 ≠ .notImplemented := by
  rw [executeCfi_cut hmem h]
  rcases executeCfi m cie program size pcBegin targetPc state initial with ⟨st, s⟩
  cases st <;> simp [letPass]

/-- The state after the CIE program. -/
def initialState (m : ByteMem) (cie : CieRecord) (fde : FdeRecord) : CfaState :=
  (executeCfi m cie cie.instructions cie.instructionsSize fde.pcBegin 0xffffffffffffffff
    cfaStateReset cfaStateReset).2

/-- The row from the outcome of the CIE program and the FDE program run on what it left. -/
def rowFrom (first : Status × CfaState) (second : CfaState → Status × CfaState) :
    Except Status CfaState :=
  match first with
  | (st, current) =>
      if st ≠ .ok ∧ st ≠ .notImplemented then .error st
      else
        match second current with
        | (st, current) =>
            if st ≠ .ok ∧ st ≠ .notImplemented then .error st
            else if current.cfaReg = noCfaReg then .error .notImplemented
            else .ok current

/-- Letting the status pass in both programs makes no difference to the row. -/
lemma rowFrom_letPass {first : Status × CfaState} {second second' : CfaState → Status × CfaState}
    (h : second' first.2 = letPass (second first.2)) :
    rowFrom (letPass first) second' = rowFrom first second := by
  obtain ⟨st₁, s₁⟩ := first
  dsimp only at h
  have hsecond (st : Status) (hst : st = .ok ∨ st = .notImplemented) :
      rowFrom (.ok, s₁) second' = rowFrom (st, s₁) second := by
    have hpass : ¬ (st ≠ .ok ∧ st ≠ .notImplemented) := by tauto
    rw [rowFrom, rowFrom]
    dsimp only
    rw [if_neg hpass, if_neg (by decide), h]
    rcases second s₁ with ⟨st₂, s₂⟩
    cases st₂ <;> rfl
  cases st₁
  case ok => exact hsecond .ok (.inl rfl)
  case notImplemented => exact hsecond .notImplemented (.inr rfl)
  all_goals rfl

/-- The row of the cut programs is the row of the whole ones. -/
lemma cfiRow_cut {fde : FdeRecord} {pc n₁ n₂ : UInt64}
    (hcie : cie.instructions.toNat + cie.instructionsSize.toNat < 2 ^ 64)
    (hfde : fde.instructions.toNat + fde.instructionsSize.toNat < 2 ^ 64)
    (h₁ : CutAt m cie cie.instructions cie.instructionsSize fde.pcBegin 0xffffffffffffffff
      cfaStateReset cfaStateReset n₁)
    (h₂ : CutAt m cie fde.instructions fde.instructionsSize fde.pcBegin pc
      (initialState m cie fde) (initialState m cie fde) n₂) :
    cfiRow m { cie with instructionsSize := n₁ } { fde with instructionsSize := n₂ } pc =
      cfiRow m cie fde pc := by
  -- what a program does depends on the CIE through its factors and address size alone
  have hcut : cfiRow m { cie with instructionsSize := n₁ } { fde with instructionsSize := n₂ }
      pc =
      rowFrom (executeCfi m cie cie.instructions n₁ fde.pcBegin 0xffffffffffffffff
        cfaStateReset cfaStateReset)
        fun s => executeCfi m cie fde.instructions n₂ fde.pcBegin pc s s := rfl
  have hwhole : cfiRow m cie fde pc =
      rowFrom (executeCfi m cie cie.instructions cie.instructionsSize fde.pcBegin
        0xffffffffffffffff cfaStateReset cfaStateReset)
        fun s => executeCfi m cie fde.instructions fde.instructionsSize fde.pcBegin pc s s := rfl
  rw [hcut, hwhole, executeCfi_cut hcie h₁]
  exact rowFrom_letPass (executeCfi_cut hfde h₂)

/-- A program with an opcode that `execute_cfi` does not implement counts as ended in front of
it: `dwunw_cfi_eval` returns what it returns for the two programs cut there, whose runs meet
no such opcode. -/
theorem cfiEval_cut {σ : Type} {fde : FdeRecord} {pc : UInt64} {regs : Regset}
    {reader : MemoryRead σ} {ctx : σ} {frame : Frame}
    (hcie : cie.instructions.toNat + cie.instructionsSize.toNat < 2 ^ 64)
    (hfde : fde.instructions.toNat + fde.instructionsSize.toNat < 2 ^ 64) :
    ∃ n₁ n₂,
      CutAt m cie cie.instructions cie.instructionsSize fde.pcBegin 0xffffffffffffffff
        cfaStateReset cfaStateReset n₁ ∧
      CutAt m cie fde.instructions fde.instructionsSize fde.pcBegin pc
        (initialState m cie fde) (initialState m cie fde) n₂ ∧
      (executeCfi m cie cie.instructions n₁ fde.pcBegin 0xffffffffffffffff
        cfaStateReset cfaStateReset).1 ≠ .notImplemented ∧
      (executeCfi m cie fde.instructions n₂ fde.pcBegin pc
        (initialState m cie fde) (initialState m cie fde)).1 ≠ .notImplemented ∧
      cfiEval m cie fde pc regs reader ctx frame =
        cfiEval m { cie with instructionsSize := n₁ } { fde with instructionsSize := n₂ } pc
          regs reader ctx frame := by
  obtain ⟨n₁, h₁⟩ := exists_cutAt m cie fde.pcBegin 0xffffffffffffffff cfaStateReset
    cfaStateReset hcie
  obtain ⟨n₂, h₂⟩ := exists_cutAt m cie fde.pcBegin pc (initialState m cie fde)
    (initialState m cie fde) hfde
  refine ⟨n₁, n₂, h₁, h₂, executeCfi_cut_implemented hcie h₁,
    executeCfi_cut_implemented hfde h₂, ?_⟩
  rw [cfiEval, cfiEval, cfiRow_cut hcie hfde h₁ h₂]

/-! ### A frame from a program cut short -/

/-- `DW_CFA_def_cfa r7 8; DW_CFA_offset r16 1`, and `DW_CFA_remember_state;
DW_CFA_def_cfa_offset 32`. -/
def cutMemory : ByteMem := memOf 0x1000 [0x0c, 7, 8, 0x90, 1, 0x0a, 0x0e, 32]

/-- A CIE with the first program. -/
def cutCie : CieRecord :=
  { version := 1
    addressSize := 8
    returnReg := 16
    ptrEncoding := 0
    dataAlign := -8
    codeAlign := 1
    offset := 0
    augmentation := 0x1000
    augmentationLen := 0
    instructions := 0x1000
    instructionsSize := 5 }

/-- An FDE with the second one. -/
def cutFde : FdeRecord := ⟨⟨none, 0⟩, 0, 0x400000, 0x100, 0x1005, 3⟩

def cutRegs : Regset := ⟨1, 1, 0, 0x2000, 0x400010, fun i => if i = 7 then 0x2000 else 0⟩

/-- A reader that always reads the same. -/
def constantReader : MemoryRead Unit := fun _ _ => (.ok 0x400020, ())

/-- Both programs come to an instruction that is not implemented. -/
theorem cutPrograms_cut : ∃ n₁ n₂,
    CutAt cutMemory cutCie cutCie.instructions cutCie.instructionsSize cutFde.pcBegin
      0xffffffffffffffff cfaStateReset cfaStateReset n₁ ∧
    CutAt cutMemory cutCie cutFde.instructions cutFde.instructionsSize cutFde.pcBegin 0x400010
      (initialState cutMemory cutCie cutFde) (initialState cutMemory cutCie cutFde) n₂ ∧
    (executeCfi cutMemory cutCie cutCie.instructions n₁ cutFde.pcBegin 0xffffffffffffffff
      cfaStateReset cfaStateReset).1 ≠ .notImplemented ∧
    (executeCfi cutMemory cutCie cutFde.instructions n₂ cutFde.pcBegin 0x400010
      (initialState cutMemory cutCie cutFde) (initialState cutMemory cutCie cutFde)).1 ≠
        .notImplemented ∧
    cfiEval cutMemory cutCie cutFde 0x400010 cutRegs constantReader () ⟨0, 0, 0, 0, 0, []⟩ =
      cfiEval cutMemory { cutCie with instructionsSize := n₁ }
        { cutFde with instructionsSize := n₂ } 0x400010 cutRegs constantReader ()
        ⟨0, 0, 0, 0, 0, []⟩ :=
  cfiEval_cut (by decide) (by decide)

/-- The FDE program stops at `DW_CFA_remember_state`, and `dwunw_cfi_eval` returns a frame all
the same, with the CFA of the CIE program. -/
theorem cutPrograms_yield_frame :
    (executeCfi cutMemory cutCie cutFde.instructions cutFde.instructionsSize cutFde.pcBegin
      0x400010 (initialState cutMemory cutCie cutFde)
      (initialState cutMemory cutCie cutFde)).1 = .notImplemented ∧
    (cfiEval cutMemory cutCie cutFde 0x400010 cutRegs constantReader ()
      ⟨0, 0, 0, 0, 0, []⟩).map (fun r => (r.status, r.frame.cfa)) = some (.ok, 0x2008) := by
  decide +kernel

end Dwunw
