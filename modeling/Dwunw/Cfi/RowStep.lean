import Dwunw.Cfi.EvalSpec

/-!
What a turn of `execute_cfi` does to the row.

* `RowStep`: the ways in which one instruction changes the row.
* `cfaOperand`: the register with which an instruction defines the CFA, the number that stands in
  the program; the row keeps 16 bits of it.
* `cfiTurn_rowStep`: every turn is a step of this kind.
* `executeCfi_run`: the loop of `execute_cfi` ends, whatever the program.
* `executeCfi_invariant`, `executeCfi_cfaReg`: what a whole program keeps, and the CFA register
  it leaves.
-/

namespace Dwunw

open Loop Traced

variable {m : ByteMem} {cie : CieRecord} {stop pcBegin targetPc : UInt64} {initial : CfaState}

/-! ### One turn -/

/-- The row after a turn, whether it goes on or ends the loop. -/
def turnRow : Turn CfiLoop (Status × CfaState) → CfaState
  | .next s => s.state
  | .done r => r.2

/-- Go on behind an operand, or have none when the reader fails. -/
def bindOperand {α : Type} (r : Except Status (α × UInt64)) (k : UInt64 → Option ℕ) : Option ℕ :=
  match r with
  | .error _ => none
  | .ok (_, cursor) => k cursor

/-- The register with which the instruction at the cursor defines the CFA, if it does: the
number that its operand bytes are, however large. -/
def cfaOperand (m : ByteMem) (stop : UInt64) (s : CfiLoop) : Option ℕ :=
  if s.cursor < stop then
    let opcode := m s.cursor
    if opcode = 0x0c then
      bindOperand ((readUleb (s.cursor + 1) stop).val m) fun cursor =>
        bindOperand ((readUleb cursor stop).val m) fun _ =>
          some (ulebBetween m (s.cursor + 1) cursor)
    else if opcode = 0x0d then
      bindOperand ((readUleb (s.cursor + 1) stop).val m) fun cursor =>
        some (ulebBetween m (s.cursor + 1) cursor)
    else if opcode = 0x1a then
      bindOperand ((readUleb (s.cursor + 1) stop).val m) fun cursor =>
        bindOperand ((readSleb cursor stop).val m) fun _ =>
          some (ulebBetween m (s.cursor + 1) cursor)
    else none
  else none

/-- What an instruction does to the row, with the register it defines the CFA by. -/
inductive RowStep (initial s : CfaState) : Option ℕ → CfaState → Prop
  | same : RowStep initial s none s
  | saves (reg : ℕ) (offset : Int64) : RowStep initial s none (s.setRule reg ⟨.offset, offset⟩)
  | restores (reg : ℕ) : RowStep initial s none (s.restoreRule initial reg)
  | offsets (offset : Int64) : RowStep initial s none { s with cfaOffset := offset }
  | defines (reg : ℕ) (offset : Int64) :
      RowStep initial s (some reg) { s with cfaReg := UInt16.ofNat reg, cfaOffset := offset }

/-- A turn from `s` that defines no CFA register. -/
def KeepsCfaReg (initial : CfaState) (s : CfiLoop) (t : Turn CfiLoop (Status × CfaState)) :
    Prop :=
  RowStep initial s.state none (turnRow t)

section KeepsCfaReg

variable {s : CfiLoop}

lemma KeepsCfaReg.done {st : Status} : KeepsCfaReg initial s (.done (st, s.state)) := .same

lemma KeepsCfaReg.ite {P : Prop} [Decidable P] {t e : Turn CfiLoop (Status × CfaState)}
    (ht : KeepsCfaReg initial s t) (he : KeepsCfaReg initial s e) :
    KeepsCfaReg initial s (if P then t else e) := by
  split_ifs
  · exact ht
  · exact he

lemma KeepsCfaReg.onRead {α : Type} {x : Except Status (α × UInt64)}
    {k : α → UInt64 → Turn CfiLoop (Status × CfaState)}
    (h : ∀ v c, KeepsCfaReg initial s (k v c)) : KeepsCfaReg initial s (Dwunw.onRead s x k) := by
  rcases x with st | ⟨v, c⟩
  · exact .done
  · exact h v c

/-- A guarded change of a rule. -/
lemma KeepsCfaReg.guarded {P : Prop} [Decidable P] {cursor pcOffset : UInt64} {row : CfaState}
    (h : RowStep initial s.state none row) :
    KeepsCfaReg initial s (.next ⟨cursor, pcOffset, if P then row else s.state⟩) := by
  show RowStep initial s.state none (if P then row else s.state)
  split_ifs
  · exact h
  · exact .same

/-- A turn that reads an operand and has one of its own only if the read succeeds. -/
lemma RowStep.operand {α : Type} {x : Except Status (α × UInt64)}
    {k : α → UInt64 → Turn CfiLoop (Status × CfaState)} {op : UInt64 → Option ℕ}
    (h : ∀ v c, x = .ok (v, c) → RowStep initial s.state (op c) (turnRow (k v c))) :
    RowStep initial s.state (bindOperand x op) (turnRow (Dwunw.onRead s x k)) := by
  rcases x with st | ⟨v, c⟩
  · exact .same
  · exact h v c rfl

/-- The number of an operand, cut to 16 bits, is the register of the row. -/
lemma RowStep.definesUleb {c c' v : UInt64} {offset : Int64}
    (h : (readUleb c stop).val m = .ok (v, c')) :
    RowStep initial s.state (some (ulebBetween m c c'))
      { s.state with cfaReg := v.toUInt16, cfaOffset := offset } := by
  rw [readUleb_ulebBetween h, UInt64.toUInt16_ofNat']
  exact .defines (ulebBetween m c c') offset

end KeepsCfaReg

/-- A turn changes the row in one of these ways. -/
theorem cfiTurn_rowStep (m : ByteMem) (cie : CieRecord) (stop pcBegin targetPc : UInt64)
    (initial : CfaState) (s : CfiLoop) :
    RowStep initial s.state (cfaOperand m stop s)
      (turnRow (cfiTurn m cie stop pcBegin targetPc initial s)) := by
  rw [cfiTurn, cfaOperand]
  by_cases hc : s.cursor < stop
  swap
  · rw [if_neg hc, if_neg hc]
    exact .same
  rw [if_pos hc, if_pos hc]
  dsimp only
  -- the three instructions that define the CFA register
  by_cases h0c : m s.cursor = 0x0c
  · rw [if_pos h0c, h0c, if_neg (by decide), if_neg (by decide), if_neg (by decide)]
    exact .operand fun _ _ hreg => .operand fun _ _ _ => .definesUleb hreg
  by_cases h0d : m s.cursor = 0x0d
  · rw [if_neg h0c, if_pos h0d, h0d, if_neg (by decide), if_neg (by decide), if_neg (by decide)]
    exact .operand fun _ _ hreg => .definesUleb hreg
  by_cases h1a : m s.cursor = 0x1a
  · rw [if_neg h0c, if_neg h0d, if_pos h1a, h1a, if_neg (by decide), if_neg (by decide),
      if_neg (by decide)]
    exact .operand fun _ _ hreg => .operand fun _ _ _ => .definesUleb hreg
  rw [if_neg h0c, if_neg h0d, if_neg h1a]
  -- all the others keep it
  have hsaves {cursor : UInt64} {operand : UInt8} {offset : UInt64} : KeepsCfaReg initial s
      (.next ⟨cursor, s.pcOffset, if operand.toNat < regsetSlots then
        s.state.setRule operand.toNat ⟨.offset, factoredOffset cie offset⟩ else s.state⟩) :=
    .guarded (.saves _ _)
  have hloc {size : UInt64} {newOffset : UInt64 → UInt64} : KeepsCfaReg initial s
      (locationTurn m stop pcBegin targetPc s (s.cursor + 1) size newOffset) :=
    .onRead fun _ _ => .ite .same .same
  refine KeepsCfaReg.ite (.ite .done .same) <| .ite (.onRead fun _ _ => hsaves) <|
    .ite (.guarded (.restores _)) ?_
  rw [cfiSwitch, if_neg h0c, if_neg h0d, if_neg h1a]
  exact .ite .same <| .ite hloc <| .ite hloc <| .ite hloc <| .ite hloc <|
    .ite (.onRead fun offset _ => .offsets offset.toInt64) <| .ite .done <| .ite .done <|
    .ite (.onRead fun _ _ => .onRead fun _ _ => .guarded (.saves _ _)) <|
    .ite (.onRead fun _ _ => .guarded (.restores _)) <|
    .ite (.onRead fun offset _ => .offsets (offset * cie.dataAlign)) .done

/-! ### A whole program -/

/-- The loop of `execute_cfi` ends, also where the program wraps around the address space. -/
theorem executeCfi_run (m : ByteMem) (cie : CieRecord)
    (program size pcBegin targetPc : UInt64) (state initial : CfaState) :
    run (cfiTurn m cie (program + size) pcBegin targetPc initial) (size.toNat + 1)
        ⟨program, 0, state⟩ =
      some (executeCfi m cie program size pcBegin targetPc state initial) := by
  have hsome : ∃ r, run (cfiTurn m cie (program + size) pcBegin targetPc initial)
      (size.toNat + 1) ⟨program, 0, state⟩ = some r := by
    by_cases hlt : program < program + size
    swap
    · -- the cursor is not in front of the end
      refine ⟨(.ok, state), ?_⟩
      rw [run, cfiTurn, if_neg hlt]
    have hfuel : (program + size).toNat - program.toNat < size.toNat + 1 := by
      have hadd := UInt64.toNat_add program size
      have hsize := size.toNat_lt
      have hprogram := program.toNat_lt
      rw [UInt64.lt_iff_toNat_lt] at hlt
      omega
    refine run_of_variant (I := fun s : CfiLoop => s.cursor ≤ program + size)
      (μ := fun s => (program + size).toNat - s.cursor.toNat) (fun s s' hs h => ?_)
      (s := ⟨program, 0, state⟩) (UInt64.le_of_lt hlt) hfuel
    obtain ⟨hlt', hle, -⟩ := cfiTurn_next h
    refine ⟨hle, ?_⟩
    rw [UInt64.lt_iff_toNat_lt] at hlt'
    rw [UInt64.le_iff_toNat_le] at hle
    omega
  obtain ⟨r, hr⟩ := hsome
  rw [executeCfi, hr, Option.getD_some]

/-- What every instruction keeps a whole program keeps. -/
theorem executeCfi_invariant {program size : UInt64} {state : CfaState} {I : CfaState → Prop}
    (hstep : ∀ s op s', I s → RowStep initial s op s' → I s') (hstate : I state) :
    I (executeCfi m cie program size pcBegin targetPc state initial).2 := by
  have hends := ends_of_run (executeCfi_run m cie program size pcBegin targetPc state initial)
  have hturn (s : CfiLoop) (hs : I s.state) :
      I (turnRow (cfiTurn m cie (program + size) pcBegin targetPc initial s)) :=
    hstep _ _ _ hs (cfiTurn_rowStep m cie (program + size) pcBegin targetPc initial s)
  refine hends.of_invariant (I := fun s => I s.state) (Q := fun r => I r.2)
    (fun s s' hs h => ?_) (fun s r hs h => ?_) hstate
  · have := hturn s hs
    rwa [h] at this
  · have := hturn s hs
    rwa [h] at this

/-- The registers with which a program defines the CFA, in order, up to its target. -/
def executeCfiOperands (m : ByteMem) (cie : CieRecord)
    (program programSize pcBegin targetPc : UInt64) (state initial : CfaState) : List ℕ :=
  (visited (cfiTurn m cie (program + programSize) pcBegin targetPc initial)
    (programSize.toNat + 1) ⟨program, 0, state⟩).filterMap
      (cfaOperand m (program + programSize))

lemma RowStep.cfaReg_eq {s s' : CfaState} {op : Option ℕ} (h : RowStep initial s op s') :
    s'.cfaReg = op.elim s.cfaReg UInt16.ofNat := by
  cases h <;> rfl

/-- The CFA register after a program is the last register that defined it, modulo `2 ^ 16`. -/
theorem executeCfi_cfaReg {program size : UInt64} {state : CfaState} :
    (executeCfi m cie program size pcBegin targetPc state initial).2.cfaReg =
      (executeCfiOperands m cie program size pcBegin targetPc state initial).getLast?.elim
        state.cfaReg UInt16.ofNat := by
  have hrun (n : ℕ) (s : CfiLoop) (r : Status × CfaState)
      (h : run (cfiTurn m cie (program + size) pcBegin targetPc initial) n s = some r) :
      r.2.cfaReg = ((visited (cfiTurn m cie (program + size) pcBegin targetPc initial) n
        s).filterMap (cfaOperand m (program + size))).getLast?.elim s.state.cfaReg
          UInt16.ofNat := by
    induction n generalizing s with
    | zero => simp [run] at h
    | succ n ih =>
        have hstep := (cfiTurn_rowStep m cie (program + size) pcBegin targetPc initial
          s).cfaReg_eq
        rw [run] at h
        rw [visited]
        cases ht : cfiTurn m cie (program + size) pcBegin targetPc initial s with
        | next s' =>
            rw [ht] at h hstep
            rw [ih s' h, List.filterMap_cons]
            cases hop : cfaOperand m (program + size) s with
            | none =>
                rw [hop] at hstep
                rw [show s'.state.cfaReg = _ from hstep]
                rfl
            | some reg =>
                rw [hop] at hstep
                rw [show s'.state.cfaReg = _ from hstep, List.getLast?_cons]
                cases ((visited _ n s').filterMap _).getLast? <;> rfl
        | done r' =>
            rw [ht] at h hstep
            cases h
            rw [List.filterMap_cons]
            cases hop : cfaOperand m (program + size) s with
            | none => rw [show r.2.cfaReg = _ from hstep, hop]; rfl
            | some reg => rw [show r.2.cfaReg = _ from hstep, hop]; rfl
  exact hrun _ _ _ (executeCfi_run m cie program size pcBegin targetPc state initial)

end Dwunw
