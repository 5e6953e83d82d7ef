import Dwunw.Cfi.Instrumented
import Dwunw.Cfi.Links
import Dwunw.Cfi.RowStep

/-!
The elements of the register arrays that `dwunw_cfi_eval` takes.

Three arrays have `DWUNW_REGSET_SLOTS` elements: the rules of the current row, those of the
row of the CIE program, and the registers of the snapshot.  All indices into them are guarded
but one, the return-address register of the CIE, which the parser takes from a ULEB128 of the
entry and cuts to eight bits.

* `cfiTurnIndices`, `cfiEvalIndices`: the indices in the logs of the interpreter.
  `cfiTurn_frame` checks that none is missing: a turn leaves every other rule alone.
* `cfiEvalIndices_lt_iff`: all of them are below the number of slots exactly when the return
  register is, or no row is found.
* `readReturnReg`, `parseCie_returnReg`: the register as it stands in the entry.
* `cfiBuild_indices_iff`: the tables of an accepted build let `dwunw_cfi_eval` index out of
  range exactly when an FDE has a row and its CIE a return register that is 32 or more modulo
  256.
-/

namespace Dwunw

open Loop Traced

variable {m : ByteMem} {σ : Type}

/-! ### The indices of one turn -/

/-- The indices in a log. -/
def indices {α : Type} (x : Logged CfiOp α) : List ℕ := x.log.filterMap CfiOp.index?

lemma mem_indices {α : Type} {x : Logged CfiOp α} {i : ℕ} :
    i ∈ indices x ↔ CfiOp.index i ∈ x.log := by
  rw [indices, List.mem_filterMap]
  constructor
  · rintro ⟨op, hop, hi⟩
    cases op with
    | index j =>
        cases hi
        exact hop
    | signed x => cases hi
  · exact fun h => ⟨_, h, rfl⟩

/-- Every element that is taken is there. -/
def InSlots {α : Type} (x : Logged CfiOp α) : Prop := ∀ i ∈ indices x, i < regsetSlots

section InSlots

variable {α β : Type}

lemma InSlots.pure (a : α) : InSlots (pure a) := fun _ hi => absurd hi List.not_mem_nil

lemma indices_bind (x : Logged CfiOp α) (f : α → Logged CfiOp β) :
    indices (x >>= f) = indices x ++ indices (f x.val) := List.filterMap_append

lemma InSlots.bind {x : Logged CfiOp α} {f : α → Logged CfiOp β} (hx : InSlots x)
    (hf : InSlots (f x.val)) : InSlots (x >>= f) := by
  rw [InSlots, indices_bind, List.forall_mem_append]
  exact ⟨hx, hf⟩

lemma InSlots.ite {P : Prop} [Decidable P] {x y : Logged CfiOp α} (hx : P → InSlots x)
    (hy : ¬ P → InSlots y) : InSlots (if P then x else y) := by
  split_ifs with h
  · exact hx h
  · exact hy h

/-- An element is taken behind the test `reg < DWUNW_REGSET_SLOTS`. -/
lemma InSlots.single {x : Logged CfiOp α} {reg : ℕ} (hx : x.log = [.index reg])
    (h : reg < regsetSlots) : InSlots x := by
  intro i hi
  rw [mem_indices, hx, List.mem_singleton] at hi
  cases hi
  exact h

lemma InSlots.onRead {s : CfiLoop} {r : Except Status (α × UInt64)}
    {k : α → UInt64 → Logged CfiOp (Turn CfiLoop (Status × CfaState))}
    (h : ∀ v c, InSlots (k v c)) : InSlots (onReadLogged s r k) := by
  rcases r with st | ⟨v, c⟩
  · exact .pure _
  · exact h v c

lemma InSlots.multiply (x y : Int64) : InSlots (multiply x y) :=
  fun _ hi => absurd (mem_indices.mp hi) (by simp [Dwunw.multiply])

/-- The notes of `read_sleb` are no indices. -/
lemma InSlots.readSlebLoop {m : ByteMem} {stop : UInt64} (n : ℕ) (c : UInt64) (result : Int64)
    (shift : ℕ) : InSlots (readSlebLoopLogged m stop n c result shift) := by
  have hshift (x : Int64) (k : ℕ) : InSlots (shiftLeft x k) :=
    fun _ hi => absurd (mem_indices.mp hi) (by simp [shiftLeft])
  have hnegate (x : Int64) : InSlots (negate x) :=
    fun _ hi => absurd (mem_indices.mp hi) (by simp [negate])
  induction n generalizing c result shift with
  | zero => exact .pure _
  | succ n ih =>
      rw [readSlebLoopLogged]
      refine .ite (fun _ => ?_) fun _ => .pure _
      refine InSlots.bind (hshift _ _) (.ite (fun _ => ?_) fun _ => ?_)
      · exact .ite (fun _ => .bind (hshift _ _) (.bind (hnegate _) (.pure _))) fun _ => .pure _
      · exact .ite (fun _ => .pure _) fun _ => ih _ _ _

lemma InSlots.readSleb (m : ByteMem) (c stop : UInt64) : InSlots (readSlebLogged m c stop) :=
  .readSlebLoop 10 c 0 0

end InSlots

/-- The elements of `state->regs` and `initial->regs` that a turn of `execute_cfi` takes. -/
def cfiTurnIndices (m : ByteMem) (cie : CieRecord) (stop pcBegin targetPc : UInt64)
    (initial : CfaState) (s : CfiLoop) : List ℕ :=
  indices (cfiTurnLogged m cie stop pcBegin targetPc initial s)

/-- Every element a turn takes is there. -/
lemma cfiTurnIndices_lt {cie : CieRecord} {stop pcBegin targetPc : UInt64} {initial : CfaState}
    {s : CfiLoop} :
    ∀ i ∈ cfiTurnIndices m cie stop pcBegin targetPc initial s, i < regsetSlots := by
  have hstore {cursor : UInt64} {reg : ℕ} {offset : Int64} : InSlots
      (if reg < regsetSlots then do
        let product ← multiply offset cie.dataAlign
        let state ← storeRule s.state reg ⟨.offset, product⟩
        pure (Turn.next ⟨cursor, s.pcOffset, state⟩)
      else pure (.next ⟨cursor, s.pcOffset, s.state⟩) :
        Logged CfiOp (Turn CfiLoop (Status × CfaState))) :=
    .ite (fun h => .bind (.multiply _ _) (.bind (.single rfl h) (.pure _))) fun _ => .pure _
  have hcopy {cursor : UInt64} {reg : ℕ} : InSlots
      (if reg < regsetSlots then do
        let state ← copyRule s.state initial reg
        pure (Turn.next ⟨cursor, s.pcOffset, state⟩)
      else pure (.next ⟨cursor, s.pcOffset, s.state⟩) :
        Logged CfiOp (Turn CfiLoop (Status × CfaState))) :=
    .ite (fun h => .bind (.single rfl h) (.pure _)) fun _ => .pure _
  have hnone (t : Turn CfiLoop (Status × CfaState)) : InSlots (pure t) := .pure t
  show InSlots _
  rw [cfiTurnLogged]
  refine .ite (fun _ => .ite (fun _ => .ite (fun _ => hnone _) fun _ => hnone _) fun _ => .ite
    (fun _ => .onRead fun _ _ => hstore) fun _ => .ite (fun _ => hcopy) fun _ => ?_)
    fun _ => hnone _
  rw [cfiSwitchLogged]
  refine .ite (fun _ => hnone _) fun _ => .ite (fun _ => hnone _) fun _ => .ite
    (fun _ => hnone _) fun _ => .ite (fun _ => hnone _) fun _ => .ite (fun _ => hnone _) fun _ =>
    .ite (fun _ => .onRead fun _ _ => .onRead fun _ _ => hnone _) fun _ => .ite
    (fun _ => .onRead fun _ _ => hnone _) fun _ => .ite (fun _ => .onRead fun _ _ => hnone _)
    fun _ => .ite (fun _ => hnone _) fun _ => .ite (fun _ => hnone _) fun _ => .ite
    (fun _ => .onRead fun _ _ => .onRead fun _ _ => hstore) fun _ => .ite
    (fun _ => .onRead fun _ _ => hcopy) fun _ => .ite (fun _ => ?_) fun _ => .ite (fun _ => ?_)
    fun _ => hnone _
  · exact .onRead fun _ _ => .bind (.readSleb m _ stop) (.onRead fun _ _ =>
      .bind (.multiply _ _) (.pure _))
  · exact .bind (.readSleb m _ stop) (.onRead fun _ _ => .bind (.multiply _ _) (.pure _))

/-- A turn that leaves the rule of a register alone unless it takes it. -/
def KeepsRule (i : Fin regsetSlots) (s : CfiLoop)
    (x : Logged CfiOp (Turn CfiLoop (Status × CfaState))) : Prop :=
  i.val ∉ indices x → (turnRow x.val).regs i = s.state.regs i

section KeepsRule

variable {α : Type} {i : Fin regsetSlots} {s : CfiLoop}

lemma KeepsRule.done {st : Status} : KeepsRule i s (pure (.done (st, s.state))) := fun _ => rfl

lemma KeepsRule.next {s' : CfiLoop} (h : s'.state.regs = s.state.regs) :
    KeepsRule i s (pure (.next s')) := fun _ => congrFun h i

lemma KeepsRule.location {m : ByteMem} {stop pcBegin targetPc cursor size : UInt64}
    {newOffset : UInt64 → UInt64} :
    KeepsRule i s (pure (locationTurn m stop pcBegin targetPc s cursor size newOffset)) := by
  intro _
  rw [Logged.val_pure, locationTurn]
  rcases (readFixedSize cursor stop size).val m with st | ⟨v, c⟩
  · rfl
  · rw [onRead_ok]
    split_ifs <;> rfl

lemma KeepsRule.ite {P : Prop} [Decidable P]
    {x y : Logged CfiOp (Turn CfiLoop (Status × CfaState))} (hx : KeepsRule i s x)
    (hy : KeepsRule i s y) : KeepsRule i s (if P then x else y) := by
  split_ifs
  · exact hx
  · exact hy

lemma KeepsRule.onRead {r : Except Status (α × UInt64)}
    {k : α → UInt64 → Logged CfiOp (Turn CfiLoop (Status × CfaState))}
    (h : ∀ v c, KeepsRule i s (k v c)) : KeepsRule i s (onReadLogged s r k) := by
  rcases r with st | ⟨v, c⟩
  · exact .done
  · exact h v c

lemma KeepsRule.bind {x : Logged CfiOp α}
    {f : α → Logged CfiOp (Turn CfiLoop (Status × CfaState))}
    (h : i.val ∉ indices x → KeepsRule i s (f x.val)) : KeepsRule i s (x >>= f) := by
  intro hi
  rw [indices_bind, List.mem_append, not_or] at hi
  exact h hi.1 hi.2

/-- A store of another register's rule. -/
lemma KeepsRule.store {cursor pcOffset : UInt64} {reg : ℕ} {rule : RegRule} :
    KeepsRule i s (do
      let state ← storeRule s.state reg rule
      pure (.next ⟨cursor, pcOffset, state⟩)) := by
  refine .bind fun hi _ => ?_
  have hne : i.val ≠ reg := fun h => hi (mem_indices.mpr (h ▸ List.mem_singleton_self _))
  exact if_neg hne

lemma KeepsRule.copy {cursor pcOffset : UInt64} {reg : ℕ} {initial : CfaState} :
    KeepsRule i s (do
      let state ← copyRule s.state initial reg
      pure (.next ⟨cursor, pcOffset, state⟩)) := by
  refine .bind fun hi _ => ?_
  have hne : i.val ≠ reg := fun h => hi (mem_indices.mpr (h ▸ List.mem_singleton_self _))
  exact if_neg hne

end KeepsRule

/-- A turn changes no rule but those it takes. -/
theorem cfiTurn_frame {cie : CieRecord} {stop pcBegin targetPc : UInt64} {initial : CfaState}
    {s : CfiLoop} {i : Fin regsetSlots}
    (hi : i.val ∉ cfiTurnIndices m cie stop pcBegin targetPc initial s) :
    (turnRow (cfiTurn m cie stop pcBegin targetPc initial s)).regs i = s.state.regs i := by
  have hkeeps : KeepsRule i s (cfiTurnLogged m cie stop pcBegin targetPc initial s) := by
    rw [cfiTurnLogged]
    refine .ite (.ite (.ite .done (.next rfl)) <| .ite (.onRead fun _ _ =>
      .ite (.bind fun _ => .store) (.next rfl)) <| .ite (.ite .copy (.next rfl)) ?_) .done
    rw [cfiSwitchLogged]
    refine .ite (.next rfl) <| .ite .location <| .ite .location <| .ite .location <|
      .ite .location <| .ite (.onRead fun _ _ => .onRead fun _ _ => .next rfl) <|
      .ite (.onRead fun _ _ => .next rfl) <| .ite (.onRead fun _ _ => .next rfl) <|
      .ite .done <| .ite .done <| .ite (.onRead fun _ _ => .onRead fun _ _ =>
        .ite (.bind fun _ => .store) (.next rfl)) <|
      .ite (.onRead fun _ _ => .ite .copy (.next rfl)) <|
      .ite (.onRead fun _ _ => .bind fun _ => .onRead fun _ _ => .bind fun _ => .next rfl) <|
      .ite (.bind fun _ => .onRead fun _ _ => .bind fun _ => .next rfl) .done
  rw [← cfiTurnLogged_val]
  exact hkeeps hi

/-! ### The indices of an evaluation -/

/-- The elements of the rule arrays that a run of `execute_cfi` takes. -/
def executeCfiIndices (m : ByteMem) (cie : CieRecord)
    (program programSize pcBegin targetPc : UInt64) (state initial : CfaState) : List ℕ :=
  indices (executeCfiLogged m cie program programSize pcBegin targetPc state initial)

/-- They are those of its turns. -/
lemma executeCfiIndices_eq {cie : CieRecord} {program size pcBegin targetPc : UInt64}
    {state initial : CfaState} :
    executeCfiIndices m cie program size pcBegin targetPc state initial =
      (visited (cfiTurn m cie (program + size) pcBegin targetPc initial) (size.toNat + 1)
        ⟨program, 0, state⟩).flatMap
          (cfiTurnIndices m cie (program + size) pcBegin targetPc initial) := by
  rw [executeCfiIndices, indices, executeCfiLogged_log, List.filterMap_flatMap]
  rfl

/-- The indices with which `dwunw_cfi_eval` takes elements of `current.regs`, `initial.regs`
and `regs->regs`, up to the first one that is no slot. -/
def cfiEvalIndices (m : ByteMem) (cie : CieRecord) (fde : FdeRecord) (pc : UInt64)
    (regs : Regset) (reader : MemoryRead σ) (ctx : σ) : List ℕ :=
  indices (cfiEvalLogged m cie fde pc regs reader ctx ⟨0, 0, 0, 0, 0, []⟩)

/-- A program changes no rule but those it takes. -/
theorem executeCfi_frame {cie : CieRecord} {program size pcBegin targetPc : UInt64}
    {state initial : CfaState} {i : Fin regsetSlots}
    (hi : i.val ∉ executeCfiIndices m cie program size pcBegin targetPc state initial) :
    (executeCfi m cie program size pcBegin targetPc state initial).2.regs i =
      state.regs i := by
  have hrun (n : ℕ) (s : CfiLoop)
      (hi : i.val ∉ (visited (cfiTurn m cie (program + size) pcBegin targetPc initial) n
        s).flatMap (cfiTurnIndices m cie (program + size) pcBegin targetPc initial)) :
      ∀ r, run (cfiTurn m cie (program + size) pcBegin targetPc initial) n s = some r →
        r.2.regs i = s.state.regs i := by
    induction n generalizing s with
    | zero => simp [run]
    | succ n ih =>
        intro r hr
        rw [run] at hr
        rw [visited] at hi
        have hturn : i.val ∉ cfiTurnIndices m cie (program + size) pcBegin targetPc initial s →
            (turnRow (cfiTurn m cie (program + size) pcBegin targetPc initial s)).regs i =
              s.state.regs i := cfiTurn_frame
        cases ht : cfiTurn m cie (program + size) pcBegin targetPc initial s with
        | next s' =>
            rw [ht] at hi hr hturn
            rw [List.flatMap_cons, List.mem_append, not_or] at hi
            exact (ih s' hi.2 r hr).trans (hturn hi.1)
        | done r' =>
            rw [ht] at hi hr hturn
            cases hr
            rw [List.flatMap_singleton] at hi
            exact hturn hi
  rw [executeCfi]
  rw [executeCfiIndices_eq] at hi
  cases hr : run (cfiTurn m cie (program + size) pcBegin targetPc initial) (size.toNat + 1)
      ⟨program, 0, state⟩ with
  | none => rfl
  | some r => exact hrun _ _ hi r hr

lemma InSlots.executeCfi {cie : CieRecord} {program size pcBegin targetPc : UInt64}
    {state initial : CfaState} :
    InSlots (executeCfiLogged m cie program size pcBegin targetPc state initial) := by
  show ∀ i ∈ executeCfiIndices m cie program size pcBegin targetPc state initial, _
  rw [executeCfiIndices_eq]
  intro i hi
  obtain ⟨s, -, hs⟩ := List.mem_flatMap.mp hi
  exact cfiTurnIndices_lt i hs

/-- The two programs take no element that is not there. -/
lemma InSlots.cfiRow {cie : CieRecord} {fde : FdeRecord} {pc : UInt64} :
    InSlots (cfiRowLogged m cie fde pc) := by
  have hreset : InSlots cfaStateResetLogged := by
    intro i hi
    obtain ⟨j, hj, hij⟩ := List.mem_map.mp (mem_indices.mp hi)
    cases hij
    exact List.mem_range.mp hj
  refine .bind hreset (.bind .executeCfi ?_)
  refine .ite (fun _ => .pure _) fun _ => .bind .executeCfi ?_
  exact .ite (fun _ => .pure _) fun _ => .ite (fun _ => .pure _) fun _ => .pure _

lemma InSlots.regValue {regs : Regset} {reg : UInt16} : InSlots (regValueLogged regs reg) :=
  .ite (fun _ => .pure _) fun _ => .ite (fun h => .bind (.single rfl h) (.pure _)) fun _ => .pure _

lemma InSlots.updateRegs {row : CfaState} {cfa : UInt64} {reader : MemoryRead σ}
    {slots : List (Fin regsetSlots)} {regs : Regset} {ctx : σ} :
    InSlots (updateRegsLogged row cfa reader slots regs ctx) := by
  induction slots generalizing regs ctx with
  | nil => exact .pure _
  | cons i slots ih =>
      refine .bind (.single rfl i.isLt) ?_
      rw [elementAt_val, Option.getD_some]
      cases (row.regs i).kind with
      | undefined => exact .bind (.single rfl i.isLt) ih
      | sameValue => exact ih
      | offset =>
          dsimp only
          rcases applyRule .offset (row.regs i).offset cfa reader ctx with ⟨st | v, ctx'⟩
          · exact .pure _
          · exact .bind (.single rfl i.isLt) ih

/-- The rule of the return register is taken without a test. -/
lemma InSlots.returnAddress_iff {row : CfaState} {reg : ℕ} {cfa : UInt64} {regs : Regset}
    {reader : MemoryRead σ} {ctx : σ} :
    InSlots (returnAddressLogged row reg cfa regs reader ctx) ↔ reg < regsetSlots := by
  constructor
  · intro h
    refine h reg (mem_indices.mpr ?_)
    exact List.mem_append_left _ (List.mem_singleton_self _)
  · intro h
    refine .bind (.single rfl h) ?_
    rw [elementAt_val row.regs ⟨reg, h⟩]
    dsimp only
    cases (row.regs ⟨reg, h⟩).kind with
    | undefined => exact .pure _
    | sameValue => exact .bind (.single rfl h) (.pure _)
    | offset => exact .pure _

/-- Once the row is known, the return register decides. -/
lemma InSlots.applyRow_iff {row : CfaState} {returnReg : UInt8} {regs : Regset}
    {reader : MemoryRead σ} {ctx : σ} {frame : Frame} :
    InSlots (applyRowLogged row returnReg regs reader ctx frame) ↔
      returnReg.toNat < regsetSlots := by
  rw [InSlots, applyRowLogged, indices_bind, List.forall_mem_append, indices_bind,
    List.forall_mem_append]
  constructor
  · exact fun h => returnAddress_iff.mp h.2.1
  · intro h
    refine ⟨regValue, returnAddress_iff.mpr h, ?_⟩
    rw [returnAddressLogged_val, dif_pos h]
    rcases returnAddress row ⟨returnReg.toNat, h⟩ _ regs reader ctx with ⟨st | ra, ctx'⟩
    · exact pure _
    · refine bind updateRegs ?_
      rcases (updateRegsLogged row _ reader (List.finRange regsetSlots) regs ctx').val with
        ⟨st, regs', ctx''⟩
      cases st <;> exact pure _

/-- The address is in the range of the FDE, and the two programs give it a row. -/
def HasRow (m : ByteMem) (cie : CieRecord) (fde : FdeRecord) (pc : UInt64) : Prop :=
  (fde.pcBegin ≤ pc ∧ pc < fde.pcBegin + fde.pcRange) ∧ ∃ row, cfiRow m cie fde pc = .ok row

lemma cfiEvalIndices_lt_iff {cie : CieRecord} {fde : FdeRecord} {pc : UInt64} {regs : Regset}
    {reader : MemoryRead σ} {ctx : σ} :
    (∀ i ∈ cfiEvalIndices m cie fde pc regs reader ctx, i < regsetSlots) ↔
      (HasRow m cie fde pc → cie.returnReg.toNat < regsetSlots) := by
  rw [cfiEvalIndices, cfiEvalLogged, HasRow]
  by_cases hpc : pc < fde.pcBegin ∨ fde.pcBegin + fde.pcRange ≤ pc
  · have hnot : ¬ (fde.pcBegin ≤ pc ∧ pc < fde.pcBegin + fde.pcRange) := by
      rintro ⟨hlo, hhi⟩
      rcases hpc with h | h
      · exact absurd h (UInt64.not_lt.mpr hlo)
      · exact absurd hhi (UInt64.not_lt.mpr h)
    rw [if_pos hpc]
    exact iff_of_true (InSlots.pure _) fun h => absurd h.1 hnot
  · have hin : fde.pcBegin ≤ pc ∧ pc < fde.pcBegin + fde.pcRange := by
      rw [not_or, UInt64.not_lt, UInt64.not_le] at hpc
      exact hpc
    rw [if_neg hpc, indices_bind, List.forall_mem_append, cfiRowLogged_val,
      and_iff_right (show ∀ i ∈ indices (cfiRowLogged m cie fde pc), _ from InSlots.cfiRow)]
    cases hrow : cfiRow m cie fde pc with
    | error st => exact iff_of_true (InSlots.pure _) fun h => by simp at h
    | ok row =>
        refine InSlots.applyRow_iff.trans ?_
        exact ⟨fun h _ => h, fun h => h ⟨hin, row, rfl⟩⟩

/-- An evaluation is defined exactly when it takes no element that is not there. -/
theorem cfiEval_isSome_iff {cie : CieRecord} {fde : FdeRecord} {pc : UInt64} {regs : Regset}
    {reader : MemoryRead σ} {ctx : σ} {frame : Frame} :
    (cfiEval m cie fde pc regs reader ctx frame).isSome ↔
      ∀ i ∈ cfiEvalIndices m cie fde pc regs reader ctx, i < regsetSlots := by
  rw [cfiEvalIndices_lt_iff, HasRow, cfiEval]
  by_cases hpc : pc < fde.pcBegin ∨ fde.pcBegin + fde.pcRange ≤ pc
  · rw [if_pos hpc]
    refine iff_of_true rfl fun h => ?_
    rcases hpc with hlo | hhi
    · exact absurd hlo (UInt64.not_lt.mpr h.1.1)
    · exact absurd h.1.2 (UInt64.not_lt.mpr hhi)
  · rw [if_neg hpc]
    rw [not_or, UInt64.not_lt, UInt64.not_le] at hpc
    cases hrow : cfiRow m cie fde pc with
    | error st => exact iff_of_true rfl fun h => by simp at h
    | ok row =>
        dsimp only
        by_cases h : cie.returnReg.toNat < regsetSlots
        · rw [dif_pos h]
          exact iff_of_true rfl fun _ => h
        · rw [dif_neg h]
          exact iff_of_false (by simp) fun hall => h (hall ⟨hpc, row, rfl⟩)

/-! ### The return register of a CIE -/

/-- The return-address register of a CIE as it stands in the entry, in 64 bits. -/
def readReturnReg (payload entryEnd : UInt64) : Reader UInt64 := do
  let augmentation := payload + 1
  let augLen ← strnlen augmentation (entryEnd - augmentation).toNat
  let (_, payload) ← readUleb (augmentation + (UInt64.ofNat augLen + 1)) entryEnd
  let (_, payload) ← readSleb payload entryEnd
  let (returnReg, _) ← readUleb payload entryEnd
  pure returnReg

/-- A CIE record holds the low eight bits of the return register in the entry. -/
lemma parseCie_returnReg {sec : Section} {isEh : Bool} {start payload stop : UInt64}
    {cie : CieRecord} (h : (parseCie sec start payload stop isEh).val m = .ok cie) :
    ∃ v, (readReturnReg payload stop).val m = .ok v ∧ cie.returnReg = v.toUInt8 := by
  obtain ⟨r, hr, hcie⟩ := parseCie_header h
  obtain ⟨_, _, _, returnReg, -, hlen, -, hcode, hdata, hret, hheader⟩ := parseCieHeader_ok hr
  refine ⟨returnReg.1, ?_, by rw [hcie, readAddressSize_ok hheader]; rfl⟩
  rw [readReturnReg, val_bind_ok hlen, val_bind_ok hcode, val_bind_ok hdata, val_bind_ok hret,
    val_pure]

/-- The return register in the entry of the CIE `o` is a slot modulo 256. -/
def Origin.ReturnRegFits (m : ByteMem) (o : Origin) : Prop :=
  ∀ v, (readReturnReg (o.head.start + 4 + 4) o.head.stop).val m = .ok v →
    v.toNat % 256 < regsetSlots

instance (m : ByteMem) (o : Origin) : Decidable (o.ReturnRegFits m) := decidableForallOk _

/-- The record has a slot for its return register exactly when the entry has one modulo
256. -/
lemma ParsedFrom.returnReg_lt_iff {o : Origin} {cie : CieRecord} (h : ParsedFrom m o cie) :
    cie.returnReg.toNat < regsetSlots ↔ o.ReturnRegFits m := by
  obtain ⟨v, hv, hreg⟩ := parseCie_returnReg h
  rw [hreg, UInt64.toNat_toUInt8, Origin.ReturnRegFits, hv]
  constructor
  · rintro h _ ⟨⟩
    exact h
  · exact fun h => h v rfl

/-! ### A whole build -/

variable {heap : Heap} {secs : Sections}

/-- Whatever is evaluated with the tables of a build, every element taken is there. -/
def IndicesInSlots (m : ByteMem) (b : BuildResult) : Prop :=
  ∀ fde ∈ b.fdes.records, ∀ cie ∈ b.cies.records[fde.cie.index]?,
    ∀ (σ : Type) (pc : UInt64) (regs : Regset) (reader : MemoryRead σ) (ctx : σ),
      ∀ i ∈ cfiEvalIndices m cie fde pc regs reader ctx, i < regsetSlots

/-- Every FDE of a build that has a row has a CIE whose return register is a slot modulo
256. -/
def ReturnRegsFit (m : ByteMem) (secs : Sections) (b : BuildResult) : Prop :=
  ∀ fde ∈ b.fdes.records, ∀ cie ∈ b.cies.records[fde.cie.index]?,
    ∀ o ∈ (cieOrigins (origins m secs))[fde.cie.index]?,
      (∃ pc, HasRow m cie fde pc) → o.ReturnRegFits m

/-- With the tables of an accepted build every element that `dwunw_cfi_eval` takes is there
exactly when every FDE that has a row for some address has a CIE whose return register is
below 32 modulo 256. -/
theorem cfiBuild_indices_iff (h : (cfiBuild m heap secs).status = .ok) :
    IndicesInSlots m (cfiBuild m heap secs) ↔
      ReturnRegsFit m secs (cfiBuild m heap secs) := by
  obtain ⟨hcies, -⟩ := cfiBuild_tables h
  refine forall₂_congr fun fde _ => forall₂_congr fun cie hcie => ?_
  -- the entry that the record of the CIE was parsed from
  obtain ⟨hlt, rfl⟩ := List.getElem?_eq_some_iff.mp hcie
  have hlt' : fde.cie.index < (cieOrigins (origins m secs)).length := hcies.length_eq ▸ hlt
  have hparsed : ParsedFrom m (cieOrigins (origins m secs))[fde.cie.index]
      (cfiBuild m heap secs).cies.records[fde.cie.index] := hcies.get hlt' hlt
  rw [List.getElem?_eq_getElem hlt']
  simp only [Option.mem_def, Option.some.injEq, forall_eq']
  rw [← ParsedFrom.returnReg_lt_iff hparsed]
  simp only [cfiEvalIndices_lt_iff]
  constructor
  · rintro hall ⟨pc, hrow⟩
    exact hall Unit pc ⟨0, 0, 0, 0, 0, fun _ => 0⟩ (fun ctx _ => (.ok 0, ctx)) () hrow
  · exact fun hall _ pc _ _ _ hrow => hall ⟨pc, hrow⟩

/-- A `.debug_frame` with one CIE, whose return register is `returnReg` and whose program
defines the CFA, and an FDE of it. -/
def returnRegFrame (returnReg : UInt8) : List UInt8 :=
  [12, 0, 0, 0, 0xff, 0xff, 0xff, 0xff, 1, 0, 1, 0x78, returnReg, 0x0c, 7, 8] ++
    [20, 0, 0, 0, 0, 0, 0, 0] ++ leBytes 8 0x1000 ++ leBytes 8 0x10

/-- The build over `returnRegFrame`. -/
def returnRegBuild (returnReg : UInt8) : BuildResult :=
  cfiBuild (memOf 0x1000 (returnRegFrame returnReg)) (.fresh fun _ => true)
    (debugFrameAt 0x1000 (returnRegFrame returnReg))

/-- The build accepts the return register 33, and the evaluation takes the rule of it. -/
theorem returnReg33_out_of_range :
    (returnRegBuild 33).status = .ok ∧
      ¬ IndicesInSlots (memOf 0x1000 (returnRegFrame 33)) (returnRegBuild 33) := by
  refine ⟨by decide +kernel, fun h => ?_⟩
  have hout : ∃ fde ∈ (returnRegBuild 33).fdes.records,
      ∃ cie ∈ (returnRegBuild 33).cies.records[fde.cie.index]?,
        33 ∈ cfiEvalIndices (memOf 0x1000 (returnRegFrame 33)) cie fde 0x1008
          ⟨0, 0, 0, 0, 0, fun _ => 0⟩ (fun (ctx : Unit) _ => (.ok 0, ctx)) () := by
    decide +kernel
  obtain ⟨fde, hfde, cie, hcie, hmem⟩ := hout
  have hlt := h fde hfde cie hcie Unit 0x1008 _ _ _ 33 hmem
  exact absurd hlt (by decide)

/-- The return address register of x86-64 is one of the slots. -/
theorem returnReg16_in_range :
    (returnRegBuild 16).fdes.records.length = 1 ∧
      IndicesInSlots (memOf 0x1000 (returnRegFrame 16)) (returnRegBuild 16) := by
  refine ⟨by decide +kernel, (cfiBuild_indices_iff (by decide +kernel)).mpr ?_⟩
  have hfits : ∀ o ∈ cieOrigins (origins (memOf 0x1000 (returnRegFrame 16))
      (debugFrameAt 0x1000 (returnRegFrame 16))),
      o.ReturnRegFits (memOf 0x1000 (returnRegFrame 16)) := by decide +kernel
  exact fun _ _ _ _ o ho _ => hfits o (List.mem_of_getElem? ho)

end Dwunw
