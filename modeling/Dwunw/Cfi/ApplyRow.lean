import Dwunw.Cfi.Cut
import Dwunw.Cfi.RowStep
import Dwunw.Lib.Sweep

/-!
What `dwunw_cfi_eval` does with a row.

The CFA and the return address come first, then the frame is written, and then the slots of
the register snapshot are overwritten one after the other, while their values are still being
read.

* `slotFetch`, `updateRegs_eq_sweep`: the loop over the slots is a `Sweep.sweep`.
* `Evaluation`, `cfiEval_evaluation`: the ways an evaluation goes.
* `cfiRow_saves`: the rules of a row are `RULE_SAME_VALUE` and `RULE_OFFSET`.
* `cfiEval_simultaneous`: an evaluation that succeeds has assigned all slots at once, from the
  old registers.
* `cfiEval_succeeds`: over a stack that can be read, a row is all an evaluation needs.
* `evalAtomic_iff`: an evaluation that fails leaves everything as it was exactly when no saved
  register is what it fails at.
-/

namespace Dwunw

open Loop Sweep Traced

variable {σ : Type} {m : ByteMem} {cie : CieRecord} {fde : FdeRecord} {pc : UInt64}
  {regs : Regset} {reader : MemoryRead σ} {ctx : σ} {frame : Frame}

/-! ### The loop over the slots -/

/-- What a row makes of a slot of the snapshot. -/
def slotFetch (row : CfaState) (cfa : UInt64) (reader : MemoryRead σ) (i : Fin regsetSlots)
    (ctx : σ) : Except Status (Option UInt64) × σ :=
  match (row.regs i).kind with
  | .sameValue => (.ok none, ctx)
  | .offset =>
      let x := applyRule .offset (row.regs i).offset cfa reader ctx
      (x.1.map some, x.2)
  | .undefined => (.ok (some 0), ctx)

/-- The status of a sweep over the slots. -/
def sweepStatus : Except Status Unit → Status
  | .ok () => .ok
  | .error st => st

lemma updateRegs_eq_sweep (row : CfaState) (cfa : UInt64) (reader : MemoryRead σ)
    (slots : List (Fin regsetSlots)) (regs : Regset) (ctx : σ) :
    updateRegs row cfa reader slots regs ctx =
      let x := sweep (slotFetch row cfa reader) slots regs.regs ctx
      (sweepStatus x.1, { regs with regs := x.2.1 }, x.2.2) := by
  induction slots generalizing regs ctx with
  | nil => rfl
  | cons i slots ih =>
      rw [updateRegs, sweep, slotFetch]
      cases (row.regs i).kind with
      | sameValue => exact ih regs ctx
      | undefined => exact ih (regs.setReg i 0) ctx
      | offset =>
          dsimp only
          rcases applyRule .offset (row.regs i).offset cfa reader ctx with ⟨st | v, c⟩
          · rfl
          · exact ih (regs.setReg i v) c

/-! ### One evaluation -/

/-- The reader reports a failure with a status that says so. -/
def FailsWithError (reader : MemoryRead σ) : Prop := ∀ ctx a, (reader ctx a).1 ≠ .error .ok

/-- The CFA under a row. -/
def rowCfa (row : CfaState) (regs : Regset) : UInt64 :=
  regValue regs row.cfaReg + row.cfaOffset.toUInt64

/-- The frame as it is written once the return address is known. -/
def Frame.written (frame : Frame) (ra cfa : UInt64) : Frame :=
  { frame with pc := ra, ra := ra, sp := cfa, cfa := cfa, flags := 0 }

/-- The test with which `dwunw_cfi_find_fde` and `dwunw_cfi_eval` decide whether an FDE is for
an address. -/
def FdeRecord.Covers (fde : FdeRecord) (pc : UInt64) : Prop :=
  fde.pcBegin ≤ pc ∧ pc < fde.pcBegin + fde.pcRange

instance (fde : FdeRecord) (pc : UInt64) : Decidable (fde.Covers pc) :=
  inferInstanceAs (Decidable (_ ∧ _))

lemma FdeRecord.not_covers_iff :
    ¬ fde.Covers pc ↔ pc < fde.pcBegin ∨ fde.pcBegin + fde.pcRange ≤ pc := by
  rw [Covers, not_and_or, UInt64.not_le, UInt64.not_lt]

/-- The ways a row is applied. -/
inductive RowApplication (row : CfaState) (reg : Fin regsetSlots) (regs : Regset)
    (reader : MemoryRead σ) (ctx : σ) (frame : Frame) : EvalResult σ → Prop
  /-- There is no return address. -/
  | noReturn {st : Status} {c : σ} (hst : st ≠ .ok)
      (hra : returnAddress row reg (rowCfa row regs) regs reader ctx = (.error st, c)) :
      RowApplication row reg regs reader ctx frame ⟨st, regs, frame, c⟩
  /-- A saved register cannot be read. -/
  | unread {ra : UInt64} {st : Status} {table : Fin regsetSlots → UInt64} {c c' : σ}
      (hst : st ≠ .ok)
      (hra : returnAddress row reg (rowCfa row regs) regs reader ctx = (.ok ra, c))
      (hsweep : sweep (slotFetch row (rowCfa row regs) reader) (List.finRange regsetSlots)
        regs.regs c = (.error st, table, c')) :
      RowApplication row reg regs reader ctx frame
        ⟨st, { regs with regs := table }, frame.written ra (rowCfa row regs), c'⟩
  /-- Everything is read. -/
  | applied {ra : UInt64} {table : Fin regsetSlots → UInt64} {c c' : σ}
      (hra : returnAddress row reg (rowCfa row regs) regs reader ctx = (.ok ra, c))
      (hsweep : sweep (slotFetch row (rowCfa row regs) reader) (List.finRange regsetSlots)
        regs.regs c = (.ok (), table, c')) :
      RowApplication row reg regs reader ctx frame
        ⟨.ok, { regs with regs := table, pc := ra, sp := rowCfa row regs },
          frame.written ra (rowCfa row regs), c'⟩

/-- The ways an evaluation goes. -/
inductive Evaluation (m : ByteMem) (cie : CieRecord) (fde : FdeRecord) (pc : UInt64)
    (regs : Regset) (reader : MemoryRead σ) (ctx : σ) (frame : Frame) : EvalResult σ → Prop
  | outside (hpc : ¬ fde.Covers pc) :
      Evaluation m cie fde pc regs reader ctx frame ⟨.invalidArg, regs, frame, ctx⟩
  | noRow {st : Status} (hpc : fde.Covers pc) (hst : st ≠ .ok)
      (hrow : cfiRow m cie fde pc = .error st) :
      Evaluation m cie fde pc regs reader ctx frame ⟨st, regs, frame, ctx⟩
  | applies {row : CfaState} {ev : EvalResult σ} (hpc : fde.Covers pc)
      (hrow : cfiRow m cie fde pc = .ok row) (hret : cie.returnReg.toNat < regsetSlots)
      (hev : RowApplication row ⟨cie.returnReg.toNat, hret⟩ regs reader ctx frame ev) :
      Evaluation m cie fde pc regs reader ctx frame ev

lemma cfiRow_ne_ok {st : Status} (h : cfiRow m cie fde pc = .error st) : st ≠ .ok := by
  rw [cfiRow] at h
  dsimp only at h
  split at h
  · next hst =>
    cases h
    exact hst.1
  · split at h
    · next hst =>
      cases h
      exact hst.1
    · split at h
      · cases h
        decide
      · cases h

lemma returnAddress_ne_ok (he : FailsWithError reader) (row : CfaState)
    (reg : Fin regsetSlots) (cfa : UInt64) (regs : Regset) (ctx : σ) :
    (returnAddress row reg cfa regs reader ctx).1 ≠ .error .ok := by
  rw [returnAddress]
  cases (row.regs reg).kind with
  | sameValue => simp
  | offset => exact he ctx _
  | undefined => simp

lemma slotFetch_ne_ok (he : FailsWithError reader) (row : CfaState) (cfa : UInt64)
    (i : Fin regsetSlots) (ctx : σ) : (slotFetch row cfa reader i ctx).1 ≠ .error .ok := by
  rw [slotFetch]
  cases (row.regs i).kind with
  | sameValue => simp
  | undefined => simp
  | offset =>
      have hread := he ctx (cfa + (row.regs i).offset.toUInt64)
      dsimp only [applyRule]
      rcases hr : reader ctx (cfa + (row.regs i).offset.toUInt64) with ⟨st | v, c⟩
      · rw [hr] at hread
        exact fun h => hread (by simpa [Except.map] using h)
      · simp [Except.map]

lemma sweep_ne_ok (he : FailsWithError reader) (row : CfaState) (cfa : UInt64)
    (slots : List (Fin regsetSlots)) (table : Fin regsetSlots → UInt64) (ctx : σ) :
    (sweep (slotFetch row cfa reader) slots table ctx).1 ≠ .error .ok := by
  induction slots generalizing table ctx with
  | nil => simp [sweep]
  | cons i slots ih =>
      have hfetch := slotFetch_ne_ok he row cfa i ctx
      rw [sweep]
      rcases hf : slotFetch row cfa reader i ctx with ⟨st | v, c⟩
      · rw [hf] at hfetch
        simpa using hfetch
      · exact ih _ c

lemma applyRow_application (he : FailsWithError reader) (row : CfaState)
    (reg : Fin regsetSlots) (regs : Regset) (ctx : σ) (frame : Frame) :
    RowApplication row reg regs reader ctx frame (applyRow row reg regs reader ctx frame) := by
  have hne := returnAddress_ne_ok he row reg (rowCfa row regs) regs ctx
  rw [applyRow]
  dsimp only
  rw [← rowCfa]
  rcases hra : returnAddress row reg (rowCfa row regs) regs reader ctx with ⟨st | ra, c⟩
  · rw [hra] at hne
    exact .noReturn (fun h => hne (congrArg Except.error h)) hra
  · have hne' := sweep_ne_ok he row (rowCfa row regs) (List.finRange regsetSlots) regs.regs c
    dsimp only
    rw [updateRegs_eq_sweep]
    rcases hsweep : sweep (slotFetch row (rowCfa row regs) reader) (List.finRange regsetSlots)
      regs.regs c with ⟨st | u, table, c'⟩
    · rw [hsweep] at hne'
      have hst : st ≠ .ok := fun h => hne' (congrArg Except.error h)
      have happ : RowApplication row reg regs reader ctx frame _ := .unread hst hra hsweep
      cases st <;> first | exact absurd rfl hst | exact happ
    · exact .applied hra hsweep

/-- An evaluation goes one of these ways. -/
theorem cfiEval_evaluation (he : FailsWithError reader) {ev : EvalResult σ}
    (h : cfiEval m cie fde pc regs reader ctx frame = some ev) :
    Evaluation m cie fde pc regs reader ctx frame ev := by
  rw [cfiEval] at h
  by_cases hpc : fde.Covers pc
  swap
  · rw [if_pos (FdeRecord.not_covers_iff.mp hpc)] at h
    cases h
    exact .outside hpc
  rw [if_neg fun hout => FdeRecord.not_covers_iff.mpr hout hpc] at h
  cases hrow : cfiRow m cie fde pc with
  | error st =>
      rw [hrow] at h
      cases h
      exact .noRow hpc (cfiRow_ne_ok hrow) hrow
  | ok row =>
      rw [hrow] at h
      dsimp only at h
      by_cases hret : cie.returnReg.toNat < regsetSlots
      swap
      · rw [dif_neg hret] at h
        cases h
      rw [dif_pos hret] at h
      cases h
      exact .applies hpc hrow hret (applyRow_application he row _ regs ctx frame)

/-! ### The rules of a row -/

/-- The row for an address is what the FDE program makes of the row of the CIE program. -/
lemma cfiRow_ok {row : CfaState} (h : cfiRow m cie fde pc = .ok row) :
    row = (executeCfi m cie fde.instructions fde.instructionsSize fde.pcBegin pc
      (initialState m cie fde) (initialState m cie fde)).2 ∧ row.cfaReg ≠ noCfaReg := by
  rw [cfiRow] at h
  dsimp only at h
  split at h
  · cases h
  · split at h
    · cases h
    · split at h
      · cases h
      · next hreg =>
        cases h
        exact ⟨rfl, hreg⟩

/-- A row whose rules are `RULE_SAME_VALUE` and `RULE_OFFSET`. -/
def CfaState.SavesOnly (row : CfaState) : Prop := ∀ i, (row.regs i).kind ≠ .undefined

lemma RowStep.savesOnly {initial s s' : CfaState} {op : Option ℕ}
    (hinitial : initial.SavesOnly) (hs : s.SavesOnly) (h : RowStep initial s op s') :
    s'.SavesOnly := by
  intro i
  cases h with
  | same => exact hs i
  | offsets _ => exact hs i
  | defines _ _ => exact hs i
  | saves reg offset =>
      dsimp only [CfaState.setRule]
      split_ifs
      · show RuleKind.offset ≠ .undefined
        decide
      · exact hs i
  | restores reg =>
      dsimp only [CfaState.restoreRule]
      split_ifs
      · exact hinitial i
      · exact hs i

/-- No program gives a register the rule `RULE_UNDEFINED`. -/
theorem cfiRow_saves {row : CfaState} (h : cfiRow m cie fde pc = .ok row) : row.SavesOnly := by
  have hsame : RuleKind.sameValue ≠ .undefined := by decide
  have hreset : cfaStateReset.SavesOnly := fun _ => hsame
  have hcie : (initialState m cie fde).SavesOnly :=
    executeCfi_invariant (fun _ _ _ hs hstep => hstep.savesOnly hreset hs) hreset
  rw [(cfiRow_ok h).1]
  exact executeCfi_invariant (fun _ _ _ hs hstep => hstep.savesOnly hcie hs) hcie

/-! ### Simultaneous assignment -/

/-- A row applied to the old registers as one assignment: the saved registers are what `f`
returns at their places, everything else is as it was. -/
structure RowApplied (row : CfaState) (cfaSlot returnSlot : Fin regsetSlots)
    (f : UInt64 → Except Status UInt64) (old new : Regset) (frame : Frame) : Prop where
  cfa : frame.cfa = old.regs cfaSlot + row.cfaOffset.toUInt64
  restored : ∀ i, (row.regs i).kind = .offset →
    f (frame.cfa + (row.regs i).offset.toUInt64) = .ok (new.regs i)
  kept : ∀ i, (row.regs i).kind ≠ .offset → new.regs i = old.regs i
  header : new.arch = old.arch ∧ new.version = old.version ∧ new.flags = old.flags
  sp : new.sp = frame.cfa ∧ frame.sp = frame.cfa
  pc : new.pc = new.regs returnSlot ∧ frame.pc = new.pc ∧ frame.ra = new.pc

/-- The value of a CFA register that is a slot. -/
lemma regValue_slot (regs : Regset) {reg : UInt16} (h : reg.toNat < regsetSlots) :
    regValue regs reg = regs.regs ⟨reg.toNat, h⟩ := by
  have hne : reg ≠ noCfaReg := by
    rintro rfl
    exact absurd h (by decide)
  rw [regValue, if_neg hne, dif_pos h]

/-- What becomes of a slot over a reader that is `f`. -/
def slotValue (row : CfaState) (cfa : UInt64) (f : UInt64 → Except Status UInt64)
    (i : Fin regsetSlots) : Except Status (Option UInt64) :=
  match (row.regs i).kind with
  | .sameValue => .ok none
  | .offset => (f (cfa + (row.regs i).offset.toUInt64)).map some
  | .undefined => .ok (some 0)

/-- The slots of a row are assigned, all from the old ones. -/
structure SlotsAssigned (row : CfaState) (cfa : UInt64) (f : UInt64 → Except Status UInt64)
    (old new : Fin regsetSlots → UInt64) : Prop where
  restored : ∀ i, (row.regs i).kind = .offset →
    f (cfa + (row.regs i).offset.toUInt64) = .ok (new i)
  kept : ∀ i, (row.regs i).kind = .sameValue → new i = old i

section FixedReader

variable {f : UInt64 → Except Status UInt64} (hreader : ∀ c a, (reader c a).1 = f a)
include hreader

/-- Over a reader that is `f`, what is made of a slot is a function of the slot. -/
lemma slotFetch_fixed (row : CfaState) (cfa : UInt64) (i : Fin regsetSlots) (c : σ) :
    (slotFetch row cfa reader i c).1 = slotValue row cfa f i := by
  rw [slotFetch, slotValue]
  cases (row.regs i).kind with
  | sameValue => rfl
  | undefined => rfl
  | offset => exact congrArg (Except.map some) (hreader c _)

/-- A loop over the slots that ends well has assigned them all at once. -/
lemma slotsAssigned_of_sweep {row : CfaState} {cfa : UInt64} {old new : Fin regsetSlots → UInt64}
    {c c' : σ} (hsweep : sweep (slotFetch row cfa reader) (List.finRange regsetSlots) old c =
      (.ok (), new, c')) : SlotsAssigned row cfa f old new := by
  have hswept := sweep_fixed (slotFetch_fixed hreader row cfa) (List.nodup_finRange regsetSlots)
    (congrArg Prod.fst hsweep)
  rw [hsweep] at hswept
  refine ⟨fun i hi => ?_, fun i hi => ?_⟩
  · obtain ⟨v, hv, hw⟩ := hswept i (List.mem_finRange i)
    rw [slotValue, hi] at hv
    dsimp only at hv hw
    cases hr : f (cfa + (row.regs i).offset.toUInt64) with
    | error st =>
        rw [hr] at hv
        cases hv
    | ok w =>
        rw [hr] at hv
        cases hv
        exact congrArg Except.ok hw.symm
  · obtain ⟨v, hv, hw⟩ := hswept i (List.mem_finRange i)
    rw [slotValue, hi] at hv
    cases hv
    exact hw

/-- The return address is read by itself, but from the place its slot is read from. -/
lemma SlotsAssigned.returnAddress {row : CfaState} {cfa : UInt64}
    {table : Fin regsetSlots → UInt64} (h : SlotsAssigned row cfa f regs.regs table)
    {reg : Fin regsetSlots} {ra : UInt64} {c c' : σ}
    (hra : Dwunw.returnAddress row reg cfa regs reader c = (.ok ra, c')) : ra = table reg := by
  rw [Dwunw.returnAddress] at hra
  cases hk : (row.regs reg).kind with
  | undefined =>
      rw [hk] at hra
      cases hra
  | sameValue =>
      rw [hk] at hra
      cases hra
      exact (h.kept reg hk).symm
  | offset =>
      rw [hk] at hra
      have hread := hreader c (cfa + (row.regs reg).offset.toUInt64)
      rw [h.restored reg hk, show reader c _ = _ from hra] at hread
      exact Except.ok.inj hread

/-- Over a reader that is `f`, an evaluation that succeeds has applied the row of the address. -/
lemma cfiEval_applied (hf : ∀ a, f a ≠ .error .ok) {ev : EvalResult σ}
    (h : cfiEval m cie fde pc regs reader ctx frame = some ev) (hok : ev.status = .ok) :
    ∃ (row : CfaState) (hret : cie.returnReg.toNat < regsetSlots)
        (table : Fin regsetSlots → UInt64),
      cfiRow m cie fde pc = .ok row ∧ SlotsAssigned row (rowCfa row regs) f regs.regs table ∧
        ev.regs = { regs with
          regs := table, pc := table ⟨cie.returnReg.toNat, hret⟩, sp := rowCfa row regs } ∧
        ev.frame = frame.written (table ⟨cie.returnReg.toNat, hret⟩) (rowCfa row regs) := by
  have he : FailsWithError reader := fun c a => by
    rw [hreader]
    exact hf a
  cases cfiEval_evaluation he h with
  | outside _ => cases hok
  | noRow _ hst _ => exact absurd hok hst
  | @applies row _ _ hrow hret hev =>
  cases hev with
  | noReturn hst _ => exact absurd hok hst
  | unread hst _ _ => exact absurd hok hst
  | @applied ra table c c' hra hsweep =>
  have hslots := slotsAssigned_of_sweep hreader hsweep
  obtain rfl := hslots.returnAddress hreader hra
  exact ⟨row, hret, table, hrow, hslots, rfl, rfl⟩

end FixedReader

/-- Over a reader that is a fixed function of the address, an evaluation that succeeds has
assigned all slots at once, from the old registers. -/
theorem cfiEval_simultaneous {f : UInt64 → Except Status UInt64} (hf : ∀ a, f a ≠ .error .ok)
    (hreader : ∀ c a, (reader c a).1 = f a) {ev : EvalResult σ}
    (h : cfiEval m cie fde pc regs reader ctx frame = some ev) (hok : ev.status = .ok) :
    ∃ row, cfiRow m cie fde pc = .ok row ∧
      ∀ (hcfa : row.cfaReg.toNat < regsetSlots) (hret : cie.returnReg.toNat < regsetSlots),
        RowApplied row ⟨row.cfaReg.toNat, hcfa⟩ ⟨cie.returnReg.toNat, hret⟩ f regs ev.regs
          ev.frame := by
  obtain ⟨row, hret, table, hrow, hslots, hregs, hframe⟩ := cfiEval_applied hreader hf h hok
  refine ⟨row, hrow, fun hcfa _ => ?_⟩
  rw [hregs, hframe]
  refine ⟨?_, hslots.restored, fun i hi => ?_, ⟨rfl, rfl, rfl⟩, ⟨rfl, rfl⟩, rfl, rfl, rfl⟩
  · show rowCfa row regs = _
    rw [rowCfa, regValue_slot regs hcfa]
  · cases hk : (row.regs i).kind with
    | offset => exact absurd hk hi
    | undefined => exact absurd hk (cfiRow_saves hrow i)
    | sameValue => exact hslots.kept i hk

/-- A CIE with the row CFA = `r7` + 32, the return address at CFA - 8, and `r3` and `r6` saved
at CFA - 16 and CFA - 24 (`DW_CFA_def_cfa`, three times `DW_CFA_offset`); its program lies at
address 0x5000. -/
def savedCie : CieRecord := ⟨1, 8, 16, 0, -8, 1, 0, 0, 0, 0x5000, 9⟩

/-- The host memory: the program of `savedCie`. -/
def savedMem : ByteMem := memOf 0x5000 [0x0c, 7, 32, 0x90, 1, 0x83, 2, 0x86, 3]

/-- An FDE of it without a program of its own, for the addresses from 0x1000 to 0x2000. -/
def savedFde : FdeRecord := ⟨⟨some 0, 0⟩, 16, 0x1000, 0x1000, 0x5009, 0⟩

/-- A snapshot with `r7` = 0x7000. -/
def savedRegs : Regset := ⟨1, 1, 0, 0x7000, 0x1010, Function.update (fun _ => 5) 7 0x7000⟩

/-- Every word of the stack is its own address. -/
def ownAddress (_ : Unit) (a : UInt64) : Except Status UInt64 × Unit := (.ok a, ())

lemma ownAddress_total (c : Unit) (a : UInt64) : ∃ v c', ownAddress c a = (.ok v, c') :=
  ⟨a, c, rfl⟩

/-- A row that saves a register is applied to the registers as they were. -/
theorem savedFde_simultaneous :
    ∃ row, cfiRow savedMem savedCie savedFde 0x1010 = .ok row ∧
      ∃ ev, cfiEval savedMem savedCie savedFde 0x1010 savedRegs ownAddress ()
          ⟨0, 0, 0, 0, 0, []⟩ = some ev ∧ ev.regs.regs 3 = 0x7010 ∧
        RowApplied row 7 16 Except.ok savedRegs ev.regs ev.frame := by
  have hsome : (cfiEval savedMem savedCie savedFde 0x1010 savedRegs ownAddress ()
      ⟨0, 0, 0, 0, 0, []⟩).any fun ev => decide (ev.status = .ok ∧ ev.regs.regs 3 = 0x7010) := by
    decide +kernel
  obtain ⟨ev, hev, hstatus⟩ := (Option.any_eq_true _ _).mp hsome
  obtain ⟨hok, hr3⟩ := of_decide_eq_true hstatus
  obtain ⟨row, hrow, happ⟩ := cfiEval_simultaneous (f := Except.ok) (fun _ => by simp)
    (fun _ _ => rfl) hev hok
  have hreg : (cfiRow savedMem savedCie savedFde 0x1010).toOption.map (·.cfaReg) = some 7 := by
    decide +kernel
  rw [hrow, Except.toOption, Option.map_some, Option.some.injEq] at hreg
  have hslot : row.cfaReg.toNat < regsetSlots := by
    rw [hreg]
    decide
  have hseven : (⟨row.cfaReg.toNat, hslot⟩ : Fin regsetSlots) = 7 :=
    Fin.ext (congrArg UInt16.toNat hreg)
  refine ⟨row, hrow, ev, hev, hr3, ?_⟩
  rw [← hseven]
  exact happ hslot (by decide)

/-! ### Evaluations over a stack that can be read -/

/-- A row that can be applied to the address is applied. -/
lemma cfiEval_applyRow {row : CfaState} (hpc : fde.Covers pc)
    (hrow : cfiRow m cie fde pc = .ok row) (hret : cie.returnReg.toNat < regsetSlots) :
    cfiEval m cie fde pc regs reader ctx frame =
      some (applyRow row ⟨cie.returnReg.toNat, hret⟩ regs reader ctx frame) := by
  rw [cfiEval, if_neg fun hout => FdeRecord.not_covers_iff.mpr hout hpc, hrow]
  dsimp only
  rw [dif_pos hret]

/-- What a row makes of a slot can be had where the reader can read the place of a saved
register. -/
lemma slotFetch_ok {row : CfaState} {cfa : UInt64} {i : Fin regsetSlots} {I : σ → Prop}
    (hread : (row.regs i).kind = .offset →
      ∃ v c', reader ctx (cfa + (row.regs i).offset.toUInt64) = (.ok v, c') ∧ I c')
    (hctx : I ctx) : ∃ v c', slotFetch row cfa reader i ctx = (.ok v, c') ∧ I c' := by
  rw [slotFetch]
  cases hi : (row.regs i).kind with
  | sameValue => exact ⟨_, _, rfl, hctx⟩
  | undefined => exact ⟨_, _, rfl, hctx⟩
  | offset =>
      obtain ⟨v, c', hread, hc'⟩ := hread hi
      dsimp only [applyRule]
      rw [hread]
      exact ⟨_, _, rfl, hc'⟩

/-- A reader that never fails can read every saved register. -/
lemma fetches_of_total (h : ∀ c a, ∃ v c', reader c a = (.ok v, c')) (row : CfaState)
    (cfa : UInt64) (slots : List (Fin regsetSlots)) (ctx : σ) :
    Fetches (slotFetch row cfa reader) slots ctx := by
  refine Fetches.of_invariant (I := fun _ => True) (fun i c _ => ?_) slots trivial
  refine slotFetch_ok (fun _ => ?_) trivial
  obtain ⟨v, c', hread⟩ := h c (cfa + (row.regs i).offset.toUInt64)
  exact ⟨v, c', hread, trivial⟩

lemma failsWithError_of_total (h : ∀ c a, ∃ v c', reader c a = (.ok v, c')) :
    FailsWithError reader := fun c a => by
  obtain ⟨v, c', hread⟩ := h c a
  rw [hread]
  simp

/-- Over a stack that can be read an evaluation with a row succeeds. -/
lemma cfiEval_succeeds (h : ∀ c a, ∃ v c', reader c a = (.ok v, c')) (hpc : fde.Covers pc)
    {row : CfaState} (hrow : cfiRow m cie fde pc = .ok row)
    (hret : cie.returnReg.toNat < regsetSlots) (regs : Regset) (ctx : σ) (frame : Frame) :
    ∃ ev, cfiEval m cie fde pc regs reader ctx frame = some ev ∧ ev.status = .ok ∧
      ev.frame.cfa = rowCfa row regs := by
  refine ⟨_, cfiEval_applyRow hpc hrow hret, ?_⟩
  have happ := applyRow_application (failsWithError_of_total h) row
    ⟨cie.returnReg.toNat, hret⟩ regs ctx frame
  generalize applyRow row _ regs reader ctx frame = ev at happ ⊢
  cases happ with
  | applied _ _ => exact ⟨rfl, rfl⟩
  | @unread _ _ _ c _ _ _ hsweep =>
      have hfetch := fetches_of_total h row (rowCfa row regs) (List.finRange regsetSlots) c
      rw [← sweep_ok_iff _ regs.regs, hsweep] at hfetch
      cases hfetch
  | noReturn _ hra =>
      rw [returnAddress] at hra
      cases hk : (row.regs ⟨cie.returnReg.toNat, hret⟩).kind with
      | sameValue =>
          rw [hk] at hra
          cases hra
      | undefined => exact absurd hk (cfiRow_saves hrow _)
      | offset =>
          rw [hk] at hra
          obtain ⟨v, c', hread⟩ := h ctx
            (rowCfa row regs + (row.regs ⟨cie.returnReg.toNat, hret⟩).offset.toUInt64)
          dsimp only [applyRule] at hra
          rw [hread] at hra
          cases hra

/-! ### Evaluations that fail -/

/-- Whatever the frame held: an evaluation that fails leaves the registers and the frame as
they were. -/
def EvalAtomic (m : ByteMem) (cie : CieRecord) (fde : FdeRecord) (pc : UInt64) (regs : Regset)
    (reader : MemoryRead σ) (ctx : σ) : Prop :=
  ∀ frame ev, cfiEval m cie fde pc regs reader ctx frame = some ev → ev.status ≠ .ok →
    ev.regs = regs ∧ ev.frame = frame

/-- Once there is a return address, every saved register can be read. -/
def SavedRegsReadable (m : ByteMem) (cie : CieRecord) (fde : FdeRecord) (pc : UInt64)
    (regs : Regset) (reader : MemoryRead σ) (ctx : σ) : Prop :=
  fde.Covers pc → ∀ row, cfiRow m cie fde pc = .ok row →
    ∀ (hret : cie.returnReg.toNat < regsetSlots) (ra : UInt64) (c : σ),
      returnAddress row ⟨cie.returnReg.toNat, hret⟩ (rowCfa row regs) regs reader ctx =
          (.ok ra, c) →
        Fetches (slotFetch row (rowCfa row regs) reader) (List.finRange regsetSlots) c

/-- An evaluation clears the flags of the frame before it reads the saved registers. -/
lemma savedRegsReadable_of_frame (he : FailsWithError reader) (frame : Frame)
    (hflags : frame.flags ≠ 0)
    (hframe : ∀ ev, cfiEval m cie fde pc regs reader ctx frame = some ev → ev.status ≠ .ok →
      ev.frame = frame) : SavedRegsReadable m cie fde pc regs reader ctx := by
  intro hpc row hrow hret ra c hra
  by_contra hfails
  rw [← sweep_ok_iff _ regs.regs] at hfails
  have happ := applyRow_application he row ⟨cie.returnReg.toNat, hret⟩ regs ctx frame
  have hev : cfiEval m cie fde pc regs reader ctx frame =
      some (applyRow row ⟨cie.returnReg.toNat, hret⟩ regs reader ctx frame) :=
    cfiEval_applyRow hpc hrow hret
  generalize applyRow row _ regs reader ctx frame = ev at happ hev
  cases happ with
  | noReturn _ hra' =>
      rw [hra] at hra'
      cases hra'
  | applied hra' hsweep =>
      rw [hra] at hra'
      cases hra'
      rw [hsweep] at hfails
      exact hfails rfl
  | unread hst _ _ => exact hflags (congrArg Frame.flags (hframe _ hev hst)).symm

/-- The frame is written, and the slots are overwritten, before the last of the saved registers
is read: an evaluation that fails leaves everything as it was exactly when none of them is what
it fails at. -/
theorem evalAtomic_iff (he : FailsWithError reader) :
    EvalAtomic m cie fde pc regs reader ctx ↔
      SavedRegsReadable m cie fde pc regs reader ctx := by
  constructor
  · intro hatomic
    exact savedRegsReadable_of_frame he ⟨0, 0, 0, 0, 1, []⟩ (show (1 : UInt32) ≠ 0 by decide)
      fun ev h hst => (hatomic _ ev h hst).2
  · intro hreadable frame ev h hst
    cases cfiEval_evaluation he h with
    | outside _ => exact ⟨rfl, rfl⟩
    | noRow _ _ _ => exact ⟨rfl, rfl⟩
    | applies hpc hrow hret hev =>
        cases hev with
        | noReturn _ _ => exact ⟨rfl, rfl⟩
        | applied _ _ => exact absurd rfl hst
        | unread _ hra hsweep =>
            have hfetch := hreadable hpc _ hrow hret _ _ hra
            rw [← sweep_ok_iff _ regs.regs, hsweep] at hfetch
            cases hfetch

lemma savedRegsReadable_of_total (h : ∀ c a, ∃ v c', reader c a = (.ok v, c')) :
    SavedRegsReadable m cie fde pc regs reader ctx :=
  fun _ row _ _ _ c _ => fetches_of_total h row (rowCfa row regs) (List.finRange regsetSlots) c

end Dwunw
