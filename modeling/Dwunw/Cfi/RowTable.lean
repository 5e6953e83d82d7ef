import Dwunw.Cfi.Instructions

/-!
`execute_cfi` refines the row table.

* `Basic`: the instructions of the programs in question.
* `executed_word`: the early stop on natural numbers, on which the table is made, and on 64-bit
  words.
* `ends_basic`: the loop of `execute_cfi` on such a program, by induction over the
  instructions that are left.
* `executeCfi_table`: the state after both programs is the last row of the whole table whose
  location is not beyond the target.
-/

namespace Dwunw

open CallFrame Loop

variable {m : ByteMem} {cie : CieRecord} {stop pcBegin pc : UInt64} {n : ℕ}

/-- The instructions without extended operands. -/
def Basic : Instr n → Prop
  | .nop | .setLoc _ | .advanceLoc _ | .advanceLoc1 _ | .advanceLoc2 _ | .advanceLoc4 _
  | .offset _ _ | .restore _ | .defCfa _ _ | .defCfaRegister _ | .defCfaOffset _ => True
  | _ => False

instance : DecidablePred (Basic (n := n))
  | .nop | .setLoc _ | .advanceLoc _ | .advanceLoc1 _ | .advanceLoc2 _ | .advanceLoc4 _
  | .offset _ _ | .restore _ | .defCfa _ _ | .defCfaRegister _ | .defCfaOffset _ =>
      instDecidableTrue
  | .offsetExtended _ _ | .restoreExtended _ | .undefined _ | .sameValue _ | .register _ _
  | .rememberState | .restoreState | .defCfaExpression _ | .expression _ _
  | .offsetExtendedSf _ _ | .defCfaSf _ _ | .defCfaOffsetSf _ | .valOffset _ _
  | .valOffsetSf _ _ | .valExpression _ _ => instDecidableFalse

lemma Basic.passable {i : Instr n} (h : Basic i) : Passable i := by
  cases i <;> first | exact ⟨trivial, id⟩ | exact h.elim

lemma Basic.asRead_eq {i : Instr n} (h : Basic i) : asRead i = i := by
  cases i <;> first | rfl | exact h.elim

/-- An instruction that names a register for the CFA names one that the field can hold. -/
def SmallCfaReg : Instr n → Prop
  | .defCfa r _ | .defCfaRegister r => r.toNat < 0xffff
  | _ => True

instance : DecidablePred (SmallCfaReg (n := n))
  | .defCfa r _ | .defCfaRegister r => Nat.decLt r.toNat 0xffff
  | .nop | .setLoc _ | .advanceLoc _ | .advanceLoc1 _ | .advanceLoc2 _ | .advanceLoc4 _
  | .offset _ _ | .restore _ | .defCfaOffset _ | .offsetExtended _ _ | .restoreExtended _
  | .undefined _ | .sameValue _ | .register _ _ | .rememberState | .restoreState
  | .defCfaExpression _ | .expression _ _ | .offsetExtendedSf _ _ | .defCfaSf _ _
  | .defCfaOffsetSf _ | .valOffset _ _ | .valOffsetSf _ _ | .valExpression _ _ =>
      instDecidableTrue

/-- A basic program with operands that the readers accept. -/
def BasicProgram (prog : List (Instr n)) : Prop :=
  ∀ i ∈ prog, Basic i ∧ Readable i ∧ SmallCfaReg i

instance : DecidablePred (BasicProgram (n := n)) := fun prog =>
  inferInstanceAs (Decidable (∀ i ∈ prog, _))

/-! ### Rows that can be tracked -/

/-- A basic program keeps the row one that can be held. -/
lemma trackable_exec {prog : List (Instr n)} {dataAlign : ℤ} {init : Row} {M : Machine}
    (hprog : BasicProgram prog) (hinit : Trackable init) (hM : Trackable M.row) :
    Trackable (exec dataAlign init M prog).row := by
  refine ⟨tracked_exec (fun i hi => (hprog i hi).1.passable) hinit.toTracked hM.toTracked, ?_⟩
  induction prog generalizing M with
  | nil => exact hM.reg
  | cons i prog ih =>
      obtain ⟨hi, -, hreg⟩ := hprog i List.mem_cons_self
      have hstep : Trackable (i.apply dataAlign init M).row := by
        refine ⟨tracked_apply hi.passable hinit.toTracked hM.toTracked, ?_⟩
        cases i with
        | defCfa r x | defCfaRegister r =>
            rintro _ ⟨⟩
            exact hreg
        | _ => first | exact hM.reg | exact hi.elim
      exact ih (fun j hj => hprog j (List.mem_cons_of_mem _ hj)) hstep

/-! ### Locations -/

/-- Every location of a table that stays below `2 ^ 64` is that of its first row or of the
rest. -/
lemma table_bound_tail {dataAlign : ℤ} {init : Row} {loc : ℕ} {M : Machine} {i : Instr n}
    {prog : List (Instr n)}
    (h : ∀ r ∈ table (naturalAddressing cie) dataAlign init loc M (i :: prog), r.1 < 2 ^ 64) :
    match i.location (naturalAddressing cie) loc with
    | some loc' => loc' < 2 ^ 64 ∧
        ∀ r ∈ table (naturalAddressing cie) dataAlign init loc' M prog, r.1 < 2 ^ 64
    | none => ∀ r ∈ table (naturalAddressing cie) dataAlign init loc
        (i.apply dataAlign init M) prog, r.1 < 2 ^ 64 := by
  rw [table] at h
  cases hloc : i.location (naturalAddressing cie) loc with
  | none =>
      rw [hloc] at h
      exact h
  | some loc' =>
      rw [hloc] at h
      obtain ⟨row, t, ht⟩ := table_head (naturalAddressing cie) dataAlign init loc' M prog
      refine ⟨h (loc', row) ?_, fun r hr => h r (List.mem_cons_of_mem _ hr)⟩
      dsimp only
      rw [ht]
      exact List.mem_cons_of_mem _ List.mem_cons_self

/-- Below `2 ^ 64` the early stop is the same on words. -/
lemma executed_word (pc : UInt64) {dataAlign : ℤ} {init : Row} {loc : ℕ} {M : Machine}
    {prog : List (Instr n)}
    (h : ∀ r ∈ table (naturalAddressing cie) dataAlign init loc M prog, r.1 < 2 ^ 64) :
    executed (wordAddressing cie) pc (UInt64.ofNat loc) prog =
        executed (naturalAddressing cie) pc.toNat loc prog ∧
      (Passes (wordAddressing cie) pc (UInt64.ofNat loc) prog ↔
        Passes (naturalAddressing cie) pc.toNat loc prog) := by
  induction prog generalizing loc M with
  | nil => exact ⟨rfl, Iff.rfl⟩
  | cons i prog ih =>
      have htail := table_bound_tail h
      rw [executed, executed, Passes, Passes, location_word]
      cases hloc : i.location (naturalAddressing cie) loc with
      | none =>
          rw [hloc] at htail
          obtain ⟨hex, hpass⟩ := ih htail
          exact ⟨congrArg (i :: ·) hex, hpass⟩
      | some loc' =>
          rw [hloc] at htail
          obtain ⟨hex, hpass⟩ := ih htail.2
          have hlt := ofNat_lt_iff pc htail.1
          rw [Option.map_some]
          dsimp only
          refine ⟨?_, or_congr hlt hpass⟩
          rw [hex]
          exact if_congr hlt rfl rfl

/-! ### The run -/

/-- The loop of `execute_cfi` in front of a basic program: it ends well, with what the
instructions in front of the first one beyond the target make of the row.  Bytes may follow a
program that goes beyond the target. -/
theorem ends_basic (pcBegin pc : UInt64) (s : CfiLoop) (init : Row) (M : Machine)
    {prog : List (Instr n)} {tail : List UInt8} (hn : cie.addressSize.toNat = n)
    (hprog : BasicProgram prog)
    (htail : tail = [] ∨ Passes (wordAddressing cie) pc (pcBegin + s.pcOffset) prog)
    (hs : s.state = rowState M.row) (h : Span m s.cursor stop (encode prog ++ tail)) :
    Ends (cfiTurn m cie stop pcBegin pc (rowState init)) s (.ok, rowState
      (exec cie.dataAlign.toInt init M
        (executed (wordAddressing cie) pc (pcBegin + s.pcOffset) prog)).row) := by
  have hout (s : CfiLoop) (hc : ¬ s.cursor < stop) :
      Ends (cfiTurn m cie stop pcBegin pc (rowState init)) s (.ok, s.state) := by
    refine .done ?_
    rw [cfiTurn, if_neg hc]
  induction prog generalizing s M with
  | nil =>
      obtain rfl : tail = [] := htail.resolve_right id
      rw [executed, exec_nil, ← hs]
      exact hout s fun hc => absurd rfl (h.lt_iff.mp hc)
  | cons i prog ih =>
      obtain ⟨hi, hr, -⟩ := hprog i List.mem_cons_self
      have hprog' : BasicProgram prog := fun j hj => hprog j (List.mem_cons_of_mem _ hj)
      rw [encode_cons, List.append_assoc] at h
      rw [Passes] at htail
      rw [executed]
      cases hloc : i.location (wordAddressing cie) (pcBegin + s.pcOffset) with
      | none =>
          rw [hloc] at htail
          have hturn := cfiTurn_updates pcBegin pc init hi.passable hloc hs h
          rw [if_pos hr, hi.asRead_eq] at hturn
          exact .next hturn (ih _ _ hprog' htail rfl h.append)
      | some loc' =>
          rw [hloc] at htail
          have hturn := cfiTurn_moves pc (rowState init) hn hloc hr h
          dsimp only at htail ⊢
          by_cases hpass : pc < loc'
          · rw [if_pos hpass, exec_nil, ← hs]
            rcases hturn.beyond hpass with hdone | ⟨off, hend⟩
            · exact .done hdone
            · exact .next hend (hout _ (UInt64.lt_irrefl _))
          · have hback : pcBegin + (loc' - pcBegin) = loc' := by grind
            have htail' : tail = [] ∨
                Passes (wordAddressing cie) pc (pcBegin + (loc' - pcBegin)) prog := by
              rw [hback]
              exact htail.imp id fun hp => hp.resolve_left hpass
            have hrest := ih ⟨s.cursor + UInt64.ofNat i.bytes.length, loc' - pcBegin, s.state⟩ M
              hprog' htail' hs h.append
            rw [hback] at hrest
            rw [if_neg hpass, exec_cons, Instr.apply_of_location hloc]
            exact .next (hturn.within hpass) hrest

/-- Below the largest target a program runs to its end. -/
lemma executed_max (loc : UInt64) (prog : List (Instr n)) :
    executed (wordAddressing cie) 0xffffffffffffffff loc prog = prog := by
  induction prog generalizing loc with
  | nil => rfl
  | cons i prog ih =>
      rw [executed]
      cases hloc : i.location (wordAddressing cie) loc with
      | none => exact congrArg (i :: ·) (ih loc)
      | some loc' =>
          have hnot : ¬ (0xffffffffffffffff : UInt64) < loc' := by
            have hlt := loc'.toNat_lt
            rw [UInt64.lt_iff_toNat_lt]
            have : (0xffffffffffffffff : UInt64).toNat = 2 ^ 64 - 1 := rfl
            omega
          dsimp only
          rw [if_neg hnot, ih]

/-- The row after the initial instructions of a CIE. -/
def initialRow (cie : CieRecord) (prog : List (Instr n)) : Row :=
  (exec cie.dataAlign.toInt defaultRow ⟨defaultRow, []⟩ prog).row

/-- The unwind table of an FDE. -/
def fdeTable (cie : CieRecord) (fde : FdeRecord) (cieProg fdeProg : List (Instr n)) :
    List (ℕ × Row) :=
  table (naturalAddressing cie) cie.dataAlign.toInt (initialRow cie cieProg)
    fde.pcBegin.toNat ⟨initialRow cie cieProg, []⟩ fdeProg

/-- `execute_cfi` on the program of a CIE and then on the program of an FDE leaves the last row
of the whole table whose location is not beyond the target, whatever bytes follow a program
that goes beyond the target. -/
theorem executeCfi_table {fde : FdeRecord} {cieProg fdeProg : List (Instr 8)}
    {tail : List UInt8} (haddr : cie.addressSize = 8) (hcieProg : BasicProgram cieProg)
    (hfdeProg : BasicProgram fdeProg)
    (hcie : Span m cie.instructions (cie.instructions + cie.instructionsSize) (encode cieProg))
    (hfde : Span m fde.instructions (fde.instructions + fde.instructionsSize)
      (encode fdeProg ++ tail))
    (hpc : fde.pcBegin ≤ pc)
    (hmono : ((fdeTable cie fde cieProg fdeProg).map (·.1)).Pairwise (· ≤ ·))
    (hbound : ∀ r ∈ fdeTable cie fde cieProg fdeProg, r.1 < 2 ^ 64)
    (htail : tail = [] ∨
      Passes (naturalAddressing cie) pc.toNat fde.pcBegin.toNat fdeProg) :
    ∃ row, lastRow (fdeTable cie fde cieProg fdeProg) pc.toNat = some row ∧ Trackable row ∧
      executeCfi m cie cie.instructions cie.instructionsSize fde.pcBegin 0xffffffffffffffff
        cfaStateReset cfaStateReset = (.ok, rowState (initialRow cie cieProg)) ∧
      executeCfi m cie fde.instructions fde.instructionsSize fde.pcBegin pc
        (rowState (initialRow cie cieProg)) (rowState (initialRow cie cieProg)) =
          (.ok, rowState row) := by
  have hn : cie.addressSize.toNat = 8 := by
    rw [haddr]
    rfl
  have hinit : Trackable (initialRow cie cieProg) :=
    trackable_exec hcieProg represents_default.1 represents_default.1
  obtain ⟨post, hpost⟩ :=
    executed_prefix (naturalAddressing cie) pc.toNat fde.pcBegin.toNat fdeProg
  have hexecuted : BasicProgram
      (executed (naturalAddressing cie) pc.toNat fde.pcBegin.toNat fdeProg) := by
    intro i hi
    refine hfdeProg i ?_
    rw [hpost]
    exact List.mem_append_left _ hi
  have hlast := lastRow_table (UInt64.le_iff_toNat_le.mp hpc) hmono
  refine ⟨_, hlast, trackable_exec hexecuted hinit hinit, ?_, ?_⟩
  · rw [← List.append_nil (encode cieProg)] at hcie
    have hends := ends_basic fde.pcBegin 0xffffffffffffffff
      ⟨cie.instructions, 0, cfaStateReset⟩ defaultRow ⟨defaultRow, []⟩ hn hcieProg (.inl rfl)
      rfl hcie
    rw [executed_max] at hends
    exact (executeCfi_ends _ _ _ _ _ _ hcie.add_lt).unique hends
  · obtain ⟨hex, hpass⟩ := executed_word pc hbound
    rw [UInt64.ofNat_toNat] at hex hpass
    rw [← hpass] at htail
    have hends := ends_basic fde.pcBegin pc
      ⟨fde.instructions, 0, rowState (initialRow cie cieProg)⟩ (initialRow cie cieProg)
      ⟨initialRow cie cieProg, []⟩ hn hfdeProg
      (by rwa [UInt64.add_zero]) rfl hfde
    rw [UInt64.add_zero, hex] at hends
    exact (executeCfi_ends _ _ _ _ _ _ hfde.add_lt).unique hends

/-! ### The program of a prologue -/

/-- The initial instructions of the x86-64 ABI. -/
def prologueCieProgram : List (Instr 8) :=
  [.defCfa rspReg (.ofNat 8), .offset 16 (.ofNat 1)]

/-- A push, and then a second one. -/
def prologueFdeProgram : List (Instr 8) :=
  [.advanceLoc 1, .defCfaOffset (.ofNat 16), .offset 6 (.ofNat 2), .advanceLoc 4]

/-- Both programs, and bytes that are no program behind them. -/
def prologueMemory : ByteMem :=
  memOf 0x1000 (encode prologueCieProgram ++ (encode prologueFdeProgram ++ [0x13, 0xff]))

def prologueCie : CieRecord :=
  { version := 1
    addressSize := 8
    returnReg := 16
    ptrEncoding := 0
    dataAlign := -8
    codeAlign := 1
    offset := 0
    augmentation := 0x1000
    augmentationLen := 0
    instructions := 0x1000
    instructionsSize := 5 }

def prologueFde : FdeRecord := ⟨⟨none, 0⟩, 0, 0x400000, 0x100, 0x1005, 8⟩

/-- The row behind the second instruction of a prologue. -/
theorem prologue_table : ∃ row,
    lastRow (fdeTable prologueCie prologueFde prologueCieProgram prologueFdeProgram)
      (0x400003 : UInt64).toNat = some row ∧ Trackable row ∧
    executeCfi prologueMemory prologueCie prologueCie.instructions prologueCie.instructionsSize
      prologueFde.pcBegin 0xffffffffffffffff cfaStateReset cfaStateReset =
        (.ok, rowState (initialRow prologueCie prologueCieProgram)) ∧
    executeCfi prologueMemory prologueCie prologueFde.instructions prologueFde.instructionsSize
      prologueFde.pcBegin 0x400003 (rowState (initialRow prologueCie prologueCieProgram))
      (rowState (initialRow prologueCie prologueCieProgram)) = (.ok, rowState row) := by
  have hcie : Span prologueMemory prologueCie.instructions
      (prologueCie.instructions + prologueCie.instructionsSize) (encode prologueCieProgram) :=
    ⟨by decide +kernel, by decide +kernel⟩
  have hfde : Span prologueMemory prologueFde.instructions
      (prologueFde.instructions + prologueFde.instructionsSize)
      (encode prologueFdeProgram ++ [0x13, 0xff]) := ⟨by decide +kernel, by decide +kernel⟩
  refine executeCfi_table rfl (by decide +kernel) (by decide +kernel) hcie hfde (by decide)
    (by decide +kernel) (by decide +kernel) (.inr ?_)
  exact .inr (.inl (by decide +kernel))

end Dwunw
