import Dwunw.Cfi.ApplyRow

/-!
The ranges of addresses, counted exactly.

`dwunw_cfi_find_fde` and `dwunw_cfi_eval` compare an address with the sum of the start and the
size of a range, and `execute_cfi` with the sum of the start and the advances; all three sums
are taken modulo 2^64.

* `FdeRecord.Holds`, `FdeRecord.Fits`, `covers_iff`: a range as a set of addresses, and the
  test of the code.
* `findExact_iff`, `guardExact_iff`: the lookup and the guard.
* `exactAdvance`, `locatedTurn`: where an instruction advances to, and the run with the exact
  location beside it; `cfiTurn_located`: what a turn does to it.
* `stopsExact_iff`: the row search; `pcRanges_exact_iff`: all three.
-/

namespace Dwunw

open Loop Traced

variable {m : ByteMem} {cie : CieRecord} {fde : FdeRecord} {fdes : List FdeRecord}
  {pc : UInt64}

/-! ### The range of an FDE -/

/-- The address is in the range of the FDE. -/
def FdeRecord.Holds (fde : FdeRecord) (pc : UInt64) : Prop :=
  fde.pcBegin.toNat ≤ pc.toNat ∧ pc.toNat < fde.pcBegin.toNat + fde.pcRange.toNat

instance (fde : FdeRecord) (pc : UInt64) : Decidable (fde.Holds pc) :=
  inferInstanceAs (Decidable (_ ∧ _))

/-- The range ends below the top of the address space. -/
def FdeRecord.Fits (fde : FdeRecord) : Prop :=
  fde.pcBegin.toNat + fde.pcRange.toNat < 2 ^ 64

instance (fde : FdeRecord) : Decidable fde.Fits := inferInstanceAs (Decidable (_ < _))

/-- The test of the code takes a range that does not fit for empty. -/
lemma FdeRecord.covers_iff : fde.Covers pc ↔ fde.Holds pc ∧ fde.Fits := by
  have hadd := UInt64.toNat_add fde.pcBegin fde.pcRange
  have hbegin := fde.pcBegin.toNat_lt
  have hrange := fde.pcRange.toNat_lt
  rw [Covers, Holds, Fits, UInt64.le_iff_toNat_le, UInt64.lt_iff_toNat_lt, hadd]
  omega

/-- `dwunw_cfi_find_fde` returns the first FDE whose range has the address. -/
def FindExact (fdes : List FdeRecord) (pc : UInt64) : Prop :=
  cfiFindFde fdes pc = fdes.findIdx? fun fde => decide (fde.Holds pc)

/-- The first FDE whose range has the address ends below the top of the address space. -/
def FindFits (fdes : List FdeRecord) (pc : UInt64) : Prop :=
  ∀ fde, fdes.find? (fun fde => decide (fde.Holds pc)) = some fde → fde.Fits

lemma cfiFindFde_covers (fdes : List FdeRecord) (pc : UInt64) :
    cfiFindFde fdes pc = fdes.findIdx? fun fde => decide (fde.Covers pc) := by
  rw [cfiFindFde]
  congr 1
  funext fde
  rw [← Bool.decide_and]
  rfl

lemma cfiFindFde_eq (fdes : List FdeRecord) (pc : UInt64) :
    cfiFindFde fdes pc = fdes.findIdx? fun fde => decide (fde.Holds pc ∧ fde.Fits) := by
  rw [cfiFindFde_covers]
  congr 1
  funext fde
  exact decide_eq_decide.mpr FdeRecord.covers_iff

/-- The search finds the first entry that holds an address, or none where none does, exactly when
that entry does not end past the top of the address space. -/
theorem findExact_iff : FindExact fdes pc ↔ FindFits fdes pc := by
  rw [FindExact, FindFits, cfiFindFde_eq]
  induction fdes with
  | nil => simp
  | cons fde fdes ih =>
      rw [List.findIdx?_cons, List.findIdx?_cons, List.find?_cons]
      by_cases hholds : fde.Holds pc
      · by_cases hfits : fde.Fits
        · simp [hholds, hfits]
        · simp [hholds, hfits]
      · simp only [hholds, false_and, decide_false, Bool.false_eq_true, if_false]
        rw [← ih]
        exact ⟨fun h => Option.map_injective Nat.succ_injective h, congrArg _⟩

/-! ### The turns of a program -/

variable {stop pcBegin targetPc : UInt64} {initial : CfaState}

/-- The location an operand gives, and the cursor behind it. -/
def operandLocation (r : Except Status (UInt64 × UInt64)) (location : ℕ → ℕ) :
    Option (ℕ × UInt64) :=
  match r with
  | .error _ => none
  | .ok (v, cursor) => some (location v.toNat, cursor)

/-- The location, counted exactly from `loc`, that the instruction at the cursor advances to if
it is one of those, and the cursor behind it. -/
def exactAdvance (m : ByteMem) (cie : CieRecord) (stop : UInt64) (s : CfiLoop) (loc : ℕ) :
    Option (ℕ × UInt64) :=
  if s.cursor < stop then
    let opcode := m s.cursor
    let operand (size : UInt64) := (readFixedSize (s.cursor + 1) stop size).val m
    if opcode &&& 0xc0 = 0x40 then
      some (loc + (opcode &&& 0x3f).toNat * cie.codeAlign.toNat, s.cursor + 1)
    else if opcode &&& 0xc0 = 0x80 then none
    else if opcode &&& 0xc0 = 0xc0 then none
    else if opcode = 0x00 then none
    else if opcode = 0x01 then operandLocation (operand cie.addressSize.toUInt64) id
    else if opcode = 0x02 then
      operandLocation (operand 1) fun delta => loc + delta * cie.codeAlign.toNat
    else if opcode = 0x03 then
      operandLocation (operand 2) fun delta => loc + delta * cie.codeAlign.toNat
    else if opcode = 0x04 then
      operandLocation (operand 4) fun delta => loc + delta * cie.codeAlign.toNat
    else none
  else none

/-- A turn that advances to a location, or that is not about locations, if there is none. -/
inductive LocatedTurn (stop pcBegin targetPc : UInt64) (s : CfiLoop) :
    Option (ℕ × UInt64) → Turn CfiLoop (Status × CfaState) → Prop
  | failed : LocatedTurn stop pcBegin targetPc s none (.done (.badFormat, s.state))
  | givesUp : LocatedTurn stop pcBegin targetPc s none (.done (.notImplemented, s.state))
  | ended : LocatedTurn stop pcBegin targetPc s none (.done (.ok, s.state))
  | stays {cursor : UInt64} {row : CfaState} :
      LocatedTurn stop pcBegin targetPc s none (.next ⟨cursor, s.pcOffset, row⟩)
  | breaks {loc : ℕ} {cursor : UInt64} (h : targetPc.toNat < loc % 2 ^ 64) :
      LocatedTurn stop pcBegin targetPc s (some (loc, cursor)) (.done (.ok, s.state))
  | skips {loc : ℕ} {cursor pcOffset : UInt64} (h : targetPc.toNat < loc % 2 ^ 64)
      (hloc : (pcBegin + pcOffset).toNat = loc % 2 ^ 64) :
      LocatedTurn stop pcBegin targetPc s (some (loc, cursor)) (.next ⟨stop, pcOffset, s.state⟩)
  | passes {loc : ℕ} {cursor pcOffset : UInt64} (h : loc % 2 ^ 64 ≤ targetPc.toNat)
      (hloc : (pcBegin + pcOffset).toNat = loc % 2 ^ 64) :
      LocatedTurn stop pcBegin targetPc s (some (loc, cursor)) (.next ⟨cursor, pcOffset, s.state⟩)

section LocatedTurn

variable {s : CfiLoop}

lemma LocatedTurn.ite {P : Prop} [Decidable P] {at? at?' : Option (ℕ × UInt64)}
    {t e : Turn CfiLoop (Status × CfaState)} (ht : LocatedTurn stop pcBegin targetPc s at? t)
    (he : LocatedTurn stop pcBegin targetPc s at?' e) :
    LocatedTurn stop pcBegin targetPc s (if P then at? else at?') (if P then t else e) := by
  split_ifs
  · exact ht
  · exact he

/-- An arm of the interpreter that is not about locations. -/
lemma LocatedTurn.arm {P : Prop} [Decidable P] {t e : Turn CfiLoop (Status × CfaState)}
    (ht : LocatedTurn stop pcBegin targetPc s none t)
    (he : LocatedTurn stop pcBegin targetPc s none e) :
    LocatedTurn stop pcBegin targetPc s none (if P then t else e) := by
  split_ifs
  · exact ht
  · exact he

lemma LocatedTurn.onRead {α : Type} {x : Except Status (α × UInt64)}
    {k : α → UInt64 → Turn CfiLoop (Status × CfaState)}
    (hx : ∀ st, x = .error st → st = .badFormat)
    (hk : ∀ v c, LocatedTurn stop pcBegin targetPc s none (k v c)) :
    LocatedTurn stop pcBegin targetPc s none (Dwunw.onRead s x k) := by
  rcases x with st | ⟨v, c⟩
  · obtain rfl := hx st rfl
    exact .failed
  · exact hk v c

lemma LocatedTurn.uleb {c : UInt64} {k : UInt64 → UInt64 → Turn CfiLoop (Status × CfaState)}
    (hk : ∀ v c, LocatedTurn stop pcBegin targetPc s none (k v c)) :
    LocatedTurn stop pcBegin targetPc s none (Dwunw.onRead s ((readUleb c stop).val m) k) :=
  .onRead (fun _ => readUleb_error) hk

lemma LocatedTurn.sleb {c : UInt64} {k : Int64 → UInt64 → Turn CfiLoop (Status × CfaState)}
    (hk : ∀ v c, LocatedTurn stop pcBegin targetPc s none (k v c)) :
    LocatedTurn stop pcBegin targetPc s none (Dwunw.onRead s ((readSleb c stop).val m) k) :=
  .onRead (fun _ => readSleb_error) hk

/-- The location opcodes of the `switch`. -/
lemma LocatedTurn.location {c size : UInt64} {newOffset : UInt64 → UInt64} {location : ℕ → ℕ}
    (hloc : ∀ v, (pcBegin + newOffset v).toNat = location v.toNat % 2 ^ 64) :
    LocatedTurn stop pcBegin targetPc s
      (operandLocation ((readFixedSize c stop size).val m) location)
      (locationTurn m stop pcBegin targetPc s c size newOffset) := by
  rw [locationTurn]
  rcases hr : (readFixedSize c stop size).val m with st | ⟨v, c'⟩
  · obtain rfl := readFixedSize_error hr
    exact .failed
  · rw [onRead_ok, operandLocation]
    have hlt : targetPc < pcBegin + newOffset v ↔ targetPc.toNat < location v.toNat % 2 ^ 64 := by
      rw [UInt64.lt_iff_toNat_lt, hloc]
    by_cases h : targetPc < pcBegin + newOffset v
    · rw [if_pos h]
      exact .skips (hlt.mp h) (hloc v)
    · rw [if_neg h]
      exact .passes (Nat.not_lt.mp fun h' => h (hlt.mpr h')) (hloc v)

end LocatedTurn

/-- The new offset stands for the new location. -/
lemma toNat_advance {offset delta align : UInt64} {loc : ℕ}
    (h : (pcBegin + offset).toNat = loc % 2 ^ 64) :
    (pcBegin + (offset + delta * align)).toNat =
      (loc + delta.toNat * align.toNat) % 2 ^ 64 := by
  rw [← UInt64.add_assoc, UInt64.toNat_add, UInt64.toNat_mul, h, ← Nat.add_mod]

/-- What a turn does to the location. -/
theorem cfiTurn_located (m : ByteMem) (cie : CieRecord) (stop targetPc : UInt64)
    (initial : CfaState) {s : CfiLoop} {loc : ℕ}
    (h : (pcBegin + s.pcOffset).toNat = loc % 2 ^ 64) :
    LocatedTurn stop pcBegin targetPc s (exactAdvance m cie stop s loc)
      (cfiTurn m cie stop pcBegin targetPc initial s) := by
  rw [cfiTurn, exactAdvance]
  refine .ite ?_ .ended
  dsimp only
  refine .ite ?_ ?_
  · -- `DW_CFA_advance_loc`
    have hloc : (pcBegin + (s.pcOffset + (m s.cursor &&& 0x3f).toUInt64 * cie.codeAlign)).toNat =
        (loc + (m s.cursor &&& 0x3f).toNat * cie.codeAlign.toNat) % 2 ^ 64 := by
      rw [toNat_advance h, UInt8.toNat_toUInt64]
    split_ifs with hlt
    · rw [UInt64.lt_iff_toNat_lt, hloc] at hlt
      exact .breaks hlt
    · rw [UInt64.lt_iff_toNat_lt, hloc, Nat.not_lt] at hlt
      exact .passes hlt hloc
  refine .ite (.uleb fun _ _ => .stays) <| .ite .stays ?_
  rw [cfiSwitch]
  refine .ite .stays <| .ite (.location fun v => ?_) <|
    .ite (.location fun v => toNat_advance h) <| .ite (.location fun v => toNat_advance h) <|
    .ite (.location fun v => toNat_advance h) ?_
  · -- `DW_CFA_set_loc`
    rw [show pcBegin + (v - pcBegin) = v by grind]
    exact (Nat.mod_eq_of_lt v.toNat_lt).symm
  · exact .arm (.uleb fun _ _ => .uleb fun _ _ => .stays) <| .arm (.uleb fun _ _ => .stays) <|
      .arm (.uleb fun _ _ => .stays) <| .arm .givesUp <| .arm .givesUp <|
      .arm (.uleb fun _ _ => .uleb fun _ _ => .stays) <| .arm (.uleb fun _ _ => .stays) <|
      .arm (.uleb fun _ _ => .sleb fun _ _ => .stays) <| .arm (.sleb fun _ _ => .stays) .givesUp

/-! ### The row search -/

/-- A turn of `execute_cfi` with the exact location beside the variables. -/
def locatedTurn (m : ByteMem) (cie : CieRecord) (stop pcBegin targetPc : UInt64)
    (initial : CfaState) (x : CfiLoop × ℕ) : Turn (CfiLoop × ℕ) (Status × CfaState) :=
  match cfiTurn m cie stop pcBegin targetPc initial x.1 with
  | .next s => .next (s, (exactAdvance m cie stop x.1 x.2).elim x.2 Prod.fst)
  | .done r => .done r

/-- Nothing behind this turn is executed. -/
def StopsAt (stop : UInt64) (t : Turn CfiLoop (Status × CfaState)) : Prop :=
  ∀ s, t = .next s → stop ≤ s.cursor

/-- A run of a program up to `targetPc` stops at an instruction that advances to a location,
with others behind it, exactly when the location is past `targetPc`. -/
def StopsExact (m : ByteMem) (cie : CieRecord) (program size pcBegin targetPc : UInt64)
    (state initial : CfaState) : Prop :=
  ∀ s loc, Reaches (locatedTurn m cie (program + size) pcBegin targetPc initial)
      (⟨program, 0, state⟩, pcBegin.toNat) (s, loc) →
    ∀ loc' cursor, exactAdvance m cie (program + size) s loc = some (loc', cursor) →
      cursor < program + size →
        (StopsAt (program + size) (cfiTurn m cie (program + size) pcBegin targetPc initial s) ↔
          targetPc.toNat < loc')

/-- No instruction with others behind it advances past the top of the address space to a
location that is not past `targetPc` modulo 2^64. -/
def AdvancesFit (m : ByteMem) (cie : CieRecord) (program size pcBegin targetPc : UInt64)
    (state initial : CfaState) : Prop :=
  ∀ s loc, Reaches (locatedTurn m cie (program + size) pcBegin targetPc initial)
      (⟨program, 0, state⟩, pcBegin.toNat) (s, loc) →
    ∀ loc' cursor, exactAdvance m cie (program + size) s loc = some (loc', cursor) →
      cursor < program + size → 2 ^ 64 ≤ loc' → targetPc.toNat < loc' % 2 ^ 64

section Search

variable {program size : UInt64} {state : CfaState}

/-- The offset stands for the location at every turn of a run. -/
lemma locatedTurn_reaches {s : CfiLoop} {loc : ℕ}
    (h : Reaches (locatedTurn m cie stop pcBegin targetPc initial)
      (⟨program, 0, state⟩, pcBegin.toNat) (s, loc)) :
    (pcBegin + s.pcOffset).toNat = loc % 2 ^ 64 := by
  refine h.invariant (I := fun x => (pcBegin + x.1.pcOffset).toNat = x.2 % 2 ^ 64)
    (fun x x' hx hnext => ?_) ?_
  · have hturn := cfiTurn_located m cie stop targetPc initial hx
    rw [locatedTurn] at hnext
    generalize cfiTurn m cie stop pcBegin targetPc initial x.1 = t at hnext hturn
    generalize exactAdvance m cie stop x.1 x.2 = at? at hnext hturn
    cases hturn with
    | failed => cases hnext
    | givesUp => cases hnext
    | ended => cases hnext
    | breaks _ => cases hnext
    | stays =>
        cases hnext
        exact hx
    | skips _ hloc =>
        cases hnext
        exact hloc
    | passes _ hloc =>
        cases hnext
        exact hloc
  · show (pcBegin + 0).toNat = pcBegin.toNat % 2 ^ 64
    rw [UInt64.add_zero, Nat.mod_eq_of_lt pcBegin.toNat_lt]

/-- The code stops at an advance by the location modulo 2^64. -/
lemma stopsAt_iff {s : CfiLoop} {loc loc' : ℕ} {cursor : UInt64}
    (hs : (pcBegin + s.pcOffset).toNat = loc % 2 ^ 64)
    (h : exactAdvance m cie stop s loc = some (loc', cursor)) (hcursor : cursor < stop) :
    StopsAt stop (cfiTurn m cie stop pcBegin targetPc initial s) ↔
      targetPc.toNat < loc' % 2 ^ 64 := by
  have hturn := cfiTurn_located m cie stop targetPc initial hs
  rw [h] at hturn
  generalize cfiTurn m cie stop pcBegin targetPc initial s = t at hturn
  cases hturn with
  | breaks hlt => exact iff_of_true (fun _ h => by cases h) hlt
  | skips hlt _ =>
      refine iff_of_true (fun s' h => ?_) hlt
      cases h
      exact UInt64.le_refl stop
  | passes hle _ =>
      refine iff_of_false (fun hstops => ?_) (Nat.not_lt.mpr hle)
      exact absurd hcursor (UInt64.not_lt.mpr (hstops _ rfl))

/-- A program stops in front of the first location behind the target exactly when no location
passes 2^64. -/
theorem stopsExact_iff :
    StopsExact m cie program size pcBegin targetPc state initial ↔
      AdvancesFit m cie program size pcBegin targetPc state initial := by
  have htarget := targetPc.toNat_lt
  constructor
  · intro hexact s loc hreach loc' cursor hadv hcursor hwraps
    exact (stopsAt_iff (locatedTurn_reaches hreach) hadv hcursor).mp
      ((hexact s loc hreach loc' cursor hadv hcursor).mpr (htarget.trans_le hwraps))
  · intro hfit s loc hreach loc' cursor hadv hcursor
    rw [stopsAt_iff (locatedTurn_reaches hreach) hadv hcursor]
    refine ⟨fun h => h.trans_le (Nat.mod_le _ _), fun h => ?_⟩
    by_cases hwraps : 2 ^ 64 ≤ loc'
    · exact hfit s loc hreach loc' cursor hadv hcursor hwraps
    · rwa [Nat.mod_eq_of_lt (Nat.not_le.mp hwraps)]

end Search

/-! ### The guard of an evaluation -/

/-- `execute_cfi` has its own failures only. -/
lemma executeCfi_ne_invalidArg (program size : UInt64) (state : CfaState) :
    (executeCfi m cie program size pcBegin targetPc state initial).1 ≠ .invalidArg := by
  have hends := ends_of_run (executeCfi_run m cie program size pcBegin targetPc state initial)
  refine hends.of_invariant (I := fun _ => True) (Q := fun r => r.1 ≠ .invalidArg)
    (fun _ _ _ _ => trivial) (fun s r _ h => ?_) trivial
  have hturn := cfiTurn_located m cie (program + size) targetPc initial
    (Nat.mod_eq_of_lt (pcBegin + s.pcOffset).toNat_lt).symm
  rw [h] at hturn
  generalize exactAdvance m cie (program + size) s _ = at? at hturn
  cases hturn with
  | failed => exact Status.noConfusion
  | givesUp => exact Status.noConfusion
  | ended => exact Status.noConfusion
  | breaks _ => exact Status.noConfusion

lemma cfiRow_ne_invalidArg : cfiRow m cie fde pc ≠ .error .invalidArg := by
  intro h
  rw [cfiRow] at h
  dsimp only at h
  split at h
  · exact executeCfi_ne_invalidArg _ _ _ (Except.error.inj h)
  · split at h
    · exact executeCfi_ne_invalidArg _ _ _ (Except.error.inj h)
    · split at h <;> cases h

/-- Some evaluation of the FDE for the address is not refused with `DWUNW_ERR_INVALID_ARG`
before anything is read. -/
def GuardAccepts (m : ByteMem) (cie : CieRecord) (fde : FdeRecord) (pc : UInt64) : Prop :=
  ∃ (σ : Type) (reader : MemoryRead σ) (regs : Regset) (ctx : σ) (frame : Frame),
    cfiEval m cie fde pc regs reader ctx frame ≠ some ⟨.invalidArg, regs, frame, ctx⟩

lemma guardAccepts_iff : GuardAccepts m cie fde pc ↔ fde.Covers pc := by
  constructor
  · rintro ⟨σ, reader, regs, ctx, frame, hne⟩
    by_contra hpc
    rw [cfiEval, if_pos (FdeRecord.not_covers_iff.mp hpc)] at hne
    exact hne rfl
  · intro hpc
    refine ⟨Unit, ownAddress, savedRegs, (), ⟨0, 0, 0, 0, 0, []⟩, fun h => ?_⟩
    cases cfiEval_evaluation (failsWithError_of_total ownAddress_total) h with
    | outside hout => exact hout hpc
    | noRow _ _ hrow => exact cfiRow_ne_invalidArg hrow
    | applies _ hrow hret _ =>
        obtain ⟨ev, hev, hok, -⟩ := cfiEval_succeeds ownAddress_total hpc hrow hret
          savedRegs () ⟨0, 0, 0, 0, 0, []⟩
        rw [h] at hev
        cases hev
        cases hok

/-- `dwunw_cfi_eval` refuses an address that is not in the range of the FDE, and no other. -/
def GuardExact (m : ByteMem) (cie : CieRecord) (fde : FdeRecord) (pc : UInt64) : Prop :=
  GuardAccepts m cie fde pc ↔ fde.Holds pc

/-- The guard lets an address through exactly when it should, unless the entry holds it and ends
past the top of the address space. -/
theorem guardExact_iff : GuardExact m cie fde pc ↔ (fde.Holds pc → fde.Fits) := by
  rw [GuardExact, guardAccepts_iff, FdeRecord.covers_iff]
  tauto

/-- The lookup, the guard of an evaluation and the row search each agree with the integers
exactly when no sum they depend on goes past the top of the address space. -/
theorem pcRanges_exact_iff {program size : UInt64} {state : CfaState} :
    (FindExact fdes pc ↔ FindFits fdes pc) ∧
    (GuardExact m cie fde pc ↔ (fde.Holds pc → fde.Fits)) ∧
    (StopsExact m cie program size pcBegin targetPc state initial ↔
      AdvancesFit m cie program size pcBegin targetPc state initial) :=
  ⟨findExact_iff, guardExact_iff, stopsExact_iff⟩

/-! ### Sums that wrap -/

/-- An FDE for the last 4096 addresses. -/
def topFde : FdeRecord := ⟨⟨some 0, 0⟩, 16, 0xfffffffffffff000, 0x1000, 0x5009, 0⟩

/-- A CIE with the code alignment factor 2^63. -/
def wideCie : CieRecord := { savedCie with codeAlign := 0x8000000000000000 }

/-- `DW_CFA_advance_loc 2; DW_CFA_def_cfa_offset 16`. -/
def wideMem : ByteMem := memOf 0x5000 [0x42, 0x0e, 16]

/-- An entry that ends at 2^64 is not found, and a location that passes 2^64 does not stop the
program. -/
theorem topFde_missed :
    (topFde.Holds 0xfffffffffffff800 ∧ cfiFindFde [topFde] 0xfffffffffffff800 = none ∧
      ¬ FindExact [topFde] 0xfffffffffffff800) ∧
    ¬ GuardExact savedMem savedCie topFde 0xfffffffffffff800 ∧
    ¬ StopsExact wideMem wideCie 0x5000 3 0x1000 0x1010 cfaStateReset cfaStateReset := by
  have hholds : topFde.Holds 0xfffffffffffff800 := by decide
  have hnone : cfiFindFde [topFde] 0xfffffffffffff800 = none := by decide
  refine ⟨⟨hholds, hnone, fun h => ?_⟩, fun h => ?_, fun h => ?_⟩
  · have hfits := findExact_iff.mp h topFde (by decide)
    exact absurd hfits (by decide)
  · exact absurd (guardExact_iff.mp h hholds) (by decide)
  · have hadvance : exactAdvance wideMem wideCie (0x5000 + 3) ⟨0x5000, 0, cfaStateReset⟩ 0x1000 =
        some (2 ^ 64 + 0x1000, 0x5001) := by
      rfl
    have hpast := stopsExact_iff.mp h _ _ (.refl _) _ _ hadvance (by decide) (by decide)
    exact absurd hpast (by decide)

end Dwunw
