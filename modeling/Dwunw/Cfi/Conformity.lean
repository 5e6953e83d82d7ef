import Dwunw.Cfi.Instructions

/-!
How far `execute_cfi` conforms to the opcode table of DWARF.

Two opcodes carry the wrong name in `execute_cfi`.  `0x11`, `DW_CFA_offset_extended_sf`, is
taken for `DW_CFA_offset_extended`: its signed operand is read unsigned.  `0x12`,
`DW_CFA_def_cfa_sf`, is taken for `DW_CFA_restore_extended`: its second operand is left to be
run as instructions.  Numbers are cut to 64 bits: the registers of `0x11`, and the locations, so
that a run may go on where a location has wrapped.

* `InStep`: every opcode a run reads is the opcode of an instruction.
* `run_inStep`, `run_outOfStep`: a run without `DW_CFA_def_cfa_sf` stays in step, and one with it
  does not, both by induction over the program.
* `standardRow`: the row a program comes to by the standard, on the locations as they are;
  `wrappedInstrs`: what a run executes beyond that.
* `RuleKept`, `CfaKept`: the registers and the CFA that come out as in the standard's row, by the
  instructions; `ruleKept_iff`, `cfaKept_iff`.
* `executeCfi_conforms_iff`: the exact condition under which a run that succeeds conforms.
-/

namespace Dwunw

open CallFrame Leb128 Loop

variable {m : ByteMem} {cie : CieRecord} {stop pcBegin pc : UInt64} {n : ℕ} {init : Row}
  {M : Machine}

/-! ### What a run reads -/

/-- Every cursor in front of the stop that a run comes to is at an instruction of the
program. -/
def InStep (m : ByteMem) (cie : CieRecord) (stop pcBegin pc : UInt64) (initial : CfaState)
    (s : CfiLoop) (prog : List (Instr n)) : Prop :=
  ∀ s', Reaches (cfiTurn m cie stop pcBegin pc initial) s s' → s'.cursor < stop →
    IsBoundary prog (s'.cursor.toNat - s.cursor.toNat)

/-- Behind the stop the run is over. -/
lemma not_lt_of_reaches {initial : CfaState} {s s' : CfiLoop}
    (hs : ¬ s.cursor < stop) (hr : Reaches (cfiTurn m cie stop pcBegin pc initial) s s') :
    ¬ s'.cursor < stop := by
  cases hr with
  | refl => exact hs
  | head hturn _ =>
      rw [cfiTurn, if_neg hs] at hturn
      cases hturn

/-- A run that goes on behind an instruction stays in step if the rest of it does. -/
lemma inStep_cons {initial : CfaState} {s s₁ : CfiLoop} {i : Instr n} {prog : List (Instr n)}
    (hturn : cfiTurn m cie stop pcBegin pc initial s = .next s₁)
    (hcur : s₁.cursor.toNat = s.cursor.toNat + i.bytes.length) :
    InStep m cie stop pcBegin pc initial s (i :: prog) ↔
      InStep m cie stop pcBegin pc initial s₁ prog := by
  have hdiff {s' : CfiLoop} (hr : Reaches (cfiTurn m cie stop pcBegin pc initial) s₁ s') :
      s'.cursor.toNat - s.cursor.toNat =
        i.bytes.length + (s'.cursor.toNat - s₁.cursor.toNat) := by
    have hle : s₁.cursor ≤ s'.cursor :=
      hr.invariant (I := fun t => s₁.cursor ≤ t.cursor)
        (fun _ _ hle ht => UInt64.le_trans hle (UInt64.le_of_lt (cfiTurn_next ht).1))
        (UInt64.le_refl _)
    rw [UInt64.le_iff_toNat_le] at hle
    omega
  constructor
  · intro h s' hr hlt
    have hb := h s' (.head hturn hr) hlt
    rwa [hdiff hr, isBoundary_cons_iff] at hb
  · intro h s' hr hlt
    cases hr with
    | refl =>
        rw [Nat.sub_self]
        exact .zero _
    | head hturn' hr =>
        rw [hturn] at hturn'
        cases hturn'
        rw [hdiff hr, isBoundary_cons_iff]
        exact h s' hr hlt

/-- The cursor behind an instruction that lies in memory. -/
lemma cursor_toNat {c : UInt64} {bs rest : List UInt8} (h : Span m c stop (bs ++ rest)) :
    (c + UInt64.ofNat bs.length).toNat = c.toNat + bs.length := by
  have hlt := h.length_lt
  rw [List.length_append] at hlt
  exact UInt64.toNat_add_ofNat (by omega)

/-- A run that succeeds has met only instructions it implements, with operands it reads. -/
lemma implemented_of_ends {i : Instr n} {s : CfiLoop} {rest : List UInt8} {t : CfaState}
    (hn : cie.addressSize.toNat = n) (hs : s.state = rowState M.row)
    (h : Span m s.cursor stop (i.bytes ++ rest))
    (hends : Ends (cfiTurn m cie stop pcBegin pc (rowState init)) s (.ok, t)) :
    Implemented i ∧ Readable i := by
  have hcontra {st : Status} (hst : st ≠ .ok)
      (hturn : cfiTurn m cie stop pcBegin pc (rowState init) s = .done (st, s.state)) : False := by
    have := (Ends.done hturn).unique hends
    cases this
    exact hst rfl
  have hi : Implemented i := by
    by_contra hi
    exact hcontra (by decide) (cfiTurn_unimplemented hi h)
  refine ⟨hi, ?_⟩
  by_contra hr
  exact hcontra (by decide) (cfiTurn_unreadable hn hi hr hs h)

/-- What is left of an ending after one turn. -/
lemma ends_tail {initial : CfaState} {s s₁ : CfiLoop} {r : Status × CfaState}
    (hends : Ends (cfiTurn m cie stop pcBegin pc initial) s r)
    (hturn : cfiTurn m cie stop pcBegin pc initial s = .next s₁) :
    Ends (cfiTurn m cie stop pcBegin pc initial) s₁ r := by
  cases hends with
  | done hd => rw [hturn] at hd; cases hd
  | next hs h => rw [hturn] at hs; cases hs; exact h

/-! ### Without `DW_CFA_def_cfa_sf` -/

/-- A run that succeeds and executes no `DW_CFA_def_cfa_sf` stays in step, and leaves what the
instructions come to as it reads them. -/
theorem run_inStep {prog : List (Instr n)} {s : CfiLoop} {t : CfaState}
    (hn : cie.addressSize.toNat = n) (hs : s.state = rowState M.row)
    (h : Span m s.cursor stop (encode prog))
    (hends : Ends (cfiTurn m cie stop pcBegin pc (rowState init)) s (.ok, t))
    (hsf : ∀ i ∈ executed (wordAddressing cie) pc (pcBegin + s.pcOffset) prog, ¬ IsDefCfaSf i) :
    (∀ i ∈ executed (wordAddressing cie) pc (pcBegin + s.pcOffset) prog, Passable i) ∧
      t = rowState (exec cie.dataAlign.toInt init M
        ((executed (wordAddressing cie) pc (pcBegin + s.pcOffset) prog).map asRead)).row ∧
      InStep m cie stop pcBegin pc (rowState init) s prog := by
  induction prog generalizing s M with
  | nil =>
      have hout : ¬ s.cursor < stop := fun hc => absurd rfl (h.lt_iff.mp hc)
      have hdone : cfiTurn m cie stop pcBegin pc (rowState init) s = .done (.ok, s.state) := by
        rw [cfiTurn, if_neg hout]
      have ht := (Ends.done hdone).unique hends
      cases ht
      exact ⟨by simp [executed], hs,
        fun s' hr hlt => absurd hlt (not_lt_of_reaches hout hr)⟩
  | cons i prog ih =>
      rw [encode_cons] at h
      obtain ⟨hi, hr⟩ := implemented_of_ends hn hs h hends
      have hcur := cursor_toNat h
      rw [executed] at hsf ⊢
      cases hloc : i.location (wordAddressing cie) (pcBegin + s.pcOffset) with
      | none =>
          rw [hloc] at hsf
          have hpass : Passable i := ⟨hi, hsf i List.mem_cons_self⟩
          have hturn := cfiTurn_updates pcBegin pc init hpass hloc hs h
          rw [if_pos hr] at hturn
          obtain ⟨hall, ht, hstep⟩ := ih rfl h.append (ends_tail hends hturn)
            fun j hj => hsf j (List.mem_cons_of_mem _ hj)
          refine ⟨?_, ht, (inStep_cons hturn hcur).mpr hstep⟩
          intro j hj
          rcases List.mem_cons.mp hj with rfl | hj
          · exact hpass
          · exact hall j hj
      | some loc' =>
          rw [hloc] at hsf
          dsimp only at hsf ⊢
          have hturn := cfiTurn_moves pc (rowState init) hn hloc hr h
          by_cases hpass : pc < loc'
          · rw [if_pos hpass]
            refine ⟨by simp, ?_, ?_⟩
            · have hexit : Ends (cfiTurn m cie stop pcBegin pc (rowState init)) s
                  (.ok, s.state) := by
                rcases hturn.beyond hpass with hdone | ⟨off, hend⟩
                · exact .done hdone
                · refine .next hend (.done ?_)
                  rw [cfiTurn, if_neg (UInt64.lt_irrefl _)]
              cases hexit.unique hends
              exact hs
            · intro s' hr' hlt
              cases hr' with
              | refl =>
                  rw [Nat.sub_self]
                  exact .zero _
              | head hnext hr' =>
                  rcases hturn.beyond hpass with hdone | ⟨off, hend⟩
                  · rw [hdone] at hnext
                    cases hnext
                  · rw [hend] at hnext
                    cases hnext
                    exact absurd hlt (not_lt_of_reaches (UInt64.lt_irrefl _) hr')
          · rw [if_neg hpass] at hsf ⊢
            have hnext := hturn.within hpass
            have hback : pcBegin + (loc' - pcBegin) = loc' := by grind
            have hrest := ih (s := ⟨s.cursor + UInt64.ofNat i.bytes.length, loc' - pcBegin,
              s.state⟩) hs h.append (ends_tail hends hnext) (by
                rw [hback]
                exact fun j hj => hsf j (List.mem_cons_of_mem _ hj))
            rw [hback] at hrest
            obtain ⟨hall, ht, hstep⟩ := hrest
            have hread : (asRead i).apply cie.dataAlign.toInt init M = M := by
              have hloc' : (asRead i).location (wordAddressing cie) (pcBegin + s.pcOffset) =
                  some loc' := by
                cases i <;> exact hloc
              exact Instr.apply_of_location hloc' _ _ _
            refine ⟨?_, ?_, (inStep_cons hnext hcur).mpr hstep⟩
            · intro j hj
              rcases List.mem_cons.mp hj with rfl | hj
              · exact ⟨hi, hsf _ List.mem_cons_self⟩
              · exact hall j hj
            · rw [ht, List.map_cons, exec_cons, hread]

/-! ### With it -/

/-- A run that succeeds and executes a `DW_CFA_def_cfa_sf` goes on inside it. -/
theorem run_outOfStep {prog : List (Instr n)} {s : CfiLoop} {t : CfaState}
    (hn : cie.addressSize.toNat = n) (hs : s.state = rowState M.row)
    (h : Span m s.cursor stop (encode prog))
    (hends : Ends (cfiTurn m cie stop pcBegin pc (rowState init)) s (.ok, t))
    (hsf : ∃ i ∈ executed (wordAddressing cie) pc (pcBegin + s.pcOffset) prog, IsDefCfaSf i) :
    ¬ InStep m cie stop pcBegin pc (rowState init) s prog := by
  induction prog generalizing s M with
  | nil => simp [executed] at hsf
  | cons i prog ih =>
      rw [encode_cons] at h
      obtain ⟨hi, hr⟩ := implemented_of_ends hn hs h hends
      have hcur := cursor_toNat h
      obtain ⟨j, hj, hjsf⟩ := hsf
      rw [executed] at hj
      by_cases hisf : IsDefCfaSf i
      · cases i with
        | defCfaSf r x =>
            intro hstep
            have hturn := (cfiTurn_defCfaSf cie pcBegin pc (rowState init) h).trans (if_pos hr)
            have hxpos := x.group.length_pos
            have hlen : (Instr.defCfaSf r x : Instr n).bytes.length =
                r.bytes.length + x.bytes.length + 1 := by
              simp [Instr.bytes]
            have hle := h.length_eq
            have hlt := h.length_lt
            rw [List.length_append, hlen] at hle hlt
            have hinside : (s.cursor + UInt64.ofNat (r.bytes.length + 1)).toNat =
                s.cursor.toNat + (r.bytes.length + 1) := UInt64.toNat_add_ofNat (by omega)
            have hb := hstep _ (.head hturn (.refl _)) (by
              dsimp only
              rw [UInt64.lt_iff_toNat_lt, hinside]
              omega)
            dsimp only at hb
            rw [hinside, Nat.add_sub_cancel_left] at hb
            exact IsBoundary.not_inside [] prog (by simp) (by
              rw [hlen, encode_nil, List.length_nil]
              omega) hb
        | _ => exact hisf.elim
      · cases hloc : i.location (wordAddressing cie) (pcBegin + s.pcOffset) with
        | none =>
            rw [hloc] at hj
            have hturn := cfiTurn_updates pcBegin pc init ⟨hi, hisf⟩ hloc hs h
            rw [if_pos hr] at hturn
            have hrest := (List.mem_cons.mp hj).resolve_left fun heq => hisf (heq ▸ hjsf)
            rw [inStep_cons hturn hcur]
            exact ih rfl h.append (ends_tail hends hturn) ⟨j, hrest, hjsf⟩
        | some loc' =>
            rw [hloc] at hj
            dsimp only at hj
            by_cases hpass : pc < loc'
            · rw [if_pos hpass] at hj
              simp at hj
            rw [if_neg hpass] at hj
            have hrest := (List.mem_cons.mp hj).resolve_left fun heq => hisf (heq ▸ hjsf)
            have hturn := (cfiTurn_moves pc (rowState init) hn hloc hr h).within hpass
            have hback : pcBegin + (loc' - pcBegin) = loc' := by grind
            rw [inStep_cons hturn hcur]
            refine ih hs h.append (ends_tail hends hturn) ⟨j, ?_, hjsf⟩
            dsimp only
            rw [hback]
            exact hrest

/-! ### The standard's row -/

/-- The instructions up to the target, by the locations as they are. -/
def standardInstrs (cie : CieRecord) (pcBegin pc : UInt64) (prog : List (Instr n)) :
    List (Instr n) :=
  executed (naturalAddressing cie) pc.toNat pcBegin.toNat prog

/-- The row a program comes to by the standard, at the target and from a row with nothing
remembered. -/
def standardRow (cie : CieRecord) (pcBegin pc : UInt64) (init row : Row)
    (prog : List (Instr n)) : Row :=
  (exec cie.dataAlign.toInt init ⟨row, []⟩ (standardInstrs cie pcBegin pc prog)).row

/-- The instructions that a run executes behind those of the standard: from one on that moves the
location past `2 ^ 64`, back in front of the target. -/
def wrappedInstrs (cie : CieRecord) (pcBegin pc : UInt64) (prog : List (Instr n)) :
    List (Instr n) :=
  (executed (wordAddressing cie) pc pcBegin prog).drop (standardInstrs cie pcBegin pc prog).length

/-- On words the early stop comes later, if at all. -/
lemma executed_natural_prefix (cie : CieRecord) (pc : UInt64) (loc : ℕ) (prog : List (Instr n)) :
    executed (naturalAddressing cie) pc.toNat loc prog <+:
      executed (wordAddressing cie) pc (UInt64.ofNat loc) prog := by
  induction prog generalizing loc with
  | nil => exact List.prefix_rfl
  | cons i prog ih =>
      rw [executed, executed, location_word]
      cases hloc : i.location (naturalAddressing cie) loc with
      | none => exact (List.prefix_cons_inj i).mpr (ih loc)
      | some loc' =>
          rw [Option.map_some]
          dsimp only
          by_cases hpass : pc.toNat < loc'
          · rw [if_pos hpass]
            exact List.nil_prefix
          · have hlt : loc' < 2 ^ 64 := lt_of_le_of_lt (not_lt.mp hpass) pc.toNat_lt
            rw [if_neg hpass, if_neg fun h => hpass ((ofNat_lt_iff pc hlt).mp h)]
            exact (List.prefix_cons_inj i).mpr (ih loc')

lemma executed_eq_append (cie : CieRecord) (pcBegin pc : UInt64) (prog : List (Instr n)) :
    executed (wordAddressing cie) pc pcBegin prog =
      standardInstrs cie pcBegin pc prog ++ wrappedInstrs cie pcBegin pc prog := by
  have hfront := executed_natural_prefix cie pc pcBegin.toNat prog
  rw [UInt64.ofNat_toNat] at hfront
  exact (List.prefix_iff_eq_append.mp hfront).symm

/-! ### The register operand and the unsigned reading -/

/-- An offset that comes out wrong when it is read unsigned: it is negative, and the weight of
its sign does not vanish modulo `2 ^ 64`. -/
def Misread (dataAlign : ℤ) : Instr n → Prop
  | .offsetExtendedSf _ x => x.toInt < 0 ∧ ¬ (2 : ℤ) ^ 64 ∣ 128 ^ x.bytes.length * dataAlign
  | _ => False

instance (dataAlign : ℤ) : DecidablePred (Misread (n := n) dataAlign)
  | .offsetExtendedSf _ _ => inferInstanceAs (Decidable (_ ∧ ¬ _))
  | .nop | .setLoc _ | .advanceLoc _ | .advanceLoc1 _ | .advanceLoc2 _ | .advanceLoc4 _
  | .offset _ _ | .restore _ | .offsetExtended _ _ | .restoreExtended _ | .undefined _
  | .sameValue _ | .register _ _ | .rememberState | .restoreState | .defCfa _ _
  | .defCfaRegister _ | .defCfaOffset _ | .defCfaExpression _ | .expression _ _
  | .defCfaSf _ _ | .defCfaOffsetSf _ | .valOffset _ _ | .valOffsetSf _ _
  | .valExpression _ _ => isFalse id

lemma ofInt_toInt_eq_iff {dataAlign : ℤ} {x : Leb} :
    Int64.ofInt (x.toInt * dataAlign) = Int64.ofInt (x.toNat * dataAlign) ↔
      ¬ (x.toInt < 0 ∧ ¬ (2 : ℤ) ^ 64 ∣ 128 ^ x.bytes.length * dataAlign) := by
  rw [Int64.ofInt_eq_ofInt_iff]
  have hsign : x.toInt < 0 ↔ negative x.bytes = true := by
    have := signed_nonneg_iff x.bytes
    rw [Leb.toInt]
    cases hneg : negative x.bytes <;> rw [hneg] at this <;> simp at this ⊢ <;> exact this
  have heq : x.toInt * dataAlign - x.toNat * dataAlign =
      -((if negative x.bytes then (128 : ℤ) ^ x.bytes.length else 0) * dataAlign) := by
    rw [Leb.toInt, Leb.toNat, signed_eq]
    ring
  rw [heq, Int.dvd_neg, hsign]
  cases negative x.bytes <;> simp

/-- The rule of an instruction comes out wrong exactly when its offset is misread. -/
lemma ruleState_given_iff {dataAlign : ℤ} {init : Row} {i : Instr n} :
    ruleState ((asRead i).given dataAlign init) = ruleState (i.given dataAlign init) ↔
      ¬ Misread dataAlign i := by
  cases i with
  | offsetExtendedSf r x =>
      rw [Misread, ← ofInt_toInt_eq_iff, asRead, Instr.given, Instr.given, ruleState, ruleState,
        RegRule.mk.injEq, and_iff_right rfl, eq_comm]
  | _ => exact iff_of_true rfl id

lemma asRead_cfaReg (i : Instr n) : (asRead i).cfaReg = i.cfaReg := by cases i <;> rfl

lemma asRead_cfaOffset (dataAlign : ℤ) (i : Instr n) :
    (asRead i).cfaOffset dataAlign = i.cfaOffset dataAlign := by cases i <;> rfl

/-- A register of 64 bits is the one it is taken for. -/
lemma asRead_ruleReg {i : Instr n} {k : ℕ} (hk : k < 2 ^ 64) (h : i.ruleReg = some k) :
    (asRead i).ruleReg = some k := by
  cases i with
  | offsetExtendedSf r x =>
      have hr : r.toNat = k := Option.some.inj h
      rw [asRead, Instr.ruleReg, ← toNat_ofNat_reg, hr, UInt64.toNat_ofNat_of_lt' hk]
  | _ => exact h

lemma Passable.keepsStack {i : Instr n} (h : Passable i) :
    i.KeepsStack ∧ (asRead i).KeepsStack := by
  cases i <;> first | exact ⟨trivial, trivial⟩ | exact h.1.elim

/-- The last instruction of a sequence that `execute_cfi` takes for one that gives register `k` a
rule. -/
def lastTaken (k : ℕ) (is : List (Instr n)) : Option (Instr n) :=
  (is.filter fun i => (asRead i).ruleReg = some k).getLast?

lemma lastTaken_append (k : ℕ) (is js : List (Instr n)) :
    lastTaken k (is ++ js) = (lastTaken k js).or (lastTaken k is) := by
  rw [lastTaken, List.filter_append, List.getLast?_append, lastTaken, lastTaken]

lemma lastRule_map_asRead (k : ℕ) (is : List (Instr n)) :
    lastRule k (is.map asRead) = (lastTaken k is).map asRead := by
  rw [lastRule, List.filter_map, List.getLast?_map]
  rfl

/-- The last instruction that is taken for one of register `k`, if it is one. -/
lemma lastRule_of_lastTaken {k : ℕ} {is : List (Instr n)} {i : Instr n} (hk : k < 2 ^ 64)
    (h : lastTaken k is = some i) (hi : i.ruleReg = some k) : lastRule k is = some i := by
  obtain ⟨front, hfront⟩ := List.getLast?_eq_some_iff.mp h
  have hfilter : is.filter (fun i => i.ruleReg = some k) =
      (is.filter fun i => (asRead i).ruleReg = some k).filter fun i => i.ruleReg = some k := by
    rw [List.filter_filter]
    refine List.filter_congr fun j _ => ?_
    by_cases hj : j.ruleReg = some k
    · simp [hj, asRead_ruleReg hk hj]
    · simp [hj]
  rw [lastRule, hfilter, hfront, List.filter_append, List.getLast?_append]
  simp [hi]

/-- Where no instruction is taken for one of register `k`, none is one. -/
lemma lastRule_eq_none {k : ℕ} {is : List (Instr n)} (hk : k < 2 ^ 64)
    (h : lastTaken k is = none) : lastRule k is = none := by
  rw [lastTaken, List.getLast?_eq_none_iff, List.filter_eq_nil_iff] at h
  rw [lastRule, List.getLast?_eq_none_iff, List.filter_eq_nil_iff]
  intro i hi hreg
  exact h i hi (by simpa using asRead_ruleReg hk (by simpa using hreg))

/-! ### The exact condition -/

section Kept

variable (dataAlign : ℤ) (init standard : Row) (ran wrapped : List (Instr n))

/-- Register `k` ends with its rule in the standard's row: the last instruction for it, as
`execute_cfi` takes the instructions, is not misread.  If that instruction is meant for a register
from `2 ^ 64` on, or stands behind a location that has wrapped, its rule is that of the standard's
row all the same. -/
def RuleKept (k : ℕ) : Prop :=
  ∀ i ∈ lastTaken k ran,
    if i.ruleReg = some k ∧ (lastTaken k wrapped).isNone then ¬ Misread dataAlign i
    else ruleState ((asRead i).given dataAlign init) = ruleState (standard.rule k)

instance (k : ℕ) : Decidable (RuleKept dataAlign init standard ran wrapped k) := by
  unfold RuleKept
  infer_instance

/-- The CFA ends with its register and offset in the standard's row: what is given to it last
behind a location that has wrapped is what it has there. -/
structure CfaKept : Prop where
  reg : ∀ r ∈ (wrapped.filterMap Instr.cfaReg).getLast?,
    UInt16.ofNat r = cfaRegState standard.cfaReg
  offset : ∀ o ∈ (wrapped.filterMap (Instr.cfaOffset dataAlign)).getLast?,
    Int64.ofInt o = Int64.ofInt standard.cfaOffset

instance : Decidable (CfaKept dataAlign standard wrapped) :=
  decidable_of_iff (_ ∧ _) ⟨fun h => ⟨h.1, h.2⟩, fun h => ⟨h.reg, h.offset⟩⟩

end Kept

section Exec

variable {dataAlign : ℤ} {init row : Row} {is js : List (Instr n)}

/-- The row that the first instructions come to, and the row that all of them come to as they are
read: the rule of a register. -/
lemma ruleKept_iff (hpass : ∀ i ∈ is ++ js, Passable i) {k : ℕ} (hk : k < 2 ^ 64) :
    ruleState ((exec dataAlign init ⟨row, []⟩ ((is ++ js).map asRead)).row.rule k) =
        ruleState ((exec dataAlign init ⟨row, []⟩ is).row.rule k) ↔
      RuleKept dataAlign init (exec dataAlign init ⟨row, []⟩ is).row (is ++ js) js k := by
  have hread : ∀ i ∈ (is ++ js).map asRead, i.KeepsStack := by
    intro i hi
    obtain ⟨j, hj, rfl⟩ := List.mem_map.mp hi
    exact (hpass j hj).keepsStack.2
  have hmeant : ∀ i ∈ is, i.KeepsStack :=
    fun i hi => (hpass i (List.mem_append_left _ hi)).keepsStack.1
  have hstandard := exec_rule dataAlign init ⟨row, []⟩ hmeant k
  rw [exec_rule dataAlign init ⟨row, []⟩ hread k, lastRule_map_asRead, Option.map_map, RuleKept]
  cases htaken : lastTaken k (is ++ js) with
  | none =>
      have hnone : lastTaken k is = none := by
        rw [lastTaken_append, Option.or_eq_none_iff] at htaken
        exact htaken.2
      rw [lastRule_eq_none hk hnone] at hstandard
      rw [hstandard]
      exact iff_of_true rfl nofun
  | some i =>
      have hone {P : Instr n → Prop} : (∀ j ∈ some i, P j) ↔ P i :=
        ⟨fun h => h i rfl, by rintro h _ ⟨⟩; exact h⟩
      rw [hone, Option.map_some, Option.getD_some, Function.comp_apply]
      by_cases hown : i.ruleReg = some k ∧ (lastTaken k js).isNone
      · rw [if_pos hown, ← ruleState_given_iff]
        rw [lastTaken_append, Option.isNone_iff_eq_none.mp hown.2, Option.none_or] at htaken
        rw [lastRule_of_lastTaken hk htaken hown.1] at hstandard
        rw [hstandard]
        rfl
      · rw [if_neg hown]

/-- The same of the CFA. -/
lemma cfaKept_iff (hpass : ∀ i ∈ is ++ js, Passable i) :
    (cfaRegState (exec dataAlign init ⟨row, []⟩ ((is ++ js).map asRead)).row.cfaReg =
        cfaRegState (exec dataAlign init ⟨row, []⟩ is).row.cfaReg ∧
      Int64.ofInt (exec dataAlign init ⟨row, []⟩ ((is ++ js).map asRead)).row.cfaOffset =
        Int64.ofInt (exec dataAlign init ⟨row, []⟩ is).row.cfaOffset) ↔
      CfaKept dataAlign (exec dataAlign init ⟨row, []⟩ is).row js := by
  have hread : ∀ i ∈ (is ++ js).map asRead, i.KeepsStack := by
    intro i hi
    obtain ⟨j, hj, rfl⟩ := List.mem_map.mp hi
    exact (hpass j hj).keepsStack.2
  have hmeant : ∀ i ∈ is, i.KeepsStack :=
    fun i hi => (hpass i (List.mem_append_left _ hi)).keepsStack.1
  have hreg : (exec dataAlign init ⟨row, []⟩ ((is ++ js).map asRead)).row.cfaReg =
      ((js.filterMap Instr.cfaReg).getLast?).or (exec dataAlign init ⟨row, []⟩ is).row.cfaReg := by
    rw [exec_cfaReg _ _ _ hread, exec_cfaReg _ _ _ hmeant, List.filterMap_map,
      show Instr.cfaReg ∘ asRead = (Instr.cfaReg : Instr n → Option ℕ) from funext asRead_cfaReg,
      List.filterMap_append, List.getLast?_append, Option.or_assoc]
  have hoffset : (exec dataAlign init ⟨row, []⟩ ((is ++ js).map asRead)).row.cfaOffset =
      ((js.filterMap (Instr.cfaOffset dataAlign)).getLast?).getD
        (exec dataAlign init ⟨row, []⟩ is).row.cfaOffset := by
    rw [exec_cfaOffset _ _ _ hread, exec_cfaOffset _ _ _ hmeant, List.filterMap_map,
      show Instr.cfaOffset dataAlign ∘ asRead = (Instr.cfaOffset dataAlign : Instr n → Option ℤ)
        from funext (asRead_cfaOffset dataAlign), List.filterMap_append, List.getLast?_append]
    cases (js.filterMap (Instr.cfaOffset dataAlign)).getLast? <;> rfl
  have hone {α : Type} {o : Option α} {P : α → Prop} {Q : Prop} (hnone : o = none → Q)
      (hsome : ∀ a, o = some a → (Q ↔ P a)) : Q ↔ ∀ a ∈ o, P a := by
    cases o with
    | none => exact iff_of_true (hnone rfl) nofun
    | some a =>
        rw [hsome a rfl]
        exact ⟨by rintro h _ ⟨⟩; exact h, fun h => h a rfl⟩
  rw [hreg, hoffset]
  refine Iff.trans (and_congr (hone (fun h => ?_) fun r hr => ?_) (hone (fun h => ?_)
    fun o ho => ?_)) ⟨fun h => ⟨h.1, h.2⟩, fun h => ⟨h.reg, h.offset⟩⟩
  · rw [h, Option.none_or]
  · rw [hr, Option.some_or]
    rfl
  · rw [h, Option.getD_none]
  · rw [ho, Option.getD_some]

end Exec

/-- A run of `execute_cfi` that returns `DWUNW_OK` leaves the row of the standard, and reads no
operand as an opcode, exactly when the instructions up to the target hold no
`DW_CFA_def_cfa_sf`, the CFA register fits its field, and every tracked register ends with its
rule, and the CFA with its register and offset. -/
theorem executeCfi_conforms_iff {program size : UInt64} {prog : List (Instr n)}
    {row : Row} {state initial : CfaState} (hn : cie.addressSize.toNat = n)
    (hmem : Span m program (program + size) (encode prog)) (hstate : Represents row state)
    (hinit : Represents init initial)
    (hok : (executeCfi m cie program size pcBegin pc state initial).1 = .ok) :
    (Represents (standardRow cie pcBegin pc init row prog)
        (executeCfi m cie program size pcBegin pc state initial).2 ∧
      InStep m cie (program + size) pcBegin pc initial ⟨program, 0, state⟩ prog) ↔
    (∀ i ∈ executed (wordAddressing cie) pc pcBegin prog, ¬ IsDefCfaSf i) ∧
      (∀ r ∈ (standardRow cie pcBegin pc init row prog).cfaReg, r < 0xffff) ∧
      (∀ k < regsetSlots, RuleKept cie.dataAlign.toInt init
        (standardRow cie pcBegin pc init row prog)
        (executed (wordAddressing cie) pc pcBegin prog) (wrappedInstrs cie pcBegin pc prog) k) ∧
      CfaKept cie.dataAlign.toInt (standardRow cie pcBegin pc init row prog)
        (wrappedInstrs cie pcBegin pc prog) := by
  obtain ⟨hrow, rfl⟩ := hstate
  obtain ⟨hinitRow, rfl⟩ := hinit
  have hends := executeCfi_ends m cie pcBegin pc (rowState row) (rowState init) hmem.add_lt
  rw [show executeCfi m cie program size pcBegin pc (rowState row) (rowState init) =
    (.ok, (executeCfi m cie program size pcBegin pc (rowState row) (rowState init)).2) from
      Prod.ext hok rfl] at hends
  by_cases hsf : ∀ i ∈ executed (wordAddressing cie) pc pcBegin prog, ¬ IsDefCfaSf i
  swap
  · have hout := run_outOfStep (M := ⟨row, []⟩) hn rfl hmem hends (by
      rw [UInt64.add_zero]
      push Not at hsf
      exact hsf)
    exact ⟨fun h => absurd h.2 hout, fun h => absurd h.1 hsf⟩
  obtain ⟨hall, ht, hstep⟩ := run_inStep (M := ⟨row, []⟩) hn rfl hmem hends (by
    rw [UInt64.add_zero]
    exact hsf)
  rw [UInt64.add_zero, executed_eq_append] at hall ht
  have htracked : Tracked (standardRow cie pcBegin pc init row prog) :=
    tracked_exec (fun i hi => hall i (List.mem_append_left _ hi)) hinitRow.toTracked
      hrow.toTracked
  -- the state is that of the standard when its fields are
  have hstate : rowState (exec cie.dataAlign.toInt init ⟨row, []⟩
        ((standardInstrs cie pcBegin pc prog ++ wrappedInstrs cie pcBegin pc prog).map
          asRead)).row = rowState (standardRow cie pcBegin pc init row prog) ↔
      (∀ k < regsetSlots, RuleKept cie.dataAlign.toInt init
        (standardRow cie pcBegin pc init row prog)
        (standardInstrs cie pcBegin pc prog ++ wrappedInstrs cie pcBegin pc prog)
        (wrappedInstrs cie pcBegin pc prog) k) ∧
      CfaKept cie.dataAlign.toInt (standardRow cie pcBegin pc init row prog)
        (wrappedInstrs cie pcBegin pc prog) := by
    rw [rowState, rowState, CfaState.mk.injEq, ← and_assoc, standardRow, cfaKept_iff hall,
      and_comm, funext_iff]
    refine and_congr_left fun _ => ⟨fun h k hk => ?_, fun h k => ?_⟩
    · have hlt : k < 2 ^ 64 := lt_trans hk (by decide)
      exact (ruleKept_iff hall hlt).mp (h ⟨k, hk⟩)
    · have hlt : (k : ℕ) < 2 ^ 64 := lt_trans k.isLt (by decide)
      exact (ruleKept_iff hall hlt).mpr (h k k.isLt)
  rw [executed_eq_append] at hsf ⊢
  rw [ht, Represents, hstate]
  constructor
  · rintro ⟨⟨htrack, hkept⟩, -⟩
    exact ⟨hsf, htrack.reg, hkept⟩
  · rintro ⟨-, hsmall, hkept⟩
    exact ⟨⟨⟨htracked, hsmall⟩, hkept⟩, hstep⟩

/-! ### One misread offset -/

/-- `DW_CFA_def_cfa r7 8; DW_CFA_offset_extended_sf r16 k`. -/
def extendedProgram (k : ℤ) : List (Instr 8) :=
  [.defCfa rspReg (.ofNat 8), .offsetExtendedSf (.ofNat 16) (.ofInt k)]

def extendedMemory (k : ℤ) : ByteMem := memOf 0x1000 (encode (extendedProgram k))

def extendedCie : CieRecord :=
  { version := 1
    addressSize := 8
    returnReg := 16
    ptrEncoding := 0
    dataAlign := -8
    codeAlign := 1
    offset := 0
    augmentation := 0x1000
    augmentationLen := 0
    instructions := 0x1000
    instructionsSize := 6 }

/-- A positive offset is read as it is meant. -/
theorem extendedProgram_conforms :
    Represents (standardRow extendedCie 0x400000 0x400010 defaultRow defaultRow
        (extendedProgram 1))
        (executeCfi (extendedMemory 1) extendedCie 0x1000 6 0x400000 0x400010 cfaStateReset
          cfaStateReset).2 ∧
      InStep (extendedMemory 1) extendedCie (0x1000 + 6) 0x400000 0x400010 cfaStateReset
        ⟨0x1000, 0, cfaStateReset⟩ (extendedProgram 1) := by
  have hmem : Span (extendedMemory 1) 0x1000 (0x1000 + 6) (encode (extendedProgram 1)) :=
    ⟨by decide +kernel, by decide +kernel⟩
  exact (executeCfi_conforms_iff rfl hmem represents_default represents_default
    (by decide +kernel)).mpr
      ⟨by decide +kernel, by decide +kernel, by decide +kernel, by decide +kernel⟩

/-- A negative one is not: the run succeeds, and `r16` ends 1016 bytes below the CFA in place
of 8 bytes above it. -/
theorem extendedProgram_misread :
    (executeCfi (extendedMemory (-1)) extendedCie 0x1000 6 0x400000 0x400010 cfaStateReset
      cfaStateReset).1 = .ok ∧
    ¬ Represents (standardRow extendedCie 0x400000 0x400010 defaultRow defaultRow
        (extendedProgram (-1)))
      (executeCfi (extendedMemory (-1)) extendedCie 0x1000 6 0x400000 0x400010 cfaStateReset
        cfaStateReset).2 := by
  refine ⟨by decide +kernel, fun h => ?_⟩
  have hread : (executeCfi (extendedMemory (-1)) extendedCie 0x1000 6 0x400000 0x400010
      cfaStateReset cfaStateReset).2.regs 16 = ⟨.offset, -1016⟩ := by decide +kernel
  have hmeant : (rowState (standardRow extendedCie 0x400000 0x400010 defaultRow defaultRow
      (extendedProgram (-1)))).regs 16 = ⟨.offset, 8⟩ := by decide +kernel
  rw [h.2, hmeant] at hread
  exact absurd hread (by decide)

end Dwunw
