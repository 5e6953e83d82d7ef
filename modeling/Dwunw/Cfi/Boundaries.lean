import Dwunw.Cfi.Ranges

/-!
Addresses at which an FDE or a row ends.

The lookup and the row search give for two neighbouring addresses the same FDE and the same row,
unless one of them is the last address of an FDE or of a row.

* `FdeRecord.Borders`, `FdeRecord.Inside`, `cfiFindFde_pred_iff`: the lookup for an address and
  for the one in front of it.
* `rowTurn`, `rowSearch`: the row search, which counts the rows it passes.
* `StartsRow`: a row starts at the address; `cfiTurn_congr`: a turn for two targets.
* `rowSearch_pred_iff`: the row search for an address and for the one in front of it.
-/

namespace Dwunw

open Loop Traced

variable {m : ByteMem} {cie : CieRecord} {fde : FdeRecord} {fdes : List FdeRecord}
  {pc : UInt64}

/-! ### The lookup -/

/-- The address is in the range of the FDE, or the first one behind it. -/
def FdeRecord.Borders (fde : FdeRecord) (pc : UInt64) : Prop :=
  fde.Fits ∧ 0 < fde.pcRange.toNat ∧ fde.pcBegin.toNat ≤ pc.toNat ∧
    pc.toNat ≤ fde.pcBegin.toNat + fde.pcRange.toNat

instance (fde : FdeRecord) (pc : UInt64) : Decidable (fde.Borders pc) :=
  inferInstanceAs (Decidable (_ ∧ _))

/-- The address is in the range of the FDE, and not its first one. -/
def FdeRecord.Inside (fde : FdeRecord) (pc : UInt64) : Prop :=
  fde.pcBegin.toNat < pc.toNat ∧ pc.toNat < fde.pcBegin.toNat + fde.pcRange.toNat

instance (fde : FdeRecord) (pc : UInt64) : Decidable (fde.Inside pc) :=
  inferInstanceAs (Decidable (_ ∧ _))

/-- The range of the FDE has the address in front. -/
lemma FdeRecord.covers_pred_iff : fde.Covers (pc - 1) ↔
    (fde.pcBegin.toNat < pc.toNat ∧ pc.toNat ≤ fde.pcBegin.toNat + fde.pcRange.toNat) ∧
      fde.Fits := by
  have hsub : (pc - 1).toNat = (2 ^ 64 - 1 + pc.toNat) % 2 ^ 64 := UInt64.toNat_sub pc 1
  have hpc := pc.toNat_lt
  rw [covers_iff, Holds, Fits, hsub]
  omega

/-- The range of the FDE has both addresses. -/
lemma FdeRecord.Borders.inside_iff (h : fde.Borders pc) :
    fde.Inside pc ↔ (fde.Covers pc ↔ fde.Covers (pc - 1)) := by
  obtain ⟨hfits, hpos, hlo, hhi⟩ := h
  rw [covers_iff, covers_pred_iff, Holds, Inside, and_iff_left hfits, and_iff_left hfits]
  omega

/-- The range of the FDE has neither. -/
lemma FdeRecord.not_borders_iff :
    ¬ fde.Borders pc ↔ ¬ fde.Covers pc ∧ ¬ fde.Covers (pc - 1) := by
  rw [covers_iff, covers_pred_iff, Holds, Borders]
  by_cases hfits : fde.Fits
  · simp only [hfits, true_and, and_true]
    omega
  · simp [hfits]

/-- The first FDE that the address borders on, if there is one, has it inside. -/
def FindInside (fdes : List FdeRecord) (pc : UInt64) : Prop :=
  ∀ fde, fdes.find? (fun fde => decide (fde.Borders pc)) = some fde → fde.Inside pc

/-- The lookup gives the FDE of the address in front. -/
theorem cfiFindFde_pred_iff :
    cfiFindFde fdes pc = cfiFindFde fdes (pc - 1) ↔ FindInside fdes pc := by
  rw [cfiFindFde_covers, cfiFindFde_covers, FindInside]
  induction fdes with
  | nil => simp
  | cons fde fdes ih =>
      rw [List.findIdx?_cons, List.findIdx?_cons, List.find?_cons]
      by_cases hborders : fde.Borders pc
      · have hone : fde.Covers pc ∨ fde.Covers (pc - 1) := by
          by_contra hneither
          exact FdeRecord.not_borders_iff.mpr (not_or.mp hneither) hborders
        have hinside := hborders.inside_iff
        by_cases hpc : fde.Covers pc
        · by_cases hpred : fde.Covers (pc - 1)
          · simp [hborders, hinside, hpc, hpred]
          · simp [hborders, hinside, hpc, hpred]
        · simp [hborders, hinside, hpc, hone.resolve_left hpc]
      · obtain ⟨hpc, hpred⟩ := FdeRecord.not_borders_iff.mp hborders
        simp only [hpc, hpred, hborders, decide_false, Bool.false_eq_true, if_false]
        refine Iff.trans ?_ ih
        exact ⟨fun h => Option.map_injective Nat.succ_injective h, congrArg _⟩

/-! ### A turn for two targets -/

variable {stop pcBegin : UInt64} {initial : CfaState} {s : CfiLoop}

/-- Two turns that are alike unless they advance to a location that is past one of the targets
only. -/
def SameTurn (pc pc' : UInt64) (at? : Option (ℕ × UInt64))
    (t t' : Turn CfiLoop (Status × CfaState)) : Prop :=
  (∀ loc cursor, at? = some (loc, cursor) →
    (pc.toNat < loc % 2 ^ 64 ↔ pc'.toNat < loc % 2 ^ 64)) → t = t'

section SameTurn

variable {pc' : UInt64}

lemma SameTurn.ite {P : Prop} [Decidable P] {at? at?' : Option (ℕ × UInt64)}
    {t t' e e' : Turn CfiLoop (Status × CfaState)} (ht : SameTurn pc pc' at? t t')
    (he : SameTurn pc pc' at?' e e') :
    SameTurn pc pc' (if P then at? else at?') (if P then t else e) (if P then t' else e') := by
  split_ifs
  · exact ht
  · exact he

lemma SameTurn.rfl {at? : Option (ℕ × UInt64)} {t : Turn CfiLoop (Status × CfaState)} :
    SameTurn pc pc' at? t t := fun _ => Eq.refl t

/-- The location opcodes of the `switch`. -/
lemma SameTurn.location {c size : UInt64} {newOffset : UInt64 → UInt64} {location : ℕ → ℕ}
    (hloc : ∀ v, (pcBegin + newOffset v).toNat = location v.toNat % 2 ^ 64) :
    SameTurn pc pc' (operandLocation ((readFixedSize c stop size).val m) location)
      (locationTurn m stop pcBegin pc s c size newOffset)
      (locationTurn m stop pcBegin pc' s c size newOffset) := by
  intro h
  rw [locationTurn, locationTurn]
  cases hr : (readFixedSize c stop size).val m with
  | error st => exact Eq.refl _
  | ok r =>
      obtain ⟨v, c'⟩ := r
      have hiff := h _ _ (by rw [hr]; exact Eq.refl _)
      rw [← hloc, ← UInt64.lt_iff_toNat_lt, ← UInt64.lt_iff_toNat_lt] at hiff
      rw [onRead_ok, onRead_ok]
      exact if_congr hiff (Eq.refl _) (Eq.refl _)

end SameTurn

/-- A turn looks at the target only to compare it with the location it advances to. -/
theorem cfiTurn_congr (m : ByteMem) (cie : CieRecord) (stop pc pc' : UInt64)
    (initial : CfaState) {loc : ℕ} (h : (pcBegin + s.pcOffset).toNat = loc % 2 ^ 64) :
    SameTurn pc pc' (exactAdvance m cie stop s loc) (cfiTurn m cie stop pcBegin pc initial s)
      (cfiTurn m cie stop pcBegin pc' initial s) := by
  rw [cfiTurn, cfiTurn, exactAdvance]
  refine .ite ?_ .rfl
  dsimp only
  refine .ite ?_ ?_
  · -- `DW_CFA_advance_loc`
    have hloc : (pcBegin + (s.pcOffset + (m s.cursor &&& 0x3f).toUInt64 * cie.codeAlign)).toNat =
        (loc + (m s.cursor &&& 0x3f).toNat * cie.codeAlign.toNat) % 2 ^ 64 := by
      rw [toNat_advance h, UInt8.toNat_toUInt64]
    intro hiff
    have hiff := hiff _ _ rfl
    rw [← hloc, ← UInt64.lt_iff_toNat_lt, ← UInt64.lt_iff_toNat_lt] at hiff
    exact if_congr hiff rfl rfl
  refine .ite .rfl <| .ite .rfl ?_
  rw [cfiSwitch, cfiSwitch]
  refine .ite .rfl <| .ite (.location fun v => ?_) <|
    .ite (.location fun v => toNat_advance h) <| .ite (.location fun v => toNat_advance h) <|
    .ite (.location fun v => toNat_advance h) .rfl
  -- `DW_CFA_set_loc`
  rw [show pcBegin + (v - pcBegin) = v by grind]
  exact (Nat.mod_eq_of_lt v.toNat_lt).symm

/-! ### The row search -/

/-- The location that the instruction at the cursor advances to, if it is one of those. -/
def nextLocation (m : ByteMem) (cie : CieRecord) (stop pcBegin : UInt64) (s : CfiLoop) :
    Option ℕ :=
  (exactAdvance m cie stop s (pcBegin + s.pcOffset).toNat).map fun x => x.1 % 2 ^ 64

/-- A turn of `execute_cfi` with the number of rows passed beside the variables. -/
def rowTurn (m : ByteMem) (cie : CieRecord) (stop pcBegin targetPc : UInt64)
    (initial : CfaState) (x : CfiLoop × ℕ) : Turn (CfiLoop × ℕ) ((Status × CfaState) × ℕ) :=
  match cfiTurn m cie stop pcBegin targetPc initial x.1 with
  | .next s =>
      .next (s, x.2 + if ∃ loc ∈ nextLocation m cie stop pcBegin x.1, loc ≤ targetPc.toNat then 1
        else 0)
  | .done r => .done (r, x.2)

/-- The row search of an evaluation: what `execute_cfi` makes of the program of the FDE, and the
number of the row in the table of the FDE. -/
def rowSearch (m : ByteMem) (cie : CieRecord) (fde : FdeRecord) (pc : UInt64) :
    Option ((Status × CfaState) × ℕ) :=
  run (rowTurn m cie (fde.instructions + fde.instructionsSize) fde.pcBegin pc
    (initialState m cie fde)) (fde.instructionsSize.toNat + 1)
    (⟨fde.instructions, 0, initialState m cie fde⟩, 0)

/-- The row search comes to an instruction that advances to the address it is for: a row starts
at this address. -/
def StartsRow (m : ByteMem) (cie : CieRecord) (fde : FdeRecord) (pc : UInt64) : Prop :=
  ∃ s, Reaches (cfiTurn m cie (fde.instructions + fde.instructionsSize) fde.pcBegin pc
      (initialState m cie fde)) ⟨fde.instructions, 0, initialState m cie fde⟩ s ∧
    nextLocation m cie (fde.instructions + fde.instructionsSize) fde.pcBegin s = some pc.toNat

section Search

variable {targetPc : UInt64} {n n' : ℕ}

lemma rowTurn_next {s' : CfiLoop}
    (h : rowTurn m cie stop pcBegin targetPc initial (s, n) = .next (s', n')) :
    cfiTurn m cie stop pcBegin targetPc initial s = .next s' ∧ n ≤ n' := by
  rw [rowTurn] at h
  dsimp only at h
  split at h
  · next hturn =>
      cases h
      exact ⟨hturn, Nat.le_add_right _ _⟩
  · cases h

lemma rowTurn_done {r : Status × CfaState}
    (h : cfiTurn m cie stop pcBegin targetPc initial s = .done r) :
    rowTurn m cie stop pcBegin targetPc initial (s, n) = .done (r, n) := by
  rw [rowTurn, h]

/-- The count goes up only. -/
lemma rowTurn_ends_le {x : (Status × CfaState) × ℕ}
    (h : Ends (rowTurn m cie stop pcBegin targetPc initial) (s, n) x) : n ≤ x.2 := by
  refine h.of_invariant (I := fun y => n ≤ y.2) (Q := fun x => n ≤ x.2)
    (fun y y' hy hnext => hy.trans (rowTurn_next hnext).2) (fun y x hy hdone => ?_) le_rfl
  rw [rowTurn] at hdone
  split at hdone
  · cases hdone
  · cases hdone
    exact hy

/-- The search passes the states of `execute_cfi`. -/
lemma rowTurn_reaches {x y : CfiLoop × ℕ}
    (h : Reaches (rowTurn m cie stop pcBegin targetPc initial) x y) :
    Reaches (cfiTurn m cie stop pcBegin targetPc initial) x.1 y.1 := by
  induction h with
  | refl x => exact .refl _
  | head hs _ ih => exact .head (rowTurn_next hs).1 ih

/-- A turn of the search is one of `execute_cfi`. -/
lemma rowTurn_rel (x : CfiLoop × ℕ) :
    Turn.Rel (fun x s => x.1 = s) (fun x r => x.1 = r)
      (rowTurn m cie stop pcBegin targetPc initial x)
      (cfiTurn m cie stop pcBegin targetPc initial x.1) := by
  rw [rowTurn]
  cases cfiTurn m cie stop pcBegin targetPc initial x.1 with
  | next s => exact .next rfl
  | done r => exact .done rfl

/-- The search ends with what `execute_cfi` returns. -/
theorem rowSearch_executeCfi (m : ByteMem) (cie : CieRecord) (fde : FdeRecord) (pc : UInt64) :
    ∃ n, rowSearch m cie fde pc = some (executeCfi m cie fde.instructions fde.instructionsSize
      fde.pcBegin pc (initialState m cie fde) (initialState m cie fde), n) := by
  have hrun := executeCfi_run m cie fde.instructions fde.instructionsSize fde.pcBegin pc
    (initialState m cie fde) (initialState m cie fde)
  have hrel : Option.Rel (fun x r => x.1 = r) (rowSearch m cie fde pc) _ :=
    run_rel (fun x s (hx : x.1 = s) => hx ▸ rowTurn_rel x) _ rfl
  rw [hrun] at hrel
  generalize rowSearch m cie fde pc = x at hrel ⊢
  cases hrel with
  | @some x _ h => exact ⟨x.2, by rw [← h]⟩

/-- Where no row starts at the address, a turn for it is one for the address in front. -/
lemma rowTurn_pred (hpc : pc ≠ 0)
    (h : nextLocation m cie stop pcBegin s ≠ some pc.toNat) :
    rowTurn m cie stop pcBegin pc initial (s, n) =
      rowTurn m cie stop pcBegin (pc - 1) initial (s, n) := by
  have hpos : 0 < pc.toNat := UInt64.pos_iff_ne_zero.mpr hpc
  have hsub : (pc - 1).toNat = pc.toNat - 1 := UInt64.toNat_sub_of_le pc 1 hpos
  have hlt {loc : ℕ} (hloc : nextLocation m cie stop pcBegin s = some loc) :
      loc ≤ pc.toNat ↔ loc ≤ (pc - 1).toNat := by
    have hne : loc ≠ pc.toNat := fun heq => h (heq ▸ hloc)
    omega
  have hturn : cfiTurn m cie stop pcBegin pc initial s =
      cfiTurn m cie stop pcBegin (pc - 1) initial s := by
    refine cfiTurn_congr m cie stop pc (pc - 1) initial
      (Nat.mod_eq_of_lt (pcBegin + s.pcOffset).toNat_lt).symm fun loc cursor hadv => ?_
    have hiff := hlt (show nextLocation m cie stop pcBegin s = _ by rw [nextLocation, hadv]; rfl)
    rw [← Nat.not_le, ← Nat.not_le, hiff]
  have hcount : (∃ loc ∈ nextLocation m cie stop pcBegin s, loc ≤ pc.toNat) ↔
      ∃ loc ∈ nextLocation m cie stop pcBegin s, loc ≤ (pc - 1).toNat :=
    exists_congr fun loc => and_congr_right hlt
  rw [rowTurn, rowTurn]
  dsimp only
  rw [hturn, if_congr hcount rfl rfl]

/-- Where a row starts at the address, the search for it passes the row in which the search for
the address in front ends. -/
lemma rowTurn_starts (hpc : pc ≠ 0) (h : nextLocation m cie stop pcBegin s = some pc.toNat)
    {x x' : (Status × CfaState) × ℕ}
    (hx : Ends (rowTurn m cie stop pcBegin pc initial) (s, n) x)
    (hx' : Ends (rowTurn m cie stop pcBegin (pc - 1) initial) (s, n) x') : x'.2 < x.2 := by
  have hpos : 0 < pc.toNat := UInt64.pos_iff_ne_zero.mpr hpc
  have hsub : (pc - 1).toNat = pc.toNat - 1 := UInt64.toNat_sub_of_le pc 1 hpos
  have hcount : (∃ loc ∈ nextLocation m cie stop pcBegin s, loc ≤ pc.toNat) := ⟨_, h, le_rfl⟩
  have hnone : ¬ ∃ loc ∈ nextLocation m cie stop pcBegin s, loc ≤ (pc - 1).toNat := by
    rintro ⟨loc, hloc, hle⟩
    rw [h, Option.mem_some_iff] at hloc
    omega
  obtain ⟨⟨loc, cursor⟩, hadv, hloc⟩ := Option.map_eq_some_iff.mp h
  dsimp only at hloc
  have hmod := (Nat.mod_eq_of_lt (pcBegin + s.pcOffset).toNat_lt).symm
  have hlast : x'.2 = n := by
    have hturn := cfiTurn_located m cie stop (pc - 1) initial hmod
    rw [hadv] at hturn
    generalize ht : cfiTurn m cie stop pcBegin (pc - 1) initial s = t at hturn
    cases hturn with
    | passes hle _ => omega
    | breaks _ => rw [← (Ends.done (rowTurn_done ht)).unique hx']
    | @skips _ _ pcOffset _ _ =>
        have hskip : rowTurn m cie stop pcBegin (pc - 1) initial (s, n) =
            .next (⟨stop, pcOffset, s.state⟩, n) := by
          rw [rowTurn, ht]
          dsimp only
          rw [if_neg hnone, Nat.add_zero]
        have hend : cfiTurn m cie stop pcBegin (pc - 1) initial ⟨stop, pcOffset, s.state⟩ =
            .done (.ok, s.state) := by
          rw [cfiTurn, if_neg (UInt64.lt_irrefl stop)]
        rw [← (Ends.next hskip (.done (rowTurn_done hend))).unique hx']
  have hpassed : n + 1 ≤ x.2 := by
    have hturn := cfiTurn_located m cie stop pc initial hmod
    rw [hadv] at hturn
    generalize ht : cfiTurn m cie stop pcBegin pc initial s = t at hturn
    cases hturn with
    | breaks hlt => omega
    | skips hlt _ => omega
    | @passes _ _ pcOffset _ _ =>
        have hpass : rowTurn m cie stop pcBegin pc initial (s, n) =
            .next (⟨cursor, pcOffset, s.state⟩, n + 1) := by
          rw [rowTurn, ht]
          dsimp only
          rw [if_pos hcount]
        cases hx with
        | done hdone =>
            rw [hpass] at hdone
            cases hdone
        | next hnext hend =>
            rw [hpass] at hnext
            cases hnext
            exact rowTurn_ends_le hend
  omega

/-- The search for an address where a row starts comes past the row of the address in front. -/
lemma rowTurn_lt (hpc : pc ≠ 0) {s' : CfiLoop}
    (hreach : Reaches (cfiTurn m cie stop pcBegin pc initial) s s')
    (h : nextLocation m cie stop pcBegin s' = some pc.toNat) {x x' : (Status × CfaState) × ℕ}
    (hx : Ends (rowTurn m cie stop pcBegin pc initial) (s, n) x)
    (hx' : Ends (rowTurn m cie stop pcBegin (pc - 1) initial) (s, n) x') : x'.2 < x.2 := by
  induction hreach generalizing n with
  | refl s => exact rowTurn_starts hpc h hx hx'
  | @head s s₁ s' hturn _ ih =>
      by_cases hstarts : nextLocation m cie stop pcBegin s = some pc.toNat
      · exact rowTurn_starts hpc hstarts hx hx'
      have hsame : rowTurn m cie stop pcBegin pc initial (s, n) =
          rowTurn m cie stop pcBegin (pc - 1) initial (s, n) := rowTurn_pred hpc hstarts
      cases hx with
      | done hdone =>
          rw [rowTurn, hturn] at hdone
          cases hdone
      | @next _ y _ hnext hend =>
          obtain ⟨s₂, n₂⟩ := y
          cases hturn.symm.trans (rowTurn_next hnext).1
          cases hx' with
          | done hdone =>
              rw [← hsame, hnext] at hdone
              cases hdone
          | next hnext' hend' =>
              rw [← hsame, hnext] at hnext'
              cases hnext'
              exact ih h hend hend'

end Search

/-- The row search gives the row of the address in front unless a row starts at the address. -/
theorem rowSearch_pred_iff (hpc : pc ≠ 0) :
    rowSearch m cie fde pc = rowSearch m cie fde (pc - 1) ↔ ¬ StartsRow m cie fde pc := by
  constructor
  · rintro hsame ⟨s, hreach, hstarts⟩
    obtain ⟨n, hn⟩ := rowSearch_executeCfi m cie fde pc
    have hlt := rowTurn_lt hpc hreach hstarts (ends_of_run hn) (ends_of_run (hsame.symm.trans hn))
    exact lt_irrefl _ hlt
  · intro hnone
    refine run_congr (fun x hx => ?_) _
    obtain ⟨s, n⟩ := x
    exact rowTurn_pred hpc fun hstarts => hnone ⟨s, rowTurn_reaches hx, hstarts⟩

/-- The same search gives the same row. -/
lemma cfiRow_of_rowSearch {pc' : UInt64} (h : rowSearch m cie fde pc = rowSearch m cie fde pc') :
    cfiRow m cie fde pc = cfiRow m cie fde pc' := by
  obtain ⟨n, hn⟩ := rowSearch_executeCfi m cie fde pc
  obtain ⟨n', hn'⟩ := rowSearch_executeCfi m cie fde pc'
  rw [hn, hn', Option.some.injEq, Prod.mk.injEq] at h
  rw [initialState] at h
  rw [cfiRow, cfiRow]
  dsimp only
  rw [h.1]

end Dwunw
