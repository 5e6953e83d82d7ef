import Dwunw.Cfi.Eval
import Dwunw.Cfi.ReadSpec

/-!
What a turn of `execute_cfi` can do.

* `Stable`, `Steady`: a read, and a turn, that goes forward and would go the same way with any
  stop from its new cursor on.
* `cfiTurn_next`: every turn that goes on is of this kind.
* `cfiTurn_notImplemented_iff`: the turns that leave with `DWUNW_ERR_NOT_IMPLEMENTED` are those
  on the opcodes outside `cfiImplemented`.
* `executeCfi_ends`: the fuel of `executeCfi` is enough.
-/

namespace Dwunw

open Leb128 Loop Traced

variable {m : ByteMem} {cie : CieRecord} {stop pcBegin targetPc : UInt64} {initial : CfaState}

@[simp] lemma onRead_ok {α : Type} (s : CfiLoop) (v : α) (c : UInt64)
    (k : α → UInt64 → Turn CfiLoop (Status × CfaState)) : onRead s (.ok (v, c)) k = k v c := rfl

@[simp] lemma onRead_error {α : Type} (s : CfiLoop) (st : Status)
    (k : α → UInt64 → Turn CfiLoop (Status × CfaState)) :
    onRead s (.error st) k = .done (st, s.state) := rfl

/-! ### Going forward -/

/-- A read that goes forward from `c`, and reads the same with every stop behind what it
read. -/
def Stable {α : Type} (c stop : UInt64) (x : UInt64 → Except Status (α × UInt64)) : Prop :=
  ∀ v c', x stop = .ok (v, c') → c < c' ∧ c' ≤ stop ∧
    ∀ stop', c' ≤ stop' → stop' ≤ stop → x stop' = .ok (v, c')

/-- The end of a group, as the cursor computes it. -/
lemma toNat_add_le_of_le {c stop stop' : UInt64} {k : ℕ} (hend : c.toNat + k ≤ stop.toNat)
    (h : c + UInt64.ofNat k ≤ stop') : c.toNat + k ≤ stop'.toNat := by
  have hlt := stop.toNat_lt
  rwa [UInt64.le_iff_toNat_le, UInt64.toNat_add_ofNat (by omega)] at h

lemma readUleb_stable (c stop : UInt64) : Stable c stop fun e => (readUleb c e).val m := by
  intro v c' h
  obtain ⟨hlt, hle⟩ := readUleb_advance h
  refine ⟨hlt, hle, fun stop' hc' _ => ?_⟩
  obtain ⟨g, hg, hlen, hh, hend, rfl, rfl⟩ := readUleb_ok_iff.mp h
  exact readUleb_group hg hlen hh (toNat_add_le_of_le hend hc')

lemma readSleb_stable (c stop : UInt64) : Stable c stop fun e => (readSleb c e).val m := by
  intro v c' h
  obtain ⟨hlt, hle⟩ := readSleb_advance h
  refine ⟨hlt, hle, fun stop' hc' _ => ?_⟩
  obtain ⟨g, hg, hlen, hh, hend, rfl, rfl⟩ := readSleb_ok_iff.mp h
  exact readSleb_group hg hlen hh (toNat_add_le_of_le hend hc')

lemma readFixedSize_stable {c stop : UInt64} (hc : c ≤ stop) (size : UInt64) :
    Stable c stop fun e => (readFixedSize c e size).val m := by
  intro v c' h
  dsimp only at h ⊢
  by_cases hs : IsFixedSize size.toNat
  · rw [← UInt64.ofNat_toNat (x := size), val_readFixedSize hs] at h
    split_ifs at h with hlen
    have hend := toNat_add_le_of_sub hs.lt hc hlen
    obtain ⟨hlt, hle⟩ := add_ofNat_bounds hs.pos hend
    cases h
    refine ⟨hlt, hle, fun stop' hc' _ => ?_⟩
    have hend' := toNat_add_le_of_le hend hc'
    have hlen' : ¬ stop' - c < UInt64.ofNat size.toNat := by
      have hcs : c ≤ stop' := by
        rw [UInt64.le_iff_toNat_le]
        omega
      rw [UInt64.lt_iff_toNat_lt, UInt64.toNat_sub_of_le _ _ hcs, UInt64.toNat_ofNat',
        Nat.mod_eq_of_lt hs.lt]
      omega
    have hread : (readFixedSize c stop' (UInt64.ofNat size.toNat)).val m = _ :=
      val_readFixedSize hs
    rw [if_neg hlen', UInt64.ofNat_toNat] at hread
    rw [UInt64.ofNat_toNat]
    exact hread
  · rw [val_readFixedSize_of_not hs] at h
    cases h

/-- A turn, as a function of the stop, that from `c` goes forward if it goes on, and goes the
same way with every stop behind its new cursor. -/
def Steady (c stop : UInt64) (t : UInt64 → Turn CfiLoop (Status × CfaState)) : Prop :=
  ∀ s', t stop = .next s' → c ≤ s'.cursor ∧ s'.cursor ≤ stop ∧
    ∀ stop', s'.cursor ≤ stop' → stop' ≤ stop → t stop' = .next s'

lemma Steady.done {c : UInt64} (r : UInt64 → Status × CfaState) :
    Steady c stop fun e => .done (r e) := nofun

lemma Steady.next {c pcOffset : UInt64} {state : CfaState} (hc : c ≤ stop) :
    Steady c stop fun _ => .next ⟨c, pcOffset, state⟩ := by
  rintro s' ⟨⟩
  exact ⟨UInt64.le_refl c, hc, fun _ _ _ => rfl⟩

lemma Steady.onRead {α : Type} {c : UInt64} {s : CfiLoop}
    {x : UInt64 → Except Status (α × UInt64)}
    {k : UInt64 → α → UInt64 → Turn CfiLoop (Status × CfaState)} (hx : Stable c stop x)
    (hk : ∀ v c', c < c' → c' ≤ stop → Steady c' stop fun e => k e v c') :
    Steady c stop fun e => onRead s (x e) (k e) := by
  intro s' h
  dsimp only at h ⊢
  rcases hr : x stop with st | ⟨v, c'⟩
  · rw [hr] at h
    cases h
  · rw [hr] at h
    obtain ⟨hlt, hle, hsame⟩ := hx v c' hr
    obtain ⟨hcur, hstop, hsame'⟩ := hk v c' hlt hle s' h
    refine ⟨UInt64.le_trans (UInt64.le_of_lt hlt) hcur, hstop, fun stop' hs' hle' => ?_⟩
    rw [hsame stop' (UInt64.le_trans hcur hs') hle', onRead_ok]
    exact hsame' stop' hs' hle'

lemma locationTurn_steady {s : CfiLoop} {c size : UInt64} {newOffset : UInt64 → UInt64}
    (hc : c ≤ stop) :
    Steady c stop fun e => locationTurn m e pcBegin targetPc s c size newOffset := by
  refine Steady.onRead (readFixedSize_stable hc size) fun v c' hlt hle => ?_
  intro s' h
  dsimp only at h ⊢
  by_cases hpass : targetPc < pcBegin + newOffset v
  · rw [if_pos hpass] at h
    cases h
    refine ⟨hle, UInt64.le_refl stop, fun stop' hs' hle' => ?_⟩
    obtain rfl : stop' = stop := UInt64.le_antisymm hle' hs'
    rw [if_pos hpass]
  · rw [if_neg hpass] at h
    cases h
    exact ⟨UInt64.le_refl c', hle, fun stop' _ _ => by rw [if_neg hpass]⟩

lemma Steady.ite {c : UInt64} {P : Prop} [Decidable P]
    {t e : UInt64 → Turn CfiLoop (Status × CfaState)} (ht : Steady c stop t)
    (he : Steady c stop e) : Steady c stop fun x => if P then t x else e x := by
  by_cases h : P
  · simpa only [if_pos h] using ht
  · simpa only [if_neg h] using he

/-- A turn that reads one unsigned operand. -/
lemma Steady.uleb {s : CfiLoop} {c : UInt64}
    {k : UInt64 → UInt64 → UInt64 → Turn CfiLoop (Status × CfaState)}
    (hk : ∀ v c', c' ≤ stop → Steady c' stop fun e => k e v c') :
    Steady c stop fun e => Dwunw.onRead s ((readUleb c e).val m) (k e) :=
  .onRead (readUleb_stable c stop) fun v c' _ hle => hk v c' hle

/-- A turn that reads one signed operand. -/
lemma Steady.sleb {s : CfiLoop} {c : UInt64}
    {k : UInt64 → Int64 → UInt64 → Turn CfiLoop (Status × CfaState)}
    (hk : ∀ v c', c' ≤ stop → Steady c' stop fun e => k e v c') :
    Steady c stop fun e => Dwunw.onRead s ((readSleb c e).val m) (k e) :=
  .onRead (readSleb_stable c stop) fun v c' _ hle => hk v c' hle

lemma cfiSwitch_steady {s : CfiLoop} {opcode : UInt8} {c : UInt64} (hc : c ≤ stop) :
    Steady c stop fun e => cfiSwitch m cie e pcBegin targetPc initial s opcode c := by
  unfold cfiSwitch
  refine .ite (.next hc) <| .ite (locationTurn_steady hc) <| .ite (locationTurn_steady hc) <|
    .ite (locationTurn_steady hc) <| .ite (locationTurn_steady hc) ?_
  -- the arms with LEB128 operands
  refine .ite (.uleb fun _ _ _ => .uleb fun _ _ hle => .next hle) <|
    .ite (.uleb fun _ _ hle => .next hle) <| .ite (.uleb fun _ _ hle => .next hle) <|
    .ite (.done _) <| .ite (.done _) <|
    .ite (.uleb fun _ _ _ => .uleb fun _ _ hle => .next hle) <|
    .ite (.uleb fun _ _ hle => .next hle) <|
    .ite (.uleb fun _ _ _ => .sleb fun _ _ hle => .next hle) <|
    .ite (.sleb fun _ _ hle => .next hle) (.done _)

/-- A turn that goes on goes forward, to the stop at most, and would go the same way with any
stop behind its new cursor. -/
theorem cfiTurn_next {s s' : CfiLoop}
    (h : cfiTurn m cie stop pcBegin targetPc initial s = .next s') :
    s.cursor < s'.cursor ∧ s'.cursor ≤ stop ∧
      ∀ stop', s'.cursor ≤ stop' → stop' ≤ stop →
        cfiTurn m cie stop' pcBegin targetPc initial s = .next s' := by
  have hc : s.cursor < stop := by
    by_contra hnot
    rw [cfiTurn, if_neg hnot] at h
    cases h
  have hc1 : s.cursor + 1 ≤ stop ∧ s.cursor < s.cursor + 1 := by grind
  -- the turn behind the test of the cursor
  let body (e : UInt64) : Turn CfiLoop (Status × CfaState) :=
    if m s.cursor &&& 0xc0 = 0x40 then
      if targetPc < pcBegin + (s.pcOffset + (m s.cursor &&& 0x3f).toUInt64 * cie.codeAlign) then
        .done (.ok, s.state)
      else .next ⟨s.cursor + 1,
        s.pcOffset + (m s.cursor &&& 0x3f).toUInt64 * cie.codeAlign, s.state⟩
    else if m s.cursor &&& 0xc0 = 0x80 then
      onRead s ((readUleb (s.cursor + 1) e).val m) fun offset cursor =>
        .next ⟨cursor, s.pcOffset,
          if (m s.cursor &&& 0x3f).toNat < regsetSlots then
            s.state.setRule (m s.cursor &&& 0x3f).toNat ⟨.offset, factoredOffset cie offset⟩
          else s.state⟩
    else if m s.cursor &&& 0xc0 = 0xc0 then
      .next ⟨s.cursor + 1, s.pcOffset,
        if (m s.cursor &&& 0x3f).toNat < regsetSlots then
          s.state.restoreRule initial (m s.cursor &&& 0x3f).toNat
        else s.state⟩
    else cfiSwitch m cie e pcBegin targetPc initial s (m s.cursor) (s.cursor + 1)
  have hbody (e : UInt64) (he : s.cursor < e) :
      cfiTurn m cie e pcBegin targetPc initial s = body e := by
    rw [cfiTurn, if_pos he]
  have hsteady : Steady (s.cursor + 1) stop body :=
    .ite (.ite (.done _) (.next hc1.1)) <| .ite (.uleb fun _ _ hle => .next hle) <|
      .ite (.next hc1.1) (cfiSwitch_steady hc1.1)
  rw [hbody stop hc] at h
  obtain ⟨hle, hstop, hsame⟩ := hsteady s' h
  have hlt := UInt64.lt_of_lt_of_le hc1.2 hle
  refine ⟨hlt, hstop, fun stop' hs' hle' => ?_⟩
  rw [hbody stop' (UInt64.lt_of_lt_of_le hlt hs')]
  exact hsame stop' hs' hle'

/-! ### The opcodes that are there -/

/-- The opcodes `execute_cfi` has an arm for, other than the two that give up. -/
def cfiImplemented (opcode : UInt8) : Prop :=
  opcode &&& 0xc0 ≠ 0 ∨
    opcode ∈ [0x00, 0x01, 0x02, 0x03, 0x04, 0x0c, 0x0d, 0x0e, 0x11, 0x12, 0x1a, 0x1b]

instance : DecidablePred cfiImplemented := fun _ => inferInstanceAs (Decidable (_ ∨ _))

/-- A turn that can leave with `DWUNW_ERR_NOT_IMPLEMENTED` in no way. -/
def Answers (t : Turn CfiLoop (Status × CfaState)) : Prop :=
  ∀ state, t ≠ .done (.notImplemented, state)

lemma Answers.next (s' : CfiLoop) : Answers (.next s') := nofun

lemma Answers.done {st : Status} (h : st ≠ .notImplemented) (state : CfaState) :
    Answers (.done (st, state)) := by
  rintro _ ⟨⟩
  exact h rfl

lemma Answers.ite {P : Prop} [Decidable P] {t e : Turn CfiLoop (Status × CfaState)}
    (ht : Answers t) (he : Answers e) : Answers (if P then t else e) := by
  split_ifs
  · exact ht
  · exact he

lemma Answers.onRead {α : Type} {s : CfiLoop} {x : Except Status (α × UInt64)}
    {k : α → UInt64 → Turn CfiLoop (Status × CfaState)}
    (hx : ∀ st, x = .error st → st = .badFormat)
    (hk : ∀ v c', Answers (k v c')) : Answers (Dwunw.onRead s x k) := by
  rcases x with st | ⟨v, c'⟩
  · exact .done (by rw [hx st rfl]; decide) _
  · exact hk v c'

lemma Answers.uleb {s : CfiLoop} {c stop : UInt64}
    {k : UInt64 → UInt64 → Turn CfiLoop (Status × CfaState)} (hk : ∀ v c', Answers (k v c')) :
    Answers (Dwunw.onRead s ((readUleb c stop).val m) k) :=
  .onRead (fun _ => readUleb_error) hk

lemma Answers.sleb {s : CfiLoop} {c stop : UInt64}
    {k : Int64 → UInt64 → Turn CfiLoop (Status × CfaState)} (hk : ∀ v c', Answers (k v c')) :
    Answers (Dwunw.onRead s ((readSleb c stop).val m) k) :=
  .onRead (fun _ => readSleb_error) hk

lemma Answers.location {s : CfiLoop} {c size : UInt64} {newOffset : UInt64 → UInt64} :
    Answers (locationTurn m stop pcBegin targetPc s c size newOffset) :=
  .onRead (fun _ => readFixedSize_error) fun _ _ => .ite (.next _) (.next _)

/-- The turn gives up exactly when the opcode is not there. -/
def GivesUpOnly (opcode : UInt8) (s : CfiLoop) (t : Turn CfiLoop (Status × CfaState)) : Prop :=
  ∀ state, t = .done (.notImplemented, state) ↔ ¬ cfiImplemented opcode ∧ state = s.state

/-- An arm that answers. -/
lemma GivesUpOnly.arm {opcode k : UInt8} {s : CfiLoop} {t e : Turn CfiLoop (Status × CfaState)}
    (ht : Answers t) (hk : cfiImplemented k) (he : opcode ≠ k → GivesUpOnly opcode s e) :
    GivesUpOnly opcode s (if opcode = k then t else e) := by
  intro state
  by_cases h : opcode = k
  · rw [if_pos h]
    exact ⟨fun hd => absurd hd (ht state), fun hn => absurd (h ▸ hk) hn.1⟩
  · rw [if_neg h]
    exact he h state

/-- An arm that gives up. -/
lemma GivesUpOnly.gap {opcode k : UInt8} {s : CfiLoop} {e : Turn CfiLoop (Status × CfaState)}
    (hk : ¬ cfiImplemented k) (he : opcode ≠ k → GivesUpOnly opcode s e) :
    GivesUpOnly opcode s (if opcode = k then .done (.notImplemented, s.state) else e) := by
  intro state
  by_cases h : opcode = k
  · rw [if_pos h]
    exact ⟨fun hd => ⟨h ▸ hk, by cases hd; rfl⟩, fun hn => by rw [hn.2]⟩
  · rw [if_neg h]
    exact he h state

/-- The arms of the `switch` answer, and outside them it gives up. -/
lemma cfiSwitch_givesUpOnly {s : CfiLoop} {opcode : UInt8} {c : UInt64}
    (hop : opcode &&& 0xc0 = 0) : GivesUpOnly opcode s
      (cfiSwitch m cie stop pcBegin targetPc initial s opcode c) := by
  unfold cfiSwitch
  refine .arm (.next _) (by decide) fun h0 => .arm .location (by decide) fun h1 =>
    .arm .location (by decide) fun h2 => .arm .location (by decide) fun h3 =>
    .arm .location (by decide) fun h4 => ?_
  refine .arm (.uleb fun _ _ => .uleb fun _ _ => .next _) (by decide) fun hc =>
    .arm (.uleb fun _ _ => .next _) (by decide) fun hd =>
    .arm (.uleb fun _ _ => .next _) (by decide) fun he =>
    .gap (by decide) fun _ => .gap (by decide) fun _ => ?_
  refine .arm (.uleb fun _ _ => .uleb fun _ _ => .next _) (by decide) fun h11 =>
    .arm (.uleb fun _ _ => .next _) (by decide) fun h12 =>
    .arm (.uleb fun _ _ => .sleb fun _ _ => .next _) (by decide) fun h1a =>
    .arm (.sleb fun _ _ => .next _) (by decide) fun h1b => ?_
  have hnot : ¬ cfiImplemented opcode := by
    rintro (h | h)
    · exact h hop
    · simp_all
  exact fun state => ⟨fun hd => ⟨hnot, by cases hd; rfl⟩, fun hn => by rw [hn.2]⟩

/-- A turn leaves with `DWUNW_ERR_NOT_IMPLEMENTED` exactly on an opcode that is not there, and
leaves the state as it is. -/
theorem cfiTurn_notImplemented_iff {s : CfiLoop} {state : CfaState} :
    cfiTurn m cie stop pcBegin targetPc initial s = .done (.notImplemented, state) ↔
      s.cursor < stop ∧ ¬ cfiImplemented (m s.cursor) ∧ state = s.state := by
  rw [cfiTurn]
  by_cases hc : s.cursor < stop
  swap
  · rw [if_neg hc]
    exact ⟨fun h => absurd h ((Answers.done (by decide) _) state), fun h => absurd h.1 hc⟩
  rw [if_pos hc]
  dsimp only
  have hprimary {t : Turn CfiLoop (Status × CfaState)} (ht : Answers t)
      (hop : m s.cursor &&& 0xc0 ≠ 0) :
      t = .done (.notImplemented, state) ↔
        s.cursor < stop ∧ ¬ cfiImplemented (m s.cursor) ∧ state = s.state :=
    ⟨fun h => absurd h (ht state), fun h => absurd (.inl hop) h.2.1⟩
  by_cases h1 : m s.cursor &&& 0xc0 = 0x40
  · rw [if_pos h1]
    exact hprimary (.ite (.done (by decide) _) (.next _)) (by rw [h1]; decide)
  rw [if_neg h1]
  by_cases h2 : m s.cursor &&& 0xc0 = 0x80
  · rw [if_pos h2]
    exact hprimary (.uleb fun _ _ => .next _) (by rw [h2]; decide)
  rw [if_neg h2]
  by_cases h3 : m s.cursor &&& 0xc0 = 0xc0
  · rw [if_pos h3]
    exact hprimary (.next _) (by rw [h3]; decide)
  rw [if_neg h3]
  have hop : m s.cursor &&& 0xc0 = 0 := by
    refine UInt8.forall_of_lt (P := fun b => ¬ b &&& 0xc0 = 0x40 → ¬ b &&& 0xc0 = 0x80 →
      ¬ b &&& 0xc0 = 0xc0 → b &&& 0xc0 = 0) ?_ _ h1 h2 h3
    decide +kernel
  rw [cfiSwitch_givesUpOnly hop state]
  exact ⟨fun h => ⟨hc, h⟩, fun h => h.2⟩

/-! ### The end of the loop -/

/-- The loop of `execute_cfi` ends, with what `executeCfi` returns, where the program does not
wrap around the address space. -/
theorem executeCfi_ends (m : ByteMem) (cie : CieRecord) (pcBegin targetPc : UInt64)
    (state initial : CfaState) {program size : UInt64}
    (hmem : program.toNat + size.toNat < 2 ^ 64) :
    Ends (cfiTurn m cie (program + size) pcBegin targetPc initial) ⟨program, 0, state⟩
      (executeCfi m cie program size pcBegin targetPc state initial) := by
  have hstop : (program + size).toNat = program.toNat + size.toNat :=
    UInt64.toNat_add_of_lt hmem
  have hstart : program ≤ program + size := by
    rw [UInt64.le_iff_toNat_le, hstop]
    omega
  have hnext (s s' : CfiLoop) (hs : s.cursor ≤ program + size)
      (h : cfiTurn m cie (program + size) pcBegin targetPc initial s = .next s') :
      s'.cursor ≤ program + size ∧ (program + size).toNat - s'.cursor.toNat <
        (program + size).toNat - s.cursor.toNat := by
    obtain ⟨hlt, hle, -⟩ := cfiTurn_next h
    refine ⟨hle, ?_⟩
    rw [UInt64.lt_iff_toNat_lt] at hlt
    rw [UInt64.le_iff_toNat_le] at hle
    omega
  have hfuel : (program + size).toNat - program.toNat < size.toNat + 1 := by
    rw [hstop]
    omega
  obtain ⟨r, hr⟩ := run_of_variant (I := fun s : CfiLoop => s.cursor ≤ program + size)
    (μ := fun s => (program + size).toNat - s.cursor.toNat) hnext
    (s := ⟨program, 0, state⟩) hstart hfuel
  rw [executeCfi, hr, Option.getD_some]
  exact ends_of_run hr

end Dwunw
