import Dwunw.Iteration
import Dwunw.Lib.StackWalk
import Mathlib.Data.UInt

/-!
Recovering a whole stack.

What a capture should find is a walk up the stack by the rows of the index, in which the stack
pointer of every caller is the end of the frame below it.  A capture walks without it: the slot of
the stack pointer is a register like any other.

* `CfaState.Describes`, `RowAt`: the row that an index has for an address.
* `CallChain`: the walk that a capture should find.
* `unwindStep_emits`, `unwindStep_emitted`: a step of the unwinder, as a step of a walk.
* `FollowsChain`: the frames that a capture should write.
* `capture_follows_iff`: it writes them, at every depth, exactly when no frame is counted from a
  stack pointer that is stale.
-/

namespace Dwunw

open Unfold

/-! ### Rows -/

/-- A row of the call-frame tables, of the slots of a snapshot. -/
abbrev CallerRow := StackWalk.Row (Fin regsetSlots) UInt64

/-- What the unwinder has computed for an address is this row. -/
structure CfaState.Describes (s : CfaState) (row : CallerRow) : Prop where
  base : s.cfaReg.toNat = row.base.val
  offset : s.cfaOffset.toUInt64 = row.offset
  saved : ∀ i, row.saved i =
    if (s.regs i).kind = .offset then some (s.regs i).offset.toUInt64 else none

instance (s : CfaState) (row : CallerRow) : Decidable (s.Describes row) :=
  decidable_of_iff (s.cfaReg.toNat = row.base.val ∧ s.cfaOffset.toUInt64 = row.offset ∧
      ∀ i, row.saved i =
        if (s.regs i).kind = .offset then some (s.regs i).offset.toUInt64 else none)
    ⟨fun ⟨hbase, hoffset, hsaved⟩ => ⟨hbase, hoffset, hsaved⟩,
      fun h => ⟨h.base, h.offset, h.saved⟩⟩

/-- The index has this row for an address, with this register for the return address. -/
def RowAt (m : ByteMem) (index : DwarfIndex) (pc : UInt64) (row : CallerRow)
    (ra : Fin regsetSlots) : Prop :=
  ∃ i fde cie s, cfiFindFde index.fdes.records pc = some i ∧ index.fdes.records[i]? = some fde ∧
    index.cies.deref fde.cie = some cie ∧ cie.returnReg.toNat = ra.val ∧
    cfiRow m cie fde pc = .ok s ∧ s.Describes row

variable {m : ByteMem} {index : DwarfIndex} {ops : Option ArchOps} {path : CString}
  {f : UInt64 → Except Status UInt64} {row : CallerRow} {ra : Fin regsetSlots} {regs : Regset}
  {s : CfaState}

lemma CfaState.Describes.cfa (h : s.Describes row) (regs : Regset) :
    rowCfa s regs = row.cfa regs.regs := by
  have hlt : s.cfaReg.toNat < regsetSlots := h.base ▸ row.base.isLt
  have hbase : (⟨s.cfaReg.toNat, hlt⟩ : Fin regsetSlots) = row.base := Fin.ext h.base
  rw [rowCfa, regValue_slot regs hlt, hbase, h.offset]
  rfl

lemma CfaState.Describes.saved_some (h : s.Describes row) {i : Fin regsetSlots}
    (hi : (s.regs i).kind = .offset) : row.saved i = some (s.regs i).offset.toUInt64 := by
  rw [h.saved, if_pos hi]

/-! ### Steps -/

/-- The reader of a step, which may fail. -/
def readable (f : UInt64 → Except Status UInt64) (a : UInt64) : Option UInt64 := (f a).toOption

lemma readable_eq_some {a v : UInt64} : readable f a = some v ↔ f a = .ok v := by
  rw [readable]
  cases f a <;> simp [Except.toOption]

variable (ops path) in
/-- A step that comes to a row is an evaluation of it. -/
lemma unwindStep_eq (f : UInt64 → Except Status UInt64) (hrow : RowAt m index regs.pc row ra) :
    ∃ s : CfaState, s.Describes row ∧ s.SavesOnly ∧
      unwindStep m index ops path f regs =
        let ev := applyRow s ra regs (functionReader f) () .zero
        if ev.status ≠ .ok then .stop (some ev.status)
        else
          .emit ({ ev.frame with flags := ev.frame.flags &&& ~~~framePartial }.withPath path)
            (normalizeCursor ops ev.regs) := by
  obtain ⟨i, fde, cie, s, hfind, hget, hderef, hret, hs, hdescribes⟩ := hrow
  obtain ⟨fde', hget', -, hcovers⟩ := cfiFindFde_eq_some hfind
  obtain rfl : fde = fde' := Option.some.inj (hget.symm.trans hget')
  have hlt : cie.returnReg.toNat < regsetSlots := hret ▸ ra.isLt
  have hslot : (⟨cie.returnReg.toNat, hlt⟩ : Fin regsetSlots) = ra := Fin.ext hret
  have hev : turnEval m index (functionReader f) ⟨0, regs, fun _ => .zero, ()⟩ i =
      some (applyRow s ra regs (functionReader f) () .zero) := by
    rw [turnEval, hget, Option.bind_some, hderef, Option.bind_some,
      cfiEval_applyRow hcovers hs hlt, hslot]
  refine ⟨s, hdescribes, cfiRow_saves hs, ?_⟩
  rw [unwindStep, hfind]
  dsimp only
  rw [hev]

/-- The evaluation of a row over a function, as the steps it takes. -/
lemma applyRow_functionReader (hf : ∀ a, f a ≠ .error .ok) (s : CfaState) (ra : Fin regsetSlots)
    (regs : Regset) :
    RowApplication s ra regs (functionReader f) () .zero
      (applyRow s ra regs (functionReader f) () .zero) :=
  applyRow_application (fun _ a => hf a) s ra regs () .zero

/-- What a row makes of the registers, over a function. -/
lemma restores_of_application {ev : EvalResult Unit}
    (hdescribes : s.Describes row) (hsaves : s.SavesOnly)
    (happ : RowApplication s ra regs (functionReader f) () .zero ev) (hok : ev.status = .ok) :
    StackWalk.Restores (readable f) row regs.regs ev.regs.regs ∧
      ev.regs.pc = ev.regs.regs ra ∧ ev.frame.pc = ev.regs.pc ∧
      ev.frame.sp = row.cfa regs.regs ∧ ev.frame.cfa = row.cfa regs.regs := by
  cases happ with
  | noReturn hst _ => exact absurd hok hst
  | unread hst _ _ => exact absurd hok hst
  | @applied ra' table c c' hra hsweep =>
      have hreader : ∀ (c : Unit) (a : UInt64), (functionReader f c a).1 = f a := fun _ _ => rfl
      have hslots := slotsAssigned_of_sweep hreader hsweep
      have hcfa := hdescribes.cfa regs
      refine ⟨⟨fun i place hi => ?_, fun i hi => ?_⟩, hslots.returnAddress hreader hra, rfl, hcfa,
        hcfa⟩
      · rw [hdescribes.saved] at hi
        split_ifs at hi with hkind
        obtain rfl := Option.some.inj hi
        rw [readable_eq_some, ← hcfa]
        exact hslots.restored i hkind
      · rw [hdescribes.saved] at hi
        split_ifs at hi with hkind
        refine hslots.kept i ?_
        cases hk : (s.regs i).kind with
        | offset => exact absurd hk hkind
        | undefined => exact absurd hk (hsaves i)
        | sameValue => rfl

/-- No architecture changes the slots when it normalizes the registers. -/
lemma normalizeCursor_regs (regs regs' : Regset) :
    (normalizeCursor (archFromRegset regs) regs').regs = regs'.regs ∧
      (normalizeCursor (archFromRegset regs) regs').pc = regs'.pc := by
  rw [archFromRegset, archResolve]
  split_ifs <;> exact ⟨rfl, rfl⟩

/-- What a step comes to that goes on from a row. -/
structure StepsBy (f : UInt64 → Except Status UInt64) (row : CallerRow) (ra : Fin regsetSlots)
    (regs : Regset) (frame : Frame) (regs' : Regset) : Prop where
  restores : StackWalk.Restores (readable f) row regs.regs regs'.regs
  pc : regs'.pc = regs'.regs ra
  framePc : frame.pc = regs'.pc
  frameSp : frame.sp = row.cfa regs.regs
  frameCfa : frame.cfa = row.cfa regs.regs

variable {start : Regset}

variable (path start) in
lemma stepsBy_of_application {ev : EvalResult Unit} (hdescribes : s.Describes row)
    (hsaves : s.SavesOnly)
    (happ : RowApplication s ra regs (functionReader f) () .zero ev) (hok : ev.status = .ok) :
    StepsBy f row ra regs
      ({ ev.frame with flags := ev.frame.flags &&& ~~~framePartial }.withPath path)
      (normalizeCursor (archFromRegset start) ev.regs) := by
  obtain ⟨hrestores, hpc, hframePc, hframeSp, hframeCfa⟩ :=
    restores_of_application hdescribes hsaves happ hok
  obtain ⟨hregs, hpc'⟩ := normalizeCursor_regs start ev.regs
  exact ⟨hregs ▸ hrestores, by rw [hpc', hregs, hpc], by rw [hpc']; exact hframePc, hframeSp,
    hframeCfa⟩

/-- A step that goes on has gone by the row of its address. -/
lemma unwindStep_emitted (hf : ∀ a, f a ≠ .error .ok) (hrow : RowAt m index regs.pc row ra)
    {frame : Frame} {regs' : Regset}
    (hstep : unwindStep m index (archFromRegset start) path f regs = .emit frame regs') :
    StepsBy f row ra regs frame regs' := by
  obtain ⟨s, hdescribes, hsaves, heq⟩ := unwindStep_eq (archFromRegset start) path f hrow
  have happ := applyRow_functionReader hf s ra regs
  rw [heq] at hstep
  dsimp only at hstep
  split_ifs at hstep with hst
  cases hstep
  exact stepsBy_of_application path start hdescribes hsaves happ (not_not.mp hst)

variable (path start) in
/-- A step goes on where there is a row and what it saves can be read. -/
lemma unwindStep_emits (hf : ∀ a, f a ≠ .error .ok) (hrow : RowAt m index regs.pc row ra)
    (hmem : ∀ i place, row.saved i = some place → ∃ v, f (row.cfa regs.regs + place) = .ok v) :
    ∃ frame regs', unwindStep m index (archFromRegset start) path f regs = .emit frame regs' ∧
      StepsBy f row ra regs frame regs' := by
  obtain ⟨s, hdescribes, hsaves, heq⟩ := unwindStep_eq (archFromRegset start) path f hrow
  have hplace : ∀ i, (s.regs i).kind = .offset →
      ∃ v, f (rowCfa s regs + (s.regs i).offset.toUInt64) = .ok v := by
    intro i hi
    rw [hdescribes.cfa]
    exact hmem i _ (hdescribes.saved_some hi)
  have happ := applyRow_functionReader hf s ra regs
  have hok : (applyRow s ra regs (functionReader f) () .zero).status = .ok := by
    generalize applyRow s ra regs (functionReader f) () .zero = ev at happ ⊢
    cases happ with
    | applied _ _ => rfl
    | @unread _ _ _ c _ _ _ hsweep =>
        have hfetch : Sweep.Fetches (slotFetch s (rowCfa s regs) (functionReader f))
            (List.finRange regsetSlots) c := by
          refine Sweep.Fetches.of_invariant (I := fun _ => True) (fun i c _ => ?_) _ trivial
          refine slotFetch_ok (fun hi => ?_) trivial
          obtain ⟨v, hv⟩ := hplace i hi
          exact ⟨v, (), by rw [functionReader, hv], trivial⟩
        rw [← Sweep.sweep_ok_iff _ regs.regs, hsweep] at hfetch
        cases hfetch
    | noReturn _ hra =>
        rw [returnAddress] at hra
        cases hk : (s.regs ra).kind with
        | sameValue =>
            rw [hk] at hra
            cases hra
        | undefined => exact absurd hk (hsaves _)
        | offset =>
            obtain ⟨v, hv⟩ := hplace ra hk
            rw [hk] at hra
            dsimp only [applyRule, functionReader] at hra
            rw [hv] at hra
            cases hra
  have hby := stepsBy_of_application path start hdescribes hsaves happ hok
  refine ⟨_, _, ?_, hby⟩
  rw [heq]
  dsimp only
  rw [if_neg (not_not.mpr hok)]

/-- On a well-linked index no step is undefined. -/
lemma unwindStep_defined (hw : WellLinked index) :
    unwindStep m index ops path f regs ≠ .stop none := by
  rw [unwindStep]
  cases hfind : cfiFindFde index.fdes.records regs.pc with
  | none => simp
  | some i =>
      obtain ⟨ev, hev⟩ := exists_turnEval m (functionReader f) hw
        (s := ⟨0, regs, fun _ => .zero, ()⟩) hfind
      dsimp only
      rw [hev]
      dsimp only
      split_ifs <;> simp

/-! ### Chains of calls -/

/-- A stack of `depth` calls: the registers of the callers by the rows of the index, and their
return addresses. -/
structure CallChain (m : ByteMem) (index : DwarfIndex) (f : UInt64 → Except Status UInt64)
    (sp : Fin regsetSlots) (depth : ℕ) (rows : ℕ → CallerRow) (ra : ℕ → Fin regsetSlots)
    (pc : ℕ → UInt64) (callers : ℕ → Fin regsetSlots → UInt64) : Prop where
  row : ∀ i < depth, RowAt m index (pc i) (rows i) (ra i)
  walk : StackWalk.Walk (readable f) sp depth rows callers
  returns : ∀ i < depth, pc (i + 1) = callers (i + 1) (ra i)
  ra_ne : ∀ i < depth, ra i ≠ sp

/-- No frame is counted from a stack pointer that is not the one of its function. -/
def CountsRight (sp : Fin regsetSlots) (depth : ℕ) (rows : ℕ → CallerRow)
    (callers : ℕ → Fin regsetSlots → UInt64) : Prop :=
  ∀ i < depth, (rows i).base = sp → StackWalk.carried sp rows callers i = callers i sp

/-- The frames of the callers, in order. -/
def FollowsChain (res : CaptureResult) (depth : ℕ) (rows : ℕ → CallerRow) (pc : ℕ → UInt64)
    (callers : ℕ → Fin regsetSlots → UInt64) : Prop :=
  depth < res.framesWritten ∧ ∀ i < depth, (res.frames (i + 1)).pc = pc (i + 1) ∧
    (res.frames (i + 1)).sp = (rows i).cfa (callers i) ∧
    (res.frames (i + 1)).cfa = (rows i).cfa (callers i)

section Chain

variable {sp : Fin regsetSlots} {depth : ℕ} {rows : ℕ → CallerRow} {ras : ℕ → Fin regsetSlots}
  {pc : ℕ → UInt64} {callers : ℕ → Fin regsetSlots → UInt64}

variable (path start) in
/-- The step from a frame of the chain, as long as its end is counted right. -/
lemma CallChain.step (h : CallChain m index f sp depth rows ras pc callers)
    (hf : ∀ a, f a ≠ .error .ok) {i : ℕ} (hi : i < depth) (hpc : regs.pc = pc i)
    (hregs : regs.regs = StackWalk.stale sp rows callers i)
    (hcfa : (rows i).cfa (StackWalk.stale sp rows callers i) = (rows i).cfa (callers i)) :
    ∃ frame regs', unwindStep m index (archFromRegset start) path f regs = .emit frame regs' ∧
      regs'.regs = StackWalk.stale sp rows callers (i + 1) ∧ regs'.pc = pc (i + 1) ∧
      frame.pc = pc (i + 1) ∧ frame.sp = (rows i).cfa (callers i) ∧
      frame.cfa = (rows i).cfa (callers i) := by
  have hmem : ∀ j place, (rows i).saved j = some place →
      ∃ v, f ((rows i).cfa regs.regs + place) = .ok v := by
    intro j place hj
    rw [hregs, hcfa]
    exact ⟨_, readable_eq_some.mp ((h.walk i hi).saved j place hj)⟩
  obtain ⟨frame, regs', hstep, hby⟩ :=
    unwindStep_emits path start hf (hpc ▸ h.row i hi) hmem
  have hrestored := hby.restores.unique (hregs ▸ h.walk.restores_stale hi hcfa)
  have hpc' : regs'.pc = pc (i + 1) := by
    rw [hby.pc, hrestored, StackWalk.stale_of_ne (h.ra_ne i hi), ← h.returns i hi]
  have hframe : (rows i).cfa regs.regs = (rows i).cfa (callers i) := by rw [hregs, hcfa]
  exact ⟨frame, regs', hstep, hrestored, hpc', hby.framePc.trans hpc', hby.frameSp.trans hframe,
    hby.frameCfa.trans hframe⟩

variable (path) in
/-- The unwinder comes to every frame of the chain below which all ends are counted right. -/
lemma CallChain.iterate (h : CallChain m index f sp depth rows ras pc callers)
    (hf : ∀ a, f a ≠ .error .ok) (hpc : start.pc = pc 0) (hregs : start.regs = callers 0) {i : ℕ}
    (hi : i ≤ depth)
    (hright : ∀ j < i,
      (rows j).cfa (StackWalk.stale sp rows callers j) = (rows j).cfa (callers j)) :
    ∃ regs, Unfold.iterate (unwindStep m index (archFromRegset start) path f) i start =
        some regs ∧ regs.pc = pc i ∧ regs.regs = StackWalk.stale sp rows callers i := by
  induction i with
  | zero => exact ⟨start, rfl, hpc, hregs.trans (StackWalk.stale_zero sp rows callers).symm⟩
  | succ i ih =>
      obtain ⟨regs, hiter, hpc', hregs'⟩ := ih (Nat.le_of_succ_le hi) fun j hj =>
        hright j (Nat.lt_succ_of_lt hj)
      obtain ⟨frame, regs', hstep, hregs'', hpc'', -⟩ := h.step path start hf
        hi hpc' hregs' (hright i (Nat.lt_succ_self i))
      exact ⟨regs', by rw [iterate_snoc hiter hstep], hpc'', hregs''⟩

/-- What comes of a chain when the ends of its frames are counted right below a frame. -/
lemma CallChain.frame (h : CallChain m index f sp depth rows ras pc callers)
    (hf : ∀ a, f a ≠ .error .ok) (hpc : start.pc = pc 0) (hregs : start.regs = callers 0) {i : ℕ}
    (hi : i < depth)
    (hright : ∀ j < i, (rows j).cfa (StackWalk.stale sp rows callers j) = (rows j).cfa (callers j))
    {regs regs' : Regset} {frame : Frame}
    (hiter : Unfold.iterate (unwindStep m index (archFromRegset start) path f) i start = some regs)
    (hstep : unwindStep m index (archFromRegset start) path f regs = .emit frame regs') :
    frame.cfa = (rows i).cfa (StackWalk.stale sp rows callers i) := by
  obtain ⟨regs₁, hiter₁, hpc₁, hregs₁⟩ :=
    h.iterate path hf hpc hregs (Nat.le_of_lt hi) hright
  obtain rfl : regs = regs₁ := Option.some.inj (hiter.symm.trans hiter₁)
  rw [(unwindStep_emitted hf (hpc₁ ▸ h.row i hi) hstep).frameCfa, hregs₁]

variable {ld : Loader} {k : Kernel} {ctx : Context} {req : UnwindRequest} {calls : List SysCall}
  {frames : ℕ → Frame} {st : Status} {cache : ModuleCache} {slot : Slot} {res : CaptureResult}
  {root : Frame}

/-- A capture that follows a chain has counted all ends right. -/
lemma CallChain.counts_right
    (h : CallChain m index f sp depth rows ras pc callers) (hf : ∀ a, f a ≠ .error .ok)
    (hpc : regs.pc = pc 0) (hregs : regs.regs = callers 0) {uses : Prop} {maxFrames : ℕ}
    (hiterates : Iterates (unwindStep m index (archFromRegset regs) path f) uses regs root frames
      maxFrames res) (hfollows : FollowsChain res depth rows pc callers) :
    ∀ i < depth, (rows i).cfa (StackWalk.stale sp rows callers i) = (rows i).cfa (callers i) := by
  intro i
  induction i using Nat.strong_induction_on with
  | _ i ih =>
      intro hi
      obtain ⟨r, r', hiter, hstep⟩ := hiterates.emitted i (by have := hfollows.1; omega)
      rw [← h.frame hf hpc hregs hi (fun j hj => ih j hj (hj.trans hi)) hiter hstep]
      exact (hfollows.2 i hi).2.2

/-- A capture follows a chain whose ends are counted right. -/
lemma CallChain.follows
    (h : CallChain m index f sp depth rows ras pc callers) (hf : ∀ a, f a ≠ .error .ok)
    (hpc : regs.pc = pc 0) (hregs : regs.regs = callers 0) {maxFrames : ℕ}
    (hmax : depth < maxFrames)
    (hiterates : Iterates (unwindStep m index (archFromRegset regs) path f) True regs root frames
      maxFrames res)
    (hright : ∀ i < depth,
      (rows i).cfa (StackWalk.stale sp rows callers i) = (rows i).cfa (callers i)) :
    FollowsChain res depth rows pc callers := by
  have hwritten : depth < res.framesWritten := by
    rcases hiterates.stops trivial with ⟨hfull, -⟩ | ⟨r, hiter, hstop⟩
    · rwa [hfull]
    · by_contra hshort
      have hone := hiterates.written.1
      have hlt : res.framesWritten - 1 < depth := by omega
      obtain ⟨r₁, hiter₁, hpc₁, hregs₁⟩ := h.iterate path hf hpc hregs
        (Nat.le_of_lt hlt) fun j hj => hright j (hj.trans hlt)
      obtain rfl : r = r₁ := Option.some.inj (hiter.symm.trans hiter₁)
      obtain ⟨frame, r', hstep, -⟩ := h.step path regs hf hlt hpc₁ hregs₁
        (hright _ hlt)
      rw [hstep] at hstop
      cases hstop
  refine ⟨hwritten, fun i hi => ?_⟩
  obtain ⟨r, r', hiter, hstep⟩ := hiterates.emitted i (by omega)
  obtain ⟨r₁, hiter₁, hpc₁, hregs₁⟩ := h.iterate path hf hpc hregs
    (Nat.le_of_lt hi) fun j hj => hright j (hj.trans hi)
  obtain rfl : r = r₁ := Option.some.inj (hiter.symm.trans hiter₁)
  obtain ⟨frame, r'', hstep', -, -, hframe⟩ := h.step path regs hf hi hpc₁
    hregs₁ (hright i hi)
  rw [hstep] at hstep'
  cases hstep'
  exact hframe

/-- A supported architecture has a root frame. -/
lemma exists_root (hops : (archFromRegset regs).isSome) (frame : Frame) :
    ∃ root, prepareRootFrame regs frame = .ok root := by
  rw [prepareRootFrame]
  rw [archFromRegset, archResolve] at hops ⊢
  split_ifs at hops ⊢
  · exact ⟨_, rfl⟩
  · exact ⟨_, rfl⟩
  · exact ⟨_, rfl⟩
  · exact absurd hops (by simp)

/-- A capture of a module with a well-linked index is defined. -/
lemma capture_defined (hk : FixedReader k req.pid req.tid calls st f)
    (hreq : Accepted ctx req path regs frames) {st₀ : Status}
    (hacquire : moduleCacheAcquire ld ctx.moduleCache path = (st₀, cache, some slot))
    (hw : WellLinked (cache.entries slot).handle.index) :
    ∃ res, capture m ld k ctx req calls = some res := by
  refine Option.ne_none_iff_exists'.mp fun hnone => ?_
  obtain ⟨path', regs', frames', _, cache', slot', hreq', hacquire', i, r, -, -, hundefined⟩ :=
    capture_undefined hk hnone
  obtain rfl : path = path' := Option.some.inj (hreq.modulePath.symm.trans hreq'.modulePath)
  cases hacquire.symm.trans hacquire'
  exact unwindStep_defined hw hundefined

/-- What a capture writes of a chain of calls by the rows of its module. -/
lemma CallChain.captured_iff (hk : FixedReader k req.pid req.tid calls .ok f)
    (hreq : Accepted ctx req path regs frames) (harch : (archFromRegset regs).isSome)
    (hwants : WantsReader ctx req) {st₀ : Status}
    (hacquire : moduleCacheAcquire ld ctx.moduleCache path = (st₀, cache, some slot))
    (h : CallChain m (cache.entries slot).handle.index f sp depth rows ras pc callers)
    (hpc : regs.pc = pc 0) (hregs : regs.regs = callers 0) (hmax : depth < req.maxFrames)
    (hres : capture m ld k ctx req calls = some res) :
    FollowsChain res depth rows pc callers ↔ CountsRight sp depth rows callers := by
  have hf := hk.ne_ok rfl
  obtain ⟨root, hroot⟩ := exists_root harch (frames 0)
  rw [capture_loaded hreq hacquire] at hres
  obtain ⟨x, hx, rfl⟩ := Option.map_eq_some_iff.mp hres
  have hiterates := capture_iterated hk hreq hroot hx
  have huses : UsesReader ctx req .ok := ⟨hwants, rfl⟩
  rw [eq_true huses] at hiterates
  refine ⟨fun hfollows i hi => ?_, fun hright => ?_⟩
  · exact StackWalk.cfa_stale_iff.mp (h.counts_right hf hpc hregs hiterates hfollows i hi)
  · exact h.follows hf hpc hregs hmax hiterates fun i hi =>
      StackWalk.cfa_stale_iff.mpr (hright i hi)

end Chain

/-! ### Three calls with frame pointers -/

/-- The row of a function with a frame pointer: CFA = `r6` + 16, with `r6` and the return address
saved below it. -/
def framedRow : CallerRow :=
  ⟨6, 16, fun i => if i = 6 then some (-16) else if i = 16 then some (-8) else none⟩

/-- A CIE with this row, whose program lies at address 0x5000. -/
def framedCie : CieRecord := ⟨1, 8, 16, 0, -8, 1, 0, 0, 0, 0x5000, 7⟩

def framedMem : ByteMem := memOf 0x5000 [0x0c, 6, 16, 0x86, 2, 0x90, 1]

/-- An FDE of it without a program of its own, for the addresses from 0x1000 to 0x2000. -/
def framedFde : FdeRecord := ⟨⟨some 0, 0⟩, 16, 0x1000, 0x1000, 0x5007, 0⟩

def framedIndex : DwarfIndex :=
  { DwarfIndex.zero with
    cies := ⟨some 0, [framedCie]⟩
    fdes := ⟨some 1, [framedFde]⟩ }

def framedLoader : Loader := ⟨fun _ => .ok .zero, fun _ => .ok framedIndex⟩

/-- Three frames, of 32 bytes each: the frame pointer of the caller and the return address. -/
def framedStack : ByteMem :=
  memOf 0x7000 ([0x20, 0x70, 0, 0, 0, 0, 0, 0, 0x20, 0x10, 0, 0, 0, 0, 0, 0] ++
    List.replicate 16 0 ++ [0x40, 0x70, 0, 0, 0, 0, 0, 0, 0x30, 0x10, 0, 0, 0, 0, 0, 0] ++
    List.replicate 16 0 ++ [0, 0, 0, 0, 0, 0, 0, 0, 0x40, 0x10, 0, 0, 0, 0, 0, 0])

def framedKernel : Kernel :=
  { nestedKernel with processVmReadv := fun _ _ a size => .copied (peek framedStack size a) }

/-- The slots of `r6`, `r7` and `r16`, all others 0. -/
def framedSlots (fp sp ra : UInt64) (i : Fin regsetSlots) : UInt64 :=
  if i = 6 then fp else if i = 7 then sp else if i = 16 then ra else 0

def framedRegs : Regset := ⟨1, 1, 0, 0x6ff0, 0x1010, framedSlots 0x7000 0x6ff0 0⟩

def framedRequest : UnwindRequest :=
  ⟨some [0x61], some framedRegs, some fun _ => ⟨0, 0, 0, 0, 0, []⟩, 8, 0, 42, 42⟩

def framedCallers : ℕ → Fin regsetSlots → UInt64
  | 0 => framedSlots 0x7000 0x6ff0 0
  | 1 => framedSlots 0x7020 0x7010 0x1020
  | 2 => framedSlots 0x7040 0x7030 0x1030
  | _ => framedSlots 0 0x7050 0x1040

def framedCache : ModuleCache := (moduleCacheAcquire framedLoader moduleCacheInit [0x61]).2.1

lemma framedRow_at {i : ℕ} (hi : i < 3) :
    RowAt framedMem framedIndex (nestedPc i) framedRow 16 := by
  have hfind : cfiFindFde framedIndex.fdes.records (nestedPc i) = some 0 := by
    interval_cases i <;> decide +kernel
  have hrow : (cfiRow framedMem framedCie framedFde (nestedPc i)).toOption.any
      (fun s => decide (s.Describes framedRow)) = true := by
    interval_cases i <;> decide +kernel
  obtain ⟨s, hs, hdescribes⟩ := (Option.any_eq_true _ _).mp hrow
  refine ⟨0, framedFde, framedCie, s, hfind, rfl, rfl, rfl, ?_, of_decide_eq_true hdescribes⟩
  cases h : cfiRow framedMem framedCie framedFde (nestedPc i) with
  | error st =>
      rw [h] at hs
      cases hs
  | ok s' =>
      rw [h] at hs
      exact congrArg Except.ok (Option.some.inj hs)

/-- The row has saved the frame pointer and the return address. -/
lemma framedRow_saved {j : Fin regsetSlots} {place : UInt64}
    (h : framedRow.saved j = some place) :
    j = 6 ∧ place = -16 ∨ j = 16 ∧ place = -8 := by
  have hsaved : ∀ j, framedRow.saved j = none ∨ j = 6 ∧ framedRow.saved j = some (-16) ∨
      j = 16 ∧ framedRow.saved j = some (-8) := by decide +kernel
  rcases hsaved j with hnone | ⟨rfl, hplace⟩ | ⟨rfl, hplace⟩
  · rw [hnone] at h
    cases h
  · exact .inl ⟨rfl, Option.some.inj (h.symm.trans hplace)⟩
  · exact .inr ⟨rfl, Option.some.inj (h.symm.trans hplace)⟩

lemma framedCallers_walk :
    StackWalk.Walk (readable fun a => .ok (wordAt framedStack a)) 7 3 (fun _ => framedRow)
      framedCallers := by
  intro i hi
  refine ⟨fun j place hj => ?_, fun _ => ?_, fun j hj hne => ?_⟩
  · rcases framedRow_saved hj with ⟨rfl, rfl⟩ | ⟨rfl, rfl⟩
    · interval_cases i <;> decide +kernel
    · interval_cases i <;> decide +kernel
  · interval_cases i <;> decide +kernel
  · revert j
    interval_cases i <;> decide +kernel

lemma framedCallers_returns {i : ℕ} (hi : i < 3) : nestedPc (i + 1) = framedCallers (i + 1) 16 := by
  interval_cases i <;> decide +kernel

lemma framedCallers_chain :
    CallChain framedMem (framedCache.entries 0).handle.index
      (fun a => .ok (wordAt framedStack a)) 7 3 (fun _ => framedRow) (fun _ => 16) nestedPc
      framedCallers where
  row i hi := framedRow_at hi
  walk := framedCallers_walk
  returns i hi := framedCallers_returns hi
  ra_ne _ _ := by decide

end Dwunw
