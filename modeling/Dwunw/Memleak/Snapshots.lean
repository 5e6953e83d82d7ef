import Dwunw.Memleak.EventRuns
import Dwunw.ModuleFile

/-!
From the registers of a thread to the frames that are printed of it.

* `PtRegs.Numbered`: the registers of a thread, under the numbers that call frame information has
  for them.
* `ShowsFrame`, `ShowsChain`: the frames that printed lines show.
* `callChain_unfolds`, `eventReport_showsChain`: what is printed of a stack of calls.
* `memleakUser_showsChain`: the callers that `memleak_user` prints of an event.
* `dwunwUser_firstCaller`: the first caller that `memleak_dwunw_user` prints, from a snapshot in
  which the registers have other places.
-/

namespace Dwunw.Memleak

open CallFrame Elf Runs Unfold

/-! ### What printed lines show -/

/-- The lines show a frame at this place. -/
def ShowsFrame (lines : List EventLine) (i : ℕ) (pc sp : UInt64) : Prop :=
  ∃ ra flags path, EventLine.frame i pc sp ra flags path ∈ lines

/-- The lines show the callers of a stack of calls. -/
def ShowsChain (lines : List EventLine) (depth : ℕ) (rows : ℕ → CallerRow) (pc : ℕ → UInt64)
    (callers : ℕ → Fin regsetSlots → UInt64) : Prop :=
  ∀ i < depth, ShowsFrame lines (i + 1) (pc (i + 1)) ((rows i).cfa (callers i))

/-- Lines that show the frames, each at its place. -/
def PrintsFrames (frameLines : List Frame → List EventLine) : Prop :=
  ∀ frames i pc sp, ShowsFrame (frameLines frames) i pc sp ↔
    ∃ f, frames[i]? = some f ∧ f.pc = pc ∧ f.sp = sp

lemma showsFrame_mapIdx {head : EventLine} (path : Frame → Option CString) {frames : List Frame}
    {i : ℕ} {pc sp : UInt64} (hhead : ∀ pc sp ra flags path, head ≠ .frame i pc sp ra flags path) :
    ShowsFrame (head :: frames.mapIdx fun i f => .frame i f.pc f.sp f.ra f.flags (path f)) i pc sp ↔
      ∃ f, frames[i]? = some f ∧ f.pc = pc ∧ f.sp = sp := by
  constructor
  · rintro ⟨ra, flags, p, hmem⟩
    rcases List.mem_cons.mp hmem with heq | hmem
    · exact absurd heq.symm (hhead _ _ _ _ _)
    · obtain ⟨j, hj, heq⟩ := List.mem_mapIdx.mp hmem
      obtain ⟨rfl, hpc, hsp, -⟩ := EventLine.frame.inj heq
      exact ⟨frames[j], List.getElem?_eq_getElem hj, hpc, hsp⟩
  · rintro ⟨f, hf, rfl, rfl⟩
    obtain ⟨hi, rfl⟩ := List.getElem?_eq_some_iff.mp hf
    exact ⟨_, _, _, List.mem_cons_of_mem _ (List.mem_mapIdx.mpr ⟨i, hi, rfl⟩)⟩

lemma dwunwPrintFrames_prints (pid : UInt32) (comm : CString) :
    PrintsFrames (dwunwPrintFrames pid comm) := fun _ _ _ _ =>
  showsFrame_mapIdx (fun f => some f.modulePath) fun _ _ _ _ _ => EventLine.noConfusion

lemma memleakPrintFrames_prints (evt : MemleakEvent) : PrintsFrames (memleakPrintFrames evt) :=
  fun _ _ _ _ => showsFrame_mapIdx (fun _ => none) fun _ _ _ _ _ =>
    EventLine.noConfusion

/-! ### What is printed of a stack of calls -/

section Chain

variable {m : ByteMem} {index : DwarfIndex} {path : CString} {f : UInt64 → Except Status UInt64}
  {sp : Fin regsetSlots} {depth n : ℕ} {rows : ℕ → CallerRow} {ras : ℕ → Fin regsetSlots}
  {pc : ℕ → UInt64} {callers : ℕ → Fin regsetSlots → UInt64} {start : Regset}

variable (path) in
/-- The frames of a stack whose ends are all counted right, when the last caller has no FDE or
there is no more room. -/
lemma callChain_unfolds (h : CallChain m index f sp depth rows ras pc callers)
    (hf : ∀ a, f a ≠ .error .ok) (hpc : start.pc = pc 0) (hregs : start.regs = callers 0)
    (hn : depth ≤ n) (hend : depth = n ∨ cfiFindFde index.fdes.records (pc depth) = none)
    (hright : ∀ i < depth,
      (rows i).cfa (StackWalk.stale sp rows callers i) = (rows i).cfa (callers i)) :
    ∃ fs, unfold (unwindStep m index (archFromRegset start) path f) n start =
        (fs, if depth = n then none else some (some .ok)) ∧ fs.length = depth ∧
      ∀ i, ∀ hi : i < fs.length,
        fs[i].pc = pc (i + 1) ∧ fs[i].sp = (rows i).cfa (callers i) := by
  refine unfold_guided
    (P := fun i (regs : Regset) => regs.pc = pc i ∧ regs.regs = StackWalk.stale sp rows callers i)
    (Q := fun i (fr : Frame) => fr.pc = pc (i + 1) ∧ fr.sp = (rows i).cfa (callers i)) hn
    (fun i hi regs hP => ?_) (hend.imp_right fun hnone regs hP => ?_)
    ⟨hpc, hregs.trans (StackWalk.stale_zero sp rows callers).symm⟩
  · obtain ⟨frame, regs', hstep, hregs', hpc', hframePc, hframeSp, -⟩ :=
      h.step path start hf hi hP.1 hP.2 (hright i hi)
    exact ⟨frame, regs', hstep, ⟨hframePc, hframeSp⟩, hpc', hregs'⟩
  · rw [unwindStep, hP.1, hnone]

variable (path) in
/-- Frames that end where the frames of the stack do have been counted right. -/
lemma callChain_counts (h : CallChain m index f sp depth rows ras pc callers)
    (hf : ∀ a, f a ≠ .error .ok) (hpc : start.pc = pc 0) (hregs : start.regs = callers 0)
    (hshown : ∀ i < depth, ∃ fr,
      (unfold (unwindStep m index (archFromRegset start) path f) n start).1[i]? = some fr ∧
        fr.sp = (rows i).cfa (callers i)) :
    ∀ i < depth, (rows i).cfa (StackWalk.stale sp rows callers i) = (rows i).cfa (callers i) := by
  intro i
  induction i using Nat.strong_induction_on with
  | _ i ih =>
      intro hi
      obtain ⟨fr, hfr, hsp⟩ := hshown i hi
      obtain ⟨hlt, rfl⟩ := List.getElem?_eq_some_iff.mp hfr
      obtain ⟨regs, regs', hiter, hstep⟩ := unfold_getElem hlt
      obtain ⟨regs₁, hiter₁, hpc₁, hregs₁⟩ := h.iterate path hf hpc hregs hi.le fun j hj =>
        ih j hj (hj.trans hi)
      obtain rfl : regs = regs₁ := Option.some.inj (hiter.symm.trans hiter₁)
      have hby := unwindStep_emitted hf (hpc₁ ▸ h.row i hi) hstep
      rw [← hsp, hby.frameSp, hregs₁]

variable {ld : Loader} {elf : ElfHandle} {view : ThreadView} {mode : DwunwMode} {p : UInt32}
  {comm : CString} {frameLines : List Frame → List EventLine}

/-- What a report shows behind its first frame has been captured. -/
lemma showsFrame_reportLines {thread : Option ThreadView} {st : Status} {root : Frame}
    {fs : List Frame} {i : ℕ} {pc' sp' : UInt64} (hprints : PrintsFrames frameLines)
    (h : ShowsFrame (reportLines mode thread p comm frameLines (st, root :: fs)) (i + 1) pc' sp') :
    ∃ fr, fs[i]? = some fr ∧ fr.pc = pc' ∧ fr.sp = sp' := by
  unfold reportLines at h
  by_cases hst : st = .ok
  · rw [if_pos hst] at h
    exact (hprints (root :: fs) (i + 1) pc' sp').mp h
  rw [if_neg hst] at h
  obtain ⟨ra, flags, q, hmem⟩ := h
  cases thread with
  | none => simp at hmem
  | some view =>
      cases mode with
      | off => simp at hmem
      | force => simp at hmem
      | fallback =>
          rcases List.mem_cons.mp hmem with heq | hmem
          · cases heq
          · obtain ⟨fr, hfr, -⟩ := (hprints _ _ _ _).mp ⟨ra, flags, q, hmem⟩
            simp at hfr

/-- What is printed of an event whose module is loaded and whose thread can be attached to. -/
lemma eventReport_loaded (hload : ld.load path = .ok (elf, index)) (hattach : view.attach = .ok)
    (harch : (archFromRegset start).isSome) (mode : DwunwMode) (p : UInt32) (comm : CString)
    (frameLines : List Frame → List EventLine) :
    ∃ root, eventReport m ld path start mode (some view) p comm frameLines =
      ((unfold (unwindStep m index (archFromRegset start) path view.read) 7 start).2.getD
        (some .ok)).map fun st => reportLines mode (some view) p comm frameLines
          (afterView (some view) st, root ::
            (unfold (unwindStep m index (archFromRegset start) path view.read) 7 start).1) := by
  obtain ⟨root, hroot⟩ := exists_root harch .zero
  have hcallers : callerFrames m index path start 7 (some view) =
      unfold (unwindStep m index (archFromRegset start) path view.read) 7 start := if_pos hattach
  refine ⟨root.withPath path, ?_⟩
  rw [eventReport, freshCapture, hload]
  dsimp only
  rw [hroot]
  dsimp only
  rw [hcallers, Option.map_map]
  rfl

/-- What is printed of a stack of calls by the rows of the module, when its last caller has no
FDE or there is no more room: all callers, exactly when no frame is counted from a stale stack
pointer. -/
theorem eventReport_showsChain (hload : ld.load path = .ok (elf, index)) (hw : WellLinked index)
    (hprints : PrintsFrames frameLines) (hattach : view.attach = .ok)
    (hf : ∀ a, view.read a ≠ .error .ok) (harch : (archFromRegset start).isSome)
    (h : CallChain m index view.read sp depth rows ras pc callers) (hpc : start.pc = pc 0)
    (hregs : start.regs = callers 0) (hdepth : depth ≤ 7)
    (hend : depth = 7 ∨ cfiFindFde index.fdes.records (pc depth) = none) :
    ∃ lines, eventReport m ld path start mode (some view) p comm frameLines = some lines ∧
      (ShowsChain lines depth rows pc callers ↔ CountsRight sp depth rows callers) := by
  obtain ⟨root, hreport⟩ := eventReport_loaded (m := m) hload hattach harch mode p comm frameLines
  have hiff : CountsRight sp depth rows callers ↔ ∀ i < depth,
      (rows i).cfa (StackWalk.stale sp rows callers i) = (rows i).cfa (callers i) :=
    forall₂_congr fun i hi => StackWalk.cfa_stale_iff.symm
  have hcounts := callChain_counts (n := 7) path h hf hpc hregs
  have hunfolds := callChain_unfolds path h hf hpc hregs hdepth hend
  rw [hreport, hiff]
  generalize hout : unfold (unwindStep m index (archFromRegset start) path view.read) 7 start = out
    at hcounts hunfolds ⊢
  have hdefined : ∃ st, out.2.getD (some .ok) = some st := by
    cases hr : out.2 with
    | none => exact ⟨.ok, rfl⟩
    | some r =>
        cases r with
        | some st => exact ⟨st, rfl⟩
        | none =>
            rw [← hout] at hr
            obtain ⟨regs, -, hstop⟩ := unfold_result hr
            exact absurd hstop (unwindStep_defined hw)
  obtain ⟨st, hst⟩ := hdefined
  rw [hst, Option.map_some]
  refine ⟨_, rfl, fun hshows => hcounts fun i hi => ?_, fun hright i hi => ?_⟩
  · obtain ⟨fr, hfr, -, hsp⟩ := showsFrame_reportLines hprints (hshows i hi)
    exact ⟨fr, hfr, hsp⟩
  · obtain ⟨fs, rfl, hlen, hall⟩ := hunfolds hright
    have hok : st = .ok := by
      dsimp only at hst
      split_ifs at hst <;> exact (Option.some.inj hst).symm
    have hview : afterView (some view) st = .ok := by
      rw [hok]
      exact hattach
    have hlines : reportLines mode (some view) p comm frameLines
        (afterView (some view) st, root :: fs) = frameLines (root :: fs) := if_pos hview
    rw [hlines]
    have hi' : i < fs.length := hlen ▸ hi
    exact (hprints _ _ _ _).mpr ⟨fs[i], List.getElem?_eq_getElem hi', hall i hi'⟩

/-- A stack of which other registers are known at the start, when its frames are counted from
registers that are the same and its return addresses are saved. -/
lemma callChain_restart (h : CallChain m index f sp depth rows ras pc callers)
    {regs : Fin regsetSlots → UInt64}
    (hbase : ∀ i < depth, regs (rows i).base = callers 0 (rows i).base)
    (hra : ∀ i < depth, ((rows i).saved (ras i)).isSome) :
    CallChain m index f sp depth rows ras pc (StackWalk.restart sp rows callers regs) ∧
      (∀ i < depth, (rows i).cfa (StackWalk.restart sp rows callers regs i) =
        (rows i).cfa (callers i)) ∧
      (CountsRight sp depth rows (StackWalk.restart sp rows callers regs) ↔
        CountsRight sp depth rows callers) := by
  obtain ⟨hwalk, hcfa⟩ := h.walk.restart hbase
  refine ⟨⟨h.row, hwalk, fun i hi => ?_, h.ra_ne⟩, hcfa, ?_⟩
  · rw [h.returns i hi, StackWalk.restart, if_pos (.inl (hra i hi))]
  · refine forall₂_congr fun i hi => forall_congr' fun hsp => ?_
    have hstart : regs sp = callers 0 sp := hsp ▸ hbase i hi
    rw [StackWalk.carried_restart hstart, h.walk.restart_same hstart hi.le]

end Chain

/-! ### Registers -/

/-- The registers of an x86-64 thread, under the numbers that call frame information has for
them. -/
structure PtRegs.Numbered (ctx : PtRegs) (regs : Fin regsetSlots → UInt64) : Prop where
  ax : regs 0 = ctx.ax
  dx : regs 1 = ctx.dx
  cx : regs 2 = ctx.cx
  bx : regs 3 = ctx.bx
  si : regs 4 = ctx.si
  di : regs 5 = ctx.di
  bp : regs 6 = ctx.bp
  sp : regs 7 = ctx.sp

/-- The slots in which a snapshot of `memleak_capture_regs` has the register of that number. -/
lemma memleakCaptureRegs_numbered {ctx : PtRegs} {regs : Fin regsetSlots → UInt64}
    (h : ctx.Numbered regs) {i : Fin regsetSlots} (hi : i ∈ [0, 2, 4, 5, 6, 7]) :
    memleakCaptureRegs ctx i = regs i := by
  simp only [List.mem_cons, List.not_mem_nil, or_false] at hi
  rcases hi with rfl | rfl | rfl | rfl | rfl | rfl
  · exact h.ax.symm
  · exact h.cx.symm
  · exact h.si.symm
  · exact h.di.symm
  · exact h.bp.symm
  · exact h.sp.symm

/-- The slots of the frame pointer and of the stack pointer in a snapshot of `emit_dwunw_event`. -/
lemma snapshotOf_base (ctx : PtRegs) :
    (snapshotOf ctx).regs 6 = ctx.di ∧ (snapshotOf ctx).regs 7 = 0 := ⟨rfl, rfl⟩

/-! ### The callers that are printed -/

section Users

variable {m : ByteMem} {c : FileClass} {file : List UInt8} {es : List (Entry 8)}
  {tail : List UInt8} {calls : CString → ElfCalls} {k : Kernel} {past : List SysCall}
  {f : UInt64 → Except Status UInt64} {depth : ℕ} {rows : ℕ → CallerRow}
  {ras : ℕ → Fin regsetSlots} {pc : ℕ → UInt64} {callers : ℕ → Fin regsetSlots → UInt64}
  {h : Helpers} {ctx : PtRegs}

/-- The register set of an event of an architecture that is supported. -/
lemma memleakEventToRegset_supported {evt : MemleakEvent} (harch : (archResolve evt.arch).isSome) :
    ∃ regs, memleakEventToRegset evt = .ok regs ∧ regs.pc = evt.pc ∧ regs.regs = evt.regs ∧
      (archFromRegset regs).isSome := by
  rw [memleakEventToRegset, regsetPrepare]
  unfold archResolve at harch ⊢
  by_cases hx86 : evt.arch = 1
  · rw [if_pos hx86]
    exact ⟨_, rfl, rfl, rfl, rfl⟩
  rw [if_neg hx86] at harch ⊢
  by_cases harm : evt.arch = 2
  · rw [if_pos harm]
    exact ⟨_, rfl, rfl, rfl, rfl⟩
  rw [if_neg harm] at harch ⊢
  by_cases hmips : evt.arch = 3
  · rw [if_pos hmips]
    exact ⟨_, rfl, rfl, rfl, rfl⟩
  rw [if_neg hmips] at harch
  cases harch

/-- The registers of an event of the BPF programs. -/
lemma eventOf_regs (h : Helpers) (ctx : PtRegs) : (eventOf h ctx).regs =
    some ⟨1, 1, 0, ctx.sp, ctx.ip, (snapshotOf ctx).regs⟩ := rfl

/-- In a snapshot of `emit_dwunw_event` the registers are not in the slots of their numbers.  After
any events, when an event of a thread whose function has a row that counts from the frame pointer
or from the stack pointer prints a caller at all: the end of its frame is right exactly when `rdi`
is what `rbp` is, or `rsp` is 0. -/
theorem dwunwUser_firstCaller {ld : Loader} {mode : DwunwMode} {s s' : DwunwState} {d : Delivery}
    {elf : ElfHandle} {index : DwarfIndex} {row : CallerRow} {ra : Fin regsetSlots}
    {regs : Fin regsetSlots → UInt64} {lines : List EventLine} {pc' sp' : UInt64}
    (hreach : DwunwReach k (fun d => d.loader = ld) mode past s) (hrb : s.rt.rb = true)
    (hd : d.loader = ld) (hevent : d.event = eventOf h ctx)
    (hload : ld.load (procExe d.event.tgid) = .ok (elf, index))
    (hrow : RowAt d.mem index ctx.ip row ra) (hbase : row.base = 6 ∨ row.base = 7)
    (hctx : ctx.Numbered regs) (hpid : 0 < toPid d.event.tgid)
    (hk : FixedReader k (toPid d.event.tgid) (toPid d.event.pid) s.calls .ok f)
    (hdeliver : s.deliver k d = some s') (hprinted : s'.printed = s.printed ++ lines)
    (hshows : ShowsFrame lines 1 pc' sp') :
    sp' = row.cfa regs ↔ if row.base = 6 then ctx.di = ctx.bp else ctx.sp = 0 := by
  have hI := DwunwReach.steady hreach
  have hreport : (s.deliver k d).map DwunwState.printed =
      (d.report mode fun _ _ => ⟨.ok, f⟩).map (s.printed ++ ·) :=
    DwunwState.deliver_report hI.1 hI.2 (hI.2.ready hrb) hd fun _ => hk
  rw [hdeliver, Option.map_some, hprinted, eq_comm, Option.map_eq_some_iff] at hreport
  obtain ⟨lines', hlines', heq⟩ := hreport
  obtain rfl : lines' = lines := List.append_cancel_left heq
  -- the report is that of a capture from the snapshot
  have hframe : ∃ start : Regset, start.regs = (snapshotOf ctx).regs ∧ start.pc = ctx.ip ∧
      ∃ fr, (unfold (unwindStep d.mem index (archFromRegset start) (procExe d.event.tgid) f) 7
        start).1[0]? = some fr ∧ fr.sp = sp' := by
    refine ⟨⟨1, 1, 0, ctx.sp, ctx.ip, (snapshotOf ctx).regs⟩, rfl, rfl, ?_⟩
    unfold Delivery.report at hlines'
    have hsize : ¬ d.dataSz < sizeofDwunwEvent := fun hsize => by
      rw [if_pos hsize] at hlines'
      cases hlines'
      obtain ⟨_, _, _, hmem⟩ := hshows
      cases hmem
    rw [if_neg hsize, hevent, eventOf_regs, ← hevent] at hlines'
    dsimp only at hlines'
    rw [if_pos hpid, hd] at hlines'
    have hloaded : ∃ root, eventReport d.mem ld (procExe d.event.tgid)
        ⟨1, 1, 0, ctx.sp, ctx.ip, (snapshotOf ctx).regs⟩ mode (some ⟨.ok, f⟩) d.event.tgid
          d.event.comm (dwunwPrintFrames d.event.tgid d.event.comm) = _ :=
      eventReport_loaded hload rfl rfl mode _ _ _
    obtain ⟨root, hloaded⟩ := hloaded
    rw [hloaded] at hlines'
    obtain ⟨st, -, rfl⟩ := Option.map_eq_some_iff.mp hlines'
    obtain ⟨fr, hfr, -, hsp⟩ := showsFrame_reportLines (dwunwPrintFrames_prints _ _) hshows
    exact ⟨fr, hfr, hsp⟩
  obtain ⟨start, hregs, hpc, fr, hfr, rfl⟩ := hframe
  obtain ⟨hlt, rfl⟩ := List.getElem?_eq_some_iff.mp hfr
  obtain ⟨t, t', hiter, hstep⟩ := unfold_getElem hlt
  obtain rfl : start = t := Option.some.inj hiter
  have hby := unwindStep_emitted (hk.ne_ok rfl) (hpc ▸ hrow) hstep
  rw [hby.frameSp, StackWalk.Row.cfa, StackWalk.Row.cfa, add_left_inj, hregs]
  rcases hbase with hbase | hbase
  · rw [hbase, if_pos rfl, (snapshotOf_base ctx).1, hctx.bp]
  · rw [hbase, if_neg (by decide), (snapshotOf_base ctx).2, hctx.sp]
    exact eq_comm

end Users

/-! ### Two threads -/

/-- Two frames, and a return address outside of the module. -/
def leavingStack : ByteMem :=
  memOf 0x7000 ([0x20, 0x70, 0, 0, 0, 0, 0, 0, 0x20, 0x10, 0, 0, 0, 0, 0, 0] ++
    List.replicate 16 0 ++ [0, 0, 0, 0, 0, 0, 0, 0, 0, 0x30, 0, 0, 0, 0, 0, 0])

def leavingKernel : Kernel :=
  { nestedKernel with processVmReadv := fun _ _ a size => .copied (peek leavingStack size a) }

def leavingThread : PtRegs := ⟨0, 0, 0, 0, 0, 0, 0x7000, 0x6ff0, 0x1010⟩

def leavingPc : ℕ → UInt64
  | 0 => 0x1010
  | 1 => 0x1020
  | _ => 0x3000

def leavingCallers : ℕ → Fin regsetSlots → UInt64
  | 0 => framedSlots 0x7000 0x6ff0 0
  | 1 => framedSlots 0x7020 0x7010 0x1020
  | _ => framedSlots 0 0x7030 0x3000

def leavingEvent : MemleakEvent :=
  ⟨42, 42, 1, 1, 0, 0x6ff0, 0x1010, memleakCaptureRegs leavingThread, 0, [0x61]⟩

lemma leavingCallers_chain :
    ModuleChain framedEntries (fun a => .ok (wordAt leavingStack a)) 7 2 (fun _ => framedRow)
      (fun _ => 16) leavingPc leavingCallers where
  row i hi := by
    have hpc : leavingPc i = nestedPc i := by interval_cases i <;> rfl
    rw [hpc]
    exact framedEntries_row (by omega)
  walk i hi := by
    refine ⟨fun j place hj => ?_, fun _ => ?_, fun j hj hne => ?_⟩
    · rcases framedRow_saved hj with ⟨rfl, rfl⟩ | ⟨rfl, rfl⟩
      · interval_cases i <;> decide +kernel
      · interval_cases i <;> decide +kernel
    · interval_cases i <;> decide +kernel
    · revert j
      interval_cases i <;> decide +kernel
  returns i hi := by interval_cases i <;> decide +kernel
  ra_ne _ _ := by decide

/-- The registers of `framedThread`. -/
def framedNumbered (i : Fin regsetSlots) : UInt64 :=
  if i = 5 then 0x7000 else framedSlots 0x7100 0x6ff0 0 i

/-- The frame end that is printed is `rdi + 16`. -/
theorem framedThread_misread :
    ∃ s', runtimeUp.deliver framedKernel framedDelivery = some s' ∧
      ShowsFrame s'.printed 1 0x1020 0x7010 ∧ 0x7010 ≠ framedRow.cfa framedNumbered := by
  have hrun : (runtimeUp.deliver framedKernel framedDelivery).any fun s => decide
      (EventLine.frame 1 0x1020 0x7010 0x1020 0 (some (procExe 42)) ∈ s.printed) := by
    decide +kernel
  obtain ⟨s', hs', hmem⟩ := (Option.any_eq_true _ _).mp hrun
  have hshows : ShowsFrame s'.printed 1 0x1020 0x7010 := ⟨_, _, _, of_decide_eq_true hmem⟩
  have hreach : DwunwReach framedKernel (fun d => d.loader = framedLoader) .fallback []
      runtimeUp := runtimeUp_reach
  have hctx : framedThread.Numbered framedNumbered := ⟨rfl, rfl, rfl, rfl, rfl, rfl, rfl, rfl⟩
  have hrow : RowAt framedDelivery.mem framedIndex framedThread.ip framedRow 16 :=
    framedRow_at (show 0 < 3 by decide)
  have hk : FixedReader framedKernel 42 42 [] .ok fun a => .ok (wordAt framedStack a) :=
    framedKernel_shows 42 42 [] (by decide) (.refl [] [])
  have hiff := dwunwUser_firstCaller hreach rfl rfl rfl rfl hrow (.inl rfl) hctx (by decide) hk hs'
    (List.nil_append _).symm hshows
  refine ⟨s', hs', hshows, fun heq => absurd (hiff.mp heq) (by decide)⟩

end Dwunw.Memleak
