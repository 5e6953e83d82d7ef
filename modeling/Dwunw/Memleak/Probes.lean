import Dwunw.Arch
import Dwunw.Memleak.Maps

/-!
The programs of the leak tracer: `examples/memleak_bcc_dwunw/memleak_dwunw.bpf.c`.

A program runs at a probe, reads the registers of the thread or the record of the tracepoint,
and changes the maps.  What the helpers return to it is a parameter; lines that the programs
print are left out.

* `genAllocEnter`, `genAllocExit2`, `genFreeEnter`: the bodies that the programs share.
* `Program`, `Program.run`: the programs, each under its name in the source.
* `Op`, `Program.ops`, `Program.run_eq`: a program is a sequence of a few operations on the maps.
-/

namespace Dwunw.Memleak

/-! ### State -/

/-- `struct memleak_dwunw_regset_snapshot`. -/
structure RegsetSnapshot where
  arch : UInt16
  version : UInt16
  flags : UInt32
  sp : UInt64
  pc : UInt64
  regs : Fin regsetSlots → UInt64
  deriving DecidableEq

/-- `struct memleak_dwunw_event`. -/
structure DwunwEvent where
  pid : UInt32
  tgid : UInt32
  arch : UInt32
  reserved : UInt32
  comm : List UInt8
  regset : RegsetSnapshot
  deriving DecidableEq

/-- The constants that user space sets before it loads the programs, and whether the kernel has
the tracepoint type that `has_kmem_alloc_node` looks for. -/
structure Rodata where
  minSize : UInt64
  maxSize : UInt64
  pageSize : UInt64
  sampleRate : UInt64
  waMissingFree : Bool
  dwunwEnabled : Bool
  hasKmemAllocNode : Bool

/-- The members of `struct pt_regs` that the programs read, on x86-64. -/
structure PtRegs where
  ax : UInt64
  bx : UInt64
  cx : UInt64
  dx : UInt64
  si : UInt64
  di : UInt64
  bp : UInt64
  sp : UInt64
  ip : UInt64
  deriving DecidableEq

/-- What the helpers return to one run of a program: the ids and the name of the thread, the
clock when a call is entered and when it is left, the stack id, user memory, and whether the
ring buffer has room. -/
structure Helpers where
  pidTgid : UInt64
  comm : List UInt8
  enterNs : UInt64
  exitNs : UInt64
  stackId : Int32
  probeReadUser : UInt64 → Option UInt64
  ringbufReserve : Bool

/-- `const u32 tid = bpf_get_current_pid_tgid()`. -/
def Helpers.tid (h : Helpers) : UInt32 := h.pidTgid.toUInt32

/-- The maps. -/
structure Tracker where
  sizes : BpfHash UInt32 UInt64 10240
  allocs : BpfHash UInt64 AllocInfo allocsMaxEntries
  combinedAllocs : BpfHash UInt64 CombinedAllocInfo combinedAllocsMaxEntries
  memptrs : BpfHash UInt32 UInt64 10240
  dwunwEvents : List DwunwEvent

/-- The maps before anything is traced. -/
def Tracker.init : Tracker := ⟨.empty, .empty, .empty, .empty, []⟩

/-! ### The shared bodies -/

section Bodies

variable (ro : Rodata) (h : Helpers)

/-- The snapshot of `emit_dwunw_event`. -/
def snapshotOf (ctx : PtRegs) : RegsetSnapshot :=
  let regs : Fin regsetSlots → UInt64 := fun _ => 0
  let regs := Function.update regs 0 ctx.bp
  let regs := Function.update regs 1 ctx.ax
  let regs := Function.update regs 2 ctx.bx
  let regs := Function.update regs 3 ctx.cx
  let regs := Function.update regs 4 ctx.dx
  let regs := Function.update regs 5 ctx.si
  let regs := Function.update regs 6 ctx.di
  ⟨1, 1, 0, ctx.sp, ctx.ip, regs⟩

/-- The event of `emit_dwunw_event`. -/
def eventOf (ctx : PtRegs) : DwunwEvent :=
  { pid := h.pidTgid.toUInt32
    tgid := (h.pidTgid >>> 32).toUInt32
    arch := 1
    reserved := 0
    comm := h.comm
    regset := snapshotOf ctx }

/-- `emit_dwunw_event`. -/
def emitDwunwEvent (ctx : PtRegs) (t : Tracker) : Tracker :=
  if ro.dwunwEnabled = false then t
  else if h.ringbufReserve = false then t
  else { t with dwunwEvents := t.dwunwEvents ++ [eventOf h ctx] }

/-- `initial_cinfo`. -/
def initialCinfo : CombinedAllocInfo := ⟨0⟩

/-- `update_statistics_add`. -/
def updateStatisticsAdd (stackId sz : UInt64) (t : Tracker) : Tracker :=
  match lookupOrTryInit t.combinedAllocs stackId initialCinfo with
  | (none, combined) => { t with combinedAllocs := combined }
  | (some _, combined) =>
      let incremental := CombinedAllocInfo.ofFields sz 1
      { t with combinedAllocs := combined.modify stackId fun c => ⟨c.bits + incremental.bits⟩ }

/-- `update_statistics_del`. -/
def updateStatisticsDel (stackId sz : UInt64) (t : Tracker) : Tracker :=
  match t.combinedAllocs.lookup stackId with
  | none => t
  | some _ =>
      let decremental := CombinedAllocInfo.ofFields sz 1
      { t with
        combinedAllocs := t.combinedAllocs.modify stackId fun c => ⟨c.bits - decremental.bits⟩ }

/-- `gen_alloc_enter`. -/
def genAllocEnter (size : UInt64) (t : Tracker) : Tracker :=
  if size < ro.minSize ∨ ro.maxSize < size then t
  else if 1 < ro.sampleRate ∧ h.enterNs % ro.sampleRate ≠ 0 then t
  else { t with sizes := updateIgnored t.sizes h.tid size }

/-- `MAP_FAILED`, converted to a `u64`. -/
def mapFailed : UInt64 := 0xffffffffffffffff

/-- `gen_alloc_exit2`. -/
def genAllocExit2 (address : UInt64) (t : Tracker) : Tracker :=
  match t.sizes.lookup h.tid with
  | none => t
  | some size =>
      let t := { t with sizes := t.sizes.delete h.tid }
      if address ≠ 0 ∧ address ≠ mapFailed then
        let info : AllocInfo := ⟨size, h.exitNs, h.stackId⟩
        let t := { t with allocs := updateIgnored t.allocs address info }
        updateStatisticsAdd info.stackKey info.size t
      else t

/-- `gen_alloc_exit`. -/
def genAllocExit (ctx : PtRegs) (t : Tracker) : Tracker := genAllocExit2 h ctx.ax t

/-- `gen_free_enter`. -/
def genFreeEnter (address : UInt64) (t : Tracker) : Tracker :=
  match t.allocs.lookup address with
  | none => t
  | some info =>
      let t := { t with allocs := t.allocs.delete address }
      updateStatisticsDel info.stackKey info.size t

/-- An entry of an allocator whose size is computed from the registers. -/
def allocEnter (size : PtRegs → UInt64) (ctx : PtRegs) (t : Tracker) : Tracker :=
  genAllocEnter ro h (size ctx) (emitDwunwEvent ro h ctx t)

/-- An entry of an allocator that gives up a block before it allocates. -/
def reallocEnterWith (old size : PtRegs → UInt64) (ctx : PtRegs) (t : Tracker) : Tracker :=
  genAllocEnter ro h (size ctx) (genFreeEnter (old ctx) (emitDwunwEvent ro h ctx t))

end Bodies

/-! ### The programs at probes -/

section Uprobes

variable (ro : Rodata) (h : Helpers) (ctx : PtRegs) (t : Tracker)

def mallocEnter : Tracker := allocEnter ro h (·.di) ctx t

def mallocExit : Tracker := genAllocExit h ctx t

def freeEnter : Tracker := genFreeEnter ctx.di t

def callocEnter : Tracker := allocEnter ro h (fun ctx => ctx.di * ctx.si) ctx t

def callocExit : Tracker := genAllocExit h ctx t

def reallocEnter : Tracker := reallocEnterWith ro h (·.di) (·.si) ctx t

def reallocExit : Tracker := genAllocExit h ctx t

def mmapEnter : Tracker := allocEnter ro h (·.si) ctx t

def mmapExit : Tracker := genAllocExit h ctx t

def munmapEnter : Tracker := genFreeEnter ctx.di t

def mremapEnter : Tracker := reallocEnterWith ro h (·.di) (·.dx) ctx t

def mremapExit : Tracker := genAllocExit h ctx t

def posixMemalignEnter : Tracker :=
  let t := emitDwunwEvent ro h ctx t
  genAllocEnter ro h ctx.dx { t with memptrs := updateIgnored t.memptrs h.tid ctx.di }

def posixMemalignExit : Tracker :=
  match t.memptrs.lookup h.tid with
  | none => t
  | some memptr =>
      let t := { t with memptrs := t.memptrs.delete h.tid }
      match h.probeReadUser memptr with
      | none => t
      | some addr => genAllocExit2 h addr t

def alignedAllocEnter : Tracker := allocEnter ro h (·.si) ctx t

def alignedAllocExit : Tracker := genAllocExit h ctx t

def vallocEnter : Tracker := allocEnter ro h (·.di) ctx t

def vallocExit : Tracker := genAllocExit h ctx t

def memalignEnter : Tracker := allocEnter ro h (·.si) ctx t

def memalignExit : Tracker := genAllocExit h ctx t

def pvallocEnter : Tracker := allocEnter ro h (·.di) ctx t

def pvallocExit : Tracker := genAllocExit h ctx t

end Uprobes

/-! ### The programs at tracepoints -/

section Tracepoints

variable (ro : Rodata) (h : Helpers) (ptr bytesAlloc : UInt64) (t : Tracker)

/-- A tracepoint of the slab allocator. -/
def slabAlloc : Tracker :=
  let t := if ro.waMissingFree = true then genFreeEnter ptr t else t
  genAllocExit2 h ptr (genAllocEnter ro h bytesAlloc t)

/-- Both layouts of the record have the same two members. -/
def memleakKmalloc : Tracker := slabAlloc ro h ptr bytesAlloc t

def memleakKmallocNode : Tracker :=
  if ro.hasKmemAllocNode = true then slabAlloc ro h ptr bytesAlloc t else t

def memleakKfree : Tracker := genFreeEnter ptr t

def memleakKmemCacheAlloc : Tracker := slabAlloc ro h ptr bytesAlloc t

def memleakKmemCacheAllocNode : Tracker :=
  if ro.hasKmemAllocNode = true then slabAlloc ro h ptr bytesAlloc t else t

def memleakKmemCacheFree : Tracker := genFreeEnter ptr t

/-- A shift counts modulo 64. -/
def memleakMmPageAlloc (pfn : UInt64) (order : UInt32) : Tracker :=
  genAllocExit2 h pfn (genAllocEnter ro h (ro.pageSize <<< order.toUInt64) t)

def memleakMmPageFree (pfn : UInt64) : Tracker := genFreeEnter pfn t

def memleakPercpuAllocPercpu : Tracker :=
  genAllocExit2 h ptr (genAllocEnter ro h bytesAlloc t)

def memleakPercpuFreePercpu : Tracker := genFreeEnter ptr t

end Tracepoints

/-! ### The programs -/

/-- A program with the context it runs in. -/
inductive Program where
  | mallocEnter (ctx : PtRegs)
  | mallocExit (ctx : PtRegs)
  | freeEnter (ctx : PtRegs)
  | callocEnter (ctx : PtRegs)
  | callocExit (ctx : PtRegs)
  | reallocEnter (ctx : PtRegs)
  | reallocExit (ctx : PtRegs)
  | mmapEnter (ctx : PtRegs)
  | mmapExit (ctx : PtRegs)
  | munmapEnter (ctx : PtRegs)
  | mremapEnter (ctx : PtRegs)
  | mremapExit (ctx : PtRegs)
  | posixMemalignEnter (ctx : PtRegs)
  | posixMemalignExit (ctx : PtRegs)
  | alignedAllocEnter (ctx : PtRegs)
  | alignedAllocExit (ctx : PtRegs)
  | vallocEnter (ctx : PtRegs)
  | vallocExit (ctx : PtRegs)
  | memalignEnter (ctx : PtRegs)
  | memalignExit (ctx : PtRegs)
  | pvallocEnter (ctx : PtRegs)
  | pvallocExit (ctx : PtRegs)
  | kmalloc (ptr bytesAlloc : UInt64)
  | kmallocNode (ptr bytesAlloc : UInt64)
  | kfree (ptr : UInt64)
  | kmemCacheAlloc (ptr bytesAlloc : UInt64)
  | kmemCacheAllocNode (ptr bytesAlloc : UInt64)
  | kmemCacheFree (ptr : UInt64)
  | mmPageAlloc (pfn : UInt64) (order : UInt32)
  | mmPageFree (pfn : UInt64)
  | percpuAllocPercpu (ptr bytesAlloc : UInt64)
  | percpuFreePercpu (ptr : UInt64)

/-- One run of a program. -/
def Program.run (ro : Rodata) (h : Helpers) : Program → Tracker → Tracker
  | .mallocEnter ctx => Memleak.mallocEnter ro h ctx
  | .mallocExit ctx => Memleak.mallocExit h ctx
  | .freeEnter ctx => Memleak.freeEnter ctx
  | .callocEnter ctx => Memleak.callocEnter ro h ctx
  | .callocExit ctx => Memleak.callocExit h ctx
  | .reallocEnter ctx => Memleak.reallocEnter ro h ctx
  | .reallocExit ctx => Memleak.reallocExit h ctx
  | .mmapEnter ctx => Memleak.mmapEnter ro h ctx
  | .mmapExit ctx => Memleak.mmapExit h ctx
  | .munmapEnter ctx => Memleak.munmapEnter ctx
  | .mremapEnter ctx => Memleak.mremapEnter ro h ctx
  | .mremapExit ctx => Memleak.mremapExit h ctx
  | .posixMemalignEnter ctx => Memleak.posixMemalignEnter ro h ctx
  | .posixMemalignExit _ => Memleak.posixMemalignExit h
  | .alignedAllocEnter ctx => Memleak.alignedAllocEnter ro h ctx
  | .alignedAllocExit ctx => Memleak.alignedAllocExit h ctx
  | .vallocEnter ctx => Memleak.vallocEnter ro h ctx
  | .vallocExit ctx => Memleak.vallocExit h ctx
  | .memalignEnter ctx => Memleak.memalignEnter ro h ctx
  | .memalignExit ctx => Memleak.memalignExit h ctx
  | .pvallocEnter ctx => Memleak.pvallocEnter ro h ctx
  | .pvallocExit ctx => Memleak.pvallocExit h ctx
  | .kmalloc ptr bytesAlloc => memleakKmalloc ro h ptr bytesAlloc
  | .kmallocNode ptr bytesAlloc => memleakKmallocNode ro h ptr bytesAlloc
  | .kfree ptr => memleakKfree ptr
  | .kmemCacheAlloc ptr bytesAlloc => memleakKmemCacheAlloc ro h ptr bytesAlloc
  | .kmemCacheAllocNode ptr bytesAlloc => memleakKmemCacheAllocNode ro h ptr bytesAlloc
  | .kmemCacheFree ptr => memleakKmemCacheFree ptr
  | .mmPageAlloc pfn order => fun t => memleakMmPageAlloc ro h t pfn order
  | .mmPageFree pfn => fun t => memleakMmPageFree t pfn
  | .percpuAllocPercpu ptr bytesAlloc => memleakPercpuAllocPercpu ro h ptr bytesAlloc
  | .percpuFreePercpu ptr => memleakPercpuFreePercpu ptr

/-! ### Operations -/

/-- The operations on the maps that the programs are made of. -/
inductive Op where
  | event (ctx : PtRegs)
  | memptr (p : UInt64)
  | memptrDone
  | enter (size : UInt64)
  | exit (address : UInt64)
  | free (address : UInt64)

/-- One operation. -/
def Op.run (ro : Rodata) (h : Helpers) : Op → Tracker → Tracker
  | .event ctx => emitDwunwEvent ro h ctx
  | .memptr p => fun t => { t with memptrs := updateIgnored t.memptrs h.tid p }
  | .memptrDone => fun t => { t with memptrs := t.memptrs.delete h.tid }
  | .enter size => genAllocEnter ro h size
  | .exit address => genAllocExit2 h address
  | .free address => genFreeEnter address

/-- Operations one after the other. -/
def runOps (ro : Rodata) (h : Helpers) (ops : List Op) (t : Tracker) : Tracker :=
  ops.foldl (fun t op => op.run ro h t) t

/-- The operations of a tracepoint of the slab allocator. -/
def slabOps (ro : Rodata) (ptr bytesAlloc : UInt64) : List Op :=
  (if ro.waMissingFree = true then [.free ptr] else []) ++ [.enter bytesAlloc, .exit ptr]

/-- The operations of a program. -/
def Program.ops (ro : Rodata) (h : Helpers) (t : Tracker) : Program → List Op
  | .mallocEnter ctx | .vallocEnter ctx | .pvallocEnter ctx => [.event ctx, .enter ctx.di]
  | .mallocExit ctx | .callocExit ctx | .reallocExit ctx | .mmapExit ctx | .mremapExit ctx
  | .alignedAllocExit ctx | .vallocExit ctx | .memalignExit ctx | .pvallocExit ctx =>
      [.exit ctx.ax]
  | .freeEnter ctx | .munmapEnter ctx => [.free ctx.di]
  | .callocEnter ctx => [.event ctx, .enter (ctx.di * ctx.si)]
  | .reallocEnter ctx => [.event ctx, .free ctx.di, .enter ctx.si]
  | .mmapEnter ctx | .alignedAllocEnter ctx | .memalignEnter ctx => [.event ctx, .enter ctx.si]
  | .mremapEnter ctx => [.event ctx, .free ctx.di, .enter ctx.dx]
  | .posixMemalignEnter ctx => [.event ctx, .memptr ctx.di, .enter ctx.dx]
  | .posixMemalignExit _ =>
      match t.memptrs.lookup h.tid with
      | none => []
      | some memptr =>
          match h.probeReadUser memptr with
          | none => [.memptrDone]
          | some addr => [.memptrDone, .exit addr]
  | .kmalloc ptr bytesAlloc | .kmemCacheAlloc ptr bytesAlloc => slabOps ro ptr bytesAlloc
  | .kmallocNode ptr bytesAlloc | .kmemCacheAllocNode ptr bytesAlloc =>
      if ro.hasKmemAllocNode = true then slabOps ro ptr bytesAlloc else []
  | .kfree ptr | .kmemCacheFree ptr | .percpuFreePercpu ptr => [.free ptr]
  | .mmPageAlloc pfn order => [.enter (ro.pageSize <<< order.toUInt64), .exit pfn]
  | .mmPageFree pfn => [.free pfn]
  | .percpuAllocPercpu ptr bytesAlloc => [.enter bytesAlloc, .exit ptr]

lemma slabAlloc_eq (ro : Rodata) (h : Helpers) (ptr bytesAlloc : UInt64) (t : Tracker) :
    slabAlloc ro h ptr bytesAlloc t = runOps ro h (slabOps ro ptr bytesAlloc) t := by
  rw [slabAlloc, slabOps]
  split_ifs <;> rfl

/-- A run of a program is a run of its operations. -/
theorem Program.run_eq (ro : Rodata) (h : Helpers) (p : Program) (t : Tracker) :
    p.run ro h t = runOps ro h (p.ops ro h t) t := by
  cases p with
  | posixMemalignExit ctx =>
      show Memleak.posixMemalignExit h t = _
      rw [Memleak.posixMemalignExit, Program.ops]
      cases t.memptrs.lookup h.tid with
      | none => rfl
      | some memptr =>
          dsimp only
          cases h.probeReadUser memptr <;> rfl
  | kmalloc ptr bytesAlloc => exact slabAlloc_eq ro h ptr bytesAlloc t
  | kmemCacheAlloc ptr bytesAlloc => exact slabAlloc_eq ro h ptr bytesAlloc t
  | kmallocNode ptr bytesAlloc =>
      show memleakKmallocNode ro h ptr bytesAlloc t = _
      rw [memleakKmallocNode, Program.ops]
      split_ifs
      · exact slabAlloc_eq ro h ptr bytesAlloc t
      · rfl
  | kmemCacheAllocNode ptr bytesAlloc =>
      show memleakKmemCacheAllocNode ro h ptr bytesAlloc t = _
      rw [memleakKmemCacheAllocNode, Program.ops]
      split_ifs
      · exact slabAlloc_eq ro h ptr bytesAlloc t
      · rfl
  | _ => rfl

/-! ### What the bodies leave as it is -/

lemma updateStatisticsAdd_frame (k sz : UInt64) (t : Tracker) :
    (updateStatisticsAdd k sz t).allocs = t.allocs ∧
      (updateStatisticsAdd k sz t).sizes = t.sizes ∧
      (updateStatisticsAdd k sz t).memptrs = t.memptrs := by
  rw [updateStatisticsAdd]
  split <;> exact ⟨rfl, rfl, rfl⟩

lemma updateStatisticsDel_frame (k sz : UInt64) (t : Tracker) :
    (updateStatisticsDel k sz t).allocs = t.allocs ∧
      (updateStatisticsDel k sz t).sizes = t.sizes ∧
      (updateStatisticsDel k sz t).memptrs = t.memptrs := by
  rw [updateStatisticsDel]
  split <;> exact ⟨rfl, rfl, rfl⟩

/-- A free takes away what is at its address and nothing else. -/
lemma genFreeEnter_frame (address : UInt64) (t : Tracker) :
    (∀ a, (genFreeEnter address t).allocs.lookup a =
      if a = address then none else t.allocs.lookup a) ∧
      (genFreeEnter address t).sizes = t.sizes ∧ (genFreeEnter address t).memptrs = t.memptrs := by
  rw [genFreeEnter]
  cases hlookup : t.allocs.lookup address with
  | none =>
      refine ⟨fun a => ?_, rfl, rfl⟩
      split_ifs with ha
      · rw [ha, hlookup]
      · rfl
  | some info =>
      obtain ⟨hallocs, hsizes, hmemptrs⟩ := updateStatisticsDel_frame info.stackKey info.size
        { t with allocs := t.allocs.delete address }
      refine ⟨fun a => ?_, hsizes, hmemptrs⟩
      dsimp only
      rw [hallocs]
      split_ifs with ha
      · rw [ha, BoundedMap.lookup_delete_self]
      · exact BoundedMap.lookup_delete_of_ne t.allocs ha

/-- A free makes no map full. -/
lemma genFreeEnter_room (ptr : UInt64) {t : Tracker} (hroom : ¬ t.allocs.Full) :
    ¬ (genFreeEnter ptr t).allocs.Full := by
  rw [genFreeEnter]
  cases t.allocs.lookup ptr with
  | none => exact hroom
  | some info =>
      dsimp only
      rw [(updateStatisticsDel_frame _ _ _).1]
      refine fun hfull => hroom (hfull.trans (Finset.card_le_card ?_))
      show (t.allocs.contents.erase ptr).keys ⊆ t.allocs.contents.keys
      rw [Finmap.keys_erase]
      exact Finset.erase_subset _ _

/-! ### Sequences of runs -/

/-- A program and what the helpers return to it. -/
structure Invocation where
  helpers : Helpers
  program : Program

/-- One run of a program, as a step. -/
def Tracker.next (ro : Rodata) (t : Tracker) (i : Invocation) : Tracker :=
  i.program.run ro i.helpers t

/-- The maps after the programs have run one after the other. -/
def Tracker.runs (ro : Rodata) (t : Tracker) (is : List Invocation) : Tracker :=
  is.foldl (Tracker.next ro) t

end Dwunw.Memleak
