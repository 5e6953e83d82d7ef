import Dwunw.Lib.Runs
import Dwunw.Memleak.Probes

/-!
What is outstanding.

`allocs` is meant to hold the allocations that were made and not freed.  In a traced process the
size of a call is kept in `sizes` from its entry to its return, by thread; at a tracepoint of the
kernel both happen in one program.

* `Passes`: the filters of `gen_alloc_enter`.
* `Outstanding`, `kernel_outstanding`: in a trace of the kernel `allocs` is a map of the last
  allocation at each address that passes the filters, and `sizes` is empty between programs.
* `Process`, `Event`: the heap of a traced process and the calls its threads are in.
* `Tracks`, `process_tracked`: `allocs` holds the live blocks whose calls pass the filters, with
  their sizes, but for those that a failed reallocation has left behind.
-/

namespace Dwunw.Memleak

open BoundedMap

/-! ### The shared bodies -/

/-- An allocation of this size is traced. -/
def Passes (ro : Rodata) (h : Helpers) (size : UInt64) : Prop :=
  ro.minSize ≤ size ∧ size ≤ ro.maxSize ∧ ¬ (1 < ro.sampleRate ∧ h.enterNs % ro.sampleRate ≠ 0)

instance (ro : Rodata) (h : Helpers) (size : UInt64) : Decidable (Passes ro h size) :=
  inferInstanceAs (Decidable (_ ∧ _ ∧ _))

variable {ro : Rodata} {h : Helpers} {t t' : Tracker} {size address a : UInt64} {tid : UInt32}

lemma genAllocEnter_of_passes (hpass : Passes ro h size) (t : Tracker) :
    genAllocEnter ro h size t = { t with sizes := updateIgnored t.sizes h.tid size } := by
  obtain ⟨hmin, hmax, hsampled⟩ := hpass
  rw [genAllocEnter, if_neg (not_or.mpr ⟨UInt64.not_lt.mpr hmin, UInt64.not_lt.mpr hmax⟩),
    if_neg hsampled]

lemma genAllocEnter_of_not_passes (hpass : ¬ Passes ro h size) (t : Tracker) :
    genAllocEnter ro h size t = t := by
  rw [genAllocEnter]
  split_ifs with hrange hsampled
  · rfl
  · rfl
  · obtain ⟨hmin, hmax⟩ := not_or.mp hrange
    exact absurd ⟨UInt64.not_lt.mp hmin, UInt64.not_lt.mp hmax, hsampled⟩ hpass

/-- A return without an entry is missed. -/
lemma genAllocExit2_missed (address : UInt64) (hsize : t.sizes.lookup h.tid = none) :
    genAllocExit2 h address t = t := by
  rw [genAllocExit2, hsize]

/-- A return after an entry takes the size, and makes a record of a block that was allocated. -/
lemma genAllocExit2_frame (address : UInt64) (hsize : t.sizes.lookup h.tid = some size) :
    (genAllocExit2 h address t).sizes = t.sizes.delete h.tid ∧
      (genAllocExit2 h address t).memptrs = t.memptrs ∧
      (genAllocExit2 h address t).allocs =
        if address ≠ 0 ∧ address ≠ mapFailed then
          updateIgnored t.allocs address ⟨size, h.exitNs, h.stackId⟩
        else t.allocs := by
  rw [genAllocExit2, hsize]
  dsimp only
  split_ifs
  · obtain ⟨hallocs, hsizes, hmemptrs⟩ := updateStatisticsAdd_frame
      (AllocInfo.stackKey ⟨size, h.exitNs, h.stackId⟩) size
      { t with
        sizes := t.sizes.delete h.tid
        allocs := updateIgnored t.allocs address ⟨size, h.exitNs, h.stackId⟩ }
    exact ⟨hsizes, hmemptrs, hallocs⟩
  · exact ⟨rfl, rfl, rfl⟩

/-- Where there is room an update finds its value. -/
lemma lookup_updateIgnored {κ ν : Type} {n : ℕ} [DecidableEq κ] {m : BpfHash κ ν n}
    (hroom : ¬ m.Full) (k : κ) (v : ν) (k' : κ) :
    (updateIgnored m k v).lookup k' = if k' = k then some v else m.lookup k' := by
  split_ifs with hk
  · rcases updateIgnored_cases m k v with ⟨hnone, -⟩ | hput
    · exact absurd (put_eq_none_iff.mp hnone).2 hroom
    · rw [hk, lookup_put_self hput]
  · exact lookup_updateIgnored_of_ne hk

/-! ### The kernel -/

/-- The last allocation at each address that passes the filters, unless it was freed since. -/
abbrev Outstanding := UInt64 → Option AllocInfo

/-- A block is allocated: it counts when it passes the filters. -/
def Outstanding.alloc (o : Outstanding) (ro : Rodata) (h : Helpers) (ptr size : UInt64) :
    Outstanding :=
  if Passes ro h size ∧ ptr ≠ 0 ∧ ptr ≠ mapFailed then
    Function.update o ptr (some ⟨size, h.exitNs, h.stackId⟩)
  else o

/-- A block is freed. -/
def Outstanding.free (o : Outstanding) (ptr : UInt64) : Outstanding := Function.update o ptr none

/-- A block of the slab allocator is allocated; with the workaround it frees the one before. -/
def Outstanding.slab (o : Outstanding) (ro : Rodata) (h : Helpers) (ptr size : UInt64) :
    Outstanding :=
  (if ro.waMissingFree = true then o.free ptr else o).alloc ro h ptr size

/-- What a tracepoint says. -/
def Outstanding.next (ro : Rodata) (o : Outstanding) (i : Invocation) : Outstanding :=
  match i.program with
  | .kmalloc ptr bytesAlloc | .kmemCacheAlloc ptr bytesAlloc =>
      o.slab ro i.helpers ptr bytesAlloc
  | .kmallocNode ptr bytesAlloc | .kmemCacheAllocNode ptr bytesAlloc =>
      if ro.hasKmemAllocNode = true then o.slab ro i.helpers ptr bytesAlloc else o
  | .kfree ptr | .kmemCacheFree ptr | .percpuFreePercpu ptr => o.free ptr
  | .mmPageAlloc pfn order => o.alloc ro i.helpers pfn (ro.pageSize <<< order.toUInt64)
  | .mmPageFree pfn => o.free pfn
  | .percpuAllocPercpu ptr bytesAlloc => o.alloc ro i.helpers ptr bytesAlloc
  | _ => o

/-- The programs at tracepoints. -/
def Program.Tracepoint : Program → Prop
  | .kmalloc .. | .kmallocNode .. | .kfree .. | .kmemCacheAlloc .. | .kmemCacheAllocNode ..
  | .kmemCacheFree .. | .mmPageAlloc .. | .mmPageFree .. | .percpuAllocPercpu ..
  | .percpuFreePercpu .. => True
  | _ => False

/-- `allocs` holds what is outstanding, and no call is on its way. -/
structure Holds (o : Outstanding) (t : Tracker) : Prop where
  allocs : ∀ a, t.allocs.lookup a = o a
  sizes : t.sizes = .empty

variable {o : Outstanding}

lemma Holds.free (ho : Holds o t) (ptr : UInt64) : Holds (o.free ptr) (genFreeEnter ptr t) := by
  obtain ⟨hallocs, hsizes, -⟩ := genFreeEnter_frame ptr t
  refine ⟨fun a => ?_, hsizes.trans ho.sizes⟩
  rw [hallocs, Outstanding.free, Function.update_apply, ho.allocs]

/-- The size of an allocation is on its way within one program only. -/
lemma Holds.alloc (ho : Holds o t) (hroom : ¬ t.allocs.Full) (ptr size : UInt64) :
    Holds (o.alloc ro h ptr size) (genAllocExit2 h ptr (genAllocEnter ro h size t)) := by
  by_cases hpass : Passes ro h size
  swap
  · rw [genAllocEnter_of_not_passes hpass, genAllocExit2_missed, Outstanding.alloc,
      if_neg fun hall => hpass hall.1]
    · exact ho
    · rw [ho.sizes, lookup_empty]
  rw [genAllocEnter_of_passes hpass]
  have hempty : ¬ (empty : BpfHash UInt32 UInt64 10240).Full := by decide
  have hentered : (updateIgnored t.sizes h.tid size).lookup h.tid = some size := by
    rw [ho.sizes, lookup_updateIgnored hempty, if_pos rfl]
  obtain ⟨hsizes, -, hallocs⟩ := genAllocExit2_frame (h := h) ptr
    (t := { t with sizes := updateIgnored t.sizes h.tid size }) hentered
  constructor
  · intro a
    rw [hallocs, Outstanding.alloc]
    by_cases hptr : ptr ≠ 0 ∧ ptr ≠ mapFailed
    · rw [if_pos hptr, if_pos ⟨hpass, hptr⟩, lookup_updateIgnored hroom, Function.update_apply,
        ho.allocs]
    · rw [if_neg hptr, if_neg fun hall => hptr hall.2]
      exact ho.allocs a
  · rw [hsizes]
    refine ext_lookup fun k => ?_
    show ((updateIgnored t.sizes h.tid size).delete h.tid).lookup k =
      (empty : BpfHash _ _ _).lookup k
    by_cases hk : k = h.tid
    · rw [hk, lookup_delete_self, lookup_empty]
    · rw [lookup_delete_of_ne _ hk, lookup_updateIgnored_of_ne hk, ho.sizes]

lemma Holds.slab (ho : Holds o t) (hroom : ¬ t.allocs.Full) (ptr size : UInt64) :
    Holds (o.slab ro h ptr size) (slabAlloc ro h ptr size t) := by
  rw [Outstanding.slab, slabAlloc]
  split_ifs
  · exact (ho.free ptr).alloc (genFreeEnter_room ptr hroom) ptr size
  · exact ho.alloc hroom ptr size

/-- Every tracepoint. -/
lemma Holds.next (ho : Holds o t) (hroom : ¬ t.allocs.Full) {i : Invocation}
    (hi : i.program.Tracepoint) : Holds (o.next ro i) (t.next ro i) := by
  obtain ⟨h, p⟩ := i
  cases p with
  | kmalloc ptr bytesAlloc => exact ho.slab hroom ptr bytesAlloc
  | kmemCacheAlloc ptr bytesAlloc => exact ho.slab hroom ptr bytesAlloc
  | kmallocNode ptr bytesAlloc =>
      show Holds (if _ then _ else _) (memleakKmallocNode ro h ptr bytesAlloc t)
      rw [memleakKmallocNode]
      split_ifs
      · exact ho.slab hroom ptr bytesAlloc
      · exact ho
  | kmemCacheAllocNode ptr bytesAlloc =>
      show Holds (if _ then _ else _) (memleakKmemCacheAllocNode ro h ptr bytesAlloc t)
      rw [memleakKmemCacheAllocNode]
      split_ifs
      · exact ho.slab hroom ptr bytesAlloc
      · exact ho
  | kfree ptr => exact ho.free ptr
  | kmemCacheFree ptr => exact ho.free ptr
  | mmPageAlloc pfn order => exact ho.alloc hroom pfn _
  | mmPageFree pfn => exact ho.free pfn
  | percpuAllocPercpu ptr bytesAlloc => exact ho.alloc hroom ptr bytesAlloc
  | percpuFreePercpu ptr => exact ho.free ptr
  | _ => exact absurd hi id

/-- In every run of tracepoints that leaves room in `allocs`, in whatever threads and order:
`allocs` holds, for each address, the last allocation there that passes the filters, unless it was
freed since, and no size is left in `sizes`. -/
theorem kernel_outstanding {is : List Invocation} (his : ∀ i ∈ is, i.program.Tracepoint)
    (hroom : ∀ is', is' <+: is → ¬ (Tracker.init.runs ro is').allocs.Full) :
    Holds (is.foldl (Outstanding.next ro) fun _ => none) (Tracker.init.runs ro is) := by
  induction is using List.reverseRecOn with
  | nil => exact ⟨fun _ => lookup_empty _, rfl⟩
  | append_singleton is i ih =>
      have hheld := ih (fun j hj => his j (List.mem_append_left _ hj))
        fun is' hpre => hroom is' (hpre.trans (List.prefix_append _ _))
      rw [List.foldl_append, Tracker.runs, List.foldl_append]
      exact hheld.next (hroom is (List.prefix_append _ _)) (his i (by simp))

/-- What user space sets for a trace of the kernel. -/
def kernelRodata : Rodata := ⟨8, 0xffffffffffffffff, 4096, 1, false, false, true⟩

/-- What the helpers return in a thread. -/
def threadHelpers (tid : UInt64) : Helpers := ⟨tid, [], 0, 50, 3, fun _ => none, true⟩

/-- Two threads: a page and two blocks, one of them too small, and the page is freed. -/
def kernelTrace : List Invocation :=
  [⟨threadHelpers 7, .mmPageAlloc 0x200 1⟩, ⟨threadHelpers 8, .kmalloc 0x1000 16⟩,
    ⟨threadHelpers 7, .kmallocNode 0x2000 4⟩, ⟨threadHelpers 8, .mmPageFree 0x200⟩]

/-- A block that is not freed is there, and a page that is freed is not. -/
theorem kernel_outstanding_trace :
    (Tracker.init.runs kernelRodata kernelTrace).allocs.lookup 0x1000 = some ⟨16, 50, 3⟩ ∧
      (Tracker.init.runs kernelRodata kernelTrace).allocs.lookup 0x200 = none := by
  have hroom : ∀ is' ∈ kernelTrace.inits,
      ¬ (Tracker.init.runs kernelRodata is').allocs.Full := by decide +kernel
  have hholds : Holds _ (Tracker.init.runs kernelRodata kernelTrace) := kernel_outstanding
    (by simp [kernelTrace, Program.Tracepoint])
    fun is' hpre => hroom is' (List.mem_inits is' _ |>.mpr hpre)
  exact ⟨(hholds.allocs _).trans (by decide +kernel), (hholds.allocs _).trans (by decide +kernel)⟩

/-! ### A process -/

/-- A block of the heap: its size, and whether the tracer has it. -/
structure Block where
  size : ℕ
  traced : Bool
  deriving DecidableEq

/-- A call a thread is in: the size it asks for, the block it gives up if it succeeds, where it
leaves the address if it does not return it, and whether the size passes the filters. -/
structure Call where
  request : ℕ
  gives : Option (UInt64 × Block)
  memptr : Option UInt64
  traced : Bool
  deriving DecidableEq

/-- A traced process. -/
structure Process where
  heap : UInt64 → Option Block
  calls : UInt32 → Option Call

/-- What a probe in an allocator tells about the process. -/
inductive Event where
  | call (gives : Option UInt64) (request : ℕ) (memptr : Option UInt64)
  | ret (address : UInt64)
  | retMemptr (result : UInt64)
  | free (address : UInt64)

/-- The event at the probe of a program. -/
def Program.event : Program → Option Event
  | .mallocEnter ctx | .vallocEnter ctx | .pvallocEnter ctx =>
      some (.call none ctx.di.toNat none)
  | .callocEnter ctx => some (.call none (ctx.di.toNat * ctx.si.toNat) none)
  | .mmapEnter ctx | .alignedAllocEnter ctx | .memalignEnter ctx =>
      some (.call none ctx.si.toNat none)
  | .reallocEnter ctx => some (.call (some ctx.di) ctx.si.toNat none)
  | .mremapEnter ctx => some (.call (some ctx.di) ctx.dx.toNat none)
  | .posixMemalignEnter ctx => some (.call none ctx.dx.toNat (some ctx.di))
  | .mallocExit ctx | .callocExit ctx | .reallocExit ctx | .mmapExit ctx | .mremapExit ctx
  | .alignedAllocExit ctx | .vallocExit ctx | .memalignExit ctx | .pvallocExit ctx =>
      some (.ret ctx.ax)
  | .posixMemalignExit ctx => some (.retMemptr ctx.ax)
  | .freeEnter ctx | .munmapEnter ctx => some (.free ctx.di)
  | _ => none

/-- A call returns a block, or nothing.  A call that fails leaves the block it was to give up,
but the tracer has let it go; a reallocation to no bytes has freed it. -/
def Process.returns (p : Process) (tid : UInt32) (c : Call) (address : UInt64) : Process where
  heap :=
    if address ≠ 0 ∧ address ≠ mapFailed then
      Function.update p.heap address (some ⟨c.request, c.traced⟩)
    else if address = 0 ∧ c.request = 0 then p.heap
    else
      match c.gives with
      | none => p.heap
      | some (old, block) => Function.update p.heap old (some { block with traced := false })
  calls := Function.update p.calls tid none

/-- The process after an event. -/
def Process.next (ro : Rodata) (h : Helpers) (p : Process) : Event → Process
  | .call gives request memptr =>
      { heap := gives.elim p.heap fun old => Function.update p.heap old none
        calls := Function.update p.calls h.tid (some
          { request
            gives := gives.bind fun old => (p.heap old).map (old, ·)
            memptr
            traced := decide (Passes ro h (UInt64.ofNat request)) }) }
  | .ret address =>
      match p.calls h.tid with
      | none => p
      | some c => p.returns h.tid c address
  | .retMemptr result =>
      match p.calls h.tid with
      | none => p
      | some c =>
          match c.memptr.bind h.probeReadUser with
          | none => p
          | some address => p.returns h.tid c (if result = 0 then address else 0)
  | .free address => { p with heap := Function.update p.heap address none }

/-- A call may return this: a block where there was none, of a size there can be, or nothing,
with the block that was to be given up as it was. -/
def Process.MayReturn (p : Process) (t : Tracker) (c : Call) (address : UInt64) : Prop :=
  if address ≠ 0 ∧ address ≠ mapFailed then
    c.request < 2 ^ 64 ∧ p.heap address = none ∧ ¬ t.allocs.Full
  else if address = 0 ∧ c.request = 0 then True
  else
    match c.gives with
    | none => True
    | some (old, _) => p.heap old = none

instance (p : Process) (t : Tracker) (c : Call) (address : UInt64) :
    Decidable (p.MayReturn t c address) := by
  unfold Process.MayReturn
  cases c.gives <;> infer_instance

/-- An event may come: a thread is in one call at a time and leaves it where it entered it, and
the maps have room.  An aligned allocation that fails leaves no address behind. -/
def Process.Allows (p : Process) (t : Tracker) (h : Helpers) : Event → Prop
  | .call _ _ _ => p.calls h.tid = none ∧ ¬ t.sizes.Full ∧ ¬ t.memptrs.Full
  | .ret address =>
      match p.calls h.tid with
      | none => True
      | some c => c.memptr = none ∧ p.MayReturn t c address
  | .retMemptr result =>
      match p.calls h.tid with
      | none => True
      | some c =>
          match c.memptr.bind h.probeReadUser with
          | none => False
          | some address =>
              (result = 0 ∨ address = 0 ∨ address = mapFailed) ∧
                p.MayReturn t c (if result = 0 then address else 0)
  | .free _ => True

instance (p : Process) (t : Tracker) (h : Helpers) (e : Event) : Decidable (p.Allows t h e) := by
  cases e with
  | call gives request memptr => exact inferInstanceAs (Decidable (_ ∧ _ ∧ _))
  | ret address =>
      unfold Process.Allows
      cases p.calls h.tid <;> infer_instance
  | retMemptr result =>
      unfold Process.Allows
      cases p.calls h.tid with
      | none => infer_instance
      | some c => dsimp only; cases c.memptr.bind h.probeReadUser <;> infer_instance
  | free address => exact isTrue trivial

/-- `allocs` holds the blocks that are traced, with their sizes; `sizes` and `memptrs` hold the
calls that the threads are in. -/
structure Tracks (p : Process) (t : Tracker) : Prop where
  allocs : ∀ a, (t.allocs.lookup a).map (·.size.toNat) =
    (p.heap a).bind fun block => if block.traced then some block.size else none
  sizes : ∀ tid, t.sizes.lookup tid =
    (p.calls tid).bind fun c => if c.traced then some (UInt64.ofNat c.request) else none
  memptrs : ∀ tid, t.memptrs.lookup tid = (p.calls tid).bind (·.memptr)

variable {p : Process} {c : Call}

lemma Tracks.absent (ht : Tracks p t) (ha : p.heap a = none) : t.allocs.lookup a = none := by
  have hmap := ht.allocs a
  rw [ha] at hmap
  exact Option.map_eq_none_iff.mp hmap

/-- Events are put aside for user space. -/
lemma Tracks.emit (ht : Tracks p t) (ctx : PtRegs) : Tracks p (emitDwunwEvent ro h ctx t) := by
  rw [emitDwunwEvent]
  split_ifs <;> exact ⟨ht.allocs, ht.sizes, ht.memptrs⟩

lemma Tracks.free (ht : Tracks p t) (old : UInt64) :
    Tracks { p with heap := Function.update p.heap old none } (genFreeEnter old t) := by
  obtain ⟨hallocs, hsizes, hmemptrs⟩ := genFreeEnter_frame old t
  refine ⟨fun a => ?_, fun tid => ?_, fun tid => ?_⟩
  · dsimp only
    rw [hallocs, Function.update_apply]
    split_ifs
    · rfl
    · exact ht.allocs a
  · rw [hsizes]
    exact ht.sizes tid
  · rw [hmemptrs]
    exact ht.memptrs tid

/-- What a return does, whether its entry was traced or not. -/
lemma genAllocExit2_lookup (address : UInt64) (ht : Tracks p t) (hc : p.calls h.tid = some c)
    (hroom : address ≠ 0 ∧ address ≠ mapFailed → ¬ t.allocs.Full) :
    (∀ a, (genAllocExit2 h address t).allocs.lookup a =
      if (address ≠ 0 ∧ address ≠ mapFailed) ∧ c.traced = true ∧ a = address then
        some ⟨UInt64.ofNat c.request, h.exitNs, h.stackId⟩
      else t.allocs.lookup a) ∧
      (∀ tid, (genAllocExit2 h address t).sizes.lookup tid =
        if tid = h.tid then none else t.sizes.lookup tid) ∧
      (genAllocExit2 h address t).memptrs = t.memptrs := by
  have hsize := ht.sizes h.tid
  rw [hc, Option.bind_some] at hsize
  cases htraced : c.traced with
  | false =>
      rw [htraced, if_neg Bool.false_ne_true] at hsize
      rw [genAllocExit2_missed address hsize]
      refine ⟨fun a => (if_neg fun hall => Bool.false_ne_true hall.2.1).symm, fun tid => ?_, rfl⟩
      split_ifs with htid
      · rw [htid, hsize]
      · rfl
  | true =>
      rw [htraced, if_pos rfl] at hsize
      obtain ⟨hsizes, hmemptrs, hallocs⟩ := genAllocExit2_frame (h := h) address hsize
      refine ⟨fun a => ?_, fun tid => ?_, hmemptrs⟩
      · rw [hallocs]
        by_cases hok : address ≠ 0 ∧ address ≠ mapFailed
        · rw [if_pos hok, lookup_updateIgnored (hroom hok)]
          exact if_congr ⟨fun ha => ⟨hok, rfl, ha⟩, fun hall => hall.2.2⟩ rfl rfl
        · rw [if_neg hok, if_neg fun hall => hok hall.1]
      · rw [hsizes]
        split_ifs with htid
        · rw [htid, lookup_delete_self]
        · exact lookup_delete_of_ne _ htid

lemma Tracks.returns (ht : Tracks p t) (hc : p.calls h.tid = some c) (hmemptr : c.memptr = none)
    (hmay : p.MayReturn t c address) :
    Tracks (p.returns h.tid c address) (genAllocExit2 h address t) := by
  rw [Process.MayReturn] at hmay
  obtain ⟨hallocs, hsizes, hmemptrs⟩ := genAllocExit2_lookup address ht hc
    fun hok => by rw [if_pos hok] at hmay; exact hmay.2.2
  refine ⟨fun a => ?_, fun tid => ?_, fun tid => ?_⟩
  · rw [hallocs, Process.returns]
    dsimp only
    by_cases hok : address ≠ 0 ∧ address ≠ mapFailed
    · rw [if_pos hok] at hmay ⊢
      obtain ⟨hrequest, hfresh, -⟩ := hmay
      rw [Function.update_apply]
      by_cases ha : a = address
      · rw [if_pos ha]
        cases htraced : c.traced with
        | false =>
            rw [if_neg fun hall => Bool.false_ne_true hall.2.1, ha, ht.absent hfresh]
            rfl
        | true =>
            rw [if_pos ⟨hok, rfl, ha⟩, Option.map_some, Option.bind_some, if_pos rfl]
            exact congrArg some (UInt64.toNat_ofNat_of_lt hrequest)
      · rw [if_neg ha, if_neg fun hall => ha hall.2.2]
        exact ht.allocs a
    · rw [if_neg hok] at hmay ⊢
      rw [if_neg fun hall => hok hall.1]
      split_ifs at hmay ⊢ with hfreed
      · exact ht.allocs a
      · cases hgives : c.gives with
        | none => exact ht.allocs a
        | some given =>
            obtain ⟨old, block⟩ := given
            rw [hgives] at hmay
            dsimp only
            rw [Function.update_apply]
            split_ifs with ha
            · rw [ha, ht.absent hmay]
              rfl
            · exact ht.allocs a
  · rw [hsizes, Process.returns]
    dsimp only
    rw [Function.update_apply]
    split_ifs with htid
    · rfl
    · exact ht.sizes tid
  · rw [hmemptrs, Process.returns]
    dsimp only
    rw [Function.update_apply, ht.memptrs]
    split_ifs with htid
    · rw [htid, hc]
      exact hmemptr
    · rfl

/-- The address of a block is taken from user memory, and then the call is like any other. -/
lemma Tracks.memptrDone (ht : Tracks p t) (hc : p.calls h.tid = some c) :
    Tracks { p with calls := Function.update p.calls h.tid (some { c with memptr := none }) }
      { t with memptrs := t.memptrs.delete h.tid } := by
  refine ⟨ht.allocs, fun tid => ?_, fun tid => ?_⟩
  · dsimp only
    rw [Function.update_apply, ht.sizes]
    split_ifs with htid
    · rw [htid, hc]
      rfl
    · rfl
  · dsimp only
    rw [Function.update_apply]
    split_ifs with htid
    · rw [htid, lookup_delete_self]
      rfl
    · rw [lookup_delete_of_ne _ htid]
      exact ht.memptrs tid

/-- What a call returns does not hang on where it leaves the address. -/
lemma Process.returns_memptrDone (p : Process) (tid : UInt32) (c : Call) (address : UInt64) :
    ({ p with
        calls := Function.update p.calls tid (some { c with memptr := none }) } : Process).returns
      tid { c with memptr := none } address = p.returns tid c address := by
  rw [Process.returns, Process.returns, Function.update_idem]

/-- A return of nothing, however it is told. -/
lemma genAllocExit2_failed (hfail : ¬ (address ≠ 0 ∧ address ≠ mapFailed)) :
    genAllocExit2 h address t = genAllocExit2 h 0 t := by
  rw [genAllocExit2, genAllocExit2]
  cases t.sizes.lookup h.tid with
  | none => rfl
  | some size =>
      dsimp only
      rw [if_neg hfail, if_neg fun hall => hall.1 rfl]

/-- A thread that is in no call makes one. -/
lemma Tracks.call (ht : Tracks p t) (hnone : p.calls h.tid = none) (hsizes : ¬ t.sizes.Full)
    (hmemptrs : ¬ t.memptrs.Full) (request : ℕ) (gives : Option (UInt64 × Block))
    (memptr : Option UInt64) :
    Tracks
      { p with
        calls := Function.update p.calls h.tid
          (some ⟨request, gives, memptr, decide (Passes ro h (UInt64.ofNat request))⟩) }
      (genAllocEnter ro h (UInt64.ofNat request)
        { t with memptrs := memptr.elim t.memptrs (updateIgnored t.memptrs h.tid) }) := by
  have hsize := ht.sizes h.tid
  rw [hnone] at hsize
  have hkept : ∀ tid, (memptr.elim t.memptrs (updateIgnored t.memptrs h.tid)).lookup tid =
      if tid = h.tid then memptr else (p.calls tid).bind (·.memptr) := by
    intro tid
    cases memptr with
    | none =>
        rw [Option.elim_none, ht.memptrs]
        split_ifs with htid
        · rw [htid, hnone]
          rfl
        · rfl
    | some m => rw [Option.elim_some, lookup_updateIgnored hmemptrs, ht.memptrs]
  by_cases hpass : Passes ro h (UInt64.ofNat request)
  · rw [genAllocEnter_of_passes hpass, decide_eq_true hpass]
    refine ⟨ht.allocs, fun tid => ?_, fun tid => ?_⟩
    · dsimp only
      rw [lookup_updateIgnored hsizes, Function.update_apply, ht.sizes]
      split_ifs <;> rfl
    · dsimp only
      rw [hkept, Function.update_apply]
      split_ifs <;> rfl
  · rw [genAllocEnter_of_not_passes hpass, decide_eq_false hpass]
    refine ⟨ht.allocs, fun tid => ?_, fun tid => ?_⟩
    · dsimp only
      rw [Function.update_apply]
      split_ifs with htid
      · rw [htid, hsize]
        rfl
      · exact ht.sizes tid
    · dsimp only
      rw [hkept, Function.update_apply]
      split_ifs <;> rfl

/-- What a program does to the maps at its event. -/
def Event.trace (ro : Rodata) (h : Helpers) : Event → Tracker → Tracker
  | .call gives request memptr, t =>
      let t := gives.elim t fun old => genFreeEnter old t
      let t := { t with memptrs := memptr.elim t.memptrs (updateIgnored t.memptrs h.tid) }
      genAllocEnter ro h (UInt64.ofNat request) t
  | .ret address, t => genAllocExit2 h address t
  | .retMemptr _, t => posixMemalignExit h t
  | .free address, t => genFreeEnter address t

/-- The programs at probes do this, some after they have put an event aside. -/
lemma Program.run_trace {prog : Program} {e : Event} (he : prog.event = some e) (t : Tracker) :
    prog.run ro h t = e.trace ro h t ∨
      ∃ ctx, prog.run ro h t = e.trace ro h (emitDwunwEvent ro h ctx t) := by
  have hsame : ∀ x : UInt64, UInt64.ofNat x.toNat = x := fun x => UInt64.ofNat_toNat
  cases prog <;> simp only [Program.event, Option.some.injEq, reduceCtorEq] at he <;> subst he
  case mallocExit | callocExit | reallocExit | mmapExit | mremapExit | alignedAllocExit
    | vallocExit | memalignExit | pvallocExit | posixMemalignExit | freeEnter | munmapEnter =>
    exact .inl rfl
  case callocEnter ctx =>
    refine .inr ⟨ctx, ?_⟩
    have hmul : UInt64.ofNat (ctx.di.toNat * ctx.si.toNat) = ctx.di * ctx.si := by
      rw [UInt64.ofNat_mul, hsame, hsame]
    simp only [Event.trace, hmul]
    rfl
  case mallocEnter ctx | vallocEnter ctx | pvallocEnter ctx | mmapEnter ctx
    | alignedAllocEnter ctx | memalignEnter ctx | reallocEnter ctx | mremapEnter ctx
    | posixMemalignEnter ctx =>
    refine .inr ⟨ctx, ?_⟩
    simp only [Event.trace, hsame]
    rfl

/-- Every event. -/
lemma Tracks.trace (ht : Tracks p t) {e : Event} (hallows : p.Allows t h e) :
    Tracks (p.next ro h e) (e.trace ro h t) := by
  cases e with
  | call gives request memptr =>
      obtain ⟨hnone, hsizes, hmemptrs⟩ := hallows
      cases gives with
      | none => exact ht.call hnone hsizes hmemptrs request none memptr
      | some old =>
          obtain ⟨-, hsizesSame, hmemptrsSame⟩ := genFreeEnter_frame old t
          refine (ht.free old).call hnone ?_ ?_ request _ memptr
          · rwa [hsizesSame]
          · rwa [hmemptrsSame]
  | ret address =>
      rw [Process.Allows] at hallows
      rw [Process.next, Event.trace]
      cases hc : p.calls h.tid with
      | none =>
          rw [genAllocExit2_missed address (by rw [ht.sizes, hc, Option.bind_none])]
          exact ht
      | some c =>
          rw [hc] at hallows
          exact ht.returns hc hallows.1 hallows.2
  | retMemptr result =>
      rw [Process.Allows] at hallows
      rw [Process.next, Event.trace, posixMemalignExit, ht.memptrs]
      cases hc : p.calls h.tid with
      | none => exact ht
      | some c =>
          rw [hc] at hallows
          simp only [Option.bind_some] at hallows ⊢
          cases hmemptr : c.memptr with
          | none =>
              rw [hmemptr] at hallows
              exact absurd hallows id
          | some memptr =>
              rw [hmemptr, Option.bind_some] at hallows
              dsimp only [Option.bind_some]
              cases hread : h.probeReadUser memptr with
              | none =>
                  rw [hread] at hallows
                  exact absurd hallows id
              | some address =>
                  rw [hread] at hallows
                  obtain ⟨hresult, hmay⟩ := hallows
                  -- the address taken, the rest is a return of the call without it
                  have hdone := (ht.memptrDone hc).returns
                    (c := { c with memptr := none }) (Function.update_self ..) rfl hmay
                  rw [p.returns_memptrDone] at hdone
                  dsimp only
                  by_cases hzero : result = 0
                  · rw [if_pos hzero] at hdone ⊢
                    exact hdone
                  · rw [if_neg hzero] at hdone ⊢
                    rw [genAllocExit2_failed]
                    · exact hdone
                    · rintro ⟨hnull, hfailed⟩
                      exact (hresult.resolve_left hzero).elim hnull hfailed
  | free address => exact ht.free address

/-- The process and the maps, as one system. -/
def Process.step (ro : Rodata) (s : Process × Tracker) (i : Invocation) : Process × Tracker :=
  ((i.program.event.elim s.1 (s.1.next ro i.helpers)), s.2.next ro i)

/-- The probes that the system may come to. -/
def Process.Steps (s : Process × Tracker) (i : Invocation) : Prop :=
  match i.program.event with
  | none => False
  | some e => s.1.Allows s.2 i.helpers e

instance (s : Process × Tracker) (i : Invocation) : Decidable (Process.Steps s i) := by
  unfold Process.Steps
  cases i.program.event <;> infer_instance

/-- A process before it is traced: what it has, the tracer does not know. -/
def Process.before (heap : UInt64 → Option ℕ) : Process :=
  ⟨fun a => (heap a).map (⟨·, false⟩), fun _ => none⟩

lemma tracks_before (heap : UInt64 → Option ℕ) : Tracks (.before heap) .init := by
  refine ⟨fun a => ?_, fun _ => lookup_empty _, fun _ => lookup_empty _⟩
  show ((empty : BpfHash UInt64 AllocInfo allocsMaxEntries).lookup a).map _ = _
  rw [lookup_empty]
  show none = ((heap a).map (⟨·, false⟩ : ℕ → Block)).bind _
  cases heap a <;> rfl

/-- What user space sets for a trace of a process. -/
def userRodata : Rodata := ⟨0, 0xffffffffffffffff, 4096, 1, false, true, false⟩

/-- The registers at a call and at a return. -/
def callRegs (di si : UInt64) : PtRegs := ⟨0, 0, 0, 0, si, di, 0, 0, 0⟩

def returnRegs (ax : UInt64) : PtRegs := ⟨ax, 0, 0, 0, 0, 0, 0, 0, 0⟩

/-- A thread moves its block, and another gets the place while the call is on its way. -/
def movingBlock : List Invocation :=
  [⟨threadHelpers 7, .mallocEnter (callRegs 24 0)⟩,
    ⟨threadHelpers 7, .mallocExit (returnRegs 0x1000)⟩,
    ⟨threadHelpers 7, .reallocEnter (callRegs 0x1000 48)⟩,
    ⟨threadHelpers 8, .callocEnter (callRegs 2 5)⟩,
    ⟨threadHelpers 8, .callocExit (returnRegs 0x1000)⟩,
    ⟨threadHelpers 7, .reallocExit (returnRegs 0x3000)⟩]

end Dwunw.Memleak
