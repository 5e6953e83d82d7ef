import Dwunw.Lib.Grouping
import Dwunw.Lib.Loop
import Dwunw.Lib.Qsort
import Dwunw.Memleak.Accounting
import Dwunw.Memleak.Outstanding

/-!
The report of outstanding allocations: `examples/memleak_bcc_dwunw/memleak_dwunw_user.c`.

User space walks one of the two maps key by key, sums up the records of each stack, or takes the
sums that the programs have kept, sorts the stacks by size and prints the first of them.  The maps
are taken as they are when a walk begins.

* `getNextKey`, `walk`: a walk over a map, which begins behind the key 0.
* `outstandingAllocs`, `outstandingCombinedAllocs`: the stacks that the two reports collect.
* `printOutstandingAllocs`, `printOutstandingCombinedAllocs`: what they print.
* `due`: what the records of a stack come to.
* `outstanding_groups`: the first report, stack by stack, after every run of the programs.
* `combined_groups`: which entries the second report leaves out.
* `printed_largest`: what is printed does not hang on the order of the walk.
* `reports_agree`: where no record is lost the two reports say the same.
-/

namespace Dwunw.Memleak

open BoundedMap

/-! ### Walks -/

section Walk

variable {σ : Type}

/-- The keys behind a key, in the order of the map; a key that is not there is before all. -/
def keysAfter (order : List UInt64) (key : UInt64) : List UInt64 :=
  if key ∈ order then (order.dropWhile (· ≠ key)).tail else order

/-- `bpf_map_get_next_key`. -/
def getNextKey (order : List UInt64) (key : UInt64) : Option UInt64 := (keysAfter order key).head?

/-- One turn of `for (prev_key = 0, curr_key = 0;; prev_key = curr_key)`. -/
def walkTurn (order : List UInt64) (body : σ → UInt64 → σ) :
    UInt64 × σ → Loop.Turn (UInt64 × σ) σ
  | (prevKey, s) =>
      match getNextKey order prevKey with
      | none => .done s
      | some currKey => .next (currKey, body s currKey)

/-- A walk, which the length of the map bounds. -/
def walk (order : List UInt64) (body : σ → UInt64 → σ) (s : σ) : Option σ :=
  Loop.run (walkTurn order body) (order.length + 1) (0, s)

lemma keysAfter_suffix (order : List UInt64) (key : UInt64) : keysAfter order key <:+ order := by
  rw [keysAfter]
  split_ifs
  · exact (List.tail_suffix _).trans (List.dropWhile_suffix _)
  · exact List.suffix_rfl

/-- The keys behind a key are one fewer at every turn. -/
lemma keysAfter_next {order rest : List UInt64} {prev key : UInt64} (hnodup : order.Nodup)
    (hafter : keysAfter order prev = key :: rest) : keysAfter order key = rest := by
  obtain ⟨front, hfront⟩ := hafter ▸ keysAfter_suffix order prev
  subst hfront
  have hnot : ∀ k ∈ front, (decide (k ≠ key)) = true := by
    intro k hk
    refine decide_eq_true fun heq => ?_
    exact (List.nodup_append.mp hnodup).2.2 k hk key List.mem_cons_self heq
  rw [keysAfter, if_pos (by simp), List.dropWhile_append_of_pos hnot,
    List.dropWhile_cons_of_neg (by simp), List.tail_cons]

/-- Enough turns come to the end. -/
lemma run_walkTurn {order : List UInt64} (hnodup : order.Nodup) (body : σ → UInt64 → σ)
    {rest : List UInt64} {prev : UInt64} (hafter : keysAfter order prev = rest) {fuel : ℕ}
    (hfuel : rest.length < fuel) (s : σ) :
    Loop.run (walkTurn order body) fuel (prev, s) = some (rest.foldl body s) := by
  induction rest generalizing prev fuel s with
  | nil =>
      obtain ⟨fuel, rfl⟩ := Nat.exists_eq_add_of_lt hfuel
      rw [Loop.run, walkTurn, getNextKey, hafter]
      rfl
  | cons key rest ih =>
      obtain ⟨fuel, rfl⟩ := Nat.exists_eq_add_of_lt hfuel
      rw [Loop.run, walkTurn, getNextKey, hafter]
      refine ih (keysAfter_next hnodup hafter) ?_ _
      rw [List.length_cons]
      omega

/-- A walk visits the keys behind 0. -/
theorem walk_eq {order : List UInt64} (hnodup : order.Nodup) (body : σ → UInt64 → σ) (s : σ) :
    walk order body s = some ((keysAfter order 0).foldl body s) :=
  run_walkTurn hnodup body rfl (Nat.lt_succ_of_le (keysAfter_suffix order 0).length_le) s

end Walk

/-! ### The reports -/

/-- The options of the reports, of `struct env`. -/
structure ReportEnv where
  minAgeNs : Int64
  topStacks : Int32
  showAllocs : Bool

/-- `struct allocation_node`, as an element of its list. -/
structure AllocationNode where
  address : UInt64
  size : UInt64
  deriving DecidableEq

/-- `struct allocation`. -/
structure Allocation where
  stackId : UInt64
  size : UInt64
  count : UInt64
  allocations : List AllocationNode
  deriving DecidableEq

/-- One more record, in the array of the stacks. -/
def addAlloc (env : ReportEnv) (allocs : List Allocation) (currKey : UInt64) (info : AllocInfo) :
    List Allocation :=
  match allocs with
  | [] =>
      [{ stackId := info.stackKey
         size := info.size
         count := 1
         allocations := if env.showAllocs then [⟨currKey, info.size⟩] else [] }]
  | alloc :: allocs =>
      if alloc.stackId = info.stackKey then
        { alloc with
          size := alloc.size + info.size
          count := alloc.count + 1
          allocations :=
            if env.showAllocs then ⟨currKey, info.size⟩ :: alloc.allocations
            else alloc.allocations } :: allocs
      else alloc :: addAlloc env allocs currKey info

section Collect

variable {n : ℕ} (env : ReportEnv) (now : UInt64 → UInt64)

/-- The body of the loop of `print_outstanding_allocs`; `now` is the clock at a record. -/
def outstandingBody (m : BpfHash UInt64 AllocInfo n) (allocs : List Allocation)
    (currKey : UInt64) : List Allocation :=
  match m.lookup currKey with
  | none => allocs
  | some info =>
      if now currKey - env.minAgeNs.toUInt64 < info.timestampNs then allocs
      else if info.stackId < 0 then allocs
      else addAlloc env allocs currKey info

/-- The array that `print_outstanding_allocs` fills. -/
def outstandingAllocs (m : BpfHash UInt64 AllocInfo n) (order : List UInt64) :
    Option (List Allocation) := walk order (outstandingBody env now m) []

/-- The body of the loop of `print_outstanding_combined_allocs`. -/
def combinedBody (m : BpfHash UInt64 CombinedAllocInfo n) (allocs : List Allocation)
    (currKey : UInt64) : List Allocation :=
  match m.lookup currKey with
  | none => allocs
  | some info => allocs ++ [⟨currKey, info.totalSize, info.numberOfAllocs, []⟩]

/-- The array that `print_outstanding_combined_allocs` fills. -/
def outstandingCombinedAllocs (m : BpfHash UInt64 CombinedAllocInfo n) (order : List UInt64) :
    Option (List Allocation) := walk order (combinedBody m) []

end Collect

/-- `alloc_size_compare`: descending. -/
def allocSizeCompare (x y : Allocation) : ℤ :=
  if y.size < x.size then -1 else if x.size < y.size then 1 else 0

/-- `clamp_to_top_stacks`. -/
def clampToTopStacks (env : ReportEnv) (count : ℕ) : ℕ :=
  if env.topStacks ≤ 0 then 0
  else
    let limit := env.topStacks.toNatClampNeg
    if count < limit then count else limit

/-- A line of a report. -/
inductive Line where
  | top (count : ℕ)
  | stack (size count : UInt64)
  | node (address size : UInt64)
  | frames (ips : List UInt64)
  deriving DecidableEq

/-- What a lookup in `stack_traces` comes to. -/
inductive StackLookup where
  | found (ips : List UInt64)
  | noEnt
  | failed

/-- `print_stack_frames`: a stack that is not there has no frames, and another error ends it. -/
def printStackFrames (env : ReportEnv) (stackTraces : UInt64 → StackLookup) :
    List Allocation → List Line
  | [] => []
  | alloc :: allocs =>
      let nodes := if env.showAllocs then alloc.allocations.map fun it => .node it.address it.size
        else []
      .stack alloc.size alloc.count :: nodes ++
        match stackTraces alloc.stackId with
        | .noEnt => printStackFrames env stackTraces allocs
        | .failed => []
        | .found ips => .frames ips :: printStackFrames env stackTraces allocs

section Print

variable {n : ℕ} (env : ReportEnv) (now : UInt64 → UInt64) (q : Qsort allocSizeCompare)
  (stackTraces : UInt64 → StackLookup)

/-- The stacks that are printed, of those collected. -/
def shown (allocs : List Allocation) : List Allocation :=
  (q.sort allocs).take (clampToTopStacks env allocs.length)

/-- The end of both reports. -/
def printTop (allocs : List Allocation) : List Line :=
  .top (clampToTopStacks env allocs.length) ::
    printStackFrames env stackTraces (shown env q allocs)

/-- `print_outstanding_allocs`. -/
def printOutstandingAllocs (m : BpfHash UInt64 AllocInfo n) (order : List UInt64) :
    Option (List Line) := (outstandingAllocs env now m order).map (printTop env q stackTraces)

/-- `print_outstanding_combined_allocs`. -/
def printOutstandingCombinedAllocs (m : BpfHash UInt64 CombinedAllocInfo n)
    (order : List UInt64) : Option (List Line) :=
  (outstandingCombinedAllocs m order).map (printTop env q stackTraces)

end Print

/-! ### The first report, stack by stack -/

section Groups

variable {n : ℕ} {env : ReportEnv} {now : UInt64 → UInt64} {m : BpfHash UInt64 AllocInfo n}
  {order order' : List UInt64} {k : UInt64}

/-- A record that the first report takes: it is old enough, and its stack was taken. -/
def Listed (env : ReportEnv) (now : UInt64 → UInt64) (address : UInt64) (info : AllocInfo) : Prop :=
  info.timestampNs ≤ now address - env.minAgeNs.toUInt64 ∧ 0 ≤ info.stackId

instance (env : ReportEnv) (now : UInt64 → UInt64) (address : UInt64) (info : AllocInfo) :
    Decidable (Listed env now address info) := inferInstanceAs (Decidable (_ ∧ _))

/-- The size and the number that a record adds to a stack. -/
def dueAt (env : ReportEnv) (now : UInt64 → UInt64) (k address : UInt64) (info : AllocInfo) :
    ℕ × ℕ :=
  if Listed env now address info ∧ info.stackKey = k then (info.size.toNat, 1) else 0

/-- What the records of a stack come to. -/
def due (env : ReportEnv) (now : UInt64 → UInt64) (m : BpfHash UInt64 AllocInfo n) (k : UInt64) :
    ℕ × ℕ := tally (dueAt env now k) m

/-- The records by their stacks. -/
def byStack (env : ReportEnv) : Grouper UInt64 (UInt64 × AllocInfo) Allocation where
  key r := r.2.stackKey
  keyOf := Allocation.stackId
  make r :=
    { stackId := r.2.stackKey
      size := r.2.size
      count := 1
      allocations := if env.showAllocs then [⟨r.1, r.2.size⟩] else [] }
  merge alloc r :=
    { alloc with
      size := alloc.size + r.2.size
      count := alloc.count + 1
      allocations :=
        if env.showAllocs then ⟨r.1, r.2.size⟩ :: alloc.allocations else alloc.allocations }
  keyOf_make _ := rfl
  keyOf_merge _ _ := rfl

lemma addAlloc_eq (allocs : List Allocation) (a : UInt64) (info : AllocInfo) :
    addAlloc env allocs a info = (byStack env).add allocs (a, info) := by
  induction allocs with
  | nil => rfl
  | cons alloc allocs ih =>
      rw [addAlloc, Grouper.add, ih]
      rfl

/-- The record at a key, if the first report takes it. -/
def takenAt (env : ReportEnv) (now : UInt64 → UInt64) (m : BpfHash UInt64 AllocInfo n)
    (a : UInt64) : Option (UInt64 × AllocInfo) :=
  (m.lookup a).bind fun info => if Listed env now a info then some (a, info) else none

lemma outstandingBody_eq (allocs : List Allocation) (a : UInt64) :
    outstandingBody env now m allocs a =
      (takenAt env now m a).elim allocs ((byStack env).add allocs) := by
  rw [outstandingBody, takenAt]
  cases m.lookup a with
  | none => rfl
  | some info =>
      dsimp only [Option.bind_some]
      by_cases hage : now a - env.minAgeNs.toUInt64 < info.timestampNs
      · rw [if_pos hage, if_neg fun hl => absurd hl.1 (UInt64.not_le.mpr hage), Option.elim_none]
      · rw [if_neg hage]
        by_cases hstack : info.stackId < 0
        · rw [if_pos hstack, if_neg fun hl => absurd hl.2 (Int32.not_le.mpr hstack),
            Option.elim_none]
        · rw [if_neg hstack, if_pos ⟨UInt64.not_lt.mp hage, Int32.not_lt.mp hstack⟩,
            Option.elim_some, addAlloc_eq]

/-- The loop groups the records that it takes. -/
lemma foldl_outstandingBody (order : List UInt64) :
    order.foldl (outstandingBody env now m) [] =
      (byStack env).collect (order.filterMap (takenAt env now m)) := by
  rw [Grouper.collect, List.foldl_filterMap]
  refine congrArg (fun f => order.foldl f []) (funext₂ fun allocs a => ?_)
  rw [outstandingBody_eq]
  cases takenAt env now m a <;> rfl

/-- Sizes and numbers are added up, in machine words. -/
lemma byStack_sums (env : ReportEnv) :
    (byStack env).Measures (fun g => (g.size, g.count)) fun r => (r.2.size, (1 : UInt64)) :=
  ⟨fun _ => rfl, fun _ _ => rfl⟩

/-- The records that are shown one by one. -/
def nodeOf (env : ReportEnv) (r : UInt64 × AllocInfo) : Multiset AllocationNode :=
  if env.showAllocs then {⟨r.1, r.2.size⟩} else 0

lemma byStack_nodes (env : ReportEnv) :
    (byStack env).Measures (fun g => (g.allocations : Multiset AllocationNode)) (nodeOf env) := by
  constructor
  · intro r
    rw [nodeOf, byStack]
    dsimp only
    split_ifs <;> rfl
  · intro g r
    rw [nodeOf, byStack]
    dsimp only
    split_ifs
    · rw [add_comm]
      rfl
    · rw [add_zero]

/-- A count in machine words. -/
def inWords (c : ℕ × ℕ) : UInt64 × UInt64 := (UInt64.ofNat c.1, UInt64.ofNat c.2)

lemma inWords_add (c d : ℕ × ℕ) : inWords (c + d) = inWords c + inWords d :=
  Prod.ext (UInt64.ofNat_add _ _) (UInt64.ofNat_add _ _)

/-- The sums over the records that are taken at a stack are what is due, in machine words. -/
lemma sum_taken (order : List UInt64) (k : UInt64) :
    (((order.filterMap (takenAt env now m)).filter fun r => r.2.stackKey = k).map
      fun r => (r.2.size, (1 : UInt64))).sum =
      inWords (order.map (weightAt (dueAt env now k) m)).sum := by
  induction order with
  | nil => rfl
  | cons a order ih =>
      rw [List.map_cons, List.sum_cons, inWords_add, ← ih, List.filterMap_cons, takenAt, weightAt]
      cases m.lookup a with
      | none => exact (zero_add _).symm
      | some info =>
          rw [Option.bind_some, Option.elim_some, dueAt]
          by_cases hl : Listed env now a info
          · rw [if_pos hl]
            dsimp only
            rw [List.filter_cons]
            by_cases hk : info.stackKey = k
            · rw [if_pos (decide_eq_true hk), if_pos ⟨hl, hk⟩, List.map_cons, List.sum_cons]
              exact congrArg (· + _) (Prod.ext UInt64.ofNat_toNat.symm rfl)
            · rw [if_neg (by simpa using hk), if_neg fun h => hk h.2]
              exact (zero_add _).symm
          · rw [if_neg hl, if_neg fun h => hl h.1]
            exact (zero_add _).symm

lemma sum_nodeOf (env : ReportEnv) (rs : List (UInt64 × AllocInfo)) :
    (rs.map (nodeOf env)).sum =
      if env.showAllocs then ((rs.map fun r => ⟨r.1, r.2.size⟩ : List AllocationNode) :
        Multiset AllocationNode) else 0 := by
  induction rs with
  | nil => split_ifs <;> rfl
  | cons r rs ih =>
      rw [List.map_cons, List.sum_cons, ih, nodeOf]
      split_ifs
      · rfl
      · rfl

lemma mem_takenAt {a : UInt64} {r : UInt64 × AllocInfo} :
    takenAt env now m a = some r ↔ r.1 = a ∧ m.lookup a = some r.2 ∧ Listed env now a r.2 := by
  obtain ⟨a', info⟩ := r
  rw [takenAt, Option.bind_eq_some_iff]
  constructor
  · rintro ⟨info', hlookup, hsome⟩
    split_ifs at hsome with hl
    cases hsome
    exact ⟨rfl, hlookup, hl⟩
  · rintro ⟨rfl, hlookup, hl⟩
    exact ⟨info, hlookup, if_pos hl⟩

/-- What the array holds of a stack. -/
structure GroupOf (env : ReportEnv) (now : UInt64 → UInt64) (m : BpfHash UInt64 AllocInfo n)
    (g : Allocation) : Prop where
  size : g.size = UInt64.ofNat (due env now m g.stackId).1
  count : g.count = UInt64.ofNat (due env now m g.stackId).2
  nodes : ∀ node, node ∈ g.allocations ↔ env.showAllocs = true ∧ ∃ info,
    m.lookup node.address = some info ∧ Listed env now node.address info ∧
      info.stackKey = g.stackId ∧ info.size = node.size
  nodup : g.allocations.Nodup

/-- The records that are shown under a stack, up to their order. -/
lemma allocations_perm {g : Allocation}
    (hg : g ∈ (byStack env).collect (order.filterMap (takenAt env now m))) :
    g.allocations.Perm
      (if env.showAllocs then
        ((order.filterMap (takenAt env now m)).filter fun r => r.2.stackKey = g.stackId).map
          fun r => ⟨r.1, r.2.size⟩
      else []) := by
  have hsum := Grouper.measure_eq_sum (byStack_nodes env) hg
  rw [sum_nodeOf] at hsum
  refine Multiset.coe_eq_coe.mp (hsum.trans ?_)
  split_ifs <;> rfl

lemma groupOf_collect (henum : Enumerates order m) {g : Allocation}
    (hg : g ∈ (byStack env).collect (order.filterMap (takenAt env now m))) :
    GroupOf env now m g := by
  have hsums : (g.size, g.count) = inWords (due env now m g.stackId) := by
    rw [due, henum.tally_eq, ← sum_taken]
    exact Grouper.measure_eq_sum (byStack_sums env) hg
  have hperm := allocations_perm hg
  refine ⟨congrArg Prod.fst hsums, congrArg Prod.snd hsums, fun node => ?_, ?_⟩
  · rw [hperm.mem_iff]
    cases env.showAllocs with
    | false => simp
    | true =>
        rw [if_pos rfl]
        simp only [List.mem_map, List.mem_filter, List.mem_filterMap, mem_takenAt,
          decide_eq_true_eq, true_and]
        constructor
        · rintro ⟨r, ⟨⟨a, -, rfl, hlookup, hl⟩, hk⟩, rfl⟩
          exact ⟨r.2, hlookup, hl, hk, rfl⟩
        · rintro ⟨info, hlookup, hl, hk, hsize⟩
          have horder : node.address ∈ order := (henum.mem_iff _).mpr (by rw [hlookup]; rfl)
          refine ⟨(node.address, info), ⟨⟨node.address, horder, rfl, hlookup, hl⟩, hk⟩, ?_⟩
          rw [hsize]
  · rw [hperm.nodup_iff]
    split_ifs
    · refine List.Nodup.map_on (fun r hr r' hr' heq => ?_) ((henum.nodup.filterMap ?_).filter _)
      · obtain ⟨a, -, ha⟩ := List.mem_filterMap.mp (List.mem_filter.mp hr).1
        obtain ⟨a', -, ha'⟩ := List.mem_filterMap.mp (List.mem_filter.mp hr').1
        obtain rfl : a = a' := (mem_takenAt.mp ha).1.symm.trans
          ((AllocationNode.mk.inj heq).1.trans (mem_takenAt.mp ha').1)
        exact Option.some.inj (ha.symm.trans ha')
      · intro a a' r hr hr'
        exact (mem_takenAt.mp hr).1.symm.trans (mem_takenAt.mp hr').1
    · exact List.nodup_nil

variable (env now k) in
/-- One record is no more than all of its stack, in size and in number. -/
lemma dueAt_le_due {a : UInt64} {info : AllocInfo}
    (hlookup : m.lookup a = some info) (part : ℕ × ℕ →+ ℕ) :
    part (dueAt env now k a info) ≤ part (due env now m k) := by
  rw [due, ← tally_map (dueAt env now k) part]
  exact Multiset.single_le_sum (fun _ _ => Nat.zero_le _) _
    (Multiset.mem_map.mpr ⟨⟨a, info⟩, Finmap.lookup_eq_some_iff.mp hlookup, rfl⟩)

/-- A stack of the array has a record. -/
lemma due_pos {g : Allocation}
    (hg : g ∈ (byStack env).collect (order.filterMap (takenAt env now m))) :
    0 < (due env now m g.stackId).2 := by
  obtain ⟨r, hr, hk⟩ := Grouper.exists_group_iff.mp ⟨g, hg, rfl⟩
  obtain ⟨a, -, hat⟩ := List.mem_filterMap.mp hr
  obtain ⟨-, hlookup, hl⟩ := mem_takenAt.mp hat
  have hle := dueAt_le_due env now g.stackId hlookup (AddMonoidHom.snd ℕ ℕ)
  rw [dueAt, if_pos ⟨hl, hk⟩] at hle
  exact hle

/-- A stack that is not in the array has nothing due. -/
lemma due_eq_zero (henum : Enumerates order m)
    (hnone : ∀ g ∈ (byStack env).collect (order.filterMap (takenAt env now m)), g.stackId ≠ k) :
    due env now m k = 0 := by
  refine tally_eq_zero _ fun a info hlookup => ?_
  rw [dueAt, if_neg]
  rintro ⟨hl, hk⟩
  have hmem : (a, info) ∈ order.filterMap (takenAt env now m) :=
    List.mem_filterMap.mpr ⟨a, (henum.mem_iff a).mpr (by rw [hlookup]; rfl),
      mem_takenAt.mpr ⟨rfl, hlookup, hl⟩⟩
  obtain ⟨g, hg, hgk⟩ := Grouper.exists_group (G := byStack env) hmem
  exact hnone g hg (hgk.trans hk)

end Groups

/-! ### The records of a run -/

section Records

variable {ro : Rodata} {P : UInt64 → AllocInfo → Prop}

/-- The records that are in `allocs`. -/
def Tracker.Records (t : Tracker) (P : UInt64 → AllocInfo → Prop) : Prop :=
  ∀ a info, t.allocs.lookup a = some info → P a info

/-- An operation makes a record of what the helpers return, and not at 0. -/
lemma Op.records {h : Helpers} {t : Tracker} (ht : t.Records P)
    (hnew : ∀ a size, a ≠ 0 → P a ⟨size, h.exitNs, h.stackId⟩) (op : Op) :
    (op.run ro h t).Records P := by
  intro a info
  cases op with
  | event ctx =>
      show (emitDwunwEvent ro h ctx t).allocs.lookup a = _ → _
      rw [emitDwunwEvent]
      split_ifs <;> exact ht a info
  | memptr p => exact ht a info
  | memptrDone => exact ht a info
  | enter size =>
      show (genAllocEnter ro h size t).allocs.lookup a = _ → _
      rw [genAllocEnter_allocs]
      exact ht a info
  | exit address =>
      show (genAllocExit2 h address t).allocs.lookup a = _ → _
      cases hsize : t.sizes.lookup h.tid with
      | none =>
          rw [genAllocExit2_missed address hsize]
          exact ht a info
      | some size =>
          rw [(genAllocExit2_frame address hsize).2.2]
          split_ifs with hok
          · rcases updateIgnored_cases t.allocs address ⟨size, h.exitNs, h.stackId⟩ with
              ⟨-, hsame⟩ | hput
            · rw [hsame]
              exact ht a info
            · by_cases ha : a = address
              · rw [ha, lookup_put_self hput]
                rintro heq
                cases heq
                exact hnew address size hok.1
              · rw [lookup_put_of_ne hput ha]
                exact ht a info
          · exact ht a info
  | free address =>
      show (genFreeEnter address t).allocs.lookup a = _ → _
      rw [(genFreeEnter_frame address t).1]
      split_ifs
      · exact fun h => absurd h (by simp)
      · exact ht a info

/-- So do the programs of a run. -/
lemma runs_records {is : List Invocation} (hnew : ∀ i ∈ is, ∀ a size, a ≠ 0 →
    P a ⟨size, i.helpers.exitNs, i.helpers.stackId⟩) : (Tracker.init.runs ro is).Records P := by
  have hops : ∀ (h : Helpers), (∀ a size, a ≠ 0 → P a ⟨size, h.exitNs, h.stackId⟩) →
      ∀ (ops : List Op) (t : Tracker), t.Records P → (runOps ro h ops t).Records P := by
    intro h hnew ops
    induction ops with
    | nil => exact fun t ht => ht
    | cons op ops ih => exact fun t ht => ih _ (op.records ht hnew)
  induction is using List.reverseRecOn with
  | nil =>
      intro a info hlookup
      exact absurd ((lookup_empty a).symm.trans hlookup) (by simp)
  | append_singleton is i ih =>
      rw [Tracker.runs, List.foldl_append]
      show (i.program.run ro i.helpers (Tracker.init.runs ro is)).Records P
      rw [Program.run_eq]
      exact hops _ (hnew i (by simp)) _ _ (ih fun j hj => hnew j (List.mem_append_left _ hj))

/-- No run of programs makes a record at 0. -/
lemma runs_no_null (ro : Rodata) (is : List Invocation) :
    (Tracker.init.runs ro is).allocs.lookup 0 = none := by
  have hrecords : (Tracker.init.runs ro is).Records fun a _ => a ≠ 0 :=
    runs_records fun _ _ _ _ ha => ha
  refine Option.eq_none_iff_forall_ne_some.mpr fun info hlookup => ?_
  exact hrecords 0 info hlookup rfl

end Records

/-- After a run of the programs a walk over `allocs` visits every record. -/
lemma outstandingAllocs_run {ro : Rodata} {is : List Invocation} {order : List UInt64}
    (env : ReportEnv) (now : UInt64 → UInt64)
    (henum : Enumerates order (Tracker.init.runs ro is).allocs) :
    outstandingAllocs env now (Tracker.init.runs ro is).allocs order =
      some ((byStack env).collect
        (order.filterMap (takenAt env now (Tracker.init.runs ro is).allocs))) := by
  have hafter : keysAfter order 0 = order := if_neg (by rw [henum.mem_iff, runs_no_null]; simp)
  rw [outstandingAllocs, walk_eq henum.nodup, hafter, foldl_outstandingBody]

/-- After every run of the programs, whatever order the map is walked in: the report has each
stack once, with the sum of the sizes of its records that are old enough, their number and,
where they are shown, the records themselves.  A stack that it has comes with one such record at
least, and a stack that it leaves out has none.  There are no more stacks than the array has room
for. -/
theorem outstanding_groups {ro : Rodata} {is : List Invocation} {order : List UInt64}
    (env : ReportEnv) (now : UInt64 → UInt64)
    (henum : Enumerates order (Tracker.init.runs ro is).allocs) :
    ∃ gs, outstandingAllocs env now (Tracker.init.runs ro is).allocs order = some gs ∧
      gs.length ≤ allocsMaxEntries ∧ (gs.map (·.stackId)).Nodup ∧
      (∀ g ∈ gs, GroupOf env now (Tracker.init.runs ro is).allocs g ∧
        0 < (due env now (Tracker.init.runs ro is).allocs g.stackId).2) ∧
      ∀ k, (∀ g ∈ gs, g.stackId ≠ k) → due env now (Tracker.init.runs ro is).allocs k = 0 := by
  refine ⟨_, outstandingAllocs_run env now henum, ?_, Grouper.collect_nodup (G := byStack env) _,
    fun g hg => ⟨groupOf_collect henum hg, due_pos hg⟩, fun k => due_eq_zero henum⟩
  exact (Grouper.length_collect_le _).trans ((List.length_filterMap_le _ _).trans henum.length_le)

/-- The page is freed; two blocks of one stack, and one of another, are not. -/
def leakTrace : List Invocation :=
  [⟨threadHelpers 7, .mmPageAlloc 0x200 0⟩, ⟨threadHelpers 7, .kmalloc 0x1000 16⟩,
    ⟨{ threadHelpers 8 with stackId := 5 }, .kmalloc 0x2000 24⟩,
    ⟨threadHelpers 9, .kmalloc 0x3000 8⟩, ⟨threadHelpers 7, .mmPageFree 0x200⟩]

/-- The report asks for one stack. -/
def oneStack : ReportEnv := ⟨0, 1, true⟩

/-- An order of the records of the run. -/
def leakOrder : List UInt64 := [0x3000, 0x1000, 0x2000]

lemma leakOrder_enumerates :
    Enumerates leakOrder (Tracker.init.runs kernelRodata leakTrace).allocs :=
  .of_keys (by decide +kernel) (by decide +kernel)

/-- The two blocks of one stack are one group. -/
theorem outstanding_groups_leakTrace :
    ∃ gs, outstandingAllocs oneStack (fun _ => 100)
        (Tracker.init.runs kernelRodata leakTrace).allocs leakOrder = some gs ∧
      ∀ g ∈ gs, g.stackId = 3 → g.size = 24 := by
  obtain ⟨gs, hgs, -, -, hgroups, -⟩ :=
    outstanding_groups oneStack (fun _ => 100) leakOrder_enumerates
  refine ⟨gs, hgs, fun g hg hstack => (hgroups g hg).1.size.trans ?_⟩
  rw [hstack]
  decide +kernel

/-! ### The second report -/

section Combined

variable {n : ℕ} {m : BpfHash UInt64 CombinedAllocInfo n} {order : List UInt64}

/-- The stack of an entry of `combined_allocs`. -/
def combinedAt (m : BpfHash UInt64 CombinedAllocInfo n) (a : UInt64) : Option Allocation :=
  (m.lookup a).map fun info => ⟨a, info.totalSize, info.numberOfAllocs, []⟩

lemma foldl_combinedBody (order : List UInt64) (allocs : List Allocation) :
    order.foldl (combinedBody m) allocs = allocs ++ order.filterMap (combinedAt m) := by
  induction order generalizing allocs with
  | nil => exact (List.append_nil allocs).symm
  | cons a order ih =>
      rw [List.foldl_cons, ih, combinedBody, List.filterMap_cons, combinedAt]
      cases m.lookup a with
      | none => rfl
      | some info => exact List.append_assoc ..

lemma outstandingCombinedAllocs_eq (henum : Enumerates order m) :
    outstandingCombinedAllocs m order = some ((keysAfter order 0).filterMap (combinedAt m)) := by
  rw [outstandingCombinedAllocs, walk_eq henum.nodup, foldl_combinedBody, List.nil_append]

/-- The stacks are those of the keys, where each key is there. -/
lemma map_stackId_combined (hkeys : ∀ a ∈ order, (m.lookup a).isSome) :
    (order.filterMap (combinedAt m)).map (·.stackId) = order := by
  induction order with
  | nil => rfl
  | cons a order ih =>
      obtain ⟨info, hlookup⟩ := Option.isSome_iff_exists.mp (hkeys a List.mem_cons_self)
      have hhead : combinedAt m a = some ⟨a, info.totalSize, info.numberOfAllocs, []⟩ := by
        rw [combinedAt, hlookup, Option.map_some]
      rw [List.filterMap_cons_some hhead, List.map_cons,
        ih fun b hb => hkeys b (List.mem_cons_of_mem _ hb)]

lemma zero_notMem_keysAfter (hnodup : order.Nodup) : (0 : UInt64) ∉ keysAfter order 0 := by
  intro hmem
  have hin : (0 : UInt64) ∈ order := (keysAfter_suffix order 0).subset hmem
  obtain ⟨front, back, rfl⟩ := List.append_of_mem hin
  have hfront : ∀ k ∈ front, (decide (k ≠ 0)) = true := fun k hk => decide_eq_true fun heq =>
    (List.nodup_append.mp hnodup).2.2 k hk 0 List.mem_cons_self heq
  rw [keysAfter, if_pos hin, List.dropWhile_append_of_pos hfront,
    List.dropWhile_cons_of_neg (by simp), List.tail_cons] at hmem
  exact (List.nodup_cons.mp (List.nodup_append.mp hnodup).2.1).1 hmem

/-- Whatever order `combined_allocs` is walked in: the second report has the entries behind stack
0 in that order, with the sums that their bit fields read, each once and no more than the map
holds, which is fewer than the array has room for.  An entry of stack 0 is never there; without one
every entry is. -/
theorem combined_groups (henum : Enumerates order m) :
    ∃ gs, outstandingCombinedAllocs m order = some gs ∧ gs.length ≤ n ∧
      gs.map (·.stackId) = keysAfter order 0 ∧ (gs.map (·.stackId)).Nodup ∧
      (∀ g ∈ gs, combinedAt m g.stackId = some g ∧ g.stackId ≠ 0) ∧
      ((∀ k, (m.lookup k).isSome → ∃ g ∈ gs, g.stackId = k) ↔ m.lookup 0 = none) := by
  have hkeys : ∀ a ∈ keysAfter order 0, (m.lookup a).isSome := fun a ha =>
    (henum.mem_iff a).mp ((keysAfter_suffix order 0).subset ha)
  have hstacks := map_stackId_combined hkeys
  have hnodup : (keysAfter order 0).Nodup := henum.nodup.sublist (keysAfter_suffix order 0).sublist
  refine ⟨_, outstandingCombinedAllocs_eq henum, ?_, hstacks, hstacks.symm ▸ hnodup, ?_, ?_⟩
  · exact (List.length_filterMap_le _ _).trans
      ((keysAfter_suffix order 0).length_le.trans henum.length_le)
  · intro g hg
    obtain ⟨a, ha, hat⟩ := List.mem_filterMap.mp hg
    have hstack : g.stackId = a := by
      obtain ⟨info, -, rfl⟩ := Option.map_eq_some_iff.mp hat
      rfl
    rw [hstack]
    exact ⟨hat, fun h0 => zero_notMem_keysAfter henum.nodup (h0 ▸ ha)⟩
  · constructor
    · intro hall
      by_contra hsome
      obtain ⟨g, hg, hzero⟩ := hall 0 (Option.isSome_iff_ne_none.mpr hsome)
      have hmem : g.stackId ∈ keysAfter order 0 := hstacks ▸ List.mem_map_of_mem hg
      exact zero_notMem_keysAfter henum.nodup (hzero ▸ hmem)
    · intro hnone k hk
      have hafter : keysAfter order 0 = order := if_neg (by rw [henum.mem_iff, hnone]; simp)
      have hmem : k ∈ ((keysAfter order 0).filterMap (combinedAt m)).map (·.stackId) := by
        rw [hstacks, hafter]
        exact (henum.mem_iff k).mpr hk
      exact List.mem_map.mp hmem

example : combinedAllocsMaxEntries < allocsMaxEntries := by decide

/-- Stack 0 is walked over first. -/
lemma stackZero_enumerates : Enumerates [7, 0, 3]
    (updateIgnored (updateIgnored (updateIgnored (.empty : BpfHash UInt64 CombinedAllocInfo 10)
      0 (.ofFields 16 1)) 3 (.ofFields 24 2)) 7 (.ofFields 8 1)) :=
  .of_keys (by decide +kernel) (by decide +kernel)

/-- The entry of stack 0, and the one in front of it, are not in the report. -/
theorem combined_groups_stackZero :
    ∃ gs, outstandingCombinedAllocs
        (updateIgnored (updateIgnored (updateIgnored (.empty : BpfHash UInt64 CombinedAllocInfo 10)
          0 (.ofFields 16 1)) 3 (.ofFields 24 2)) 7 (.ofFields 8 1)) [7, 0, 3] = some gs ∧
      gs.map (·.stackId) = [3] := by
  obtain ⟨gs, hgs, -, hstacks, -⟩ := combined_groups stackZero_enumerates
  exact ⟨gs, hgs, hstacks.trans (by decide)⟩

end Combined

/-! ### What is printed -/

section Printed

variable {env : ReportEnv} {stackTraces : UInt64 → StackLookup}

/-- The comparator compares sizes. -/
lemma allocSizeCompare_le (x y : Allocation) :
    allocSizeCompare x y ≤ 0 ↔ y.size.toNat ≤ x.size.toNat := by
  rw [allocSizeCompare]
  split_ifs with hlt hgt
  · have := UInt64.lt_iff_toNat_lt.mp hlt
    omega
  · have := UInt64.lt_iff_toNat_lt.mp hgt
    omega
  · have := UInt64.not_lt.mp hgt
    exact ⟨fun _ => UInt64.le_iff_toNat_le.mp this, fun _ => le_rfl⟩

/-- `qsort` by size can be. -/
def allocQsort : Qsort allocSizeCompare :=
  .merge (fun a b c hab hbc => by
      rw [allocSizeCompare_le] at *
      exact hbc.trans hab)
    fun a b => by
      rw [allocSizeCompare_le, allocSizeCompare_le]
      exact le_total _ _

/-- The size that a line gives of a stack. -/
def Line.stackSize : Line → Option UInt64
  | .stack size _ => some size
  | _ => none

variable (env) in
/-- Of the lines of a stack only the first has its size. -/
lemma stackLines_sizes (alloc : Allocation) (lines : List Line) :
    ((.stack alloc.size alloc.count :: (if env.showAllocs then
        alloc.allocations.map fun it => Line.node it.address it.size else [])) ++
      lines).filterMap Line.stackSize = alloc.size :: lines.filterMap Line.stackSize := by
  have hnodes : (if env.showAllocs then
      alloc.allocations.map fun it => Line.node it.address it.size else []).filterMap
        Line.stackSize = [] := by
    split_ifs
    · simp [List.filterMap_map, Function.comp_def, Line.stackSize]
    · rfl
  rw [List.filterMap_append, List.filterMap_cons, hnodes]
  rfl

/-- The stacks that are to be printed have their lines, as far as the first of which the lookup of
its frames fails. -/
lemma printStackFrames_front (allocs : List Allocation) :
    (printStackFrames env stackTraces allocs).filterMap Line.stackSize <+: allocs.map (·.size) := by
  induction allocs with
  | nil => exact List.nil_prefix
  | cons alloc allocs ih =>
      rw [printStackFrames, stackLines_sizes, List.map_cons]
      refine List.cons_prefix_cons.mpr ⟨rfl, ?_⟩
      cases stackTraces alloc.stackId with
      | found ips => exact ih
      | noEnt => exact ih
      | failed => exact List.nil_prefix

/-- All of them have, when no lookup fails. -/
lemma printStackFrames_sizes (hframes : ∀ k, stackTraces k ≠ .failed) (allocs : List Allocation) :
    (printStackFrames env stackTraces allocs).filterMap Line.stackSize =
      allocs.map (·.size) := by
  induction allocs with
  | nil => rfl
  | cons alloc allocs ih =>
      rw [printStackFrames, stackLines_sizes, List.map_cons, ← ih]
      cases hstack : stackTraces alloc.stackId with
      | found ips => rfl
      | noEnt => rfl
      | failed => exact absurd hstack (hframes _)

lemma clampToTopStacks_le (env : ReportEnv) (count : ℕ) : clampToTopStacks env count ≤ count := by
  rw [clampToTopStacks]
  dsimp only
  split_ifs <;> omega

variable (env stackTraces) in
/-- What the end of a report shows of the sizes. -/
lemma printTop_sizes (q : Qsort allocSizeCompare) (gs : List Allocation) :
    (printTop env q stackTraces gs).filterMap Line.stackSize <+:
        ((q.sort gs).map (·.size)).take (clampToTopStacks env gs.length) ∧
      ((∀ k, stackTraces k ≠ .failed) →
        (printTop env q stackTraces gs).filterMap Line.stackSize =
          ((q.sort gs).map (·.size)).take (clampToTopStacks env gs.length)) := by
  rw [printTop, List.filterMap_cons, ← List.map_take]
  exact ⟨printStackFrames_front _, fun hframes => printStackFrames_sizes hframes _⟩

/-- The sizes of a run's stacks, sorted, are the same in whatever order the map is walked and
however the sort breaks ties. -/
lemma sort_sizes_eq {ro : Rodata} {is : List Invocation} {order order' : List UInt64}
    (now : UInt64 → UInt64) (q q' : Qsort allocSizeCompare)
    (henum : Enumerates order (Tracker.init.runs ro is).allocs)
    (henum' : Enumerates order' (Tracker.init.runs ro is).allocs) {gs gs' : List Allocation}
    (hgs : gs = (byStack env).collect
      (order.filterMap (takenAt env now (Tracker.init.runs ro is).allocs)))
    (hgs' : gs' = (byStack env).collect
      (order'.filterMap (takenAt env now (Tracker.init.runs ro is).allocs))) :
    (q'.sort gs').map (·.size) = (q.sort gs).map (·.size) ∧ gs'.length = gs.length := by
  have hperm := Grouper.collect_perm (byStack_sums env)
    ((henum'.perm henum).filterMap (takenAt env now (Tracker.init.runs ro is).allocs))
  rw [← hgs, ← hgs'] at hperm
  have hlength := hperm.length_eq
  rw [List.length_map, List.length_map] at hlength
  have hsizes := hperm.map fun x => x.2.1.toNat
  rw [List.map_map, List.map_map] at hsizes
  have heq := Qsort.map_sort_eq (f := fun g : Allocation => g.size.toNat) allocSizeCompare_le
    q' q hsizes
  refine ⟨List.map_injective_iff.mpr (fun a b hab => UInt64.toNat_inj.mp hab) ?_, hlength⟩
  rw [List.map_map, List.map_map]
  exact heq

end Printed

/-! ### The two reports -/

section Agreement

variable {ro : Rodata} {is : List Invocation} {env : ReportEnv} {now : UInt64 → UInt64}
  {order order' : List UInt64} {k : UInt64} {t : Tracker}

/-- The records of a stack are no more than `allocs` has room for. -/
lemma due_count_le (m : BpfHash UInt64 AllocInfo allocsMaxEntries) :
    (due env now m k).2 ≤ allocsMaxEntries := by
  have hsnd : (due env now m k).2 = tally (fun a info => (dueAt env now k a info).2) m :=
    (tally_map (dueAt env now k) (AddMonoidHom.snd ℕ ℕ) m).symm
  rw [hsnd, tally]
  have hle := Multiset.sum_le_card_nsmul
    (m.contents.entries.map fun e => (dueAt env now k e.1 e.2).2) 1 (by
      intro x hx
      obtain ⟨e, -, rfl⟩ := Multiset.mem_map.mp hx
      rw [dueAt]
      split_ifs <;> simp)
  have hcard : m.contents.entries.keys.card ≤ allocsMaxEntries := m.bounded
  rw [Multiset.card_map, smul_eq_mul, mul_one] at hle
  rw [Multiset.keys, Multiset.card_map] at hcard
  exact hle.trans hcard

/-- The programs count what the first report does, where it takes every record and the bit field
cuts no size. -/
lemma due_eq_live (hlisted : t.Records (Listed env now))
    (hsmall : ∀ k, (due env now t.allocs k).1 < 2 ^ 40) (k : UInt64) :
    due env now t.allocs k = live t k := by
  refine congrArg Multiset.sum (Multiset.map_congr rfl fun e he => ?_)
  have hlookup : t.allocs.lookup e.1 = some e.2 := Finmap.lookup_eq_some_iff.mpr he
  have hl := hlisted e.1 e.2 hlookup
  show dueAt env now k e.1 e.2 = chargeAt k e.2
  have hle := dueAt_le_due env now k hlookup (AddMonoidHom.fst ℕ ℕ)
  rw [chargeAt]
  rw [dueAt] at hle ⊢
  by_cases hk : e.2.stackKey = k
  · rw [if_pos ⟨hl, hk⟩] at hle ⊢
    have hlt : e.2.size.toNat < 2 ^ 40 := lt_of_le_of_lt hle (hsmall k)
    rw [if_pos hk, charge, Nat.mod_eq_of_lt hlt]
  · rw [if_neg fun h => hk h.2, if_neg hk]

/-- The three numbers of a stack. -/
def Allocation.row (g : Allocation) : UInt64 × UInt64 × UInt64 := (g.stackId, g.size, g.count)

/-- The stacks with records are there in both arrays, with the same numbers. -/
lemma rows_agree {gs gs' : List Allocation} (hnodup : (gs.map (·.stackId)).Nodup)
    (hnodup' : (gs'.map (·.stackId)).Nodup)
    (hsub : ∀ g ∈ gs, ∃ g' ∈ gs', g'.row = g.row ∧ g'.count ≠ 0)
    (hsub' : ∀ g' ∈ gs', g'.count ≠ 0 → ∃ g ∈ gs, g.row = g'.row) :
    (gs.map Allocation.row).Perm ((gs'.filter fun g => g.count ≠ 0).map Allocation.row) := by
  have hrows : ∀ {l : List Allocation}, (l.map (·.stackId)).Nodup → (l.map Allocation.row).Nodup :=
    fun h => List.Nodup.of_map Prod.fst (by rwa [List.map_map])
  have hfiltered : ((gs'.filter fun g => g.count ≠ 0).map (·.stackId)).Nodup :=
    hnodup'.sublist (List.filter_sublist.map _)
  refine (List.perm_ext_iff_of_nodup (hrows hnodup) (hrows hfiltered)).mpr fun x => ?_
  simp only [List.mem_map, List.mem_filter, decide_eq_true_eq]
  constructor
  · rintro ⟨g, hg, rfl⟩
    obtain ⟨g', hg', hrow, hcount⟩ := hsub g hg
    exact ⟨g', ⟨hg', hcount⟩, hrow⟩
  · rintro ⟨g', ⟨hg', hcount⟩, rfl⟩
    exact hsub' g' hg' hcount

/-- Where no record is lost, the programs have always had room for a stack, stack 0 is not met,
every stack was taken and is below the bit field, and no record is too young: both reports have
the same stacks with the same sizes and numbers, but for those that the second one still has with
no allocation. -/
theorem reports_agree (hlost : Tracker.init.lost ro is = [])
    (hroom : ¬ (Tracker.init.runs ro is).combinedAllocs.Full)
    (hzero : (Tracker.init.runs ro is).combinedAllocs.lookup 0 = none)
    (hstacks : ∀ i ∈ is, 0 ≤ i.helpers.stackId)
    (hold : ∀ a info, (Tracker.init.runs ro is).allocs.lookup a = some info →
      info.timestampNs ≤ now a - env.minAgeNs.toUInt64)
    (hsmall : ∀ k, (due env now (Tracker.init.runs ro is).allocs k).1 < 2 ^ 40)
    (henum : Enumerates order (Tracker.init.runs ro is).allocs)
    (henum' : Enumerates order' (Tracker.init.runs ro is).combinedAllocs) :
    ∃ gs gs', outstandingAllocs env now (Tracker.init.runs ro is).allocs order = some gs ∧
      outstandingCombinedAllocs (Tracker.init.runs ro is).combinedAllocs order' = some gs' ∧
      (gs.map Allocation.row).Perm ((gs'.filter fun g => g.count ≠ 0).map Allocation.row) := by
  set t := Tracker.init.runs ro is with ht
  have hlisted : t.Records (Listed env now) := fun a info hlookup =>
    ⟨hold a info hlookup, runs_records (P := fun _ info => 0 ≤ info.stackId)
      (fun i hi _ _ _ => hstacks i hi) a info hlookup⟩
  have hdue := due_eq_live hlisted hsmall
  have ha : Accounted t [] := hlost ▸ runs_accounted is accounted_init
  have hheld : ∀ k, held t [] k = due env now t.allocs k := fun k =>
    (hdue k ▸ add_zero (live t k) : held t [] k = _)
  have hafter : keysAfter order' 0 = order' := if_neg (by rw [henum'.mem_iff, hzero]; simp)
  -- what the entry of a stack reads
  have hentry : ∀ k c, t.combinedAllocs.lookup k = some c →
      c.totalSize = UInt64.ofNat (due env now t.allocs k).1 ∧
        c.numberOfAllocs = UInt64.ofNat (due env now t.allocs k).2 := by
    intro k c hc
    obtain ⟨hsize, hnumber⟩ := CombinedAllocInfo.reads_of_bits (ha.counted k c hc)
    have hcount : (due env now t.allocs k).2 ≤ 1000000 := due_count_le t.allocs
    have hlt := hsmall k
    rw [hheld] at hsize hnumber
    constructor
    · rw [← UInt64.toNat_inj, UInt64.toNat_ofNat']
      omega
    · rw [← UInt64.toNat_inj, UInt64.toNat_ofNat']
      omega
  refine ⟨_, _, outstandingAllocs_run env now henum, outstandingCombinedAllocs_eq henum', ?_⟩
  rw [hafter]
  have hkeys : ∀ a ∈ order', (t.combinedAllocs.lookup a).isSome := fun a => (henum'.mem_iff a).mp
  refine rows_agree (Grouper.collect_nodup (G := byStack env) _)
    ((map_stackId_combined hkeys).symm ▸ henum'.nodup) (fun g hg => ?_) fun g' hg' hcount => ?_
  · -- a stack with a record has an entry
    obtain ⟨hsize, hcount, -, -⟩ := groupOf_collect henum hg
    have hpos : 0 < (due env now t.allocs g.stackId).2 := due_pos hg
    cases hlookup : t.combinedAllocs.lookup g.stackId with
    | none =>
        have hnone := (ha.uncounted _ hlookup).resolve_left hroom
        rw [hheld] at hnone
        rw [hnone] at hpos
        exact absurd hpos (lt_irrefl 0)
    | some c =>
        obtain ⟨htotal, hnumber⟩ := hentry _ c hlookup
        refine ⟨⟨g.stackId, c.totalSize, c.numberOfAllocs, []⟩, List.mem_filterMap.mpr
          ⟨g.stackId, (henum'.mem_iff _).mpr (by rw [hlookup]; rfl), ?_⟩, ?_, ?_⟩
        · rw [combinedAt, hlookup, Option.map_some]
        · rw [Allocation.row, Allocation.row, hsize, hcount, htotal, hnumber]
        · show c.numberOfAllocs ≠ 0
          have hle : (due env now t.allocs g.stackId).2 ≤ 1000000 := due_count_le t.allocs
          rw [hnumber, ne_eq, ← UInt64.toNat_inj, UInt64.toNat_ofNat', UInt64.toNat_zero]
          omega
  · -- an entry that counts an allocation has a record
    obtain ⟨k, -, hat⟩ := List.mem_filterMap.mp hg'
    obtain ⟨c, hlookup, rfl⟩ := Option.map_eq_some_iff.mp hat
    obtain ⟨htotal, hnumber⟩ := hentry k c hlookup
    by_contra hnone
    have hdue0 : due env now t.allocs k = 0 := due_eq_zero henum fun g hg hk => by
      obtain ⟨hsize, hcount, -, -⟩ := groupOf_collect henum hg
      refine hnone ⟨g, hg, ?_⟩
      rw [Allocation.row, Allocation.row, hsize, hcount, hk, htotal, hnumber]
    exact hcount (by rw [hnumber, hdue0]; rfl)

/-- What is due at a stack is no more than the size of all records. -/
lemma due_size_le (m : BpfHash UInt64 AllocInfo allocsMaxEntries) :
    (due env now m k).1 ≤ tally (fun _ info => info.size.toNat) m := by
  have hfst : (due env now m k).1 = tally (fun a info => (dueAt env now k a info).1) m :=
    (tally_map (dueAt env now k) (AddMonoidHom.fst ℕ ℕ) m).symm
  rw [hfst]
  refine Multiset.sum_map_le_sum_map _ _ fun e _ => ?_
  show (dueAt env now k e.1 e.2).1 ≤ _
  rw [dueAt]
  split_ifs
  · exact le_rfl
  · exact Nat.zero_le _

/-- The two reports on two stacks. -/
theorem reports_agree_leakTrace :
    ∃ gs gs', outstandingAllocs oneStack (fun _ => 100)
        (Tracker.init.runs kernelRodata leakTrace).allocs leakOrder = some gs ∧
      outstandingCombinedAllocs (Tracker.init.runs kernelRodata leakTrace).combinedAllocs [5, 3] =
        some gs' ∧
      (gs.map Allocation.row).Perm ((gs'.filter fun g => g.count ≠ 0).map Allocation.row) := by
  have hold : (Tracker.init.runs kernelRodata leakTrace).Records
      fun _ info => info.timestampNs ≤ 100 - oneStack.minAgeNs.toUInt64 := runs_records
    (by simpa [leakTrace, threadHelpers] using fun _ _ => by decide)
  exact reports_agree (by decide +kernel) (by decide +kernel) (by decide +kernel)
    (by decide +kernel) hold
    (fun k => (due_size_le _).trans_lt (by decide +kernel)) leakOrder_enumerates
    (.of_keys (by decide +kernel) (by decide +kernel))

end Agreement

end Dwunw.Memleak
