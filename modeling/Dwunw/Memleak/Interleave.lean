import Dwunw.Lib.Runs
import Dwunw.Memleak.Accounting

/-!
The programs of the leak tracer when they run at the same time.

Each operation on a map is atomic, a program is not: between two of its operations, programs on
other processors go on.  `Job.advance` takes a program from one operation on a map to the next.
The record that a free has looked up is read again after it was deleted, when the map may have
used its memory for another one.

* `Point`, `Job`, `Job.advance`: a program on its way, and one atomic step of it.
* `Job.advance_run`: steps that nothing comes between are the operations of `Probes`.
* `Sys`, `Sys.next`: any number of programs; `Drift` is what an observer notes of a step.
* `Effect`, `Job.advance_effect`: what one step does to the maps.
* `Balanced`: the invariant; every word is in balance with the records, with what programs on
  their way still owe, and with the drift.
* `interleaved_words`: the statistics after any run.
-/

namespace Dwunw.Memleak

open BoundedMap

/-! ### A program on its way -/

/-- Where a program is within an operation, with its local variables. -/
inductive Point where
  | start
  | sized (size : UInt64)
  | recording (info : AllocInfo)
  | addLookup (info : AllocInfo)
  | addInit (info : AllocInfo)
  | addAgain (info : AllocInfo)
  | addBits (info : AllocInfo)
  | found (info : AllocInfo)
  | removed (info : AllocInfo)
  | delLookup (info : AllocInfo)
  | delBits (info : AllocInfo)

/-- The operations a program has still to do, and where it is within the first. -/
structure Job where
  helpers : Helpers
  ops : List Op
  point : Point

/-- The program goes on within the operation. -/
def Job.goOn (j : Job) (p : Point) : Job := { j with point := p }

/-- The operation is done. -/
def Job.done (j : Job) : Job := { j with ops := j.ops.tail, point := .start }

/-- One atomic step of a program: to the next operation on a map, or to the read of a record
through its pointer, which finds `reused` where the memory was used again. -/
def Job.advance (ro : Rodata) (reused : Option AllocInfo) (t : Tracker) (j : Job) :
    Tracker × Job :=
  match j.ops, j.point with
  -- `gen_alloc_exit2`
  | .exit _ :: _, .start =>
      match t.sizes.lookup j.helpers.tid with
      | none => (t, j.done)
      | some size => (t, j.goOn (.sized size))
  | .exit address :: _, .sized size =>
      let t := { t with sizes := t.sizes.delete j.helpers.tid }
      if address ≠ 0 ∧ address ≠ mapFailed then
        (t, j.goOn (.recording ⟨size, j.helpers.exitNs, j.helpers.stackId⟩))
      else (t, j.done)
  | .exit address :: _, .recording info =>
      ({ t with allocs := updateIgnored t.allocs address info }, j.goOn (.addLookup info))
  -- `update_statistics_add`
  | .exit _ :: _, .addLookup info =>
      match t.combinedAllocs.lookup info.stackKey with
      | none => (t, j.goOn (.addInit info))
      | some _ => (t, j.goOn (.addBits info))
  | .exit _ :: _, .addInit info =>
      match updateElem t.combinedAllocs info.stackKey initialCinfo .noExist with
      | .error .e2big => (t, j.done)
      | .error .eexist => (t, j.goOn (.addAgain info))
      | .ok m => ({ t with combinedAllocs := m }, j.goOn (.addAgain info))
  | .exit _ :: _, .addAgain info =>
      match t.combinedAllocs.lookup info.stackKey with
      | none => (t, j.done)
      | some _ => (t, j.goOn (.addBits info))
  | .exit _ :: _, .addBits info =>
      let incremental := CombinedAllocInfo.ofFields info.size 1
      ({ t with
        combinedAllocs :=
          t.combinedAllocs.modify info.stackKey fun c => ⟨c.bits + incremental.bits⟩ }, j.done)
  -- `gen_free_enter`
  | .free address :: _, .start =>
      match t.allocs.lookup address with
      | none => (t, j.done)
      | some info => (t, j.goOn (.found info))
  | .free address :: _, .found info =>
      ({ t with allocs := t.allocs.delete address }, j.goOn (.removed info))
  | .free _ :: _, .removed info => (t, j.goOn (.delLookup (reused.getD info)))
  -- `update_statistics_del`
  | .free _ :: _, .delLookup info =>
      match t.combinedAllocs.lookup info.stackKey with
      | none => (t, j.done)
      | some _ => (t, j.goOn (.delBits info))
  | .free _ :: _, .delBits info =>
      let decremental := CombinedAllocInfo.ofFields info.size 1
      ({ t with
        combinedAllocs :=
          t.combinedAllocs.modify info.stackKey fun c => ⟨c.bits - decremental.bits⟩ }, j.done)
  -- the other operations touch one map once
  | op :: _, .start => (op.run ro j.helpers t, j.done)
  | _, _ => (t, j)

/-- Atomic steps of one program that nothing comes between. -/
def Job.advances (ro : Rodata) : ℕ → Tracker × Job → Tracker × Job
  | 0, s => s
  | n + 1, s => Job.advances ro n (s.2.advance ro none s.1)

lemma Job.advances_add_steps (ro : Rodata) (n m : ℕ) (s : Tracker × Job) :
    Job.advances ro (n + m) s = Job.advances ro m (Job.advances ro n s) := by
  induction n generalizing s with
  | zero => rw [Nat.zero_add, Job.advances]
  | succ n ih => rw [Nat.add_right_comm, Job.advances, Job.advances, ih]

section Run

variable {ro : Rodata} {h : Helpers} {ops : List Op} {t : Tracker} {r : Tracker × Job}

lemma Job.advances_step {j : Job} (hnext : ∃ n, Job.advances ro n (j.advance ro none t) = r) :
    ∃ n, Job.advances ro n (t, j) = r := by
  obtain ⟨n, hn⟩ := hnext
  exact ⟨n + 1, hn⟩

/-- The atomic steps of `update_statistics_add`. -/
lemma Job.advances_add (address : UInt64) (info : AllocInfo) (t : Tracker) :
    ∃ n, Job.advances ro n (t, ⟨h, .exit address :: ops, .addLookup info⟩) =
      (updateStatisticsAdd info.stackKey info.size t, ⟨h, ops, .start⟩) := by
  refine Job.advances_step ?_
  rw [Job.advance, updateStatisticsAdd, lookupOrTryInit]
  dsimp only
  cases hlookup : t.combinedAllocs.lookup info.stackKey with
  | some c => exact ⟨1, rfl⟩
  | none =>
      refine Job.advances_step ?_
      rw [Job.goOn, Job.advance]
      dsimp only
      cases hput : updateElem t.combinedAllocs info.stackKey initialCinfo .noExist with
      | error err =>
          cases err with
          | e2big => exact ⟨0, rfl⟩
          | eexist =>
              refine Job.advances_step ?_
              rw [Job.goOn, Job.advance]
              dsimp only
              rw [hlookup, if_neg (not_not.mpr rfl)]
              exact ⟨0, rfl⟩
      | ok m =>
          refine Job.advances_step ?_
          rw [Job.goOn, Job.advance]
          dsimp only
          cases m.lookup info.stackKey with
          | none => exact ⟨0, rfl⟩
          | some c => exact ⟨1, rfl⟩

/-- The atomic steps of `update_statistics_del`, of a record that is still what it was. -/
lemma Job.advances_del (address : UInt64) (info : AllocInfo) (t : Tracker) :
    ∃ n, Job.advances ro n (t, ⟨h, .free address :: ops, .removed info⟩) =
      (updateStatisticsDel info.stackKey info.size t, ⟨h, ops, .start⟩) := by
  refine Job.advances_step ?_
  show ∃ n, Job.advances ro n (t, ⟨h, .free address :: ops, .delLookup info⟩) = _
  refine Job.advances_step ?_
  rw [Job.advance, updateStatisticsDel]
  dsimp only
  cases t.combinedAllocs.lookup info.stackKey with
  | none => exact ⟨0, rfl⟩
  | some c => exact ⟨1, rfl⟩

/-- Steps that nothing comes between do the first operation. -/
theorem Job.advance_run (ro : Rodata) (h : Helpers) (op : Op) (ops : List Op) (t : Tracker) :
    ∃ n, Job.advances ro n (t, ⟨h, op :: ops, .start⟩) = (op.run ro h t, ⟨h, ops, .start⟩) := by
  cases op with
  | exit address =>
      refine Job.advances_step ?_
      show ∃ n, _ = (genAllocExit2 h address t, _)
      rw [Job.advance, genAllocExit2]
      dsimp only
      cases t.sizes.lookup h.tid with
      | none => exact ⟨0, rfl⟩
      | some size =>
          refine Job.advances_step ?_
          rw [Job.goOn, Job.advance]
          dsimp only
          by_cases haddr : address ≠ 0 ∧ address ≠ mapFailed
          · rw [if_pos haddr, if_pos haddr]
            exact Job.advances_step (Job.advances_add address _ _)
          · rw [if_neg haddr, if_neg haddr]
            exact ⟨0, rfl⟩
  | free address =>
      refine Job.advances_step ?_
      show ∃ n, _ = (genFreeEnter address t, _)
      rw [Job.advance, genFreeEnter]
      dsimp only
      cases t.allocs.lookup address with
      | none => exact ⟨0, rfl⟩
      | some info => exact Job.advances_step (Job.advances_del address info _)
  | event ctx => exact ⟨1, rfl⟩
  | memptr p => exact ⟨1, rfl⟩
  | memptrDone => exact ⟨1, rfl⟩
  | enter size => exact ⟨1, rfl⟩

end Run

/-! ### All programs -/

/-- What an observer notes of a step: the records that lose their place, the records that are
gone and will not be taken from the statistics, and the records that will be taken from the
statistics and are not gone. -/
structure Drift where
  lost : List AllocInfo
  skipped : List AllocInfo
  excess : List AllocInfo

/-- Nothing is noted. -/
def Drift.none : Drift := ⟨[], [], []⟩

/-- What an observer notes of the next step of a program. -/
def Job.drift (reused : Option AllocInfo) (t : Tracker) (j : Job) : Drift :=
  match j.ops, j.point with
  | .exit address :: _, .recording info => ⟨displaced t address info, [], []⟩
  | .free address :: _, .found info =>
      if t.allocs.lookup address = some info then .none
      else ⟨[], (t.allocs.lookup address).toList, [info]⟩
  | .free _ :: _, .removed info => reused.elim .none fun other => ⟨[], [info], [other]⟩
  | .free _ :: _, .delLookup info =>
      if t.combinedAllocs.lookup info.stackKey = Option.none ∧ ¬ t.combinedAllocs.Full then
        ⟨[], [info], []⟩
      else .none
  | _, _ => .none

/-- The maps, the programs on their way, and what was noted so far. -/
structure Sys (ι : Type) where
  tracker : Tracker
  jobs : ι → Job
  lost : List AllocInfo
  skipped : List AllocInfo
  excess : List AllocInfo

/-- A program is started, or one that was goes on. -/
inductive Act (ι : Type) where
  | start (i : ι) (h : Helpers) (ops : List Op)
  | advance (i : ι) (reused : Option AllocInfo)

/-- No program. -/
def Job.idle : Job := ⟨⟨0, [], 0, 0, 0, fun _ => .none, false⟩, [], .start⟩

def Sys.init {ι : Type} : Sys ι := ⟨.init, fun _ => .idle, [], [], []⟩

/-- One step of the system. -/
def Sys.next {ι : Type} [DecidableEq ι] (ro : Rodata) (s : Sys ι) : Act ι → Sys ι
  | .start i h ops =>
      if (s.jobs i).ops = [] then { s with jobs := Function.update s.jobs i ⟨h, ops, .start⟩ }
      else s
  | .advance i reused =>
      let r := (s.jobs i).advance ro reused s.tracker
      let d := (s.jobs i).drift reused s.tracker
      { tracker := r.1
        jobs := Function.update s.jobs i r.2
        lost := s.lost ++ d.lost
        skipped := s.skipped ++ d.skipped
        excess := s.excess ++ d.excess }

/-! ### One step -/

/-- What a program at this point has recorded and will add to the statistics. -/
def Point.adds (k : UInt64) : Point → ℕ × ℕ
  | .addLookup info | .addInit info | .addAgain info | .addBits info => chargeAt k info
  | _ => 0

/-- What a program at this point has deleted and will take from the statistics. -/
def Point.subs (k : UInt64) : Point → ℕ × ℕ
  | .removed info | .delLookup info | .delBits info => chargeAt k info
  | _ => 0

/-- The stack that a program at this point has found in the statistics. -/
def Point.entry : Point → Option UInt64
  | .addAgain info | .addBits info | .delBits info => some info.stackKey
  | _ => .none

/-- What a step of a program does to the maps: it leaves the statistics, with what it records or
deletes now owed to them; it settles what it owes; it makes an entry; or it drops what it owes
to an entry that there is no room for. -/
inductive Effect (t : Tracker) (j : Job) : Tracker → Job → Drift → Prop
  | keeps {t' : Tracker} {j' : Job} {d : Drift}
      (hcombined : t'.combinedAllocs = t.combinedAllocs)
      (hentry : ∀ k, j'.point.entry = some k → (t.combinedAllocs.lookup k).isSome)
      (hbalance : ∀ k, j'.point.adds k + countAt k d.excess + (live t k + j.point.subs k) =
        j.point.adds k +
          (live t' k + j'.point.subs k + countAt k d.lost + countAt k d.skipped)) :
      Effect t j t' j' d
  | adds {info : AllocInfo} (hpoint : j.point = .addBits info) :
      Effect t j { t with
        combinedAllocs := t.combinedAllocs.modify info.stackKey fun c =>
          ⟨c.bits + (CombinedAllocInfo.ofFields info.size 1).bits⟩ } j.done .none
  | dels {info : AllocInfo} (hpoint : j.point = .delBits info) :
      Effect t j { t with
        combinedAllocs := t.combinedAllocs.modify info.stackKey fun c =>
          ⟨c.bits - (CombinedAllocInfo.ofFields info.size 1).bits⟩ } j.done .none
  | inits {info : AllocInfo} {m : BpfHash UInt64 CombinedAllocInfo combinedAllocsMaxEntries}
      (hpoint : j.point = .addInit info)
      (hnone : t.combinedAllocs.lookup info.stackKey = .none)
      (hput : t.combinedAllocs.put info.stackKey initialCinfo = some m) :
      Effect t j { t with combinedAllocs := m } (j.goOn (.addAgain info)) .none
  | drops {info : AllocInfo} (hpoint : j.point = .addInit info ∨ j.point = .delLookup info)
      (hnone : t.combinedAllocs.lookup info.stackKey = .none)
      (hfull : t.combinedAllocs.Full) : Effect t j t j.done .none

variable {ro : Rodata} {t t' : Tracker} {j j' : Job}

lemma countAt_nil (k : UInt64) : countAt k [] = 0 := rfl

lemma countAt_singleton (k : UInt64) (info : AllocInfo) : countAt k [info] = chargeAt k info := by
  simp [countAt]

lemma lookup_modify_isSome {m : BpfHash UInt64 CombinedAllocInfo combinedAllocsMaxEntries}
    {k₀ : UInt64} {f : CombinedAllocInfo → CombinedAllocInfo} (k : UInt64) :
    ((m.modify k₀ f).lookup k).isSome = (m.lookup k).isSome := by
  by_cases hk : k = k₀
  · rw [hk, lookup_modify_self, Option.isSome_map]
  · rw [lookup_modify_of_ne _ _ hk]

/-- A step that records and deletes nothing. -/
lemma Effect.quiet (hallocs : t'.allocs = t.allocs)
    (hcombined : t'.combinedAllocs = t.combinedAllocs)
    (hentry : ∀ k, j'.point.entry = some k → (t.combinedAllocs.lookup k).isSome)
    (hadds : ∀ k, j'.point.adds k = j.point.adds k)
    (hsubs : ∀ k, j'.point.subs k = j.point.subs k) : Effect t j t' j' .none := by
  refine .keeps hcombined hentry fun k => ?_
  have hlive : live t' k = live t k := by rw [live, live, hallocs]
  rw [hadds, hsubs, hlive, Drift.none, countAt_nil, add_zero, add_zero, add_zero]

/-- A record that is made is owed to the statistics. -/
lemma live_record (t : Tracker) (address : UInt64) (info : AllocInfo) (k : UInt64) :
    live { t with allocs := updateIgnored t.allocs address info } k +
        countAt k (displaced t address info) = live t k + chargeAt k info := by
  have hheld := held_record t [] address info k
  rw [held, held, List.nil_append, countAt_nil, add_zero] at hheld
  exact hheld

/-- A record that is deleted is owed to the statistics, with the one that was looked up. -/
lemma live_delete (t : Tracker) (address k : UInt64) :
    live { t with allocs := t.allocs.delete address } k +
        countAt k (t.allocs.lookup address).toList = live t k := by
  have hweight : weightAt (fun _ => chargeAt k) t.allocs address =
      countAt k (t.allocs.lookup address).toList := by
    rw [weightAt]
    cases t.allocs.lookup address with
    | none => rfl
    | some info => exact (countAt_singleton k info).symm
  rw [live, live, ← hweight, tally_delete_add]

/-- A step that changes nothing. -/
lemma Effect.idle (hentry : ∀ k, j.point.entry = some k → (t.combinedAllocs.lookup k).isSome) :
    Effect t j t j .none :=
  .quiet rfl rfl hentry (fun _ => rfl) fun _ => rfl

/-- A step that finds an entry of the statistics. -/
lemma Effect.finds {info : AllocInfo} (hlookup : (t.combinedAllocs.lookup info.stackKey).isSome)
    (hentry : j'.point.entry = some info.stackKey)
    (hadds : ∀ k, j'.point.adds k = j.point.adds k)
    (hsubs : ∀ k, j'.point.subs k = j.point.subs k) : Effect t j t j' .none := by
  refine .quiet rfl rfl (fun k hk => ?_) hadds hsubs
  obtain rfl := Option.some.inj (hentry.symm.trans hk)
  exact hlookup

/-- The address an operation works at. -/
def Op.address : Op → Option UInt64
  | .exit address | .free address => some address
  | .event _ | .memptr _ | .memptrDone | .enter _ => none

/-- An operation that works at no address leaves the records and the statistics. -/
lemma Op.run_frame {op : Op} (hop : op.address = none) (ro : Rodata) (h : Helpers) (t : Tracker) :
    (op.run ro h t).allocs = t.allocs ∧ (op.run ro h t).combinedAllocs = t.combinedAllocs := by
  cases op with
  | exit address => cases hop
  | free address => cases hop
  | memptr p => exact ⟨rfl, rfl⟩
  | memptrDone => exact ⟨rfl, rfl⟩
  | event ctx =>
      change (emitDwunwEvent ro h ctx t).allocs = _ ∧ (emitDwunwEvent ro h ctx t).combinedAllocs = _
      rw [emitDwunwEvent]
      split_ifs <;> exact ⟨rfl, rfl⟩
  | enter size =>
      refine ⟨genAllocEnter_allocs ro h size t, ?_⟩
      show (genAllocEnter ro h size t).combinedAllocs = t.combinedAllocs
      rw [genAllocEnter]
      split_ifs <;> rfl

section Effects

variable {h : Helpers} {op : Op} {ops : List Op} {point : Point}

variable (t h ops point) in
/-- Such an operation is one step. -/
lemma Job.advance_whole (ro : Rodata) (reused : Option AllocInfo) (hop : op.address = none) :
    Job.advance ro reused t ⟨h, op :: ops, .start⟩ = (op.run ro h t, ⟨h, ops, .start⟩) ∧
      Job.drift reused t ⟨h, op :: ops, point⟩ = .none ∧
      (Job.advance ro reused t ⟨h, op :: ops, point⟩ = (t, ⟨h, op :: ops, point⟩) ∨
        point = .start) := by
  cases op with
  | exit address => cases hop
  | free address => cases hop
  | _ => exact ⟨rfl, rfl, by cases point <;> first | exact .inr rfl | exact .inl rfl⟩

lemma Job.effect_whole (ro : Rodata) (reused : Option AllocInfo) (hop : op.address = none)
    (hentry : ∀ k, point.entry = some k → (t.combinedAllocs.lookup k).isSome) :
    Effect t ⟨h, op :: ops, point⟩ (Job.advance ro reused t ⟨h, op :: ops, point⟩).1
      (Job.advance ro reused t ⟨h, op :: ops, point⟩).2
      (Job.drift reused t ⟨h, op :: ops, point⟩) := by
  obtain ⟨hwhole, hdrift, hidle | rfl⟩ := Job.advance_whole t h ops point ro reused hop
  · rw [hidle, hdrift]
    exact .idle hentry
  · rw [hwhole, hdrift]
    obtain ⟨hallocs, hcombined⟩ := Op.run_frame hop ro h t
    exact .quiet hallocs hcombined (fun _ hk => by cases hk) (fun _ => rfl) fun _ => rfl

/-- `bpf_map_update_elem` of `bpf_map_lookup_or_try_init`. -/
lemma Job.effect_addInit (ro : Rodata) (reused : Option AllocInfo) (address : UInt64)
    (info : AllocInfo) :
    Effect t ⟨h, .exit address :: ops, .addInit info⟩
      (Job.advance ro reused t ⟨h, .exit address :: ops, .addInit info⟩).1
      (Job.advance ro reused t ⟨h, .exit address :: ops, .addInit info⟩).2 .none := by
  rw [Job.advance]
  dsimp only
  rw [updateElem]
  cases hlookup : t.combinedAllocs.lookup info.stackKey with
  | some c =>
      rw [if_pos (by simp)]
      exact .finds (by rw [hlookup, Option.isSome_some]) rfl (fun _ => rfl) fun _ => rfl
  | none =>
      rw [if_neg (by simp)]
      cases hput : t.combinedAllocs.put info.stackKey initialCinfo with
      | none => exact .drops (.inl rfl) hlookup (put_eq_none_iff.mp hput).2
      | some m => exact .inits rfl hlookup hput

/-- The steps of `gen_alloc_exit2`. -/
lemma Job.effect_exit (ro : Rodata) (reused : Option AllocInfo) (address : UInt64)
    (hentry : ∀ k, point.entry = some k → (t.combinedAllocs.lookup k).isSome) :
    Effect t ⟨h, .exit address :: ops, point⟩
      (Job.advance ro reused t ⟨h, .exit address :: ops, point⟩).1
      (Job.advance ro reused t ⟨h, .exit address :: ops, point⟩).2
      (Job.drift reused t ⟨h, .exit address :: ops, point⟩) := by
  cases point with
  | start =>
      rw [Job.advance]
      dsimp only
      split <;> exact .quiet rfl rfl (fun _ hk => by cases hk) (fun _ => rfl) fun _ => rfl
  | sized size =>
      rw [Job.advance]
      dsimp only
      split_ifs <;> exact .quiet rfl rfl (fun _ hk => by cases hk) (fun _ => rfl) fun _ => rfl
  | recording info =>
      refine .keeps rfl (fun _ hk => by cases hk) fun k => ?_
      have hrecord := live_record t address info k
      show chargeAt k info + 0 + (live t k + 0) =
        0 + (live { t with allocs := updateIgnored t.allocs address info } k + 0 +
          countAt k (displaced t address info) + 0)
      grind
  | addLookup info =>
      rw [Job.advance]
      dsimp only
      cases hlookup : t.combinedAllocs.lookup info.stackKey with
      | none => exact .quiet rfl rfl (fun _ hk => by cases hk) (fun _ => rfl) fun _ => rfl
      | some c =>
          exact .finds (by rw [hlookup, Option.isSome_some]) rfl (fun _ => rfl) fun _ => rfl
  | addInit info => exact Job.effect_addInit ro reused address info
  | addAgain info =>
      have hsome := hentry info.stackKey rfl
      rw [Job.advance]
      dsimp only
      cases hlookup : t.combinedAllocs.lookup info.stackKey with
      | none =>
          rw [hlookup] at hsome
          cases hsome
      | some c => exact .finds hsome rfl (fun _ => rfl) fun _ => rfl
  | addBits info => exact .adds rfl
  | _ => exact .idle hentry

/-- `bpf_map_delete_elem`, of a record that was looked up before. -/
lemma Job.effect_found (ro : Rodata) (reused : Option AllocInfo) (address : UInt64)
    (info : AllocInfo) :
    Effect t ⟨h, .free address :: ops, .found info⟩
      (Job.advance ro reused t ⟨h, .free address :: ops, .found info⟩).1
      (Job.advance ro reused t ⟨h, .free address :: ops, .found info⟩).2
      (Job.drift reused t ⟨h, .free address :: ops, .found info⟩) := by
  refine .keeps rfl (fun _ hk => by cases hk) fun k => ?_
  have hdelete := live_delete t address k
  show 0 + countAt k (Job.drift reused t ⟨h, .free address :: ops, .found info⟩).excess +
      (live t k + 0) = 0 + (live { t with allocs := t.allocs.delete address } k +
        chargeAt k info +
        countAt k (Job.drift reused t ⟨h, .free address :: ops, .found info⟩).lost +
        countAt k (Job.drift reused t ⟨h, .free address :: ops, .found info⟩).skipped)
  rw [Job.drift]
  dsimp only
  split_ifs with hsame
  · rw [hsame, Option.toList_some, countAt_singleton] at hdelete
    rw [Drift.none, countAt_nil]
    grind
  · rw [countAt_nil, countAt_singleton]
    grind

/-- The read of a record that was deleted. -/
lemma Job.effect_removed (reused : Option AllocInfo) (address : UInt64)
    (info : AllocInfo) :
    Effect t ⟨h, .free address :: ops, .removed info⟩ t
      ⟨h, .free address :: ops, .delLookup (reused.getD info)⟩
      (Job.drift reused t ⟨h, .free address :: ops, .removed info⟩) := by
  refine .keeps rfl (fun _ hk => by cases hk) fun k => ?_
  cases reused with
  | none => rfl
  | some other =>
      show 0 + countAt k [other] + (live t k + chargeAt k info) =
        0 + (live t k + chargeAt k other + 0 + countAt k [info])
      rw [countAt_singleton, countAt_singleton]
      grind

/-- The lookup of `update_statistics_del`. -/
lemma Job.effect_delLookup (ro : Rodata) (reused : Option AllocInfo) (address : UInt64)
    (info : AllocInfo) :
    Effect t ⟨h, .free address :: ops, .delLookup info⟩
      (Job.advance ro reused t ⟨h, .free address :: ops, .delLookup info⟩).1
      (Job.advance ro reused t ⟨h, .free address :: ops, .delLookup info⟩).2
      (Job.drift reused t ⟨h, .free address :: ops, .delLookup info⟩) := by
  rw [Job.advance, Job.drift]
  dsimp only
  cases hlookup : t.combinedAllocs.lookup info.stackKey with
  | some c =>
      rw [if_neg (by simp)]
      exact .finds (by rw [hlookup, Option.isSome_some]) rfl (fun _ => rfl) fun _ => rfl
  | none =>
      by_cases hfull : t.combinedAllocs.Full
      · rw [if_neg (by simp [hfull])]
        exact .drops (.inr rfl) hlookup hfull
      · rw [if_pos ⟨rfl, hfull⟩]
        refine .keeps rfl (fun _ hk => by cases hk) fun k => ?_
        show 0 + 0 + (live t k + chargeAt k info) =
          0 + (live t k + 0 + 0 + countAt k [info])
        rw [countAt_singleton]
        grind

/-- The steps of `gen_free_enter`. -/
lemma Job.effect_free (ro : Rodata) (reused : Option AllocInfo) (address : UInt64)
    (hentry : ∀ k, point.entry = some k → (t.combinedAllocs.lookup k).isSome) :
    Effect t ⟨h, .free address :: ops, point⟩
      (Job.advance ro reused t ⟨h, .free address :: ops, point⟩).1
      (Job.advance ro reused t ⟨h, .free address :: ops, point⟩).2
      (Job.drift reused t ⟨h, .free address :: ops, point⟩) := by
  cases point with
  | start =>
      rw [Job.advance]
      dsimp only
      split <;> exact .quiet rfl rfl (fun _ hk => by cases hk) (fun _ => rfl) fun _ => rfl
  | found info => exact Job.effect_found ro reused address info
  | removed info => exact Job.effect_removed reused address info
  | delLookup info => exact Job.effect_delLookup ro reused address info
  | delBits info => exact .dels rfl
  | _ => exact .idle hentry

end Effects

/-- Every step has one of these effects. -/
theorem Job.advance_effect (ro : Rodata) (reused : Option AllocInfo)
    (hentry : ∀ k, j.point.entry = some k → (t.combinedAllocs.lookup k).isSome) :
    Effect t j (j.advance ro reused t).1 (j.advance ro reused t).2 (j.drift reused t) := by
  obtain ⟨h, _ | ⟨op, ops⟩, point⟩ := j
  · exact .idle hentry
  cases op with
  | exit address => exact Job.effect_exit ro reused address hentry
  | free address => exact Job.effect_free ro reused address hentry
  | event ctx => exact Job.effect_whole ro reused rfl hentry
  | memptr p => exact Job.effect_whole ro reused rfl hentry
  | memptrDone => exact Job.effect_whole ro reused rfl hentry
  | enter size => exact Job.effect_whole ro reused rfl hentry

/-- No effect takes an entry away. -/
lemma Effect.lookup_isSome {d : Drift} (he : Effect t j t' j' d) {k : UInt64}
    (hk : (t.combinedAllocs.lookup k).isSome) : (t'.combinedAllocs.lookup k).isSome := by
  cases he with
  | keeps hcombined _ _ => rwa [hcombined]
  | adds _ => rwa [lookup_modify_isSome]
  | dels _ => rwa [lookup_modify_isSome]
  | @inits info m _ _ hput =>
      by_cases hkey : k = info.stackKey
      · rw [hkey, lookup_put_self hput, Option.isSome_some]
      · rwa [lookup_put_of_ne hput hkey]
  | drops _ _ _ => exact hk

/-- What a program has found after a step is there. -/
lemma Effect.entry {d : Drift} (he : Effect t j t' j' d) {k : UInt64}
    (hk : j'.point.entry = some k) : (t'.combinedAllocs.lookup k).isSome := by
  cases he with
  | keeps hcombined hentry _ =>
      rw [hcombined]
      exact hentry k hk
  | adds _ => cases hk
  | dels _ => cases hk
  | inits _ _ hput =>
      cases hk
      rw [lookup_put_self hput, Option.isSome_some]
  | drops _ _ _ => cases hk

/-- A program leaves an operation at its end only. -/
lemma Job.advance_job (ro : Rodata) (reused : Option AllocInfo) (t : Tracker) (j : Job) :
    (j.advance ro reused t).2 = j ∨ (j.advance ro reused t).2 = j.done ∨
      j.ops ≠ [] ∧ ∃ p, (j.advance ro reused t).2 = j.goOn p := by
  obtain ⟨h, _ | ⟨op, ops⟩, point⟩ := j
  · exact .inl rfl
  have hgoes {p : Point} {t' : Tracker} {r : Tracker × Job}
      (hr : r = (t', Job.goOn ⟨h, op :: ops, point⟩ p)) :
      r.2 = ⟨h, op :: ops, point⟩ ∨ r.2 = Job.done ⟨h, op :: ops, point⟩ ∨
        op :: ops ≠ [] ∧ ∃ p, r.2 = Job.goOn ⟨h, op :: ops, point⟩ p :=
    .inr (.inr ⟨List.cons_ne_nil _ _, p, by rw [hr]⟩)
  rw [Job.advance]
  split
  all_goals first
    | exact .inl rfl
    | exact .inr (.inl rfl)
    | exact hgoes rfl
    | skip
  all_goals dsimp only; split
  all_goals first
    | exact .inr (.inl rfl)
    | exact hgoes rfl

lemma Job.advance_atRest (ro : Rodata) (reused : Option AllocInfo) (t : Tracker)
    (hrest : j.ops = [] → j.point = .start) :
    (j.advance ro reused t).2.ops = [] → (j.advance ro reused t).2.point = .start := by
  rcases Job.advance_job ro reused t j with hj | hj | ⟨hne, p, hj⟩ <;> rw [hj]
  · exact hrest
  · exact fun _ => rfl
  · exact fun hnil => absurd hnil hne

/-! ### The balance -/

section System

variable {ι : Type} [Fintype ι] {s : Sys ι} {d : Drift}

/-- What the programs on their way owe. -/
def owed (w : Point → ℕ × ℕ) (jobs : ι → Job) : ℕ × ℕ := ∑ i, w (jobs i).point

/-- What is to be added to the word of a stack: what the programs owe, and what was taken from it
too much. -/
def Sys.due (s : Sys ι) (k : UInt64) : ℕ × ℕ := owed (·.adds k) s.jobs + countAt k s.excess

/-- What the word of a stack should count then: the records that are there, those that are gone
and were not taken from it, and those that the programs will take from it. -/
def Sys.kept (s : Sys ι) (k : UInt64) : ℕ × ℕ :=
  held s.tracker s.lost k + countAt k s.skipped + owed (·.subs k) s.jobs

/-- No program has found what is not there, or is within an operation it does not do. -/
structure Stationed {ι : Type} (s : Sys ι) : Prop where
  entries : ∀ i k, (s.jobs i).point.entry = some k →
    (s.tracker.combinedAllocs.lookup k).isSome
  atRest : ∀ i, (s.jobs i).ops = [] → (s.jobs i).point = .start

/-- Every word is in balance; a stack that is not there has nothing to count but what is due,
unless there is no room for it. -/
structure Balanced (s : Sys ι) : Prop extends Stationed s where
  counted : ∀ k c, s.tracker.combinedAllocs.lookup k = some c →
    c.bits + word (s.due k) = word (s.kept k)
  uncounted : ∀ k, s.tracker.combinedAllocs.lookup k = none →
    s.tracker.combinedAllocs.Full ∨ s.due k = s.kept k

omit [Fintype ι] in
lemma stationed_init : Stationed (Sys.init : Sys ι) :=
  ⟨fun _ _ hk => (by cases hk), fun _ _ => rfl⟩

lemma balanced_init : Balanced (Sys.init : Sys ι) := by
  have howed (w : Point → ℕ × ℕ) (hw : w .start = 0) :
      owed w (fun _ : ι => Job.idle) = 0 := Finset.sum_eq_zero fun _ _ => hw
  refine ⟨stationed_init, fun k c hk => ?_, fun k _ => .inr ?_⟩
  · exact absurd hk (by simp [Sys.init, Tracker.init])
  · show owed (·.adds k) (fun _ : ι => Job.idle) + 0 =
      0 + 0 + 0 + owed (·.subs k) (fun _ : ι => Job.idle)
    rw [howed _ rfl, howed _ rfl]
    rfl

variable [DecidableEq ι]

/-- One program goes on. -/
lemma owed_update (w : Point → ℕ × ℕ) (jobs : ι → Job) (i : ι) (j : Job) :
    owed w (Function.update jobs i j) + w (jobs i).point = owed w jobs + w j.point := by
  have hrest : ∑ x ∈ Finset.univ.erase i, w (Function.update jobs i j x).point =
      ∑ x ∈ Finset.univ.erase i, w (jobs x).point := by
    refine Finset.sum_congr rfl fun x hx => ?_
    rw [Function.update_of_ne (Finset.ne_of_mem_erase hx)]
  rw [owed, owed, ← Finset.add_sum_erase _ _ (Finset.mem_univ i),
    ← Finset.add_sum_erase _ (fun x => w (jobs x).point) (Finset.mem_univ i), hrest,
    Function.update_self]
  exact add_right_comm _ _ _ |>.trans (by rw [add_comm (w j.point), add_right_comm])

/-- The system after a step of one program. -/
def Sys.after (s : Sys ι) (i : ι) (t : Tracker) (j : Job) (d : Drift) : Sys ι :=
  { tracker := t
    jobs := Function.update s.jobs i j
    lost := s.lost ++ d.lost
    skipped := s.skipped ++ d.skipped
    excess := s.excess ++ d.excess }

omit [Fintype ι] in
lemma after_jobs_self (s : Sys ι) (i : ι) (t : Tracker) (j : Job) (d : Drift) :
    (s.after i t j d).jobs i = j := Function.update_self _ _ _

omit [Fintype ι] in
lemma after_jobs_of_ne (s : Sys ι) {i x : ι} (t : Tracker) (j : Job) (d : Drift) (hx : x ≠ i) :
    (s.after i t j d).jobs x = s.jobs x := Function.update_of_ne hx _ _

omit [Fintype ι] in
/-- A program is started where none is. -/
lemma Sys.next_start (ro : Rodata) (s : Sys ι) {i : ι} (hidle : (s.jobs i).ops = []) (h : Helpers)
    (ops : List Op) :
    s.next ro (.start i h ops) = s.after i s.tracker ⟨h, ops, .start⟩ .none := by
  rw [Sys.next, if_pos hidle]
  simp [Sys.after, Drift.none]

/-- What is due after a step, and what is kept. -/
lemma due_after (s : Sys ι) (i : ι) (t' : Tracker) (j' : Job) (d : Drift) (k : UInt64) :
    (s.after i t' j' d).due k + (s.jobs i).point.adds k =
      s.due k + (j'.point.adds k + countAt k d.excess) := by
  have howed := owed_update (·.adds k) s.jobs i j'
  rw [Sys.due, Sys.due, Sys.after]
  dsimp only at howed ⊢
  rw [countAt_append]
  grind

lemma kept_after (s : Sys ι) (i : ι) (t' : Tracker) (j' : Job) (d : Drift) (k : UInt64) :
    (s.after i t' j' d).kept k + ((s.jobs i).point.subs k + live s.tracker k) =
      s.kept k + (j'.point.subs k + live t' k + countAt k d.lost + countAt k d.skipped) := by
  have howed := owed_update (·.subs k) s.jobs i j'
  rw [Sys.kept, Sys.kept, Sys.after, held, held]
  dsimp only at howed ⊢
  rw [countAt_append, countAt_append]
  grind

/-- A program that is done with an operation owes nothing for it any more. -/
lemma due_done (s : Sys ι) (i : ι) (t' : Tracker) (k : UInt64) :
    (s.after i t' (s.jobs i).done .none).due k + (s.jobs i).point.adds k = s.due k := by
  rw [due_after]
  exact add_zero _

lemma kept_done (s : Sys ι) (i : ι) (hallocs : t'.allocs = s.tracker.allocs) (k : UInt64) :
    (s.after i t' (s.jobs i).done .none).kept k + (s.jobs i).point.subs k = s.kept k := by
  have hkept := kept_after s i t' (s.jobs i).done .none k
  have hlive : live t' k = live s.tracker k := by rw [live, live, hallocs]
  change _ = s.kept k + (0 + live t' k + 0 + 0) at hkept
  grind

omit [Fintype ι] in
/-- Every effect leaves the programs where they can be. -/
lemma Stationed.after (hs : Stationed s) {i : ι} (he : Effect s.tracker (s.jobs i) t' j' d)
    (hrest : j'.ops = [] → j'.point = .start) : Stationed (s.after i t' j' d) := by
  refine ⟨fun x k hk => ?_, fun x hx => ?_⟩
  · by_cases hxi : x = i
    · rw [hxi, after_jobs_self] at hk
      exact he.entry hk
    · rw [after_jobs_of_ne s t' j' d hxi] at hk
      exact he.lookup_isSome (hs.entries x k hk)
  · by_cases hxi : x = i
    · rw [hxi, after_jobs_self] at hx ⊢
      exact hrest hx
    · rw [after_jobs_of_ne s t' j' d hxi] at hx ⊢
      exact hs.atRest x hx

omit [Fintype ι] in
/-- A step of the system is one of a program, or none. -/
lemma Stationed.next_cases (hs : Stationed s) (a : Act ι) :
    s.next ro a = s ∨ ∃ i t' j' d, s.next ro a = s.after i t' j' d ∧
      Effect s.tracker (s.jobs i) t' j' d ∧ (j'.ops = [] → j'.point = .start) := by
  cases a with
  | start i h ops =>
      by_cases hidle : (s.jobs i).ops = []
      · have hpoint := hs.atRest i hidle
        -- the program that starts owes as little as the one that ended
        refine .inr ⟨i, s.tracker, ⟨h, ops, .start⟩, .none, Sys.next_start ro s hidle h ops, ?_,
          fun _ => rfl⟩
        refine .quiet rfl rfl (fun _ hk => by cases hk) (fun _ => ?_) fun _ => ?_ <;> rw [hpoint]
      · exact .inl (by rw [Sys.next, if_neg hidle])
  | advance i reused =>
      exact .inr ⟨i, _, _, _, rfl, Job.advance_effect ro reused (hs.entries i),
        Job.advance_atRest ro reused s.tracker (hs.atRest i)⟩

omit [Fintype ι] in
/-- Every step leaves them there. -/
theorem Stationed.next (hs : Stationed s) (a : Act ι) : Stationed (s.next ro a) := by
  rcases hs.next_cases a with hsame | ⟨i, t', j', d, hafter, he, hrest⟩
  · rw [hsame]
    exact hs
  · rw [hafter]
    exact hs.after he hrest

section Effects

variable {i : ι} {info : AllocInfo}

/-- A step that leaves the statistics: what is now due is what is now kept. -/
lemma Balanced.keeps (hb : Balanced s) (hcombined : t'.combinedAllocs = s.tracker.combinedAllocs)
    (hbalance : ∀ k, j'.point.adds k + countAt k d.excess +
        (live s.tracker k + (s.jobs i).point.subs k) =
      (s.jobs i).point.adds k +
        (live t' k + j'.point.subs k + countAt k d.lost + countAt k d.skipped))
    (hs : Stationed (s.after i t' j' d)) : Balanced (s.after i t' j' d) := by
  have hcross (k : UInt64) : (s.after i t' j' d).due k + s.kept k =
      s.due k + (s.after i t' j' d).kept k := by
    have hdue := due_after s i t' j' d k
    have hkept := kept_after s i t' j' d k
    have h := hbalance k
    grind
  refine ⟨hs, fun k c hk => ?_, fun k hk => ?_⟩
  · have hword := hb.counted k c (hcombined ▸ hk)
    have hwords := congrArg word (hcross k)
    rw [word_add, word_add] at hwords
    grind
  · refine (hb.uncounted k (hcombined ▸ hk)).imp (fun hfull => ?_) fun hsame => ?_
    · show t'.combinedAllocs.Full
      rw [hcombined]
      exact hfull
    · have h := hcross k
      grind

/-- A step that settles what a program owes to the word of a stack. -/
lemma Balanced.settles (hb : Balanced s) {f : UInt64 → UInt64}
    (hentry : (s.jobs i).point.entry = some info.stackKey)
    (hself : ∀ c, s.tracker.combinedAllocs.lookup info.stackKey = some c →
      f c.bits + word ((s.after i s.tracker (s.jobs i).done .none).due info.stackKey) =
        word ((s.after i s.tracker (s.jobs i).done .none).kept info.stackKey))
    (hother : ∀ k, k ≠ info.stackKey →
      (s.after i s.tracker (s.jobs i).done .none).due k = s.due k ∧
        (s.after i s.tracker (s.jobs i).done .none).kept k = s.kept k)
    (hs : Stationed (s.after i { s.tracker with
      combinedAllocs := s.tracker.combinedAllocs.modify info.stackKey fun c => ⟨f c.bits⟩ }
      (s.jobs i).done .none)) :
    Balanced (s.after i { s.tracker with
      combinedAllocs := s.tracker.combinedAllocs.modify info.stackKey fun c => ⟨f c.bits⟩ }
      (s.jobs i).done .none) := by
  refine ⟨hs, fun k c hk => ?_, fun k hk => ?_⟩
  · change (s.tracker.combinedAllocs.modify info.stackKey fun c => ⟨f c.bits⟩).lookup k = some c
      at hk
    by_cases hkey : k = info.stackKey
    · subst hkey
      rw [lookup_modify_self] at hk
      obtain ⟨c₀, hc₀, rfl⟩ := Option.map_eq_some_iff.mp hk
      exact hself c₀ hc₀
    · rw [lookup_modify_of_ne _ _ hkey] at hk
      have hword := hb.counted k c hk
      rw [← (hother k hkey).1, ← (hother k hkey).2] at hword
      exact hword
  · change (s.tracker.combinedAllocs.modify info.stackKey fun c => ⟨f c.bits⟩).lookup k = none
      at hk
    have hkey : k ≠ info.stackKey := by
      rintro rfl
      have hsome := hb.entries i _ hentry
      rw [← lookup_modify_isSome, hk] at hsome
      cases hsome
    rw [lookup_modify_of_ne _ _ hkey] at hk
    refine (hb.uncounted k hk).imp (fun hfull => (full_modify _ _ _).mpr hfull) fun hsame => ?_
    rw [← (hother k hkey).1, ← (hother k hkey).2] at hsame
    exact hsame

/-- `__sync_fetch_and_add`. -/
lemma Balanced.adds (hb : Balanced s) (hpoint : (s.jobs i).point = .addBits info)
    (hs : Stationed (s.after i { s.tracker with
      combinedAllocs := s.tracker.combinedAllocs.modify info.stackKey fun c =>
        ⟨c.bits + (CombinedAllocInfo.ofFields info.size 1).bits⟩ } (s.jobs i).done .none)) :
    Balanced (s.after i { s.tracker with
      combinedAllocs := s.tracker.combinedAllocs.modify info.stackKey fun c =>
        ⟨c.bits + (CombinedAllocInfo.ofFields info.size 1).bits⟩ } (s.jobs i).done .none) := by
  have hdue := fun k => due_done s i s.tracker k
  have hkept := fun k => kept_done s i (rfl : s.tracker.allocs = _) k
  simp only [hpoint, Point.adds, Point.subs, add_zero] at hdue hkept
  refine hb.settles (f := (· + (CombinedAllocInfo.ofFields info.size 1).bits))
    (by rw [hpoint]; rfl) (fun c hc => ?_) (fun k hk => ⟨?_, hkept k⟩) hs
  · have hword := hb.counted _ c hc
    rw [← hdue, ← hkept, chargeAt_self, word_add, ← word_charge] at hword
    rw [← hword, UInt64.add_assoc,
      UInt64.add_comm (CombinedAllocInfo.ofFields info.size 1).bits]
  · have hsame := hdue k
    rwa [chargeAt_of_ne hk, add_zero] at hsame

/-- `__sync_fetch_and_sub`. -/
lemma Balanced.dels (hb : Balanced s) (hpoint : (s.jobs i).point = .delBits info)
    (hs : Stationed (s.after i { s.tracker with
      combinedAllocs := s.tracker.combinedAllocs.modify info.stackKey fun c =>
        ⟨c.bits - (CombinedAllocInfo.ofFields info.size 1).bits⟩ } (s.jobs i).done .none)) :
    Balanced (s.after i { s.tracker with
      combinedAllocs := s.tracker.combinedAllocs.modify info.stackKey fun c =>
        ⟨c.bits - (CombinedAllocInfo.ofFields info.size 1).bits⟩ } (s.jobs i).done .none) := by
  have hdue := fun k => due_done s i s.tracker k
  have hkept := fun k => kept_done s i (rfl : s.tracker.allocs = _) k
  simp only [hpoint, Point.adds, Point.subs, add_zero] at hdue hkept
  refine hb.settles (f := (· - (CombinedAllocInfo.ofFields info.size 1).bits))
    (by rw [hpoint]; rfl) (fun c hc => ?_) (fun k hk => ⟨hdue k, ?_⟩) hs
  · have hword := hb.counted _ c hc
    rw [← hdue, ← hkept, chargeAt_self, word_add, ← word_charge] at hword
    grind
  · have hsame := hkept k
    rwa [chargeAt_of_ne hk, add_zero] at hsame

/-- What is due and what is kept do not change when an entry is made. -/
lemma due_kept_inits {m : BpfHash UInt64 CombinedAllocInfo combinedAllocsMaxEntries}
    (hpoint : (s.jobs i).point = .addInit info) (k : UInt64) :
    (s.after i { s.tracker with combinedAllocs := m }
        ((s.jobs i).goOn (.addAgain info)) .none).due k = s.due k ∧
      (s.after i { s.tracker with combinedAllocs := m }
        ((s.jobs i).goOn (.addAgain info)) .none).kept k = s.kept k := by
  have hdue := due_after s i { s.tracker with combinedAllocs := m }
    ((s.jobs i).goOn (.addAgain info)) .none k
  have hkept := kept_after s i { s.tracker with combinedAllocs := m }
    ((s.jobs i).goOn (.addAgain info)) .none k
  rw [hpoint] at hdue hkept
  change _ + chargeAt k info = _ + (chargeAt k info + 0) at hdue
  change _ + (0 + live s.tracker k) = _ + (0 + live s.tracker k + 0 + 0) at hkept
  grind

/-- An entry is made: it counts nothing, and nothing else was due than what is kept. -/
lemma Balanced.inits (hb : Balanced s)
    {m : BpfHash UInt64 CombinedAllocInfo combinedAllocsMaxEntries}
    (hpoint : (s.jobs i).point = .addInit info)
    (hnone : s.tracker.combinedAllocs.lookup info.stackKey = none)
    (hput : s.tracker.combinedAllocs.put info.stackKey initialCinfo = some m)
    (hs : Stationed (s.after i { s.tracker with combinedAllocs := m }
      ((s.jobs i).goOn (.addAgain info)) .none)) :
    Balanced (s.after i { s.tracker with combinedAllocs := m }
      ((s.jobs i).goOn (.addAgain info)) .none) := by
  have hroom : ¬ s.tracker.combinedAllocs.Full := fun hfull =>
    absurd (put_eq_none_iff.mpr ⟨hnone, hfull⟩) (by rw [hput]; exact Option.some_ne_none _)
  refine ⟨hs, fun k c hk => ?_, fun k hk => ?_⟩
  · rw [(due_kept_inits hpoint k).1, (due_kept_inits hpoint k).2]
    change m.lookup k = some c at hk
    by_cases hkey : k = info.stackKey
    · subst hkey
      rw [lookup_put_self hput] at hk
      rw [← Option.some.inj hk, (hb.uncounted _ hnone).resolve_left hroom]
      exact UInt64.zero_add _
    · rw [lookup_put_of_ne hput hkey] at hk
      exact hb.counted k c hk
  · rw [(due_kept_inits hpoint k).1, (due_kept_inits hpoint k).2]
    change m.lookup k = none at hk
    have hkey : k ≠ info.stackKey := by
      rintro rfl
      rw [lookup_put_self hput] at hk
      cases hk
    rw [lookup_put_of_ne hput hkey] at hk
    exact (hb.uncounted k hk).imp_left fun hfull => absurd hfull hroom

/-- What is owed to an entry that there is no room for is dropped. -/
lemma Balanced.drops (hb : Balanced s)
    (hpoint : (s.jobs i).point = .addInit info ∨ (s.jobs i).point = .delLookup info)
    (hnone : s.tracker.combinedAllocs.lookup info.stackKey = none)
    (hfull : s.tracker.combinedAllocs.Full)
    (hs : Stationed (s.after i s.tracker (s.jobs i).done .none)) :
    Balanced (s.after i s.tracker (s.jobs i).done .none) := by
  have hdue := fun k => due_done s i s.tracker k
  have hkept := fun k => kept_done s i (rfl : s.tracker.allocs = _) k
  refine ⟨hs, fun k c hk => ?_, fun k _ => .inl hfull⟩
  have hkey : k ≠ info.stackKey := by
    rintro rfl
    exact absurd (hnone.symm.trans hk) (by simp)
  have hword := hb.counted k c hk
  rw [← hdue, ← hkept] at hword
  rcases hpoint with hpoint | hpoint <;> rw [hpoint] at hword <;>
    simpa only [Point.adds, Point.subs, chargeAt_of_ne hkey, add_zero] using hword

/-- Every effect keeps the balance. -/
theorem Balanced.effect (hb : Balanced s) (he : Effect s.tracker (s.jobs i) t' j' d)
    (hrest : j'.ops = [] → j'.point = .start) : Balanced (s.after i t' j' d) := by
  have hs := hb.toStationed.after he hrest
  cases he with
  | keeps hcombined _ hbalance => exact hb.keeps hcombined hbalance hs
  | adds hpoint => exact hb.adds hpoint hs
  | dels hpoint => exact hb.dels hpoint hs
  | inits hpoint hnone hput => exact hb.inits hpoint hnone hput hs
  | drops hpoint hnone hfull => exact hb.drops hpoint hnone hfull hs

end Effects

/-- Every step keeps the balance. -/
theorem Balanced.next (hb : Balanced s) (a : Act ι) : Balanced (s.next ro a) := by
  rcases hb.next_cases a with hsame | ⟨i, t', j', d, hafter, he, hrest⟩
  · rw [hsame]
    exact hb
  · rw [hafter]
    exact hb.effect he hrest

/-- The states that any number of programs come to, started and advanced in any order. -/
abbrev SysReach (ro : Rodata) : Sys ι → Prop :=
  Runs.Reach (Sys.next ro) (fun _ _ => True) .init

/-- In every order of atomic steps of any number of programs, every word of the statistics is in
balance: with what is due, it counts the records that are there, and those that are gone and are
not taken from it yet.  When all programs are done, a word counts the records but for what
drifted. -/
theorem interleaved_words (hs : SysReach ro s) {k : UInt64} {c : CombinedAllocInfo}
    (hc : s.tracker.combinedAllocs.lookup k = some c) :
    c.bits + word (s.due k) = word (s.kept k) ∧
      ((∀ i, (s.jobs i).ops = []) →
        c.bits + word (countAt k s.excess) =
          word (held s.tracker s.lost k + countAt k s.skipped)) := by
  have hb : Balanced s := hs.invariant balanced_init fun _ a _ hb _ => hb.next a
  refine ⟨hb.counted k c hc, fun hdone => ?_⟩
  have howed (w : Point → ℕ × ℕ) (hw : w .start = 0) : owed w s.jobs = 0 :=
    Finset.sum_eq_zero fun i _ => by rw [hb.atRest i (hdone i), hw]
  have hword := hb.counted k c hc
  rwa [Sys.due, Sys.kept, howed _ rfl, howed _ rfl, zero_add, add_zero] at hword

end System

/-! ### Two programs that meet at a new stack -/

/-- What user space sets by default. -/
def defaultRodata : Rodata := ⟨0, 0xffffffffffffffff, 4096, 1, false, false, false⟩

/-- Two threads allocate from one stack, one atomic step in turn: both find no entry, and one of
them makes it. -/
def meeting : List (Act (Fin 2)) :=
  [.start 0 { tracedHelpers with pidTgid := 1 } [.enter 16, .exit 0x1000],
    .start 1 { tracedHelpers with pidTgid := 2 } [.enter 24, .exit 0x2000]] ++
  (List.replicate 8 [.advance 0 none, .advance 1 none]).flatten

def met (n : ℕ) : Sys (Fin 2) := (meeting.take n).foldl (Sys.next defaultRodata) .init

/-- Between the steps of the two programs the word of their stack is in balance. -/
theorem interleaved_words_meeting :
    ∃ c, (met 15).tracker.combinedAllocs.lookup 3 = some c ∧
      c.bits + word ((met 15).due 3) = word ((met 15).kept 3) := by
  obtain ⟨c, hc⟩ := Option.isSome_iff_exists.mp
    (by decide +kernel : ((met 15).tracker.combinedAllocs.lookup 3).isSome = true)
  have hreach : SysReach defaultRodata (met 15) := Runs.Reach.of_list (by decide +kernel)
  exact ⟨c, hc, (interleaved_words hreach hc).1⟩

end Dwunw.Memleak
