import Dwunw.Memleak.Interleave

/-!
Programs of the leak tracer that keep out of each other's way.

* `Sys.Apart`: the steps of runs in which no two programs work at one address at the same time,
  and no memory is used again while it is still read.
* `Orderly`: the invariant of such runs; nothing drifts.
* `interleaved_exact`: no update of the statistics is lost or made twice.
* `runs_reach`: programs that run one after the other are such a run.
-/

namespace Dwunw.Memleak

open BoundedMap

variable {ro : Rodata} {t t' : Tracker} {j j' : Job}

/-! ### Programs at different addresses -/

/-- The addresses a program has still to work at. -/
def Job.addresses (j : Job) : List UInt64 := j.ops.filterMap Op.address

/-- The stack whose statistics a program at this point is about to add to. -/
def Point.adding : Point → Option UInt64
  | .addLookup info | .addInit info | .addAgain info | .addBits info => some info.stackKey
  | _ => none

/-- The record a program at this point has deleted. -/
def Point.deleted : Point → Option AllocInfo
  | .removed info | .delLookup info => some info
  | _ => none

/-- The stack has an entry, or will never have one. -/
def Entered (t : Tracker) (k : UInt64) : Prop :=
  (t.combinedAllocs.lookup k).isSome ∨ t.combinedAllocs.Full

/-- A step of a run in which no two programs work at one address, and no memory is used again
while it is still read. -/
def Sys.Apart {ι : Type} (s : Sys ι) : Act ι → Prop
  | .start i _ ops =>
      ∀ x, x ≠ i → ∀ a ∈ ops.filterMap Op.address, a ∉ (s.jobs x).addresses
  | .advance _ reused => reused = none

instance {ι : Type} [Fintype ι] [DecidableEq ι] (s : Sys ι) (a : Act ι) :
    Decidable (s.Apart a) :=
  match a with
  | .start i _ ops =>
      -- over the addresses of the program: there are too many others
      letI (x : ι) : Decidable (∀ a ∈ ops.filterMap Op.address, a ∉ (s.jobs x).addresses) :=
        List.decidableBAll (· ∉ (s.jobs x).addresses) _
      inferInstanceAs (Decidable (∀ x, x ≠ i → ∀ a ∈ ops.filterMap Op.address,
        a ∉ (s.jobs x).addresses))
  | .advance _ none => isTrue rfl
  | .advance _ (some other) => isFalse (Option.some_ne_none other)

/-- No effect takes an entry away, or makes room for one. -/
lemma Effect.entered {d : Drift} (he : Effect t j t' j' d) {k : UInt64} (hk : Entered t k) :
    Entered t' k := by
  refine hk.imp he.lookup_isSome fun hfull => ?_
  cases he with
  | keeps hcombined _ _ => rwa [hcombined]
  | adds _ => exact (full_modify _ _ _).mpr hfull
  | dels _ => exact (full_modify _ _ _).mpr hfull
  | @inits info m _ _ hput =>
      show _ ≤ m.contents.keys.card
      rw [keys_put hput]
      exact hfull.trans (Finset.card_le_card (Finset.subset_insert _ _))
  | drops _ _ _ => exact hfull

/-- A step leaves `allocs`, makes a record, or deletes one. -/
lemma Job.advance_allocs (ro : Rodata) (reused : Option AllocInfo) (t : Tracker) (j : Job) :
    (j.advance ro reused t).1.allocs = t.allocs ∨
      (∃ a ops info, j.ops = .exit a :: ops ∧ j.point = .recording info ∧
        j.advance ro reused t = ({ t with allocs := updateIgnored t.allocs a info },
          j.goOn (.addLookup info))) ∨
      ∃ a ops info, j.ops = .free a :: ops ∧ j.point = .found info ∧
        j.advance ro reused t = ({ t with allocs := t.allocs.delete a },
          j.goOn (.removed info)) := by
  obtain ⟨h, _ | ⟨op, ops⟩, point⟩ := j
  · exact .inl rfl
  have hwhole (hop : op.address = none) :
      (Job.advance ro reused t ⟨h, op :: ops, point⟩).1.allocs = t.allocs := by
    obtain ⟨hwhole, -, hidle | rfl⟩ := Job.advance_whole t h ops point ro reused hop
    · rw [hidle]
    · rw [hwhole]
      exact (Op.run_frame hop ro h t).1
  cases op with
  | event ctx => exact .inl (hwhole rfl)
  | enter size => exact .inl (hwhole rfl)
  | memptr p => exact .inl (hwhole rfl)
  | memptrDone => exact .inl (hwhole rfl)
  | exit address =>
      cases point with
      | recording info => exact .inr (.inl ⟨address, ops, info, rfl, rfl, rfl⟩)
      | start | addLookup _ | addAgain _ | addInit _ =>
          left
          rw [Job.advance]
          dsimp only
          split <;> rfl
      | sized size =>
          left
          rw [Job.advance]
          dsimp only
          split_ifs <;> rfl
      | _ => exact .inl rfl
  | free address =>
      cases point with
      | found info => exact .inr (.inr ⟨address, ops, info, rfl, rfl, rfl⟩)
      | start | delLookup _ =>
          left
          rw [Job.advance]
          dsimp only
          split <;> rfl
      | _ => exact .inl rfl

/-- A program that is about to add to the statistics goes on to, unless there is an entry, or no
room for one. -/
lemma Job.advance_adding (ro : Rodata) (reused : Option AllocInfo)
    (hentry : ∀ k, j.point.entry = some k → (t.combinedAllocs.lookup k).isSome) {k : UInt64}
    (hk : j.point.adding = some k) :
    Entered t k ∨ (j.advance ro reused t).2.ops = j.ops ∧
      (j.advance ro reused t).2.point.adding = some k := by
  obtain ⟨h, _ | ⟨op, ops⟩, point⟩ := j
  · exact .inr ⟨rfl, hk⟩
  cases op with
  | exit address =>
      cases point with
      | addLookup info =>
          right
          rw [Job.advance]
          dsimp only
          split <;> exact ⟨rfl, hk⟩
      | addInit info =>
          cases hk
          rw [Job.advance]
          dsimp only
          rw [updateElem]
          cases hlookup : t.combinedAllocs.lookup info.stackKey with
          | some c => exact .inl (.inl (by rw [hlookup]; rfl))
          | none =>
              rw [if_neg (by simp)]
              cases hput : t.combinedAllocs.put info.stackKey initialCinfo with
              | none => exact .inl (.inr (put_eq_none_iff.mp hput).2)
              | some m => exact .inr ⟨rfl, rfl⟩
      | addAgain info =>
          cases hk
          exact .inl (.inl (hentry _ rfl))
      | addBits info =>
          cases hk
          exact .inl (.inl (hentry _ rfl))
      | _ => cases hk
  | _ => cases point <;> first | exact .inr ⟨rfl, hk⟩ | cases hk

/-- A record that a program has deleted is one it had looked up. -/
lemma Job.advance_deleted (ro : Rodata) (t : Tracker) {info : AllocInfo}
    (hinfo : (j.advance ro none t).2.point.deleted = some info) :
    j.point.deleted = some info ∨
      ∃ a ops, j.ops = .free a :: ops ∧ j.point = .found info := by
  obtain ⟨h, _ | ⟨op, ops⟩, point⟩ := j
  · exact .inl hinfo
  cases op with
  | exit address =>
      cases point with
      | start | addLookup _ | addAgain _ | addInit _ =>
          rw [Job.advance] at hinfo
          dsimp only at hinfo
          split at hinfo <;> cases hinfo
      | sized size =>
          rw [Job.advance] at hinfo
          dsimp only at hinfo
          split_ifs at hinfo <;> cases hinfo
      | recording info => cases hinfo
      | addBits info => cases hinfo
      | _ => exact .inl hinfo
  | free address =>
      cases point with
      | start | delLookup _ =>
          rw [Job.advance] at hinfo
          dsimp only at hinfo
          split at hinfo <;> cases hinfo
      | found info₀ =>
          cases hinfo
          exact .inr ⟨address, ops, rfl, rfl⟩
      | delBits info => cases hinfo
      | _ => exact .inl hinfo
  | _ => cases point <;> exact .inl hinfo

/-- A record that a program has looked up for a free is the one at its address. -/
lemma Job.advance_found (ro : Rodata) (t : Tracker) {a : UInt64} {ops : List Op}
    {info : AllocInfo} (hops : (j.advance ro none t).2.ops = .free a :: ops)
    (hfound : (j.advance ro none t).2.point = .found info) :
    t.allocs.lookup a = some info ∧ (j.advance ro none t).1 = t := by
  obtain ⟨h, _ | ⟨op, ops'⟩, point⟩ := j
  · cases hops
  cases op with
  | free address =>
      cases point with
      | start =>
          rw [Job.advance] at hops hfound ⊢
          dsimp only at hops hfound ⊢
          cases hlookup : t.allocs.lookup address with
          | none =>
              rw [hlookup] at hfound
              cases hfound
          | some info₀ =>
              rw [hlookup] at hops hfound
              cases hfound
              cases hops
              exact ⟨hlookup, rfl⟩
      | delLookup info₀ =>
          rw [Job.advance] at hfound
          dsimp only at hfound
          split at hfound <;> cases hfound
      | _ => cases hfound
  | exit address =>
      cases point with
      | start | addLookup _ | addAgain _ | addInit _ =>
          rw [Job.advance] at hfound
          dsimp only at hfound
          split at hfound <;> cases hfound
      | sized size =>
          rw [Job.advance] at hfound
          dsimp only at hfound
          split_ifs at hfound <;> cases hfound
      | found info₀ => cases hops
      | _ => cases hfound
  | _ =>
      cases point with
      | found info₀ => cases hops
      | _ => cases hfound

section Apart

variable {ι : Type} [DecidableEq ι] {s : Sys ι}

/-- What holds while no two programs work at one address and no memory is used again: a record
that was looked up for a free is there until it is deleted; the stack of a record has an entry,
or the program that made the record is about to see to it; the stack of a record that was deleted
has one; and nothing drifts. -/
structure Orderly (s : Sys ι) : Prop where
  apart : ∀ i x, i ≠ x → ∀ a ∈ (s.jobs i).addresses, a ∉ (s.jobs x).addresses
  looked : ∀ i a ops info, (s.jobs i).ops = .free a :: ops → (s.jobs i).point = .found info →
    s.tracker.allocs.lookup a = some info
  entered : ∀ a info, s.tracker.allocs.lookup a = some info → Entered s.tracker info.stackKey ∨
    ∃ i ops, (s.jobs i).ops = .exit a :: ops ∧ (s.jobs i).point.adding = some info.stackKey
  deleted : ∀ i info, (s.jobs i).point.deleted = some info → Entered s.tracker info.stackKey
  skipped : s.skipped = []
  excess : s.excess = []

omit [DecidableEq ι] in
lemma orderly_init : Orderly (Sys.init : Sys ι) := by
  refine ⟨fun i x _ a ha => ?_, fun i a ops info hops => ?_, fun a info ha => ?_,
    fun i info hinfo => ?_, rfl, rfl⟩
  · cases ha
  · cases hops
  · exact absurd ha (by simp [Sys.init, Tracker.init])
  · cases hinfo

/-- A program works at the addresses of its operations only. -/
lemma Job.head_address {a : UInt64} {op : Op} {ops : List Op} (hops : j.ops = op :: ops)
    (hop : op.address = some a) : a ∈ j.addresses := by
  rw [Job.addresses, hops, List.filterMap_cons_some hop]
  exact List.mem_cons_self

/-- A program works at fewer addresses as it goes on. -/
lemma Job.advance_addresses (ro : Rodata) (reused : Option AllocInfo) (t : Tracker) (j : Job)
    {a : UInt64} (ha : a ∈ (j.advance ro reused t).2.addresses) : a ∈ j.addresses := by
  rcases Job.advance_job ro reused t j with hj | hj | ⟨-, p, hj⟩ <;> rw [hj] at ha
  · exact ha
  · exact ((List.tail_sublist j.ops).filterMap Op.address).subset ha
  · exact ha

/-- A record that is there after a step was there before, or the program has made it. -/
lemma Job.advance_lookup (ro : Rodata) (reused : Option AllocInfo) (t : Tracker) (j : Job)
    {a : UInt64} {info : AllocInfo}
    (ha : (j.advance ro reused t).1.allocs.lookup a = some info) :
    t.allocs.lookup a = some info ∨ ∃ ops, (j.advance ro reused t).2.ops = .exit a :: ops ∧
      (j.advance ro reused t).2.point.adding = some info.stackKey := by
  rcases Job.advance_allocs ro reused t j with hsame | ⟨b, ops, made, hops, -, hadv⟩ |
    ⟨b, ops, gone, -, -, hadv⟩
  · exact .inl (hsame ▸ ha)
  · rw [hadv] at ha ⊢
    change (updateIgnored t.allocs b made).lookup a = some info at ha
    by_cases hab : a = b
    · subst hab
      rcases updateIgnored_cases t.allocs a made with ⟨-, hsame⟩ | hput
      · exact .inl (hsame ▸ ha)
      · rw [lookup_put_self hput] at ha
        cases ha
        exact .inr ⟨ops, hops, rfl⟩
    · exact .inl (lookup_updateIgnored_of_ne hab ▸ ha)
  · rw [hadv] at ha
    change (t.allocs.delete b).lookup a = some info at ha
    by_cases hab : a = b
    · rw [hab, lookup_delete_self] at ha
      cases ha
    · exact .inl (lookup_delete_of_ne t.allocs hab ▸ ha)

/-- A step leaves the records at the addresses that the program does not work at. -/
lemma Job.advance_lookup_of_notMem (ro : Rodata) (reused : Option AllocInfo) (t : Tracker)
    (j : Job) {a : UInt64} (ha : a ∉ j.addresses) :
    (j.advance ro reused t).1.allocs.lookup a = t.allocs.lookup a := by
  rcases Job.advance_allocs ro reused t j with hsame | ⟨b, ops, made, hops, -, hadv⟩ |
    ⟨b, ops, gone, hops, -, hadv⟩
  · rw [hsame]
  · have hab : a ≠ b := by
      rintro rfl
      exact ha (Job.head_address hops rfl)
    rw [hadv]
    exact lookup_updateIgnored_of_ne hab
  · have hab : a ≠ b := by
      rintro rfl
      exact ha (Job.head_address hops rfl)
    rw [hadv]
    exact lookup_delete_of_ne t.allocs hab

/-- Nothing drifts when a record that was looked up is there, its memory is not used again, and
the stack of a record that was deleted has an entry. -/
lemma Job.drift_none
    (hlooked : ∀ a ops info, j.ops = .free a :: ops → j.point = .found info →
      t.allocs.lookup a = some info)
    (hdeleted : ∀ info, j.point.deleted = some info → Entered t info.stackKey) :
    (j.drift none t).skipped = [] ∧ (j.drift none t).excess = [] := by
  obtain ⟨h, ops, point⟩ := j
  rw [Job.drift]
  split
  · exact ⟨rfl, rfl⟩
  · next hops hpoint =>
      rw [if_pos (hlooked _ _ _ hops hpoint)]
      exact ⟨rfl, rfl⟩
  · exact ⟨rfl, rfl⟩
  · next info hops hpoint =>
      have hentered : Entered t info.stackKey := hdeleted info (by
        change point = _ at hpoint
        rw [hpoint]
        rfl)
      rw [if_neg]
      · exact ⟨rfl, rfl⟩
      · rintro ⟨hnone, hroom⟩
        rcases hentered with hsome | hfull
        · rw [hnone] at hsome
          cases hsome
        · exact hroom hfull
  · exact ⟨rfl, rfl⟩

/-- A program that starts at addresses of its own keeps the run orderly. -/
lemma Orderly.start (ho : Orderly s) {i : ι} (hidle : (s.jobs i).ops = []) (h : Helpers)
    {ops : List Op} (ha : ∀ x, x ≠ i → ∀ a ∈ ops.filterMap Op.address, a ∉ (s.jobs x).addresses) :
    Orderly (s.after i s.tracker ⟨h, ops, .start⟩ .none) := by
  refine ⟨fun x y hxy b hbx hby => ?_, fun x b os info hops hfound => ?_,
    fun b info hlookup => ?_, fun x info hinfo => ?_, by simp [Sys.after, Drift.none, ho.skipped],
    by simp [Sys.after, Drift.none, ho.excess]⟩
  · by_cases hx : x = i
    · rw [hx, after_jobs_self] at hbx
      rw [after_jobs_of_ne _ _ _ _ (hx ▸ hxy.symm)] at hby
      exact ha y (hx ▸ hxy.symm) b hbx hby
    · rw [after_jobs_of_ne _ _ _ _ hx] at hbx
      by_cases hy : y = i
      · rw [hy, after_jobs_self] at hby
        exact ha x hx b hby hbx
      · rw [after_jobs_of_ne _ _ _ _ hy] at hby
        exact ho.apart x y hxy b hbx hby
  · by_cases hx : x = i
    · rw [hx, after_jobs_self] at hfound
      cases hfound
    · rw [after_jobs_of_ne _ _ _ _ hx] at hops hfound
      exact ho.looked x b os info hops hfound
  · refine (ho.entered b info hlookup).imp_right fun hentered => ?_
    obtain ⟨x, os, hops, hadding⟩ := hentered
    have hx : x ≠ i := by
      rintro rfl
      rw [hidle] at hops
      cases hops
    refine ⟨x, os, ?_⟩
    rw [after_jobs_of_ne _ _ _ _ hx]
    exact ⟨hops, hadding⟩
  · by_cases hx : x = i
    · rw [hx, after_jobs_self] at hinfo
      cases hinfo
    · rw [after_jobs_of_ne _ _ _ _ hx] at hinfo
      exact ho.deleted x info hinfo

/-- The system when a program goes on and no memory is used again. -/
def Sys.advanced (ro : Rodata) (s : Sys ι) (i : ι) : Sys ι :=
  s.after i ((s.jobs i).advance ro none s.tracker).1 ((s.jobs i).advance ro none s.tracker).2
    ((s.jobs i).drift none s.tracker)

/-- Programs stay at addresses of their own. -/
lemma Orderly.advanced_apart (ho : Orderly s) (i : ι) {x y : ι} (hxy : x ≠ y) {a : UInt64}
    (hx : a ∈ ((s.advanced ro i).jobs x).addresses) :
    a ∉ ((s.advanced ro i).jobs y).addresses := by
  have hmem {z : ι} (hz : a ∈ ((s.advanced ro i).jobs z).addresses) :
      a ∈ (s.jobs z).addresses := by
    by_cases hzi : z = i
    · rw [hzi, Sys.advanced, after_jobs_self] at hz
      rw [hzi]
      exact Job.advance_addresses ro none s.tracker _ hz
    · rwa [Sys.advanced, after_jobs_of_ne _ _ _ _ hzi] at hz
  exact fun hy => ho.apart x y hxy a (hmem hx) (hmem hy)

/-- A record that a program has looked up for a free stays where it was. -/
lemma Orderly.advanced_looked (ho : Orderly s) (i : ι) {x : ι} {a : UInt64} {ops : List Op}
    {info : AllocInfo} (hops : ((s.advanced ro i).jobs x).ops = .free a :: ops)
    (hfound : ((s.advanced ro i).jobs x).point = .found info) :
    (s.advanced ro i).tracker.allocs.lookup a = some info := by
  by_cases hx : x = i
  · rw [hx, Sys.advanced, after_jobs_self] at hops hfound
    obtain ⟨hlookup, hsame⟩ := Job.advance_found ro s.tracker hops hfound
    rw [← hlookup]
    exact congrArg (fun t : Tracker => t.allocs.lookup a) hsame
  · rw [Sys.advanced, after_jobs_of_ne _ _ _ _ hx] at hops hfound
    rw [← ho.looked x a ops info hops hfound]
    exact Job.advance_lookup_of_notMem ro none s.tracker (s.jobs i)
      (ho.apart x i hx a (Job.head_address hops rfl))

/-- A stack that has an entry, or will never have one, stays so. -/
lemma Stationed.advanced_entered (hs : Stationed s) (i : ι) {k : UInt64}
    (hk : Entered s.tracker k) : Entered (s.advanced ro i).tracker k :=
  (Job.advance_effect ro none (hs.entries i)).entered hk

/-- The stack of a record has an entry, or a program is about to see to it. -/
lemma Orderly.advanced_entered (ho : Orderly s) (hs : Stationed s) (i : ι) {a : UInt64}
    {info : AllocInfo} (hlookup : (s.advanced ro i).tracker.allocs.lookup a = some info) :
    Entered (s.advanced ro i).tracker info.stackKey ∨
      ∃ x ops, ((s.advanced ro i).jobs x).ops = .exit a :: ops ∧
        ((s.advanced ro i).jobs x).point.adding = some info.stackKey := by
  rcases Job.advance_lookup ro none s.tracker (s.jobs i) hlookup with hold | ⟨os, hops, hadd⟩
  swap
  · refine .inr ⟨i, os, ?_⟩
    rw [Sys.advanced, after_jobs_self]
    exact ⟨hops, hadd⟩
  rcases ho.entered a info hold with hentered | ⟨x, os, hops, hadd⟩
  · exact .inl (hs.advanced_entered i hentered)
  by_cases hx : x = i
  · subst hx
    rcases Job.advance_adding ro none (hs.entries x) hadd with hentered | ⟨hops', hadd'⟩
    · exact .inl (hs.advanced_entered x hentered)
    · refine .inr ⟨x, os, ?_⟩
      rw [Sys.advanced, after_jobs_self]
      exact ⟨hops'.trans hops, hadd'⟩
  · refine .inr ⟨x, os, ?_⟩
    rw [Sys.advanced, after_jobs_of_ne _ _ _ _ hx]
    exact ⟨hops, hadd⟩

/-- The stack of a record that was deleted has an entry. -/
lemma Orderly.advanced_deleted (ho : Orderly s) (hs : Stationed s) (i : ι) {x : ι}
    {info : AllocInfo} (hinfo : ((s.advanced ro i).jobs x).point.deleted = some info) :
    Entered (s.advanced ro i).tracker info.stackKey := by
  by_cases hx : x = i
  · rw [hx, Sys.advanced, after_jobs_self] at hinfo
    rcases Job.advance_deleted ro s.tracker hinfo with hold | ⟨a, os, hops, hfound⟩
    · exact hs.advanced_entered i (ho.deleted i info hold)
    · rcases ho.entered a info (ho.looked i a os info hops hfound) with hentered |
        ⟨y, os', hops', -⟩
      · exact hs.advanced_entered i hentered
      · -- the record would be made and deleted at one time
        by_cases hy : y = i
        · rw [hy, hops] at hops'
          cases hops'
        · exact absurd (Job.head_address hops rfl)
            (ho.apart y i hy a (Job.head_address hops' rfl))
  · rw [Sys.advanced, after_jobs_of_ne _ _ _ _ hx] at hinfo
    exact hs.advanced_entered i (ho.deleted x info hinfo)

/-- A program that goes on keeps the run orderly. -/
lemma Orderly.advanced (ho : Orderly s) (hs : Stationed s) (i : ι) :
    Orderly (s.advanced ro i) := by
  have hdrift : ((s.jobs i).drift none s.tracker).skipped = [] ∧
      ((s.jobs i).drift none s.tracker).excess = [] :=
    Job.drift_none (ho.looked i) (ho.deleted i)
  refine ⟨fun x y hxy a ha => ho.advanced_apart i hxy ha,
    fun x a ops info hops hfound => ho.advanced_looked i hops hfound,
    fun a info hlookup => ho.advanced_entered hs i hlookup,
    fun x info hinfo => ho.advanced_deleted hs i hinfo, ?_, ?_⟩
  · show s.skipped ++ _ = []
    rw [ho.skipped, hdrift.1]
    rfl
  · show s.excess ++ _ = []
    rw [ho.excess, hdrift.2]
    rfl

/-- Every step of such a run keeps it orderly. -/
theorem Orderly.next (ho : Orderly s) (hs : Stationed s) {a : Act ι} (ha : s.Apart a) :
    Orderly (s.next ro a) := by
  cases a with
  | start i h ops =>
      by_cases hidle : (s.jobs i).ops = []
      · rw [Sys.next_start ro s hidle]
        exact ho.start hidle h ha
      · rw [Sys.next, if_neg hidle]
        exact ho
  | advance i reused =>
      obtain rfl : reused = none := ha
      exact ho.advanced hs i

/-- What holds in every state of such a run. -/
lemma apart_orderly (h : Runs.Reach (Sys.next ro) Sys.Apart Sys.init s) :
    Stationed s ∧ Orderly s :=
  h.invariant (I := fun s => Stationed s ∧ Orderly s) ⟨stationed_init, orderly_init⟩
    fun _ a _ h ha => ⟨h.1.next a, h.2.next h.1 ha⟩

/-- In every order of atomic steps in which no two programs work at one address at the same time,
and no memory is used again while it is still read, no update of the statistics is lost or made
twice: when all programs are done, every word counts the records that are there and those that
lost their place. -/
theorem interleaved_exact [Fintype ι] (hs : Runs.Reach (Sys.next ro) Sys.Apart Sys.init s)
    (hdone : ∀ i, (s.jobs i).ops = []) {k : UInt64} {c : CombinedAllocInfo}
    (hc : s.tracker.combinedAllocs.lookup k = some c) :
    c.bits = word (held s.tracker s.lost k) := by
  have hb : Balanced s := hs.invariant balanced_init fun _ a _ hb _ => hb.next a
  have ho : Orderly s := (apart_orderly hs).2
  have howed (w : Point → ℕ × ℕ) (hw : w .start = 0) : owed w s.jobs = 0 :=
    Finset.sum_eq_zero fun i _ => by rw [hb.atRest i (hdone i), hw]
  have hword := hb.counted k c hc
  rw [Sys.due, Sys.kept, howed _ rfl, howed _ rfl, ho.skipped, ho.excess, countAt_nil, add_zero,
    add_zero] at hword
  exact (UInt64.add_zero _).symm.trans hword

/-- When both programs are done the word of their stack counts both records. -/
theorem interleaved_exact_meeting :
    ∃ c, (met 18).tracker.combinedAllocs.lookup 3 = some c ∧ c.bits = word (40, 2) := by
  obtain ⟨c, hc⟩ := Option.isSome_iff_exists.mp
    (by decide +kernel : ((met 18).tracker.combinedAllocs.lookup 3).isSome = true)
  have hreach : Runs.Reach (Sys.next defaultRodata) Sys.Apart Sys.init (met 18) :=
    Runs.Reach.of_list (by decide +kernel)
  have hheld : held (met 18).tracker (met 18).lost 3 = (40, 2) := by decide +kernel
  exact ⟨c, hc, hheld ▸ interleaved_exact hreach (by decide +kernel) hc⟩

/-! ### Programs one after the other -/

/-- A program is started, and goes on for `n` steps that nothing comes between. -/
def Sys.runAlone (ro : Rodata) (i : ι) (s : Sys ι) (inv : Invocation) (n : ℕ) : Sys ι :=
  (List.replicate n (.advance i none)).foldl (Sys.next ro)
    (s.next ro (.start i inv.helpers (inv.program.ops ro inv.helpers s.tracker)))

/-- Programs are run one after the other, each for its number of steps. -/
def Sys.runsAlone (ro : Rodata) (i : ι) (s : Sys ι) (is : List (Invocation × ℕ)) : Sys ι :=
  is.foldl (fun s inv => s.runAlone ro i inv.1 inv.2) s

/-- Atomic steps of one program are steps of the system, and leave the others. -/
lemma Sys.next_replicate (ro : Rodata) (i : ι) (n : ℕ) (s : Sys ι) :
    (((List.replicate n (Act.advance i none)).foldl (Sys.next ro) s).tracker,
        ((List.replicate n (Act.advance i none)).foldl (Sys.next ro) s).jobs i) =
      Job.advances ro n (s.tracker, s.jobs i) ∧
    ∀ x, x ≠ i →
      ((List.replicate n (Act.advance i none)).foldl (Sys.next ro) s).jobs x = s.jobs x := by
  induction n generalizing s with
  | zero => exact ⟨rfl, fun _ _ => rfl⟩
  | succ n ih =>
      rw [List.replicate_succ, List.foldl_cons, Job.advances]
      obtain ⟨hself, hother⟩ := ih (s.next ro (.advance i none))
      refine ⟨hself.trans ?_, fun x hx => (hother x hx).trans ?_⟩
      · rw [Sys.next]
        dsimp only
        rw [Function.update_self]
      · exact Function.update_of_ne hx _ _

/-- Such steps are apart from all others. -/
lemma apart_replicate (i : ι) (n : ℕ) (s : Sys ι) :
    Runs.Allowed (Sys.next ro) Sys.Apart s (List.replicate n (.advance i none)) := by
  induction n generalizing s with
  | zero => trivial
  | succ n ih => exact ⟨rfl, ih _⟩

/-- Operations that nothing comes between are done one after the other. -/
lemma Job.advances_ops (ro : Rodata) (h : Helpers) (ops : List Op) (t : Tracker) :
    ∃ n, Job.advances ro n (t, ⟨h, ops, .start⟩) = (runOps ro h ops t, ⟨h, [], .start⟩) := by
  induction ops generalizing t with
  | nil => exact ⟨0, rfl⟩
  | cons op ops ih =>
      obtain ⟨n, hn⟩ := Job.advance_run ro h op ops t
      obtain ⟨m, hm⟩ := ih (op.run ro h t)
      refine ⟨n + m, ?_⟩
      rw [Job.advances_add_steps, hn, hm]
      rfl

/-- A program that runs alone does what it does in one step of `Tracker.next`. -/
lemma Sys.runAlone_exists (ro : Rodata) (i : ι) {s : Sys ι} (hidle : ∀ x, (s.jobs x).ops = [])
    (inv : Invocation) :
    ∃ n, Runs.Reach (Sys.next ro) Sys.Apart s (s.runAlone ro i inv n) ∧
      (s.runAlone ro i inv n).tracker = s.tracker.next ro inv ∧
      ∀ x, ((s.runAlone ro i inv n).jobs x).ops = [] := by
  obtain ⟨n, hn⟩ := Job.advances_ops ro inv.helpers (inv.program.ops ro inv.helpers s.tracker)
    s.tracker
  have hstart : s.Apart (.start i inv.helpers (inv.program.ops ro inv.helpers s.tracker)) :=
    fun x _ a _ ha => by simp [Job.addresses, hidle x] at ha
  obtain ⟨hself, hother⟩ := Sys.next_replicate ro i n
    (s.next ro (.start i inv.helpers (inv.program.ops ro inv.helpers s.tracker)))
  rw [Sys.next_start ro s (hidle i), after_jobs_self] at hself
  obtain ⟨htracker, hjob⟩ := Prod.ext_iff.mp (hself.trans hn)
  refine ⟨n, ?_, ?_, fun x => ?_⟩
  · exact (Runs.Reach.step _ .start hstart).trans (Runs.Reach.of_list (apart_replicate i n _))
  · rw [Sys.runAlone, Sys.next_start ro s (hidle i), Tracker.next, Program.run_eq]
    exact htracker
  · by_cases hx : x = i
    · rw [hx, Sys.runAlone, Sys.next_start ro s (hidle i)]
      exact congrArg Job.ops hjob
    · rw [Sys.runAlone, hother x hx, Sys.next_start ro s (hidle i), after_jobs_of_ne _ _ _ _ hx]
      exact hidle x

/-- Programs that run one after the other are one of the orders in which programs may run at the
same time: the atomic steps of the first, then those of the second, and so on, each program
started when the one before it is done.  No two of them are at one address, and nothing drifts. -/
theorem runs_reach (ro : Rodata) (i : ι) (is : List Invocation) :
    ∃ ns : List ℕ, ns.length = is.length ∧
      Runs.Reach (Sys.next ro) Sys.Apart Sys.init (Sys.init.runsAlone ro i (is.zip ns)) ∧
      (Sys.init.runsAlone ro i (is.zip ns)).tracker = Tracker.init.runs ro is ∧
      (∀ x, ((Sys.init.runsAlone ro i (is.zip ns)).jobs x).ops = []) ∧
      (Sys.init.runsAlone ro i (is.zip ns)).skipped = [] ∧
      (Sys.init.runsAlone ro i (is.zip ns)).excess = [] := by
  induction is using List.reverseRecOn with
  | nil => exact ⟨[], rfl, .start, rfl, fun _ => rfl, rfl, rfl⟩
  | append_singleton is inv ih =>
      obtain ⟨ns, hlen, hreach, htracker, hidle, -, -⟩ := ih
      obtain ⟨n, hreach', htracker', hidle'⟩ := Sys.runAlone_exists ro i hidle inv
      have hsys : Sys.init.runsAlone ro i ((is ++ [inv]).zip (ns ++ [n])) =
          (Sys.init.runsAlone ro i (is.zip ns)).runAlone ro i inv n := by
        rw [List.zip_append hlen.symm, Sys.runsAlone, List.foldl_append]
        rfl
      have hrun := hreach.trans hreach'
      refine ⟨ns ++ [n], by simp [hlen], ?_⟩
      rw [hsys]
      refine ⟨hrun, ?_, hidle', (apart_orderly hrun).2.skipped, (apart_orderly hrun).2.excess⟩
      rw [htracker', htracker, Tracker.runs, Tracker.runs, List.foldl_append, List.foldl_cons,
        List.foldl_nil]

end Apart


end Dwunw.Memleak
