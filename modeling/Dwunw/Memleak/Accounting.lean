import Dwunw.Lib.Words
import Dwunw.Memleak.Probes

/-!
What the combined statistics count.

`combined_allocs` packs, for every stack, a size and a number of allocations into one word, and
every record adds to it and takes from it as a whole.  The word counts the records in `allocs`;
it also counts those that are gone without a free: a record whose address is recorded again
loses its place, and a record that finds `allocs` full never gets one.

* `charge`, `word`: what a record counts for, and the word of a count.
* `Op.lost`, `Tracker.lost`: the records that are gone without a free.
* `Accounted`: the invariant, with `Op.accounted` for one operation and `runs_accounted` for
  whole runs.
* `combined_fields`: what the bit fields read, for every run.
* `workaround_lost`: with `wa_missing_free` no record loses its place.
-/

namespace Dwunw.Memleak

open BoundedMap

/-! ### Counts -/

/-- What a record counts for, size and number: the bit field cuts the size. -/
def charge (info : AllocInfo) : ℕ × ℕ := (info.size.toNat % 2 ^ 40, 1)

/-- What a record counts for at a stack. -/
def chargeAt (k : UInt64) (info : AllocInfo) : ℕ × ℕ :=
  if info.stackKey = k then charge info else 0

/-- The word of a count: the size carries over into the number. -/
def word (c : ℕ × ℕ) : UInt64 := UInt64.ofNat (c.1 + c.2 * 2 ^ 40)

lemma word_add (c d : ℕ × ℕ) : word (c + d) = word c + word d := by
  rw [word, word, word, ← UInt64.ofNat_add, Prod.fst_add, Prod.snd_add]
  congr 1
  ring

lemma word_charge (info : AllocInfo) :
    (CombinedAllocInfo.ofFields info.size 1).bits = word (charge info) := by
  have hmask : (info.size &&& 0xffffffffff).toNat = info.size.toNat % 2 ^ 40 :=
    Nat.and_two_pow_sub_one_eq_mod info.size.toNat 40
  have hone : ((1 : UInt64) &&& 0xffffff) = 1 := by decide
  have hlt : (info.size &&& 0xffffffffff).toNat < 2 ^ 40 := by
    rw [hmask]
    exact Nat.mod_lt _ (by decide)
  rw [CombinedAllocInfo.ofFields, hone, word, charge]
  show _ ||| (1 : UInt64) <<< UInt64.ofNat 40 = _
  rw [UInt64.or_shiftLeft (by decide) hlt, UInt64.ofNat_add, ← hmask, UInt64.ofNat_toNat]
  rfl

/-- The bit fields of a word. -/
lemma fields_word (c : ℕ × ℕ) :
    (CombinedAllocInfo.totalSize ⟨word c⟩).toNat = c.1 % 2 ^ 40 ∧
      (CombinedAllocInfo.numberOfAllocs ⟨word c⟩).toNat = (c.2 + c.1 / 2 ^ 40) % 2 ^ 24 := by
  have hword : (word c).toNat = (c.1 + c.2 * 2 ^ 40) % 2 ^ 64 := UInt64.toNat_ofNat'
  constructor
  · have hmask : (CombinedAllocInfo.totalSize ⟨word c⟩).toNat = (word c).toNat % 2 ^ 40 :=
      Nat.and_two_pow_sub_one_eq_mod (word c).toNat 40
    omega
  · have hshift : (CombinedAllocInfo.numberOfAllocs ⟨word c⟩).toNat = (word c).toNat / 2 ^ 40 :=
      Nat.shiftRight_eq_div_pow (word c).toNat 40
    omega

/-- The count of the records in `allocs` at a stack. -/
def live (t : Tracker) (k : UInt64) : ℕ × ℕ := tally (fun _ => chargeAt k) t.allocs

/-- The count of a list of records at a stack. -/
def countAt (k : UInt64) (infos : List AllocInfo) : ℕ × ℕ := (infos.map (chargeAt k)).sum

/-- The count of the records in `allocs` and of those that are gone without a free. -/
def held (t : Tracker) (lost : List AllocInfo) (k : UInt64) : ℕ × ℕ := live t k + countAt k lost

@[simp] lemma countAt_append (k : UInt64) (infos infos' : List AllocInfo) :
    countAt k (infos ++ infos') = countAt k infos + countAt k infos' := by
  simp [countAt]

/-! ### Records that are gone -/

/-- The record that `gen_alloc_exit2` makes, when it makes one. -/
def recorded (h : Helpers) (t : Tracker) (address : UInt64) : Option AllocInfo :=
  (t.sizes.lookup h.tid).bind fun size =>
    if address ≠ 0 ∧ address ≠ mapFailed then some ⟨size, h.exitNs, h.stackId⟩ else none

/-- The records that are gone when this one is made: the one before it at its address, or
itself where there is no room. -/
def displaced (t : Tracker) (address : UInt64) (info : AllocInfo) : List AllocInfo :=
  match t.allocs.lookup address with
  | some old => [old]
  | none => if t.allocs.Full then [info] else []

/-- The records that are gone without a free after an operation. -/
def Op.lost (h : Helpers) (t : Tracker) : Op → List AllocInfo
  | .exit address => (recorded h t address).elim [] (displaced t address)
  | .event _ | .memptr _ | .memptrDone | .enter _ | .free _ => []

/-- The records that are gone without a free after a sequence of operations. -/
def lostOps (ro : Rodata) (h : Helpers) : List Op → Tracker → List AllocInfo
  | [], _ => []
  | op :: ops, t => op.lost h t ++ lostOps ro h ops (op.run ro h t)

/-- The records that are gone without a free after a sequence of programs. -/
def Tracker.lost (ro : Rodata) : Tracker → List Invocation → List AllocInfo
  | _, [] => []
  | t, i :: is =>
      lostOps ro i.helpers (i.program.ops ro i.helpers t) t ++ (t.next ro i).lost ro is

/-! ### The invariant -/

/-- Every stack in `combined_allocs` has the word of its count; a stack that is not there has
nothing to count, unless there is no room for it. -/
structure Accounted (t : Tracker) (lost : List AllocInfo) : Prop where
  counted : ∀ k c, t.combinedAllocs.lookup k = some c → c.bits = word (held t lost k)
  uncounted : ∀ k, t.combinedAllocs.lookup k = none →
    t.combinedAllocs.Full ∨ held t lost k = 0

variable {ro : Rodata} {h : Helpers} {t t' : Tracker} {lost lost' : List AllocInfo}
  {info : AllocInfo} {k address : UInt64}

lemma held_congr (hallocs : t'.allocs = t.allocs) : held t' lost k = held t lost k := by
  rw [held, held, live, live, hallocs]

/-- What touches neither map keeps the invariant. -/
lemma Accounted.congr (ha : Accounted t lost) (hallocs : t'.allocs = t.allocs)
    (hcombined : t'.combinedAllocs = t.combinedAllocs) : Accounted t' lost := by
  constructor
  · intro k c hk
    rw [held_congr hallocs]
    exact ha.counted k c (hcombined ▸ hk)
  · intro k hk
    rw [held_congr hallocs, hcombined]
    exact ha.uncounted k (hcombined ▸ hk)

lemma accounted_init : Accounted .init [] := by
  refine ⟨fun k c hk => ?_, fun k _ => .inr rfl⟩
  exact absurd hk (by simp [Tracker.init])

/-! ### The statistics -/

lemma chargeAt_self (info : AllocInfo) : chargeAt info.stackKey info = charge info := if_pos rfl

lemma chargeAt_of_ne (hne : k ≠ info.stackKey) : chargeAt k info = 0 := if_neg (Ne.symm hne)

/-- A map of the combined statistics and what a stack counts. -/
lemma full_modify {κ ν : Type} {n : ℕ} [DecidableEq κ] (m : BpfHash κ ν n) (k : κ) (f : ν → ν) :
    (m.modify k f).Full ↔ m.Full := by
  rw [Full, Full, keys_modify]

/-- The statistics follow a new record. -/
lemma Accounted.add (ha : Accounted t lost) (hcombined : t'.combinedAllocs = t.combinedAllocs)
    (hheld : ∀ k, held t' lost' k = held t lost k + chargeAt k info) :
    Accounted (updateStatisticsAdd info.stackKey info.size t') lost' := by
  -- the word of the stack grows by that of the record, those of the others stay
  have hgrow {m : BpfHash UInt64 CombinedAllocInfo combinedAllocsMaxEntries}
      (hm : ∀ k c, m.lookup k = some c → c.bits = word (held t lost k))
      {k : UInt64} {c : CombinedAllocInfo}
      (hk : (m.modify info.stackKey fun c =>
        ⟨c.bits + (CombinedAllocInfo.ofFields info.size 1).bits⟩).lookup k = some c) :
      c.bits = word (held t' lost' k) := by
    by_cases hself : k = info.stackKey
    · subst hself
      rw [lookup_modify_self] at hk
      obtain ⟨c₀, hc₀, rfl⟩ := Option.map_eq_some_iff.mp hk
      dsimp only
      rw [hheld, word_add, chargeAt_self, hm _ _ hc₀, word_charge]
    · rw [lookup_modify_of_ne _ _ hself] at hk
      rw [hheld, chargeAt_of_ne hself, add_zero]
      exact hm k c hk
  rw [updateStatisticsAdd, hcombined]
  have hinit := lookupOrTryInit_outcome t.combinedAllocs info.stackKey initialCinfo
  generalize lookupOrTryInit t.combinedAllocs info.stackKey initialCinfo = r at hinit ⊢
  cases hinit with
  | found hk₀ =>
      constructor
      · exact fun k c hk => hgrow ha.counted hk
      · intro k hk
        by_cases hself : k = info.stackKey
        · rw [hself, lookup_modify_self, hk₀] at hk
          cases hk
        · rw [lookup_modify_of_ne _ _ hself] at hk
          rw [full_modify]
          refine (ha.uncounted k hk).imp_right fun hzero => ?_
          show held t' lost' k = 0
          rw [hheld, chargeAt_of_ne hself, add_zero, hzero]
  | @fresh m' hnone hput =>
      -- nothing was counted under a new key, since there was room for it
      have hzero : held t lost info.stackKey = 0 := by
        refine (ha.uncounted _ hnone).resolve_left fun hfull => ?_
        exact absurd (put_eq_none_iff.mpr ⟨hnone, hfull⟩)
          (by rw [hput]; exact Option.some_ne_none _)
      have hm' : ∀ k c, m'.lookup k = some c → c.bits = word (held t lost k) := by
        intro k c hk
        by_cases hself : k = info.stackKey
        · rw [hself, lookup_put_self hput] at hk
          rw [← Option.some.inj hk, hself, hzero]
          rfl
        · exact ha.counted k c (lookup_put_of_ne hput hself ▸ hk)
      constructor
      · exact fun k c hk => hgrow hm' hk
      · intro k hk
        by_cases hself : k = info.stackKey
        · rw [hself, lookup_modify_self, lookup_put_self hput] at hk
          cases hk
        · rw [lookup_modify_of_ne _ _ hself, lookup_put_of_ne hput hself] at hk
          refine (ha.uncounted k hk).imp (fun hfull => ?_) fun hzero => ?_
          · rw [full_modify, Full, keys_put hput]
            exact hfull.trans (Finset.card_le_card (Finset.subset_insert _ _))
          · show held t' lost' k = 0
            rw [hheld, chargeAt_of_ne hself, add_zero, hzero]
  | refused hnone hfull =>
      constructor
      · intro k c hk
        have hself : k ≠ info.stackKey := by
          rintro rfl
          exact absurd (hnone.symm.trans hk) (by simp)
        show c.bits = word (held t' lost' k)
        rw [hheld, chargeAt_of_ne hself, add_zero]
        exact ha.counted k c hk
      · exact fun k _ => .inl hfull

/-- The statistics follow a record that is taken away. -/
lemma Accounted.del (ha : Accounted t lost) (hcombined : t'.combinedAllocs = t.combinedAllocs)
    (hheld : ∀ k, held t' lost k + chargeAt k info = held t lost k) :
    Accounted (updateStatisticsDel info.stackKey info.size t') lost := by
  have hzero {k : UInt64} (hk : t.combinedAllocs.lookup k = none) :
      t.combinedAllocs.Full ∨ held t' lost k = 0 := by
    refine (ha.uncounted k hk).imp_right fun hzero => ?_
    exact (add_eq_zero.mp ((hheld k).trans hzero)).1
  rw [updateStatisticsDel, hcombined]
  cases hk₀ : t.combinedAllocs.lookup info.stackKey with
  | none =>
      constructor
      · intro k c hk
        have hself : k ≠ info.stackKey := by
          rintro rfl
          exact absurd (hk₀.symm.trans (hcombined ▸ hk)) (by simp)
        have hsame := hheld k
        rw [chargeAt_of_ne hself, add_zero] at hsame
        rw [hsame]
        exact ha.counted k c (hcombined ▸ hk)
      · intro k hk
        rw [hcombined] at hk ⊢
        exact hzero hk
  | some c₀ =>
      constructor
      · intro k c hk
        show c.bits = word (held t' lost k)
        have hsum := congrArg word (hheld k)
        rw [word_add] at hsum
        by_cases hself : k = info.stackKey
        · subst hself
          rw [lookup_modify_self, hk₀] at hk
          rw [← Option.some.inj hk]
          dsimp only
          rw [ha.counted _ _ hk₀, ← hsum, chargeAt_self, word_charge, UInt64.add_sub_cancel]
        · rw [lookup_modify_of_ne _ _ hself] at hk
          rw [chargeAt_of_ne hself] at hsum
          rw [ha.counted k c hk, ← hsum]
          exact UInt64.add_zero _
      · intro k hk
        rw [full_modify]
        refine hzero ?_
        by_cases hself : k = info.stackKey
        · rw [hself, lookup_modify_self, hk₀] at hk
          cases hk
        · rwa [lookup_modify_of_ne _ _ hself] at hk

/-! ### The operations -/

/-- A record that is made is counted, and what it displaces is counted still. -/
lemma held_record (t : Tracker) (lost : List AllocInfo) (address : UInt64) (info : AllocInfo)
    (k : UInt64) :
    held { t with allocs := updateIgnored t.allocs address info }
        (lost ++ displaced t address info) k = held t lost k + chargeAt k info := by
  rw [held, held, live, live, countAt_append]
  dsimp only
  rcases updateIgnored_cases t.allocs address info with ⟨hnone, hsame⟩ | hput
  · obtain ⟨hnew, hfull⟩ := put_eq_none_iff.mp hnone
    have hself : countAt k [info] = chargeAt k info := by simp [countAt]
    rw [hsame, displaced, hnew]
    dsimp only
    rw [if_pos hfull, hself, add_assoc]
  · have hput' := tally_put_add (fun _ => chargeAt k) hput
    have hweight : weightAt (fun _ => chargeAt k) t.allocs address =
        countAt k (displaced t address info) := by
      rw [weightAt, displaced]
      cases hlookup : t.allocs.lookup address with
      | some old => simp [countAt]
      | none =>
          have hroom : ¬ t.allocs.Full := fun hfull =>
            absurd (put_eq_none_iff.mpr ⟨hlookup, hfull⟩)
              (by rw [hput]; exact Option.some_ne_none _)
          dsimp only
          rw [if_neg hroom]
          rfl
    rw [← hweight, add_comm (countAt k lost), ← add_assoc, hput', add_right_comm]

/-- A record that is taken away counts no longer. -/
lemma held_delete (hlookup : t.allocs.lookup address = some info) (lost : List AllocInfo)
    (k : UInt64) :
    held { t with allocs := t.allocs.delete address } lost k + chargeAt k info =
      held t lost k := by
  have hweight : weightAt (fun _ => chargeAt k) t.allocs address = chargeAt k info := by
    rw [weightAt, hlookup, Option.elim_some]
  rw [held, held, live, live, add_right_comm, ← hweight, tally_delete_add]

/-- Every operation keeps the account. -/
theorem Op.accounted (op : Op) (ha : Accounted t lost) :
    Accounted (op.run ro h t) (lost ++ op.lost h t) := by
  cases op with
  | event ctx =>
      rw [Op.lost, List.append_nil]
      show Accounted (emitDwunwEvent ro h ctx t) lost
      rw [emitDwunwEvent]
      split_ifs
      · exact ha
      · exact ha
      · exact ha.congr rfl rfl
  | memptr p =>
      rw [Op.lost, List.append_nil]
      exact ha.congr rfl rfl
  | memptrDone =>
      rw [Op.lost, List.append_nil]
      exact ha.congr rfl rfl
  | enter size =>
      rw [Op.lost, List.append_nil]
      show Accounted (genAllocEnter ro h size t) lost
      rw [genAllocEnter]
      split_ifs
      · exact ha
      · exact ha
      · exact ha.congr rfl rfl
  | exit address =>
      show Accounted (genAllocExit2 h address t) _
      rw [genAllocExit2, Op.lost, recorded]
      cases t.sizes.lookup h.tid with
      | none =>
          rw [Option.bind_none, Option.elim_none, List.append_nil]
          exact ha
      | some size =>
          rw [Option.bind_some]
          dsimp only
          by_cases haddr : address ≠ 0 ∧ address ≠ mapFailed
          · rw [if_pos haddr, if_pos haddr, Option.elim_some]
            exact ha.add rfl fun k => held_record t lost address _ k
          · rw [if_neg haddr, if_neg haddr, Option.elim_none, List.append_nil]
            exact ha.congr rfl rfl
  | free address =>
      rw [Op.lost, List.append_nil]
      show Accounted (genFreeEnter address t) lost
      rw [genFreeEnter]
      cases hlookup : t.allocs.lookup address with
      | none => exact ha
      | some info => exact ha.del rfl (held_delete hlookup lost)

/-- So does every sequence of operations. -/
lemma runOps_accounted (ops : List Op) (ha : Accounted t lost) :
    Accounted (runOps ro h ops t) (lost ++ lostOps ro h ops t) := by
  induction ops generalizing t lost with
  | nil =>
      rw [lostOps, List.append_nil]
      exact ha
  | cons op ops ih =>
      rw [lostOps, ← List.append_assoc]
      exact ih (op.accounted ha)

/-- So does every run. -/
theorem runs_accounted (is : List Invocation) (ha : Accounted t lost) :
    Accounted (t.runs ro is) (lost ++ t.lost ro is) := by
  induction is generalizing t lost with
  | nil =>
      rw [Tracker.lost, List.append_nil]
      exact ha
  | cons i is ih =>
      rw [Tracker.lost, ← List.append_assoc]
      refine ih ?_
      rw [Tracker.next, Program.run_eq]
      exact runOps_accounted _ ha

/-! ### The bit fields -/

/-- The bit fields read a count: the size modulo 2^40, and the number modulo 2^24 with the carry
of the size. -/
def CombinedAllocInfo.Reads (c : CombinedAllocInfo) (count : ℕ × ℕ) : Prop :=
  c.totalSize.toNat = count.1 % 2 ^ 40 ∧
    c.numberOfAllocs.toNat = (count.2 + count.1 / 2 ^ 40) % 2 ^ 24

lemma CombinedAllocInfo.reads_of_bits {c : CombinedAllocInfo} {count : ℕ × ℕ}
    (hbits : c.bits = word count) : c.Reads count := by
  obtain ⟨bits⟩ := c
  obtain rfl : bits = word count := hbits
  exact fields_word count

/-- Whatever programs run, in whatever threads and order: the entry of a stack reads the count of
the records in `allocs` and of those that are gone without a free, and a stack without an entry
has none of either, unless `combined_allocs` is full. -/
theorem combined_fields (ro : Rodata) (is : List Invocation) (k : UInt64) :
    (∀ c, (Tracker.init.runs ro is).combinedAllocs.lookup k = some c →
      c.Reads (held (Tracker.init.runs ro is) (Tracker.init.lost ro is) k)) ∧
    ((Tracker.init.runs ro is).combinedAllocs.lookup k = none →
      (Tracker.init.runs ro is).combinedAllocs.Full ∨
        held (Tracker.init.runs ro is) (Tracker.init.lost ro is) k = 0) := by
  have ha : Accounted (Tracker.init.runs ro is) (Tracker.init.lost ro is) :=
    runs_accounted is accounted_init
  exact ⟨fun c hc => CombinedAllocInfo.reads_of_bits (ha.counted k c hc), ha.uncounted k⟩

/-! ### The workaround -/

/-- The programs that take `wa_missing_free` into account, and the frees that go with them. -/
def Program.Slab : Program → Prop
  | .kmalloc .. | .kmallocNode .. | .kfree .. | .kmemCacheAlloc .. | .kmemCacheAllocNode ..
  | .kmemCacheFree .. => True
  | _ => False

/-- A free leaves nothing at its address. -/
lemma genFreeEnter_lookup (address : UInt64) (t : Tracker) :
    (genFreeEnter address t).allocs.lookup address = none := by
  rw [genFreeEnter]
  cases hlookup : t.allocs.lookup address with
  | none => exact hlookup
  | some info =>
      rw [(updateStatisticsDel_frame _ _ _).1]
      exact lookup_delete_self _ _

lemma genAllocEnter_allocs (ro : Rodata) (h : Helpers) (size : UInt64) (t : Tracker) :
    (genAllocEnter ro h size t).allocs = t.allocs := by
  rw [genAllocEnter]
  split_ifs <;> rfl

/-- A tracepoint of the slab allocator, with the workaround and with room, loses nothing. -/
lemma lostOps_slabOps (hwa : ro.waMissingFree = true) (ptr bytesAlloc : UInt64)
    (hroom : ¬ t.allocs.Full) : lostOps ro h (slabOps ro ptr bytesAlloc) t = [] := by
  have hallocs := genAllocEnter_allocs ro h bytesAlloc (genFreeEnter ptr t)
  have hnone :
      displaced (genAllocEnter ro h bytesAlloc (genFreeEnter ptr t)) ptr = fun _ => [] := by
    funext info
    rw [displaced, hallocs, genFreeEnter_lookup]
    exact if_neg (genFreeEnter_room ptr hroom)
  rw [slabOps, if_pos hwa]
  show (Op.exit ptr).lost h (genAllocEnter ro h bytesAlloc (genFreeEnter ptr t)) ++ [] = []
  rw [Op.lost, hnone, List.append_nil]
  cases recorded h _ ptr <;> rfl

/-- So does every program that takes it into account. -/
lemma Program.lost_slab {p : Program} (hwa : ro.waMissingFree = true) (hp : p.Slab)
    (hroom : ¬ t.allocs.Full) : lostOps ro h (p.ops ro h t) t = [] := by
  cases p with
  | kmalloc ptr bytesAlloc => exact lostOps_slabOps hwa ptr bytesAlloc hroom
  | kmemCacheAlloc ptr bytesAlloc => exact lostOps_slabOps hwa ptr bytesAlloc hroom
  | kmallocNode ptr bytesAlloc =>
      rw [Program.ops]
      split_ifs
      · exact lostOps_slabOps hwa ptr bytesAlloc hroom
      · rfl
  | kmemCacheAllocNode ptr bytesAlloc =>
      rw [Program.ops]
      split_ifs
      · exact lostOps_slabOps hwa ptr bytesAlloc hroom
      · rfl
  | kfree ptr => rfl
  | kmemCacheFree ptr => rfl
  | _ => exact absurd hp id

/-- With the workaround a run of such programs loses nothing while `allocs` has room. -/
lemma workaround_lost (hwa : ro.waMissingFree = true) {is : List Invocation}
    (hslab : ∀ i ∈ is, i.program.Slab)
    (hroom : ∀ is', is' <+: is → ¬ (t.runs ro is').allocs.Full) : t.lost ro is = [] := by
  induction is generalizing t with
  | nil => rfl
  | cons i is ih =>
      have hhere : ¬ t.allocs.Full := hroom [] List.nil_prefix
      rw [Tracker.lost, Program.lost_slab hwa (hslab i List.mem_cons_self) hhere, List.nil_append]
      refine ih (fun i hi => hslab i (List.mem_cons_of_mem _ hi)) fun is' hpre => ?_
      exact hroom (i :: is') (List.cons_prefix_cons.mpr ⟨rfl, hpre⟩)

/-- With `wa_missing_free`, in every run of the slab tracepoints that leaves room in `allocs`, the
entry of a stack reads the count of the records in `allocs`, though frees may be missing. -/
theorem workaround_fields (hwa : ro.waMissingFree = true) {is : List Invocation}
    (hslab : ∀ i ∈ is, i.program.Slab)
    (hroom : ∀ is', is' <+: is → ¬ (Tracker.init.runs ro is').allocs.Full)
    {c : CombinedAllocInfo} (hc : (Tracker.init.runs ro is).combinedAllocs.lookup k = some c) :
    c.Reads (live (Tracker.init.runs ro is) k) := by
  have ha : Accounted (Tracker.init.runs ro is) (Tracker.init.lost ro is) :=
    runs_accounted is accounted_init
  have hbits := ha.counted k c hc
  rw [workaround_lost hwa hslab hroom] at hbits
  refine CombinedAllocInfo.reads_of_bits (hbits.trans (congrArg word ?_))
  exact add_zero _

/-- What user space sets for a trace of the kernel with the workaround. -/
def workaroundRodata : Rodata := ⟨0, 0xffffffffffffffff, 4096, 1, true, false, false⟩

/-- What the helpers return in thread 7, at the stack 3. -/
def tracedHelpers : Helpers := ⟨7, [], 0, 0, 3, fun _ => none, true⟩

/-- A block of 16 bytes, and another of 24 at its address, without a free between. -/
def missedFree : List Invocation :=
  [⟨tracedHelpers, .kmalloc 0x1000 16⟩, ⟨tracedHelpers, .kmalloc 0x1000 24⟩]

/-- A free that was missed is made up for by the next allocation. -/
theorem workaround_fields_missedFree :
    ∃ c, (Tracker.init.runs workaroundRodata missedFree).combinedAllocs.lookup 3 = some c ∧
      c.Reads (24, 1) := by
  obtain ⟨c, hc⟩ := Option.isSome_iff_exists.mp (by decide +kernel : ((Tracker.init.runs
    workaroundRodata missedFree).combinedAllocs.lookup 3).isSome = true)
  have hroom : ∀ is' ∈ missedFree.inits,
      ¬ (Tracker.init.runs workaroundRodata is').allocs.Full := by decide +kernel
  have hlive : live (Tracker.init.runs workaroundRodata missedFree) 3 = (24, 1) := by
    decide +kernel
  have hreads := workaround_fields rfl (by simp [missedFree, Program.Slab])
    (fun is' hpre => hroom is' (List.mem_inits is' _ |>.mpr hpre)) hc
  exact ⟨c, hc, hlive ▸ hreads⟩

end Dwunw.Memleak
