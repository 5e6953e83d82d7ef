import Dwunw.CacheSpec
import Dwunw.Lib.Stamps

/-!
The invariants of the module cache, each with one lemma per operation.

An observer of the cache notes how many references to the handle of a slot are out, how
many releases there were, and when a slot last turned warm.

* `RefInv`: the code's reference counts are those of the observer.
* `BlankInv`: a slot that is unused or is emptied is a slot of zero bytes.
* `WarmInv`: the code's numbers order the warm slots as the observer's clock does.
* `PathInv`: the paths of the entries fit their buffers.
-/

namespace Dwunw

/-- One more reference to the handle of the slot that was handed out. -/
def addRef (refs : Slot → ℕ) : Option Slot → Slot → ℕ
  | none => refs
  | some i => Function.update refs i (refs i + 1)

/-- The slots that turned warm when the cache `c` became `c'` are noted. -/
def noteWarmed (c c' : ModuleCache) (warmed : Slot → ℕ) (time : ℕ) (i : Slot) : ℕ :=
  if (c.entries i).state ≠ .warm ∧ (c'.entries i).state = .warm then time else warmed i

/-! ### Reference counts -/

/-- The code counts the references that are out, and a slot is active when there are any. -/
structure RefInv (c : ModuleCache) (refs : Slot → ℕ) : Prop where
  refcnt : ∀ i, (c.entries i).refcnt.toNat = refs i
  active_iff : ∀ i, (c.entries i).state = .active ↔ 0 < refs i

namespace RefInv

variable {c : ModuleCache} {refs : Slot → ℕ} {i : Slot}

lemma init : RefInv moduleCacheInit fun _ => 0 :=
  ⟨fun _ => rfl, fun _ => by simp [moduleCacheInit, CacheEntry.zero]⟩

/-- Replacing an entry by one that counts right. -/
lemma set {e : CacheEntry} {n : ℕ} (h : RefInv c refs) (hcnt : e.refcnt.toNat = n)
    (hactive : e.state = .active ↔ 0 < n) :
    RefInv (c.set i e) (Function.update refs i n) := by
  constructor
  · intro j
    by_cases hj : j = i
    · rw [hj, ModuleCache.set_entries_self, Function.update_self, hcnt]
    · rw [ModuleCache.set_entries_of_ne _ hj, Function.update_of_ne hj, h.refcnt]
  · intro j
    by_cases hj : j = i
    · rw [hj, ModuleCache.set_entries_self, Function.update_self, hactive]
    · rw [ModuleCache.set_entries_of_ne _ hj, Function.update_of_ne hj, h.active_iff]

lemma refs_eq_zero (h : RefInv c refs) (hi : (c.entries i).state ≠ .active) : refs i = 0 := by
  have := mt (h.active_iff i).mpr hi
  omega

/-- Every way an acquire comes out keeps the counts, as long as they fit. -/
theorem acquire {ld : Loader} {path : CString} {r : Status × ModuleCache × Option Slot}
    (h : RefInv c refs) (hr : AcquireOutcome ld c path r)
    (hbound : ∀ i, addRef refs r.2.2 i < 2 ^ 32) : RefInv r.2.1 (addRef refs r.2.2) := by
  cases hr with
  | @reuses i _ hwarm =>
      have hzero : refs i = 0 := h.refs_eq_zero (by simp [hwarm])
      exact h.set (by rw [hzero]; rfl) (iff_of_true rfl (Nat.succ_pos _))
  | @shares i _ hactive =>
      have hi := hbound i
      rw [addRef, Function.update_self] at hi
      refine h.set ?_ (iff_of_true hactive (Nat.succ_pos _))
      rw [CacheEntry.shared, UInt32.toNat_add, h.refcnt]
      exact Nat.mod_eq_of_lt hi
  | full _ _ => exact h
  | @fails i _ e _ hclaims _ _ =>
      have hzero : refs i = 0 := h.refs_eq_zero hclaims.not_active
      have hclaimed : (c.entries i).claimed.refcnt.toNat = 0 := by
        rw [CacheEntry.claimed]
        split
        · rw [h.refcnt, hzero]
        · rfl
      have hset := h.set (i := i) (e := { (c.entries i).claimed with handle := e }) hclaimed
        (iff_of_false (by simp [CacheEntry.claimed_state]) (lt_irrefl 0))
      rwa [← hzero, Function.update_eq_self] at hset
  | @loads i _ _ _ hclaims _ =>
      have hzero : refs i = 0 := h.refs_eq_zero hclaims.not_active
      exact h.set (by rw [hzero]; rfl) (iff_of_true rfl (Nat.succ_pos _))

/-- A reference that is out can be released. -/
theorem release_ok (h : RefInv c refs) (hi : 0 < refs i) :
    (moduleCacheRelease c i).1 = .ok := by
  have hactive := (h.active_iff i).mpr hi
  have hr := moduleCacheRelease_outcome c i
  generalize moduleCacheRelease c i = r at hr ⊢
  cases hr with
  | refused hbad =>
      rcases hbad with hbad | hbad
      · rw [hactive] at hbad
        cases hbad
      · have hcnt := h.refcnt i
        rw [hbad] at hcnt
        exact absurd hcnt hi.ne
  | last _ _ => rfl
  | drops _ _ _ => rfl

/-- Every way a release comes out keeps the counts. -/
theorem release {r : Status × ModuleCache} (h : RefInv c refs) (hr : ReleaseOutcome c i r) :
    RefInv r.2 (if r.1 = .ok then Function.update refs i (refs i - 1) else refs) := by
  have hcnt := h.refcnt i
  cases hr with
  | refused _ => exact h
  | last _ hone =>
      rw [hone] at hcnt
      have hset := h.set (i := i) (e := (c.entries i).warmed (c.warmClock + 1)) (n := refs i - 1)
        (by rw [← hcnt]; rfl) (iff_of_false (by simp [CacheEntry.warmed]) (by rw [← hcnt]; decide))
      exact ⟨hset.refcnt, hset.active_iff⟩
  | drops _ hne hne' =>
      have hne : (c.entries i).refcnt.toNat ≠ 0 := fun h => hne (UInt32.toNat_inj.mp h)
      have hne' : (c.entries i).refcnt.toNat ≠ 1 := fun h => hne' (UInt32.toNat_inj.mp h)
      have hpos : 0 < refs i := by omega
      refine h.set ?_ (iff_of_true ((h.active_iff i).mpr hpos) (by omega))
      rw [CacheEntry.dropped, UInt32.toNat_sub_of_le _ _ (UInt32.le_iff_toNat_le.mpr ?_), hcnt]
      · rfl
      · show 1 ≤ _
        omega

lemma flush (h : RefInv c refs) : RefInv (moduleCacheFlush c) fun _ => 0 := by
  constructor
  · intro i
    rw [moduleCacheFlush_entries, CacheEntry.claimed]
    split
    · next hi => rw [h.refcnt, h.refs_eq_zero (by simp [hi])]
    · rfl
  · intro i
    rw [moduleCacheFlush_entries, CacheEntry.claimed_state]
    simp

end RefInv

/-! ### Slots that are given up -/

/-- A slot that is unused, or is emptied, is a slot of zero bytes. -/
def BlankInv (c : ModuleCache) : Prop := ∀ i, (c.entries i).claimed = .zero

/-- What a used entry is emptied to depends on the flags of its handle alone. -/
lemma CacheEntry.claimed_of_used {e : CacheEntry} (h : e.state ≠ .unused)
    (hflags : e.handle.flags = 0) : e.claimed = .zero := by
  simp only [claimed, if_neg h, cacheEntryReset, hflags]
  rfl

namespace BlankInv

variable {c : ModuleCache} {i : Slot}

lemma init : BlankInv moduleCacheInit := fun _ => rfl

lemma flags (h : BlankInv c) (i : Slot) : (c.entries i).handle.flags = 0 := by
  rw [← CacheEntry.claimed_flags, h i]
  rfl

lemma entries_eq_zero (h : BlankInv c) (hi : (c.entries i).state = .unused) :
    c.entries i = .zero := by
  rw [← h i, CacheEntry.claimed, if_pos hi]

lemma set {e : CacheEntry} (h : BlankInv c) (he : e.claimed = .zero) :
    BlankInv (c.set i e) := by
  intro j
  by_cases hj : j = i
  · rw [hj, ModuleCache.set_entries_self, he]
  · rw [ModuleCache.set_entries_of_ne _ hj, h j]

/-- A slot given up for a module that does not load is a slot of zero bytes. -/
lemma fails {hd : ModuleHandle} (h : BlankInv c)
    (hzero : (c.entries i).claimed.handle = .zero → hd = .zero) :
    { (c.entries i).claimed with handle := hd } = CacheEntry.zero := by
  rw [h i] at hzero ⊢
  rw [hzero rfl]
  rfl

/-- An acquire keeps it. -/
theorem acquire {ld : Loader} {path : CString} {r : Status × ModuleCache × Option Slot}
    (h : BlankInv c) (hr : AcquireOutcome ld c path r) : BlankInv r.2.1 := by
  cases hr with
  | @reuses i _ _ => exact h.set (CacheEntry.claimed_of_used nofun (h.flags i))
  | @shares i hfind _ =>
      exact h.set (CacheEntry.claimed_of_used (cacheFind_some hfind).1 (h.flags i))
  | full _ _ => exact h
  | @fails i _ hd _ _ _ hzero =>
      refine h.set ?_
      rw [h.fails hzero]
      rfl
  | @loads i _ _ _ _ _ => exact h.set (CacheEntry.claimed_of_used nofun (h.flags i))

/-- A release keeps it. -/
theorem release {r : Status × ModuleCache} (h : BlankInv c) (hr : ReleaseOutcome c i r) :
    BlankInv r.2 := by
  cases hr with
  | refused _ => exact h
  | last _ _ =>
      intro j
      exact (h.set (i := i) (CacheEntry.claimed_of_used
        (e := (c.entries i).warmed (c.warmClock + 1)) nofun (h.flags i))) j
  | drops hused _ _ => exact h.set (CacheEntry.claimed_of_used hused (h.flags i))

/-- A flush leaves the cache as it was initialised. -/
theorem flush (h : BlankInv c) : moduleCacheFlush c = moduleCacheInit := by
  have hentries : (moduleCacheFlush c).entries = moduleCacheInit.entries :=
    funext fun i => (moduleCacheFlush_entries c i).trans (h i)
  exact congrArg (ModuleCache.mk · 0) hentries

end BlankInv

/-! ### The order of the warm slots -/

/-- The warm slots of a cache. -/
def ModuleCache.warmSlots (c : ModuleCache) : Set Slot := {i | (c.entries i).state = .warm}

/-- The number a warm slot was let go under. -/
def ModuleCache.stamp (c : ModuleCache) (i : Slot) : ℕ := (c.entries i).warmSeq.toNat

/-- Active slots have no number, warm slots have one the clock has given out, and the numbers
order the warm slots as the observed times do; every release so far gave out one number at
most. -/
structure WarmInv (c : ModuleCache) (warmed : Slot → ℕ) (time releases : ℕ) : Prop where
  active : ∀ i, (c.entries i).state = .active → (c.entries i).warmSeq = 0
  pos : ∀ i ∈ c.warmSlots, 1 ≤ c.stamp i
  le_clock : ∀ i ∈ c.warmSlots, c.stamp i ≤ c.warmClock.toNat
  le_time : ∀ i ∈ c.warmSlots, warmed i ≤ time
  agree : Stamps.Agree c.warmSlots c.stamp warmed
  clock_le : c.warmClock.toNat ≤ releases

lemma noteWarmed_of_subset {c c' : ModuleCache} (h : c'.warmSlots ⊆ c.warmSlots)
    (warmed : Slot → ℕ) (time : ℕ) {i : Slot} (hi : i ∈ c'.warmSlots) :
    noteWarmed c c' warmed time i = warmed i :=
  if_neg fun hturned => hturned.1 (h hi)

lemma ModuleCache.warmSlots_set_subset (c : ModuleCache) (i : Slot) {e : CacheEntry}
    (h : e.state ≠ .warm) : (c.set i e).warmSlots ⊆ c.warmSlots := by
  intro j hj
  have hstate : ((c.set i e).entries j).state = .warm := hj
  by_cases hji : j = i
  · rw [hji, ModuleCache.set_entries_self] at hstate
    exact absurd hstate h
  · rwa [ModuleCache.set_entries_of_ne _ hji] at hstate

namespace WarmInv

variable {c : ModuleCache} {warmed : Slot → ℕ} {time releases : ℕ} {i : Slot}

lemma init : WarmInv moduleCacheInit (fun _ => 0) 0 0 := by
  have hempty : moduleCacheInit.warmSlots = ∅ := by
    ext i
    simp [ModuleCache.warmSlots, moduleCacheInit, CacheEntry.zero]
  refine ⟨fun _ => nofun, ?_, ?_, ?_, ?_, le_rfl⟩ <;> rw [hempty]
  · simp
  · simp
  · simp
  · exact .empty _ _

/-- Time goes on and no slot turns warm; those that stay warm keep their entries. -/
lemma cool {c' : ModuleCache} (h : WarmInv c warmed time releases)
    (hsub : c'.warmSlots ⊆ c.warmSlots) (hentry : ∀ i ∈ c'.warmSlots, c'.entries i = c.entries i)
    (hclock : c'.warmClock = c.warmClock)
    (hactive : ∀ i, (c'.entries i).state = .active → (c'.entries i).warmSeq = 0) :
    WarmInv c' (noteWarmed c c' warmed (time + 1)) (time + 1) releases := by
  have hstamp (i : Slot) (hi : i ∈ c'.warmSlots) : c'.stamp i = c.stamp i := by
    rw [ModuleCache.stamp, hentry i hi, ModuleCache.stamp]
  have hnoted (i : Slot) (hi : i ∈ c'.warmSlots) := noteWarmed_of_subset hsub warmed (time + 1) hi
  refine ⟨hactive, fun i hi => ?_, fun i hi => ?_, fun i hi => ?_,
    (h.agree.mono hsub).congr hstamp hnoted, by rw [hclock]; exact h.clock_le⟩
  · rw [hstamp i hi]
    exact h.pos i (hsub hi)
  · rw [hstamp i hi, hclock]
    exact h.le_clock i (hsub hi)
  · rw [hnoted i hi]
    exact (h.le_time i (hsub hi)).trans (Nat.le_succ time)

/-- Replacing an entry by one that is not warm. -/
lemma set_cold {e : CacheEntry} (h : WarmInv c warmed time releases) (hcold : e.state ≠ .warm)
    (hseq : e.state = .active → e.warmSeq = 0) :
    WarmInv (c.set i e) (noteWarmed c (c.set i e) warmed (time + 1)) (time + 1) releases := by
  refine h.cool (c.warmSlots_set_subset i hcold) (fun j hj => ?_) rfl fun j hj => ?_
  · refine ModuleCache.set_entries_of_ne c ?_ e
    rintro rfl
    exact hcold (by simpa [ModuleCache.warmSlots] using hj)
  · by_cases hji : j = i
    · rw [hji, ModuleCache.set_entries_self] at hj ⊢
      exact hseq hj
    · rw [ModuleCache.set_entries_of_ne _ hji] at hj ⊢
      exact h.active j hj

/-- Nothing happens but that time goes on. -/
lemma idle (h : WarmInv c warmed time releases) :
    WarmInv c (noteWarmed c c warmed (time + 1)) (time + 1) releases :=
  h.cool subset_rfl (fun _ _ => rfl) rfl h.active

/-- No way an acquire comes out turns a slot warm. -/
theorem acquire {ld : Loader} {path : CString} {r : Status × ModuleCache × Option Slot}
    (h : WarmInv c warmed time releases) (hr : AcquireOutcome ld c path r) :
    WarmInv r.2.1 (noteWarmed c r.2.1 warmed (time + 1)) (time + 1) releases := by
  cases hr with
  | reuses _ _ => exact h.set_cold nofun fun _ => rfl
  | @shares i _ hactive =>
      exact h.set_cold (by simp [CacheEntry.shared, hactive]) fun _ => h.active i hactive
  | full _ _ => exact h.idle
  | fails _ _ _ _ =>
      exact h.set_cold (by simp [CacheEntry.claimed_state]) (by simp [CacheEntry.claimed_state])
  | loads _ _ _ => exact h.set_cold nofun fun _ => rfl

/-- A reference to an active module that is not the last one is released. -/
lemma drops (h : WarmInv c warmed time releases) (hactive : (c.entries i).state = .active) :
    WarmInv (c.set i (c.entries i).dropped)
      (noteWarmed c (c.set i (c.entries i).dropped) warmed (time + 1)) (time + 1)
      (releases + 1) := by
  have hdropped : (c.entries i).dropped.state = .active := hactive
  have hset := h.set_cold (i := i) (e := (c.entries i).dropped) (by simp [hdropped])
    fun _ => h.active i hactive
  exact { hset with clock_le := hset.clock_le.trans (Nat.le_succ _) }

/-- The last reference to an active module is released: its slot gets the latest number and
the latest time. -/
lemma last (h : WarmInv c warmed time releases) (hactive : (c.entries i).state = .active)
    (hbound : releases + 1 < 2 ^ 64) {c' : ModuleCache}
    (hc' : c' = { c.set i ((c.entries i).warmed (c.warmClock + 1)) with
      warmClock := c.warmClock + 1 }) :
    WarmInv c' (noteWarmed c c' warmed (time + 1)) (time + 1) (releases + 1) := by
  have hself : c'.entries i = (c.entries i).warmed (c.warmClock + 1) := by
    rw [hc']
    exact ModuleCache.set_entries_self c i _
  have hother {j : Slot} (hj : j ≠ i) : c'.entries j = c.entries j := by
    rw [hc']
    exact ModuleCache.set_entries_of_ne c hj _
  have hwarm : (c'.entries i).state = .warm := by rw [hself]; rfl
  have hclock : c'.warmClock.toNat = c.warmClock.toNat + 1 := by
    have hle := h.clock_le
    rw [hc', UInt64.toNat_add]
    exact Nat.mod_eq_of_lt (by show _ + 1 < _; omega)
  have hstamp : c'.stamp i = c.warmClock.toNat + 1 := by
    rw [ModuleCache.stamp, hself, ← hclock, hc']
    rfl
  have hnoted : noteWarmed c c' warmed (time + 1) i = time + 1 :=
    if_pos ⟨by simp [hactive], hwarm⟩
  have hcold {j : Slot} (hj : j ∈ c'.warmSlots) (hji : j ≠ i) : j ∈ c.warmSlots := by
    have hstate : (c'.entries j).state = .warm := hj
    rwa [hother hji] at hstate
  have hslots : c'.warmSlots = insert i c.warmSlots := by
    ext j
    by_cases hji : j = i
    · simp [hji, ModuleCache.warmSlots, hwarm]
    · simp [hji, ModuleCache.warmSlots, hother hji]
  have hkeep {j : Slot} (hj : j ∈ c.warmSlots) (hji : j ≠ i) :
      c'.stamp j = c.stamp j ∧ noteWarmed c c' warmed (time + 1) j = warmed j :=
    ⟨by rw [ModuleCache.stamp, hother hji, ModuleCache.stamp], if_neg fun hne => hne.1 hj⟩
  refine ⟨fun j hj => ?_, fun j hj => ?_, fun j hj => ?_, fun j hj => ?_, ?_, ?_⟩
  · by_cases hji : j = i
    · rw [hji, hwarm] at hj
      cases hj
    · rw [hother hji] at hj ⊢
      exact h.active j hj
  · by_cases hji : j = i
    · rw [hji, hstamp]
      omega
    · rw [(hkeep (hcold hj hji) hji).1]
      exact h.pos j (hcold hj hji)
  · by_cases hji : j = i
    · rw [hji, hstamp, hclock]
    · rw [(hkeep (hcold hj hji) hji).1, hclock]
      exact (h.le_clock j (hcold hj hji)).trans (Nat.le_succ _)
  · by_cases hji : j = i
    · rw [hji, hnoted]
    · rw [(hkeep (hcold hj hji) hji).2]
      exact (h.le_time j (hcold hj hji)).trans (Nat.le_succ _)
  · rw [hslots]
    refine h.agree.stamp (fun j hj hji => ⟨(hkeep hj hji).1, ?_⟩)
      fun j hj hji => ⟨(hkeep hj hji).2, ?_⟩
    · rw [hstamp]
      exact Nat.lt_succ_of_le (h.le_clock j hj)
    · rw [hnoted]
      exact Nat.lt_succ_of_le (h.le_time j hj)
  · rw [hclock]
    exact Nat.succ_le_succ h.clock_le

lemma flush (c : ModuleCache) (warmed : Slot → ℕ) (time releases : ℕ) :
    WarmInv (moduleCacheFlush c) (noteWarmed c (moduleCacheFlush c) warmed (time + 1))
      (time + 1) releases := by
  have hstate (i : Slot) : ((moduleCacheFlush c).entries i).state = .unused := by
    rw [moduleCacheFlush_entries, CacheEntry.claimed_state]
  have hempty : (moduleCacheFlush c).warmSlots = ∅ := by
    ext i
    simp [ModuleCache.warmSlots, hstate]
  refine ⟨fun i hi => ?_, ?_, ?_, ?_, ?_, Nat.zero_le _⟩
  · rw [hstate i] at hi
    cases hi
  · simp [hempty]
  · simp [hempty]
  · simp [hempty]
  · rw [hempty]
    exact .empty _ _

end WarmInv

/-! ### The paths of the entries -/

/-- A stored path leaves room for its terminator. -/
def PathInv (c : ModuleCache) : Prop := ∀ i, (c.entries i).path.length < maxPathLen

/-- The cache holds an entry of the path. -/
def Resident (c : ModuleCache) (path : CString) : Prop :=
  ∃ i, (c.entries i).state ≠ .unused ∧ (c.entries i).path = path

instance (c : ModuleCache) (path : CString) : Decidable (Resident c path) :=
  inferInstanceAs (Decidable (∃ _, _ ∧ _))

namespace PathInv

variable {c : ModuleCache} {i : Slot}

lemma init : PathInv moduleCacheInit := fun _ => Nat.succ_pos _

lemma set {e : CacheEntry} (h : PathInv c) (he : e.path.length < maxPathLen) :
    PathInv (c.set i e) := by
  intro j
  by_cases hj : j = i
  · rw [hj, ModuleCache.set_entries_self]
    exact he
  · rw [ModuleCache.set_entries_of_ne _ hj]
    exact h j

lemma claimed (h : PathInv c) (i : Slot) : (c.entries i).claimed.path.length < maxPathLen := by
  rw [CacheEntry.claimed]
  split
  · exact h i
  · exact Nat.succ_pos _

/-- An acquire keeps it. -/
theorem acquire {ld : Loader} {path : CString} {r : Status × ModuleCache × Option Slot}
    (h : PathInv c) (hr : AcquireOutcome ld c path r) : PathInv r.2.1 := by
  cases hr with
  | @reuses i _ _ => exact h.set (h i)
  | @shares i _ _ => exact h.set (h i)
  | full _ _ => exact h
  | @fails i _ _ _ _ _ _ => exact h.set (h.claimed i)
  | loads _ _ _ =>
      refine h.set ?_
      rw [CacheEntry.loaded, List.length_take]
      exact (min_le_left _ _).trans_lt (by decide)

/-- A release keeps it. -/
theorem release {r : Status × ModuleCache} (h : PathInv c) (hr : ReleaseOutcome c i r) :
    PathInv r.2 := by
  cases hr with
  | refused _ => exact h
  | last _ _ =>
      intro j
      exact (h.set (i := i) (e := (c.entries i).warmed (c.warmClock + 1)) (h i)) j
  | drops _ _ _ => exact h.set (h i)

lemma flush (h : PathInv c) : PathInv (moduleCacheFlush c) := fun i => by
  rw [moduleCacheFlush_entries]
  exact h.claimed i

/-- The entry that a lookup finds has exactly the path looked up. -/
lemma path_of_matches (h : PathInv c) {path : CString} (hm : (c.entries i).Matches path) :
    (c.entries i).path = path := by
  have hlen := h i
  have htake := hm.2
  rw [List.take_of_length_le hlen.le] at htake
  rw [htake, List.length_take] at hlen
  rw [htake, List.take_of_length_le (by omega)]

/-- A path that is not resident is not found. -/
lemma cacheFind_eq_none (h : PathInv c) {path : CString} (hpath : ¬ Resident c path) :
    cacheFind c path = none :=
  Dwunw.cacheFind_eq_none.mpr fun i hm => hpath ⟨i, hm.1, h.path_of_matches hm⟩

end PathInv

end Dwunw
