import Dwunw.ModuleCache

/-!
What each operation of the module cache can do.

* `Claims c i`: the slot `i` is the one a new module goes to, the first step of every load.
* `Loader.load`: opening a file and building its index, the two fallible steps as one.
* `AcquireOutcome`, `moduleCacheAcquire_outcome`: the five ways an acquire comes out.
* `ReleaseOutcome`, `moduleCacheRelease_outcome`: the three ways a release does.
* `moduleCacheFlush_entries`: a flush empties every slot.
-/

namespace Dwunw

/-! ### Replacing an entry -/

@[simp] lemma ModuleCache.set_entries_self (c : ModuleCache) (i : Slot) (e : CacheEntry) :
    (c.set i e).entries i = e := by
  simp [ModuleCache.set]

@[simp] lemma ModuleCache.set_entries_of_ne (c : ModuleCache) {i j : Slot} (h : j ≠ i)
    (e : CacheEntry) : (c.set i e).entries j = c.entries j := by
  simp [ModuleCache.set, h]

@[simp] lemma ModuleCache.set_warmClock (c : ModuleCache) (i : Slot) (e : CacheEntry) :
    (c.set i e).warmClock = c.warmClock := rfl

@[simp] lemma ModuleCache.set_set (c : ModuleCache) (i : Slot) (e e' : CacheEntry) :
    (c.set i e).set i e' = c.set i e' := by
  simp [ModuleCache.set]

@[simp] lemma ModuleCache.set_eq_self (c : ModuleCache) (i : Slot) :
    c.set i (c.entries i) = c := by
  simp [ModuleCache.set]

/-! ### Looking a path up -/

/-- The entry matches the path as far as the lookup compares. -/
def CacheEntry.Matches (e : CacheEntry) (path : CString) : Prop :=
  e.state ≠ .unused ∧ e.path.take maxPathLen = path.take maxPathLen

lemma cacheFind_some {c : ModuleCache} {path : CString} {i : Slot}
    (h : cacheFind c path = some i) : (c.entries i).Matches path := by
  have hi := List.find?_some h
  simpa [strncmpEq, CacheEntry.Matches] using hi

lemma cacheFind_eq_none {c : ModuleCache} {path : CString} :
    cacheFind c path = none ↔ ∀ i, ¬ (c.entries i).Matches path := by
  simp [cacheFind, strncmpEq, CacheEntry.Matches]

/-! ### Finding room -/

/-- The slot a new module goes to: an unused one, or, when there is none, the warm one that
was let go first. -/
def Claims (c : ModuleCache) (i : Slot) : Prop :=
  (c.entries i).state = .unused ∨
    (∀ j, (c.entries j).state ≠ .unused) ∧ (c.entries i).state = .warm ∧
      ∀ j, (c.entries j).state = .warm → (c.entries i).warmSeq ≤ (c.entries j).warmSeq

/-- The entry of a claimed slot: an unused one as it is, an evicted one reset. -/
def CacheEntry.claimed (e : CacheEntry) : CacheEntry :=
  if e.state = .unused then e else cacheEntryReset e

lemma CacheEntry.claimed_state (e : CacheEntry) : e.claimed.state = .unused := by
  rw [claimed]
  split
  · assumption
  · rfl

/-- Claiming a slot leaves the flags of its handle as they are. -/
lemma CacheEntry.claimed_flags (e : CacheEntry) :
    e.claimed.handle.flags = e.handle.flags := by
  rw [claimed]
  split <;> rfl

/-- How the scan for room over the slots that are left comes out. -/
inductive ScanOutcome (c : ModuleCache) (slots : List Slot) (victim : Option Slot) :
    Option (Slot × Bool) → Prop
  | full (hvictim : victim = none) (hall : ∀ i ∈ slots, (c.entries i).state = .active) :
      ScanOutcome c slots victim none
  | unused {i : Slot} (hi : (c.entries i).state = .unused) :
      ScanOutcome c slots victim (some (i, false))
  | victim {i : Slot} (hall : ∀ j ∈ slots, (c.entries j).state ≠ .unused)
      (hi : victim = some i ∨ (c.entries i).state = .warm)
      (hle : ∀ j, victim = some j ∨ j ∈ slots ∧ (c.entries j).state = .warm →
        (c.entries i).warmSeq ≤ (c.entries j).warmSeq) :
      ScanOutcome c slots victim (some (i, true))

/-- A scan over one more slot that is not unused, with the victim as it then is. -/
lemma ScanOutcome.cons {c : ModuleCache} {slots : List Slot} {victim victim' : Option Slot}
    {k : Slot} {r : Option (Slot × Bool)} (h : ScanOutcome c slots victim' r)
    (hk : (c.entries k).state ≠ .unused)
    (hnone : victim' = none → victim = none ∧ (c.entries k).state = .active)
    (hsome : ∀ i, victim' = some i → victim = some i ∨ (c.entries i).state = .warm)
    (hle : ∀ j, victim = some j ∨ j = k ∧ (c.entries j).state = .warm →
      ∃ v, victim' = some v ∧ (c.entries v).warmSeq ≤ (c.entries j).warmSeq) :
    ScanOutcome c (k :: slots) victim r := by
  cases h with
  | full hvictim hall =>
      obtain ⟨hnone, hactive⟩ := hnone hvictim
      exact .full hnone (List.forall_mem_cons.mpr ⟨hactive, hall⟩)
  | unused hi => exact .unused hi
  | victim hall hi hmin =>
      refine .victim (List.forall_mem_cons.mpr ⟨hk, hall⟩) (hi.elim (hsome _) .inr) ?_
      intro j hj
      rcases hj with hj | ⟨hj, hwarm⟩
      · obtain ⟨v, hv, hvj⟩ := hle j (.inl hj)
        exact UInt64.le_trans (hmin v (.inl hv)) hvj
      · rcases List.mem_cons.mp hj with rfl | hj
        · obtain ⟨v, hv, hvj⟩ := hle j (.inr ⟨rfl, hwarm⟩)
          exact UInt64.le_trans (hmin v (.inl hv)) hvj
        · exact hmin j (.inr ⟨hj, hwarm⟩)

/-- The loop over the slots ends in one of its outcomes. -/
theorem cacheAllocLoop_outcome (c : ModuleCache) (slots : List Slot) (victim : Option Slot) :
    ScanOutcome c slots victim (cacheAllocLoop c slots victim) := by
  induction slots generalizing victim with
  | nil =>
      cases victim with
      | none => exact .full rfl (by simp)
      | some v => exact .victim (by simp) (.inl rfl) (by simp)
  | cons k slots ih =>
      unfold cacheAllocLoop
      cases hk : (c.entries k).state with
      | unused => exact .unused hk
      | active =>
          refine (ih victim).cons (by simp [hk]) (fun h => ⟨h, hk⟩) (fun i => .inl) ?_
          intro j hj
          rcases hj with hj | ⟨rfl, hwarm⟩
          · exact ⟨j, hj, UInt64.le_refl _⟩
          · rw [hk] at hwarm
            cases hwarm
      | warm =>
          cases victim with
          | none =>
              refine (ih (some k)).cons (by simp [hk]) nofun ?_ ?_
              · rintro i ⟨⟩
                exact .inr hk
              · rintro j (⟨⟨⟩⟩ | ⟨rfl, -⟩)
                exact ⟨j, rfl, UInt64.le_refl _⟩
          | some v =>
              dsimp only
              split
              · next hlt =>
                refine (ih (some k)).cons (by simp [hk]) nofun ?_ ?_
                · rintro i ⟨⟩
                  exact .inr hk
                · rintro j (⟨⟨⟩⟩ | ⟨rfl, -⟩)
                  · exact ⟨k, rfl, UInt64.le_of_lt hlt⟩
                  · exact ⟨j, rfl, UInt64.le_refl _⟩
              · next hlt =>
                refine (ih (some v)).cons (by simp [hk]) nofun (fun i => .inl) ?_
                rintro j (⟨⟨⟩⟩ | ⟨rfl, -⟩)
                · exact ⟨v, rfl, UInt64.le_refl _⟩
                · exact ⟨v, rfl, UInt64.not_lt.mp hlt⟩

/-- There is room unless every slot is active. -/
theorem cacheAlloc_cases (c : ModuleCache) :
    cacheAlloc c = none ∧ (∀ i, (c.entries i).state = .active) ∨
    ∃ i, Claims c i ∧ cacheAlloc c = some (i, c.set i (c.entries i).claimed) := by
  have h := cacheAllocLoop_outcome c (List.finRange moduleCacheCapacity) none
  rw [cacheAlloc]
  generalize cacheAllocLoop c (List.finRange moduleCacheCapacity) none = r at h
  cases h with
  | full _ hall => exact .inl ⟨rfl, fun i => hall i (List.mem_finRange i)⟩
  | @unused i hi =>
      refine .inr ⟨i, .inl hi, ?_⟩
      rw [CacheEntry.claimed, if_pos hi, ModuleCache.set_eq_self]
  | @victim i hall hi hle =>
      have hwarm : (c.entries i).state = .warm := hi.resolve_left nofun
      refine .inr ⟨i, .inr ⟨fun j => hall j (List.mem_finRange j), hwarm, fun j hj => ?_⟩, ?_⟩
      · exact hle j (.inr ⟨List.mem_finRange j, hj⟩)
      · rw [CacheEntry.claimed, if_neg (hall i (List.mem_finRange i))]

lemma Claims.not_active {c : ModuleCache} {i : Slot} (h : Claims c i) :
    (c.entries i).state ≠ .active := by
  rcases h with h | ⟨-, h, -⟩ <;> rw [h] <;> decide

/-! ### Acquiring -/

/-- Opening the file of a path and building its index. -/
def Loader.load (ld : Loader) (path : CString) : Except Status (ElfHandle × DwarfIndex) :=
  match ld.elfOpen path with
  | .error st => .error st
  | .ok elf =>
      match ld.indexInit elf with
      | .error st => .error st
      | .ok index => .ok (elf, index)

/-- The status codes that `dwunw_elf_open` and `dwunw_dwarf_index_init` fail with. -/
structure Loader.Documented (ld : Loader) : Prop where
  elfOpen : ∀ path st, ld.elfOpen path = .error st → st ∈ [.invalidArg, .io, .badFormat]
  indexInit : ∀ elf st, ld.indexInit elf = .error st →
    st ∈ [.invalidArg, .io, .badFormat, .noDebugData]

/-- A load fails, but not for want of room. -/
lemma Loader.Documented.load_error {ld : Loader} (h : ld.Documented) {path : CString}
    {st : Status} (hload : ld.load path = .error st) : st ≠ .ok ∧ st ≠ .cacheFull := by
  have hst : st ∈ [.invalidArg, .io, .badFormat, .noDebugData] := by
    rw [load] at hload
    split at hload
    · next hopen =>
      cases hload
      exact List.mem_append_left [.noDebugData] (h.elfOpen _ _ hopen)
    · split at hload
      · next hindex =>
        cases hload
        exact h.indexInit _ _ hindex
      · cases hload
  constructor <;> rintro rfl <;> simp at hst

/-- The entry of a warm module that is used again. -/
def CacheEntry.reused (e : CacheEntry) : CacheEntry :=
  { e with refcnt := 1, state := .active, warmSeq := 0 }

/-- The entry of an active module that one more holds. -/
def CacheEntry.shared (e : CacheEntry) : CacheEntry := { e with refcnt := e.refcnt + 1 }

/-- The entry of a module loaded into the slot of `e`. -/
def CacheEntry.loaded (e : CacheEntry) (path : CString) (elf : ElfHandle)
    (index : DwarfIndex) : CacheEntry :=
  ⟨path.take (maxPathLen - 1), ⟨elf, index, e.handle.flags⟩, 1, .active, 0⟩

/-- The ways an acquire comes out: it finds the module warm or active; or it does not find
it, and every slot is active, or the module does not load into the slot it claims, or it
does. -/
inductive AcquireOutcome (ld : Loader) (c : ModuleCache) (path : CString) :
    Status × ModuleCache × Option Slot → Prop
  | reuses {i : Slot} (hfind : cacheFind c path = some i)
      (hwarm : (c.entries i).state = .warm) :
      AcquireOutcome ld c path (.ok, c.set i (c.entries i).reused, some i)
  | shares {i : Slot} (hfind : cacheFind c path = some i)
      (hactive : (c.entries i).state = .active) :
      AcquireOutcome ld c path (.ok, c.set i (c.entries i).shared, some i)
  | full (hfind : cacheFind c path = none) (hall : ∀ i, (c.entries i).state = .active) :
      AcquireOutcome ld c path (.cacheFull, c, none)
  | fails {i : Slot} {st : Status} {h : ModuleHandle} (hfind : cacheFind c path = none)
      (hclaims : Claims c i) (hload : ld.load path = .error st)
      (hzero : (c.entries i).claimed.handle = .zero → h = .zero) :
      AcquireOutcome ld c path (st, c.set i { (c.entries i).claimed with handle := h }, none)
  | loads {i : Slot} {elf : ElfHandle} {index : DwarfIndex} (hfind : cacheFind c path = none)
      (hclaims : Claims c i) (hload : ld.load path = .ok (elf, index)) :
      AcquireOutcome ld c path (.ok, c.set i ((c.entries i).loaded path elf index), some i)

/-- Every acquire has one of these outcomes. -/
theorem moduleCacheAcquire_outcome (ld : Loader) (c : ModuleCache) (path : CString) :
    AcquireOutcome ld c path (moduleCacheAcquire ld c path) := by
  rw [moduleCacheAcquire]
  cases hfind : cacheFind c path with
  | some i =>
      dsimp only
      by_cases hwarm : (c.entries i).state = .warm
      · rw [if_pos hwarm]
        exact .reuses hfind hwarm
      · rw [if_neg hwarm]
        have hactive : (c.entries i).state = .active := by
          have hused := (cacheFind_some hfind).1
          cases h : (c.entries i).state with
          | unused => exact absurd h hused
          | active => rfl
          | warm => exact absurd h hwarm
        exact .shares hfind hactive
  | none =>
      dsimp only
      rcases cacheAlloc_cases c with ⟨halloc, hall⟩ | ⟨i, hclaims, halloc⟩
      · rw [halloc]
        exact .full hfind hall
      rw [halloc]
      simp only [ModuleCache.set_entries_self, ModuleCache.set_set]
      cases hopen : ld.elfOpen path with
      | error st =>
          refine .fails hfind hclaims (by simp [Loader.load, hopen]) fun h => ?_
          rw [h]
          rfl
      | ok elf =>
          dsimp only
          cases hindex : ld.indexInit elf with
          | error st =>
              exact .fails hfind hclaims (by simp [Loader.load, hopen, hindex]) fun _ => rfl
          | ok index =>
              rw [CacheEntry.claimed_flags]
              exact .loads hfind hclaims (by simp [Loader.load, hopen, hindex])

/-! ### Releasing and flushing -/

/-- The entry of an active module that one less holds. -/
def CacheEntry.dropped (e : CacheEntry) : CacheEntry := { e with refcnt := e.refcnt - 1 }

/-- The entry of a module that nobody holds any more, let go at the time `clock`. -/
def CacheEntry.warmed (e : CacheEntry) (clock : UInt64) : CacheEntry :=
  { e with refcnt := 0, state := .warm, warmSeq := clock }

/-- The ways a release comes out: it is refused, or the reference was the last one or was
not. -/
inductive ReleaseOutcome (c : ModuleCache) (i : Slot) : Status × ModuleCache → Prop
  | refused (h : (c.entries i).state = .unused ∨ (c.entries i).refcnt = 0) :
      ReleaseOutcome c i (.invalidArg, c)
  | last (hused : (c.entries i).state ≠ .unused) (h : (c.entries i).refcnt = 1) :
      ReleaseOutcome c i (.ok, { c.set i ((c.entries i).warmed (c.warmClock + 1)) with
        warmClock := c.warmClock + 1 })
  | drops (hused : (c.entries i).state ≠ .unused) (h : (c.entries i).refcnt ≠ 0)
      (h' : (c.entries i).refcnt ≠ 1) :
      ReleaseOutcome c i (.ok, c.set i (c.entries i).dropped)

/-- Every release has one of these outcomes. -/
theorem moduleCacheRelease_outcome (c : ModuleCache) (i : Slot) :
    ReleaseOutcome c i (moduleCacheRelease c i) := by
  rw [moduleCacheRelease]
  dsimp only
  split
  · next h => exact .refused (.inl h)
  · next hused =>
    split
    · next h => exact .refused (.inr h)
    · next h =>
      split
      · next hone => exact .last hused (by grind)
      · next hone => exact .drops hused h (by grind)

lemma moduleCacheFlush_entries (c : ModuleCache) (i : Slot) :
    (moduleCacheFlush c).entries i = (c.entries i).claimed := rfl

end Dwunw
