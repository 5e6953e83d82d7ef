import Dwunw.CacheHistory

/-!
What the entries of the module cache are keyed by.

The cache keeps the first `DWUNW_MAX_PATH_LEN - 1` bytes of a path and looks a path up by
its first `DWUNW_MAX_PATH_LEN` bytes.  In a history of shorter paths these are the paths
themselves.

* `KeyInv`: every entry is keyed by the path it was loaded from, and no two by the same.
* `LoadedFrom`: the acquire of a history that loaded the handle of a slot.
* `keys_faithful`: an acquire returns the handle that a load of exactly its path gave, and loads
  no module that the cache holds.
* `truncated_key`: with a longer path it returns another module.
-/

namespace Dwunw

open Runs

/-- Every entry in use is keyed by the path it was loaded from, and no two by the same. -/
structure KeyInv (c : ModuleCache) (source : Slot → CString) : Prop where
  key : ∀ i, (c.entries i).state ≠ .unused → (c.entries i).path = source i
  inj : ∀ i j, (c.entries i).state ≠ .unused → (c.entries j).state ≠ .unused →
    source i = source j → i = j

/-- The operation acquires no path that is too long for the buffer of an entry. -/
def CacheOp.ShortPath : CacheOp → Prop
  | .acquire _ path => path.length < maxPathLen
  | _ => True

instance (op : CacheOp) : Decidable op.ShortPath :=
  match op with
  | .acquire _ path => inferInstanceAs (Decidable (path.length < maxPathLen))
  | .release _ => isTrue trivial
  | .flush => isTrue trivial

/-- The states that histories of short paths come to. -/
abbrev ShortReach : CacheRun → Prop := Reach CacheRun.next (fun _ op => op.ShortPath) .init

namespace KeyInv

variable {c : ModuleCache} {source : Slot → CString} {i : Slot}

lemma init : KeyInv moduleCacheInit fun _ => [] :=
  ⟨fun _ h => absurd rfl h, fun _ _ h => absurd rfl h⟩

/-- Replacing an entry in use by one of the same key, or by one that is not in use. -/
lemma set {e : CacheEntry} (h : KeyInv c source)
    (he : e.state ≠ .unused → (c.entries i).state ≠ .unused ∧ e.path = (c.entries i).path) :
    KeyInv (c.set i e) source := by
  have hused {j : Slot} (hj : ((c.set i e).entries j).state ≠ .unused) :
      (c.entries j).state ≠ .unused := by
    by_cases hji : j = i
    · rw [hji, ModuleCache.set_entries_self] at hj
      exact hji ▸ (he hj).1
    · rwa [ModuleCache.set_entries_of_ne _ hji] at hj
  refine ⟨fun j hj => ?_, fun j k hj hk => h.inj j k (hused hj) (hused hk)⟩
  rw [← h.key j (hused hj)]
  by_cases hji : j = i
  · rw [hji, ModuleCache.set_entries_self] at hj ⊢
    exact (he hj).2
  · rw [ModuleCache.set_entries_of_ne _ hji]

/-- The path that a claimed slot is loaded from is new to the cache. -/
lemma load {e : CacheEntry} {path : CString} (h : KeyInv c source)
    (hnew : ∀ j, (c.entries j).state ≠ .unused → source j ≠ path) (hpath : e.path = path) :
    KeyInv (c.set i e) (Function.update source i path) := by
  have hother {j : Slot} (hji : j ≠ i) (hj : ((c.set i e).entries j).state ≠ .unused) :
      (c.entries j).state ≠ .unused := by
    rwa [ModuleCache.set_entries_of_ne _ hji] at hj
  refine ⟨fun j hj => ?_, fun j k hj hk hjk => ?_⟩
  · by_cases hji : j = i
    · rw [hji, ModuleCache.set_entries_self, Function.update_self, hpath]
    · rw [ModuleCache.set_entries_of_ne _ hji, Function.update_of_ne hji]
      exact h.key j (hother hji hj)
  · by_cases hji : j = i <;> by_cases hki : k = i
    · rw [hji, hki]
    · rw [hji, Function.update_self, Function.update_of_ne hki] at hjk
      exact absurd hjk.symm (hnew k (hother hki hk))
    · rw [hki, Function.update_self, Function.update_of_ne hji] at hjk
      exact absurd hjk (hnew j (hother hji hj))
    · rw [Function.update_of_ne hji, Function.update_of_ne hki] at hjk
      exact h.inj j k (hother hji hj) (hother hki hk) hjk

lemma flush (c : ModuleCache) (source : Slot → CString) : KeyInv (moduleCacheFlush c) source := by
  have hunused (i : Slot) : ((moduleCacheFlush c).entries i).state = .unused :=
    (c.entries i).claimed_state
  exact ⟨fun i hi => absurd (hunused i) hi, fun i _ hi => absurd (hunused i) hi⟩

end KeyInv

/-! ### Histories of short paths -/

/-- A short path that is not found is the source of no entry. -/
lemma KeyInv.source_ne {c : ModuleCache} {source : Slot → CString} (h : KeyInv c source)
    {path : CString} (hfind : cacheFind c path = none) (i : Slot)
    (hi : (c.entries i).state ≠ .unused) : source i ≠ path := by
  rintro rfl
  exact cacheFind_eq_none.mp hfind i ⟨hi, by rw [h.key i hi]⟩

/-- Histories of short paths keep every entry under its path. -/
theorem ShortReach.keyInv {s : CacheRun} (h : ShortReach s) :
    PathInv s.cache ∧ KeyInv s.cache s.source := by
  refine h.invariant (I := fun s => PathInv s.cache ∧ KeyInv s.cache s.source)
    ⟨.init, .init⟩ fun s op _ hs hshort => ?_
  obtain ⟨hpaths, hkeys⟩ := hs
  cases op with
  | acquire ld path =>
      have hr := moduleCacheAcquire_outcome ld s.cache path
      refine ⟨hpaths.acquire hr, ?_⟩
      rw [CacheRun.next]
      dsimp only [CacheRun.turn]
      generalize moduleCacheAcquire ld s.cache path = r at hr ⊢
      cases hr with
      | reuses hfind _ =>
          rw [hfind]
          exact hkeys.set fun _ => ⟨(cacheFind_some hfind).1, rfl⟩
      | shares hfind _ =>
          rw [hfind]
          exact hkeys.set fun h => ⟨h, rfl⟩
      | full hfind _ =>
          rw [hfind]
          exact hkeys
      | fails hfind _ _ _ =>
          rw [hfind]
          exact hkeys.set fun h => absurd (CacheEntry.claimed_state _) h
      | loads hfind _ _ =>
          rw [hfind]
          exact hkeys.load (hkeys.source_ne hfind)
            (List.take_of_length_le (Nat.le_sub_one_of_lt hshort))
  | release i =>
      have hr := moduleCacheRelease_outcome s.cache i
      rw [CacheRun.next]
      have hpaths' := hpaths.release hr
      dsimp only [CacheRun.turn]
      generalize moduleCacheRelease s.cache i = r at hr hpaths' ⊢
      cases hr with
      | refused _ =>
          rw [if_neg fun h => Status.noConfusion h]
          exact ⟨hpaths, hkeys⟩
      | last hused _ =>
          rw [if_pos rfl]
          have hset := hkeys.set (i := i)
            (e := (s.cache.entries i).warmed (s.cache.warmClock + 1)) fun _ => ⟨hused, rfl⟩
          exact ⟨hpaths', hset.key, hset.inj⟩
      | drops hused _ _ =>
          rw [if_pos rfl]
          exact ⟨hpaths', hkeys.set fun _ => ⟨hused, rfl⟩⟩
  | flush => exact ⟨hpaths.flush, .flush _ _⟩

/-- A path that is found is the source of the entry. -/
lemma KeyInv.source_found {c : ModuleCache} {source : Slot → CString} (h : KeyInv c source)
    (hpaths : PathInv c) {path : CString} {i : Slot} (hfind : cacheFind c path = some i) :
    source i = path := by
  have hm := cacheFind_some hfind
  rw [← h.key i hm.1, hpaths.path_of_matches hm]

/-- An acquire that finds its path returns the entry with its module as it is. -/
lemma moduleCacheAcquire_found (ld : Loader) {c : ModuleCache} {path : CString} {i : Slot}
    (hfind : cacheFind c path = some i) :
    (moduleCacheAcquire ld c path).1 = .ok ∧ (moduleCacheAcquire ld c path).2.2 = some i ∧
      ((moduleCacheAcquire ld c path).2.1.entries i).handle = (c.entries i).handle := by
  rw [moduleCacheAcquire, hfind]
  by_cases hwarm : (c.entries i).state = .warm <;> simp [hwarm]

/-! ### Where a handle comes from -/

/-- A cache after these operations. -/
def CacheRun.after (ops : List CacheOp) : CacheRun := ops.foldl CacheRun.next .init

lemma CacheRun.after_append_singleton (ops : List CacheOp) (op : CacheOp) :
    CacheRun.after (ops ++ [op]) = (CacheRun.after ops).next op :=
  List.foldl_concat CacheRun.next .init op ops

/-- An acquire loads its path into the slot: the cache does not hold the path, and the handle
that is returned is that of the slot. -/
def LoadsInto (s : CacheRun) (ld : Loader) (path : CString) (i : Slot) : Prop :=
  cacheFind s.cache path = none ∧ (moduleCacheAcquire ld s.cache path).2.2 = some i

/-- The last of the operations that loaded into the slot asked for the path, and this is the
handle that opening the file and building its index returned. -/
def LoadedFrom (ops : List CacheOp) (i : Slot) (path : CString) (h : ModuleHandle) : Prop :=
  ∃ pre ld post, ops = pre ++ .acquire ld path :: post ∧
    LoadsInto (.after pre) ld path i ∧ ld.load path = .ok (h.elf, h.index) ∧
    ∀ mid ld' path' rest, post = mid ++ .acquire ld' path' :: rest →
      ¬ LoadsInto (.after (pre ++ .acquire ld path :: mid)) ld' path' i

/-- It stays the last one when another operation follows that loads nothing into the slot. -/
lemma LoadedFrom.later {ops : List CacheOp} {op : CacheOp} {i : Slot} {path : CString}
    {h : ModuleHandle} (hfrom : LoadedFrom ops i path h)
    (hop : ∀ ld path, op = .acquire ld path → ¬ LoadsInto (.after ops) ld path i) :
    LoadedFrom (ops ++ [op]) i path h := by
  obtain ⟨pre, ld, post, rfl, hloads, hload, hlast⟩ := hfrom
  refine ⟨pre, ld, post ++ [op], by simp, hloads, hload, fun mid ld' path' rest hpost => ?_⟩
  rcases List.eq_nil_or_concat rest with rfl | ⟨rest, op', rfl⟩
  · obtain ⟨rfl, hlast⟩ := List.append_inj' hpost rfl
    exact hop _ _ (List.cons.inj hlast).1
  · rw [List.concat_eq_append, ← List.cons_append, ← List.append_assoc] at hpost
    exact hlast mid ld' path' rest (List.append_inj' hpost rfl).1

/-- Every entry in use holds the handle that a load of its path gave. -/
def Loaded (ops : List CacheOp) (s : CacheRun) : Prop :=
  ∀ i, (s.cache.entries i).state ≠ .unused →
    LoadedFrom ops i (s.source i) (s.cache.entries i).handle

/-- An operation that loads nothing, and after which every entry in use was in use before, with
the same handle. -/
lemma Loaded.kept {ops : List CacheOp} {s s' : CacheRun} {op : CacheOp} (h : Loaded ops s)
    (hop : ∀ i ld path, op = .acquire ld path → ¬ LoadsInto (.after ops) ld path i)
    (hsource : s'.source = s.source)
    (hkept : ∀ i, (s'.cache.entries i).state ≠ .unused → (s.cache.entries i).state ≠ .unused ∧
      (s'.cache.entries i).handle = (s.cache.entries i).handle) : Loaded (ops ++ [op]) s' := by
  intro i hi
  obtain ⟨hused, hhandle⟩ := hkept i hi
  rw [hsource, hhandle]
  exact (h i hused).later (hop i)

/-- Replacing an entry in use by one of the same handle, or by one that is not in use. -/
lemma kept_set {c : ModuleCache} {i : Slot} {e : CacheEntry}
    (he : e.state ≠ .unused → (c.entries i).state ≠ .unused ∧ e.handle = (c.entries i).handle)
    (j : Slot) (hj : ((c.set i e).entries j).state ≠ .unused) :
    (c.entries j).state ≠ .unused ∧ ((c.set i e).entries j).handle = (c.entries j).handle := by
  by_cases hji : j = i
  · rw [hji, ModuleCache.set_entries_self] at hj ⊢
    exact he hj
  · rw [ModuleCache.set_entries_of_ne _ hji] at hj ⊢
    exact ⟨hj, rfl⟩

/-- An acquire keeps this: what it loads, it loads into the slot that it returns. -/
lemma Loaded.acquire {ops : List CacheOp} (h : Loaded ops (.after ops)) (ld : Loader)
    (path : CString) :
    Loaded (ops ++ [.acquire ld path]) ((CacheRun.after ops).next (.acquire ld path)) := by
  obtain ⟨s, hs⟩ : ∃ s, s = CacheRun.after ops := ⟨_, rfl⟩
  rw [← hs] at h ⊢
  have hr := moduleCacheAcquire_outcome ld s.cache path
  have hop : ∀ i ld' path', CacheOp.acquire ld path = .acquire ld' path' →
      LoadsInto (.after ops) ld' path' i →
        cacheFind s.cache path = none ∧ (moduleCacheAcquire ld s.cache path).2.2 = some i := by
    rintro i ld' path' ⟨⟩ hloads
    rwa [← hs] at hloads
  have hloads : ∀ i, (moduleCacheAcquire ld s.cache path).2.2 = some i →
      cacheFind s.cache path = none → LoadsInto (.after ops) ld path i := by
    rw [← hs]
    exact fun i hslot hfind => ⟨hfind, hslot⟩
  rw [CacheRun.next]
  dsimp only [CacheRun.turn]
  generalize moduleCacheAcquire ld s.cache path = r at hr hop hloads ⊢
  cases hr with
  | reuses hfind _ =>
      refine h.kept (fun i ld' path' heq hload => ?_) (by rw [hfind]) (kept_set fun _ => ?_)
      · rw [(hop i ld' path' heq hload).1] at hfind
        cases hfind
      · exact ⟨(cacheFind_some hfind).1, rfl⟩
  | shares hfind _ =>
      refine h.kept (fun i ld' path' heq hload => ?_) (by rw [hfind])
        (kept_set fun hused => ⟨hused, rfl⟩)
      rw [(hop i ld' path' heq hload).1] at hfind
      cases hfind
  | full hfind _ =>
      refine h.kept (fun i ld' path' heq hload => ?_) (by rw [hfind]) fun i hi => ⟨hi, rfl⟩
      cases (hop i ld' path' heq hload).2
  | fails hfind _ _ _ =>
      refine h.kept (fun i ld' path' heq hload => ?_) (by rw [hfind]) (kept_set fun hused => ?_)
      · cases (hop i ld' path' heq hload).2
      · exact absurd (CacheEntry.claimed_state _) hused
  | @loads i elf index hfind _ hload =>
      intro j hj
      rw [hfind]
      dsimp only at hj ⊢
      by_cases hji : j = i
      · rw [hji, Function.update_self, ModuleCache.set_entries_self]
        refine ⟨ops, ld, [], rfl, hloads i rfl hfind, hload, fun mid ld' path' rest hpost => ?_⟩
        cases mid <;> cases hpost
      · rw [ModuleCache.set_entries_of_ne _ hji] at hj ⊢
        rw [Function.update_of_ne hji]
        refine (h j hj).later fun ld' path' heq hload' => hji ?_
        exact (Option.some.inj (hop j ld' path' heq hload').2).symm

/-- A release loads nothing. -/
lemma Loaded.release {ops : List CacheOp} (h : Loaded ops (.after ops)) (i : Slot) :
    Loaded (ops ++ [.release i]) ((CacheRun.after ops).next (.release i)) := by
  obtain ⟨s, hs⟩ : ∃ s, s = CacheRun.after ops := ⟨_, rfl⟩
  rw [← hs] at h ⊢
  have hr := moduleCacheRelease_outcome s.cache i
  have hop : ∀ j ld path, CacheOp.release i = .acquire ld path →
      ¬ LoadsInto (.after ops) ld path j := fun _ _ _ heq => CacheOp.noConfusion heq
  rw [CacheRun.next]
  dsimp only [CacheRun.turn]
  generalize moduleCacheRelease s.cache i = r at hr ⊢
  cases hr with
  | refused _ =>
      rw [if_neg fun h => Status.noConfusion h]
      exact h.kept hop rfl fun j hj => ⟨hj, rfl⟩
  | last hused _ =>
      rw [if_pos rfl]
      exact h.kept hop rfl (kept_set (c := s.cache) fun _ => ⟨hused, rfl⟩)
  | drops hused _ _ =>
      rw [if_pos rfl]
      exact h.kept hop rfl (kept_set fun _ => ⟨hused, rfl⟩)

/-- Every operation keeps this. -/
lemma Loaded.next {ops : List CacheOp} (h : Loaded ops (.after ops)) (op : CacheOp) :
    Loaded (ops ++ [op]) ((CacheRun.after ops).next op) := by
  cases op with
  | acquire ld path => exact h.acquire ld path
  | release i => exact h.release i
  | flush =>
      intro i hi
      exact absurd ((CacheRun.after ops).cache.entries i).claimed_state hi

lemma loaded_after (ops : List CacheOp) : Loaded ops (.after ops) := by
  induction ops using List.reverseRecOn with
  | nil => exact fun _ hi => absurd rfl hi
  | append_singleton ops op ih =>
      rw [CacheRun.after_append_singleton]
      exact ih.next op

lemma shortReach_after {ops : List CacheOp} (hops : ∀ op ∈ ops, op.ShortPath) :
    ShortReach (.after ops) := by
  induction ops using List.reverseRecOn with
  | nil => exact .start
  | append_singleton ops op ih =>
      rw [CacheRun.after_append_singleton]
      exact .step op (ih fun o ho => hops o (List.mem_append_left [op] ho))
        (hops op (List.mem_append_right ops List.mem_cons_self))

/-- What an acquire of a short path returns is the slot of this path. -/
lemma KeyInv.source_acquired {s : CacheRun} (hkeys : KeyInv s.cache s.source)
    (hpaths : PathInv s.cache) (ld : Loader) (path : CString) {i : Slot}
    (hslot : (moduleCacheAcquire ld s.cache path).2.2 = some i) :
    (s.next (.acquire ld path)).source i = path ∧
      ((s.next (.acquire ld path)).cache.entries i).state ≠ .unused := by
  have hr := moduleCacheAcquire_outcome ld s.cache path
  rw [CacheRun.next]
  dsimp only [CacheRun.turn]
  generalize moduleCacheAcquire ld s.cache path = r at hr hslot ⊢
  cases hr with
  | reuses hfind _ =>
      cases hslot
      rw [hfind, ModuleCache.set_entries_self]
      exact ⟨hkeys.source_found hpaths hfind, SlotState.noConfusion⟩
  | shares hfind _ =>
      cases hslot
      rw [hfind, ModuleCache.set_entries_self]
      exact ⟨hkeys.source_found hpaths hfind, (cacheFind_some hfind).1⟩
  | full _ _ => cases hslot
  | fails _ _ _ _ => cases hslot
  | loads hfind _ _ =>
      cases hslot
      rw [hfind, ModuleCache.set_entries_self]
      exact ⟨Function.update_self i path s.source, SlotState.noConfusion⟩

/-- After every sequence of operations on short paths: the handle that an acquire returns is what
the load of exactly its path returned when it was made; no two entries were loaded from the same
path; and an acquire of the path that an entry was loaded from returns the handle of that entry
as it is, whatever a load would come to. -/
theorem keys_faithful {ops : List CacheOp} (hops : ∀ op ∈ ops, op.ShortPath) :
    (∀ ld path i, (moduleCacheAcquire ld (CacheRun.after ops).cache path).2.2 = some i →
      LoadedFrom (ops ++ [.acquire ld path]) i path
        ((moduleCacheAcquire ld (CacheRun.after ops).cache path).2.1.entries i).handle) ∧
    ∃ source : Slot → CString,
      (∀ i, ((CacheRun.after ops).cache.entries i).state ≠ .unused →
        LoadedFrom ops i (source i) ((CacheRun.after ops).cache.entries i).handle) ∧
      (∀ i j, ((CacheRun.after ops).cache.entries i).state ≠ .unused →
        ((CacheRun.after ops).cache.entries j).state ≠ .unused → source i = source j → i = j) ∧
      (∀ ld i, ((CacheRun.after ops).cache.entries i).state ≠ .unused →
        (moduleCacheAcquire ld (CacheRun.after ops).cache (source i)).1 = .ok ∧
        (moduleCacheAcquire ld (CacheRun.after ops).cache (source i)).2.2 = some i ∧
        ((moduleCacheAcquire ld (CacheRun.after ops).cache (source i)).2.1.entries i).handle =
          ((CacheRun.after ops).cache.entries i).handle ∧
        ∀ ld', moduleCacheAcquire ld' (CacheRun.after ops).cache (source i) =
          moduleCacheAcquire ld (CacheRun.after ops).cache (source i)) := by
  obtain ⟨hpaths, hkeys⟩ := (shortReach_after hops).keyInv
  refine ⟨fun ld path i hslot => ?_, (CacheRun.after ops).source, loaded_after ops, hkeys.inj,
    fun ld i hi => ?_⟩
  · obtain ⟨hsource, hused⟩ := hkeys.source_acquired hpaths ld path hslot
    have hloaded := (loaded_after ops).next (.acquire ld path) i hused
    rw [hsource] at hloaded
    exact hloaded
  · -- the entry is the one that the lookup finds
    have hfind : cacheFind (CacheRun.after ops).cache ((CacheRun.after ops).source i) = some i := by
      cases hfind : cacheFind (CacheRun.after ops).cache ((CacheRun.after ops).source i) with
      | none => exact absurd rfl (hkeys.source_ne hfind i hi)
      | some j =>
          rw [hkeys.inj j i (cacheFind_some hfind).1 hi (hkeys.source_found hpaths hfind)]
    obtain ⟨hok, hslot, hhandle⟩ := moduleCacheAcquire_found ld hfind
    refine ⟨hok, hslot, hhandle, fun ld' => ?_⟩
    rw [moduleCacheAcquire, hfind, moduleCacheAcquire, hfind]

/-- A module is loaded, let go and acquired again: the handle is that of the first load. -/
theorem keys_faithful_again :
    LoadedFrom [.acquire openingLoader [47], .release 0, .acquire failingLoader [47]] 0 [47]
      ((moduleCacheAcquire failingLoader
        (CacheRun.after [.acquire openingLoader [47], .release 0]).cache
        [47]).2.1.entries 0).handle := by
  have hops : ∀ op ∈ [.acquire openingLoader [47], .release 0], CacheOp.ShortPath op := by
    simp only [List.mem_cons, List.not_mem_nil, or_false, forall_eq_or_imp, forall_eq]
    exact ⟨by decide +kernel, trivial⟩
  exact (keys_faithful hops).1 failingLoader [47] 0 (by decide +kernel)

/-- A path of `257 + n` bytes. -/
def deepPath (n : ℕ) : CString := 47 :: List.replicate 255 97 ++ 47 :: List.replicate n 98

/-- A path of 512 bytes and its prefix of 511 bytes share an entry: after the longer one was
acquired, the other one is handed its module, which no load of the prefix gave. -/
theorem truncated_key :
    (moduleCacheAcquire openingLoader
        (CacheRun.after [.acquire openingLoader (deepPath 255)]).cache (deepPath 254)).1 = .ok ∧
      (moduleCacheAcquire openingLoader
        (CacheRun.after [.acquire openingLoader (deepPath 255)]).cache (deepPath 254)).2.2 =
          some 0 ∧
      ((moduleCacheAcquire openingLoader
        (CacheRun.after [.acquire openingLoader (deepPath 255)]).cache
          (deepPath 254)).2.1.entries 0).handle.elf.path = deepPath 255 ∧
      ¬ LoadedFrom [.acquire openingLoader (deepPath 255), .acquire openingLoader (deepPath 254)] 0
        (deepPath 254) ((moduleCacheAcquire openingLoader
          (CacheRun.after [.acquire openingLoader (deepPath 255)]).cache
            (deepPath 254)).2.1.entries 0).handle := by
  have hfound : (cacheFind (CacheRun.after [.acquire openingLoader (deepPath 255)]).cache
      (deepPath 254)).isSome := by
    decide +kernel
  refine ⟨by decide +kernel, by decide +kernel, by decide +kernel, ?_⟩
  rintro ⟨pre, ld, post, hops, ⟨hfind, -⟩, -⟩
  rcases pre with _ | ⟨op, _ | ⟨op', pre⟩⟩
  · -- the first operation asks for another path
    have hop := (List.cons.inj hops).1
    have hpath : deepPath 255 = deepPath 254 := (CacheOp.acquire.inj hop).2
    exact absurd hpath (by decide +kernel)
  · obtain ⟨rfl, -⟩ := List.cons.inj hops
    rw [hfind] at hfound
    cases hfound
  · have hlen := congrArg List.length hops
    simp at hlen

end Dwunw
