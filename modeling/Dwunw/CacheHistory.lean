import Dwunw.CacheInv
import Dwunw.Lib.Runs

/-!
The module cache over whole histories.

A `CacheRun` is a cache together with what an observer notes of its history.  None of the
observations is in the code.

* `CacheReach`: the states that bounded histories come to; `CacheReach.sound` are the
  invariants that hold in them.
* `cache_invariant`: what the entries look like.
* `acquire_evicts`: which entry an acquire may evict, and when there is no room.
* `failed_acquire_frame`: what a failing acquire leaves as it was.
-/

namespace Dwunw

open Runs

/-- An operation on the cache. -/
inductive CacheOp where
  | acquire (ld : Loader) (path : CString)
  | release (i : Slot)
  | flush

/-- A cache and the observations of its history: the references to the handle of a slot that
are out, the releases that succeeded, the operations so far, the time a slot last turned
warm, and the path it was last loaded from. -/
structure CacheRun where
  cache : ModuleCache
  refs : Slot → ℕ
  releases : ℕ
  time : ℕ
  warmed : Slot → ℕ
  source : Slot → CString

/-- A cache that was just initialised. -/
def CacheRun.init : CacheRun := ⟨moduleCacheInit, fun _ => 0, 0, 0, fun _ => 0, fun _ => []⟩

/-- An operation leaves the cache `c` behind. -/
def CacheRun.turn (s : CacheRun) (c : ModuleCache) : CacheRun :=
  { s with
    cache := c
    time := s.time + 1
    warmed := noteWarmed s.cache c s.warmed (s.time + 1) }

/-- An operation and what is observed of it. -/
def CacheRun.next (s : CacheRun) : CacheOp → CacheRun
  | .acquire ld path =>
      let r := moduleCacheAcquire ld s.cache path
      { s.turn r.2.1 with
        refs := addRef s.refs r.2.2
        source :=
          match cacheFind s.cache path, r.2.2 with
          | none, some i => Function.update s.source i path
          | _, _ => s.source }
  | .release i =>
      let r := moduleCacheRelease s.cache i
      if r.1 = .ok then
        { s.turn r.2 with
          refs := Function.update s.refs i (s.refs i - 1)
          releases := s.releases + 1 }
      else s.turn r.2
  | .flush => { s.turn (moduleCacheFlush s.cache) with refs := fun _ => 0 }

/-- Fewer references to a handle than a `uint32_t` counts, fewer releases than a `uint64_t`
numbers. -/
def CacheRun.Bounded (s : CacheRun) : Prop := (∀ i, s.refs i < 2 ^ 32) ∧ s.releases < 2 ^ 64

instance (s : CacheRun) : Decidable s.Bounded := inferInstanceAs (Decidable (_ ∧ _))

/-- The states that bounded histories come to. -/
abbrev CacheReach : CacheRun → Prop :=
  Reach CacheRun.next (fun s op => (s.next op).Bounded) .init

/-! ### The invariants of a history -/

/-- The invariants of a cache and what is observed of it. -/
structure CacheRun.Sound (s : CacheRun) : Prop where
  refs : RefInv s.cache s.refs
  blank : BlankInv s.cache
  warm : WarmInv s.cache s.warmed s.time s.releases
  paths : PathInv s.cache

lemma CacheRun.Sound.init : CacheRun.init.Sound := ⟨.init, .init, .init, .init⟩

/-- A bounded operation keeps the invariants. -/
theorem CacheRun.Sound.next {s : CacheRun} (h : s.Sound) (op : CacheOp)
    (hb : (s.next op).Bounded) : (s.next op).Sound := by
  cases op with
  | acquire ld path =>
      have hr := moduleCacheAcquire_outcome ld s.cache path
      exact ⟨h.refs.acquire hr hb.1, h.blank.acquire hr, h.warm.acquire hr, h.paths.acquire hr⟩
  | release i =>
      have hr := moduleCacheRelease_outcome s.cache i
      have hrefs := h.refs.release hr
      have hactive : (s.cache.entries i).refcnt ≠ 0 → (s.cache.entries i).state = .active := by
        intro hne
        refine (h.refs.active_iff i).mpr (Nat.pos_of_ne_zero fun hzero => hne ?_)
        exact UInt32.toNat_inj.mp ((h.refs.refcnt i).trans hzero)
      rw [CacheRun.next] at hb ⊢
      have hblank := h.blank.release hr
      have hpaths := h.paths.release hr
      dsimp only at hb ⊢
      generalize moduleCacheRelease s.cache i = r at hr hrefs hb hblank hpaths ⊢
      cases hr with
      | refused _ =>
          rw [if_neg nofun] at hrefs ⊢
          exact ⟨hrefs, hblank, h.warm.idle, hpaths⟩
      | last _ hone =>
          rw [if_pos rfl] at hrefs hb ⊢
          exact ⟨hrefs, hblank, h.warm.last (hactive (by simp [hone])) hb.2 rfl, hpaths⟩
      | drops _ hne _ =>
          rw [if_pos rfl] at hrefs ⊢
          exact ⟨hrefs, hblank, h.warm.drops (hactive hne), hpaths⟩
  | flush =>
      refine ⟨h.refs.flush, ?_, .flush _ _ _ _, h.paths.flush⟩
      show BlankInv (moduleCacheFlush s.cache)
      rw [h.blank.flush]
      exact .init

/-- So in every state that the histories of a cache come to. -/
theorem CacheReach.sound {s : CacheRun} (h : CacheReach s) : s.Sound :=
  h.invariant .init fun _ op _ hs hb => hs.next op hb

/-! ### What the entries look like -/

/-- The representation invariant of a cache: what an entry of each state looks like, and that
a flush leaves the cache as it was initialised. -/
structure CacheInvariant (c : ModuleCache) : Prop where
  unused : ∀ i, (c.entries i).state = .unused →
    (c.entries i).refcnt = 0 ∧ (c.entries i).path = [] ∧ (c.entries i).warmSeq = 0 ∧
      (c.entries i).handle = .zero
  active : ∀ i, (c.entries i).state = .active →
    1 ≤ (c.entries i).refcnt ∧ (c.entries i).warmSeq = 0
  warm : ∀ i, (c.entries i).state = .warm →
    (c.entries i).refcnt = 0 ∧ 1 ≤ (c.entries i).warmSeq ∧ (c.entries i).warmSeq ≤ c.warmClock
  distinct : ∀ i j, (c.entries i).state = .warm → (c.entries j).state = .warm → i ≠ j →
    (c.entries i).warmSeq ≠ (c.entries j).warmSeq
  flush : moduleCacheFlush c = moduleCacheInit

/-- The representation invariant holds in every state that a bounded history comes to,
whatever the loads on the way came to. -/
theorem cache_invariant {s : CacheRun} (h : CacheReach s) : CacheInvariant s.cache := by
  have hs := h.sound
  refine ⟨fun i hi => ?_, fun i hi => ⟨?_, hs.warm.active i hi⟩, fun i hi => ⟨?_, ?_, ?_⟩,
    fun i j hi hj hne heq => hne ?_, hs.blank.flush⟩
  · rw [hs.blank.entries_eq_zero hi]
    exact ⟨rfl, rfl, rfl, rfl⟩
  · have hpos := (hs.refs.active_iff i).mp hi
    rw [← hs.refs.refcnt i] at hpos
    exact UInt32.le_iff_toNat_le.mpr hpos
  · exact UInt32.toNat_inj.mp ((hs.refs.refcnt i).trans (hs.refs.refs_eq_zero (by simp [hi])))
  · exact UInt64.le_iff_toNat_le.mpr (hs.warm.pos i hi)
  · exact UInt64.le_iff_toNat_le.mpr (hs.warm.le_clock i hi)
  · exact hs.warm.agree.injOn hi hj (congrArg UInt64.toNat heq)

/-- A loader for which every file opens and has an empty index. -/
def openingLoader : Loader := ⟨fun path => .ok { ElfHandle.zero with path }, fun _ => .ok .zero⟩

/-- A module that is acquired and released. -/
theorem cache_invariant_released : CacheInvariant
    ([.acquire openingLoader [47], .release 0].foldl CacheRun.next .init).cache :=
  cache_invariant (Reach.of_list (by decide +kernel))

/-! ### Evictions -/

/-- The warm slot that was let go first, by the history. -/
structure CacheRun.Oldest (s : CacheRun) (i : Slot) : Prop where
  warm : (s.cache.entries i).state = .warm
  earliest : ∀ j, (s.cache.entries j).state = .warm → j ≠ i → s.warmed i < s.warmed j

/-- A slot that is claimed though it is in use is the oldest warm one, and there was no unused
one. -/
lemma CacheRun.Sound.oldest {s : CacheRun} (h : s.Sound) {i : Slot} (hi : Claims s.cache i)
    (hused : (s.cache.entries i).state ≠ .unused) :
    (∀ j, (s.cache.entries j).state ≠ .unused) ∧ s.Oldest i := by
  obtain ⟨hall, hwarm, hle⟩ := hi.resolve_left hused
  exact ⟨hall, hwarm, fun j hj hne =>
    h.warm.agree.lt_of_le hwarm hj hne (UInt64.le_iff_toNat_le.mp (hle j hj))⟩

/-- An acquire of a module that is not resident touches an entry in use only if no slot is
unused, and then only the one of the warm module that was let go first; it fails for want of
room exactly when every slot is active, and then the cache is what it was. -/
theorem acquire_evicts {s : CacheRun} (h : CacheReach s) {ld : Loader} (hld : ld.Documented)
    {path : CString} (hpath : ¬ Resident s.cache path) :
    (∀ i, (s.cache.entries i).state ≠ .unused →
      (moduleCacheAcquire ld s.cache path).2.1.entries i ≠ s.cache.entries i →
      (∀ j, (s.cache.entries j).state ≠ .unused) ∧ s.Oldest i) ∧
    ((moduleCacheAcquire ld s.cache path).1 = .cacheFull ↔
      ∀ i, (s.cache.entries i).state = .active) ∧
    ((moduleCacheAcquire ld s.cache path).1 = .cacheFull →
      (moduleCacheAcquire ld s.cache path).2.1 = s.cache) := by
  have hs := h.sound
  have hnone := hs.paths.cacheFind_eq_none hpath
  have hset {i j : Slot} {e : CacheEntry} (hclaims : Claims s.cache i)
      (hused : (s.cache.entries j).state ≠ .unused)
      (hchanged : (s.cache.set i e).entries j ≠ s.cache.entries j) :
      (∀ j, (s.cache.entries j).state ≠ .unused) ∧ s.Oldest j := by
    by_cases hji : j = i
    · rw [hji] at hused ⊢
      exact hs.oldest hclaims hused
    · exact absurd (ModuleCache.set_entries_of_ne _ hji _) hchanged
  have hr := moduleCacheAcquire_outcome ld s.cache path
  generalize moduleCacheAcquire ld s.cache path = r at hr ⊢
  cases hr with
  | reuses hfind _ =>
      rw [hnone] at hfind
      cases hfind
  | shares hfind _ =>
      rw [hnone] at hfind
      cases hfind
  | full _ hall => exact ⟨fun i _ hne => absurd rfl hne, iff_of_true rfl hall, fun _ => rfl⟩
  | @fails i _ _ _ hclaims hload _ =>
      have hne := (hld.load_error hload).2
      exact ⟨fun j => hset hclaims,
        iff_of_false hne fun hall => hclaims.not_active (hall i), fun h => absurd h hne⟩
  | @loads i _ _ _ hclaims _ =>
      exact ⟨fun j => hset hclaims, iff_of_false nofun fun hall => hclaims.not_active (hall i),
        nofun⟩

/-- A history that leaves every slot warm: each module is loaded and let go before the
next. -/
def fillingOps : List CacheOp :=
  (List.finRange moduleCacheCapacity).flatMap fun i =>
    [.acquire openingLoader [UInt8.ofNat (65 + i.val)], .release i]

/-- The cache after it. -/
def filledRun : CacheRun := fillingOps.foldl CacheRun.next .init

lemma filledRun_reach : CacheReach filledRun := Reach.of_list (by decide +kernel)

/-- In a cache that is full the oldest warm entry goes. -/
theorem acquire_evicts_oldest :
    (∀ j, (filledRun.cache.entries j).state ≠ .unused) ∧ filledRun.Oldest 0 :=
  have hdocumented : openingLoader.Documented := ⟨fun _ _ => nofun, fun _ _ => nofun⟩
  have hpath : ¬ Resident filledRun.cache [97] := by decide +kernel
  (acquire_evicts filledRun_reach hdocumented hpath).1 0 (by decide +kernel)
    fun heq => absurd (congrArg CacheEntry.path heq) (by decide +kernel)

/-- What a failing acquire leaves: a cache with room, and one without any warm module, stays
as it was; from a cache whose slots are all in use the oldest warm module is gone, and
nothing else is different. -/
theorem failed_acquire_frame {s : CacheRun} (h : CacheReach s) {ld : Loader} {path : CString}
    (hfails : (moduleCacheAcquire ld s.cache path).1 ≠ .ok) :
    ((∃ i, (s.cache.entries i).state = .unused) ∨
        (∀ i, (s.cache.entries i).state = .active) →
      (moduleCacheAcquire ld s.cache path).2.1 = s.cache) ∧
    ((∀ i, (s.cache.entries i).state ≠ .unused) →
      (∃ i, (s.cache.entries i).state = .warm) →
      ∃ i, s.Oldest i ∧
        (moduleCacheAcquire ld s.cache path).2.1 = s.cache.set i .zero) := by
  have hs := h.sound
  have hr := moduleCacheAcquire_outcome ld s.cache path
  generalize moduleCacheAcquire ld s.cache path = r at hr hfails ⊢
  cases hr with
  | reuses _ _ => exact absurd rfl hfails
  | shares _ _ => exact absurd rfl hfails
  | loads _ _ _ => exact absurd rfl hfails
  | full _ hall =>
      refine ⟨fun _ => rfl, fun _ ⟨i, hi⟩ => ?_⟩
      rw [hall i] at hi
      cases hi
  | @fails i _ hd _ hclaims _ hzero =>
      rw [hs.blank.fails hzero]
      refine ⟨fun hroom => ?_, fun hused _ => ⟨i, (hs.oldest hclaims (hused i)).2, rfl⟩⟩
      rcases hclaims with hunused | ⟨hused, hwarm, -⟩
      · rw [← hs.blank.entries_eq_zero hunused, ModuleCache.set_eq_self]
      · rcases hroom with ⟨j, hj⟩ | hall
        · exact absurd hj (hused j)
        · rw [hall i] at hwarm
          cases hwarm

/-- A loader for which no file opens. -/
def failingLoader : Loader := ⟨fun _ => .error .io, fun _ => .error .io⟩

/-- When the file does not load, the oldest warm entry of a full cache is lost. -/
theorem failed_acquire_frame_filled :
    ∃ i, filledRun.Oldest i ∧
      (moduleCacheAcquire failingLoader filledRun.cache [97]).2.1 =
        filledRun.cache.set i .zero :=
  (failed_acquire_frame filledRun_reach
    (by decide +kernel)).2 (by decide +kernel) (by decide +kernel)

/-- An acquire that fails discards a warm module of a full cache. -/
theorem failed_acquire_discards :
    ∃ s, CacheReach s ∧ (moduleCacheAcquire failingLoader s.cache [97]).1 ≠ .ok ∧
      (s.cache.entries 0).state = .warm ∧
      ((moduleCacheAcquire failingLoader s.cache [97]).2.1.entries 0).state = .unused :=
  ⟨filledRun, filledRun_reach, by decide +kernel,
    by decide +kernel, by decide +kernel⟩

end Dwunw
