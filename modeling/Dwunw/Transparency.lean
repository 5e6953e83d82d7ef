import Dwunw.CacheInv
import Dwunw.CaptureSim
import Dwunw.Lib.Runs

/-!
The module cache does not show in captures.

Files do not change: opening a file and building its index is a fixed function of the path.
Then an entry of the cache is what a load of its path comes to, whatever the history, and a
capture cannot tell a module it finds from one it loads.

* `ContextRun`, `ContextReach`: a context and what captures, acquires, releases and flushes
  make of it.
* `LoadedInv`: every entry in use is what a load of its path comes to.
* `acquired_or_full`: an acquire comes out as the load does, or every slot is active.
* `capture_transparent`: a capture comes out as on a context that was just initialised, or
  there is no room.
-/

namespace Dwunw

open Runs

/-! ### Histories of a context -/

/-- What is done with a context. -/
inductive ContextOp where
  | capture (k : Kernel) (req : UnwindRequest)
  | acquire (path : CString)
  | release (i : Slot)
  | flush

/-- A context, and the system calls so far. -/
structure ContextRun where
  ctx : Context
  calls : List SysCall

/-- An operation on the module cache of a context. -/
def ContextRun.withCache (s : ContextRun) (c : ModuleCache) : ContextRun :=
  { s with ctx := { s.ctx with moduleCache := c } }

/-- An operation on a context. -/
def ContextRun.next (m : ByteMem) (ld : Loader) (s : ContextRun) : ContextOp → ContextRun
  | .capture k req =>
      match capture m ld k s.ctx req s.calls with
      | some res => ⟨res.ctx, res.calls⟩
      | none => s
  | .acquire path => s.withCache (moduleCacheAcquire ld s.ctx.moduleCache path).2.1
  | .release i => s.withCache (moduleCacheRelease s.ctx.moduleCache i).2
  | .flush => s.withCache (moduleCacheFlush s.ctx.moduleCache)

/-- The module path of a request, if it has one, fits the buffer of an entry. -/
def UnwindRequest.ShortPath (req : UnwindRequest) : Prop :=
  ∀ path, req.modulePath = some path → path.length < maxPathLen

/-- Paths fit their buffers, and captures are not undefined. -/
def ContextRun.May (m : ByteMem) (ld : Loader) (s : ContextRun) : ContextOp → Prop
  | .capture k req => req.ShortPath ∧ (capture m ld k s.ctx req s.calls).isSome
  | .acquire path => path.length < maxPathLen
  | .release _ => True
  | .flush => True

/-- The states that histories of a context come to, from `dwunw_init` on. -/
abbrev ContextReach (m : ByteMem) (ld : Loader) (calls : List SysCall) : ContextRun → Prop :=
  Reach (ContextRun.next m ld) (ContextRun.May m ld) ⟨dwunwInit, calls⟩

/-! ### What the entries hold -/

/-- Every entry in use is what a load of its path comes to. -/
def LoadedInv (ld : Loader) (c : ModuleCache) : Prop :=
  ∀ i, (c.entries i).state ≠ .unused →
    ld.load (c.entries i).path = .ok ((c.entries i).handle.elf, (c.entries i).handle.index)

namespace LoadedInv

variable {ld : Loader} {c : ModuleCache} {i : Slot}

lemma init : LoadedInv ld moduleCacheInit := fun _ h => absurd rfl h

lemma set {e : CacheEntry} (h : LoadedInv ld c)
    (he : e.state ≠ .unused → ld.load e.path = .ok (e.handle.elf, e.handle.index)) :
    LoadedInv ld (c.set i e) := by
  intro j hj
  by_cases hji : j = i
  · rw [hji, ModuleCache.set_entries_self] at hj ⊢
    exact he hj
  · rw [ModuleCache.set_entries_of_ne _ hji] at hj ⊢
    exact h j hj

/-- An acquire keeps it. -/
theorem acquire {path : CString} {r : Status × ModuleCache × Option Slot} (h : LoadedInv ld c)
    (hshort : path.length < maxPathLen) (hr : AcquireOutcome ld c path r) :
    LoadedInv ld r.2.1 := by
  cases hr with
  | @reuses i hfind _ => exact h.set fun _ => h i (cacheFind_some hfind).1
  | @shares i hfind _ => exact h.set fun _ => h i (cacheFind_some hfind).1
  | full _ _ => exact h
  | fails _ _ _ _ => exact h.set fun hused => absurd (CacheEntry.claimed_state _) hused
  | loads _ _ hload =>
      refine h.set fun _ => ?_
      rw [CacheEntry.loaded, List.take_of_length_le (Nat.le_sub_one_of_lt hshort), hload]

/-- A release keeps it. -/
theorem release {r : Status × ModuleCache} (h : LoadedInv ld c) (hr : ReleaseOutcome c i r) :
    LoadedInv ld r.2 := by
  cases hr with
  | refused _ => exact h
  | last hused _ =>
      intro j hj
      exact (h.set (i := i) (e := (c.entries i).warmed (c.warmClock + 1)) fun _ => h i hused) j hj
  | drops hused _ _ => exact h.set fun _ => h i hused

lemma flush : LoadedInv ld (moduleCacheFlush c) := fun i hused =>
  absurd (c.entries i).claimed_state hused

end LoadedInv

/-- An acquire that came out as a load did: with the same failure, or with a slot that holds
the same index. -/
inductive ComesOutAs : Except Status (ElfHandle × DwarfIndex) →
    Status × ModuleCache × Option Slot → Prop
  | error {st : Status} {c : ModuleCache} : ComesOutAs (.error st) (st, c, none)
  | ok {elf : ElfHandle} {index : DwarfIndex} {c : ModuleCache} {i : Slot}
      (h : (c.entries i).handle.index = index) : ComesOutAs (.ok (elf, index)) (.ok, c, some i)

/-- An acquire comes out as the load of its path does, or every slot is active. -/
theorem acquired_or_full {ld : Loader} {c : ModuleCache} (hloaded : LoadedInv ld c)
    (hpaths : PathInv c) (path : CString) :
    ComesOutAs (ld.load path) (moduleCacheAcquire ld c path) ∨
      (∀ i, (c.entries i).state = .active) ∧
        moduleCacheAcquire ld c path = (.cacheFull, c, none) := by
  have hfound {i : Slot} (hfind : cacheFind c path = some i) :
      ld.load path = .ok ((c.entries i).handle.elf, (c.entries i).handle.index) := by
    have hm := cacheFind_some hfind
    rw [← hpaths.path_of_matches hm]
    exact hloaded i hm.1
  have hr := moduleCacheAcquire_outcome ld c path
  generalize moduleCacheAcquire ld c path = r at hr ⊢
  cases hr with
  | reuses hfind _ =>
      rw [hfound hfind]
      exact .inl (.ok (by rw [ModuleCache.set_entries_self]; rfl))
  | shares hfind _ =>
      rw [hfound hfind]
      exact .inl (.ok (by rw [ModuleCache.set_entries_self]; rfl))
  | full _ hall => exact .inr ⟨hall, rfl⟩
  | fails _ _ hload _ =>
      rw [hload]
      exact .inl .error
  | loads _ _ hload =>
      rw [hload]
      exact .inl (.ok (by rw [ModuleCache.set_entries_self]; rfl))

/-! ### The invariant of a history -/

/-- What holds of a context in every state of a history. -/
structure ContextRun.Sound (ld : Loader) (s : ContextRun) : Prop where
  cacheReady : s.ctx.moduleCacheReady = true
  readerReady : s.ctx.stackReaderReady = true
  paths : PathInv s.ctx.moduleCache
  loaded : LoadedInv ld s.ctx.moduleCache

lemma ContextRun.Sound.withCache {ld : Loader} {s : ContextRun} (h : s.Sound ld)
    {c : ModuleCache} (hpaths : PathInv c) (hloaded : LoadedInv ld c) :
    (s.withCache c).Sound ld :=
  ⟨h.cacheReady, h.readerReady, hpaths, hloaded⟩

/-- Every step keeps it. -/
theorem ContextRun.Sound.next {m : ByteMem} {ld : Loader} {s : ContextRun} (h : s.Sound ld)
    {op : ContextOp} (hmay : s.May m ld op) : (s.next m ld op).Sound ld := by
  cases op with
  | capture k req =>
      obtain ⟨hshort, hdefined⟩ := hmay
      obtain ⟨res, hres⟩ := Option.isSome_iff_exists.mp hdefined
      show ContextRun.Sound ld (match capture m ld k s.ctx req s.calls with
        | some res => ⟨res.ctx, res.calls⟩
        | none => s)
      rw [hres]
      cases capture_outcome hres with
      | refused _ => exact ⟨h.cacheReady, h.readerReady, h.paths, h.loaded⟩
      | @unloaded path _ _ st cache hgood hacquire =>
          have hr := moduleCacheAcquire_outcome ld s.ctx.moduleCache path
          have hpaths := h.paths.acquire hr
          have hloaded := h.loaded.acquire (hshort path hgood.modulePath) hr
          rw [hacquire] at hpaths hloaded
          exact ⟨h.cacheReady, h.readerReady, hpaths, hloaded⟩
      | @loaded path _ _ st cache slot x hgood hacquire _ =>
          have hr := moduleCacheAcquire_outcome ld s.ctx.moduleCache path
          have hpaths := h.paths.acquire hr
          have hloaded := h.loaded.acquire (hshort path hgood.modulePath) hr
          rw [hacquire] at hpaths hloaded
          have hrelease := moduleCacheRelease_outcome cache slot
          exact ⟨h.cacheReady, h.readerReady, hpaths.release hrelease, hloaded.release hrelease⟩
  | acquire path =>
      have hr := moduleCacheAcquire_outcome ld s.ctx.moduleCache path
      exact h.withCache (h.paths.acquire hr) (h.loaded.acquire hmay hr)
  | release i =>
      have hr := moduleCacheRelease_outcome s.ctx.moduleCache i
      exact h.withCache (h.paths.release hr) (h.loaded.release hr)
  | flush => exact h.withCache h.paths.flush .flush

/-- So in every state that the histories of a context come to. -/
theorem ContextReach.sound {m : ByteMem} {ld : Loader} {calls : List SysCall} {s : ContextRun}
    (h : ContextReach m ld calls s) : s.Sound ld :=
  h.invariant (I := ContextRun.Sound ld) ⟨rfl, rfl, .init, .init⟩
    fun _ _ _ hs hmay => hs.next hmay

/-! ### Transparency -/

/-- What the caller sees of a capture: the status, `*frames_written` and the frame buffer. -/
def CaptureResult.observed (res : CaptureResult) : Status × ℕ × (ℕ → Frame) :=
  (res.status, res.framesWritten, res.frames)

/-- What the caller sees of a capture whose attach came out as `st`, from what is seen of its
frames. -/
def afterAttach (st : Status) (x : Status × ℕ × (ℕ → Frame)) : Status × ℕ × (ℕ → Frame) :=
  (if x.1 = .ok ∧ st ≠ .ok then st else x.1, x.2)

section Capture

variable {m : ByteMem} {ld : Loader} {k : Kernel} {ctx : Context} {req : UnwindRequest}
  {calls : List SysCall} {st : Status} {f : UInt64 → Except Status UInt64} {path : CString}
  {regs : Regset} {frames : ℕ → Frame}

/-- A capture of a module that was acquired, on a kernel whose reads are a function of the
address. -/
lemma capture_observed (hk : FixedReader k req.pid req.tid calls st f)
    (h : Accepted ctx req path regs frames) {st₀ : Status} {cache : ModuleCache} {slot : Slot}
    (hacquire : moduleCacheAcquire ld ctx.moduleCache path = (st₀, cache, some slot)) :
    (capture m ld k ctx req calls).map CaptureResult.observed =
      ((captureFrames m (cache.entries slot).handle.index
        (readerStep (functionReader f) ctx req st) path regs frames req.maxFrames ()).map
          seenFrames).map (afterAttach (if WantsReader ctx req then st else .ok)) := by
  have hatt : (attachStep k ctx req calls).1 = if WantsReader ctx req then st else .ok := by
    by_cases hwants : WantsReader ctx req
    · rw [if_pos hwants, (hk.attachStep_eq hwants).2]
    · rw [attachStep, if_neg hwants, if_neg hwants]
  rw [capture_loaded h hacquire, ← captureFrames_fixed hk, ← hatt, Option.map_map,
    Option.map_map]
  rfl

end Capture

/-- Whatever was done with a context before, a capture on it comes out as on a context that
was just initialised, provided files do not change and both attaches and the reads come out
the same; or every slot is active, and it fails for want of room. -/
theorem capture_transparent {m : ByteMem} {ld : Loader} {calls₀ : List SysCall}
    {s : ContextRun} (h : ContextReach m ld calls₀ s) {req : UnwindRequest} {k k' : Kernel}
    {calls' : List SysCall} {st : Status} {f : UInt64 → Except Status UInt64}
    (hk : FixedReader k req.pid req.tid s.calls st f)
    (hk' : FixedReader k' req.pid req.tid calls' st f) :
    (capture m ld k s.ctx req s.calls).map CaptureResult.observed =
        (capture m ld k' dwunwInit req calls').map CaptureResult.observed ∨
      (∀ i, (s.ctx.moduleCache.entries i).state = .active) ∧
        ∃ res, capture m ld k s.ctx req s.calls = some res ∧ res.status = .cacheFull ∧
          res.framesWritten = 0 ∧ req.frames = some res.frames := by
  have hs := h.sound
  have hwants : WantsReader s.ctx req ↔ WantsReader dwunwInit req := by
    rw [WantsReader, WantsReader, hs.readerReady]
    rfl
  by_cases hgood : ∃ path regs frames, Accepted dwunwInit req path regs frames
  swap
  · -- the request is refused by both
    have hbad : ∀ path regs frames, ¬ Accepted dwunwInit req path regs frames :=
      fun path regs frames h => hgood ⟨path, regs, frames, h⟩
    have hbad' : ∀ path regs frames, ¬ Accepted s.ctx req path regs frames :=
      fun path regs frames h =>
        hbad path regs frames ⟨h.modulePath, h.regs, h.frames, h.maxFrames, rfl⟩
    rw [capture_refused m ld k s.calls hbad', capture_refused m ld k' calls' hbad]
    exact .inl rfl
  obtain ⟨path, regs, frames, hfresh⟩ := hgood
  have hgood : Accepted s.ctx req path regs frames :=
    ⟨hfresh.modulePath, hfresh.regs, hfresh.frames, hfresh.maxFrames, hs.cacheReady⟩
  have hinit : ComesOutAs (ld.load path) (moduleCacheAcquire ld dwunwInit.moduleCache path) := by
    refine (acquired_or_full .init .init path).resolve_right fun hfull => ?_
    exact absurd (hfull.1 0) (by decide)
  rcases acquired_or_full hs.loaded hs.paths path with hsame | ⟨hall, hfull⟩
  · refine .inl ?_
    rcases hold : moduleCacheAcquire ld s.ctx.moduleCache path with ⟨st₁, cache, slot⟩
    rcases hnew : moduleCacheAcquire ld dwunwInit.moduleCache path with ⟨st₂, cache', slot'⟩
    rw [hold] at hsame
    rw [hnew] at hinit
    generalize ld.load path = x at hsame hinit
    cases hsame with
    | error =>
        cases hinit
        rw [capture_unloaded hgood hold, capture_unloaded hfresh hnew]
        rfl
    | ok hindex =>
        cases hinit with
        | ok hindex' =>
            have hreader : readerStep (functionReader f) s.ctx req st =
                readerStep (functionReader f) dwunwInit req st :=
              if_congr (and_congr_left' hwants) rfl rfl
            have hstatus : (if WantsReader s.ctx req then st else .ok) =
                if WantsReader dwunwInit req then st else .ok := if_congr hwants rfl rfl
            rw [capture_observed hk hgood hold, capture_observed hk' hfresh hnew, hindex, hindex',
              hreader, hstatus]
  · exact .inr ⟨hall, _, capture_unloaded hgood hfull, rfl, rfl, hgood.frames⟩

/-! ### Two captures of one stack -/

/-- The state after one capture. -/
def nestedRun : ContextRun :=
  ContextRun.next nestedMem nestedLoader ⟨dwunwInit, []⟩ (.capture nestedKernel (nestedRequest 3))

lemma nestedRun_reach : ContextReach nestedMem nestedLoader [] nestedRun := by
  have hshort : (nestedRequest 3).ShortPath := by
    rintro path ⟨⟩
    decide
  exact .step (ContextOp.capture nestedKernel (nestedRequest 3)) .start
    ⟨hshort, by decide +kernel⟩

/-- The second capture finds the module warm, and comes out as the first one. -/
theorem capture_transparent_warm :
    (capture nestedMem nestedLoader nestedKernel nestedRun.ctx (nestedRequest 3)
        nestedRun.calls).map CaptureResult.observed =
      (capture nestedMem nestedLoader nestedKernel dwunwInit (nestedRequest 3) []).map
        CaptureResult.observed :=
  (capture_transparent nestedRun_reach (nestedKernel_fixed _) (nestedKernel_fixed _)).resolve_right
    fun h => absurd (h.1 1) (by decide +kernel)

end Dwunw
