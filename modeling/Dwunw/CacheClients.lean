import Dwunw.CacheHistory

/-!
Clients that share a module cache.

Any number of clients acquire modules and release the handles they hold, in any order; the
references that are out are listed with who holds them.

* `ClientReach`: the states the clients come to.
* `refInv`: the reference counts of the code are those of the list.
* `ClientRun.next_kept`: no step touches the module of a handle that stays held.
* `held_handle_alive`: the counts are right, every release of a held handle succeeds, and the
  module behind a handle stays in place for as long as anybody holds it.
-/

namespace Dwunw

open Runs

/-- What a client does. -/
inductive ClientOp (Client : Type) where
  | acquire (a : Client) (ld : Loader) (path : CString)
  | release (a : Client) (i : Slot)

/-- A cache and the references that are out, each with the client that holds it. -/
structure ClientRun (Client : Type) where
  cache : ModuleCache
  held : List (Client × Slot)

variable {Client : Type}

/-- Nobody holds anything yet. -/
def ClientRun.init : ClientRun Client := ⟨moduleCacheInit, []⟩

/-- How many references to the handle of a slot are out. -/
def ClientRun.holders (s : ClientRun Client) (i : Slot) : ℕ :=
  s.held.countP fun p => p.2 = i

variable [DecidableEq Client]

/-- A client acquires a module, and holds its handle if it gets one, or releases a handle. -/
def ClientRun.next (s : ClientRun Client) : ClientOp Client → ClientRun Client
  | .acquire a ld path =>
      let r := moduleCacheAcquire ld s.cache path
      ⟨r.2.1, (r.2.2.map fun i => (a, i)).toList ++ s.held⟩
  | .release a i => ⟨(moduleCacheRelease s.cache i).2, s.held.erase (a, i)⟩

/-- A client releases only what it holds, and no handle is held more often than a `uint32_t`
counts. -/
def ClientRun.May (s : ClientRun Client) (op : ClientOp Client) : Prop :=
  (match op with
    | .acquire _ _ _ => True
    | .release a i => (a, i) ∈ s.held) ∧
  ∀ i, (s.next op).holders i < 2 ^ 32

instance (s : ClientRun Client) (op : ClientOp Client) : Decidable (s.May op) :=
  match op with
  | .acquire _ _ _ => inferInstanceAs (Decidable (True ∧ _))
  | .release a i => inferInstanceAs (Decidable ((a, i) ∈ s.held ∧ _))

/-- The states the clients come to. -/
abbrev ClientReach : ClientRun Client → Prop := Reach ClientRun.next ClientRun.May .init

/-- The clients come from `s` to `t` and somebody holds the handle of the slot all along. -/
abbrev ClientRun.StaysHeld (i : Slot) : ClientRun Client → ClientRun Client → Prop :=
  Reach ClientRun.next fun s op => s.May op ∧ 0 < (s.next op).holders i

/-! ### Counting holders -/

lemma ClientRun.holders_acquire (s : ClientRun Client) (a : Client) (ld : Loader)
    (path : CString) : (s.next (.acquire a ld path)).holders =
      addRef s.holders (moduleCacheAcquire ld s.cache path).2.2 := by
  funext j
  rw [next, holders]
  cases (moduleCacheAcquire ld s.cache path).2.2 with
  | none => rfl
  | some i =>
      show ((a, i) :: s.held).countP _ = _
      by_cases hj : j = i
      · simp [addRef, hj, holders]
      · simp [addRef, hj, Ne.symm hj, holders]

lemma ClientRun.holders_release (s : ClientRun Client) {a : Client} {i : Slot}
    (h : (a, i) ∈ s.held) : (s.next (.release a i)).holders =
      Function.update s.holders i (s.holders i - 1) := by
  funext j
  rw [next, holders, List.countP_erase]
  by_cases hj : j = i
  · simp [hj, h, holders]
  · simp [hj, Ne.symm hj, holders]

omit [DecidableEq Client] in
lemma ClientRun.holders_pos {s : ClientRun Client} {a : Client} {i : Slot}
    (h : (a, i) ∈ s.held) : 0 < s.holders i :=
  List.countP_pos_iff.mpr ⟨_, h, by simp⟩

/-! ### One step -/

/-- The counts are right in every state the clients come to. -/
theorem ClientReach.refInv {s : ClientRun Client} (h : ClientReach s) :
    RefInv s.cache s.holders := by
  refine h.invariant (I := fun s => RefInv s.cache s.holders) .init fun s op _ hs hmay => ?_
  obtain ⟨hmay, hbound⟩ := hmay
  cases op with
  | acquire a ld path =>
      rw [s.holders_acquire] at hbound ⊢
      exact hs.acquire (moduleCacheAcquire_outcome ld s.cache path) hbound
  | release a i =>
      have hrelease := hs.release (moduleCacheRelease_outcome s.cache i)
      rw [if_pos (hs.release_ok (ClientRun.holders_pos hmay))] at hrelease
      rwa [s.holders_release hmay]

/-- The module of an active entry is still in place. -/
structure CacheEntry.Kept (e e' : CacheEntry) : Prop where
  active : e'.state = .active
  path : e'.path = e.path
  handle : e'.handle = e.handle

/-- A step that leaves somebody holding a handle leaves its module in place. -/
theorem ClientRun.next_kept {s : ClientRun Client} (h : RefInv s.cache s.holders) {i : Slot}
    (hi : 0 < s.holders i) {op : ClientOp Client} (hmay : s.May op)
    (hheld : 0 < (s.next op).holders i) :
    (s.cache.entries i).Kept ((s.next op).cache.entries i) := by
  have hactive := (h.active_iff i).mpr hi
  have hsame : (s.cache.entries i).Kept (s.cache.entries i) := ⟨hactive, rfl, rfl⟩
  have hother {j : Slot} (hji : i ≠ j) (e : CacheEntry) :
      (s.cache.entries i).Kept ((s.cache.set j e).entries i) := by
    rwa [ModuleCache.set_entries_of_ne _ hji]
  cases op with
  | acquire a ld path =>
      have hr := moduleCacheAcquire_outcome ld s.cache path
      show (s.cache.entries i).Kept ((moduleCacheAcquire ld s.cache path).2.1.entries i)
      generalize moduleCacheAcquire ld s.cache path = r at hr ⊢
      cases hr with
      | @reuses j _ hwarm =>
          refine hother ?_ _
          rintro rfl
          rw [hactive] at hwarm
          cases hwarm
      | @shares j _ _ =>
          by_cases hji : i = j
          · rw [← hji, ModuleCache.set_entries_self]
            exact ⟨hactive, rfl, rfl⟩
          · exact hother hji _
      | full _ _ => exact hsame
      | fails _ hclaims _ _ => exact hother (by rintro rfl; exact hclaims.not_active hactive) _
      | loads _ hclaims _ => exact hother (by rintro rfl; exact hclaims.not_active hactive) _
  | release a j =>
      have hr := moduleCacheRelease_outcome s.cache j
      have hcnt := h.refcnt i
      rw [s.holders_release hmay.1] at hheld
      show (s.cache.entries i).Kept ((moduleCacheRelease s.cache j).2.entries i)
      generalize moduleCacheRelease s.cache j = r at hr ⊢
      by_cases hji : i = j
      · subst hji
        rw [Function.update_self] at hheld
        cases hr with
        | refused _ => exact hsame
        | last _ hone =>
            -- the last reference is not out any more
            rw [hone] at hcnt
            rw [← hcnt] at hheld
            exact absurd hheld (lt_irrefl 0)
        | drops _ _ _ =>
            rw [ModuleCache.set_entries_self]
            exact ⟨hactive, rfl, rfl⟩
      · cases hr with
        | refused _ => exact hsame
        | last _ _ => exact hother hji _
        | drops _ _ _ => exact hother hji _

/-! ### Handles stay alive -/

/-- In every state the clients come to the code counts the references that are out, whoever
holds a handle can release it, and as long as a handle stays held its entry is active and
keeps its path and its module, whatever the others acquire and release. -/
theorem held_handle_alive {s : ClientRun Client} (h : ClientReach s) :
    (∀ i, (s.cache.entries i).refcnt.toNat = s.holders i) ∧
    (∀ a i, (a, i) ∈ s.held → (moduleCacheRelease s.cache i).1 = .ok) ∧
    (∀ i t, 0 < s.holders i → ClientRun.StaysHeld i s t →
      (s.cache.entries i).Kept (t.cache.entries i)) := by
  have hs := h.refInv
  refine ⟨hs.refcnt, fun a i hi => hs.release_ok (ClientRun.holders_pos hi),
    fun i t hi hstays => ?_⟩
  -- the states on the way are states the clients come to, and somebody holds the handle
  have hinv : ClientReach t ∧ 0 < t.holders i ∧
      (s.cache.entries i).Kept (t.cache.entries i) := by
    refine hstays.invariant (I := fun t => ClientReach t ∧ 0 < t.holders i ∧
      (s.cache.entries i).Kept (t.cache.entries i))
      ⟨h, hi, (hs.active_iff i).mpr hi, rfl, rfl⟩ fun t op _ ht hmay => ?_
    obtain ⟨hreach, hheld, hkept⟩ := ht
    have hstep := ClientRun.next_kept hreach.refInv hheld hmay.1 hmay.2
    exact ⟨.step op hreach hmay.1, hmay.2, hstep.active, hstep.path.trans hkept.path,
      hstep.handle.trans hkept.handle⟩
  exact hinv.2.2

/-- Two clients that hold the same module. -/
def sharedRun : ClientRun Bool :=
  [.acquire true openingLoader [47], .acquire false openingLoader [47]].foldl ClientRun.next .init

/-- Two hold the module; what the first has stays as it is when the second releases it. -/
theorem held_handle_alive_shared :
    (sharedRun.cache.entries 0).Kept ((sharedRun.next (.release true 0)).cache.entries 0) :=
  (held_handle_alive (Reach.of_list (by decide +kernel))).2.2 0 _ (by decide +kernel)
    (.step (ClientOp.release true 0) .start (by decide +kernel))

end Dwunw
