import Dwunw.Lib.BoundedMap
import Mathlib.Data.UInt

/-!
The maps of the leak tracer: `memleak.h`, `maps.bpf.h` and the map definitions of
`memleak_dwunw.bpf.c`, under `examples/memleak_bcc_dwunw`.

A hash map of the kernel is a bounded map.  An update fails at a new key of a full map, or,
where it may not replace, at a key that is there.

* `updateElem`, `updateIgnored`, `lookupOrTryInit`: the operations, with what they leave.
* `AllocInfo`, `CombinedAllocInfo`: the values; the combined one packs a size and a count into
  one word.
-/

namespace Dwunw.Memleak

/-- A map of type `BPF_MAP_TYPE_HASH`. -/
abbrev BpfHash := BoundedMap

/-- The flags of an update. -/
inductive UpdateFlags where
  | any
  | noExist
  deriving DecidableEq

/-- The errors of an update. -/
inductive MapError where
  | eexist
  | e2big
  deriving DecidableEq

section Operations

variable {κ ν : Type} {n : ℕ} [DecidableEq κ] {m m' : BpfHash κ ν n} {k k' : κ} {v : ν}

/-- `bpf_map_update_elem`. -/
def updateElem (m : BpfHash κ ν n) (k : κ) (v : ν) (flags : UpdateFlags) :
    Except MapError (BpfHash κ ν n) :=
  if flags = .noExist ∧ (m.lookup k).isSome then .error .eexist
  else
    match m.put k v with
    | none => .error .e2big
    | some m' => .ok m'

/-- `bpf_map_update_elem` with `BPF_ANY`, its result ignored. -/
def updateIgnored (m : BpfHash κ ν n) (k : κ) (v : ν) : BpfHash κ ν n :=
  match updateElem m k v .any with
  | .error _ => m
  | .ok m' => m'

/-- `bpf_map_lookup_or_try_init`: what the lookup finds, and the map. -/
def lookupOrTryInit (m : BpfHash κ ν n) (k : κ) (init : ν) : Option ν × BpfHash κ ν n :=
  match m.lookup k with
  | some val => (some val, m)
  | none =>
      match updateElem m k init .noExist with
      | .error err => if err ≠ .eexist then (none, m) else (m.lookup k, m)
      | .ok m' => (m'.lookup k, m')

lemma updateIgnored_eq (m : BpfHash κ ν n) (k : κ) (v : ν) :
    updateIgnored m k v = (m.put k v).getD m := by
  rw [updateIgnored, updateElem, if_neg (by simp)]
  cases m.put k v <;> rfl

/-- An update that is refused leaves the map, one that is not gives the key its value. -/
lemma updateIgnored_cases (m : BpfHash κ ν n) (k : κ) (v : ν) :
    (m.put k v = none ∧ updateIgnored m k v = m) ∨ m.put k v = some (updateIgnored m k v) := by
  rw [updateIgnored_eq]
  cases hput : m.put k v with
  | none => exact .inl ⟨rfl, rfl⟩
  | some m' => exact .inr rfl

lemma lookup_updateIgnored_of_ne (hne : k' ≠ k) :
    (updateIgnored m k v).lookup k' = m.lookup k' := by
  rcases updateIgnored_cases m k v with ⟨-, hsame⟩ | hput
  · rw [hsame]
  · exact BoundedMap.lookup_put_of_ne hput hne

/-- What a lookup that may initialise comes to: a key that is there, a new key with the initial
value, or a full map. -/
inductive Initialised (m : BpfHash κ ν n) (k : κ) (init : ν) :
    Option ν × BpfHash κ ν n → Prop
  | found {v : ν} (h : m.lookup k = some v) : Initialised m k init (some v, m)
  | fresh {m' : BpfHash κ ν n} (h : m.lookup k = none) (hput : m.put k init = some m') :
      Initialised m k init (some init, m')
  | refused (h : m.lookup k = none) (hfull : m.Full) : Initialised m k init (none, m)

lemma lookupOrTryInit_outcome (m : BpfHash κ ν n) (k : κ) (init : ν) :
    Initialised m k init (lookupOrTryInit m k init) := by
  rw [lookupOrTryInit]
  cases hlookup : m.lookup k with
  | some v => exact .found hlookup
  | none =>
      dsimp only
      rw [updateElem, if_neg (by simp [hlookup])]
      cases hput : m.put k init with
      | none => exact .refused hlookup (BoundedMap.put_eq_none_iff.mp hput).2
      | some m' =>
          dsimp only
          rw [BoundedMap.lookup_put_self hput]
          exact .fresh hlookup hput

end Operations

/-! ### The values -/

/-- `struct alloc_info`. -/
structure AllocInfo where
  size : UInt64
  timestampNs : UInt64
  stackId : Int32
  deriving DecidableEq

/-- The stack id as the key of `combined_allocs`: an `int`, converted to a `u64`. -/
def AllocInfo.stackKey (info : AllocInfo) : UInt64 := info.stackId.toInt64.toUInt64

/-- `union combined_alloc_info`, by its member `bits`. -/
structure CombinedAllocInfo where
  bits : UInt64
  deriving DecidableEq

/-- The bit field `total_size`. -/
def CombinedAllocInfo.totalSize (c : CombinedAllocInfo) : UInt64 := c.bits &&& 0xffffffffff

/-- The bit field `number_of_allocs`. -/
def CombinedAllocInfo.numberOfAllocs (c : CombinedAllocInfo) : UInt64 := c.bits >>> 40

/-- The union with its bit fields set. -/
def CombinedAllocInfo.ofFields (totalSize numberOfAllocs : UInt64) : CombinedAllocInfo :=
  ⟨(totalSize &&& (0xffffffffff : UInt64)) ||| ((numberOfAllocs &&& (0xffffff : UInt64)) <<< 40)⟩

/-- `ALLOCS_MAX_ENTRIES`. -/
def allocsMaxEntries : ℕ := 1000000

/-- `COMBINED_ALLOCS_MAX_ENTRIES`. -/
def combinedAllocsMaxEntries : ℕ := 10240

end Dwunw.Memleak
