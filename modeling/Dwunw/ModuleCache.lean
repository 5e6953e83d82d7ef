import Dwunw.Cfi.Parse

/-!
The module cache of `src/dwarf/module_cache.c`.

Sixteen slots hold loaded modules.  A slot is unused, active (somebody holds a reference) or
warm (nobody does, but the module is still loaded), and warm slots are numbered by a clock
in the order in which they were let go.  A handle is the slot it belongs to.

Opening an ELF file and building its index can each fail; a `Loader` says how they come
out.
-/

namespace Dwunw

/-- `struct dwunw_elf_handle`. -/
structure ElfHandle where
  path : CString
  image : UInt64
  size : UInt64
  elfClass : UInt8
  elfData : UInt8
  shoff : UInt64
  shentsize : UInt16
  shnum : UInt16
  shstrndx : UInt16
  shstrtab : UInt64
  deriving DecidableEq, Repr

/-- A handle of zero bytes. -/
def ElfHandle.zero : ElfHandle := ⟨[], 0, 0, 0, 0, 0, 0, 0, 0, 0⟩

/-- `struct dwunw_dwarf_index`; the counts are the lengths of the tables. -/
structure DwarfIndex where
  sections : Sections
  cies : RecordTable CieRecord
  fdes : RecordTable FdeRecord
  flags : UInt32

/-- An index of zero bytes, as `dwunw_dwarf_index_reset` leaves it. -/
def DwarfIndex.zero : DwarfIndex := ⟨⟨.null, .null, .null⟩, .null, .null, 0⟩

/-- `struct dwunw_module_handle`. -/
structure ModuleHandle where
  elf : ElfHandle
  index : DwarfIndex
  flags : UInt32

/-- A module handle of zero bytes. -/
def ModuleHandle.zero : ModuleHandle := ⟨.zero, .zero, 0⟩

/-- `enum dwunw_module_slot_state`. -/
inductive SlotState where
  | unused
  | active
  | warm
  deriving DecidableEq, Repr

/-- `struct dwunw_module_cache_entry`. -/
structure CacheEntry where
  path : CString
  handle : ModuleHandle
  refcnt : UInt32
  state : SlotState
  warmSeq : UInt64

/-- An entry of zero bytes. -/
def CacheEntry.zero : CacheEntry := ⟨[], .zero, 0, .unused, 0⟩

/-- A slot of the cache. -/
abbrev Slot := Fin moduleCacheCapacity

/-- `struct dwunw_module_cache`. -/
structure ModuleCache where
  entries : Slot → CacheEntry
  warmClock : UInt64

/-- How opening a file and building the index of an image come out. -/
structure Loader where
  elfOpen : CString → Except Status ElfHandle
  indexInit : ElfHandle → Except Status DwarfIndex

/-- Replace an entry. -/
def ModuleCache.set (c : ModuleCache) (i : Slot) (e : CacheEntry) : ModuleCache :=
  { c with entries := Function.update c.entries i e }

/-- `dwunw_module_cache_entry_reset`; the flags of the handle stay as they are. -/
def cacheEntryReset (e : CacheEntry) : CacheEntry :=
  { path := []
    handle := { e.handle with elf := .zero, index := .zero }
    refcnt := 0
    state := .unused
    warmSeq := 0 }

/-- `strncmp(a, b, n) == 0`. -/
def strncmpEq (a b : CString) (n : ℕ) : Bool := a.take n == b.take n

/-- `dwunw_module_cache_find`. -/
def cacheFind (c : ModuleCache) (path : CString) : Option Slot :=
  (List.finRange moduleCacheCapacity).find? fun i =>
    decide ((c.entries i).state ≠ .unused) && strncmpEq (c.entries i).path path maxPathLen

/-- The loop of `dwunw_module_cache_alloc` over the slots that are left, with the victim so
far: the slot it stops at, and whether that slot has to be evicted. -/
def cacheAllocLoop (c : ModuleCache) : List Slot → Option Slot → Option (Slot × Bool)
  | [], victim => victim.map fun v => (v, true)
  | i :: slots, victim =>
      match (c.entries i).state with
      | .unused => some (i, false)
      | .warm =>
          match victim with
          | none => cacheAllocLoop c slots (some i)
          | some v =>
              if (c.entries i).warmSeq < (c.entries v).warmSeq then
                cacheAllocLoop c slots (some i)
              else cacheAllocLoop c slots (some v)
      | .active => cacheAllocLoop c slots victim

/-- `dwunw_module_cache_alloc`: the slot, and the cache with the slot emptied. -/
def cacheAlloc (c : ModuleCache) : Option (Slot × ModuleCache) :=
  match cacheAllocLoop c (List.finRange moduleCacheCapacity) none with
  | none => none
  | some (i, false) => some (i, c)
  | some (i, true) => some (i, c.set i (cacheEntryReset (c.entries i)))

/-- `dwunw_module_cache_init`. -/
def moduleCacheInit : ModuleCache := ⟨fun _ => .zero, 0⟩

/-- `dwunw_module_cache_flush`. -/
def moduleCacheFlush (c : ModuleCache) : ModuleCache :=
  { entries := fun i =>
      if (c.entries i).state = .unused then c.entries i else cacheEntryReset (c.entries i)
    warmClock := 0 }

/-- `dwunw_module_cache_acquire`: the status, the cache, and the slot of the handle. -/
def moduleCacheAcquire (ld : Loader) (c : ModuleCache) (path : CString) :
    Status × ModuleCache × Option Slot :=
  match cacheFind c path with
  | some i =>
      let e := c.entries i
      if e.state = .warm then
        (.ok, c.set i { e with refcnt := 1, state := .active, warmSeq := 0 }, some i)
      else (.ok, c.set i { e with refcnt := e.refcnt + 1 }, some i)
  | none =>
      match cacheAlloc c with
      | none => (.cacheFull, c, none)
      | some (i, c) =>
          let e := c.entries i
          match ld.elfOpen path with
          | .error st => (st, c.set i { e with handle := { e.handle with elf := .zero } }, none)
          | .ok elf =>
              match ld.indexInit elf with
              | .error st => (st, c.set i { e with handle := .zero }, none)
              | .ok index =>
                  (.ok, c.set i
                    { path := path.take (maxPathLen - 1)
                      handle := { e.handle with elf, index }
                      refcnt := 1
                      state := .active
                      warmSeq := 0 }, some i)

/-- `dwunw_module_cache_release`. -/
def moduleCacheRelease (c : ModuleCache) (i : Slot) : Status × ModuleCache :=
  let e := c.entries i
  if e.state = .unused then (.invalidArg, c)
  else if e.refcnt = 0 then (.invalidArg, c)
  else if e.refcnt - 1 = 0 then
    (.ok, { c.set i { e with refcnt := 0, state := .warm, warmSeq := c.warmClock + 1 } with
      warmClock := c.warmClock + 1 })
  else (.ok, c.set i { e with refcnt := e.refcnt - 1 })

end Dwunw
