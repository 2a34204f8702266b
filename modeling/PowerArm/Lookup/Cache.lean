import PowerArm.Lookup.Map

/-!
# A thread's lookup caches

`LookupCache`: the direct-mapped L1 table, the L2 pages behind a page-pointer
table, and `CachedCodePages`, through which an invalidation finds the addresses
that L1 and L2 may hold. L3 is the shared map.
-/

namespace PowerArm.Lookup

open Function (update)

structure LookupCacheEntry where
  hostCode : BitVec 64
  guestCode : BitVec 64
deriving DecidableEq, Repr

/-- Memory that was never written, or that `madvise` gave back. -/
def LookupCacheEntry.zero : LookupCacheEntry := ⟨0, 0⟩

structure CacheConfig where
  dynamicL1Cache : Bool
  disableL2Cache : Bool
deriving DecidableEq, Repr

/-- An L2 page pointer that is null is `none`. -/
structure LookupCache where
  config : CacheConfig
  l1 : Nat → LookupCacheEntry := fun _ => .zero
  l1PointerMask : BitVec 64
  currentL1Entries : Nat
  l2 : Nat → Option (Nat → LookupCacheEntry) := fun _ => none
  allocateOffset : Nat := 0
  cachedCodePages : Nat → Option (List (BitVec 64)) := fun _ => none

namespace LookupCache

def virtualMemSize : BitVec 64 := 1#64 <<< 36
def minL1Entries : Nat := 8 * 1024
def maxL1Entries : Nat := 128 * 1024
def codeSize : Nat := 128 * 1024 * 1024
def sizePerPage : Nat := pageSize / 4 * 16

def init (config : CacheConfig) : LookupCache where
  config := config
  l1PointerMask := BitVec.ofNat 64 ((if config.dynamicL1Cache then minL1Entries else maxL1Entries) - 1)
  currentL1Entries := minL1Entries

/-! ## Slots -/

variable (c : LookupCache)

def l1Slot (addr : BitVec 64) : Nat := ((addr >>> 2) &&& c.l1PointerMask).toNat

def l2Offset (addr : BitVec 64) : Nat := (addr &&& BitVec.ofNat 64 (pageSize - 1)).toNat / 4

def l2Index (addr : BitVec 64) : Nat := pageIndex (addr &&& (virtualMemSize - 1))

def l2Entry (addr : BitVec 64) : Option LookupCacheEntry :=
  (c.l2 (l2Index addr)).map fun page => page (l2Offset addr)

def publishL1 (addr hostCode : BitVec 64) : LookupCache :=
  { c with l1 := update c.l1 (c.l1Slot addr) ⟨hostCode, addr⟩ }

def storeL2 (addr : BitVec 64) (entry : LookupCacheEntry) : LookupCache :=
  { c with
    l2 := update c.l2 (l2Index addr) ((c.l2 (l2Index addr)).map fun page =>
        update page (l2Offset (addr &&& (virtualMemSize - 1))) entry) }

/-! ## Clearing -/

def flushWholeL1 : LookupCache := { c with l1 := fun _ => .zero }

def clearL2Cache : LookupCache := { c with l2 := fun _ => none, allocateOffset := 0 }

def clearThreadLocalCaches : LookupCache :=
  { c with l1 := fun _ => .zero, l2 := fun _ => none, cachedCodePages := fun _ => none }

/-! ## Filling -/

def cachePages (addr : BitVec 64) (codePages : List (BitVec 64)) : LookupCache :=
  { c with
    cachedCodePages := codePages.foldl (fun cached page =>
      update cached (pageIndex page) (some (((cached (pageIndex page)).getD []).insert addr)))
      c.cachedCodePages }

def allocateBackingForPage : Option LookupCache :=
  let newEnd := c.allocateOffset + sizePerPage
  if codeSize ≤ newEnd then none else some { c with allocateOffset := newEnd }

def backPage (addr : BitVec 64) : Option LookupCache :=
  match c.l2 (l2Index addr) with
  | some _ => some c
  | none => c.allocateBackingForPage.map fun c => { c with l2 := update c.l2 (l2Index addr) (some fun _ => .zero) }

def cacheL1 (addr : BitVec 64) (e : BlockEntry) : LookupCache :=
  (c.cachePages addr e.codePages).publishL1 addr e.hostCode

def cacheBlockMapping (addr : BitVec 64) (e : BlockEntry) (l1Only : Bool) : LookupCache :=
  let c := c.cacheL1 addr e
  if c.config.disableL2Cache || l1Only then c
  else
    match c.backPage addr with
    | some c => c.storeL2 addr ⟨e.hostCode, addr⟩
    | none =>
      -- the call starts over with an empty pool, where there is room
      let c := c.clearL2Cache.cacheL1 addr e
      match c.backPage addr with
      | some c => c.storeL2 addr ⟨e.hostCode, addr⟩
      | none => c

/-! ## Lookup -/

/-- What the sampling of L2 and L3 hits says: the period is not over, or the rate
calls for a larger table, a smaller one or neither. -/
inductive Load where
  | sampling
  | high
  | steady
  | low
deriving DecidableEq, Repr

def resizeL1 (entries : Nat) : LookupCache :=
  { c with currentL1Entries := entries, l1PointerMask := BitVec.ofNat 64 (entries - 1) }.flushWholeL1

def updateDynamicL1Stats : Load → LookupCache
  | .high => if c.currentL1Entries < maxL1Entries then c.resizeL1 (c.currentL1Entries * 2) else c
  | .low => if minL1Entries < c.currentL1Entries then c.resizeL1 (c.currentL1Entries / 2) else c
  | .sampling | .steady => c

/-- The lookup in L2 publishes what it finds to L1; a host pointer of zero is a miss. -/
def findL2 (addr : BitVec 64) : LookupCache × BitVec 64 :=
  if c.config.disableL2Cache then (c, 0)
  else
    match c.l2Entry addr with
    | none => (c, 0)
    | some entry =>
      if entry.guestCode = addr then (c.publishL1 addr entry.hostCode, entry.hostCode) else (c, 0)

def findL3 (m : GuestToHostMap) (c : LookupCache × BitVec 64) (addr : BitVec 64) : LookupCache × BitVec 64 :=
  if c.2 ≠ 0 then c
  else
    match m.findBlock addr with
    | none => c
    | some e => (c.1.cacheBlockMapping addr e false, e.hostCode)

def findBlock (m : GuestToHostMap) (c : LookupCache) (addr : BitVec 64) (load : Load) : LookupCache × BitVec 64 :=
  let entry := c.l1 (c.l1Slot addr)
  if entry.guestCode = addr then (c, entry.hostCode)
  else
    let (c, hostPtr) := findL3 m (c.findL2 addr) addr
    (if hostPtr ≠ 0 ∧ c.config.dynamicL1Cache then c.updateDynamicL1Stats load else c, hostPtr)

/-! ## Invalidation -/

def invalidateL1 (addr : BitVec 64) : LookupCache :=
  let entry := c.l1 (c.l1Slot addr)
  if entry.guestCode = addr then
    { c with l1 := update c.l1 (c.l1Slot addr) { entry with guestCode := 0 } }
  else c

def invalidateCache (addr : BitVec 64) : LookupCache :=
  let c := c.invalidateL1 addr
  if c.config.disableL2Cache then c else c.storeL2 addr .zero

def invalidateCacheRange (start length : BitVec 64) : LookupCache × Bool :=
  let pages := pageIndexes start length
  let addrs := pages.flatMap fun page => (c.cachedCodePages page).getD []
  let found := pages.any fun page => (c.cachedCodePages page).isSome
  let c := addrs.foldl invalidateCache c
  ({ c with cachedCodePages := fun page => if page ∈ pages then none else c.cachedCodePages page }, found)

end LookupCache

/-! ## The shared map with one thread -/

structure ThreadLookup where
  map : GuestToHostMap
  thread : LookupCache

namespace ThreadLookup

inductive Op where
  | addBlockExecutableRange (addresses : List (BitVec 64))
      (start length guestRangeStart guestRangeLength : BitVec 64)
      (alloc : Nat → CodeGranuleBitmap.Alloc)
  | addBlockMapping (addr : BitVec 64) (e : BlockEntry)
  | findBlock (addr : BitVec 64) (load : LookupCache.Load)
  | invalidate (start length : BitVec 64) (kind : GuestToHostMap.Invalidation)
  | clearThreadLocalCaches

/-- An invalidation of the shared map is followed by the thread's for the same range. -/
def step (s : ThreadLookup) : Op → ThreadLookup
  | .addBlockExecutableRange addresses start length guestRangeStart guestRangeLength alloc =>
    { s with
      map := (s.map.addBlockExecutableRange addresses start length guestRangeStart guestRangeLength alloc).1 }
  | .addBlockMapping addr e =>
    { map := s.map.addBlockMapping addr e, thread := s.thread.cacheBlockMapping addr e true }
  | .findBlock addr load => { s with thread := (s.thread.findBlock s.map addr load).1 }
  | .invalidate start length kind =>
    { map := s.map.invalidate start length kind
      thread := (s.thread.invalidateCacheRange start length).1 }
  | .clearThreadLocalCaches => { s with thread := s.thread.clearThreadLocalCaches }

end ThreadLookup

end PowerArm.Lookup
