import PowerArm.Lookup.Map

/-!
# Registering compiled units

`CompileBlock` registers the entry points of a unit on its code pages, then maps
each of them; a relink does the same for a retained block. Both run under the
shared side of `CodeInvalidationMutex`, and an invalidation takes the exclusive
side, so that none falls between the two halves.
-/

namespace PowerArm.Lookup

/-- A unit as the decoder and the backend leave it: `[startAddr, startAddr + length)`
is the decoded extent, and an entry point is a guest address with its host code. -/
structure CompiledUnit where
  guestRIP : BitVec 64
  startAddr : BitVec 64
  length : BitVec 64
  codePages : List (BitVec 64)
  entryPoints : List (BitVec 64 × BitVec 64)
  /-- Soft invalidation is on and the block is hashable. -/
  hashed : Bool
  guestHash : BitVec 64
  extent_lt : startAddr.toNat + length.toNat < 2 ^ 64
  guestRIP_ge : startAddr.toNat ≤ guestRIP.toNat
  guestRIP_lt : guestRIP.toNat < startAddr.toNat + length.toNat
  codePages_aligned : ∀ page ∈ codePages, page.toNat % pageSize = 0

/-- What `AddBlockMapping` records for every entry point; the tail has the unit's
entry and the size of the extent. -/
def CompiledUnit.blockEntry (u : CompiledUnit) (hostCode : BitVec 64) : BlockEntry where
  hostCode := hostCode
  tail := ⟨u.guestRIP, u.length⟩
  codePages := u.codePages
  guestRangeStart := u.startAddr
  guestRangeLength := if u.hashed then u.length else 0
  guestHash := if u.hashed then u.guestHash else 0
  extentStart := u.startAddr
  extentLength := u.length

structure Registration where
  entryPoints : List (BitVec 64 × BitVec 64)
  entry : BlockEntry
deriving DecidableEq, Repr

/-- The map, and the units of the threads that hold the mutex shared. -/
structure Context where
  map : GuestToHostMap
  compiling : List Registration := []

namespace Context

def init (root : Bool) : Context := { map := GuestToHostMap.init root }

def addCodePages (addresses codePages : List (BitVec 64)) (start length : BitVec 64)
    (alloc : Nat → CodeGranuleBitmap.Alloc) (m : GuestToHostMap) : GuestToHostMap :=
  codePages.foldl (fun m page =>
    (m.addBlockExecutableRange addresses page (BitVec.ofNat 64 pageSize) start length alloc).1) m

def compile (c : Context) (u : CompiledUnit) (alloc : Nat → CodeGranuleBitmap.Alloc) : Context where
  map := addCodePages (u.entryPoints.map Prod.fst) u.codePages u.startAddr u.length alloc c.map
  compiling := ⟨u.entryPoints, u.blockEntry 0⟩ :: c.compiling

/-- `TryRelinkSoftInvalidatedBlock` up to its second look at the bytes; `unchanged`
is what the first comparison of the hashes says. -/
def relink (c : Context) (addr : BitVec 64) (unchanged : Bool) (alloc : Nat → CodeGranuleBitmap.Alloc) : Context :=
  match c.map.takeRetainedBlock addr with
  | (m, none) => { c with map := m }
  | (m, some e) =>
    if unchanged then
      { map := addCodePages [addr] e.codePages e.guestRangeStart e.guestRangeLength alloc m
        compiling := ⟨[(addr, e.hostCode)], e⟩ :: c.compiling }
    else { c with map := m }

inductive Op where
  | compile (u : CompiledUnit) (alloc : Nat → CodeGranuleBitmap.Alloc)
  | relink (addr : BitVec 64) (unchanged : Bool) (alloc : Nat → CodeGranuleBitmap.Alloc)
  | publish (r : Registration) (addr hostCode : BitVec 64)
  | finish (r : Registration)
  | invalidate (start length : BitVec 64) (kind : GuestToHostMap.Invalidation)

/-- A mapping needs its registration, and an invalidation waits for the mutex. -/
def step (c : Context) : Op → Context
  | .compile u alloc => c.compile u alloc
  | .relink addr unchanged alloc => c.relink addr unchanged alloc
  | .publish r addr hostCode =>
    if r ∈ c.compiling ∧ (addr, hostCode) ∈ r.entryPoints then
      { c with map := c.map.addBlockMapping addr { r.entry with hostCode := hostCode } }
    else c
  | .finish r => { c with compiling := c.compiling.erase r }
  | .invalidate start length kind =>
    if c.compiling.isEmpty then { c with map := c.map.invalidate start length kind } else c

end Context

end PowerArm.Lookup
