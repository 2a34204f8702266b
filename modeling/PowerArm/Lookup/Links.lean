import PowerArm.Lib.Pool
import PowerArm.Lookup.Map

/-!
# Inbound block links

`BlockLinks`: for each destination a chain of the branches patched to jump to it, in a
pool with a free list. `SeverLinks` runs the delinkers of a chain and gives its nodes
back. `LinkedMap` is the guest-to-host map with its links; every way a block leaves the
map severs them first. A step is `none` where a walk along a chain would not end or
would leave the pool.
-/

namespace PowerArm.Lookup

open Lib (PoolNode)

/-! ## The table of links -/

structure BlockLink where
  hostLink : BitVec 64
  delinker : BitVec 64
deriving DecidableEq, Repr

/-- The index `none` is `BlockLinkInvalid`; `delinked` has the delinkers run, in order. -/
structure LinkTable where
  blockLinkPool : List (PoolNode BlockLink) := []
  blockLinkFreeHead : Option Nat := none
  blockLinks : BitVec 64 → Option Nat := fun _ => none
  delinked : List BlockLink := []

namespace LinkTable

def addBlockLink (t : LinkTable) (dest : BitVec 64) (link : BlockLink) : Option LinkTable :=
  match t.blockLinkFreeHead with
  | some index => do
    let node ← t.blockLinkPool[index]?
    some { t with
      blockLinkFreeHead := node.next
      blockLinkPool := t.blockLinkPool.set index ⟨link, t.blockLinks dest⟩
      blockLinks := Function.update t.blockLinks dest (some index) }
  | none =>
    some { t with
      blockLinkPool := t.blockLinkPool ++ [⟨link, t.blockLinks dest⟩]
      blockLinks := Function.update t.blockLinks dest (some t.blockLinkPool.length) }

def severLinks (t : LinkTable) (addr : BitVec 64) : Option (LinkTable × Nat) :=
  match t.blockLinks addr with
  | none => some (t, 0)
  | some head => do
    let visited ← Lib.Pool.walk t.blockLinkPool t.blockLinkPool.length (some head)
    let t' := { t with
      delinked := t.delinked ++ Lib.Pool.vals t.blockLinkPool visited
      blockLinks := Function.update t.blockLinks addr none }
    match visited.getLast? with
    | none => some (t', 0)
    | some tail =>
      -- the chain is put on the free list in one piece
      some ({ t' with
        blockLinkPool := t.blockLinkPool.modify tail fun node => { node with next := t.blockLinkFreeHead }
        blockLinkFreeHead := some head }, visited.length)

/-- `ClearCache` drops the links and runs no delinker. -/
def clear (t : LinkTable) : LinkTable := { delinked := t.delinked }

end LinkTable

/-! ## The map with its links -/

structure LinkedMap where
  map : GuestToHostMap
  links : LinkTable := {}

namespace LinkedMap

def init (root : Bool) : LinkedMap := { map := GuestToHostMap.init root }

def erase (m : LinkedMap) (addr : BitVec 64) : Option LinkedMap := do
  let (links, _) ← m.links.severLinks addr
  some ⟨m.map.erase addr, links⟩

def softEraseBlock (m : LinkedMap) (addr : BitVec 64) : Option LinkedMap :=
  match m.map.blockList addr with
  | none => some m
  | some _ => do
    let (links, _) ← m.links.severLinks addr
    some ⟨m.map.softEraseBlock addr, links⟩

def erasePage (eraseBlock : LinkedMap → BitVec 64 → Option LinkedMap) (m : LinkedMap) (page : Nat) :
    Option LinkedMap :=
  match m.map.codePages page with
  | none => some m
  | some entries => do
    let m ← entries.foldlM eraseBlock m
    some { m with map := m.map.clearGranules page }

def erasePages (eraseBlock : LinkedMap → BitVec 64 → Option LinkedMap) (m : LinkedMap)
    (start length : BitVec 64) : Option LinkedMap := do
  let pages := pageIndexes start length
  let m ← pages.foldlM (erasePage eraseBlock) m
  some { m with
    map := { m.map with codePages := fun page => if page ∈ pages then none else m.map.codePages page } }

def invalidateRange (m : LinkedMap) (start length : BitVec 64) : Option LinkedMap := do
  let m ← m.erasePages erase start length
  some { m with map := m.map.dropRetainedRange start length }

def softInvalidateRange (m : LinkedMap) (start length : BitVec 64) : Option LinkedMap :=
  m.erasePages softEraseBlock start length

structure LinkedWalk where
  walk : GuestToHostMap.PreciseWalk
  links : LinkTable

/-- One entry of a page: a block whose extent meets the range is erased, with its links. -/
def preciseEntry (start endAddr base : BitVec 64) (w : LinkedWalk) (addr : BitVec 64) : Option LinkedWalk :=
  let walk := GuestToHostMap.preciseEntry start endAddr base w.walk addr
  match w.walk.map.blockList addr with
  | none => some { w with walk }
  | some e =>
    if e.overlaps start endAddr then do
      let (links, _) ← w.links.severLinks addr
      some ⟨walk, links⟩
    else some { w with walk }

def precisePage (start endAddr : BitVec 64) (m : LinkedMap × Nat) (page : Nat) : Option (LinkedMap × Nat) :=
  match m.1.map.codePages page with
  | none => some m
  | some entries => do
    let w ← entries.foldlM (preciseEntry start endAddr (pageBase page)) ⟨{ map := m.1.map }, m.1.links⟩
    some ({ w with
        map := { w.walk.map with
          codeGranules :=
            if w.walk.map.codeGranules.enabled then
              w.walk.map.codeGranules.recomputePageWord (pageBase page) w.walk.survivingBits
            else w.walk.map.codeGranules
          codePages := Function.update w.walk.map.codePages page
            (if w.walk.kept.isEmpty then none else some w.walk.kept) } },
      m.2 + w.walk.erased)

def invalidateRangePrecise (m : LinkedMap) (start length : BitVec 64) : Option (LinkedMap × Nat) := do
  let (m, erased) ← (pageIndexes start length).foldlM (precisePage start (start + length)) (m, 0)
  some ({ m with map := m.map.dropRetainedRange start length }, erased)

def clearCache (m : LinkedMap) : LinkedMap where
  map :=
    { codePages := m.map.codePages
      codeGranules := m.map.codeGranules.clearAll }
  links := m.links.clear

/-! ## Runs -/

inductive Op where
  | addBlockMapping (addr : BitVec 64) (e : BlockEntry)
  | addBlockExecutableRange (addresses : List (BitVec 64))
      (start length guestRangeStart guestRangeLength : BitVec 64) (alloc : Nat → CodeGranuleBitmap.Alloc)
  | addBlockLink (dest : BitVec 64) (link : BlockLink)
  | erase (addr : BitVec 64)
  | takeRetainedBlock (addr : BitVec 64)
  | invalidateRange (start length : BitVec 64)
  | softInvalidateRange (start length : BitVec 64)
  | invalidateRangePrecise (start length : BitVec 64)
  | clearCache

def step (m : LinkedMap) : Op → Option LinkedMap
  | .addBlockMapping addr e => some { m with map := m.map.addBlockMapping addr e }
  | .addBlockExecutableRange addresses start length guestRangeStart guestRangeLength alloc =>
    some { m with
      map := (m.map.addBlockExecutableRange addresses start length guestRangeStart guestRangeLength alloc).1 }
  | .addBlockLink dest link => do
    let links ← m.links.addBlockLink dest link
    some { m with links }
  | .erase addr => m.erase addr
  | .takeRetainedBlock addr => some { m with map := (m.map.takeRetainedBlock addr).1 }
  | .invalidateRange start length => m.invalidateRange start length
  | .softInvalidateRange start length => m.softInvalidateRange start length
  | .invalidateRangePrecise start length => do
    let (m, _) ← m.invalidateRangePrecise start length
    some m
  | .clearCache => some m.clearCache

end LinkedMap

end PowerArm.Lookup
