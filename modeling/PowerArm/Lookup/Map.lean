import PowerArm.Lookup.Granules

/-!
# The shared guest-to-host map

`GuestToHostMap`: the block list, the index from pages to block addresses, the
blocks retained by a soft invalidation with an index of their own, and the granule
bitmap. The maps are functions to `Option`; a walk from `lower_bound` to
`upper_bound` visits the page indexes in between.
-/

namespace PowerArm.Lookup

open Function (update)

structure JITCodeTail where
  rip : BitVec 64
  guestSize : BitVec 64
deriving DecidableEq, Repr

/-- `tail` is what the walk from `BlockBegin` through the code header finds. -/
structure BlockEntry where
  hostCode : BitVec 64
  tail : JITCodeTail
  codePages : List (BitVec 64)
  guestRangeStart : BitVec 64 := 0
  guestRangeLength : BitVec 64 := 0
  guestHash : BitVec 64 := 0
  extentStart : BitVec 64 := 0
  extentLength : BitVec 64 := 0
deriving DecidableEq, Repr

def pageIndex (addr : BitVec 64) : Nat := addr.toNat / pageSize

def pageBase (page : Nat) : BitVec 64 := BitVec.ofNat 64 (page * pageSize)

def pageIndexes (start length : BitVec 64) : List Nat :=
  List.range' (pageIndex start) (pageIndex (start + length - 1) + 1 - pageIndex start)

structure GuestToHostMap where
  blockList : BitVec 64 → Option BlockEntry := fun _ => none
  codePages : Nat → Option (List (BitVec 64)) := fun _ => none
  retainedBlocks : BitVec 64 → Option BlockEntry := fun _ => none
  retainedCodePages : Nat → Option (List (BitVec 64)) := fun _ => none
  codeGranules : CodeGranuleBitmap

def CodeGranuleBitmap.enabled (b : CodeGranuleBitmap) : Bool := b.root.isSome

/-- Does the decoded extent meet `[start, endAddr)`? An unknown one does. -/
def BlockEntry.overlaps (e : BlockEntry) (start endAddr : BitVec 64) : Bool :=
  e.extentLength = 0 || (e.extentStart < endAddr && start < e.extentStart + e.extentLength)

namespace GuestToHostMap

/-- The constructor; the bitmap is there when tracking is on and its root could be allocated. -/
def init (root : Bool) : GuestToHostMap := { codeGranules := CodeGranuleBitmap.enable root }

/-! ## Registration -/

variable (m : GuestToHostMap)

def addBlockMapping (addr : BitVec 64) (e : BlockEntry) : GuestToHostMap :=
  { m with blockList := update m.blockList addr (some e) }

def findBlock (addr : BitVec 64) : Option BlockEntry := m.blockList addr

def addPage (addresses : List (BitVec 64)) (start length : BitVec 64)
    (alloc : Nat → CodeGranuleBitmap.Alloc) (m : GuestToHostMap) (page : Nat) : GuestToHostMap :=
  { m with
    codePages := update m.codePages page (some ((m.codePages page).getD [] ++ addresses))
    codeGranules :=
      if m.codeGranules.enabled then
        m.codeGranules.setPageRange (pageBase page) start length (alloc page)
      else m.codeGranules }

/-- Appends the addresses to the pages of a range, and tells whether one of the
pages had no code. `alloc` is what the allocations for a page's bits do. -/
def addBlockExecutableRange (addresses : List (BitVec 64))
    (start length guestRangeStart guestRangeLength : BitVec 64)
    (alloc : Nat → CodeGranuleBitmap.Alloc) : GuestToHostMap × Bool :=
  let pages := pageIndexes start length
  (pages.foldl (addPage addresses guestRangeStart guestRangeLength alloc) m,
    pages.any fun page => ((m.codePages page).getD []).isEmpty)

/-! ## Retained blocks -/

def unindexRetained (addr : BitVec 64) (index : Nat → Option (List (BitVec 64))) (page : BitVec 64) :
    Nat → Option (List (BitVec 64)) :=
  match index (pageIndex page) with
  | none => index
  | some addrs =>
    let rest := addrs.filter (· ≠ addr)
    update index (pageIndex page) (if rest.isEmpty then none else some rest)

def dropRetainedBlockLocked (addr : BitVec 64) : GuestToHostMap :=
  match m.retainedBlocks addr with
  | none => m
  | some e =>
    { m with
      retainedCodePages := e.codePages.foldl (unindexRetained addr) m.retainedCodePages
      retainedBlocks := update m.retainedBlocks addr none }

def takeRetainedBlock (addr : BitVec 64) : GuestToHostMap × Option BlockEntry :=
  (m.dropRetainedBlockLocked addr, m.retainedBlocks addr)

def dropRetainedRange (start length : BitVec 64) : GuestToHostMap :=
  let doomed := (pageIndexes start length).flatMap fun page => (m.retainedCodePages page).getD []
  doomed.foldl dropRetainedBlockLocked m

/-! ## Invalidation -/

def erase (addr : BitVec 64) : GuestToHostMap :=
  { m with blockList := update m.blockList addr none }

/-- A block with a content hash is kept aside; one without is erased. -/
def softEraseBlock (addr : BitVec 64) : GuestToHostMap :=
  match m.blockList addr with
  | none => m
  | some e =>
    if e.guestRangeLength = 0 ∨ e.codePages = [] then m.erase addr
    else
      -- an older retained copy goes first, so that the index has one entry's pages
      let m := m.dropRetainedBlockLocked addr
      { m with
        retainedCodePages := e.codePages.foldl (fun index page =>
          update index (pageIndex page) (some (((index (pageIndex page)).getD []).insert addr))) m.retainedCodePages
        retainedBlocks := update m.retainedBlocks addr (some e)
        blockList := update m.blockList addr none }

def clearGranules (page : Nat) : GuestToHostMap :=
  { m with
    codeGranules :=
      if m.codeGranules.enabled then m.codeGranules.clearPage (pageBase page) else m.codeGranules }

def erasePage (eraseBlock : GuestToHostMap → BitVec 64 → GuestToHostMap) (m : GuestToHostMap)
    (page : Nat) : GuestToHostMap :=
  match m.codePages page with
  | none => m
  | some entries => (entries.foldl eraseBlock m).clearGranules page

def erasePages (eraseBlock : GuestToHostMap → BitVec 64 → GuestToHostMap) (m : GuestToHostMap)
    (start length : BitVec 64) : GuestToHostMap :=
  let pages := pageIndexes start length
  let m := pages.foldl (erasePage eraseBlock) m
  { m with codePages := fun page => if page ∈ pages then none else m.codePages page }

def invalidateRange (start length : BitVec 64) : GuestToHostMap :=
  (m.erasePages erase start length).dropRetainedRange start length

def softInvalidateRange (start length : BitVec 64) : GuestToHostMap :=
  m.erasePages softEraseBlock start length

structure PreciseWalk where
  map : GuestToHostMap
  kept : List (BitVec 64) := []
  survivingBits : PageWord := 0
  erased : Nat := 0

def preciseEntry (start endAddr base : BitVec 64) (w : PreciseWalk) (addr : BitVec 64) : PreciseWalk :=
  match w.map.blockList addr with
  | none => w
  | some e =>
    if e.overlaps start endAddr then { w with map := w.map.erase addr, erased := w.erased + 1 }
    else
      { w with
        kept := w.kept ++ [addr]
        survivingBits := w.survivingBits ||| CodeGranuleBitmap.pageMaskFor base e.extentStart e.extentLength }

def precisePage (start endAddr : BitVec 64) (m : GuestToHostMap × Nat) (page : Nat) : GuestToHostMap × Nat :=
  match m.1.codePages page with
  | none => m
  | some entries =>
    let w := entries.foldl (preciseEntry start endAddr (pageBase page)) { map := m.1 }
    ({ w.map with
        codeGranules :=
          if w.map.codeGranules.enabled then
            w.map.codeGranules.recomputePageWord (pageBase page) w.survivingBits
          else w.map.codeGranules
        codePages := update w.map.codePages page (if w.kept.isEmpty then none else some w.kept) },
      m.2 + w.erased)

/-- Only the blocks whose extent meets the range go; the number erased is returned. -/
def invalidateRangePrecise (start length : BitVec 64) : GuestToHostMap × Nat :=
  let (m, erased) := (pageIndexes start length).foldl (precisePage start (start + length)) (m, 0)
  (m.dropRetainedRange start length, erased)

inductive Invalidation where
  | hard
  | soft
  | precise
deriving DecidableEq, Repr

def Invalidation.hits (start length : BitVec 64) (e : BlockEntry) : Invalidation → Bool
  | .hard | .soft => true
  | .precise => e.overlaps start (start + length)

def invalidate (start length : BitVec 64) : Invalidation → GuestToHostMap
  | .hard => m.invalidateRange start length
  | .soft => m.softInvalidateRange start length
  | .precise => (m.invalidateRangePrecise start length).1

/-! ## The overlap query -/

/-- The locked walk: the extent of a block is what its tail says. -/
def walkOverlapsCompiledCode (start length : BitVec 64) : Bool :=
  let endAddr := start + length
  (pageIndexes start length).any fun page =>
    ((m.codePages page).getD []).any fun addr =>
      match m.blockList addr with
      | none => false
      | some e =>
        e.tail.guestSize = 0 || (e.tail.rip < endAddr && start < e.tail.rip + e.tail.guestSize)

/-- `LookupCache::RangeOverlapsCompiledCode`: the bitmap first, then the walk. -/
def rangeOverlapsCompiledCode (start length : BitVec 64) : Bool :=
  if m.codeGranules.provablyClear start length then false
  else m.walkOverlapsCompiledCode start length

end GuestToHostMap

end PowerArm.Lookup
