import PowerArm.Lib.Links

/-!
# Tracking of guest mappings

The model of `VMATracking`: the ordered map `VMAs` from base address to entry,
the mapped resources, and the intrusive list of entries each resource holds.
An entry is stable in memory while it is in the map, so a `VMAEntry*` is the
entry's base address; the list fields of all entries form one heap.

Addresses and lengths are naturals: the ranges the callers pass are ranges the
kernel has mapped, and do not wrap. An offset is an integer, since the code
forms `Offset - Base` before it adds an address back.
-/

namespace PowerArm.Vma

open Function (update)

open Lib

abbrev ResourceId := Nat

structure VMAProt where
  readable : Bool
  writable : Bool
  executable : Bool
deriving DecidableEq, Repr

structure VMAEntry where
  resource : Option ResourceId
  base : Nat
  offset : Int
  length : Nat
  shared : Bool
  prot : VMAProt
deriving DecidableEq, Repr

def VMAEntry.top (v : VMAEntry) : Nat := v.base + v.length

/-- What the tracking reads of a `MappedResource` besides its `FirstVMA`:
whether its device is `SpecialDev::SHM`, and its length. -/
structure MappedResource where
  isShm : Bool
  length : Nat
deriving DecidableEq, Repr

structure VMATracking where
  vmas : List VMAEntry := []
  links : Links Nat := ⟨fun _ => none, fun _ => none⟩
  firstVMA : ResourceId → Option Nat := fun _ => none
  mappedResources : ResourceId → Option MappedResource := fun _ => none

/-! ## The ordered map -/

def emplaceEntry (v : VMAEntry) : List VMAEntry → List VMAEntry
  | [] => [v]
  | w :: l =>
    if v.base < w.base then v :: w :: l
    else if v.base = w.base then w :: l
    else w :: emplaceEntry v l

namespace VMATracking

variable (s : VMATracking)

def emplace (v : VMAEntry) (prev next : Option Nat) : VMATracking :=
  { s with vmas := emplaceEntry v s.vmas, links := s.links.node v.base prev next }

def erase (key : Nat) : VMATracking := { s with vmas := s.vmas.filter fun v => v.base ≠ key }

def modify (key : Nat) (f : VMAEntry → VMAEntry) : VMATracking :=
  { s with vmas := s.vmas.map fun v => if v.base = key then f v else v }

def contains (key : Nat) : Bool := s.vmas.any fun v => v.base = key

def below (top : Nat) : List VMAEntry := s.vmas.takeWhile fun v => v.base < top

def atOrAfter (base : Nat) : List VMAEntry := s.vmas.dropWhile fun v => v.base < base

def eraseResource (r : ResourceId) : VMATracking :=
  { s with mappedResources := update s.mappedResources r none }

/-! ## List operations -/

def listRemove (r : ResourceId) (vma : Nat) : VMATracking :=
  let prev := s.links.prev vma
  let next := s.links.next vma
  { s with
    links := (s.links.setNext prev next).setPrev next prev
    firstVMA := if s.firstVMA r = some vma then update s.firstVMA r next else s.firstVMA }

def listReplace (r : ResourceId) (vma new : Nat) : VMATracking :=
  let prev := s.links.prev vma
  let next := s.links.next vma
  { s with
    links := (s.links.setNext prev (some new)).setPrev next (some new)
    firstVMA := if prev.isNone then update s.firstVMA r (some new) else s.firstVMA }

def listInsertAfter (after new : Nat) : VMATracking :=
  { s with
    links := (s.links.setPrev (s.links.next after) (some new)).setNext (some after) (some new) }

def listPrepend (r : ResourceId) (new : Nat) : VMATracking :=
  { s with
    links := s.links.setPrev (s.firstVMA r) (some new)
    firstVMA := update s.firstVMA r (some new) }

/-- Inserts `v` with its list fields set to follow the entry at `after`, and
links it there when it has a resource. -/
def insertAfter (after : Nat) (v : VMAEntry) : VMATracking :=
  let s' := s.emplace v (some after) (s.links.next after)
  if v.resource.isSome then s'.listInsertAfter after v.base else s'

/-! ## DeleteVMARange -/

def trailing (c : VMAEntry) (top : Nat) : VMAEntry :=
  { c with base := top, offset := c.offset - c.base + top, length := c.top - top }

def removeEntry (c : VMAEntry) (preserved : Option ResourceId) : VMATracking :=
  let s := match c.resource with
    | none => s
    | some r =>
      let s := s.listRemove r c.base
      if s.firstVMA r = none ∧ some r ≠ preserved then s.eraseResource r else s
  s.erase c.base

def replaceByTrailing (c : VMAEntry) (top : Nat) : VMATracking :=
  let s := s.emplace (trailing c top) (s.links.prev c.base) (s.links.next c.base)
  let s := match c.resource with
    | none => s
    | some r => s.listReplace r c.base top
  s.erase c.base

def deleteRound (base top : Nat) (preserved : Option ResourceId) (s : VMATracking) (c : VMAEntry) : VMATracking :=
  if c.base < base then
    let s := s.modify c.base fun v => { v with length := base - c.base }
    if top < c.top then s.insertAfter c.base (trailing c top) else s
  else if c.top ≤ top then s.removeEntry c preserved
  else s.replaceByTrailing c top

/-- The backwards iteration. A round only changes the entry it is at and adds
entries above it, so the entries still to visit are those of the start. -/
def deleteLoop (base top : Nat) (preserved : Option ResourceId) : List VMAEntry → VMATracking → VMATracking
  | [], s => s
  | c :: rest, s =>
    if c.top ≤ base then s
    else deleteLoop base top preserved rest (deleteRound base top preserved s c)

def deleteVMARange (base : Nat) (length : Nat)
    (preserved : Option ResourceId := none) : VMATracking :=
  deleteLoop base (base + length) preserved (s.below (base + length)).reverse s

/-! ## TrackVMARange -/

/-- The `while` loop that moves along a resource's list up to `base`; the list
has no more nodes than the map, which bounds the rounds. -/
def advance (links : Links Nat) (base : Nat) : Nat → Option Nat → Option Nat → Option Nat × Option Nat
  | fuel + 1, prev, some next =>
    if next < base then advance links base fuel (some next) (links.next next) else (prev, some next)
  | _, prev, next => (prev, next)

/-- The neighbours of a new entry at `base` in its resource's list. -/
def neighbours (resource : Option ResourceId) (base : Nat) : Option Nat × Option Nat :=
  match resource.bind s.firstVMA with
  | none => (none, none)
  | some first =>
    if base < first then advance s.links base s.vmas.length none (some first)
    else advance s.links base s.vmas.length (some first) (s.links.next first)

def trackVMARange (resource : Option ResourceId) (base : Nat) (offset : Int)
    (length : Nat) (shared : Bool) (prot : VMAProt) : VMATracking :=
  let s := s.deleteVMARange base length resource
  let (prev, next) := s.neighbours resource base
  let s := s.emplace { resource, base, offset, length, shared, prot } prev next
  match resource, prev with
  | none, _ => s
  | some r, none => s.listPrepend r base
  | some _, some prev => s.listInsertAfter prev base

/-! ## ChangeProtectionFlags -/

def insertAfterOrDie (after : Nat) (v : VMAEntry) : Option VMATracking :=
  if s.contains v.base then none else some (s.insertAfter after v)

/-- Merge strategy 4. The new tail gets the offset `OffsetDiff + CurrentBase`,
which is the offset of `c` itself. -/
def protectOverlap (newProt : VMAProt) (s : VMATracking) (c : VMAEntry) (top : Nat) : Option VMATracking := do
  let s ← if top < c.top then
      s.insertAfterOrDie c.base { c with base := top, offset := c.offset - c.base + c.base, length := c.top - top }
    else some s
  return s.modify c.base fun v => { v with prot := newProt, length := top - c.base }

def middle (c : VMAEntry) (base top : Nat) (newProt : VMAProt) : VMAEntry :=
  { c with
    base := base, offset := c.offset - c.base + base, length := top - base, prot := newProt }

/-- Merge strategies 1, 2 and 3, at the entry the backwards iteration stopped at. -/
def protectLast (base : Nat) (newProt : VMAProt) (s : VMATracking) (c : VMAEntry) (top : Nat) :
    Option VMATracking :=
  if c.top ≤ base then some s
  else if c.base = base ∧ c.top = top then
    some (s.modify c.base fun v => { v with prot := newProt })
  else if c.base = base ∧ top < c.top then
    let s := s.modify c.base fun v => { v with prot := newProt, length := top - c.base }
    s.insertAfterOrDie c.base (trailing c top)
  else if c.base < base ∧ top ≤ c.top then do
    let s := s.modify c.base fun v => { v with length := base - c.base }
    let s ← s.insertAfterOrDie c.base (middle c base top newProt)
    if top < c.top then s.insertAfterOrDie c.base (trailing c top) else some s
  else none

/-- The backwards iteration. When it runs out of entries the iterator is at
`begin()`, and with an empty map there is nothing it may read. -/
def protectLoop (base : Nat) (newProt : VMAProt) : List VMAEntry → VMATracking → Nat → Option VMATracking
  | [], s, top =>
    match s.vmas with
    | [] => none
    | c :: _ => protectLast base newProt s c top
  | c :: rest, s, top =>
    if c.base ≤ base ∨ c.top < top then protectLast base newProt s c top
    else do
      let s ← protectOverlap newProt s c top
      protectLoop base newProt rest s c.base

def changeProtectionFlags (base : Nat) (length : Nat) (newProt : VMAProt) : Option VMATracking :=
  if length = 0 then some s
  else protectLoop base newProt (s.below (base + length)).reverse s (base + length)

/-! ## DeleteSHMRegion -/

def isShmAt (base : Nat) (v : VMAEntry) : Bool :=
  (v.base : Int) - base = v.offset && (v.resource.bind s.mappedResources).any MappedResource.isShm

def shmLoop (base : Nat) (shmLength : Nat) (r : ResourceId) : List VMAEntry → VMATracking → VMATracking
  | [], s => s
  | v :: rest, s =>
    if v.top - base ≤ shmLength then
      shmLoop base shmLength r rest (if v.resource = some r then s.removeEntry v none else s)
    else s

def deleteSHMRegion (base : Nat) : VMATracking × Nat :=
  match (s.atOrAfter base).dropWhile fun v => !s.isShmAt base v with
  | [] => (s, 0)
  | v :: rest =>
    match v.resource with
    | none => (s, 0)
    | some r =>
      let shmLength := (s.mappedResources r).elim 0 MappedResource.length
      (shmLoop base shmLength r rest (s.removeEntry v none), shmLength)

/-! ## Runs -/

def insertMappedResource (r : ResourceId) (resource : MappedResource) : VMATracking :=
  { s with
    mappedResources := update s.mappedResources r (some resource)
    firstVMA := update s.firstVMA r none }

end VMATracking

inductive Op where
  | insertMappedResource (r : ResourceId) (resource : MappedResource)
  | trackVMARange (resource : Option ResourceId) (base : Nat) (offset : Int) (length : Nat)
      (shared : Bool) (prot : VMAProt)
  | deleteVMARange (base : Nat) (length : Nat)
  | changeProtectionFlags (base : Nat) (length : Nat) (newProt : VMAProt)
  | deleteSHMRegion (base : Nat)

open VMATracking

/-- One call. `none` is a call that ends the process, or whose pointer argument
is no live resource (or, for a new resource, already one). -/
def step (s : VMATracking) : Op → Option VMATracking
  | .insertMappedResource r resource =>
    if (s.mappedResources r).isSome then none else some (s.insertMappedResource r resource)
  | .trackVMARange resource base offset length shared prot =>
    if resource.all fun r => (s.mappedResources r).isSome then
      some (s.trackVMARange resource base offset length shared prot)
    else none
  | .deleteVMARange base length => some (s.deleteVMARange base length)
  | .changeProtectionFlags base length newProt => s.changeProtectionFlags base length newProt
  | .deleteSHMRegion base => some (s.deleteSHMRegion base).1

def run (s : VMATracking) (ops : List Op) : Option VMATracking := ops.foldlM step s

def Op.record (last : Nat → Option (Option ResourceId × Int)) : Op → Nat → Option (Option ResourceId × Int)
  | .trackVMARange resource base offset length _ _, a =>
    if base ≤ a ∧ a < base + length then some (resource, offset + a - base) else last a
  | _, a => last a

/-- The resource and the file offset of the `TrackVMARange` that last mapped an
address. -/
def lastTracked (ops : List Op) : Nat → Option (Option ResourceId × Int) := ops.foldl Op.record fun _ => none

end PowerArm.Vma
