import PowerArm.Lib.Intervals
import PowerArm.Utils.HostPage

/-!
# Host-owned address ranges

`HostOwnedRanges`: the mappings a guest request must not touch. They come from
one snapshot of `/proc/self/maps` and from `Add`; each time the list is sorted and
coalesced in place, and `FindOverlap` searches it by bisection. Addresses are 64
bits wide and additions wrap. How `std::sort` orders ranges of one base is left
open.
-/

namespace PowerArm.HostRanges

open PowerArm.Lib.Intervals

structure Range where
  base : Nat
  stop : Nat
  mayWrite : Bool := true
deriving DecidableEq, Repr

def addressLimit : Nat := 2 ^ 64

/-- `std::sort` by base: some sorted permutation. -/
structure SortByBase where
  sort : List Range → List Range
  perm : ∀ l, (sort l).Perm l
  sorted : ∀ l, (sort l).Pairwise fun r r' => r.base ≤ r'.base

structure State where
  ranges : List Range := []
  snapshotted : Bool := false
  rangeCount : Nat := 0
deriving DecidableEq

/-! ## AddLocked and SortAndCoalesceLocked -/

def addLocked (ranges : List Range) (base stop : Nat) (mayWrite : Bool) : List Range :=
  if stop ≤ base then ranges else ranges ++ [⟨base, stop, mayWrite⟩]

/-- Overlapping ranges are joined, adjacent ones if they agree on `mayWrite`. -/
def joins (last r : Range) : Bool := r.base < last.stop || r.base == last.stop && r.mayWrite == last.mayWrite

def merge (last r : Range) : Range :=
  { last with stop := max last.stop r.stop, mayWrite := last.mayWrite && r.mayWrite }

def sortAndCoalesceLocked (S : SortByBase) (s : State) : State :=
  let ranges := coalesce joins merge (S.sort s.ranges)
  { s with ranges, rangeCount := ranges.length }

def add (page : HostPage) (S : SortByBase) (s : State) (base size : BitVec 64) : State :=
  if size = 0 then s
  else
    sortAndCoalesceLocked S { s with
      ranges := addLocked s.ranges (page.alignDown base.toNat) (page.alignUp (base + size).toNat) true }

/-! ## SnapshotSelf -/

structure MapsLine where
  start : BitVec 64
  stop : BitVec 64
  path : List Char
deriving DecidableEq, Repr

/-- `HandleLine`: named mappings, and anonymous ones right behind an included one. -/
def handleLine (acc : List Range × Nat) (line : MapsLine) : List Range × Nat :=
  if line.stop ≤ line.start then acc
  else
    let named := line.path != []
    let chainedAnon := !named && line.start.toNat == acc.2 && acc.2 != 0
    if !named && !chainedAnon then acc
    else
      (acc.1 ++ [⟨line.start.toNat, line.stop.toNat, !"[vvar".toList.isPrefixOf line.path⟩], line.stop.toNat)

/-- `ParseSelfMaps`; `none` if the file cannot be read or nothing in it is included. -/
def parseSelfMaps (maps : Option (List MapsLine)) : Option (List Range) :=
  maps.bind fun lines =>
    let ranges := (lines.foldl handleLine ([], 0)).1
    if ranges = [] then none else some ranges

def firstGuardedAddress : Nat := 0x100000000

def addParsed (ranges : List Range) (r : Range) : List Range :=
  if r.stop ≤ firstGuardedAddress then ranges
  else addLocked ranges (max r.base firstGuardedAddress) r.stop r.mayWrite

def addHook (ranges : List Range) (entry : BitVec 64 × BitVec 64) : List Range :=
  addLocked ranges entry.1.toNat entry.2.toNat true

/-- The first call reads the maps; later ones would capture guest mappings. -/
def snapshotSelf (S : SortByBase) (s : State) (maps : Option (List MapsLine))
    (hook : List (BitVec 64 × BitVec 64)) : State :=
  if s.snapshotted then s
  else
    let s := { s with snapshotted := true }
    match parseSelfMaps maps with
    | none => s
    | some parsed =>
      sortAndCoalesceLocked S { s with ranges := hook.foldl addHook (parsed.foldl addParsed s.ranges) }

/-! ## FindOverlap -/

def noRange : Range := ⟨0, 0, true⟩

def State.baseAt (s : State) (i : Nat) : Nat := (s.ranges[i]?.map (·.base)).getD 0

/-- The range before the upper bound of `start`, else the one at it. -/
def State.search (s : State) (start stop : Nat) : Range :=
  let it := upperBound (fun i => decide (start < s.baseAt i)) s.ranges.length
  let before := if it = 0 then none
    else s.ranges[it - 1]?.filter fun r => decide (start < r.stop ∧ r.base < stop)
  match before with
  | some r => r
  | none => (s.ranges[it]?.filter fun r => decide (r.base < stop)).getD noRange

def findOverlap (page : HostPage) (s : State) (base size : BitVec 64) : Range :=
  if s.rangeCount = 0 ∨ size = 0 then noRange
  else
    let start := page.alignDown base.toNat
    let stop := page.alignUp (base + size).toNat
    -- wrapped: refuse the request instead of handing it to the kernel
    if stop ≤ start then ⟨start, addressLimit - 1, true⟩
    else s.search start stop

inductive Op
  | add (base size : BitVec 64)
  | snapshot (maps : Option (List MapsLine)) (hook : List (BitVec 64 × BitVec 64))

def step (page : HostPage) (S : SortByBase) (s : State) : Op → State
  | .add base size => add page S s base size
  | .snapshot maps hook => snapshotSelf S s maps hook

def run (page : HostPage) (S : SortByBase) (ops : List Op) : State := ops.foldl (step page S) {}

end PowerArm.HostRanges
