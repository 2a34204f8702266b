import Mathlib

/-!
# SMC tracking on host granules

`SMCHostGranule.h`: a host page (granule) holds several guest pages, and write
protection comes and goes for all of them at once. `GranuleTable` remembers which
guest pages of a granule are armed, `RearmQueue` the granules whose siblings still
owe an invalidation. Granules are named by number, the clock is an input, and the
environment settings are a configuration.
-/

namespace PowerArm.Smc

def guestPageSize : Nat := 4096

/-- The host page size in guest pages; the mask has a bit for each. -/
structure Config where
  pagesPerGranule : Nat
  flipLogThreshold : BitVec 32 := 64
  mixedFlipThreshold : BitVec 32 := 0
  mixedMaxTracked : Nat := 4
  pages_pos : 0 < pagesPerGranule
  pages_le : pagesPerGranule ≤ 32

namespace Config

def granuleSize (c : Config) : Nat := c.pagesPerGranule * guestPageSize

def enabled (c : Config) : Bool := c.pagesPerGranule != 1

def granuleOf (c : Config) (addr : Nat) : Nat := addr / c.granuleSize

def pageBit (c : Config) (addr : Nat) : Nat := addr % c.granuleSize / guestPageSize

def touched (c : Config) (start top : Nat) : List Nat :=
  List.range' (c.granuleOf start) ((top + c.granuleSize - 1) / c.granuleSize - c.granuleOf start)

end Config

/-! ## GranuleTable -/

structure Entry where
  trackedMask : BitVec 32 := 0
  flips : BitVec 32 := 0
  windowStart : BitVec 64 := 0
  validateOnly : Bool := false
deriving DecidableEq, Repr

/-- The one-slot mailbox of `TakeFlipReport`. -/
structure FlipReport where
  granule : Nat
  flips : BitVec 32
  tracked : Nat
  demoted : Bool
deriving DecidableEq, Repr

structure Table where
  granules : Nat → Option Entry := fun _ => none
  report : Option FlipReport := none
  demotedCount : BitVec 32 := 0

def popcount (mask : BitVec 32) : Nat := (List.range 32).countP mask.getLsbD

namespace Table

def noteArmed (c : Config) (t : Table) (g : Nat) (pageMask : BitVec 32) : Table :=
  if !c.enabled || pageMask == 0 then t
  else
    let entry := (t.granules g).getD {}
    { t with granules := Function.update t.granules g (some
        (if entry.validateOnly then entry
          else { entry with trackedMask := entry.trackedMask ||| pageMask })) }

def flipWindow (c : Config) (e : Entry) (now : BitVec 64) : Entry :=
  if c.flipLogThreshold ≠ 0 ∨ c.mixedFlipThreshold ≠ 0 then
    if 1000000000 ≤ (now - e.windowStart).toNat then { e with windowStart := now, flips := 1 }
    else { e with flips := e.flips + 1 }
  else e

/-- Enough flips in the window, on a granule with few tracked pages. -/
def demotes (c : Config) (e : Entry) (mask : BitVec 32) : Bool :=
  c.mixedFlipThreshold != 0 && !e.validateOnly && decide (c.mixedFlipThreshold ≤ e.flips) &&
    mask != 0 && decide (popcount mask ≤ c.mixedMaxTracked)

/-- The mask as it was, whether this fault demoted the granule, and the table. -/
def noteFault (c : Config) (t : Table) (g : Nat) (now : BitVec 64) : BitVec 32 × Bool × Table :=
  if !c.enabled then (0, false, t)
  else
    match t.granules g with
    | none => (0, false, t)
    | some entry =>
      let mask := entry.trackedMask
      let e := flipWindow c { entry with trackedMask := 0 } now
      let demoted := demotes c e mask
      let logged := c.flipLogThreshold != 0 && e.flips == c.flipLogThreshold
      let report : Option FlipReport := if (demoted || logged) && e.flips != 0
        then some ⟨g, e.flips, popcount mask, demoted⟩ else t.report
      (mask, demoted,
        { granules := Function.update t.granules g (some { e with validateOnly := e.validateOnly || demoted })
          report
          demotedCount := if demoted then t.demotedCount + 1 else t.demotedCount })

def validateOnly (c : Config) (t : Table) (g : Nat) : Bool :=
  c.enabled && t.demotedCount != 0 && (t.granules g).any (·.validateOnly)

def armed (c : Config) (t : Table) (g : Nat) : Bool := c.enabled && (t.granules g).any (·.trackedMask != 0)

def dropPages (c : Config) (mask : BitVec 32) (first last : Nat) : BitVec 32 :=
  (List.range ((last - first + guestPageSize - 1) / guestPageSize)).foldl
    (fun mask i => mask &&& ~~~((1 : BitVec 32) <<< c.pageBit (first + i * guestPageSize))) mask

/-- One granule of `Forget`: only a demoted one survives a partial range. -/
def forgetOne (c : Config) (start top : Nat) (granules : Nat → Option Entry) (g : Nat) : Nat → Option Entry :=
  match granules g with
  | none => granules
  | some entry =>
    let whole := start ≤ g * c.granuleSize ∧ (g + 1) * c.granuleSize ≤ top
    if whole ∨ !entry.validateOnly then Function.update granules g none
    else
      Function.update granules g (some { entry with
        trackedMask := dropPages c entry.trackedMask (max start (g * c.granuleSize))
          (min top ((g + 1) * c.granuleSize)) })

def forget (c : Config) (t : Table) (start top : Nat) : Table :=
  if !c.enabled then t
  else { t with granules := (c.touched start top).foldl (forgetOne c start top) t.granules }

end Table

/-! ## RearmQueue -/

abbrev Queue := List Nat

def Queue.add (q : Queue) (g : Nat) : Queue := if g ∈ q then q else g :: q

/-- `Drop`: the granules from that of `start` on that begin below `top`. -/
def Queue.drop (c : Config) (q : Queue) (start top : Nat) : Queue :=
  q.filter fun g => !(decide (c.granuleOf start ≤ g) && decide (g * c.granuleSize < top))

/-! ## Both together -/

structure State where
  table : Table := {}
  queue : Queue := []

inductive Op
  | noteArmed (g : Nat) (pageMask : BitVec 32)
  | noteFault (g : Nat) (now : BitVec 64)
  | forget (start top : Nat)
  | queueAdd (g : Nat)
  | queueTake
  | queueDrop (start top : Nat)

def step (c : Config) (s : State) : Op → State
  | .noteArmed g mask => { s with table := s.table.noteArmed c g mask }
  | .noteFault g now => { s with table := (s.table.noteFault c g now).2.2 }
  | .forget start top => { s with table := s.table.forget c start top }
  | .queueAdd g => { s with queue := s.queue.add g }
  | .queueTake => { s with queue := [] }
  | .queueDrop start top => { s with queue := s.queue.drop c start top }

def run (c : Config) (ops : List Op) : State := ops.foldl (step c) {}

end PowerArm.Smc
