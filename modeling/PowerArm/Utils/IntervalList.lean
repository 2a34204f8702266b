import PowerArm.Lib.Intervals

/-!
# Interval lists

`IntervalList`: half-open intervals in a vector sorted by their ends. `Insert` joins the
new interval with the stored ones it overlaps, `Remove` cuts it out of them, and three
queries search the vector. Iterators are indexes; `std::equal_range` is the pair of
the lower and the upper bound.
-/

namespace PowerArm.Utils

open Lib.Intervals (search)

structure Interval (α : Type _) where
  offset : α
  stop : α
deriving DecidableEq, Repr

structure QueryResult (α : Type _) where
  enclosed : Bool
  size : α
  interval : Option (Interval α)
deriving DecidableEq, Repr

abbrev IntervalList (α : Type _) := List (Interval α)

namespace IntervalList

section
variable (l : IntervalList α)

def insertAt (index : Nat) (r : Interval α) : IntervalList α := l.take index ++ r :: l.drop index

def eraseRange (first stop : Nat) : IntervalList α := l.take first ++ l.drop stop

end

variable [LinearOrder α] (l : IntervalList α)

/-- The stored intervals from the first that ends after the entry's start up to the
first that starts at or after its end. -/
def equalRange (entry : Interval α) : Nat × Nat :=
  (search (fun r => decide (entry.offset < r.stop)) l, search (fun r => decide (entry.stop ≤ r.offset)) l)

def insert (entry : Interval α) : IntervalList α :=
  if entry.offset = entry.stop then l
  else
    let (first, stop) := equalRange l entry
    if first = stop then insertAt l first entry
    else
      let last := stop - 1
      match l[first]?, l[last]? with
      | some f, some g =>
        -- all overlapping entries but the first are erased
        (eraseRange l (first + 1) (last + 1)).set first ⟨min entry.offset f.offset, max g.stop entry.stop⟩
      | _, _ => l

def removeEnd (entry g : Interval α) (first last : Nat) : IntervalList α :=
  if entry.stop < g.stop then
    let l := l.set last { g with offset := entry.stop }
    if last = first then l else eraseRange l first (last - 1 + 1)
  else eraseRange l first (last + 1)

def remove (entry : Interval α) : IntervalList α :=
  if entry.offset = entry.stop then l
  else
    let (first, stop) := equalRange l entry
    if first = stop then l
    else
      let last := stop - 1
      match l[first]?, l[last]? with
      | some f, some g =>
        if f.offset < entry.offset ∧ entry.stop < f.stop then
          -- the copy in front ends where the removed interval starts
          (insertAt l first { f with stop := entry.offset }).set (first + 1) { f with offset := entry.stop }
        else if f.offset < entry.offset then
          let l := l.set first { f with stop := entry.offset }
          if first = last then l else removeEnd l entry g (first + 1) last
        else removeEnd l entry g first last
      | _, _ => l

/-- The size is the distance to the end of the interval around the offset, or else to
the next interval. -/
def query [Sub α] [Zero α] (offset : α) : QueryResult α :=
  match l[search (fun r => decide (offset < r.stop)) l]? with
  | none => ⟨false, 0, none⟩
  | some r => if offset < r.offset then ⟨false, r.offset - offset, some r⟩ else ⟨true, r.stop - offset, some r⟩

def intersect (entry : Interval α) : Bool :=
  match l[search (fun r => decide (entry.offset < r.stop)) l]? with
  | none => false
  | some r => r.offset < entry.stop

def contains (entry : Interval α) : Bool :=
  match l[search (fun r => decide (entry.offset < r.stop)) l]? with
  | none => false
  | some r => r.offset ≤ entry.offset ∧ entry.stop ≤ r.stop

end IntervalList

/-! ## Runs -/

inductive IntervalOp (α : Type _) where
  | insert (entry : Interval α)
  | remove (entry : Interval α)
deriving DecidableEq, Repr

namespace IntervalOp

def entry : IntervalOp α → Interval α
  | insert entry => entry
  | remove entry => entry

variable [LinearOrder α]

def step (l : IntervalList α) : IntervalOp α → IntervalList α
  | insert entry => l.insert entry
  | remove entry => l.remove entry

def run (ops : List (IntervalOp α)) : IntervalList α := ops.foldl step []

end IntervalOp

end PowerArm.Utils
