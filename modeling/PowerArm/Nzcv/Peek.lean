import PowerArm.Decode.Block
import PowerArm.Nzcv.Scan

/-!
# The peek at constant exit targets

`NZCVPeek::Apply` over the terminators of a unit's blocks, in the order they are
visited: which exits it marks, and how it widens the decoder's extent. The
statistics and the tripwire are left out.
-/

namespace PowerArm.Nzcv

open Decode (Addr Word pageOf insertSorted)

def hullBound : Addr := 4 * 1024

def Witness.Empty (w : Witness) : Prop := w.high < w.low

instance (w : Witness) : Decidable w.Empty := inferInstanceAs (Decidable (_ < _))

def Witness.merge (w other : Witness) : Witness :=
  if other.Empty then w
  else
    ⟨if other.low < w.low then other.low else w.low, if w.high < other.high then other.high else w.high⟩

/-- Guest words as the peek reads them, through the decoder's own range check. -/
def peekMemory (g : Decode.Guest) : Memory := fun a =>
  if a &&& 3 = 0 ∧ g.execAt a = true then some (g.mem a) else none

/-! ## Exits -/

inductive BranchHint
  | none | call | ret | checkTF
deriving DecidableEq, Repr

inductive ExitSource
  | immediate
  | inlineEntrypointOffset (is32Bit : Bool) (offset : Addr)
  | inlineConstant (constant : Addr)
  | other
deriving DecidableEq, Repr

structure ExitFunction where
  hint : BranchHint
  newRIP : ExitSource
  nzcvDeadAtTarget : Bool := false
deriving DecidableEq, Repr

inductive Terminator
  | exitFunction (op : ExitFunction)
  | other
deriving DecidableEq, Repr

def ExitFunction.constantTarget (op : ExitFunction) (entry : Addr) : Option Addr :=
  if op.hint = .ret then none
  else
    match op.newRIP with
    | .inlineEntrypointOffset is32Bit offset =>
      some ((entry + offset) &&& if is32Bit then 0xFFFFFFFF else BitVec.allOnes 64)
    | .inlineConstant constant => some constant
    | .immediate | .other => none

/-! ## The unit -/

structure Extent where
  minAddress : Addr
  maxAddress : Addr
  codePages : List Addr
deriving DecidableEq, Repr

/-- A unit as the frontend hands it over. One that faults at its entry ends in a
signal and has no exit, so a unit with an exit has decoded something. -/
structure PeekUnit where
  entry : Addr
  extent : Extent
  isbExitTargets : List Addr
  blocks : List Terminator
  below : extent.minAddress ≤ entry
  decoded : (∃ op, .exitFunction op ∈ blocks) →
    extent.minAddress < extent.maxAddress ∧ extent.maxAddress.toNat + 4096 ≤ 2 ^ 64
  unmarked : ∀ op, .exitFunction op ∈ blocks → op.nzcvDeadAtTarget = false

/-- The page loop of `AddPeekWitnessRange`. `addPages_fuel` says the fuel used is enough. -/
def addPages (stop : Addr) : Nat → Addr → List Addr → List Addr
  | 0, _, pages => pages
  | fuel + 1, page, pages =>
    if page < stop then addPages stop fuel (page + 4096) (insertSorted pages page) else pages

def pageFuel (start stop : Addr) : Nat := (stop - start).toNat / 4096 + 2

def Extent.addPeekWitnessRange (e : Extent) (start stop : Addr) : Extent :=
  if stop ≤ start then e
  else
    { minAddress := if start < e.minAddress then start else e.minAddress
      maxAddress := if e.maxAddress < stop then stop else e.maxAddress
      codePages := addPages stop (pageFuel start stop) (pageOf start) e.codePages }

/-! ## The pass -/

inductive Mode
  | off | on | canary | strict
deriving DecidableEq, Repr

def peekExit (read : Memory) (u : PeekUnit) (noWindowCheck : Bool) (hull : Witness)
    (op : ExitFunction) : Option Witness :=
  match op.constantTarget u.entry with
  | none => none
  | some target =>
    if target &&& 3 ≠ 0 ∨ target ∈ u.isbExitTargets then none
    else
      let scan := scanWitnessed target false read {}
      if scan.1 ≠ .dead ∨ scan.2.Empty then none
      else if scan.2.low < u.entry ∧ noWindowCheck = false then none
      else
        let candidate := hull.merge scan.2
        if candidate.Empty ∨ hullBound < candidate.high - candidate.low then none
        else some candidate

structure Peek where
  hull : Witness
  anyDead : Bool := false
  blocks : List Terminator := []

def Peek.visit (read : Memory) (u : PeekUnit) (noWindowCheck : Bool) (p : Peek) : Terminator → Peek
  | .other => { p with blocks := p.blocks ++ [.other] }
  | .exitFunction op =>
    match peekExit read u noWindowCheck p.hull op with
    | none => { p with blocks := p.blocks ++ [.exitFunction op] }
    | some hull => ⟨hull, true, p.blocks ++ [.exitFunction { op with nzcvDeadAtTarget := true }]⟩

def PeekUnit.hull (u : PeekUnit) : Witness :=
  if u.extent.minAddress < u.extent.maxAddress then ⟨u.extent.minAddress, u.extent.maxAddress⟩
  else {}

def PeekUnit.apply (read : Memory) (mode : Mode) (noWindowCheck : Bool) (u : PeekUnit) : List Terminator × Extent :=
  if mode = .off ∨ u.blocks = [] then (u.blocks, u.extent)
  else
    let p := u.blocks.foldl (Peek.visit read u noWindowCheck) { hull := u.hull }
    if p.anyDead then (p.blocks, u.extent.addPeekWitnessRange p.hull.low p.hull.high)
    else (p.blocks, u.extent)

end PowerArm.Nzcv
