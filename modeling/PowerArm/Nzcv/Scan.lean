import PowerArm.Nzcv.Classify

/-!
# The guest-code scan

`ScanWitnessed`: a depth-first walk over guest words from a target, bounded per
path and in all, that answers DEAD when every path it followed met a flag write.
The depth carried in a stack frame is never read and is left out; `Nodes` is the
number of addresses in `Seen`.
-/

namespace PowerArm.Nzcv

open Decode (Word)

def maxInsnsPerPath : Nat := 48
def maxVisitedWords : Nat := 96

inductive ScanVerdict
  | dead | live | unresolved
deriving DecidableEq, Repr

/-- The range `[low, high)` of the words read; empty while `high < low`. -/
structure Witness where
  low : BitVec 64 := BitVec.allOnes 64
  high : BitVec 64 := 0
deriving DecidableEq, Repr

def Witness.note (w : Witness) (address : BitVec 64) : Witness :=
  ⟨if address < w.low then address else w.low, if address + 4 > w.high then address + 4 else w.high⟩

/-- Guest memory as the scan reads it: `none` where a word is not provably executable. -/
abbrev Memory := BitVec 64 → Option Word

structure Scan where
  stack : List (BitVec 64)
  seen : List (BitVec 64) := []
  worst : ScanVerdict := .dead
  witness : Witness := {}
deriving DecidableEq, Repr

abbrev Answer := ScanVerdict × Witness

/-- The callee scan of a followed `BL`; `none` when calls are not followed. -/
abbrev Callee := Option (BitVec 64 → Witness → Answer)

/-- What a word makes the walk do: go on at an address, end the path or answer. -/
inductive Act
  | go (pc : BitVec 64) (s : Scan)
  | stop (s : Scan)
  | answer (a : Answer)

def act (callee : Callee) (word : Word) (pc : BitVec 64) (s : Scan) : Act :=
  let w := classifyWord word
  match w.kind with
  | .reader => .answer (.live, s.witness)
  | .writer => .stop s
  | .partialWriter | .term | .ret => .stop { s with worst := .unresolved }
  | .svc | .neutral => .go (pc + 4) s
  | .call =>
    match callee with
    | none => .stop { s with worst := .unresolved }
    | some scan =>
      match scan (pc + w.offset) s.witness with
      | (.dead, witness) => .stop { s with witness }
      | (.live, witness) => .answer (.live, witness)
      | (.unresolved, witness) => .stop { s with witness, worst := .unresolved }
  | .branch => .go (pc + w.offset) s
  | .twoway => .go (pc + 4) { s with stack := (pc + w.offset) :: s.stack }

def walk (read : Memory) (callee : Callee) : Nat → BitVec 64 → Scan → Except Answer Scan
  | left, pc, s =>
    if pc ∈ s.seen then .ok s
    else
      let s := { s with seen := pc :: s.seen }
      if maxVisitedWords < s.seen.length then .error (.unresolved, s.witness)
      else
        match left with
        | 0 => .error (.unresolved, s.witness)
        | left + 1 =>
          match read pc with
          | none => .error (.unresolved, s.witness)
          | some word =>
            match act callee word pc { s with witness := s.witness.note pc } with
            | .go pc s => walk read callee left pc s
            | .stop s => .ok s
            | .answer a => .error a

/-- The outer loop. Its fuel covers the pushes of all words (`drain_fuel`). -/
def drain (read : Memory) (callee : Callee) : Nat → Scan → Answer
  | 0, s => (.unresolved, s.witness)
  | fuel + 1, s =>
    match s.stack with
    | [] => (s.worst, s.witness)
    | pc :: stack =>
      match walk read callee (maxInsnsPerPath + 1) pc { s with stack } with
      | .ok s => drain read callee fuel s
      | .error a => a

def scanFuel : Nat := 2 * maxVisitedWords + 2

def scanFrom (read : Memory) (callee : Callee) (target : BitVec 64) (witness : Witness) : Answer :=
  drain read callee scanFuel { stack := [target], witness }

/-- A followed callee is scanned without following its own calls. -/
def scanWitnessed (target : BitVec 64) (followBL : Bool) (read : Memory) (out : Witness) : Answer :=
  scanFrom read (if followBL then some (scanFrom read none) else none) target out

end PowerArm.Nzcv
