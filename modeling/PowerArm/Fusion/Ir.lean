import PowerArm.Flags.Semantics

/-!
# The IR that compare fusion makes

The flag IR with the two ops that `CompareFusion` creates, a `Select` on a direct
compare and a `ChainCompare`, and with the branch on the predicate bit that a
`ChainCompare` leaves in a condition register.
-/

namespace PowerArm.Fusion

open Flags

/-- What the opcode number of an op that the flag passes do not look into stands for. -/
inductive Opcode where
  | constant (value : Word)
  | inlineEntrypointOffset | guestOpcode | storeContext
  | loadMem | loadMemTSO | loadMemRev
  | vLoadVectorMasked | vLoadVectorGatherMasked | vLoadVectorGatherMaskedQPS
  | vLoadVectorElement | vBroadcastFromMem | vLoadTwoGPRs
  | unnamed
deriving DecidableEq, Repr

inductive Op where
  | ir (node : Node)
  | select (id : Nat) (size compareSize : OpSize) (cond : CondClass) (cmp1 cmp2 trueVal falseVal : Arg)
  | chainCompare (size : OpSize) (cmp1 cmp2 cmp3 cmp4 : Arg) (cond1 cond2 : CondClass)
      (cmp2Size : OpSize) (falseResult : Bool)
deriving DecidableEq, Repr

def Op.args : Op → List Arg
  | .ir n => n.args
  | .select _ _ _ _ cmp1 cmp2 trueVal falseVal => [cmp1, cmp2, trueVal, falseVal]
  | .chainCompare _ cmp1 cmp2 cmp3 cmp4 _ _ _ _ => [cmp1, cmp2, cmp3, cmp4]

inductive Terminator (k : Nat) where
  | ir (exit : Exit k)
  | chain (ifTrue ifFalse : Fin k)
deriving DecidableEq, Repr

def Terminator.args : Terminator k → List Arg
  | .ir exit => exit.args
  | .chain _ _ => []

structure FusedBlock (k : Nat) where
  code : List Op
  exit : Terminator k

abbrev FusedUnit (k : Nat) := Fin k → FusedBlock k

def FusedBlock.ofBlock (b : Block k) : FusedBlock k := ⟨b.code.map .ir, .ir b.exit⟩

/-! ## Execution -/

structure Machine where
  state : State
  chainCR : Bool

def directCompare (h : Host) (s : State) (size : OpSize) (cond : CondClass) (x y : Arg) : Bool :=
  (CondSource.compare size).taken h cond [s.read x, s.read y] s

def Op.exec (h : Host) : Op → Machine → Machine
  | .ir n, m => { m with state := n.exec h m.state }
  | .select id size compareSize cond cmp1 cmp2 trueVal falseVal, m =>
    let s := m.state
    let v := if directCompare h s compareSize cond cmp1 cmp2 then s.read trueVal else s.read falseVal
    { m with state := { s with env := Function.update s.env id (ofWord (size.trunc v.word)) } }
  | .chainCompare size cmp1 cmp2 cmp3 cmp4 cond1 cond2 cmp2Size falseResult, m =>
    let a := directCompare h m.state size cond1 cmp1 cmp2
    let b := directCompare h m.state cmp2Size cond2 cmp3 cmp4
    { m with chainCR := if falseResult then !a || b else a && b }

def execOps (h : Host) (code : List Op) (m : Machine) : Machine := code.foldl (fun m op => op.exec h m) m

def Terminator.exec (h : Host) (m : Machine) : Terminator k → Config k
  | .ir exit => exit.exec h m.state
  | .chain ifTrue ifFalse => .at (if m.chainCR then ifTrue else ifFalse) (m.state.observe (.branch m.chainCR))

/-- A predicate bit is written right before the branch that reads it, so none comes
from another block. -/
def FusedBlock.exec (h : Host) (b : FusedBlock k) (s : State) : Config k :=
  b.exit.exec h (execOps h b.code ⟨s, false⟩)

def FusedUnit.step (h : Host) (u : FusedUnit k) : Config k → Config k
  | .at b s => (u b).exec h s
  | .left dead s => .left dead s

def FusedUnit.run (h : Host) (u : FusedUnit k) (blocks : Nat) (c : Config k) : Config k := (u.step h)^[blocks] c

def withConstants (opcodes : Nat → Opcode) (h : Host) : Host :=
  { h with
    result := fun trace n args =>
      match n.op with
      | .other opcode _ _ =>
        match opcodes opcode with
        | .constant value => ofWord value
        | _ => h.result trace n args
      | _ => h.result trace n args }

end PowerArm.Fusion
