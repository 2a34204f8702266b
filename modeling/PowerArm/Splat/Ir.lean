import PowerArm.Flags.Semantics
import PowerArm.Lib.Lanes

/-!
# Scalar vector ops and what they compute

The ops that `ScalarSplatChain` looks at, with their arguments by position as the
IR headers have them, and the PPC64LE lowering's reading of them: an operand is
splatted unless its defining op left it in splat form, the lanewise instruction
runs, and lane 0 is merged over the upper lanes unless the op has `SplatResult`.
-/

namespace PowerArm.Splat

open Flags (Arg Value ofWord)
open Lib

inductive OpSize where
  | i8Bit | i16Bit | i32Bit | i64Bit | i128Bit | i256Bit
deriving DecidableEq, Repr

def OpSize.bits : OpSize → Nat
  | .i8Bit => 8
  | .i16Bit => 16
  | .i32Bit => 32
  | .i64Bit => 64
  | .i128Bit => 128
  | .i256Bit => 256

inductive ArithOp where
  | add | sub | mul | div
deriving DecidableEq, Repr

inductive FmaOp where
  | mla | mls | nmla | nmls
deriving DecidableEq, Repr

inductive MinMaxOp where
  | min | max
deriving DecidableEq, Repr

inductive Slot where
  | fpr (reg : Fin 32)
  | gpr (reg : Nat)
deriving DecidableEq, Repr

/-- The scalar inserts, the ops that the pass reads or makes, and the others. -/
inductive IROps where
  | arith (op : ArithOp) (zeroUpperBits splatResult : Bool)
  | fma (op : FmaOp) (splatResult : Bool)
  | minMax (op : MinMaxOp)
  | storeRegister (slot : Slot)
  | loadRegister (slot : Slot)
  | storeMem (fpr : Bool)
  | vInsElementWide (destIdx srcIdx : Nat)
  | other (opcode : Nat)
deriving DecidableEq, Repr

structure Node where
  id : Nat
  op : IROps
  size : OpSize
  elementSize : OpSize
  args : List Arg
deriving DecidableEq, Repr

-- `arith` and `minMax` take Vector1 and Vector2, `fma` takes Upper, Vector1, Vector2
-- and Addend, the stores take the value first, `vInsElementWide` the destination.
def Node.arg (n : Node) (i : Nat) : Arg := n.args.getD i (.inline 0)

def Node.splatResult (n : Node) : Bool :=
  match n.op with
  | .arith _ _ splat => splat
  | .fma _ splat => splat
  | _ => false

def ids (nodes : List Node) : List Nat := nodes.map Node.id

/-! ## Execution -/

/-- The lanewise functions, and what the surroundings `W` of the block (memory, the
other registers) answer and become. A store has the bits it writes and its other
arguments. -/
structure Host (W : Type) where
  arith : ArithOp → (w : Nat) → BitVec w → BitVec w → BitVec w
  fma : FmaOp → (w : Nat) → BitVec w → BitVec w → BitVec w → BitVec w
  minMax : MinMaxOp → (w : Nat) → BitVec w → BitVec w → BitVec w
  loadGPR : Nat → W → Value
  storeGPR : Nat → Value → W → W
  storeMem : (w : Nat) → BitVec w → List Value → W → W
  other : Nat → List Value → W → Value × W

/-- `received` is what each executed node got for its arguments. -/
structure State (W : Type) where
  env : Nat → Value
  fpr : Fin 32 → Value
  world : W
  received : Nat → List Value

def State.read (s : State W) : Arg → Value
  | .ref id => s.env id
  | .inline constant => ofWord constant

/-- `IsSplatFormValue`: the defining op has `SplatResult` at this element size. -/
def isSplatForm (nodes : List Node) (elementSize : OpSize) : Arg → Bool
  | .ref id => nodes.any fun n => n.id = id && n.splatResult && n.elementSize = elementSize
  | .inline _ => false

def operand (nodes : List Node) (s : State W) (n : Node) (i : Nat) : Value :=
  let v := s.read (n.arg i)
  if isSplatForm nodes n.elementSize (n.arg i) then v else splat 128 (lane n.elementSize.bits 0 v)

def insElement (elementSize : OpSize) (destIdx srcIdx : Nat) (dest src : Value) : Value :=
  setLane destIdx (lane elementSize.bits srcIdx src) dest

def Host.arithLanes (H : Host W) (op : ArithOp) (elementSize : OpSize) (a b : Value) : Value :=
  zipLanes elementSize.bits (H.arith op elementSize.bits) a b

def Host.fmaLanes (H : Host W) (op : FmaOp) (elementSize : OpSize) (a b c : Value) : Value :=
  zipLanes₃ elementSize.bits (H.fma op elementSize.bits) a b c

def Host.minMaxLanes (H : Host W) (op : MinMaxOp) (elementSize : OpSize) (a b : Value) : Value :=
  zipLanes elementSize.bits (H.minMax op elementSize.bits) a b

def result (H : Host W) (nodes : List Node) (s : State W) (n : Node) : Value :=
  match n.op with
  | .arith op _ splatResult =>
    let r := H.arithLanes op n.elementSize (operand nodes s n 0) (operand nodes s n 1)
    if splatResult then r else insElement n.elementSize 0 0 (s.read (n.arg 0)) r
  | .fma op splatResult =>
    let r := H.fmaLanes op n.elementSize (operand nodes s n 1) (operand nodes s n 2) (operand nodes s n 3)
    if splatResult then r else insElement n.elementSize 0 0 (s.read (n.arg 0)) r
  | .minMax op =>
    -- the select runs on the vectors as they are
    let r := H.minMaxLanes op n.elementSize (s.read (n.arg 0)) (s.read (n.arg 1))
    insElement n.elementSize 0 0 (s.read (n.arg 0)) r
  | .storeRegister _ => s.read (n.arg 0)
  | .loadRegister (.fpr reg) => s.fpr reg
  | .loadRegister (.gpr reg) => H.loadGPR reg s.world
  | .storeMem _ => 0
  | .vInsElementWide destIdx srcIdx => insElement n.elementSize destIdx srcIdx (s.read (n.arg 0)) (s.read (n.arg 1))
  | .other opcode => (H.other opcode (n.args.map s.read) s.world).1

def Host.storeLow (H : Host W) (size : OpSize) (value : Value) (args : List Value) (world : W) : W :=
  H.storeMem size.bits (value.setWidth size.bits) args world

def effect (H : Host W) (s : State W) (n : Node) : (Fin 32 → Value) × W :=
  match n.op with
  | .storeRegister (.fpr reg) => (Function.update s.fpr reg (s.read (n.arg 0)), s.world)
  | .storeRegister (.gpr reg) => (s.fpr, H.storeGPR reg (s.read (n.arg 0)) s.world)
  | .storeMem _ => (s.fpr, H.storeLow n.size (s.read (n.arg 0)) (n.args.tail.map s.read) s.world)
  | .other opcode => (s.fpr, (H.other opcode (n.args.map s.read) s.world).2)
  | _ => (s.fpr, s.world)

def exec (H : Host W) (nodes : List Node) (s : State W) (n : Node) : State W where
  env := Function.update s.env n.id (result H nodes s n)
  fpr := (effect H s n).1
  world := (effect H s n).2
  received := Function.update s.received n.id (n.args.map s.read)

def run (H : Host W) (nodes : List Node) (s : State W) : State W := nodes.foldl (exec H nodes) s

end PowerArm.Splat
