import Mathlib

/-!
# IR units

The part of the intermediate representation that the flag passes look at. A
unit is a finite set of blocks, each a list of ops and one exit; an op names the
ops whose values it takes by their SSA ids. An `InlineConstant` emits no code of
its own, so an argument that refers to one is the constant itself.
-/

namespace PowerArm.Flags

@[ext] structure NZCV where
  n : Bool
  z : Bool
  c : Bool
  v : Bool
deriving DecidableEq, Repr

namespace NZCV

def all : NZCV := ⟨true, true, true, true⟩
def none : NZCV := ⟨false, false, false, false⟩

def union (a b : NZCV) : NZCV := ⟨a.n || b.n, a.z || b.z, a.c || b.c, a.v || b.v⟩
def inter (a b : NZCV) : NZCV := ⟨a.n && b.n, a.z && b.z, a.c && b.c, a.v && b.v⟩
def diff (a b : NZCV) : NZCV := ⟨a.n && !b.n, a.z && !b.z, a.c && !b.c, a.v && !b.v⟩

def ofNibble (m : Nat) : NZCV := ⟨m.testBit 3, m.testBit 2, m.testBit 1, m.testBit 0⟩

end NZCV

inductive OpSize where
  | i8Bit | i16Bit | i32Bit | i64Bit
deriving DecidableEq, Repr

def OpSize.bits : OpSize → Nat
  | .i8Bit => 8
  | .i16Bit => 16
  | .i32Bit => 32
  | .i64Bit => 64

inductive CondClass where
  | eq | neq | uge | ult | mi | pl | vs | vc | ugt | ule | sge | slt | sgt | sle
  | tstz | tstnz | flu | fge | fleu | fgt | fu | fnu | al
deriving DecidableEq, Repr

inductive ShiftType where
  | lsl | lsr | asr | ror
deriving DecidableEq, Repr

/-- The opcodes that read or write flags, the ones they are rewritten to, the
`StoreRegister` that a fold looks past, and every other opcode as what the passes
see of it: whether it has a destination and side effects. -/
inductive IROps where
  | and | add | sub | adc | adcZero | sbb
  | andWithFlags | addWithFlags | subWithFlags | adcWithFlags | adcZeroWithFlags | sbbWithFlags
  | testNZ | testZ | addNZCV | subNZCV | adcNZCV | sbbNZCV
  | shiftFlags (shift : ShiftType) (invertCF : Bool)
  | rotateFlags (left : Bool)
  | rdrand | fcmp | fcmpX86 | storeNZCV | loadNZCV | axFlag | cmpPairZ | carryInvert | setSmallNZV
  | nzcvSelect (cond : CondClass) | nzcvSelectV (cond : CondClass)
  | nzcvSelectIncrement (cond : CondClass) | neg (cond : CondClass)
  | condAddNZCV (cond : CondClass) (falseNZCV : Nat)
  | condSubNZCV (cond : CondClass) (falseNZCV : Nat)
  | rmifNZCV (rotate mask : Nat)
  | invalidateFlags (flags : Nat)
  | storeRegister (reg : Nat)
  | other (opcode : Nat) (hasDest sideEffects : Bool)
deriving DecidableEq, Repr

def IROps.hasSideEffects : IROps → Bool
  | .and | .add | .sub | .adc | .adcZero | .sbb => false
  | .loadNZCV | .nzcvSelect _ | .nzcvSelectV _ | .nzcvSelectIncrement _ | .neg _ => false
  | .other _ _ sideEffects => sideEffects
  | _ => true

def IROps.hasDest : IROps → Bool
  | .testNZ | .testZ | .addNZCV | .subNZCV | .adcNZCV | .sbbNZCV => false
  | .rotateFlags _ | .fcmp | .storeNZCV | .axFlag | .cmpPairZ | .carryInvert | .setSmallNZV => false
  | .condAddNZCV .. | .condSubNZCV .. | .rmifNZCV .. | .invalidateFlags _ => false
  | .storeRegister _ => false
  | .other _ hasDest _ => hasDest
  | _ => true

def IROps.isFlagOp : IROps → Bool
  | .and | .add | .sub | .testZ | .storeRegister _ | .other .. => false
  | _ => true

inductive Arg where
  | ref (id : Nat)
  | inline (constant : BitVec 64)
deriving DecidableEq, Repr

structure Node where
  id : Nat
  op : IROps
  size : OpSize
  args : List Arg
deriving DecidableEq, Repr

/-- Where a `CondJump` takes its condition from: the flags, a compare of its
two general-register arguments, or one of the modes that read neither (a vector
compare, a predicate left in a condition register). -/
inductive CondSource where
  | fromNZCV
  | compare (size : OpSize)
  | other (mode : Nat)
deriving DecidableEq, Repr

inductive Exit (k : Nat) where
  | jump (target : Fin k)
  | condJump (source : CondSource) (cond : CondClass) (args : List Arg) (ifTrue ifFalse : Fin k)
  | exitFunction (args : List Arg) (nzcvDeadAtTarget : Bool)
  | other (opcode : Nat) (args : List Arg)
deriving DecidableEq, Repr

def Exit.args : Exit k → List Arg
  | .jump _ => []
  | .condJump _ _ args _ _ => args
  | .exitFunction args _ => args
  | .other _ args => args

def Exit.isCondJump : Exit k → Bool
  | .condJump .. => true
  | _ => false

/-- `HasFlags` is set by the emitter when it creates a flag op in the block, so
a block without it has none. -/
structure Block (k : Nat) where
  hasFlags : Bool
  code : List Node
  exit : Exit k
  flagless : hasFlags = false → (∀ n ∈ code, n.op.isFlagOp = false) ∧ exit.isCondJump = false

abbrev IRUnit (k : Nat) := Fin k → Block k

/-! ## Uses -/

def usesIn (args : List Arg) (id : Nat) : Nat := args.count (.ref id)

def codeArgs (code : List Node) : List Arg := code.flatMap Node.args

def Block.args (b : Block k) : List Arg := codeArgs b.code ++ b.exit.args

def IRUnit.usesOutside (u : IRUnit k) (b : Fin k) (id : Nat) : Nat :=
  ((List.finRange k).map fun b' => if b' = b then 0 else usesIn (u b').args id).sum

def defs (code : List Node) : List Nat := (code.filter fun n => n.op.hasDest).map Node.id

def ids (code : List Node) : List Nat := code.map Node.id

def IRUnit.ids (u : IRUnit k) : List Nat := (List.finRange k).flatMap fun b => Flags.ids (u b).code

end PowerArm.Flags
