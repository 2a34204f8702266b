import PowerArm.Flags.Pass
import PowerArm.Fusion.Ir

/-!
# Compare fusion

`CompareFusion` on one block: `runChain` turns a compare, a conditional compare and
a branch into one `ChainCompare`; `run` lets the readers of a compare's flags compare
its operands themselves, and drops a compare that nobody then needs. `fuseCompares`
is what the dead-flag pass makes of a unit with them.
-/

namespace PowerArm.Fusion

open Flags

/-! ## Conditions -/

def isFusableCond : CondClass → Bool
  | .eq | .neq | .uge | .ult | .ugt | .ule | .sge | .slt | .sgt | .sle => true
  | _ => false

def isUnsignedCond : CondClass → Bool
  | .uge | .ult | .ugt | .ule => true
  | _ => false

def isSignedCond : CondClass → Bool
  | .sge | .slt | .sgt | .sle => true
  | _ => false

def nzcvFormReadsXER (cond : CondClass) : Bool := isUnsignedCond cond || isSignedCond cond

def evalCondAgainstNZCV (cond : CondClass) (nzcv : Nat) : Bool :=
  let n := nzcv &&& 8 ≠ 0
  let z := nzcv &&& 4 ≠ 0
  let c := nzcv &&& 2 ≠ 0
  let v := nzcv &&& 1 ≠ 0
  match cond with
  | .eq => z
  | .neq => !z
  | .uge => c
  | .ult => !c
  | .ugt => c && !z
  | .ule => !(c && !z)
  | .mi => n
  | .pl => !n
  | .vs => v
  | .vc => !v
  | .sge => n = v
  | .slt => n ≠ v
  | .sgt => (n = v) && !z
  | .sle => !((n = v) && !z)
  | _ => false

/-! ## Ops -/

def Op.classify : Op → FlagInfo
  | .ir n => n.op.classify
  | _ => {}

def Op.readsNZCV (op : Op) : Bool := op.classify.read ≠ .none
def Op.writesNZCV (op : Op) : Bool := op.classify.write ≠ .none
def Op.writesAllNZCV (op : Op) : Bool := op.classify.write = .all

section
variable (opcodes : Nat → Opcode)

def mayRaiseSignal : Op → Bool
  | .ir n =>
    match n.op with
    | .storeRegister _ => false
    | .other opcode _ sideEffects =>
      match opcodes opcode with
      | .guestOpcode | .inlineEntrypointOffset | .storeContext => false
      | .loadMem | .loadMemTSO | .loadMemRev | .vLoadVectorMasked | .vLoadVectorGatherMasked
      | .vLoadVectorGatherMaskedQPS | .vLoadVectorElement | .vBroadcastFromMem | .vLoadTwoGPRs => true
      | .constant _ | .unnamed => sideEffects
    | op => op.hasSideEffects
  | .select .. => false
  | .chainCompare .. => true

def opcodeOf (code : List Op) (id : Nat) : Option Opcode :=
  code.findSome? fun
    | .ir ⟨id', .other opcode true _, _, _⟩ => if id' = id then some (opcodes opcode) else none
    | _ => none

def isUsableOperand (code : List Op) : Arg → Bool
  | .inline _ => true
  | .ref id => opcodeOf opcodes code id ≠ some .inlineEntrypointOffset

def isRegisterOperand (code : List Op) : Arg → Bool
  | .inline _ => false
  | .ref id => opcodeOf opcodes code id ≠ some .inlineEntrypointOffset

def getConstant (code : List Op) : Arg → Option Word
  | .inline constant => some constant
  | .ref id =>
    match opcodeOf opcodes code id with
    | some (.constant value) => some value
    | _ => none

def fitsSelectLi (code : List Op) : Arg → Bool
  | .inline constant => -32768 ≤ constant.toInt ∧ constant.toInt ≤ 32767
  | .ref id => opcodeOf opcodes code id ≠ some .inlineEntrypointOffset

/-! ## Producers -/

structure Producer where
  id : Nat
  size : OpSize
  cmp1 : Arg
  src2 : Arg
  isAdd : Bool
  /-- The second operand is a constant that is zero at the size. -/
  againstZero : Bool
  addConst : Word
  negatedConst : Word
  signBit : Word
deriving DecidableEq, Repr

def Producer.cmp2 (p : Producer) : Arg := if p.isAdd then .inline p.negatedConst else p.src2

def negate (size : OpSize) (c : Word) : Word :=
  let neg := size.trunc (0 - c)
  if size = .i64Bit then neg else (neg.setWidth 32).signExtend 64

/-- `none` is a producer that is not fusable. -/
def analyzeOperands (code : List Op) (n : Node) (isAdd : Bool) : Option Producer :=
  if n.size = .i32Bit ∨ n.size = .i64Bit then
    match n.args with
    | cmp1 :: src2 :: _ =>
      if isRegisterOperand opcodes code cmp1 && isUsableOperand opcodes code src2 then
        let constant := getConstant opcodes code src2
        let producer : Producer :=
          { id := n.id
            size := n.size
            cmp1 := cmp1
            src2 := src2
            isAdd := isAdd
            againstZero := constant.any fun c => n.size.trunc c = 0
            addConst := 0
            negatedConst := 0
            signBit := if n.size = .i64Bit then 2 ^ 63 else 2 ^ 31 }
        if isAdd then
          constant.map fun c =>
            { producer with
              addConst := n.size.trunc c
              negatedConst := negate n.size (n.size.trunc c) }
        else some producer
      else none
    | _ => none
  else none

def analyzeProducer (code : List Op) : Op → Option Producer
  | .ir n =>
    match n.op with
    | .subWithFlags | .subNZCV => analyzeOperands opcodes code n false
    | .addWithFlags | .addNZCV => analyzeOperands opcodes code n true
    | _ => none
  | _ => none

/-- The condition of the direct compare, where it means the same as the one on the
producer's flags. -/
def resolveFusedCond (p : Producer) (cond : CondClass) : Option CondClass :=
  if cond = .mi ∨ cond = .pl then
    if p.againstZero then some (if cond = .mi then .slt else .sge) else none
  else if !isFusableCond cond then none
  else if p.isAdd && isUnsignedCond cond && p.addConst = 0 then none
  else if p.isAdd && isSignedCond cond && p.addConst = p.signBit then none
  else some cond

/-! ## RunChain -/

def splits : List α → List (List α × α × List α)
  | [] => []
  | x :: xs => ([], x, xs) :: (splits xs).map fun (before, y, after) => (x :: before, y, after)

def touchesNZCV (n : Node) : Bool := (Op.ir n).readsNZCV || (Op.ir n).writesNZCV

def demote (unused : Bool) (n : Node) : List Node :=
  match n.op with
  | .subWithFlags => [{ n with op := .sub }]
  | .addWithFlags => [{ n with op := .add }]
  | .subNZCV | .addNZCV => if unused then [] else [n]
  | _ => [n]

def condCompare : IROps → Option (CondClass × Nat × Bool)
  | .condSubNZCV cond falseNZCV => some (cond, falseNZCV, false)
  | .condAddNZCV cond falseNZCV => some (cond, falseNZCV, true)
  | _ => none

/-- The rewrite for the conditional compare `q`, if it is one that can be collapsed.
The branch is the last op of the block, so nothing after `q` may touch the flags
before it. -/
def chainAt (outside : Nat → Nat) (code : List Node) (exit : Exit k) (before : List Node) (q : Node)
    (after : List Node) : Option (FusedBlock k) :=
  match condCompare q.op, splitLast touchesNZCV before, exit with
  | some (gate, falseNZCV, isAdd), some (first, p, between), .condJump .fromNZCV cond [] ifTrue ifFalse =>
    let ops := code.map Op.ir
    let signalBetween := (between ++ after).any fun n => !touchesNZCV n && mayRaiseSignal opcodes (.ir n)
    if after.any touchesNZCV || signalBetween then none
    else
      match analyzeProducer opcodes ops (.ir p), analyzeOperands opcodes ops q isAdd with
      | some pp, some qp =>
        match resolveFusedCond pp gate, resolveFusedCond qp cond with
        | some cond1, some cond2 =>
          let falseResult := evalCondAgainstNZCV cond falseNZCV
          let unused := usesIn (codeArgs code) p.id + outside p.id = 0
          let kept := first ++ demote unused p ++ between ++ after
          let compare := Op.chainCompare p.size pp.cmp1 pp.cmp2 qp.cmp1 qp.cmp2 cond1 cond2 q.size falseResult
          some ⟨kept.map .ir ++ [compare], .chain ifTrue ifFalse⟩
        | _, _ => none
      | _, _ => none
  | _, _, _ => none

/-- The loop over the conditional compares. The first that is collapsed takes the
branch, so no other can be. -/
def runChain (outside : Nat → Nat) (b : Block k) (nzcvLiveOut : Bool) : FusedBlock k :=
  if nzcvLiveOut then .ofBlock b
  else
    ((splits b.code).findSome? fun (before, q, after) =>
      chainAt opcodes outside b.code b.exit before q after).getD (.ofBlock b)

/-! ## Run -/

inductive Site where
  | node (id : Nat)
  | exit
deriving DecidableEq, Repr

structure Consumer where
  site : Site
  producer : Producer
  cond : CondClass
  readsXER : Bool
  apply : Bool
deriving DecidableEq, Repr

/-- The walk over a block. The consumers of the current producer are still open. -/
structure Walk where
  cur : Option Producer := none
  curKept : Bool := false
  signalSinceCur : Bool := false
  opened : List Consumer := []
  closed : List Consumer := []
  deadProducers : List Nat := []

def Walk.close (removeDead : Bool) (w : Walk) (flagsNeededLater : Bool) : Walk :=
  match w.cur with
  | none => w
  | some p =>
    let dead := !w.curKept && !flagsNeededLater
    { w with
      opened := []
      closed := w.closed ++ w.opened.map fun c => { c with apply := dead || c.readsXER }
      deadProducers :=
        if dead && removeDead && !w.opened.isEmpty then w.deadProducers ++ [p.id] else w.deadProducers }

def Walk.read (w : Walk) (site : Site) (cond : Option CondClass) : Walk :=
  match w.cur with
  | none => { w with curKept := true }
  | some p =>
    match cond.bind fun cond => (resolveFusedCond p cond).map (cond, ·) with
    | none => { w with curKept := true }
    | some (orig, fused) =>
      { w with
        opened := w.opened ++ [⟨site, p, fused, nzcvFormReadsXER orig, false⟩]
        curKept := w.curKept || w.signalSinceCur }

/-- The id of an op and the condition of an `NZCVSelect` that can be rewritten. -/
def selectCond (code : List Op) : Op → Option CondClass
  | .ir n =>
    match n.op, n.args with
    | .nzcvSelect cond, [trueVal, falseVal] =>
      if fitsSelectLi opcodes code trueVal && fitsSelectLi opcodes code falseVal then some cond else none
    | _, _ => none
  | _ => none

def Op.site : Op → Site
  | .ir n => .node n.id
  | .select id .. => .node id
  | .chainCompare .. => .exit

def Walk.observe (code : List Op) (w : Walk) (op : Op) : Walk :=
  if op.readsNZCV then w.read op.site (selectCond opcodes code op)
  else if !op.writesNZCV && mayRaiseSignal opcodes op then { w with signalSinceCur := true }
  else w

def Walk.step (removeDead : Bool) (code : List Op) (w : Walk) (op : Op) : Walk :=
  -- a read comes before the op's own write
  let w := w.observe opcodes code op
  if op.writesNZCV then
    { w.close removeDead (!op.writesAllNZCV) with
      cur := analyzeProducer opcodes code op
      curKept := false
      signalSinceCur := false }
  else w

def exitCond : Terminator k → Option CondClass
  | .ir (.condJump .fromNZCV cond _ _ _) => some cond
  | _ => none

/-- The exit as a reader; `AL` reads no flag. -/
def Walk.exit (w : Walk) (exit : Terminator k) : Walk :=
  match exitCond exit with
  | some cond => if cond.flags = .none then w else w.read .exit (some cond)
  | none => w

def analyze (removeDead nzcvLiveOut : Bool) (b : FusedBlock k) : Walk :=
  ((b.code.foldl (Walk.step opcodes removeDead b.code) {}).exit b.exit).close removeDead nzcvLiveOut

def Walk.applied (w : Walk) (site : Site) : Option Consumer := w.closed.find? fun c => c.site = site && c.apply

/-- `NZCVSelect` becomes `Select`. The new op takes over every use of the old one;
here it takes over its id. -/
def rewriteOp (w : Walk) : Op → Op
  | .ir n =>
    match w.applied (.node n.id), n.args with
    | some c, [trueVal, falseVal] =>
      .select n.id n.size c.producer.size c.cond c.producer.cmp1 c.producer.cmp2 trueVal falseVal
    | _, _ => .ir n
  | op => op

def rewriteExit (w : Walk) : Terminator k → Terminator k
  | .ir (.condJump source cond args ifTrue ifFalse) =>
    match w.applied .exit with
    | some c => .ir (.condJump (.compare c.producer.size) c.cond [c.producer.cmp1, c.producer.cmp2] ifTrue ifFalse)
    | none => .ir (.condJump source cond args ifTrue ifFalse)
  | exit => exit

def dropDead (w : Walk) (uses : Nat → Nat) : Op → List Op
  | .ir n => if n.id ∈ w.deadProducers then (demote (uses n.id = 0) n).map .ir else [.ir n]
  | op => [op]

def run (outside : Nat → Nat) (removeDead : Bool) (b : FusedBlock k) (nzcvLiveOut : Bool) : FusedBlock k :=
  let w := analyze opcodes removeDead nzcvLiveOut b
  let code := b.code.map (rewriteOp w)
  let exit := rewriteExit w b.exit
  let uses := fun id => usesIn (code.flatMap Op.args) id + usesIn exit.args id + outside id
  ⟨code.flatMap (dropDead w uses), exit⟩

/-! ## The unit -/

structure FusionOptions where
  disableCmpBranchFusion : Bool
  disableCCMPChain : Bool
  disableDFCEStoreElim : Bool

def nzcvLiveOut (flags : Fin k → NZCV) : Exit k → Bool
  | .jump target => flags target ≠ .none
  | .condJump _ _ _ ifTrue ifFalse => (flags ifTrue).union (flags ifFalse) ≠ .none
  | _ => true

def fuseBlock (o : FusionOptions) (u : IRUnit k) (flags : Fin k → NZCV) (b : Fin k) : FusedBlock k :=
  let block := u b
  if block.hasFlags && !o.disableCmpBranchFusion then
    let live := nzcvLiveOut flags block.exit
    let outside := u.usesOutside b
    let chained :=
      if o.disableCCMPChain then .ofBlock block
      else runChain opcodes (fun id => outside id + usesIn block.exit.args id) block live
    run opcodes outside (!o.disableDFCEStoreElim) chained live
  else .ofBlock block

def fuseCompares (o : FusionOptions) (flags : Fin k → NZCV) (u : IRUnit k) : FusedUnit k :=
  fuseBlock opcodes o u flags

end

end PowerArm.Fusion
