import PowerArm.Splat.Ir

/-!
# The scalar splat chain pass

`ScalarSplatChain::Run` on one block: the walk that tracks candidates and their
aliases through the static registers and classifies every use of a tracked node,
the marking of the candidates whose uses were all seen, the merge nodes, and the
retargeting of the uses.
-/

namespace PowerArm.Splat

open Flags (Arg)

/-! ## Eligibility -/

def IROps.isArithProducer : IROps → Bool
  | .arith .. => true
  | _ => false

def IROps.isFMAProducer : IROps → Bool
  | .fma .. => true
  | _ => false

def IROps.isSplattableProducer (op : IROps) : Bool := op.isArithProducer || op.isFMAProducer

/-- Upper for the FMA family, Vector1 for the arithmetic one; both are argument 0. -/
def IROps.lineageArgIdx (_ : IROps) : Nat := 0

def IROps.readsOnlyElement0OfVector2 : IROps → Bool
  | .minMax _ => true
  | op => op.isSplattableProducer

def isEligible (n : Node) : Bool :=
  n.op.isSplattableProducer && n.size = .i128Bit && (n.elementSize = .i32Bit || n.elementSize = .i64Bit) &&
    match n.op with
    | .arith _ zeroUpperBits _ => !zeroUpperBits
    | _ => true

def setSplatResult (n : Node) : Node :=
  match n.op with
  | .arith op zeroUpperBits _ => { n with op := .arith op zeroUpperBits true }
  | .fma op _ => { n with op := .fma op true }
  | _ => n

/-! ## The analysis walk -/

structure Candidate where
  node : Nat
  elementSize : OpSize
deriving DecidableEq, Repr

structure Tracked where
  cand : Candidate
  isAlias : Bool
deriving DecidableEq, Repr

structure Walk where
  trackedOf : Nat → Option Tracked := fun _ => none
  curSRA : Fin 32 → Option Candidate := fun _ => none

def Walk.trackedOfArg (w : Walk) : Arg → Option Tracked
  | .ref id => w.trackedOf id
  | .inline _ => none

def Walk.track (w : Walk) (node : Nat) (cand : Candidate) (isAlias : Bool) : Walk :=
  { w with trackedOf := Function.update w.trackedOf node (some ⟨cand, isAlias⟩) }

structure Use where
  user : Nat
  argIdx : Nat
  cand : Candidate
  isAlias : Bool
  forward : Bool
deriving DecidableEq, Repr

def isForward (n : Node) (i : Nat) (cand : Candidate) : Bool :=
  (n.elementSize = cand.elementSize && if n.op.isFMAProducer then i = 1 || i = 2 || i = 3
    else (i = 0 && isEligible n) || (i = 1 && n.op.readsOnlyElement0OfVector2)) ||
  (n.op = .storeMem true && i = 0 && n.size.bits ≤ cand.elementSize.bits)

def Walk.classify (w : Walk) (n : Node) : List Use :=
  n.args.zipIdx.filterMap fun (arg, i) =>
    (w.trackedOfArg arg).map fun t => ⟨n.id, i, t.cand, t.isAlias, isForward n i t.cand⟩

/-- A candidate is registered before its operands are classified. -/
def Walk.register (w : Walk) (n : Node) : Walk :=
  if isEligible n then w.track n.id ⟨n.id, n.elementSize⟩ false else w

def Walk.update (w : Walk) (n : Node) : Walk :=
  match n.op with
  | .storeRegister (.fpr reg) =>
    { w with curSRA := Function.update w.curSRA reg ((w.trackedOfArg (n.arg 0)).map Tracked.cand) }
  | .loadRegister (.fpr reg) =>
    match w.curSRA reg with
    | some cand => w.track n.id cand true
    | none => w
  | _ => w

def Walk.step (w : Walk) (n : Node) : Walk := (w.register n).update n

def Walk.uses (w : Walk) : List Node → List Use
  | [] => []
  | n :: nodes => (w.register n).classify n ++ (w.step n).uses nodes

/-! ## Marking -/

/-- A block with the uses that the rest of the unit makes of its values. A node's
arguments are defined before it, here or in another block, and no op comes with
`SplatResult`, which only this pass sets. -/
structure Block where
  nodes : List Node
  outsideUses : Nat → Nat
  ssaCount : Nat
  nodup : (ids nodes).Nodup
  ordered : nodes.Pairwise fun n later => .ref later.id ∉ n.args
  irrefl : ∀ n ∈ nodes, .ref n.id ∉ n.args
  ids_lt : ∀ n ∈ nodes, n.id < ssaCount
  args_lt : ∀ n ∈ nodes, ∀ arg ∈ n.args, ∀ id, arg = .ref id → id < ssaCount
  fresh : ∀ n ∈ nodes, n.splatResult = false

variable (b : Block)

def Block.uses : List Use := ({} : Walk).uses b.nodes

def Block.getUses (id : Nat) : Nat := (b.nodes.flatMap Node.args).count (.ref id) + b.outsideUses id

def Block.candUsesSeen (id : Nat) : Nat := b.uses.countP fun u => !u.isAlias && u.cand.node = id

def Block.marked (id : Nat) : Bool :=
  (b.nodes.any fun n => n.id = id && isEligible n) && b.candUsesSeen id = b.getUses id

/-! ## Applying -/

def Block.mergeId (id : Nat) : Nat := b.ssaCount + id

def Block.lineage (n : Node) : Arg :=
  match n.arg n.op.lineageArgIdx with
  | .ref id => if b.marked id then .ref (b.mergeId id) else .ref id
  | arg => arg

def Block.mergeNode (n : Node) : Node where
  id := b.mergeId n.id
  op := .vInsElementWide 0 0
  size := .i128Bit
  elementSize := n.elementSize
  args := [b.lineage n, .ref n.id]

def Block.retargetMerge (n : Node) (u : Use) : Node :=
  if u.user = n.id ∧ b.marked u.cand.node then
    { n with args := n.args.modify u.argIdx fun _ => .ref (b.mergeId u.cand.node) }
  else n

/-- A forward gets the candidate. For Vector1 of an unmarked arithmetic op it is
dropped, and a direct edge then gets the merge. -/
def Block.forwardArg (n : Node) (i cand : Nat) (arg : Arg) : Arg :=
  if i = 0 ∧ n.op.isArithProducer ∧ ¬ b.marked n.id then
    if arg = .ref cand then .ref (b.mergeId cand) else arg
  else .ref cand

def Block.retargetForward (n : Node) (u : Use) : Node :=
  if u.user = n.id ∧ b.marked u.cand.node then
    { n with args := n.args.modify u.argIdx (b.forwardArg n u.argIdx u.cand.node) }
  else n

def Block.retarget (n : Node) : Node :=
  let mergeUses := b.uses.filter fun u => !u.forward && !u.isAlias
  let forwards := b.uses.filter fun u => u.forward
  forwards.foldl b.retargetForward (mergeUses.foldl b.retargetMerge n)

def Block.scalarSplatChain : List Node :=
  b.nodes.flatMap fun n =>
    if b.marked n.id then [setSplatResult (b.retarget n), b.mergeNode n] else [b.retarget n]

end PowerArm.Splat
