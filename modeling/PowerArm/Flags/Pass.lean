import PowerArm.Flags.Ir

/-!
# Dead flag calculation elimination

The model of `DeadFlagCalculationEliminination`: the classification of ops by
the flags they read and write, the backward walk over a block that removes or
cheapens flag writes nobody reads, the worklist that carries liveness between
blocks, and the fold of a compare into its branch. Compare fusion, which runs
between the last two, is a pass of its own.
-/

namespace PowerArm.Flags

structure FlagInfo where
  read : NZCV := .none
  /-- Happens after the reads. -/
  write : NZCV := .none
  canEliminate : Bool := false
  replacement : Option IROps := none
  replacementNoWrite : Option IROps := none
deriving DecidableEq

def FlagInfo.trivial (i : FlagInfo) : Bool := i = {}

def CondClass.flags : CondClass → NZCV
  | .al => .none
  | .mi | .pl => ⟨true, false, false, false⟩
  | .eq | .neq => ⟨false, true, false, false⟩
  | .uge | .ult => ⟨false, false, true, false⟩
  | .vs | .vc | .fu | .fnu => ⟨false, false, false, true⟩
  | .ugt | .ule => ⟨false, true, true, false⟩
  | .sge | .slt | .flu | .fge => ⟨true, false, false, true⟩
  | .sgt | .sle | .fleu | .fgt => ⟨true, true, false, true⟩
  | .tstz | .tstnz => .all

def flagC : NZCV := ⟨false, false, true, false⟩
def flagZ : NZCV := ⟨false, true, false, false⟩
def flagCV : NZCV := ⟨false, false, true, true⟩
def flagNC : NZCV := ⟨true, false, true, false⟩
def flagZCV : NZCV := ⟨false, true, true, true⟩
def flagNZV : NZCV := ⟨true, true, false, true⟩

/-- `ClassifyConst`, with the ops it leaves to `Classify`. -/
def IROps.classify : IROps → FlagInfo
  | .andWithFlags => { write := .all, replacement := some .and, replacementNoWrite := some .testNZ }
  | .addWithFlags => { write := .all, replacement := some .add, replacementNoWrite := some .addNZCV }
  | .subWithFlags => { write := .all, replacement := some .sub, replacementNoWrite := some .subNZCV }
  | .adcWithFlags => { read := flagC, write := .all, replacement := some .adc, replacementNoWrite := some .adcNZCV }
  | .adcZeroWithFlags => { read := flagC, write := .all, replacement := some .adcZero }
  | .sbbWithFlags => { read := flagC, write := .all, replacement := some .sbb, replacementNoWrite := some .sbbNZCV }
  | .shiftFlags _ _ => { read := .all, write := .all, canEliminate := true }
  | .rotateFlags _ => { read := flagCV, write := flagCV, canEliminate := true }
  | .rdrand => { write := .all }
  | .addNZCV | .subNZCV | .testNZ | .fcmp | .storeNZCV => { write := .all, canEliminate := true }
  | .axFlag => { read := flagZCV, write := .all, canEliminate := true }
  | .fcmpX86 => { write := .all }
  | .cmpPairZ => { write := flagZ, canEliminate := true }
  | .carryInvert => { read := flagC, write := flagC, canEliminate := true }
  | .setSmallNZV => { write := flagNZV, canEliminate := true }
  | .loadNZCV => { read := .all }
  | .adc | .adcZero | .sbb => { read := flagC }
  | .adcNZCV | .sbbNZCV => { read := flagC, write := .all, canEliminate := true }
  | .nzcvSelect cond | .nzcvSelectV cond | .nzcvSelectIncrement cond | .neg cond => { read := cond.flags }
  | .condAddNZCV cond _ | .condSubNZCV cond _ => { read := cond.flags, write := .all, canEliminate := true }
  | .rmifNZCV _ mask => { write := .ofNibble mask, canEliminate := true }
  | .invalidateFlags flags => { write := .ofNibble (flags / 2 ^ 28), canEliminate := true }
  | .and | .add | .sub | .testZ | .storeRegister _ | .other .. => {}

/-! ## ProcessBlock -/

structure Options where
  disableDFCEStoreElim : Bool
  noWriteArmDisabled : Bool

def Node.eliminate (o : Options) (unused : Bool) (n : Node) (flagsRead : NZCV) : Option Node :=
  let info := n.op.classify
  if flagsRead.inter info.write = .none then
    if (info.canEliminate || info.replacement.isSome) && unused && !o.disableDFCEStoreElim then none
    else some { n with op := info.replacement.getD n.op }
  else if unused && !o.noWriteArmDisabled then
    some { n with op := info.replacementNoWrite.getD n.op }
  else some n

def Node.narrowTest (n : Node) (flagsRead : NZCV) : Node :=
  if n.op = .testNZ ∧ n.size.bits < 32 ∧ flagsRead.inter flagNC = .none then { n with op := .testZ }
  else n

/-- One round of the backward walk: what becomes of the op, and the flags read
from before it on. -/
def Node.process (o : Options) (unused : Bool) (n : Node) (flagsRead : NZCV) : Option Node × NZCV :=
  if unused && !n.op.hasSideEffects then (none, flagsRead)
  else
    let info := n.op.classify
    if info.trivial then (some n, flagsRead)
    else
      let before := flagsRead.diff info.write
      match n.eliminate o unused flagsRead with
      | none => (none, before)
      | some n' => (some (n'.narrowTest flagsRead), before.union info.read)

/-- The backward walk over the ops of a block. The uses that decide whether an
op is dead are those left at that moment: outside the block, in the ops before
it, which the walk has not reached, and in what the walk has kept after it. -/
def processCode (o : Options) (outside : Nat → Nat) : List Node → List Node → NZCV → List Node × NZCV
  | _, [], flagsRead => ([], flagsRead)
  | before, n :: rest, flagsRead =>
    let (rest', flagsRead) := processCode o outside (before ++ [n]) rest flagsRead
    let uses := outside n.id + usesIn (codeArgs (before ++ [n])) n.id + usesIn (codeArgs rest') n.id
    let (n', flagsRead) := n.process o (uses = 0) flagsRead
    (n'.toList ++ rest', flagsRead)

def Exit.liveOut (flags : Fin k → NZCV) : Exit k → NZCV
  | .jump target => flags target
  | .condJump _ _ _ ifTrue ifFalse => (flags ifTrue).union (flags ifFalse)
  | .exitFunction _ nzcvDead => if nzcvDead then .none else .all
  | .other _ _ => .all

def Exit.reads : Exit k → NZCV
  | .condJump .fromNZCV cond _ _ _ => cond.flags
  | _ => .none

def processBlock (o : Options) (u : IRUnit k) (flags : Fin k → NZCV) (b : Fin k) : Block k × NZCV :=
  let block := u b
  let flagsRead := block.exit.liveOut flags
  if h : block.hasFlags = true then
    let outside := fun id => u.usesOutside b id + usesIn block.exit.args id
    let r := processCode o outside [] block.code (flagsRead.union block.exit.reads)
    ({ block with code := r.1, flagless := by simp [h] }, r.2)
  else (block, flagsRead)

/-! ## The worklist -/

structure PassState (k : Nat) where
  unit : IRUnit k
  flags : Fin k → NZCV
  worklist : List (Fin k)
  inWorklist : Fin k → Bool

def PassState.init (u : IRUnit k) : PassState k where
  unit := u
  flags := fun _ => .all
  worklist := List.finRange k
  inWorklist := fun _ => true

def Exit.successors : Exit k → List (Fin k)
  | .jump target => [target]
  | .condJump _ _ _ ifTrue ifFalse => [ifTrue, ifFalse]
  | _ => []

def IRUnit.predecessors (u : IRUnit k) (b : Fin k) : List (Fin k) :=
  (List.finRange k).flatMap fun p => ((u p).exit.successors.filter (· = b)).map fun _ => p

def PassState.addWorklist (s : PassState k) (b : Fin k) : PassState k :=
  if s.inWorklist b then s
  else
    { s with worklist := b :: s.worklist, inWorklist := fun b' => b' = b || s.inWorklist b' }

def PassState.step (o : Options) (u : IRUnit k) (s : PassState k) : PassState k :=
  match s.worklist.getLast? with
  | none => s
  | some b =>
    let r := processBlock o s.unit s.flags b
    let s' : PassState k :=
      { s with
        unit := fun b' => if b' = b then r.1 else s.unit b'
        flags := fun b' => if b' = b then r.2 else s.flags b'
        inWorklist := fun b' => b' ≠ b && s.inWorklist b' }
    let s' := if s.flags b = r.2 then s' else (u.predecessors b).foldl addWorklist s'
    { s' with worklist := s'.worklist.dropLast }

/-! ## FoldBranch -/

def IROps.isStoreRegister : IROps → Bool
  | .storeRegister _ => true
  | _ => false

def splitLast (p : α → Bool) : List α → Option (List α × α × List α)
  | [] => none
  | x :: xs =>
    match splitLast p xs with
    | some (before, y, after) => some (x :: before, y, after)
    | none => if p x then some ([], x, xs) else none

/-- The branch that a compare with zero and a branch on equality make. The `AXFLAG` arm of
the source always declines. -/
def foldedExit (prev : Node) : Exit k → Option (Exit k)
  | .condJump .fromNZCV cond _ ifTrue ifFalse =>
    match prev.op, prev.args with
    | .subNZCV, [x, .inline 0] =>
      if cond = .neq ∨ cond = .eq then some (.condJump (.compare prev.size) cond [x, .inline 0] ifTrue ifFalse)
      else none
    | _, _ => none
  | _ => none

def foldBranch (b : Block k) : Block k :=
  match splitLast (fun n => !n.op.isStoreRegister) b.code with
  | some (before, prev, stores) =>
    match foldedExit prev b.exit with
    | some exit => { hasFlags := true, code := before ++ stores, exit, flagless := nofun }
    | none => b
  | none => b

def foldBlock (flags : Fin k → NZCV) (b : Block k) : Block k :=
  match b.exit with
  | .condJump .fromNZCV _ _ _ _ =>
    if b.hasFlags ∧ b.exit.liveOut flags = .none then foldBranch b else b
  | _ => b

def foldBranches (flags : Fin k → NZCV) (u : IRUnit k) : IRUnit k := fun b => foldBlock flags (u b)

/-- The unit after some rounds of the worklist and the folds; the pass runs the
rounds until the worklist is empty. -/
def eliminateDeadFlags (o : Options) (u : IRUnit k) (rounds : Nat) : IRUnit k :=
  let s := (PassState.step o u)^[rounds] (.init u)
  foldBranches s.flags s.unit

end PowerArm.Flags
