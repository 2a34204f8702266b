import PowerArm.Fusion.Pass

/-!
# Permissions to clobber flags

`FoldBranch` on a block after compare fusion, and `AnnotateFlagLiveness` on what the
pass leaves: a shift whose lowering may overwrite the carry, and a branch whose
lowering may overwrite all four flags. `ClobberRun` is a run of the unit in which
every permission may be made use of.
-/

namespace PowerArm.Fusion

open Flags

/-! ## FoldBranch -/

def Op.isStoreRegister : Op → Bool
  | .ir n => n.op.isStoreRegister
  | _ => false

def FusedBlock.foldBranch (b : FusedBlock k) : FusedBlock k :=
  match b.exit, splitLast (fun op => !op.isStoreRegister) b.code with
  | .ir exit, some (before, .ir prev, stores) =>
    match foldedExit prev exit with
    | some exit => ⟨before ++ stores, .ir exit⟩
    | none => b
  | _, _ => b

def Terminator.liveOut (flags : Fin k → NZCV) : Terminator k → NZCV
  | .ir exit => exit.liveOut flags
  | .chain ifTrue ifFalse => (flags ifTrue).union (flags ifFalse)

def Terminator.reads : Terminator k → NZCV
  | .ir exit => exit.reads
  | .chain _ _ => .none

def Terminator.isCondJump : Terminator k → Bool
  | .ir exit => exit.isCondJump
  | .chain _ _ => true

def foldFused (flags : Fin k → NZCV) (hasFlags : Bool) (b : FusedBlock k) : FusedBlock k :=
  match b.exit with
  | .ir (.condJump .fromNZCV _ _ _ _) =>
    if hasFlags ∧ b.exit.liveOut flags = .none then b.foldBranch else b
  | _ => b

def rewriteUnit (opcodes : Nat → Opcode) (o : FusionOptions) (flags : Fin k → NZCV) (u : IRUnit k) : FusedUnit k :=
  fun b => foldFused flags (u b).hasFlags (fuseBlock opcodes o u flags b)

/-! ## AnnotateFlagLiveness -/

def liveBefore (flagsRead : NZCV) : List Op → NZCV
  | [] => flagsRead
  | op :: rest => ((liveBefore flagsRead rest).diff op.classify.write).union op.classify.read

structure Annotated (k : Nat) where
  code : List (Op × Bool)
  exit : Terminator k
  nzcvDead : Bool

section
variable (shifts : Nat → Bool)

/-- `shifts` has the opcode numbers of `Ashr` and `Sbfe`. -/
def Op.isShift : Op → Bool
  | .ir ⟨_, .other opcode _ _, _, _⟩ => shifts opcode
  | _ => false

def annotateCode (flagsRead : NZCV) : List Op → List (Op × Bool)
  | [] => []
  | op :: rest => (op, op.isShift shifts && !(liveBefore flagsRead rest).c) :: annotateCode flagsRead rest

def annotateBlock (flags : Fin k → NZCV) (b : FusedBlock k) : Annotated k :=
  let flagsRead := b.exit.liveOut flags
  { code := annotateCode shifts (flagsRead.union b.exit.reads) b.code
    exit := b.exit
    nzcvDead := b.exit.isCondJump && flagsRead = .none }

/-- No op has a permission when `POWERARM_NOFLAGLIVESHIFT` is set. -/
def annotateFlagLiveness (disabled : Bool) (flags : Fin k → NZCV) (u : FusedUnit k) (b : Fin k) : Annotated k :=
  if disabled then ⟨(u b).code.map (·, false), (u b).exit, false⟩ else annotateBlock shifts flags (u b)

end

/-! ## Runs with clobbered flags -/

def Machine.setCarry (m : Machine) (c : Bool) : Machine :=
  { m with state := { m.state with nzcv := { m.state.nzcv with c := c } } }

/-- A run of some ops; after one that may clobber it, the carry is anything. -/
inductive ClobberOps (h : Host) : List (Op × Bool) → Machine → Machine → Prop where
  | nil (m : Machine) : ClobberOps h [] m m
  | cons {op : Op} {carryDead : Bool} {rest : List (Op × Bool)} {m m' : Machine} (c : Bool)
      (hc : carryDead = false → c = (op.exec h m).state.nzcv.c)
      (hrest : ClobberOps h rest ((op.exec h m).setCarry c) m') :
      ClobberOps h ((op, carryDead) :: rest) m m'

def Config.state : Config k → State
  | .at _ s => s
  | .left _ s => s

def Config.setNZCV (f : NZCV) : Config k → Config k
  | .at b s => .at b { s with nzcv := f }
  | .left dead s => .left dead { s with nzcv := f }

/-- A run of some blocks; after a branch that may clobber them, the flags are
anything. -/
inductive ClobberRun (h : Host) (u : Fin k → Annotated k) : Nat → Config k → Config k → Prop where
  | zero (c : Config k) : ClobberRun h u 0 c c
  | «at» {blocks : Nat} {c : Config k} {b : Fin k} {s : State} {m : Machine} (f : NZCV)
      (hrun : ClobberRun h u blocks c (.at b s)) (hops : ClobberOps h (u b).code ⟨s, false⟩ m)
      (hf : (u b).nzcvDead = false → f = (Config.state ((u b).exit.exec h m)).nzcv) :
      ClobberRun h u (blocks + 1) c (Config.setNZCV f ((u b).exit.exec h m))
  | left {blocks : Nat} {c : Config k} {dead : Bool} {s : State} (hrun : ClobberRun h u blocks c (.left dead s)) :
      ClobberRun h u (blocks + 1) c (.left dead s)

end PowerArm.Fusion
