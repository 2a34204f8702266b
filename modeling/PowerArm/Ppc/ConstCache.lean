import PowerArm.A64.LoadStore
import PowerArm.CodeCache.PatchLaws
import PowerArm.Ppc.LoadImmLaws

/-!
# The last-constant cache

`DEF_OP(Constant)`, `DEF_OP(EntrypointOffset)` and the cache lifecycle of `CompileCode`'s
emission loop: a constant is loaded, or derived from the register that holds the last
one. The ops that keep the cache are known by the general registers their handlers write,
with any values; every other op may do anything to the registers.
-/

namespace PowerArm.Ppc

abbrev Value := BitVec 64

/-- `a64::RA`, the dynamic pool, and `a64::SRA`, the registers that hold guest ones. -/
def generalRegisters : Vector (BitVec 5) 5 := #v[24, 25, 26, 30, 31]

def staticRegisters : Vector (BitVec 5) 17 := #v[7, 8, 9, 10, 11, 12, 14, 15, 16, 17, 18, 19, 20, 21, 23, 28, 29]

inductive PhysicalRegister
  | gpr (index : Fin 5)
  | gprFixed (index : Fin 17)
deriving DecidableEq, Repr

def getReg : PhysicalRegister → BitVec 5
  | .gpr i => generalRegisters.get i
  | .gprFixed i => staticRegisters.get i

structure CompileUnit where
  entry : Value
  retainRelocations : Bool
  constCacheDisabled : Bool
  disableShiftedImm32 : Bool
  supportsISA30 : Bool
deriving DecidableEq, Repr

/-! ## The handlers that keep the cache

Each is the list of the general registers that its instructions write, in order; vector
instructions, stores and barriers write none. -/

def TMP1 : BitVec 5 := 3
def TMP2 : BitVec 5 := 4
def TMP3 : BitVec 5 := 5
def TMP4 : BitVec 5 := 6

/-- `LoadNamedVectorConstant`, and the ten scalar-insert opcodes of the table, whose
handlers are vector instructions only. -/
inductive KeepConst
  | scalarInsert
  | loadNamedVectorConstant (zero : Bool) (size : Nat)
deriving DecidableEq, Repr

def KeepConst.writes : KeepConst → List (BitVec 5)
  | .scalarInsert => []
  | .loadNamedVectorConstant zero size =>
    if zero then [] else if size ≤ 8 then [TMP1, TMP3, TMP2] else [TMP1]

inductive MemOffset
  | const (value : Value)
  | reg (type : A64.MemOffsetType)
deriving DecidableEq, Repr

/-- An FPR-class `LoadMem` or `LoadMemTSO`. Without a register the address is an inline
constant; the scale of the offset is `2 ^ shift`. -/
structure FPRLoad where
  tso : Bool
  addr : Option (BitVec 5)
  offset : Option MemOffset
  shift : Nat
  size : Nat
  splatCandidate : Bool
deriving DecidableEq, Repr

inductive MemAddrForm
  | disp (base : BitVec 5) (disp : Int)
  | index
deriving DecidableEq, Repr

def makeAddrForm (isa30 : Bool) (base : BitVec 5) (shift : Nat) : Option MemOffset → List (BitVec 5) × MemAddrForm
  | none => ([], .disp base 0)
  | some (.const value) =>
    let offset := (value <<< shift).toInt
    if -32768 ≤ offset ∧ offset ≤ 32767 then ([], .disp base offset) else ([TMP3], .index)
  | some (.reg .uxtw) => ([TMP3], .index)
  | some (.reg .sxtw) => (if shift = 0 ∨ isa30 then [TMP3] else [TMP3, TMP3], .index)
  | some (.reg .sxtx) => (if shift = 0 then [] else [TMP3], .index)

def materializeAddr : MemAddrForm → List (BitVec 5) × BitVec 5
  | .index => ([TMP3], TMP3)
  | .disp base disp => if disp = 0 then ([], base) else ([TMP3], TMP3)

def prepareV128Addr (isa30 : Bool) : MemAddrForm → List (BitVec 5)
  | .index => []
  | .disp _ disp =>
    if disp = 0 ∨ isa30 ∧ disp % 16 = 0 ∧ -32768 ≤ disp ∧ disp ≤ 32752 then [] else [TMP3]

/-- The last arm is that of ten bytes, which goes through the scratch slot. -/
def loadFPRSized (isa30 : Bool) (ea : BitVec 5) (size : Nat) : List (BitVec 5) :=
  if size = 4 ∨ size = 8 ∨ size = 16 then []
  else if size = 1 ∨ size = 2 then if isa30 then [] else [TMP1]
  else (if ea = TMP1 ∨ ea = TMP2 ∨ ea = TMP3 then [TMP4] else []) ++ [TMP3, TMP1, TMP2, TMP1]

def FPRLoad.writes (isa30 : Bool) (load : FPRLoad) : List (BitVec 5) :=
  let base := load.addr.getD TMP4
  let (index, form) := makeAddrForm isa30 base load.shift load.offset
  let (address, ea) := materializeAddr form
  (if load.addr.isNone then [TMP4] else []) ++ index ++
    if load.size = 8 ∧ load.splatCandidate ∧ !load.tso then address
    else if load.size = 16 then prepareV128Addr isa30 form
    else address ++ loadFPRSized isa30 ea load.size

/-! ## Ops -/

/-- An op as the emission loop sees it; `other` is every opcode without a flag in the table,
and the loads of the GPR class. -/
inductive Op
  | constant (node : PhysicalRegister) (value : Value)
  | entrypointOffset (node : PhysicalRegister) (is32 : Bool) (offset : Value)
  | keepConst (opcode : KeepConst) (values : Regs → Regs)
  | loadMem (load : FPRLoad) (values : Regs → Regs)
  | other (effect : Regs → Regs)

def entrypointOffsetValue (unit : CompileUnit) (is32 : Bool) (offset : Value) : Value :=
  (unit.entry + offset) &&& if is32 then 0xFFFFFFFF else BitVec.allOnes 64

/-! ## Emission -/

structure LastConstant where
  value : Value
  reg : Fin 5
  guestRIP : Bool
deriving DecidableEq, Repr

/-- What the handlers emit. A guest RIP move is the constant load with the relocation
recorded for it, which counts its instructions. -/
inductive Code
  | words (ws : List Word)
  | mr (dst src : BitVec 5)
  | guestRIPMove (dst : BitVec 5) (rip : Value) (ws : List Word)
  | writes (regs : List (BitVec 5)) (values : Regs → Regs)
  | other (effect : Regs → Regs)

section
variable (unit : CompileUnit)

def loadConstant (dst : BitVec 5) (value : Value) : List Word :=
  loadImm64 unit.disableShiftedImm32 (dst.setWidth 32) value

def insertRelocatableRIPMove (dst : BitVec 5) (value : Value) : Code :=
  if unit.retainRelocations then .guestRIPMove dst value (loadConstant unit dst value)
  else .words (loadConstant unit dst value)

def fitsAddi (delta : Value) : Prop := -32768 ≤ delta.toInt ∧ delta.toInt ≤ 32767

instance : Decidable (fitsAddi delta) := inferInstanceAs (Decidable (_ ∧ _))

def emitAddi (dst base : BitVec 5) (delta : Value) : Code :=
  .words [addi (dst.setWidth 32) (base.setWidth 32) (delta.setWidth 16)]

def emitConstant (cache : Option LastConstant) (dst : BitVec 5) (value : Value) : Code :=
  match cache with
  | some last =>
    if !unit.constCacheDisabled && !(unit.retainRelocations && last.guestRIP) then
      let delta := value - last.value
      let base := generalRegisters.get last.reg
      if fitsAddi delta ∧ base ≠ 0 ∧ base ≠ dst then emitAddi dst base delta
      else if delta = 0 ∧ base ≠ dst then .mr dst base
      else .words (loadConstant unit dst value)
    else .words (loadConstant unit dst value)
  | none => .words (loadConstant unit dst value)

def emitEntrypointOffset (cache : Option LastConstant) (dst : BitVec 5)
    (is32 : Bool) (value : Value) : Code :=
  match cache with
  | some last =>
    if !unit.constCacheDisabled && (!unit.retainRelocations || (last.guestRIP && !is32)) then
      let delta := value - last.value
      let base := generalRegisters.get last.reg
      if base ≠ 0 ∧ base ≠ dst then
        if delta = 0 then .mr dst base
        else if fitsAddi delta then emitAddi dst base delta
        else insertRelocatableRIPMove unit dst value
      else insertRelocatableRIPMove unit dst value
    else insertRelocatableRIPMove unit dst value
  | none => insertRelocatableRIPMove unit dst value

def Op.emit (cache : Option LastConstant) : Op → Code
  | .constant node value => emitConstant unit cache (getReg node) value
  | .entrypointOffset node is32 offset =>
    emitEntrypointOffset unit cache (getReg node) is32 (entrypointOffsetValue unit is32 offset)
  | .keepConst opcode values => .writes opcode.writes values
  | .loadMem load values => .writes (load.writes unit.supportsISA30) values
  | .other effect => .other effect

def Op.cacheAfter (cache : Option LastConstant) : Op → Option LastConstant
  | .constant (.gpr i) value => if !unit.constCacheDisabled then some ⟨value, i, false⟩ else none
  | .constant (.gprFixed _) _ => none
  | .entrypointOffset (.gpr i) is32 offset =>
    if !unit.constCacheDisabled && (!unit.retainRelocations || !is32) then
      some ⟨entrypointOffsetValue unit is32 offset, i, true⟩
    else none
  | .entrypointOffset (.gprFixed _) _ _ => none
  | .keepConst _ _ => cache
  | .loadMem _ _ => cache
  | .other _ => none

def emitFrom : Option LastConstant → List Op → List Code
  | _, [] => []
  | cache, op :: ops => op.emit unit cache :: emitFrom (op.cacheAfter unit cache) ops

def emitBlock (ops : List Op) : List Code := emitFrom unit none ops

/-! ## Relocation -/

/-- The loader writes the rebased move over the recorded instructions, and rejects the
block where it needs more. -/
def Code.rebase (delta : Value) : Code → Option Code
  | .guestRIPMove dst rip ws =>
    let moved := loadConstant unit dst (rip + delta)
    if moved.length ≤ ws.length then
      some (.guestRIPMove dst (rip + delta)
        (CodeCache.moveWords unit.disableShiftedImm32 dst.toNat ws.length (rip + delta).toNat))
    else none
  | code => some code

def rebaseBlock (delta : Value) (block : List Code) : Option (List Code) :=
  block.mapM (Code.rebase unit delta)

/-! ## Execution -/

def Code.exec (g : Regs) : Code → Option Regs
  | .words ws => run g ws
  | .mr dst src => some (g.set dst (g src))
  | .guestRIPMove _ _ ws => run g ws
  | .writes regs values => some fun r => if r ∈ regs then values g r else g r
  | .other effect => some (effect g)

def Op.loads (delta : Value) : Op → Option (PhysicalRegister × Value)
  | .constant node value => some (node, value)
  | .entrypointOffset node is32 offset => some (node, entrypointOffsetValue unit is32 offset + delta)
  | _ => none

end

end PowerArm.Ppc
