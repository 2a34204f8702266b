import PowerArm.A64.Machine

/-!
# IR operations and the register file

The operations the A64 handlers emit, each with the meaning `IR.json` gives it, and the
`IRBuilder` functions they share: field extraction, register reads and writes, shifted
and extended operands. A value of 32 bits is zero extended, as every narrow IR result is.
-/

namespace PowerArm.A64

/-! ## Fields of an instruction word -/

def bits (word : Word) (hi lo : Nat) : Nat := (word.extractLsb' lo (hi - lo + 1)).toNat

def bit (word : Word) (i : Nat) : Bool := word.getLsbD i

def reg (word : Word) (lo : Nat) : Reg := word.extractLsb' lo 5

def signExtend (value width : Nat) : Value := (BitVec.ofNat width value).signExtend 64

def sizeFor (is64 : Bool) : OpSize := if is64 then .i64Bit else .i32Bit

/-! ## Values -/

namespace Ir

variable (size : OpSize)

def at₁ (f : ∀ {w : Nat}, BitVec w → BitVec w) (a : Value) : Value :=
  (f (a.setWidth size.bits)).setWidth 64

def at₂ (f : ∀ {w : Nat}, BitVec w → BitVec w → BitVec w) (a b : Value) : Value :=
  (f (a.setWidth size.bits) (b.setWidth size.bits)).setWidth 64

def add : Value → Value → Value := at₂ size (· + ·)
def sub : Value → Value → Value := at₂ size (· - ·)
def and : Value → Value → Value := at₂ size (· &&& ·)
def or : Value → Value → Value := at₂ size (· ||| ·)
def xor : Value → Value → Value := at₂ size (· ^^^ ·)
def not : Value → Value := at₁ size (~~~ ·)

def lshl : Value → Value → Value := at₂ size fun {w} a b => a <<< (b.toNat % w)

def lshr : Value → Value → Value := at₂ size fun {w} a b => a >>> (b.toNat % w)

def ashr : Value → Value → Value := at₂ size fun {w} a b => a.sshiftRight (b.toNat % w)

def ror : Value → Value → Value := at₂ size fun {w} a b => a.rotateRight (b.toNat % w)

def neg : Value → Value := at₁ size (- ·)
def mul : Value → Value → Value := at₂ size (· * ·)

def mulAdd (a b addend : Value) : Value := add size (mul size a b) addend

/-- `UDiv` and `Div` with no upper half: the quotient. -/
def udiv : Value → Value → Value := at₂ size (· / ·)
def div : Value → Value → Value := at₂ size BitVec.sdiv

def smull (a b : Value) : Value := (a.setWidth 32).signExtend 64 * (b.setWidth 32).signExtend 64

def mulH (a b : Value) : Value := (a.signExtend 128 * b.signExtend 128).extractLsb' 64 64
def umulH (a b : Value) : Value := (a.setWidth 128 * b.setWidth 128).extractLsb' 64 64

def rbit : Value → Value := at₁ size BitVec.reverse
def countLeadingZeroes : Value → Value := at₁ size BitVec.clz

def rev (v : Value) : Value := Lib.ofBytes 64 (Lib.toBytes size.bytes v).reverse

/-- `Bfe` and `Sbfe` at 64 bits: the field `[lsb, lsb + width)`, extended. -/
def bfe (width lsb : Nat) (src : Value) : Value := (src.extractLsb' lsb width).setWidth 64

def sbfe (width lsb : Nat) (src : Value) : Value := (src.extractLsb' lsb width).signExtend 64

/-- `Bfi` and `Bfxil` at 64 bits: `width` bits of `src` from `srcLsb` replace those of
`dest` from `destLsb`. -/
def insertField (width srcLsb destLsb : Nat) (dest src : Value) : Value :=
  let mask := (BitVec.allOnes width).setWidth 64 <<< destLsb
  (dest &&& ~~~mask) ||| ((src.extractLsb' srcLsb width).setWidth 64 <<< destLsb)

def bfi (width lsb : Nat) : Value → Value → Value := insertField width 0 lsb
def bfxil (width lsb : Nat) : Value → Value → Value := insertField width lsb 0

def extr (upper lower : Value) (lsb : Nat) : Value :=
  ((upper.setWidth size.bits ++ lower.setWidth size.bits).extractLsb' lsb size.bits).setWidth 64

def select (cond : Bool) (ifTrue ifFalse : Value) : Value := if cond then ifTrue else ifFalse

/-! ## Flags -/

def flagsOf (result : BitVec w) (c v : Bool) : Flags := ⟨result.msb, result == 0#w, c, v⟩

/-- The carry out of a sum and its signed overflow, at the operands' width. -/
def sumFlags (a b : BitVec w) (carry : Bool) : Flags :=
  flagsOf (a + b + BitVec.setWidth w (BitVec.ofBool carry)) (2 ^ w ≤ a.toNat + b.toNat + carry.toNat)
    (decide (a.toInt + b.toInt + carry.toNat < -2 ^ (w - 1)) ||
      decide (2 ^ (w - 1) ≤ a.toInt + b.toInt + carry.toNat))

/-- The flags of a difference. The carry is Arm's: set when nothing was borrowed. -/
def differenceFlags (a b : BitVec w) (borrow : Bool) : Flags :=
  flagsOf (a - b - BitVec.setWidth w (BitVec.ofBool borrow)) (b.toNat + borrow.toNat ≤ a.toNat)
    (decide (a.toInt - b.toInt - borrow.toNat < -2 ^ (w - 1)) ||
      decide (2 ^ (w - 1) ≤ a.toInt - b.toInt - borrow.toNat))

inductive CondClass
  | eq | neq | uge | ult | mi | pl | vs | vc | ugt | ule | sge | slt | sgt | sle | al
deriving DecidableEq, Repr

def CondClass.holds (f : Flags) : CondClass → Bool
  | .eq => f.z
  | .neq => !f.z
  | .uge => f.c
  | .ult => !f.c
  | .mi => f.n
  | .pl => !f.n
  | .vs => f.v
  | .vc => !f.v
  | .ugt => f.c && !f.z
  | .ule => !f.c || f.z
  | .sge => f.n == f.v
  | .slt => f.n != f.v
  | .sgt => !f.z && f.n == f.v
  | .sle => f.z || f.n != f.v
  | .al => true

end Ir

/-! ## Registers and context -/

/-- Register 31 of a register file reads as zero here; only `gpr` has the stack pointer. -/
def readX (gpr : Reg → Value) (r : Reg) : Value := if r = 31 then 0 else gpr r

namespace Cpu

def setGpr (cpu : Cpu) (r : Reg) (v : Value) : Cpu := { cpu with gpr := Function.update cpu.gpr r v }

def writeX (cpu : Cpu) (r : Reg) (v : Value) : Cpu := if r = 31 then cpu else cpu.setGpr r v

end Cpu

open Lib (Act)

def loadXSP (r : Reg) : Emit Value := Act.gets (·.gpr r)
def loadX (r : Reg) : Emit Value := Act.gets fun cpu => readX cpu.gpr r

def storeX (r : Reg) (v : Value) : Emit Unit := Act.modify (·.writeX r v)
def storeXSP (r : Reg) (v : Value) : Emit Unit := Act.modify (·.setGpr r v)

def zeroExtend32 (v : Value) : Value := Ir.bfe 32 0 v

def storeW (r : Reg) (v : Value) : Emit Unit := storeX r (zeroExtend32 v)
def storeWSP (r : Reg) (v : Value) : Emit Unit := storeXSP r (zeroExtend32 v)

def storeReg (r : Reg) (is64 : Bool) (v : Value) : Emit Unit :=
  if is64 then storeX r v else storeW r v

def storeRegSP (r : Reg) (is64 : Bool) (v : Value) : Emit Unit :=
  if is64 then storeXSP r v else storeWSP r v

def loadExcl (f : Monitor → α) : Emit α := Act.gets fun cpu => f cpu.excl

def storeExcl (f : Monitor → Monitor) : Emit Unit := Act.modify fun cpu => { cpu with excl := f cpu.excl }

def loadNZCV : Emit Flags := Act.gets (·.nzcv)

def storeNZCV (flags : Flags) : Emit Unit := Act.modify fun cpu => { cpu with nzcv := flags }

/-! ## Operations that write or read the flags -/

variable (size : OpSize)

def addNZCV (a b : Value) : Emit Unit :=
  storeNZCV (Ir.sumFlags (a.setWidth size.bits) (b.setWidth size.bits) false)

def subNZCV (a b : Value) : Emit Unit :=
  storeNZCV (Ir.differenceFlags (a.setWidth size.bits) (b.setWidth size.bits) false)

def addWithFlags (a b : Value) : Emit Value := do
  addNZCV size a b
  return Ir.add size a b

def subWithFlags (a b : Value) : Emit Value := do
  subNZCV size a b
  return Ir.sub size a b

def andWithFlags (a b : Value) : Emit Value := do
  storeNZCV (Ir.flagsOf ((Ir.and size a b).setWidth size.bits) false false)
  return Ir.and size a b

/-- `Adc` adds the carry, `Sbb` takes its complement as the borrow. -/
def adc (a b : Value) : Emit Value := do
  let carry := (← loadNZCV).c
  return Ir.add size (Ir.add size a b) (BitVec.setWidth 64 (BitVec.ofBool carry))

def sbb (a b : Value) : Emit Value := do
  let carry := (← loadNZCV).c
  return Ir.sub size (Ir.sub size a b) (BitVec.setWidth 64 (BitVec.ofBool !carry))

def adcWithFlags (a b : Value) : Emit Value := do
  let carry := (← loadNZCV).c
  let result ← adc size a b
  storeNZCV (Ir.sumFlags (a.setWidth size.bits) (b.setWidth size.bits) carry)
  return result

def sbbWithFlags (a b : Value) : Emit Value := do
  let carry := (← loadNZCV).c
  let result ← sbb size a b
  storeNZCV (Ir.differenceFlags (a.setWidth size.bits) (b.setWidth size.bits) !carry)
  return result

def Flags.ofNat (nzcv : Nat) : Flags := ⟨nzcv.testBit 3, nzcv.testBit 2, nzcv.testBit 1, nzcv.testBit 0⟩

def condAddNZCV (a b : Value) (cond : Ir.CondClass) (falseNZCV : Nat) : Emit Unit := do
  let flags ← loadNZCV
  if cond.holds flags then addNZCV size a b else storeNZCV (.ofNat falseNZCV)

def condSubNZCV (a b : Value) (cond : Ir.CondClass) (falseNZCV : Nat) : Emit Unit := do
  let flags ← loadNZCV
  if cond.holds flags then subNZCV size a b else storeNZCV (.ofNat falseNZCV)

def nzcvSelect (cond : Ir.CondClass) (ifTrue ifFalse : Value) : Emit Value := do
  let flags ← loadNZCV
  return size.trunc (Ir.select (cond.holds flags) ifTrue ifFalse)

/-- The marker that tells a fault's handler which guest instruction the code is for. -/
def guestOpcode (pc : Addr) : Emit Unit := Act.modify fun cpu => { cpu with pc := pc }

def exitToPC (pc : Addr) : Emit Unit := Act.modify fun cpu => { cpu with pc := pc }

/-! ## Shared operand forms -/

def shiftReg (value : Value) (shiftType amount : Nat) (is64 : Bool) : Value :=
  if amount = 0 then value
  else
    match shiftType with
    | 0 => Ir.lshl (sizeFor is64) value (BitVec.ofNat 64 amount)
    | 1 => Ir.lshr (sizeFor is64) value (BitVec.ofNat 64 amount)
    | 2 => Ir.ashr (sizeFor is64) value (BitVec.ofNat 64 amount)
    | _ => Ir.ror (sizeFor is64) value (BitVec.ofNat 64 amount)

def extendReg (value : Value) (option shift : Nat) : Value :=
  let extended :=
    match option with
    | 0b000 => Ir.bfe 8 0 value
    | 0b001 => Ir.bfe 16 0 value
    | 0b010 => Ir.bfe 32 0 value
    | 0b011 => value
    | 0b100 => Ir.sbfe 8 0 value
    | 0b101 => Ir.sbfe 16 0 value
    | 0b110 => Ir.sbfe 32 0 value
    | _ => value
  if shift = 0 then extended else Ir.lshl .i64Bit extended (BitVec.ofNat 64 shift)

/-! ## Memory operations -/

def loadMem (addr : Addr) : Emit Value := do
  let reply ← Act.request (.load size addr)
  return reply.value

def storeMem (value : Value) (addr : Addr) : Emit Unit := do
  let _ ← Act.request (.store size addr value)

def loadMemRev (addr : Addr) : Emit Value := do
  let value ← loadMem size addr
  return Ir.rev size value

def storeMemRev (addr : Addr) (value : Value) : Emit Unit := storeMem size (Ir.rev size value) addr

/-- The comparison leaves its result in the host flags that hold NZCV. -/
def cas (expected desired : Value) (addr : Addr) : Emit Value := do
  let reply ← Act.request (.cas size expected desired addr)
  storeNZCV reply.answer.flags
  return reply.value

def casPair (expectedLo expectedHi desiredLo desiredHi : Value) (addr : Addr) : Emit (Value × Value) := do
  let reply ← Act.request (.casPair expectedLo expectedHi desiredLo desiredHi addr)
  return (reply.value, reply.valueHi)

def loadReserved (addr : Addr) : Emit Value := do
  let reply ← Act.request (.loadReserved size addr)
  return reply.value

/-- Whether the store was performed; the backend branches back when it was not. -/
def storeConditional (value : Value) (addr : Addr) : Emit Bool := do
  let reply ← Act.request (.storeConditional size value addr)
  return reply.answer.reserved

end PowerArm.A64
