import PowerArm.A64.Ir

/-!
# Integer data processing

The handlers of `TranslateDataProcessing.cpp`. A handler that returns `false` has met an
unallocated encoding and has emitted nothing.
-/

namespace PowerArm.A64

open Ir (CondClass)

/-! ## Immediates and conditions -/

def ones (n : Nat) : Value := if 64 ≤ n then BitVec.allOnes 64 else (1 <<< n) - 1

def rotateElement (eSize : Nat) (value : Value) (amount : Nat) : Value :=
  let mask := ones eSize
  let value := value &&& mask
  let amount := amount % eSize
  if amount = 0 then value else ((value >>> amount) ||| (value <<< (eSize - amount))) &&& mask

def replicate (eSize dataSize : Nat) (element : Value) : Value :=
  let rounds := (dataSize + eSize - 1) / eSize
  ((List.range rounds).foldl (fun result i => result ||| element <<< (i * eSize)) 0) &&& ones dataSize

/-- The masks `DecodeBitMasks` writes, `none` where it returns `false`. -/
def decodeBitMasks (immN : Bool) (immS immR : Nat) (immediate : Bool) (dataSize : Nat) : Option (Value × Value) :=
  let combined := immN.toNat <<< 6 ||| (63 - immS)
  if combined = 0 then none
  else
    let len := combined.log2
    if len < 1 then none
    else
      let levels := 1 <<< len - 1
      if immediate && immS &&& levels == levels then none
      else
        let s := immS &&& levels
        let r := immR &&& levels
        let diff := (s + 64 - r) &&& 63
        let eSize := 1 <<< len
        let d := diff &&& levels
        some (replicate eSize dataSize (rotateElement eSize (ones (s + 1)) r),
          replicate eSize dataSize (ones (d + 1)))

def mapCondition : Nat → CondClass
  | 0x0 => .eq
  | 0x1 => .neq
  | 0x2 => .uge
  | 0x3 => .ult
  | 0x4 => .mi
  | 0x5 => .pl
  | 0x6 => .vs
  | 0x7 => .vc
  | 0x8 => .ugt
  | 0x9 => .ule
  | 0xA => .sge
  | 0xB => .slt
  | 0xC => .sgt
  | 0xD => .sle
  | _ => .al

/-! ## Add/sub (immediate) -/

variable (word : Word)

def addSubImmediate (isSub setFlags : Bool) : Emit Bool := do
  let is64 := bit word 31
  let shift := bits word 23 22
  if shift > 1 then return false
  let imm : Value := BitVec.ofNat 64 (bits word 21 10 <<< (shift * 12))
  let rn := reg word 5
  let rd := reg word 0
  let size := sizeFor is64
  let src ← loadXSP rn
  if !setFlags then do
    storeRegSP rd is64 (if isSub then Ir.sub size src imm else Ir.add size src imm)
    return true
  else if rd = 31 then do
    if isSub then subNZCV size src imm else addNZCV size src imm
    return true
  else do
    storeReg rd is64 (← if isSub then subWithFlags size src imm else addWithFlags size src imm)
    return true

/-! ## Logical (immediate) -/

def logicalImmediate : Emit Bool := do
  let is64 := bit word 31
  let opc := bits word 30 29
  let n := bit word 22
  if !is64 && n then return false
  match decodeBitMasks n (bits word 15 10) (bits word 21 16) true (if is64 then 64 else 32) with
  | none => return false
  | some (imm, _) => do
    let rn := reg word 5
    let rd := reg word 0
    let size := sizeFor is64
    let src ← loadX rn
    match opc with
    | 0b00 => storeRegSP rd is64 (Ir.and size src imm)
    | 0b01 => storeRegSP rd is64 (Ir.or size src imm)
    | 0b10 => storeRegSP rd is64 (Ir.xor size src imm)
    | _ => storeReg rd is64 (← andWithFlags size src imm)
    return true

/-! ## Move wide -/

def moveWide : Emit Bool := do
  let is64 := bit word 31
  let opc := bits word 30 29
  let hw := bits word 22 21
  if !is64 && hw > 1 then return false
  let shift := hw * 16
  let imm : Value := BitVec.ofNat 64 (bits word 20 5) <<< shift
  let rd := reg word 0
  match opc with
  | 0b00 => do
    let value := ~~~imm
    storeX rd (if is64 then value else value &&& 0xFFFFFFFF)
    return true
  | 0b10 => do
    storeX rd imm
    return true
  | 0b11 => do
    let size := sizeFor is64
    let cleared := Ir.and size (← loadX rd) (~~~((0xFFFF : Value) <<< shift))
    storeReg rd is64 (Ir.or size cleared imm)
    return true
  | _ => return false

/-! ## Bitfield and extract -/

/-- All three forms work at 64 bits. Only `BFM` reads its destination. -/
def bitfieldResult (opc r s dataSize : Nat) (dest src : Value) : Value :=
  match opc with
  | 0b00 =>
    if r ≤ s then Ir.sbfe (s - r + 1) r src
    else Ir.lshl .i64Bit (Ir.sbfe (s + 1) 0 src) (BitVec.ofNat 64 (dataSize - r))
  | 0b01 =>
    if r ≤ s then Ir.bfxil (s - r + 1) r dest src
    else Ir.bfi (s + 1) (dataSize - r) dest src
  | _ =>
    if r ≤ s then Ir.bfe (s - r + 1) r src
    else Ir.lshl .i64Bit (Ir.bfe (s + 1) 0 src) (BitVec.ofNat 64 (dataSize - r))

def bitfield : Emit Bool := do
  let is64 := bit word 31
  let opc := bits word 30 29
  let n := bit word 22
  let r := bits word 21 16
  let s := bits word 15 10
  let rn := reg word 5
  let rd := reg word 0
  let dataSize := if is64 then 64 else 32
  if opc = 0b11 ∨ n ≠ is64 ∨ (!is64 && (decide (32 ≤ r) || decide (32 ≤ s))) then return false
  let src ← loadX rn
  let dest ← loadX rd
  storeReg rd is64 (bitfieldResult opc r s dataSize dest src)
  return true

def extr : Emit Bool := do
  let is64 := bit word 31
  let n := bit word 22
  let rm := reg word 16
  let lsb := bits word 15 10
  let rn := reg word 5
  let rd := reg word 0
  if n ≠ is64 ∨ (!is64 && decide (32 ≤ lsb)) then return false
  storeReg rd is64 (Ir.extr (sizeFor is64) (← loadX rn) (← loadX rm) lsb)
  return true

/-! ## Data processing (2 source) -/

/-- The host divide sees no zero divisor; its result there is replaced. -/
def udiv : Emit Bool := do
  let is64 := bit word 31
  let size := sizeFor is64
  let dividend ← loadX (reg word 5)
  let divisor ← loadX (reg word 16)
  let isZero := size.trunc divisor == 0
  let safeDivisor := size.trunc (Ir.select isZero 1 divisor)
  let quotient := Ir.udiv size dividend safeDivisor
  storeReg (reg word 0) is64 (size.trunc (Ir.select isZero 0 quotient))
  return true

def sdiv : Emit Bool := do
  let is64 := bit word 31
  let size := sizeFor is64
  let dividend ← loadX (reg word 5)
  let divisor ← loadX (reg word 16)
  let divisorPlusOne := Ir.add size divisor 1
  let safeDivisor := size.trunc (Ir.select (decide (size.trunc divisorPlusOne ≤ 1)) 1 divisor)
  let quotient := Ir.div size dividend safeDivisor
  let negated := Ir.neg size dividend
  let nonZero := size.trunc (Ir.select (size.trunc divisor == size.trunc (-1)) negated quotient)
  storeReg (reg word 0) is64 (size.trunc (Ir.select (size.trunc divisor == 0) 0 nonZero))
  return true

inductive ShiftOp
  | lshl | lshr | ashr | ror
deriving DecidableEq, Repr

def shiftVariable (op : ShiftOp) : Emit Bool := do
  let is64 := bit word 31
  let size := sizeFor is64
  let src ← loadX (reg word 5)
  let amount ← loadX (reg word 16)
  let result := match op with
    | .lshl => Ir.lshl size src amount
    | .lshr => Ir.lshr size src amount
    | .ashr => Ir.ashr size src amount
    | .ror => Ir.ror size src amount
  storeReg (reg word 0) is64 result
  return true

/-! ## Data processing (1 source) -/

def rbitInt : Emit Bool := do
  let is64 := bit word 31
  storeReg (reg word 0) is64 (Ir.rbit (sizeFor is64) (← loadX (reg word 5)))
  return true

def rev16Int : Emit Bool := do
  let is64 := bit word 31
  let size := sizeFor is64
  let src ← loadX (reg word 5)
  let mask : Value := if is64 then 0x00FF00FF00FF00FF else 0x00FF00FF
  let low := Ir.lshl size (Ir.and size src mask) 8
  let high := Ir.and size (Ir.lshr size src 8) mask
  storeReg (reg word 0) is64 (Ir.or size low high)
  return true

def rev : Emit Bool := do
  let is64 := bit word 31
  let opc0 := bit word 10
  if is64 ≠ opc0 then return false
  storeReg (reg word 0) is64 (Ir.rev (sizeFor is64) (← loadX (reg word 5)))
  return true

def rev32Int : Emit Bool := do
  let swapped := Ir.rev .i64Bit (← loadX (reg word 5))
  storeX (reg word 0) (Ir.ror .i64Bit swapped 32)
  return true

def clzInt : Emit Bool := do
  let is64 := bit word 31
  storeReg (reg word 0) is64 (Ir.countLeadingZeroes (sizeFor is64) (← loadX (reg word 5)))
  return true

def clsInt : Emit Bool := do
  let is64 := bit word 31
  let size := sizeFor is64
  let src ← loadX (reg word 5)
  let xored := Ir.xor size src (Ir.ashr size src 1)
  storeReg (reg word 0) is64 (Ir.sub size (Ir.countLeadingZeroes size xored) 1)
  return true

/-! ## Logical and add/sub (shifted and extended register), with carry -/

def logicalShifted : Emit Bool := do
  let is64 := bit word 31
  let opc := bits word 30 29
  let shiftType := bits word 23 22
  let invert := bit word 21
  let amount := bits word 15 10
  let rn := reg word 5
  let rd := reg word 0
  if !is64 && decide (32 ≤ amount) then return false
  let size := sizeFor is64
  let shifted := shiftReg (← loadX (reg word 16)) shiftType amount is64
  let operand := if invert then Ir.not .i64Bit shifted else shifted
  let src ← loadX rn
  match opc with
  | 0b00 => storeReg rd is64 (Ir.and size src operand)
  | 0b01 => storeReg rd is64 (Ir.or size src operand)
  | 0b10 => storeReg rd is64 (Ir.xor size src operand)
  | _ => storeReg rd is64 (← andWithFlags size src operand)
  return true

/-- The sum or difference of the register forms. `toSP` says which register 31 is. -/
def addSubOperand (is64 isSub setFlags toSP : Bool) (rd : Reg) (src operand : Value) : Emit Bool := do
  let size := sizeFor is64
  if !setFlags then do
    let result := if isSub then Ir.sub size src operand else Ir.add size src operand
    if toSP then storeRegSP rd is64 result else storeReg rd is64 result
    return true
  else if rd = 31 then do
    if isSub then subNZCV size src operand else addNZCV size src operand
    return true
  else do
    storeReg rd is64 (← if isSub then subWithFlags size src operand else addWithFlags size src operand)
    return true

def addSubShifted : Emit Bool := do
  let is64 := bit word 31
  let shiftType := bits word 23 22
  let amount := bits word 15 10
  if shiftType = 0b11 ∨ (!is64 && decide (32 ≤ amount)) then return false
  let operand := shiftReg (← loadX (reg word 16)) shiftType amount is64
  let src ← loadX (reg word 5)
  addSubOperand is64 (bit word 30) (bit word 29) false (reg word 0) src operand

def addSubExtended : Emit Bool := do
  let is64 := bit word 31
  let option := bits word 15 13
  let shift := bits word 12 10
  if shift > 4 ∨ bits word 23 22 ≠ 0 then return false
  let operand := extendReg (← loadX (reg word 16)) option shift
  let src ← loadXSP (reg word 5)
  addSubOperand is64 (bit word 30) (bit word 29) true (reg word 0) src operand

def addSubCarry (isSub setFlags : Bool) : Emit Bool := do
  let is64 := bit word 31
  let size := sizeFor is64
  let src1 ← loadX (reg word 5)
  let src2 ← loadX (reg word 16)
  let result ← if setFlags then
      if isSub then sbbWithFlags size src1 src2 else adcWithFlags size src1 src2
    else if isSub then sbb size src1 src2 else adc size src1 src2
  storeReg (reg word 0) is64 result
  return true

/-! ## Conditional compare and select -/

def condCompare : Emit Bool := do
  let is64 := bit word 31
  let isSub := bit word 30
  let isImm := bit word 11
  let cond := bits word 15 12
  let falseNZCV := bits word 3 0
  let size := sizeFor is64
  if bit word 10 || bit word 4 then return false
  let src1 ← loadX (reg word 5)
  let src2 ← if isImm then pure (BitVec.ofNat 64 (bits word 20 16)) else loadX (reg word 16)
  if 0b1110 ≤ cond then do
    if isSub then subNZCV size src1 src2 else addNZCV size src1 src2
    return true
  else do
    let cc := mapCondition cond
    if isSub then condSubNZCV size src1 src2 cc falseNZCV
      else condAddNZCV size src1 src2 cc falseNZCV
    return true

def condSelect : Emit Bool := do
  let is64 := bit word 31
  let op := bit word 30
  let cond := bits word 15 12
  let op2 := bits word 11 10
  let rd := reg word 0
  let size := sizeFor is64
  if bit word 29 || decide (op2 > 1) then return false
  let trueVal ← loadX (reg word 5)
  let falseReg ← loadX (reg word 16)
  if 0b1110 ≤ cond then do
    storeReg rd is64 trueVal
    return true
  else do
    let falseVal :=
      if !op && op2 == 1 then Ir.add size falseReg 1
      else if op && op2 == 0 then Ir.not size falseReg
      else if op && op2 == 1 then Ir.neg size falseReg
      else falseReg
    storeReg rd is64 (← nzcvSelect size (mapCondition cond) trueVal falseVal)
    return true

/-! ## Data processing (3 source) -/

def madd : Emit Bool := do
  let is64 := bit word 31
  let size := sizeFor is64
  let src1 ← loadX (reg word 5)
  let src2 ← loadX (reg word 16)
  let ra := reg word 10
  if ra = 31 then do
    storeReg (reg word 0) is64 (Ir.mul size src1 src2)
    return true
  else do
    storeReg (reg word 0) is64 (Ir.mulAdd size src1 src2 (← loadX ra))
    return true

def msub : Emit Bool := do
  let is64 := bit word 31
  let size := sizeFor is64
  let product := Ir.mul size (← loadX (reg word 5)) (← loadX (reg word 16))
  storeReg (reg word 0) is64 (Ir.sub size (← loadX (reg word 10)) product)
  return true

def multiplyAddSubLong (isSigned isSub : Bool) : Emit Bool := do
  let src1 ← loadX (reg word 5)
  let src2 ← loadX (reg word 16)
  let product :=
    if isSigned then Ir.smull src1 src2
    else Ir.mul .i64Bit (Ir.bfe 32 0 src1) (Ir.bfe 32 0 src2)
  let ra := reg word 10
  if ra = 31 ∧ !isSub then do
    storeX (reg word 0) product
    return true
  else do
    let addend ← loadX ra
    storeX (reg word 0) (if isSub then Ir.sub .i64Bit addend product else Ir.add .i64Bit addend product)
    return true

def smulh : Emit Bool := do
  storeX (reg word 0) (Ir.mulH (← loadX (reg word 5)) (← loadX (reg word 16)))
  return true

def umulh : Emit Bool := do
  storeX (reg word 0) (Ir.umulH (← loadX (reg word 5)) (← loadX (reg word 16)))
  return true

end PowerArm.A64
