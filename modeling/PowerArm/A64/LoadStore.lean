import PowerArm.A64.Ir

/-!
# General-register loads and stores

The handlers of `TranslateLoadStore.cpp`: immediate, register-offset and pair forms. A
prefetch hint reads and writes nothing a guest can observe, so it emits nothing here.
-/

namespace PowerArm.A64

inductive MemOp
  | store
  | load
  | prefetch
  | unallocated
deriving DecidableEq, Repr

structure OpcDecode where
  op : MemOp
  signExtend : Bool
  is64Dest : Bool
deriving DecidableEq, Repr

def decodeSizeOpc (size opc : Nat) : OpcDecode :=
  if opc &&& 2 = 0 then ⟨if opc &&& 1 ≠ 0 then .load else .store, false, size == 3⟩
  else if size = 3 then ⟨if opc &&& 1 ≠ 0 then .unallocated else .prefetch, false, true⟩
  else if size = 2 ∧ opc &&& 1 ≠ 0 then ⟨.unallocated, false, false⟩
  else ⟨.load, true, opc &&& 1 == 0⟩

inductive MemOffsetType
  | sxtx
  | uxtw
  | sxtw
deriving DecidableEq, Repr

def MemOffsetType.extend : MemOffsetType → Value → Value
  | .sxtx, v => v
  | .uxtw, v => (v.setWidth 32).setWidth 64
  | .sxtw, v => (v.setWidth 32).signExtend 64

def extendOffsetType : Nat → MemOffsetType
  | 0b010 => .uxtw
  | 0b110 => .sxtw
  | _ => .sxtx

/-- The address of a memory operation. `none` is the invalid offset node. -/
def memAddress (base : Value) (offset : Option Value) (type : MemOffsetType) (scale : Nat) : Addr :=
  match offset with
  | none => base
  | some v => base + type.extend v * BitVec.ofNat 64 scale

def inlineOffset (offset : Value) : Option Value := if offset = 0 then none else some offset

def loadStoreSingle (isLoad : Bool) (size : OpSize) (signExtend is64Dest : Bool) (rt : Reg)
    (address : Value) (offset : Option Value) (offsetType : MemOffsetType) (offsetScale : Nat) :
    Emit Unit := do
  let addr := memAddress address offset offsetType offsetScale
  if !isLoad then storeMem size (← loadX rt) addr
  else do
    let value ← loadMem size addr
    let value := if signExtend && size != .i64Bit then Ir.sbfe size.bits 0 value else value
    storeReg rt is64Dest value

def prefetchHint : Emit Unit := pure ()

/-! ## Immediate offsets -/

def loadStoreImm9 (word : Word) : Emit Bool := do
  let size := bits word 31 30
  let decode := decodeSizeOpc size (bits word 23 22)
  let mode := bits word 11 10
  let offset := signExtend (bits word 20 12) 9
  let rn := reg word 5
  let rt := reg word 0
  if decode.op = .unallocated then return false
  if decode.op = .prefetch then do
    if mode ≠ 0b00 then return false
    prefetchHint
    return true
  let writeBack := mode == 0b01 || mode == 0b11
  let postIndex := mode == 0b01
  let memSize := OpSize.ofLog size
  let base ← loadXSP rn
  let offsetted :=
    if offset ≠ 0 ∧ writeBack then Ir.add .i64Bit base offset else base
  let address := if postIndex then base else offsetted
  if decode.op = .store then
    if !writeBack then do
      loadStoreSingle false memSize false false rt base (inlineOffset offset) .sxtx 1
      return true
    else do
      storeMem memSize (← loadX rt) address
      storeXSP rn offsetted
      return true
  else if writeBack then do
    let value ← loadMem memSize address
    let value :=
      if decode.signExtend && memSize != .i64Bit then Ir.sbfe memSize.bits 0 value else value
    storeXSP rn offsetted
    storeReg rt decode.is64Dest value
    return true
  else do
    loadStoreSingle true memSize decode.signExtend decode.is64Dest rt base (inlineOffset offset) .sxtx 1
    return true

def strxLdrxImm2 (word : Word) : Emit Bool := do
  let size := bits word 31 30
  let decode := decodeSizeOpc size (bits word 23 22)
  if decode.op = .unallocated then return false
  if decode.op = .prefetch then do
    prefetchHint
    return true
  let offset : Value := BitVec.ofNat 64 (bits word 21 10 <<< size)
  let base ← loadXSP (reg word 5)
  loadStoreSingle (decode.op == .load) (OpSize.ofLog size) decode.signExtend decode.is64Dest
    (reg word 0) base (inlineOffset offset) .sxtx 1
  return true

/-! ## Register offset -/

def loadStoreRegOffset (word : Word) : Emit Bool := do
  let size := bits word 31 30
  let decode := decodeSizeOpc size (bits word 23 22)
  let option := bits word 15 13
  let scaled := bit word 12
  if option &&& 0b010 = 0 ∨ decode.op = .unallocated then return false
  if decode.op = .prefetch then do
    prefetchHint
    return true
  let rm := reg word 16
  let base ← loadXSP (reg word 5)
  let memSize := OpSize.ofLog size
  let isLoad := decode.op == .load
  if rm = 31 then do
    loadStoreSingle isLoad memSize decode.signExtend decode.is64Dest (reg word 0) base none .sxtx 1
    return true
  else do
    loadStoreSingle isLoad memSize decode.signExtend decode.is64Dest (reg word 0) base
      (some (← loadX rm)) (extendOffsetType option) (if scaled then 1 <<< size else 1)
    return true

/-! ## Pairs -/

def stpLdpGen (word : Word) : Emit Bool := do
  let opc := bits word 31 30
  let preOrOffset := bit word 24
  let writeBack := bit word 23
  let isLoad := bit word 22
  let rt2 := reg word 10
  let rn := reg word 5
  let rt := reg word 0
  if opc = 0b11 ∨ (opc = 0b01 ∧ !isLoad) ∨ (!preOrOffset && !writeBack) then return false
  let is64 := opc == 0b10
  let signExt := opc == 0b01
  let memSize : OpSize := if is64 then .i64Bit else .i32Bit
  let elementSize : Value := if is64 then 8 else 4
  let offset := signExtend (bits word 21 15) 7 * elementSize
  let postIndex := !preOrOffset
  let base ← loadXSP rn
  let offsetted := if writeBack then Ir.add .i64Bit base offset else base
  let preIndex := writeBack && !postIndex
  let address := if preIndex then offsetted else base
  let disp1 := if writeBack || offset == 0 then 0 else offset
  let disp2 := disp1 + elementSize
  let addr1 := memAddress address (inlineOffset disp1) .sxtx 1
  let addr2 := memAddress address (some disp2) .sxtx 1
  if !isLoad then do
    let value1 ← loadX rt
    let value2 ← loadX rt2
    storeMem memSize value1 addr1
    storeMem memSize value2 addr2
    if writeBack then storeXSP rn offsetted
    return true
  else do
    let value1 ← loadMem memSize addr1
    let value2 ← loadMem memSize addr2
    let value1 := if signExt then Ir.sbfe 32 0 value1 else value1
    let value2 := if signExt then Ir.sbfe 32 0 value2 else value2
    if writeBack then storeXSP rn offsetted
    let is64Dest := is64 || signExt
    storeReg rt is64Dest value1
    storeReg rt2 is64Dest value2
    return true

/-- The non-temporal pair is the signed-offset one, without writeback. -/
def stnpLdnpGen (word : Word) : Emit Bool := stpLdpGen (word ||| 1#32 <<< 24)

end PowerArm.A64
