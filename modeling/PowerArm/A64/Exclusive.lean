import PowerArm.A64.Ir

/-!
# Exclusive loads and stores

The handlers of `TranslateExclusive.cpp` that go through the software monitor, and
`CLREX`. The fences of the acquire and release forms order accesses that are one step
each here, so they leave no trace.
-/

namespace PowerArm.A64

open Lib (Act)

def loadExclusive (word : Word) : Emit Bool := do
  let size := bits word 31 30
  let memSize := OpSize.ofLog size
  let rn := reg word 5
  let rt := reg word 0
  let address ← loadXSP rn
  let value ← loadMem memSize address
  storeExcl ({ · with addr := address })
  storeExcl ({ · with value := value })
  storeExcl ({ · with size := BitVec.ofNat 8 (1 <<< size) })
  storeExcl ({ · with valid := 1 })
  storeReg rt (size == 3) value
  return true

def loadExclusivePair (word : Word) : Emit Bool := do
  let is64 := bit word 30
  let rn := reg word 5
  let rt := reg word 0
  let rt2 := reg word 10
  let address ← loadXSP rn
  if is64 then do
    let val1 ← loadMem .i64Bit address
    let val2 ← loadMem .i64Bit (address + 8)
    storeExcl ({ · with addr := address })
    storeExcl ({ · with value := val1 })
    storeExcl ({ · with valueHi := val2 })
    storeExcl ({ · with size := 16 })
    storeExcl ({ · with valid := 1 })
    storeX rt val1
    storeX rt2 val2
    return true
  else do
    let pair64 ← loadMem .i64Bit address
    let val1 := Ir.bfe 32 0 pair64
    let val2 := Ir.lshr .i64Bit pair64 32
    storeExcl ({ · with addr := address })
    storeExcl ({ · with value := pair64 })
    storeExcl ({ · with size := 8 })
    storeExcl ({ · with valid := 1 })
    storeW rt val1
    storeW rt2 val2
    return true

/-- `Match` of both store-exclusive handlers: `valid && excl_addr == Rn && excl_size ==
size`, after which the monitor is cleared. -/
def exclusiveMatch (rn : Reg) (size : Nat) : Emit Value := do
  let valid ← loadExcl (·.valid.setWidth 64)
  let exclSize ← loadExcl (·.size.setWidth 64)
  let exclAddr ← loadExcl (·.addr)
  let addrMatch := Ir.select (exclAddr == (← loadXSP rn)) 1 0
  let sizeMatch := Ir.select (exclSize == BitVec.ofNat 64 size) valid 0
  let matched := Ir.and .i64Bit addrMatch sizeMatch
  storeExcl ({ · with valid := 0 })
  return matched

def storeExclusive (word : Word) : Emit Bool := do
  let size := bits word 31 30
  let memSize := OpSize.ofLog size
  let rs := reg word 16
  let rn := reg word 5
  let rt := reg word 0
  let matched ← exclusiveMatch rn (1 <<< size)
  if matched ≠ 0 then do
    -- the compare-and-swap clobbers the host flags that hold NZCV
    let nzcv ← loadNZCV
    let expected ← loadExcl (·.value)
    let old ← cas memSize expected (← loadX rt) (← loadXSP rn)
    let status := Ir.select (old == expected) 0 1
    storeNZCV nzcv
    storeW rs status
    return true
  else do
    storeW rs 1
    return true

def storePair64 (rn rt rt2 : Reg) : Emit Value := do
  let expLo ← loadExcl (·.value)
  let expHi ← loadExcl (·.valueHi)
  let desLo ← loadX rt
  let desHi ← loadX rt2
  let address ← loadXSP rn
  let (outLo, outHi) ← casPair expLo expHi desLo desHi address
  let loMatch := Ir.select (outLo == expLo) 1 0
  let hiMatch := Ir.select (outHi == expHi) 1 0
  let bothMatch := Ir.and .i64Bit loMatch hiMatch
  return Ir.select (bothMatch == 1) 0 1

def storePair32 (rn rt rt2 : Reg) : Emit Value := do
  let expected ← loadExcl (·.value)
  let lo := Ir.bfe 32 0 (← loadX rt)
  let hi := Ir.lshl .i64Bit (← loadX rt2) 32
  let desired := Ir.or .i64Bit hi lo
  let old ← cas .i64Bit expected desired (← loadXSP rn)
  return Ir.select (old == expected) 0 1

def storeExclusivePair (word : Word) : Emit Bool := do
  let is64 := bit word 30
  let rs := reg word 16
  let rn := reg word 5
  let rt := reg word 0
  let rt2 := reg word 10
  let matched ← exclusiveMatch rn (if is64 then 16 else 8)
  if matched ≠ 0 then do
    let nzcv ← loadNZCV
    let status ← if is64 then storePair64 rn rt rt2 else storePair32 rn rt rt2
    storeNZCV nzcv
    storeW rs status
    return true
  else do
    storeW rs 1
    return true

def clrex : Emit Bool := do
  storeExcl ({ · with valid := 0 })
  return true

end PowerArm.A64
