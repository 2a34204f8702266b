import PowerArm.A64.ExclusiveLoop

/-!
# Fused byte reversals

`TryFuseMemRev`: a load and the reversal of what it loaded, or a reversal and the store of
its result, become one byte-reversed access.
-/

namespace PowerArm.A64

/-- One side of the pair. `rm` is 31 where there is no index register. -/
structure RevAccess where
  isLoad : Bool
  size : Nat
  rt : Reg
  rn : Reg
  disp : Value := 0
  writeBack : Bool := false
  postIndex : Bool := false
  rm : Reg := 31
deriving DecidableEq, Repr

/-- The access of an instruction, `none` where the source's `Valid` stays false. -/
def decodeRevAccess (inst : DecodedInst) : Option RevAccess :=
  let word := inst.word
  if bits word 29 27 ≠ 0b111 ∨ bit word 26 then none
  else
    let size := bits word 31 30
    let decode := decodeSizeOpc size (bits word 23 22)
    if size = 0 ∨ decode.signExtend ∨ (decode.op ≠ .load ∧ decode.op ≠ .store) then none
    else
      let a : RevAccess := { isLoad := decode.op == .load, size := size, rt := reg word 0, rn := reg word 5 }
      match inst.matcher with
      | some .STRx_LDRx_imm_2 => some { a with disp := BitVec.ofNat 64 (bits word 21 10 <<< size) }
      | some .STURx_LDURx => some { a with disp := signExtend (bits word 20 12) 9 }
      | some .STRx_LDRx_imm_1 =>
        some { a with
          disp := signExtend (bits word 20 12) 9
          writeBack := true
          postIndex := bits word 11 10 == 0b01 }
      | some .LDRx_reg | some .STRx_reg =>
        if bits word 15 13 = 0b011 ∧ !bit word 12 then some { a with rm := reg word 16 } else none
      | _ => none

def revOfWidth (inst : DecodedInst) (size : Nat) : Bool :=
  match inst.matcher with
  | some .REV16_int => size == 1
  | some .REV =>
    let is64 := bit inst.word 31
    is64 == bit inst.word 10 && size == if is64 then 3 else 2
  | _ => false

def RevAccess.address (a : RevAccess) : Emit (Addr × Value) := do
  let base ← loadXSP a.rn
  if a.writeBack then do
    let offsetted := if a.disp ≠ 0 then Ir.add .i64Bit base a.disp else base
    return (if a.postIndex then base else offsetted, offsetted)
  else if a.rm ≠ 31 then do
    return (Ir.add .i64Bit base (← loadX a.rm), base)
  else if a.disp ≠ 0 then return (Ir.add .i64Bit base a.disp, base)
  else return (base, base)

def RevAccess.storeBase (a : RevAccess) (offsetted : Value) : Emit Unit :=
  if a.writeBack then storeXSP a.rn offsetted else pure ()

inductive MemRevFusion
  | loadRev (load : RevAccess)
  | revStore (store : RevAccess)
deriving DecidableEq, Repr

def fusesLoadRev (second : DecodedInst) (a : RevAccess) : Bool :=
  a.isLoad && a.rt != 31 && revOfWidth second a.size && reg second.word 5 == a.rt && reg second.word 0 == a.rt

def fusesRevStore (first : DecodedInst) (a : RevAccess) : Bool :=
  !a.isLoad && a.rt != 31 && revOfWidth first a.size && reg first.word 0 == a.rt

def memRevFusion (first second : DecodedInst) : Option MemRevFusion :=
  match (decodeRevAccess first).filter (fusesLoadRev second) with
  | some load => some (.loadRev load)
  | none => ((decodeRevAccess second).filter (fusesRevStore first)).map .revStore

def revHandler (inst : DecodedInst) : Emit Bool :=
  if inst.matcher = some .REV16_int then rev16Int inst.word else rev inst.word

/-- The code of a fused pair and the number of instructions it covers. `Core.cpp` has
emitted the marker of the first. -/
def MemRevFusion.code (first second : DecodedInst) : MemRevFusion → Emit Nat
  | .loadRev load => do
    let (address, offsetted) ← load.address
    let value ← loadMemRev (OpSize.ofLog load.size) address
    load.storeBase offsetted
    storeX load.rt value
    guestOpcode second.pc
    return 2
  | .revStore store => do
    let src ← loadX (reg first.word 5)
    let handled ← revHandler first
    if !handled then return 0
    else do
      guestOpcode second.pc
      let (address, offsetted) ← store.address
      storeMemRev (OpSize.ofLog store.size) address src
      store.storeBase offsetted
      return 2

def tryFuseMemRev (b : DecodedBlock) (index : Nat) : Option (DecodedInst × DecodedInst × MemRevFusion) :=
  match b.instructions[index]?, b.instructions[index + 1]? with
  | some first, some second => (memRevFusion first second).map (first, second, ·)
  | _, _ => none

def MemRevFusion.fused (first second : DecodedInst) (f : MemRevFusion) : Emit Nat := do
  guestOpcode first.pc
  f.code first second

def inOrder (first second : DecodedInst) : Emit Unit := do
  guestOpcode first.pc
  translateInstruction first
  guestOpcode second.pc
  translateInstruction second

end PowerArm.A64
