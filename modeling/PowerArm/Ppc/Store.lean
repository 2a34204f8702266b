import PowerArm.Ppc.LoadImmLaws

/-!
# Emulated stores

`DecodePPCStore` reads a faulting store of the code buffer, and the fault handler
carries it out with a `pwrite` to `/proc/self/mem`: the low bytes of the value at
the effective address, the base register written back for update forms, and the
next instruction.
-/

namespace PowerArm.Ppc

structure DecodedStore where
  ea : BitVec 64
  value : BitVec 64
  width : Nat
  updateRA : Option (BitVec 5)
deriving DecidableEq, Repr

def decodePPCStore (gpr : Regs) (insn : Word) : Option DecodedStore :=
  let rs := ((insn >>> 21) &&& 31).setWidth 5
  let ra := ((insn >>> 16) &&& 31).setWidth 5
  let rb := ((insn >>> 11) &&& 31).setWidth 5
  let d := ((insn &&& 0xFFFF).setWidth 16).signExtend 64
  let ds := ((insn &&& 0xFFFC).setWidth 16).signExtend 64
  let base := if ra = 0 then 0 else gpr ra
  let store (width : Nat) (ea : BitVec 64) (update : Bool) : Option DecodedStore :=
    -- an update form without a base register is invalid
    if update && ra == 0 then none
    else some ⟨ea, gpr rs, width, if update then some ra else none⟩
  match (insn >>> 26).toNat with
  | 36 => store 4 (base + d) false
  | 37 => store 4 (gpr ra + d) true
  | 38 => store 1 (base + d) false
  | 39 => store 1 (gpr ra + d) true
  | 44 => store 2 (base + d) false
  | 45 => store 2 (gpr ra + d) true
  | 62 =>
    match (insn &&& 3).toNat with
    | 0 => store 8 (base + ds) false
    | 1 => store 8 (gpr ra + ds) true
    | _ => none
  | 31 =>
    match ((insn >>> 1) &&& 0x3FF).toNat with
    | 215 => store 1 (base + gpr rb) false
    | 247 => store 1 (gpr ra + gpr rb) true
    | 407 => store 2 (base + gpr rb) false
    | 439 => store 2 (gpr ra + gpr rb) true
    | 151 => store 4 (base + gpr rb) false
    | 183 => store 4 (gpr ra + gpr rb) true
    | 149 => store 8 (base + gpr rb) false
    | 181 => store 8 (gpr ra + gpr rb) true
    | _ => none
  | _ => none

/-! ## The write -/

abbrev Memory := BitVec 64 → BitVec 8

structure Machine where
  mem : Memory
  regs : Regs
  nip : BitVec 64

def byteOf (value : BitVec 64) (i : Nat) : BitVec 8 := value.extractLsb' (8 * i) 8

/-- The first `width` bytes of a little-endian variable, one after the other. -/
def pwrite (mem : Memory) (ea value : BitVec 64) (width : Nat) : Memory :=
  (List.range width).foldl (fun mem i => Function.update mem (ea + BitVec.ofNat 64 i) (byteOf value i)) mem

def emulateStore (d : DecodedStore) (m : Machine) : Machine where
  mem := pwrite m.mem d.ea d.value d.width
  regs := match d.updateRA with
    | some ra => m.regs.set ra d.ea
    | none => m.regs
  nip := m.nip + 4

end PowerArm.Ppc
