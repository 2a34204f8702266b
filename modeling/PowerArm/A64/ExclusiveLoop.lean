import PowerArm.A64.Handlers

/-!
# Fused exclusive loops

`TryFuseExclusiveLoop`: the retry loops it accepts and the code it emits for them, and
the guest's own run of such a loop, in which each store-exclusive succeeds or fails as
the machine decides.
-/

namespace PowerArm.A64

/-- `ExclusiveBodyWrites`: the rows that may stand between the pair. Each writes the
register in bits 4:0. -/
def exclusiveBodyRow : Row → Bool
  | .ADD_imm | .SUB_imm | .AND_imm | .ORR_imm | .EOR_imm
  | .ADD_shift | .SUB_shift | .AND_shift | .ORR_shift | .EOR_shift | .BIC_shift | .ORN_shift
  | .EON | .ADD_ext | .SUB_ext | .MOVZ | .MOVN | .MOVK | .UBFM | .SBFM => true
  | _ => false

def DecodedInst.isRow (inst : DecodedInst) (p : Row → Bool) : Bool := inst.matcher.any p

def maxBody : Nat := 8

/-- A decoded block cut where the fusion looks: its first instruction, the last two and
what is between. -/
structure LoopBlock where
  ld : DecodedInst
  body : List DecodedInst
  sto : DecodedInst
  br : DecodedInst

namespace LoopBlock

def instructions (l : LoopBlock) : List DecodedInst := l.ld :: l.body ++ [l.sto, l.br]

def size (l : LoopBlock) : Nat := A64.bits l.ld.word 31 30
def memSize (l : LoopBlock) : OpSize := OpSize.ofLog l.size
def rn (l : LoopBlock) : Reg := reg l.ld.word 5
def rtLd (l : LoopBlock) : Reg := reg l.ld.word 0
def rs (l : LoopBlock) : Reg := reg l.sto.word 16
def rtSt (l : LoopBlock) : Reg := reg l.sto.word 0

structure Fuses (l : LoopBlock) : Prop where
  length_body : l.body.length ≤ maxBody
  ld_row : l.ld.isRow (fun row => row = .LDXR || row = .LDAXR)
  sto_row : l.sto.isRow (fun row => row = .STXR || row = .STLXR)
  br_row : l.br.isRow (· = .CBNZ)
  closes : l.br.pc + signExtend (bits l.br.word 23 5) 19 * 4 = l.ld.pc
  same_size : bits l.sto.word 31 30 = l.size
  same_base : reg l.sto.word 5 = l.rn
  tests_status : reg l.br.word 0 = l.rs
  status_kept : l.rs ≠ 31
  status_base : l.rs ≠ l.rn
  status_data : l.rs ≠ l.rtSt
  loaded_base : l.rtLd ≠ l.rn
  body_rows : ∀ inst ∈ l.body, inst.isRow exclusiveBodyRow
  body_base : ∀ inst ∈ l.body, reg inst.word 0 ≠ l.rn
  body_status : ∀ inst ∈ l.body, reg inst.word 0 ≠ l.rs

instance (l : LoopBlock) : Decidable l.Fuses :=
  decidable_of_iff ((l.body.length ≤ maxBody ∧ l.ld.isRow (fun row => row = .LDXR || row = .LDAXR) ∧
        l.sto.isRow (fun row => row = .STXR || row = .STLXR) ∧ l.br.isRow (· = .CBNZ) ∧
        l.br.pc + signExtend (A64.bits l.br.word 23 5) 19 * 4 = l.ld.pc) ∧
      (A64.bits l.sto.word 31 30 = l.size ∧ reg l.sto.word 5 = l.rn ∧ reg l.br.word 0 = l.rs) ∧
      (l.rs ≠ 31 ∧ l.rs ≠ l.rn ∧ l.rs ≠ l.rtSt ∧ l.rtLd ≠ l.rn) ∧
      (∀ inst ∈ l.body, inst.isRow exclusiveBodyRow) ∧
      (∀ inst ∈ l.body, reg inst.word 0 ≠ l.rn) ∧ ∀ inst ∈ l.body, reg inst.word 0 ≠ l.rs)
    ⟨fun ⟨⟨a, b, c, d, e⟩, ⟨f, g, h⟩, ⟨i, j, k, m⟩, n, o, p⟩ => ⟨a, b, c, d, e, f, g, h, i, j, k, m, n, o, p⟩,
      fun ⟨a, b, c, d, e, f, g, h, i, j, k, m, n, o, p⟩ => ⟨⟨a, b, c, d, e⟩, ⟨f, g, h⟩, ⟨i, j, k, m⟩, n, o, p⟩⟩

end LoopBlock

structure DecodedBlock where
  entry : Addr
  instructions : List DecodedInst
  contiguous : ∀ i inst, instructions[i]? = some inst → inst.pc = entry + BitVec.ofNat 64 (4 * i)

def DecodedBlock.window (b : DecodedBlock) (index : Nat) : Option LoopBlock :=
  if index ≠ 0 then none
  else
    match b.instructions with
    | [] => none
    | ld :: rest =>
      match rest.reverse with
      | br :: sto :: body => some ⟨ld, body.reverse, sto, br⟩
      | _ => none

def tryFuseExclusiveLoop (b : DecodedBlock) (index : Nat) : Option LoopBlock :=
  (b.window index).filter fun l => l.Fuses

/-! ## The fused code -/

def translateBody : List DecodedInst → Emit Unit
  | [] => pure ()
  | inst :: rest => do
    guestOpcode inst.pc
    translateInstruction inst
    translateBody rest

namespace LoopBlock

/-- The region between `LoadReserved` and the branch back, and whether it is left. -/
def pass (l : LoopBlock) (address : Addr) : Emit Bool := do
  guestOpcode l.ld.pc
  let value ← loadReserved l.memSize address
  storeReg l.rtLd (l.size == 3) value
  translateBody l.body
  guestOpcode l.sto.pc
  storeConditional l.memSize (← loadX l.rtSt) address

/-- `fuel` bounds the retries: a loop that has used it up is left by a signal. -/
def passes (l : LoopBlock) (address : Addr) : Nat → Emit Unit
  | 0 => do
    let _ ← Lib.Act.request .signal
  | fuel + 1 => do
    let stored ← l.pass address
    if stored then pure () else l.passes address fuel

def fused (l : LoopBlock) (fuel : Nat) : Emit Unit := do
  let address ← loadXSP l.rn
  storeExcl ({ · with valid := 0 })
  l.passes address fuel
  guestOpcode l.br.pc
  storeW l.rs 0
  exitToPC (l.br.pc + 4)

/-! ## The guest's loop -/

def guestStoreExclusive (word : Word) (succeeds : Bool) : Emit Unit := do
  let rs := reg word 16
  if succeeds then do
    storeMem (OpSize.ofLog (bits word 31 30)) (← loadX (reg word 0)) (← loadXSP (reg word 5))
    storeW rs 0
  else storeW rs 1

def attempt (l : LoopBlock) (succeeds : Bool) : Emit Unit := do
  guestOpcode l.ld.pc
  translateInstruction l.ld
  translateBody l.body
  guestOpcode l.sto.pc
  guestStoreExclusive l.sto.word succeeds
  guestOpcode l.br.pc
  translateInstruction l.br

/-- The guest runs the block, and again as long as the branch leads back to it. The
list says how its store-exclusives end; a guest that needs more is left by a signal. -/
def guest (l : LoopBlock) : List Bool → Emit Unit
  | [] => do
    let _ ← Lib.Act.request .signal
  | succeeds :: rest => do
    l.attempt succeeds
    let pc ← Lib.Act.gets (·.pc)
    if pc = l.ld.pc then l.guest rest else pure ()

end LoopBlock

end PowerArm.A64
