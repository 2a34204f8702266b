import PowerArm.A64.ExclusiveLoop

/-!
# What the loop bodies' handlers do

A row that may stand in a fused window either rejects its word, whatever the state, or
writes one register from the others (`exclusiveBody_regOnly`).
-/

namespace PowerArm.A64

open Lib (Act Resume)

/-! ## Fields a row fixes -/

theorem extract_of_matches {m : Decode.MaskExpect} {word : Word} (h : m.Matches word)
    (hmask : m.mask.extractLsb' lo n = BitVec.allOnes n) : word.extractLsb' lo n = m.expect.extractLsb' lo n := by
  rw [← show word &&& m.mask = m.expect from h, BitVec.extractLsb'_and, hmask, BitVec.and_allOnes]

theorem bits_lt (word : Word) (hi lo : Nat) : bits word hi lo < 2 ^ (hi - lo + 1) := BitVec.isLt _

theorem opc_cases (h : bits word 30 29 ≠ 3) : bits word 30 29 = 0 ∨ bits word 30 29 = 1 ∨ bits word 30 29 = 2 := by
  have hlt := bits_lt word 30 29
  omega

theorem DecodedInst.bits_eq (inst : DecodedInst) (h : inst.matcher = some row) (hi lo : Nat)
    (hmask : (Decode.parseBits row.bits).mask.extractLsb' lo (hi - lo + 1) = BitVec.allOnes _) :
    A64.bits inst.word hi lo = A64.bits (Decode.parseBits row.bits).expect hi lo := by
  rw [A64.bits, extract_of_matches (inst.matched row h) hmask]
  rfl

theorem DecodedInst.bit_eq (inst : DecodedInst) (h : inst.matcher = some row) (i : Nat)
    (hmask : (Decode.parseBits row.bits).mask.getLsbD i) :
    A64.bit inst.word i = A64.bit (Decode.parseBits row.bits).expect i := by
  unfold A64.bit
  rw [← show inst.word &&& (Decode.parseBits row.bits).mask = _ from inst.matched row h,
    BitVec.getLsbD_and, hmask, Bool.and_true]

/-! ## Register writes -/

@[simp] theorem Cpu.setGpr_same (cpu : Cpu) (r : Reg) : cpu.setGpr r (cpu.gpr r) = cpu := by simp [Cpu.setGpr]

/-- Rejects every time, or writes `rd` from the source registers and nothing else. -/
def RegOnly (sources : List Reg) (rd : Reg) (m : Emit Bool) : Prop :=
  (∀ cpu, m cpu = .ret false cpu) ∨ ∃ f : (Reg → Value) → Value,
      (∀ cpu, m cpu = .ret true (cpu.setGpr rd (f cpu.gpr))) ∧
      ∀ g g', (∀ r ∈ sources, g r = g' r) → (rd = 31#5 → g 31#5 = g' 31#5) → f g = f g'

/-- The value `storeReg` leaves in its register, register 31 keeping its own. -/
def regValue (rd : Reg) (is64 : Bool) (v : Value) (gpr : Reg → Value) : Value :=
  if rd = 31 then gpr 31 else if is64 then v else zeroExtend32 v

theorem storeReg_eq (rd : Reg) (is64 : Bool) (v : Value) (cpu : Cpu) :
    storeReg rd is64 v cpu = .ret () (cpu.setGpr rd (regValue rd is64 v cpu.gpr)) := by
  unfold storeReg storeW storeX Cpu.writeX regValue
  cases is64 <;> by_cases h : rd = 31#5 <;> simp [h]

theorem storeRegSP_eq (rd : Reg) (is64 : Bool) (v : Value) (cpu : Cpu) : storeRegSP rd is64 v cpu =
      .ret () (cpu.setGpr rd (if is64 then v else zeroExtend32 v)) := by
  cases is64 <;> rfl

theorem storeX_eq (rd : Reg) (v : Value) (cpu : Cpu) :
    storeX rd v cpu = .ret () (cpu.setGpr rd (regValue rd true v cpu.gpr)) :=
  storeReg_eq rd true v cpu

theorem regValue_congr (rd : Reg) (is64 : Bool) (hv : v = v') (hrd : rd = 31#5 → g 31#5 = g' 31#5) :
    regValue rd is64 v g = regValue rd is64 v' g' := by
  unfold regValue
  split
  · next h => exact hrd h
  · rw [hv]

theorem RegOnly.reject (sources : List Reg) (rd : Reg) : RegOnly sources rd (pure false) := Or.inl fun _ => rfl

section
variable (word : Word)
include word

theorem addSubImmediate_regOnly (isSub : Bool) :
    RegOnly [reg word 5] (reg word 0) (addSubImmediate word isSub false) := by
  unfold addSubImmediate
  dsimp only
  split
  · exact RegOnly.reject _ _
  refine Or.inr ⟨?_, fun ⟨gpr, nzcv, excl, pc⟩ => ?_, ?_⟩
  rotate_left
  · simp only [Bool.not_false, if_true, loadXSP, Act.bind_apply, Act.gets_apply, storeRegSP_eq]
    rfl
  · intro g g' hg _
    simp [hg]

theorem moveWide_regOnly (hsrc : bits word 30 29 = 3 → reg word 0 ∈ sources) :
    RegOnly sources (reg word 0) (moveWide word) := by
  unfold moveWide
  dsimp only
  split
  · exact RegOnly.reject _ _
  split
  case h_4 => exact RegOnly.reject _ _
  all_goals
    refine Or.inr ⟨?_, fun ⟨gpr, nzcv, excl, pc⟩ => ?_, ?_⟩
    rotate_left
    · simp only [loadX, readX, storeX_eq, storeReg_eq, Act.bind_apply, Act.gets_apply,
        Resume.bind_ret]
      rfl
    · intro g g' hg hrd
      refine regValue_congr _ _ ?_ hrd
      simp_all

theorem bitfield_regOnly (hopc : bits word 30 29 ≠ 1) :
    RegOnly [reg word 5] (reg word 0) (bitfield word) := by
  unfold bitfield
  dsimp only
  split
  · exact RegOnly.reject _ _
  refine Or.inr ⟨?_, fun ⟨gpr, nzcv, excl, pc⟩ => ?_, ?_⟩
  rotate_left
  · simp only [loadX, readX, storeReg_eq, Act.bind_apply, Act.gets_apply, Resume.bind_ret]
    rfl
  · intro g g' hg hrd
    refine regValue_congr _ _ ?_ hrd
    unfold bitfieldResult
    split <;> simp_all

theorem logicalImmediate_regOnly (hopc : bits word 30 29 ≠ 3) :
    RegOnly [reg word 5] (reg word 0) (logicalImmediate word) := by
  unfold logicalImmediate
  dsimp only
  split
  · exact RegOnly.reject _ _
  split
  · exact RegOnly.reject _ _
  split
  case h_4 h0 h1 h2 => exact ((opc_cases hopc).elim h0 (·.elim h1 h2)).elim
  all_goals
    refine Or.inr ⟨?_, fun ⟨gpr, nzcv, excl, pc⟩ => ?_, ?_⟩
    rotate_left
    · simp only [loadX, readX, storeRegSP_eq, Act.bind_apply, Act.gets_apply, Resume.bind_ret]
      rfl
    · simp_all

theorem logicalShifted_regOnly (hopc : bits word 30 29 ≠ 3) :
    RegOnly [reg word 16, reg word 5] (reg word 0) (logicalShifted word) := by
  unfold logicalShifted
  dsimp only
  split
  · exact RegOnly.reject _ _
  split
  case h_4 h0 h1 h2 => exact ((opc_cases hopc).elim h0 (·.elim h1 h2)).elim
  all_goals
    refine Or.inr ⟨?_, fun ⟨gpr, nzcv, excl, pc⟩ => ?_, ?_⟩
    rotate_left
    · simp only [loadX, readX, storeReg_eq, Act.bind_apply, Act.gets_apply, Resume.bind_ret]
      rfl
    · intro g g' hg hrd
      refine regValue_congr _ _ ?_ hrd
      simp_all

theorem addSubShifted_regOnly (hflags : bit word 29 = false) :
    RegOnly [reg word 16, reg word 5] (reg word 0) (addSubShifted word) := by
  unfold addSubShifted
  dsimp only
  split
  · exact RegOnly.reject _ _
  refine Or.inr ⟨?_, fun ⟨gpr, nzcv, excl, pc⟩ => ?_, ?_⟩
  rotate_left
  · simp only [loadX, readX, addSubOperand, hflags, storeReg_eq, Act.bind_apply,
      Act.gets_apply, Resume.bind_ret, Bool.not_false, if_true, Bool.false_eq_true,
      if_false]
    rfl
  · intro g g' hg hrd
    refine regValue_congr _ _ ?_ hrd
    simp_all

theorem addSubExtended_regOnly (hflags : bit word 29 = false) :
    RegOnly [reg word 16, reg word 5] (reg word 0) (addSubExtended word) := by
  unfold addSubExtended
  dsimp only
  split
  · exact RegOnly.reject _ _
  refine Or.inr ⟨?_, fun ⟨gpr, nzcv, excl, pc⟩ => ?_, ?_⟩
  rotate_left
  · simp only [loadX, loadXSP, readX, addSubOperand, hflags, storeRegSP_eq, Act.bind_apply,
      Act.gets_apply, Resume.bind_ret, Bool.not_false, if_true]
    rfl
  · simp_all

end

/-! ## Rows of a fused window -/

def DecodedInst.sources (inst : DecodedInst) : List Reg :=
  match inst.matcher with
  | some .MOVZ | some .MOVN => []
  | some .MOVK => [reg inst.word 0]
  | some .ADD_imm | some .SUB_imm | some .AND_imm | some .ORR_imm | some .EOR_imm | some .UBFM
  | some .SBFM => [reg inst.word 5]
  | _ => [reg inst.word 16, reg inst.word 5]

theorem exclusiveBody_regOnly (inst : DecodedInst) (hm : inst.matcher = some row) (hrow : exclusiveBodyRow row) :
    RegOnly inst.sources (reg inst.word 0) (row.handler inst.pc inst.word) := by
  have hopc := inst.bits_eq hm 30 29
  have hflags := inst.bit_eq hm 29
  unfold DecodedInst.sources
  rw [hm]
  cases row with
  | ADD_imm => exact addSubImmediate_regOnly _ _
  | SUB_imm => exact addSubImmediate_regOnly _ _
  | AND_imm | ORR_imm | EOR_imm =>
    exact logicalImmediate_regOnly _ (by rw [hopc (by decide +kernel)]; decide +kernel)
  | AND_shift | ORR_shift | EOR_shift | BIC_shift | ORN_shift | EON =>
    exact logicalShifted_regOnly _ (by rw [hopc (by decide +kernel)]; decide +kernel)
  | ADD_shift | SUB_shift => exact addSubShifted_regOnly _ (by rw [hflags (by decide +kernel)]; decide +kernel)
  | ADD_ext | SUB_ext => exact addSubExtended_regOnly _ (by rw [hflags (by decide +kernel)]; decide +kernel)
  | MOVZ | MOVN => exact moveWide_regOnly _ fun h => absurd h (by rw [hopc (by decide +kernel)]; decide +kernel)
  | MOVK => exact moveWide_regOnly _ fun _ => List.mem_singleton_self _
  | UBFM | SBFM => exact bitfield_regOnly _ (by rw [hopc (by decide +kernel)]; decide +kernel)
  | _ => cases hrow

end PowerArm.A64
