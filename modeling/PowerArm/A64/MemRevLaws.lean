import PowerArm.A64.MachineLaws
import PowerArm.A64.HandlerLaws
import PowerArm.A64.ExclusiveLoopLaws
import PowerArm.A64.MemRev

/-!
# Fused byte reversals change nothing

The load or store of a fused pair is one access with an optional writeback
(`translateInstruction_access`), and the reversal of a fused pair is the reversal of that
access's bytes. So the fused code ends, or faults, as the two instructions do
(`memRev_transparent`).
-/

namespace PowerArm.A64

open Lib (Act Resume)

/-! ## The access -/

namespace RevAccess

def addr (a : RevAccess) (gpr : Reg → Value) : Addr :=
  if a.writeBack then if a.postIndex then gpr a.rn else gpr a.rn + a.disp
  else if a.rm ≠ 31 then gpr a.rn + readX gpr a.rm
  else gpr a.rn + a.disp

def back (a : RevAccess) (cpu : Cpu) : Cpu :=
  if a.writeBack then cpu.setGpr a.rn (cpu.gpr a.rn + a.disp) else cpu

end RevAccess

theorem Ir.add_i64Bit (a b : Value) : Ir.add .i64Bit a b = a + b := by
  show BitVec.setWidth 64 (BitVec.setWidth 64 a + BitVec.setWidth 64 b) = a + b
  simp

theorem memAddress_inlineOffset (base offset : Value) :
    memAddress base (inlineOffset offset) .sxtx 1 = base + offset := by
  unfold inlineOffset
  split
  · next h => simp [memAddress, h]
  · simp [memAddress, MemOffsetType.extend]

theorem decodeSizeOpc_plain (hsign : ¬(decodeSizeOpc size opc).signExtend)
    (hop : ¬((decodeSizeOpc size opc).op ≠ .load ∧ (decodeSizeOpc size opc).op ≠ .store)) :
    decodeSizeOpc size opc = ⟨(decodeSizeOpc size opc).op, false, size == 3⟩ := by
  unfold decodeSizeOpc at *
  by_cases h₁ : opc &&& 2 = 0
  · simp only [if_pos h₁]
  simp only [if_neg h₁] at *
  by_cases h₂ : size = 3
  · simp only [if_pos h₂] at hop
    split at hop <;> simp at hop
  simp only [if_neg h₂] at *
  split at hop
  · simp at hop
  · next h₃ =>
    rw [if_neg h₃] at hsign
    exact absurd rfl hsign

inductive RevAccess.Form (word : Word) (op : MemOp) : Row → RevAccess → Prop
  | imm2 : Form word op .STRx_LDRx_imm_2 ⟨op == .load, bits word 31 30, reg word 0, reg word 5,
        BitVec.ofNat 64 (bits word 21 10 <<< bits word 31 30), false, false, 31⟩
  | unscaled : Form word op .STURx_LDURx
      ⟨op == .load, bits word 31 30, reg word 0, reg word 5, signExtend (bits word 20 12) 9, false, false, 31⟩
  | imm1 : Form word op .STRx_LDRx_imm_1
      ⟨op == .load, bits word 31 30, reg word 0, reg word 5, signExtend (bits word 20 12) 9,
        true, bits word 11 10 == 0b01, 31⟩
  | regOffset (row : Row) (hrow : row = .LDRx_reg ∨ row = .STRx_reg)
      (option : bits word 15 13 = 0b011) (unscaled : bit word 12 = false) :
      Form word op row ⟨op == .load, bits word 31 30, reg word 0, reg word 5, 0, false, false, reg word 16⟩

theorem decodeRevAccess_cases (h : decodeRevAccess inst = some a) :
    ∃ row op, inst.matcher = some row ∧ (op = .load ∨ op = .store) ∧
      decodeSizeOpc (bits inst.word 31 30) (bits inst.word 23 22) =
        ⟨op, false, bits inst.word 31 30 == 3⟩ ∧ a.Form inst.word op row := by
  unfold decodeRevAccess at h
  dsimp only at h
  split at h
  · cases h
  split at h
  · cases h
  next hplain =>
    simp only [not_or] at hplain
    have hdecode := decodeSizeOpc_plain hplain.2.1 hplain.2.2
    have hop := hplain.2.2
    rw [not_and_or, not_not, not_not] at hop
    split at h
    case h_1 hm => exact ⟨_, _, hm, hop, hdecode, Option.some.inj h ▸ .imm2⟩
    case h_2 hm => exact ⟨_, _, hm, hop, hdecode, Option.some.inj h ▸ .unscaled⟩
    case h_3 hm => exact ⟨_, _, hm, hop, hdecode, Option.some.inj h ▸ .imm1⟩
    case h_4 hm =>
      split at h
      · next hreg =>
        refine ⟨_, _, hm, hop, hdecode, Option.some.inj h ▸ .regOffset _ (Or.inl rfl) hreg.1 ?_⟩
        simpa using hreg.2
      · cases h
    case h_5 hm =>
      split at h
      · next hreg =>
        refine ⟨_, _, hm, hop, hdecode, Option.some.inj h ▸ .regOffset _ (Or.inr rfl) hreg.1 ?_⟩
        simpa using hreg.2
      · cases h
    case h_6 => cases h

def RevAccess.after (a : RevAccess) (cpu : Cpu) (reply : Reply) : Cpu :=
  if a.isLoad then
    (a.back cpu).setGpr a.rt (regValue a.rt (a.size == 3) reply.value (a.back cpu).gpr)
  else a.back cpu

def RevAccess.request (a : RevAccess) (gpr : Reg → Value) : Access :=
  if a.isLoad then .load (OpSize.ofLog a.size) (a.addr gpr)
  else .store (OpSize.ofLog a.size) (a.addr gpr) (readX gpr a.rt)

section
variable (size : OpSize) (is64 : Bool) (rt : Reg) (base : Value) (offset : Option Value) (type : MemOffsetType)
  (scale : Nat) (cpu : Cpu)
include size is64 rt base offset type scale cpu

theorem loadSingle_eq :
    loadStoreSingle true size false is64 rt base offset type scale cpu =
      .ask cpu (.load size (memAddress base offset type scale)) fun reply =>
        .ret () (cpu.setGpr rt (regValue rt is64 reply.value cpu.gpr)) := by
  simp [loadStoreSingle, loadMem, storeReg_eq]

theorem storeSingle_eq :
    loadStoreSingle false size false is64 rt base offset type scale cpu =
      .ask cpu (.store size (memAddress base offset type scale) (readX cpu.gpr rt)) fun _ => .ret () cpu := by
  simp [loadStoreSingle, storeMem, loadX]

end

theorem beq_store_load : (MemOp.store == MemOp.load) = false := rfl

theorem bits_odd (word : Word) (hi lo : Nat) : bits word hi lo % 2 = 1 ↔ bit word lo := by
  have h : (bits word hi lo).testBit 0 = bit word lo := by simp [bits, bit, BitVec.testBit_toNat]
  rw [← h, Nat.testBit_zero, decide_eq_true_iff]

theorem offsetted_eq (base offset : Value) :
    (if offset ≠ 0 then Ir.add .i64Bit base offset else base) = base + offset := by
  split
  · rfl
  · next h => simp [not_not.mp h]

theorem translateInstruction_access (h : decodeRevAccess inst = some a) (cpu : Cpu) :
    translateInstruction inst cpu = .ask cpu (a.request cpu.gpr) fun reply => .ret () (a.after cpu reply) := by
  obtain ⟨row, op, hm, hop, hdecode, hform⟩ := decodeRevAccess_cases h
  rw [translateInstruction_eq hm]
  cases hform with
  | imm2 =>
    simp only [Row.handler, strxLdrxImm2, hdecode, loadXSP, RevAccess.request,
      RevAccess.after, RevAccess.addr, RevAccess.back]
    obtain rfl | rfl := hop
    · simp [loadSingle_eq, memAddress_inlineOffset]
    · simp [storeSingle_eq, memAddress_inlineOffset, beq_store_load]
  | unscaled =>
    have hmode : bits inst.word 11 10 = 0 := inst.bits_eq hm 11 10 (by decide +kernel)
    simp only [Row.handler, loadStoreImm9, hdecode, hmode, loadXSP, RevAccess.request, RevAccess.after,
      RevAccess.addr, RevAccess.back]
    obtain rfl | rfl := hop
    · simp [loadSingle_eq, memAddress_inlineOffset]
    · simp [storeSingle_eq, memAddress_inlineOffset]
  | imm1 =>
    have hbit : bit inst.word 10 := inst.bit_eq hm 10 (by decide +kernel)
    have hmode : bits inst.word 11 10 = 1 ∨ bits inst.word 11 10 = 3 := by
      have hlt := bits_lt inst.word 11 10
      have hodd := (bits_odd inst.word 11 10).mpr hbit
      omega
    simp only [Row.handler, loadStoreImm9, hdecode, loadXSP, RevAccess.request, RevAccess.after,
      RevAccess.addr, RevAccess.back]
    have hback := offsetted_eq (cpu.gpr (reg inst.word 5)) (signExtend (bits inst.word 20 12) 9)
    obtain rfl | rfl := hop <;> obtain hmode | hmode := hmode <;>
      simp [hmode, loadMem, storeMem, loadX, storeXSP, storeReg_eq] at hback ⊢ <;>
      simp [hback]
  | regOffset _ hrow hoption hunscaled =>
    have hhandler : row.handler inst.pc inst.word = loadStoreRegOffset inst.word := by
      obtain rfl | rfl := hrow
      · rfl
      · rfl
    simp only [hhandler, loadStoreRegOffset, hdecode, hoption, hunscaled, loadXSP, RevAccess.request,
      RevAccess.after, RevAccess.addr, RevAccess.back]
    by_cases hrm : reg inst.word 16 = 31#5 <;> obtain rfl | rfl := hop
    · simp [hrm, loadSingle_eq, memAddress]
    · simp [hrm, storeSingle_eq, memAddress, beq_store_load]
    · simp [hrm, loadSingle_eq, memAddress, loadX, extendOffsetType, MemOffsetType.extend]
    · simp [hrm, storeSingle_eq, memAddress, loadX, extendOffsetType, MemOffsetType.extend, beq_store_load]

theorem RevAccess.address_eq (a : RevAccess) (cpu : Cpu) :
    ∃ offsetted, a.address cpu = .ret (a.addr cpu.gpr, offsetted) cpu ∧
      (a.writeBack → offsetted = cpu.gpr a.rn + a.disp) := by
  have hoff := offsetted_eq (cpu.gpr a.rn) a.disp
  unfold RevAccess.address RevAccess.addr
  simp only [Act.bind_apply, loadXSP, Act.gets_apply, Resume.bind_ret, hoff]
  cases a.writeBack with
  | true => exact ⟨_, rfl, fun _ => rfl⟩
  | false =>
    by_cases hrm : a.rm = 31#5
    · by_cases hdisp : a.disp = 0#64
      · simp [hrm, hdisp]
      · simp [hrm, hdisp, Ir.add_i64Bit]
    · simp [hrm, loadX, Ir.add_i64Bit]

/-! ## The reversal -/

theorem trunc_rev (size : OpSize) (v : Value) : size.trunc (Ir.rev size v) = Ir.rev size v := by
  have hlen : (Lib.toBytes size.bytes v).reverse.length = size.bytes := by simp
  have hb := Lib.toBytes_ofBytes (w := 64) (Lib.toBytes size.bytes v).reverse
    (by rw [hlen]; exact Nat.mul_le_mul_left 8 size.bytes_le)
  rw [hlen] at hb
  rw [OpSize.trunc_eq, Ir.rev, hb]

theorem zeroExtend32_eq (v : Value) : zeroExtend32 v = OpSize.trunc .i32Bit v := by
  ext i hi
  simp [zeroExtend32, Ir.bfe, OpSize.trunc, OpSize.bits, OpSize.bytes]

theorem getLsbD_rev_i16Bit (v : Value) (hi : i < 64) : (Ir.rev .i16Bit v).getLsbD i =
      if i < 8 then v.getLsbD (8 + i) else decide (i < 16) && v.getLsbD (i - 8) := by
  by_cases h : i < 8
  · simp [Ir.rev, OpSize.bytes, Lib.toBytes, Lib.ofBytes, h, hi]
  · simp [Ir.rev, OpSize.bytes, Lib.toBytes, Lib.ofBytes, h, hi, show i - 8 < 8 ↔ i < 16 by omega]

def rev16 (is64 : Bool) (v : Value) : Value :=
  let size := sizeFor is64
  let mask : Value := if is64 then 0x00FF00FF00FF00FF else 0x00FF00FF
  Ir.or size (Ir.lshl size (Ir.and size v mask) 8) (Ir.and size (Ir.lshr size v 8) mask)

theorem getLsbD_at₂ (size : OpSize) (f : ∀ {w : Nat}, BitVec w → BitVec w → BitVec w) (a b : Value) (hi : i < 64) :
    (Ir.at₂ size f a b).getLsbD i = (f (a.setWidth size.bits) (b.setWidth size.bits)).getLsbD i := by
  simp [Ir.at₂, hi]

theorem getLsbD_mask16 (is64 : Bool) (hi : i < 64) :
    (if is64 then (0x00FF00FF00FF00FF : Value) else 0x00FF00FF).getLsbD i =
      (decide (i < (sizeFor is64).bits) && decide (i / 8 % 2 = 0)) := by
  have hall : ∀ is64 : Bool, ∀ i < 64, (if is64 then (0x00FF00FF00FF00FF : Value) else 0x00FF00FF).getLsbD i =
        (decide (i < (sizeFor is64).bits) && decide (i / 8 % 2 = 0)) := by
    decide +kernel
  exact hall is64 i hi

theorem getLsbD_rev16 (is64 : Bool) (v : Value) (hi : i < 64) :
    (rev16 is64 v).getLsbD i = (decide (i < (sizeFor is64).bits) &&
      if i / 8 % 2 = 0 then v.getLsbD (8 + i) else v.getLsbD (i - 8)) := by
  have hcount : (BitVec.setWidth (sizeFor is64).bits (8 : Value)).toNat % (sizeFor is64).bits = 8 := by
    cases is64 <;> rfl
  have hbits : (sizeFor is64).bits = 32 ∨ (sizeFor is64).bits = 64 := by cases is64 <;> decide
  unfold rev16 Ir.or Ir.lshl Ir.and Ir.lshr
  simp only [getLsbD_at₂ _ _ _ _ hi, getLsbD_at₂ _ _ _ _ (show i - 8 < 64 by omega), hcount,
    BitVec.getLsbD_or, BitVec.getLsbD_and, BitVec.getLsbD_setWidth, BitVec.getLsbD_shiftLeft,
    getLsbD_mask16 is64 hi, getLsbD_mask16 is64 (show i - 8 < 64 by omega)]
  generalize (sizeFor is64).bits = w at hbits
  by_cases hw : i < w
  · by_cases heven : i / 8 % 2 = 0
    · have hin : 8 + i < w := by omega
      by_cases h8 : i < 8
      · simp [hw, heven, hin, h8]
      · simp [hw, heven, hin, show ¬(i - 8) / 8 % 2 = 0 by omega]
    · have h8 : ¬i < 8 := by omega
      simp [heven, h8, show (i - 8) / 8 % 2 = 0 by omega, show i - 8 < w by omega]
  · simp [hw]

/-- A function of a register that reverses the bytes of a `size`-byte access. -/
structure Reverses (size : OpSize) (f : Value → Value) : Prop where
  loaded : ∀ v, size.trunc v = v → f v = Ir.rev size v
  stored : ∀ v, size.trunc (f v) = Ir.rev size v

theorem reverses_rev (size : OpSize) : Reverses size (Ir.rev size) := ⟨fun _ _ => rfl, trunc_rev size⟩

theorem getLsbD_trunc (size : OpSize) (v : Value) (hi : i < 64) :
    (size.trunc v).getLsbD i = (decide (i < size.bits) && v.getLsbD i) := by
  simp [OpSize.trunc, hi]

theorem reverses_rev16 (is64 : Bool) : Reverses .i16Bit (rev16 is64) where
  loaded v hv := by
    apply BitVec.eq_of_getLsbD_eq
    intro i hi
    have hhigh (j : Nat) (hj : 16 ≤ j) : v.getLsbD j = false := by
      rw [← hv]
      simp [OpSize.trunc, OpSize.bits, OpSize.bytes]
      omega
    have hbits : 16 < (sizeFor is64).bits := by cases is64 <;> decide
    rw [getLsbD_rev16 is64 v hi, getLsbD_rev_i16Bit v hi]
    by_cases h8 : i < 8
    · simp [h8, show i / 8 % 2 = 0 by omega, show i < (sizeFor is64).bits by omega]
    by_cases h16 : i < 16
    · simp [h8, h16, show ¬i / 8 % 2 = 0 by omega, show i < (sizeFor is64).bits by omega]
    by_cases heven : i / 8 % 2 = 0
    · simp [h16, heven, hhigh (8 + i) (by omega)]
    · simp [h8, heven, hhigh (i - 8) (by omega)]
  stored v := by
    apply BitVec.eq_of_getLsbD_eq
    intro i hi
    have hbits : 16 < (sizeFor is64).bits := by cases is64 <;> decide
    rw [getLsbD_trunc _ _ hi, getLsbD_rev16 is64 v hi, getLsbD_rev_i16Bit v hi]
    by_cases h8 : i < 8
    · simp [h8, show i / 8 % 2 = 0 by omega, show i < (sizeFor is64).bits by omega,
        show i < OpSize.bits .i16Bit from Nat.lt_trans h8 (by decide)]
    by_cases h16 : i < 16
    · simp [h8, h16, show ¬i / 8 % 2 = 0 by omega, show i < (sizeFor is64).bits by omega,
        show i < OpSize.bits .i16Bit from h16]
    · simp [h8, h16, show ¬i < OpSize.bits .i16Bit from h16]

theorem zeroExtend32_of_trunc {size : OpSize} (hsize : size ≠ .i64Bit) (hv : size.trunc v = v) :
    zeroExtend32 v = v := by
  rw [zeroExtend32_eq, ← hv]
  apply BitVec.eq_of_getLsbD_eq
  intro i hi
  have hle : size.bits ≤ OpSize.bits .i32Bit := by
    cases size with
    | i64Bit => exact absurd rfl hsize
    | _ => decide
  rw [getLsbD_trunc _ _ hi, getLsbD_trunc _ _ hi]
  by_cases h : i < size.bits
  · simp [Nat.lt_of_lt_of_le h hle]
  · simp [h]

theorem zeroExtend32_rev16 (v : Value) : zeroExtend32 (rev16 false v) = rev16 false v := by
  rw [zeroExtend32_eq]
  apply BitVec.eq_of_getLsbD_eq
  intro i hi
  rw [getLsbD_trunc _ _ hi, getLsbD_rev16 _ _ hi, ← Bool.and_assoc, show sizeFor false = .i32Bit from rfl,
    Bool.and_self]

theorem revOfWidth_size (h : revOfWidth inst n) : n = 3 ∨ OpSize.ofLog n ≠ .i64Bit := by
  unfold revOfWidth at h
  split at h
  · obtain rfl : n = 1 := by simpa using h
    exact Or.inr (by decide)
  · simp only [Bool.and_eq_true, beq_iff_eq] at h
    rw [h.2]
    split
    · exact Or.inl rfl
    · exact Or.inr (by decide)
  · cases h

theorem revOfWidth_eq {inst : DecodedInst} (h : revOfWidth inst n) (hrd : reg inst.word 0 ≠ 31) :
    ∃ f, Reverses (OpSize.ofLog n) f ∧ ∀ cpu, revHandler inst cpu =
        .ret true (cpu.setGpr (reg inst.word 0) (f (readX cpu.gpr (reg inst.word 5)))) ∧
      translateInstruction inst cpu =
        .ret () (cpu.setGpr (reg inst.word 0) (f (readX cpu.gpr (reg inst.word 5)))) := by
  unfold revOfWidth at h
  unfold revHandler
  split at h
  · next hm =>
    obtain rfl : n = 1 := by simpa using h
    rw [translateInstruction_eq hm, if_pos hm]
    refine ⟨_, reverses_rev16 (bit inst.word 31), fun cpu => ?_⟩
    have hhandler : rev16Int inst.word cpu = .ret true (cpu.setGpr (reg inst.word 0)
          (rev16 (bit inst.word 31) (readX cpu.gpr (reg inst.word 5)))) := by
      simp only [rev16Int, Act.bind_apply, storeReg_eq, regValue, if_neg hrd]
      cases bit inst.word 31 with
      | true => rfl
      | false => exact congrArg (fun v => Resume.ret true (cpu.setGpr _ v)) (zeroExtend32_rev16 _)
    exact ⟨hhandler, by simp [Row.handler, hhandler]⟩
  · next hm =>
    simp only [Bool.and_eq_true, beq_iff_eq] at h
    rw [translateInstruction_eq hm, if_neg (by simp [hm])]
    refine ⟨_, reverses_rev _, fun cpu => ?_⟩
    have hhandler : rev inst.word cpu = .ret true (cpu.setGpr (reg inst.word 0)
          (Ir.rev (OpSize.ofLog n) (readX cpu.gpr (reg inst.word 5)))) := by
      rw [rev, if_neg (by simp [h.1])]
      simp only [Act.bind_apply, storeReg_eq, regValue, if_neg hrd]
      rw [h.2]
      cases bit inst.word 31 with
      | true => rfl
      | false =>
        refine congrArg (fun v => Resume.ret true (cpu.setGpr _ v)) ?_
        exact zeroExtend32_of_trunc (by decide) (trunc_rev .i32Bit _)
    exact ⟨hhandler, by simp [Row.handler, hhandler]⟩
  · cases h

/-! ## Fused and unfused runs -/

/-- Both end, or both fault, with the same thread state and the same memory. -/
def SameOutcome : Lib.Outcome Cpu Access Memory α → Lib.Outcome Cpu Access Memory β → Prop
  | .done _ cpu mem, .done _ cpu' mem' => cpu = cpu' ∧ mem = mem'
  | .refused _ cpu mem, .refused _ cpu' mem' => cpu = cpu' ∧ mem = mem'
  | _, _ => False

/-- What the guest has done when the instruction with the access starts. -/
def MemRevFusion.before (first second : DecodedInst) : MemRevFusion → Emit Unit
  | .loadRev _ => guestOpcode first.pc
  | .revStore _ => do
    guestOpcode first.pc
    translateInstruction first
    guestOpcode second.pc

theorem sameOutcome_of_ask {p : Prog α} {q : Prog β} {answer : Answer} {mem : Memory}
    {next next' : Reply → Cpu} (hp : p = .ask cpu access fun reply => .ret a (next reply))
    (hq : q = .ask cpu access' fun reply => .ret b (next' reply))
    (hserve : mem.serve answer access = mem.serve answer access')
    (hnext : ∀ reply mem', mem.serve answer access' = some (reply, mem') →
      next reply = next' reply) :
    SameOutcome (p.run (Memory.serve answer) mem) (q.run (Memory.serve answer) mem) ∧
      ∀ request cpu' mem', q.run (Memory.serve answer) mem = .refused request cpu' mem' →
        cpu' = cpu ∧ mem' = mem := by
  rw [hp, hq, Resume.run, Resume.run, hserve]
  cases hs : mem.serve answer access' with
  | none =>
    refine ⟨⟨rfl, rfl⟩, fun request cpu' mem' h => ?_⟩
    cases h
    exact ⟨rfl, rfl⟩
  | some served =>
    refine ⟨⟨hnext _ _ hs, rfl⟩, fun request cpu' mem' h => ?_⟩
    cases h

theorem toBytes_trunc (size : OpSize) (v : Value) :
    Lib.toBytes size.bytes (size.trunc v) = Lib.toBytes size.bytes v := by
  have hlen := Lib.length_toBytes size.bytes v
  have hb := Lib.toBytes_ofBytes (w := 64) (Lib.toBytes size.bytes v)
    (by rw [hlen]; exact Nat.mul_le_mul_left 8 size.bytes_le)
  rw [hlen] at hb
  rw [OpSize.trunc_eq, hb]

theorem serve_store_congr (h : size.trunc v = size.trunc v') (answer : Answer) (mem : Memory) (addr : Addr) :
    mem.serve answer (.store size addr v) = mem.serve answer (.store size addr v') := by
  have hbytes : Lib.toBytes size.bytes v = Lib.toBytes size.bytes v' := by rw [← toBytes_trunc, h, toBytes_trunc]
  simp only [Memory.serve, Memory.write, hbytes]

section Fusion

variable {first second : DecodedInst} {a : RevAccess}

theorem regValue_loaded (hrt : a.rt ≠ 31) (hv : (OpSize.ofLog a.size).trunc v = v)
    (hsize : a.size = 3 ∨ OpSize.ofLog a.size ≠ .i64Bit) (gpr : Reg → Value) :
    regValue a.rt (a.size == 3) v gpr = v := by
  rw [regValue, if_neg hrt]
  split
  · rfl
  · next hne => exact zeroExtend32_of_trunc (hsize.resolve_left (by simpa using hne)) hv

def Cpu.atPc (cpu : Cpu) (pc : Addr) : Cpu := { cpu with pc := pc }

theorem guestOpcode_eq (pc : Addr) (cpu : Cpu) : guestOpcode pc cpu = .ret () (cpu.atPc pc) := rfl

theorem RevAccess.storeBase_eq (a : RevAccess) (cpu : Cpu) (hoff : a.writeBack → offsetted = cpu.gpr a.rn + a.disp) :
    a.storeBase offsetted cpu = .ret () (a.back cpu) := by
  unfold RevAccess.storeBase RevAccess.back
  split
  · next hwb =>
    rw [hoff hwb]
    rfl
  · rfl

theorem loadRev_sameOutcome (ha : decodeRevAccess first = some a) (hf : fusesLoadRev second a)
    (cpu : Cpu) (mem : Memory) (answer : Answer) :
    SameOutcome ((inOrder first second cpu).run (Memory.serve answer) mem)
      (((MemRevFusion.loadRev a).fused first second cpu).run (Memory.serve answer) mem) ∧
    ∀ request cpu' mem', ((MemRevFusion.loadRev a).fused first second cpu).run (Memory.serve answer) mem =
        .refused request cpu' mem' → cpu' = cpu.atPc first.pc ∧ mem' = mem := by
  simp only [fusesLoadRev, Bool.and_eq_true, bne_iff_ne, beq_iff_eq] at hf
  obtain ⟨⟨⟨⟨hload, hrt⟩, hrev⟩, hsrc⟩, hdst⟩ := hf
  obtain ⟨f, hf, hsecond⟩ := revOfWidth_eq hrev (hdst ▸ hrt)
  obtain ⟨offsetted, haddr, hoff⟩ := a.address_eq (cpu.atPc first.pc)
  have hback := a.storeBase_eq (cpu.atPc first.pc) hoff
  have hordered : inOrder first second cpu = .ask (cpu.atPc first.pc) (a.request cpu.gpr) fun reply =>
        .ret () (((a.after (cpu.atPc first.pc) reply).atPc second.pc).setGpr a.rt
          (f (readX (a.after (cpu.atPc first.pc) reply).gpr a.rt))) := by
    simp only [inOrder, Act.bind_apply, translateInstruction_access ha, (hsecond _).2, hsrc, hdst]
    rfl
  have hfused : (MemRevFusion.loadRev a).fused first second cpu =
      .ask (cpu.atPc first.pc) (.load (OpSize.ofLog a.size) (a.addr cpu.gpr)) fun reply =>
        .ret 2 (((a.back (cpu.atPc first.pc)).setGpr a.rt
          (Ir.rev (OpSize.ofLog a.size) reply.value)).atPc second.pc) := by
    simp only [MemRevFusion.fused, MemRevFusion.code, Act.bind_apply, guestOpcode_eq,
      Resume.bind_ret, haddr, loadMemRev, loadMem, Act.request_apply, Resume.bind_ask,
      Act.pure_apply, hback, storeX, Cpu.writeX, if_neg hrt]
    rfl
  have hrequest : a.request cpu.gpr = .load (OpSize.ofLog a.size) (a.addr cpu.gpr) := by
    rw [RevAccess.request, if_pos hload]
  rw [hrequest] at hordered
  refine sameOutcome_of_ask hordered hfused rfl fun reply mem' hserve => ?_
  -- what was loaded is as short as the access, so the register holds it unchanged
  have hv : (OpSize.ofLog a.size).trunc reply.value = reply.value := by
    simp only [Memory.serve, Option.ite_none_right_eq_some, Option.some.injEq] at hserve
    obtain ⟨-, rfl, -⟩ := hserve
    exact mem.trunc_read _ _
  simp only [RevAccess.after, if_pos hload, regValue_loaded hrt hv (revOfWidth_size hrev), Cpu.setGpr, Cpu.atPc,
    readX, if_neg hrt, Function.update_self, Function.update_idem, hf.loaded _ hv]

theorem revStore_sameOutcome (ha : decodeRevAccess second = some a) (hf : fusesRevStore first a)
    (cpu : Cpu) (mem : Memory) (answer : Answer) :
    SameOutcome ((inOrder first second cpu).run (Memory.serve answer) mem)
      (((MemRevFusion.revStore a).fused first second cpu).run (Memory.serve answer) mem) ∧
    ∀ request cpu' mem', ((MemRevFusion.revStore a).fused first second cpu).run (Memory.serve answer) mem =
        .refused request cpu' mem' →
      (MemRevFusion.revStore a).before first second cpu = .ret () cpu' ∧ mem' = mem := by
  simp only [fusesRevStore, Bool.and_eq_true, bne_iff_ne, beq_iff_eq, Bool.not_eq_true'] at hf
  obtain ⟨⟨⟨hstore, hrt⟩, hrev⟩, hdst⟩ := hf
  obtain ⟨f, hf, hfirst⟩ := revOfWidth_eq hrev (hdst ▸ hrt)
  -- the state at the store's boundary
  let src := readX cpu.gpr (reg first.word 5)
  let cpu₁ := ((cpu.atPc first.pc).setGpr a.rt (f src)).atPc second.pc
  have hbefore : (MemRevFusion.revStore a).before first second cpu = .ret () cpu₁ := by
    simp only [MemRevFusion.before, Act.bind_apply, (hfirst _).2, hdst]
    rfl
  obtain ⟨offsetted, haddr, hoff⟩ := a.address_eq cpu₁
  have hback := a.storeBase_eq cpu₁ hoff
  have hordered : inOrder first second cpu = .ask cpu₁ (a.request cpu₁.gpr) fun _ => .ret () (a.back cpu₁) := by
    simp only [inOrder, Act.bind_apply, (hfirst _).2, hdst, translateInstruction_access ha, RevAccess.after, hstore]
    rfl
  have hfused : (MemRevFusion.revStore a).fused first second cpu =
      .ask cpu₁ (.store (OpSize.ofLog a.size) (a.addr cpu₁.gpr) (Ir.rev (OpSize.ofLog a.size) src))
        fun _ => .ret 2 (a.back cpu₁) := by
    simp only [MemRevFusion.fused, MemRevFusion.code, Act.bind_apply, Resume.bind_ret, (hfirst _).1, hdst, Bool.not_true,
      Bool.false_eq_true, if_false]
    change (a.address cpu₁).bind _ = _
    rw [haddr]
    simp only [Resume.bind_ret, storeMemRev, storeMem, Act.bind_apply, Act.request_apply,
      Resume.bind_ask, Act.pure_apply, hback]
    rfl
  have hrequest : a.request cpu₁.gpr = .store (OpSize.ofLog a.size) (a.addr cpu₁.gpr) (f src) := by
    rw [RevAccess.request, hstore, if_neg (by decide), readX, if_neg hrt]
    simp [cpu₁, Cpu.atPc, Cpu.setGpr]
  rw [hrequest] at hordered
  have htrunc : (OpSize.ofLog a.size).trunc (f src) =
      (OpSize.ofLog a.size).trunc (Ir.rev (OpSize.ofLog a.size) src) := by
    rw [hf.stored, trunc_rev]
  obtain ⟨hsame, hrefused⟩ := sameOutcome_of_ask hordered hfused
    (serve_store_congr htrunc answer mem _) fun _ _ _ => rfl
  refine ⟨hsame, fun request cpu' mem' hrun => ?_⟩
  obtain ⟨rfl, rfl⟩ := hrefused request cpu' mem' hrun
  exact ⟨hbefore, rfl⟩

end Fusion

/-- For every pair the fusion accepts, every register state and memory: the fused code ends
or faults as the two instructions in order do, and a fault finds the state of the boundary
before the instruction with the access, with memory as it was. -/
theorem memRev_transparent (b : DecodedBlock) (index : Nat) (first second : DecodedInst)
    (f : MemRevFusion) (h : tryFuseMemRev b index = some (first, second, f)) (cpu : Cpu)
    (mem : Memory) (answer : Answer) :
    SameOutcome ((inOrder first second cpu).run (Memory.serve answer) mem)
      ((f.fused first second cpu).run (Memory.serve answer) mem) ∧
    ∀ request cpu' mem', (f.fused first second cpu).run (Memory.serve answer) mem = .refused request cpu' mem' →
      f.before first second cpu = .ret () cpu' ∧ mem' = mem := by
  have hf : memRevFusion first second = some f := by
    unfold tryFuseMemRev at h
    split at h
    · obtain ⟨f', hf', heq⟩ := Option.map_eq_some_iff.mp h
      cases heq
      exact hf'
    · cases h
  unfold memRevFusion at hf
  split at hf
  · next load hload =>
    obtain ⟨ha, hfuses⟩ := Option.filter_eq_some_iff.mp hload
    cases hf
    obtain ⟨hsame, hrefused⟩ := loadRev_sameOutcome ha hfuses cpu mem answer
    refine ⟨hsame, fun request cpu' mem' hrun => ?_⟩
    obtain ⟨rfl, rfl⟩ := hrefused request cpu' mem' hrun
    exact ⟨rfl, rfl⟩
  · obtain ⟨a, hstore, rfl⟩ := Option.map_eq_some_iff.mp hf
    obtain ⟨ha, hfuses⟩ := Option.filter_eq_some_iff.mp hstore
    exact revStore_sameOutcome ha hfuses cpu mem answer

/-- `rev w1, w2`, `str w1, [x1], #4`: the store's base is the reversed register. -/
def revStoreBlock : DecodedBlock where
  entry := 0x1000
  instructions :=
    [⟨0x1000, 0x5ac00841, some .REV, by rintro _ ⟨⟩; decide +kernel⟩,
      ⟨0x1004, 0xb8004421, some .STRx_LDRx_imm_1, by rintro _ ⟨⟩; decide +kernel⟩]
  contiguous := by
    intro i inst hi
    match i with
    | 0 | 1 => cases hi; rfl
    | i + 2 => cases hi

theorem memRev_transparent_revStoreBlock :
    ∃ first second f, tryFuseMemRev revStoreBlock 0 = some (first, second, f) ∧
      ∀ cpu mem answer, SameOutcome ((inOrder first second cpu).run (Memory.serve answer) mem)
        ((f.fused first second cpu).run (Memory.serve answer) mem) := by
  refine ⟨_, _, .revStore ⟨false, 2, 1, 1, 4, true, true, 31⟩, by rfl, fun cpu mem answer => ?_⟩
  exact (memRev_transparent revStoreBlock 0 _ _ _ rfl cpu mem answer).1

end PowerArm.A64
