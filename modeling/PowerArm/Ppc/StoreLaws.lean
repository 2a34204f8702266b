import PowerArm.Ppc.Store

/-!
# Emulated stores are the stores of the Power ISA

The fixed-point stores as the ISA describes them: a table of encodings, the
effective address of each form and the bytes written. Every word the decoder
accepts is one of them, and the emulation leaves the machine as the instruction
would (`isaStore_eq_emulateStore`).
-/

namespace PowerArm.Ppc

/-! ## The instructions -/

inductive StoreForm
  | d | ds | x
deriving DecidableEq, Repr

/-- An instruction of the chapter "Fixed-Point Store Instructions". -/
structure StoreInst where
  form : StoreForm
  op : Nat
  xo : Nat
  width : Nat
  update : Bool
deriving DecidableEq, Repr

def isaStores : List StoreInst :=
  [⟨.d, 38, 0, 1, false⟩, ⟨.d, 39, 0, 1, true⟩, ⟨.x, 31, 215, 1, false⟩, ⟨.x, 31, 247, 1, true⟩,
    ⟨.d, 44, 0, 2, false⟩, ⟨.d, 45, 0, 2, true⟩, ⟨.x, 31, 407, 2, false⟩, ⟨.x, 31, 439, 2, true⟩,
    ⟨.d, 36, 0, 4, false⟩, ⟨.d, 37, 0, 4, true⟩, ⟨.x, 31, 151, 4, false⟩, ⟨.x, 31, 183, 4, true⟩,
    ⟨.ds, 62, 0, 8, false⟩, ⟨.ds, 62, 1, 8, true⟩, ⟨.x, 31, 149, 8, false⟩, ⟨.x, 31, 181, 8, true⟩]

def fieldB (w : Word) : BitVec 5 := w.extractLsb' 11 5
def fieldDS (w : Word) : BitVec 14 := w.extractLsb' 2 14

def StoreInst.encodes (i : StoreInst) (w : Word) : Bool :=
  decide ((opcode w).toNat = i.op) && match i.form with
    | .d => true
    | .ds => decide ((w.extractLsb' 0 2).toNat = i.xo)
    | .x => decide ((w.extractLsb' 1 10).toNat = i.xo)

def StoreInst.offset (i : StoreInst) (g : Regs) (w : Word) : BitVec 64 :=
  match i.form with
  | .d => (imm16 w).signExtend 64
  | .ds => (fieldDS w ++ 0#2).signExtend 64
  | .x => g (fieldB w)

/-- The base is `(RA)`, or 0 for register 0 in a form without update. -/
def StoreInst.address (i : StoreInst) (g : Regs) (w : Word) : BitVec 64 :=
  (if !i.update && fieldA w == 0 then 0 else g (fieldA w)) + i.offset g w

/-- `MEM(EA, width) ← (RS)` in little-endian mode; other bytes stay. -/
def storeBytes (mem : Memory) (ea value : BitVec 64) (width : Nat) : Memory := fun a =>
  if (a - ea).toNat < width then byteOf value (a - ea).toNat else mem a

def StoreInst.exec (i : StoreInst) (w : Word) (m : Machine) : Machine where
  mem := storeBytes m.mem (i.address m.regs w) (m.regs (fieldT w)) i.width
  regs := if i.update then m.regs.set (fieldA w) (i.address m.regs w) else m.regs
  nip := m.nip + 4

def isaStore (w : Word) (m : Machine) : Option Machine :=
  (isaStores.find? (·.encodes w)).bind fun i =>
    if i.update ∧ fieldA w = 0 then none else some (i.exec w m)

/-! ## Fields -/

theorem toNat_opcode (w : Word) : (w >>> 26).toNat = (opcode w).toNat := by
  unfold opcode
  rw [BitVec.extractLsb'_toNat, BitVec.toNat_ushiftRight]
  omega

theorem register_field (w : Word) (s : Nat) : ((w >>> s) &&& 31).setWidth 5 = w.extractLsb' s 5 := by
  apply BitVec.eq_of_toNat_eq
  rw [BitVec.toNat_setWidth, BitVec.extractLsb'_toNat, Lib.toNat_and_mask (k := 5) _ (by decide),
    BitVec.toNat_ushiftRight, Nat.mod_mod]

theorem displacement_field (w : Word) : (w &&& 0xFFFF).setWidth 16 = imm16 w := by
  apply BitVec.eq_of_toNat_eq
  rw [imm16, BitVec.toNat_setWidth, BitVec.extractLsb'_toNat, Lib.toNat_and_mask (k := 16) _ (by decide),
    Nat.mod_mod, Nat.shiftRight_zero]

theorem toNat_ds_xo (w : Word) : (w &&& 3).toNat = (w.extractLsb' 0 2).toNat := by
  rw [Lib.toNat_and_mask (k := 2) _ (by decide), BitVec.extractLsb'_toNat, Nat.shiftRight_zero]

theorem toNat_x_xo (w : Word) : ((w >>> 1) &&& 0x3FF).toNat = (w.extractLsb' 1 10).toNat := by
  rw [Lib.toNat_and_mask (k := 10) _ (by decide), BitVec.extractLsb'_toNat, BitVec.toNat_ushiftRight]

theorem ds_field (w : Word) : (w &&& 0xFFFC).setWidth 16 = fieldDS w ++ 0#2 := by
  have hmask : ∀ i < 16, (0xFFFC : Word).getLsbD i = decide (2 ≤ i) := by decide
  apply BitVec.eq_of_getLsbD_eq
  intro i hi
  rw [BitVec.getLsbD_setWidth, BitVec.getLsbD_and, hmask i hi, BitVec.getLsbD_append, fieldDS]
  rcases Nat.lt_or_ge i 2 with hlow | hhigh
  · simp [hlow]
  · have hadd : 2 + (i - 2) = i := by omega
    simp [hi, hhigh, Nat.not_lt.mpr hhigh]
    omega

/-! ## The write -/

theorem pwrite_eq_storeBytes (hw : width ≤ 8) : pwrite mem ea value width = storeBytes mem ea value width := by
  induction width with
  | zero =>
    funext a
    simp [pwrite, storeBytes]
  | succ n ih =>
    have hprev := ih (Nat.le_of_succ_le hw)
    unfold pwrite at hprev ⊢
    rw [List.range_succ, List.foldl_append, hprev]
    funext a
    simp only [List.foldl_cons, List.foldl_nil, Function.update_apply, storeBytes]
    have hoff : a = ea + BitVec.ofNat 64 n ↔ (a - ea).toNat = n := by bv_omega
    by_cases ha : (a - ea).toNat = n
    · rw [if_pos (hoff.mpr ha), if_pos (by omega), ha]
    · rw [if_neg (fun h => ha (hoff.mp h))]
      by_cases hlt : (a - ea).toNat < n
      · rw [if_pos hlt, if_pos (by omega)]
      · rw [if_neg hlt, if_neg (by omega)]

/-! ## Decoding -/

def StoreInst.decoded (i : StoreInst) (g : Regs) (w : Word) : Option DecodedStore :=
  if i.update && fieldA w == 0 then none
  else some ⟨i.address g w, g (fieldT w), i.width, if i.update then some (fieldA w) else none⟩

theorem decodePPCStore_eq (g : Regs) (w : Word) :
    decodePPCStore g w = (isaStores.find? (·.encodes w)).bind fun i => i.decoded g w := by
  unfold decodePPCStore
  simp only [register_field, displacement_field, ds_field, toNat_opcode, toNat_ds_xo, toNat_x_xo]
  simp only [isaStores, StoreInst.encodes, List.find?]
  generalize (opcode w).toNat = op
  generalize (w.extractLsb' 0 2).toNat = dsXo
  generalize (w.extractLsb' 1 10).toNat = xXo
  -- one case per primary opcode, and per extended opcode of the DS and X forms
  split
  case h_7 =>
    split
    all_goals simp_all [StoreInst.decoded, StoreInst.address, StoreInst.offset, fieldA, fieldT]
  case h_8 =>
    split
    all_goals simp_all [StoreInst.decoded, StoreInst.address, StoreInst.offset, fieldA, fieldB, fieldT]
  all_goals simp_all [StoreInst.decoded, StoreInst.address, StoreInst.offset, fieldA, fieldT]

theorem width_le (hi : i ∈ isaStores) : i.width ≤ 8 := by
  revert i
  decide

theorem StoreInst.exec_of_decoded (hi : i ∈ isaStores)
    (hd : i.decoded m.regs w = some d) : i.exec w m = emulateStore d m := by
  unfold decoded at hd
  split at hd
  · cases hd
  · obtain rfl := Option.some.inj hd
    unfold exec emulateStore
    rw [pwrite_eq_storeBytes (width_le hi)]
    cases i.update <;> rfl

/-- Every word is decoded and emulated exactly if it is a store of the table in a
valid form, and then leaves memory, registers and the next instruction as the ISA
says. -/
theorem isaStore_eq_emulateStore (w : Word) (m : Machine) :
    isaStore w m = (decodePPCStore m.regs w).map fun d => emulateStore d m := by
  rw [decodePPCStore_eq, isaStore]
  cases hfind : isaStores.find? (·.encodes w) with
  | none => rfl
  | some i =>
    have hi := List.mem_of_find?_eq_some hfind
    simp only [Option.bind_some]
    cases hd : i.decoded m.regs w with
    | none =>
      have hinvalid : i.update = true ∧ fieldA w = 0 := by simpa [StoreInst.decoded] using hd
      rw [if_pos hinvalid]
      rfl
    | some d =>
      have hvalid : ¬(i.update = true ∧ fieldA w = 0) := by
        rintro ⟨hu, ha⟩
        simp [StoreInst.decoded, hu, ha] at hd
      rw [if_neg hvalid, i.exec_of_decoded hi hd]
      rfl

end PowerArm.Ppc
