import Mathlib

/-!
# Constant loads of the ppc64le emitter

The instruction words `LoadImm32`, `LoadImm64` and `LoadImm64Fixed` emit. The
fixed form is always five words, the variable form at most five.
-/

namespace PowerArm.Ppc

abbrev Word := BitVec 32

/-! ## Encodings -/

def emitD (op rt ra : BitVec 32) (d : BitVec 16) : Word := op <<< 26 ||| rt <<< 21 ||| ra <<< 16 ||| d.setWidth 32

def emitMD (rs ra sh mb xo rc : BitVec 32) : Word :=
  30#32 <<< 26 ||| rs <<< 21 ||| ra <<< 16 ||| (sh &&& 0x1F) <<< 11 |||
    (mb &&& 0x1F) <<< 6 ||| ((mb >>> 5) &&& 1) <<< 5 ||| xo <<< 2 ||| ((sh >>> 5) &&& 1) <<< 1 ||| rc

def addi (rt ra : BitVec 32) (si : BitVec 16) : Word := emitD 14 rt ra si
def addis (rt ra : BitVec 32) (si : BitVec 16) : Word := emitD 15 rt ra si
def ori (ra rs : BitVec 32) (ui : BitVec 16) : Word := emitD 24 rs ra ui
def oris (ra rs : BitVec 32) (ui : BitVec 16) : Word := emitD 25 rs ra ui
def rldicl (ra rs sh mb : BitVec 32) : Word := emitMD rs ra sh mb 0 0
def rldicr (ra rs sh me : BitVec 32) : Word := emitMD rs ra sh me 1 0
def rldic (ra rs sh mb : BitVec 32) : Word := emitMD rs ra sh mb 2 0

def li (rt : BitVec 32) (si : BitVec 16) : Word := addi rt 0 si
def lis (rt : BitVec 32) (si : BitVec 16) : Word := addis rt 0 si
def sldi (ra rs n : BitVec 32) : Word := rldicr ra rs n (63 - n)
def clrldi (ra rs n : BitVec 32) : Word := rldicl ra rs 0 n
def nop : Word := 0x60000000#32

/-! ## Loads -/

def loadImm32 (rt imm : BitVec 32) : List Word :=
  if -32768 ≤ imm.toInt ∧ imm.toInt < 32768 then
    [li rt (imm.setWidth 16)]
  else
    lis rt ((imm >>> 16).setWidth 16) :: if imm &&& 0xFFFF ≠ 0 then [ori rt rt (imm.setWidth 16)] else []

def loadHigh (rt hi : BitVec 32) : List Word :=
  if hi ≠ 0 then
    if hi ≤ 0x7FFF then
      [li rt (hi.setWidth 16)]
    else
      lis rt ((hi >>> 16).setWidth 16) :: if hi &&& 0xFFFF ≠ 0 then [ori rt rt (hi.setWidth 16)] else []
  else
    [li rt 0]

def loadGeneral (rt : BitVec 32) (imm : BitVec 64) : List Word :=
  let lo : BitVec 32 := imm.setWidth 32
  loadHigh rt ((imm >>> 32).setWidth 32) ++ [sldi rt rt 32] ++
    (if lo >>> 16 ≠ 0 then [oris rt rt ((lo >>> 16).setWidth 16)] else []) ++
    (if lo &&& 0xFFFF ≠ 0 then [ori rt rt (lo.setWidth 16)] else [])

/-- Constants wider than 32 bits. `disableShiftedImm32` is the `FEX_NOSHIFTIMM32`
switch. -/
def loadWide (disableShiftedImm32 : Bool) (rt : BitVec 32) (imm : BitVec 64) (tz : Nat)
    (v : BitVec 64) : List Word :=
  if -32768 ≤ v.toInt ∧ v.toInt ≤ 32767 ∧ v <<< tz = imm then
    [li rt (v.setWidth 16), sldi rt rt (BitVec.ofNat 32 tz)]
  else if imm.cpop.toNat + imm.clz.toNat + tz = 64 then
    -- a run of ones, bits `tz` to `63 - clz`
    [li rt (-1), rldic rt rt (BitVec.ofNat 32 tz) (BitVec.ofNat 32 imm.clz.toNat)]
  else if disableShiftedImm32 = false ∧ 0 < tz ∧ imm >>> tz ≤ 0x7FFFFFFF then
    loadImm32 rt ((imm >>> tz).setWidth 32) ++ [sldi rt rt (BitVec.ofNat 32 tz)]
  else
    loadGeneral rt imm

def loadImm64 (disableShiftedImm32 : Bool) (rt : BitVec 32) (imm : BitVec 64) : List Word :=
  if imm = 0 then
    [li rt 0]
  else if imm ≤ 0x7FFFFFFF ∨ 0xFFFFFFFF80000000 ≤ imm then
    loadImm32 rt (imm.setWidth 32)
  else if imm ≤ 0xFFFFFFFF then
    loadImm32 rt (imm.setWidth 32) ++ [clrldi rt rt 32]
  else
    loadWide disableShiftedImm32 rt imm imm.ctz.toNat (imm.sshiftRight imm.ctz.toNat)

def loadImm64Fixed (rt : BitVec 32) (imm : BitVec 64) : List Word :=
  let hi : BitVec 32 := (imm >>> 32).setWidth 32
  let lo : BitVec 32 := imm.setWidth 32
  [lis rt ((hi >>> 16).setWidth 16), ori rt rt (hi.setWidth 16), sldi rt rt 32,
    oris rt rt ((lo >>> 16).setWidth 16), ori rt rt (lo.setWidth 16)]

def loadConstantFixedBytes : Nat := 20

/-! ## Constants of one instruction -/

def isSImm16 (x : BitVec 64) : Bool := decide (-32768 ≤ x.toInt ∧ x.toInt ≤ 32767)
def isSImm32 (x : BitVec 64) : Bool := decide (-2147483648 ≤ x.toInt ∧ x.toInt ≤ 2147483647)
def isOneInsnConstant (x : BitVec 64) : Bool := isSImm16 x || (isSImm32 x && x &&& 0xFFFF == 0)

/-! ## Lengths -/

@[simp] theorem loadImm64Fixed_length (rt : BitVec 32) (imm : BitVec 64) : (loadImm64Fixed rt imm).length = 5 := rfl

theorem loadImm32_length (rt imm : BitVec 32) : 0 < (loadImm32 rt imm).length ∧ (loadImm32 rt imm).length ≤ 2 ∧
      ((loadImm32 rt imm).length = 1 ↔ (-32768 ≤ imm.toInt ∧ imm.toInt < 32768) ∨ imm &&& 0xFFFF = 0) := by
  unfold loadImm32
  split
  · next h => simp [h]
  next h =>
  split
  · next hlow => simpa [h] using hlow
  · next hlow => simpa [h] using hlow

theorem loadHigh_length (rt hi : BitVec 32) : 0 < (loadHigh rt hi).length ∧ (loadHigh rt hi).length ≤ 2 := by
  unfold loadHigh
  split
  · split
    · simp
    · split <;> simp
  · simp

theorem loadWide_length (d : Bool) (rt : BitVec 32) (imm : BitVec 64) (tz : Nat) (v : BitVec 64) :
    1 < (loadWide d rt imm tz v).length ∧ (loadWide d rt imm tz v).length ≤ 5 := by
  have h32 := loadImm32_length rt ((imm >>> tz).setWidth 32)
  have hhigh := loadHigh_length rt ((imm >>> 32).setWidth 32)
  unfold loadWide
  split
  · simp
  split
  · simp
  split
  · simp only [List.length_append, List.length_singleton]
    omega
  · unfold loadGeneral
    simp only [List.length_append]
    split <;> split <;> simp only [List.length_singleton, List.length_nil] <;> omega

theorem isSImm32_iff (x : BitVec 64) : isSImm32 x ↔ x ≤ 0x7FFFFFFF ∨ 0xFFFFFFFF80000000 ≤ x := by
  simp only [isSImm32, decide_eq_true_eq, BitVec.toInt_eq_toNat_cond]
  change _ ↔ x.toNat ≤ 2147483647 ∨ 18446744071562067968 ≤ x.toNat
  split <;> omega

theorem isSImm32_of_isOneInsnConstant (h : isOneInsnConstant x) : isSImm32 x := by
  simp only [isOneInsnConstant, isSImm16, isSImm32, Bool.or_eq_true, Bool.and_eq_true, decide_eq_true_eq] at h ⊢
  omega

theorem loadImm32_length_of_isSImm32 (rt : BitVec 32) (h : isSImm32 imm) :
    (loadImm32 rt (imm.setWidth 32)).length = 1 ↔ isOneInsnConstant imm := by
  have hint : (imm.setWidth 32).toInt = imm.toInt := by
    have hrange := (isSImm32_iff imm).mp h
    change imm.toNat ≤ 2147483647 ∨ 18446744071562067968 ≤ imm.toNat at hrange
    rw [BitVec.toInt_eq_toNat_cond, BitVec.toInt_eq_toNat_cond, BitVec.toNat_setWidth]
    split <;> split <;> omega
  have hlow : imm.setWidth 32 &&& 0xFFFF = 0 ↔ imm &&& 0xFFFF = 0 := by
    simp only [← BitVec.toNat_inj, BitVec.toNat_and]
    change imm.toNat % 2 ^ 32 &&& 2 ^ 16 - 1 = 0 ↔ imm.toNat &&& 2 ^ 16 - 1 = 0
    rw [Nat.and_two_pow_sub_one_eq_mod, Nat.and_two_pow_sub_one_eq_mod]
    omega
  rw [(loadImm32_length rt _).2.2, hlow]
  simp only [isOneInsnConstant, isSImm16, h, Bool.true_and, Bool.or_eq_true, decide_eq_true_eq, beq_iff_eq]
  exact or_congr_left (by omega)

theorem loadImm64_length (d : Bool) (rt : BitVec 32) (imm : BitVec 64) : (loadImm64 d rt imm).length ≤ 5 ∧
      ((loadImm64 d rt imm).length = 1 ↔ isOneInsnConstant imm) := by
  have h32 := loadImm32_length rt (imm.setWidth 32)
  have hwide := loadWide_length d rt imm imm.ctz.toNat (imm.sshiftRight imm.ctz.toNat)
  unfold loadImm64
  split
  · next h => simp [h, isOneInsnConstant, isSImm16]
  split
  · next h => exact ⟨by omega, loadImm32_length_of_isSImm32 rt ((isSImm32_iff imm).mpr h)⟩
  next h =>
  have hnot : ¬ isOneInsnConstant imm := fun hone => h ((isSImm32_iff imm).mp (isSImm32_of_isOneInsnConstant hone))
  split
  · rw [List.length_append, List.length_singleton]
    exact ⟨by omega, by omega, (absurd · hnot)⟩
  · exact ⟨hwide.2, by omega, (absurd · hnot)⟩

end PowerArm.Ppc
