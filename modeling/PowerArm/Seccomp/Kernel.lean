import PowerArm.Seccomp.BpfLaws

/-!
# Acceptance by the Linux kernel

What `ValidateProgram` is written to mirror: the opcode whitelist of
`seccomp_check_filter`, the checks of `bpf_check_classic` and the forward
analysis of scratch words it ends with. Everything the kernel accepts is accepted
here (`validateProgram_of_kernelAccepts`); the two agree on the programs of
`validateProgram_iff_kernelAccepts` only.
-/

namespace PowerArm.Seccomp

/-! ## seccomp_check_filter and bpf_check_classic -/

def kernelOpcodes : List (BitVec 16) :=
  [0x20, 0x80, 0x81,                              -- LD ABS, LD LEN, LDX LEN
    0x00, 0x01, 0x60, 0x61, 0x02, 0x03,           -- LD/LDX IMM, LD/LDX MEM, ST, STX
    0x04, 0x0c, 0x14, 0x1c, 0x24, 0x2c,           -- ADD, SUB, MUL by K, X
    0x34, 0x3c, 0x54, 0x5c, 0x44, 0x4c,           -- DIV, AND, OR by K, X
    0xa4, 0xac, 0x64, 0x6c, 0x74, 0x7c, 0x84,     -- XOR, LSH, RSH by K, X, NEG
    0x05, 0x15, 0x1d, 0x35, 0x3d, 0x25, 0x2d, 0x45, 0x4d, -- JA, JEQ, JGE, JGT, JSET by K, X
    0x06, 0x16, 0x07, 0x87]                       -- RET K, RET A, TAX, TXA

def condJumpOpcodes : List (BitVec 16) := [0x15, 0x1d, 0x35, 0x3d, 0x25, 0x2d, 0x45, 0x4d]

def constDivByZero (inst : SockFilter) : Bool := inst.code == 0x34 && inst.k == 0

def constShiftTooFar (inst : SockFilter) : Bool :=
  (inst.code == 0x64 || inst.code == 0x74) && decide (32 ≤ inst.k.toNat)

/-- The kernel's checks of instruction `pc` of `flen`, both stages. -/
def kernelCheck (flen pc : Nat) (inst : SockFilter) : Bool :=
  kernelOpcodes.contains inst.code && !constDivByZero inst && !constShiftTooFar inst &&
    if inst.code = 0x60 ∨ inst.code = 0x61 ∨ inst.code = 0x02 ∨ inst.code = 0x03 then
      inst.k.toNat < memWords
    else if inst.code = 0x05 then inst.k.toNat < flen - pc - 1
    else if inst.code ∈ condJumpOpcodes then
      pc + inst.jt.toNat + 1 < flen && pc + inst.jf.toNat + 1 < flen
    else if inst.code = 0x20 then inst.k.toNat < seccompDataSize && inst.k.toNat % 4 == 0
    else true

/-! ## check_load_and_stores -/

/-- One bit per scratch word: those stored on every path to the next instruction,
and to each later one as far as jumps have told. -/
structure Scratch where
  memvalid : BitVec 16 := 0
  masks : Nat → BitVec 16 := fun _ => 0xffff

def Scratch.jump (s : Scratch) (target : Nat) : Scratch :=
  { s with masks := Function.update s.masks target (s.masks target &&& s.memvalid) }

/-- One round of `check_load_and_stores`; `none` for a load of a word not stored. -/
def scratchInst (s : Scratch) (inst : SockFilter) (pc : Nat) : Option Scratch :=
  let s := { s with memvalid := s.memvalid &&& s.masks pc }
  if inst.code = 0x02 ∨ inst.code = 0x03 then
    some { s with memvalid := s.memvalid ||| (1 <<< inst.k.toNat) }
  else if inst.code = 0x60 ∨ inst.code = 0x61 then
    if s.memvalid.getLsbD inst.k.toNat then some s else none
  else if inst.code = 0x05 then
    some { s.jump (pc + 1 + inst.k.toNat) with memvalid := 0xffff }
  else if inst.code ∈ condJumpOpcodes then
    some { (s.jump (pc + 1 + inst.jt.toNat)).jump (pc + 1 + inst.jf.toNat) with memvalid := 0xffff }
  else some s

def checkLoadAndStores (prog : List SockFilter) : Bool :=
  (prog.zipIdx.foldlM (fun s (inst, pc) => scratchInst s inst pc) {}).isSome

/-- `bpf_check_classic` and `seccomp_check_filter` both accept the program. -/
def kernelAccepts (prog : List SockFilter) : Bool :=
  prog.zipIdx.all (fun (inst, pc) => kernelCheck prog.length pc inst) &&
    prog.getLast?.any (fun inst => inst.code == 0x06 || inst.code == 0x16) && checkLoadAndStores prog

/-! ## One instruction -/

def KernelEncoding (inst : SockFilter) : Prop :=
  inst.code ∈ kernelOpcodes ∧ constDivByZero inst = false ∧ constShiftTooFar inst = false

theorem checkInst_of_opcode (h : inst.code ∈ kernelOpcodes) : checkInst n i inst =
      if inst.code = 0x60 ∨ inst.code = 0x61 ∨ inst.code = 0x02 ∨ inst.code = 0x03 then
        decide (inst.k.toNat < memWords)
      else if inst.code = 0x05 then decide (inst.k.toNat < n - i - 1)
      else if inst.code ∈ condJumpOpcodes then
        decide (i + inst.jt.toNat + 1 < n) && decide (i + inst.jf.toNat + 1 < n)
      else if inst.code = 0x20 then
        decide (inst.k.toNat < seccompDataSize) && inst.k.toNat % 4 == 0
      else true := by
  obtain ⟨code, jt, jf, k⟩ := inst
  have hja : decide (i + k.toNat + 1 < n) = decide (k.toNat < n - i - 1) := by
    rw [decide_eq_decide]
    omega
  -- One goal per opcode: its fields are then literals, and so is the branch taken.
  revert code
  simp only [kernelOpcodes, List.forall_mem_cons]
  all_goals simp [checkInst, SockFilter.cls, SockFilter.mode, SockFilter.aluOp, SockFilter.jmpOp,
      SockFilter.srcX, SockFilter.rval, SockFilter.miscOp, SockFilter.isWord, condJumpOpcodes, hja,
      Bool.and_comm]

theorem kernelCheck_iff : kernelCheck n i inst ↔ KernelEncoding inst ∧ checkInst n i inst := by
  unfold kernelCheck KernelEncoding
  constructor
  · intro h
    simp only [Bool.and_eq_true, List.contains_iff_mem, Bool.not_eq_true'] at h
    obtain ⟨⟨⟨hop, hdiv⟩, hshift⟩, hrest⟩ := h
    exact ⟨⟨hop, hdiv, hshift⟩, (checkInst_of_opcode hop).trans hrest⟩
  · rintro ⟨⟨hop, hdiv, hshift⟩, hcheck⟩
    rw [checkInst_of_opcode hop] at hcheck
    simp only [Bool.and_eq_true, List.contains_iff_mem, Bool.not_eq_true']
    exact ⟨⟨⟨hop, hdiv⟩, hshift⟩, hcheck⟩

theorem cls_ret_iff {inst : SockFilter} (h : inst.code ∈ kernelOpcodes) :
    inst.cls = .ret ↔ inst.code = 0x06 ∨ inst.code = 0x16 := by
  obtain ⟨code, jt, jf, k⟩ := inst
  revert code
  simp only [kernelOpcodes, List.forall_mem_cons]
  all_goals simp [SockFilter.cls]

/-! ## Programs -/

structure FieldsPass (prog : List SockFilter) : Prop where
  checked : ∀ i inst, prog[i]? = some inst → checkInst prog.length i inst = true
  last : ∃ inst, prog.getLast? = some inst ∧ inst.cls = .ret

/-- The program is free of what only the kernel refuses: opcodes outside its list,
constant divisions by zero, constant shifts past the word, and scratch words loaded
before a store. -/
structure KernelOnly (prog : List SockFilter) : Prop where
  encoding : ∀ inst ∈ prog, KernelEncoding inst
  scratch : checkLoadAndStores prog = true

theorem all_zipIdx_iff {p : Nat → SockFilter → Bool} {prog : List SockFilter} :
    prog.zipIdx.all (fun (inst, i) => p i inst) ↔ ∀ i inst, prog[i]? = some inst → p i inst := by
  rw [List.all_eq_true]
  constructor
  · intro h i inst hi
    exact h (inst, i) (List.mem_zipIdx_iff_getElem?.mpr hi)
  · rintro h ⟨inst, i⟩ hmem
    exact h i inst (List.mem_zipIdx_iff_getElem?.mp hmem)

theorem validateProgram_iff : validateProgram prog ↔ FieldsPass prog := by
  unfold validateProgram
  rw [Bool.and_eq_true, all_zipIdx_iff, Option.any_eq_true]
  simp only [beq_iff_eq]
  exact ⟨fun ⟨hchecked, hlast⟩ => ⟨hchecked, hlast⟩, fun h => ⟨h.checked, h.last⟩⟩

theorem kernelAccepts_iff : kernelAccepts prog ↔ FieldsPass prog ∧ KernelOnly prog := by
  unfold kernelAccepts
  rw [Bool.and_eq_true, Bool.and_eq_true, all_zipIdx_iff, Option.any_eq_true]
  simp only [kernelCheck_iff, Bool.or_eq_true, beq_iff_eq]
  constructor
  · rintro ⟨⟨hall, inst, hlast, hret⟩, hscratch⟩
    have henc : ∀ inst ∈ prog, KernelEncoding inst := by
      intro inst hmem
      obtain ⟨i, hi⟩ := List.mem_iff_getElem?.mp hmem
      exact (hall i inst hi).1
    have hop := (henc inst (List.mem_of_getLast? hlast)).1
    exact ⟨⟨fun i inst hi => (hall i inst hi).2, inst, hlast, (cls_ret_iff hop).mpr hret⟩, ⟨henc, hscratch⟩⟩
  · rintro ⟨⟨hchecked, inst, hlast, hret⟩, ⟨henc, hscratch⟩⟩
    have hop := (henc inst (List.mem_of_getLast? hlast)).1
    refine ⟨⟨?_, inst, hlast, (cls_ret_iff hop).mp hret⟩, hscratch⟩
    intro i inst hi
    exact ⟨henc inst (List.mem_of_getElem? hi), hchecked i inst hi⟩

theorem validateProgram_of_kernelAccepts (h : kernelAccepts prog) : validateProgram prog :=
  validateProgram_iff.mpr (kernelAccepts_iff.mp h).1

/-- The two acceptance checks agree exactly on the programs whose fields pass only
when nothing in them is refused by the kernel alone. -/
theorem validateProgram_iff_kernelAccepts (prog : List SockFilter) :
    (validateProgram prog = true ↔ kernelAccepts prog = true) ↔ (FieldsPass prog → KernelOnly prog) := by
  rw [validateProgram_iff, kernelAccepts_iff]
  constructor
  · intro h hfields
    exact (h.mp hfields).2
  · intro h
    exact ⟨fun hfields => ⟨hfields, h hfields⟩, fun hboth => hboth.1⟩

/-- Filters the kernel refuses: one ending in `BPF_RET | BPF_X`, one with `BPF_MOD`,
one with `BPF_LDX | BPF_ABS`, one with a bit above the opcode byte, a constant
division by zero, a constant shift by 32 and a load of an unstored scratch word. -/
def kernelRefused : List (List SockFilter) :=
  [[⟨0x0e, 0, 0, 0⟩], [⟨0x94, 0, 0, 3⟩, ⟨0x16, 0, 0, 0⟩],
    [⟨0x21, 0, 0, 0⟩, ⟨0x06, 0, 0, 0⟩],
    [⟨0x106, 0, 0, 0⟩],
    [⟨0x34, 0, 0, 0⟩, ⟨0x16, 0, 0, 0⟩],
    [⟨0x64, 0, 0, 32⟩, ⟨0x16, 0, 0, 0⟩],
    [⟨0x60, 0, 0, 0⟩, ⟨0x16, 0, 0, 0⟩]]

theorem kernelRefused_validated : kernelRefused.map (fun prog => (validateProgram prog, kernelAccepts prog)) =
      List.replicate 7 (true, false) := by
  decide

end PowerArm.Seccomp
