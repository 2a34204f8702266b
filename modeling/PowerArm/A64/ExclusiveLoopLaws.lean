import PowerArm.A64.HandlerLaws
import PowerArm.A64.MachineLaws

/-!
# Fused exclusive loops against the guest's

Both runs of a fused window are described by what one pass does to the register file
(`LoopBlock.passRegs`). The guest has written its status register before every pass but
the first and the fused code has not, so the two agree on every state exactly when a
second pass does not depend on that register (`exclusiveLoop_refines_iff`). Other threads
may change memory from pass to pass.
-/

namespace PowerArm.A64

open Lib (Act Resume Outcome)
open Function (update)

/-! ## The machine the runs share -/

abbrev Bytes := Addr → BitVec 8

/-- Memory, the bytes other threads have left in it at each load to come, and whether the
reservation holds at each store-conditional to come. -/
structure Host where
  mem : Memory
  loads : List Bytes
  reservations : List Bool

def noFlags : Flags := ⟨false, false, false, false⟩

def Memory.withBytes (m : Memory) (bytes : Bytes) : Memory := { m with byte := bytes }

def Host.reload (h : Host) (access : Access) : Option (Reply × Host) :=
  match h.loads with
  | [] => none
  | bytes :: rest =>
    ((h.mem.withBytes bytes).serve ⟨false, noFlags⟩ access).map fun r => (r.1, ⟨r.2, rest, h.reservations⟩)

def Host.serve (h : Host) : Access → Option (Reply × Host)
  | .storeConditional size value addr =>
    match h.reservations with
    | [] => none
    | held :: rest =>
      (h.mem.serve ⟨held, noFlags⟩ (.storeConditional size value addr)).map fun r => (r.1, ⟨r.2, h.loads, rest⟩)
  | .load size addr => h.reload (.load size addr)
  | .loadReserved size addr => h.reload (.loadReserved size addr)
  | access => (h.mem.serve ⟨false, noFlags⟩ access).map fun r => (r.1, { h with mem := r.2 })

def Ends (m : Emit α) (cpu : Cpu) (h : Host) (a : α) (cpu' : Cpu) (h' : Host) : Prop :=
  (m cpu).run Host.serve h = .done a cpu' h'

theorem ends_bind : Ends (m >>= f) cpu h b cpu' h' ↔
      ∃ a cpu₁ h₁, Ends m cpu h a cpu₁ h₁ ∧ Ends (f a) cpu₁ h₁ b cpu' h' :=
  Resume.run_bind_eq_done

@[simp] theorem ends_pure : Ends (pure a) cpu h b cpu' h' ↔ b = a ∧ cpu' = cpu ∧ h' = h := Resume.run_ret_eq_done

@[simp] theorem ends_gets_bind : Ends (Act.gets f >>= k) cpu h b cpu' h' ↔ Ends (k (f cpu)) cpu h b cpu' h' := Iff.rfl

@[simp] theorem ends_modify : Ends (Act.modify f) cpu h u cpu' h' ↔ cpu' = f cpu ∧ h' = h := by
  refine Resume.run_ret_eq_done.trans ?_
  simp

@[simp] theorem ends_modify_bind :
    Ends (Act.modify f >>= k) cpu h b cpu' h' ↔ Ends (k ()) (f cpu) h b cpu' h' := Iff.rfl

theorem ends_storeReg_bind : Ends (storeReg rd is64 v >>= k) cpu h b cpu' h' ↔
      Ends (k ()) (cpu.setGpr rd (regValue rd is64 v cpu.gpr)) h b cpu' h' := by
  unfold Ends
  rw [Act.bind_apply, storeReg_eq]
  rfl

theorem ends_request_bind : Ends (Act.request access >>= k) cpu h b cpu' h' ↔
      ∃ reply h₁, h.serve access = some (reply, h₁) ∧ Ends (k reply) cpu h₁ b cpu' h' :=
  Resume.run_ask_eq_done

theorem ends_loadMem_bind : Ends (loadMem size addr >>= k) cpu h b cpu' h' ↔
      ∃ bytes rest, h.loads = bytes :: rest ∧ h.mem.canRead addr size.bytes ∧
        Ends (k ((h.mem.withBytes bytes).read size addr)) cpu ⟨h.mem.withBytes bytes, rest, h.reservations⟩ b cpu' h' := by
  refine ends_request_bind.trans ?_
  obtain ⟨mem, loads, reservations⟩ := h
  cases loads with
  | nil => simp [Host.serve, Host.reload]
  | cons bytes rest =>
    have hread : (mem.withBytes bytes).canRead addr size.bytes = mem.canRead addr size.bytes := rfl
    simp only [Host.serve, Host.reload, Memory.serve, hread]
    cases mem.canRead addr size.bytes with
    | false => simp
    | true => simp

theorem ends_loadReserved_bind : Ends (loadReserved size addr >>= k) cpu h b cpu' h' ↔
      Ends (loadMem size addr >>= k) cpu h b cpu' h' := by
  have hserve : h.serve (.loadReserved size addr) = h.serve (.load size addr) := rfl
  refine ends_request_bind.trans ?_
  rw [hserve]
  exact ends_request_bind.symm

theorem ends_storeMem_bind : Ends (storeMem size value addr >>= k) cpu h b cpu' h' ↔
      h.mem.canWrite addr size.bytes ∧ Ends (k ()) cpu { h with mem := h.mem.write size addr value } b cpu' h' := by
  refine ends_request_bind.trans ?_
  simp only [Host.serve, Memory.serve]
  cases h.mem.canWrite addr size.bytes with
  | false => simp
  | true => simp

theorem ends_storeConditional : Ends (storeConditional size value addr) cpu h stored cpu' h' ↔
      h.mem.canWrite addr size.bytes ∧ cpu' = cpu ∧ ∃ rest, h.reservations = stored :: rest ∧
          h' = ⟨if stored then h.mem.write size addr value else h.mem, h.loads, rest⟩ := by
  refine ends_request_bind.trans ?_
  obtain ⟨mem, loads, reservations⟩ := h
  cases reservations with
  | nil => simp [Host.serve]
  | cons held rest =>
    simp only [Host.serve, Memory.serve]
    cases mem.canWrite addr size.bytes with
    | false => simp
    | true =>
      constructor
      · rintro ⟨_, _, ⟨⟩, hend⟩
        obtain ⟨rfl, rfl, rfl⟩ := ends_pure.mp hend
        exact ⟨rfl, rfl, rest, rfl, rfl⟩
      · rintro ⟨_, rfl, _, ⟨⟩, rfl⟩
        exact ⟨_, _, rfl, ends_pure.mpr ⟨rfl, rfl, rfl⟩⟩

/-! ## Bodies as functions on the register file -/

/-- The registers after a body instruction, `none` when it is rejected. -/
def DecodedInst.regs (inst : DecodedInst) (g : Reg → Value) : Option (Reg → Value) :=
  match inst.matcher with
  | none => none
  | some row =>
    match row.handler inst.pc inst.word ⟨g, noFlags, {}, 0⟩ with
    | .ret true cpu => some cpu.gpr
    | _ => none

def bodyRegs : List DecodedInst → (Reg → Value) → Option (Reg → Value)
  | [], g => some g
  | inst :: rest, g => inst.regs g >>= bodyRegs rest

theorem DecodedInst.exists_row {inst : DecodedInst} {p : Row → Bool} (h : inst.isRow p) :
    ∃ row, inst.matcher = some row ∧ p row := by
  unfold DecodedInst.isRow at h
  cases hm : inst.matcher with
  | none => simp [hm] at h
  | some row => exact ⟨row, rfl, by simpa [hm] using h⟩

theorem translateInstruction_eq (hm : inst.matcher = some row) :
    translateInstruction inst = row.handler inst.pc inst.word >>= fun handled =>
      if !handled then Act.request .signal >>= fun _ => pure () else pure () := by
  unfold translateInstruction
  rw [hm]

theorem DecodedInst.regs_cases {inst : DecodedInst} (h : inst.isRow exclusiveBodyRow) : (∀ g, inst.regs g = none) ∧
      (∀ cpu, ∃ next, translateInstruction inst cpu = .ask cpu .signal next) ∨
    ∃ f : (Reg → Value) → Value, (∀ g, inst.regs g = some (update g (reg inst.word 0) (f g))) ∧
      (∀ g g', (∀ r ∈ inst.sources, g r = g' r) → (reg inst.word 0 = 31#5 → g 31#5 = g' 31#5) → f g = f g') ∧
      ∀ cpu, translateInstruction inst cpu = .ret () (cpu.setGpr (reg inst.word 0) (f cpu.gpr)) := by
  obtain ⟨row, hm, hrow⟩ := DecodedInst.exists_row h
  rw [translateInstruction_eq hm]
  unfold DecodedInst.regs
  rw [hm]
  obtain hrej | ⟨f, hf, hsrc⟩ := exclusiveBody_regOnly inst hm hrow
  · refine Or.inl ⟨fun g => ?_, fun cpu => ⟨fun _ => .ret () cpu, ?_⟩⟩
    · simp only [hrej]
    · simp only [Act.bind_apply, hrej]
      rfl
  · refine Or.inr ⟨f, fun g => ?_, hsrc, fun cpu => ?_⟩
    · simp only [hf]
      rfl
    · simp only [Act.bind_apply, hf]
      rfl

theorem ends_translateInstruction_bind (hrow : inst.isRow exclusiveBodyRow) :
    Ends (translateInstruction inst >>= k) cpu h b cpu' h' ↔
      ∃ g, inst.regs cpu.gpr = some g ∧ Ends (k ()) { cpu with gpr := g } h b cpu' h' := by
  unfold Ends
  obtain ⟨hnone, hask⟩ | ⟨f, hregs, -, hret⟩ := DecodedInst.regs_cases hrow
  · obtain ⟨next, hask⟩ := hask cpu
    simp [hask, hnone, Resume.run_ask_eq_done, Host.serve, Memory.serve]
  · simp [hret, hregs, Cpu.setGpr]

def bodyPC : List DecodedInst → Addr → Addr
  | [], pc => pc
  | inst :: rest, _ => bodyPC rest inst.pc

section
variable {body : List DecodedInst} (hrows : ∀ inst ∈ body, inst.isRow exclusiveBodyRow)
include hrows

theorem ends_translateBody_bind :
    Ends (translateBody body >>= k) cpu h b cpu' h' ↔ ∃ g, bodyRegs body cpu.gpr = some g ∧
        Ends (k ()) { cpu with gpr := g, pc := bodyPC body cpu.pc } h b cpu' h' := by
  induction body generalizing cpu with
  | nil =>
    simp only [bodyRegs, Option.some_inj, exists_eq_left']
    rfl
  | cons inst rest ih =>
    obtain ⟨hinst, hrows⟩ := List.forall_mem_cons.mp hrows
    simp only [translateBody, Act.bind_assoc, guestOpcode, ends_modify_bind,
      ends_translateInstruction_bind hinst, ih hrows, bodyRegs]
    constructor
    · rintro ⟨g, hg, g', hg', hend⟩
      exact ⟨g', by simp [hg, hg'], hend⟩
    · rintro ⟨g', hg', hend⟩
      obtain ⟨g, hg, hg'⟩ := Option.bind_eq_some_iff.mp hg'
      exact ⟨g, hg, g', hg', hend⟩

theorem bodyRegs_frame (hr : ∀ inst ∈ body, reg inst.word 0 ≠ r) (h : bodyRegs body g = some g') : g' r = g r := by
  induction body generalizing g with
  | nil => simp_all [bodyRegs]
  | cons inst rest ih =>
    obtain ⟨hinst, hrows⟩ := List.forall_mem_cons.mp hrows
    obtain ⟨hne, hr⟩ := List.forall_mem_cons.mp hr
    obtain ⟨g₁, hg₁, hrest⟩ := Option.bind_eq_some_iff.mp h
    rw [ih hrows hr hrest]
    obtain ⟨hnone, -⟩ | ⟨f, hregs, -⟩ := DecodedInst.regs_cases hinst
    · simp [hnone] at hg₁
    · rw [hregs, Option.some_inj] at hg₁
      rw [← hg₁, Function.update_of_ne hne.symm]

theorem isSome_bodyRegs (h : bodyRegs body g = some g') (k : Reg → Value) : ∃ k', bodyRegs body k = some k' := by
  induction body generalizing g k with
  | nil => exact ⟨k, rfl⟩
  | cons inst rest ih =>
    obtain ⟨hinst, hrows⟩ := List.forall_mem_cons.mp hrows
    obtain ⟨g₁, hg₁, hrest⟩ := Option.bind_eq_some_iff.mp h
    obtain ⟨hnone, -⟩ | ⟨f, hregs, -⟩ := DecodedInst.regs_cases hinst
    · simp [hnone] at hg₁
    · obtain ⟨k', hk'⟩ := ih hrows hrest (update k (reg inst.word 0) (f k))
      exact ⟨k', by simp [bodyRegs, hregs, hk']⟩

end

/-! ## One pass of the fused region -/

namespace LoopBlock

variable {l : LoopBlock}

def passRegs (l : LoopBlock) (v : Value) (g : Reg → Value) : Option (Reg → Value) :=
  bodyRegs l.body (update g l.rtLd (regValue l.rtLd (l.size == 3) v g))

theorem passRegs_base (hl : l.Fuses) (h : l.passRegs v g = some g') : g' l.rn = g l.rn := by
  rw [bodyRegs_frame hl.body_rows hl.body_base h, Function.update_of_ne hl.loaded_base.symm]

theorem ends_pass (hl : l.Fuses) : Ends (l.pass address) cpu ⟨mem, bytes :: loads, reservations⟩ stored cpu' h' ↔
      mem.canRead address l.memSize.bytes ∧
      ∃ g, l.passRegs ((mem.withBytes bytes).read l.memSize address) cpu.gpr = some g ∧
        mem.canWrite address l.memSize.bytes ∧ cpu' = { cpu with gpr := g, pc := l.sto.pc } ∧
        ∃ rest, reservations = stored :: rest ∧
          h' = ⟨if stored then (mem.withBytes bytes).write l.memSize address (readX g l.rtSt) else mem.withBytes bytes,
            loads, rest⟩ := by
  simp only [pass, guestOpcode, ends_modify_bind, ends_loadReserved_bind, ends_loadMem_bind, ends_storeReg_bind,
    ends_translateBody_bind hl.body_rows, loadX, ends_gets_bind, ends_storeConditional]
  constructor
  · rintro ⟨_, _, ⟨⟩, hpass⟩
    exact hpass
  · intro hpass
    exact ⟨_, _, rfl, hpass⟩

/-- The registers at the store that is performed, with the values loaded at the passes whose
store was not and the one loaded last. The fused code never writes the status register. -/
def fusedRegs (l : LoopBlock) (last : Value) : List Value → (Reg → Value) → Option (Reg → Value)
  | [], g => l.passRegs last g
  | v :: failed, g => l.passRegs v g >>= l.fusedRegs last failed

/-- The reservations of a loop that loses `k` of them and then stores. -/
def lost (k : Nat) : List Bool := List.replicate k false ++ [true]

/-- What a pass loads where other threads have left these bytes. -/
def value (l : LoopBlock) (mem : Memory) (address : Addr) (bytes : Bytes) : Value :=
  (mem.withBytes bytes).read l.memSize address

theorem ends_passes (hl : l.Fuses) :
    Ends (l.passes address (failed.length + 1)) cpu ⟨mem, failed ++ [last], lost failed.length⟩ u cpu' h' ↔
      mem.canRead address l.memSize.bytes ∧ mem.canWrite address l.memSize.bytes ∧
      ∃ g, l.fusedRegs (l.value mem address last) (failed.map (l.value mem address)) cpu.gpr = some g ∧
        cpu' = { cpu with gpr := g, pc := l.sto.pc } ∧
        h' = ⟨(mem.withBytes last).write l.memSize address (readX g l.rtSt), [], []⟩ := by
  induction failed generalizing cpu mem with
  | nil =>
    simp only [passes, ends_bind, List.nil_append, ends_pass hl, lost]
    constructor
    · rintro ⟨_, _, _, ⟨hread, g, hg, hwrite, rfl, rest, hres, rfl⟩, hend⟩
      obtain ⟨rfl, rfl⟩ : _ ∧ rest = [] := by simpa using hres
      obtain ⟨-, rfl, rfl⟩ := ends_pure.mp hend
      exact ⟨hread, hwrite, g, hg, rfl, rfl⟩
    · rintro ⟨hread, hwrite, g, hg, rfl, rfl⟩
      refine ⟨true, _, _, ⟨hread, g, hg, hwrite, rfl, [], rfl, rfl⟩, ?_⟩
      exact ends_pure.mpr ⟨rfl, rfl, rfl⟩
  | cons bytes failed ih =>
    rw [List.length_cons, passes, ends_bind, List.cons_append]
    simp only [ends_pass hl]
    constructor
    · rintro ⟨_, _, _, ⟨hread, g, hg, hwrite, rfl, rest, hres, rfl⟩, hend⟩
      obtain ⟨rfl, rfl⟩ : _ = false ∧ rest = lost failed.length := by
        simpa [lost, List.replicate_succ, eq_comm] using hres
      obtain ⟨-, -, g', hg', rfl, rfl⟩ := ih.mp hend
      exact ⟨hread, hwrite, g', by rw [List.map_cons, fusedRegs, value, hg]; exact hg', rfl, rfl⟩
    · rintro ⟨hread, hwrite, g', hg', rfl, rfl⟩
      obtain ⟨g, hg, hg'⟩ := Option.bind_eq_some_iff.mp hg'
      refine ⟨false, _, _, ⟨hread, g, hg, hwrite, rfl, lost failed.length, rfl, rfl⟩, ?_⟩
      exact ih.mpr ⟨hread, hwrite, g', hg', rfl, rfl⟩

end LoopBlock

theorem ends_storeW_bind (hr : r ≠ 31) : Ends (storeW r v >>= k) cpu h b cpu' h' ↔
      Ends (k ()) (cpu.setGpr r (zeroExtend32 v)) h b cpu' h' := by
  unfold storeW storeX Cpu.writeX
  simp only [if_neg hr]
  rfl

namespace LoopBlock

variable {l : LoopBlock}

section
variable (hl : l.Fuses)
include hl

theorem ends_fused :
    Ends (l.fused (failed.length + 1)) cpu ⟨mem, failed ++ [last], lost failed.length⟩ u cpu' h' ↔
      mem.canRead (cpu.gpr l.rn) l.memSize.bytes ∧ mem.canWrite (cpu.gpr l.rn) l.memSize.bytes ∧
      ∃ g, l.fusedRegs (l.value mem (cpu.gpr l.rn) last) (failed.map (l.value mem (cpu.gpr l.rn))) cpu.gpr = some g ∧
        cpu' = ⟨update g l.rs 0, cpu.nzcv, { cpu.excl with valid := 0 }, l.br.pc + 4⟩ ∧
        h' = ⟨(mem.withBytes last).write l.memSize (cpu.gpr l.rn) (readX g l.rtSt), [], []⟩ := by
  simp only [fused, loadXSP, ends_gets_bind, storeExcl, ends_modify_bind]
  rw [ends_bind]
  simp only [ends_passes hl, guestOpcode, ends_modify_bind, ends_storeW_bind hl.status_kept, exitToPC, ends_modify]
  constructor
  · rintro ⟨_, _, _, ⟨hread, hwrite, g, hg, rfl, rfl⟩, rfl, rfl⟩
    exact ⟨hread, hwrite, g, hg, rfl, rfl⟩
  · rintro ⟨hread, hwrite, g, hg, rfl, rfl⟩
    exact ⟨(), _, _, ⟨hread, hwrite, g, hg, rfl, rfl⟩, rfl, rfl⟩

/-! ## One attempt of the guest -/

theorem ends_ld_bind {k : Unit → Emit β} :
    Ends (translateInstruction l.ld >>= k) cpu ⟨mem, bytes :: loads, reservations⟩ b cpu' h' ↔
      mem.canRead (cpu.gpr l.rn) l.memSize.bytes ∧
      Ends (k ()) { cpu with
          gpr := update cpu.gpr l.rtLd (regValue l.rtLd (l.size == 3) (l.value mem (cpu.gpr l.rn) bytes) cpu.gpr)
          excl := ⟨cpu.gpr l.rn, l.value mem (cpu.gpr l.rn) bytes, cpu.excl.valueHi, BitVec.ofNat 8 (1 <<< l.size), 1⟩ }
        ⟨mem.withBytes bytes, loads, reservations⟩ b cpu' h' := by
  obtain ⟨row, hm, hrow⟩ := DecodedInst.exists_row hl.ld_row
  have hhandler : row.handler l.ld.pc l.ld.word = loadExclusive l.ld.word := by
    obtain rfl | rfl : row = .LDXR ∨ row = .LDAXR := by simpa using hrow
    · rfl
    · rfl
  rw [translateInstruction_eq hm, hhandler, loadExclusive]
  simp only [Act.bind_assoc, loadXSP, ends_gets_bind, ends_loadMem_bind, storeExcl,
    ends_modify_bind, ends_storeReg_bind]
  constructor
  · rintro ⟨_, _, ⟨⟩, hread, hend⟩
    exact ⟨hread, hend⟩
  · rintro ⟨hread, hend⟩
    exact ⟨_, _, rfl, hread, hend⟩

theorem ends_br_bind (taken : Bool) {k : Unit → Emit β}
    (hstatus : cpu.gpr l.rs = if taken then 1 else 0) :
    Ends (translateInstruction l.br >>= k) cpu h b cpu' h' ↔
      Ends (k ()) { cpu with pc := if taken then l.ld.pc else l.br.pc + 4 } h b cpu' h' := by
  obtain ⟨row, hm, hrow⟩ := DecodedInst.exists_row hl.br_row
  obtain rfl : row = .CBNZ := by simpa using hrow
  rw [translateInstruction_eq hm, show Row.handler l.br.pc .CBNZ l.br.word =
    compareBranch l.br.pc l.br.word true from rfl, compareBranch]
  have htest : ((sizeFor (bit l.br.word 31)).trunc (cpu.gpr l.rs) != 0) = taken := by
    rw [hstatus]
    cases taken <;> cases bit l.br.word 31 <;> rfl
  simp only [Act.bind_assoc, loadX, ends_gets_bind, hl.tests_status, readX, if_neg hl.status_kept, hl.closes, htest]
  cases taken <;> rfl

def stored (l : LoopBlock) (succeeds : Bool) (mem : Memory) (address : Addr) (g : Reg → Value) : Memory :=
  if succeeds then mem.write l.memSize address (readX g l.rtSt) else mem

theorem ends_guestStoreExclusive_bind {succeeds : Bool} {k : Unit → Emit β} :
    Ends (guestStoreExclusive l.sto.word succeeds >>= k) cpu h b cpu' h' ↔
      (succeeds → h.mem.canWrite (cpu.gpr l.rn) l.memSize.bytes) ∧
      Ends (k ()) (cpu.setGpr l.rs (if succeeds then 0 else 1))
        { h with mem := l.stored succeeds h.mem (cpu.gpr l.rn) cpu.gpr } b cpu' h' := by
  unfold guestStoreExclusive
  cases succeeds with
  | false =>
    simp only [Bool.false_eq_true, false_implies, true_and]
    exact ends_storeW_bind hl.status_kept
  | true =>
    simp only [if_true, Act.bind_assoc, loadX, loadXSP, ends_gets_bind, ends_storeMem_bind,
      hl.same_size, hl.same_base, forall_const]
    exact and_congr_right fun _ => ends_storeW_bind hl.status_kept

def attempted (l : LoopBlock) (succeeds : Bool) (cpu : Cpu) (v : Value) (g : Reg → Value) : Cpu :=
  { gpr := update g l.rs (if succeeds then 0 else 1)
    nzcv := cpu.nzcv
    excl := ⟨cpu.gpr l.rn, v, cpu.excl.valueHi, BitVec.ofNat 8 (1 <<< l.size), 1⟩
    pc := if succeeds then l.br.pc + 4 else l.ld.pc }

theorem ends_attempt_bind {succeeds : Bool} {k : Unit → Emit β} :
    Ends (l.attempt succeeds >>= k) cpu ⟨mem, bytes :: loads, reservations⟩ b cpu' h' ↔
      mem.canRead (cpu.gpr l.rn) l.memSize.bytes ∧
      ∃ g, l.passRegs (l.value mem (cpu.gpr l.rn) bytes) cpu.gpr = some g ∧
        (succeeds → mem.canWrite (cpu.gpr l.rn) l.memSize.bytes) ∧
        Ends (k ()) (l.attempted succeeds cpu (l.value mem (cpu.gpr l.rn) bytes) g)
          ⟨l.stored succeeds (mem.withBytes bytes) (cpu.gpr l.rn) g, loads, reservations⟩ b cpu' h' := by
  simp only [attempt, Act.bind_assoc, guestOpcode, ends_modify_bind, ends_ld_bind hl,
    ends_translateBody_bind hl.body_rows, ends_guestStoreExclusive_bind hl]
  refine and_congr_right fun _ => exists_congr fun g => and_congr_right fun hg => ?_
  have hbase : g l.rn = cpu.gpr l.rn := passRegs_base hl hg
  rw [ends_br_bind hl (!succeeds) (by cases succeeds <;> simp [Cpu.setGpr])]
  simp only [hbase]
  cases succeeds <;> rfl

/-! ## The guest's run -/

/-- The registers at the guest's last store: each failed one has left 1 in the status
register. -/
def guestRegs (l : LoopBlock) (last : Value) : List Value → (Reg → Value) → Option (Reg → Value)
  | [], g => l.passRegs last g
  | v :: failed, g => l.passRegs v g >>= fun g' => l.guestRegs last failed (update g' l.rs 1)

theorem guest_base (h : l.passRegs v cpu.gpr = some g) :
    (l.attempted false cpu v g).gpr l.rn = cpu.gpr l.rn :=
  (Function.update_of_ne hl.status_base.symm _ _).trans (passRegs_base hl h)

theorem attempted_attempted (h : l.passRegs v cpu.gpr = some g) :
    l.attempted true (l.attempted false cpu v g) v' g' = l.attempted true cpu v' g' := by
  rw [attempted, guest_base hl h]
  rfl

theorem ends_guest (hexit : l.br.pc + 4 ≠ l.ld.pc) :
    Ends (l.guest (lost failed.length)) cpu ⟨mem, failed ++ [last], []⟩ u cpu' h' ↔
      mem.canRead (cpu.gpr l.rn) l.memSize.bytes ∧ mem.canWrite (cpu.gpr l.rn) l.memSize.bytes ∧
      ∃ g, l.guestRegs (l.value mem (cpu.gpr l.rn) last) (failed.map (l.value mem (cpu.gpr l.rn))) cpu.gpr = some g ∧
        cpu' = l.attempted true cpu (l.value mem (cpu.gpr l.rn) last) g ∧
        h' = ⟨l.stored true (mem.withBytes last) (cpu.gpr l.rn) g, [], []⟩ := by
  induction failed generalizing cpu mem with
  | nil =>
    have hout : ∀ g, (l.attempted true cpu (l.value mem (cpu.gpr l.rn) last) g).pc ≠ l.ld.pc := fun _ => hexit
    simp only [lost, List.length_nil, List.replicate_zero, List.nil_append, guest, ends_attempt_bind hl, ends_gets_bind,
      if_neg (hout _), ends_pure]
    constructor
    · rintro ⟨hread, g, hg, hwrite, -, rfl, rfl⟩
      exact ⟨hread, hwrite trivial, g, hg, rfl, rfl⟩
    · rintro ⟨hread, hwrite, g, hg, rfl, rfl⟩
      exact ⟨hread, g, hg, fun _ => hwrite, trivial, rfl, rfl⟩
  | cons bytes failed ih =>
    have hback : ∀ g, (l.attempted false cpu (l.value mem (cpu.gpr l.rn) bytes) g).pc = l.ld.pc := fun _ => rfl
    rw [show lost (bytes :: failed).length = false :: lost failed.length from rfl, List.cons_append]
    simp only [guest, ends_attempt_bind hl, ends_gets_bind, if_pos (hback _), List.map_cons, guestRegs]
    constructor
    · rintro ⟨hread, g, hg, -, hend⟩
      obtain ⟨-, hwrite, g', hg', rfl, rfl⟩ := ih.mp hend
      rw [guest_base hl hg] at hwrite hg' ⊢
      exact ⟨hread, hwrite, g', by rw [hg]; exact hg', attempted_attempted hl hg, rfl⟩
    · rintro ⟨hread, hwrite, g', hg', rfl, rfl⟩
      obtain ⟨g, hg, hg'⟩ := Option.bind_eq_some_iff.mp hg'
      refine ⟨hread, g, hg, fun h => (Bool.false_ne_true h).elim, ih.mpr ?_⟩
      rw [guest_base hl hg]
      exact ⟨hread, hwrite, g', hg', (attempted_attempted hl hg).symm, rfl⟩

end

/-! ## Refinement -/

/-- Where the guest's loop ends after failed stores, the fused code ends with the same
registers, flags, program counter and memory. Both see the same bytes at the load of each
attempt: `failed` at those whose store fails, `last` at the one that stores. -/
def Refines (l : LoopBlock) (cpu : Cpu) (mem : Memory) (failed : List Bytes) (last : Bytes) : Prop :=
  ∀ cpu' mem', Ends (l.guest (lost failed.length)) cpu ⟨mem, failed ++ [last], []⟩ () cpu' ⟨mem', [], []⟩ →
    ∃ cpu'', Ends (l.fused (failed.length + 1)) cpu ⟨mem, failed ++ [last], lost failed.length⟩ () cpu'' ⟨mem', [], []⟩ ∧
      cpu''.gpr = cpu'.gpr ∧ cpu''.nzcv = cpu'.nzcv ∧ cpu''.pc = cpu'.pc

/-- A second attempt gives the same registers whether the status register holds what it
held before the first or the 1 a failed store leaves there. -/
def StatusBlind (l : LoopBlock) : Prop :=
  ∀ g v v' g', v = l.memSize.trunc v → v' = l.memSize.trunc v' → l.passRegs v g = some g' →
    (l.passRegs v' g').map (update · l.rs 0) = (l.passRegs v' (update g' l.rs 1)).map (update · l.rs 0)

theorem readX_of_update (hl : l.Fuses) (h : update g l.rs 0 = update g' l.rs 0) :
    readX g l.rtSt = readX g' l.rtSt := by
  have hr := congrFun h l.rtSt
  rw [Function.update_of_ne hl.status_data.symm, Function.update_of_ne hl.status_data.symm] at hr
  rw [readX, readX, hr]

theorem isSome_passRegs (hl : l.Fuses) (h : l.passRegs v g = some g') (v' : Value) (k : Reg → Value) :
    ∃ k', l.passRegs v' k = some k' :=
  isSome_bodyRegs hl.body_rows h _

theorem value_short (l : LoopBlock) (mem : Memory) (address : Addr) (bytes : Bytes) :
    l.value mem address bytes = l.memSize.trunc (l.value mem address bytes) :=
  ((mem.withBytes bytes).trunc_read l.memSize address).symm

/-- From the second attempt on, guest and fused registers differ in the status at most. -/
theorem guestRegs_eq (hl : l.Fuses) (hblind : l.StatusBlind) (hlast : last = l.memSize.trunc last)
    (hfailed : ∀ v ∈ failed, v = l.memSize.trunc v) (hv : v = l.memSize.trunc v) (hg : l.passRegs v g₀ = some g) :
    (l.guestRegs last failed (update g l.rs 1)).map (update · l.rs 0) =
      (l.fusedRegs last failed g).map (update · l.rs 0) := by
  induction failed generalizing v g₀ g with
  | nil => exact (hblind g₀ v last g hv hlast hg).symm
  | cons v' failed ih =>
    obtain ⟨hv', hfailed⟩ := List.forall_mem_cons.mp hfailed
    obtain ⟨g₁, hg₁⟩ := isSome_passRegs hl hg v' g
    obtain ⟨g₂, hg₂⟩ := isSome_passRegs hl hg v' (update g l.rs 1)
    have h₁₂ : update g₁ l.rs 0 = update g₂ l.rs 0 := by
      have h := hblind g₀ v v' g hv hv' hg
      rw [hg₁, hg₂] at h
      exact Option.some.inj h
    have h₁ : update g₂ l.rs 1 = update g₁ l.rs 1 := by
      rw [← Function.update_idem 0 1 g₂, ← h₁₂, Function.update_idem]
    have hguest : l.guestRegs last (v' :: failed) (update g l.rs 1) = l.guestRegs last failed (update g₁ l.rs 1) := by
      rw [guestRegs, hg₂, ← h₁]
      rfl
    have hfused : l.fusedRegs last (v' :: failed) g = l.fusedRegs last failed g₁ := by
      rw [fusedRegs, hg₁]
      rfl
    rw [hguest, hfused]
    exact ih hfailed hv' hg₁

theorem refines_of_statusBlind (hl : l.Fuses) (hexit : l.br.pc + 4 ≠ l.ld.pc) (hblind : l.StatusBlind)
    (cpu : Cpu) (mem : Memory) (failed : List Bytes) (last : Bytes) : l.Refines cpu mem failed last := by
  intro cpu' mem' hguest
  obtain ⟨hread, hwrite, g, hg, rfl, hmem⟩ := (ends_guest hl hexit).mp hguest
  have hshort := l.value_short mem (cpu.gpr l.rn)
  obtain ⟨g', hg', hgg⟩ : ∃ g', l.fusedRegs (l.value mem (cpu.gpr l.rn) last)
      (failed.map (l.value mem (cpu.gpr l.rn))) cpu.gpr = some g' ∧ update g' l.rs 0 = update g l.rs 0 := by
    cases failed with
    | nil => exact ⟨g, hg, rfl⟩
    | cons bytes failed =>
      rw [List.map_cons] at hg ⊢
      obtain ⟨g₁, hg₁, hrest⟩ := Option.bind_eq_some_iff.mp hg
      have hfailed : ∀ v ∈ failed.map (l.value mem (cpu.gpr l.rn)), v = l.memSize.trunc v :=
        List.forall_mem_map.mpr fun b _ => hshort b
      have heq := guestRegs_eq hl hblind (hshort last) hfailed (hshort bytes) hg₁
      rw [hrest] at heq
      obtain ⟨g', hg', hgg⟩ := Option.map_eq_some_iff.mp heq.symm
      exact ⟨g', by rw [fusedRegs, hg₁]; exact hg', hgg⟩
  refine ⟨_, (ends_fused hl).mpr ⟨hread, hwrite, g', hg', rfl, ?_⟩, hgg, rfl, rfl⟩
  rw [hmem, stored, if_pos rfl, readX_of_update hl hgg]

theorem not_refines (hl : l.Fuses) (hexit : l.br.pc + 4 ≠ l.ld.pc)
    (hread : mem.canRead (cpu.gpr l.rn) l.memSize.bytes)
    (hwrite : mem.canWrite (cpu.gpr l.rn) l.memSize.bytes) (hr : r ≠ l.rs)
    (hguest : (l.guestRegs (l.value mem (cpu.gpr l.rn) last) (failed.map (l.value mem (cpu.gpr l.rn))) cpu.gpr).map (· r) =
      some a)
    (hfused : (l.fusedRegs (l.value mem (cpu.gpr l.rn) last) (failed.map (l.value mem (cpu.gpr l.rn))) cpu.gpr).map (· r) =
      some b)
    (hab : a ≠ b) : ¬l.Refines cpu mem failed last := by
  intro href
  obtain ⟨g, hg, rfl⟩ := Option.map_eq_some_iff.mp hguest
  obtain ⟨cpu'', hend, hgpr, -⟩ := href _ _ ((ends_guest hl hexit).mpr ⟨hread, hwrite, g, hg, rfl, rfl⟩)
  obtain ⟨-, -, g', hg', rfl, -⟩ := (ends_fused hl).mp hend
  rw [hg', Option.map_some, Option.some_inj] at hfused
  have hsame := congrFun hgpr r
  simp only [attempted, Function.update_of_ne hr] at hsame
  exact hab (hsame.symm.trans hfused)

def openMemory : Memory := ⟨fun _ => 0, fun _ => true, fun _ => true⟩

theorem value_write (hv : v = l.memSize.trunc v) (address : Addr) :
    l.value openMemory address (openMemory.write l.memSize address v).byte = v :=
  (Memory.read_write ..).trans hv.symm

theorem statusBlind_of_refines (hl : l.Fuses) (hexit : l.br.pc + 4 ≠ l.ld.pc)
    (href : ∀ cpu mem failed last, l.Refines cpu mem failed last) : l.StatusBlind := by
  intro g v v' g₁ hv hv' hg₁
  obtain ⟨g₂, hg₂⟩ := isSome_passRegs hl hg₁ v' (update g₁ l.rs 1)
  have hval := value_write hv (g l.rn)
  have hval' := value_write hv' (g l.rn)
  have hall : Memory.covers (fun _ => true) (g l.rn) l.memSize.bytes := by simp [Memory.covers]
  -- other threads write `v'` after the failed store
  let failed : List Bytes := [(openMemory.write l.memSize (g l.rn) v).byte]
  let last : Bytes := (openMemory.write l.memSize (g l.rn) v').byte
  obtain ⟨cpu'', hend, hgpr, -⟩ := href ⟨g, noFlags, {}, 0⟩ openMemory failed last _ _ ((ends_guest hl hexit).mpr
    ⟨hall, hall, g₂, by rw [List.map_singleton, hval, hval', guestRegs, hg₁]; exact hg₂, rfl, rfl⟩)
  obtain ⟨-, -, g', hg', rfl, -⟩ := (ends_fused hl).mp hend
  rw [List.map_singleton, hval, hval', fusedRegs, hg₁] at hg'
  rw [hg₂, show l.passRegs v' g₁ = some g' from hg']
  exact congrArg some hgpr

end LoopBlock

theorem DecodedBlock.instructions_eq {b : DecodedBlock} (h : b.window index = some l) :
    b.instructions = l.instructions := by
  unfold DecodedBlock.window at h
  split at h
  · cases h
  split at h
  · cases h
  next ld rest heq =>
  split at h
  · next br sto body hrev =>
    cases h
    rw [heq, LoopBlock.instructions, ← List.reverse_reverse rest, hrev]
    simp
  · cases h

theorem DecodedBlock.window_exit {b : DecodedBlock} (h : b.window index = some l)
    (hl : l.Fuses) : l.br.pc + 4 ≠ l.ld.pc := by
  have hinst := b.instructions_eq h
  have hld := b.contiguous 0 l.ld (by rw [hinst]; rfl)
  have hbr := b.contiguous (l.body.length + 2) l.br (by simp [hinst, LoopBlock.instructions])
  have hlen : l.body.length ≤ 8 := hl.length_body
  rw [hld]
  bv_omega

/-! ## Bodies that do not read the status -/

theorem bodyRegs_update (hrows : ∀ inst ∈ body, inst.isRow exclusiveBodyRow) (hr : r ≠ 31#5)
    (hwrite : ∀ inst ∈ body, reg inst.word 0 ≠ r) (hread : ∀ inst ∈ body, r ∉ inst.sources)
    (g : Reg → Value) (s : Value) : bodyRegs body (update g r s) = (bodyRegs body g).map (update · r s) := by
  induction body generalizing g with
  | nil => rfl
  | cons inst rest ih =>
    obtain ⟨hinst, hrows⟩ := List.forall_mem_cons.mp hrows
    obtain ⟨hne, hwrite⟩ := List.forall_mem_cons.mp hwrite
    obtain ⟨hnot, hread⟩ := List.forall_mem_cons.mp hread
    obtain ⟨hnone, -⟩ | ⟨f, hregs, hsrc, -⟩ := DecodedInst.regs_cases hinst
    · simp [bodyRegs, hnone]
    · have hf : f (update g r s) = f g := by
        refine hsrc _ _ (fun i hi => Function.update_of_ne ?_ _ _) fun _ => Function.update_of_ne hr.symm _ _
        rintro rfl
        exact hnot hi
      simp only [bodyRegs, hregs, hf, Option.bind_eq_bind, Option.bind_some]
      rw [Function.update_comm hne.symm, ih hrows hwrite hread]

theorem LoopBlock.statusBlind_of_not_read {l : LoopBlock} (hl : l.Fuses)
    (h : l.rtLd = l.rs ∨ ∀ inst ∈ l.body, l.rs ∉ inst.sources) : l.StatusBlind := by
  intro g _ v g' _ _ _
  have hval : regValue l.rtLd (l.size == 3) v (update g' l.rs 1) = regValue l.rtLd (l.size == 3) v g' :=
    regValue_congr _ _ rfl fun _ => Function.update_of_ne hl.status_kept.symm _ _
  unfold LoopBlock.passRegs
  rw [hval]
  by_cases heq : l.rtLd = l.rs
  · rw [heq, Function.update_idem]
  · rw [Function.update_comm (Ne.symm heq), bodyRegs_update hl.body_rows hl.status_kept
      hl.body_status (h.resolve_left heq)]
    simp [Function.comp_def]

/-- For every block and index at which the fusion applies: fused code and guest end alike,
from every state, after any number of failed stores and whatever each attempt loads,
exactly when the loop does not depend on the status a failed store leaves behind. -/
theorem exclusiveLoop_refines_iff (b : DecodedBlock) (index : Nat) (l : LoopBlock)
    (h : tryFuseExclusiveLoop b index = some l) : (∀ cpu mem failed last, l.Refines cpu mem failed last) ↔ l.StatusBlind := by
  obtain ⟨hwindow, hfuses⟩ := Option.filter_eq_some_iff.mp h
  have hl : l.Fuses := of_decide_eq_true hfuses
  have hexit := b.window_exit hwindow hl
  constructor
  · intro href
    exact l.statusBlind_of_refines hl hexit href
  · exact l.refines_of_statusBlind hl hexit

/-- `ldxr w1, [x0]; add w1, w1, wM; stxr w2, w1, [x0]; cbnz w2`, the word of the addition
given. -/
def fetchAdd (add : Word) (h : (Decode.parseBits Row.ADD_shift.bits).Matches add) : DecodedBlock where
  entry := 0x1000
  instructions :=
    [⟨0x1000, 0x885f7c01, some .LDXR, by rintro _ ⟨⟩; decide +kernel⟩,
      ⟨0x1004, add, some .ADD_shift, by rintro _ ⟨⟩; exact h⟩,
      ⟨0x1008, 0x88027c01, some .STXR, by rintro _ ⟨⟩; decide +kernel⟩,
      ⟨0x100c, 0x35ffffa2, some .CBNZ, by rintro _ ⟨⟩; decide +kernel⟩]
  contiguous := by
    intro i inst hi
    match i with
    | 0 | 1 | 2 | 3 => cases hi; rfl
    | i + 4 => cases hi

def fetchAddW3 : DecodedBlock := fetchAdd 0x0b030021 (by decide +kernel)

def fetchAddW2 : DecodedBlock := fetchAdd 0x0b020021 (by decide +kernel)

theorem exclusiveLoop_refines_fetchAddW3 :
    ∃ l, tryFuseExclusiveLoop fetchAddW3 0 = some l ∧ ∀ cpu mem failed last, l.Refines cpu mem failed last := by
  refine ⟨_, rfl, (exclusiveLoop_refines_iff fetchAddW3 0 _ rfl).mpr ?_⟩
  exact LoopBlock.statusBlind_of_not_read (by decide +kernel) (Or.inr (by decide +kernel))

/-- `w2` holds 5 and memory is zero. The guest's second attempt adds the 1 its failed store
left in `w2`; the fused code adds 5 again. -/
theorem exclusiveLoop_adds_status : ∃ l, tryFuseExclusiveLoop fetchAddW2 0 = some l ∧
      ¬l.Refines ⟨fun r => if r = 2 then 5 else 0, noFlags, {}, 0x1000⟩
        ⟨fun _ => 0, fun _ => true, fun _ => true⟩ [fun _ => 0] (fun _ => 0) := by
  refine ⟨_, rfl, ?_⟩
  apply LoopBlock.not_refines (r := 1) (a := 1) (b := 5)
  all_goals decide +kernel

end PowerArm.A64
