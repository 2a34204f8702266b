import PowerArm.Seccomp.BpfLaws

/-!
# Accepted programs run safely

An instruction that passed the check goes on inside the program, or ends the run
at a `BPF_RET` or at a division by zero (`exec_stops`). So an accepted program
stops there, after at most as many instructions as it has (`execute_safe`).
-/

namespace PowerArm.Seccomp

def advanceOne (prog : List SockFilter) (data : SeccompData) (m : Machine) : Option Machine :=
  prog[m.ip]?.bind fun inst => (exec inst data m).toOption

def advance (prog : List SockFilter) (data : SeccompData) : Nat → Machine → Option Machine
  | 0, m => some m
  | n + 1, m => (advanceOne prog data m).bind (advance prog data n)

inductive StopsAt (inst : SockFilter) (m : Machine) : Halt → Prop
  | ret (hcls : inst.cls = .ret) (value : BitVec 32) : StopsAt inst m (.ret value)
  | divByZero (hcls : inst.cls = .alu) (hop : inst.aluOp = .div ∨ inst.aluOp = .mod)
      (hzero : operand inst m = 0) : StopsAt inst m .divByZero

section
variable {prog : List SockFilter} {data : SeccompData} {m : Machine} {inst : SockFilter}

theorem load_isSome (data : SeccompData) (hmod : offset % 4 = 0) (hlt : offset < seccompDataSize) :
    ∃ v, data.load offset = some v := by
  unfold SeccompData.load
  rw [if_neg (not_not.mpr hmod)]
  split
  · exact ⟨_, rfl⟩
  · split
    · exact ⟨_, rfl⟩
    · split <;> exact ⟨_, rfl⟩

theorem loadValue_ok (data : SeccompData) (m : Machine) (hcls : inst.cls = .ld ∨ inst.cls = .ldx)
    (h : checkInst n i inst = true) : ∃ v, loadValue inst data m = .ok v := by
  unfold checkInst at h
  obtain hcls | hcls := hcls
  all_goals
    rw [hcls] at h
    have hmode := (Bool.and_eq_true_iff.mp h).2
    unfold loadValue
    cases hm : inst.mode with
    | imm => exact ⟨_, rfl⟩
    | len => exact ⟨_, rfl⟩
    | abs =>
      simp only [hm, Bool.and_eq_true, beq_iff_eq, decide_eq_true_eq] at hmode
      obtain ⟨v, hv⟩ := load_isSome data hmode.1 hmode.2
      exact ⟨v, by simp [hv]⟩
    | mem =>
      simp only [hm, decide_eq_true_eq] at hmode
      exact ⟨_, if_pos hmode⟩
    | ind => simp [hm] at hmode
    | msh => simp [hm] at hmode
    | other => simp [hm] at hmode

theorem store_ok (m : Machine) (hcls : inst.cls = .st ∨ inst.cls = .stx) (h : checkInst n i inst)
    (value : BitVec 32) : ∃ m', store inst m value = .ok m' := by
  have hk : inst.k.toNat < memWords := by
    unfold checkInst at h
    rcases hcls with hcls | hcls <;> rw [hcls] at h <;> simpa using (Bool.and_eq_true_iff.mp h).2
  exact ⟨_, if_pos hk⟩

theorem alu_stops (hcls : inst.cls = .alu) (h : checkInst n i inst)
    (he : alu inst.aluOp a (operand inst m) = .error halt) : StopsAt inst m halt := by
  simp only [checkInst, hcls] at h
  have hdiv : ∀ (hop : inst.aluOp = .div ∨ inst.aluOp = .mod) (v : BitVec 32),
      (if operand inst m = 0 then .error .divByZero else .ok v : Except Halt (BitVec 32)) =
        .error halt → StopsAt inst m halt := by
    intro hop v hv
    split at hv
    · next hzero =>
      cases hv
      exact .divByZero hcls hop hzero
    · cases hv
  cases hop : inst.aluOp with
  | div => exact hdiv (.inl hop) _ (by simpa only [alu, hop] using he)
  | mod => exact hdiv (.inr hop) _ (by simpa only [alu, hop] using he)
  | other => simp [hop] at h
  | _ => simp [alu, hop] at he

theorem jumpSkip_ok (m : Machine) (hcls : inst.cls = .jmp) (h : checkInst n i inst) :
    ∃ skip, jumpSkip inst m = .ok skip := by
  simp only [checkInst, hcls] at h
  cases hop : inst.jmpOp with
  | other => simp [hop] at h
  | _ =>
    simp only [jumpSkip, hop]
    exact ⟨_, rfl⟩

theorem exec_stops (h : checkInst n i inst) (he : exec inst data m = .error halt) : StopsAt inst m halt := by
  unfold exec at he
  cases hcls : inst.cls with
  | ld =>
    obtain ⟨v, hv⟩ := loadValue_ok data m (.inl hcls) h
    simp [hcls, hv, Except.map] at he
  | ldx =>
    obtain ⟨v, hv⟩ := loadValue_ok data m (.inr hcls) h
    simp [hcls, hv, Except.map] at he
  | st =>
    obtain ⟨m', hm⟩ := store_ok m (.inl hcls) h m.a
    simp [hcls, hm] at he
  | stx =>
    obtain ⟨m', hm⟩ := store_ok m (.inr hcls) h m.x
    simp [hcls, hm] at he
  | alu =>
    cases ha : alu inst.aluOp m.a (operand inst m) with
    | ok v => simp [hcls, ha, Except.map] at he
    | error e =>
      obtain rfl : e = halt := by simpa [hcls, ha, Except.map] using he
      exact alu_stops hcls h ha
  | jmp =>
    obtain ⟨skip, hs⟩ := jumpSkip_ok m hcls h
    simp [hcls, hs, Except.map] at he
  | ret =>
    simp only [checkInst, hcls] at h
    cases hr : inst.rval with
    | other => simp [hr] at h
    | _ =>
      simp only [hcls, hr, Except.error.injEq] at he
      subst he
      exact .ret hcls _
  | misc =>
    simp only [checkInst, hcls] at h
    cases hop : inst.miscOp with
    | other => simp [hop] at h
    | _ => simp [hcls, hop] at he

/-! ## Runs -/

theorem advanceOne_of_exec (hi : prog[m.ip]? = some inst) (he : exec inst data m = .ok m') :
    advanceOne prog data m = some m' := by
  simp [advanceOne, hi, he, Except.toOption]

structure StopsAfter (prog : List SockFilter) (data : SeccompData) (m : Machine) (n : Nat)
    (halt : Halt) : Prop where
  inside : ∀ k ≤ n, ∃ m', advance prog data k m = some m' ∧ m'.ip < prog.length
  stop : ∃ m' inst, advance prog data n m = some m' ∧ prog[m'.ip]? = some inst ∧
    exec inst data m' = .error halt ∧ StopsAt inst m' halt

theorem StopsAfter.cons (hin : m.ip < prog.length) (hone : advanceOne prog data m = some m')
    (h : StopsAfter prog data m' n halt) : StopsAfter prog data m (n + 1) halt := by
  constructor
  · intro k hk
    cases k with
    | zero => exact ⟨m, rfl, hin⟩
    | succ k =>
      obtain ⟨mk, hmk, hlt⟩ := h.inside k (Nat.le_of_succ_le_succ hk)
      exact ⟨mk, by simp [advance, hone, hmk], hlt⟩
  · obtain ⟨mn, inst, hmn, hrest⟩ := h.stop
    exact ⟨mn, inst, by simp [advance, hone, hmn], hrest⟩

theorem run_stops (h : validateProgram prog) (hlen : prog.length < 2 ^ 32) (fuel : Nat) :
    ∀ m : Machine, m.ip < prog.length → prog.length ≤ m.ip + fuel →
      ∃ n < fuel, StopsAfter prog data m n (run prog data fuel m) := by
  induction fuel with
  | zero =>
    intro m hin hf
    exact absurd hin (Nat.not_lt.mpr hf)
  | succ fuel ih =>
    intro m hin hf
    have hi : prog[m.ip]? = some prog[m.ip] := List.getElem?_eq_getElem hin
    have hcheck := validateProgram_checkInst h hi
    cases he : exec prog[m.ip] data m with
    | error halt =>
      have hrun : run prog data (fuel + 1) m = halt := by simp only [run, hi, he]
      rw [hrun]
      refine ⟨0, Nat.succ_pos _, ⟨?_, m, _, rfl, hi, he, exec_stops hcheck he⟩⟩
      intro k hk
      obtain rfl := Nat.le_zero.mp hk
      exact ⟨m, rfl, hin⟩
    | ok m' =>
      have hmove := exec_ip hcheck rfl (validateProgram_last h hi) hin hlen he
      have hrun : run prog data (fuel + 1) m = run prog data fuel m' := by simp only [run, hi, he]
      obtain ⟨n, hn, hstop⟩ := ih m' hmove.2 (by omega)
      rw [hrun]
      exact ⟨n + 1, Nat.succ_lt_succ hn, hstop.cons hin (advanceOne_of_exec hi he)⟩

theorem validateProgram_ne_nil (h : validateProgram prog) : 0 < prog.length := by
  cases prog with
  | nil => simp [validateProgram] at h
  | cons _ _ => exact Nat.succ_pos _

/-- `Execute` on an accepted program ends at a return or a division by zero within
the program's length, inside the program, the data and the scratch words all along. -/
theorem execute_safe (hlen : prog.length ≤ maxInsns) (h : validateProgram prog = true) (data : SeccompData) :
    ∃ n < prog.length, StopsAfter prog data {} n (execute prog data) := by
  have hbig : prog.length < 2 ^ 32 := Nat.lt_of_le_of_lt hlen (by decide)
  exact run_stops h hbig prog.length {} (validateProgram_ne_nil h) (Nat.le_add_left _ _)

end

def divideFilter : List SockFilter := [⟨0x20, 0, 0, 0⟩, ⟨0x34, 0, 0, 0⟩, ⟨0x06, 0, 0, 0x7fff0000⟩]

theorem execute_safe_divideFilter : (divideFilter.length ≤ maxInsns ∧ validateProgram divideFilter = true) ∧
      ∃ n < divideFilter.length, StopsAfter divideFilter ⟨1, 0, 0, fun _ => 0⟩ {} n
        (execute divideFilter ⟨1, 0, 0, fun _ => 0⟩) :=
  ⟨by decide, execute_safe (by decide) (by decide) _⟩

end PowerArm.Seccomp
