import PowerArm.Seccomp.Bpf

/-!
# What a filter can see, and that it ends

A run depends on `seccomp_data` only through the words its absolute loads name
(`execute_congr`). An accepted program moves forward inside its own length, so
giving it more fuel changes nothing (`run_fuel`).
-/

namespace PowerArm.Seccomp

def SameLoad (d d' : SeccompData) (inst : SockFilter) : Prop :=
  (inst.cls = .ld ∨ inst.cls = .ldx) → inst.mode = .abs → d.load inst.k.toNat = d'.load inst.k.toNat

theorem loadValue_congr (hc : inst.cls = .ld ∨ inst.cls = .ldx) (h : SameLoad d d' inst) :
    loadValue inst d m = loadValue inst d' m := by
  unfold loadValue
  cases hm : inst.mode with
  | abs => rw [h hc hm]
  | _ => rfl

theorem exec_congr (h : SameLoad d d' inst) : exec inst d m = exec inst d' m := by
  unfold exec
  cases hc : inst.cls with
  | ld => rw [loadValue_congr (.inl hc) h]
  | ldx => rw [loadValue_congr (.inr hc) h]
  | _ => rfl

theorem run_congr (h : ∀ inst ∈ prog, SameLoad d d' inst) (fuel : Nat) (m : Machine) :
    run prog d fuel m = run prog d' fuel m := by
  induction fuel generalizing m with
  | zero => rfl
  | succ fuel ih =>
    unfold run
    cases hi : prog[m.ip]? with
    | none => rfl
    | some inst =>
      dsimp only
      rw [exec_congr (h inst (List.mem_of_getElem? hi))]
      cases exec inst d' m with
      | ok m' => exact ih m'
      | error _ => rfl

theorem execute_congr (h : ∀ inst ∈ prog, SameLoad d d' inst) : execute prog d = execute prog d' := run_congr h _ _

/-! ## Fuel -/

theorem validateProgram_checkInst (h : validateProgram prog) (hi : prog[i]? = some inst) :
    checkInst prog.length i inst := by
  have hall := (Bool.and_eq_true_iff.mp h).1
  exact List.all_eq_true.mp hall (inst, i) (List.mem_zipIdx_iff_getElem?.mpr hi)

theorem validateProgram_last (h : validateProgram prog) (hi : prog[i]? = some inst)
    (hlast : i + 1 = prog.length) : inst.cls = .ret := by
  have hl := (Bool.and_eq_true_iff.mp h).2
  have hget : prog.getLast? = some inst := by rw [List.getLast?_eq_getElem?, ← hlast, Nat.add_sub_cancel, hi]
  simpa [hget] using hl

theorem exec_ip (hcheck : checkInst n i inst) (hip : m.ip = i) (hlast : i + 1 = n → inst.cls = .ret)
    (hin : i < n) (hn : n < 2 ^ 32) (h : exec inst d m = .ok m') : i < m'.ip ∧ m'.ip < n := by
  have hstep : inst.cls ≠ .ret → ∀ v : Machine, v.ip = i → i < (v.next 0).ip ∧ (v.next 0).ip < n := by
    intro hr v hv
    have : i + 1 ≠ n := fun h => hr (hlast h)
    simp only [Machine.next]
    omega
  have hmap : ∀ {α} (x : Except Halt α) (f : α → Machine), x.map f = .ok m' → ∃ a, m' = f a := by
    intro α x f hx
    cases x with
    | error _ => cases hx
    | ok a => exact ⟨a, by cases hx; rfl⟩
  unfold exec at h
  cases hc : inst.cls with
  | ret =>
    rw [hc] at h
    dsimp only at h
    split at h <;> cases h
  | jmp =>
    rw [hc] at h
    simp only [checkInst, hc] at hcheck
    have hnext : ∀ skip, i + skip + 1 < n → i < (m.next skip).ip ∧ (m.next skip).ip < n := by
      simp only [Machine.next]
      omega
    dsimp only [jumpSkip] at h
    cases hj : inst.jmpOp with
    | ja =>
      rw [hj] at h hcheck
      cases h
      simp only [Bool.and_eq_true, decide_eq_true_eq] at hcheck
      exact hnext _ hcheck.2
    | other =>
      rw [hj] at h
      cases h
    | _ =>
      rw [hj] at h hcheck
      cases h
      simp only [Bool.and_eq_true, decide_eq_true_eq] at hcheck
      split
      · exact hnext _ hcheck.1
      · exact hnext _ hcheck.2
  | st =>
    simp only [hc, store] at h
    split at h
    · cases h
      exact hstep (by simp [hc]) _ hip
    · cases h
  | stx =>
    simp only [hc, store] at h
    split at h
    · cases h
      exact hstep (by simp [hc]) _ hip
    · cases h
  | misc =>
    rw [hc] at h
    dsimp only at h
    split at h
    · cases h
      exact hstep (by simp [hc]) _ hip
    · cases h
      exact hstep (by simp [hc]) _ hip
    · cases h
  | ld =>
    rw [hc] at h
    obtain ⟨v, rfl⟩ := hmap _ _ h
    exact hstep (by simp [hc]) _ hip
  | ldx =>
    rw [hc] at h
    obtain ⟨v, rfl⟩ := hmap _ _ h
    exact hstep (by simp [hc]) _ hip
  | alu =>
    rw [hc] at h
    obtain ⟨v, rfl⟩ := hmap _ _ h
    exact hstep (by simp [hc]) _ hip

theorem run_fuel (h : validateProgram prog) (hlen : prog.length < 2 ^ 32)
    (hf : prog.length ≤ m.ip + fuel) : run prog d (fuel + 1) m = run prog d fuel m := by
  induction fuel generalizing m with
  | zero =>
    have hnone : prog[m.ip]? = none := List.getElem?_eq_none (by omega)
    simp [run, hnone]
  | succ fuel ih =>
    rw [run]
    conv_rhs => rw [run]
    cases hi : prog[m.ip]? with
    | none => rfl
    | some inst =>
      have hlt := (List.getElem?_eq_some_iff.mp hi).1
      dsimp only
      cases he : exec inst d m with
      | error _ => rfl
      | ok m' =>
        have hmove := exec_ip (validateProgram_checkInst h hi) rfl (validateProgram_last h hi) hlt hlen he
        exact ih (by omega)

end PowerArm.Seccomp
