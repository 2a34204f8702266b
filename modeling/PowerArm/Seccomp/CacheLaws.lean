import PowerArm.Seccomp.BpfLaws
import PowerArm.Seccomp.Emulator

/-!
# The verdict cache against its filters

The load analysis covers what a filter can read (`Filter.execute_congr`), so a
cache whose hits are all ALLOW verdicts keeps that property when it remembers
another one (`Sound.allow`). With such a cache `ExecuteFilter` gives the verdict
of running every filter (`executeFilterOn_eq`), for any syscall but the one whose
key an empty entry of the PC table matches.
-/

namespace PowerArm.Seccomp

/-! ## Load analysis -/

theorem analyzeFilterLoads_mono (prog : List SockFilter) (ip args : Bool) :
    (ip → (analyzeFilterLoads prog ip args).1) ∧ (args → (analyzeFilterLoads prog ip args).2) := by
  induction prog generalizing ip args with
  | nil => exact ⟨id, id⟩
  | cons inst rest ih =>
    unfold analyzeFilterLoads
    split
    · exact ih ip args
    · split
      · exact ih ip args
      · exact ih ip args
      · exact ih ip args
      · split
        · exact ⟨(ih ip true).1, fun _ => (ih ip true).2 rfl⟩
        · split
          · exact ⟨fun _ => (ih true args).1 rfl, (ih true args).2⟩
          · exact ih ip args
      · exact ⟨fun _ => rfl, fun _ => rfl⟩

theorem analyzeFilterLoads_covers (h : inst ∈ prog) (hc : inst.cls = .ld ∨ inst.cls = .ldx)
    (hm : inst.mode = .abs) (ip args : Bool) :
    (argsOffset ≤ inst.k.toNat → (analyzeFilterLoads prog ip args).2) ∧
      (ipOffset ≤ inst.k.toNat → inst.k.toNat < argsOffset → (analyzeFilterLoads prog ip args).1) := by
  induction prog generalizing ip args with
  | nil => cases h
  | cons first rest ih =>
    unfold analyzeFilterLoads
    rcases List.mem_cons.mp h with rfl | hrest
    · have hload : ¬(inst.cls ≠ .ld ∧ inst.cls ≠ .ldx) := by tauto
      rw [if_neg hload, hm]
      refine ⟨fun ha => ?_, fun hi ha => ?_⟩
      · rw [if_pos ha]
        exact (analyzeFilterLoads_mono rest ip true).2 rfl
      · rw [if_neg (Nat.not_le.mpr ha), if_pos hi]
        exact (analyzeFilterLoads_mono rest true args).1 rfl
    · split
      · exact ih hrest ip args
      · split
        · exact ih hrest ip args
        · exact ih hrest ip args
        · exact ih hrest ip args
        · split
          · exact ih hrest ip true
          · split
            · exact ih hrest true args
            · exact ih hrest ip args
        · exact ⟨fun _ => rfl, fun _ _ => rfl⟩

/-- Two data a filter cannot tell apart, as far as the analysis knows. -/
structure SameFor (readsIP readsArgs : Bool) (d d' : SeccompData) : Prop where
  nr : d.nr = d'.nr
  arch : d.arch = d'.arch
  ip : readsIP = true → d.instructionPointer = d'.instructionPointer
  args : readsArgs = true → d.args = d'.args

theorem Filter.execute_congr {f : Filter} (h : SameFor f.readsIP f.readsArgs d d') :
    execute f.program d = execute f.program d' := by
  refine Seccomp.execute_congr fun inst hi hc hm => ?_
  obtain ⟨hA, hI⟩ := analyzeFilterLoads_covers hi hc hm false false
  unfold SeccompData.load
  split
  · rfl
  · split
    · rw [h.nr]
    · split
      · rw [h.arch]
      · split
        · rename_i hword h0 h4 hlt
          rw [h.ip (hI (by unfold ipOffset; omega) hlt)]
        · rename_i hge
          rw [h.args (hA (Nat.le_of_not_lt hge))]

theorem runFilters_congr (h : SameFor (filters.any (·.readsIP)) (filters.any (·.readsArgs)) d d') :
    runFilters filters d = runFilters filters d' := by
  have hrank : ∀ acc f, f ∈ filters.reverse → rankFilter d acc f = rankFilter d' acc f := by
    intro acc f hf
    have hmem := List.mem_reverse.mp hf
    have hf : SameFor f.readsIP f.readsArgs d d' :=
      ⟨h.nr, h.arch, fun hr => h.ip (List.any_eq_true.mpr ⟨f, hmem, hr⟩),
        fun hr => h.args (List.any_eq_true.mpr ⟨f, hmem, hr⟩)⟩
    unfold rankFilter
    rw [Filter.execute_congr hf]
  unfold runFilters
  rw [List.foldl_ext _ _ _ hrank]

/-! ## Sound caches -/

def Syscall.MatchesEmpty (c : Syscall) : Prop := c.nr + 1 = 0 ∧ c.rip = 0

instance (c : Syscall) : Decidable c.MatchesEmpty := by
  unfold Syscall.MatchesEmpty
  infer_instance

def Allowed (filters : List Filter) (c : Syscall) : Prop := (runFilters filters (c.data c.rip)).action = retAllow

structure Sound (filters : List Filter) (cache : VerdictCache) : Prop where
  mode : cache.mode = cacheModeOf filters
  needsRIP : cache.needsRIP = filters.any (·.readsIP)
  hit : ∀ c : Syscall, ¬c.MatchesEmpty → cache.hit c = true → Allowed filters c

theorem cacheModeOf_nrOnly (h : cacheModeOf filters = .nrOnly) :
    filters.any (·.readsArgs) = false ∧ filters.any (·.readsIP) = false := by
  unfold cacheModeOf at h
  split at h
  · cases h
  · split at h
    · cases h
    · simp_all

theorem cacheModeOf_nrRIP (h : cacheModeOf filters = .nrRIP) :
    filters.any (·.readsArgs) = false ∧ filters.any (·.readsIP) := by
  unfold cacheModeOf at h
  split at h
  · cases h
  · split at h
    · simp_all
    · cases h

theorem sound_empty (generation : BitVec 64) (filters : List Filter) : Sound filters
      { generation, mode := cacheModeOf filters, needsRIP := filters.any (·.readsIP) } := by
  refine ⟨rfl, rfl, fun c hc hit => absurd ?_ hc⟩
  unfold VerdictCache.hit at hit
  split at hit
  · cases hit
  · simp at hit
  · simp only [Bool.and_eq_true, beq_iff_eq] at hit
    exact ⟨hit.2.symm, hit.1.symm⟩

theorem runFilters_rip (h : Sound filters cache) (c : Syscall) :
    runFilters filters (c.data (if cache.mode == .nrRIP || cache.needsRIP then c.rip else 0)) =
      runFilters filters (c.data c.rip) := by
  refine runFilters_congr ⟨rfl, rfl, fun hip => ?_, fun _ => rfl⟩
  simp [h.needsRIP, hip]

/-- Remembering an ALLOW keeps every hit an ALLOW: a new hit has the key just
remembered, and the key covers what the filters read. -/
theorem Sound.allow (h : Sound filters cache) (hc : Allowed filters c) : Sound filters (cache.allow c) := by
  cases hm : cache.mode with
  | none => simpa only [VerdictCache.allow, hm] using h
  | nrOnly =>
    simp only [VerdictCache.allow, hm]
    split
    · refine ⟨hm ▸ h.mode, h.needsRIP, fun c' hne hit => ?_⟩
      by_cases hnr : c'.nr = c.nr
      · obtain ⟨hargs, hip⟩ := cacheModeOf_nrOnly (h.mode ▸ hm)
        have hsame : runFilters filters (c'.data c'.rip) = runFilters filters (c.data c.rip) :=
          runFilters_congr ⟨by simp [Syscall.data, hnr], rfl, by simp [hip], by simp [hargs]⟩
        rw [Allowed, hsame]
        exact hc
      · refine h.hit c' hne ?_
        have hnat : c'.nr.toNat ≠ c.nr.toNat := fun he => hnr (BitVec.eq_of_toNat_eq he)
        simpa [VerdictCache.hit, hm, hnat] using hit
    · exact h
  | nrRIP =>
    simp only [VerdictCache.allow, hm]
    refine ⟨hm ▸ h.mode, h.needsRIP, fun c' hne hit => ?_⟩
    by_cases hkey : c'.rip = c.rip ∧ c'.nr = c.nr
    · obtain ⟨hargs, hip⟩ := cacheModeOf_nrRIP (h.mode ▸ hm)
      have hsame : runFilters filters (c'.data c'.rip) = runFilters filters (c.data c.rip) :=
        runFilters_congr ⟨by simp [Syscall.data, hkey.2], rfl, fun _ => hkey.1, by simp [hargs]⟩
      rw [Allowed, hsame]
      exact hc
    · refine h.hit c' hne ?_
      simp only [VerdictCache.hit, hm] at hit ⊢
      by_cases hway : ripWay c'.rip c'.nr = ripWay c.rip c.nr
      · rw [hway, Function.update_self] at hit
        simp only [Bool.and_eq_true, beq_iff_eq, BitVec.add_left_inj] at hit
        exact absurd ⟨hit.1.symm, hit.2.symm⟩ hkey
      · rwa [Function.update_of_ne hway] at hit

theorem actOn_allow (h : r.action = retAllow) : actOn killSignal c r = {} := by
  unfold actOn
  rw [h]
  simp [retAllow, retLog, retKillThread, retTrap, retErrno, retTrace]

def Valid (generation : BitVec 64) (filters : List Filter) (cache : VerdictCache) : Prop :=
  cache.generation = generation → Sound filters cache

theorem revalidate_sound (h : Valid generation filters cache) :
    Sound filters (cache.revalidate generation filters) ∧
      (cache.revalidate generation filters).generation = generation := by
  unfold VerdictCache.revalidate
  split
  · rename_i hg
    exact ⟨h hg, hg⟩
  · exact ⟨sound_empty generation filters, rfl⟩

theorem executeFilterSlow_eq (h : Sound filters cache) (c : Syscall) :
    executeFilterSlow killSignal filters cache c = (actOn killSignal c (runFilters filters (c.data c.rip)),
        if (runFilters filters (c.data c.rip)).action = retAllow then cache.allow c else cache) := by
  simp only [executeFilterSlow, runFilters_rip h c]

theorem executeFilterOn_eq (h : Valid generation filters cache) (hc : ¬c.MatchesEmpty) :
    (executeFilterOn killSignal generation filters cache c).1 = uncachedVerdict killSignal filters c := by
  obtain ⟨hs, -⟩ := revalidate_sound h
  unfold executeFilterOn uncachedVerdict
  split
  · rfl
  · dsimp only
    split
    · rename_i hhit
      exact (actOn_allow (hs.hit c hc hhit)).symm
    · rw [executeFilterSlow_eq hs]

theorem executeFilterOn_valid (h : Valid generation filters cache) :
    Valid generation filters (executeFilterOn killSignal generation filters cache c).2 := by
  obtain ⟨hs, -⟩ := revalidate_sound h
  unfold executeFilterOn
  split
  · exact h
  · dsimp only
    split
    · exact fun _ => hs
    · rw [executeFilterSlow_eq hs]
      split
      · rename_i hallow
        exact fun _ => hs.allow hallow
      · exact fun _ => hs

theorem VerdictCache.allow_generation (cache : VerdictCache) (c : Syscall) :
    (cache.allow c).generation = cache.generation := by
  unfold VerdictCache.allow
  split
  · rfl
  · split <;> rfl
  · rfl

theorem executeFilterOn_generation (killSignal : Nat) (c : Syscall) (h : Valid generation filters cache) :
    (executeFilterOn killSignal generation filters cache c).2.generation = cache.generation ∨
      (executeFilterOn killSignal generation filters cache c).2.generation = generation := by
  obtain ⟨hs, hg⟩ := revalidate_sound h
  unfold executeFilterOn
  split
  · exact .inl rfl
  · right
    dsimp only
    split
    · exact hg
    · rw [executeFilterSlow_eq hs]
      split
      · rw [VerdictCache.allow_generation, hg]
      · exact hg

end PowerArm.Seccomp
