import PowerArm.Seccomp.Dispatch
import PowerArm.Seccomp.EmulatorLaws

/-!
# What a blocked syscall reaches

The action that `ExecuteFilterSlow` acts on is that of a filter no other ranks
below (`runFilters_action`). A handler runs for TRAP and USER_NOTIF as it does
for LOG and ALLOW (`actOn_handled`), so a blocked syscall stays without a handler
exactly when the filters settle on none of them and no remembered ALLOW answers
first (`run_handleSyscallImpl_closed_iff`).
-/

namespace PowerArm.Seccomp

/-! ## The action the filters settle on -/

def Filter.value (f : Filter) (data : SeccompData) : BitVec 32 := (execute f.program data).value

def RanksBelow (v w : BitVec 32) : Prop := (actionRank v).slt (actionRank w) = true

instance (v w : BitVec 32) : Decidable (RanksBelow v w) := by
  unfold RanksBelow
  infer_instance

/-- Some filter returns this action and no filter one of a lower rank. -/
def SettlesOn (filters : List Filter) (data : SeccompData) (action : BitVec 32) : Prop :=
  ∃ f ∈ filters, f.value data &&& retActionFull = action ∧ ∀ g ∈ filters, ¬RanksBelow (g.value data) (f.value data)

instance (filters : List Filter) (data : SeccompData) (action : BitVec 32) :
    Decidable (SettlesOn filters data action) := by
  unfold SettlesOn
  infer_instance

theorem ranksBelow_iff : RanksBelow v w ↔ (actionRank v).toInt < (actionRank w).toInt := by
  simp [RanksBelow, BitVec.slt_eq_decide]

theorem action_eq_of_rank_eq (h : actionRank v = actionRank w) : v &&& retActionFull = w &&& retActionFull := by
  have hlow : ∀ i < 16, retActionFull.getLsbD i = false := by decide
  ext i hi
  rw [← BitVec.getLsbD_eq_getElem, ← BitVec.getLsbD_eq_getElem]
  by_cases hlt : i < 16
  · simp [hlow i hlt]
  · have hbit := congrArg (fun x => x.getLsbD (i - 16)) h
    have hidx : 16 + (i - 16) = i := by omega
    simpa [actionRank, hidx, show i - 16 < 16 by omega] using hbit

theorem action_eq_of_not_below (h : ¬RanksBelow v w) (h' : ¬RanksBelow w v) :
    v &&& retActionFull = w &&& retActionFull := by
  rw [ranksBelow_iff] at h h'
  exact action_eq_of_rank_eq (BitVec.eq_of_toInt_eq (by omega))

theorem foldl_rankFilter (data : SeccompData) (fs : List Filter) (r : Ranked) :
    ∃ r', fs.foldl (rankFilter data) (some r) = some r' ∧
      (r'.value = r.value ∨ ∃ f ∈ fs, r'.value = f.value data) ∧ ¬RanksBelow r.value r'.value ∧
      ∀ f ∈ fs, ¬RanksBelow (f.value data) r'.value := by
  induction fs generalizing r with
  | nil => exact ⟨r, rfl, .inl rfl, by simp [ranksBelow_iff], by simp⟩
  | cons f fs ih =>
    rw [List.foldl_cons]
    by_cases hlt : RanksBelow (f.value data) r.value
    · have hstep : rankFilter data (some r) f = some ⟨f.value data, f.shouldLog⟩ := by exact if_pos hlt
      obtain ⟨r', hfold, hfrom, hle, hall⟩ := ih ⟨f.value data, f.shouldLog⟩
      rw [hstep]
      simp only [ranksBelow_iff] at hlt hle hall ⊢
      refine ⟨r', hfold, .inr ?_, by omega, ?_⟩
      · obtain hf | ⟨g, hg, hv⟩ := hfrom
        · exact ⟨f, .head _, hf⟩
        · exact ⟨g, .tail _ hg, hv⟩
      · rintro g (_ | ⟨_, hg⟩)
        · exact hle
        · exact hall g hg
    · have hstep : rankFilter data (some r) f = some r := by exact if_neg hlt
      obtain ⟨r', hfold, hfrom, hle, hall⟩ := ih r
      rw [hstep]
      simp only [ranksBelow_iff] at hlt hle hall ⊢
      refine ⟨r', hfold, ?_, hle, ?_⟩
      · obtain hr | ⟨g, hg, hv⟩ := hfrom
        · exact .inl hr
        · exact .inr ⟨g, .tail _ hg, hv⟩
      · rintro g (_ | ⟨_, hg⟩)
        · omega
        · exact hall g hg

theorem runFilters_spec (hne : filters ≠ []) (data : SeccompData) :
    ∃ f ∈ filters, (runFilters filters data).value = f.value data ∧
      ∀ g ∈ filters, ¬RanksBelow (g.value data) (f.value data) := by
  obtain ⟨f, fs, hrev⟩ := List.exists_cons_of_ne_nil (List.reverse_eq_nil_iff.not.mpr hne)
  obtain ⟨r', hfold, hfrom, hle, hall⟩ := foldl_rankFilter data fs ⟨f.value data, f.shouldLog⟩
  have hrun : runFilters filters data = r' := by
    have hfirst : rankFilter data none f = some ⟨f.value data, f.shouldLog⟩ := rfl
    rw [runFilters, hrev, List.foldl_cons, hfirst, hfold, Option.getD_some]
  have hmem (g : Filter) : g ∈ filters ↔ g = f ∨ g ∈ fs := by rw [← List.mem_reverse, hrev, List.mem_cons]
  have hmin (g : Filter) (hg : g ∈ filters) : ¬RanksBelow (g.value data) r'.value := by
    obtain rfl | hg := (hmem g).mp hg
    · exact hle
    · exact hall g hg
  rw [hrun]
  obtain hf | ⟨g, hg, hv⟩ := hfrom
  · have hv : r'.value = f.value data := hf
    exact ⟨f, (hmem f).mpr (.inl rfl), hv, fun g hg => hv ▸ hmin g hg⟩
  · exact ⟨g, (hmem g).mpr (.inr hg), hv, fun g' hg' => hv ▸ hmin g' hg'⟩

theorem runFilters_action (hne : filters ≠ []) (data : SeccompData) (action : BitVec 32) :
    (runFilters filters data).action = action ↔ SettlesOn filters data action := by
  obtain ⟨f, hf, hv, hmin⟩ := runFilters_spec hne data
  rw [Ranked.action, hv]
  refine ⟨fun ha => ⟨f, hf, ha, hmin⟩, ?_⟩
  rintro ⟨g, hg, rfl, hmin'⟩
  exact action_eq_of_not_below (hmin' f hf) (hmin g hg)

/-! ## Which actions run the handler -/

def Dispatcher.Handles (d : Dispatcher) (c : Syscall) : Prop :=
  c.nr ≠ d.hostFaultInjectSyscall ∧ ∃ e, d.definitions[c.nr.toNat]? = some e ∧ (e.args? c).isSome = true

def FallsThrough (action : BitVec 32) : Prop :=
  action = retTrap ∨ action = retUserNotif ∨ action = retLog ∨ action = retAllow

theorem invoke_handled (d : Dispatcher) (c : Syscall) (queued : Option Signal) :
    (d.invoke c queued).handler?.isSome ↔ ∃ e, d.definitions[c.nr.toNat]? = some e ∧ (e.args? c).isSome := by
  unfold Dispatcher.invoke
  cases d.definitions[c.nr.toNat]? with
  | none => simp [Outcome.handler?]
  | some e => cases he : e.args? c <;> simp [Outcome.handler?, he]

theorem actOn_handled (d : Dispatcher) (killSignal : Nat) (c : Syscall) (r : Ranked) :
    (d.dispatch c (actOn killSignal c r)).handler?.isSome ↔ FallsThrough r.action ∧
        ∃ e, d.definitions[c.nr.toNat]? = some e ∧ (e.args? c).isSome := by
  unfold actOn FallsThrough
  -- the log line does not matter to what follows
  generalize (if r.shouldLog ∧ r.action ≠ retAllow ∨ r.action = retLog then
    some (⟨logSignal killSignal r.action, c.nr, c.rip, r.value⟩ : AuditLog) else none) = log
  split_ifs with hthread htrap herrno htrace hpass
  · simp [Dispatcher.dispatch, hthread, Outcome.handler?, retKillThread, retTrap, retUserNotif, retLog, retAllow]
  · simp [Dispatcher.dispatch, htrap, invoke_handled]
  · simp [Dispatcher.dispatch, herrno, Outcome.handler?, retErrno, retTrap, retUserNotif, retLog, retAllow]
  · simp [Dispatcher.dispatch, htrace, Outcome.handler?, retTrace, retTrap, retUserNotif, retLog, retAllow]
  · simp [Dispatcher.dispatch, hpass, invoke_handled]
  · simp [Dispatcher.dispatch, hpass, htrap, Outcome.handler?]

/-! ## Fail closed -/

/-- The data the filters are run on: the PC is only there when the cache says
that some filter can load it. -/
def VerdictCache.presented (cache : VerdictCache) (c : Syscall) : SeccompData :=
  c.data (if cache.mode == .nrRIP || cache.needsRIP then c.rip else 0)

/-- What lets a syscall through: a remembered ALLOW, or filters that settle on
an action after which the attempt goes on. -/
def LetsThrough (filters : List Filter) (cache : VerdictCache) (c : Syscall) : Prop :=
  cache.hit c = true ∨ SettlesOn filters (cache.presented c) retTrap ∨
    SettlesOn filters (cache.presented c) retUserNotif ∨
    SettlesOn filters (cache.presented c) retLog ∨
    SettlesOn filters (cache.presented c) retAllow

theorem executeFilterOn_handled (hne : filters ≠ []) (d : Dispatcher) (killSignal : Nat)
    (generation : BitVec 64) (cache : VerdictCache) (c : Syscall) :
    (d.dispatch c (executeFilterOn killSignal generation filters cache c).1).handler?.isSome ↔
      LetsThrough filters (cache.revalidate generation filters) c ∧
        ∃ e, d.definitions[c.nr.toNat]? = some e ∧ (e.args? c).isSome := by
  simp only [executeFilterOn, hne, LetsThrough]
  set cache' := cache.revalidate generation filters
  cases hhit : cache'.hit c with
  | true => simp [Dispatcher.dispatch, invoke_handled]
  | false =>
    simp only [Bool.false_eq_true, ↓reduceIte, false_or, executeFilterSlow, actOn_handled,
      FallsThrough, runFilters_action hne]
    rfl

namespace Emulator

def FailsClosed (s : Emulator) (d : Dispatcher) (tid : Tid) (filters : List Filter) (c : Syscall) : Prop :=
  Blocked filters c → ∀ r ∈ s.handleSyscallImpl d tid c, r.1.handler? = none

theorem not_blocked_nil (c : Syscall) : ¬Blocked [] c := fun h => h.1 rfl

theorem handleSyscallImpl_closed_iff {s : Emulator} {t : Thread} (d : Dispatcher)
    (ht : s.thread? tid = some t) (hfs : s.resolve t.filters = some fs) (c : Syscall) :
    s.FailsClosed d tid fs c ↔ (d.Handles c → Blocked fs c →
        ¬LetsThrough fs (t.cache.revalidate s.filterGeneration fs) c) := by
  unfold FailsClosed
  by_cases hinject : c.nr = d.hostFaultInjectSyscall
  · simp [handleSyscallImpl, hinject, Dispatcher.Handles, Outcome.handler?]
  · by_cases hnil : fs = []
    · simp [hnil, not_blocked_nil]
    · have hfilters : t.filters ≠ [] := by
        rintro hempty
        simp only [hempty] at hfs
        exact hnil (Option.some.inj hfs).symm
      have hhandled := executeFilterOn_handled hnil d s.killSignal s.filterGeneration t.cache c
      have himpl : (s.handleSyscallImpl d tid c).map (·.1) =
          some (d.dispatch c (executeFilterOn s.killSignal s.filterGeneration fs t.cache c).1) := by
        simp [handleSyscallImpl, hinject, ht, hfilters, executeFilter_eq ht hfs c]
      obtain ⟨r, hr, hr1⟩ := Option.map_eq_some_iff.mp himpl
      rw [← hr1] at hhandled
      simp only [hr, Option.mem_some_iff, forall_eq', Dispatcher.Handles, hinject, not_false_eq_true,
        ne_eq, true_and]
      rw [← Option.not_isSome_iff_eq_none, hhandled]
      exact ⟨fun h he hb hl => h hb ⟨hl, he⟩, fun h hb ⟨hl, he⟩ => h he hb hl⟩

/-- In every state a run reaches, a syscall of a live thread fails closed exactly
when it has no handler, is not blocked, or nothing lets it through. -/
theorem run_handleSyscallImpl_closed_iff (d : Dispatcher) (ops : List Op)
    (ht : (run {} ops).thread? tid = some t) (c : Syscall) :
    ∃ fs, (run {} ops).resolve t.filters = some fs ∧ ((run {} ops).FailsClosed d tid fs c ↔
        (d.Handles c → Blocked fs c →
          ¬LetsThrough fs (t.cache.revalidate (run {} ops).filterGeneration fs) c)) := by
  obtain ⟨fs, hfs⟩ := (counted_run ops).resolve (thread?_mem ht).1
  exact ⟨fs, hfs, handleSyscallImpl_closed_iff d ht hfs c⟩

def table : Dispatcher := { definitions := List.replicate 200 ⟨7, 0⟩ }

theorem run_handleSyscallImpl_closed_iff_getpid : ∃ fs, (run {} denyRun).resolve [0] = some fs ∧
      ((run {} denyRun).FailsClosed table 1 fs getpidCall ↔ (table.Handles getpidCall → Blocked fs getpidCall →
          ¬LetsThrough fs (VerdictCache.revalidate {} (run {} denyRun).filterGeneration fs) getpidCall)) :=
  run_handleSyscallImpl_closed_iff (t := ⟨1, modeFilter, [0], {}⟩) table denyRun rfl getpidCall

def returnRun (value : BitVec 32) : List Op := [.spawn none 1, .setModeFilter 1 0 (some [⟨0x06, 0, 0, value⟩]) true]

/-- A filter that returns TRAP, or USER_NOTIF, for every syscall does not keep
`getpid` from its handler. -/
theorem run_handleSyscallImpl_open :
    (∃ fs, (run {} (returnRun retTrap)).resolve [0] = some fs ∧ Blocked fs getpidCall ∧
      ((run {} (returnRun retTrap)).handleSyscallImpl table 1 getpidCall).map (·.1) =
        some (.invoked 7 [] (some (.trap 0 0x400000 172)))) ∧
    ∃ fs, (run {} (returnRun retUserNotif)).resolve [0] = some fs ∧ Blocked fs getpidCall ∧
      ((run {} (returnRun retUserNotif)).handleSyscallImpl table 1 getpidCall).map (·.1) =
        some (.invoked 7 [] none) :=
  ⟨⟨[⟨[⟨0x06, 0, 0, retTrap⟩], false, by decide⟩], by decide, by decide, by decide⟩,
    ⟨[⟨[⟨0x06, 0, 0, retUserNotif⟩], false, by decide⟩], by decide, by decide, by decide⟩⟩

end Emulator

end PowerArm.Seccomp
