import PowerArm.Seccomp.EmulatorLaws

/-!
# Exact reference counts

`Counted` keeps every held filter alive: its count is at least the number of
positions that hold it. `Tight` is the other half: no count is above that number
and none is zero. A TSYNC over threads that hold filters breaks it, since the
references of the replaced lists stay; without one the counts are exact in every
state of every run (`refCount_exact`).
-/

namespace PowerArm.Seccomp.Emulator

open PowerArm.Lib

structure Tight (s : Emulator) : Prop where
  le : ∀ f ∈ s.filters, f.refCount ≤ s.held f.id
  pos : ∀ f ∈ s.filters, 0 < f.refCount

section
variable {s s' : Emulator} {t caller : Thread}

theorem tight_init : Tight {} := ⟨by simp, by simp⟩

theorem Tight.of_held_ge (h : Tight s) (hfilters : s'.filters = s.filters)
    (hge : ∀ i, s.held i ≤ s'.held i) : Tight s' := by
  constructor
  · intro f hf
    rw [hfilters] at hf
    exact (h.le f hf).trans (hge f.id)
  · rw [hfilters]
    exact h.pos

/-! ## Changing one thread -/

theorem held_le_modifyThread (hg : ∀ t, t.filters.count i ≤ (g t).filters.count i) :
    s.held i ≤ (s.modifyThread tid g).held i := by
  simp only [held, modifyThread, List.map_map]
  refine List.sum_le_sum fun t _ => ?_
  dsimp only [Function.comp]
  split
  · exact hg t
  · exact Nat.le_refl _

theorem Tight.modifyThread (h : Tight s) (hg : ∀ t, (g t).filters = t.filters) : Tight (s.modifyThread tid g) :=
  h.of_held_ge rfl fun i => held_le_modifyThread fun t => Nat.le_of_eq (by rw [hg t])

theorem Tight.setMode (h : Tight s) : Tight (s.setMode tid mode) := h.modifyThread fun _ => rfl

theorem Tight.bumpGeneration (h : Tight s) : Tight s.bumpGeneration := ⟨h.le, h.pos⟩

theorem Tight.addFilter (h : Tight s) (ht : t ∈ s.threads) (htid : t.tid = tid) : Tight (s.addFilter tid f) := by
  have hmono : ∀ i, s.held i ≤ (s.addFilter tid f).held i := by
    intro i
    refine held_le_modifyThread fun t => ?_
    simp
  have hnew : 0 < (s.addFilter tid f).held s.nextId := by
    refine held_pos (t := { t with filters := t.filters ++ [s.nextId] }) ?_ (by simp)
    exact List.mem_map.mpr ⟨t, ht, if_pos htid⟩
  constructor
  · intro g hg
    rcases List.mem_append.mp hg with hold | hlast
    · exact (h.le g hold).trans (hmono g.id)
    · obtain rfl := List.mem_singleton.mp hlast
      exact hnew
  · intro g hg
    rcases List.mem_append.mp hg with hold | hlast
    · exact h.pos g hold
    · obtain rfl := List.mem_singleton.mp hlast
      exact Nat.one_pos

theorem mem_threads_addFilter (ht : ∃ t ∈ s.threads, t.tid = tid) :
    ∃ t ∈ (s.addFilter tid f).threads, t.tid = tid := by
  obtain ⟨t, ht, htid⟩ := ht
  exact ⟨_, List.mem_map.mpr ⟨t, ht, if_pos htid⟩, htid⟩

theorem Tight.addFilter_foldl (h : Tight s) (ht : ∃ t ∈ s.threads, t.tid = tid)
    (fs : List Filter) : Tight (fs.foldl (fun s f => s.addFilter tid f) s) := by
  induction fs generalizing s with
  | nil => exact h
  | cons f fs ih =>
    obtain ⟨t, hmem, htid⟩ := ht
    exact ih (h.addFilter hmem htid) (mem_threads_addFilter ⟨t, hmem, htid⟩)

/-! ## Sharing filters between threads -/

theorem Tight.spawn (h : Tight s) : Tight (s.spawn parent child) := by
  unfold Emulator.spawn
  split
  · exact h
  · cases parent.bind s.thread? with
    | none => exact h.of_held_ge rfl fun i => by simp [held]
    | some p =>
      constructor
      · intro f hf
        obtain ⟨g, hg, rfl⟩ := List.mem_map.mp hf
        have := h.le g hg
        simpa [held, Emulator.addRefs] using this
      · intro f hf
        obtain ⟨g, hg, rfl⟩ := List.mem_map.mp hf
        exact Nat.add_pos_left (h.pos g hg) _

theorem addRefs_foldl_filters (ids : List FilterId) (others : List α) (s : Emulator) :
    (others.foldl (fun s _ => s.addRefs ids) s).filters =
      s.filters.map fun f => { f with refCount := f.refCount + others.length * ids.count f.id } := by
  induction others generalizing s with
  | nil => simp
  | cons o others ih =>
    rw [List.foldl_cons, ih]
    simp [addRefs, Nat.succ_mul, Nat.add_assoc, Nat.add_comm]

theorem tsyncFilters_filters (s : Emulator) (caller : Thread) :
    (s.tsyncFilters caller).filters = s.filters.map fun f => { f with
      refCount := f.refCount + (s.threads.filter (·.tid ≠ caller.tid)).length * caller.filters.count f.id } :=
  addRefs_foldl_filters ..

def HeldOnlyBy (s : Emulator) (tid : Tid) : Prop := ∀ t ∈ s.threads, t.tid ≠ tid → t.filters = []

theorem Counted.held_le_of_only (h : Counted s) (hc : caller ∈ s.threads)
    (honly : s.HeldOnlyBy caller.tid) (i : FilterId) : s.held i ≤ caller.filters.count i := by
  have htids := h.tids
  unfold held
  unfold HeldOnlyBy at honly
  generalize s.threads = ts at hc honly htids
  induction ts with
  | nil => cases hc
  | cons u ts ih =>
    rw [List.map_cons, List.nodup_cons] at htids
    rw [List.map_cons, List.sum_cons]
    have hrest : ∀ t ∈ ts, t.tid ≠ caller.tid → t.filters = [] := fun t ht => honly t (List.mem_cons_of_mem _ ht)
    rcases List.mem_cons.mp hc with rfl | hmem
    · have hzero : (ts.map (·.filters.count i)).sum = 0 := by
        refine List.sum_eq_zero fun n hn => ?_
        obtain ⟨t, ht, rfl⟩ := List.mem_map.mp hn
        have hne : t.tid ≠ caller.tid := fun he => htids.1 (List.mem_map.mpr ⟨t, ht, he⟩)
        rw [hrest t ht hne, List.count_nil]
      omega
    · have hne : u.tid ≠ caller.tid := fun he => htids.1 (List.mem_map.mpr ⟨caller, hmem, he.symm⟩)
      rw [honly u (List.mem_cons_self ..) hne, List.count_nil, Nat.zero_add]
      exact ih hmem hrest htids.2

theorem length_others_lt (hc : caller ∈ s.threads) :
    (s.threads.filter (·.tid ≠ caller.tid)).length < s.threads.length := by
  refine List.length_filter_lt_length_iff_exists.mpr ⟨caller, hc, ?_⟩
  simp

theorem Tight.tsyncFilters (h : Tight s) (hcounted : Counted s) (hc : caller ∈ s.threads)
    (honly : s.HeldOnlyBy caller.tid) : Tight (s.tsyncFilters caller) := by
  have hfilters := tsyncFilters_filters s caller
  constructor
  · intro f hf
    rw [hfilters] at hf
    obtain ⟨g, hg, rfl⟩ := List.mem_map.mp hf
    rw [hcounted.held_tsyncFilters hc]
    have hown : g.refCount ≤ caller.filters.count g.id := (h.le g hg).trans (hcounted.held_le_of_only hc honly g.id)
    calc g.refCount + (s.threads.filter (·.tid ≠ caller.tid)).length * caller.filters.count g.id
        ≤ ((s.threads.filter (·.tid ≠ caller.tid)).length + 1) * caller.filters.count g.id := by
          rw [Nat.succ_mul, Nat.add_comm]
          exact Nat.add_le_add_left hown _
      _ ≤ s.threads.length * caller.filters.count g.id := Nat.mul_le_mul_right _ (length_others_lt hc)
  · intro f hf
    rw [hfilters] at hf
    obtain ⟨g, hg, rfl⟩ := List.mem_map.mp hf
    exact Nat.add_pos_left (h.pos g hg) _

/-! ## Thread exit -/

theorem held_le_exit (htids : (s.threads.map (·.tid)).Nodup) (hx : s.thread? tid = some t)
    (i : FilterId) : s.held i ≤ (s.exit tid).held i + t.filters.count i := by
  obtain ⟨ht, rfl⟩ := thread?_mem hx
  simp only [held, exit, hx]
  generalize s.threads = ts at ht htids
  induction ts with
  | nil => cases ht
  | cons u ts ih =>
    rw [List.map_cons, List.nodup_cons] at htids
    rw [List.map_cons, List.sum_cons]
    rcases List.mem_cons.mp ht with rfl | hrest
    · have hall : ts.filter (·.tid ≠ t.tid) = ts := by
        refine List.filter_eq_self.mpr fun u hu => ?_
        have hne : u.tid ≠ t.tid := fun he => htids.1 (List.mem_map.mpr ⟨u, hu, he⟩)
        simpa using hne
      rw [List.filter_cons_of_neg (by simp), hall]
      omega
    · have hne : u.tid ≠ t.tid := fun he => htids.1 (List.mem_map.mpr ⟨t, hrest, he.symm⟩)
      rw [List.filter_cons_of_pos (by simpa using hne), List.map_cons, List.sum_cons]
      have := ih hrest htids.2
      omega

theorem dropRef_foldl_pos (refs : List FilterId) (acc : List FilterInfo × Bool)
    (hpos : ∀ f ∈ acc.1, 0 < f.refCount) (hflag : (refs.foldl dropRef acc).2 = false) :
    ∀ f ∈ (refs.foldl dropRef acc).1, 0 < f.refCount := by
  induction refs generalizing acc with
  | nil => exact hpos
  | cons r refs ih =>
    refine ih (dropRef acc r) ?_ hflag
    have hkept : (dropRef acc r).2 = false := by
      by_contra hset
      have hstay : ∀ (refs : List FilterId) (acc : List FilterInfo × Bool), acc.2 → (refs.foldl dropRef acc).2 := by
        intro refs
        induction refs with
        | nil => exact fun _ h => h
        | cons r refs ih => exact fun acc h => ih _ (by simp [dropRef, h])
      have := hstay refs (dropRef acc r) (by simpa using hset)
      simp [this] at hflag
    simp only [dropRef, Bool.or_eq_false_iff, List.any_eq_false, decide_eq_true_eq] at hkept
    intro f hf
    obtain ⟨g, hg, rfl⟩ := List.mem_map.mp hf
    have hgpos := hpos g hg
    split
    · rename_i hid
      have hone : g.refCount ≠ 1 := fun h1 => hkept.2 g hg ⟨hid, h1⟩
      dsimp only
      omega
    · exact hgpos

theorem Tight.exit (h : Tight s) (hcounted : Counted s) : Tight (s.exit tid) := by
  cases hx : s.thread? tid with
  | none => exact (exit_none hx).symm ▸ h
  | some t =>
    constructor
    · intro f hf
      obtain ⟨g, hg, rfl⟩ := List.mem_map.mp ((exit_filters_sublist hx).subset hf)
      have hheld := held_le_exit hcounted.tids hx g.id
      have hle := h.le g hg
      dsimp only
      omega
    · intro f hf
      simp only [Emulator.exit, hx] at hf
      split at hf
      · have := (List.mem_filter.mp hf).2
        exact Nat.pos_of_ne_zero (by simpa using this)
      · rename_i hflag
        exact dropRef_foldl_pos t.filters (s.filters, false) h.pos (by simpa using hflag) f hf

/-! ## Runs -/

theorem heldOnlyBy_install (h : s.HeldOnlyBy tid) : ((s.addFilter tid f).setMode tid mode).HeldOnlyBy tid := by
  intro t ht hne
  obtain ⟨u, hu, rfl⟩ := mem_modifyThread ht
  obtain ⟨v, hv, rfl⟩ := mem_modifyThread hu
  have hv' : v.tid ≠ tid := by
    intro he
    simp [he] at hne
  simpa [hv'] using h v hv hv'

theorem Tight.install (h : Tight s) (hcounted : Counted s) (ht : s.thread? tid = some t)
    (honly : flags &&& flagTsync ≠ 0 → s.HeldOnlyBy tid) : Tight (s.install tid flags f) := by
  obtain ⟨hmem, htid⟩ := thread?_mem ht
  have hadded : Tight ((s.addFilter tid f).setMode tid modeFilter) := (h.addFilter hmem htid).setMode
  have hcadded : Counted ((s.addFilter tid f).setMode tid modeFilter) := hcounted.addFilter.setMode
  refine install_induction hadded (fun caller htsync hc => ?_) fun _ h => h.bumpGeneration
  obtain ⟨hcaller, hctid⟩ := thread?_mem hc
  have honly' : ((s.addFilter tid f).setMode tid modeFilter).HeldOnlyBy caller.tid := by
    rw [hctid]
    exact heldOnlyBy_install (honly htsync)
  exact hadded.tsyncFilters hcadded hcaller honly'

theorem Tight.setModeFilter (h : Tight s) (hcounted : Counted s)
    (honly : flags &&& flagTsync ≠ 0 → s.HeldOnlyBy tid) : Tight (s.setModeFilter tid flags prog noNewPrivs).2 := by
  cases ht : s.thread? tid with
  | none => simpa only [Emulator.setModeFilter, ht] using h
  | some t =>
    rcases setModeFilter_cases s tid flags prog noNewPrivs with heq | ⟨f, heq⟩
    · rwa [heq]
    · rw [heq]
      exact h.install hcounted ht honly

/-- A TSYNC replaces empty lists only; filters are handed over to a live thread. -/
def Balanced (s : Emulator) : Op → Prop
  | .setModeFilter tid flags _ _ => flags &&& flagTsync ≠ 0 → s.HeldOnlyBy tid
  | .deserialize tid _ => ∃ t ∈ s.threads, t.tid = tid
  | _ => True

theorem Tight.step (h : Tight s) (hcounted : Counted s) (hop : s.Balanced op) : Tight (s.step op) := by
  cases op with
  | setModeFilter tid flags prog nnp => exact h.setModeFilter hcounted hop
  | setModeStrict tid flags argNull nnp =>
    have hkill : Tight { s with killSignal := sigKill } := ⟨h.le, h.pos⟩
    have hckill : Counted { s with killSignal := sigKill } :=
      ⟨hcounted.ids, hcounted.fresh, hcounted.tids, hcounted.backed⟩
    simp only [Emulator.step, Emulator.setModeStrict]
    repeat' split
    all_goals first
      | exact h
      | exact (hkill.setModeFilter hckill fun hne => absurd rfl hne).setMode
  | spawn parent child => exact h.spawn
  | deserialize tid image =>
    simp only [Emulator.step, deserializeFilters]
    split
    · exact h
    · split
      · exact (h.addFilter_foldl hop _).setMode.bumpGeneration
      · exact h.addFilter_foldl hop _
  | exit tid => exact h.exit hcounted
  | syscall tid c =>
    simp only [Emulator.step, executeFilter]
    cases s.thread? tid with
    | none => exact h
    | some t =>
      cases hfs : s.resolve t.filters with
      | none => simpa [hfs] using h
      | some fs =>
        simp only [hfs, Option.bind_eq_bind, Option.bind_some]
        exact h.modifyThread fun _ => rfl

theorem Counted.refCount_eq (h : Counted s) (htight : Tight s) (hf : f ∈ s.filters) : f.refCount = s.held f.id := by
  have hpos : 0 < s.held f.id := (htight.pos f hf).trans_le (htight.le f hf)
  obtain ⟨g, hg, hid, hle⟩ := h.backed f.id hpos
  obtain rfl := List.inj_on_of_nodup_map h.ids hg hf hid
  exact Nat.le_antisymm (htight.le _ hf) hle

theorem Counted.mem_filters_iff (h : Counted s) (htight : Tight s) : i ∈ s.filters.map (·.id) ↔ 0 < s.held i := by
  constructor
  · intro hi
    obtain ⟨f, hf, rfl⟩ := List.mem_map.mp hi
    exact (htight.pos f hf).trans_le (htight.le f hf)
  · intro hpos
    obtain ⟨f, hf, rfl, -⟩ := h.backed i hpos
    exact List.mem_map.mpr ⟨f, hf, rfl⟩

/-- In every state of a run without a TSYNC over held filters, each count is the
number of list positions that hold the filter, the filters that exist are those
held at all, and every filter of a thread is there. -/
theorem refCount_exact (hrun : Admissible step Balanced {} ops) :
    (∀ f ∈ (run {} ops).filters, f.refCount = (run {} ops).held f.id) ∧
      (∀ i, i ∈ (run {} ops).filters.map (·.id) ↔ 0 < (run {} ops).held i) ∧
      ∀ t ∈ (run {} ops).threads, ∀ i ∈ t.filters, ∃ f ∈ (run {} ops).filters, f.id = i := by
  have hinv : Counted (run {} ops) ∧ Tight (run {} ops) := by
    have hstep : ∀ s op, Counted s ∧ Tight s → s.Balanced op → Counted (s.step op) ∧ Tight (s.step op) := by
      rintro s op ⟨hcounted, htight⟩ hop
      exact ⟨hcounted.step op, htight.step hcounted hop⟩
    exact foldl_invariant hstep ⟨inv_init.counted, tight_init⟩ hrun
  obtain ⟨hcounted, htight⟩ := hinv
  refine ⟨fun f hf => hcounted.refCount_eq htight hf, fun i => hcounted.mem_filters_iff htight, fun t ht i hi => ?_⟩
  obtain ⟨f, hf, hid, -⟩ := hcounted.backed i (held_pos ht hi)
  exact ⟨f, hf, hid⟩

end

def shareRun : List Op :=
  [.spawn none 1, .spawn none 2, .setModeFilter 1 flagTsync (some allowAll) true, .spawn (some 2) 3, .exit 1]

theorem refCount_exact_share : (∀ f ∈ (run {} shareRun).filters, f.refCount = (run {} shareRun).held f.id) ∧
      (∀ i, i ∈ (run {} shareRun).filters.map (·.id) ↔ 0 < (run {} shareRun).held i) ∧
      ∀ t ∈ (run {} shareRun).threads, ∀ i ∈ t.filters, ∃ f ∈ (run {} shareRun).filters, f.id = i :=
  refCount_exact ⟨trivial, trivial, fun _ => by unfold HeldOnlyBy; decide, trivial, trivial, trivial⟩

/-- Thread 2 inherits the first filter and gets it once more with the second. -/
def tsyncRun : List Op :=
  [.spawn none 1, .setModeFilter 1 0 (some allowAll) true, .spawn (some 1) 2,
    .setModeFilter 1 flagTsync (some allowAll) true]

/-- The first filter has three references for two holders, and outlives both. -/
theorem tsyncRun_leaks : (run {} tsyncRun).filters.map (fun f => (f.id, f.refCount, (run {} tsyncRun).held f.id)) =
        [(0, 3, 2), (1, 2, 2)] ∧
      (run {} (tsyncRun ++ [.exit 1, .exit 2])).threads.length = 0 ∧
      (run {} (tsyncRun ++ [.exit 1, .exit 2])).filters.map (·.id) = [0] := by
  decide

end PowerArm.Seccomp.Emulator
