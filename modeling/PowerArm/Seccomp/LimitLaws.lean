import PowerArm.Seccomp.BpfSafety
import PowerArm.Seccomp.EmulatorLaws

/-!
# The limit on a filter chain

The kernel bounds the instructions on the path of one thread: its filters, each
with a penalty, and the new one. `SetModeFilter` keeps one running total of all
filters ever installed instead. The total stays below the limit and above what
any thread holds (`Bounded`), so the two tests differ exactly by the instructions
of filters the caller does not hold (`setModeFilter_enomem_iff`).
-/

namespace PowerArm.Seccomp.Emulator

open PowerArm.Lib

def lengthOf (s : Emulator) (i : FilterId) : Nat := ((s.filter? i).map (·.program.length)).getD 0

def instructionsOf (s : Emulator) (ids : List FilterId) : Nat := (ids.map s.lengthOf).sum

def chainLength (s : Emulator) (t : Thread) : Nat := (t.filters.map fun i => s.lengthOf i + multiFilterPenalty).sum

def foreignInstructions (s : Emulator) (t : Thread) : Nat :=
  s.totalFilterInstructions.toNat - s.instructionsOf t.filters

/-- The total covers what each thread holds and is within the limit; TIDs are 32 bits. -/
structure Bounded (s : Emulator) : Prop where
  counted : Counted s
  own : ∀ t ∈ s.threads, s.instructionsOf t.filters ≤ s.totalFilterInstructions.toNat
  total : s.totalFilterInstructions.toNat ≤ maxInsnsPerPath
  tids : ∀ t ∈ s.threads, t.tid < 2 ^ 32

section
variable {s s' : Emulator} {t caller : Thread}

theorem bounded_init : Bounded {} := by
  refine ⟨inv_init.counted, ?_, ?_, ?_⟩
  all_goals simp

theorem chainLength_eq (s : Emulator) (t : Thread) :
    s.chainLength t = s.instructionsOf t.filters + t.filters.length * multiFilterPenalty := by
  unfold chainLength instructionsOf
  induction t.filters with
  | nil => rfl
  | cons i ids ih =>
    simp only [List.map_cons, List.sum_cons, List.length_cons, Nat.succ_mul]
    omega

theorem instructionsOf_congr (h : ∀ i ∈ ids, s'.filter? i = s.filter? i) :
    s'.instructionsOf ids = s.instructionsOf ids := by
  refine congrArg List.sum (List.map_congr_left fun i hi => ?_)
  rw [lengthOf, lengthOf, h i hi]

theorem Counted.lengthOf_pos (h : Counted s) (ht : t ∈ s.threads) (hi : i ∈ t.filters) : 0 < s.lengthOf i := by
  obtain ⟨f, hf, rfl, -⟩ := h.backed i (held_pos ht hi)
  rw [lengthOf, filter?_of_mem h.ids hf]
  exact validateProgram_ne_nil f.filter.accepted

theorem Counted.length_le_instructions (h : Counted s) (ht : t ∈ s.threads) :
    t.filters.length ≤ s.instructionsOf t.filters := by
  have hpos : ∀ i ∈ t.filters, 0 < s.lengthOf i := fun i hi => h.lengthOf_pos ht hi
  unfold instructionsOf
  generalize t.filters = ids at hpos
  induction ids with
  | nil => exact Nat.zero_le _
  | cons i ids ih =>
    have hrest := ih fun j hj => hpos j (List.mem_cons_of_mem _ hj)
    have hone := hpos i (List.mem_cons_self ..)
    simp only [List.map_cons, List.sum_cons, List.length_cons]
    omega

/-! ## The test -/

theorem Bounded.sum_toNat (h : Bounded s) (ht : t ∈ s.threads) (hlen : len ≤ maxInsns) :
    (s.totalFilterInstructions + BitVec.ofNat 64 len +
      BitVec.ofNat 64 (t.filters.length * multiFilterPenalty)).toNat =
        s.totalFilterInstructions.toNat + len + t.filters.length * multiFilterPenalty := by
  have hown := h.own t ht
  have htotal := h.total
  have hlist := h.counted.length_le_instructions ht
  simp only [maxInsnsPerPath, maxInsns, multiFilterPenalty] at *
  simp only [BitVec.toNat_add, BitVec.toNat_ofNat]
  omega

/-! ## Steps -/

theorem Bounded.of_lists (h : Bounded s) (hcounted : Counted s')
    (htotal : s'.totalFilterInstructions = s.totalFilterInstructions) (htids : ∀ t' ∈ s'.threads, t'.tid < 2 ^ 32)
    (hlists : ∀ t' ∈ s'.threads, t'.filters = [] ∨ ∃ t ∈ s.threads, t'.filters = t.filters)
    (hsame : ∀ t' ∈ s'.threads, ∀ i ∈ t'.filters, s'.filter? i = s.filter? i) : Bounded s' := by
  refine ⟨hcounted, ?_, htotal ▸ h.total, htids⟩
  intro t' ht'
  rw [htotal, instructionsOf_congr (hsame t' ht')]
  rcases hlists t' ht' with hnil | ⟨t, ht, heq⟩
  · rw [hnil]
    exact Nat.zero_le _
  · rw [heq]
    exact h.own t ht

theorem Bounded.modifyThread (h : Bounded s) (hcounted : Counted (s.modifyThread tid g))
    (hg : ∀ t, (g t).filters = t.filters ∧ (g t).tid = t.tid) : Bounded (s.modifyThread tid g) := by
  have hthreads : ∀ t' ∈ (s.modifyThread tid g).threads, ∃ t ∈ s.threads,
      t'.filters = t.filters ∧ t'.tid = t.tid := by
    intro t' ht'
    obtain ⟨t, ht, rfl⟩ := mem_modifyThread ht'
    refine ⟨t, ht, ?_⟩
    split
    · exact hg t
    · exact ⟨rfl, rfl⟩
  refine h.of_lists hcounted rfl ?_ ?_ fun _ _ _ _ => rfl
  · intro t' ht'
    obtain ⟨t, ht, -, htid⟩ := hthreads t' ht'
    exact htid ▸ h.tids t ht
  · intro t' ht'
    obtain ⟨t, ht, hf, -⟩ := hthreads t' ht'
    exact .inr ⟨t, ht, hf⟩

theorem Bounded.setMode (h : Bounded s) : Bounded (s.setMode tid mode) :=
  h.modifyThread h.counted.setMode fun _ => ⟨rfl, rfl⟩

theorem Bounded.bumpGeneration (h : Bounded s) : Bounded s.bumpGeneration :=
  ⟨h.counted.bumpGeneration, h.own, h.total, h.tids⟩

theorem lengthOf_addFilter_self (tid : Tid) (f : Filter) (h : Counted s) :
    (s.addFilter tid f).lengthOf s.nextId = f.program.length := by
  have hmem : (⟨s.nextId, 1, f⟩ : FilterInfo) ∈ (s.addFilter tid f).filters :=
    List.mem_append_right _ (List.mem_singleton_self _)
  have hcounted : Counted (s.addFilter tid f) := h.addFilter
  have hself := filter?_of_mem hcounted.ids hmem
  rw [lengthOf, hself]
  rfl

theorem Bounded.addFilter (h : Bounded s)
    (hfit : s.totalFilterInstructions.toNat + f.program.length ≤ maxInsnsPerPath) : Bounded (s.addFilter tid f) := by
  have htotal : (s.addFilter tid f).totalFilterInstructions.toNat =
      s.totalFilterInstructions.toNat + f.program.length := by
    simp only [Emulator.addFilter, Emulator.modifyThread, BitVec.toNat_add, BitVec.toNat_ofNat]
    simp only [maxInsnsPerPath] at hfit
    omega
  have hkept : ∀ t ∈ s.threads,
      (s.addFilter tid f).instructionsOf t.filters = s.instructionsOf t.filters := fun t ht =>
    instructionsOf_congr fun i hi => filter?_addFilter (h.counted.mem_lt ht hi).ne
  refine ⟨h.counted.addFilter, ?_, htotal ▸ hfit, ?_⟩
  · intro t' ht'
    obtain ⟨t, ht, rfl⟩ := mem_modifyThread ht'
    have hown := h.own t ht
    rw [htotal]
    split
    · have happend : (s.addFilter tid f).instructionsOf (t.filters ++ [s.nextId]) =
          s.instructionsOf t.filters + f.program.length := by
        rw [← hkept t ht, ← lengthOf_addFilter_self tid f h.counted]
        simp [instructionsOf]
      rw [happend]
      exact Nat.add_le_add_right hown _
    · rw [hkept t ht]
      exact hown.trans (Nat.le_add_right _ _)
  · intro t' ht'
    obtain ⟨t, ht, rfl⟩ := mem_modifyThread ht'
    split <;> exact h.tids t ht

theorem filter?_addRefs_foldl (ids : List FilterId) (others : List α) (s : Emulator) :
    (others.foldl (fun s _ => s.addRefs ids) s).filter? i = s.filter? i ∧
      (others.foldl (fun s _ => s.addRefs ids) s).totalFilterInstructions = s.totalFilterInstructions := by
  induction others generalizing s with
  | nil => exact ⟨rfl, rfl⟩
  | cons o others ih =>
    obtain ⟨hfilter, htotal⟩ := ih (s.addRefs ids)
    exact ⟨hfilter.trans (filter?_addRefs s ids i), htotal⟩

theorem Bounded.tsyncFilters (h : Bounded s) (hc : caller ∈ s.threads) : Bounded (s.tsyncFilters caller) := by
  have hthreads : ∀ t' ∈ (s.tsyncFilters caller).threads, ∃ t ∈ s.threads,
      t'.tid = t.tid ∧ (t'.filters = t.filters ∨ t'.filters = caller.filters) := by
    intro t' ht'
    simp only [Emulator.tsyncFilters, addRefs_foldl_threads] at ht'
    obtain ⟨t, ht, rfl⟩ := List.mem_map.mp ht'
    refine ⟨t, ht, ?_⟩
    unfold tsyncThread
    split
    · exact ⟨rfl, .inl rfl⟩
    · exact ⟨rfl, .inr rfl⟩
  refine h.of_lists (h.counted.tsyncFilters hc) (filter?_addRefs_foldl (i := 0) _ _ s).2 ?_ ?_
    fun _ _ _ _ => (filter?_addRefs_foldl _ _ s).1
  · intro t' ht'
    obtain ⟨t, ht, htid, -⟩ := hthreads t' ht'
    exact htid ▸ h.tids t ht
  · intro t' ht'
    obtain ⟨t, ht, -, hf | hf⟩ := hthreads t' ht'
    · exact .inr ⟨t, ht, hf⟩
    · exact .inr ⟨caller, hc, hf⟩

theorem Bounded.install (h : Bounded s)
    (hfit : s.totalFilterInstructions.toNat + f.program.length ≤ maxInsnsPerPath) :
    Bounded (s.install tid flags f) := by
  have hadded : Bounded ((s.addFilter tid f).setMode tid modeFilter) := (h.addFilter hfit).setMode
  exact install_induction hadded (fun _ _ hc => hadded.tsyncFilters (thread?_mem hc).1) fun _ h => h.bumpGeneration

theorem setModeFilter_fits (s : Emulator) (tid : Tid) (flags : BitVec 32)
    (prog : Option (List SockFilter)) (noNewPrivs : Bool) :
    (s.setModeFilter tid flags prog noNewPrivs).2 = s ∨
      ∃ t f, s.thread? tid = some t ∧ f.program.length ≤ maxInsns ∧
        (s.totalFilterInstructions + BitVec.ofNat 64 f.program.length +
          BitVec.ofNat 64 (t.filters.length * multiFilterPenalty)).toNat ≤ maxInsnsPerPath ∧
        (s.setModeFilter tid flags prog noNewPrivs).2 = s.install tid flags f := by
  unfold setModeFilter
  split
  · exact .inl rfl
  · next t ht =>
    split
    · exact .inl rfl
    · split
      · exact .inl rfl
      · split
        · exact .inl rfl
        · next prog =>
          split
          · exact .inl rfl
          · split
            · exact .inl rfl
            · next hlen =>
              split
              · exact .inl rfl
              · next hfit =>
                generalize (if flags &&& flagTsync ≠ 0 then s.canDoTSync t else 0) = blocker
                dsimp only
                split
                · exact .inl rfl
                · split
                  · next hv =>
                    refine .inr ⟨t, ⟨prog, flags &&& flagLog != 0, hv⟩, ht, ?_, ?_, rfl⟩
                    · exact Nat.not_lt.mp fun h => hlen (.inl h)
                    · exact Nat.not_lt.mp hfit
                  · exact .inl rfl

theorem Bounded.setModeFilter (h : Bounded s) : Bounded (s.setModeFilter tid flags prog noNewPrivs).2 := by
  rcases setModeFilter_fits s tid flags prog noNewPrivs with heq | ⟨t, f, ht, hlen, hfit, heq⟩
  · rwa [heq]
  · rw [heq]
    rw [h.sum_toNat (thread?_mem ht).1 hlen] at hfit
    exact h.install (by omega)

theorem Bounded.spawn (h : Bounded s) (hchild : child < 2 ^ 32) : Bounded (s.spawn parent child) := by
  have hcounted : Counted (s.spawn parent child) := h.counted.spawn
  have hshape : (s.spawn parent child).totalFilterInstructions = s.totalFilterInstructions ∧
      (∀ i, (s.spawn parent child).filter? i = s.filter? i) ∧
      ∀ t' ∈ (s.spawn parent child).threads, t' ∈ s.threads ∨
        t'.tid = child ∧ (t'.filters = [] ∨ ∃ t ∈ s.threads, t'.filters = t.filters) := by
    unfold Emulator.spawn
    split
    · exact ⟨rfl, fun _ => rfl, fun _ ht => .inl ht⟩
    · cases hp : parent.bind s.thread? with
      | none =>
        refine ⟨rfl, fun _ => rfl, fun t' ht' => ?_⟩
        rcases List.mem_append.mp ht' with hold | hnew
        · exact .inl hold
        · obtain rfl := List.mem_singleton.mp hnew
          exact .inr ⟨rfl, .inl rfl⟩
      | some p =>
        obtain ⟨ptid, -, hfind⟩ := Option.bind_eq_some_iff.mp hp
        refine ⟨rfl, fun i => filter?_addRefs s p.filters i, fun t' ht' => ?_⟩
        rcases List.mem_append.mp ht' with hold | hnew
        · exact .inl hold
        · obtain rfl := List.mem_singleton.mp hnew
          exact .inr ⟨rfl, .inr ⟨p, (thread?_mem hfind).1, rfl⟩⟩
  obtain ⟨htotal, hfilter, hthreads⟩ := hshape
  refine h.of_lists hcounted htotal ?_ ?_ fun _ _ i _ => hfilter i
  · intro t' ht'
    rcases hthreads t' ht' with hold | ⟨rfl, -⟩
    · exact h.tids t' hold
    · exact hchild
  · intro t' ht'
    rcases hthreads t' ht' with hold | ⟨-, hlist⟩
    · exact .inr ⟨t', hold, rfl⟩
    · exact hlist

theorem Bounded.exit (h : Bounded s) : Bounded (s.exit tid) := by
  obtain ⟨-, htotal, hthreads⟩ := exit_shape s tid
  exact h.of_lists h.counted.exit htotal (fun t' ht' => h.tids t' (hthreads t' ht'))
    (fun t' ht' => .inr ⟨t', hthreads t' ht', rfl⟩)
    fun t' ht' i hi => h.counted.filter?_exit (held_pos ht' hi)

/-- Filters come from `SetModeFilter` only, and TIDs have 32 bits. -/
def Installs : Op → Prop
  | .deserialize .. => False
  | .spawn _ child => child < 2 ^ 32
  | _ => True

theorem Bounded.step (h : Bounded s) (hop : Installs op) : Bounded (s.step op) := by
  have hcounted := h.counted.step op
  cases op with
  | setModeFilter tid flags prog nnp => exact h.setModeFilter
  | setModeStrict tid flags argNull nnp =>
    have hkill : Bounded { s with killSignal := sigKill } :=
      ⟨⟨h.counted.ids, h.counted.fresh, h.counted.tids, h.counted.backed⟩, h.own, h.total, h.tids⟩
    simp only [Emulator.step, Emulator.setModeStrict]
    repeat' split
    all_goals first | exact h | exact hkill.setModeFilter.setMode
  | spawn parent child => exact h.spawn hop
  | deserialize tid image => exact hop.elim
  | exit tid => exact h.exit
  | syscall tid c =>
    simp only [Emulator.step, executeFilter] at hcounted ⊢
    cases ht : s.thread? tid with
    | none => exact h
    | some t =>
      obtain ⟨fs, hfs⟩ := h.counted.resolve (thread?_mem ht).1
      simp only [ht, hfs, Option.bind_eq_bind, Option.bind_some] at hcounted ⊢
      exact h.modifyThread hcounted fun _ => ⟨rfl, rfl⟩

theorem bounded_run (hrun : Admissible step (fun _ => Installs) {} ops) : Bounded (run {} ops) :=
  foldl_invariant (fun _ _ h hop => h.step hop) bounded_init hrun

/-! ## ENOMEM -/

structure ValidRequest (flags : BitVec 32) (prog : List SockFilter) : Prop where
  supported : flags &&& ~~~supportedFlags = 0
  length : prog.length ≤ maxInsns
  accepted : validateProgram prog = true

theorem ValidRequest.no_listener (h : ValidRequest flags prog) : flags &&& flagNewListener = 0 := by
  have hsub : flagNewListener = ~~~supportedFlags &&& flagNewListener := by decide
  rw [hsub, ← BitVec.and_assoc, h.supported]
  exact BitVec.zero_and

theorem errno_enomem_toNat : (errno eNOMEM).toNat = 2 ^ 64 - 12 := by decide

theorem blocker_lt (h : Bounded s) : s.canDoTSync t < 2 ^ 32 := by
  unfold canDoTSync
  cases hfind : s.threads.find? fun u => u.tid ≠ t.tid ∧ u.seccompMode ≠ modeDisabled ∧
      (u.seccompMode ≠ t.seccompMode ∨ u.filters ≠ t.filters) with
  | none => decide
  | some u => exact h.tids u (List.mem_of_find?_eq_some hfind)

theorem ValidRequest.length_ok (hreq : ValidRequest flags prog) : ¬(maxInsns < prog.length ∨ prog.length = 0) := by
  have hpos := validateProgram_ne_nil hreq.accepted
  have hle := hreq.length
  omega

theorem Bounded.setModeFilter_enomem (h : Bounded s) (hreq : ValidRequest flags prog) (ht : s.thread? tid = some t) :
    (s.setModeFilter tid flags (some prog) true).1 = errno eNOMEM ↔ maxInsnsPerPath <
        s.totalFilterInstructions.toNat + prog.length + t.filters.length * multiFilterPenalty := by
  have hlen := hreq.length_ok
  have hlistener : ¬(flags &&& flagTsync ≠ 0 ∧ flags &&& flagNewListener ≠ 0 ∧
      flags &&& flagTsyncEsrch = 0) := fun hl => hl.2.1 hreq.no_listener
  have hsum := h.sum_toNat (thread?_mem ht).1 hreq.length
  have hblocker : ∀ blocker, blocker < 2 ^ 32 → BitVec.ofNat 64 blocker ≠ errno eNOMEM := by
    intro blocker hb he
    have htoNat := congrArg BitVec.toNat he
    rw [errno_enomem_toNat, BitVec.toNat_ofNat] at htoNat
    omega
  have hlt : (if flags &&& flagTsync ≠ 0 then s.canDoTSync t else 0) < 2 ^ 32 := by
    split
    · exact blocker_lt h
    · decide
  simp only [Emulator.setModeFilter, ht]
  rw [if_neg (not_not.mpr hreq.supported), if_neg hlistener, if_neg (by simp), if_neg hlen, hsum]
  generalize (if flags &&& flagTsync ≠ 0 then s.canDoTSync t else 0) = blocker at hlt
  split
  · next hfull => exact ⟨fun _ => hfull, fun _ => rfl⟩
  · next hfits =>
    refine ⟨fun he => ?_, fun hfull => absurd hfull hfits⟩
    split at he
    · split at he
      · exact absurd (show errno eSRCH = errno eNOMEM from he) (by decide)
      · exact absurd he (hblocker blocker hlt)
    · rw [dif_pos hreq.accepted] at he
      exact absurd (show (0 : BitVec 64) = errno eNOMEM from he) (by decide)

theorem Bounded.chain_le (h : Bounded s) (ht : t ∈ s.threads) :
    s.totalFilterInstructions.toNat + t.filters.length * multiFilterPenalty =
      s.chainLength t + s.foreignInstructions t := by
  have hown := h.own t ht
  rw [chainLength_eq, foreignInstructions]
  omega

/-- After every run of installs, thread creations and exits, the ENOMEM of a valid
request is the kernel's exactly if the path is too long anyway or the filters the
caller does not hold leave room as well. -/
theorem setModeFilter_enomem_iff (hrun : Admissible step (fun _ => Installs) {} ops)
    (hreq : ValidRequest flags prog) (ht : (run {} ops).thread? tid = some t) :
    ((((run {} ops).setModeFilter tid flags (some prog) true).1 = errno eNOMEM ↔
        maxInsnsPerPath < prog.length + (run {} ops).chainLength t) ↔
      (maxInsnsPerPath < prog.length + (run {} ops).chainLength t ∨
        prog.length + (run {} ops).chainLength t + (run {} ops).foreignInstructions t ≤ maxInsnsPerPath)) := by
  have h := bounded_run hrun
  have hsplit := h.chain_le (thread?_mem ht).1
  rw [h.setModeFilter_enomem hreq ht]
  omega

/-! ## Filters of a thread that is gone -/

theorem thread?_modifyThread (s : Emulator) (tid : Tid) (hg : ∀ t, (g t).tid = t.tid) :
    (s.modifyThread tid g).thread? tid = (s.thread? tid).map g := by
  unfold thread? modifyThread
  rw [List.find?_map]
  have hsame : ((fun t : Thread => decide (t.tid = tid)) ∘ fun t => if t.tid = tid then g t else t) =
      fun t => decide (t.tid = tid) := by
    funext t
    dsimp only [Function.comp]
    split
    · rw [hg t]
    · rfl
  rw [hsame]
  cases hfind : s.threads.find? fun t => decide (t.tid = tid) with
  | none => rfl
  | some t =>
    have htid : t.tid = tid := by simpa using List.find?_some hfind
    simp [htid]

structure AfterInstall (s s' : Emulator) (tid : Tid) (t : Thread) (len : Nat) : Prop where
  bounded : Bounded s'
  total : s'.totalFilterInstructions.toNat = s.totalFilterInstructions.toNat + len
  tids : s'.threads.map (·.tid) = s.threads.map (·.tid)
  thread : ∃ t', s'.thread? tid = some t' ∧ t'.filters.length = t.filters.length + 1

theorem Bounded.setModeFilter_ok (h : Bounded s) (hreq : ValidRequest 0 prog) (ht : s.thread? tid = some t)
    (hfit : s.totalFilterInstructions.toNat + prog.length +
      t.filters.length * multiFilterPenalty ≤ maxInsnsPerPath) :
    AfterInstall s (s.setModeFilter tid 0 (some prog) true).2 tid t prog.length := by
  have hlen := hreq.length_ok
  have heq : (s.setModeFilter tid 0 (some prog) true).2 = s.install tid 0 ⟨prog, false, hreq.accepted⟩ := by
    simp only [Emulator.setModeFilter, ht]
    rw [if_neg hlen, h.sum_toNat (thread?_mem ht).1 hreq.length, if_neg (Nat.not_lt.mpr hfit)]
    rw [dif_pos hreq.accepted]
    rfl
  have hbounded : Bounded (s.setModeFilter tid 0 (some prog) true).2 := h.setModeFilter
  rw [heq] at hbounded ⊢
  have hadd : s.install tid 0 ⟨prog, false, hreq.accepted⟩ =
      ((s.addFilter tid ⟨prog, false, hreq.accepted⟩).setMode tid modeFilter).bumpGeneration := rfl
  refine ⟨hbounded, ?_, ?_, ?_⟩
  · have hsum := h.sum_toNat (thread?_mem ht).1 hreq.length
    simp only [hadd, Emulator.bumpGeneration, Emulator.setMode, Emulator.addFilter,
      Emulator.modifyThread, BitVec.toNat_add, BitVec.toNat_ofNat]
    omega
  · have hmode : ((s.addFilter tid ⟨prog, false, hreq.accepted⟩).setMode tid modeFilter).threads.map
        (·.tid) = (s.addFilter tid ⟨prog, false, hreq.accepted⟩).threads.map (·.tid) :=
      modifyThread_tids _ fun _ => rfl
    have hlist : (s.addFilter tid ⟨prog, false, hreq.accepted⟩).threads.map (·.tid) =
        s.threads.map (·.tid) := modifyThread_tids s fun _ => rfl
    exact hmode.trans hlist
  · have hfirst : (s.addFilter tid ⟨prog, false, hreq.accepted⟩).thread? tid =
        (s.thread? tid).map fun t => { t with filters := t.filters ++ [s.nextId] } :=
      thread?_modifyThread s tid fun _ => rfl
    have hsecond : (s.install tid 0 ⟨prog, false, hreq.accepted⟩).thread? tid =
        ((s.addFilter tid ⟨prog, false, hreq.accepted⟩).thread? tid).map
          fun t => { t with seccompMode := modeFilter } :=
      thread?_modifyThread _ tid fun _ => rfl
    rw [ht] at hfirst
    rw [hfirst] at hsecond
    exact ⟨_, hsecond, by simp⟩

theorem Bounded.run_installs (hreq : ValidRequest 0 prog) (n : Nat) : ∀ s t, Bounded s → s.thread? tid = some t →
      s.totalFilterInstructions.toNat + n * prog.length +
        (t.filters.length + n) * multiFilterPenalty ≤ maxInsnsPerPath →
      Bounded (run s (List.replicate n (.setModeFilter tid 0 (some prog) true))) ∧
        (run s (List.replicate n (.setModeFilter tid 0 (some prog) true))).totalFilterInstructions.toNat =
          s.totalFilterInstructions.toNat + n * prog.length ∧
        (run s (List.replicate n (.setModeFilter tid 0 (some prog) true))).threads.map (·.tid) =
          s.threads.map (·.tid) := by
  induction n with
  | zero =>
    intro s t h _ _
    exact ⟨h, by simp [run], rfl⟩
  | succ n ih =>
    intro s t h ht hfit
    rw [Nat.succ_mul] at hfit ⊢
    obtain ⟨hb, htotal, htids, t', ht', hlength⟩ := h.setModeFilter_ok hreq ht (by
      simp only [multiFilterPenalty] at *
      omega)
    have hrest := ih _ t' hb ht' (by
      simp only [multiFilterPenalty] at *
      omega)
    rw [htotal, htids] at hrest
    rw [show s.totalFilterInstructions.toNat + (n * prog.length + prog.length) =
      s.totalFilterInstructions.toNat + prog.length + n * prog.length by omega]
    exact hrest

theorem validateProgram_replicate_ret (n : Nat) : validateProgram (List.replicate (n + 1) ⟨0x06, 0, 0, k⟩) := by
  have hlast : (List.replicate (n + 1) (⟨0x06, 0, 0, k⟩ : SockFilter)).getLast? = some ⟨0x06, 0, 0, k⟩ := by
    simp [List.getLast?_replicate]
  unfold validateProgram
  rw [hlast, Bool.and_eq_true]
  refine ⟨List.all_eq_true.mpr ?_, by simp [SockFilter.cls]⟩
  rintro ⟨inst, i⟩ hmem
  obtain rfl := List.eq_of_mem_replicate (List.mem_of_getElem? (List.mem_zipIdx_iff_getElem?.mp hmem))
  simp [checkInst, SockFilter.cls, SockFilter.rval]

theorem exit_spawn (htids : s.threads.map (·.tid) = [a]) : ((s.exit a).spawn none b).threads = [{ tid := b }] ∧
      ((s.exit a).spawn none b).totalFilterInstructions = s.totalFilterInstructions := by
  obtain ⟨t, hthreads, htid⟩ : ∃ t : Thread, s.threads = [t] ∧ t.tid = a := by
    cases hs : s.threads with
    | nil => simp [hs] at htids
    | cons t ts =>
      rw [hs, List.map_cons, List.cons.injEq, List.map_eq_nil_iff] at htids
      exact ⟨t, by rw [htids.2], htids.1⟩
  have hexit : (s.exit a).threads = [] ∧ (s.exit a).totalFilterInstructions = s.totalFilterInstructions := by
    simp [Emulator.exit, thread?, hthreads, htid]
  simp [Emulator.spawn, thread?, hexit]

end

theorem setModeFilter_enomem_iff_allow : (((run {} denyRun).setModeFilter 1 0 (some allowAll) true).1 = errno eNOMEM ↔
        maxInsnsPerPath < allowAll.length + (run {} denyRun).chainLength ⟨1, modeFilter, [0], {}⟩) ↔
      (maxInsnsPerPath < allowAll.length + (run {} denyRun).chainLength ⟨1, modeFilter, [0], {}⟩ ∨
        allowAll.length + (run {} denyRun).chainLength ⟨1, modeFilter, [0], {}⟩ +
          (run {} denyRun).foreignInstructions ⟨1, modeFilter, [0], {}⟩ ≤ maxInsnsPerPath) :=
  setModeFilter_enomem_iff (show Admissible step (fun _ => Installs) {} denyRun from
    ⟨show 1 < 2 ^ 32 by decide, trivial, trivial⟩) ⟨by decide, by decide, by decide⟩ rfl

def longFilter : List SockFilter := List.replicate 4090 ⟨0x06, 0, 0, retAllow⟩

def fullRun : List Op :=
  .spawn none 1 :: (List.replicate 8 (.setModeFilter 1 0 (some longFilter) true) ++ [.exit 1, .spawn none 2])

theorem longFilter_valid : ValidRequest 0 longFilter := by
  refine ⟨by decide, ?_, validateProgram_replicate_ret 4089⟩
  rw [longFilter, List.length_replicate]
  decide

/-- Thread 2 holds nothing, yet its first filter is refused. -/
theorem fullRun_enomem : (run {} fullRun).thread? 2 = some { tid := 2 } ∧
      ((run {} fullRun).setModeFilter 2 0 (some longFilter) true).1 = errno eNOMEM ∧
      ¬maxInsnsPerPath < longFilter.length + (run {} fullRun).chainLength { tid := 2 } := by
  have hlength : longFilter.length = 4090 := List.length_replicate
  have hstart : Bounded (step {} (.spawn none 1)) := bounded_init.step (show 1 < 2 ^ 32 by decide)
  have hthread : (step {} (.spawn none 1)).thread? 1 = some { tid := 1 } := rfl
  obtain ⟨hb, htotal, htids⟩ := Bounded.run_installs longFilter_valid 8 _ _ hstart hthread (by
    rw [hlength]
    decide)
  generalize hs : run (step {} (.spawn none 1))
    (List.replicate 8 (.setModeFilter 1 0 (some longFilter) true)) = s at hb htotal htids
  have hrun : run {} fullRun = (s.exit 1).spawn none 2 := by
    rw [← hs]
    simp [fullRun, run, step]
  obtain ⟨hthreads, hsame⟩ := exit_spawn (b := 2) htids
  have hbound : Bounded ((s.exit 1).spawn none 2) := hb.exit.spawn (by decide)
  have htwo : ((s.exit 1).spawn none 2).thread? 2 = some { tid := 2 } := by simp [thread?, hthreads]
  rw [hrun]
  refine ⟨htwo, (hbound.setModeFilter_enomem longFilter_valid htwo).mpr ?_, ?_⟩
  · rw [hsame, htotal, hlength]
    decide
  · rw [hlength, chainLength_eq]
    simp [instructionsOf, maxInsnsPerPath]

end PowerArm.Seccomp.Emulator
