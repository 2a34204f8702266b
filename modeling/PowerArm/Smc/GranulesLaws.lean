import PowerArm.Lib.Run
import PowerArm.Smc.Granules

/-!
# Armed pages and re-arm debts

An armed page stays armed, and a queued granule queued, until a fault on the
granule, a take of the queue or a range that contains the page. `Forget` and `Drop`
remove whole granules that their range meets in part only, so this holds for runs
in which no such range cuts through a granule that has other armed pages or is
queued (`armed_and_queued_since`).
-/

namespace PowerArm.Smc

open PowerArm.Lib

variable {c : Config} {s : State} {t : Table}

def Contains (start top p : Nat) : Prop := start ≤ p * guestPageSize ∧ (p + 1) * guestPageSize ≤ top

theorem Config.granuleSize_pos (c : Config) : 0 < c.granuleSize := Nat.mul_pos c.pages_pos (by decide)

theorem Config.mem_touched : g ∈ c.touched start top ↔ c.granuleOf start ≤ g ∧ g * c.granuleSize < top := by
  have hceil : g < (top + c.granuleSize - 1) / c.granuleSize ↔ g * c.granuleSize < top := by
    rw [← Nat.succ_le_iff, Nat.le_div_iff_mul_le c.granuleSize_pos, Nat.succ_mul]
    have := c.granuleSize_pos
    omega
  rw [Config.touched, List.mem_range'_1]
  omega

/-! ## Forget -/

theorem forgetOne_of_ne (hne : g' ≠ g) : Table.forgetOne c start top granules g g' = granules g' := by
  unfold Table.forgetOne
  cases granules g with
  | none => rfl
  | some e =>
    dsimp only
    split <;> exact Function.update_of_ne hne ..

theorem forget_of_untouched (hg : g ∉ c.touched start top) : (t.forget c start top).granules g = t.granules g := by
  unfold Table.forget
  split
  · rfl
  · generalize c.touched start top = gs at hg
    induction gs generalizing t with
    | nil => rfl
    | cons g' gs ih =>
      rw [List.mem_cons, not_or] at hg
      have hrest := ih (t := { t with granules := Table.forgetOne c start top t.granules g' }) hg.2
      exact hrest.trans (forgetOne_of_ne hg.1)

/-! ## One step -/

def Tracked (c : Config) (t : Table) (p : Nat) : Prop :=
  ∃ e, t.granules (p / c.pagesPerGranule) = some e ∧ e.validateOnly = false ∧
    e.trackedMask.getLsbD (p % c.pagesPerGranule) = true

def SparesArmed (c : Config) (p : Nat) : Op → Prop
  | .noteFault g _ => g ≠ p / c.pagesPerGranule
  | .forget start top => ¬Contains start top p
  | _ => True

def SparesQueued (p : Nat) : Op → Prop
  | .queueTake => False
  | .queueDrop start top => ¬Contains start top p
  | _ => True

/-- A forgotten range contains every tracked page of the granules it meets, a dropped
range all of each queued granule it meets. -/
def Gentle (c : Config) (s : State) : Op → Prop
  | .forget start top => ∀ p, p / c.pagesPerGranule ∈ c.touched start top →
      Tracked c s.table p → Contains start top p
  | .queueDrop start top => ∀ p, p / c.pagesPerGranule ∈ c.touched start top →
      p / c.pagesPerGranule ∈ s.queue → Contains start top p
  | _ => True

theorem ne_zero_of_getLsbD (h : mask.getLsbD k) : mask ≠ 0#32 := by
  rintro rfl
  simp at h

theorem Tracked.armed (h : Tracked c t p) (hon : c.enabled) : t.armed c (p / c.pagesPerGranule) := by
  obtain ⟨e, he, -, hbit⟩ := h
  simp [Table.armed, hon, he, ne_zero_of_getLsbD hbit]

theorem Tracked.noteArmed (h : Tracked c t p) : Tracked c (t.noteArmed c g mask) p := by
  obtain ⟨e, he, hplain, hbit⟩ := h
  unfold Table.noteArmed
  split
  · exact ⟨e, he, hplain, hbit⟩
  · by_cases hg : p / c.pagesPerGranule = g
    · refine ⟨{ e with trackedMask := e.trackedMask ||| mask }, ?_, hplain, ?_⟩
      · simp [← hg, he, hplain]
      · simp [hbit]
    · exact ⟨e, by simpa [Function.update_of_ne hg] using he, hplain, hbit⟩

theorem noteArmed_tracked (hon : c.enabled) (hplain : ∀ e, t.granules g = some e → e.validateOnly = false)
    (hp : p / c.pagesPerGranule = g) (hbit : mask.getLsbD (p % c.pagesPerGranule)) :
    Tracked c (t.noteArmed c g mask) p := by
  have hentry : ((t.granules g).getD {}).validateOnly = false := by
    cases he : t.granules g with
    | none => rfl
    | some e => exact hplain e he
  have hskip : ¬(!c.enabled || mask == 0) := by simp [hon, ne_zero_of_getLsbD hbit]
  unfold Table.noteArmed
  rw [if_neg hskip]
  generalize (t.granules g).getD {} = e at hentry
  refine ⟨{ e with trackedMask := e.trackedMask ||| mask }, ?_, hentry, ?_⟩
  · simp [hp, hentry]
  · simp [hbit]

theorem Tracked.noteFault (h : Tracked c t p) (hg : g ≠ p / c.pagesPerGranule) :
    Tracked c (t.noteFault c g now).2.2 p := by
  obtain ⟨e, he, hplain, hbit⟩ := h
  refine ⟨e, ?_, hplain, hbit⟩
  unfold Table.noteFault
  split
  · exact he
  · cases t.granules g with
    | none => exact he
    | some e' => simpa [Function.update_of_ne hg.symm] using he

theorem Tracked.step (h : Tracked c s.table p) (hspare : SparesArmed c p op)
    (hgentle : Gentle c s op) : Tracked c (step c s op).table p := by
  cases op with
  | noteArmed g mask => exact h.noteArmed
  | noteFault g now => exact h.noteFault hspare
  | forget start top =>
    have hout : p / c.pagesPerGranule ∉ c.touched start top := fun hin => hspare (hgentle p hin h)
    obtain ⟨e, he, hrest⟩ := h
    exact ⟨e, (forget_of_untouched hout).trans he, hrest⟩
  | queueAdd g => exact h
  | queueTake => exact h
  | queueDrop start top => exact h

theorem mem_queue_step (h : p / c.pagesPerGranule ∈ s.queue) (hspare : SparesQueued p op)
    (hgentle : Gentle c s op) : p / c.pagesPerGranule ∈ (step c s op).queue := by
  cases op with
  | queueAdd g =>
    unfold step Queue.add
    dsimp only
    split
    · exact h
    · exact List.mem_cons_of_mem _ h
  | queueTake => exact hspare.elim
  | queueDrop start top =>
    have hout : p / c.pagesPerGranule ∉ c.touched start top := fun hin => hspare (hgentle p hin h)
    rw [Config.mem_touched, not_and_or] at hout
    exact List.mem_filter.mpr ⟨h, by simpa using hout⟩
  | noteArmed g mask => exact h
  | noteFault g now => exact h
  | forget start top => exact h

/-! ## Runs -/

/-- `NoteArmed` arms page `p` in this state: the table is in use and the granule is
not demoted. -/
def Arms (c : Config) (t : Table) (g : Nat) (mask : BitVec 32) (p : Nat) : Prop :=
  c.enabled = true ∧ (∀ e, t.granules g = some e → e.validateOnly = false) ∧
    p / c.pagesPerGranule = g ∧ mask.getLsbD (p % c.pagesPerGranule) = true

/-- A page armed since without a fault on its granule and without being forgotten is
reported armed, and a page queued since without a take or a drop of it is queued. -/
theorem armed_and_queued_since (hrun : Admissible (step c) (Gentle c) {} ops) :
    (∀ pre g mask post p, ops = pre ++ .noteArmed g mask :: post →
      Arms c (run c pre).table g mask p → (∀ op ∈ post, SparesArmed c p op) → (run c ops).table.armed c g = true) ∧
    ∀ pre g post p, ops = pre ++ .queueAdd g :: post → p / c.pagesPerGranule = g →
      (∀ op ∈ post, SparesQueued p op) → g ∈ (run c ops).queue := by
  constructor
  · rintro pre g mask post p rfl ⟨hon, hplain, hp, hbit⟩ hspare
    have hrest := (admissible_append.mp hrun).2.2
    have hstep (s : State) (op : Op) (h : Tracked c s.table p) (hop : Gentle c s op ∧ SparesArmed c p op) :
      Tracked c (step c s op).table p := h.step hop.2 hop.1
    have hlast := foldl_invariant hstep (noteArmed_tracked hon hplain hp hbit) (hrest.and_all hspare)
    have hrun' : run c (pre ++ .noteArmed g mask :: post) =
        post.foldl (step c) (step c (run c pre) (.noteArmed g mask)) := by
      simp [run]
    rw [hrun']
    exact hp ▸ hlast.armed hon
  · rintro pre g post p rfl rfl hspare
    have hrest := (admissible_append.mp hrun).2.2
    have hadd : p / c.pagesPerGranule ∈ (step c (run c pre) (.queueAdd (p / c.pagesPerGranule))).queue := by
      unfold step Queue.add
      dsimp only
      split
      · assumption
      · exact List.mem_cons_self ..
    have hstep (s : State) (op : Op) (h : p / c.pagesPerGranule ∈ s.queue)
      (hop : Gentle c s op ∧ SparesQueued p op) : p / c.pagesPerGranule ∈ (step c s op).queue :=
      mem_queue_step h hop.2 hop.1
    have hlast := foldl_invariant hstep hadd (hrest.and_all hspare)
    simpa [run] using hlast

theorem pages64K_le : 16 ≤ 32 := by decide

def config64K : Config := { pagesPerGranule := 16, pages_pos := by decide, pages_le := pages64K_le }

def tidyRun : List Op := [.noteArmed 0 0b11, .noteArmed 1 0b1, .queueAdd 1, .forget 0 0x10000, .queueDrop 0 0x10000]

theorem contains_of_touched_first (hp : p / 16 ∈ config64K.touched 0 0x10000) : Contains 0 0x10000 p := by
  have hsize : config64K.granuleSize = 0x10000 := rfl
  rw [Config.mem_touched, hsize] at hp
  unfold Contains guestPageSize
  omega

theorem tidyRun_gentle : Admissible (step config64K) (Gentle config64K) {} tidyRun :=
  ⟨trivial, trivial, trivial, fun _ hp _ => contains_of_touched_first hp,
    fun _ hp _ => contains_of_touched_first hp, trivial⟩

theorem armed_and_queued_since_tidy :
    (run config64K tidyRun).table.armed config64K 1 = true ∧ 1 ∈ (run config64K tidyRun).queue := by
  have hspare : ¬Contains 0 0x10000 16 := by
    unfold Contains
    decide
  obtain ⟨harmed, hqueued⟩ := armed_and_queued_since tidyRun_gentle
  constructor
  · refine harmed [.noteArmed 0 0b11] 1 0b1 _ 16 rfl ⟨by decide, by decide, by decide, by decide⟩ ?_
    simp [SparesArmed, hspare]
  · refine hqueued [.noteArmed 0 0b11, .noteArmed 1 0b1] 1 _ 16 rfl (by decide) ?_
    simp [SparesQueued, hspare]

/-- Two pages of one granule are armed and the granule is queued; then only the
second page is forgotten and dropped. -/
def cutRun : List Op := [.noteArmed 0 0b11, .queueAdd 0, .forget 0x1000 0x2000, .queueDrop 0x1000 0x2000]

theorem cutRun_loses_first_page : Arms config64K (run config64K []).table 0 0b11 0 ∧ ¬Contains 0x1000 0x2000 0 ∧
      (run config64K cutRun).table.armed config64K 0 = false ∧ 0 ∉ (run config64K cutRun).queue := by
  refine ⟨⟨by decide, by simp [run], by decide, by decide⟩, ?_, by decide, by decide⟩
  unfold Contains
  decide

end PowerArm.Smc
