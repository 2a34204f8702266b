import PowerArm.Lib.Run
import PowerArm.Seccomp.CacheLaws

/-!
# The verdict cache over whole runs

Reference counts cover the filters the threads hold, so a live thread's filters
never dangle (`Counted.resolve`). Every change of a thread's filters bumps the
generation past every cache, and the other steps leave each cache's filters
alone; after any covered run a syscall's verdict is the one of running every
filter of its thread (`run_executeFilter_eq`).
-/

namespace PowerArm.Seccomp.Emulator

open Lib (Admissible foldl_invariant)

variable {s s' : Emulator} {t : Thread}

/-! ## Lookups -/

theorem thread?_mem (h : s.thread? tid = some t) : t ∈ s.threads ∧ t.tid = tid :=
  ⟨List.mem_of_find?_eq_some h, by simpa using List.find?_some h⟩

theorem filter?_of_mem (hids : (s.filters.map (·.id)).Nodup) (hf : f ∈ s.filters) :
    s.filter? f.id = some f.filter := by
  unfold filter?
  cases hfind : s.filters.find? (·.id = f.id) with
  | none => simpa using List.find?_eq_none.mp hfind f hf
  | some g =>
    have hg : g.id = f.id := by simpa using List.find?_some hfind
    rw [List.inj_on_of_nodup_map hids (List.mem_of_find?_eq_some hfind) hf hg]
    rfl

theorem resolve_congr (h : ∀ i ∈ ids, s'.filter? i = s.filter? i) : s'.resolve ids = s.resolve ids := by
  unfold resolve
  induction ids with
  | nil => rfl
  | cons i ids ih =>
    rw [List.mapM_cons, List.mapM_cons, h i (List.mem_cons_self ..), ih fun j hj => h j (List.mem_cons_of_mem _ hj)]

/-! ## Reference counts -/

def held (s : Emulator) (i : FilterId) : Nat := (s.threads.map (·.filters.count i)).sum

def Backed (s : Emulator) (i : FilterId) (n : Nat) : Prop := ∃ f ∈ s.filters, f.id = i ∧ n ≤ f.refCount

structure Counted (s : Emulator) : Prop where
  ids : (s.filters.map (·.id)).Nodup
  fresh : ∀ f ∈ s.filters, f.id < s.nextId
  tids : (s.threads.map (·.tid)).Nodup
  backed : ∀ i, 0 < s.held i → s.Backed i (s.held i)

theorem count_le_held (ht : t ∈ s.threads) (i : FilterId) : t.filters.count i ≤ s.held i :=
  List.single_le_sum (by simp) _ (List.mem_map.mpr ⟨t, ht, rfl⟩)

theorem held_pos (ht : t ∈ s.threads) (hid : i ∈ t.filters) : 0 < s.held i :=
  (List.count_pos_iff.mpr hid).trans_le (count_le_held ht i)

theorem Counted.mem_lt (h : Counted s) (ht : t ∈ s.threads) (hid : i ∈ t.filters) : i < s.nextId := by
  obtain ⟨f, hf, rfl, -⟩ := h.backed i (held_pos ht hid)
  exact h.fresh f hf

theorem Counted.held_nextId (h : Counted s) : s.held s.nextId = 0 := by
  by_contra hne
  obtain ⟨f, hf, hid, -⟩ := h.backed _ (Nat.pos_of_ne_zero hne)
  exact (h.fresh f hf).ne hid

theorem Counted.thread_inj (h : Counted s) (ht : t ∈ s.threads) (hu : u ∈ s.threads) (htid : t.tid = u.tid) : t = u :=
  List.inj_on_of_nodup_map h.tids ht hu htid

theorem Counted.resolve (h : Counted s) (ht : t ∈ s.threads) : ∃ fs, s.resolve t.filters = some fs := by
  have hall : ∀ i ∈ t.filters, ∃ f, s.filter? i = some f := by
    intro i hid
    obtain ⟨f, hf, rfl, -⟩ := h.backed i (held_pos ht hid)
    exact ⟨_, filter?_of_mem h.ids hf⟩
  unfold Emulator.resolve
  generalize t.filters = ids at hall
  induction ids with
  | nil => exact ⟨[], rfl⟩
  | cons i ids ih =>
    obtain ⟨f, hf⟩ := hall i (List.mem_cons_self ..)
    obtain ⟨fs, hfs⟩ := ih fun j hj => hall j (List.mem_cons_of_mem _ hj)
    exact ⟨f :: fs, by rw [List.mapM_cons, hf, hfs]; rfl⟩

theorem Counted.of_held_le (h : Counted s) (hfilters : s'.filters = s.filters)
    (hnext : s'.nextId = s.nextId) (htids : s'.threads.map (·.tid) = s.threads.map (·.tid))
    (hle : ∀ i, s'.held i ≤ s.held i) : Counted s' := by
  refine ⟨hfilters ▸ h.ids, ?_, htids ▸ h.tids, fun i hpos => ?_⟩
  · rw [hfilters, hnext]
    exact h.fresh
  · obtain ⟨f, hf, hid, hn⟩ := h.backed i (hpos.trans_le (hle i))
    exact ⟨f, hfilters ▸ hf, hid, (hle i).trans hn⟩

/-! ## Changing one thread -/

theorem mem_modifyThread (h : t' ∈ (s.modifyThread tid g).threads) :
    ∃ t ∈ s.threads, t' = if t.tid = tid then g t else t := by
  obtain ⟨t, ht, rfl⟩ := List.mem_map.mp h
  exact ⟨t, ht, rfl⟩

theorem modifyThread_tids (s : Emulator) (hg : ∀ t, (g t).tid = t.tid) :
    (s.modifyThread tid g).threads.map (·.tid) = s.threads.map (·.tid) := by
  simp only [modifyThread, List.map_map]
  refine List.map_congr_left fun t _ => ?_
  dsimp only [Function.comp]
  split
  · exact hg t
  · rfl

theorem held_modifyThread (htids : (s.threads.map (·.tid)).Nodup)
    (hg : ∀ t, (g t).filters.count i ≤ t.filters.count i + k) : (s.modifyThread tid g).held i ≤ s.held i + k := by
  simp only [held, modifyThread, List.map_map]
  generalize s.threads = ts at htids
  induction ts with
  | nil => exact Nat.zero_le _
  | cons t ts ih =>
    rw [List.map_cons, List.nodup_cons] at htids
    simp only [List.map_cons, List.sum_cons, Function.comp]
    by_cases htid : t.tid = tid
    · have hrest : ts.map ((fun t : Thread => t.filters.count i) ∘ fun t => if t.tid = tid then g t else t) =
          ts.map (·.filters.count i) := by
        refine List.map_congr_left fun u hu => ?_
        have hne : u.tid ≠ tid := fun he => htids.1 (List.mem_map.mpr ⟨u, hu, he.trans htid.symm⟩)
        simp [if_neg hne]
      rw [hrest, if_pos htid]
      have := hg t
      omega
    · rw [if_neg htid]
      have := ih htids.2
      omega

theorem Counted.setMode (h : Counted s) : Counted (s.setMode tid mode) := by
  refine h.of_held_le rfl rfl (modifyThread_tids s fun _ => rfl) fun i => ?_
  exact held_modifyThread (k := 0) h.tids fun t => Nat.le_refl (t.filters.count i)

theorem Counted.addFilter (h : Counted s) : Counted (s.addFilter tid f) := by
  refine ⟨?_, ?_, ?_, fun i hpos => ?_⟩
  · simp only [Emulator.addFilter, List.map_append, List.map_cons]
    refine List.nodup_append.mpr ⟨h.ids, List.nodup_singleton _, ?_⟩
    rintro a ha b hb rfl
    obtain ⟨g, hg, hid⟩ := List.mem_map.mp ha
    exact (h.fresh g hg).ne (hid.trans (List.mem_singleton.mp hb))
  · intro g hg
    simp only [Emulator.addFilter, List.mem_append, List.mem_singleton] at hg ⊢
    rcases hg with hg | rfl
    · exact (h.fresh g hg).trans (Nat.lt_succ_self _)
    · exact Nat.lt_succ_self _
  · have htids : (s.addFilter tid f).threads.map (·.tid) = s.threads.map (·.tid) := modifyThread_tids s fun _ => rfl
    rw [htids]
    exact h.tids
  · have hle : (s.addFilter tid f).held i ≤ s.held i + [s.nextId].count i :=
      held_modifyThread h.tids fun t => by simp
    by_cases hid : i = s.nextId
    · subst hid
      refine ⟨_, List.mem_append_right _ (List.mem_singleton_self _), rfl, ?_⟩
      simpa [h.held_nextId] using hle
    · rw [List.count_singleton, if_neg (by simpa using fun he => hid he.symm)] at hle
      obtain ⟨g, hg, hgid, hn⟩ := h.backed i (hpos.trans_le hle)
      exact ⟨g, List.mem_append_left _ hg, hgid, hle.trans hn⟩

/-! ## Sharing filters between threads -/

theorem addRefs_ids (s : Emulator) (ids : List FilterId) :
    (s.addRefs ids).filters.map (·.id) = s.filters.map (·.id) := by
  simp [addRefs]

theorem filter?_addRefs (s : Emulator) (ids : List FilterId) (i : FilterId) :
    (s.addRefs ids).filter? i = s.filter? i := by
  simp [filter?, addRefs, Function.comp_def]

theorem addRefs_fresh (h : Counted s) : ∀ f ∈ (s.addRefs ids).filters, f.id < s.nextId := by
  intro f hf
  obtain ⟨g, hg, rfl⟩ := List.mem_map.mp hf
  exact h.fresh g hg

theorem Backed.addRefs (h : Backed s i n) (ids : List FilterId) : Backed (s.addRefs ids) i (n + ids.count i) := by
  obtain ⟨f, hf, rfl, hn⟩ := h
  exact ⟨_, List.mem_map.mpr ⟨f, hf, rfl⟩, rfl, Nat.add_le_add_right hn _⟩

theorem Backed.le (h : Backed s i n) (hm : m ≤ n) : Backed s i m := by
  obtain ⟨f, hf, hid, hn⟩ := h
  exact ⟨f, hf, hid, hm.trans hn⟩

theorem Counted.addRefs (h : Counted s) (refs : List FilterId) : Counted (s.addRefs refs) :=
  ⟨addRefs_ids s refs ▸ h.ids, addRefs_fresh h, h.tids, fun i hpos =>
    ((h.backed i hpos).addRefs refs).le (Nat.le_add_right _ _)⟩

theorem Counted.spawn (h : Counted s) : Counted (s.spawn parent child) := by
  unfold Emulator.spawn
  split
  · exact h
  · rename_i hnew
    have htids : (s.threads.map (·.tid) ++ [child]).Nodup := by
      refine List.nodup_append.mpr ⟨h.tids, List.nodup_singleton _, ?_⟩
      rintro a ha b hb rfl
      obtain ⟨t, ht, htid⟩ := List.mem_map.mp ha
      refine hnew (List.find?_isSome.mpr ⟨t, ht, ?_⟩)
      simpa [htid] using hb
    cases hp : parent.bind s.thread? with
    | none =>
      refine ⟨h.ids, h.fresh, by simpa using htids, fun i hpos => ?_⟩
      simp only [held, List.map_append, List.sum_append] at hpos ⊢
      exact h.backed i hpos
    | some p =>
      obtain ⟨ptid, -, hfind⟩ := Option.bind_eq_some_iff.mp hp
      have hmem := (thread?_mem hfind).1
      refine ⟨addRefs_ids s p.filters ▸ h.ids, addRefs_fresh h, by simpa [Emulator.addRefs] using htids,
        fun i hpos => ?_⟩
      simp only [held, Emulator.addRefs, List.map_append, List.sum_append, List.map_cons,
        List.map_nil, List.sum_cons, List.sum_nil] at hpos ⊢
      have hheld : 0 < s.held i := by
        have := count_le_held hmem i
        unfold held at this ⊢
        omega
      exact (h.backed i hheld).addRefs p.filters

theorem Backed.addRefs_foldl (h : Backed s i n) (ids : List FilterId) (others : List α) :
    Backed (others.foldl (fun s _ => s.addRefs ids) s) i (n + others.length * ids.count i) := by
  induction others generalizing s n with
  | nil => simpa using h
  | cons o others ih =>
    rw [List.length_cons, Nat.succ_mul, Nat.add_comm (others.length * _), ← Nat.add_assoc]
    exact ih (h.addRefs ids)

theorem addRefs_foldl_threads (ids : List FilterId) (others : List α) (s : Emulator) :
    (others.foldl (fun s _ => s.addRefs ids) s).threads = s.threads := by
  induction others generalizing s with
  | nil => rfl
  | cons o others ih => exact ih (s.addRefs ids)

theorem addRefs_foldl_generation (ids : List FilterId) (others : List α) (s : Emulator) :
    (others.foldl (fun s _ => s.addRefs ids) s).filterGeneration = s.filterGeneration := by
  induction others generalizing s with
  | nil => rfl
  | cons o others ih => exact ih (s.addRefs ids)

theorem Counted.addRefs_foldl (h : Counted s) (refs : List FilterId) (others : List α) :
    Counted (others.foldl (fun s _ => s.addRefs refs) s) := by
  induction others generalizing s with
  | nil => exact h
  | cons o others ih => exact ih (h.addRefs refs)

theorem Counted.length_le (h : Counted s) (tid : Tid) :
    s.threads.length ≤ (s.threads.filter (·.tid ≠ tid)).length + 1 := by
  have hone := List.nodup_iff_count_le_one.mp h.tids tid
  rw [List.count_eq_countP, List.countP_map, List.countP_eq_length_filter] at hone
  have hsplit := List.length_eq_length_filter_add (l := s.threads) (fun t => decide (t.tid ≠ tid))
  have heq : s.threads.filter (fun t => !decide (t.tid ≠ tid)) =
      s.threads.filter ((fun x => x == tid) ∘ fun t => t.tid) :=
    List.filter_congr fun t _ => by by_cases ht : t.tid = tid <;> simp [ht]
  rw [heq] at hsplit
  omega

theorem Counted.held_tsyncFilters (h : Counted s) (hc : caller ∈ s.threads) (i : FilterId) :
    (s.tsyncFilters caller).held i = s.threads.length * caller.filters.count i := by
  simp only [held, Emulator.tsyncFilters, addRefs_foldl_threads, List.map_map]
  have hall : ∀ t ∈ s.threads, ((fun t : Thread => t.filters.count i) ∘ tsyncThread caller) t =
      caller.filters.count i := by
    intro t ht
    dsimp only [Function.comp, tsyncThread]
    split
    · rename_i htid
      rw [h.thread_inj ht hc htid]
    · rfl
  rw [List.map_congr_left hall, List.map_const', List.sum_replicate_nat]

theorem Counted.tsyncFilters (h : Counted s) (hc : caller ∈ s.threads) : Counted (s.tsyncFilters caller) := by
  have hadd := h.addRefs_foldl caller.filters (s.threads.filter (·.tid ≠ caller.tid))
  have hheld := h.held_tsyncFilters hc
  refine ⟨hadd.ids, hadd.fresh, ?_, fun i hpos => ?_⟩
  · have htids : (s.tsyncFilters caller).threads.map (·.tid) = s.threads.map (·.tid) := by
      simp only [Emulator.tsyncFilters, addRefs_foldl_threads, List.map_map]
      refine List.map_congr_left fun t _ => ?_
      dsimp only [Function.comp, tsyncThread]
      split <;> rfl
    rw [htids]
    exact h.tids
  · rw [hheld] at hpos ⊢
    have hcount : 0 < caller.filters.count i := Nat.pos_of_mul_pos_left hpos
    have hmem := count_le_held hc i
    have hback := (h.backed i (hcount.trans_le hmem)).addRefs_foldl caller.filters
      (s.threads.filter (·.tid ≠ caller.tid))
    refine Backed.le hback ?_
    calc s.threads.length * caller.filters.count i
        ≤ ((s.threads.filter (·.tid ≠ caller.tid)).length + 1) * caller.filters.count i :=
          Nat.mul_le_mul_right _ (h.length_le caller.tid)
      _ = caller.filters.count i + (s.threads.filter (·.tid ≠ caller.tid)).length * caller.filters.count i := by
          rw [Nat.succ_mul, Nat.add_comm]
      _ ≤ _ := Nat.add_le_add_right hmem _

/-! ## Thread exit -/

theorem dropRef_foldl (refs : List FilterId) (acc : List FilterInfo × Bool) : (refs.foldl dropRef acc).1 =
      acc.1.map fun f => { f with refCount := f.refCount - refs.count f.id } := by
  induction refs generalizing acc with
  | nil => simp
  | cons r refs ih =>
    rw [List.foldl_cons, ih]
    simp only [dropRef, List.map_map]
    refine List.map_congr_left fun f _ => ?_
    by_cases hf : f.id = r
    · simp [hf, Nat.sub_sub, Nat.add_comm]
    · simp [hf, List.count_cons_of_ne (Ne.symm hf)]

theorem mem_exit_filters (hx : s.thread? tid = some t) (hf : f ∈ s.filters)
    (hpos : t.filters.count f.id < f.refCount) :
    { f with refCount := f.refCount - t.filters.count f.id } ∈ (s.exit tid).filters := by
  have hmem : { f with refCount := f.refCount - t.filters.count f.id } ∈
      (t.filters.foldl dropRef (s.filters, false)).1 := by
    rw [dropRef_foldl]
    exact List.mem_map.mpr ⟨f, hf, rfl⟩
  simp only [exit, hx]
  split
  · exact List.mem_filter.mpr ⟨hmem, by simpa using Nat.sub_ne_zero_of_lt hpos⟩
  · exact hmem

theorem exit_filters_sublist (hx : s.thread? tid = some t) : List.Sublist (s.exit tid).filters
      (s.filters.map fun f => { f with refCount := f.refCount - t.filters.count f.id }) := by
  simp only [exit, hx]
  split
  · rw [← dropRef_foldl t.filters (s.filters, false)]
    exact List.filter_sublist
  · rw [dropRef_foldl]

theorem held_exit (hx : s.thread? tid = some t) (i : FilterId) :
    (s.exit tid).held i + t.filters.count i ≤ s.held i := by
  obtain ⟨ht, rfl⟩ := thread?_mem hx
  simp only [held, exit, hx]
  generalize s.threads = ts at ht
  induction ts with
  | nil => cases ht
  | cons u ts ih =>
    have hsub : ((ts.filter (·.tid ≠ t.tid)).map (·.filters.count i)).sum ≤ (ts.map (·.filters.count i)).sum :=
      (List.filter_sublist.map _).sum_le_sum (by simp)
    rw [List.map_cons, List.sum_cons]
    rcases List.mem_cons.mp ht with rfl | hrest
    · rw [List.filter_cons_of_neg (by simp)]
      omega
    · have := ih hrest
      by_cases hu : u.tid = t.tid
      · rw [List.filter_cons_of_neg (by simpa using hu)]
        omega
      · rw [List.filter_cons_of_pos (by simpa using hu), List.map_cons, List.sum_cons]
        omega

theorem exit_none (hx : s.thread? tid = none) : s.exit tid = s := by simp only [exit, hx]

theorem Counted.exit_backed (h : Counted s) (hx : s.thread? tid = some t) (hpos : 0 < (s.exit tid).held i) :
    ∃ f ∈ s.filters, f.id = i ∧ (s.exit tid).held i + t.filters.count i ≤ f.refCount := by
  have hle := held_exit hx i
  obtain ⟨f, hf, hid, hn⟩ := h.backed i (by omega)
  exact ⟨f, hf, hid, hle.trans hn⟩

theorem Counted.exit (h : Counted s) : Counted (s.exit tid) := by
  cases hx : s.thread? tid with
  | none => exact (exit_none hx).symm ▸ h
  | some t =>
    have hsub := exit_filters_sublist hx
    refine ⟨?_, ?_, ?_, fun i hpos => ?_⟩
    · refine (hsub.map _).nodup ?_
      simpa [Function.comp_def] using h.ids
    · intro f hf
      obtain ⟨g, hg, rfl⟩ := List.mem_map.mp (hsub.subset hf)
      simp only [Emulator.exit, hx]
      exact h.fresh g hg
    · simp only [Emulator.exit, hx]
      exact (List.filter_sublist.map _).nodup h.tids
    · obtain ⟨f, hf, rfl, hn⟩ := h.exit_backed hx hpos
      exact ⟨_, mem_exit_filters hx hf (by omega), rfl, by dsimp only; omega⟩

theorem Counted.filter?_exit (h : Counted s) (hpos : 0 < (s.exit tid).held i) :
    (s.exit tid).filter? i = s.filter? i := by
  cases hx : s.thread? tid with
  | none => rw [exit_none hx]
  | some t =>
    obtain ⟨f, hf, rfl, hn⟩ := h.exit_backed hx hpos
    rw [filter?_of_mem h.ids hf]
    have hkept := filter?_of_mem h.exit.ids (mem_exit_filters hx hf (by omega))
    exact hkept

/-! ## The invariant of a run -/

structure Inv (s : Emulator) : Prop where
  counted : Counted s
  generation : s.filterGeneration ≠ 0
  caches : ∀ t ∈ s.threads, t.cache.generation.toNat ≤ s.filterGeneration.toNat
  valid : ∀ t ∈ s.threads, ∀ fs, s.resolve t.filters = some fs → Valid s.filterGeneration fs t.cache

theorem inv_init : Inv {} := by
  refine ⟨⟨List.nodup_nil, ?_, List.nodup_nil, ?_⟩, by decide, ?_, ?_⟩
  all_goals simp [held]

def CachesFrom (s s' : Emulator) : Prop := ∀ t' ∈ s'.threads, ∃ t ∈ s.threads, t'.cache = t.cache

theorem cachesFrom_refl (s : Emulator) : CachesFrom s s := fun t ht => ⟨t, ht, rfl⟩

theorem CachesFrom.trans (h : CachesFrom s s') (h' : CachesFrom s' s'') : CachesFrom s s'' := by
  intro t ht
  obtain ⟨u, hu, hc⟩ := h' t ht
  obtain ⟨v, hv, hc'⟩ := h u hu
  exact ⟨v, hv, hc.trans hc'⟩

theorem cachesFrom_modifyThread (hg : ∀ t, (g t).cache = t.cache) : CachesFrom s (s.modifyThread tid g) := by
  intro t' ht'
  obtain ⟨t, ht, rfl⟩ := mem_modifyThread ht'
  refine ⟨t, ht, ?_⟩
  split
  · exact hg t
  · rfl

theorem Inv.bump (h : Inv s) (hcounted : Counted s') (hfrom : CachesFrom s s')
    (hgen : s'.filterGeneration = s.filterGeneration) (hwrap : s.filterGeneration + 1 ≠ 0) :
    Inv s'.bumpGeneration := by
  have hnat : (s.filterGeneration + 1).toNat = s.filterGeneration.toNat + 1 := by bv_omega
  have hlt : ∀ t ∈ s'.threads, t.cache.generation.toNat < (s.filterGeneration + 1).toNat := by
    intro t ht
    obtain ⟨u, hu, hc⟩ := hfrom t ht
    have := h.caches u hu
    rw [hc]
    omega
  refine ⟨⟨hcounted.ids, hcounted.fresh, hcounted.tids, hcounted.backed⟩, ?_, ?_, ?_⟩
  · simpa only [bumpGeneration, hgen] using hwrap
  · intro t ht
    simp only [bumpGeneration, hgen]
    exact (hlt t ht).le
  · intro t ht fs _ he
    simp only [bumpGeneration, hgen] at he
    exact absurd (congrArg BitVec.toNat he) (hlt t ht).ne

/-! ## Steps -/

theorem Inv.killSignal (h : Inv s) (signal : Nat) : Inv { s with killSignal := signal } :=
  ⟨⟨h.counted.ids, h.counted.fresh, h.counted.tids, h.counted.backed⟩, h.generation, h.caches, h.valid⟩

theorem cachesFrom_setMode : CachesFrom s (s.setMode tid mode) := cachesFrom_modifyThread fun _ => rfl

theorem Inv.setMode (h : Inv s) : Inv (s.setMode tid mode) := by
  refine ⟨h.counted.setMode, h.generation, fun t' ht' => ?_, fun t' ht' fs hfs => ?_⟩
  · obtain ⟨t, ht, hc⟩ := cachesFrom_setMode t' ht'
    rw [hc]
    exact h.caches t ht
  · obtain ⟨t, ht, rfl⟩ := mem_modifyThread ht'
    have hsame : ∀ t : Thread, (if t.tid = tid then { t with seccompMode := mode } else t).filters = t.filters ∧
        (if t.tid = tid then { t with seccompMode := mode } else t).cache = t.cache := by
      intro t
      split <;> exact ⟨rfl, rfl⟩
    rw [(hsame t).1] at hfs
    rw [(hsame t).2]
    exact h.valid t ht fs hfs

theorem cachesFrom_addFilter : CachesFrom s (s.addFilter tid f) :=
  cachesFrom_modifyThread fun _ => rfl

theorem cachesFrom_tsyncFilters : CachesFrom s (s.tsyncFilters caller) := by
  intro t' ht'
  simp only [tsyncFilters, addRefs_foldl_threads] at ht'
  obtain ⟨t, ht, rfl⟩ := List.mem_map.mp ht'
  refine ⟨t, ht, ?_⟩
  unfold tsyncThread
  split <;> rfl

theorem tsyncFilters_generation : (s.tsyncFilters caller).filterGeneration = s.filterGeneration :=
  addRefs_foldl_generation ..

theorem Inv.install (h : Inv s) (hwrap : s.filterGeneration + 1 ≠ 0) : Inv (s.install tid flags f) := by
  have hcounted : Counted ((s.addFilter tid f).setMode tid modeFilter) := h.counted.addFilter.setMode
  have hfrom : CachesFrom s ((s.addFilter tid f).setMode tid modeFilter) :=
    cachesFrom_addFilter.trans cachesFrom_setMode
  unfold Emulator.install
  dsimp only
  split
  · split
    · rename_i caller hc
      exact h.bump (hcounted.tsyncFilters (thread?_mem hc).1) (hfrom.trans cachesFrom_tsyncFilters)
        tsyncFilters_generation hwrap
    · exact h.bump hcounted hfrom rfl hwrap
  · exact h.bump hcounted hfrom rfl hwrap

theorem setModeFilter_cases (s : Emulator) (tid : Tid) (flags : BitVec 32)
    (prog : Option (List SockFilter)) (noNewPrivs : Bool) :
    (s.setModeFilter tid flags prog noNewPrivs).2 = s ∨
      ∃ f, (s.setModeFilter tid flags prog noNewPrivs).2 = s.install tid flags f := by
  unfold setModeFilter
  split
  · exact .inl rfl
  · split
    · exact .inl rfl
    · split
      · exact .inl rfl
      · split
        · exact .inl rfl
        · dsimp only
          repeat' split
          all_goals first | exact .inl rfl | exact .inr ⟨_, rfl⟩

theorem Inv.setModeFilter (h : Inv s) (hwrap : s.filterGeneration + 1 ≠ 0) :
    Inv (s.setModeFilter tid flags prog noNewPrivs).2 := by
  rcases setModeFilter_cases s tid flags prog noNewPrivs with heq | ⟨f, heq⟩
  · rw [heq]
    exact h
  · rw [heq]
    exact h.install hwrap

theorem Inv.setModeStrict (h : Inv s) (hwrap : s.filterGeneration + 1 ≠ 0) :
    Inv (s.setModeStrict tid flags argNull noNewPrivs).2 := by
  unfold Emulator.setModeStrict
  split
  · exact h
  · split
    · exact h
    · split
      · exact h
      · exact ((h.killSignal sigKill).setModeFilter hwrap).setMode

theorem Inv.spawn (h : Inv s) : Inv (s.spawn parent child) := by
  have hcounted : Counted (s.spawn parent child) := h.counted.spawn
  -- the threads are the old ones and perhaps one with a cache of generation 0
  have hshape : (s.spawn parent child).filterGeneration = s.filterGeneration ∧
      (∀ i, (s.spawn parent child).filter? i = s.filter? i) ∧
      ∀ t ∈ (s.spawn parent child).threads, t ∈ s.threads ∨ t.cache.generation = 0 := by
    unfold Emulator.spawn
    split
    · exact ⟨rfl, fun _ => rfl, fun t ht => .inl ht⟩
    · split
      · refine ⟨rfl, fun _ => rfl, fun t ht => ?_⟩
        rcases List.mem_append.mp ht with ht | ht
        · exact .inl ht
        · exact .inr (List.mem_singleton.mp ht ▸ rfl)
      · rename_i p _
        refine ⟨rfl, fun i => filter?_addRefs s p.filters i, fun t ht => ?_⟩
        rcases List.mem_append.mp ht with ht | ht
        · exact .inl ht
        · exact .inr (List.mem_singleton.mp ht ▸ rfl)
  obtain ⟨hgen, hfilter, hthreads⟩ := hshape
  refine ⟨hcounted, hgen ▸ h.generation, fun t ht => ?_, fun t ht fs hfs he => ?_⟩
  · rw [hgen]
    rcases hthreads t ht with hold | hnew
    · exact h.caches t hold
    · simp [hnew]
  · rw [hgen] at he
    rcases hthreads t ht with hold | hnew
    · rw [resolve_congr fun i _ => hfilter i] at hfs
      exact h.valid t hold fs hfs he
    · exact absurd (he.symm.trans hnew) h.generation

theorem exit_shape (s : Emulator) (tid : Tid) : (s.exit tid).filterGeneration = s.filterGeneration ∧
      (s.exit tid).totalFilterInstructions = s.totalFilterInstructions ∧
      ∀ t ∈ (s.exit tid).threads, t ∈ s.threads := by
  unfold Emulator.exit
  split
  · exact ⟨rfl, rfl, fun _ ht => ht⟩
  · exact ⟨rfl, rfl, fun _ ht => (List.mem_filter.mp ht).1⟩

theorem Inv.exit (h : Inv s) : Inv (s.exit tid) := by
  obtain ⟨hgen, -, hthreads⟩ := exit_shape s tid
  refine ⟨h.counted.exit, hgen ▸ h.generation, fun t ht => hgen ▸ h.caches t (hthreads t ht), fun t ht fs hfs => ?_⟩
  rw [resolve_congr fun i hi => h.counted.filter?_exit (held_pos ht hi)] at hfs
  exact hgen ▸ h.valid t (hthreads t ht) fs hfs

/-! ## Filters handed across execve -/

/-- Every filter the header announces can be read and passes the checks. -/
def FilterImage.Complete (image : FilterImage) : Prop :=
  ∀ header, image.header = some header → header.1 ≤ image.filters.length ∧
    ∀ f ∈ image.filters.take header.1, f.check.isSome

def FilterImage.Rejected (image : FilterImage) : Prop := image.filters.head?.bind (·.check) = none

def Unused (s : Emulator) (tid : Tid) : Prop :=
  ∀ t ∈ s.threads, t.tid = tid → t.cache.generation ≠ s.filterGeneration

theorem readFilters_complete (hlen : n ≤ fs.length) (h : ∀ f ∈ fs.take n, f.check.isSome) : (readFilters n fs).2 := by
  induction n generalizing fs with
  | zero => rfl
  | succ n ih =>
    cases fs with
    | nil => cases hlen
    | cons f fs =>
      obtain ⟨g, hg⟩ := Option.isSome_iff_exists.mp (h f (List.mem_cons_self ..))
      simp only [readFilters, hg]
      exact ih (Nat.le_of_succ_le_succ hlen) fun f hf => h f (List.mem_cons_of_mem _ hf)

theorem readFilters_rejected (h : fs.head?.bind (·.check) = none) : (readFilters n fs).1 = [] := by
  cases n with
  | zero => rfl
  | succ n =>
    cases fs with
    | nil => rfl
    | cons f fs => simp only [readFilters, show f.check = none from h]

theorem addFilter_foldl (tid : Tid) (fs : List Filter) (h : Counted s) :
    Counted (fs.foldl (fun s f => s.addFilter tid f) s) ∧ CachesFrom s (fs.foldl (fun s f => s.addFilter tid f) s) ∧
      (fs.foldl (fun s f => s.addFilter tid f) s).filterGeneration = s.filterGeneration := by
  induction fs generalizing s with
  | nil => exact ⟨h, cachesFrom_refl s, rfl⟩
  | cons f fs ih =>
    obtain ⟨hc, hfrom, hgen⟩ := ih (h.addFilter)
    exact ⟨hc, cachesFrom_addFilter.trans hfrom, hgen⟩

theorem filter?_addFilter (hne : i ≠ s.nextId) : (s.addFilter tid f).filter? i = s.filter? i := by
  simp [filter?, addFilter, modifyThread, Ne.symm hne]

/-- Appending a filter without a bump is harmless while the thread's cache is not current. -/
theorem Inv.addFilter (h : Inv s) (hu : s.Unused tid) : Inv (s.addFilter tid f) ∧ (s.addFilter tid f).Unused tid := by
  have hmem : ∀ t' ∈ (s.addFilter tid f).threads, ∃ t ∈ s.threads,
      t'.tid = t.tid ∧ t'.cache = t.cache ∧ (t'.tid ≠ tid → t' = t) := by
    intro t' ht'
    obtain ⟨t, ht, rfl⟩ := mem_modifyThread ht'
    refine ⟨t, ht, ?_⟩
    split
    · rename_i htid
      exact ⟨rfl, rfl, fun hne => absurd htid hne⟩
    · exact ⟨rfl, rfl, fun _ => rfl⟩
  have hunused : (s.addFilter tid f).Unused tid := by
    intro t' ht' htid
    obtain ⟨t, ht, hid, hc, -⟩ := hmem t' ht'
    rw [hc]
    exact hu t ht (hid.symm.trans htid)
  refine ⟨⟨h.counted.addFilter, h.generation, fun t' ht' => ?_, fun t' ht' fs hfs he => ?_⟩, hunused⟩
  · obtain ⟨t, ht, -, hc, -⟩ := hmem t' ht'
    rw [hc]
    exact h.caches t ht
  · obtain ⟨t, ht, -, -, hsame⟩ := hmem t' ht'
    have hother : t'.tid ≠ tid := fun htid => hunused t' ht' htid he
    obtain rfl := hsame hother
    rw [resolve_congr fun i hi => filter?_addFilter (h.counted.mem_lt ht hi).ne] at hfs
    exact h.valid t' ht fs hfs he

theorem Inv.addFilter_foldl (h : Inv s) (hu : s.Unused tid) (fs : List Filter) :
    Inv (fs.foldl (fun s f => s.addFilter tid f) s) := by
  induction fs generalizing s with
  | nil => exact h
  | cons f fs ih =>
    obtain ⟨h', hu'⟩ := h.addFilter hu
    exact ih h' hu'

theorem Inv.deserializeFilters (h : Inv s) (hwrap : s.filterGeneration + 1 ≠ 0)
    (himage : FilterImage.Complete image ∨ FilterImage.Rejected image ∨ s.Unused tid) :
    Inv (s.deserializeFilters tid image) := by
  unfold Emulator.deserializeFilters
  split
  · exact h
  · rename_i count mode hheader
    dsimp only
    obtain ⟨hc, hfrom, hgen⟩ := Emulator.addFilter_foldl tid (readFilters count image.filters).1 h.counted
    split
    · exact h.bump hc.setMode (hfrom.trans cachesFrom_setMode) hgen hwrap
    · rename_i hfail
      rcases himage with hcomplete | hrejected | hunused
      · obtain ⟨hlen, hchecks⟩ := hcomplete _ hheader
        exact absurd (readFilters_complete hlen hchecks) hfail
      · rw [readFilters_rejected hrejected]
        exact h
      · exact h.addFilter_foldl hunused _

/-! ## Syscalls -/

theorem executeFilter_eq (ht : s.thread? tid = some t) (hfs : s.resolve t.filters = some fs)
    (c : Syscall) : s.executeFilter tid c = some ((executeFilterOn s.killSignal s.filterGeneration fs t.cache c).1,
        s.modifyThread tid fun u => { u with
          cache := (executeFilterOn s.killSignal s.filterGeneration fs t.cache c).2 }) := by
  simp [executeFilter, ht, hfs]

theorem Inv.syscall (h : Inv s) (c : Syscall) : Inv (((s.executeFilter tid c).map (·.2)).getD s) := by
  cases ht : s.thread? tid with
  | none => simpa [executeFilter, ht] using h
  | some t =>
    obtain ⟨hmem, htid⟩ := thread?_mem ht
    obtain ⟨fs, hfs⟩ := h.counted.resolve hmem
    have hvalid := h.valid t hmem fs hfs
    rw [executeFilter_eq ht hfs c, Option.map_some]
    have hcases : ∀ u ∈ s.threads, u.tid = tid → u = t := fun u hu he =>
      h.counted.thread_inj hu hmem (he.trans htid.symm)
    refine ⟨?_, h.generation, fun u' hu' => ?_, fun u' hu' gs hgs => ?_⟩
    · refine h.counted.of_held_le rfl rfl (modifyThread_tids s fun _ => rfl) fun i => ?_
      exact held_modifyThread (k := 0) h.counted.tids fun u => Nat.le_refl (u.filters.count i)
    · obtain ⟨u, hu, rfl⟩ := mem_modifyThread hu'
      split
      · rcases executeFilterOn_generation s.killSignal c hvalid with hg | hg
        · exact (congrArg BitVec.toNat hg).le.trans (h.caches t hmem)
        · exact (congrArg BitVec.toNat hg).le
      · exact h.caches u hu
    · obtain ⟨u, hu, rfl⟩ := mem_modifyThread hu'
      split at hgs
      · rename_i he
        rw [if_pos he]
        obtain rfl := hcases u hu he
        have hsame : gs = fs := Option.some_inj.mp (hgs.symm.trans hfs)
        subst hsame
        exact executeFilterOn_valid hvalid
      · rename_i he
        rw [if_neg he]
        exact h.valid u hu gs hgs

/-! ## Runs -/

theorem Counted.bumpGeneration (h : Counted s) : Counted s.bumpGeneration := ⟨h.ids, h.fresh, h.tids, h.backed⟩

/-- What adding the filter gives, a TSYNC and the new generation keep. -/
theorem install_induction {P : Emulator → Prop} (hadded : P ((s.addFilter tid f).setMode tid modeFilter))
    (htsync : ∀ caller, flags &&& flagTsync ≠ 0 → ((s.addFilter tid f).setMode tid modeFilter).thread? tid = some caller →
      P (((s.addFilter tid f).setMode tid modeFilter).tsyncFilters caller))
    (hbump : ∀ s, P s → P s.bumpGeneration) : P (s.install tid flags f) := by
  unfold Emulator.install
  dsimp only
  split
  next hflag =>
    split
    next caller hc => exact hbump _ (htsync caller hflag hc)
    next => exact hbump _ hadded
  next => exact hbump _ hadded

theorem Counted.install (h : Counted s) : Counted (s.install tid flags f) := by
  have hadded : Counted ((s.addFilter tid f).setMode tid modeFilter) := h.addFilter.setMode
  exact install_induction hadded (fun _ _ hc => hadded.tsyncFilters (thread?_mem hc).1) fun _ h => h.bumpGeneration

theorem Counted.setModeFilter (h : Counted s) : Counted (s.setModeFilter tid flags prog noNewPrivs).2 := by
  obtain heq | ⟨f, heq⟩ := setModeFilter_cases s tid flags prog noNewPrivs
  · rwa [heq]
  · rw [heq]
    exact h.install

theorem Counted.deserializeFilters (h : Counted s) : Counted (s.deserializeFilters tid image) := by
  unfold Emulator.deserializeFilters
  split
  · exact h
  · dsimp only
    obtain ⟨hc, -, -⟩ := Emulator.addFilter_foldl tid (readFilters _ image.filters).1 h
    split
    · exact hc.setMode.bumpGeneration
    · exact hc

theorem Counted.step (h : Counted s) (op : Op) : Counted (s.step op) := by
  cases op with
  | setModeFilter tid flags prog nnp => exact h.setModeFilter
  | setModeStrict tid flags argNull nnp =>
    simp only [Emulator.step, Emulator.setModeStrict]
    have hkill : Counted { s with killSignal := sigKill } := ⟨h.ids, h.fresh, h.tids, h.backed⟩
    repeat' split
    all_goals first | exact h | exact hkill.setModeFilter.setMode
  | spawn parent child => exact h.spawn
  | deserialize tid image => exact h.deserializeFilters
  | exit tid => exact h.exit
  | syscall tid c =>
    simp only [Emulator.step, executeFilter]
    cases ht : s.thread? tid with
    | none => exact h
    | some t =>
      obtain ⟨fs, hfs⟩ := h.resolve (thread?_mem ht).1
      simp only [hfs, Option.bind_eq_bind, Option.bind_some]
      refine h.of_held_le rfl rfl (modifyThread_tids s fun _ => rfl) fun i => ?_
      exact held_modifyThread (k := 0) h.tids fun u => Nat.le_refl (u.filters.count i)

theorem counted_run (ops : List Op) : Counted (run {} ops) := by
  suffices ∀ s, Counted s → Counted (run s ops) from this {} inv_init.counted
  induction ops with
  | nil => exact fun _ h => h
  | cons op ops ih => exact fun s h => ih _ (h.step op)

/-- The generation does not wrap, and filters handed across `execve` are either
all accepted, none of them taken over, or taken over by a thread whose cache is
not in use. -/
def Covered (s : Emulator) : Op → Prop
  | .setModeFilter .. | .setModeStrict .. => s.filterGeneration + 1 ≠ 0
  | .deserialize tid image => s.filterGeneration + 1 ≠ 0 ∧
      (FilterImage.Complete image ∨ FilterImage.Rejected image ∨ s.Unused tid)
  | .spawn .. | .exit .. | .syscall .. => True

theorem Inv.step (h : Inv s) (hop : s.Covered op) : Inv (s.step op) := by
  cases op with
  | setModeFilter tid flags prog nnp => exact h.setModeFilter hop
  | setModeStrict tid flags argNull nnp => exact h.setModeStrict hop
  | spawn parent child => exact h.spawn
  | deserialize tid image => exact h.deserializeFilters hop.1 hop.2
  | exit tid => exact h.exit
  | syscall tid c => exact h.syscall c

/-- In every state a covered run reaches, a syscall gets the verdict of running
every filter of its thread on its `seccomp_data`. -/
theorem run_executeFilter_eq (hrun : Admissible step Covered {} ops)
    (ht : (run {} ops).thread? tid = some t) (hc : ¬c.MatchesEmpty) :
    ∃ fs, (run {} ops).resolve t.filters = some fs ∧ ((run {} ops).executeFilter tid c).map (·.1) =
        some (uncachedVerdict (run {} ops).killSignal fs c) := by
  have h : Inv (run {} ops) := foldl_invariant (fun _ _ => Inv.step) inv_init hrun
  have hmem := (thread?_mem ht).1
  obtain ⟨fs, hfs⟩ := h.counted.resolve hmem
  refine ⟨fs, hfs, ?_⟩
  rw [executeFilter_eq ht hfs c, Option.map_some, executeFilterOn_eq (h.valid t hmem fs hfs) hc]

def denyByPC : List SockFilter := [⟨0x20, 0, 0, 8⟩, ⟨0x06, 0, 0, 0x50001⟩]

def denyRun : List Op := [.spawn none 1, .setModeFilter 1 0 (some denyByPC) true]

def getpidCall : Syscall := ⟨0x400000, 172, fun _ => 0⟩

theorem run_executeFilter_eq_getpid : ∃ fs, (run {} denyRun).resolve [0] = some fs ∧
      ((run {} denyRun).executeFilter 1 getpidCall).map (·.1) =
        some (uncachedVerdict (run {} denyRun).killSignal fs getpidCall) :=
  run_executeFilter_eq (t := ⟨1, modeFilter, [0], {}⟩) ⟨trivial, by unfold Covered; decide, trivial⟩ rfl (by decide)

def allowAll : List SockFilter := [⟨0x06, 0, 0, retAllow⟩]

def cutImage : FilterImage := ⟨some (2, modeFilter), [⟨16, 2, false, denyByPC⟩]⟩

def cutRun : List Op :=
  [.spawn none 1, .setModeFilter 1 0 (some allowAll) true, .syscall 1 getpidCall, .deserialize 1 cutImage]

/-- The key of an empty entry of the PC table is allowed without running the
filter that denies it; so is a remembered syscall after a filter list that broke
off, whose first filter is in force without a bump. -/
theorem run_executeFilter_ne :
    (∃ fs, ((run {} denyRun).thread? 1).bind ((run {} denyRun).resolve ·.filters) = some fs ∧
      ((run {} denyRun).executeFilter 1 ⟨0, -1, fun _ => 0⟩).map (·.1) = some {} ∧
      uncachedVerdict (run {} denyRun).killSignal fs ⟨0, -1, fun _ => 0⟩ =
        { earlyReturn := true, result := errno 1 }) ∧
    ∃ fs, ((run {} cutRun).thread? 1).bind ((run {} cutRun).resolve ·.filters) = some fs ∧
      ((run {} cutRun).executeFilter 1 getpidCall).map (·.1) = some {} ∧
      uncachedVerdict (run {} cutRun).killSignal fs getpidCall = { earlyReturn := true, result := errno 1 } :=
  ⟨⟨[⟨denyByPC, false, by decide⟩], by decide, by decide, by decide⟩,
    ⟨[⟨allowAll, false, by decide⟩, ⟨denyByPC, false, by decide⟩], by decide, by decide, by decide⟩⟩

end PowerArm.Seccomp.Emulator
