import PowerArm.Lookup.LinkLaws

/-!
# The index of the retained blocks

A block that a soft invalidation keeps aside is listed under the pages of its code. The
index changes in two ways only: an address is taken off the pages of its entry, or put
on the pages of a new one. A property of the retained tables that these two keep
(`Retains`) holds after every operation, so the index is exact (`retained_exact`).
-/

namespace PowerArm.Lookup

open Function (update update_eq_self update_of_ne update_self)

namespace GuestToHostMap

variable {m m' : GuestToHostMap} {a x start length endAddr base : BitVec 64} {e : BlockEntry}

def RetainedIndexed (m : GuestToHostMap) : Prop :=
  ∀ a e, m.retainedBlocks a = some e → ∀ p ∈ e.codePages, a ∈ (m.retainedCodePages (pageIndex p)).getD []

structure RetainedExact (m : GuestToHostMap) : Prop where
  listed : ∀ page a, a ∈ (m.retainedCodePages page).getD [] ↔
    ∃ e, m.retainedBlocks a = some e ∧ ∃ p ∈ e.codePages, pageIndex p = page
  nonempty : ∀ page, m.retainedCodePages page ≠ some []

/-! ## Taking an address off the index, and putting it on -/

section
variable (x : BitVec 64) (index : Nat → Option (List (BitVec 64))) (p : BitVec 64) (ps : List (BitVec 64))

theorem mem_unindexRetained : a ∈ (unindexRetained x index p page).getD [] ↔
      a ∈ (index page).getD [] ∧ ¬(a = x ∧ pageIndex p = page) := by
  unfold unindexRetained
  by_cases hp : pageIndex p = page
  · subst hp
    cases haddrs : index (pageIndex p) with
    | none => simp [haddrs]
    | some addrs =>
      dsimp only
      rw [update_self, getD_of_isEmpty]
      simp
  · cases index (pageIndex p) with
    | none => simp [hp]
    | some addrs =>
      dsimp only
      rw [update_of_ne (Ne.symm hp)]
      simp [hp]

theorem mem_foldl_unindexRetained : a ∈ (ps.foldl (unindexRetained x) index page).getD [] ↔
      a ∈ (index page).getD [] ∧ ¬(a = x ∧ ∃ p ∈ ps, pageIndex p = page) := by
  induction ps generalizing index with
  | nil => simp
  | cons p ps ih =>
    rw [List.foldl_cons, ih, mem_unindexRetained]
    simp [and_or_left, not_or, and_assoc]

theorem foldl_unindexRetained_nonempty (h : ∀ page, index page ≠ some []) (page : Nat) :
    ps.foldl (unindexRetained x) index page ≠ some [] := by
  induction ps generalizing index with
  | nil => exact h page
  | cons p ps ih =>
    refine ih _ fun page => ?_
    unfold unindexRetained
    cases index (pageIndex p) with
    | none => exact h page
    | some addrs =>
      dsimp only
      by_cases hp : page = pageIndex p
      · rw [hp, update_self]
        split
        next => exact nofun
        next hrest => simpa using hrest
      · rw [update_of_ne hp]
        exact h page

private abbrev indexRetained (x : BitVec 64) (index : Nat → Option (List (BitVec 64))) (p : BitVec 64) :
    Nat → Option (List (BitVec 64)) :=
  update index (pageIndex p) (some (((index (pageIndex p)).getD []).insert x))

theorem mem_foldl_indexRetained : a ∈ (ps.foldl (indexRetained x) index page).getD [] ↔
      a ∈ (index page).getD [] ∨ a = x ∧ ∃ p ∈ ps, pageIndex p = page := by
  induction ps generalizing index with
  | nil => simp
  | cons p ps ih =>
    rw [List.foldl_cons, ih]
    by_cases hp : pageIndex p = page
    · subst hp
      rw [indexRetained, update_self, Option.getD_some, List.mem_insert_iff]
      tauto
    · rw [indexRetained, update_of_ne (Ne.symm hp)]
      simp [hp]

theorem foldl_indexRetained_nonempty (h : ∀ page, index page ≠ some []) (page : Nat) :
    ps.foldl (indexRetained x) index page ≠ some [] := by
  induction ps generalizing index with
  | nil => exact h page
  | cons p ps ih =>
    refine ih _ fun page => ?_
    by_cases hp : page = pageIndex p
    · rw [hp, indexRetained, update_self]
      exact fun heq => List.ne_nil_of_mem (List.mem_insert_self) (Option.some.inj heq)
    · rw [indexRetained, update_of_ne hp]
      exact h page

end

theorem retainedBlocks_drop (m : GuestToHostMap) (x : BitVec 64) :
    (m.dropRetainedBlockLocked x).retainedBlocks = update m.retainedBlocks x none := by
  unfold dropRetainedBlockLocked
  split
  next hnone => rw [← hnone, update_eq_self]
  next => rfl

/-! ## What every operation keeps -/

/-- A property of the retained tables that taking an entry out and keeping a block
aside leave true. -/
structure Retains (P : GuestToHostMap → Prop) : Prop where
  same : ∀ {m m'}, P m → m'.retainedBlocks = m.retainedBlocks → m'.retainedCodePages = m.retainedCodePages → P m'
  empty : ∀ m, m.retainedBlocks = (fun _ => none) → m.retainedCodePages = (fun _ => none) → P m
  drop : ∀ {m}, P m → ∀ x, P (m.dropRetainedBlockLocked x)
  soft : ∀ {m}, P m → ∀ x, P (m.softEraseBlock x)

variable {P : GuestToHostMap → Prop}

theorem Retains.dropRetainedRange (hP : Retains P) (h : P m) (start length : BitVec 64) :
    P (m.dropRetainedRange start length) :=
  List.foldlRecOn _ _ h fun _ h x _ => hP.drop h x

theorem Retains.erasePages (hP : Retains P) (eraseBlock : GuestToHostMap → BitVec 64 → GuestToHostMap)
    (hf : ∀ m x, P m → P (eraseBlock m x)) (h : P m) (start length : BitVec 64) :
    P (m.erasePages eraseBlock start length) := by
  refine hP.same (List.foldlRecOn (motive := P) (pageIndexes start length) (erasePage eraseBlock) h
    fun m h page _ => ?_) rfl rfl
  unfold erasePage
  split
  next => exact h
  next => exact hP.same (List.foldlRecOn (motive := P) _ eraseBlock h fun m h x _ => hf m x h) rfl rfl

theorem Retains.invalidateErase (hP : Retains P) (h : P m) (start length : BitVec 64) :
    P (m.erasePages GuestToHostMap.erase start length) :=
  hP.erasePages erase (fun _ _ h => hP.same h rfl rfl) h start length

theorem retained_preciseEntries (w : PreciseWalk) (entries : List (BitVec 64)) :
    (entries.foldl (preciseEntry start endAddr base) w).map.retainedBlocks = w.map.retainedBlocks ∧
    (entries.foldl (preciseEntry start endAddr base) w).map.retainedCodePages = w.map.retainedCodePages := by
  induction entries generalizing w with
  | nil => exact ⟨rfl, rfl⟩
  | cons x entries ih =>
    have hx : (preciseEntry start endAddr base w x).map.retainedBlocks = w.map.retainedBlocks ∧
        (preciseEntry start endAddr base w x).map.retainedCodePages = w.map.retainedCodePages := by
      unfold preciseEntry
      split
      · exact ⟨rfl, rfl⟩
      · split
        · exact ⟨rfl, rfl⟩
        · exact ⟨rfl, rfl⟩
    obtain ⟨hblocks, hpages⟩ := ih (preciseEntry start endAddr base w x)
    exact ⟨hblocks.trans hx.1, hpages.trans hx.2⟩

theorem retained_precisePages (start endAddr : BitVec 64) (m : GuestToHostMap) (n : Nat) (pages : List Nat) :
    (pages.foldl (precisePage start endAddr) (m, n)).1.retainedBlocks = m.retainedBlocks ∧
    (pages.foldl (precisePage start endAddr) (m, n)).1.retainedCodePages = m.retainedCodePages := by
  induction pages generalizing m n with
  | nil => exact ⟨rfl, rfl⟩
  | cons page pages ih =>
    have hpage : (precisePage start endAddr (m, n) page).1.retainedBlocks = m.retainedBlocks ∧
        (precisePage start endAddr (m, n) page).1.retainedCodePages = m.retainedCodePages := by
      unfold precisePage
      split
      · exact ⟨rfl, rfl⟩
      · exact retained_preciseEntries _ _
    obtain ⟨hblocks, hindex⟩ := ih (precisePage start endAddr (m, n) page).1
      (precisePage start endAddr (m, n) page).2
    exact ⟨hblocks.trans hpage.1, hindex.trans hpage.2⟩

theorem Retains.mapStep (hP : Retains P) (h : P m) (op : LinkedMap.Op) : P (LinkedMap.mapStep m op) := by
  cases op with
  | addBlockMapping addr e => exact hP.same h rfl rfl
  | addBlockExecutableRange addresses start length guestRangeStart guestRangeLength alloc =>
    exact List.foldlRecOn (motive := P) _ (addPage addresses guestRangeStart guestRangeLength alloc) h
      fun _ h _ _ => hP.same h rfl rfl
  | addBlockLink dest link => exact h
  | erase addr => exact hP.same h rfl rfl
  | takeRetainedBlock addr => exact hP.drop h addr
  | invalidateRange start length => exact hP.dropRetainedRange (hP.invalidateErase h start length) start length
  | softInvalidateRange start length => exact hP.erasePages _ (fun _ x h => hP.soft h x) h start length
  | invalidateRangePrecise start length =>
    obtain ⟨hblocks, hindex⟩ := retained_precisePages start (start + length) m 0 (pageIndexes start length)
    exact hP.dropRetainedRange (hP.same h hblocks hindex) start length
  | clearCache => exact hP.empty _ rfl rfl

/-! ## The index -/

theorem RetainedIndexed.of_same (h : m.RetainedIndexed) (hblocks : m'.retainedBlocks = m.retainedBlocks)
    (hpages : m'.retainedCodePages = m.retainedCodePages) : m'.RetainedIndexed := by
  simpa only [RetainedIndexed, hblocks, hpages] using h

theorem RetainedExact.indexed (h : m.RetainedExact) : m.RetainedIndexed :=
  fun a e he p hp => (h.listed _ a).mpr ⟨e, he, p, hp, rfl⟩

theorem RetainedIndexed.dropRetainedBlockLocked (h : m.RetainedIndexed) (x : BitVec 64) :
    (m.dropRetainedBlockLocked x).RetainedIndexed := by
  unfold GuestToHostMap.dropRetainedBlockLocked
  split
  next => exact h
  next ex hx =>
    intro a e he p hp
    by_cases hax : a = x
    · simp [hax] at he
    · simp only [update_of_ne hax] at he
      exact (mem_foldl_unindexRetained x _ _).mpr ⟨h a e he p hp, fun hself => hax hself.1⟩

theorem RetainedIndexed.softEraseBlock (h : m.RetainedIndexed) (x : BitVec 64) :
    (m.softEraseBlock x).RetainedIndexed := by
  unfold GuestToHostMap.softEraseBlock
  split
  next => exact h
  next ex _ =>
    split
    next => exact h.of_same rfl rfl
    next =>
      have hdrop := h.dropRetainedBlockLocked x
      intro a e he p hp
      refine (mem_foldl_indexRetained x _ _).mpr ?_
      by_cases hax : a = x
      · obtain rfl : ex = e := by simpa [hax] using he
        exact .inr ⟨hax, p, hp, rfl⟩
      · simp only [update_of_ne hax] at he
        exact .inl (hdrop a e he p hp)

theorem retains_retainedIndexed : Retains RetainedIndexed where
  same h := h.of_same
  empty m hblocks _ := by simp [RetainedIndexed, hblocks]
  drop h := h.dropRetainedBlockLocked
  soft h := h.softEraseBlock

theorem RetainedExact.of_same (h : m.RetainedExact) (hblocks : m'.retainedBlocks = m.retainedBlocks)
    (hpages : m'.retainedCodePages = m.retainedCodePages) : m'.RetainedExact := by
  constructor
  · rw [hblocks, hpages]
    exact h.listed
  · rw [hpages]
    exact h.nonempty

theorem RetainedExact.dropRetainedBlockLocked (h : m.RetainedExact) (x : BitVec 64) :
    (m.dropRetainedBlockLocked x).RetainedExact := by
  unfold GuestToHostMap.dropRetainedBlockLocked
  split
  next => exact h
  next ex hx =>
    refine ⟨fun page a => ?_, foldl_unindexRetained_nonempty x _ _ h.nonempty⟩
    rw [mem_foldl_unindexRetained, h.listed]
    by_cases hax : a = x
    · subst hax
      simp [hx]
    · simp [hax]

theorem RetainedExact.softEraseBlock (h : m.RetainedExact) (x : BitVec 64) : (m.softEraseBlock x).RetainedExact := by
  unfold GuestToHostMap.softEraseBlock
  split
  next => exact h
  next ex _ =>
    split
    next => exact h.of_same rfl rfl
    next =>
      have hdrop := h.dropRetainedBlockLocked x
      refine ⟨fun page a => ?_, foldl_indexRetained_nonempty x _ _ hdrop.nonempty⟩
      refine (mem_foldl_indexRetained x _ _).trans ?_
      simp only [hdrop.listed, retainedBlocks_drop]
      -- the older copy of the block is off the index before the new one goes on
      by_cases hax : a = x
      · subst hax
        simp
      · simp [hax]

theorem retains_retainedExact : Retains RetainedExact where
  same h := h.of_same
  empty m hblocks hpages := ⟨by simp [hblocks, hpages], by simp [hpages]⟩
  drop h := h.dropRetainedBlockLocked
  soft h := h.softEraseBlock

/-! ## What a hard invalidation drops -/

theorem retainedBlocks_foldl_drop (m : GuestToHostMap) (doomed : List (BitVec 64)) :
    (doomed.foldl dropRetainedBlockLocked m).retainedBlocks a =
      if a ∈ doomed then none else m.retainedBlocks a := by
  induction doomed generalizing m with
  | nil => simp
  | cons x doomed ih =>
    rw [List.foldl_cons, ih, retainedBlocks_drop]
    by_cases hax : a = x
    · simp [hax]
    · simp [hax]

theorem RetainedIndexed.gone (h : m.RetainedIndexed) (he : m.retainedBlocks a = some e)
    (hp : p ∈ e.codePages) (hpage : pageIndex p ∈ pageIndexes start length) :
    (m.dropRetainedRange start length).retainedBlocks a = none := by
  have hdoomed : a ∈ (pageIndexes start length).flatMap fun page => (m.retainedCodePages page).getD [] :=
    List.mem_flatMap.mpr ⟨_, hpage, h a e he p hp⟩
  unfold dropRetainedRange
  rw [retainedBlocks_foldl_drop, if_pos hdoomed]

theorem RetainedIndexed.off_range (h : m.RetainedIndexed)
    (he : (m.dropRetainedRange start length).retainedBlocks a = some e) (hp : p ∈ e.codePages) :
    pageIndex p ∉ pageIndexes start length := by
  intro hpage
  have hbefore : m.retainedBlocks a = some e := by
    unfold dropRetainedRange at he
    rw [retainedBlocks_foldl_drop] at he
    split at he
    · cases he
    · exact he
  exact absurd ((h.gone hbefore hp hpage).symm.trans he) nofun

end GuestToHostMap

/-! ## Runs -/

namespace LinkedMap

open GuestToHostMap

variable {m m' : LinkedMap} {start length : BitVec 64}

def Touches (start length : BitVec 64) (page : Nat) : Prop :=
  ∃ x, start.toNat ≤ x ∧ x < start.toNat + length.toNat ∧ x / pageSize = page

theorem touches_iff_of_le (hpos : 0 < length.toNat) (hle : start.toNat + length.toNat ≤ 2 ^ 64) :
    Touches start length page ↔ page ∈ pageIndexes start length := by
  have hlast : (start + length - 1).toNat = start.toNat + length.toNat - 1 := by bv_omega
  rw [mem_pageIndexes]
  unfold Touches pageIndex pageSize
  constructor
  · omega
  · rintro ⟨hle, hle'⟩
    refine ⟨max start.toNat (page * 4096), ?_, ?_, ?_⟩
    all_goals omega

def hardInvalidations (start length : BitVec 64) : List Op :=
  [.invalidateRange start length, .invalidateRangePrecise start length]

theorem mapStep_off_range {m : GuestToHostMap} (h : m.RetainedExact)
    (hop : op ∈ hardInvalidations start length) (he : (mapStep m op).retainedBlocks a = some e)
    (hp : p ∈ e.codePages) : pageIndex p ∉ pageIndexes start length := by
  simp only [hardInvalidations, List.mem_cons, List.not_mem_nil, or_false] at hop
  rcases hop with rfl | rfl
  · exact (retains_retainedExact.invalidateErase h start length).indexed.off_range he hp
  · obtain ⟨hblocks, hindex⟩ := retained_precisePages start (start + length) m 0 (pageIndexes start length)
    exact (h.of_same hblocks hindex).indexed.off_range he hp

theorem retainedExact_run (hlinks : m.links.Sound) (h : m.map.RetainedExact) (ops : List Op) :
    ∃ m', ops.foldlM step m = some m' ∧ m'.links.Sound ∧ m'.map.RetainedExact := by
  induction ops generalizing m with
  | nil => exact ⟨m, rfl, hlinks, h⟩
  | cons op ops ih =>
    obtain ⟨links, hstep, hsound⟩ := step_tracks m hlinks op
    obtain ⟨m', hops, h'⟩ := ih (m := ⟨_, links⟩) hsound (retains_retainedExact.mapStep h op)
    exact ⟨m', by rw [List.foldlM_cons, hstep]; exact hops, h'⟩

/-- After any operations the index is exact, and a hard invalidation of a range leaves
no retained block with code on a page of the range. -/
theorem retained_exact (root : Bool) (ops : List Op) : ∃ m, ops.foldlM step (init root) = some m ∧
      (∀ page a, a ∈ (m.map.retainedCodePages page).getD [] ↔
        ∃ e, m.map.retainedBlocks a = some e ∧ ∃ p ∈ e.codePages, pageIndex p = page) ∧
      (∀ page, m.map.retainedCodePages page ≠ some []) ∧
      ∀ start length, start.toNat + length.toNat ≤ 2 ^ 64 →
        ∀ op ∈ hardInvalidations start length, ∃ m', m.step op = some m' ∧
          ∀ a e, m'.map.retainedBlocks a = some e → ∀ p ∈ e.codePages, ¬Touches start length (pageIndex p) := by
  have hinit : (init root).map.RetainedExact := retains_retainedExact.empty _ rfl rfl
  obtain ⟨m, hrun, hlinks, hexact⟩ := retainedExact_run (LinkTable.sound_empty []) hinit ops
  refine ⟨m, hrun, hexact.listed, hexact.nonempty, fun start length hle op hop => ?_⟩
  obtain ⟨links, hstep, -⟩ := step_tracks m hlinks op
  refine ⟨_, hstep, fun a e he p hp htouches => ?_⟩
  have hpos : 0 < length.toNat := by
    obtain ⟨x, hx⟩ := htouches
    omega
  exact mapStep_off_range hexact hop he hp ((touches_iff_of_le hpos hle).mp htouches)

def softRun : List Op :=
  [.addBlockExecutableRange [0x1040] 0x1000 4096 0x1040 32 fun _ => ⟨true, true⟩, .addBlockMapping 0x1040
      { hostCode := 0, tail := ⟨0x1040, 32⟩, codePages := [0x1000], guestRangeStart := 0x1040,
        guestRangeLength := 32 },
    .softInvalidateRange 0x1000 4096]

theorem retained_exact_softRun :
    (softRun.foldlM step (init false)).map (fun m => m.map.retainedCodePages 1) = some (some [0x1040]) ∧
      ∃ m m', softRun.foldlM step (init false) = some m ∧ m.step (.invalidateRange 0x1000 64) = some m' ∧
        ∀ a e, m'.map.retainedBlocks a = some e → 0x1000 ∉ e.codePages := by
  refine ⟨rfl, ?_⟩
  obtain ⟨m, hrun, -, -, hhard⟩ := retained_exact false softRun
  obtain ⟨m', hstep, hoff⟩ := hhard 0x1000 64 (by decide) _ List.mem_cons_self
  refine ⟨m, m', hrun, hstep, fun a e he hp => hoff a e he _ hp ⟨0x1000, ?_⟩⟩
  decide

end LinkedMap

end PowerArm.Lookup
