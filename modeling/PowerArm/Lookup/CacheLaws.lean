import PowerArm.Lookup.Cache
import PowerArm.Lookup.MapLaws

/-!
# Coherence of the lookup caches

Whatever L1 or L2 answers for an address came from the shared map, and as long as
the block is there its address is in `CachedCodePages` under each of its pages
(`Coherent`). An invalidation then takes the answer away together with the block,
unless the block is found through a page that it no longer has
(`run_findBlock_coherent`).
-/

namespace PowerArm.Lookup

open Function (update update_of_ne update_self)

open Lib (Admissible foldl_invariant)

namespace LookupCache

variable {c c' : LookupCache} {a h x hostCode start length : BitVec 64} {e : BlockEntry}

def Answers (c : LookupCache) (a h : BitVec 64) : Prop :=
  c.l1 (c.l1Slot a) = ⟨h, a⟩ ∨ (c.config.disableL2Cache = false ∧ c.l2Entry a = some ⟨h, a⟩)

def Cached (c : LookupCache) (page : Nat) (a : BitVec 64) : Prop := a ∈ (c.cachedCodePages page).getD []

theorem l2Offset_mask (a : BitVec 64) : l2Offset (a &&& (virtualMemSize - 1)) = l2Offset a := by
  have hmask : (virtualMemSize - 1) &&& BitVec.ofNat 64 (pageSize - 1) = BitVec.ofNat 64 (pageSize - 1) := by decide
  rw [l2Offset, BitVec.and_assoc, hmask, l2Offset]

/-! ## Stores -/

theorem answers_publishL1 (hans : (c.publishL1 x hostCode).Answers a h) : (a = x ∧ h = hostCode) ∨ c.Answers a h := by
  obtain hl1 | hl2 := hans
  · change update c.l1 (c.l1Slot x) _ (c.l1Slot a) = _ at hl1
    by_cases hslot : c.l1Slot a = c.l1Slot x
    · rw [hslot, update_self, LookupCacheEntry.mk.injEq] at hl1
      exact .inl ⟨hl1.2.symm, hl1.1.symm⟩
    · rw [update_of_ne hslot] at hl1
      exact .inr (.inl hl1)
  · exact .inr (.inr hl2)

theorem l2Entry_storeL2 (c : LookupCache) (x a : BitVec 64) (entry : LookupCacheEntry) :
    (c.storeL2 x entry).l2Entry a =
      if l2Index a = l2Index x ∧ l2Offset a = l2Offset x then (c.l2Entry a).map fun _ => entry
      else c.l2Entry a := by
  unfold l2Entry storeL2
  rw [l2Offset_mask]
  by_cases hindex : l2Index a = l2Index x
  · by_cases hoffset : l2Offset a = l2Offset x
    · cases hpage : c.l2 (l2Index x) <;> simp [hindex, hoffset, hpage]
    · cases hpage : c.l2 (l2Index x) <;> simp [hindex, hoffset, hpage]
  · simp [hindex]

theorem answers_storeL2 (hans : (c.storeL2 x ⟨hostCode, x⟩).Answers a h) :
    (a = x ∧ h = hostCode) ∨ c.Answers a h := by
  obtain hl1 | ⟨hon, hl2⟩ := hans
  · exact .inr (.inl hl1)
  · rw [l2Entry_storeL2] at hl2
    split at hl2
    next =>
      obtain ⟨_, -, heq⟩ := Option.map_eq_some_iff.mp hl2
      cases heq
      exact .inl ⟨rfl, rfl⟩
    next => exact .inr (.inr ⟨hon, hl2⟩)

theorem answers_storeL2_zero (ha : a ≠ 0) (hans : (c.storeL2 x .zero).Answers a h) : c.l1 (c.l1Slot a) = ⟨h, a⟩ ∨
      (a ≠ x ∧ c.config.disableL2Cache = false ∧ c.l2Entry a = some ⟨h, a⟩) := by
  obtain hl1 | ⟨hon, hl2⟩ := hans
  · exact .inl hl1
  · rw [l2Entry_storeL2] at hl2
    split at hl2
    next =>
      obtain ⟨_, -, heq⟩ := Option.map_eq_some_iff.mp hl2
      cases heq
      exact absurd rfl ha
    next hne =>
      refine .inr ⟨?_, hon, hl2⟩
      rintro rfl
      exact hne ⟨rfl, rfl⟩

/-! ## Filling -/

theorem cached_cachePages (c : LookupCache) (x : BitVec 64) (codePages : List (BitVec 64)) :
    (c.cachePages x codePages).Cached page a ↔ c.Cached page a ∨ (a = x ∧ ∃ p ∈ codePages, pageIndex p = page) := by
  unfold Cached cachePages
  generalize c.cachedCodePages = cached
  induction codePages generalizing cached with
  | nil => simp
  | cons q codePages ih =>
    rw [List.foldl_cons, ih]
    by_cases hq : pageIndex q = page
    · subst hq
      simp only [update_self, Option.getD_some, List.mem_insert_iff]
      tauto
    · simp [update_of_ne (Ne.symm hq), hq]

theorem answers_clearL2Cache (hans : c.clearL2Cache.Answers a h) : c.Answers a h := by
  obtain hl1 | ⟨-, hl2⟩ := hans
  · exact .inl hl1
  · simp [l2Entry, clearL2Cache] at hl2

theorem backPage_cases (hback : c.backPage x = some c') : c' = c ∨ (c.l2 (l2Index x) = none ∧ c' = { c with
        allocateOffset := c.allocateOffset + sizePerPage
        l2 := update c.l2 (l2Index x) (some fun _ => .zero) }) := by
  unfold backPage allocateBackingForPage at hback
  split at hback
  next => exact .inl (Option.some.inj hback).symm
  next hnone =>
    dsimp only at hback
    split at hback
    · cases hback
    · exact .inr ⟨hnone, (Option.some.inj hback).symm⟩

theorem answers_backPage (hback : c.backPage x = some c') (ha : a ≠ 0) (hans : c'.Answers a h) : c.Answers a h := by
  obtain rfl | ⟨-, rfl⟩ := backPage_cases hback
  · exact hans
  · obtain hl1 | ⟨hon, hl2⟩ := hans
    · exact .inl hl1
    · by_cases hindex : l2Index a = l2Index x
      · simp [l2Entry, hindex, LookupCacheEntry.zero] at hl2
        exact absurd hl2.2.symm ha
      · exact .inr ⟨hon, by simpa [l2Entry, hindex] using hl2⟩

theorem cached_backPage (hback : c.backPage x = some c') : c'.cachedCodePages = c.cachedCodePages := by
  obtain rfl | ⟨-, rfl⟩ := backPage_cases hback <;> rfl

theorem backPage_clearL2Cache (c : LookupCache) (x : BitVec 64) (e : BlockEntry) :
    ((c.clearL2Cache.cacheL1 x e).backPage x).isSome := by
  simp [backPage, cacheL1, publishL1, cachePages, clearL2Cache, allocateBackingForPage, sizePerPage,
    codeSize, pageSize]

theorem answers_cacheL1 (hans : (c.cacheL1 x e).Answers a h) : (a = x ∧ h = e.hostCode) ∨ c.Answers a h :=
  answers_publishL1 hans

theorem cached_cacheL1 :
    (c.cacheL1 x e).Cached page a ↔ c.Cached page a ∨ (a = x ∧ ∃ p ∈ e.codePages, pageIndex p = page) :=
  cached_cachePages c x e.codePages

theorem answers_cacheBlockMapping (ha : a ≠ 0) (hans : (c.cacheBlockMapping x e l1Only).Answers a h) :
    (a = x ∧ h = e.hostCode) ∨ c.Answers a h := by
  unfold cacheBlockMapping at hans
  dsimp only at hans
  split at hans
  next => exact answers_cacheL1 hans
  next =>
    split at hans
    next c₁ hback =>
      obtain hx | hans := answers_storeL2 hans
      · exact .inl hx
      · exact answers_cacheL1 (answers_backPage hback ha hans)
    next =>
      -- the retry fills the same slots once more
      have hretry (hans : ((c.cacheL1 x e).clearL2Cache.cacheL1 x e).Answers a h) :
          (a = x ∧ h = e.hostCode) ∨ c.Answers a h := by
        obtain hx | hans := answers_cacheL1 hans
        · exact .inl hx
        · exact answers_cacheL1 (answers_clearL2Cache hans)
      split at hans
      next c₁ hback =>
        obtain hx | hans := answers_storeL2 hans
        · exact .inl hx
        · exact hretry (answers_backPage hback ha hans)
      next hfull => exact absurd (backPage_clearL2Cache (c.cacheL1 x e) x e) (by simp [hfull])

theorem cached_cacheBlockMapping : (c.cacheBlockMapping x e l1Only).Cached page a ↔
      c.Cached page a ∨ (a = x ∧ ∃ p ∈ e.codePages, pageIndex p = page) := by
  unfold cacheBlockMapping
  dsimp only
  split
  next => exact cached_cacheL1
  next =>
    split
    next c₁ hback =>
      simp only [storeL2, cached_backPage hback]
      exact cached_cacheL1
    next =>
      have hretry : ((c.cacheL1 x e).clearL2Cache.cacheL1 x e).Cached page a ↔
          c.Cached page a ∨ (a = x ∧ ∃ p ∈ e.codePages, pageIndex p = page) := by
        refine cached_cacheL1.trans ?_
        change (c.cacheL1 x e).Cached page a ∨ _ ↔ _
        rw [cached_cacheL1, or_assoc, or_self]
      split
      next c₁ hback =>
        simp only [storeL2, cached_backPage hback]
        exact hretry
      next hfull => exact absurd (backPage_clearL2Cache (c.cacheL1 x e) x e) (by simp [hfull])

/-! ## Lookup -/

theorem answers_updateDynamicL1Stats (ha : a ≠ 0) (hans : (c.updateDynamicL1Stats load).Answers a h) :
    c.Answers a h := by
  have hresize {n : Nat} (hans : (c.resizeL1 n).Answers a h) : c.Answers a h := by
    obtain hl1 | hl2 := hans
    · cases hl1
      exact absurd rfl ha
    · exact .inr hl2
  unfold updateDynamicL1Stats at hans
  split at hans
  next =>
    split at hans
    · exact hresize hans
    · exact hans
  next =>
    split at hans
    · exact hresize hans
    · exact hans
  next => exact hans
  next => exact hans

theorem cached_updateDynamicL1Stats : (c.updateDynamicL1Stats load).cachedCodePages = c.cachedCodePages := by
  unfold updateDynamicL1Stats
  cases load with
  | sampling => rfl
  | steady => rfl
  | high => dsimp only; split <;> rfl
  | low => dsimp only; split <;> rfl

theorem findL2_spec (c : LookupCache) (x : BitVec 64) : (∀ a h, (c.findL2 x).1.Answers a h → c.Answers a h) ∧
    (c.findL2 x).1.cachedCodePages = c.cachedCodePages ∧
    ((c.findL2 x).2 ≠ 0 → c.Answers x (c.findL2 x).2) := by
  unfold findL2
  split
  next => exact ⟨fun _ _ => id, rfl, fun h0 => absurd rfl h0⟩
  next hon =>
    split
    next => exact ⟨fun _ _ => id, rfl, fun h0 => absurd rfl h0⟩
    next entry hentry =>
      split
      next hguest =>
        have hans : c.Answers x entry.hostCode := by
          refine .inr ⟨Bool.eq_false_iff.mpr hon, ?_⟩
          rw [hentry, ← hguest]
        refine ⟨fun a h hans' => ?_, rfl, fun _ => hans⟩
        obtain ⟨rfl, rfl⟩ | hans' := answers_publishL1 hans'
        · exact hans
        · exact hans'
      next => exact ⟨fun _ _ => id, rfl, fun h0 => absurd rfl h0⟩

def FromMap (m : GuestToHostMap) (c : LookupCache) (a h : BitVec 64) : Prop :=
  ∃ e, m.blockList a = some e ∧ h = e.hostCode ∧ ∀ p ∈ e.codePages, c.Cached (pageIndex p) a

theorem findL3_spec (m : GuestToHostMap) (c : LookupCache) (x : BitVec 64) :
    (∀ a h, a ≠ 0 → (findL3 m (c.findL2 x) x).1.Answers a h →
      c.Answers a h ∨ FromMap m (findL3 m (c.findL2 x) x).1 a h) ∧
    (∀ page a, c.Cached page a → (findL3 m (c.findL2 x) x).1.Cached page a) ∧
    ((findL3 m (c.findL2 x) x).2 ≠ 0 → c.Answers x (findL3 m (c.findL2 x) x).2 ∨
      ∃ e, m.blockList x = some e ∧ (findL3 m (c.findL2 x) x).2 = e.hostCode) := by
  obtain ⟨hans2, hcached2, hresult2⟩ := findL2_spec c x
  have hkeep : ∀ page a, c.Cached page a → (c.findL2 x).1.Cached page a := by simp [Cached, hcached2]
  unfold findL3 GuestToHostMap.findBlock
  split
  next hfound => exact ⟨fun a h _ hans => .inl (hans2 a h hans), hkeep, fun _ => .inl (hresult2 hfound)⟩
  next hmiss =>
    split
    next => exact ⟨fun a h _ hans => .inl (hans2 a h hans), hkeep, fun h0 => absurd h0 hmiss⟩
    next e he =>
      refine ⟨fun a h ha hans => ?_, fun page a hc => ?_, fun _ => .inr ⟨e, he, rfl⟩⟩
      · obtain ⟨rfl, rfl⟩ | hans := answers_cacheBlockMapping ha hans
        · refine .inr ⟨e, he, rfl, fun p hp => ?_⟩
          exact cached_cacheBlockMapping.mpr (.inr ⟨rfl, p, hp, rfl⟩)
        · exact .inl (hans2 a h hans)
      · exact cached_cacheBlockMapping.mpr (.inl (hkeep page a hc))

theorem findBlock_cases (m : GuestToHostMap) (c : LookupCache) (x : BitVec 64) (load : Load) :
    (c.l1 (c.l1Slot x) = ⟨(c.findBlock m x load).2, x⟩ ∧ (c.findBlock m x load).1 = c) ∨
    ((c.findBlock m x load).2 = (findL3 m (c.findL2 x) x).2 ∧
      (c.findBlock m x load).1.cachedCodePages = (findL3 m (c.findL2 x) x).1.cachedCodePages ∧
      ∀ a h, a ≠ 0 → (c.findBlock m x load).1.Answers a h → (findL3 m (c.findL2 x) x).1.Answers a h) := by
  unfold findBlock
  dsimp only
  split
  next hguest => exact .inl ⟨congrArg (LookupCacheEntry.mk _) hguest, rfl⟩
  next =>
    refine .inr ⟨rfl, ?_, fun a h ha => ?_⟩
    · split
      · exact cached_updateDynamicL1Stats
      · rfl
    · split
      · exact answers_updateDynamicL1Stats ha
      · exact id

theorem findBlock_spec (m : GuestToHostMap) (c : LookupCache) (x : BitVec 64) (load : Load) :
    (∀ a h, a ≠ 0 → (c.findBlock m x load).1.Answers a h → c.Answers a h ∨ FromMap m (c.findBlock m x load).1 a h) ∧
    (∀ page a, c.Cached page a → (c.findBlock m x load).1.Cached page a) ∧
    ((c.findBlock m x load).2 ≠ 0 → c.Answers x (c.findBlock m x load).2 ∨
      ∃ e, m.blockList x = some e ∧ (c.findBlock m x load).2 = e.hostCode) := by
  obtain ⟨hhit, hsame⟩ | ⟨hresult, hcached, hanswers⟩ := findBlock_cases m c x load
  · rw [hsame]
    exact ⟨fun _ _ _ => .inl, fun _ _ => id, fun _ => .inl (.inl hhit)⟩
  · obtain ⟨hans3, hkeep3, hresult3⟩ := findL3_spec m c x
    refine ⟨fun a h ha hans => ?_, fun page a hc => ?_, hresult ▸ hresult3⟩
    · simpa only [FromMap, Cached, hcached] using hans3 a h ha (hanswers a h ha hans)
    · simpa only [Cached, hcached] using hkeep3 page a hc

/-! ## Invalidation -/

theorem invalidateL1_cases (c : LookupCache) (x : BitVec 64) :
    ((c.l1 (c.l1Slot x)).guestCode ≠ x ∧ c.invalidateL1 x = c) ∨
    c.invalidateL1 x = { c with l1 := update c.l1 (c.l1Slot x) { c.l1 (c.l1Slot x) with guestCode := 0 } } := by
  unfold invalidateL1
  dsimp only
  split
  next => exact .inr rfl
  next hguest => exact .inl ⟨hguest, rfl⟩

theorem l1_invalidateL1 (ha : a ≠ 0) (hl1 : (c.invalidateL1 x).l1 ((c.invalidateL1 x).l1Slot a) = ⟨h, a⟩) :
    a ≠ x ∧ c.l1 (c.l1Slot a) = ⟨h, a⟩ := by
  obtain ⟨hguest, heq⟩ | heq := invalidateL1_cases c x
  · rw [heq] at hl1
    refine ⟨?_, hl1⟩
    rintro rfl
    exact hguest (congrArg LookupCacheEntry.guestCode hl1)
  · rw [heq] at hl1
    change update c.l1 (c.l1Slot x) _ (c.l1Slot a) = _ at hl1
    by_cases hslot : c.l1Slot a = c.l1Slot x
    · rw [hslot, update_self] at hl1
      exact absurd (congrArg LookupCacheEntry.guestCode hl1).symm ha
    · rw [update_of_ne hslot] at hl1
      exact ⟨fun hax => hslot (hax ▸ rfl), hl1⟩

theorem invalidateL1_frame (c : LookupCache) (x : BitVec 64) :
    (c.invalidateL1 x).config = c.config ∧ (c.invalidateL1 x).l2 = c.l2 ∧
      (c.invalidateL1 x).cachedCodePages = c.cachedCodePages := by
  obtain ⟨-, heq⟩ | heq := invalidateL1_cases c x
  · rw [heq]
    exact ⟨rfl, rfl, rfl⟩
  · rw [heq]
    exact ⟨rfl, rfl, rfl⟩

theorem answers_invalidateCache (ha : a ≠ 0) (hans : (c.invalidateCache x).Answers a h) : a ≠ x ∧ c.Answers a h := by
  obtain ⟨hconfig, hl2, -⟩ := invalidateL1_frame c x
  unfold invalidateCache at hans
  dsimp only at hans
  split at hans
  next hoff =>
    obtain hl1 | ⟨hon, -⟩ := hans
    · obtain ⟨hne, hl1⟩ := l1_invalidateL1 ha hl1
      exact ⟨hne, .inl hl1⟩
    · simp [hoff] at hon
  next =>
    obtain hl1 | ⟨hne, hon, hentry⟩ := answers_storeL2_zero ha hans
    · obtain ⟨hne, hl1⟩ := l1_invalidateL1 ha hl1
      exact ⟨hne, .inl hl1⟩
    · refine ⟨hne, .inr ⟨hconfig ▸ hon, ?_⟩⟩
      simpa only [l2Entry, hl2] using hentry

theorem cached_invalidateCache : (c.invalidateCache x).cachedCodePages = c.cachedCodePages := by
  obtain ⟨-, -, hcached⟩ := invalidateL1_frame c x
  unfold invalidateCache
  dsimp only
  split
  · exact hcached
  · exact hcached

theorem invalidateCache_foldl (c : LookupCache) (addrs : List (BitVec 64)) :
    (∀ a h, a ≠ 0 → (addrs.foldl invalidateCache c).Answers a h → a ∉ addrs ∧ c.Answers a h) ∧
    (addrs.foldl invalidateCache c).cachedCodePages = c.cachedCodePages := by
  induction addrs generalizing c with
  | nil => exact ⟨fun _ _ _ hans => ⟨List.not_mem_nil, hans⟩, rfl⟩
  | cons x addrs ih =>
    obtain ⟨hans, hcached⟩ := ih (c.invalidateCache x)
    refine ⟨fun a h ha hx => ?_, hcached.trans cached_invalidateCache⟩
    obtain ⟨hmem, hx⟩ := hans a h ha hx
    obtain ⟨hne, hx⟩ := answers_invalidateCache ha hx
    exact ⟨List.not_mem_cons_of_ne_of_not_mem hne hmem, hx⟩

theorem invalidateCacheRange_spec (c : LookupCache) (start length : BitVec 64) :
    (∀ a h, a ≠ 0 → (c.invalidateCacheRange start length).1.Answers a h →
      c.Answers a h ∧ ∀ page ∈ pageIndexes start length, ¬ c.Cached page a) ∧
    ∀ page a, (c.invalidateCacheRange start length).1.Cached page a ↔
      page ∉ pageIndexes start length ∧ c.Cached page a := by
  obtain ⟨hans, hcached⟩ := invalidateCache_foldl c
    ((pageIndexes start length).flatMap fun page => (c.cachedCodePages page).getD [])
  refine ⟨fun a h ha hx => ?_, fun page a => ?_⟩
  · obtain ⟨hmem, hx⟩ := hans a h ha hx
    refine ⟨hx, fun page hpage hc => hmem ?_⟩
    exact List.mem_flatMap.mpr ⟨page, hpage, hc⟩
  · simp only [Cached, invalidateCacheRange, hcached]
    split
    next hpage => simp [hpage]
    next hpage => simp [hpage]

end LookupCache

/-! ## Runs -/

namespace ThreadLookup

variable {a h start length : BitVec 64} {e : BlockEntry}

/-- The lookup structures after some calls, with the blocks that invalidations took
out of the block list and no `AddBlockMapping` put back: an address and its host code. -/
structure Tracked extends ThreadLookup where
  removed : Set (BitVec 64 × BitVec 64)

def remove (s : Tracked) : Op → Set (BitVec 64 × BitVec 64)
  | .addBlockMapping addr e => s.removed \ {(addr, e.hostCode)}
  | .invalidate start length kind =>
    s.removed ∪ {x | ∃ e, s.map.blockList x.1 = some e ∧ x.2 = e.hostCode ∧
      (s.map.invalidate start length kind).blockList x.1 = none}
  | _ => s.removed

def Tracked.step (s : Tracked) (op : Op) : Tracked := { s.toThreadLookup.step op with removed := remove s op }

def Tracked.init (root : Bool) (config : CacheConfig) : Tracked where
  map := .init root
  thread := .init config
  removed := ∅

structure Coherent (s : Tracked) : Prop where
  answers : ∀ a h, a ≠ 0 → s.thread.Answers a h → (a, h) ∉ s.removed ∧
    ∀ e, s.map.blockList a = some e → ∀ p ∈ e.codePages, s.thread.Cached (pageIndex p) a
  live : ∀ a e, s.map.blockList a = some e → (a, e.hostCode) ∉ s.removed

/-- An invalidation finds no block only through a page that the block does not have:
each one listed on the range that it is to take has a code page there. -/
def Current (s : Tracked) : Op → Prop
  | .invalidate start length kind =>
    ∀ page ∈ pageIndexes start length, ∀ a, s.map.Listed page a → ∀ e, s.map.blockList a = some e →
      kind.hits start length e = true → ∃ p ∈ e.codePages, pageIndex p ∈ pageIndexes start length
  | _ => True

theorem coherent_init (root : Bool) (config : CacheConfig) : Coherent (.init root config) :=
  ⟨fun _ _ _ _ => ⟨Set.notMem_empty _, nofun⟩, nofun⟩

theorem blockList_addBlockExecutableRange (m : GuestToHostMap) (addresses : List (BitVec 64))
    (start length guestRangeStart guestRangeLength : BitVec 64) (alloc : Nat → CodeGranuleBitmap.Alloc) :
    (m.addBlockExecutableRange addresses start length guestRangeStart guestRangeLength alloc).1.blockList =
      m.blockList := by
  unfold GuestToHostMap.addBlockExecutableRange
  generalize pageIndexes start length = pages
  induction pages generalizing m with
  | nil => rfl
  | cons page pages ih => exact ih (m.addPage addresses guestRangeStart guestRangeLength alloc page)

theorem blockList_addBlockMapping {s : Tracked} (h : (s.step (.addBlockMapping addr e)).map.blockList a = some e') :
    a = addr ∧ e = e' ∨ s.map.blockList a = some e' := by
  by_cases hax : a = addr
  · exact .inl ⟨hax, by simpa [Tracked.step, ThreadLookup.step, GuestToHostMap.addBlockMapping, hax] using h⟩
  · exact .inr (by simpa [Tracked.step, ThreadLookup.step, GuestToHostMap.addBlockMapping, hax] using h)

theorem Coherent.addBlockMapping (hs : Coherent s) (addr : BitVec 64) (e : BlockEntry) :
    Coherent (s.step (.addBlockMapping addr e)) where
  answers a h ha hans := by
    have hcached : ∀ p ∈ e.codePages, (s.thread.cacheBlockMapping addr e true).Cached (pageIndex p) addr :=
      fun p hp => LookupCache.cached_cacheBlockMapping.mpr (.inr ⟨rfl, p, hp, rfl⟩)
    obtain ⟨rfl, rfl⟩ | hans := LookupCache.answers_cacheBlockMapping ha hans
    · refine ⟨fun hmem => hmem.2 rfl, fun e' he' => ?_⟩
      obtain rfl : e = e' := by simpa [Tracked.step, ThreadLookup.step, GuestToHostMap.addBlockMapping] using he'
      exact hcached
    · obtain ⟨hnew, hpages⟩ := hs.answers a h ha hans
      refine ⟨fun hmem => hnew hmem.1, fun e' he' => ?_⟩
      obtain ⟨rfl, rfl⟩ | hbefore := blockList_addBlockMapping he'
      · exact hcached
      · exact fun p hp => LookupCache.cached_cacheBlockMapping.mpr (.inl (hpages e' hbefore p hp))
  live a e' he' := by
    obtain ⟨rfl, rfl⟩ | hbefore := blockList_addBlockMapping he'
    · exact fun hmem => hmem.2 rfl
    · exact fun hmem => hs.live a e' hbefore hmem.1

theorem Coherent.findBlock (hs : Coherent s) (addr : BitVec 64) (load : LookupCache.Load) :
    Coherent (s.step (.findBlock addr load)) where
  answers a h ha hans := by
    obtain ⟨hanswers, hkeep, -⟩ := LookupCache.findBlock_spec s.map s.thread addr load
    obtain hans | ⟨e, he, rfl, hpages⟩ := hanswers a h ha hans
    · obtain ⟨hnew, hpages⟩ := hs.answers a h ha hans
      exact ⟨hnew, fun e he p hp => hkeep _ _ (hpages e he p hp)⟩
    · refine ⟨hs.live a e he, fun e' he' => ?_⟩
      obtain rfl := Option.some.inj (he.symm.trans he')
      exact hpages
  live := hs.live

theorem Coherent.invalidate (hs : Coherent s) (hop : Current s (.invalidate start length kind)) :
    Coherent (s.step (.invalidate start length kind)) := by
  obtain ⟨hanswers, hcached⟩ := LookupCache.invalidateCacheRange_spec s.thread start length
  have hshrinks := s.map.shrinks_invalidate start length kind
  refine ⟨fun a h ha hans => ?_, fun a e he => ?_⟩
  · obtain ⟨hans, hoff⟩ := hanswers a h ha hans
    obtain ⟨hnew, hpages⟩ := hs.answers a h ha hans
    -- an address that still answers has no page in the range, so it was not to go
    have hstays : ∀ e, s.map.blockList a = some e → ∀ p ∈ e.codePages, pageIndex p ∉ pageIndexes start length :=
      fun e he p hp hmem => hoff _ hmem (hpages e he p hp)
    refine ⟨?_, fun e he p hp => ?_⟩
    · rintro (hmem | ⟨e, he, -, hgone⟩)
      · exact hnew hmem
      · obtain hsame | ⟨-, ⟨page, hpage, hlisted⟩, hhit⟩ := hshrinks.blockList a
        · exact absurd ((hsame.symm.trans hgone).symm.trans he) nofun
        · obtain ⟨p, hp, hmem⟩ := hop page hpage a hlisted e he (hhit e he)
          exact hstays e he p hp hmem
    · have hbefore : s.map.blockList a = some e := by
        obtain hsame | ⟨hnone, -⟩ := hshrinks.blockList a
        · exact hsame.symm.trans he
        · exact absurd (hnone.symm.trans he) nofun
      exact (hcached _ a).mpr ⟨hstays e hbefore p hp, hpages e hbefore p hp⟩
  · obtain hsame | ⟨hnone, -⟩ := hshrinks.blockList a
    · rintro (hmem | ⟨e', -, -, hgone⟩)
      · exact hs.live a e (hsame.symm.trans he) hmem
      · exact absurd (hgone.symm.trans he) nofun
    · exact absurd (hnone.symm.trans he) nofun

theorem Coherent.step (hs : Coherent s) (hop : Current s op) : Coherent (s.step op) := by
  cases op with
  | addBlockExecutableRange addresses start length guestRangeStart guestRangeLength alloc =>
    have hblocks := blockList_addBlockExecutableRange s.map addresses start length guestRangeStart
      guestRangeLength alloc
    exact ⟨fun a h ha hans => ⟨(hs.answers a h ha hans).1, fun e he => (hs.answers a h ha hans).2 e (hblocks ▸ he)⟩,
      fun a e he => hs.live a e (hblocks ▸ he)⟩
  | addBlockMapping addr e => exact hs.addBlockMapping addr e
  | findBlock addr load => exact hs.findBlock addr load
  | invalidate start length kind => exact hs.invalidate hop
  | clearThreadLocalCaches =>
    refine ⟨fun a h ha hans => ?_, hs.live⟩
    obtain hl1 | ⟨-, hl2⟩ := hans
    · cases hl1
      exact absurd rfl ha
    · cases hl2

/-- In every state of a run whose invalidations find blocks through their own pages,
a lookup does not return the host code of a removed block. -/
theorem run_findBlock_coherent (root : Bool) (config : CacheConfig) {ops : List Op}
    (hrun : Admissible Tracked.step Current (.init root config) ops) (ha : a ≠ 0) (load : LookupCache.Load) :
    let s := ops.foldl Tracked.step (.init root config)
    let hostCode := (s.thread.findBlock s.map a load).2
    hostCode ≠ 0 → (a, hostCode) ∉ s.removed := by
  intro s hostCode hfound
  have hcoherent : Coherent s := foldl_invariant (fun _ _ => Coherent.step) (coherent_init root config) hrun
  obtain ⟨-, -, hresult⟩ := LookupCache.findBlock_spec s.map s.thread a load
  obtain hans | ⟨e, he, heq⟩ := hresult hfound
  · exact (hcoherent.answers a hostCode ha hans).1
  · rw [show hostCode = e.hostCode from heq]
    exact hcoherent.live a e he

def compileOps (addr : BitVec 64) (e : BlockEntry) : List Op :=
  e.codePages.map (fun page => .addBlockExecutableRange [addr] page 0x1000 e.extentStart e.extentLength
    fun _ => ⟨true, true⟩) ++ [.addBlockMapping addr e]

def twoPages : BlockEntry where
  hostCode := 0x10000
  tail := ⟨0x402000, 0x140⟩
  codePages := [0x401000, 0x402000]
  extentStart := 0x401f00
  extentLength := 0x140

/-- The same entry after the guest rewrote page `0x402`. -/
def onePage : BlockEntry where
  hostCode := 0x20000
  tail := ⟨0x402000, 0x40⟩
  codePages := [0x402000]
  extentStart := 0x402000
  extentLength := 0x40

def defaultConfig : CacheConfig := ⟨false, false⟩

def recompileOps : List Op :=
  compileOps 0x402000 twoPages ++ [.invalidate 0x402000 0x1000 .hard] ++ compileOps 0x402000 onePage

theorem run_findBlock_coherent_again :
    (0x402000#64, 0x20000#64) ∉ (recompileOps.foldl Tracked.step (.init false defaultConfig)).removed := by
  have hcurrent : Current ((compileOps 0x402000 twoPages).foldl Tracked.step (.init false defaultConfig))
      (.invalidate 0x402000 0x1000 .hard) := by
    intro page hpage a hlisted e he _
    change update (fun _ => none) 0x402000#64 (some twoPages) a = some e at he
    by_cases ha : a = 0x402000#64
    · rw [ha] at he
      obtain rfl := Option.some.inj he
      exact ⟨0x402000, by simp [twoPages], by decide⟩
    · rw [update_of_ne ha] at he
      cases he
  have hrun : Admissible Tracked.step Current (.init false defaultConfig) recompileOps :=
    ⟨trivial, trivial, trivial, hcurrent, trivial, trivial, trivial⟩
  exact run_findBlock_coherent false defaultConfig hrun (by decide) .sampling (by decide)

/-- The address keeps its place on page `0x401` when the new block has no code there.
A precise invalidation beside the block drops it from the thread's set of that page
only; the last one then takes the block away and leaves the answer. -/
def staleOps : List Op :=
  recompileOps ++
    [.invalidate 0x401000 0x40 .precise, .findBlock 0x402000 .sampling, .invalidate 0x401000 0x1000 .hard]

theorem run_findBlock_stale : let s := staleOps.foldl Tracked.step (.init false defaultConfig)
    (s.thread.findBlock s.map 0x402000 .sampling).2 = 0x20000 ∧ (0x402000#64, 0x20000#64) ∈ s.removed :=
  ⟨by decide +kernel, .inr ⟨onePage, by decide +kernel, rfl, by decide +kernel⟩⟩

end ThreadLookup

end PowerArm.Lookup
