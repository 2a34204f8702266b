import PowerArm.Lookup.RetainLaws

/-!
# The precise invalidation is exact

`InvalidateRangePrecise` walks the pages of a range one after another, and a block can
stand on several of them, or twice on one. What it erases depends on the block alone,
so an earlier page never loses a block it kept to a later one (`pageExact_precisePages`).
`Settled` is what every run of the map's operations keeps: the chains of links, the
index of the retained blocks, and no bit on a page without blocks.
-/

namespace PowerArm.Lookup

open Function (update update_of_ne update_self)

/-! ## The words of the pages -/

namespace CodeGranuleBitmap

variable {b : CodeGranuleBitmap}

theorem word_of_untracked (h : maxAddress ≤ a.toNat) (b : CodeGranuleBitmap) : b.word a = 0 := by
  cases hroot : b.root <;> simp [word, findLeaf, h]

theorem isSome_findLeaf_recomputePageWord (b : CodeGranuleBitmap) (base a : BitVec 64) (w : PageWord) :
    ((b.recomputePageWord base w).findLeaf a).isSome = (b.findLeaf a).isSome := by
  unfold recomputePageWord
  split
  next => rfl
  next =>
    cases hroot : b.root with
    | none => simp [findLeaf, storeWord, hroot]
    | some r =>
      obtain ⟨r', hroot', hfind⟩ := findLeafFrom_storeWord hroot base a w
      simp only [findLeaf, hroot, hroot', Option.bind_some]
      split
      next => rfl
      next => rw [hfind, Option.isSome_map]

theorem word_recomputePageWord_of_ne (hpage : base.toNat / pageSize ≠ a.toNat / pageSize) :
    (b.recomputePageWord base w).word a = b.word a := by
  by_cases hmax : maxAddress ≤ a.toNat
  · rw [word_of_untracked hmax, word_of_untracked hmax]
  · cases hleaf : b.findLeaf base with
    | none => simp [recomputePageWord, hleaf]
    | some leaf => rw [word_recomputePageWord (.inl (by simp [hleaf])) (by omega), if_neg hpage]

theorem word_clearPage (b : CodeGranuleBitmap) (base : BitVec 64) : (b.clearPage base).word base = 0 := by
  by_cases hmax : maxAddress ≤ base.toNat
  · exact word_of_untracked hmax _
  · rw [clearPage, word_recomputePageWord (.inr rfl) (by omega), if_pos rfl]

theorem word_setPageRange_of_ne (hpage : base.toNat / pageSize ≠ a.toNat / pageSize) :
    (b.setPageRange base start length alloc).word a = b.word a := by
  by_cases hmax : maxAddress ≤ a.toNat
  · rw [word_of_untracked hmax, word_of_untracked hmax]
  · cases hleaf : (b.getOrCreateLeaf base alloc).2 with
    | none =>
      have hpair : b.getOrCreateLeaf base alloc = ((b.getOrCreateLeaf base alloc).1, none) := Prod.ext rfl hleaf
      unfold setPageRange
      rw [hpair]
      exact word_getOrCreateLeaf b base a alloc
    | some leaf => rw [word_setPageRange (by simp [hleaf]) (by omega), if_neg hpage]

theorem word_clearAll (b : CodeGranuleBitmap) (a : BitVec 64) :
    b.clearAll.word a = b.word a ∨ b.clearAll.word a = 0 := by
  unfold word findLeaf clearAll
  cases b.root with
  | none => simp
  | some r =>
    simp only [Option.map_some, Option.bind_some]
    split
    · simp
    · simp only [findLeafFrom]
      cases r (l0Index a) with
      | none => simp
      | some node =>
        simp only [Option.map_some, Option.bind_some]
        cases node (l1Index a) with
        | none => simp
        | some leaf =>
          split
          · exact .inr rfl
          · exact .inl rfl

theorem recompute_of_enabled (b : CodeGranuleBitmap) (base : BitVec 64) (w : PageWord) :
    (if b.enabled then b.recomputePageWord base w else b) = b.recomputePageWord base w := by
  split
  next => rfl
  next hoff =>
    have hroot : b.root = none := by simpa [enabled] using hoff
    exact (recomputePageWord_of_untracked (.inl hroot)).symm

end CodeGranuleBitmap

namespace GuestToHostMap

open CodeGranuleBitmap (pageMaskFor)

variable {m m' : GuestToHostMap} {a start length endAddr base : BitVec 64} {e : BlockEntry} {w : PreciseWalk}

theorem pageBase_ne (hq : q < 2 ^ 52) (hpage : page < 2 ^ 52) (hne : q ≠ page) :
    (pageBase q).toNat / pageSize ≠ (pageBase page).toNat / pageSize := by
  have hq' := pageIndex_pageBase hq
  have hpage' := pageIndex_pageBase hpage
  unfold pageIndex at hq' hpage'
  rwa [hq', hpage']

/-! ## The entries of a page -/

/-- What the walk has kept is live and beside the range, and the bits are theirs. -/
structure PreciseWalk.Exact (start endAddr base : BitVec 64) (w : PreciseWalk) : Prop where
  kept : ∀ a ∈ w.kept, ∃ e, w.map.blockList a = some e ∧ e.overlaps start endAddr = false
  bits : ∀ i, w.survivingBits.getLsbD i = true ↔ ∃ a ∈ w.kept, ∃ e, w.map.blockList a = some e ∧
    (pageMaskFor base e.extentStart e.extentLength).getLsbD i = true

theorem exact_nil (m : GuestToHostMap) : PreciseWalk.Exact start endAddr base { map := m } := ⟨nofun, by simp⟩

theorem PreciseWalk.Exact.preciseEntry (h : w.Exact start endAddr base) (x : BitVec 64) :
    (preciseEntry start endAddr base w x).Exact start endAddr base := by
  unfold GuestToHostMap.preciseEntry
  split
  next => exact h
  next ex hx =>
    split
    next hover =>
      -- the erased block is none of the kept ones, which do not overlap
      have hsame : ∀ a ∈ w.kept, (w.map.erase x).blockList a = w.map.blockList a := by
        intro a ha
        obtain ⟨e, he, hbeside⟩ := h.kept a ha
        refine update_of_ne (fun hax => ?_) _ _
        subst hax
        obtain rfl := Option.some.inj (hx.symm.trans he)
        rw [hover] at hbeside
        cases hbeside
      refine ⟨fun a ha => ?_, fun i => ?_⟩
      · rw [hsame a ha]
        exact h.kept a ha
      · rw [h.bits i]
        refine exists_congr fun a => and_congr_right fun ha => ?_
        rw [hsame a ha]
    next hover =>
      refine ⟨?_, fun i => ?_⟩
      · simp only [List.mem_append, List.mem_singleton]
        rintro a (ha | rfl)
        · exact h.kept a ha
        · exact ⟨ex, hx, by simpa using hover⟩
      · simp only [BitVec.getLsbD_or, Bool.or_eq_true, h.bits i, List.mem_append, List.mem_singleton]
        constructor
        · rintro (⟨a, ha, he⟩ | hbit)
          · exact ⟨a, .inl ha, he⟩
          · exact ⟨x, .inr rfl, ex, hx, hbit⟩
        · rintro ⟨a, ha | rfl, e, he, hbit⟩
          · exact .inl ⟨a, ha, e, he, hbit⟩
          · obtain rfl := Option.some.inj (hx.symm.trans he)
            exact .inr hbit

theorem PreciseWalk.Exact.foldl (h : w.Exact start endAddr base) (entries : List (BitVec 64)) :
    (entries.foldl (GuestToHostMap.preciseEntry start endAddr base) w).Exact start endAddr base := by
  induction entries generalizing w with
  | nil => exact h
  | cons x entries ih => exact ih (h.preciseEntry x)

theorem beside_preciseEntry (w : PreciseWalk) (he : (preciseEntry start endAddr base w a).map.blockList a = some e) :
    e.overlaps start endAddr = false := by
  unfold preciseEntry at he
  split at he
  next hnone => simp [hnone] at he
  next ea ha =>
    split at he
    next => simp [erase] at he
    next hover =>
      obtain rfl := Option.some.inj (ha.symm.trans he)
      simpa using hover

theorem beside_precise (w : PreciseWalk) (entries : List (BitVec 64)) (ha : a ∈ entries)
    (he : (entries.foldl (preciseEntry start endAddr base) w).map.blockList a = some e) :
    e.overlaps start endAddr = false := by
  induction entries generalizing w with
  | nil => cases ha
  | cons x entries ih =>
    by_cases hmem : a ∈ entries
    · exact ih _ hmem he
    · obtain rfl := (List.mem_cons.mp ha).resolve_right hmem
      have hrest : (preciseEntry start endAddr base w a).Within start endAddr
          (entries.foldl (preciseEntry start endAddr base) (preciseEntry start endAddr base w a))
          entries := within_precise _ entries
      obtain hsame | ⟨hnone, -⟩ := hrest.blockList a
      · exact beside_preciseEntry w (hsame.symm.trans he)
      · exact absurd (hnone.symm.trans he) nofun

/-! ## Pages -/

structure PageStep (start endAddr : BitVec 64) (m m' : GuestToHostMap) (page : Nat)
    (entries : List (BitVec 64)) (w : PreciseWalk) : Prop where
  within : PreciseWalk.Within start endAddr { map := m } w entries
  exact : w.Exact start endAddr (pageBase page)
  beside : ∀ a ∈ entries, ∀ e, w.map.blockList a = some e → e.overlaps start endAddr = false
  blockList : m'.blockList = w.map.blockList
  codePages : m'.codePages = update m.codePages page (if w.kept.isEmpty then none else some w.kept)
  codeGranules : m'.codeGranules = m.codeGranules.recomputePageWord (pageBase page) w.survivingBits

theorem precisePage_step (start endAddr : BitVec 64) (m : GuestToHostMap) (n page : Nat) :
    (m.codePages page = none ∧ precisePage start endAddr (m, n) page = (m, n)) ∨
    ∃ entries w m' n', m.codePages page = some entries ∧ precisePage start endAddr (m, n) page = (m', n') ∧
      PageStep start endAddr m m' page entries w := by
  cases hsome : m.codePages page with
  | none => exact .inl ⟨rfl, by simp [precisePage, hsome]⟩
  | some entries =>
    have hwithin : PreciseWalk.Within start endAddr { map := m }
        (entries.foldl (preciseEntry start endAddr (pageBase page)) { map := m }) entries :=
      within_precise _ entries
    refine .inr ⟨entries, _, (precisePage start endAddr (m, n) page).1,
      (precisePage start endAddr (m, n) page).2, rfl, rfl, hwithin, (exact_nil m).foldl entries,
      fun a ha e he => beside_precise _ entries ha he, ?_, ?_, ?_⟩
    · simp only [precisePage, hsome]
    · simp only [precisePage, hsome, hwithin.codePages]
    · simp only [precisePage, hsome, CodeGranuleBitmap.recompute_of_enabled, hwithin.codeGranules]

theorem PageStep.listed_self (h : PageStep start endAddr m m' page entries w) : m'.Listed page a ↔ a ∈ w.kept := by
  simp only [Listed, h.codePages, update_self, getD_of_isEmpty]

theorem PageStep.listed_of_ne (h : PageStep start endAddr m m' q entries w) (hne : page ≠ q) :
    m'.Listed page a ↔ m.Listed page a := by
  simp only [Listed, h.codePages, update_of_ne hne]

/-- The page's vector has no stale entry and none that overlaps, and the word is the
union of their masks. -/
structure PageExact (start endAddr : BitVec 64) (m : GuestToHostMap) (page : Nat) : Prop where
  listed : ∀ a, m.Listed page a → ∃ e, m.blockList a = some e ∧ e.overlaps start endAddr = false
  word : (m.codeGranules.findLeaf (pageBase page)).isSome = true → ∀ i,
    (m.codeGranules.word (pageBase page)).getLsbD i = true ↔ ∃ a, m.Listed page a ∧ ∃ e, m.blockList a = some e ∧
        (pageMaskFor (pageBase page) e.extentStart e.extentLength).getLsbD i = true

def ClearUnlisted (m : GuestToHostMap) : Prop :=
  ∀ page < 2 ^ 52, m.codePages page = none → m.codeGranules.word (pageBase page) = 0

theorem pageExact_of_unlisted (h : m.ClearUnlisted) (hpage : page < 2 ^ 52)
    (hnone : m.codePages page = none) : PageExact start endAddr m page := by
  refine ⟨fun a ha => ?_, fun _ i => ?_⟩
  · simp [Listed, hnone] at ha
  · simp [h page hpage hnone, Listed, hnone]

theorem PageStep.pageExact_self (h : PageStep start endAddr m m' page entries w) :
    PageExact start endAddr m' page := by
  refine ⟨fun a ha => ?_, fun hleaf i => ?_⟩
  · rw [h.blockList]
    exact h.exact.kept a (h.listed_self.mp ha)
  · rw [h.codeGranules, CodeGranuleBitmap.isSome_findLeaf_recomputePageWord] at hleaf
    rw [h.codeGranules, CodeGranuleBitmap.word_recomputePageWord (.inl hleaf)
      (CodeGranuleBitmap.findLeaf_lt hleaf), if_pos rfl, h.exact.bits i, h.blockList]
    exact exists_congr fun a => and_congr_left' h.listed_self.symm

theorem PageStep.pageExact_of_ne (h : PageStep start endAddr m m' q entries w)
    (hexact : PageExact start endAddr m page) (hq : q < 2 ^ 52) (hpage : page < 2 ^ 52)
    (hne : q ≠ page) : PageExact start endAddr m' page := by
  have hblock : ∀ a, m.Listed page a → m'.blockList a = m.blockList a := by
    intro a ha
    obtain ⟨e, he, hbeside⟩ := hexact.listed a ha
    rw [h.blockList]
    obtain hsame | ⟨-, -, hover⟩ := h.within.blockList a
    · exact hsame
    · rw [hover e he] at hbeside
      cases hbeside
  refine ⟨fun a ha => ?_, fun hleaf i => ?_⟩
  · have ha := (h.listed_of_ne hne.symm).mp ha
    rw [hblock a ha]
    exact hexact.listed a ha
  · rw [h.codeGranules, CodeGranuleBitmap.isSome_findLeaf_recomputePageWord] at hleaf
    rw [h.codeGranules, CodeGranuleBitmap.word_recomputePageWord_of_ne (pageBase_ne hq hpage hne),
      hexact.word hleaf i]
    refine exists_congr fun a => ?_
    rw [h.listed_of_ne hne.symm]
    refine and_congr_right fun ha => ?_
    rw [hblock a ha]

theorem PageStep.clearUnlisted (h : PageStep start endAddr m m' q entries w)
    (hclear : m.ClearUnlisted) (hq : q < 2 ^ 52) : m'.ClearUnlisted := by
  intro page hpage hnone
  rw [h.codePages] at hnone
  rw [h.codeGranules]
  by_cases hne : q = page
  · subst hne
    have hempty : w.kept = [] := by
      by_contra hkept
      simp [hkept] at hnone
    have hzero : w.survivingBits = 0 := by
      apply BitVec.eq_of_getLsbD_eq
      intro i _
      rw [Bool.eq_iff_iff, h.exact.bits i]
      simp [hempty]
    rw [hzero]
    exact CodeGranuleBitmap.word_clearPage _ _
  · rw [update_of_ne (Ne.symm hne)] at hnone
    rw [CodeGranuleBitmap.word_recomputePageWord_of_ne (pageBase_ne hq hpage hne)]
    exact hclear page hpage hnone

theorem ClearUnlisted.precisePages (h : m.ClearUnlisted) (start endAddr : BitVec 64) (n : Nat)
    (pages : List Nat) (hpages : ∀ page ∈ pages, page < 2 ^ 52) :
    (pages.foldl (precisePage start endAddr) (m, n)).1.ClearUnlisted := by
  induction pages generalizing m n with
  | nil => exact h
  | cons q pages ih =>
    obtain ⟨hq, hpages⟩ := List.forall_mem_cons.mp hpages
    obtain ⟨-, heq⟩ | ⟨_, _, m', n', -, heq, hstep⟩ := precisePage_step start endAddr m n q
    · rw [List.foldl_cons, heq]
      exact ih h n hpages
    · rw [List.foldl_cons, heq]
      exact ih (hstep.clearUnlisted h hq) n' hpages

theorem PageExact.sameLive (h : PageExact start endAddr m page) (hsame : SameLive m m') :
    PageExact start endAddr m' page := by
  obtain ⟨hblocks, hpages, hgranules⟩ := hsame
  refine ⟨?_, ?_⟩
  · simpa only [Listed, hblocks, hpages] using h.listed
  · simpa only [Listed, hblocks, hpages, hgranules] using h.word

theorem pageExact_precisePages (hclear : m.ClearUnlisted) (n : Nat) (hpage : page < 2 ^ 52)
    (pages : List Nat) (hpages : ∀ q ∈ pages, q < 2 ^ 52) (hin : page ∈ pages ∨ PageExact start endAddr m page) :
    PageExact start endAddr (pages.foldl (precisePage start endAddr) (m, n)).1 page := by
  induction pages generalizing m n with
  | nil => simpa using hin
  | cons q pages ih =>
    obtain ⟨hq, hpages⟩ := List.forall_mem_cons.mp hpages
    obtain ⟨hnone, heq⟩ | ⟨_, _, m', n', -, heq, hstep⟩ := precisePage_step start endAddr m n q
    · rw [List.foldl_cons, heq]
      refine ih hclear n hpages ?_
      obtain hin | hexact := hin
      · rcases List.mem_cons.mp hin with rfl | hin
        · exact .inr (pageExact_of_unlisted hclear hpage hnone)
        · exact .inl hin
      · exact .inr hexact
    · rw [List.foldl_cons, heq]
      refine ih (hstep.clearUnlisted hclear hq) n' hpages ?_
      by_cases hne : q = page
      · subst hne
        exact .inr hstep.pageExact_self
      · obtain hin | hexact := hin
        · exact .inl ((List.mem_cons.mp hin).resolve_left (Ne.symm hne))
        · exact .inr (hstep.pageExact_of_ne hexact hq hpage hne)

/-! ## The blocks that go -/

theorem beside_precisePages (n : Nat) (pages : List Nat) (hpage : page ∈ pages) (hlisted : m.Listed page a)
    (he : (pages.foldl (precisePage start endAddr) (m, n)).1.blockList a = some e) :
    e.overlaps start endAddr = false := by
  induction pages generalizing m n with
  | nil => cases hpage
  | cons q pages ih =>
    rw [List.foldl_cons] at he
    obtain ⟨hnone, heq⟩ | ⟨entries, w, m', n', hsome, heq, hstep⟩ := precisePage_step start endAddr m n q
    · rw [heq] at he
      rcases List.mem_cons.mp hpage with rfl | hpage
      · simp [Listed, hnone] at hlisted
      · exact ih n hpage hlisted he
    · rw [heq] at he
      by_cases hq : m.Listed q a
      · -- erased here, or beside the range and left by every later page
        have hrest : Shrinks (·.overlaps start endAddr) m'
            (pages.foldl (precisePage start endAddr) (m', n')).1 pages := shrinks_precisePages _ _ _
        have hmid : m'.blockList a = some e := by
          obtain hsame | ⟨hnone, -⟩ := hrest.blockList a
          · exact hsame.symm.trans he
          · simp [hnone] at he
        rw [hstep.blockList] at hmid
        exact hstep.beside a (by simpa [Listed, hsome] using hq) e hmid
      · have hne : page ≠ q := fun heq => hq (heq ▸ hlisted)
        refine ih n' ((List.mem_cons.mp hpage).resolve_left hne) ?_ he
        exact (hstep.listed_of_ne hne).mpr hlisted

theorem blockList_invalidateRangePrecise (m : GuestToHostMap) (start length : BitVec 64) :
    (m.invalidateRangePrecise start length).1.blockList a = some e ↔
      m.blockList a = some e ∧ ¬((∃ page ∈ pageIndexes start length, m.Listed page a) ∧
        e.overlaps start (start + length)) := by
  have hshrinks : Shrinks (·.overlaps start (start + length)) m
      (m.invalidateRangePrecise start length).1 (pageIndexes start length) :=
    shrinks_invalidate m start length .precise
  have hwalk := (sameLive_dropRetainedRange
    ((pageIndexes start length).foldl (precisePage start (start + length)) (m, 0)).1 start length).1
  constructor
  · intro he
    have hbefore : m.blockList a = some e := by
      obtain hsame | ⟨hnone, -⟩ := hshrinks.blockList a
      · exact hsame.symm.trans he
      · exact absurd (hnone.symm.trans he) nofun
    refine ⟨hbefore, fun ⟨⟨page, hpage, hlisted⟩, hover⟩ => ?_⟩
    have he' : ((pageIndexes start length).foldl (precisePage start (start + length)) (m, 0)).1.blockList a =
        some e := by
      rw [← hwalk]
      exact he
    rw [beside_precisePages 0 _ hpage hlisted he'] at hover
    cases hover
  · rintro ⟨hbefore, hspared⟩
    obtain hsame | ⟨-, hlisted, hover⟩ := hshrinks.blockList a
    · exact hsame.trans hbefore
    · exact absurd ⟨hlisted, hover e hbefore⟩ hspared

/-! ## Pages without blocks, along a run -/

theorem ClearUnlisted.sameLive (h : m.ClearUnlisted) (hsame : SameLive m m') : m'.ClearUnlisted := by
  obtain ⟨-, hpages, hgranules⟩ := hsame
  simpa only [ClearUnlisted, hpages, hgranules] using h

theorem ClearUnlisted.addPage (h : m.ClearUnlisted) (addresses : List (BitVec 64))
    (start length : BitVec 64) (alloc : Nat → CodeGranuleBitmap.Alloc) (hq : q < 2 ^ 52) :
    (m.addPage addresses start length alloc q).ClearUnlisted := by
  intro page hpage hnone
  by_cases hne : q = page
  · simp [GuestToHostMap.addPage, hne] at hnone
  · have hold : m.codePages page = none := by simpa [GuestToHostMap.addPage, update_of_ne (Ne.symm hne)] using hnone
    simp only [GuestToHostMap.addPage]
    split
    · rw [CodeGranuleBitmap.word_setPageRange_of_ne (pageBase_ne hq hpage hne)]
      exact h page hpage hold
    · exact h page hpage hold

theorem ClearUnlisted.addBlockExecutableRange (h : m.ClearUnlisted) (addresses : List (BitVec 64))
    (start length guestRangeStart guestRangeLength : BitVec 64) (alloc : Nat → CodeGranuleBitmap.Alloc) :
    (m.addBlockExecutableRange addresses start length guestRangeStart guestRangeLength alloc).1.ClearUnlisted := by
  unfold GuestToHostMap.addBlockExecutableRange
  have hpages : ∀ page ∈ pageIndexes start length, page < 2 ^ 52 := fun _ => lt_of_mem_pageIndexes
  revert hpages
  generalize pageIndexes start length = pages
  intro hpages
  induction pages generalizing m with
  | nil => exact h
  | cons q pages ih =>
    obtain ⟨hq, hpages⟩ := List.forall_mem_cons.mp hpages
    exact ih (h.addPage addresses guestRangeStart guestRangeLength alloc hq) hpages

theorem Erases.codeGranules_erasePage (hf : Erases eraseBlock) (m : GuestToHostMap) (page : Nat) :
    (m.erasePage eraseBlock page).codeGranules =
      if (m.codePages page).isSome then m.codeGranules.clearPage (pageBase page)
      else m.codeGranules := by
  unfold GuestToHostMap.erasePage
  split
  next hnone => simp [hnone]
  next entries hsome =>
    obtain ⟨-, -, hgranules⟩ := hf.foldl m entries
    simp [clearGranules, hgranules, CodeGranuleBitmap.clearPage, CodeGranuleBitmap.recompute_of_enabled, hsome]

theorem ClearUnlisted.erasePagesWalk (h : m.ClearUnlisted) (hf : Erases eraseBlock) (pages : List Nat)
    (hpages : ∀ page ∈ pages, page < 2 ^ 52) (hpage : page < 2 ^ 52)
    (hin : page ∈ pages ∨ m.codeGranules.word (pageBase page) = 0) :
    (pages.foldl (GuestToHostMap.erasePage eraseBlock) m).codeGranules.word (pageBase page) = 0 := by
  induction pages generalizing m with
  | nil => simpa using hin
  | cons q pages ih =>
    obtain ⟨hq, hpages⟩ := List.forall_mem_cons.mp hpages
    have hword : ∀ page < 2 ^ 52, (page = q ∨ m.codeGranules.word (pageBase page) = 0) →
        (m.erasePage eraseBlock q).codeGranules.word (pageBase page) = 0 := by
      intro page hpage hzero
      rw [hf.codeGranules_erasePage m q]
      split
      next hsome =>
        by_cases hne : q = page
        · subst hne
          exact CodeGranuleBitmap.word_clearPage _ _
        · rw [CodeGranuleBitmap.clearPage,
            CodeGranuleBitmap.word_recomputePageWord_of_ne (pageBase_ne hq hpage hne)]
          exact hzero.resolve_left (Ne.symm hne)
      next hsome =>
        rcases hzero with rfl | hzero
        · exact h page hpage (by simpa using hsome)
        · exact hzero
    refine ih (fun page hpage hnone => ?_) hpages ?_
    · rw [(hf.erasePage m q).2] at hnone
      exact hword page hpage (.inr (h page hpage hnone))
    · rcases hin with hin | hzero
      · rcases List.mem_cons.mp hin with rfl | hin
        · exact .inr (hword page hpage (.inl rfl))
        · exact .inl hin
      · exact .inr (hword page hpage (.inr hzero))

theorem ClearUnlisted.erasePages (h : m.ClearUnlisted) (hf : Erases eraseBlock)
    (start length : BitVec 64) : (m.erasePages eraseBlock start length).ClearUnlisted := by
  intro page hpage hnone
  refine h.erasePagesWalk hf _ (fun _ => lt_of_mem_pageIndexes) hpage ?_
  by_cases hin : page ∈ pageIndexes start length
  · exact .inl hin
  · refine .inr (h page hpage ?_)
    simpa [GuestToHostMap.erasePages, hin, (hf.erasePagesWalk m _).2] using hnone

end GuestToHostMap

/-! ## Runs -/

namespace LinkedMap

open GuestToHostMap

variable {m : LinkedMap} {start length : BitVec 64} {e : BlockEntry}

structure Settled (m : LinkedMap) : Prop where
  links : m.links.Sound
  retained : m.map.RetainedIndexed
  unlisted : m.map.ClearUnlisted

theorem settled_init (root : Bool) : Settled (init root) where
  links := LinkTable.sound_empty []
  retained := nofun
  unlisted page _ _ := by
    cases root with
    | false => rfl
    | true =>
      simp only [CodeGranuleBitmap.word, CodeGranuleBitmap.findLeaf]
      split
      · rfl
      · rfl

theorem clearUnlisted_mapStep {m : GuestToHostMap} (h : m.ClearUnlisted) (op : Op) :
    (mapStep m op).ClearUnlisted := by
  cases op with
  | addBlockMapping addr e => exact h
  | addBlockExecutableRange addresses start length guestRangeStart guestRangeLength alloc =>
    exact h.addBlockExecutableRange _ _ _ _ _ _
  | addBlockLink dest link => exact h
  | erase addr => exact h
  | takeRetainedBlock addr => exact h.sameLive (sameLive_dropRetainedBlockLocked _ _)
  | invalidateRange start length =>
    exact (h.erasePages erases_erase start length).sameLive (sameLive_dropRetainedRange _ _ _)
  | softInvalidateRange start length => exact h.erasePages erases_softEraseBlock start length
  | invalidateRangePrecise start length =>
    exact (h.precisePages start _ 0 _ fun _ => lt_of_mem_pageIndexes).sameLive (sameLive_dropRetainedRange _ _ _)
  | clearCache =>
    intro page hpage hnone
    obtain hsame | hzero := CodeGranuleBitmap.word_clearAll m.codeGranules (pageBase page)
    · exact hsame.trans (h page hpage hnone)
    · exact hzero

theorem Settled.step (h : m.Settled) (op : Op) : ∃ m', m.step op = some m' ∧ m'.Settled := by
  obtain ⟨links, hstep, hsound⟩ := step_tracks m h.links op
  exact ⟨_, hstep, hsound, retains_retainedIndexed.mapStep h.retained op, clearUnlisted_mapStep h.unlisted op⟩

theorem Settled.run (h : m.Settled) (ops : List Op) : ∃ m', ops.foldlM LinkedMap.step m = some m' ∧ m'.Settled := by
  induction ops generalizing m with
  | nil => exact ⟨m, rfl, h⟩
  | cons op ops ih =>
    obtain ⟨m₁, hop, h₁⟩ := h.step op
    obtain ⟨m', hops, h'⟩ := ih h₁
    refine ⟨m', ?_, h'⟩
    rw [List.foldlM_cons, hop]
    exact hops

/-! ## Exactness -/

def Meets (e : BlockEntry) (start length : BitVec 64) : Prop :=
  ∃ x, e.extentStart.toNat ≤ x ∧ x < e.extentStart.toNat + e.extentLength.toNat ∧
    start.toNat ≤ x ∧ x < start.toNat + length.toNat

def Proper (start length : BitVec 64) : Prop := 0 < length.toNat ∧ start.toNat + length.toNat < 2 ^ 64

theorem touches_iff (h : Proper start length) : Touches start length page ↔ page ∈ pageIndexes start length :=
  touches_iff_of_le h.1 h.2.le

theorem overlaps_iff (h : Proper start length) (hextent : e.extentStart.toNat + e.extentLength.toNat < 2 ^ 64) :
    e.overlaps start (start + length) ↔ e.extentLength = 0 ∨ Meets e start length := by
  obtain ⟨hpos, hlt⟩ := h
  have hend : (start + length).toNat = start.toNat + length.toNat := by bv_omega
  have hextentEnd : (e.extentStart + e.extentLength).toNat =
      e.extentStart.toNat + e.extentLength.toNat := by bv_omega
  unfold BlockEntry.overlaps Meets
  by_cases hzero : e.extentLength = 0
  · simp [hzero]
  · have hlength : 0 < e.extentLength.toNat := by bv_omega
    simp only [hzero, decide_false, Bool.false_or, Bool.and_eq_true, decide_eq_true_eq, BitVec.lt_def, false_or]
    constructor
    · rintro ⟨hbelow, habove⟩
      refine ⟨max start.toNat e.extentStart.toNat, ?_, ?_, ?_, ?_⟩
      all_goals omega
    · omega

theorem invalidateRangePrecise_exact (root : Bool) (ops : List Op) :
    ∃ m, ops.foldlM step (init root) = some m ∧ ∀ start length, Proper start length →
      (∀ a e, m.map.blockList a = some e → e.extentStart.toNat + e.extentLength.toNat < 2 ^ 64) →
      ∃ m' erased, m.invalidateRangePrecise start length = some (m', erased) ∧
        (∀ a e, m'.map.blockList a = some e ↔ m.map.blockList a = some e ∧
          ¬((∃ page, Touches start length page ∧ m.map.Listed page a) ∧
            (e.extentLength = 0 ∨ Meets e start length))) ∧
        (∃ calls, m'.links.delinked = m.links.delinked ++ calls ∧
          ∀ a, m.map.blockList a ≠ none → m'.map.blockList a = none → ∀ link ∈ m.links.inbound a, link ∈ calls) ∧
        (∀ a e, m.map.retainedBlocks a = some e →
          (∃ p ∈ e.codePages, Touches start length (pageIndex p)) → m'.map.retainedBlocks a = none) ∧
        (∀ page, Touches start length page → (m'.map.codeGranules.findLeaf (pageBase page)).isSome = true → ∀ i,
            (m'.map.codeGranules.word (pageBase page)).getLsbD i = true ↔
              ∃ a, m'.map.Listed page a ∧ ∃ e, m'.map.blockList a = some e ∧
                (CodeGranuleBitmap.pageMaskFor (pageBase page) e.extentStart e.extentLength).getLsbD i = true) := by
  obtain ⟨m, hrun, hsettled⟩ := (settled_init root).run ops
  refine ⟨m, hrun, fun start length hproper hextents => ?_⟩
  obtain ⟨links, addrs, heq, hsevers, hcovers⟩ := invalidateRangePrecise_tracks m hsettled.links start length
  refine ⟨_, _, heq, fun a e => ?_, ?_, ?_, fun page hpage hleaf i => ?_⟩
  · rw [blockList_invalidateRangePrecise]
    refine and_congr_right fun he => not_congr (and_congr ?_ (overlaps_iff hproper (hextents a e he)))
    simp only [touches_iff hproper]
  · obtain ⟨calls, hcalls, hmem⟩ := hsevers.delinked
    exact ⟨calls, hcalls, fun a hlive hgone link hlink => (hmem link).mpr ⟨a, hcovers a hlive hgone, hlink⟩⟩
  · rintro a e he ⟨p, hp, hpage⟩
    obtain ⟨hblocks, hindex⟩ := retained_precisePages start (start + length) m.map 0 (pageIndexes start length)
    refine (hsettled.retained.of_same hblocks hindex).gone ?_ hp ((touches_iff hproper).mp hpage)
    rw [hblocks]
    exact he
  · have hmem := (touches_iff hproper).mp hpage
    have hexact : PageExact start (start + length) (m.map.invalidateRangePrecise start length).1 page :=
      (pageExact_precisePages hsettled.unlisted 0 (lt_of_mem_pageIndexes hmem) _
        (fun _ => lt_of_mem_pageIndexes) (.inl hmem)).sameLive (sameLive_dropRetainedRange _ _ _)
    exact hexact.word hleaf i

def lineEntry (addr : BitVec 64) : BlockEntry where
  hostCode := 0
  tail := ⟨addr, 32⟩
  codePages := [pageBase (pageIndex addr)]
  extentStart := addr
  extentLength := 32

def lineRun (addr : BitVec 64) : List Op :=
  [.addBlockExecutableRange [addr] (pageBase (pageIndex addr)) 4096 addr 32 fun _ => ⟨true, true⟩,
    .addBlockMapping addr (lineEntry addr),
    .addBlockLink addr ⟨7, 9⟩]

def lineMap (addr : BitVec 64) : LinkedMap where
  map := (((GuestToHostMap.init false).addBlockExecutableRange [addr] (pageBase (pageIndex addr)) 4096 addr
    32 fun _ => ⟨true, true⟩).1).addBlockMapping addr (lineEntry addr)
  links :=
    { blockLinkPool := [⟨⟨7, 9⟩, none⟩]
      blockLinks := update (fun _ => none) addr (some 0) }

theorem lineRun_run (addr : BitVec 64) : (lineRun addr).foldlM step (init false) = some (lineMap addr) := rfl

theorem extents_lineMap (a : BitVec 64) (e : BlockEntry) (he : (lineMap 0x1040).map.blockList a = some e) :
    e.extentStart.toNat + e.extentLength.toNat < 2 ^ 64 := by
  by_cases ha : a = 0x1040
  · obtain rfl : lineEntry 0x1040 = e := by simpa [lineMap, addBlockMapping, ha] using he
    decide
  · have hnone : (lineMap 0x1040).map.blockList a = none := by
      simp only [lineMap, addBlockMapping, update_of_ne ha]
      rfl
    exact absurd (hnone.symm.trans he) nofun

theorem invalidateRangePrecise_exact_line : ∃ m' erased,
    (lineMap 0x1040).invalidateRangePrecise 0x1040 64 = some (m', erased) ∧
      m'.map.blockList 0x1040 = none ∧ ⟨7, 9⟩ ∈ m'.links.delinked := by
  obtain ⟨m, hrun, h⟩ := invalidateRangePrecise_exact false (lineRun 0x1040)
  obtain rfl := Option.some.inj ((lineRun_run 0x1040).symm.trans hrun)
  obtain ⟨m', erased, heq, hblocks, ⟨calls, hcalls, hlinks⟩, -, -⟩ :=
    h 0x1040 64 ⟨by decide, by decide⟩ extents_lineMap
  have hgone : m'.map.blockList 0x1040 = none := by
    refine Option.eq_none_iff_forall_ne_some.mpr fun e he => ?_
    obtain ⟨hbefore, hspared⟩ := (hblocks 0x1040 e).mp he
    obtain rfl : lineEntry 0x1040 = e := Option.some.inj hbefore
    refine hspared ⟨⟨1, ⟨0x1040, by decide, by decide, by decide⟩, ?_⟩, .inr ⟨0x1040, ?_⟩⟩
    · exact List.mem_singleton.mpr rfl
    · decide
  refine ⟨m', erased, heq, hgone, ?_⟩
  rw [hcalls]
  refine List.mem_append_right _ (hlinks 0x1040 nofun hgone _ ?_)
  decide

/-- The end of a range up to the top of the address space wraps to zero, and no known
extent starts below it. -/
theorem topLine_kept : (lineRun 0xFFFFFFFFFFFFFFC0).foldlM step (init false) = some (lineMap 0xFFFFFFFFFFFFFFC0) ∧
      ((lineMap 0xFFFFFFFFFFFFFFC0).invalidateRangePrecise 0xFFFFFFFFFFFFFFC0 64).map
          (fun m => (m.1.map.blockList 0xFFFFFFFFFFFFFFC0, m.2)) =
        some (some (lineEntry 0xFFFFFFFFFFFFFFC0), 0) ∧
      Touches 0xFFFFFFFFFFFFFFC0 64 0xFFFFFFFFFFFFF ∧
      (lineMap 0xFFFFFFFFFFFFFFC0).map.Listed 0xFFFFFFFFFFFFF 0xFFFFFFFFFFFFFFC0 ∧
      Meets (lineEntry 0xFFFFFFFFFFFFFFC0) 0xFFFFFFFFFFFFFFC0 64 := by
  refine ⟨rfl, rfl, ⟨0xFFFFFFFFFFFFFFC0, by decide, by decide, by decide⟩, ?_, ⟨0xFFFFFFFFFFFFFFC0, ?_⟩⟩
  · exact List.mem_singleton.mpr rfl
  · decide

end LinkedMap

end PowerArm.Lookup
