import PowerArm.Lookup.GranuleLaws
import PowerArm.Lookup.Map

/-!
# What an invalidation removes

An invalidation takes addresses out of the block list and puts none in; what it
takes was listed on a page of the range (`shrinks_invalidate`). A block that is
on every one of its code pages and whose granules are marked there (`Indexed`)
either goes or stays so (`AllIndexed.invalidate`).
-/

namespace PowerArm.Lookup

open Lib (foldl_invariant)

theorem mem_pageIndexes : page ∈ pageIndexes start length ↔
      pageIndex start ≤ page ∧ page ≤ pageIndex (start + length - 1) := by
  rw [pageIndexes, List.mem_range'_1]
  omega

theorem pageIndex_pageBase (h : page < 2 ^ 52) : pageIndex (pageBase page) = page := by
  unfold pageIndex pageBase pageSize
  rw [BitVec.toNat_ofNat]
  omega

theorem pageIndex_lt (addr : BitVec 64) : pageIndex addr < 2 ^ 52 := by
  unfold pageIndex pageSize
  omega

theorem lt_of_mem_pageIndexes (h : page ∈ pageIndexes start length) : page < 2 ^ 52 :=
  (mem_pageIndexes.mp h).2.trans_lt (pageIndex_lt _)

namespace GuestToHostMap

def Listed (m : GuestToHostMap) (page : Nat) (addr : BitVec 64) : Prop := addr ∈ (m.codePages page).getD []

variable {m m' : GuestToHostMap} {a addr start length endAddr base : BitVec 64} {e : BlockEntry} {w : PreciseWalk}

/-! ## Retained blocks -/

def SameLive (m m' : GuestToHostMap) : Prop :=
  m'.blockList = m.blockList ∧ m'.codePages = m.codePages ∧ m'.codeGranules = m.codeGranules

theorem sameLive_dropRetainedBlockLocked (m : GuestToHostMap) (a : BitVec 64) :
    SameLive m (m.dropRetainedBlockLocked a) := by
  unfold dropRetainedBlockLocked
  split
  · exact ⟨rfl, rfl, rfl⟩
  · exact ⟨rfl, rfl, rfl⟩

theorem sameLive_dropRetainedRange (m : GuestToHostMap) (start length : BitVec 64) :
    SameLive m (m.dropRetainedRange start length) := by
  unfold dropRetainedRange
  generalize (pageIndexes start length).flatMap _ = doomed
  induction doomed generalizing m with
  | nil => exact ⟨rfl, rfl, rfl⟩
  | cons x doomed ih =>
    obtain ⟨hblocks, hpages, hgranules⟩ := sameLive_dropRetainedBlockLocked m x
    obtain ⟨hblocks', hpages', hgranules'⟩ := ih (m.dropRetainedBlockLocked x)
    exact ⟨hblocks'.trans hblocks, hpages'.trans hpages, hgranules'.trans hgranules⟩

/-! ## Page-granular invalidation -/

structure Erases (eraseBlock : GuestToHostMap → BitVec 64 → GuestToHostMap) : Prop where
  blockList : ∀ m a, (eraseBlock m a).blockList = Function.update m.blockList a none
  codePages : ∀ m a, (eraseBlock m a).codePages = m.codePages
  codeGranules : ∀ m a, (eraseBlock m a).codeGranules = m.codeGranules

theorem erases_erase : Erases erase := ⟨fun _ _ => rfl, fun _ _ => rfl, fun _ _ => rfl⟩

theorem softEraseBlock_cases (m : GuestToHostMap) (a : BitVec 64) : (m.blockList a = none ∧ m.softEraseBlock a = m) ∨
    ∃ m', SameLive m m' ∧ ∃ blocks index, m.softEraseBlock a =
      { m' with retainedBlocks := blocks, retainedCodePages := index,
                blockList := Function.update m'.blockList a none } := by
  unfold softEraseBlock
  split
  next hnone => exact .inl ⟨hnone, rfl⟩
  next e hsome =>
    split
    · exact .inr ⟨m, ⟨rfl, rfl, rfl⟩, m.retainedBlocks, m.retainedCodePages, rfl⟩
    · exact .inr ⟨_, sameLive_dropRetainedBlockLocked m a, _, _, rfl⟩

theorem erases_softEraseBlock : Erases softEraseBlock where
  blockList m a := by
    obtain ⟨hnone, heq⟩ | ⟨m', ⟨hblocks, -, -⟩, _, _, heq⟩ := softEraseBlock_cases m a
    · rw [heq, ← hnone, Function.update_eq_self]
    · rw [heq, ← hblocks]
  codePages m a := by
    obtain ⟨-, heq⟩ | ⟨m', ⟨-, hpages, -⟩, _, _, heq⟩ := softEraseBlock_cases m a
    · rw [heq]
    · rw [heq, ← hpages]
  codeGranules m a := by
    obtain ⟨-, heq⟩ | ⟨m', ⟨-, -, hgranules⟩, _, _, heq⟩ := softEraseBlock_cases m a
    · rw [heq]
    · rw [heq, ← hgranules]

section
variable {eraseBlock : GuestToHostMap → BitVec 64 → GuestToHostMap} (hf : Erases eraseBlock)
include hf

theorem Erases.foldl (m : GuestToHostMap) (entries : List (BitVec 64)) :
    (∀ a, (entries.foldl eraseBlock m).blockList a = if a ∈ entries then none else m.blockList a) ∧
    (entries.foldl eraseBlock m).codePages = m.codePages ∧
    (entries.foldl eraseBlock m).codeGranules = m.codeGranules := by
  induction entries generalizing m with
  | nil => exact ⟨fun _ => by simp, rfl, rfl⟩
  | cons x entries ih =>
    obtain ⟨hblocks, hpages, hgranules⟩ := ih (eraseBlock m x)
    refine ⟨fun a => ?_, hpages.trans (hf.codePages m x), hgranules.trans (hf.codeGranules m x)⟩
    rw [List.foldl_cons, hblocks a, hf.blockList]
    by_cases hx : a = x
    · simp [hx]
    · simp [hx]

theorem Erases.erasePage (m : GuestToHostMap) (page : Nat) : (∀ a, (m.erasePage eraseBlock page).blockList a =
      if a ∈ (m.codePages page).getD [] then none else m.blockList a) ∧
    (m.erasePage eraseBlock page).codePages = m.codePages := by
  unfold GuestToHostMap.erasePage
  split
  next hnone => exact ⟨fun a => by simp [hnone], rfl⟩
  next entries hsome =>
    obtain ⟨hblocks, hpages, -⟩ := hf.foldl m entries
    refine ⟨fun a => ?_, hpages⟩
    rw [hsome]
    exact hblocks a

theorem Erases.erasePagesWalk (m : GuestToHostMap) (pages : List Nat) :
    (∀ a e, (pages.foldl (GuestToHostMap.erasePage eraseBlock) m).blockList a = some e ↔
      m.blockList a = some e ∧ ∀ page ∈ pages, ¬ m.Listed page a) ∧
    (pages.foldl (GuestToHostMap.erasePage eraseBlock) m).codePages = m.codePages := by
  induction pages generalizing m with
  | nil => exact ⟨fun a e => by simp, rfl⟩
  | cons page pages ih =>
    obtain ⟨hblocks, hpages⟩ := hf.erasePage m page
    obtain ⟨hblocks', hpages'⟩ := ih (m.erasePage eraseBlock page)
    refine ⟨fun a e => ?_, hpages'.trans hpages⟩
    rw [List.foldl_cons, hblocks' a e, hblocks a]
    simp only [Listed, hpages]
    split
    next hmem => simp [hmem]
    next hmem => simp [hmem]

theorem Erases.blockList_erasePages (m : GuestToHostMap) (start length : BitVec 64) :
    (m.erasePages eraseBlock start length).blockList a = some e ↔
      m.blockList a = some e ∧ ∀ page ∈ pageIndexes start length, ¬ m.Listed page a :=
  (hf.erasePagesWalk m _).1 a e

end

/-! ## Precise invalidation -/

/-- The walk has dealt with an address: still in the block list, it is kept and
its bits survive. -/
def PreciseWalk.Done (w : PreciseWalk) (base a : BitVec 64) : Prop :=
  ∀ e, w.map.blockList a = some e → a ∈ w.kept ∧
    ∀ i, (CodeGranuleBitmap.pageMaskFor base e.extentStart e.extentLength).getLsbD i = true →
      w.survivingBits.getLsbD i = true

theorem PreciseWalk.Done.preciseEntry (h : w.Done base a) (x : BitVec 64) :
    (preciseEntry start endAddr base w x).Done base a := by
  unfold GuestToHostMap.preciseEntry
  split
  next => exact h
  next ex hx =>
    split
    next =>
      intro e he
      by_cases hax : a = x
      · simp [erase, hax] at he
      · exact h e (by simpa [erase, hax] using he)
    next =>
      intro e he
      obtain ⟨hkept, hbits⟩ := h e he
      exact ⟨List.mem_append_left _ hkept, fun i hi => by simp [hbits i hi]⟩

theorem done_preciseEntry (w : PreciseWalk) (a : BitVec 64) : (preciseEntry start endAddr base w a).Done base a := by
  unfold preciseEntry
  split
  next hnone => exact fun e he => by simp [hnone] at he
  next ea ha =>
    split
    next => exact fun e he => by simp [erase] at he
    next =>
      intro e he
      obtain rfl : ea = e := Option.some.inj (ha.symm.trans he)
      exact ⟨by simp, fun i hi => by simp [hi]⟩

theorem done_precise (w : PreciseWalk) (entries : List (BitVec 64)) (h : a ∈ entries ∨ w.Done base a) :
    (entries.foldl (preciseEntry start endAddr base) w).Done base a := by
  induction entries generalizing w with
  | nil => simpa using h
  | cons x entries ih =>
    refine ih _ ?_
    obtain hmem | hdone := h
    · obtain rfl | hmem := List.mem_cons.mp hmem
      · exact .inr (done_preciseEntry w a)
      · exact .inl hmem
    · exact .inr (hdone.preciseEntry x)

structure PreciseWalk.Within (start endAddr : BitVec 64) (w w' : PreciseWalk) (entries : List (BitVec 64)) :
    Prop where
  blockList : ∀ a, w'.map.blockList a = w.map.blockList a ∨ w'.map.blockList a = none ∧ a ∈ entries ∧
    ∀ e, w.map.blockList a = some e → e.overlaps start endAddr = true
  codePages : w'.map.codePages = w.map.codePages
  codeGranules : w'.map.codeGranules = w.map.codeGranules
  kept : ∀ a ∈ w'.kept, a ∈ w.kept ∨ a ∈ entries

theorem within_preciseEntry (w : PreciseWalk) (a : BitVec 64) :
    w.Within start endAddr (preciseEntry start endAddr base w a) [a] := by
  unfold preciseEntry
  split
  next => exact ⟨fun _ => .inl rfl, rfl, rfl, fun _ => .inl⟩
  next e ha =>
    split
    next hover =>
      refine ⟨fun x => ?_, rfl, rfl, fun _ => .inl⟩
      by_cases hx : x = a
      · subst hx
        refine .inr ⟨by simp [erase], List.mem_cons_self, fun e' he' => ?_⟩
        rwa [← Option.some.inj (ha.symm.trans he')]
      · exact .inl (by simp [erase, hx])
    next => exact ⟨fun _ => .inl rfl, rfl, rfl, fun x hx => List.mem_append.mp hx⟩

theorem within_precise (w : PreciseWalk) (entries : List (BitVec 64)) :
    w.Within start endAddr (entries.foldl (preciseEntry start endAddr base) w) entries := by
  induction entries generalizing w with
  | nil => exact ⟨fun _ => .inl rfl, rfl, rfl, fun _ => .inl⟩
  | cons x entries ih =>
    have hx : w.Within start endAddr (preciseEntry start endAddr base w x) [x] := within_preciseEntry w x
    have hrest := ih (preciseEntry start endAddr base w x)
    refine ⟨fun a => ?_, hrest.codePages.trans hx.codePages,
      hrest.codeGranules.trans hx.codeGranules, fun a ha => ?_⟩
    · obtain hsame | ⟨hnone, hmem, hover⟩ := hx.blockList a
      · obtain heq | ⟨hnone, hmem, hover⟩ := hrest.blockList a
        · exact .inl (heq.trans hsame)
        · exact .inr ⟨hnone, List.mem_cons_of_mem x hmem, hsame ▸ hover⟩
      · have hgone : (entries.foldl (preciseEntry start endAddr base) _).map.blockList a = none :=
          (hrest.blockList a).elim (·.trans hnone) (·.1)
        exact .inr ⟨hgone, List.mem_cons.mpr (.inl (List.mem_singleton.mp hmem)), hover⟩
    · obtain ha | ha := hrest.kept a ha
      · obtain ha | ha := hx.kept a ha
        · exact .inl ha
        · exact .inr (List.mem_cons.mpr (.inl (List.mem_singleton.mp ha)))
      · exact .inr (List.mem_cons_of_mem x ha)

theorem precisePage_cases (m : GuestToHostMap) (n page : Nat) :
    (m.codePages page = none ∧ precisePage start endAddr (m, n) page = (m, n)) ∨
    ∃ entries w, m.codePages page = some entries ∧ PreciseWalk.Within start endAddr { map := m } w entries ∧
      (∀ a ∈ entries, w.Done (pageBase page) a) ∧
      (precisePage start endAddr (m, n) page).1 = { w.map with
        codeGranules :=
          if w.map.codeGranules.enabled then
            w.map.codeGranules.recomputePageWord (pageBase page) w.survivingBits
          else w.map.codeGranules
        codePages := Function.update w.map.codePages page (if w.kept.isEmpty then none else some w.kept) } := by
  unfold precisePage
  split
  next hnone => exact .inl ⟨hnone, rfl⟩
  next entries hsome =>
    exact .inr ⟨entries, _, hsome, within_precise _ entries, fun a ha => done_precise _ entries (.inl ha), rfl⟩

theorem getD_of_isEmpty (l : List α) : (if l.isEmpty then none else some l).getD [] = l := by cases l <;> rfl

/-! ## What goes -/

/-- From `m` to `m'` addresses only go, and only ones listed on the pages whose
block is hit. -/
structure Shrinks (hit : BlockEntry → Prop) (m m' : GuestToHostMap) (pages : List Nat) : Prop where
  blockList : ∀ a, m'.blockList a = m.blockList a ∨ m'.blockList a = none ∧
    (∃ page ∈ pages, m.Listed page a) ∧ ∀ e, m.blockList a = some e → hit e
  listed : ∀ page a, m'.Listed page a → m.Listed page a

theorem Shrinks.refl (hit : BlockEntry → Prop) (m : GuestToHostMap) : Shrinks hit m m [] :=
  ⟨fun _ => .inl rfl, fun _ _ => id⟩

theorem Shrinks.cons (h : Shrinks hit m m₁ [page]) (h' : Shrinks hit m₁ m' pages) :
    Shrinks hit m m' (page :: pages) := by
  refine ⟨fun a => ?_, fun q a hq => h.listed q a (h'.listed q a hq)⟩
  obtain hsame | ⟨hnone, ⟨q, hq, hlisted⟩, hhit⟩ := h.blockList a
  · obtain heq | ⟨hnone, ⟨q, hq, hlisted⟩, hhit⟩ := h'.blockList a
    · exact .inl (heq.trans hsame)
    · exact .inr ⟨hnone, ⟨q, List.mem_cons_of_mem _ hq, h.listed q a hlisted⟩, hsame ▸ hhit⟩
  · have hgone : m'.blockList a = none := (h'.blockList a).elim (·.trans hnone) (·.1)
    obtain rfl := List.mem_singleton.mp hq
    exact .inr ⟨hgone, ⟨q, List.mem_cons_self, hlisted⟩, hhit⟩

theorem shrinks_precisePage (m : GuestToHostMap) (n page : Nat) :
    Shrinks (·.overlaps start endAddr) m (precisePage start endAddr (m, n) page).1 [page] := by
  obtain ⟨-, heq⟩ | ⟨entries, w, hsome, hwithin, -, heq⟩ := precisePage_cases m n page
  · rw [heq]
    exact ⟨fun _ => .inl rfl, fun _ _ => id⟩
  · rw [heq]
    refine ⟨fun a => ?_, fun q a hq => ?_⟩
    · obtain hsame | ⟨hnone, hmem, hover⟩ := hwithin.blockList a
      · exact .inl hsame
      · exact .inr ⟨hnone, ⟨page, List.mem_cons_self, by simpa [Listed, hsome] using hmem⟩, hover⟩
    · by_cases hpage : q = page
      · subst hpage
        simp only [Listed, Function.update_self, getD_of_isEmpty] at hq
        have hmem := (hwithin.kept a hq).resolve_left (List.not_mem_nil)
        simpa [Listed, hsome] using hmem
      · simpa [Listed, hpage, hwithin.codePages] using hq

theorem shrinks_precisePages (m : GuestToHostMap) (n : Nat) (pages : List Nat) :
    Shrinks (·.overlaps start endAddr) m (pages.foldl (precisePage start endAddr) (m, n)).1 pages := by
  induction pages generalizing m n with
  | nil => exact .refl _ m
  | cons page pages ih => exact (shrinks_precisePage m n page).cons (ih _ _)

theorem Shrinks.sameLive (h : Shrinks hit m m₁ pages) (hsame : SameLive m₁ m') : Shrinks hit m m' pages := by
  obtain ⟨hblocks, hpages, -⟩ := hsame
  exact ⟨fun a => hblocks ▸ h.blockList a,
    fun page a hlisted => h.listed page a (by simpa [Listed, hpages] using hlisted)⟩

theorem Erases.shrinks (hf : Erases eraseBlock) (m : GuestToHostMap) (start length : BitVec 64) :
    Shrinks (fun _ => true) m (m.erasePages eraseBlock start length) (pageIndexes start length) := by
  refine ⟨fun a => ?_, fun page a hlisted => ?_⟩
  · by_cases hgone : ∃ page ∈ pageIndexes start length, m.Listed page a
    · refine .inr ⟨?_, hgone, fun _ _ => rfl⟩
      obtain ⟨page, hpage, hlisted⟩ := hgone
      refine Option.eq_none_iff_forall_ne_some.mpr fun e he => ?_
      exact ((hf.blockList_erasePages m start length).mp he).2 page hpage hlisted
    · push Not at hgone
      refine .inl (Option.ext fun e => ?_)
      rw [hf.blockList_erasePages]
      exact and_iff_left hgone
  · have hpages := (hf.erasePagesWalk m (pageIndexes start length)).2
    simp only [Listed, erasePages, hpages] at hlisted
    split at hlisted
    next => simp at hlisted
    next => exact hlisted

/-- What an invalidation takes out of the block list was listed on a page of the
range, and its block is one of those it is to take. -/
theorem shrinks_invalidate (m : GuestToHostMap) (start length : BitVec 64) (kind : Invalidation) :
    Shrinks (kind.hits start length ·) m (m.invalidate start length kind) (pageIndexes start length) := by
  cases kind with
  | hard => exact (erases_erase.shrinks m start length).sameLive (sameLive_dropRetainedRange _ _ _)
  | soft => exact erases_softEraseBlock.shrinks m start length
  | precise => exact (shrinks_precisePages m 0 _).sameLive (sameLive_dropRetainedRange _ _ _)

/-! ## What stays -/

open CodeGranuleBitmap (Shows extentGranules pageGranules maxAddress)

structure Placed (e : BlockEntry) : Prop where
  extent : e.extentStart.toNat + e.extentLength.toNat ≤ 2 ^ 64
  aligned : ∀ p ∈ e.codePages, p.toNat % pageSize = 0

def Indexed (m : GuestToHostMap) (a : BitVec 64) (e : BlockEntry) : Prop :=
  ∀ p ∈ e.codePages, m.Listed (pageIndex p) a ∧
    ∀ g ∈ extentGranules p e.extentStart e.extentLength, Shows m.codeGranules g

def AllIndexed (m : GuestToHostMap) : Prop := ∀ a e, m.blockList a = some e → Placed e ∧ m.Indexed a e

theorem AllIndexed.sameLive (h : m.AllIndexed) (hsame : SameLive m m') : m'.AllIndexed := by
  obtain ⟨hblocks, hpages, hgranules⟩ := hsame
  simpa only [AllIndexed, Indexed, Listed, hblocks, hpages, hgranules] using h

theorem pageBase_pageIndex (h : p.toNat % pageSize = 0) : pageBase (pageIndex p) = p := by
  refine BitVec.eq_of_toNat_eq ?_
  unfold pageBase pageIndex pageSize at *
  rw [BitVec.toNat_ofNat]
  omega

theorem shows_precise (hplaced : Placed e) (hp : p ∈ e.codePages)
    (hg : g ∈ extentGranules p e.extentStart e.extentLength) (hshows : Shows m.codeGranules g)
    (hbits : pageIndex p = page → ∀ i,
      (CodeGranuleBitmap.pageMaskFor (pageBase page) e.extentStart e.extentLength).getLsbD i →
        bits.getLsbD i) (hpage : page < 2 ^ 52) :
    Shows (m.codeGranules.recomputePageWord (pageBase page) bits) g := by
  by_cases hmax : g * 64 < maxAddress
  · refine hshows.recomputePageWord fun hon => ?_
    have heq : pageIndex p = page := by
      have hbase := pageIndex_pageBase hpage
      exact (hg.1.symm.trans hon).trans hbase
    refine hbits heq _ ?_
    subst heq
    rw [pageBase_pageIndex (hplaced.aligned p hp)]
    refine CodeGranuleBitmap.getLsbD_pageMaskFor (hplaced.aligned p hp) ?_ hplaced.extent hg
    have hsame := hg.1
    unfold maxAddress pageSize at *
    omega
  · rintro - g rfl hlt
    exact absurd hlt hmax

theorem AllIndexed.precisePage (h : m.AllIndexed) (n : Nat) (hpage : page < 2 ^ 52) :
    (precisePage start endAddr (m, n) page).1.AllIndexed := by
  obtain ⟨-, heq⟩ | ⟨entries, w, hsome, hwithin, hdone, heq⟩ := precisePage_cases m n page
  · rwa [heq]
  · rw [heq]
    intro a e hlive
    have hbefore : m.blockList a = some e := by
      obtain hsame | ⟨hnone, -⟩ := hwithin.blockList a
      · exact hsame.symm.trans hlive
      · exact absurd (hnone.symm.trans hlive) nofun
    obtain ⟨hplaced, hindexed⟩ := h a e hbefore
    refine ⟨hplaced, fun p hp => ?_⟩
    obtain ⟨hlisted, hshows⟩ := hindexed p hp
    have hkept : pageIndex p = page → a ∈ w.kept ∧ ∀ i,
        (CodeGranuleBitmap.pageMaskFor (pageBase page) e.extentStart e.extentLength).getLsbD i →
          w.survivingBits.getLsbD i := by
      rintro rfl
      exact hdone a (by simpa [Listed, hsome] using hlisted) e hlive
    refine ⟨?_, fun g hg => ?_⟩
    · by_cases hon : pageIndex p = page
      · simp only [Listed, hon, Function.update_self, getD_of_isEmpty]
        exact (hkept hon).1
      · simpa [Listed, hon, hwithin.codePages] using hlisted
    · have hcovered := hwithin.codeGranules ▸ hshows g hg
      dsimp only
      split
      · exact shows_precise hplaced hp hg hcovered (fun hon => (hkept hon).2) hpage
      · exact hcovered

theorem AllIndexed.precisePages (h : m.AllIndexed) (n : Nat) (pages : List Nat)
    (hpages : ∀ page ∈ pages, page < 2 ^ 52) :
    (pages.foldl (GuestToHostMap.precisePage start endAddr) (m, n)).1.AllIndexed := by
  induction pages generalizing m n with
  | nil => exact h
  | cons page pages ih =>
    obtain ⟨hpage, hpages⟩ := List.forall_mem_cons.mp hpages
    exact ih (h.precisePage n hpage) _ hpages

theorem Erases.shows (hf : Erases eraseBlock) (pages : List Nat) (hpages : ∀ page ∈ pages, page < 2 ^ 52)
    (h : Shows m.codeGranules g) (hoff : ∀ page ∈ pages, g / 64 ≠ page) :
    Shows (pages.foldl (GuestToHostMap.erasePage eraseBlock) m).codeGranules g := by
  induction pages generalizing m with
  | nil => exact h
  | cons page pages ih =>
    obtain ⟨hpage, hpages⟩ := List.forall_mem_cons.mp hpages
    obtain ⟨hne, hoff⟩ := List.forall_mem_cons.mp hoff
    refine ih hpages ?_ hoff
    have hother : g ∉ pageGranules (pageBase page) := by
      intro hmem
      exact hne (hmem.trans (pageIndex_pageBase hpage))
    unfold GuestToHostMap.erasePage
    split
    next => exact h
    next entries hsome =>
      have hsame := (hf.foldl m entries).2.2
      unfold clearGranules
      rw [hsame]
      split
      · exact h.clearPage hother
      · exact h

theorem AllIndexed.erasePages (h : m.AllIndexed) (hf : Erases eraseBlock) (start length : BitVec 64) :
    (m.erasePages eraseBlock start length).AllIndexed := by
  intro a e hlive
  obtain ⟨hbefore, hunlisted⟩ := (hf.blockList_erasePages m start length).mp hlive
  obtain ⟨hplaced, hindexed⟩ := h a e hbefore
  refine ⟨hplaced, fun p hp => ?_⟩
  obtain ⟨hlisted, hshows⟩ := hindexed p hp
  have hoff : pageIndex p ∉ pageIndexes start length := fun hmem => hunlisted _ hmem hlisted
  refine ⟨?_, fun g hg => ?_⟩
  · have hpages := (hf.erasePagesWalk m (pageIndexes start length)).2
    simp only [Listed, GuestToHostMap.erasePages, if_neg hoff, hpages]
    exact hlisted
  · refine hf.shows _ (fun page => lt_of_mem_pageIndexes) (hshows g hg) fun page hmem heq => ?_
    have hsame : pageIndex p = page := hg.1.symm.trans heq
    exact hoff (hsame ▸ hmem)

theorem AllIndexed.invalidate (h : m.AllIndexed) (start length : BitVec 64) (kind : Invalidation) :
    (m.invalidate start length kind).AllIndexed := by
  cases kind with
  | hard => exact (h.erasePages erases_erase start length).sameLive (sameLive_dropRetainedRange _ _ _)
  | soft => exact h.erasePages erases_softEraseBlock start length
  | precise =>
    exact (h.precisePages 0 _ fun page => lt_of_mem_pageIndexes).sameLive (sameLive_dropRetainedRange _ _ _)

end GuestToHostMap

end PowerArm.Lookup
