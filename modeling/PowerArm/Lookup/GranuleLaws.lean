import PowerArm.Lib.Run
import PowerArm.Lookup.Granules

/-!
# The bitmap against what was marked

`word` is what the reader sees of a page, zero when there is no leaf. Every writer
changes the word of one page only (`word_storeWord`, `word_getOrCreateLeaf`). A run
in which no marking loses its leaf never calls a marked granule clear
(`run_provablyClear`); one failed allocation is enough to lose one.
-/

namespace PowerArm.Lookup.CodeGranuleBitmap

open Lib (Admissible foldl_invariant)

/-! ## Masks -/

theorem ones_eq : (1#64 <<< count) - 1#64 = BitVec.ofNat 64 (2 ^ count - 1) := by
  have hpos : 0 < 2 ^ count := Nat.two_pow_pos count
  refine BitVec.eq_of_toNat_eq ?_
  simp [BitVec.toNat_sub]
  omega

theorem getLsbD_bitRangeMask (hfl : f ≤ l) (hl : l < 64) (hi : i < 64) :
    (bitRangeMask f l).getLsbD i = decide (f ≤ i ∧ i ≤ l) := by
  unfold bitRangeMask
  dsimp only
  split
  next hc =>
    obtain ⟨rfl, rfl⟩ : f = 0 ∧ l = 63 := by omega
    have hle : i ≤ 63 := by omega
    rw [BitVec.shiftLeft_zero, BitVec.getLsbD_allOnes]
    simp [hi, hle]
  next hc =>
    rw [ones_eq, BitVec.getLsbD_shiftLeft, BitVec.getLsbD_ofNat]
    by_cases hlo : f ≤ i
    · have hin : i - f < l - f + 1 ↔ i ≤ l := by omega
      simp [hi, hlo, hin, show i - f < 64 by omega]
    · simp [hlo]

/-- The granules of the page that `[start, start + length)` meets, all of them
when the extent is unknown or beside the page. -/
def extentGranules (pageBase start length : BitVec 64) : Set Nat :=
  {g | g / 64 = pageBase.toNat / pageSize ∧ (length = 0 ∨ start.toNat + length.toNat ≤ pageBase.toNat ∨
      pageBase.toNat + pageSize ≤ start.toNat ∨
      (start.toNat < (g + 1) * 64 ∧ g * 64 < start.toNat + length.toNat))}

theorem clip_toNat (start endAddr : BitVec 64) (hmax : pageBase.toNat < maxAddress) :
    (if pageBase < start then start else pageBase).toNat = max start.toNat pageBase.toNat ∧
    (if endAddr < pageBase + BitVec.ofNat 64 pageSize then endAddr
      else pageBase + BitVec.ofNat 64 pageSize).toNat = min endAddr.toNat (pageBase.toNat + pageSize) := by
  have hend : (pageBase + BitVec.ofNat 64 pageSize).toNat = pageBase.toNat + pageSize := by
    unfold pageSize maxAddress at *
    bv_omega
  refine ⟨?_, ?_⟩
  · split
    next h =>
      have := BitVec.lt_def.mp h
      omega
    next h =>
      have := BitVec.lt_def.not.mp h
      omega
  · split
    next h =>
      have := BitVec.lt_def.mp h
      omega
    next h =>
      have := BitVec.lt_def.not.mp h
      omega

theorem getLsbD_pageMaskFor (halign : pageBase.toNat % pageSize = 0)
    (hmax : pageBase.toNat < maxAddress) (hwrap : start.toNat + length.toNat ≤ 2 ^ 64)
    (hg : g ∈ extentGranules pageBase start length) : (pageMaskFor pageBase start length).getLsbD (g % 64) := by
  obtain ⟨hpage, hcover⟩ := hg
  have hlt : g % 64 < 64 := Nat.mod_lt _ (by decide)
  obtain ⟨hlo, hhi⟩ := clip_toNat start (start + length) hmax
  have hsum := BitVec.toNat_add start length
  unfold pageMaskFor
  split
  next =>
    rw [BitVec.getLsbD_allOnes]
    exact decide_eq_true hlt
  next hlen =>
    have hpos : 0 < length.toNat := Nat.pos_of_ne_zero fun h0 => hlen (BitVec.eq_of_toNat_eq h0)
    dsimp only
    set lo := if pageBase < start then start else pageBase
    set hiExcl := if start + length < pageBase + BitVec.ofNat 64 pageSize then start + length
      else pageBase + BitVec.ofNat 64 pageSize
    split
    next =>
      rw [BitVec.getLsbD_allOnes]
      exact decide_eq_true hlt
    next hle =>
      have hlt' : lo.toNat < hiExcl.toNat := by
        have := BitVec.le_def.not.mp hle
        omega
      have hfirst : (lo - pageBase).toNat = lo.toNat - pageBase.toNat := by bv_omega
      have hlast : (hiExcl - 1 - pageBase).toNat = hiExcl.toNat - 1 - pageBase.toNat := by bv_omega
      rw [hfirst, hlast, getLsbD_bitRangeMask ?_ ?_ hlt]
      · unfold pageSize maxAddress at *
        simp only [hlen, false_or] at hcover
        refine decide_eq_true ?_
        omega
      · omega
      · unfold pageSize at *
        omega

/-! ## Words -/

def word (b : CodeGranuleBitmap) (addr : BitVec 64) : PageWord :=
  ((b.findLeaf addr).map fun leaf => leaf (wordIndex addr)).getD 0

theorem page_eq_of_index_eq (ha : a.toNat < maxAddress) (ha' : a'.toNat < maxAddress)
    (h0 : l0Index a = l0Index a') (h1 : l1Index a = l1Index a')
    (hw : wordIndex a = wordIndex a') : a.toNat / pageSize = a'.toNat / pageSize := by
  unfold l0Index l1Index wordIndex l0Bits l1Bits leafBits pageSize maxAddress at *
  omega

theorem index_eq_of_page_eq (h : a.toNat / pageSize = a'.toNat / pageSize) :
    l0Index a = l0Index a' ∧ l1Index a = l1Index a' ∧ wordIndex a = wordIndex a' := by
  unfold l0Index l1Index wordIndex l0Bits l1Bits leafBits pageSize at *
  omega

theorem word_of_page_eq (ha : a.toNat < maxAddress) (ha' : a'.toNat < maxAddress)
    (h : a.toNat / pageSize = a'.toNat / pageSize) (b : CodeGranuleBitmap) : b.word a = b.word a' := by
  obtain ⟨h0, h1, hw⟩ := index_eq_of_page_eq h
  simp [word, findLeaf, findLeafFrom, h0, h1, hw, Nat.not_le.mpr ha, Nat.not_le.mpr ha']

section
variable {b b' : CodeGranuleBitmap} {r : L0Node} {node : L1Node} {a : BitVec 64} {alloc : Alloc}

theorem getOrCreateNode_leaf (h : getOrCreateNode r a ok = some node) (i : Nat) :
    node i = (r (l0Index a)).bind fun node => node i := by
  unfold getOrCreateNode at h
  split at h
  next hr =>
    cases h
    simp [hr]
  next hr =>
    split at h
    · cases h
      simp [hr]
    · cases h

theorem findLeafFrom_setLeaf (h : getOrCreateNode r a ok = some node) (leaf : Option Leaf) (a' : BitVec 64) :
    findLeafFrom (setLeaf r node a leaf) a' =
      if l0Index a = l0Index a' ∧ l1Index a = l1Index a' then leaf else findLeafFrom r a' := by
  unfold findLeafFrom setLeaf
  by_cases h0 : l0Index a' = l0Index a
  · by_cases h1 : l1Index a' = l1Index a
    · simp [h0, h1]
    · simp [h0, h1, Ne.symm h1, getOrCreateNode_leaf h]
  · simp [h0, Ne.symm h0]

/-- A search for a leaf that is made when it is missing either changes nothing,
or leaves the root with the leaf it returns, the old one or an empty one. -/
theorem getOrCreateLeaf_cases (b : CodeGranuleBitmap) (a : BitVec 64) (alloc : Alloc) :
    b.getOrCreateLeaf a alloc = (b, none) ∨ ∃ r r' leaf?, b.root = some r ∧ a.toNat < maxAddress ∧
        (b.getOrCreateLeaf a alloc).1.root = some r' ∧ (b.getOrCreateLeaf a alloc).2 = leaf? ∧
        (∀ a', findLeafFrom r' a' =
          if l0Index a = l0Index a' ∧ l1Index a = l1Index a' then leaf? else findLeafFrom r a') ∧
        (findLeafFrom r a = leaf? ∨ findLeafFrom r a = none ∧ leaf? = some fun _ => 0) := by
  unfold getOrCreateLeaf
  split
  next => exact .inl rfl
  next r hroot =>
    split
    next => exact .inl rfl
    next hmax =>
      split
      next => exact .inl rfl
      next node hnode =>
        have hleaf : node (l1Index a) = findLeafFrom r a := getOrCreateNode_leaf hnode _
        refine .inr ⟨r, ?_⟩
        split
        next leaf hfound =>
          exact ⟨_, _, hroot, Nat.lt_of_not_le hmax, rfl, rfl, findLeafFrom_setLeaf hnode _,
            .inl (hleaf.symm.trans hfound)⟩
        next hfound =>
          split
          · exact ⟨_, _, hroot, Nat.lt_of_not_le hmax, rfl, rfl, findLeafFrom_setLeaf hnode _,
              .inr ⟨hleaf.symm.trans hfound, rfl⟩⟩
          · exact ⟨_, _, hroot, Nat.lt_of_not_le hmax, rfl, rfl, findLeafFrom_setLeaf hnode _,
              .inl (hleaf.symm.trans hfound)⟩

theorem word_getOrCreateLeaf (b : CodeGranuleBitmap) (a a' : BitVec 64) (alloc : Alloc) :
    (b.getOrCreateLeaf a alloc).1.word a' = b.word a' := by
  obtain heq | ⟨r, r', leaf?, hroot, -, hroot', -, hfind, hold⟩ := b.getOrCreateLeaf_cases a alloc
  · rw [heq]
  · simp only [word, findLeaf, hroot, hroot', Option.bind_some, hfind]
    by_cases hsame : l0Index a = l0Index a' ∧ l1Index a = l1Index a'
    · have hfrom : findLeafFrom r a' = findLeafFrom r a := by simp [findLeafFrom, hsame]
      obtain hold | ⟨hnone, rfl⟩ := hold
      · simp [hfrom, hold]
      · simp only [hfrom, hnone]
        split <;> rfl
    · simp [hsame]

theorem getOrCreateLeaf_leaf (h : b.getOrCreateLeaf a alloc = (b', some leaf)) : b'.findLeaf a = some leaf := by
  obtain heq | ⟨r, r', leaf?, -, hmax, hroot', hleaf, hfind, -⟩ := b.getOrCreateLeaf_cases a alloc
  · rw [h] at heq
    cases heq
  · rw [h] at hroot' hleaf
    have hnot : ¬maxAddress ≤ a.toNat := Nat.not_le.mpr hmax
    simp [findLeaf, show b'.root = some r' from hroot', hfind, ← hleaf, hnot]

theorem findLeafFrom_storeWord (hroot : b.root = some r) (a a' : BitVec 64) (w : PageWord) :
    ∃ r', (b.storeWord a w).root = some r' ∧ findLeafFrom r' a' = (findLeafFrom r a').map fun leaf i =>
        if l0Index a' = l0Index a ∧ l1Index a' = l1Index a ∧ i = wordIndex a then w else leaf i := by
  have hstore : (b.storeWord a w).root = some fun i0 => (r i0).map fun node i1 =>
      (node i1).map fun leaf i =>
        if i0 = l0Index a ∧ i1 = l1Index a ∧ i = wordIndex a then w else leaf i := by
    simp [storeWord, hroot]
  refine ⟨_, hstore, ?_⟩
  simp only [findLeafFrom]
  cases r (l0Index a') with
  | none => rfl
  | some node => rfl

theorem word_storeWord (hleaf : (b.findLeaf a).isSome) (w : PageWord) (a' : BitVec 64) (ha' : a'.toNat < maxAddress) :
    (b.storeWord a w).word a' = if a.toNat / pageSize = a'.toNat / pageSize then w else b.word a' := by
  cases hroot : b.root with
  | none => simp [findLeaf, hroot] at hleaf
  | some r =>
    obtain ⟨r', hroot', hfind⟩ := findLeafFrom_storeWord hroot a a' w
    have ha : a.toNat < maxAddress := by
      by_contra hle
      simp [findLeaf, Nat.le_of_not_lt hle] at hleaf
    simp only [findLeaf, hroot, Option.bind_some, Nat.not_le.mpr ha, ↓reduceIte] at hleaf
    simp only [word, findLeaf, hroot, hroot', Option.bind_some, hfind, Nat.not_le.mpr ha', ↓reduceIte]
    split
    next hpage =>
      obtain ⟨h0, h1, hw⟩ := index_eq_of_page_eq hpage
      have hfrom : findLeafFrom r a' = findLeafFrom r a := by simp [findLeafFrom, h0, h1]
      obtain ⟨leaf, hl⟩ := Option.isSome_iff_exists.mp hleaf
      simp [hfrom, hl, h0, h1, hw]
    next hpage =>
      have hne : ¬(l0Index a' = l0Index a ∧ l1Index a' = l1Index a ∧ wordIndex a' = wordIndex a) :=
        fun ⟨h0, h1, hw⟩ => hpage (page_eq_of_index_eq ha ha' h0.symm h1.symm hw.symm)
      cases findLeafFrom r a' with
      | none => rfl
      | some leaf => simp [hne]

end

/-! ## Writers -/

/-- A marking of this address finds its leaf or can make it, or the address is
not tracked. -/
def Obtains (b : CodeGranuleBitmap) (addr : BitVec 64) (alloc : Alloc) : Prop :=
  b.root = none ∨ maxAddress ≤ addr.toNat ∨ (b.getOrCreateLeaf addr alloc).2.isSome = true

instance (b : CodeGranuleBitmap) (addr : BitVec 64) (alloc : Alloc) : Decidable (b.Obtains addr alloc) := by
  unfold Obtains
  have : Decidable (b.root = none) := decidable_of_iff (b.root.isNone = true) Option.isNone_iff_eq_none
  infer_instance

section
variable {b : CodeGranuleBitmap} {a' pageBase start length : BitVec 64} {alloc : Alloc} {w : PageWord}

theorem findLeaf_lt (h : (b.findLeaf pageBase).isSome) : pageBase.toNat < maxAddress := by
  by_contra hle
  cases hroot : b.root <;> simp [findLeaf, Nat.le_of_not_lt hle] at h

theorem word_setPageRange (h : (b.getOrCreateLeaf pageBase alloc).2.isSome) (ha' : a'.toNat < maxAddress) :
    (b.setPageRange pageBase start length alloc).word a' = if pageBase.toNat / pageSize = a'.toNat / pageSize then
        b.word a' ||| pageMaskFor pageBase start length
      else b.word a' := by
  obtain ⟨leaf, hleaf⟩ := Option.isSome_iff_exists.mp h
  have hpair : b.getOrCreateLeaf pageBase alloc = ((b.getOrCreateLeaf pageBase alloc).1, some leaf) :=
    Prod.ext rfl hleaf
  have hfind := getOrCreateLeaf_leaf hpair
  have hold (x : BitVec 64) := word_getOrCreateLeaf b pageBase x alloc
  have hword : leaf (wordIndex pageBase) = b.word pageBase := by
    rw [← hold]
    simp [word, hfind]
  unfold setPageRange
  rw [hpair]
  rw [word_storeWord (by simp [hfind]) _ _ ha', hold]
  split
  next hpage =>
    have hlt : pageBase.toNat < maxAddress :=
      findLeaf_lt (b := (b.getOrCreateLeaf pageBase alloc).1) (by simp [hfind])
    rw [hword, word_of_page_eq hlt ha' hpage]
  next => rfl

theorem setPageRange_of_untracked (h : b.root = none ∨ maxAddress ≤ pageBase.toNat) :
    b.setPageRange pageBase start length alloc = b := by
  have hnone : b.getOrCreateLeaf pageBase alloc = (b, none) := by
    unfold getOrCreateLeaf
    obtain hroot | hmax := h
    · simp [hroot]
    · split
      next => rfl
      next => simp [hmax]
  simp [setPageRange, hnone]

theorem word_recomputePageWord (h : (b.findLeaf pageBase).isSome ∨ w = 0) (ha' : a'.toNat < maxAddress) :
    (b.recomputePageWord pageBase w).word a' =
      if pageBase.toNat / pageSize = a'.toNat / pageSize then w else b.word a' := by
  unfold recomputePageWord
  split
  next hnone =>
    obtain hsome | rfl := h
    · simp [hnone] at hsome
    · split
      next hpage =>
        have hlt : pageBase.toNat < maxAddress := by
          unfold pageSize maxAddress at *
          omega
        rw [← word_of_page_eq hlt ha' hpage]
        simp [word, hnone]
      next => rfl
  next leaf hleaf => exact word_storeWord (by simp [hleaf]) w a' ha'

theorem recomputePageWord_of_untracked (h : b.root = none ∨ maxAddress ≤ pageBase.toNat) :
    b.recomputePageWord pageBase w = b := by
  have hnone : b.findLeaf pageBase = none := by
    obtain hroot | hmax := h
    · simp [findLeaf, hroot]
    · cases hroot : b.root <;> simp [findLeaf, hmax]
  simp [recomputePageWord, hnone]

end

/-! ## Runs -/

inductive Op where
  | setPageRange (pageBase start length : BitVec 64) (alloc : Alloc)
  | recomputePageWord (pageBase : BitVec 64) (word : PageWord)
  | clearPage (pageBase : BitVec 64)
  | clearAll
deriving DecidableEq, Repr

def step (b : CodeGranuleBitmap) : Op → CodeGranuleBitmap
  | .setPageRange pageBase start length alloc => b.setPageRange pageBase start length alloc
  | .recomputePageWord pageBase word => b.recomputePageWord pageBase word
  | .clearPage pageBase => b.clearPage pageBase
  | .clearAll => b.clearAll

def pageGranules (addr : BitVec 64) : Set Nat := {g | g / 64 = addr.toNat / pageSize}

/-- The granules marked and not removed since, whatever became of the bitmap. -/
def mark (marks : Set Nat) : Op → Set Nat
  | .setPageRange pageBase start length _ => marks ∪ extentGranules pageBase start length
  | .recomputePageWord pageBase word =>
    marks \ pageGranules pageBase ∪ {g ∈ pageGranules pageBase | word.getLsbD (g % 64) = true}
  | .clearPage pageBase => marks \ pageGranules pageBase
  | .clearAll => ∅

structure Tracked where
  bitmap : CodeGranuleBitmap
  marks : Set Nat

def Tracked.step (t : Tracked) (op : Op) : Tracked := ⟨t.bitmap.step op, mark t.marks op⟩

/-- Every page base is one and no extent wraps, as the callers have it; a marking
gets its leaf, and a recomputed word that is not zero has one. -/
def Kept (t : Tracked) : Op → Prop
  | .setPageRange pageBase start length alloc =>
    pageBase.toNat % pageSize = 0 ∧ start.toNat + length.toNat ≤ 2 ^ 64 ∧ t.bitmap.Obtains pageBase alloc
  | .recomputePageWord pageBase word =>
    t.bitmap.root = none ∨ maxAddress ≤ pageBase.toNat ∨ (t.bitmap.findLeaf pageBase).isSome = true ∨ word = 0
  | .clearPage _ | .clearAll => True

def granuleAddr (g : Nat) : BitVec 64 := BitVec.ofNat 64 (g * 64)

def Covers (t : Tracked) : Prop :=
  t.bitmap.root ≠ none → ∀ g ∈ t.marks, g * 64 < maxAddress →
    (t.bitmap.word (granuleAddr g)).getLsbD (g % 64) = true

theorem toNat_granuleAddr (h : g * 64 < maxAddress) : (granuleAddr g).toNat = g * 64 := by
  unfold granuleAddr maxAddress at *
  rw [BitVec.toNat_ofNat]
  omega

theorem page_granuleAddr (h : g * 64 < maxAddress) : (granuleAddr g).toNat / pageSize = g / 64 := by
  rw [toNat_granuleAddr h]
  unfold pageSize
  omega

theorem lt_of_page_eq {a a' : BitVec 64} (ha' : a'.toNat < maxAddress) (h : a.toNat / pageSize = a'.toNat / pageSize) :
    a.toNat < maxAddress := by
  unfold pageSize maxAddress at *
  omega

theorem Covers.setPageRange (h : Covers t) (hop : Kept t (.setPageRange pageBase start length alloc)) :
    Covers (t.step (.setPageRange pageBase start length alloc)) := by
  obtain ⟨halign, hwrap, hobtains⟩ := hop
  intro hroot g hg hmax
  have hpage := page_granuleAddr hmax
  have haddr : (granuleAddr g).toNat < maxAddress := toNat_granuleAddr hmax ▸ hmax
  simp only [Tracked.step, CodeGranuleBitmap.step] at hroot hg ⊢
  obtain hnone | hbig | hleaf := hobtains
  · rw [setPageRange_of_untracked (.inl hnone)] at hroot
    exact absurd hnone hroot
  · rw [setPageRange_of_untracked (.inr hbig)] at hroot ⊢
    obtain hg | hg := hg
    · exact h hroot g hg hmax
    · have hlt := lt_of_page_eq haddr (hg.1.symm.trans hpage.symm)
      exact absurd hbig (Nat.not_le.mpr hlt)
  · have hroot' : t.bitmap.root ≠ none := by
      rintro hnone
      simp [getOrCreateLeaf, hnone] at hleaf
    rw [word_setPageRange hleaf haddr]
    obtain hg | hg := hg
    · split
      · rw [BitVec.getLsbD_or, h hroot' g hg hmax, Bool.true_or]
      · exact h hroot' g hg hmax
    · have hsame := hg.1.symm.trans hpage.symm
      have hmask := getLsbD_pageMaskFor halign (lt_of_page_eq haddr hsame) hwrap hg
      rw [if_pos hsame, BitVec.getLsbD_or, hmask, Bool.or_true]

theorem Covers.recomputePageWord (h : Covers t) (hop : Kept t (.recomputePageWord pageBase w)) :
    Covers (t.step (.recomputePageWord pageBase w)) := by
  intro hroot g hg hmax
  have hpage := page_granuleAddr hmax
  have haddr : (granuleAddr g).toNat < maxAddress := toNat_granuleAddr hmax ▸ hmax
  simp only [Tracked.step, CodeGranuleBitmap.step] at hroot hg ⊢
  by_cases huntracked : t.bitmap.root = none ∨ maxAddress ≤ pageBase.toNat
  · rw [recomputePageWord_of_untracked huntracked] at hroot ⊢
    obtain ⟨hg, -⟩ | ⟨hg, -⟩ := hg
    · exact h hroot g hg hmax
    · have hlt := lt_of_page_eq haddr ((show g / 64 = _ from hg).symm.trans hpage.symm)
      exact absurd (huntracked.resolve_left hroot) (Nat.not_le.mpr hlt)
  · rw [not_or] at huntracked
    have hleaf := (hop.resolve_left huntracked.1).resolve_left huntracked.2
    rw [word_recomputePageWord hleaf haddr]
    obtain ⟨hg, hother⟩ | ⟨hsame, hbit⟩ := hg
    · rw [if_neg fun heq => hother (hpage.symm.trans heq.symm)]
      exact h huntracked.1 g hg hmax
    · rwa [if_pos ((show g / 64 = _ from hsame).symm.trans hpage.symm)]

theorem Covers.step (h : Covers t) (hop : Kept t op) : Covers (t.step op) := by
  cases op with
  | setPageRange pageBase start length alloc => exact h.setPageRange hop
  | recomputePageWord pageBase word => exact h.recomputePageWord hop
  | clearPage pageBase =>
    have hzero : Covers (t.step (.recomputePageWord pageBase 0)) := h.recomputePageWord (.inr (.inr (.inr rfl)))
    intro hroot g hg hmax
    exact hzero hroot g (.inl hg) hmax
  | clearAll => exact fun _ g hg => hg.elim

def Shows (b : CodeGranuleBitmap) (g : Nat) : Prop := Covers ⟨b, {g}⟩

theorem Shows.setPageRange (halign : pageBase.toNat % pageSize = 0) (hwrap : start.toNat + length.toNat ≤ 2 ^ 64)
    (hobtains : b.Obtains pageBase alloc) (h : Shows b g ∨ g ∈ extentGranules pageBase start length) :
    Shows (b.setPageRange pageBase start length alloc) g := by
  have hop (marks : Set Nat) : Kept ⟨b, marks⟩ (.setPageRange pageBase start length alloc) :=
    ⟨halign, hwrap, hobtains⟩
  obtain h | h := h
  · rintro hroot g rfl
    exact Covers.setPageRange h (hop _) hroot g (.inl rfl)
  · rintro hroot g rfl
    have hnone : Covers ⟨b, ∅⟩ := fun _ _ hg => hg.elim
    exact Covers.setPageRange hnone (hop _) hroot g (.inr h)

/-- A word stored over a page keeps the marks that it has, whether or not there is a leaf. -/
theorem Shows.recomputePageWord (h : Shows b g) (hbit : g ∈ pageGranules pageBase → w.getLsbD (g % 64)) :
    Shows (b.recomputePageWord pageBase w) g := by
  cases hleaf : b.findLeaf pageBase with
  | none => rwa [CodeGranuleBitmap.recomputePageWord, hleaf]
  | some leaf =>
    rintro hroot g rfl
    have hop : Kept ⟨b, {g}⟩ (.recomputePageWord pageBase w) := .inr (.inr (.inl (by simp [hleaf])))
    refine Covers.recomputePageWord h hop hroot g ?_
    by_cases hpage : g ∈ pageGranules pageBase
    · exact .inr ⟨hpage, hbit hpage⟩
    · exact .inl ⟨rfl, hpage⟩

theorem Shows.clearPage (h : Shows b g) (hpage : g ∉ pageGranules pageBase) : Shows (b.clearPage pageBase) g :=
  h.recomputePageWord fun hmem => absurd hmem hpage

/-! ## The reader -/

def Meets (g : Nat) (start length : BitVec 64) : Prop :=
  start.toNat < (g + 1) * 64 ∧ g * 64 < start.toNat + length.toNat

instance (g : Nat) (start length : BitVec 64) : Decidable (Meets g start length) := by
  unfold Meets
  infer_instance

theorem pageClear_eq {b : CodeGranuleBitmap} {pageBase start endAddr : BitVec 64}
    (hroot : b.root = some r) (hmax : pageBase.toNat < maxAddress)
    (h : pageClear r start endAddr pageBase) (hi : i < 64) (hlo : start.toNat < pageBase.toNat + (i + 1) * 64)
    (hhi : pageBase.toNat + i * 64 < endAddr.toNat) : (b.word pageBase).getLsbD i = false := by
  obtain ⟨hloN, hhiN⟩ := clip_toNat start endAddr hmax
  have hword : b.word pageBase = ((findLeafFrom r pageBase).map (· (wordIndex pageBase))).getD 0 := by
    simp [word, findLeaf, hroot, Nat.not_le.mpr hmax]
  unfold pageClear at h
  cases hleaf : findLeafFrom r pageBase with
  | none => simp [hword, hleaf]
  | some leaf =>
    rw [hword, hleaf, Option.map_some]
    simp only [hleaf, Bool.or_eq_true, decide_eq_true_eq] at h
    obtain hzero | hand := h
    · simp [hzero]
    · set lo := if pageBase < start then start else pageBase
      set hiExcl := if endAddr < pageBase + BitVec.ofNat 64 pageSize then endAddr
        else pageBase + BitVec.ofNat 64 pageSize
      have hfirst : (lo - pageBase).toNat = lo.toNat - pageBase.toNat := by bv_omega
      have hlast : (hiExcl - 1 - pageBase).toNat = hiExcl.toNat - 1 - pageBase.toNat := by
        unfold pageSize at *
        bv_omega
      have hbit := congrArg (BitVec.getLsbD · i) hand
      simp only [BitVec.getLsbD_and, hfirst, hlast] at hbit
      rw [getLsbD_bitRangeMask (by unfold pageSize at *; omega) (by unfold pageSize at *; omega) hi] at hbit
      have hin : decide ((lo.toNat - pageBase.toNat) / 64 ≤ i ∧ i ≤ (hiExcl.toNat - 1 - pageBase.toNat) / 64) := by
        refine decide_eq_true ?_
        unfold pageSize at *
        omega
      simpa [hin] using hbit

theorem provablyClear_sound {b : CodeGranuleBitmap} {start length : BitVec 64}
    (h : b.provablyClear start length) (hg : Meets g start length) :
    b.root ≠ none ∧ g * 64 < maxAddress ∧ (b.word (granuleAddr g)).getLsbD (g % 64) = false := by
  unfold provablyClear at h
  split at h
  next => cases h
  next r hroot =>
    split at h
    next => cases h
    next hlen =>
      dsimp only at h
      split at h
      next => cases h
      next hend =>
        split at h
        next => cases h
        next hpages =>
          obtain ⟨hlo, hhi⟩ := hg
          rw [BitVec.lt_def] at hend
          have hsum : (start + length).toNat = start.toNat + length.toNat := by
            have := BitVec.toNat_add start length
            omega
          have hlast : (start + length - 1).toNat = start.toNat + length.toNat - 1 := by bv_omega
          have hmax : g * 64 < maxAddress := by omega
          refine ⟨by simp [hroot], hmax, ?_⟩
          have hbase : (BitVec.ofNat 64 (g / 64 * pageSize)).toNat = g / 64 * pageSize := by
            unfold pageSize maxAddress at *
            rw [BitVec.toNat_ofNat]
            omega
          have hbaseMax : (BitVec.ofNat 64 (g / 64 * pageSize)).toNat < maxAddress := by
            unfold pageSize maxAddress at *
            omega
          have hclear := List.all_eq_true.mp h (g / 64) (by
            rw [List.mem_range'_1]
            unfold pageSize at *
            omega)
          have hbit := pageClear_eq (i := g % 64) hroot hbaseMax hclear (Nat.mod_lt _ (by decide))
            (by rw [hbase]; unfold pageSize at *; omega)
            (by rw [hbase]; unfold pageSize at *; omega)
          rwa [word_of_page_eq hbaseMax (toNat_granuleAddr hmax ▸ hmax)] at hbit
          rw [page_granuleAddr hmax, hbase]
          unfold pageSize
          omega

/-- In every state a run reaches whose markings all got their leaves, the granules
of a range called clear carry no mark. -/
theorem run_provablyClear (root : Bool) {ops : List Op} {start length : BitVec 64}
    (hrun : Admissible Tracked.step Kept ⟨enable root, ∅⟩ ops)
    (hclear : (ops.foldl Tracked.step ⟨enable root, ∅⟩).bitmap.provablyClear start length = true)
    (hg : Meets g start length) : g ∉ (ops.foldl Tracked.step ⟨enable root, ∅⟩).marks := by
  have hinit : Covers ⟨enable root, ∅⟩ := fun _ g hg => hg.elim
  have hcovers := foldl_invariant (fun _ _ => Covers.step) hinit hrun
  obtain ⟨hroot, hmax, hbit⟩ := provablyClear_sound hclear hg
  intro hmark
  have htrue := hcovers hroot g hmark hmax
  rw [hbit] at htrue
  cases htrue

def markOne (alloc : Alloc) : List Op := [.setPageRange 0x400000 0x400000 64 alloc]

theorem run_provablyClear_beside : 65537 ∉ ((markOne ⟨true, true⟩).foldl Tracked.step ⟨enable true, ∅⟩).marks :=
  have hclear : ((markOne ⟨true, true⟩).foldl Tracked.step ⟨enable true, ∅⟩).bitmap.provablyClear
      0x400040 4 = true := by decide
  run_provablyClear true ⟨⟨by decide, by decide, by decide⟩, trivial⟩ hclear (by decide)

/-- When the leaf cannot be allocated the marked granule is called clear. -/
theorem run_provablyClear_lost :
    ((markOne ⟨true, false⟩).foldl Tracked.step ⟨enable true, ∅⟩).bitmap.provablyClear 0x400000 4 = true ∧
      Meets 65536 0x400000 4 ∧
      65536 ∈ ((markOne ⟨true, false⟩).foldl Tracked.step ⟨enable true, ∅⟩).marks :=
  ⟨by decide, by decide, .inr ⟨by decide, by decide⟩⟩

end PowerArm.Lookup.CodeGranuleBitmap
