import PowerArm.Alloc64.RegionLaws
import PowerArm.Lib.Result
import PowerArm.Lib.Run

/-!
# No memory is handed out twice

The regions do not overlap, and every range that is handed out has its pages marked in
one of them (`Inv`). A call keeps that (`step_inv`) where the bitmap of a region marks
the allocator's own pages and a request does not run over the end of a region
(`StepOk`), and so does a run (`run_good`).
-/

namespace PowerArm.Alloc64

variable {page : HostPage}

/-! ## Ranges and regions -/

def pageCount (page : HostPage) (size : Nat) : Nat := page.alignUp size / page.size

theorem pageCount_mul (size : Nat) : pageCount page size * page.size = page.alignUp size :=
  div_mul_of_mod (alignUp_mod page size)

def RangesDisjoint (page : HostPage) (x y : Nat × Nat) : Prop :=
  x.1 + page.alignUp x.2 ≤ y.1 ∨ y.1 + page.alignUp y.2 ≤ x.1

def SlabsDisjoint (x y : ReservedVMARegion) : Prop := x.regionEnd ≤ y.base ∨ y.regionEnd ≤ x.base

theorem SlabsDisjoint.symm (h : SlabsDisjoint x y) : SlabsDisjoint y x := Or.symm h

structure Owns (page : HostPage) (r : LiveVMARegion) (x : Nat × Nat) (a : Nat) : Prop where
  addr : x.1 = r.slabInfo.base + a * page.size
  managed : r.numManagedPages ≤ a
  inside : a + pageCount page x.2 ≤ pages page r.slabInfo
  nonempty : 0 < pageCount page x.2
  marked : ∀ i < pageCount page x.2, r.usedPages (a + i) = true

def State.slabs (s : State) : List ReservedVMARegion := s.live.map LiveVMARegion.slabInfo ++ s.reserved

/-- The regions and the ranges that are handed out. -/
structure Inv (page : HostPage) (held : State × List (Nat × Nat)) : Prop where
  slabs : held.1.slabs.Pairwise SlabsDisjoint
  reserved : ∀ r ∈ held.1.reserved, SlabOk page r ∧ Marked page r
  live : ∀ r ∈ held.1.live, RegionOk page r
  owned : ∀ x ∈ held.2, ∃ r ∈ held.1.live, ∃ a, Owns page r x a
  disjoint : held.2.Pairwise (RangesDisjoint page)

section
variable {r : LiveVMARegion} {x : Nat × Nat} {a : Nat}

theorem Owns.bounds (h : Owns page r x a) (hr : RegionOk page r) :
    r.slabInfo.base ≤ x.1 ∧ x.1 + page.alignUp x.2 ≤ r.slabInfo.regionEnd := by
  have hpages : (a + pageCount page x.2) * page.size ≤ pages page r.slabInfo * page.size :=
    Nat.mul_le_mul_right _ h.inside
  rw [hr.slab.pages_mul, Nat.add_mul, pageCount_mul] at hpages
  have haddr := h.addr
  simp only [ReservedVMARegion.regionEnd]
  omega

theorem Owns.like (h : Owns page r x a) (hl : Like r r') : Owns page r' x a := by
  obtain ⟨_, rfl⟩ := hl
  exact ⟨h.addr, h.managed, h.inside, h.nonempty, h.marked⟩

end

theorem disjoint_of_split
    (h : (State.slabs ⟨reserved, pre ++ r :: post⟩).Pairwise SlabsDisjoint) (hmem : r' ∈ pre ++ post) :
    SlabsDisjoint r.slabInfo r'.slabInfo := by
  have hlive := (List.pairwise_append.mp h).1
  rw [List.map_append, List.map_cons, List.pairwise_append, List.pairwise_cons] at hlive
  obtain ⟨-, ⟨hpost, -⟩, hpre⟩ := hlive
  obtain hmem | hmem := List.mem_append.mp hmem
  · exact (hpre r'.slabInfo (List.mem_map_of_mem hmem) r.slabInfo (.head _)).symm
  · exact hpost r'.slabInfo (List.mem_map_of_mem hmem)

/-! ## A try -/

/-- What a walk over the live regions for a number of pages does: it marks the pages of
one free run, or none. -/
inductive Tried (page : HostPage) (count : Nat) (live : List LiveVMARegion) : List LiveVMARegion → RangeResult → Prop where
  | none {live' result} (hlike : List.Forall₂ Like live live') (hresult : result = .none ∨ result = .mapFailed) :
      Tried page count live live' result
  | mapped (pre r post a) (hlike : List.Forall₂ Like live (pre ++ r :: post)) (hfree : r.usedPages.Free a count)
      (hcount : 0 < count) (hinside : a + count ≤ pages page r.slabInfo) :
      Tried page count live (pre ++ markUsed page r (r.slabInfo.base + a * page.size) count :: post)
        (.mapped (r.slabInfo.base + a * page.size))

theorem Like.refl (r : LiveVMARegion) : Like r r := ⟨r.hadMunmap, rfl⟩

theorem forall₂_like_refl (live : List LiveVMARegion) : List.Forall₂ Like live live :=
  List.forall₂_same.mpr fun r _ => .refl r

theorem Tried.cons (hl : Like r r') (h : Tried page count live live' result) :
    Tried page count (r :: live) (r' :: live') result := by
  cases h with
  | none hlike hresult => exact .none (.cons hl hlike) hresult
  | mapped pre r post a hlike hfree hcount hinside =>
    exact .mapped (r' :: pre) r post a (.cons hl hlike) hfree hcount hinside

theorem Tried.head (hl : Like r r') (hfree : r.usedPages.Free a count) (hcount : 0 < count)
    (hinside : a + count ≤ pages page r.slabInfo) (rest : List LiveVMARegion) :
    Tried page count (r :: rest) (markUsed page r' (r.slabInfo.base + a * page.size) count :: rest)
      (.mapped (r.slabInfo.base + a * page.size)) := by
  have hlike : List.Forall₂ Like (r :: rest) (r' :: rest) := .cons hl (forall₂_like_refl rest)
  obtain ⟨_, rfl⟩ := hl
  exact .mapped [] _ rest a hlike hfree hcount hinside

theorem tryRegions_tried (hlive : ∀ r ∈ live, RegionOk page r) (hroom : ∀ r ∈ live, Room page r count) :
    Tried page count live (tryRegions page (count * page.size) live).1 (tryRegions page (count * page.size) live).2 := by
  induction live with
  | nil => exact .none .nil (.inl rfl)
  | cons r rest ih =>
    obtain ⟨hr, hrest⟩ := List.forall_mem_cons.mp hlive
    obtain ⟨hroom, hrooms⟩ := List.forall_mem_cons.mp hroom
    have hspec := checkIfRangeFits_spec hr count none hr.last.2
    rw [tryRegions]
    generalize checkIfRangeFits page r (count * page.size) none = c at hspec
    obtain ⟨r', result⟩ := c
    obtain ⟨hlike, rfl | rfl | ⟨hcount, hspace, a, hfound, rfl⟩⟩ := hspec
    · exact .cons hlike (ih hrest hrooms)
    · exact .none (.cons hlike (forall₂_like_refl rest)) (.inr rfl)
    · dsimp only
      rw [Nat.mul_div_cancel _ page.size_pos]
      exact .head hlike hfound.1 hcount (hfound.inside hr hcount hspace hroom) rest

theorem tryHint_tried (hlive : ∀ r ∈ live, RegionOk page r) (haddr : addr + count * page.size < 2 ^ 64) :
    let t := tryHint page addr ((addr + count * page.size) % 2 ^ 64) (count * page.size) live
    Tried page count live t.1 t.2 := by
  rw [Nat.mod_eq_of_lt haddr]
  induction live with
  | nil => exact .none .nil (.inl rfl)
  | cons r rest ih =>
    obtain ⟨hr, hrest⟩ := List.forall_mem_cons.mp hlive
    rw [tryHint]
    split
    next hfits =>
      have hin : r.slabInfo.base ≤ addr ∧ addr + count * page.size < r.slabInfo.regionEnd := of_decide_eq_true hfits
      have hend := hin.2
      rw [ReservedVMARegion.regionEnd, ← hr.slab.pages_mul] at hend
      have hstart : scanStart page r (some addr) ≤ pages page r.slabInfo :=
        Nat.le_of_lt (Nat.div_lt_of_lt_mul (Nat.mul_comm .. ▸ by omega))
      have hspec := checkIfRangeFits_spec hr count (some addr) hstart
      generalize checkIfRangeFits page r (count * page.size) (some addr) = c at hspec
      obtain ⟨r', result⟩ := c
      have hnone {result : RangeResult} (h : result = .none ∨ result = .mapFailed) (hlike : Like r r') :
          Tried page count (r :: rest) (r' :: rest) result :=
        .none (.cons hlike (forall₂_like_refl rest)) h
      obtain ⟨hlike, rfl | rfl | ⟨hcount, -, a, hfound, rfl⟩⟩ := hspec
      · exact hnone (.inl rfl) hlike
      · exact hnone (.inr rfl) hlike
      · dsimp only
        split
        next heq =>
          rw [Nat.mul_div_cancel _ page.size_pos]
          refine .head hlike hfound.1 hcount ?_ rest
          rw [← heq, Nat.add_assoc, ← Nat.add_mul] at hend
          exact Nat.le_of_lt (Nat.lt_of_mul_lt_mul_right (Nat.lt_of_add_lt_add_left hend))
        next => exact hnone (.inl rfl) hlike
    next => exact .cons (.refl r) (ih hrest)

/-! ## What a try keeps -/

section
variable {reserved : List ReservedVMARegion} {live live' : List LiveVMARegion} {outstanding : List (Nat × Nat)}

theorem like_slabs (h : List.Forall₂ Like live live') :
    live'.map LiveVMARegion.slabInfo = live.map LiveVMARegion.slabInfo := by
  induction h with
  | nil => rfl
  | cons hl _ ih =>
    obtain ⟨_, rfl⟩ := hl
    simp [ih]

theorem Inv.like (h : Inv page ⟨⟨reserved, live⟩, outstanding⟩) (hlike : List.Forall₂ Like live live') :
    Inv page ⟨⟨reserved, live'⟩, outstanding⟩ where
  slabs := by
    have hs := h.slabs
    simp only [State.slabs, like_slabs hlike] at hs ⊢
    exact hs
  reserved := h.reserved
  live r' hr' := by
    obtain ⟨r, hr, hl⟩ := Lib.forall₂_mem_right hlike hr'
    exact Like.ok hl (h.live r hr)
  owned x hx := by
    obtain ⟨r, hr, a, ho⟩ := h.owned x hx
    obtain ⟨r', hr', hl⟩ := Lib.forall₂_mem_left hlike hr
    exact ⟨r', hr', a, ho.like hl⟩
  disjoint := h.disjoint

theorem Owns.disjoint (h : Owns page r x a) (hcount : 0 < count)
    (hfree : r.usedPages.Free b count) : a + pageCount page x.2 ≤ b ∨ b + count ≤ a := by
  by_contra hmeet
  have hnonempty := h.nonempty
  have hset := h.marked (max a b - a) (by omega)
  have hunset := hfree (max a b - b) (by omega)
  rw [show a + (max a b - a) = b + (max a b - b) by omega, hunset] at hset
  cases hset

theorem rangesDisjoint_of_pages (hx : x.1 = base + a * page.size)
    (hy : y.1 = base + b * page.size) (h : a + pageCount page x.2 ≤ b ∨ b + pageCount page y.2 ≤ a) :
    RangesDisjoint page x y := by
  obtain h | h := h
  · have hmul := Nat.mul_le_mul_right page.size h
    rw [Nat.add_mul, pageCount_mul] at hmul
    exact .inl (by omega)
  · have hmul := Nat.mul_le_mul_right page.size h
    rw [Nat.add_mul, pageCount_mul] at hmul
    exact .inr (by omega)

/-- One region is exchanged for another with its bounds. The ranges it owned are owned by
the other, as those are that were not handed out before. -/
theorem Inv.replace (h : Inv page ⟨⟨reserved, pre ++ r :: post⟩, outstanding⟩) (hslab : r'.slabInfo = r.slabInfo)
    (hok : RegionOk page r') (howns : ∀ x ∈ xs, (∃ a, Owns page r' x a) ∨
      x ∈ outstanding ∧ ∀ a, Owns page r x a → Owns page r' x a) (hdisjoint : xs.Pairwise (RangesDisjoint page)) :
    Inv page ⟨⟨reserved, pre ++ r' :: post⟩, xs⟩ where
  slabs := by
    have hslabs := h.slabs
    simp only [State.slabs, List.map_append, List.map_cons, hslab] at hslabs ⊢
    exact hslabs
  reserved := h.reserved
  live q hq := by
    obtain rfl | hq : q = r' ∨ q ∈ pre ++ r :: post := by
      simp only [List.mem_append, List.mem_cons] at hq ⊢
      tauto
    · exact hok
    · exact h.live q hq
  owned x hx := by
    obtain ⟨a, hnew⟩ | ⟨hold, hkeeps⟩ := howns x hx
    · exact ⟨r', by simp, a, hnew⟩
    · obtain ⟨q, hq, a, howner⟩ := h.owned x hold
      obtain rfl | hq : q = r ∨ q ∈ pre ++ r' :: post := by
        simp only [List.mem_append, List.mem_cons] at hq ⊢
        tauto
      · exact ⟨r', by simp, a, hkeeps a howner⟩
      · exact ⟨q, hq, a, howner⟩
  disjoint := hdisjoint

theorem markUsed_bits (page : HostPage) (r : LiveVMARegion) (a count i : Nat) :
    (markUsed page r (r.slabInfo.base + a * page.size) count).usedPages i ↔
      (a ≤ i ∧ i < a + count) ∨ r.usedPages i := by
  simp only [markUsed, page_of_offset]
  exact FlexBitSet.setRange_bits ..

section
variable {pre post : List LiveVMARegion} {r : LiveVMARegion} {a size : Nat}

theorem Owns.mark (h : Owns page r x b) (a count : Nat) :
    Owns page (markUsed page r (r.slabInfo.base + a * page.size) count) x b :=
  ⟨h.addr, h.managed, h.inside, h.nonempty, fun i hi => (markUsed_bits ..).mpr (.inr (h.marked i hi))⟩

theorem RegionOk.owns (hr : RegionOk page r) (hfree : r.usedPages.Free a (pageCount page size))
    (hcount : 0 < pageCount page size) (hinside : a + pageCount page size ≤ pages page r.slabInfo) :
    Owns page (markUsed page r (r.slabInfo.base + a * page.size) (pageCount page size))
      (r.slabInfo.base + a * page.size, size) a :=
  ⟨rfl, hr.le_of_free hcount hfree, hinside, hcount, fun _ hi =>
    (markUsed_bits ..).mpr (.inl ⟨Nat.le_add_right .., Nat.add_lt_add_left hi a⟩)⟩

section
variable (h : Inv page ⟨⟨reserved, pre ++ r :: post⟩, outstanding⟩) (hfree : r.usedPages.Free a (pageCount page size))
  (hcount : 0 < pageCount page size) (hinside : a + pageCount page size ≤ pages page r.slabInfo)
include h hfree hcount hinside

theorem Inv.fresh :
    ∀ y ∈ outstanding, RangesDisjoint page (r.slabInfo.base + a * page.size, size) y := by
  intro y hy
  obtain ⟨r', hr', b, howns⟩ := h.owned y hy
  have hself := h.live r (by simp)
  have hbounds := (hself.owns hfree hcount hinside).bounds (markUsed_ok hself hfree hcount hinside)
  obtain rfl | hother : r' = r ∨ r' ∈ pre ++ post := by
    simp only [List.mem_append, List.mem_cons] at hr' ⊢
    tauto
  · exact rangesDisjoint_of_pages rfl howns.addr (howns.disjoint hcount hfree).symm
  · have hslabs := disjoint_of_split h.slabs hother
    have hbounds' := howns.bounds (h.live r' hr')
    obtain hslabs | hslabs := hslabs
    · exact .inl (Nat.le_trans hbounds.2 (Nat.le_trans hslabs hbounds'.1))
    · exact .inr (Nat.le_trans hbounds'.2 (Nat.le_trans hslabs hbounds.1))

theorem Inv.mark :
    Inv page ⟨⟨reserved, pre ++ markUsed page r (r.slabInfo.base + a * page.size) (pageCount page size) :: post⟩,
      (r.slabInfo.base + a * page.size, size) :: outstanding⟩ := by
  have hr := h.live r (by simp)
  refine h.replace rfl (markUsed_ok hr hfree hcount hinside) (fun x hx => ?_)
    (List.pairwise_cons.mpr ⟨h.fresh hfree hcount hinside, h.disjoint⟩)
  obtain rfl | hx := List.mem_cons.mp hx
  · exact .inl ⟨a, hr.owns hfree hcount hinside⟩
  · exact .inr ⟨hx, fun _ howns => howns.mark a (pageCount page size)⟩

end

end

def handed (outstanding : List (Nat × Nat)) (size : Nat) : Result → List (Nat × Nat)
  | .ok ptr => (ptr, size) :: outstanding
  | _ => outstanding

/-- A call has kept the regions, and no pages of the allocator are overwritten. -/
def Kept (page : HostPage) (outstanding : List (Nat × Nat)) (size : Nat) (answer : State × Result) : Prop :=
  Inv page ⟨answer.1, handed outstanding size answer.2⟩ ∧ answer.2 ≠ .overwritten

theorem Inv.tried (h : Inv page ⟨⟨reserved, live⟩, outstanding⟩)
    (ht : Tried page (pageCount page size) live live' result) :
    Kept page outstanding size ⟨⟨reserved, live'⟩, result.toResult⟩ := by
  cases ht with
  | none hlike hresult =>
    obtain rfl | rfl := hresult
    · exact ⟨h.like hlike, nofun⟩
    · exact ⟨h.like hlike, nofun⟩
  | mapped pre r post a hlike hfree hcount hinside => exact ⟨(h.like hlike).mark hfree hcount hinside, nofun⟩

end

/-! ## Regions that are made live -/

theorem extract_perm (h : extract p xs = some (y, ys)) : xs.Perm (y :: ys) := by
  induction xs generalizing ys with
  | nil => cases h
  | cons x xs ih =>
    rw [extract] at h
    split at h
    next =>
      cases h
      exact .refl _
    next =>
      obtain ⟨⟨z, zs⟩, hz, heq⟩ := Option.map_eq_some_iff.mp h
      cases heq
      exact (List.Perm.cons x (ih hz)).trans (.swap ..)

theorem makeRegionActive_spec (h : makeRegionActive page p s = some s') :
    ∃ slab ∈ s.reserved, s.slabs.Perm s'.slabs ∧ (∀ r ∈ s'.reserved, r ∈ s.reserved) ∧
      s'.reserved.length + 1 = s.reserved.length ∧ s'.live = s.live ++ [initializeVMARegionUsed page slab 0] := by
  obtain ⟨⟨slab, rest⟩, hextract, rfl⟩ := Option.map_eq_some_iff.mp h
  have hperm := extract_perm hextract
  refine ⟨slab, hperm.mem_iff.mpr (.head _), ?_, fun r hr => hperm.mem_iff.mpr (.tail _ hr), ?_, rfl⟩
  · simp only [State.slabs, List.map_append, List.append_assoc]
    exact hperm.append_left _
  · exact hperm.length_eq.symm

theorem Inv.active
    (h : Inv page ⟨s, outstanding⟩) (hs : makeRegionActive page p s = some s') : Inv page ⟨s', outstanding⟩ := by
  obtain ⟨slab, hslab, hperm, hsub, -, hlive⟩ := makeRegionActive_spec hs
  obtain ⟨hok, hmarked⟩ := h.reserved slab hslab
  refine ⟨?_, fun r hr => h.reserved r (hsub r hr), ?_, ?_, h.disjoint⟩
  · exact (hperm.pairwise_iff SlabsDisjoint.symm).mp h.slabs
  · rw [hlive]
    intro r hr
    obtain hr | hr := List.mem_append.mp hr
    · exact h.live r hr
    · cases List.mem_singleton.mp hr
      exact initializeVMARegionUsed_ok hok hmarked
  · intro x hx
    obtain ⟨r, hr, a, howns⟩ := h.owned x hx
    refine ⟨r, ?_, a, howns⟩
    rw [hlive]
    exact List.mem_append_left _ hr

theorem room_initializeVMARegionUsed (h : SlabOk page slab) (hm : Marked page slab)
    (count : Nat) : Room page (initializeVMARegionUsed page slab 0) count := by
  obtain ⟨hsize, -, hlt⟩ := h.managed
  have hlast : (initializeVMARegionUsed page slab 0).lastPageAllocation = managedPages page slab :=
    Nat.mod_eq_of_lt (Nat.lt_trans hlt hm.2)
  intro hfree _
  rw [hlast]
  refine ⟨hlt, managedPages page slab, Nat.le_refl _, ?_, fun i _ => ?_⟩
  · have hspace : (initializeVMARegionUsed page slab 0).freeSpace =
        slab.regionSize - sizeOfLiveRegion page slab.regionSize := rfl
    rw [hspace, hsize, ← h.pages_mul, ← Nat.sub_mul] at hfree
    have hle := Nat.le_of_mul_le_mul_right hfree page.size_pos
    have hpages : pages page (initializeVMARegionUsed page slab 0).slabInfo = pages page slab := rfl
    omega
  · have hbits := memSet_iff (managedPages page slab + i) (managedPages page slab)
    rw [hm.1] at hbits
    exact hbits.trans (decide_eq_false (by omega))

def Rooms (page : HostPage) (live : List LiveVMARegion) (count : Nat) : Prop := ∀ r ∈ live, Room page r count

theorem Rooms.like (h : Rooms page live count) (hl : List.Forall₂ Like live live') : Rooms page live' count := by
  intro r' hr'
  obtain ⟨r, hr, hlike⟩ := Lib.forall₂_mem_right hl hr'
  exact Like.room hlike (h r hr)

theorem Rooms.active (h : Rooms page s.live count)
    (hinv : Inv page ⟨s, outstanding⟩) (hs : makeRegionActive page p s = some s') : Rooms page s'.live count := by
  obtain ⟨slab, hslab, -, -, -, hlive⟩ := makeRegionActive_spec hs
  obtain ⟨hok, hmarked⟩ := hinv.reserved slab hslab
  rw [hlive]
  intro r hr
  obtain hr | hr := List.mem_append.mp hr
  · exact h r hr
  · cases List.mem_singleton.mp hr
    exact room_initializeVMARegionUsed hok hmarked count

theorem Tried.like_of_none (h : Tried page count live live' .none) : List.Forall₂ Like live live' := by
  cases h with
  | none hlike _ => exact hlike

/-! ## A call -/

theorem place_kept (h : Inv page ⟨s, outstanding⟩) (hroom : Rooms page s.live (pageCount page size)) :
    Kept page outstanding size ⟨(place page (page.alignUp size) fuel s).1,
      (place page (page.alignUp size) fuel s).2.toResult⟩ := by
  induction fuel generalizing s with
  | zero =>
    have htried := tryRegions_tried h.live hroom
    rw [pageCount_mul] at htried
    exact h.tried htried
  | succ fuel ih =>
    have htried := tryRegions_tried h.live hroom
    rw [pageCount_mul] at htried
    rw [place]
    generalize tryRegions page (page.alignUp size) s.live = t at htried
    obtain ⟨live', result⟩ := t
    have hkept := h.tried htried
    cases result with
    | mapped ptr => exact hkept
    | mapFailed => exact hkept
    | overwritten => exact hkept
    | none =>
      have hrooms := hroom.like htried.like_of_none
      dsimp only
      split
      next s' hs' => exact ih (hkept.1.active hs') (hrooms.active hkept.1 hs')
      next => exact hkept

theorem findLiveRegionForAddress_inv (h : Inv page ⟨s, outstanding⟩) (hroom : Rooms page s.live count) :
    Inv page ⟨findLiveRegionForAddress page addr addrEnd s, outstanding⟩ ∧
      Rooms page (findLiveRegionForAddress page addr addrEnd s).live count := by
  rw [findLiveRegionForAddress]
  split
  next => exact ⟨h, hroom⟩
  next =>
    cases hs : makeRegionActive page (fun r => r.fits addr addrEnd) s with
    | none => exact ⟨h, hroom⟩
    | some s' => exact ⟨h.active hs, hroom.active h hs⟩

theorem mmap_kept (h : Inv page ⟨s, outstanding⟩) (hwrap : page.alignDown hint + page.alignUp size < 2 ^ 64)
    (hroom : Rooms page s.live (pageCount page size)) : Kept page outstanding size (mmap page s hint size fileOffset) := by
  rw [mmap]
  split
  next => exact ⟨h, nofun⟩
  next =>
  dsimp only
  split
  next => exact ⟨h, nofun⟩
  next =>
  split
  next => exact ⟨h, nofun⟩
  next =>
  by_cases haddr : page.alignDown hint = 0
  · rw [if_pos haddr]
    exact place_kept h hroom
  · rw [if_neg haddr]
    obtain ⟨hinv, hrooms⟩ := findLiveRegionForAddress_inv h hroom
    have htried := tryHint_tried hinv.live (by rw [pageCount_mul]; exact hwrap)
    rw [pageCount_mul] at htried
    generalize tryHint page _ _ _ _ = t at htried
    obtain ⟨live', result⟩ := t
    have hkept := hinv.tried htried
    cases result with
    | none => exact place_kept hkept.1 (hrooms.like htried.like_of_none)
    | mapFailed => exact hkept
    | overwritten => exact hkept
    | mapped ptr => exact hkept

/-! ## Giving a range back -/

theorem Inv.sublist (h : Inv page ⟨s, ys⟩) (hsub : xs.Sublist ys) : Inv page ⟨s, xs⟩ :=
  ⟨h.slabs, h.reserved, h.live, fun x hx => h.owned x (hsub.subset hx), h.disjoint.sublist hsub⟩

theorem RangesDisjoint.symm (h : RangesDisjoint page x y) : RangesDisjoint page y x := Or.symm h

theorem unmapRegions_append (hpre : ∀ r' ∈ pre, ¬(r'.slabInfo.base ≤ ptrBegin ∧ ptrEnd ≤ r'.slabInfo.regionEnd)) :
    unmapRegions page ptrBegin ptrEnd length (pre ++ r :: post) =
      pre ++ unmapRegions page ptrBegin ptrEnd length (r :: post) := by
  induction pre with
  | nil => rfl
  | cons r' pre ih =>
    obtain ⟨hr', hpre⟩ := List.forall_mem_cons.mp hpre
    rw [List.cons_append, unmapRegions, if_neg hr', ih hpre, List.cons_append]

def unmarked (page : HostPage) (r : LiveVMARegion) (a count : Nat) : LiveVMARegion :=
  { r with
    usedPages := (r.usedPages.clearRange a count).1
    freeSpace := r.freeSpace + (r.usedPages.clearRange a count).2 * page.size
    lastPageAllocation := min r.lastPageAllocation a
    hadMunmap := true }

theorem unmapRegions_owner (h : Inv page ⟨⟨reserved, pre ++ r :: post⟩, outstanding⟩) (howns : Owns page r x a) :
    unmapRegions page x.1 ((x.1 + page.alignUp x.2) % 2 ^ 64) (page.alignUp x.2) (pre ++ r :: post) =
      pre ++ unmarked page r a (pageCount page x.2) :: post := by
  have hr := h.live r (by simp)
  obtain ⟨hbase, hend⟩ := howns.bounds hr
  have hpos : 0 < page.alignUp x.2 := by
    rw [← pageCount_mul]
    exact Nat.mul_pos howns.nonempty page.size_pos
  rw [Nat.mod_eq_of_lt (Nat.lt_of_le_of_lt hend hr.slab.upper)]
  rw [unmapRegions_append]
  · have hpage : (x.1 - r.slabInfo.base) / page.size % 2 ^ 32 = a := by
      have hinside := howns.inside
      have hsmall := hr.small
      rw [howns.addr, page_of_offset]
      exact Nat.mod_eq_of_lt (by omega)
    rw [unmapRegions, if_pos ⟨hbase, hend⟩]
    rw [hpage]
    rfl
  · intro r' hr' hholds
    have hslabs := disjoint_of_split h.slabs (List.mem_append_left post hr')
    obtain hslabs | hslabs := hslabs
    · omega
    · omega

theorem Owns.unmark (hx : Owns page r x a) (hy : Owns page r y b)
    (hdisjoint : RangesDisjoint page x y) : Owns page (unmarked page r a (pageCount page x.2)) y b := by
  refine ⟨hy.addr, hy.managed, hy.inside, hy.nonempty, fun i hi => ?_⟩
  refine (FlexBitSet.clearRange_bits ..).mpr ⟨?_, hy.marked i hi⟩
  rw [RangesDisjoint, hx.addr, hy.addr, ← pageCount_mul, ← pageCount_mul, Nat.add_assoc, Nat.add_assoc, ← Nat.add_mul,
    ← Nat.add_mul] at hdisjoint
  obtain hle | hle := hdisjoint
  · have hpages := Nat.le_of_mul_le_mul_right (Nat.le_of_add_le_add_left hle) page.size_pos
    omega
  · have hpages := Nat.le_of_mul_le_mul_right (Nat.le_of_add_le_add_left hle) page.size_pos
    omega

theorem Inv.unmark {reserved : List ReservedVMARegion}
    (h : Inv page ⟨⟨reserved, pre ++ r :: post⟩, outstanding⟩) (hmem : x ∈ outstanding) (howns : Owns page r x a) :
    Inv page ⟨⟨reserved, pre ++ unmarked page r a (pageCount page x.2) :: post⟩, outstanding.erase x⟩ := by
  have hok := unmap_ok (h.live r (by simp)) howns.managed howns.inside
  have hothers := ((List.perm_cons_erase hmem).pairwise_iff RangesDisjoint.symm).mp h.disjoint
  refine h.replace rfl hok (fun y hy => ?_) (h.disjoint.sublist List.erase_sublist)
  exact .inr ⟨List.erase_subset hy, fun _ howner => howns.unmark howner ((List.pairwise_cons.mp hothers).1 y hy)⟩

theorem munmap_inv (h : Inv page ⟨s, outstanding⟩) (hmem : (addr, size) ∈ outstanding) :
    Inv page ⟨(munmap page s addr size).1, outstanding.erase (addr, size)⟩ := by
  have herror := h.sublist (List.erase_sublist (a := (addr, size)))
  rw [munmap]
  split
  next => exact herror
  next =>
  split
  next => exact herror
  next =>
  split
  next => exact herror
  next =>
    obtain ⟨reserved, live⟩ := s
    obtain ⟨r, hr, a, howns⟩ := h.owned _ hmem
    obtain ⟨pre, post, rfl⟩ := List.append_of_mem hr
    dsimp only
    rw [unmapRegions_owner h howns]
    exact h.unmark hmem howns

/-! ## Runs -/

/-- What a call must meet: a hint does not make the range wrap, a request does not run
over the end of a live region, and only a whole outstanding range is given back. -/
def StepOk (page : HostPage) (run : Run) : Call → Prop
  | .mmap hint size _ =>
    page.alignDown hint + page.alignUp size < 2 ^ 64 ∧ Rooms page run.state.live (pageCount page size)
  | .munmap addr size => (addr, size) ∈ run.outstanding

def Run.Inv (page : HostPage) (run : Run) : Prop :=
  Alloc64.Inv page ⟨run.state, run.outstanding⟩ ∧ run.overwritten = false

theorem step_inv (run : Run) (call : Call) (h : run.Inv page) (hok : StepOk page run call) :
    (run.step page call).Inv page := by
  obtain ⟨s, outstanding, overwritten⟩ := run
  obtain ⟨hinv, hkept⟩ := h
  cases call with
  | mmap hint size fileOffset =>
    have hmmap : Kept page outstanding size (mmap page s hint size fileOffset) := mmap_kept hinv hok.1 hok.2
    rw [Run.step]
    generalize mmap page s hint size fileOffset = t at hmmap
    obtain ⟨s', result⟩ := t
    cases result with
    | toKernel => exact ⟨hmmap.1, hkept⟩
    | error errno => exact ⟨hmmap.1, hkept⟩
    | overwritten => exact absurd rfl hmmap.2
    | ok ptr => exact ⟨hmmap.1, hkept⟩
  | munmap addr size => exact ⟨munmap_inv hinv hok, hkept⟩

/-- The outstanding ranges are disjoint, each lies in a live region behind the
allocator's own pages, which no call has overwritten, and the regions count their free
pages. -/
structure Good (page : HostPage) (run : Run) : Prop where
  kept : run.overwritten = false
  disjoint : run.outstanding.Pairwise (RangesDisjoint page)
  inside : ∀ x ∈ run.outstanding, ∃ r ∈ run.state.live,
    r.slabInfo.base + sizeOfLiveRegion page r.slabInfo.regionSize ≤ x.1 ∧ x.1 + page.alignUp x.2 ≤ r.slabInfo.regionEnd
  free : ∀ r ∈ run.state.live, r.freeSpace = r.usedPages.unset (r.slabInfo.regionSize / page.size) * page.size

theorem Run.Inv.good (h : run.Inv page) : Good page run where
  kept := h.2
  disjoint := h.1.disjoint
  inside x hx := by
    obtain ⟨r, hr, a, howns⟩ := h.1.owned x hx
    have hok := h.1.live r hr
    refine ⟨r, hr, ?_, (howns.bounds hok).2⟩
    rw [howns.addr, hok.slab.managed.1, ← hok.managed]
    exact Nat.add_le_add_left (Nat.mul_le_mul_right _ howns.managed) _
  free r hr := (h.1.live r hr).free

end PowerArm.Alloc64
