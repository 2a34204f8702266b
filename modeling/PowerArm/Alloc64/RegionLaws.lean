import PowerArm.Alloc64.Allocator
import PowerArm.Alloc64.ScanLaws

/-!
# What one region keeps

A live region has its managed pages marked as used and counts its free pages
(`RegionOk`). A search gives pages that are free (`checkIfRangeFits_spec`), and pages
inside the region where there is room before its end (`Room`).
-/

namespace PowerArm.Alloc64

/-! ## Pages -/

section
variable (page : HostPage)

theorem alignUp_mod (x : Nat) : page.alignUp x % page.size = 0 := Nat.mul_mod_left ..

theorem alignUp_eq (h : x + page.size - 1 < 2 ^ 64) : page.alignUp x = (x + page.size - 1) / page.size * page.size := by
  rw [HostPage.alignUp, Nat.mod_eq_of_lt h, HostPage.alignDown]

theorem div_mul_of_mod {page : HostPage} (h : x % page.size = 0) : x / page.size * page.size = x :=
  Nat.div_mul_cancel (Nat.dvd_of_mod_eq_zero h)

end

section
variable {page : HostPage}

/-! ## Regions -/

def pages (page : HostPage) (r : ReservedVMARegion) : Nat := r.regionSize / page.size

def managedPages (page : HostPage) (r : ReservedVMARegion) : Nat := sizeOfLiveRegion page r.regionSize / page.size

structure SlabOk (page : HostPage) (r : ReservedVMARegion) : Prop where
  host : 4096 ≤ page.size
  base : r.base % page.size = 0
  size : r.regionSize % page.size = 0
  lower : lowerBound ≤ r.base
  large : 2 * page.size < r.regionSize
  upper : r.regionEnd < 2 ^ 64

/-- `MemSet` marks just the managed pages, and page numbers have 32 bits. -/
def Marked (page : HostPage) (r : ReservedVMARegion) : Prop :=
  FlexBitSet.memSetBits (managedPages page r) = managedPages page r ∧ pages page r < 2 ^ 32

structure RegionOk (page : HostPage) (r : LiveVMARegion) : Prop where
  slab : SlabOk page r.slabInfo
  small : pages page r.slabInfo < 2 ^ 32
  managed : r.numManagedPages = managedPages page r.slabInfo
  marked : ∀ i < r.numManagedPages, r.usedPages i = true
  fits : r.numManagedPages < pages page r.slabInfo
  positive : 0 < r.numManagedPages
  last : r.numManagedPages ≤ r.lastPageAllocation ∧ r.lastPageAllocation ≤ pages page r.slabInfo
  free : r.freeSpace = r.usedPages.unset (pages page r.slabInfo) * page.size

theorem SlabOk.pages_mul (h : SlabOk page r) : pages page r * page.size = r.regionSize := div_mul_of_mod h.size

theorem SlabOk.pages_ge (h : SlabOk page r) : 3 ≤ pages page r := by
  have hmul := h.pages_mul
  have hlarge := h.large
  by_contra hlt
  have hle : pages page r * page.size ≤ 2 * page.size := Nat.mul_le_mul_right _ (by omega)
  omega

theorem SlabOk.managed (h : SlabOk page r) : sizeOfLiveRegion page r.regionSize = managedPages page r * page.size ∧
      0 < managedPages page r ∧ managedPages page r < pages page r := by
  have hmod : sizeOfLiveRegion page r.regionSize % page.size = 0 := alignUp_mod page _
  have hmul : managedPages page r * page.size = sizeOfLiveRegion page r.regionSize := div_mul_of_mod hmod
  have hpages := h.pages_mul
  have hge := h.pages_ge
  have hpos := page.size_pos
  have hsize := h.host
  have hupper := h.upper
  -- the bitmap has at most a byte for eight pages and eight more
  have hbitmap : FlexBitSet.sizeInBytes (pages page r) ≤ (pages page r - 2) * 4096 := by
    simp only [FlexBitSet.sizeInBytes, FlexBitSet.alignUp64]
    omega
  have hscale : (pages page r - 2) * 4096 ≤ (pages page r - 2) * page.size := Nat.mul_le_mul_left _ hsize
  have hsplit : (pages page r - 2) * page.size + 2 * page.size = r.regionSize := by
    rw [← Nat.add_mul, ← hpages]
    congr 1
    omega
  have hdata : getFEXManagedVMARegionSize page r.regionSize + page.size - 1 < r.regionSize := by
    have hbytes : getFEXManagedVMARegionSize page r.regionSize = 4096 + FlexBitSet.sizeInBytes (pages page r) := rfl
    omega
  have hlt : r.regionSize < 2 ^ 64 := Nat.lt_of_le_of_lt (Nat.le_add_left ..) hupper
  have heq : sizeOfLiveRegion page r.regionSize =
      (getFEXManagedVMARegionSize page r.regionSize + page.size - 1) / page.size * page.size :=
    alignUp_eq page (Nat.lt_trans hdata hlt)
  refine ⟨hmul.symm, ?_, ?_⟩
  · have hdiv : managedPages page r = (getFEXManagedVMARegionSize page r.regionSize + page.size - 1) / page.size := by
      rw [managedPages, heq, Nat.mul_div_cancel _ hpos]
    rw [hdiv]
    refine Nat.div_pos ?_ hpos
    simp only [getFEXManagedVMARegionSize]
    omega
  · have hbelow : managedPages page r * page.size < pages page r * page.size := by
      rw [hmul, hpages, heq]
      exact Nat.lt_of_le_of_lt (Nat.div_mul_le_self ..) hdata
    exact Nat.lt_of_mul_lt_mul_right hbelow

theorem memSet_iff (i n : Nat) : FlexBitSet.memSet (fun _ => false) n i = decide (i < FlexBitSet.memSetBits n) := by
  simp [FlexBitSet.memSet]

theorem initializeVMARegionUsed_ok (h : SlabOk page r) (hm : Marked page r) :
    RegionOk page (initializeVMARegionUsed page r 0) := by
  obtain ⟨hsize, hpos, hlt⟩ := h.managed
  have hlast : (initializeVMARegionUsed page r 0).lastPageAllocation = managedPages page r :=
    Nat.mod_eq_of_lt (Nat.lt_trans hlt hm.2)
  have hbits (i : Nat) : (initializeVMARegionUsed page r 0).usedPages i = decide (i < managedPages page r) := by
    rw [← hm.1]
    exact memSet_iff i _
  refine ⟨h, hm.2, rfl, fun i hi => ?_, hlt, hpos, ?_, ?_⟩
  · rw [hbits]
    exact decide_eq_true hi
  · rw [hlast]
    exact ⟨Nat.le_refl _, Nat.le_of_lt hlt⟩
  · have hunset (i : Nat) (_ : i < pages page r) := hbits i
    have hunset := FlexBitSet.unset_of_set_iff hunset
    have hfree : (initializeVMARegionUsed page r 0).freeSpace = r.regionSize - sizeOfLiveRegion page r.regionSize := rfl
    have hcount : FlexBitSet.unset (initializeVMARegionUsed page r 0).usedPages (pages page r) =
        pages page r - managedPages page r := by omega
    rw [hfree, hsize, ← h.pages_mul, ← Nat.sub_mul, ← hcount]
    rfl

/-! ## A search -/

def Like (r r' : LiveVMARegion) : Prop := ∃ hadMunmap, r' = { r with hadMunmap := hadMunmap }

/-- A request of `count` pages does not run over the end of the region. The scans also
look at the element after the last page, so that where the last `count - 1` pages are
free the run has to be found before. -/
def Room (page : HostPage) (r : LiveVMARegion) (count : Nat) : Prop :=
  count * page.size ≤ r.freeSpace → r.usedPages.Free (pages page r.slabInfo + 1 - count) (count - 1) →
      r.lastPageAllocation < pages page r.slabInfo ∧
        ∃ e, r.lastPageAllocation ≤ e ∧ e + count ≤ pages page r.slabInfo ∧ r.usedPages.Free e count

/-- A free run that a search from `start` may give: one below, or the first one above that
ends before the element after the last. -/
def Found (page : HostPage) (r : LiveVMARegion) (count start a : Nat) : Prop :=
  r.usedPages.Free a count ∧ (a + count ≤ start + 1 ∨ a + count ≤ pages page r.slabInfo + 1 ∧
    ∀ e, start ≤ e → e < a → ¬ r.usedPages.Free e count)

theorem scanned_found (h : (scanned result).foundElement = some a) : ∃ hole, result = some ⟨some a, hole⟩ := by
  cases result with
  | none => cases h
  | some result => exact ⟨result.foundHole, congrArg some (by cases result; cases h; rfl)⟩

section
variable {r : LiveVMARegion} {count start a : Nat}

theorem RegionOk.le_of_free (hr : RegionOk page r) (hcount : 0 < count) (hfree : r.usedPages.Free a count) :
    r.numManagedPages ≤ a := by
  by_contra hlt
  have hset := hr.marked a (by omega)
  have hunset := hfree 0 hcount
  simp [hset] at hunset

theorem unset_le (bits : FlexBitSet) (elements : Nat) : bits.unset elements ≤ elements := by
  induction elements with
  | zero => exact Nat.le_refl _
  | succ elements ih =>
    rw [FlexBitSet.unset]
    split <;> omega

/-- A search changes `HadMunmap` alone. Where it succeeds, the free run lies behind the
region's own pages, so these are never overwritten. -/
theorem checkIfRangeFits_spec (hr : RegionOk page r) (count : Nat) (start : Option Nat)
    (hstart : scanStart page r start ≤ pages page r.slabInfo) :
    Like r (checkIfRangeFits page r (count * page.size) start).1 ∧
      ((checkIfRangeFits page r (count * page.size) start).2 = .none ∨
        (checkIfRangeFits page r (count * page.size) start).2 = .mapFailed ∨
        0 < count ∧ count * page.size ≤ r.freeSpace ∧ ∃ a, Found page r count (scanStart page r start) a ∧
          (checkIfRangeFits page r (count * page.size) start).2 = .mapped (r.slabInfo.base + a * page.size)) := by
  have hpos := page.size_pos
  unfold checkIfRangeFits
  rw [Nat.mul_div_cancel _ hpos]
  dsimp only
  split
  next hspace =>
    have hle : count ≤ pages page r.slabInfo :=
      Nat.le_trans (Nat.le_of_mul_le_mul_right (hr.free ▸ hspace) hpos) (unset_le ..)
    have hsmall := hr.small
    have hfits := hr.fits
    split
    next => exact ⟨⟨_, rfl⟩, .inl rfl⟩
    next a ha =>
    split
    next => exact ⟨⟨_, rfl⟩, .inr (.inl rfl)⟩
    next hne =>
    have hcount : 0 < count := Nat.pos_of_ne_zero fun h0 => hne (by rw [h0, Nat.zero_mul])
    have hfound : Found page r count (scanStart page r start) a := by
      cases hback : (if r.hadMunmap then (scanned (FlexBitSet.backwardScanForRange (some ∘ r.usedPages)
          (scanStart page r start) count r.numManagedPages)).foundElement else none) with
      | none =>
        rw [hback] at ha
        obtain ⟨hole, hscan⟩ := scanned_found ha
        obtain ⟨-, hend, hfree, hfirst⟩ := FlexBitSet.forward_found hcount hle (by omega) hscan
        exact ⟨hfree, .inr ⟨hend, hfirst⟩⟩
      | some a' =>
        rw [hback] at ha
        cases ha
        split at hback
        next =>
          obtain ⟨hole, hscan⟩ := scanned_found hback
          obtain ⟨hend, hfree⟩ := FlexBitSet.backward_found hcount hr.positive (by omega) (by omega) hscan
          exact ⟨hfree, .inl hend⟩
        next => cases hback
    rw [if_neg (Nat.not_lt.mpr (hr.le_of_free hcount hfound.1))]
    exact ⟨⟨_, rfl⟩, .inr (.inr ⟨hcount, hspace, a, hfound, rfl⟩)⟩
  next => exact ⟨⟨_, rfl⟩, .inl rfl⟩

theorem Found.inside (h : Found page r count r.lastPageAllocation a) (hr : RegionOk page r) (hcount : 0 < count)
    (hspace : count * page.size ≤ r.freeSpace) (hroom : Room page r count) : a + count ≤ pages page r.slabInfo := by
  have hlast := hr.last.2
  obtain ⟨hfree, hbounds⟩ := h
  by_contra hover
  -- the only run that goes over the end is the one that ends just after it
  obtain ⟨hlt, e, hge, hfits, hrun⟩ :=
    hroom hspace ((show a = pages page r.slabInfo + 1 - count by omega) ▸ hfree.mono (Nat.sub_le ..))
  obtain hbelow | ⟨-, hfirst⟩ := hbounds
  · omega
  · exact hfirst e hge (by omega) hrun

end

/-! ## Taking and giving back pages -/

theorem Like.ok (h : Like r r') (hr : RegionOk page r) : RegionOk page r' := by
  obtain ⟨_, rfl⟩ := h
  exact ⟨hr.slab, hr.small, hr.managed, hr.marked, hr.fits, hr.positive, hr.last, hr.free⟩

theorem Like.room (h : Like r r') (hr : Room page r count) : Room page r' count := by
  obtain ⟨_, rfl⟩ := h
  exact hr

theorem page_of_offset (page : HostPage) (base a : Nat) : (base + a * page.size - base) / page.size = a := by
  rw [Nat.add_sub_cancel_left, Nat.mul_div_cancel _ page.size_pos]

theorem markUsed_ok (hr : RegionOk page r) (hfree : r.usedPages.Free a count)
    (hcount : 0 < count) (hinside : a + count ≤ pages page r.slabInfo) :
    RegionOk page (markUsed page r (r.slabInfo.base + a * page.size) count) := by
  have hle := hr.le_of_free hcount hfree
  have hsmall := hr.small
  have hunset := FlexBitSet.unset_setRange r.usedPages hinside
  have hlast : (a + count) % 2 ^ 32 = a + count := Nat.mod_eq_of_lt (by omega)
  simp only [markUsed, page_of_offset]
  refine ⟨hr.slab, hr.small, hr.managed, fun i hi => ?_, hr.fits, hr.positive, ?_, ?_⟩
  · exact (FlexBitSet.setRange_bits ..).mpr (.inr (hr.marked i hi))
  · dsimp only
    rw [hlast]
    exact ⟨by omega, hinside⟩
  · rw [hr.free, ← hunset, Nat.add_mul, Nat.add_sub_cancel]

theorem unmap_ok (hr : RegionOk page r) (hle : r.numManagedPages ≤ a) (hinside : a + count ≤ pages page r.slabInfo) :
    RegionOk page { r with
        usedPages := (r.usedPages.clearRange a count).1
        freeSpace := r.freeSpace + (r.usedPages.clearRange a count).2 * page.size
        lastPageAllocation := min r.lastPageAllocation a
        hadMunmap := true } := by
  have hlast := hr.last
  refine ⟨hr.slab, hr.small, hr.managed, fun i hi => ?_, hr.fits, hr.positive, ?_, ?_⟩
  · refine (FlexBitSet.clearRange_bits ..).mpr ⟨?_, hr.marked i hi⟩
    dsimp only at hi
    omega
  · dsimp only
    omega
  · rw [FlexBitSet.unset_clearRange r.usedPages hinside, Nat.add_mul, hr.free]

end

end PowerArm.Alloc64
