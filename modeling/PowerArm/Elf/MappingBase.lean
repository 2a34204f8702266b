import PowerArm.Lib.Submask
import PowerArm.Utils.HostPage

/-!
# The base address of a file mapping

`InferMappingBaseAddress` and the mapping `MapFile` makes of a segment on a host with
4 KiB pages. `base_mem_inferMappingBaseAddress_iff` says which mappings name the load's
base among their candidates: those of a segment that has bytes in the file, and few others.
-/

namespace PowerArm.Elf

abbrev Addr := BitVec 64

structure Phdr where
  load : Bool
  flags : BitVec 32
  offset : Addr
  vaddr : Addr
  filesz : Addr
deriving DecidableEq

def matchesGuest (page : HostPage) : Bool := page.size == 4096
def alignDown (page : HostPage) (x : Addr) : Addr := BitVec.ofNat 64 (page.alignDown x.toNat)
def isAligned (page : HostPage) (x : Addr) : Bool := alignDown page x == x

def Phdr.segmentStartOffset (p : Phdr) : Addr := p.offset - (p.vaddr &&& 0xFFF)

def Phdr.fromSegment (page : HostPage) (p : Phdr) (fileOffset : Addr) : Bool :=
  (decide (p.segmentStartOffset ≤ fileOffset) && decide (fileOffset < p.segmentStartOffset + p.filesz) &&
    fileOffset &&& ~~~0xFFF == p.offset &&& ~~~0xFFF) ||
  (!matchesGuest page && isAligned page fileOffset &&
    decide (alignDown page p.offset ≤ fileOffset) && decide (fileOffset < p.offset + p.filesz))

def firstVA (headers : List Phdr) : Addr :=
  match headers with
  | [] => 0
  | first :: _ => first.vaddr - (first.offset &&& 0xFFF)

def inferMappingBaseAddress (page : HostPage) (headers : List Phdr) (addr fileOffset : Addr)
    (accessFlags : BitVec 32) : List Addr :=
  headers.filterMap fun p =>
    if p.load ∧ p.flags &&& 7 = accessFlags &&& 7 ∧ p.fromSegment page fileOffset then
      some (addr - (p.vaddr - (p.offset &&& 0xFFF)) + firstVA headers - (fileOffset - p.segmentStartOffset))
    else none

/-- What `MapFile` maps where host and guest pages agree: address, size and file offset. -/
def mapFile (base : Addr) (p : Phdr) : Option (Addr × Addr × Addr) :=
  let size := (p.filesz + (p.vaddr &&& 0xFFF) + 4095) &&& ~~~4095
  if size = 0 then none
  else some (base + (p.vaddr &&& ~~~4095), size, p.offset - (p.vaddr &&& 0xFFF))

/-! ## Mappings of a load -/

/-- A loader's mapping of a segment at bias `base`: the segment's start and its file offset
rounded down together, to the guest's page or the host's. `mmap` takes no file range that
wraps. -/
structure Mapped (page : HostPage) (base : Addr) (p : Phdr) (addr fileOffset : Addr) : Prop where
  load : p.load
  congruent : p.vaddr &&& 0xFFF = p.offset &&& 0xFFF
  fits : p.offset.toNat + p.filesz.toNat < 2 ^ 64
  together : base + p.vaddr - addr = p.offset - fileOffset
  rounded : fileOffset = p.offset &&& ~~~0xFFF ∨ fileOffset = alignDown page p.offset

theorem alignDown_toNat (page : HostPage) (x : Addr) :
    (alignDown page x).toNat = x.toNat / page.size * page.size := by
  have hle := Nat.div_mul_le_self x.toNat page.size
  rw [alignDown]
  exact Nat.mod_eq_of_lt (hle.trans_lt x.isLt)

theorem isAligned_alignDown (page : HostPage) (x : Addr) : isAligned page (alignDown page x) := by
  have hpos : 0 < page.size := Nat.two_pow_pos _
  rw [isAligned, beq_iff_eq, ← BitVec.toNat_inj]
  simp only [alignDown_toNat, Nat.mul_div_cancel _ hpos]

theorem alignDown_guest (page : HostPage) (h : matchesGuest page) (x : Addr) : alignDown page x = x &&& ~~~0xFFF := by
  have hsum := congrArg BitVec.toNat (Lib.and_not_add_and x 0xFFF)
  have hlow : (x &&& 0xFFF).toNat = x.toNat % 4096 := Nat.and_two_pow_sub_one_eq_mod x.toNat 12
  rw [← BitVec.toNat_inj, alignDown_toNat, beq_iff_eq.mp h]
  rw [BitVec.toNat_add] at hsum
  omega

theorem lt_add_filesz {p : Phdr} (hfits : p.offset.toNat + p.filesz.toNat < 2 ^ 64) (hsize : 0 < p.filesz)
    {x y : Addr} (hx : x.toNat ≤ y.toNat) (hy : y.toNat ≤ p.offset.toNat) : x < y + p.filesz := by
  have hpos : 0 < p.filesz.toNat := hsize
  rw [BitVec.lt_def, BitVec.toNat_add]
  omega

theorem alignDown_le (page : HostPage) (x : Addr) : (alignDown page x).toNat ≤ x.toNat := by
  rw [alignDown_toNat]
  exact Nat.div_mul_le_self _ _

/-- The only multiple of the page between a rounded address and the address. -/
theorem eq_alignDown {page : HostPage} {x y : Addr} (hy : isAligned page y) (hle : alignDown page x ≤ y) (hlt : y < x) :
    y = alignDown page x := by
  have hmul : y.toNat / page.size * page.size = y.toNat := by
    rw [← alignDown_toNat, beq_iff_eq.mp hy]
  have hdiv : y.toNat / page.size ≤ x.toNat / page.size := Nat.div_le_div_right (Nat.le_of_lt hlt)
  refine BitVec.le_antisymm ?_ hle
  rw [BitVec.le_def, alignDown_toNat, ← hmul]
  exact Nat.mul_le_mul_right _ hdiv

theorem Mapped.segmentStartOffset {page : HostPage} {p : Phdr} (h : Mapped page base p addr fileOffset) :
    p.segmentStartOffset = p.offset &&& ~~~0xFFF := by
  rw [Phdr.segmentStartOffset, h.congruent, sub_eq_iff_eq_add, Lib.and_not_add_and]

theorem fromSegment_of_mapped {page : HostPage} {p : Phdr} (h : Mapped page base p addr fileOffset)
    (hsize : 0 < p.filesz) : p.fromSegment page fileOffset := by
  have hguest (hfile : fileOffset = p.offset &&& ~~~0xFFF) : p.fromSegment page fileOffset := by
    have hlt := lt_add_filesz h.fits hsize (x := p.offset &&& ~~~0xFFF) le_rfl Nat.and_le_left
    simp only [Phdr.fromSegment, h.segmentStartOffset, hfile, hlt, BitVec.and_assoc, BitVec.and_self, BitVec.le_refl,
      decide_true, Bool.and_self, BEq.rfl, Bool.true_or]
  obtain hfile | hfile := h.rounded
  · exact hguest hfile
  cases hmatch : matchesGuest page with
  | true => exact hguest (hfile.trans (alignDown_guest page hmatch _))
  | false =>
    have hlt := lt_add_filesz h.fits hsize (alignDown_le page p.offset) le_rfl
    simp [Phdr.fromSegment, hfile, hmatch, isAligned_alignDown, hlt]

/-- A mapping that starts in a larger host page before the segment, in the page the segment
starts in. -/
def BeforeSegment (page : HostPage) (p : Phdr) (fileOffset : Addr) : Prop :=
  matchesGuest page = false ∧ fileOffset = alignDown page p.offset ∧ fileOffset ≠ p.offset

theorem fromSegment_iff {page : HostPage} {p : Phdr} (h : Mapped page base p addr fileOffset) :
    p.fromSegment page fileOffset ↔ 0 < p.filesz ∨ BeforeSegment page p fileOffset := by
  by_cases hsize : 0 < p.filesz
  · simp only [hsize, true_or, iff_true]
    exact fromSegment_of_mapped h hsize
  -- without bytes in the file the first test holds of no offset
  have hempty : p.filesz = 0#64 := BitVec.le_zero_iff.mp (BitVec.not_lt.mp hsize)
  have hnone : ¬ (p.segmentStartOffset ≤ fileOffset ∧ fileOffset < p.segmentStartOffset) :=
    fun ⟨hle, hlt⟩ => Nat.not_lt.mpr hle hlt
  rw [or_iff_right hsize]
  simp only [Phdr.fromSegment, hempty, BitVec.add_zero, Bool.or_eq_true, Bool.and_eq_true, decide_eq_true_eq, hnone,
    false_and, false_or, Bool.not_eq_eq_eq_not, Bool.not_true, BeforeSegment]
  constructor
  · rintro ⟨⟨⟨hhost, haligned⟩, hle⟩, hlt⟩
    exact ⟨hhost, eq_alignDown haligned hle hlt, fun heq => BitVec.lt_irrefl _ (heq ▸ hlt)⟩
  · rintro ⟨hhost, rfl, hne⟩
    exact ⟨⟨⟨hhost, isAligned_alignDown page _⟩, BitVec.le_refl _⟩,
      Nat.lt_of_le_of_ne (alignDown_le page _) fun heq => hne (BitVec.toNat_inj.mp heq)⟩

/-- How far a segment's addresses lie from its file offsets. -/
def Phdr.displacement (p : Phdr) : Addr := p.vaddr - (p.offset &&& 0xFFF) - p.segmentStartOffset

/-- The candidate of any header is the base of the load where its segment lies as far from
the file as the one that is mapped. -/
theorem candidate_eq_iff {page : HostPage} {p : Phdr} (h : Mapped page base p addr fileOffset) (q : Phdr) (first : Addr) :
    addr - (q.vaddr - (q.offset &&& 0xFFF)) + first - (fileOffset - q.segmentStartOffset) = base + first ↔
      q.displacement = p.displacement := by
  have htogether := h.together
  have hcong := h.congruent
  have hp : p.displacement = p.vaddr - p.offset := by
    unfold Phdr.displacement Phdr.segmentStartOffset
    grind
  rw [hp, Phdr.displacement]
  generalize q.vaddr - (q.offset &&& 0xFFF) = v
  generalize q.segmentStartOffset = s
  constructor
  · intro heq
    grind
  · intro heq
    grind

/-- Which mappings of a load name its base: those of a segment with bytes in the file, those
that start in a larger host page before the segment, and those that another header with
the same access and displacement takes for its own. -/
theorem base_mem_inferMappingBaseAddress_iff (page : HostPage) (headers : List Phdr) (base : Addr) (p : Phdr)
    (hp : p ∈ headers) (addr fileOffset : Addr) (h : Mapped page base p addr fileOffset) :
    base + firstVA headers ∈ inferMappingBaseAddress page headers addr fileOffset p.flags ↔
      0 < p.filesz ∨ BeforeSegment page p fileOffset ∨ ∃ q ∈ headers, q ≠ p ∧ q.load ∧ q.flags &&& 7 = p.flags &&& 7 ∧
        q.displacement = p.displacement ∧ q.fromSegment page fileOffset := by
  have hself := fromSegment_iff h
  constructor
  · intro hmem
    obtain ⟨q, hq, hsome⟩ := List.mem_filterMap.mp hmem
    split at hsome
    next hseg =>
      obtain ⟨hload, hflags, hfrom⟩ := hseg
      have hdisplacement := (candidate_eq_iff h q _).mp (Option.some.inj hsome)
      by_cases hqp : q = p
      · subst hqp
        exact or_assoc.mp (.inl (hself.mp hfrom))
      · exact .inr (.inr ⟨q, hq, hqp, hload, hflags, hdisplacement, hfrom⟩)
    next => cases hsome
  · intro hcases
    obtain ⟨q, hq, hload, hflags, hdisplacement, hfrom⟩ : ∃ q ∈ headers, q.load ∧ q.flags &&& 7 = p.flags &&& 7 ∧
        q.displacement = p.displacement ∧ q.fromSegment page fileOffset := by
      obtain hown | ⟨q, hq, -, hother⟩ := or_assoc.mpr hcases
      · exact ⟨p, hp, h.load, rfl, rfl, hself.mpr hown⟩
      · exact ⟨q, hq, hother⟩
    refine List.mem_filterMap.mpr ⟨q, hq, ?_⟩
    rw [if_pos ⟨hload, hflags, hfrom⟩]
    exact congrArg some ((candidate_eq_iff h q _).mpr hdisplacement)

/-- A text segment and, behind it, a data segment of a program linked for 4 KiB pages. -/
def twoSegments : List Phdr := [⟨true, 5, 0, 0x400000, 0x1A30⟩, ⟨true, 6, 0x1A30, 0x402A30, 0x210⟩]

theorem base_mem_twoSegments :
    0x400000 ∈ inferMappingBaseAddress ⟨16, by decide⟩ twoSegments 0x402000 0x1000 6 :=
  (base_mem_inferMappingBaseAddress_iff ⟨16, by decide⟩ twoSegments 0 ⟨true, 6, 0x1A30, 0x402A30, 0x210⟩
    (by decide) 0x402000 0x1000 ⟨rfl, by decide, by decide, by decide, .inl (by decide)⟩).mpr (.inl (by decide))

/-- A segment without bytes in the file that starts inside a page. `MapFile` maps the page
its start shares with the file, and no candidate is found for that mapping. -/
def bssSegments : List Phdr := [⟨true, 5, 0, 0x400000, 0x1A30⟩, ⟨true, 6, 0x1A30, 0x402A30, 0⟩]

theorem inferMappingBaseAddress_bss : mapFile 0 ⟨true, 6, 0x1A30, 0x402A30, 0⟩ = some (0x402000, 0x1000, 0x1000) ∧
      Mapped ⟨12, by decide⟩ 0 ⟨true, 6, 0x1A30, 0x402A30, 0⟩ 0x402000 0x1000 ∧
      inferMappingBaseAddress ⟨12, by decide⟩ bssSegments 0x402000 0x1000 6 = [] := by
  refine ⟨by decide, ⟨rfl, by decide, by decide, by decide, .inl (by decide)⟩, by decide⟩

end PowerArm.Elf
