import PowerArm.Alloc64.FlexBitSet
import PowerArm.Utils.HostPage

/-!
# The 64-bit region allocator

`OSAllocator_64Bit` without `MAP_FIXED`. It is given regions of address space. A region
is made live on first use: its head then holds the `LiveVMARegion` with the bitmap of
the region's pages. Kernel calls succeed but for an `mmap` of no bytes.
-/

namespace PowerArm.Alloc64

open FlexBitSet (BitsetScanResults backwardScanForRange forwardScanForRange)

def lowerBound : Nat := 2 ^ 32

structure ReservedVMARegion where
  base : Nat
  regionSize : Nat
deriving DecidableEq, Repr

namespace ReservedVMARegion
variable (r : ReservedVMARegion)

def regionEnd : Nat := r.base + r.regionSize

def fits (addr addrEnd : Nat) : Bool := r.base ≤ addr ∧ addrEnd < r.regionEnd

end ReservedVMARegion

structure LiveVMARegion where
  slabInfo : ReservedVMARegion
  freeSpace : Nat
  numManagedPages : Nat
  lastPageAllocation : Nat
  hadMunmap : Bool
  usedPages : FlexBitSet

structure State where
  reserved : List ReservedVMARegion
  live : List LiveVMARegion

def extract (p : α → Bool) : List α → Option (α × List α)
  | [] => none
  | x :: xs => if p x then some (x, xs) else (extract p xs).map fun (y, ys) => (y, x :: ys)

section
variable (page : HostPage)

/-- `sizeof(LiveVMARegion)` is 4096 whatever the host page is. -/
def getFEXManagedVMARegionSize (size : Nat) : Nat := 4096 + FlexBitSet.sizeInBytes (size / page.size)

def sizeOfLiveRegion (size : Nat) : Nat := page.alignUp (getFEXManagedVMARegionSize page size)

def initializeVMARegionUsed (slab : ReservedVMARegion) (additionalSize : Nat) : LiveVMARegion :=
  let sizePlusManagedData := sizeOfLiveRegion page slab.regionSize + additionalSize
  let numManagedPages := sizePlusManagedData / page.size
  { slabInfo := slab
    freeSpace := slab.regionSize - sizePlusManagedData
    numManagedPages := numManagedPages
    lastPageAllocation := numManagedPages % 2 ^ 32
    hadMunmap := false
    usedPages := FlexBitSet.memSet (fun _ => false) numManagedPages }

/-- `MakeRegionActive` on the first reserved region that satisfies a predicate. -/
def makeRegionActive (p : ReservedVMARegion → Bool) (s : State) : Option State :=
  (extract p s.reserved).map fun (slab, rest) => ⟨rest, s.live ++ [initializeVMARegionUsed page slab 0]⟩

/-- `FindLiveRegionForAddress`: the region is afterwards the first live one that fits. -/
def findLiveRegionForAddress (addr addrEnd : Nat) (s : State) : State :=
  if s.live.any fun r => r.slabInfo.fits addr addrEnd then s
  else (makeRegionActive page (fun r => r.fits addr addrEnd) s).getD s

/-- `overwritten`: the kernel has put zero pages over the region's own header or bitmap. What
the allocator reads there from then on is lost. -/
inductive RangeResult where
  | none
  | mapFailed
  | overwritten
  | mapped (ptr : Nat)
deriving DecidableEq, Repr

/-- Where a search starts: at the hint, or at the page after the last allocation. -/
def scanStart (r : LiveVMARegion) : Option Nat → Nat
  | some addr => (addr - r.slabInfo.base) / page.size
  | .none => r.lastPageAllocation

/-- A scan of the bitmap in memory, where every element has a value. -/
def scanned (result : Option BitsetScanResults) : BitsetScanResults := result.getD ⟨.none, false⟩

def checkIfRangeFits (r : LiveVMARegion) (length : Nat) (startingPosition : Option Nat) :
    LiveVMARegion × RangeResult :=
  let numberOfPages := length / page.size
  if length ≤ r.freeSpace then
    let lastAllocation := scanStart page r startingPosition
    let backward := scanned (backwardScanForRange (some ∘ r.usedPages) lastAllocation numberOfPages r.numManagedPages)
    -- without a hole for a single page the next search is forward again
    let hadMunmap := r.hadMunmap && (backward.foundElement.isSome || backward.foundHole)
    let forward :=
      scanned (forwardScanForRange (some ∘ r.usedPages) lastAllocation numberOfPages (r.slabInfo.regionSize / page.size))
    let allocatedPage := (if r.hadMunmap then backward.foundElement else .none).orElse fun _ => forward.foundElement
    let r := { r with hadMunmap := hadMunmap }
    match allocatedPage with
    | .none => (r, .none)
    | some allocatedPage =>
      if length = 0 then (r, .mapFailed)
      else if allocatedPage < r.numManagedPages then (r, .overwritten)
      else (r, .mapped (r.slabInfo.base + allocatedPage * page.size))
  else (r, .none)

def markUsed (r : LiveVMARegion) (allocatedOffset numberOfPages : Nat) : LiveVMARegion :=
  let mappedBegin := (allocatedOffset - r.slabInfo.base) / page.size
  let (usedPages, pagesSet) := r.usedPages.setRange mappedBegin numberOfPages
  { r with
    usedPages := usedPages
    lastPageAllocation := (mappedBegin + numberOfPages) % 2 ^ 32
    freeSpace := r.freeSpace - pagesSet * page.size }

def tryHint (addr addrEnd length : Nat) : List LiveVMARegion → List LiveVMARegion × RangeResult
  | [] => ([], .none)
  | r :: rest =>
    if r.slabInfo.fits addr addrEnd then
      match checkIfRangeFits page r length (some addr) with
      | (r, .mapped ptr) =>
        if ptr = addr then (markUsed page r ptr (length / page.size) :: rest, .mapped ptr) else (r :: rest, .none)
      | (r, result) => (r :: rest, result)
    else
      let (rest, result) := tryHint addr addrEnd length rest
      (r :: rest, result)

def tryRegions (length : Nat) : List LiveVMARegion → List LiveVMARegion × RangeResult
  | [] => ([], .none)
  | r :: rest =>
    match checkIfRangeFits page r length .none with
    | (r, .mapped ptr) => (markUsed page r ptr (length / page.size) :: rest, .mapped ptr)
    | (r, .mapFailed) => (r :: rest, .mapFailed)
    | (r, .overwritten) => (r :: rest, .overwritten)
    | (r, .none) =>
      let (rest, result) := tryRegions length rest
      (r :: rest, result)

/-- A region that can hold a range with the data to manage it is made live while the
live ones have no place. -/
def place (length : Nat) : Nat → State → State × RangeResult
  | fuel, s =>
    let (live, result) := tryRegions page length s.live
    let s := { s with live := live }
    match fuel, result with
    | fuel + 1, .none =>
      match makeRegionActive page (fun r => (length + sizeOfLiveRegion page length) % 2 ^ 64 ≤ r.regionSize) s with
      | some s => place length fuel s
      | .none => (s, .none)
    | _, result => (s, result)

inductive Errno where
  | einval | eoverflow | enomem
deriving DecidableEq, Repr

inductive Result where
  | toKernel
  | error (errno : Errno)
  | overwritten
  | ok (ptr : Nat)
deriving DecidableEq, Repr

def RangeResult.toResult : RangeResult → Result
  | .none => .error .enomem
  | .mapFailed => .error .einval
  | .overwritten => .overwritten
  | .mapped ptr => .ok ptr

/-- `Mmap` without `MAP_FIXED`; `fileOffset` is `none` where there is no file. -/
def mmap (s : State) (hint size : Nat) (fileOffset : Option Nat) : State × Result :=
  if hint ≠ 0 ∧ hint < lowerBound then (s, .toKernel)
  else
    let addr := page.alignDown hint
    if fileOffset.any fun offset => offset % page.size ≠ 0 then (s, .error .einval)
    else if 2 ^ 64 ≤ addr + size then (s, .error .eoverflow)
    else
      let length := page.alignUp size
      let addrEnd := (addr + length) % 2 ^ 64
      let (s, result) :=
        if addr = 0 then (s, RangeResult.none)
        else
          let s := findLiveRegionForAddress page addr addrEnd s
          let (live, result) := tryHint page addr addrEnd length s.live
          ({ s with live := live }, result)
      match result with
      | .none =>
        let (s, result) := place page length s.reserved.length s
        (s, result.toResult)
      | result => (s, result.toResult)

def unmapRegions (ptrBegin ptrEnd length : Nat) : List LiveVMARegion → List LiveVMARegion
  | [] => []
  | r :: rest =>
    if r.slabInfo.base ≤ ptrBegin ∧ ptrEnd ≤ r.slabInfo.regionEnd then
      let slabPageBegin := (ptrBegin - r.slabInfo.base) / page.size % 2 ^ 32
      let (usedPages, freedPages) := r.usedPages.clearRange slabPageBegin (length / page.size)
      { r with
        usedPages := usedPages
        freeSpace := r.freeSpace + freedPages * page.size
        lastPageAllocation := min r.lastPageAllocation slabPageBegin
        hadMunmap := true } :: rest
    else r :: unmapRegions ptrBegin ptrEnd length rest

def munmap (s : State) (addr size : Nat) : State × Result :=
  if addr < lowerBound then (s, .toKernel)
  else if addr % page.size ≠ 0 then (s, .error .einval)
  else if 2 ^ 64 ≤ addr + size then (s, .error .eoverflow)
  else
    let length := page.alignUp size
    ({ s with live := unmapRegions page addr ((addr + length) % 2 ^ 64) length s.live }, .ok 0)

/-! ## Runs -/

inductive Call where
  | mmap (hint size : Nat) (fileOffset : Option Nat)
  | munmap (addr size : Nat)

structure Run where
  state : State
  outstanding : List (Nat × Nat) := []
  overwritten : Bool := false

def Run.step (run : Run) : Call → Run
  | .mmap hint size fileOffset =>
    let (s, result) := mmap page run.state hint size fileOffset
    match result with
    | .ok ptr => { run with state := s, outstanding := (ptr, size) :: run.outstanding }
    | .overwritten => { run with state := s, overwritten := true }
    | _ => { run with state := s }
  | .munmap addr size =>
    { run with state := (munmap page run.state addr size).1, outstanding := run.outstanding.erase (addr, size) }

end

end PowerArm.Alloc64
