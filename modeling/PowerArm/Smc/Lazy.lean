import PowerArm.Smc.Granules

/-!
# Deferred invalidation

With lazy invalidation a store fault records the page and unprotects it; with the W^X
deferral a guest mprotect to writable and not executable records the range. The blocks
go later, at a drain or at the mprotect that grants execution. Pages are guest page
numbers, a step is a call, and the fault handler is in two halves, since other
threads' calls may come between its record and its unprotect.
-/

namespace PowerArm.Smc

/-! ## Ranges -/

abbrev Pages := Nat → Bool

def alignDown (addr : Nat) : Nat := addr / guestPageSize * guestPageSize

def alignUp (addr : Nat) : Nat := (addr + guestPageSize - 1) / guestPageSize * guestPageSize

def codePages (base length : Nat) : Pages := fun p =>
  decide (base / guestPageSize ≤ p) && decide (p * guestPageSize < base + length)

def records (base top : Nat) : Pages := fun p =>
  decide (base ≤ p * guestPageSize) && decide (p * guestPageSize < top)

def granulePages (c : Config) (g : Nat) : Pages := fun p => decide (p / c.pagesPerGranule = g)

/-! ## State -/

structure Vma where
  writable : Bool
  executable : Bool
  shared : Bool := false
deriving DecidableEq, Repr

/-- `hostWritable` is what the host lets a store do; `live` pages have unguarded blocks.
`faulting` has the faults between their halves, by thread. -/
structure LazyState where
  vma : Nat → Option Vma := fun _ => none
  hostWritable : Pages := fun _ => false
  live : Pages := fun _ => false
  lazyDirty : Pages := fun _ => false
  deferred : Pages := fun _ => false
  table : Table := {}
  queue : Queue := []
  faulting : Nat → Option Nat := fun _ => none

structure LazyConfig extends Config where
  rearmSiblings : Bool := false

namespace LazyState

def invalidate (s : LazyState) (pages : Pages) : LazyState := { s with live := fun p => s.live p && !pages p }

def protect (s : LazyState) (pages : Pages) (writable : Bool) : LazyState :=
  { s with hostWritable := fun p => if pages p then writable else s.hostWritable p }

/-! ## The two sets -/

def markSMCLazyDirtyPages (s : LazyState) (pages : Pages) : LazyState :=
  { s with lazyDirty := fun p => s.lazyDirty p || pages p }

def clearSMCLazyDirtyRange (s : LazyState) (base top : Nat) : LazyState :=
  { s with lazyDirty := fun p => s.lazyDirty p && !records base top p }

def markSMCDeferredDirtyRange (s : LazyState) (base top : Nat) : LazyState :=
  { s with deferred := fun p => s.deferred p || records base top p }

def clearSMCDeferredDirtyRange (s : LazyState) (base top : Nat) : LazyState :=
  { s with deferred := fun p => s.deferred p && !records base top p }

def anyRecord (pages : Pages) (base top : Nat) : Bool :=
  (List.range' (base / guestPageSize) (top / guestPageSize + 1 - base / guestPageSize)).any fun p =>
    pages p && records base top p

variable (c : LazyConfig)

/-- The granules queued for re-arming first, then the dirty pages. -/
def drainSMCLazyDirtyPages (s : LazyState) : LazyState :=
  { s with
    live := fun p => s.live p && !s.queue.contains (p / c.pagesPerGranule) && !s.lazyDirty p
    lazyDirty := fun _ => false
    queue := [] }

def drainSMCLazyDirtyRange (s : LazyState) (base top : Nat) : LazyState :=
  (s.invalidate fun p => s.lazyDirty p && records base top p).clearSMCLazyDirtyRange base top

def noteGranuleRangeGone (s : LazyState) (base top : Nat) : LazyState :=
  if !c.enabled then s
  else { s with table := s.table.forget c.toConfig base top, queue := s.queue.drop c.toConfig base top }

/-! ## Compilation -/

/-- One page of `MarkGuestExecutableRange`: its granule is protected. -/
def arm (s : LazyState) (page : Nat) : LazyState :=
  { s.protect (granulePages c.toConfig (page / c.pagesPerGranule)) false with
    table := s.table.noteArmed c.toConfig (page / c.pagesPerGranule)
      ((1 : BitVec 32) <<< (page % c.pagesPerGranule)) }

/-- A block from an executable page. A page that has blocks is not marked again, and
those of a demoted granule are guarded. `mirrors` are the writable mirrors of a shared page. -/
def compile (s : LazyState) (page : Nat) (mirrors : List Nat) : LazyState :=
  match s.vma page with
  | none => s
  | some v =>
    if !v.executable || s.live page || s.table.validateOnly c.toConfig (page / c.pagesPerGranule) then s
    else
      let pages := (if v.writable then [page] else []) ++ (if v.shared then mirrors else [])
      let s := pages.foldl (arm c) s
      { s with live := Function.update s.live page true }

/-! ## Store faults -/

/-- What an invalidating fault settles: the granule, or the page when its siblings are queued. -/
def settledPages (page : Nat) (demoted : Bool) : Nat × Nat :=
  if c.rearmSiblings && !demoted then (page * guestPageSize, (page + 1) * guestPageSize)
  else
    let g := page / c.pagesPerGranule
    (g * c.granuleSize, (g + 1) * c.granuleSize)

/-- `HandleSegfault` up to the unprotect of the lazy path. `mirrors` are the mirrors of a shared
page, each with its write permission. -/
def fault (s : LazyState) (tid page : Nat) (now : BitVec 64)
    (mirrors : List (Nat × Bool)) : LazyState :=
  match s.vma page with
  | none => s
  | some v =>
    if !v.writable then s
    else
      let g := page / c.pagesPerGranule
      let (mask, demoted, table) := s.table.noteFault c.toConfig g now
      let siblings := mask &&& ~~~((1 : BitVec 32) <<< (page % c.pagesPerGranule))
      let s := { s with
        table
        queue := if c.rearmSiblings && !demoted && siblings != 0 then s.queue.add g else s.queue }
      let (base, top) := settledPages c page demoted
      if v.shared then
        let batch := (page, true) :: mirrors
        let s := s.invalidate fun p => batch.any fun m => granulePages c.toConfig (m.1 / c.pagesPerGranule) p
        let s := s.protect (fun p => batch.any fun m =>
          m.2 && granulePages c.toConfig (m.1 / c.pagesPerGranule) p) true
        s.clearSMCDeferredDirtyRange base top
      else if demoted then
        ((s.invalidate (granulePages c.toConfig g)).protect (granulePages c.toConfig g) true).clearSMCDeferredDirtyRange
          base top
      else
        -- recorded before it is unprotected
        { s.markSMCLazyDirtyPages fun p => p == page ||
            (granulePages c.toConfig g p && mask.getLsbD (p % c.pagesPerGranule)) with
          faulting := Function.update s.faulting tid (some page) }

/-- The rest of the lazy path. `fallback`: the other threads could not be armed, so that the
handler drains. -/
def unprotect (s : LazyState) (tid : Nat) (fallback : Bool) : LazyState :=
  match s.faulting tid with
  | none => s
  | some page =>
    let s := { s.protect (granulePages c.toConfig (page / c.pagesPerGranule)) true with
      faulting := Function.update s.faulting tid none }
    if fallback then
      let (base, top) := settledPages c page false
      (drainSMCLazyDirtyPages c s).clearSMCDeferredDirtyRange base top
    else s

/-! ## Guest calls -/

/-- The range is of whole host pages; any other is refused or emulated elsewhere. -/
def whole (addr length : Nat) : Bool :=
  addr % c.granuleSize == 0 && (addr + alignUp length) % c.granuleSize == 0

def setVma (s : LazyState) (pages : Pages) (f : Option Vma → Option Vma) : LazyState :=
  { s with vma := fun p => if pages p then f (s.vma p) else s.vma p }

def maxDeferredMprotectSize : Nat := 4 * 1024 * 1024

/-- What `::mprotect` does; it may fail with its first host pages changed. -/
inductive Kernel
  | ok
  | fails (changed : Nat)
deriving DecidableEq, Repr

def guestMprotect (s : LazyState) (addr len : Nat) (write exec : Bool) (kernel : Kernel) :
    LazyState :=
  if !whole c addr len then s
  else
    match kernel with
    | .fails changed => s.protect (codePages addr (min (changed * c.granuleSize) len)) write
    | .ok =>
      let s := s.protect (codePages addr len) write
      let s := s.setVma (codePages addr len) (Option.map fun v => { v with writable := write, executable := exec })
      let base := alignDown addr
      let top := alignUp (addr + len)
      let defers := !exec && write && decide (top - base ≤ maxDeferredMprotectSize)
      let s := if defers then s.markSMCDeferredDirtyRange base top
        else s.clearSMCDeferredDirtyRange base top
      let s := if exec then s.drainSMCLazyDirtyRange base top else s.clearSMCLazyDirtyRange base top
      if defers then s else s.invalidate (codePages addr len)

def retire (s : LazyState) (addr size : Nat) : LazyState :=
  let base := alignDown addr
  let top := alignUp (addr + size)
  let s := s.clearSMCDeferredDirtyRange base top
  let s := s.noteGranuleRangeGone c base top
  let s := s.clearSMCLazyDirtyRange base top
  s.invalidate (codePages addr size)

def guestMmap (s : LazyState) (addr length : Nat) (v : Vma) : LazyState :=
  if !whole c addr length || length == 0 then s
  else
    let size := alignUp length
    let s := (s.protect (codePages addr size) v.writable).setVma (codePages addr size) fun _ => some v
    s.retire c addr size

def guestMunmap (s : LazyState) (addr length : Nat) : LazyState :=
  if !whole c addr length || length == 0 then s
  else
    let size := alignUp length
    let s := (s.protect (codePages addr size) false).setVma (codePages addr size) fun _ => none
    s.retire c addr size

/-- The kernel's part of an mremap: the mapping of the old range, of one protection, is
now that of the new range. -/
def remap (s : LazyState) (old oldSize newSize new : Nat) (dontUnmap : Bool) : LazyState :=
  let kept := if new = old ∨ dontUnmap then newSize else 0
  let gone : Pages := fun p => codePages old oldSize p && !(codePages old kept p)
  let vma := s.vma (old / guestPageSize)
  let writable := s.hostWritable (old / guestPageSize)
  let s := (s.setVma gone fun _ => none).protect gone false
  let moved : Pages := fun p => codePages new newSize p && !(decide (new = old) && codePages old oldSize p)
  (s.setVma moved fun _ => vma).protect moved writable

def invalidateOnRemap (s : LazyState) (old new oldSize newSize : Nat) : LazyState :=
  if old ≠ new then
    let s := if oldSize ≠ 0 then s.invalidate (codePages old oldSize) else s
    if newSize ≠ 0 then s.invalidate (codePages new newSize) else s
  else if newSize < oldSize then s.invalidate (codePages (old + newSize) (oldSize - newSize))
  else s

/-- A call that the kernel grants with the address `new`. In place it grows into free pages only. -/
def guestMremap (s : LazyState) (old oldSize newSize new : Nat) (dontUnmap : Bool) : LazyState :=
  let grown := (List.range' ((old + oldSize) / guestPageSize) ((newSize - oldSize) / guestPageSize + 2)).any
    fun p => codePages old newSize p && !codePages old oldSize p && (s.vma p).isSome
  if !whole c old oldSize || !whole c new newSize || newSize == 0 || (decide (new = old) && grown) then s
  else
    let s := s.remap old oldSize newSize new dontUnmap
    let s := s.invalidateOnRemap old new oldSize newSize
    let oldBase := alignDown old
    let oldTop := alignUp (old + oldSize)
    let newBase := alignDown new
    let newTop := alignUp (new + newSize)
    let s := s.clearSMCDeferredDirtyRange oldBase oldTop
    let settle := anyRecord s.deferred newBase newTop
    let s := s.clearSMCDeferredDirtyRange newBase newTop
    let s := if settle then s.invalidate (codePages newBase (newTop - newBase)) else s
    let s := (s.noteGranuleRangeGone c oldBase oldTop).noteGranuleRangeGone c newBase newTop
    let s := s.clearSMCLazyDirtyRange oldBase oldTop
    let settle := anyRecord s.lazyDirty newBase newTop
    let s := s.clearSMCLazyDirtyRange newBase newTop
    if settle then s.invalidate (codePages newBase (newTop - newBase)) else s

/-! ## Runs -/

inductive Op
  | mmap (addr length : Nat) (v : Vma)
  | munmap (addr length : Nat)
  | mprotect (addr len : Nat) (write exec : Bool) (kernel : Kernel)
  | mremap (old oldSize newSize new : Nat) (dontUnmap : Bool)
  | compile (page : Nat) (mirrors : List Nat)
  | fault (tid page : Nat) (now : BitVec 64) (mirrors : List (Nat × Bool))
  | unprotect (tid : Nat) (fallback : Bool)
  | drain

def step (s : LazyState) : Op → LazyState
  | .mmap addr length v => s.guestMmap c addr length v
  | .munmap addr length => s.guestMunmap c addr length
  | .mprotect addr len write exec kernel => guestMprotect c s addr len write exec kernel
  | .mremap old oldSize newSize new dontUnmap => guestMremap c s old oldSize newSize new dontUnmap
  | .compile page mirrors => compile c s page mirrors
  | .fault tid page now mirrors => fault c s tid page now mirrors
  | .unprotect tid fallback => unprotect c s tid fallback
  | .drain => drainSMCLazyDirtyPages c s

def run (ops : List Op) : LazyState := ops.foldl (step c) {}

end LazyState

end PowerArm.Smc
