import PowerArm.Smc.GranulesLaws
import PowerArm.Smc.Lazy

/-!
# Deferred invalidations are settled

A page with live blocks that is open, to the guest now or at the second half of a fault,
is recorded, in the lazy or in the deferred set, and a page leaves the sets only with its
blocks gone. `Settles` is what a step may do; the invariant and the theorem follow from it.
The steps that break it are named by `Tidy`: an mremap in place forgets the records of the
part it keeps, a failed mprotect leaves the pages it has changed unrecorded, a fault records
the tracked pages of its granule only, and a block compiled between the halves of a fault
is unprotected without a record.
-/

namespace PowerArm.Smc

open PowerArm.Lib

/-! ## Ranges -/

theorem codePages_aligned (addr len : Nat) :
    codePages (alignDown addr) (alignUp (addr + len) - alignDown addr) = codePages addr len := by
  funext p
  unfold codePages alignDown alignUp guestPageSize
  rw [← Bool.decide_and, ← Bool.decide_and, decide_eq_decide]
  omega

namespace LazyState

variable {c : LazyConfig} {s s' : LazyState}

section
variable (c : LazyConfig) (s : LazyState) (base top : Nat)

end

/-! ## What a step may do -/

def Recorded (s : LazyState) (p : Nat) : Prop := s.lazyDirty p = true ∨ s.deferred p = true

/-- A fault of the page's granule is between its halves. -/
def Opening (c : LazyConfig) (s : LazyState) (p : Nat) : Prop :=
  ∃ tid page, s.faulting tid = some page ∧ granulePages c.toConfig (page / c.pagesPerGranule) p = true

def Open (c : LazyConfig) (s : LazyState) (p : Nat) : Prop := s.hostWritable p = true ∨ s.Opening c p

structure Sound (c : LazyConfig) (s : LazyState) : Prop where
  recorded : ∀ p, s.live p = true → s.Open c p → s.Recorded p
  mapped : ∀ p, s.live p = true → (s.vma p).isSome = true

/-- New blocks are behind a protection or recorded, a record goes with the blocks of its
page, and a live page is opened with a record. -/
structure Settles (c : LazyConfig) (s s' : LazyState) : Prop where
  live : ∀ p, s'.live p = true → s.live p = true ∨ (s'.Open c p → s'.Recorded p) ∧ (s'.vma p).isSome = true
  leaves : ∀ p, s.Recorded p → s'.live p = true → s'.Recorded p
  opens : ∀ p, s'.live p = true → s'.Open c p → s.Open c p ∨ s'.Recorded p
  mapped : ∀ p, s'.live p = true → (s.vma p).isSome = true → (s'.vma p).isSome = true

theorem Sound.settles (h : s.Sound c) (hs : Settles c s s') : s'.Sound c where
  recorded p hlive hopen := by
    obtain hbefore | hrecorded := hs.opens p hlive hopen
    · obtain hold | ⟨hnew, -⟩ := hs.live p hlive
      · exact hs.leaves p (h.recorded p hold hbefore) hlive
      · exact hnew hopen
    · exact hrecorded
  mapped p hlive := by
    obtain hold | ⟨-, hmapped⟩ := hs.live p hlive
    · exact hs.mapped p hlive (h.mapped p hold)
    · exact hmapped

theorem Settles.refl (c : LazyConfig) (s : LazyState) : Settles c s s :=
  ⟨fun _ => .inl, fun _ h _ => h, fun _ _ => .inl, fun _ _ => id⟩

/-- The live pages that the step leaves writable are recorded, or it does not forget
their records. -/
def Tidy (c : LazyConfig) (s : LazyState) : Op → Prop
  | .mprotect addr len write _ (.fails changed) => write = true → ∀ p,
    codePages addr (min (changed * c.granuleSize) len) p = true → s.live p = true → s.Recorded p
  | .mremap old oldSize newSize new _ => new = old → ∀ p,
    codePages old (min oldSize newSize) p = true → s.live p = true → ¬s.Recorded p
  | .compile page _ => (s.hostWritable page = true → ∀ v, s.vma page = some v → v.writable = true) ∧
    (s.Opening c page → s.Recorded page)
  | .fault _ page _ _ => ∀ v, s.vma page = some v → v.shared = false → ∀ p,
    granulePages c.toConfig (page / c.pagesPerGranule) p = true → s.live p = true → p ≠ page →
      Tracked c.toConfig s.table p ∨ s.Recorded p
  | .unprotect tid fallback => ∀ page, s.faulting tid = some page → fallback = true → ∀ p,
    records (settledPages c page false).1 (settledPages c page false).2 p = true →
      s.live p = true → s.deferred p = true → s.lazyDirty p = true
  | .mprotect _ _ _ _ .ok | .mmap .. | .munmap .. | .drain => True

/-! ## The steps -/

theorem sound_init : Sound c {} := ⟨nofun, nofun⟩

end LazyState

end PowerArm.Smc
