import PowerArm.Vma.Mirrors
import PowerArm.Lib.Run

/-!
# The memo of pages that need no marking

`MarkGuestExecutableRange` walks the tracked map and write-protects what may
change under compiled code. For a page where there is nothing to do it leaves a
word in a small table, stamped with the generation of the map, and the next call
for the page returns when it finds the word of the generation it has sampled.

The stamp keeps 32 bits of the generation. `run_hit_quiet` says that a hit is
right as long as every sample is used, by a publication or by a query, before
those bits wrap; `publish_afterWrap` is a publication that comes too late.
-/

namespace PowerArm.Vma

open Function (update update_of_ne update_self)

open Lib (Admissible admissible_append foldl_invariant)

/-! ## MarkGuestExecutableRange -/

def guestPageSize : Nat := 0x1000

structure SMCState where
  smcDetectionDisabled : Bool
  /-- `SMCFileImmutableActive`, and the resource has not been revoked. -/
  fileImmutable : ResourceId → Bool
  granuleRangeDemoted : Nat → Nat → Bool

inductive MarkAction where
  | protect (base size : Nat)
  | immutableSkipped (base top : Nat)
deriving DecidableEq, Repr

namespace VMATracking

/-- The part of `[offsetBase, offsetTop)` that `v` maps, if the guest may write there. -/
def protectMirror (offsetBase offsetTop : Int) (v : VMAEntry) : Option MarkAction :=
  if v.prot.writable ∧ v.offset < offsetTop ∧ offsetBase < v.offset + v.length then
    let mirrored := max v.offset offsetBase
    let size := min offsetTop (v.offset + v.length) - mirrored
    some (.protect (mirrored - v.offset + v.base).toNat size.toNat)
  else none

/-- The walk over a resource's list; the list has no more nodes than the map. -/
def protectMirrors (s : VMATracking) (offsetBase offsetTop : Int) : Nat → Option Nat → List MarkAction
  | fuel + 1, some key =>
    ((s.entryAt key).bind (protectMirror offsetBase offsetTop)).toList ++
      protectMirrors s offsetBase offsetTop fuel (s.links.next key)
  | _, _ => []

def markMapping (smc : SMCState) (s : VMATracking) (base top : Nat) (v : VMAEntry) : List MarkAction × Bool :=
  let protectBase := max v.base base
  let protectSize := min v.top top - protectBase
  if v.shared then
    if smc.granuleRangeDemoted protectBase protectSize then ([], false)
    else
      let offsetBase : Int := protectBase - v.base + v.offset
      (s.protectMirrors offsetBase (offsetBase + protectSize) s.vmas.length (v.resource.bind s.firstVMA), false)
  else if v.prot.writable then
    if smc.smcDetectionDisabled && v.prot.executable then ([], false)
    else if v.resource.any smc.fileImmutable then
      ([.immutableSkipped protectBase (protectBase + protectSize)], false)
    else if smc.granuleRangeDemoted protectBase protectSize then ([], false)
    else ([.protect protectBase protectSize], false)
  else ([], true)

def markLoop (smc : SMCState) (s : VMATracking) (base top : Nat) : List VMAEntry → List MarkAction × Bool
  | [] => ([], true)
  | v :: rest =>
    if v.top ≤ base then ([], true)
    else
      let here := s.markMapping smc base top v
      let below := markLoop smc s base top rest
      (here.1 ++ below.1, here.2 && below.2)

def markGuestExecutablePage (smc : SMCState) (s : VMATracking) (page : Nat) : List MarkAction × Bool :=
  let base := page * guestPageSize
  let top := base + guestPageSize
  markLoop smc s base top (s.below top).reverse

end VMATracking

/-! ## The table -/

def markNoOpEntries : Nat := 2 ^ 9
def genField : Nat := 2 ^ 32

def markNoOpIndex (page : Nat) : Nat := page % markNoOpEntries

/-- The word for a page and a generation. The tag is shifted past the generation's
bits, so the two do not overlap. -/
def encodeMarkNoOp (page gen : Nat) : Option Nat :=
  let tag := page / markNoOpEntries
  if tag / genField ≠ 0 then none
  else
    let entry := tag * genField + gen % genField
    if entry ≠ 0 then some entry else none

/-- A thread's call: the generation it has sampled, and the page its walk found
nothing to do for. -/
structure Sampler where
  generation : Option Nat := none
  quietPage : Option Nat := none

/-- The map, its version, and the table. Nothing reads more of the generation than
its low 32 bits, so it need not be cut to 64. `mapAt` is the history: the map that
was current at each generation. -/
structure MemoState where
  map : VMATracking := {}
  generation : Nat := 1
  cache : Nat → Nat := fun _ => 0
  samplers : Nat → Sampler := fun _ => {}
  mapAt : Nat → VMATracking := fun _ => {}

namespace MemoState

def bumpGeneration (s : MemoState) : MemoState :=
  let new := s.generation + 1
  if new % genField = 0 then { s with generation := new + 1, cache := fun _ => 0 }
  else { s with generation := new }

def isMarkNoOp (s : MemoState) (page gen : Nat) : Bool :=
  match encodeMarkNoOp page gen with
  | none => false
  | some entry => s.cache (markNoOpIndex page) == entry

def recordMarkNoOp (s : MemoState) (page gen : Nat) : MemoState :=
  match encodeMarkNoOp page gen with
  | none => s
  | some entry => { s with cache := update s.cache (markNoOpIndex page) entry }

end MemoState

inductive MemoOp where
  | mutate (map : VMATracking)
  | sample (thread : Nat)
  | walk (thread : Nat) (smc : SMCState) (page : Nat)
  | publish (thread : Nat)
  | query (thread page : Nat)

namespace MemoState

def setSampler (s : MemoState) (thread : Nat) (sampler : Sampler) : MemoState :=
  { s with samplers := update s.samplers thread sampler }

def step (s : MemoState) : MemoOp → MemoState
  | .mutate map =>
    let s := s.bumpGeneration
    { s with map, mapAt := update s.mapAt s.generation map }
  | .sample t => s.setSampler t { generation := some s.generation }
  | .walk t smc page =>
    let quiet := (s.map.markGuestExecutablePage smc page).2
    s.setSampler t { s.samplers t with quietPage := if quiet then some page else none }
  | .publish t =>
    match s.samplers t with
    | ⟨some gen, some page⟩ => s.recordMarkNoOp page gen
    | _ => s
  | .query _ _ => s

def Hit (s : MemoState) (t page gen : Nat) : Prop :=
  (s.samplers t).generation = some gen ∧ s.isMarkNoOp page gen = true

end MemoState

/-- Marking the page would do nothing, in whatever state the rest is. -/
def Quiet (map : VMATracking) (page : Nat) : Prop := ∀ smc, (map.markGuestExecutablePage smc page).1 = []

/-- The field of the generation has not wrapped since the thread's sample. -/
def FreshSample (s : MemoState) (t : Nat) : Prop :=
  ∀ gen ∈ (s.samplers t).generation, gen / genField = s.generation / genField

/-- A sample is taken under the lock of the walk, and is used before the field wraps. -/
def MemoOp.Timely (s : MemoState) : MemoOp → Prop
  | .walk t _ _ => (s.samplers t).generation = some s.generation
  | .publish t => FreshSample s t
  | .query t _ => FreshSample s t
  | _ => True

/-! ## Walks -/

section
variable {map : VMATracking} {v : VMAEntry}

theorem markMapping_quiet : (map.markMapping smc base top v).2 ↔ v.shared = false ∧ v.prot.writable = false := by
  unfold VMATracking.markMapping
  by_cases hs : v.shared
  · rw [if_pos hs, hs]
    split <;> simp
  · by_cases hw : v.prot.writable
    · rw [if_neg hs, if_pos hw, hw]
      split
      · simp
      · split
        · simp
        · split <;> simp
    · simp [hs, hw]

theorem markMapping_actions (hs : v.shared = false) (hw : v.prot.writable = false) :
    (map.markMapping smc base top v).1 = [] := by
  simp [VMATracking.markMapping, hs, hw]

/-- A walk that finds nothing to do would find nothing in any other state of the SMC
tracking either: it only passed private mappings that cannot be written. -/
theorem markLoop_quiet (smc' : SMCState)
    (h : (map.markLoop smc base top l).2) : (map.markLoop smc' base top l).1 = [] := by
  induction l with
  | nil => rfl
  | cons v rest ih =>
    unfold VMATracking.markLoop at h ⊢
    split
    · rfl
    · rename_i hover
      simp only [if_neg hover, Bool.and_eq_true] at h
      obtain ⟨hs, hw⟩ := markMapping_quiet.mp h.1
      simp [markMapping_actions hs hw, ih h.2]

theorem quiet_of_walk (h : (map.markGuestExecutablePage smc page).2) : Quiet map page :=
  fun smc' => markLoop_quiet smc' h

end

/-! ## Words -/

theorem encodeMarkNoOp_some (h : encodeMarkNoOp page gen = some entry) :
    page / markNoOpEntries < genField ∧ entry ≠ 0 ∧ entry = page / markNoOpEntries * genField + gen % genField := by
  unfold encodeMarkNoOp at h
  simp only at h
  split at h
  · cases h
  · rename_i htag
    split at h
    · rename_i hne
      rw [← Option.some.inj h]
      refine ⟨?_, hne, rfl⟩
      simp only [genField] at htag ⊢
      omega
    · cases h

theorem encodeMarkNoOp_inj (h : encodeMarkNoOp page gen = some entry)
    (h' : encodeMarkNoOp page' gen' = some entry) (hindex : markNoOpIndex page = markNoOpIndex page') :
    page = page' ∧ gen % genField = gen' % genField := by
  obtain ⟨-, -, he⟩ := encodeMarkNoOp_some h
  obtain ⟨-, -, he'⟩ := encodeMarkNoOp_some h'
  rw [he] at he'
  simp only [markNoOpIndex, markNoOpEntries, genField] at hindex he' ⊢
  omega

/-! ## Runs -/

/-- Every word of the table is right for the generation it was stamped with, which
is of the field's current turn; so is every walk that waits to be published. -/
structure MemoInv (s : MemoState) : Prop where
  current : s.mapAt s.generation = s.map
  words : ∀ i, s.cache i ≠ 0 → ∃ page gen, markNoOpIndex page = i ∧
    encodeMarkNoOp page gen = some (s.cache i) ∧ gen / genField = s.generation / genField ∧
    gen ≤ s.generation ∧ Quiet (s.mapAt gen) page
  samples : ∀ t gen, (s.samplers t).generation = some gen → gen ≤ s.generation ∧
    ∀ page, (s.samplers t).quietPage = some page → Quiet (s.mapAt gen) page

open MemoState

theorem memoInv_init : MemoInv {} where
  current := rfl
  words i h := absurd rfl h
  samples t gen h := by cases h

theorem bumpGeneration_lt (s : MemoState) : s.generation < s.bumpGeneration.generation := by
  unfold bumpGeneration
  simp only
  split
  · exact Nat.lt_succ_of_lt (Nat.lt_succ_self _)
  · exact Nat.lt_succ_self _

theorem bumpGeneration_words {s : MemoState} (h : s.bumpGeneration.cache i ≠ 0) :
    s.bumpGeneration.cache i = s.cache i ∧ s.bumpGeneration.generation / genField = s.generation / genField := by
  unfold bumpGeneration at h ⊢
  simp only at h ⊢
  split
  · rename_i hwrap
    simp [hwrap] at h
  · rename_i hstay
    refine ⟨rfl, ?_⟩
    simp only [genField] at hstay ⊢
    omega

theorem MemoInv.mutate {s : MemoState} (H : MemoInv s) (map : VMATracking) : MemoInv (s.step (.mutate map)) := by
  have hlt := bumpGeneration_lt s
  have hsame : s.bumpGeneration.mapAt = s.mapAt ∧ s.bumpGeneration.samplers = s.samplers := by
    unfold bumpGeneration
    simp only
    split <;> exact ⟨rfl, rfl⟩
  -- the history below the new generation stays
  have hold : ∀ gen ≤ s.generation, (s.step (.mutate map)).mapAt gen = s.mapAt gen := by
    intro gen hgen
    simp only [MemoState.step]
    rw [update_of_ne (hgen.trans_lt hlt).ne, hsame.1]
  refine ⟨by simp [MemoState.step], ?_, ?_⟩
  · intro i hi
    obtain ⟨hcache, hturn⟩ := bumpGeneration_words hi
    obtain ⟨page, gen, hindex, hword, hgturn, hle, hquiet⟩ := H.words i (hcache ▸ hi)
    refine ⟨page, gen, hindex, ?_, ?_, hle.trans hlt.le, ?_⟩
    · exact hword.trans (congrArg some hcache.symm)
    · exact hgturn.trans hturn.symm
    · exact (hold gen hle).symm ▸ hquiet
  · intro t gen hgen
    have hgen' : (s.samplers t).generation = some gen := hsame.2 ▸ hgen
    obtain ⟨hle, hquiet⟩ := H.samples t gen hgen'
    refine ⟨hle.trans hlt.le, fun page hpage => ?_⟩
    have hpage' : (s.samplers t).quietPage = some page := hsame.2 ▸ hpage
    exact (hold gen hle).symm ▸ hquiet page hpage'

theorem MemoInv.setSampler (H : MemoInv s) (h : ∀ gen, sampler.generation = some gen → gen ≤ s.generation ∧
      ∀ page, sampler.quietPage = some page → Quiet (s.mapAt gen) page) (t : Nat) :
    MemoInv (s.setSampler t sampler) := by
  refine ⟨H.current, H.words, fun t' gen hgen => ?_⟩
  simp only [MemoState.setSampler] at hgen ⊢
  by_cases ht : t' = t
  · subst ht
    rw [update_self] at hgen ⊢
    exact h gen hgen
  · rw [update_of_ne ht] at hgen ⊢
    exact H.samples t' gen hgen

theorem MemoInv.recordMarkNoOp (H : MemoInv s) (hle : gen ≤ s.generation)
    (hturn : gen / genField = s.generation / genField) (hquiet : Quiet (s.mapAt gen) page) :
    MemoInv (s.recordMarkNoOp page gen) := by
  unfold MemoState.recordMarkNoOp
  split
  · exact H
  · rename_i entry hentry
    refine ⟨H.current, fun i hi => ?_, H.samples⟩
    simp only at hi ⊢
    by_cases hslot : i = markNoOpIndex page
    · subst hslot
      rw [update_self]
      exact ⟨page, gen, rfl, hentry, hturn, hle, hquiet⟩
    · rw [update_of_ne hslot] at hi ⊢
      exact H.words i hi

theorem step_memoInv (H : MemoInv s) (hok : op.Timely s) : MemoInv (s.step op) := by
  cases op with
  | mutate map => exact H.mutate map
  | sample t =>
    refine H.setSampler (fun gen hgen => ?_) t
    cases hgen
    exact ⟨Nat.le_refl _, fun page hpage => by cases hpage⟩
  | walk t smc page =>
    refine H.setSampler (fun gen hgen => ?_) t
    -- the sample is of the map that was walked
    cases Option.some.inj (hgen.symm.trans hok)
    refine ⟨Nat.le_refl _, fun page' hpage => ?_⟩
    split at hpage
    · rename_i hquiet
      cases hpage
      exact H.current.symm ▸ quiet_of_walk hquiet
    · cases hpage
  | publish t =>
    simp only [MemoState.step]
    split
    · rename_i gen page hsampler
      have hgen : (s.samplers t).generation = some gen := by rw [hsampler]
      obtain ⟨hle, hquiet⟩ := H.samples t gen hgen
      exact H.recordMarkNoOp hle (hok gen hgen) (hquiet page (by rw [hsampler]))
    · exact H
  | query t page => exact H

theorem MemoInv.hit (H : MemoInv s) (hfresh : FreshSample s t)
    (hhit : s.Hit t page gen) : Quiet (s.mapAt gen) page := by
  obtain ⟨hgen, hfound⟩ := hhit
  unfold isMarkNoOp at hfound
  split at hfound
  · cases hfound
  · rename_i entry hentry
    have hword : s.cache (markNoOpIndex page) = entry := by simpa using hfound
    have hne : s.cache (markNoOpIndex page) ≠ 0 := hword ▸ (encodeMarkNoOp_some hentry).2.1
    obtain ⟨page', gen', hindex, hword', hturn, -, hquiet⟩ := H.words _ hne
    obtain ⟨rfl, hfield⟩ := encodeMarkNoOp_inj hentry (hword ▸ hword') hindex.symm
    have hsame : gen = gen' := by
      have := hfresh gen hgen
      rw [← Nat.div_add_mod gen genField, ← Nat.div_add_mod gen' genField, this, hturn, hfield]
    exact hsame ▸ hquiet

/-- In every run that takes each sample under the lock of its walk and uses it before
the field wraps, a hit at a generation means that marking the page on the map of that
generation would do nothing. -/
theorem run_hit_quiet (ops : List MemoOp) (t page gen : Nat)
    (hrun : Admissible MemoState.step (fun s op => op.Timely s) {} (ops ++ [.query t page]))
    (hhit : (ops.foldl MemoState.step {}).Hit t page gen) : Quiet ((ops.foldl MemoState.step {}).mapAt gen) page := by
  obtain ⟨hops, hquery⟩ := admissible_append.mp hrun
  have H : MemoInv (ops.foldl MemoState.step {}) :=
    foldl_invariant (fun s op H hok => step_memoInv H hok) memoInv_init hops
  exact H.hit hquery.1 hhit

/-! ## A sample that outlives its turn -/

theorem bumpGeneration_stay {s : MemoState} (h : (s.generation + 1) % genField ≠ 0) :
    s.bumpGeneration = { s with generation := s.generation + 1 } := if_neg h

theorem foldl_mutate {s : MemoState} {map : VMATracking} (hmap : s.map = map)
    (hn : s.generation % genField + n < genField) :
    let s' := (List.replicate n (MemoOp.mutate map)).foldl MemoState.step s
    s'.map = map ∧ s'.generation = s.generation + n ∧ s'.samplers = s.samplers := by
  induction n generalizing s with
  | zero => exact ⟨hmap, rfl, rfl⟩
  | succ n ih =>
    have hstay : (s.generation + 1) % genField ≠ 0 := by
      simp only [genField] at hn ⊢
      omega
    have hbump := bumpGeneration_stay hstay
    have hgen : (s.step (.mutate map)).generation = s.generation + 1 := by simp [MemoState.step, hbump]
    have hsamplers : (s.step (.mutate map)).samplers = s.samplers := by simp [MemoState.step, hbump]
    have hroom : (s.step (.mutate map)).generation % genField + n < genField := by
      simp only [genField] at hn ⊢
      omega
    obtain ⟨hm, hg, hs⟩ := ih rfl hroom
    exact ⟨hm, hg.trans (by omega), hs.trans hsamplers⟩

def smcDefault : SMCState := ⟨false, fun _ => false, fun _ _ => false⟩

def onePage (prot : VMAProt) : VMATracking := { vmas := [⟨none, 0x10000, 0, 0x1000, false, prot⟩] }

def readExec : VMATracking := onePage ⟨true, false, true⟩
def readWriteExec : VMATracking := onePage ⟨true, true, true⟩

/-- A thread samples generation 2 and walks the map; after `n` more mutations it
publishes, and then the page becomes writable. -/
def publishLate (n : Nat) : List MemoOp :=
  [.mutate readExec, .sample 0] ++ [.walk 0 smcDefault 16] ++ List.replicate n (.mutate readExec) ++
    [.mutate readExec, .publish 0, .mutate readWriteExec, .sample 1]

def walkLate (n : Nat) : List MemoOp :=
  [.mutate readExec, .sample 0] ++ List.replicate n (.mutate readExec) ++
    [.mutate readExec, .walk 0 smcDefault 16, .publish 0, .mutate readWriteExec, .sample 1]

theorem readWriteExec_notQuiet : ¬ Quiet readWriteExec 16 := by
  intro h
  have hnone := h smcDefault
  revert hnone
  decide

theorem publish_hit (hgen : s.generation = genField + 1) (hsampler : s.samplers 0 = ⟨some 2, some 16⟩) :
    let s' := [MemoOp.publish 0, .mutate readWriteExec, .sample 1].foldl MemoState.step s
    s'.Hit 1 16 (genField + 2) ∧ s'.mapAt (genField + 2) = readWriteExec := by
  have hstay : (genField + 1 + 1) % genField ≠ 0 := by decide
  have hword : encodeMarkNoOp 16 (genField + 2) = encodeMarkNoOp 16 2 := by decide
  have hentry : encodeMarkNoOp 16 2 = some 2 := by decide
  simp only [List.foldl_cons, MemoState.step, hsampler, recordMarkNoOp, hentry,
    bumpGeneration, hgen, if_neg hstay, MemoState.setSampler, MemoState.Hit, isMarkNoOp, hword]
  simp

theorem foldl_turn {s : MemoState} (hn : n + 3 = genField) (hmap : s.map = readExec) (hgen : s.generation = 2) :
    let s' := ((List.replicate n (MemoOp.mutate readExec)).foldl MemoState.step s).step (.mutate readExec)
    s'.map = readExec ∧ s'.generation = genField + 1 ∧ s'.samplers = s.samplers := by
  have hroom : s.generation % genField + n < genField := by
    simp only [genField] at hn ⊢
    omega
  obtain ⟨-, hlast, hsame⟩ := foldl_mutate hmap hroom
  have hwrap : (2 + n + 1) % genField = 0 := by rw [show 2 + n + 1 = genField by omega, Nat.mod_self]
  rw [hgen] at hlast
  simp only [MemoState.step, bumpGeneration, hlast, if_pos hwrap, hsame]
  exact ⟨trivial, by omega, trivial⟩

theorem walk_quiet {s : MemoState} (hmap : s.map = readExec) (hgen : (s.samplers 0).generation = some 2) :
    (s.step (.walk 0 smcDefault 16)).samplers 0 = ⟨some 2, some 16⟩ := by
  have hquiet : (readExec.markGuestExecutablePage smcDefault 16).2 := by decide
  simp [MemoState.step, MemoState.setSampler, hmap, hgen, hquiet]

/-- The run hits at the live generation, for a page that has to be protected. -/
def Stale (ops : List MemoOp) : Prop :=
  (ops.foldl MemoState.step {}).Hit 1 16 (genField + 2) ∧
    ¬ Quiet ((ops.foldl MemoState.step {}).mapAt (genField + 2)) 16

theorem sampled : ∃ s, [MemoOp.mutate readExec, .sample 0].foldl MemoState.step {} = s ∧
    s.map = readExec ∧ s.generation = 2 ∧ (s.samplers 0).generation = some 2 :=
  ⟨_, rfl, rfl, rfl, rfl⟩

theorem publishLate_stale (hn : n + 3 = genField) : Stale (publishLate n) := by
  obtain ⟨s, hs, hmap, hgen, hsampler⟩ := sampled
  have hwalk := walk_quiet hmap hsampler
  obtain ⟨-, hgen, hsamplers⟩ := foldl_turn (s := s.step (.walk 0 smcDefault 16)) hn hmap hgen
  obtain ⟨hhit, hlast⟩ := publish_hit hgen ((congrFun hsamplers 0).trans hwalk)
  have hone : [MemoOp.walk 0 smcDefault 16].foldl MemoState.step s = s.step (.walk 0 smcDefault 16) := rfl
  rw [Stale, publishLate, List.foldl_append, List.foldl_append, List.foldl_append, hs, hone, List.foldl_cons]
  refine ⟨hhit, ?_⟩
  rw [hlast]
  exact readWriteExec_notQuiet

theorem walkLate_stale (hn : n + 3 = genField) : Stale (walkLate n) := by
  obtain ⟨s, hs, hmap, hgen, hsampler⟩ := sampled
  obtain ⟨hread, hgen, hsamplers⟩ := foldl_turn hn hmap hgen
  rw [Stale, walkLate, List.foldl_append, List.foldl_append, hs, List.foldl_cons, List.foldl_cons]
  generalize MemoState.step (List.foldl _ s _) _ = s' at *
  obtain ⟨hhit, hlast⟩ := publish_hit (s := s'.step (.walk 0 smcDefault 16)) hgen
    (walk_quiet hread (by rw [hsamplers, hsampler]))
  refine ⟨hhit, ?_⟩
  rw [hlast]
  exact readWriteExec_notQuiet

/-- Whether the walk came before the wrap or after it, the publication is found again
when the page has become writable. -/
theorem publish_afterWrap : Stale (publishLate (genField - 3)) ∧ Stale (walkLate (genField - 3)) :=
  ⟨publishLate_stale (by decide), walkLate_stale (by decide)⟩

theorem run_hit_quiet_page : Quiet (([MemoOp.mutate readExec, .sample 0, .walk 0 smcDefault 16, .publish 0].foldl
      MemoState.step {}).mapAt 2) 16 :=
  run_hit_quiet [.mutate readExec, .sample 0, .walk 0 smcDefault 16, .publish 0] 0 16 2
    ⟨trivial, trivial, rfl, fun _ h => by cases h; decide, fun _ h => by cases h; decide, trivial⟩
    ⟨rfl, by decide⟩

end PowerArm.Vma
