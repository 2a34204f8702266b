import PowerArm.Vma.TrackingLaws

/-!
# Instruction-cache lines and their mirrors

`InvalidateGuestICacheLine` collects the line the guest named and, for a shared
mapping, the lines at which the resource's other entries map the same file
bytes. The walk stops when its buffer is full, so it reaches every alias exactly
when there are few enough of them (`invalidateGuestICacheLine_reaches`).
-/

namespace PowerArm.Vma

open Lib

def lineSize : Nat := 64
def maxMirrors : Nat := 32

namespace VMATracking

def findVMAEntry (s : VMATracking) (a : Nat) : Option VMAEntry :=
  (s.below (a + 1)).getLast?.filter fun v => v.base ≤ a ∧ a < v.top

def entryAt (s : VMATracking) (key : Nat) : Option VMAEntry := s.vmas.find? fun v => v.base = key

/-- Where `v` maps the file offset, unless it does not or that is `lineBase`. -/
def mirrorLine (lineBase : Nat) (offset : Int) (v : VMAEntry) : Option Nat :=
  if v.offset ≤ offset ∧ offset < v.offset + v.length then
    let mirror := (offset - v.offset + v.base).toNat
    if mirror ≠ lineBase then some mirror else none
  else none

def collectMirrors (s : VMATracking) (lineBase : Nat) (offset : Int) : Nat → Option Nat → List Nat → List Nat
  | fuel + 1, some key, lines =>
    if lines.length < maxMirrors then
      collectMirrors s lineBase offset fuel (s.links.next key)
        (lines ++ ((s.entryAt key).bind (mirrorLine lineBase offset)).toList)
    else lines
  | _, _, lines => lines

def invalidateGuestICacheLine (s : VMATracking) (lineBase : Nat) : List Nat :=
  match s.findVMAEntry lineBase with
  | none => [lineBase]
  | some v =>
    match v.shared, v.resource with
    | true, some r =>
      s.collectMirrors lineBase (lineBase - v.base + v.offset) s.vmas.length (s.firstVMA r) [lineBase]
    | _, _ => [lineBase]

end VMATracking

open VMATracking

/-! ## Maps and their lists -/

/-- A map in order, whose resources list their entries, in whatever order. -/
structure Listed (s : VMATracking) : Prop where
  apart : s.vmas.Pairwise fun v w => v.top ≤ w.base
  nonempty : ∀ v ∈ s.vmas, 0 < v.length
  lists : ∀ r, ∃ l, s.firstVMA r = l.head? ∧ Chain s.links none l none ∧ l.Perm (basesOf s.vmas r)

theorem Tracked.listed (H : Tracked last s) : Listed s :=
  ⟨H.layout.apart, H.layout.nonempty, fun r => ⟨_, H.threaded.head r, H.threaded.chain r, List.Perm.refl _⟩⟩

def LineAligned (s : VMATracking) : Prop := ∀ v ∈ s.vmas, lineSize ∣ v.base ∧ (lineSize : Int) ∣ v.offset

section
variable {s : VMATracking} {v w : VMAEntry}

section
variable (H : Listed s) (hv : v ∈ s.vmas)
include H hv

theorem Listed.eq_of_mem (hw : w ∈ s.vmas)
    (hva : v.base ≤ a ∧ a < v.top) (hwa : w.base ≤ a ∧ a < w.top) : v = w := by
  by_contra hne
  have hsymm : s.vmas.Pairwise fun v w => v.top ≤ w.base ∨ w.top ≤ v.base := H.apart.imp .inl
  have : Std.Symm fun v w : VMAEntry => v.top ≤ w.base ∨ w.top ≤ v.base := ⟨fun _ _ => Or.symm⟩
  rcases hsymm.forall hv hw hne with h | h
  · exact absurd (hva.2.trans_le (h.trans hwa.1)) (lt_irrefl _)
  · exact absurd (hwa.2.trans_le (h.trans hva.1)) (lt_irrefl _)

theorem Listed.eq_of_base (hw : w ∈ s.vmas) (h : v.base = w.base) : v = w := by
  have hpos := VMAEntry.base_lt_top (H.nonempty w hw)
  exact H.eq_of_mem hv hw ⟨h.le, h ▸ VMAEntry.base_lt_top (H.nonempty v hv)⟩ ⟨le_rfl, hpos⟩

theorem Listed.entryAt : s.entryAt v.base = some v := by
  obtain ⟨w, hw⟩ : ∃ w, s.entryAt v.base = some w := by
    rw [← Option.isSome_iff_exists, VMATracking.entryAt, List.find?_isSome]
    exact ⟨v, hv, by simp⟩
  have hbase : w.base = v.base := by simpa using List.find?_some hw
  rw [hw, H.eq_of_base (List.mem_of_find?_eq_some hw) hv hbase]

theorem Listed.findVMAEntry (hlo : v.base ≤ a) (hhi : a < v.top) :
    s.findVMAEntry a = some v := by
  obtain ⟨A, B, hs⟩ := List.append_of_mem hv
  have hsplit := H.apart
  rw [hs, List.pairwise_append, List.pairwise_cons] at hsplit
  obtain ⟨-, ⟨hB, -⟩, hA⟩ := hsplit
  have hbelow : s.below (a + 1) = A ++ [v] := by
    have hAv : ∀ w ∈ A ++ [v], decide (w.base < a + 1) := by
      intro w hw
      rcases List.mem_append.mp hw with hw | hw
      · have htop := hA w hw v List.mem_cons_self
        have hbase : w.base ≤ w.top := Nat.le_add_right ..
        simpa using Nat.lt_succ_of_le (hbase.trans (htop.trans hlo))
      · rw [List.mem_singleton.mp hw]
        simpa using Nat.lt_succ_of_le hlo
    have hstop : B.takeWhile (fun w => decide (w.base < a + 1)) = [] := by
      cases B with
      | nil => rfl
      | cons b B =>
        have hb := hB b List.mem_cons_self
        exact List.takeWhile_cons_of_neg (by simpa using Nat.succ_le_of_lt (hhi.trans_le hb))
    rw [below, hs, List.append_cons, List.takeWhile_append_of_pos hAv, hstop, List.append_nil]
  simp [VMATracking.findVMAEntry, hbelow, hlo, hhi]

end

theorem findVMAEntry_some (h : s.findVMAEntry a = some v) : v ∈ s.vmas ∧ v.base ≤ a ∧ a < v.top := by
  obtain ⟨hlast, hin⟩ := Option.filter_eq_some_iff.mp h
  exact ⟨List.takeWhile_subset _ (List.mem_of_getLast? hlast), by simpa using hin⟩

/-! ## The walk -/

theorem collectMirrors_eq (hc : Chain s.links p l none) (hfuel : l.length ≤ fuel)
    (hlines : lines.length ≤ maxMirrors) :
    s.collectMirrors lineBase offset fuel l.head? lines =
      (lines ++ l.filterMap fun key => (s.entryAt key).bind (mirrorLine lineBase offset)).take
        maxMirrors := by
  induction l generalizing p fuel lines with
  | nil => cases fuel <;> simp [collectMirrors, List.take_of_length_le hlines]
  | cons key l ih =>
    obtain ⟨-, hnext, hrest⟩ := hc
    rw [Option.or_none] at hnext
    cases fuel with
    | zero => simp at hfuel
    | succ fuel =>
      simp only [List.head?_cons, collectMirrors]
      split
      · rename_i hroom
        rw [hnext]
        cases hm : (s.entryAt key).bind (mirrorLine lineBase offset) with
        | none =>
          rw [Option.toList_none, List.append_nil, ih hrest (by simpa using hfuel) hlines]
          simp [hm]
        | some m =>
          have hlen : (lines ++ [m]).length ≤ maxMirrors := by simpa using Nat.succ_le_of_lt hroom
          rw [Option.toList_some, ih hrest (by simpa using hfuel) hlen]
          simp [hm]
      · rename_i hfull
        rw [List.take_append_of_le_length (Nat.le_of_not_lt hfull), List.take_of_length_le hlines]

def otherLines (s : VMATracking) (lineBase : Nat) : List Nat :=
  match s.findVMAEntry lineBase with
  | none => []
  | some v =>
    match v.shared, v.resource with
    | true, some r =>
      (s.vmas.filter fun w => w.resource = some r).filterMap (mirrorLine lineBase (lineBase - v.base + v.offset))
    | _, _ => []

theorem invalidateGuestICacheLine_eq (H : Listed s) (lineBase : Nat) :
    ∃ mirrors, mirrors.Perm (otherLines s lineBase) ∧
      s.invalidateGuestICacheLine lineBase = (lineBase :: mirrors).take maxMirrors := by
  unfold VMATracking.invalidateGuestICacheLine otherLines
  split
  · exact ⟨[], .nil, rfl⟩
  · rename_i v hv
    split
    · rename_i r hshared hr
      obtain ⟨l, hhead, hchain, hperm⟩ := H.lists r
      refine ⟨l.filterMap fun key => (s.entryAt key).bind
        (mirrorLine lineBase (lineBase - v.base + v.offset)), ?_, ?_⟩
      · refine (hperm.filterMap _).trans (List.Perm.of_eq ?_)
        rw [basesOf, List.filterMap_map]
        apply List.filterMap_congr
        intro w hw
        simp [H.entryAt (List.mem_of_mem_filter hw)]
      · have hlen : l.length ≤ s.vmas.length := by
          rw [hperm.length_eq, basesOf, List.length_map]
          exact List.length_filter_le ..
        rw [hhead, collectMirrors_eq hchain hlen (by simp [maxMirrors])]
        rfl
    · exact ⟨[], .nil, rfl⟩

/-! ## Aliases -/

/-- The address `a` is mapped to a byte of the resource that a shared mapping has
in the line at `lineBase`. -/
def Alias (s : VMATracking) (lineBase a : Nat) : Prop :=
  ∃ v ∈ s.vmas, ∃ w ∈ s.vmas, ∃ b, v.shared = true ∧ v.resource.isSome ∧
    w.resource = v.resource ∧ (lineBase ≤ b ∧ b < lineBase + lineSize) ∧
    (v.base ≤ b ∧ b < v.top) ∧ (w.base ≤ a ∧ a < w.top) ∧
    w.offset + (a - w.base) = v.offset + (b - v.base)

def Invalidated (s : VMATracking) (lineBase a : Nat) : Prop :=
  ∃ line ∈ s.invalidateGuestICacheLine lineBase, line ≤ a ∧ a < line + lineSize

theorem mirrorLine_some (h : mirrorLine lineBase offset v = some m) :
    m ≠ lineBase ∧ v.base ≤ m ∧ m < v.top ∧ (m : Int) = offset - v.offset + v.base := by
  unfold mirrorLine at h
  split at h
  · dsimp only at h
    split at h
    · rename_i hne
      cases h
      have htop : v.top = v.base + v.length := rfl
      exact ⟨hne, by omega, by omega, by omega⟩
    · cases h
  · cases h

theorem mirrors_ascending {l : List VMAEntry} (h : l.Pairwise fun v w => v.top ≤ w.base) :
    (l.filterMap (mirrorLine lineBase offset)).Pairwise (· < ·) := by
  refine List.Pairwise.filterMap _ ?_ h
  intro v w hvw m hm m' hm'
  obtain ⟨-, -, hhi, -⟩ := mirrorLine_some hm
  obtain ⟨-, hlo, -, -⟩ := mirrorLine_some hm'
  exact hhi.trans_le (hvw.trans hlo)

theorem otherLines_nodup (H : Listed s) (lineBase : Nat) : (otherLines s lineBase).Nodup := by
  unfold otherLines
  split
  · exact List.nodup_nil
  · split
    · exact (mirrors_ascending (H.apart.sublist List.filter_sublist)).imp fun h => h.ne
    · exact List.nodup_nil

theorem otherLines_alias (hm : m ∈ otherLines s lineBase) : m ≠ lineBase ∧ Alias s lineBase m ∧
      ∃ v ∈ s.vmas, ∃ w ∈ s.vmas, (m : Int) = lineBase - v.base + v.offset - w.offset + w.base := by
  unfold otherLines at hm
  split at hm
  · cases hm
  · rename_i v hfind
    obtain ⟨hv, hlo, hhi⟩ := findVMAEntry_some hfind
    split at hm
    · rename_i r hshared hr
      obtain ⟨w, hw, hmirror⟩ := List.mem_filterMap.mp hm
      obtain ⟨hne, hwlo, hwhi, heq⟩ := mirrorLine_some hmirror
      have hwr : w.resource = some r := by simpa using List.of_mem_filter hw
      refine ⟨hne, ⟨v, hv, w, List.mem_of_mem_filter hw, lineBase, hshared, by simp [hr],
        hwr.trans hr.symm, ⟨le_rfl, by simp [lineSize]⟩, ⟨hlo, hhi⟩, ⟨hwlo, hwhi⟩, ?_⟩,
        v, hv, w, List.mem_of_mem_filter hw, heq⟩
      omega
    · cases hm

theorem otherLines_aligned (hal : LineAligned s) (hline : lineSize ∣ lineBase)
    (hm : m ∈ otherLines s lineBase) : lineSize ∣ m := by
  obtain ⟨-, -, v, hv, w, hw, heq⟩ := otherLines_alias hm
  obtain ⟨hvb, hvo⟩ := hal v hv
  obtain ⟨hwb, hwo⟩ := hal w hw
  have hvb' : (lineSize : Int) ∣ v.base := Int.natCast_dvd_natCast.mpr hvb
  have hwb' : (lineSize : Int) ∣ w.base := Int.natCast_dvd_natCast.mpr hwb
  have hl' : (lineSize : Int) ∣ lineBase := Int.natCast_dvd_natCast.mpr hline
  apply Int.natCast_dvd_natCast.mp
  rw [heq]
  exact Int.dvd_add (Int.dvd_sub (Int.dvd_add (Int.dvd_sub hl' hvb') hvo) hwo) hwb'

theorem line_eq (h : lineSize ∣ m) (h' : lineSize ∣ m') (hlo : m' ≤ m) (hhi : m < m' + lineSize) : m' = m := by
  simp only [lineSize] at *
  omega

theorem Alias.covered (H : Listed s) (hal : LineAligned s) (hline : lineSize ∣ lineBase) (ha : Alias s lineBase a) :
    ∃ line ∈ lineBase :: otherLines s lineBase, line ≤ a ∧ a < line + lineSize := by
  obtain ⟨v, hv, w, hw, b, hshared, hsome, hwr, ⟨hblo, hbhi⟩, ⟨hvlo, hvhi⟩, ⟨hwlo, hwhi⟩, hoff⟩ := ha
  obtain ⟨r, hr⟩ := Option.isSome_iff_exists.mp hsome
  obtain ⟨⟨x, hx⟩, y, hy⟩ := hal v hv
  obtain ⟨⟨x', hx'⟩, y', hy'⟩ := hal w hw
  obtain ⟨k, hk⟩ := hline
  simp only [lineSize] at hx hx' hy hy' hk hbhi ⊢
  have hwtop : w.top = w.base + w.length := rfl
  have hfind : s.findVMAEntry lineBase = some v := H.findVMAEntry hv (by omega) (by omega)
  -- the entry that has the byte has the whole line from its first byte on
  have hmirror : ((lineBase : Int) - v.base + v.offset - w.offset + w.base).toNat + (b - lineBase) = a := by omega
  by_cases hself : ((lineBase : Int) - v.base + v.offset - w.offset + w.base).toNat = lineBase
  · exact ⟨lineBase, List.mem_cons_self, by omega, by omega⟩
  · refine ⟨_, List.mem_cons_of_mem _ ?_, Nat.le.intro hmirror, by omega⟩
    unfold otherLines
    rw [hfind]
    simp only [hshared, hr]
    refine List.mem_filterMap.mpr ⟨w, List.mem_filter.mpr ⟨hw, by simp [hwr, hr]⟩, ?_⟩
    unfold mirrorLine
    rw [if_pos (by omega), if_pos hself]

/-- An invalidation of a line reaches the line and every alias of it exactly when
at most 31 other lines map the same file bytes. -/
theorem invalidateGuestICacheLine_reaches (s : VMATracking) (lineBase : Nat) (H : Listed s)
    (hal : LineAligned s) (hline : lineSize ∣ lineBase) :
    (∀ a, (lineBase ≤ a ∧ a < lineBase + lineSize) ∨ Alias s lineBase a → Invalidated s lineBase a) ↔
      (otherLines s lineBase).length < maxMirrors := by
  obtain ⟨mirrors, hperm, heq⟩ := invalidateGuestICacheLine_eq H lineBase
  unfold Invalidated
  rw [heq, ← hperm.length_eq]
  constructor
  · intro hall
    by_contra hmany
    -- the mirror behind the last one that was taken
    have hlt : maxMirrors - 1 < mirrors.length := by
      simp only [maxMirrors] at hmany ⊢
      omega
    have hmem : mirrors[maxMirrors - 1] ∈ otherLines s lineBase := hperm.mem_iff.mp (List.getElem_mem hlt)
    obtain ⟨hne, halias, -⟩ := otherLines_alias hmem
    obtain ⟨line, hline', hlo, hhi⟩ := hall _ (.inr halias)
    have hnodup : mirrors.Nodup := hperm.nodup_iff.mpr (otherLines_nodup H lineBase)
    have hal' := otherLines_aligned hal hline hmem
    rw [show maxMirrors = (maxMirrors - 1) + 1 from rfl, List.take_succ_cons] at hline'
    rcases List.mem_cons.mp hline' with rfl | htake
    · exact hne (line_eq hal' hline hlo hhi).symm
    · have hsame := line_eq hal' (otherLines_aligned hal hline
        (hperm.mem_iff.mp (List.mem_of_mem_take htake))) hlo hhi
      obtain ⟨i, hi, hget⟩ := List.mem_take_iff_getElem.mp htake
      have hindex : i = maxMirrors - 1 := hnodup.getElem_inj_iff.mp (hget.trans hsame)
      omega
  · intro hfew a ha
    rw [List.take_of_length_le (by simpa using Nat.succ_le_of_lt hfew)]
    rcases ha with hself | halias
    · exact ⟨lineBase, List.mem_cons_self, hself⟩
    · obtain ⟨line, hmem, hin⟩ := halias.covered H hal hline
      refine ⟨line, ?_, hin⟩
      rcases List.mem_cons.mp hmem with rfl | hmem
      · exact List.mem_cons_self
      · exact List.mem_cons_of_mem _ (hperm.mem_iff.mpr hmem)

end

/-! ## One page mapped many times -/

def mappedTimes (n : Nat) : List Op :=
  .insertMappedResource 0 ⟨false, 0⟩ :: (List.range n).map fun i =>
    .trackVMARange (some 0) (0x10000 + i * 0x1000) 0 0x1000 true ⟨true, true, true⟩

def mappedState (n : Nat) : VMATracking := (run {} (mappedTimes n)).getD {}

instance (s : VMATracking) : Decidable (LineAligned s) := inferInstanceAs (Decidable (∀ v ∈ s.vmas, _ ∧ _))

theorem mappedState_listed (hrun : (run {} (mappedTimes n)).isSome)
    (hok : AdmissibleM step Op.Admissible {} (mappedTimes n)) : Listed (mappedState n) := by
  obtain ⟨s, hs⟩ := Option.isSome_iff_exists.mp hrun
  have htracked := foldlM_invariant (fun _ _ _ _ => step_tracked) tracked_empty hok hs
  rw [mappedState, hs]
  exact Tracked.listed htracked

instance (s : VMATracking) (lineBase a : Nat) : Decidable (Invalidated s lineBase a) :=
  inferInstanceAs (Decidable (∃ line ∈ s.invalidateGuestICacheLine lineBase, _ ∧ _))

/-- A line of a page that is mapped 33 times: the last mapping keeps its code. -/
theorem invalidateGuestICacheLine_misses :
    Listed (mappedState 33) ∧ LineAligned (mappedState 33) ∧ lineSize ∣ 0x10000 ∧
      Alias (mappedState 33) 0x10000 0x30000 ∧ ¬ Invalidated (mappedState 33) 0x10000 0x30000 := by
  refine ⟨mappedState_listed (by decide +kernel) (by decide +kernel), by decide +kernel,
    by decide, ?_, by decide +kernel⟩
  exact ⟨⟨some 0, 0x10000, 0, 0x1000, true, ⟨true, true, true⟩⟩, by decide +kernel,
    ⟨some 0, 0x30000, 0, 0x1000, true, ⟨true, true, true⟩⟩, by decide +kernel, 0x10000,
    by decide⟩

theorem invalidateGuestICacheLine_reaches_pair : (otherLines (mappedState 2) 0x10000).length < maxMirrors ∧
      ∀ a, (0x10000 ≤ a ∧ a < 0x10000 + lineSize) ∨ Alias (mappedState 2) 0x10000 a →
        Invalidated (mappedState 2) 0x10000 a :=
  ⟨by decide +kernel, (invalidateGuestICacheLine_reaches (mappedState 2) 0x10000
    (mappedState_listed (by decide +kernel) (by decide +kernel)) (by decide +kernel)
    (by decide)).mpr (by decide +kernel)⟩

end PowerArm.Vma
