import PowerArm.Vma.ProtectLaws
import PowerArm.Vma.ShmLaws

/-!
# Every mapped address

The addresses that the calls leave mapped (`mappedAfter`) are those of the entries: a
call adds or takes away the addresses it is for, and no split loses one. With the
invariant `Tracked`, the entries, their offsets and the resources' lists are consistent
after every run from the empty state (`run_consistent`).
-/

namespace PowerArm.Vma

open Lib VMATracking

/-! ## What is mapped -/

/-- The entries that `DeleteSHMRegion` is to take away: the first one attached, and those
of its segment behind it that end within the segment's length. -/
def VMATracking.detached (s : VMATracking) (base : Nat) : List VMAEntry :=
  match (s.atOrAfter base).dropWhile fun v => !s.isShmAt base v with
  | [] => []
  | w :: rest =>
    w :: rest.filter fun v => v.resource = w.resource ∧
      v.top - base ≤ (w.resource.bind s.mappedResources).elim 0 MappedResource.length

def Op.mapped (s : VMATracking) (mapped : Nat → Bool) : Op → Nat → Bool
  | .trackVMARange _ base _ length _ _, a => decide (base ≤ a ∧ a < base + length) || mapped a
  | .deleteVMARange base length, a => mapped a && !decide (base ≤ a ∧ a < base + length)
  | .deleteSHMRegion base, a => mapped a && !covered (s.detached base) a
  | _, a => mapped a

def mappedFrom : VMATracking → (Nat → Bool) → List Op → Nat → Bool
  | _, mapped, [] => mapped
  | s, mapped, op :: ops =>
    match step s op with
    | none => mapped
    | some s' => mappedFrom s' (op.mapped s mapped) ops

/-- The addresses mapped after the calls `ops`, from nothing mapped. -/
def mappedAfter (ops : List Op) : Nat → Bool := mappedFrom {} (fun _ => false) ops

section
variable {last : Record} {s s' : VMATracking} {v w : VMAEntry}

theorem covered_iff : covered l a ↔ ∃ v ∈ l, VMAEntry.Covers v a := by simp [covered]

/-- A call that keeps every record maps no new address: the record can have forgotten
all that is not mapped. -/
theorem covered_of_tracked (H : Tracked last s) (hcall : ∀ last, Tracked last s → Tracked last s')
    (ha : covered s'.vmas a) : covered s.vmas a := by
  have hforget : Tracked (fun a => if covered s.vmas a then last a else none) s :=
    H.congr fun v hv a hb ht => if_pos (covered_iff.mpr ⟨v, hv, hb, ht⟩)
  obtain ⟨v, hv, hb, ht⟩ := covered_iff.mp ha
  have hkeeps := (hcall _ hforget).layout.keeps v hv a hb ht
  by_contra hnot
  simp [hnot] at hkeeps

/-! ## The calls -/

theorem covered_deleteVMARange (H : Tracked last s) (base length : Nat) (preserved : Option ResourceId) (a : Nat) :
    covered (s.deleteVMARange base length preserved).vmas a =
      (covered s.vmas a && !decide (base ≤ a ∧ a < base + length)) := by
  obtain ⟨-, -, hclear, hkept⟩ := deleteVMARange_spec H base length preserved
  rw [Bool.eq_iff_iff, Bool.and_eq_true, Bool.not_eq_true', decide_eq_false_iff_not]
  constructor
  · intro ha
    refine ⟨covered_of_tracked H (fun _ H => (deleteVMARange_spec H base length preserved).1) ha, ?_⟩
    obtain ⟨v, hv, hb, ht⟩ := covered_iff.mp ha
    have := hclear v hv
    unfold Clear at this
    omega
  · rintro ⟨ha, hout⟩
    exact hkept a (by omega) ha

theorem trackVMARange_vmas (s : VMATracking) (resource : Option ResourceId) (base : Nat) (offset : Int)
    (length : Nat) (shared : Bool) (prot : VMAProt) :
    (s.trackVMARange resource base offset length shared prot).vmas =
      emplaceEntry { resource, base, offset, length, shared, prot } (s.deleteVMARange base length resource).vmas := by
  unfold trackVMARange
  dsimp only
  split <;> rfl

theorem covered_emplaceEntry (hfree : ∀ w ∈ l, w.base ≠ v.base) :
    covered (emplaceEntry v l) a = (decide (v.Covers a) || covered l a) := by
  induction l with
  | nil => rfl
  | cons w l ih =>
    obtain ⟨hw, hfree⟩ := List.forall_mem_cons.mp hfree
    unfold emplaceEntry
    split
    · rfl
    · simp [hw.symm, ih hfree, Bool.or_left_comm]

theorem covered_trackVMARange (H : Tracked last s) (hlen : 0 < length) :
    covered (s.trackVMARange resource base offset length shared prot).vmas a =
      (decide (base ≤ a ∧ a < base + length) || covered s.vmas a) := by
  obtain ⟨hT, -, hclear, -⟩ := deleteVMARange_spec H base length resource
  rw [trackVMARange_vmas, covered_emplaceEntry, covered_deleteVMARange H]
  · by_cases hin : base ≤ a ∧ a < base + length <;> simp [VMAEntry.Covers, VMAEntry.top, hin]
  · intro w hw
    have hpos := VMAEntry.base_lt_top (hT.layout.nonempty w hw)
    rcases hclear w hw with h | h <;> dsimp only <;> omega

theorem covered_eq_infoAt (l : List VMAEntry) (a : Nat) : covered l a = (infoAt l a).isSome := by
  rw [Bool.eq_iff_iff, infoAt, Option.isSome_map, List.find?_isSome, covered, List.any_eq_true]

theorem covered_changeProtectionFlags (H : Tracked last s) (hclean : SplitsCleanly s base (base + length))
    (h : s.changeProtectionFlags base length newProt = some s') : covered s'.vmas a = covered s.vmas a := by
  unfold changeProtectionFlags at h
  split at h
  · rw [Option.some.inj h]
  · rename_i hlen
    have hord := H.layout.ordered
    have hlt : base < base + length := Nat.lt_add_of_pos_right (Nat.pos_of_ne_zero hlen)
    have htail : TailAnonymous s.vmas base (base + length) := fun v hv hb hlow hpast =>
      (hclean v hv hlow hpast).elim (fun heq => absurd heq hb.ne') fun hlt => absurd hlt.1 hb.not_gt
    obtain ⟨s₁, h₁, hprot⟩ := protectLoop_below hord hlt newProt (chained_of_protectLoop hord hlt h) htail
    cases Option.some.inj (h.symm.trans h₁)
    rw [covered_eq_infoAt, covered_eq_infoAt, hprot a, Option.isSome_map]

theorem mem_deleteSHMRegion (H : Ordered s.vmas) (base : Nat) :
    (∀ v ∈ s.detached base, v ∈ s.vmas) ∧
      ∀ v, v ∈ (s.deleteSHMRegion base).1.vmas ↔ v ∈ s.vmas ∧ v ∉ s.detached base := by
  unfold VMATracking.detached
  cases hdrop : (s.atOrAfter base).dropWhile fun v => !s.isShmAt base v with
  | nil => simp [deleteSHMRegion, hdrop]
  | cons w rest =>
    have hsuffix : (w :: rest).IsSuffix s.vmas := hdrop ▸ (List.dropWhile_suffix _).trans (List.dropWhile_suffix _)
    obtain ⟨A, hs⟩ := hsuffix
    have hshm : s.isShmAt base w := by
      have := List.head?_dropWhile_not (fun v => !s.isShmAt base v) (s.atOrAfter base)
      simpa [hdrop] using this
    obtain ⟨m, hm, -⟩ := (Option.any_eq_true ..).mp (Bool.and_eq_true_iff.mp hshm).2
    obtain ⟨r, hr, hm⟩ := Option.bind_eq_some_iff.mp hm
    simp only [deleteSHMRegion_vmas hs.symm hdrop hr hm H, hr, hm, Option.bind_some, Option.elim_some]
    rw [← hs] at H ⊢
    have hA : ∀ v ∈ A, v ≠ w ∧ v ∉ rest := fun v hv => by
      have hlt := (H.lt_of_mem_left hv).2
      exact ⟨fun heq => hlt.ne (congrArg _ heq), fun hv => hlt.not_gt (H.lt_of_mem_right hv).2⟩
    have hw : w ∉ rest := fun hv => (H.lt_of_mem_right hv).2.false
    grind

theorem covered_deleteSHMRegion (H : Tracked last s) (base a : Nat) :
    covered (s.deleteSHMRegion base).1.vmas a = (covered s.vmas a && !covered (s.detached base) a) := by
  obtain ⟨hsub, hmem⟩ := mem_deleteSHMRegion H.layout.ordered base
  rw [Bool.eq_iff_iff, Bool.and_eq_true, Bool.not_eq_true', Bool.eq_false_iff, Ne]
  simp only [covered_iff, hmem]
  constructor
  · rintro ⟨v, ⟨hv, hkept⟩, ha⟩
    refine ⟨⟨v, hv, ha⟩, ?_⟩
    rintro ⟨w, hw, ha'⟩
    exact hkept (H.listed.eq_of_mem hv (hsub w hw) ha ha' ▸ hw)
  · rintro ⟨⟨v, hv, ha⟩, hout⟩
    exact ⟨v, ⟨hv, fun hgone => hout ⟨v, hgone, ha⟩⟩, ha⟩

/-! ## Runs -/

theorem step_covered (H : Tracked last s) (hok : op.Admissible s) (h : step s op = some s') :
    covered s'.vmas = op.mapped s (covered s.vmas) := by
  funext a
  cases op with
  | insertMappedResource r resource =>
    simp only [step] at h
    split at h
    · cases h
    · rw [← Option.some.inj h]
      rfl
  | trackVMARange resource base offset length shared prot =>
    simp only [step] at h
    split at h
    · rw [← Option.some.inj h]
      exact covered_trackVMARange H hok
    · cases h
  | deleteVMARange base length => exact Option.some.inj h ▸ covered_deleteVMARange H base length none a
  | changeProtectionFlags base length newProt => exact covered_changeProtectionFlags H hok.2 h
  | deleteSHMRegion base => exact Option.some.inj h ▸ covered_deleteSHMRegion H base a

theorem run_covered (H : Tracked last s) (hok : AdmissibleM step Op.Admissible s ops)
    (hrun : run s ops = some s') : covered s'.vmas = mappedFrom s (covered s.vmas) ops := by
  induction ops generalizing s last with
  | nil => rw [Option.some.inj hrun, mappedFrom]
  | cons op ops ih =>
    obtain ⟨s₁, hs₁, hrest⟩ := Option.bind_eq_some_iff.mp hrun
    rw [ih (step_tracked H hok.1 hs₁) (hok.2 s₁ hs₁) hrest, mappedFrom, hs₁, step_covered H hok.1 hs₁]

/-- What the tracking promises after the calls `ops`. -/
structure Consistent (ops : List Op) (s : VMATracking) : Prop where
  /-- The entries are in the order of their bases, disjoint and not empty. -/
  disjoint : s.vmas.Pairwise fun v w => v.base < w.base ∧ v.top ≤ w.base
  nonempty : ∀ v ∈ s.vmas, 0 < v.length
  /-- The entries cover the addresses that the calls leave mapped, each with the
  resource and the file offset of the call that last mapped it. -/
  mapped : ∀ a, mappedAfter ops a = true ↔ ∃ v ∈ s.vmas, v.base ≤ a ∧ a < v.top
  keeps : ∀ v ∈ s.vmas, ∀ a, v.base ≤ a → a < v.top → lastTracked ops a = some (v.resource, v.offset + a - v.base)
  /-- The list of a resource is doubly linked from `FirstVMA` on, ascends, and
  holds exactly the entries of the resource. -/
  lists : ∀ r, ∃ l, s.firstVMA r = l.head? ∧ Chain s.links none l none ∧
    l.Pairwise (· < ·) ∧ ∀ b, b ∈ l ↔ ∃ v ∈ s.vmas, v.resource = some r ∧ v.base = b

theorem Tracked.consistent (H : Tracked (lastTracked ops) s) (hmapped : covered s.vmas = mappedAfter ops) :
    Consistent ops s where
  disjoint := H.layout.apart.imp_of_mem fun hv _ h =>
    ⟨(VMAEntry.base_lt_top (H.layout.nonempty _ hv)).trans_le h, h⟩
  nonempty := H.layout.nonempty
  mapped a := by rw [← hmapped, covered_iff]; rfl
  keeps := H.layout.keeps
  lists r := ⟨basesOf s.vmas r, H.threaded.head r, H.threaded.chain r,
    H.layout.basesOf_ascending r, fun _ => mem_basesOf⟩

theorem run_consistent (hrun : run {} ops = some s)
    (hok : AdmissibleM step Op.Admissible {} ops) : Consistent ops s :=
  Tracked.consistent (foldlM_invariant (fun _ _ _ _ => step_tracked) tracked_empty hok hrun)
    (run_covered tracked_empty hok hrun)

/-- A file mapped over three pages, its first page made read-only together with
the page below it, and its last page unmapped. -/
theorem run_consistent_file : let rw : VMAProt := ⟨true, true, false⟩
    let ops : List Op := [.insertMappedResource 0 ⟨false, 0⟩, .trackVMARange (some 0) 0x10000 0 0x3000 false rw,
      .trackVMARange none 0xf000 0 0x1000 false rw,
      .changeProtectionFlags 0x10000 0x1000 ⟨true, false, false⟩,
      .changeProtectionFlags 0xf000 0x2000 ⟨true, false, false⟩,
      .deleteVMARange 0x12000 0x1000]
    ∃ s, run {} ops = some s ∧ s.vmas.length = 3 ∧ Consistent ops s :=
  ⟨_, rfl, by decide, run_consistent rfl (by decide)⟩

theorem Consistent.next_lt (H : Consistent ops s) (hv : v ∈ s.vmas) (hr : v.resource = some r)
    (hnext : s.links.next v.base = some b) : v.base < b := by
  obtain ⟨l, -, hchain, hasc, hmem⟩ := H.lists r
  obtain ⟨l₁, l₂, rfl⟩ := List.append_of_mem ((hmem v.base).mpr ⟨v, hv, hr, rfl⟩)
  have hb : b ∈ l₂ := List.mem_of_mem_head? (hchain.neighbours.2 ▸ hnext)
  exact (List.pairwise_cons.mp (List.pairwise_append.mp hasc).2.1).1 b hb

/-- Two protection changes that break the tracking of a file mapped over three
pages. One ends inside the file and starts below it: the rest of the file gets
the offset of its first page. The other protects the middle page: the list then
has the last page before the middle one. -/
theorem protect_inconsistent : let rw : VMAProt := ⟨true, true, false⟩
    let file : List Op := [.insertMappedResource 0 ⟨false, 0⟩, .trackVMARange (some 0) 0x10000 0 0x3000 false rw,
      .trackVMARange none 0xf000 0 0x1000 false rw]
    let overlap := file ++ [.changeProtectionFlags 0xf000 0x2000 ⟨true, false, false⟩]
    let middle := file ++ [.changeProtectionFlags 0x11000 0x1000 ⟨true, false, false⟩]
    (∃ s, run {} overlap = some s ∧ ¬ Consistent overlap s) ∧
      ∃ s, run {} middle = some s ∧ ¬ Consistent middle s := by
  refine ⟨⟨_, rfl, fun h => ?_⟩, ⟨_, rfl, fun h => ?_⟩⟩
  · have hkeeps := h.keeps ⟨some 0, 0x11000, 0, 0x2000, false, ⟨true, true, false⟩⟩ (by decide)
      0x11000 (by decide) (by decide)
    revert hkeeps
    decide
  · have hnext := h.next_lt (v := ⟨some 0, 0x12000, 0x2000, 0x1000, false, ⟨true, true, false⟩⟩)
      (b := 0x11000) (by decide) rfl (by decide)
    revert hnext
    decide

end

end PowerArm.Vma
