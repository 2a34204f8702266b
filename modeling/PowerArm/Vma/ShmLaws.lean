import PowerArm.Vma.Mirrors

/-!
# Detaching shared memory

`shmdt(addr)` unmaps the entries of a segment that lie at `addr` plus their
offset into it: what is left of the attach at `addr`. `DeleteSHMRegion` finds the
first of them, and then drops every entry of the segment up to its length, which
is the same set exactly when no other attach has an entry there
(`deleteSHMRegion_detaches`).
-/

namespace PowerArm.Vma

open Lib VMATracking

def AttachedAt (addr : Nat) (v : VMAEntry) : Prop := (v.base : Int) - addr = v.offset

instance : Decidable (AttachedAt addr v) := inferInstanceAs (Decidable (_ = _))

def firstAttached (s : VMATracking) (addr : Nat) : Option VMAEntry := (s.atOrAfter addr).find? (s.isShmAt addr)

section
variable {s : VMATracking} {v w : VMAEntry}

theorem removeEntry_vmas (s : VMATracking) (c : VMAEntry) (preserved : Option ResourceId) :
    (s.removeEntry c preserved).vmas = s.vmas.filter fun v => v.base ≠ c.base := by
  unfold removeEntry
  cases c.resource with
  | none => rfl
  | some r =>
    simp only
    split <;> rfl

theorem Ordered.filter_key (H : Ordered (A ++ w :: B)) : (A ++ w :: B).filter (fun v => v.base ≠ w.base) = A ++ B :=
  filter_ne (fun _ ha => (H.lt_of_mem_left ha).2.ne) fun _ hb => (H.lt_of_mem_right hb).2.ne'

theorem shmLoop_vmas (hs : s.vmas = A ++ rest) (H : Ordered s.vmas) : (shmLoop addr n r rest s).vmas =
      A ++ rest.filter fun v => ¬ (v.resource = some r ∧ v.top - addr ≤ n) := by
  induction rest generalizing s A with
  | nil => simpa [shmLoop] using hs
  | cons v rest ih =>
    unfold shmLoop
    rw [hs] at H
    split
    · rename_i hin
      by_cases hr : v.resource = some r
      · have hdrop : (s.removeEntry v none).vmas = A ++ rest := by rw [removeEntry_vmas, hs, H.filter_key]
        rw [if_pos hr, List.filter_cons_of_neg (by simp [hr, hin])]
        have hsub : (A ++ rest).Sublist (A ++ v :: rest) := List.Sublist.append_left (List.sublist_cons_self ..) A
        exact ih hdrop (hdrop ▸ H.sublist hsub)
      · rw [if_neg hr, List.filter_cons_of_pos (by simp [hr]), List.append_cons]
        have hs' : s.vmas = (A ++ [v]) ++ rest := hs.trans (List.append_cons ..)
        exact ih hs' (hs ▸ H)
    · -- the entries are in order, so all that follow end past the length as well
      rename_i hout
      have hall : ∀ w ∈ v :: rest, ¬ w.top - addr ≤ n := by
        intro w hw
        rcases List.mem_cons.mp hw with rfl | hmem
        · exact hout
        · have hlt := (H.lt_of_mem_right hmem).1
          have hle : w.base ≤ w.top := Nat.le_add_right ..
          omega
      rw [hs, List.filter_eq_self.mpr fun w hw => by simp [hall w hw]]

/-- The map splits at the first attached entry; no entry of its segment before it is
attached. -/
theorem firstAttached_split (hoff : ∀ v ∈ s.vmas, 0 ≤ v.offset)
    (h : firstAttached s addr = some w) (hr : w.resource = some r) :
    ∃ A B, s.vmas = A ++ w :: B ∧ AttachedAt addr w ∧
      (s.atOrAfter addr).dropWhile (fun v => !s.isShmAt addr v) = w :: B ∧
      ∀ v ∈ A, v.resource = some r → ¬ AttachedAt addr v := by
  obtain ⟨hw, C, B, hsplit, hC⟩ := List.find?_eq_some_iff_append.mp h
  have hs : s.vmas = (s.below addr ++ C) ++ w :: B := by
    rw [List.append_assoc, ← hsplit]
    exact List.takeWhile_append_dropWhile.symm
  simp only [isShmAt, Bool.and_eq_true, decide_eq_true_eq, hr, Option.bind_some] at hw
  obtain ⟨hat, hshm⟩ := hw
  refine ⟨_, B, hs, hat, ?_, ?_⟩
  · rw [hsplit, List.dropWhile_append_of_pos hC]
    simp [isShmAt, hat, hr, hshm]
  · intro v hv hvr hvat
    rcases List.mem_append.mp hv with hlow | hmid
    · -- an offset is not negative, so an attached entry is not below `addr`
      have hlt : v.base < addr := by simpa using List.all_eq_true.mp List.all_takeWhile v hlow
      have hge := hoff v (hs ▸ List.mem_append_left _ hv)
      unfold AttachedAt at hvat
      omega
    · have hnot := hC v hmid
      unfold AttachedAt at hvat
      simp [isShmAt, hvat, hvr, hshm] at hnot

/-- What is left of the map: of the entries behind the first attached one, those of
its segment that end within the segment's length are gone. -/
theorem deleteSHMRegion_vmas (hs : s.vmas = A ++ w :: B)
    (hdrop : (s.atOrAfter addr).dropWhile (fun v => !s.isShmAt addr v) = w :: B)
    (hr : w.resource = some r) (hm : s.mappedResources r = some m) (H : Ordered s.vmas) :
    (s.deleteSHMRegion addr).1.vmas = A ++ B.filter fun v => ¬ (v.resource = some r ∧ v.top - addr ≤ m.length) := by
  have hrest : (s.removeEntry w none).vmas = A ++ B := by rw [removeEntry_vmas, hs, Ordered.filter_key (hs ▸ H)]
  have hsub : (A ++ B).Sublist s.vmas := by
    rw [hs]
    exact List.Sublist.append_left (List.sublist_cons_self ..) A
  unfold deleteSHMRegion
  rw [hdrop]
  simp only [hr, hm]
  exact shmLoop_vmas hrest (hrest ▸ H.sublist hsub)

theorem filter_eq_filter_iff {p q : α → Bool} {l : List α} : l.filter p = l.filter q ↔ ∀ x ∈ l, (p x ↔ q x) := by
  constructor
  · intro h x hx
    have hmem : x ∈ l.filter p ↔ x ∈ l.filter q := by rw [h]
    simpa [hx] using hmem
  · intro h
    exact List.filter_congr fun x hx => Bool.eq_iff_iff.mpr (h x hx)

/-- `shmdt(addr)` takes away the entries of the segment that are attached at `addr`,
and `DeleteSHMRegion` the same ones exactly when, behind the first of them, the
entries of the segment that end within its length are the attached ones. -/
theorem deleteSHMRegion_detaches (s : VMATracking) (addr : Nat) (w : VMAEntry) (r : ResourceId)
    (m : MappedResource) (H : Ordered s.vmas) (hoff : ∀ v ∈ s.vmas, 0 ≤ v.offset)
    (hw : firstAttached s addr = some w) (hr : w.resource = some r) (hm : s.mappedResources r = some m) :
    (s.deleteSHMRegion addr).1.vmas = s.vmas.filter (fun v => ¬ (v.resource = some r ∧ AttachedAt addr v)) ↔
      ∀ v ∈ s.vmas, v.resource = some r → w.base < v.base → (v.top ≤ addr + m.length ↔ AttachedAt addr v) := by
  obtain ⟨A, B, hs, hat, hdrop, hA⟩ := firstAttached_split hoff hw hr
  have hkeep : A.filter (fun v => ¬ (v.resource = some r ∧ AttachedAt addr v)) = A :=
    List.filter_eq_self.mpr fun v hv => decide_eq_true fun h => hA v hv h.1 h.2
  rw [deleteSHMRegion_vmas hs hdrop hr hm H, hs, List.filter_append, hkeep,
    List.filter_cons_of_neg (by simp [hr, hat]), List.append_cancel_left_eq, filter_eq_filter_iff]
  rw [hs] at H
  constructor
  · intro h v hv hvr hlt
    rcases List.mem_append.mp hv with hvA | hvB
    · exact absurd (H.lt_of_mem_left hvA).2 hlt.not_gt
    · rcases List.mem_cons.mp hvB with rfl | hvB
      · omega
      · have hiff := h v hvB
        simp only [hvr, true_and, decide_eq_true_eq, not_iff_not] at hiff
        rw [← hiff]
        omega
  · intro h v hv
    by_cases hvr : v.resource = some r
    · have hiff := h v (by simp [hv]) hvr (H.lt_of_mem_right hv).2
      simp only [hvr, true_and, decide_eq_true_eq]
      rw [← hiff]
      omega
    · simp [hvr]

/-- The segment is attached at `0x10000`, and again at `0x12000` over the first
attach's last page. What is left of the second attach is its first page. -/
def attachedTwice : Option VMATracking :=
  run {} [.insertMappedResource 0 ⟨true, 0x3000⟩, .trackVMARange (some 0) 0x10000 0 0x3000 true ⟨true, true, false⟩,
    .trackVMARange (some 0) 0x12000 0 0x3000 true ⟨true, true, false⟩,
    .deleteVMARange 0x13000 0x2000]

/-- Detaching `0x10000` drops the page of the attach at `0x12000` as well. -/
theorem deleteSHMRegion_dropsOther : attachedTwice.map VMATracking.vmas =
        some [⟨some 0, 0x10000, 0, 0x2000, true, ⟨true, true, false⟩⟩,
          ⟨some 0, 0x12000, 0, 0x1000, true, ⟨true, true, false⟩⟩] ∧
      attachedTwice.map (fun s => (s.deleteSHMRegion 0x10000).1.vmas) = some [] := by
  decide

/-- The segment attached at `0x10000` and, beyond its length, at `0x20000`. -/
def attachedApart : VMATracking :=
  (run {} [.insertMappedResource 0 ⟨true, 0x2000⟩,
    .trackVMARange (some 0) 0x10000 0 0x2000 true ⟨true, true, false⟩,
    .trackVMARange (some 0) 0x20000 0 0x2000 true ⟨true, true, false⟩]).getD {}

theorem deleteSHMRegion_detaches_first : (attachedApart.deleteSHMRegion 0x10000).1.vmas =
      attachedApart.vmas.filter fun v => ¬ (v.resource = some 0 ∧ AttachedAt 0x10000 v) :=
  (deleteSHMRegion_detaches attachedApart 0x10000
    ⟨some 0, 0x10000, 0, 0x2000, true, ⟨true, true, false⟩⟩ 0 ⟨true, 0x2000⟩ (by decide)
    (by decide) (by decide) rfl (by decide)).mpr (by decide)

end

end PowerArm.Vma
