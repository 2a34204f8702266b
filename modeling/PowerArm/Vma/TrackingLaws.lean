import PowerArm.Vma.EditLaws
import PowerArm.Lib.Run

/-!
# What tracking keeps over a run

Each call keeps the invariant `Tracked`: the loops of `DeleteVMARange` and
`DeleteSHMRegion` on every input, `ChangeProtectionFlags` when the end of its
range does not cut an entry in one of two ways (`SplitsCleanly`).
-/

namespace PowerArm.Vma

open Lib VMATracking

section
variable {last : Record} {s s' : VMATracking} {c v : VMAEntry} {A B D : List VMAEntry}
  {preserved : Option ResourceId}

def VMAEntry.Covers (v : VMAEntry) (a : Nat) : Prop := v.base ≤ a ∧ a < v.top

instance (v : VMAEntry) (a : Nat) : Decidable (v.Covers a) := inferInstanceAs (Decidable (_ ∧ _))

def covered (l : List VMAEntry) (a : Nat) : Bool := l.any fun v => v.Covers a

@[simp] theorem covered_append : covered (A ++ B) a = (covered A a || covered B a) := List.any_append

@[simp] theorem covered_cons : covered (c :: B) a = (decide (c.Covers a) || covered B a) := rfl

/-! ## DeleteVMARange -/

def Clear (base top : Nat) (v : VMAEntry) : Prop := v.top ≤ base ∨ top ≤ v.base

def Preserves (preserved : Option ResourceId) (s s' : VMATracking) : Prop :=
  ∀ r, some r = preserved → Live s r → Live s' r

theorem Preserves.trans (h : Preserves preserved s s') (h' : Preserves preserved s' s'') :
    Preserves preserved s s'' :=
  fun r hr hl => h' r hr (h r hr hl)

theorem trim_piece (h₁ : 0 < n) (h₂ : n ≤ c.length) (p : VMAProt) : Piece c { c with length := n, prot := p } where
  base_le := le_rfl
  top_le := Nat.add_le_add_left h₂ _
  nonempty := h₁
  resource := rfl
  offset := by simp

theorem live_insertAfter : Live (s.insertAfter after v) r ↔ Live s r := by
  simp only [insertAfter]
  split <;> rfl

theorem live_replaceByTrailing : Live (s.replaceByTrailing c top) r ↔ Live s r := by
  simp only [replaceByTrailing]
  split <;> rfl

/-- What a round leaves of the entry. -/
def remainder (base top : Nat) (c : VMAEntry) : List VMAEntry :=
  (if c.base < base then [{ c with length := base - c.base }] else []) ++
    if top < c.top then [trailing c top] else []

theorem remainder_clear (base top : Nat) (c : VMAEntry) : ∀ v ∈ remainder base top c, Clear base top v := by
  simp only [remainder, List.mem_append, List.mem_ite_nil_right, List.mem_singleton]
  rintro v (⟨hfirst, rfl⟩ | ⟨-, rfl⟩)
  · exact .inl (Nat.add_sub_cancel' hfirst.le).le
  · exact .inr le_rfl

theorem covered_remainder (hc : c.Covers a) (hout : a < base ∨ top ≤ a) : covered (remainder base top c) a := by
  obtain ⟨hlow, hhigh⟩ := hc
  rcases hout with hout | hout
  · refine List.any_eq_true.mpr ⟨{ c with length := base - c.base }, by simp [remainder, hlow.trans_lt hout],
      decide_eq_true ⟨hlow, ?_⟩⟩
    simp only [VMAEntry.top]
    omega
  · refine List.any_eq_true.mpr ⟨trailing c top, by simp [remainder, hout.trans_lt hhigh],
      decide_eq_true ⟨hout, ?_⟩⟩
    simp only [trailing, VMAEntry.top] at hhigh ⊢
    omega

theorem deleteRound_spec (preserved : Option ResourceId) (H : Tracked last s) (hs : s.vmas = A ++ c :: D)
    (hbase : base < c.top)
    (htop : c.base < top) (hle : base ≤ top) :
    Tracked last (deleteRound base top preserved s c) ∧ Preserves preserved s (deleteRound base top preserved s c) ∧
      (deleteRound base top preserved s c).vmas = A ++ (remainder base top c ++ D) := by
  unfold deleteRound remainder
  split
  · -- a first part stays
    rename_i hfirst
    have hpiece : Piece c { c with length := base - c.base } :=
      trim_piece (Nat.sub_pos_of_lt hfirst) (Nat.sub_le_iff_le_add'.mpr hbase.le) c.prot
    split
    · rename_i htrail
      obtain ⟨hT, hv⟩ := H.split (f := fun v => { v with length := base - c.base }) hs hpiece rfl
        (trailing_piece htop.le htrail) ((Nat.add_sub_cancel' hfirst.le).trans_le hle)
      exact ⟨hT, fun _ _ hl => live_insertAfter.mpr hl, hv⟩
    · obtain ⟨hT, hv⟩ := H.modify (f := fun v => { v with length := base - c.base }) hs hpiece rfl
      exact ⟨hT, fun r _ hl => hl, hv⟩
  · split
    · -- the whole entry lies in the range
      rename_i hwhole
      obtain ⟨hT, hv, hp⟩ := H.removeEntry hs preserved
      exact ⟨hT, hp, by simpa [hwhole.not_gt] using hv⟩
    · rename_i htrail
      obtain ⟨hT, hv⟩ := H.replaceByTrailing hs htop (Nat.lt_of_not_le htrail)
      exact ⟨hT, fun _ _ hl => live_replaceByTrailing.mpr hl, by simpa [Nat.lt_of_not_le htrail] using hv⟩

/-- The iteration leaves nothing in the range: the entries `D` it has passed are
clear of it, and so are those below the one it stops at. Outside it uncovers nothing. -/
theorem deleteLoop_spec (H : Tracked last s) (hs : s.vmas = rest.reverse ++ D)
    (hD : ∀ v ∈ D, Clear base top v) (hrest : ∀ v ∈ rest, v.base < top) (hle : base ≤ top) :
    Tracked last (deleteLoop base top preserved rest s) ∧
      Preserves preserved s (deleteLoop base top preserved rest s) ∧
      (∀ v ∈ (deleteLoop base top preserved rest s).vmas, Clear base top v) ∧
      ∀ a, a < base ∨ top ≤ a → covered s.vmas a → covered (deleteLoop base top preserved rest s).vmas a := by
  induction rest generalizing s D with
  | nil => exact ⟨H, fun _ _ hl => hl, by simpa [hs, deleteLoop] using hD, fun _ _ => id⟩
  | cons c rest ih =>
    have hs' : s.vmas = rest.reverse ++ c :: D := by simp [hs]
    obtain ⟨hc, hrest⟩ := List.forall_mem_cons.mp hrest
    unfold deleteLoop
    split
    · rename_i hstop
      refine ⟨H, fun _ _ hl => hl, ?_, fun _ _ => id⟩
      rw [hs']
      intro v hv
      rcases List.mem_append.mp hv with hv | hv
      · have hlt := (H.layout_at hs').lt_of_mem_left hv
        exact .inl (hlt.1.trans ((Nat.le_add_right ..).trans hstop))
      · rcases List.mem_cons.mp hv with rfl | hv
        · exact .inl hstop
        · exact hD v hv
    · rename_i hgo
      obtain ⟨hT, hp, hv⟩ := deleteRound_spec preserved H hs' (Nat.lt_of_not_le hgo) hc hle
      obtain ⟨hT', hp', hclear, hcovered⟩ := ih hT hv
        (fun v hv => (List.mem_append.mp hv).elim (remainder_clear base top c v) (hD v)) hrest
      refine ⟨hT', hp.trans hp', hclear, fun a hout ha => hcovered a hout ?_⟩
      simp only [hv, hs', covered_append, covered_cons, Bool.or_eq_true, decide_eq_true_eq] at ha ⊢
      exact ha.imp_right (Or.imp_left fun hc => covered_remainder hc hout)

theorem VMATracking.vmas_eq (s : VMATracking) (top : Nat) :
    s.vmas = (s.below top).reverse.reverse ++ s.atOrAfter top := by
  rw [List.reverse_reverse]
  exact List.takeWhile_append_dropWhile.symm

theorem deleteVMARange_spec (H : Tracked last s) (base length : Nat) (preserved : Option ResourceId) :
    Tracked last (s.deleteVMARange base length preserved) ∧
      Preserves preserved s (s.deleteVMARange base length preserved) ∧
      (∀ v ∈ (s.deleteVMARange base length preserved).vmas, Clear base (base + length) v) ∧
      ∀ a, a < base ∨ base + length ≤ a → covered s.vmas a →
        covered (s.deleteVMARange base length preserved).vmas a := by
  obtain ⟨hbelow, habove⟩ := H.layout.ordered.split (base + length)
  exact deleteLoop_spec H (s.vmas_eq _) (fun v hv => .inr (habove v hv))
    (fun v hv => hbelow v (List.mem_reverse.mp hv)) (Nat.le_add_right ..)

/-! ## TrackVMARange -/

theorem advance_eq {links : Links Nat} (H : Chain links p (l₁ ++ l₂) none)
    (h₁ : ∀ b ∈ l₁, b < base) (h₂ : ∀ b ∈ l₂, base ≤ b) (hfuel : l₁.length ≤ fuel) :
    advance links base fuel p (l₁ ++ l₂).head? = (l₁.getLast?.or p, l₂.head?) := by
  induction l₁ generalizing p fuel with
  | nil =>
    cases l₂ with
    | nil => cases fuel <;> rfl
    | cons b l₂ =>
      have hb := (h₂ b (by simp)).not_gt
      cases fuel <;> simp [advance, hb]
  | cons b l₁ ih =>
    obtain ⟨hb, h₁⟩ := List.forall_mem_cons.mp h₁
    cases fuel with
    | zero => simp at hfuel
    | succ fuel =>
      obtain ⟨-, hnext, hrest⟩ := H
      rw [getLast?_cons_or, ← ih hrest h₁ (Nat.le_of_succ_le_succ hfuel)]
      simp [advance, hb, hnext]

theorem neighbours_eq (H : Tracked last s) (hs : s.vmas = A ++ B) (hA : ∀ a ∈ A, a.base < base)
    (hB : ∀ b ∈ B, base < b.base) (r : ResourceId) :
    s.neighbours (some r) base = ((basesOf A r).getLast?, (basesOf B r).head?) := by
  have hA' : ∀ b ∈ basesOf A r, b < base := by
    rintro _ hb
    obtain ⟨v, hv, -, rfl⟩ := mem_basesOf.mp hb
    exact hA v hv
  have hB' : ∀ b ∈ basesOf B r, base < b := by
    rintro _ hb
    obtain ⟨v, hv, -, rfl⟩ := mem_basesOf.mp hb
    exact hB v hv
  have hlen : (basesOf A r).length ≤ s.vmas.length := by
    simp only [basesOf, List.length_map, hs, List.length_append]
    exact (List.length_filter_le ..).trans (Nat.le_add_right ..)
  have hhead := H.threaded.head r
  have hchain := H.threaded.chain r
  rw [hs, basesOf_append] at hhead hchain
  simp only [neighbours, Option.bind_some, hhead]
  cases hl₁ : basesOf A r with
  | nil =>
    cases hl₂ : basesOf B r with
    | nil => rfl
    | cons b l₂ =>
      have hchain : Chain s.links none ([] ++ b :: l₂) none := hl₁ ▸ hl₂ ▸ hchain
      have hb : base < b := hB' b (by simp [hl₂])
      simpa [hb] using advance_eq hchain (by simp) (fun x hx => (hB' x (hl₂ ▸ hx)).le) (Nat.zero_le s.vmas.length)
  | cons a l₁ =>
    rw [hl₁, List.cons_append] at hchain
    rw [hl₁] at hlen
    have ha : ¬ base < a := (hA' a (by simp [hl₁])).not_gt
    obtain ⟨-, hnext, hrest⟩ := hchain
    rw [Option.or_none] at hnext
    have hwalk := advance_eq hrest (fun x hx => hA' x (by simp [hl₁, hx])) (fun x hx => (hB' x hx).le)
      ((Nat.le_succ _).trans hlen)
    rw [← getLast?_cons_or a l₁ none, Option.or_none] at hwalk
    simp only [List.cons_append, List.head?_cons, ha, ↓reduceIte, hnext, hwalk]

theorem Tracked.congr (H : Tracked last s)
    (h : ∀ v ∈ s.vmas, ∀ a, v.base ≤ a → a < v.top → last' a = last a) : Tracked last' s :=
  ⟨{ H.layout with keeps := fun v hv a hb ht => (h v hv a hb ht).trans (H.layout.keeps v hv a hb ht) }, H.threaded⟩

theorem Tracked.track (H : Tracked last s) (hclear : ∀ w ∈ s.vmas, Clear v.base v.top w)
    (hv : 0 < v.length) (hkeeps : v.Keeps last) (hlive : ∀ r, v.resource = some r → Live s r) :
    let s' := s.emplace v (s.neighbours v.resource v.base).1 (s.neighbours v.resource v.base).2
    Tracked last (match v.resource, (s.neighbours v.resource v.base).1 with
      | none, _ => s'
      | some r, none => s'.listPrepend r v.base
      | some _, some prev => s'.listInsertAfter prev v.base) := by
  intro s'
  obtain ⟨hbelow, habove⟩ := H.layout.ordered.split v.base
  have hs : s.vmas = s.below v.base ++ s.atOrAfter v.base := List.takeWhile_append_dropWhile.symm
  have hlt := VMAEntry.base_lt_top hv
  have hA : ∀ a ∈ s.below v.base, a.top ≤ v.base := fun a ha =>
    (hclear a (hs ▸ List.mem_append_left _ ha)).resolve_right (Nat.not_le_of_lt ((hbelow a ha).trans hlt))
  have hB : ∀ b ∈ s.atOrAfter v.base, v.top ≤ b.base := fun b hb => by
    have hmem : b ∈ s.vmas := hs ▸ List.mem_append_right _ hb
    exact (hclear b hmem).resolve_left (Nat.not_le_of_lt ((habove b hb).trans_lt
      (VMAEntry.base_lt_top (H.layout.nonempty b hmem))))
  have hL := (hs ▸ H.layout).insert hA hB hv hkeeps hlive
  cases hr : v.resource with
  | none => exact (H.emplace_anonymous hs hL hr ..).1
  | some r =>
    have hn := neighbours_eq H hs hbelow (fun b hb => hlt.trans_le (hB b hb)) r
    simp only [s', hr, hn]
    cases hprev : (basesOf (s.below v.base) r).getLast? with
    | none => exact (H.emplace_prepend hs hL hr hprev rfl).1
    | some prev => exact (H.emplace_insertAfter hs hL hr hprev rfl).1

theorem trackVMARange_spec (H : Tracked last s) (hlen : 0 < length) (hlive : ∀ r, resource = some r → Live s r) :
    Tracked (Op.record last (.trackVMARange resource base offset length shared prot))
      (s.trackVMARange resource base offset length shared prot) := by
  obtain ⟨hT, hp, hclear, -⟩ := deleteVMARange_spec H base length resource
  have hT' : Tracked (Op.record last (.trackVMARange resource base offset length shared prot))
      (s.deleteVMARange base length resource) := by
    refine hT.congr fun v hv a hb ht => if_neg ?_
    rintro ⟨hlow, hhigh⟩
    rcases hclear v hv with h | h
    · exact Nat.not_le_of_lt ht (h.trans hlow)
    · exact Nat.not_le_of_lt hhigh (h.trans hb)
  exact hT'.track (v := { resource, base, offset, length, shared, prot }) hclear hlen
    (fun a hb ht => if_pos ⟨hb, ht⟩) fun r hr => hp r hr.symm (hlive r hr)

/-! ## ChangeProtectionFlags -/

/-- The end of the range cuts no entry, or one that starts where the range
does, or one that starts below it and has no resource. -/
def SplitsCleanly (s : VMATracking) (base top : Nat) : Prop :=
  ∀ v ∈ s.vmas, v.base < top → top < v.top → v.base = base ∨ v.base < base ∧ v.resource = none

instance (s : VMATracking) (base top : Nat) : Decidable (SplitsCleanly s base top) :=
  inferInstanceAs (Decidable (∀ v ∈ s.vmas, _))

theorem insertAfterOrDie_eq (h : s.insertAfterOrDie after v = some s') : s' = s.insertAfter after v := by
  simp only [insertAfterOrDie] at h
  split at h
  · cases h
  · exact (Option.some.inj h).symm

theorem Tracked.insert_anonymous (H : Tracked last s) (hs : s.vmas = A ++ c :: B) (after : Nat)
    (hlow : c.top ≤ v.base) (hhigh : ∀ b ∈ B, v.top ≤ b.base) (hv : 0 < v.length)
    (hkeeps : v.Keeps last) (hr : v.resource = none) : Tracked last (s.insertAfter after v) := by
  have hs' : s.vmas = (A ++ [c]) ++ B := by simp [hs]
  have hc : c.base ≤ c.top := Nat.le_add_right ..
  have hL' : Layout last (Live s) ((A ++ [c]) ++ v :: B) := by
    refine (hs' ▸ H.layout).insert (fun a ha => ?_) hhigh hv hkeeps (by simp [hr])
    rcases List.mem_append.mp ha with ha | ha
    · exact ((H.layout_at hs).lt_of_mem_left ha).1.trans (hc.trans hlow)
    · rwa [List.mem_singleton.mp ha]
  simpa [VMATracking.insertAfter, hr] using (H.emplace_anonymous hs' hL' hr ..).1

theorem middle_piece (newProt : VMAProt) (h₁ : c.base < base) (h₂ : base < top) (h₃ : top ≤ c.top) :
    Piece c (middle c base top newProt) where
  base_le := h₁.le
  top_le := (Nat.add_sub_cancel' h₂.le).trans_le h₃
  nonempty := Nat.sub_pos_of_lt h₂
  resource := rfl
  offset := by simp only [middle]; omega

section
variable (H : Tracked last s)
include H

theorem protectLast_spec (hs : s.vmas = A ++ c :: B) (hlt : base < top)
    (hcut : c.base < base → top < c.top → c.resource = none)
    (h : protectLast base newProt s c top = some s') : Tracked last s' := by
  have hL := H.layout_at hs
  have hpos := hL.nonempty c (by simp)
  unfold protectLast at h
  split at h
  · exact Option.some.inj h ▸ H
  rename_i hbelow
  replace hbelow := Nat.lt_of_not_le hbelow
  split at h
  · -- strategy 1
    rw [← Option.some.inj h]
    exact (H.modify hs (trim_piece hpos le_rfl newProt) rfl).1
  split at h
  · -- strategy 2
    rename_i hcond
    obtain ⟨rfl, htail⟩ := hcond
    rw [insertAfterOrDie_eq h]
    exact (H.split (f := fun v => { v with prot := newProt, length := top - c.base }) hs
      (trim_piece (Nat.sub_pos_of_lt hlt) (Nat.sub_le_iff_le_add'.mpr htail.le) newProt) rfl
      (trailing_piece hlt.le htail) (Nat.add_sub_cancel' hlt.le).le).1
  split at h
  · -- strategy 3
    rename_i hcond
    obtain ⟨hfirst, htop⟩ := hcond
    obtain ⟨s₁, h₁, h₂⟩ := Option.bind_eq_some_iff.mp h
    have hmid := middle_piece newProt hfirst hlt htop
    have hcur : Piece c { c with length := base - c.base } :=
      trim_piece (Nat.sub_pos_of_lt hfirst) (Nat.sub_le_iff_le_add'.mpr hbelow.le) c.prot
    obtain ⟨hT, hv⟩ := H.split (f := fun v => { v with length := base - c.base }) hs hcur rfl hmid
      (Nat.add_sub_cancel' hfirst.le).le
    rw [← insertAfterOrDie_eq h₁] at hT hv
    split at h₂
    · rename_i htail
      have hnone := hcut hfirst htail
      have ht := trailing_piece (hfirst.le.trans hlt.le) htail
      rw [insertAfterOrDie_eq h₂]
      rw [List.append_cons] at hv
      exact hT.insert_anonymous hv c.base (Nat.add_sub_cancel' hlt.le).le
        (fun b hb => ht.top_le.trans (hL.lt_of_mem_right hb).1) ht.nonempty
        (ht.keeps (hL.keeps c (by simp))) hnone
    · exact Option.some.inj h₂ ▸ hT
  · cases h

/-- The iteration only shrinks its range, so after the first entry no entry
reaches past the end of it. -/
theorem protectLoop_spec (hs : s.vmas = rest.reverse ++ D) (hlt : base < top)
    (hD : ∀ v ∈ D, base < v.base)
    (hrest : ∀ v ∈ rest, top < v.top → v.base = base ∨ v.base < base ∧ v.resource = none)
    (h : protectLoop base newProt rest s top = some s') : Tracked last s' := by
  induction rest generalizing s D top with
  | nil =>
    unfold protectLoop at h
    split at h
    · cases h
    · rename_i c l hc
      have hmem : c ∈ D := by
        rw [← List.nil_append D, ← List.reverse_nil, ← hs, hc]
        exact List.mem_cons_self
      exact protectLast_spec (A := []) H hc hlt (fun hb => absurd hb (hD c hmem).not_gt) h
  | cons c rest ih =>
    have hs' : s.vmas = rest.reverse ++ c :: D := by simp [hs]
    have hL := H.layout_at hs'
    obtain ⟨hc, -⟩ := List.forall_mem_cons.mp hrest
    unfold protectLoop at h
    split at h
    · refine protectLast_spec H hs' hlt (fun hb ht => ?_) h
      exact ((hc ht).resolve_left hb.ne).2
    · rename_i hgo
      obtain ⟨hbase, htop⟩ := not_or.mp hgo
      replace hbase := Nat.lt_of_not_le hbase
      have heq : c.top = top := by
        refine Nat.le_antisymm (Nat.le_of_not_lt fun ht => ?_) (Nat.le_of_not_lt htop)
        rcases hc ht with hb | ⟨hb, -⟩
        · exact hbase.ne' hb
        · exact hbase.not_gt hb
      subst heq
      -- the entry ends with the range, and only its protection changes
      have hlen : c.top - c.base = c.length := Nat.add_sub_cancel_left ..
      obtain ⟨s₁, h₁, h₂⟩ := Option.bind_eq_some_iff.mp h
      simp only [protectOverlap, lt_irrefl, ↓reduceIte, Option.pure_def, Option.bind_eq_bind,
        Option.bind_some, Option.some.injEq] at h₁
      obtain ⟨hT, hv⟩ := H.modify (f := fun v => { v with prot := newProt, length := c.top - c.base })
        hs' (trim_piece (hlen ▸ hL.nonempty c (by simp)) hlen.le newProt) rfl
      rw [h₁] at hT hv
      refine ih hT hv hbase (fun v hv => ?_) (fun v hv ht => ?_) h₂
      · rcases List.mem_cons.mp hv with rfl | hv
        · exact hbase
        · exact hD v hv
      · exact absurd (hL.lt_of_mem_left (List.mem_reverse.mpr hv)).1 ht.not_ge

theorem changeProtectionFlags_spec (hclean : SplitsCleanly s base (base + length))
    (h : s.changeProtectionFlags base length newProt = some s') : Tracked last s' := by
  unfold changeProtectionFlags at h
  split at h
  · exact Option.some.inj h ▸ H
  · rename_i hlen
    obtain ⟨hbelow, habove⟩ := H.layout.ordered.split (base + length)
    have hlt : base < base + length := Nat.lt_add_of_pos_right (Nat.pos_of_ne_zero hlen)
    refine protectLoop_spec H (s.vmas_eq _) hlt (fun v hv => hlt.trans_le (habove v hv)) (fun v hv ht => ?_) h
    rw [List.mem_reverse] at hv
    exact hclean v (List.takeWhile_subset _ hv) (hbelow v hv) ht

/-! ## DeleteSHMRegion -/

theorem shmLoop_spec (hs : s.vmas = A ++ rest) :
    Tracked last (shmLoop base shmLength r rest s) := by
  induction rest generalizing s A with
  | nil => exact H
  | cons v rest ih =>
    unfold shmLoop
    split
    · split
      · obtain ⟨hT, hv, -⟩ := H.removeEntry hs none
        exact ih hT hv
      · exact ih H (hs.trans (List.append_cons ..))
    · exact H

theorem deleteSHMRegion_spec : Tracked last (s.deleteSHMRegion base).1 := by
  unfold deleteSHMRegion
  split
  · exact H
  · rename_i v rest hd
    have hsuffix : (v :: rest).IsSuffix s.vmas := hd ▸ (List.dropWhile_suffix _).trans (List.dropWhile_suffix _)
    obtain ⟨A, hs⟩ := hsuffix
    split
    · exact H
    · obtain ⟨hT, hv, -⟩ := H.removeEntry hs.symm none
      exact shmLoop_spec hT hv

/-! ## Runs -/

theorem insertMappedResource_spec (hr : ¬ Live s r) (resource : MappedResource) :
    Tracked last (s.insertMappedResource r resource) := by
  have hnone : basesOf s.vmas r = [] := basesOf_eq_nil fun v hv e => hr (H.layout.live v hv r e)
  refine ⟨{ H.layout with live := fun v hv r' hr' => ?_ }, fun r' => ?_, H.threaded.chain⟩
  · have hne : r' ≠ r := by
      rintro rfl
      exact hr (H.layout.live v hv r' hr')
    simpa [Live, insertMappedResource, hne] using H.layout.live v hv r' hr'
  · by_cases hne : r' = r
    · simp [insertMappedResource, hne, hnone]
    · simpa [insertMappedResource, hne] using H.threaded.head r'

end

end

/-- The ranges are not empty, and the end of a protected range splits no entry
that `ChangeProtectionFlags` splits wrongly. -/
def Op.Admissible (s : VMATracking) : Op → Prop
  | .trackVMARange _ _ _ length _ _ => 0 < length
  | .deleteVMARange _ length => 0 < length
  | .changeProtectionFlags base length _ => 0 < length ∧ SplitsCleanly s base (base + length)
  | _ => True

instance (s : VMATracking) : (op : Op) → Decidable (op.Admissible s)
  | .insertMappedResource .. => isTrue trivial
  | .trackVMARange _ _ _ length _ _ => inferInstanceAs (Decidable (0 < length))
  | .deleteVMARange _ length => inferInstanceAs (Decidable (0 < length))
  | .changeProtectionFlags _ length _ => inferInstanceAs (Decidable (0 < length ∧ SplitsCleanly ..))
  | .deleteSHMRegion _ => isTrue trivial

theorem step_tracked (H : Tracked last s) (hok : op.Admissible s)
    (h : step s op = some s') : Tracked (op.record last) s' := by
  cases op with
  | insertMappedResource r resource =>
    simp only [step] at h
    split at h
    · cases h
    · rename_i hr
      exact Option.some.inj h ▸ insertMappedResource_spec H hr resource
  | trackVMARange resource base offset length shared prot =>
    simp only [step] at h
    split at h
    · rename_i hlive
      refine Option.some.inj h ▸ trackVMARange_spec H hok ?_
      rintro r rfl
      exact hlive
    · cases h
  | deleteVMARange base length => exact Option.some.inj h ▸ (deleteVMARange_spec H base length none).1
  | changeProtectionFlags base length newProt => exact changeProtectionFlags_spec H hok.2 h
  | deleteSHMRegion base => exact Option.some.inj h ▸ deleteSHMRegion_spec H

theorem tracked_empty : Tracked (fun _ => none) {} := ⟨⟨.nil, nofun, nofun, nofun⟩, fun _ => rfl, fun _ => trivial⟩

end PowerArm.Vma
