import PowerArm.Vma.Tracking

/-!
# Edits of the tracked mappings

`Tracked last s` is the invariant of the tracking state: the entries are apart
and not empty, each keeps for its addresses what `last` says, and the entries of
each resource are threaded in the order of the map. Every call is made of few
edits (trimming an entry, inserting one after another, removing one, replacing
one by its trailing part), and each edit keeps the invariant.
-/

namespace PowerArm.Vma

open Lib VMATracking

abbrev Record := Nat → Option (Option ResourceId × Int)

def basesOf (l : List VMAEntry) (r : ResourceId) : List Nat :=
  (l.filter fun v => v.resource = some r).map VMAEntry.base

@[simp] theorem basesOf_nil : basesOf [] r = [] := rfl

@[simp] theorem basesOf_append : basesOf (l₁ ++ l₂) r = basesOf l₁ r ++ basesOf l₂ r := by simp [basesOf]

theorem basesOf_cons_eq (h : v.resource = some r) : basesOf (v :: l) r = v.base :: basesOf l r := by
  simp [basesOf, h]

theorem basesOf_cons_ne (h : v.resource ≠ some r) : basesOf (v :: l) r = basesOf l r := by simp [basesOf, h]

theorem basesOf_eq_map (h : ∀ v ∈ l, v.resource = some r) : basesOf l r = l.map VMAEntry.base := by
  rw [basesOf, List.filter_eq_self.mpr (by simpa using h)]

theorem basesOf_eq_nil (h : ∀ v ∈ l, v.resource ≠ some r) : basesOf l r = [] := by
  rw [basesOf, List.filter_eq_nil_iff.mpr (by simpa using h), List.map_nil]

theorem mem_basesOf : b ∈ basesOf l r ↔ ∃ v ∈ l, v.resource = some r ∧ v.base = b := by simp [basesOf, and_assoc]

def VMAEntry.Keeps (last : Record) (v : VMAEntry) : Prop :=
  ∀ a, v.base ≤ a → a < v.top → last a = some (v.resource, v.offset + a - v.base)

/-- The entries in the order of the map: apart, not empty, of live resources. -/
structure Layout (last : Record) (live : ResourceId → Prop) (l : List VMAEntry) : Prop where
  apart : l.Pairwise fun v w => v.top ≤ w.base
  nonempty : ∀ v ∈ l, 0 < v.length
  keeps : ∀ v ∈ l, v.Keeps last
  live : ∀ v ∈ l, ∀ r, v.resource = some r → live r

def Live (s : VMATracking) (r : ResourceId) : Prop := (s.mappedResources r).isSome

structure Tracked (last : Record) (s : VMATracking) : Prop where
  layout : Layout last (Live s) s.vmas
  threaded : Threaded s.links s.firstVMA (basesOf s.vmas)

/-! ## Ordered entries -/

structure Ordered (l : List VMAEntry) : Prop where
  apart : l.Pairwise fun v w => v.top ≤ w.base
  nonempty : ∀ v ∈ l, 0 < v.length

instance (l : List VMAEntry) : Decidable (Ordered l) :=
  decidable_of_iff (_ ∧ _) ⟨fun h => ⟨h.1, h.2⟩, fun h => ⟨h.apart, h.nonempty⟩⟩

theorem VMAEntry.base_lt_top {v : VMAEntry} (h : 0 < v.length) : v.base < v.top := Nat.lt_add_of_pos_right h

theorem Ordered.lt_of_mem_left (H : Ordered (A ++ c :: B)) (ha : a ∈ A) : a.top ≤ c.base ∧ a.base < c.base := by
  have h := (List.pairwise_append.mp H.apart).2.2 a ha c (by simp)
  exact ⟨h, (VMAEntry.base_lt_top (H.nonempty a (by simp [ha]))).trans_le h⟩

theorem Ordered.lt_of_mem_right (H : Ordered (A ++ c :: B)) (hb : b ∈ B) : c.top ≤ b.base ∧ c.base < b.base := by
  have h := (List.pairwise_cons.mp (List.pairwise_append.mp H.apart).2.1).1 b hb
  exact ⟨h, (VMAEntry.base_lt_top (H.nonempty c (by simp))).trans_le h⟩

theorem Ordered.sublist (H : Ordered l) (h : l'.Sublist l) : Ordered l' :=
  ⟨H.apart.sublist h, fun v hv => H.nonempty v (h.subset hv)⟩

theorem Ordered.split (H : Ordered l) (k : Nat) : (∀ v ∈ l.takeWhile fun v => v.base < k, v.base < k) ∧
      ∀ v ∈ l.dropWhile fun v => v.base < k, k ≤ v.base := by
  refine ⟨fun v hv => by simpa using List.all_eq_true.mp List.all_takeWhile v hv, fun v hv => ?_⟩
  have hL := H.sublist (List.dropWhile_sublist fun v => v.base < k)
  cases hd : l.dropWhile fun v => v.base < k with
  | nil => simp [hd] at hv
  | cons w rest =>
    have hw : k ≤ w.base := by
      have h := List.head?_dropWhile_not (fun v : VMAEntry => decide (v.base < k)) l
      simpa [hd] using h
    rw [hd] at hv hL
    rcases List.mem_cons.mp hv with rfl | hv
    · exact hw
    · exact hw.trans (Ordered.lt_of_mem_right (A := []) hL hv).2.le

/-! ## Layouts -/

section
variable {last : Record} {live : ResourceId → Prop}

section
variable (H : Layout last live l)
include H

theorem Layout.ordered : Ordered l := ⟨H.apart, H.nonempty⟩

theorem Layout.ascending : (l.map VMAEntry.base).Pairwise (· < ·) := by
  refine List.pairwise_map.mpr (H.apart.imp_of_mem fun hv _ h => ?_)
  exact (VMAEntry.base_lt_top (H.nonempty _ hv)).trans_le h

theorem Layout.basesOf_ascending (r : ResourceId) : (basesOf l r).Pairwise (· < ·) :=
  H.ascending.sublist (List.filter_sublist.map _)

theorem Layout.basesOf_nodup (r : ResourceId) : (basesOf l r).Nodup :=
  (H.basesOf_ascending r).imp Nat.ne_of_lt

theorem Layout.basesOf_disjoint (hr : r' ≠ r) : ∀ b ∈ basesOf l r', b ∉ basesOf l r := by
  intro b hb' hb
  obtain ⟨v, hv, hvr, hvb⟩ := mem_basesOf.mp hb'
  obtain ⟨w, hw, hwr, rfl⟩ := mem_basesOf.mp hb
  have heq : v = w := List.inj_on_of_nodup_map (H.ascending.imp Nat.ne_of_lt) hv hw hvb
  subst heq
  exact hr (Option.some.inj (hvr.symm.trans hwr))

end

theorem Layout.lt_of_mem_left (H : Layout last live (A ++ c :: B)) (ha : a ∈ A) : a.top ≤ c.base ∧ a.base < c.base :=
  H.ordered.lt_of_mem_left ha

theorem Layout.lt_of_mem_right (H : Layout last live (A ++ c :: B)) (hb : b ∈ B) : c.top ≤ b.base ∧ c.base < b.base :=
  H.ordered.lt_of_mem_right hb

theorem Layout.sublist (H : Layout last live l) (h : l'.Sublist l) : Layout last live l' where
  apart := H.apart.sublist h
  nonempty v hv := H.nonempty v (h.subset hv)
  keeps v hv := H.keeps v (h.subset hv)
  live v hv := H.live v (h.subset hv)

structure Piece (c v : VMAEntry) : Prop where
  base_le : c.base ≤ v.base
  top_le : v.top ≤ c.top
  nonempty : 0 < v.length
  resource : v.resource = c.resource
  offset : v.offset = c.offset + v.base - c.base

theorem Piece.keeps (h : Piece c v) (hc : c.Keeps last) : v.Keeps last := by
  intro a hb ht
  rw [hc a (h.base_le.trans hb) (ht.trans_le h.top_le), h.resource, h.offset]
  congr 2
  omega

theorem Layout.insert (H : Layout last live (A ++ B)) (hA : ∀ a ∈ A, a.top ≤ v.base)
    (hB : ∀ b ∈ B, v.top ≤ b.base) (hv : 0 < v.length) (hkeeps : v.Keeps last)
    (hlive : ∀ r, v.resource = some r → live r) : Layout last live (A ++ v :: B) := by
  obtain ⟨hApart, hBpart, hAB⟩ := List.pairwise_append.mp H.apart
  refine ⟨List.pairwise_append.mpr ⟨hApart, List.pairwise_cons.mpr ⟨hB, hBpart⟩, ?_⟩, ?_, ?_, ?_⟩
  · intro a ha b hb
    rcases List.mem_cons.mp hb with rfl | hb
    · exact hA a ha
    · exact hAB a ha b hb
  all_goals
    intro w hw
    have hw' : w ∈ A ++ B ∨ w = v := by
      simp only [List.mem_append, List.mem_cons] at hw ⊢
      tauto
    rcases hw' with hw | rfl
  · exact H.nonempty w hw
  · exact hv
  · exact H.keeps w hw
  · exact hkeeps
  · exact H.live w hw
  · exact hlive

theorem Layout.piece (H : Layout last live (A ++ c :: B)) (h : Piece c v) : Layout last live (A ++ v :: B) := by
  have hc : c ∈ A ++ c :: B := by simp
  refine (H.sublist (by simp)).insert (fun a ha => ?_) (fun b hb => ?_) h.nonempty (h.keeps (H.keeps c hc)) ?_
  · exact (H.lt_of_mem_left ha).1.trans h.base_le
  · exact h.top_le.trans (H.lt_of_mem_right hb).1
  · exact fun r hr => H.live c hc r (h.resource ▸ hr)

end

/-! ## The ordered map -/

theorem emplaceEntry_append (hA : ∀ a ∈ A, a.base < v.base) (hB : ∀ b ∈ B, v.base < b.base) :
    emplaceEntry v (A ++ B) = A ++ v :: B := by
  induction A with
  | nil =>
    cases B with
    | nil => rfl
    | cons b B => simp [emplaceEntry, hB b (by simp)]
  | cons a A ih =>
    have ha := hA a (by simp)
    simp [emplaceEntry, ha.not_gt, ha.ne', ih fun b hb => hA b (by simp [hb])]

section
variable {last : Record} {live : ResourceId → Prop}

theorem Layout.emplace (H : Layout last live (A ++ v :: B)) : emplaceEntry v (A ++ B) = A ++ v :: B :=
  emplaceEntry_append (fun _ ha => (H.lt_of_mem_left ha).2) fun _ hb => (H.lt_of_mem_right hb).2

theorem Layout.fresh (H : Layout last live (A ++ v :: B)) (r : ResourceId) : v.base ∉ basesOf (A ++ B) r := by
  intro hmem
  obtain ⟨w, hw, -, hwb⟩ := mem_basesOf.mp hmem
  rcases List.mem_append.mp hw with hw | hw
  · exact (H.lt_of_mem_left hw).2.ne hwb
  · exact (H.lt_of_mem_right hw).2.ne' hwb

end

theorem map_at (hA : ∀ a ∈ A, a.base < c.base) (hB : ∀ b ∈ B, c.base < b.base) (f : VMAEntry → VMAEntry) :
    (A ++ c :: B).map (fun v => if v.base = c.base then f v else v) = A ++ f c :: B := by
  have hA' : A.map (fun v => if v.base = c.base then f v else v) = A :=
    (List.map_congr_left fun a ha => if_neg (hA a ha).ne).trans (List.map_id' A)
  have hB' : B.map (fun v => if v.base = c.base then f v else v) = B :=
    (List.map_congr_left fun b hb => if_neg (hB b hb).ne').trans (List.map_id' B)
  simp [hA', hB']

theorem filter_ne (hA : ∀ a ∈ A, a.base ≠ c.base) (hB : ∀ b ∈ B, b.base ≠ c.base) :
    (A ++ c :: B).filter (fun v : VMAEntry => v.base ≠ c.base) = A ++ B := by
  rw [List.filter_append, List.filter_cons_of_neg (by simp),
    List.filter_eq_self.mpr (by simpa using hA), List.filter_eq_self.mpr (by simpa using hB)]

/-! ## Threads -/

theorem Layout.threaded_splice {last : Record} {live : ResourceId → Prop} {h h' : Links Nat}
    (hL : Layout last live (A ++ M ++ B)) (H : Threaded h first (basesOf (A ++ C ++ B)))
    (hC : ∀ v ∈ C, v.resource = some r) (hM : ∀ v ∈ M, v.resource = some r)
    (hfirst : first' r = (basesOf (A ++ M ++ B) r).head?) (hfirsts : ∀ r', r' ≠ r → first' r' = first r')
    (hprev : ∀ b, b ∉ M.map VMAEntry.base → h'.prev b = h.prev b)
    (hnext : ∀ b, b ∉ M.map VMAEntry.base → h'.next b = h.next b)
    (hm : Chain h' (basesOf A r).getLast? (M.map VMAEntry.base) (basesOf B r).head?) :
    Threaded ((h'.setNext (basesOf A r).getLast? (M.map VMAEntry.base ++ basesOf B r).head?).setPrev
      (basesOf B r).head? (basesOf A r ++ M.map VMAEntry.base).getLast?) first'
      (basesOf (A ++ M ++ B)) := by
  have hother : ∀ r', r' ≠ r → ∀ l : List VMAEntry, (∀ v ∈ l, v.resource = some r) → basesOf l r' = [] :=
    fun r' hr l hl => basesOf_eq_nil fun v hv e => hr (Option.some.inj (e.symm.trans (hl v hv)))
  have hnew : basesOf (A ++ M ++ B) r = basesOf A r ++ M.map VMAEntry.base ++ basesOf B r := by
    rw [basesOf_append, basesOf_append, basesOf_eq_map hM]
  have hothers : ∀ r', r' ≠ r → basesOf (A ++ M ++ B) r' = basesOf (A ++ C ++ B) r' := by
    intro r' hr
    simp [hother r' hr M hM, hother r' hr C hC]
  refine H.splice (basesOf_append.trans (by rw [basesOf_append])) hnew hothers (hnew ▸ hfirst)
    hfirsts hprev hnext hm (hnew ▸ hL.basesOf_nodup r) fun r' hr b hb => ?_
  rw [← hnew]
  exact hL.basesOf_disjoint hr b (hothers r' hr ▸ hb)

/-! ## Edits -/

section
variable {last : Record} {s : VMATracking} {c v : VMAEntry} {A B : List VMAEntry}

theorem basesOf_anonymous (hr : v.resource = none) : basesOf (A ++ v :: B) = basesOf (A ++ B) := by
  funext r
  simp [basesOf_cons_ne (show v.resource ≠ some r by simp [hr])]

theorem tracked_of_vmas (hvmas : s.vmas = A) (hL : Layout last (Live s) A)
    (hT : Threaded s.links s.firstVMA (basesOf A)) : Tracked last s ∧ s.vmas = A := by
  subst hvmas
  exact ⟨⟨hL, hT⟩, rfl⟩

section
variable (H : Tracked last s)
include H

theorem Tracked.layout_at (hs : s.vmas = A ++ c :: B) : Layout last (Live s) (A ++ c :: B) :=
  hs ▸ H.layout

theorem Tracked.links_at (hs : s.vmas = A ++ c :: B) (hr : c.resource = some r) :
    s.links.prev c.base = (basesOf A r).getLast? ∧ s.links.next c.base = (basesOf B r).head? := by
  have hc := H.threaded.chain r
  rw [hs, basesOf_append, basesOf_cons_eq hr] at hc
  exact hc.neighbours

theorem Tracked.modify (hs : s.vmas = A ++ c :: B) (h : Piece c (f c))
    (hbase : (f c).base = c.base) : Tracked last (s.modify c.base f) ∧ (s.modify c.base f).vmas = A ++ f c :: B := by
  have hvmas : (s.modify c.base f).vmas = A ++ f c :: B := by
    simp only [VMATracking.modify, hs]
    exact map_at (fun _ ha => ((H.layout_at hs).lt_of_mem_left ha).2)
      (fun _ hb => ((H.layout_at hs).lt_of_mem_right hb).2) f
  have hbases : basesOf (A ++ f c :: B) = basesOf s.vmas := by
    funext r
    by_cases hr : c.resource = some r
    · simp [hs, basesOf_cons_eq hr, basesOf_cons_eq (h.resource.trans hr), hbase]
    · simp [hs, basesOf_cons_ne hr, basesOf_cons_ne (h.resource ▸ hr)]
  exact tracked_of_vmas hvmas ((H.layout_at hs).piece h) (hbases ▸ H.threaded)

section
variable (hs : s.vmas = A ++ B) (hL : Layout last (Live s) (A ++ v :: B))
include hs hL

theorem Tracked.emplace_anonymous (hr : v.resource = none) (p n : Option Nat) :
    Tracked last (s.emplace v p n) ∧ (s.emplace v p n).vmas = A ++ v :: B := by
  have hvmas : (s.emplace v p n).vmas = A ++ v :: B := by
    simp only [emplace, hs]
    exact hL.emplace
  refine tracked_of_vmas hvmas hL ?_
  rw [basesOf_anonymous hr, ← hs]
  exact H.threaded.node fun r => hs ▸ hL.fresh r

theorem Tracked.threaded_emplace (hr : v.resource = some r) (hp : p = (basesOf A r).getLast?)
    (hn : n = (basesOf B r).head?) (hfirst : first' r = (basesOf (A ++ v :: B) r).head?)
    (hfirsts : ∀ r', r' ≠ r → first' r' = s.firstVMA r') :
    Threaded (((s.links.node v.base p n).setNext p (some v.base)).setPrev n (some v.base)) first'
      (basesOf (A ++ v :: B)) := by
  have hL' : Layout last (Live s) (A ++ [v] ++ B) := by simpa using hL
  have hthreads : Threaded s.links s.firstVMA (basesOf (A ++ [] ++ B)) := by simpa [hs] using H.threaded
  have hnode : Chain (s.links.node v.base p n) (basesOf A r).getLast?
      ([v].map VMAEntry.base) (basesOf B r).head? := by
    simp [Chain, hp, hn]
  have h := hL'.threaded_splice hthreads (by simp) (by simpa using hr) (by simpa using hfirst) hfirsts
    (fun b hb => s.links.node_prev_of_ne (by simpa using hb))
    (fun b hb => s.links.node_next_of_ne (by simpa using hb)) hnode
  subst hp hn
  simpa using h

theorem Tracked.emplace_insertAfter (hr : v.resource = some r)
    (hp : (basesOf A r).getLast? = some after) (hn : n = (basesOf B r).head?) :
    Tracked last ((s.emplace v (some after) n).listInsertAfter after v.base) ∧
      ((s.emplace v (some after) n).listInsertAfter after v.base).vmas = A ++ v :: B := by
  have hafter : after ∈ basesOf A r := List.mem_of_getLast? hp
  have hne : after ≠ v.base := fun e => hL.fresh r (e ▸ by simp [hafter])
  have hnext : s.links.next after = n := by
    obtain ⟨l, hl⟩ := List.getLast?_eq_some_iff.mp hp
    have hc := H.threaded.chain r
    rw [hs, basesOf_append, hl, List.append_assoc] at hc
    exact hc.neighbours.2.trans hn.symm
  have hvmas : emplaceEntry v s.vmas = A ++ v :: B := hs ▸ hL.emplace
  have hfirst : s.firstVMA r = (basesOf (A ++ v :: B) r).head? := by
    obtain ⟨b, l, hl⟩ := List.exists_cons_of_ne_nil (List.ne_nil_of_mem hafter)
    rw [H.threaded.head, hs, basesOf_append, basesOf_append, hl]
    rfl
  have h := H.threaded_emplace hs hL hr hp.symm hn hfirst fun _ _ => rfl
  refine tracked_of_vmas hvmas hL ?_
  simpa [listInsertAfter, emplace, Links.node_next_of_ne _ hne, hnext] using h

theorem Tracked.emplace_prepend (hr : v.resource = some r)
    (hp : (basesOf A r).getLast? = none) (hn : n = (basesOf B r).head?) :
    Tracked last ((s.emplace v none n).listPrepend r v.base) ∧
      ((s.emplace v none n).listPrepend r v.base).vmas = A ++ v :: B := by
  have hA : basesOf A r = [] := List.getLast?_eq_none_iff.mp hp
  have hvmas : emplaceEntry v s.vmas = A ++ v :: B := hs ▸ hL.emplace
  have hfirst : s.firstVMA r = n := by
    rw [H.threaded.head, hs, basesOf_append, hA, hn]
    rfl
  have hfirst' : Function.update s.firstVMA r (some v.base) r = (basesOf (A ++ v :: B) r).head? := by
    simp [basesOf_cons_eq hr, hA]
  have h := H.threaded_emplace hs hL hr hp.symm hn hfirst' fun r' hr' => Function.update_of_ne hr' ..
  refine tracked_of_vmas hvmas hL ?_
  simpa [listPrepend, emplace, hfirst] using h

end

theorem Tracked.insertAfter (hs : s.vmas = A ++ c :: B)
    (hres : v.resource = c.resource) (hlow : c.top ≤ v.base) (hhigh : ∀ b ∈ B, v.top ≤ b.base)
    (hv : 0 < v.length) (hkeeps : v.Keeps last) :
    Tracked last (s.insertAfter c.base v) ∧ (s.insertAfter c.base v).vmas = A ++ c :: v :: B := by
  have hL := H.layout_at hs
  have hs' : s.vmas = (A ++ [c]) ++ B := by simp [hs]
  have hL' : Layout last (Live s) ((A ++ [c]) ++ v :: B) := by
    refine Layout.insert (by simpa using hL) (fun a ha => ?_) hhigh hv hkeeps
      fun r hr => hL.live c (by simp) r (hres ▸ hr)
    rcases List.mem_append.mp ha with ha | ha
    · have hc := (VMAEntry.base_lt_top (hL.nonempty c (by simp))).le
      exact (hL.lt_of_mem_left ha).1.trans (hc.trans hlow)
    · rwa [List.mem_singleton.mp ha]
  rw [List.append_cons]
  cases hr : v.resource with
  | none => simpa [VMATracking.insertAfter, hr] using H.emplace_anonymous hs' hL' hr ..
  | some r =>
    have hcr : c.resource = some r := hres ▸ hr
    simp only [VMATracking.insertAfter, hr, Option.isSome_some]
    exact H.emplace_insertAfter hs' hL' hr (by simp [basesOf_cons_eq hcr]) (H.links_at hs hcr).2

theorem Tracked.split (hs : s.vmas = A ++ c :: B) (hf : Piece c (f c))
    (hbase : (f c).base = c.base) (hv : Piece c v) (hle : (f c).top ≤ v.base) :
    Tracked last ((s.modify c.base f).insertAfter c.base v) ∧
      ((s.modify c.base f).insertAfter c.base v).vmas = A ++ f c :: v :: B := by
  have hL := H.layout_at hs
  obtain ⟨hT, hvmas⟩ := H.modify hs hf hbase
  have h := hT.insertAfter hvmas (hv.resource.trans hf.resource.symm) hle
    (fun b hb => hv.top_le.trans (hL.lt_of_mem_right hb).1) hv.nonempty
    (hv.keeps (hL.keeps c (by simp)))
  rwa [hbase] at h

theorem Tracked.erase_anonymous (hs : s.vmas = A ++ c :: B) (hr : c.resource = none) :
    Tracked last (s.erase c.base) ∧ (s.erase c.base).vmas = A ++ B := by
  have hL := H.layout_at hs
  have hvmas : (s.erase c.base).vmas = A ++ B := by
    simp only [erase, hs]
    exact filter_ne (fun a ha => (hL.lt_of_mem_left ha).2.ne) fun b hb => (hL.lt_of_mem_right hb).2.ne'
  refine tracked_of_vmas hvmas (hL.sublist (by simp)) ?_
  rw [← basesOf_anonymous hr, ← hs]
  exact H.threaded

theorem Tracked.threaded_remove (hs : s.vmas = A ++ c :: B) (hr : c.resource = some r) :
    Threaded (s.listRemove r c.base).links (s.listRemove r c.base).firstVMA (basesOf (A ++ B)) := by
  have hL := H.layout_at hs
  obtain ⟨hprev, hnext⟩ := H.links_at hs hr
  have hL' : Layout last (Live s) (A ++ [] ++ B) := hL.sublist (by simp)
  have hthreads : Threaded s.links s.firstVMA (basesOf (A ++ [c] ++ B)) := by simpa [hs] using H.threaded
  have hhead := H.threaded.head r
  rw [hs, basesOf_append, basesOf_cons_eq hr] at hhead
  have hfirst : (s.listRemove r c.base).firstVMA r = (basesOf (A ++ [] ++ B) r).head? := by
    cases hA : basesOf A r with
    | nil => simp_all [listRemove]
    | cons a l =>
      have hne : a ≠ c.base := by
        obtain ⟨w, hw, -, rfl⟩ := mem_basesOf.mp (show a ∈ basesOf A r by simp [hA])
        exact (hL.lt_of_mem_left hw).2.ne
      simp [listRemove, hhead, hA, hne]
  have hfirsts : ∀ r', r' ≠ r → (s.listRemove r c.base).firstVMA r' = s.firstVMA r' := by
    intro r' hr'
    simp only [listRemove]
    split
    · exact Function.update_of_ne hr' ..
    · rfl
  have h := hL'.threaded_splice hthreads (by simpa using hr) nofun hfirst hfirsts
    (fun _ _ => rfl) (fun _ _ => rfl) trivial
  simpa [listRemove, hprev, hnext] using h

/-- Removing an entry frees its resource only with the resource's last entry,
and never the preserved one. -/
theorem Tracked.removeEntry (hs : s.vmas = A ++ c :: B) (preserved : Option ResourceId) :
    Tracked last (s.removeEntry c preserved) ∧ (s.removeEntry c preserved).vmas = A ++ B ∧
      ∀ r, some r = preserved → Live s r → Live (s.removeEntry c preserved) r := by
  have hL := H.layout_at hs
  have hvmas : s.vmas.filter (fun v => v.base ≠ c.base) = A ++ B :=
    hs ▸ filter_ne (fun a ha => (hL.lt_of_mem_left ha).2.ne) fun b hb => (hL.lt_of_mem_right hb).2.ne'
  cases hr : c.resource with
  | none =>
    obtain ⟨hT, hv⟩ := H.erase_anonymous hs hr
    simpa [VMATracking.removeEntry, hr] using ⟨hT, hv, fun _ _ hl => hl⟩
  | some r =>
    have hthreads := H.threaded_remove hs hr
    have hL' : Layout last (Live s) (A ++ B) := hL.sublist (by simp)
    simp only [VMATracking.removeEntry, hr]
    split
    · rename_i hfree
      have hnone : basesOf (A ++ B) r = [] := by
        rw [← List.head?_eq_none_iff, ← hthreads.head r]
        exact hfree.1
      refine and_assoc.mp ⟨tracked_of_vmas hvmas ?_ hthreads, ?_⟩
      · refine ⟨hL'.apart, hL'.nonempty, hL'.keeps, fun v hv r' hr' => ?_⟩
        have hne : r' ≠ r := by
          rintro rfl
          exact List.not_mem_nil (hnone ▸ mem_basesOf.mpr ⟨v, hv, hr', rfl⟩)
        simpa [Live, erase, eraseResource, listRemove, hne] using hL'.live v hv r' hr'
      · rintro r' rfl hl
        have hne : r' ≠ r := fun e => hfree.2 (e ▸ rfl)
        simpa [Live, erase, eraseResource, listRemove, hne] using hl
    · obtain ⟨hT, hv⟩ := tracked_of_vmas (s := (s.listRemove r c.base).erase c.base) hvmas hL' hthreads
      exact ⟨hT, hv, fun _ _ hl => hl⟩

/-- The lists after `listReplace` by a new entry with the list fields of the old one. -/
theorem Tracked.threaded_replace (hs : s.vmas = A ++ c :: B)
    (hL' : Layout last (Live s) (A ++ v :: B)) (hr : c.resource = some r)
    (hvr : v.resource = some r) (hne : c.base ≠ v.base) :
    let s' := (s.emplace v (s.links.prev c.base) (s.links.next c.base)).listReplace r c.base v.base
    Threaded s'.links s'.firstVMA (basesOf (A ++ v :: B)) := by
  intro s'
  obtain ⟨hprev, hnext⟩ := H.links_at hs hr
  have hlayout : Layout last (Live s) (A ++ [v] ++ B) := by simpa using hL'
  have hthreads : Threaded s.links s.firstVMA (basesOf (A ++ [c] ++ B)) := by simpa [hs] using H.threaded
  have hhead := H.threaded.head r
  rw [hs, basesOf_append] at hhead
  have hprev' : (s.links.node v.base (s.links.prev c.base) (s.links.next c.base)).prev c.base
      = (basesOf A r).getLast? := (Links.node_prev_of_ne _ hne).trans hprev
  have hnext' : (s.links.node v.base (s.links.prev c.base) (s.links.next c.base)).next c.base
      = (basesOf B r).head? := (Links.node_next_of_ne _ hne).trans hnext
  have hfirst : s'.firstVMA r = (basesOf (A ++ [v] ++ B) r).head? := by
    cases hA : basesOf A r with
    | nil => simp [s', listReplace, emplace, hprev', hA, basesOf_cons_eq hvr]
    | cons a l => simp [s', listReplace, emplace, hprev', hA, hhead]
  have hfirsts : ∀ r', r' ≠ r → s'.firstVMA r' = s.firstVMA r' := by
    intro r' hr'
    simp only [s', listReplace]
    split
    · exact Function.update_of_ne hr' ..
    · rfl
  have hnode : Chain (s.links.node v.base (s.links.prev c.base) (s.links.next c.base))
      (basesOf A r).getLast? ([v].map VMAEntry.base) (basesOf B r).head? := by
    simp [Chain, hprev, hnext]
  have h := hlayout.threaded_splice hthreads (by simpa using hr) (by simpa using hvr) hfirst hfirsts
    (fun b hb => s.links.node_prev_of_ne (by simpa using hb))
    (fun b hb => s.links.node_next_of_ne (by simpa using hb)) hnode
  simpa [s', listReplace, emplace, hprev', hnext'] using h

end

theorem trailing_piece (h₁ : c.base ≤ top) (h₂ : top < c.top) : Piece c (trailing c top) where
  base_le := h₁
  top_le := (Nat.add_sub_cancel' h₂.le).le
  nonempty := Nat.sub_pos_of_lt h₂
  resource := rfl
  offset := by simp only [trailing]; omega

theorem Tracked.replaceByTrailing (H : Tracked last s) (hs : s.vmas = A ++ c :: B)
    (h₁ : c.base < top) (h₂ : top < c.top) :
    Tracked last (s.replaceByTrailing c top) ∧ (s.replaceByTrailing c top).vmas = A ++ trailing c top :: B := by
  have hL := H.layout_at hs
  have hL' : Layout last (Live s) (A ++ trailing c top :: B) := hL.piece (trailing_piece h₁.le h₂)
  have hemplace : emplaceEntry (trailing c top) s.vmas = A ++ c :: trailing c top :: B := by
    have hA : ∀ a ∈ A ++ [c], a.base < (trailing c top).base := by
      intro a ha
      rcases List.mem_append.mp ha with ha | ha
      · exact (hL.lt_of_mem_left ha).2.trans h₁
      · rwa [List.mem_singleton.mp ha]
    rw [hs, List.append_cons, emplaceEntry_append hA fun b hb => h₂.trans_le (hL.lt_of_mem_right hb).1]
    simp
  have hvmas : (emplaceEntry (trailing c top) s.vmas).filter (fun v => v.base ≠ c.base)
      = A ++ trailing c top :: B := by
    rw [hemplace]
    refine filter_ne (fun a ha => (hL.lt_of_mem_left ha).2.ne) fun b hb => ?_
    rcases List.mem_cons.mp hb with rfl | hb
    · exact h₁.ne'
    · exact (hL.lt_of_mem_right hb).2.ne'
  cases hr : c.resource with
  | none =>
    have hthreads := H.threaded
    rw [hs, basesOf_anonymous hr] at hthreads
    simp only [VMATracking.replaceByTrailing, hr]
    refine tracked_of_vmas hvmas hL' ?_
    rw [basesOf_anonymous (show (trailing c top).resource = none from hr)]
    exact hthreads.node hL'.fresh
  | some r =>
    have hthreads := H.threaded_replace hs hL' hr (show (trailing c top).resource = _ from hr) h₁.ne
    simp only [VMATracking.replaceByTrailing, hr]
    exact tracked_of_vmas hvmas hL' hthreads

end

end PowerArm.Vma
