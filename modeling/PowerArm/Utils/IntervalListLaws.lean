import PowerArm.Utils.IntervalList

/-!
# Interval lists are sets of points

The overlaps of an entry are a stretch of the vector. `Insert` puts their hull with the
entry in their place (`insert_eq`), `Remove` what is left of the first and the last
(`remove_eq`). So the vector stays sorted and disjoint and covers the points that the
unions and differences give (`intervalList_exact`). Intervals that only touch are not
joined, and `Contains` reads one of them (`contains_exact_iff`).
-/

namespace PowerArm.Utils

open Lib.Intervals

namespace Interval

variable [LinearOrder α]

def points (r : Interval α) : Set α := Set.Ico r.offset r.stop

theorem has_iff {r : Interval α} : Has offset stop r x ↔ x ∈ r.points := Iff.rfl

end Interval

namespace IntervalList

section Vector

variable (below met above : IntervalList α) (r : Interval α)

theorem insertAt_eq : insertAt (below ++ above) below.length r = below ++ r :: above := by simp [insertAt]

theorem eraseRange_eq :
    eraseRange (below ++ met ++ above) below.length (below.length + met.length) = below ++ above := by
  rw [eraseRange, List.append_assoc, List.take_left', ← List.append_assoc]
  · simp
  · rfl

theorem set_eq (f : Interval α) : (below ++ f :: above).set below.length r = below ++ r :: above := by simp

theorem getElem?_first (hne : met ≠ []) : (below ++ met ++ above)[below.length]? = met.head? := by
  cases met with
  | nil => exact absurd rfl hne
  | cons f met => simp

theorem getElem?_last (hne : met ≠ []) : (below ++ met ++ above)[below.length + met.length - 1]? = met.getLast? := by
  have hpos := List.length_pos_iff.mpr hne
  rw [List.getLast?_eq_getElem?, List.getElem?_append_left (by simp; omega), List.getElem?_append_right (by omega)]
  congr 1
  omega

end Vector

variable [LinearOrder α] {l below met above : IntervalList α} {entry f g : Interval α} {x : α}

/-- No stored interval is empty, and each ends before the next one starts. -/
abbrev Sorted (l : IntervalList α) : Prop := Separated Interval.offset Interval.stop l

abbrev Covered (l : IntervalList α) (x : α) : Prop := Covers Interval.offset Interval.stop l x

abbrev Overlaps (l below met above : IntervalList α) (entry : Interval α) : Prop :=
  Cut Interval.offset Interval.stop l below met above entry.offset entry.stop

theorem equalRange_overlaps (h : l.Sorted) (hlt : entry.offset < entry.stop) :
    ∃ below met above, Overlaps l below met above entry ∧
      l.equalRange entry = (below.length, below.length + met.length) := by
  obtain ⟨below, met, above, cut, hfirst, hstop⟩ := h.cut hlt
  exact ⟨below, met, above, cut, by rw [equalRange, hfirst, hstop]⟩

/-! ## Insert -/

def hull (entry : Interval α) (met : IntervalList α) : Interval α :=
  match met.head?, met.getLast? with
  | some f, some g => ⟨min entry.offset f.offset, max g.stop entry.stop⟩
  | _, _ => entry

theorem insert_eq (h : l.Sorted) (hlt : entry.offset < entry.stop) :
    ∃ below met above, Overlaps l below met above entry ∧ l.insert entry = below ++ [hull entry met] ++ above := by
  obtain ⟨below, met, above, cut, hrange⟩ := equalRange_overlaps h hlt
  refine ⟨below, met, above, cut, ?_⟩
  simp only [IntervalList.insert, hlt.ne, if_false, hrange]
  by_cases hne : met = []
  · subst hne
    simpa [cut.eq, hull] using insertAt_eq below above entry
  · obtain ⟨f, g, hf, hg, -⟩ := (cut.separated_met h).ends hne
    have hpos := List.length_pos_iff.mpr hne
    rw [if_neg (by omega), cut.eq, getElem?_first _ _ _ hne, getElem?_last _ _ _ hne]
    obtain ⟨rest, rfl⟩ := List.head?_eq_some_iff.mp hf
    have herase := eraseRange_eq (below ++ [f]) rest above
    simp only [List.length_append, List.length_cons, List.length_nil, List.append_assoc,
      List.cons_append, List.nil_append] at herase ⊢
    rw [show below.length + (rest.length + 1) - 1 + 1 = below.length + (0 + 1) + rest.length by omega, herase]
    exact set_eq _ _ _ _

theorem hull_points (h : Sorted met) (hmet : ∀ r ∈ met, entry.offset < r.stop ∧ r.offset < entry.stop) :
    x ∈ (hull entry met).points ↔ Covered met x ∨ x ∈ entry.points := by
  by_cases hne : met = []
  · simp [hne, hull]
  · obtain ⟨f, g, hf, hg, hends⟩ := h.ends hne
    have hfmem := List.mem_of_head? hf
    have hgmem := List.mem_of_getLast? hg
    simp only [hull, hf, hg, Interval.points, Set.mem_Ico, min_le_iff, lt_max_iff]
    constructor
    · rintro ⟨hlow, hhigh⟩
      rcases lt_or_ge x entry.offset with hbelow | hin
      · have hfx : f.offset ≤ x := hlow.resolve_left hbelow.not_ge
        exact .inl ⟨f, hfmem, hfx, hbelow.trans (hmet f hfmem).1⟩
      · rcases lt_or_ge x entry.stop with hinside | habove
        · exact .inr ⟨hin, hinside⟩
        · have hgx : x < g.stop := hhigh.resolve_right habove.not_gt
          exact .inl ⟨g, hgmem, (hmet g hgmem).2.le.trans habove, hgx⟩
    · rintro (⟨r, hr, hlow, hhigh⟩ | ⟨hlow, hhigh⟩)
      · exact ⟨.inr ((hends r hr).1.trans hlow), .inl (hhigh.trans_le (hends r hr).2)⟩
      · exact ⟨.inl hlow, .inr hhigh⟩

theorem hull_between (h : l.Sorted) (cut : Overlaps l below met above entry) (hlt : entry.offset < entry.stop) :
    (hull entry met).offset < (hull entry met).stop ∧ (∀ r ∈ below, r.stop ≤ (hull entry met).offset) ∧
      ∀ r ∈ above, (hull entry met).stop ≤ r.offset := by
  by_cases hne : met = []
  · simp only [hne, hull]
    exact ⟨hlt, cut.below, cut.above⟩
  · obtain ⟨f, g, hf, hg, -⟩ := (cut.separated_met h).ends hne
    have hapart := h.apart
    rw [cut.eq] at hapart
    simp only [List.pairwise_append, List.mem_append] at hapart
    obtain ⟨⟨-, -, hlow⟩, -, hhigh⟩ := hapart
    simp only [hull, hf, hg, le_min_iff, max_le_iff]
    refine ⟨(min_le_left _ _).trans_lt (hlt.trans_le (le_max_right _ _)), fun r hr => ?_, fun r hr => ?_⟩
    · exact ⟨cut.below r hr, hlow r hr f (List.mem_of_head? hf)⟩
    · exact ⟨hhigh g (.inr (List.mem_of_getLast? hg)) r hr, cut.above r hr⟩

theorem Sorted.insert (h : l.Sorted) (hle : entry.offset ≤ entry.stop) :
    (l.insert entry).Sorted ∧ ∀ x, (l.insert entry).Covered x ↔ l.Covered x ∨ x ∈ entry.points := by
  rcases hle.eq_or_lt with heq | hlt
  · simp [IntervalList.insert, heq, h, Interval.points]
  · obtain ⟨below, met, above, cut, heq⟩ := insert_eq h hlt
    obtain ⟨hproper, hbelow, habove⟩ := hull_between h cut hlt
    have hmid : Sorted [hull entry met] := ⟨by simpa [Proper] using hproper, List.pairwise_singleton _ _⟩
    rw [heq]
    refine ⟨cut.separated_replace h hmid (by simpa using hbelow) (by simpa using habove), fun x => ?_⟩
    have hhull := hull_points (x := x) (cut.separated_met h) cut.met
    rw [cut.eq]
    simp only [covers_append, covers_cons, covers_nil, Interval.has_iff]
    tauto

/-! ## Remove -/

def leftRest (entry f : Interval α) : IntervalList α :=
  if f.offset < entry.offset then [⟨f.offset, entry.offset⟩] else []

def rightRest (entry g : Interval α) : IntervalList α :=
  if entry.stop < g.stop then [⟨entry.stop, g.stop⟩] else []

theorem removeEnd_eq (below mid above : IntervalList α) (entry g : Interval α) :
    removeEnd (below ++ (mid ++ [g]) ++ above) entry g below.length (below.length + mid.length) =
      below ++ rightRest entry g ++ above := by
  unfold removeEnd rightRest
  have hmid := eraseRange_eq below mid ([⟨entry.stop, g.stop⟩] ++ above)
  have hall := eraseRange_eq below (mid ++ [g]) above
  have hset := set_eq (below ++ mid) above ⟨entry.stop, g.stop⟩ g
  simp only [List.length_append, List.append_assoc, List.cons_append, List.nil_append] at hmid hall hset ⊢
  split
  next =>
    rw [hset]
    split
    next hlast =>
      obtain rfl : mid = [] := List.eq_nil_of_length_eq_zero (by omega)
      rfl
    next hlast =>
      rw [show below.length + mid.length - 1 + 1 = below.length + mid.length by omega, hmid]
      rfl
  next => exact hall

theorem remove_eq (h : l.Sorted) (hlt : entry.offset < entry.stop) :
    ∃ below met above, Overlaps l below met above entry ∧ (met = [] ∧ l.remove entry = l ∨
        ∃ f g, met.head? = some f ∧ met.getLast? = some g ∧
          l.remove entry = below ++ (leftRest entry f ++ rightRest entry g) ++ above) := by
  obtain ⟨below, met, above, cut, hrange⟩ := equalRange_overlaps h hlt
  refine ⟨below, met, above, cut, ?_⟩
  simp only [IntervalList.remove, hlt.ne, if_false, hrange]
  by_cases hne : met = []
  · exact .inl ⟨hne, by simp [hne]⟩
  · have hmet := cut.separated_met h
    obtain ⟨f, g, hf, hg, hends⟩ := hmet.ends hne
    have hpos := List.length_pos_iff.mpr hne
    refine .inr ⟨f, g, hf, hg, ?_⟩
    rw [if_neg (by omega), cut.eq, getElem?_first _ _ _ hne, getElem?_last _ _ _ hne, hf, hg]
    dsimp only
    obtain ⟨rest, rfl⟩ := List.head?_eq_some_iff.mp hf
    split
    next henclosed =>
      -- an interval around the entry is the only overlap
      have hrest : rest = [] := by
        refine List.eq_nil_iff_forall_not_mem.mpr fun r hr => ?_
        have hafter := (List.pairwise_cons.mp hmet.apart).1 r hr
        have hbefore := (cut.met r (List.mem_cons_of_mem _ hr)).2
        exact absurd (henclosed.2.trans_le hafter) hbefore.not_gt
      subst hrest
      obtain rfl : f = g := by simpa using hg
      have hinsert := insertAt_eq below (f :: above) ⟨f.offset, entry.offset⟩
      have hset := set_eq (below ++ [⟨f.offset, entry.offset⟩]) above ⟨entry.stop, f.stop⟩ f
      simp only [List.append_assoc, List.cons_append, List.nil_append] at hinsert hset ⊢
      rw [hinsert]
      simp [leftRest, rightRest, henclosed]
    next hopen =>
      split
      next hstart =>
        rcases List.eq_nil_or_concat' rest with rfl | ⟨mid, last, rfl⟩
        · obtain rfl : f = g := by simpa using hg
          have hend : ¬entry.stop < f.stop := fun hend => hopen ⟨hstart, hend⟩
          simp [leftRest, rightRest, hstart, hend]
        · obtain rfl : last = g := by simpa [List.getLast?_cons] using hg
          have hset : (below ++ (f :: (mid ++ [last])) ++ above).set below.length ⟨f.offset, entry.offset⟩ =
              (below ++ [⟨f.offset, entry.offset⟩]) ++ (mid ++ [last]) ++ above := by
            simp
          have hdone := removeEnd_eq (below ++ [⟨f.offset, entry.offset⟩]) mid above entry last
          rw [if_neg (by simp), hset]
          simp only [List.length_append, List.length_cons, List.length_nil] at hdone ⊢
          rw [show below.length + (mid.length + 1 + 1) - 1 = below.length + 1 + mid.length by omega, hdone]
          simp [leftRest, hstart]
      next hstart =>
        obtain ⟨mid, hmid⟩ : ∃ mid, f :: rest = mid ++ [g] := List.getLast?_eq_some_iff.mp hg
        have hdone := removeEnd_eq below mid above entry g
        rw [hmid, List.length_append, List.length_singleton,
          show below.length + (mid.length + 1) - 1 = below.length + mid.length by omega, hdone]
        simp [leftRest, hstart]

/-- The two rests lie on either side of the entry, within the first and the last overlap. -/
theorem rest_sorted (hlt : entry.offset < entry.stop) : Sorted (leftRest entry f ++ rightRest entry g) := by
  constructor
  · intro r hr
    simp only [leftRest, rightRest, List.mem_append, List.mem_ite_nil_right, List.mem_singleton] at hr
    rcases hr with ⟨hstart, rfl⟩ | ⟨hend, rfl⟩
    · exact hstart
    · exact hend
  · unfold leftRest rightRest
    split
    · split
      · simpa using hlt.le
      · simp
    · split
      · simp
      · simp

theorem rest_points (hmet : ∀ r ∈ met, entry.offset < r.stop ∧ r.offset < entry.stop)
    (hf : f ∈ met) (hg : g ∈ met) (hends : ∀ r ∈ met, f.offset ≤ r.offset ∧ r.stop ≤ g.stop) :
    Covered (leftRest entry f ++ rightRest entry g) x ↔ Covered met x ∧ x ∉ entry.points := by
  have hleft : Covered (leftRest entry f) x ↔ f.offset ≤ x ∧ x < entry.offset := by
    unfold leftRest
    split
    next => simp [Has]
    next hstart =>
      simp only [covers_nil, false_iff, not_and, not_lt]
      exact fun hx => (not_lt.mp hstart).trans hx
  have hright : Covered (rightRest entry g) x ↔ entry.stop ≤ x ∧ x < g.stop := by
    unfold rightRest
    split
    next => simp [Has]
    next hend =>
      simp only [covers_nil, false_iff, not_and, not_lt]
      exact fun hx => (not_lt.mp hend).trans hx
  refine covers_append.trans ((or_congr hleft hright).trans ?_)
  constructor
  · rintro (⟨hlow, hhigh⟩ | ⟨hlow, hhigh⟩)
    · exact ⟨⟨f, hf, hlow, hhigh.trans (hmet f hf).1⟩, fun hin => hhigh.not_ge hin.1⟩
    · exact ⟨⟨g, hg, (hmet g hg).2.le.trans hlow, hhigh⟩, fun hin => hlow.not_gt hin.2⟩
  · rintro ⟨⟨r, hr, hlow, hhigh⟩, hout⟩
    rcases lt_or_ge x entry.offset with hbelow | hin
    · exact .inl ⟨(hends r hr).1.trans hlow, hbelow⟩
    · have habove : entry.stop ≤ x := not_lt.mp fun hinside => hout ⟨hin, hinside⟩
      exact .inr ⟨habove, hhigh.trans_le (hends r hr).2⟩

theorem Overlaps.outside (cut : Overlaps l below met above entry)
    (hx : Covered below x ∨ Covered above x) : x ∉ entry.points := by
  rintro ⟨hlow, hhigh⟩
  rcases hx with ⟨r, hr, -, hx⟩ | ⟨r, hr, hx, -⟩
  · exact (hx.trans_le (cut.below r hr)).not_ge hlow
  · exact ((cut.above r hr).trans hx).not_gt hhigh

theorem Sorted.remove (h : l.Sorted) (hle : entry.offset ≤ entry.stop) :
    (l.remove entry).Sorted ∧ ∀ x, (l.remove entry).Covered x ↔ l.Covered x ∧ x ∉ entry.points := by
  rcases hle.eq_or_lt with heq | hlt
  · simp [IntervalList.remove, heq, h, Interval.points]
  · obtain ⟨below, met, above, cut, ⟨rfl, heq⟩ | ⟨f, g, hf, hg, heq⟩⟩ := remove_eq h hlt
    · rw [heq]
      refine ⟨h, fun x => (and_iff_left_of_imp fun hx => ?_).symm⟩
      rw [cut.eq] at hx
      exact cut.outside (by simpa using hx)
    · have hmet := cut.separated_met h
      obtain ⟨f', g', hf', hg', hends⟩ := hmet.ends (List.ne_nil_of_mem (List.mem_of_head? hf))
      obtain rfl := Option.some.inj (hf.symm.trans hf')
      obtain rfl := Option.some.inj (hg.symm.trans hg')
      have hfmem := List.mem_of_head? hf
      have hgmem := List.mem_of_getLast? hg
      have hapart := h.apart
      rw [cut.eq] at hapart
      simp only [List.pairwise_append, List.mem_append] at hapart
      obtain ⟨⟨-, -, hlow⟩, -, hhigh⟩ := hapart
      rw [heq]
      refine ⟨cut.separated_replace h (rest_sorted hlt) ?_ ?_, fun x => ?_⟩
      · intro r hr m hm
        simp only [leftRest, rightRest, List.mem_append, List.mem_ite_nil_right, List.mem_singleton] at hm
        rcases hm with ⟨-, rfl⟩ | ⟨-, rfl⟩
        · exact hlow r hr f hfmem
        · exact (cut.below r hr).trans hlt.le
      · intro m hm r hr
        simp only [leftRest, rightRest, List.mem_append, List.mem_ite_nil_right, List.mem_singleton] at hm
        rcases hm with ⟨-, rfl⟩ | ⟨-, rfl⟩
        · exact hlt.le.trans (cut.above r hr)
        · exact hhigh g (.inr hgmem) r hr
      · have hrest := rest_points (x := x) cut.met hfmem hgmem hends
        have houtside := cut.outside (x := x)
        rw [cut.eq]
        simp only [Covered, covers_append] at hrest houtside ⊢
        tauto

/-! ## Queries -/

/-- Enclosed, with the distance to the end of the stored interval, or not, with the
distance to the next covered point. -/
structure QueryExact [Sub α] [Zero α] (l : IntervalList α) (x : α) (q : QueryResult α) : Prop where
  enclosed : q.enclosed = true ↔ l.Covered x
  inside : q.enclosed = true → ∃ r ∈ l, x ∈ r.points ∧ q.interval = some r ∧ q.size = r.stop - x
  next : q.enclosed = false → ∀ y, l.Covered y → x < y →
    ∃ r ∈ l, IsLeast {y | l.Covered y ∧ x < y} r.offset ∧ q.interval = some r ∧ q.size = r.offset - x
  last : q.enclosed = false → (∀ y, l.Covered y → y < x) → q.interval = none ∧ q.size = 0

theorem Sorted.query [Sub α] [Zero α] (h : l.Sorted) (x : α) : QueryExact l x (l.query x) := by
  unfold IntervalList.query
  obtain ⟨hnone, hends⟩ | ⟨r, hr, hmem, hend, hothers⟩ := h.search_hi x
  · have hpast : ∀ y, l.Covered y → y < x := fun y ⟨q, hq, hy⟩ => hy.2.trans_le (hends q hq)
    rw [hnone]
    refine ⟨?_, nofun, fun _ y hy hxy => absurd (hpast y hy) hxy.not_gt, fun _ _ => ⟨rfl, rfl⟩⟩
    simpa using fun hx => (hpast x hx).false
  · rw [hr]
    dsimp only
    split
    next hnext =>
      -- the stored intervals before end at or below the offset, those after start later
      have hfrom : ∀ y, l.Covered y → x ≤ y → r.offset ≤ y := by
        rintro y ⟨q, hq, hlow, hhigh⟩ hxy
        rcases hothers q hq with rfl | hbefore | hafter
        · exact hlow
        · exact absurd (hhigh.trans_le hbefore) hxy.not_gt
        · exact ((h.proper r hmem).le.trans hafter).trans hlow
      have hcovered : l.Covered r.offset := ⟨r, hmem, le_refl _, h.proper r hmem⟩
      refine ⟨?_, nofun, fun _ y hy hxy => ?_, fun _ hall => absurd (hall _ hcovered) hnext.not_gt⟩
      · simpa using fun hx => (hfrom x hx (le_refl _)).not_gt hnext
      · exact ⟨r, hmem, ⟨⟨hcovered, hnext⟩, fun z hz => hfrom z hz.1 hz.2.le⟩, rfl, rfl⟩
    next hin =>
      have hinside : x ∈ r.points := ⟨not_lt.mp hin, hend⟩
      refine ⟨?_, fun _ => ⟨r, hmem, hinside, rfl, rfl⟩, nofun, nofun⟩
      simpa using ⟨r, hmem, hinside⟩

theorem Sorted.intersect (h : l.Sorted) (hlt : entry.offset < entry.stop) :
    l.intersect entry ↔ ∃ x ∈ entry.points, l.Covered x := by
  unfold IntervalList.intersect
  obtain ⟨hnone, hends⟩ | ⟨r, hr, hmem, hend, hothers⟩ := h.search_hi entry.offset
  · rw [hnone]
    simp only [Bool.false_eq_true, false_iff, not_exists, not_and]
    rintro x ⟨hx, -⟩ ⟨q, hq, -, hhigh⟩
    exact (hhigh.trans_le (hends q hq)).not_ge hx
  · rw [hr]
    simp only [decide_eq_true_eq]
    constructor
    · intro hbelow
      rcases le_total r.offset entry.offset with hle | hle
      · exact ⟨entry.offset, ⟨le_refl _, hlt⟩, r, hmem, hle, hend⟩
      · exact ⟨r.offset, ⟨hle, hbelow⟩, r, hmem, le_refl _, h.proper r hmem⟩
    · rintro ⟨x, ⟨hlow, hhigh⟩, q, hq, hqlow, hqhigh⟩
      rcases hothers q hq with rfl | hbefore | hafter
      · exact hqlow.trans_lt hhigh
      · exact absurd (hqhigh.trans_le hbefore) hlow.not_gt
      · exact ((h.proper r hmem).le.trans (hafter.trans hqlow)).trans_lt hhigh

theorem Sorted.contains (h : l.Sorted) (hlt : entry.offset < entry.stop) :
    l.contains entry ↔ ∃ r ∈ l, r.offset ≤ entry.offset ∧ entry.stop ≤ r.stop := by
  unfold IntervalList.contains
  obtain ⟨hnone, hends⟩ | ⟨r, hr, hmem, hend, hothers⟩ := h.search_hi entry.offset
  · rw [hnone]
    simp only [Bool.false_eq_true, false_iff, not_exists, not_and, not_le]
    exact fun q hq _ => (hends q hq).trans_lt hlt
  · rw [hr]
    simp only [decide_eq_true_eq]
    constructor
    · exact fun hin => ⟨r, hmem, hin⟩
    · rintro ⟨q, hq, hlow, hhigh⟩
      rcases hothers q hq with rfl | hbefore | hafter
      · exact ⟨hlow, hhigh⟩
      · exact absurd (hlt.trans_le (hhigh.trans hbefore)) (lt_irrefl _)
      · exact absurd (hend.trans_le (hafter.trans hlow)) (lt_irrefl _)

/-- A stored interval ends inside the entry, and the entry is covered all the same: the
next one starts where it ends. -/
def Seam (l : IntervalList α) (entry : Interval α) : Prop :=
  (∀ x ∈ entry.points, l.Covered x) ∧ ∃ r ∈ l, entry.offset < r.stop ∧ r.stop < entry.stop

theorem Sorted.contains_iff (h : l.Sorted) (hlt : entry.offset < entry.stop) :
    l.contains entry ↔ (∀ x ∈ entry.points, l.Covered x) ∧ ¬l.Seam entry := by
  rw [h.contains hlt]
  constructor
  · rintro ⟨r, hr, hlow, hhigh⟩
    refine ⟨fun x hx => ⟨r, hr, hlow.trans hx.1, hx.2.trans_le hhigh⟩, ?_⟩
    rintro ⟨-, q, hq, hafter, hbefore⟩
    obtain ⟨i, hi⟩ := List.mem_iff_getElem?.mp hr
    obtain ⟨j, hj⟩ := List.mem_iff_getElem?.mp hq
    rcases Nat.lt_trichotomy i j with hij | rfl | hji
    · have hproper := (h.lo_le hi hj hij).trans_lt (h.proper q hq)
      exact (hproper.trans hbefore).not_ge hhigh
    · obtain rfl := Option.some.inj (hi.symm.trans hj)
      exact hbefore.not_ge hhigh
    · exact hafter.not_ge ((h.lo_le hj hi hji).trans hlow)
  · rintro ⟨hall, hseam⟩
    obtain ⟨r, hr, hlow, hhigh⟩ := hall entry.offset ⟨le_refl _, hlt⟩
    exact ⟨r, hr, hlow, not_lt.mp fun hinside => hseam ⟨hall, r, hr, hhigh, hinside⟩⟩

end IntervalList

/-! ## Runs -/

namespace IntervalOp

variable [LinearOrder α]

def apply (s : Set α) : IntervalOp α → Set α
  | insert entry => s ∪ entry.points
  | remove entry => s \ entry.points

def points (ops : List (IntervalOp α)) : Set α := ops.foldl apply ∅

theorem step_exact (h : l.Sorted) (hs : ∀ x, l.Covered x ↔ x ∈ s)
    (op : IntervalOp α) (hle : op.entry.offset ≤ op.entry.stop) :
    (step l op).Sorted ∧ ∀ x, (step l op).Covered x ↔ x ∈ apply s op := by
  cases op with
  | insert entry =>
    obtain ⟨hsorted, hpoints⟩ := h.insert hle
    exact ⟨hsorted, fun x => (hpoints x).trans (or_congr_left (hs x))⟩
  | remove entry =>
    obtain ⟨hsorted, hpoints⟩ := h.remove hle
    exact ⟨hsorted, fun x => (hpoints x).trans (and_congr_left' (hs x))⟩

theorem foldl_exact (h : l.Sorted) (hs : ∀ x, l.Covered x ↔ x ∈ s)
    (ops : List (IntervalOp α)) (hle : ∀ op ∈ ops, op.entry.offset ≤ op.entry.stop) :
    (ops.foldl step l).Sorted ∧ ∀ x, (ops.foldl step l).Covered x ↔ x ∈ ops.foldl apply s := by
  induction ops generalizing l s with
  | nil => exact ⟨h, hs⟩
  | cons op ops ih =>
    obtain ⟨hop, hle⟩ := List.forall_mem_cons.mp hle
    obtain ⟨hsorted, hpoints⟩ := step_exact h hs op hop
    exact ih hsorted hpoints hle

theorem run_exact (ops : List (IntervalOp α)) (hle : ∀ op ∈ ops, op.entry.offset ≤ op.entry.stop) :
    (run ops).Sorted ∧ ∀ x, (run ops).Covered x ↔ x ∈ points ops :=
  foldl_exact ⟨by simp [Proper], List.Pairwise.nil⟩ (by simp) ops hle

end IntervalOp

open IntervalOp (run points)

variable [LinearOrder α]

/-- After any inserts and removals the vector is sorted and disjoint and covers the
points that the unions and differences leave, and the queries answer for them. -/
theorem intervalList_exact [Sub α] [Zero α] (ops : List (IntervalOp α))
    (hle : ∀ op ∈ ops, op.entry.offset ≤ op.entry.stop) :
    (run ops).Sorted ∧ (∀ x, (run ops).Covered x ↔ x ∈ points ops) ∧
      (∀ x, (run ops).QueryExact x ((run ops).query x)) ∧
      ∀ entry : Interval α, entry.offset < entry.stop →
        ((run ops).intersect entry = true ↔ ∃ x ∈ entry.points, x ∈ points ops) := by
  obtain ⟨hsorted, hpoints⟩ := IntervalOp.run_exact ops hle
  refine ⟨hsorted, hpoints, hsorted.query, fun entry hlt => ?_⟩
  rw [hsorted.intersect hlt]
  simp only [hpoints]

def holeOps : List (IntervalOp Nat) := [.insert ⟨0, 8⟩, .remove ⟨2, 4⟩]

theorem intervalList_exact_holeOps :
    run holeOps = [⟨0, 2⟩, ⟨4, 8⟩] ∧ (run holeOps).QueryExact 3 ⟨false, 1, some ⟨4, 8⟩⟩ ∧
      ((run holeOps).intersect ⟨1, 3⟩ = true ↔ ∃ x ∈ (⟨1, 3⟩ : Interval Nat).points, x ∈ points holeOps) := by
  obtain ⟨-, -, hquery, hintersect⟩ := intervalList_exact holeOps (by decide)
  exact ⟨by decide, hquery 3, hintersect ⟨1, 3⟩ (by decide)⟩

/-- `Contains` is exact but for an entry that is covered across the end of a stored
interval. -/
theorem contains_exact_iff (ops : List (IntervalOp α))
    (hle : ∀ op ∈ ops, op.entry.offset ≤ op.entry.stop) (entry : Interval α) (hlt : entry.offset < entry.stop) :
    ((run ops).contains entry = true ↔ ∀ x ∈ entry.points, x ∈ points ops) ↔ ¬(run ops).Seam entry := by
  obtain ⟨hsorted, hpoints⟩ := IntervalOp.run_exact ops hle
  have hcovered : (∀ x ∈ entry.points, (run ops).Covered x) ↔ ∀ x ∈ entry.points, x ∈ points ops := by
    simp only [hpoints]
  have hseam : (run ops).Seam entry → ∀ x ∈ entry.points, x ∈ points ops := fun h => hcovered.mp h.1
  rw [hsorted.contains_iff hlt]
  tauto

theorem contains_exact_iff_holeOps :
    (run holeOps).contains ⟨5, 7⟩ = true ↔ ∀ x ∈ (⟨5, 7⟩ : Interval Nat).points, x ∈ points holeOps := by
  refine (contains_exact_iff holeOps (by decide) ⟨5, 7⟩ (by decide)).mpr ?_
  rintro ⟨-, hinside⟩
  exact absurd hinside (by decide)

/-- Two intervals side by side cover the entry, and neither contains it. -/
theorem contains_seam : (run [.insert ⟨0, 4⟩, .insert (⟨4, 8⟩ : Interval Nat)]).contains ⟨2, 6⟩ = false ∧
      ∀ x ∈ (⟨2, 6⟩ : Interval Nat).points, x ∈ points [.insert ⟨0, 4⟩, .insert (⟨4, 8⟩ : Interval Nat)] := by
  refine ⟨by decide, fun x hx => ?_⟩
  simp only [Interval.points, points, IntervalOp.apply, List.foldl_cons, List.foldl_nil, Set.mem_union,
    Set.mem_Ico] at hx ⊢
  omega

end PowerArm.Utils
