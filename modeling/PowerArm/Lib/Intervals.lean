import Mathlib

/-!
# Lists of half-open intervals

Intervals are values of any type with a lower and an upper bound. `Separated`
lists are sorted, without empty or overlapping members. `coalesce` makes one out
of a list sorted by lower bound and keeps the covered points
(`coalesce_separated`, `coalesce_covers`); `upperBound` is the binary search for
the first index that satisfies a monotone test (`upperBound_spec`).
-/

namespace PowerArm.Lib.Intervals

variable {α ρ : Type*} [LinearOrder α]

section
variable (lo hi : ρ → α)

def Has (r : ρ) (a : α) : Prop := lo r ≤ a ∧ a < hi r

def Covers (l : List ρ) (a : α) : Prop := ∃ r ∈ l, Has lo hi r a

def Proper (l : List ρ) : Prop := ∀ r ∈ l, lo r < hi r

structure Separated (l : List ρ) : Prop where
  proper : Proper lo hi l
  apart : l.Pairwise fun r r' => hi r ≤ lo r'

end

/-! ## Coalescing -/

def coalesceStep (joins : ρ → ρ → Bool) (merge : ρ → ρ → ρ) (out : List ρ) (r : ρ) : List ρ :=
  match out with
  | [] => [r]
  | last :: out => if joins last r then merge last r :: out else r :: last :: out

def coalesce (joins : ρ → ρ → Bool) (merge : ρ → ρ → ρ) (l : List ρ) : List ρ :=
  (l.foldl (coalesceStep joins merge) []).reverse

/-- Overlapping intervals are joined, distant ones are not, and the merged interval
is the hull. -/
structure Joining (lo hi : ρ → α) (joins : ρ → ρ → Bool) (merge : ρ → ρ → ρ) : Prop where
  overlap : ∀ r r', lo r' < hi r → joins r r' = true
  touch : ∀ r r', joins r r' = true → lo r' ≤ hi r
  lo_merge : ∀ r r', lo (merge r r') = lo r
  hi_merge : ∀ r r', hi (merge r r') = max (hi r) (hi r')

section
variable {lo hi : ρ → α} {joins : ρ → ρ → Bool} {merge : ρ → ρ → ρ}

@[simp] theorem covers_nil : ¬Covers lo hi [] a := by simp [Covers]

@[simp] theorem covers_cons : Covers lo hi (r :: l) a ↔ Has lo hi r a ∨ Covers lo hi l a := by simp [Covers]

@[simp] theorem covers_append : Covers lo hi (l ++ l') a ↔ Covers lo hi l a ∨ Covers lo hi l' a := by
  simp [Covers, or_and_right, exists_or]

theorem covers_perm (h : l.Perm l') : Covers lo hi l a ↔ Covers lo hi l' a := by simp [Covers, h.mem_iff]

theorem Joining.has_merge (J : Joining lo hi joins merge) (hj : joins r r') (hle : lo r ≤ lo r') :
    Has lo hi (merge r r') a ↔ Has lo hi r a ∨ Has lo hi r' a := by
  simp only [Has, J.lo_merge, J.hi_merge, lt_max_iff]
  have htouch := J.touch r r' hj
  constructor
  · rintro ⟨hlo, hhi | hhi⟩
    · exact .inl ⟨hlo, hhi⟩
    · rcases lt_or_ge a (hi r) with hin | hout
      · exact .inl ⟨hlo, hin⟩
      · exact .inr ⟨htouch.trans hout, hhi⟩
  · rintro (⟨hlo, hhi⟩ | ⟨hlo, hhi⟩)
    · exact ⟨hlo, .inl hhi⟩
    · exact ⟨hle.trans hlo, .inr hhi⟩

/-- What the loop keeps: the output so far is separated (last member first), starts
no later than what is left to read, and covers what has been read. -/
structure Coalesced (lo hi : ρ → α) (out : List ρ) (seen rest : List ρ) : Prop where
  proper : Proper lo hi out
  apart : out.Pairwise fun r r' => hi r' ≤ lo r
  before : ∀ r ∈ out, ∀ r' ∈ rest, lo r ≤ lo r'
  covers : ∀ a, Covers lo hi out a ↔ Covers lo hi seen a

section
variable (J : Joining lo hi joins merge)
include J

theorem Coalesced.step (h : Coalesced lo hi out seen (r :: rest))
    (hr : lo r < hi r) (hsorted : ∀ r' ∈ rest, lo r ≤ lo r') :
    Coalesced lo hi (coalesceStep joins merge out r) (seen ++ [r]) rest := by
  have hbefore : ∀ q ∈ out, ∀ q' ∈ rest, lo q ≤ lo q' := fun q hq q' hq' =>
    h.before q hq q' (List.mem_cons_of_mem _ hq')
  cases out with
  | nil =>
    refine ⟨by simpa [coalesceStep, Proper] using hr, by simp [coalesceStep], ?_, fun a => ?_⟩
    · simpa [coalesceStep] using hsorted
    · have := h.covers a
      simp only [covers_nil, false_iff] at this
      simp [coalesceStep, this]
  | cons last out =>
    have hlast : lo last < hi last := h.proper last (List.mem_cons_self ..)
    have hle : lo last ≤ lo r := h.before last (List.mem_cons_self ..) r (List.mem_cons_self ..)
    have hproper : Proper lo hi out := fun q hq => h.proper q (List.mem_cons_of_mem _ hq)
    obtain ⟨hprev, hrest⟩ := List.pairwise_cons.mp h.apart
    unfold coalesceStep
    dsimp only
    split
    · next hj =>
      refine ⟨?_, ?_, ?_, fun a => ?_⟩
      · intro q hq
        rcases List.mem_cons.mp hq with rfl | hq
        · rw [J.lo_merge, J.hi_merge]
          exact lt_max_of_lt_left hlast
        · exact hproper q hq
      · refine List.pairwise_cons.mpr ⟨fun q hq => ?_, hrest⟩
        rw [J.lo_merge]
        exact hprev q hq
      · intro q hq q' hq'
        rcases List.mem_cons.mp hq with rfl | hq
        · rw [J.lo_merge]
          exact hbefore last (List.mem_cons_self ..) q' hq'
        · exact hbefore q (List.mem_cons_of_mem _ hq) q' hq'
      · rw [covers_append, ← h.covers a, covers_cons, J.has_merge hj hle]
        simp only [covers_cons, covers_nil, or_false]
        exact or_right_comm
    · next hj =>
      have hpast : hi last ≤ lo r := not_lt.mp fun hlt => hj (J.overlap last r hlt)
      refine ⟨?_, ?_, ?_, fun a => ?_⟩
      · intro q hq
        rcases List.mem_cons.mp hq with rfl | hq
        · exact hr
        · exact h.proper q hq
      · refine List.pairwise_cons.mpr ⟨fun q hq => ?_, h.apart⟩
        rcases List.mem_cons.mp hq with rfl | hq
        · exact hpast
        · exact (hprev q hq).trans hle
      · intro q hq q' hq'
        rcases List.mem_cons.mp hq with rfl | hq
        · exact hsorted q' hq'
        · exact hbefore q hq q' hq'
      · rw [covers_append, ← h.covers a]
        simp only [covers_cons, covers_nil, or_false]
        exact or_comm

theorem coalesced_foldl (rest : List ρ) :
    ∀ out seen, Coalesced lo hi out seen rest → Proper lo hi rest → (rest.Pairwise fun r r' => lo r ≤ lo r') →
      Coalesced lo hi (rest.foldl (coalesceStep joins merge) out) (seen ++ rest) [] := by
  induction rest with
  | nil =>
    intro out seen h _ _
    simpa using h
  | cons r rest ih =>
    intro out seen h hproper hsorted
    obtain ⟨hfirst, hrest⟩ := List.pairwise_cons.mp hsorted
    have hstep := h.step J (hproper r (List.mem_cons_self ..)) hfirst
    have := ih _ _ hstep (fun q hq => hproper q (List.mem_cons_of_mem _ hq)) hrest
    simpa using this

theorem coalesced_of_sorted (hproper : Proper lo hi l)
    (hsorted : l.Pairwise fun r r' => lo r ≤ lo r') :
    Coalesced lo hi (l.foldl (coalesceStep joins merge) []) l [] := by
  refine coalesced_foldl J l [] [] ⟨by simp [Proper], by simp, by simp, by simp⟩ hproper hsorted

theorem coalesce_separated (hproper : Proper lo hi l)
    (hsorted : l.Pairwise fun r r' => lo r ≤ lo r') : Separated lo hi (coalesce joins merge l) := by
  have h := coalesced_of_sorted J hproper hsorted
  refine ⟨fun r hr => h.proper r (List.mem_reverse.mp hr), ?_⟩
  exact List.pairwise_reverse.mpr h.apart

theorem coalesce_covers (hproper : Proper lo hi l)
    (hsorted : l.Pairwise fun r r' => lo r ≤ lo r') (a : α) :
    Covers lo hi (coalesce joins merge l) a ↔ Covers lo hi l a := by
  rw [coalesce, covers_perm (List.reverse_perm _)]
  exact (coalesced_of_sorted J hproper hsorted).covers a

/-- A property that a merged interval takes over from either part is not lost. -/
theorem coalesced_exists {P : ρ → Prop} (hmerge : ∀ r r', lo r ≤ lo r' → P r ∨ P r' → P (merge r r'))
    (h : Coalesced lo hi out seen rest) (hproper : Proper lo hi rest)
    (hsorted : rest.Pairwise fun r r' => lo r ≤ lo r') (hP : ∃ q ∈ out ++ rest, P q) :
    ∃ q ∈ rest.foldl (coalesceStep joins merge) out, P q := by
  induction rest generalizing out seen with
  | nil => simpa using hP
  | cons r rest ih =>
    obtain ⟨hfirst, hrest⟩ := List.pairwise_cons.mp hsorted
    refine ih (h.step J (hproper r (List.mem_cons_self ..)) hfirst)
      (fun q hq => hproper q (List.mem_cons_of_mem _ hq)) hrest ?_
    cases out with
    | nil => simpa [coalesceStep] using hP
    | cons last out =>
      have hle := h.before last (List.mem_cons_self ..) r (List.mem_cons_self ..)
      have hboth := hmerge last r hle
      unfold coalesceStep
      grind

end

end

/-! ## Binary search -/

/-- `std::upper_bound` over `count` indices from `first`; halving `count` ends it
within `count` rounds. -/
def upperBoundLoop (above : Nat → Bool) : (fuel first count : Nat) → Nat
  | 0, first, _ => first
  | fuel + 1, first, count =>
    if count = 0 then first
    else
      let half := count / 2
      if above (first + half) then upperBoundLoop above fuel first half
      else upperBoundLoop above fuel (first + half + 1) (count - half - 1)

def upperBound (above : Nat → Bool) (count : Nat) : Nat := upperBoundLoop above count 0 count

section
variable {above : Nat → Bool}

theorem upperBoundLoop_spec (hmono : ∀ i j, i ≤ j → j < size → above i → above j)
    (fuel : Nat) : ∀ first count, count ≤ fuel → first + count ≤ size →
      (∀ i < first, above i = false) → (∀ i, first + count ≤ i → i < size → above i) →
      upperBoundLoop above fuel first count ≤ size ∧
        (∀ i < upperBoundLoop above fuel first count, above i = false) ∧
        ∀ i, upperBoundLoop above fuel first count ≤ i → i < size → above i := by
  induction fuel with
  | zero =>
    intro first count hfuel hsize hbelow habove
    obtain rfl := Nat.le_zero.mp hfuel
    exact ⟨hsize, hbelow, habove⟩
  | succ fuel ih =>
    intro first count hfuel hsize hbelow habove
    unfold upperBoundLoop
    split
    · next hzero =>
      subst hzero
      exact ⟨hsize, hbelow, habove⟩
    · next hpos =>
      dsimp only
      split
      · next hmid =>
        refine ih first (count / 2) (by omega) (by omega) hbelow fun i hi hlt => ?_
        exact hmono _ i hi hlt hmid
      · next hmid =>
        refine ih (first + count / 2 + 1) (count - count / 2 - 1) (by omega) (by omega) ?_
          fun i hi hlt => habove i (by omega) hlt
        intro i hi
        by_contra hset
        exact hmid (hmono i _ (by omega) (by omega) (by simpa using hset))

theorem upperBound_spec (above : Nat → Bool) (size : Nat) (hmono : ∀ i j, i ≤ j → j < size → above i → above j) :
    upperBound above size ≤ size ∧ (∀ i < upperBound above size, above i = false) ∧
      ∀ i, upperBound above size ≤ i → i < size → above i :=
  upperBoundLoop_spec hmono size 0 size (Nat.le_refl _) (by omega) (by simp) fun i hi hlt => by omega

end

def search (test : ρ → Bool) (l : List ρ) : Nat := upperBound (fun i => l[i]?.any test) l.length

theorem search_spec (hmono : l.Pairwise fun r r' => test r → test r') :
    search test l ≤ l.length ∧ (∀ r ∈ l.take (search test l), test r = false) ∧
      ∀ r ∈ l.drop (search test l), test r := by
  have hany : ∀ i (hi : i < l.length), l[i]?.any test = test l[i] :=
    fun i hi => by rw [List.getElem?_eq_getElem hi, Option.any_some]
  unfold search
  obtain ⟨hle, hbelow, habove⟩ := upperBound_spec (fun i => l[i]?.any test) l.length fun i j hij hj hi => by
      rcases Nat.lt_or_eq_of_le hij with hlt | rfl
      · rw [hany i (by omega)] at hi
        rw [hany j hj]
        exact List.pairwise_iff_getElem.mp hmono i j (by omega) hj hlt hi
      · exact hi
  refine ⟨hle, fun r hr => ?_, fun r hr => ?_⟩
  · obtain ⟨i, hi, rfl⟩ := List.mem_take_iff_getElem.mp hr
    rw [← hany i (by omega)]
    exact hbelow i (by omega)
  · obtain ⟨i, hi, rfl⟩ := List.mem_drop_iff_getElem.mp hr
    rw [← hany _ (by omega)]
    exact habove _ (by omega) (by omega)

/-! ## Which member meets an interval -/

def Meets (lo hi : ρ → α) (r : ρ) (start stop : α) : Prop := ∃ a, Has lo hi r a ∧ start ≤ a ∧ a < stop

section
variable {lo hi : ρ → α}

theorem meets_iff (hr : lo r < hi r) (h : start < stop) : Meets lo hi r start stop ↔ start < hi r ∧ lo r < stop := by
  constructor
  · rintro ⟨a, ⟨hlo, hhi⟩, hstart, hstop⟩
    exact ⟨hstart.trans_lt hhi, hlo.trans_lt hstop⟩
  · rintro ⟨hhi, hlo⟩
    rcases le_total (lo r) start with hle | hle
    · exact ⟨start, ⟨hle, hhi⟩, le_refl _, h⟩
    · exact ⟨lo r, ⟨le_refl _, hr⟩, hle, hlo⟩

theorem Separated.lo_le {i j : Nat} (h : Separated lo hi l) (hget : l[i]? = some r) (hj : l[j]? = some r')
    (hij : i < j) : hi r ≤ lo r' := by
  obtain ⟨hli, rfl⟩ := List.getElem?_eq_some_iff.mp hget
  obtain ⟨hlj, rfl⟩ := List.getElem?_eq_some_iff.mp hj
  exact List.pairwise_iff_getElem.mp h.apart i j hli hlj hij

/-- The list cut in three: what ends before `[start, stop)`, what meets it, what starts
after it. -/
structure Cut (lo hi : ρ → α) (l below met above : List ρ) (start stop : α) : Prop where
  eq : l = below ++ met ++ above
  below : ∀ r ∈ below, hi r ≤ start
  met : ∀ r ∈ met, start < hi r ∧ lo r < stop
  above : ∀ r ∈ above, stop ≤ lo r

theorem Separated.mono_hi (h : Separated lo hi l) (start : α) :
    l.Pairwise fun r r' => decide (start < hi r) → decide (start < hi r') := by
  refine (List.Pairwise.and_mem.mp h.apart).imp fun {r r'} hrr => ?_
  obtain ⟨-, hr', hle⟩ := hrr
  simp only [decide_eq_true_eq]
  exact fun hlt => hlt.trans_le (hle.trans (h.proper r' hr').le)

theorem Separated.mono_lo (h : Separated lo hi l) (stop : α) :
    l.Pairwise fun r r' => decide (stop ≤ lo r) → decide (stop ≤ lo r') := by
  refine (List.Pairwise.and_mem.mp h.apart).imp fun {r r'} hrr => ?_
  obtain ⟨hr, -, hle⟩ := hrr
  simp only [decide_eq_true_eq]
  exact fun hle' => hle'.trans ((h.proper r hr).le.trans hle)

theorem Separated.cut (h : Separated lo hi l) (hss : start < stop) :
    ∃ below met above, Cut lo hi l below met above start stop ∧
      search (fun r => decide (start < hi r)) l = below.length ∧
      search (fun r => decide (stop ≤ lo r)) l = below.length + met.length := by
  obtain ⟨hfirst, hbelow, hover⟩ := search_spec (h.mono_hi start)
  obtain ⟨hlast, hunder, habove⟩ := search_spec (h.mono_lo stop)
  generalize search (fun r => decide (start < hi r)) l = i at hfirst hbelow hover
  generalize search (fun r => decide (stop ≤ lo r)) l = j at hlast hunder habove
  simp only [decide_eq_true_eq, decide_eq_false_iff_not, not_lt, not_le] at hbelow hover hunder habove
  -- a member between the two would end before it starts
  have hij : i ≤ j := by
    by_contra hji
    have hj : j < l.length := by omega
    have hend := hbelow l[j] (List.mem_take_iff_getElem.mpr ⟨j, by omega, rfl⟩)
    have hstart := habove l[j] (List.mem_drop_iff_getElem.mpr ⟨0, by omega, rfl⟩)
    have hproper := h.proper l[j] (List.getElem_mem hj)
    exact absurd (hproper.trans_le hend) (hss.trans_le hstart).not_gt
  refine ⟨l.take i, (l.take j).drop i, l.drop j, ⟨?_, hbelow, fun r hr => ⟨?_, ?_⟩, habove⟩, ?_, ?_⟩
  · have htake : l.take i = (l.take j).take i := by rw [List.take_take, Nat.min_eq_left hij]
    rw [htake, List.take_append_drop, List.take_append_drop]
  · refine hover r ?_
    rw [List.drop_take] at hr
    exact List.mem_of_mem_take hr
  · exact hunder r (List.mem_of_mem_drop hr)
  · simp [hfirst]
  · simp only [List.length_take, List.length_drop]
    omega

theorem Separated.ends (h : Separated lo hi l) (hne : l ≠ []) :
    ∃ f g, l.head? = some f ∧ l.getLast? = some g ∧ ∀ r ∈ l, lo f ≤ lo r ∧ hi r ≤ hi g := by
  refine ⟨l.head hne, l.getLast hne, List.head?_eq_some_head hne, List.getLast?_eq_some_getLast hne, ?_⟩
  intro r hr
  obtain ⟨i, hi, rfl⟩ := List.mem_iff_getElem.mp hr
  have hget : l[i]? = some l[i] := List.getElem?_eq_getElem hi
  have hhead : l[0]? = some (l.head hne) := by rw [← List.head?_eq_getElem?, List.head?_eq_some_head hne]
  have hlast : l[l.length - 1]? = some (l.getLast hne) := by
    rw [← List.getLast?_eq_getElem?, List.getLast?_eq_some_getLast hne]
  constructor
  · rcases Nat.eq_zero_or_pos i with rfl | hpos
    · exact (congrArg lo (Option.some.inj (hhead.symm.trans hget))).le
    · exact (h.proper _ (List.head_mem hne)).le.trans (h.lo_le hhead hget hpos)
  · rcases Nat.lt_or_ge i (l.length - 1) with hlt | hge
    · exact (h.lo_le hget hlast hlt).trans (h.proper _ (List.getLast_mem hne)).le
    · obtain rfl : i = l.length - 1 := by omega
      exact (congrArg _ (Option.some.inj (hget.symm.trans hlast))).le

theorem Cut.separated_replace {below met above mid : List ρ}
    (cut : Cut lo hi l below met above start stop) (h : Separated lo hi l)
    (hmid : Separated lo hi mid) (hbelow : ∀ r ∈ below, ∀ m ∈ mid, hi r ≤ lo m)
    (habove : ∀ m ∈ mid, ∀ r ∈ above, hi m ≤ lo r) : Separated lo hi (below ++ mid ++ above) := by
  obtain ⟨hproper, hapart⟩ := h
  rw [cut.eq] at hproper hapart
  simp only [List.pairwise_append] at hapart
  obtain ⟨⟨hlow, -, -⟩, hhigh, hacross⟩ := hapart
  constructor
  · intro r hr
    simp only [List.mem_append] at hr
    rcases hr with (hr | hr) | hr
    · exact hproper r (by simp [hr])
    · exact hmid.proper r hr
    · exact hproper r (by simp [hr])
  · simp only [List.pairwise_append]
    refine ⟨⟨hlow, hmid.apart, hbelow⟩, hhigh, fun r hr q hq => ?_⟩
    rcases List.mem_append.mp hr with hr | hr
    · exact hacross r (List.mem_append_left _ hr) q hq
    · exact habove r hr q hq

theorem Cut.separated_met {below met above : List ρ} (cut : Cut lo hi l below met above start stop)
    (h : Separated lo hi l) : Separated lo hi met := by
  have hsub : met.Sublist l := by
    rw [cut.eq, List.append_assoc]
    exact (List.sublist_append_left _ _).trans (List.sublist_append_right _ _)
  exact ⟨fun r hr => h.proper r (hsub.subset hr), h.apart.sublist hsub⟩

/-- The search for the first member that ends after `a`: it has the first covered point
from `a` on. -/
theorem Separated.search_hi (h : Separated lo hi l) (a : α) :
    (l[search (fun r => decide (a < hi r)) l]? = none ∧ ∀ r ∈ l, hi r ≤ a) ∨
    ∃ r, l[search (fun r => decide (a < hi r)) l]? = some r ∧ r ∈ l ∧ a < hi r ∧
      ∀ q ∈ l, q = r ∨ hi q ≤ a ∨ hi r ≤ lo q := by
  obtain ⟨hle, hbelow, habove⟩ := search_spec (h.mono_hi a)
  generalize search (fun r => decide (a < hi r)) l = k at hle hbelow habove
  simp only [decide_eq_true_eq, decide_eq_false_iff_not, not_lt] at hbelow habove
  rcases Nat.lt_or_eq_of_le hle with hlt | rfl
  · have hget : l[k]? = some l[k] := List.getElem?_eq_getElem hlt
    refine .inr ⟨l[k], hget, List.getElem_mem hlt, ?_, fun q hq => ?_⟩
    · exact habove _ (List.mem_drop_iff_getElem.mpr ⟨0, by omega, rfl⟩)
    · obtain ⟨i, hi', rfl⟩ := List.mem_iff_getElem.mp hq
      rcases Nat.lt_trichotomy i k with hik | rfl | hki
      · exact .inr (.inl (hbelow _ (List.mem_take_iff_getElem.mpr ⟨i, by omega, rfl⟩)))
      · exact .inl rfl
      · exact .inr (.inr (h.lo_le hget (List.getElem?_eq_getElem hi') hki))
  · refine .inl ⟨List.getElem?_eq_none (Nat.le_refl _), fun r hr => hbelow r ?_⟩
    rwa [List.take_length]

/-- Of the members that start at or before `start` only the last can meet the
interval, and of the others the first does if any does. -/
theorem Separated.meets_split (h : Separated lo hi l) (hss : start < stop) (hk : k ≤ l.length)
    (hbelow : ∀ i r, i < k → l[i]? = some r → lo r ≤ start)
    (habove : ∀ i r, k ≤ i → l[i]? = some r → start < lo r) (hr : r ∈ l) (hmeets : Meets lo hi r start stop) :
    (∃ q, 0 < k ∧ l[k - 1]? = some q ∧ start < hi q ∧ lo q < stop) ∨ ∃ q, l[k]? = some q ∧ lo q < stop := by
  have hmem := fun q (hq : q ∈ l) => h.proper q hq
  obtain ⟨hhi, hlo⟩ := (meets_iff (hmem r hr) hss).mp hmeets
  obtain ⟨i, hget⟩ := List.mem_iff_getElem?.mp hr
  rcases Nat.lt_or_ge i k with hik | hki
  · have hlast : l[k - 1]? = some l[k - 1] := List.getElem?_eq_getElem (by omega)
    rcases Nat.lt_or_ge i (k - 1) with hlt | hge
    · have hnext := h.lo_le hget hlast hlt
      have hstart := hbelow (k - 1) _ (by omega) hlast
      exact absurd (hnext.trans hstart) (not_le.mpr hhi)
    · obtain rfl : i = k - 1 := by omega
      exact .inl ⟨r, by omega, hget, hhi, hlo⟩
  · have hil := (List.getElem?_eq_some_iff.mp hget).1
    have hfirst : l[k]? = some l[k] := List.getElem?_eq_getElem (by omega)
    refine .inr ⟨_, hfirst, ?_⟩
    rcases Nat.lt_or_ge k i with hlt | hge
    · have hprev := h.lo_le hfirst hget hlt
      exact ((hmem _ (List.mem_of_getElem? hfirst)).trans_le hprev).trans hlo
    · obtain rfl : i = k := by omega
      obtain rfl := Option.some.inj (hfirst.symm.trans hget)
      exact hlo

end

end PowerArm.Lib.Intervals
