import PowerArm.Decode.Block

/-!
# The executable range check on any oracle

`CheckRangeExecutable` with a query that may answer the same address differently each time,
as long as its answers agree with one set of executable bytes. `checkQueries_exact_iff` says
on which ranges the check is exact for every such oracle and every cache left by earlier
calls. A sum that wraps at the end of the address space is what it fails on.
-/

namespace PowerArm.Decode

/-- The loop of `CheckRangeExecutable`, with the query that is due. -/
def checkQueries (oracle : Nat → Addr → ExecRange) : Nat → Nat → ExecCache → Addr → Addr → Option (Bool × ExecCache)
  | 0, _, _, _, _ => none
  | fuel + 1, k, c, a, size =>
    if a < c.base ∨ c.stop < a + size then
      let r := oracle k a
      let c : ExecCache := ⟨r.base, r.base + r.size⟩
      if r.size = 0 then some (false, c)
      else
        let remaining := c.stop - a
        if remaining < size then checkQueries oracle fuel (k + 1) c (a + remaining) (size - remaining)
        else checkQueries oracle fuel (k + 1) c a size
    else some (true, c)

/-- An answer that agrees with the set of executable bytes. -/
structure Answers (executable : Set Addr) (a : Addr) (r : ExecRange) : Prop where
  empty : r.size = 0 → a ∉ executable
  around : r.size ≠ 0 → r.Contains a
  inside : r.base.toNat + r.size.toNat ≤ 2 ^ 64
  bytes : ∀ x, r.Contains x → x ∈ executable

/-- A cache that calls on the set can have left. -/
def Left (executable : Set Addr) (c : ExecCache) : Prop :=
  c = {} ∨ ∃ a r, Answers executable a r ∧ c = ⟨r.base, r.base + r.size⟩

/-- The loop ends, with the right answer. -/
def Settles (executable : Set Addr) (oracle : Nat → Addr → ExecRange) (k : Nat) (c : ExecCache) (a size : Addr) : Prop :=
  ∃ fuel answer c', checkQueries oracle fuel k c a size = some (answer, c') ∧ Left executable c' ∧
    (answer = true ↔ ∀ x, x - a < size → x ∈ executable)

/-- The check is exact on a range, whatever the oracle answers and whatever is cached. -/
def Exact (executable : Set Addr) (a size : Addr) : Prop :=
  ∀ oracle, (∀ k y, Answers executable y (oracle k y)) → ∀ c, Left executable c → ∀ k, Settles executable oracle k c a size

/-- Where that is so. Above the range, or in it, some byte is not executable, so that no
mapping reaches the end of the address space; a range that itself reaches the end is
executable. -/
def Checked (executable : Set Addr) (a size : Addr) : Prop :=
  if size = 0 then a ∈ executable ∧ (a = 0 ∨ ∃ x, a ≤ x ∧ x ∉ executable)
  else if a.toNat + size.toNat < 2 ^ 64 then (a = 0 ∧ size = 1) ∨ ∃ x, a ≤ x ∧ x ∉ executable
  else (∀ x, x - a < size → x ∈ executable) ∧ (a + size = 0 ∨ a + size = 1 ∨ ∃ x, x ∉ executable)

section
variable {executable : Set Addr} {oracle : Nat → Addr → ExecRange}

theorem Answers.left (h : Answers executable y r) : Left executable ⟨r.base, r.base + r.size⟩ := .inr ⟨y, r, h, rfl⟩

theorem Left.bytes (h : Left executable c) (hge : c.base ≤ x) (hlt : x < c.stop) : x ∈ executable := by
  obtain rfl | ⟨a, r, hr, rfl⟩ := h
  · bv_omega
  · have hinside := hr.inside
    exact hr.bytes x (by unfold ExecRange.Contains; bv_omega)

/-- A mapping around `a` ends before the next byte that is not executable. -/
theorem Answers.stop_le (h : Answers executable a r) (hne : r.size ≠ 0) (hx : x ∉ executable) (hax : a ≤ x) :
    r.base.toNat + r.size.toNat ≤ x.toNat := by
  obtain ⟨hbase, -⟩ := h.around hne
  by_contra hlt
  exact hx (h.bytes x ⟨by bv_omega, by omega⟩)

/-! ## One query -/

theorem checkQueries_inside (hin : ¬ (a < c.base ∨ c.stop < a + size)) (fuel : Nat) :
    checkQueries oracle (fuel + 1) k c a size = some (true, c) := by
  rw [checkQueries, if_neg hin]

theorem checkQueries_empty (hout : a < c.base ∨ c.stop < a + size) (hr : oracle k a = r) (hempty : r.size = 0) (fuel : Nat) :
    checkQueries oracle (fuel + 1) k c a size = some (false, ⟨r.base, r.base + r.size⟩) := by
  rw [checkQueries, if_pos hout]
  simp only [hr, if_pos hempty]

/-- An answer that is not empty: the loop goes on behind it, or asks for the same range again. -/
theorem checkQueries_ask (hout : a < c.base ∨ c.stop < a + size) (hr : oracle k a = r) (hne : r.size ≠ 0)
    (hstop : r.base + r.size = stop) (fuel : Nat) : checkQueries oracle (fuel + 1) k c a size =
      if stop - a < size then checkQueries oracle fuel (k + 1) ⟨r.base, stop⟩ stop (size - (stop - a))
      else checkQueries oracle fuel (k + 1) ⟨r.base, stop⟩ a size := by
  have hnext : a + (stop - a) = stop := by bv_omega
  rw [checkQueries, if_pos hout]
  simp only [hr, if_neg hne, hstop, hnext]

/-! ## Where it is exact -/

theorem in_range_iff {a size : Addr} (hend : a.toNat + size.toNat ≤ 2 ^ 64) (y : Addr) :
    y - a < size ↔ a.toNat ≤ y.toNat ∧ y.toNat < a.toNat + size.toNat := by
  bv_omega

theorem settles_inside (hc : Left executable c) (hend : a.toNat + size.toNat < 2 ^ 64)
    (hin : ¬ (a < c.base ∨ c.stop < a + size)) : Settles executable oracle k c a size := by
  refine ⟨1, true, c, checkQueries_inside hin 0, hc, fun _ y hy => ?_, fun _ => rfl⟩
  have hsum : (a + size).toNat = a.toNat + size.toNat := BitVec.toNat_add_of_lt hend
  obtain ⟨hge, hlt⟩ := (in_range_iff hend.le y).mp hy
  obtain ⟨hbase, hstop⟩ := not_or.mp hin
  rw [BitVec.lt_def, Nat.not_lt] at hbase hstop
  exact hc.bytes (hbase.trans hge) (by rw [BitVec.lt_def]; omega)

section
variable (horacle : ∀ k y, Answers executable y (oracle k y))
include horacle

/-- The answer for the start of the range covers it. -/
theorem settles_covered (hc : Left executable c) (hr : oracle k a = r) (hne : r.size ≠ 0)
    (hstop : r.base.toNat + r.size.toNat < 2 ^ 64) (hend : a.toNat + size.toNat ≤ r.base.toNat + r.size.toNat) :
    Settles executable oracle k c a size := by
  have hanswer := hr ▸ horacle k a
  obtain ⟨hbase, hlt⟩ := hanswer.around hne
  by_cases hout : a < c.base ∨ c.stop < a + size
  · have hno : ¬ r.base + r.size - a < size := by bv_omega
    refine ⟨2, true, _, ?_, hanswer.left, fun _ y hy => hanswer.bytes y ?_, fun _ => rfl⟩
    · rw [checkQueries_ask hout hr hne rfl, if_neg hno]
      exact checkQueries_inside (by bv_omega) 0
    · have := (in_range_iff (by omega) y).mp hy
      exact ⟨by omega, by omega⟩
  · exact settles_inside hc (by omega) hout

theorem settles_gap (hc : Left executable c) (hax : a ≤ x) (hx : x ∉ executable) (hsize : 0 < size.toNat)
    (hend : a.toNat + size.toNat < 2 ^ 64) (k : Nat) : Settles executable oracle k c a size := by
  induction hn : size.toNat using Nat.strong_induction_on generalizing k c a size with
  | _ n ih =>
  by_cases hout : a < c.base ∨ c.stop < a + size
  rotate_left
  · exact settles_inside hc hend hout
  have hanswer := horacle k a
  generalize hr : oracle k a = r at *
  by_cases hempty : r.size = 0
  · refine ⟨1, false, _, checkQueries_empty hout hr hempty 0, hanswer.left, by simp, fun hall => ?_⟩
    exact absurd (hall a (by bv_omega)) (hanswer.empty hempty)
  obtain ⟨hbase, hlt⟩ := hanswer.around hempty
  have hle := hanswer.stop_le hempty hx hax
  by_cases hcovers : a.toNat + size.toNat ≤ r.base.toNat + r.size.toNat
  · exact settles_covered horacle hc hr hempty (Nat.lt_of_le_of_lt hle x.isLt) hcovers
  -- the mapping ends inside the range: go on behind it
  have hstop : (r.base + r.size).toNat = r.base.toNat + r.size.toNat := BitVec.toNat_add_of_lt (by omega)
  have hask := checkQueries_ask hout hr hempty rfl
  have hleft := hanswer.left
  rw [← hstop] at hlt hle hcovers
  generalize r.base + r.size = stop at *
  have hmore : stop - a < size ∧ (size - (stop - a)).toNat = a.toNat + size.toNat - stop.toNat := by
    clear ih hask
    bv_omega
  simp only [if_pos hmore.1] at hask
  obtain ⟨fuel, answer, c', hrun, hc', hiff⟩ := ih _ (show (size - (stop - a)).toNat < n by omega) hleft
    (a := stop) hle (by omega) (by omega) (k + 1) rfl
  have hrange := in_range_iff hend.le
  have hbehind : ∀ y : Addr, y - stop < size - (stop - a) ↔
      stop.toNat ≤ y.toNat ∧ y.toNat < stop.toNat + (size - (stop - a)).toNat := in_range_iff (by omega)
  refine ⟨fuel + 1, answer, c', (hask fuel).trans hrun, hc', hiff.trans ⟨fun hall y hy => ?_, fun hall y hy => ?_⟩⟩
  · have := (hrange y).mp hy
    by_cases hin : y.toNat < stop.toNat
    · exact hanswer.bytes y ⟨by omega, by omega⟩
    · exact hall y ((hbehind y).mpr (by omega))
  · have := (hbehind y).mp hy
    exact hall y ((hrange y).mpr (by omega))

/-- A range that starts at 0 is covered by the first answer, or ends before a gap. -/
theorem settles_start (hc : Left executable c) (hsize : 0 < size.toNat) (h : size = 1 ∨ ∃ x, x ∉ executable)
    (k : Nat) : Settles executable oracle k c 0 size := by
  by_cases hgap : ∃ x, x ∉ executable
  · obtain ⟨x, hx⟩ := hgap
    exact settles_gap horacle hc (Nat.zero_le x.toNat) hx hsize (by simp [size.isLt]) k
  · have hall : ∀ x, x ∈ executable := fun x => by_contra fun hx => hgap ⟨x, hx⟩
    have hne : (oracle k 0).size ≠ 0 := fun h0 => (horacle k 0).empty h0 (hall 0)
    obtain ⟨hbase, hlt⟩ := (horacle k 0).around hne
    have hone := h.resolve_right hgap
    exact settles_covered horacle hc rfl hne (by bv_omega) (by bv_omega)

/-- A range that reaches the end of the address space, all of it executable. -/
theorem settles_wrap (hc : Left executable c) (hend : 2 ^ 64 ≤ a.toNat + size.toNat)
    (hall : ∀ x, x - a < size → x ∈ executable) (h : a + size = 0 ∨ a + size = 1 ∨ ∃ x, x ∉ executable) (k : Nat) :
    Settles executable oracle k c a size := by
  by_cases hout : a < c.base ∨ c.stop < a + size
  rotate_left
  · exact ⟨1, true, c, checkQueries_inside hout 0, hc, fun _ => hall, fun _ => rfl⟩
  have hanswer := horacle k a
  generalize hr : oracle k a = r at *
  have hne : r.size ≠ 0 := fun h0 => hanswer.empty h0 (hall a (by bv_omega))
  have hask := checkQueries_ask hout hr hne rfl
  have hleft := hanswer.left
  obtain ⟨hbase, hlt⟩ := hanswer.around hne
  by_cases hwrap : r.base + r.size = 0
  · rw [hwrap] at hask hleft
    by_cases hmore : 0 - a < size
    · -- the mapping is the last one, and the range goes on at 0
      have hrest : size - (0 - a) = a + size := by bv_omega
      have hw : 0 < (a + size).toNat := by bv_omega
      simp only [if_pos hmore, hrest] at hask
      obtain ⟨fuel, answer, c', hrun, hc', hiff⟩ :=
        settles_start horacle hleft hw (h.resolve_left fun h0 => by bv_omega) (k + 1)
      have htrue : answer = true := hiff.mpr fun y hy => hall y (by bv_omega)
      exact ⟨fuel + 1, answer, c', (hask fuel).trans hrun, hc', iff_of_true htrue hall⟩
    · simp only [if_neg hmore] at hask
      refine ⟨2, true, _, (hask 1).trans (checkQueries_inside ?_ 0), hleft, fun _ => hall, fun _ => rfl⟩
      bv_omega
  · -- the end of the range has wrapped below the mapping
    have hinside := hanswer.inside
    have hmore : r.base + r.size - a < size := by bv_omega
    simp only [if_pos hmore] at hask
    refine ⟨2, true, _, (hask 1).trans (checkQueries_inside ?_ 0), hleft, fun _ => hall, fun _ => rfl⟩
    have hw : r.base + r.size + (size - (r.base + r.size - a)) = a + size := by bv_omega
    rw [hw]
    bv_omega

end

theorem Checked.exact (h : Checked executable a size) : Exact executable a size := by
  intro oracle horacle c hc k
  rw [Checked] at h
  split at h
  next hzero =>
    obtain ⟨ha, hgap⟩ := h
    have hne : (oracle k a).size ≠ 0 := fun h0 => (horacle k a).empty h0 ha
    obtain ⟨hbase, hlt⟩ := (horacle k a).around hne
    have hstop : (oracle k a).base.toNat + (oracle k a).size.toNat < 2 ^ 64 := by
      obtain rfl | ⟨x, hax, hx⟩ := hgap
      · bv_omega
      · exact Nat.lt_of_le_of_lt ((horacle k a).stop_le hne hx hax) x.isLt
    exact settles_covered horacle hc rfl hne hstop (by rw [hzero]; exact hlt.le)
  next hsize =>
  have hpos : 0 < size.toNat := by bv_omega
  split at h
  next hend =>
    obtain ⟨rfl, hone⟩ | ⟨x, hax, hx⟩ := h
    · exact settles_start horacle hc hpos (.inl hone) k
    · exact settles_gap horacle hc hax hx hpos hend k
  next hend => exact settles_wrap horacle hc (Nat.not_lt.mp hend) h.1 h.2 k

/-! ## Where it is not -/

open Classical in
/-- The oracle that answers with the rest of the address space where it can, else with one byte. -/
noncomputable def greedy (executable : Set Addr) (_ : Nat) (y : Addr) : ExecRange :=
  if y ∉ executable then ⟨0, 0⟩
  else if y ≠ 0 ∧ ∀ x, y ≤ x → x ∈ executable then ⟨y, -y⟩
  else ⟨y, 1⟩

theorem greedy_answers (executable : Set Addr) (k : Nat) (y : Addr) : Answers executable y (greedy executable k y) := by
  unfold greedy
  split
  next hy => exact ⟨fun _ => hy, fun h => absurd rfl h, by decide, fun x hx => absurd hx.2 (Nat.not_lt_zero _)⟩
  next hy =>
  split
  next hlast =>
    obtain ⟨hne, hall⟩ := hlast
    refine ⟨fun h => ?_, fun _ => ?_, ?_, fun x hx => hall x ?_⟩
    · bv_omega
    · constructor <;> bv_omega
    · bv_omega
    · have := hx.1
      bv_omega
  next =>
    refine ⟨fun h => ?_, fun _ => ?_, ?_, fun x hx => ?_⟩
    · bv_omega
    · constructor <;> bv_omega
    · bv_omega
    · obtain ⟨h1, h2⟩ := hx
      rw [show x = y by bv_omega]
      exact not_not.mp hy

theorem empty_answers (hx : x ∉ executable) (base : Addr) : Answers executable x ⟨base, 0⟩ :=
  ⟨fun _ => hx, fun h => absurd rfl h, by bv_omega, fun y hy => absurd hy.2 (by simp; exact hy.1)⟩

def Spins (oracle : Nat → Addr → ExecRange) (k : Nat) (c : ExecCache) (a size : Addr) : Prop :=
  ∀ fuel, checkQueries oracle fuel k c a size = none

theorem Spins.not_exact (h : Spins oracle k c a size) (horacle : ∀ k y, Answers executable y (oracle k y))
    (hc : Left executable c) : ¬ Exact executable a size := by
  intro hexact
  obtain ⟨fuel, answer, c', hrun, -⟩ := hexact oracle horacle c hc k
  rw [h fuel] at hrun
  cases hrun

/-- Behind the mapping that was answered the loop goes on, and so it spins if it does there. -/
theorem Spins.more (h : Spins oracle (k + 1) ⟨r.base, stop⟩ stop (size - (stop - a))) (hr : oracle k a = r)
    (hout : a < c.base ∨ c.stop < a + size) (hne : r.size ≠ 0) (hstop : r.base + r.size = stop)
    (hmore : stop - a < size) : Spins oracle k c a size := by
  intro fuel
  cases fuel with
  | zero => rfl
  | succ fuel =>
    rw [checkQueries_ask hout hr hne hstop, if_pos hmore]
    exact h fuel

theorem greedy_last (ha : a ≠ 0) (hall : ∀ x, a ≤ x → x ∈ executable) (k : Nat) : greedy executable k a = ⟨a, -a⟩ := by
  rw [greedy, if_neg (not_not.mpr (hall a (BitVec.le_refl a))), if_pos ⟨ha, hall⟩]

/-- A mapping that ends with the address space: its end is 0, and the loop asks again. -/
theorem greedy_spins (ha : a ≠ 0) (hall : ∀ x, a ≤ x → x ∈ executable) (hend : a.toNat + size.toNat < 2 ^ 64)
    (hout : a < c.base ∨ c.stop < a + size) : Spins (greedy executable) k c a size := by
  intro fuel
  induction fuel generalizing k c with
  | zero => rfl
  | succ fuel ih =>
    rw [checkQueries_ask hout (greedy_last ha hall k) (by bv_omega) (BitVec.add_right_neg a), if_neg (by bv_omega)]
    exact ih (.inr (by bv_omega))

theorem greedy_spins_zero (hall : ∀ x, x ∈ executable) (hsize : 1 < size) (hout : 0 < c.base ∨ c.stop < 0 + size) :
    Spins (greedy executable) k c 0 size := by
  have hr : greedy executable k 0 = ⟨0, 1⟩ := by
    rw [greedy, if_neg (not_not.mpr (hall 0)), if_neg fun h => h.1 rfl]
  have hrest : Spins (greedy executable) (k + 1) ⟨0, 1⟩ 1 (size - (1 - 0)) :=
    greedy_spins (by decide) (fun x _ => hall x) (by bv_omega) (.inr (by bv_omega))
  exact hrest.more hr hout (by decide) rfl (by bv_omega)

theorem Exact.checked (h : Exact executable a size) : Checked executable a size := by
  by_contra hnot
  have hgreedy := greedy_answers executable
  rw [Checked] at hnot
  split at hnot
  next hzero =>
    subst hzero
    by_cases ha : a ∈ executable
    · -- the only mapping left is the last one
      obtain ⟨hne, hall⟩ := not_or.mp fun hor => hnot ⟨ha, hor⟩
      refine (greedy_spins (k := 0) (c := {}) hne (fun x hax => ?_) (by bv_omega) (.inr (by bv_omega))).not_exact
        hgreedy (.inl rfl) h
      exact by_contra fun hx => hall ⟨x, hax, hx⟩
    · obtain ⟨fuel, answer, c', hrun, -, hiff⟩ := h _ hgreedy _ (empty_answers ha (a + 1)).left 0
      have hasked : greedy executable 0 a = ⟨0, 0⟩ := if_pos ha
      cases fuel with
      | zero => cases hrun
      | succ fuel =>
        rw [checkQueries_empty (by bv_omega) hasked rfl] at hrun
        cases hrun
        exact absurd (hiff.mpr fun y hy => by bv_omega) nofun
  next hsize =>
  split at hnot
  next hend =>
    obtain ⟨hstart, hgap⟩ := not_or.mp hnot
    have hall : ∀ x, a ≤ x → x ∈ executable := fun x hax => by_contra fun hx => hgap ⟨x, hax, hx⟩
    by_cases ha : a = 0
    · subst ha
      refine (greedy_spins_zero (k := 0) (c := {}) (fun x => hall x (by bv_omega)) ?_ (.inr (by bv_omega))).not_exact
        hgreedy (.inl rfl) h
      have hone : size ≠ 1 := fun hone => hstart ⟨rfl, hone⟩
      bv_omega
    · exact (greedy_spins (k := 0) (c := {}) ha hall hend (.inr (by bv_omega))).not_exact hgreedy (.inl rfl) h
  next hend =>
    by_cases hall : ∀ x, x - a < size → x ∈ executable
    · obtain ⟨hw0, hw⟩ := not_or.mp fun hor => hnot ⟨hall, hor⟩
      obtain ⟨hw1, hgap⟩ := not_or.mp hw
      have huniv : ∀ x, x ∈ executable := fun x => by_contra fun hx => hgap ⟨x, hx⟩
      have hspins : Spins (greedy executable) 0 {} a size := by
        have hrest : size - (0 - a) = a + size := by bv_omega
        refine .more ?_ (greedy_last (by bv_omega) (fun x _ => huniv x) 0) (.inr (by bv_omega)) (by bv_omega)
          (BitVec.add_right_neg a) (by bv_omega)
        exact hrest ▸ greedy_spins_zero huniv (by bv_omega) (.inl (by bv_omega))
      exact hspins.not_exact hgreedy (.inl rfl) h
    · -- the end of the range wraps, and a cache that holds no byte seems to cover it
      obtain ⟨x, hin, hx⟩ := by simpa only [not_forall] using hall
      obtain ⟨fuel, answer, c', hrun, -, hiff⟩ := h _ hgreedy _ (empty_answers hx (a + size)).left 0
      cases fuel with
      | zero => cases hrun
      | succ fuel =>
        rw [checkQueries_inside (by bv_omega)] at hrun
        cases hrun
        exact hx (hiff.mp rfl x hin)

/-- The check is exact where the range is `Checked`, and nowhere else. -/
theorem checkQueries_exact_iff (executable : Set Addr) (a size : Addr) :
    Exact executable a size ↔ Checked executable a size :=
  ⟨Exact.checked, Checked.exact⟩

end

/-- The last instruction of the address space passes with nothing executable and nothing cached. -/
theorem checkQueries_last_word :
    checkQueries (fun _ _ => ⟨0, 0⟩) 6 0 {} (-4) 4 = some (true, {}) ∧ ¬ Exact ∅ (-4) 4 := by
  refine ⟨rfl, fun h => ?_⟩
  obtain ⟨fuel, answer, c', hrun, -, hiff⟩ := h _ (fun _ _ => empty_answers (Set.notMem_empty _) 0) {} (.inl rfl) 0
  cases fuel with
  | zero => cases hrun
  | succ fuel =>
    cases hrun
    exact hiff.mp rfl (-4) (by decide)

end PowerArm.Decode
