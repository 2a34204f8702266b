import PowerArm.Decode.Block
import PowerArm.Lib.Submask

/-!
# The executable range cache

`CheckRangeExecutable` answers from the mapping the last query returned when it
can. The answer does not depend on what that was.
-/

namespace PowerArm.Decode

def ExecCache.Valid (rs : ExecRanges) (c : ExecCache) : Prop :=
  c = {} ∨ ∃ r ∈ rs.ranges, c = ⟨r.base, r.base + r.size⟩

theorem ExecRanges.query_mem (rs : ExecRanges) (a : Addr) : rs.query a = ⟨0, 0⟩ ∨ rs.query a ∈ rs.ranges := by
  unfold query
  cases h : rs.ranges.find? (·.Contains a) with
  | none => exact .inl rfl
  | some r => exact .inr (List.mem_of_find?_eq_some h)

theorem ExecRanges.query_eq (rs : ExecRanges) (hr : r ∈ rs.ranges) (ha : r.Contains a) : rs.query a = r := by
  unfold query
  cases h : rs.ranges.find? (·.Contains a) with
  | none => exact absurd ha (by simpa using List.find?_eq_none.mp h r hr)
  | some r' =>
    exact rs.disjoint r' (List.mem_of_find?_eq_some h) r hr a (by simpa using List.find?_some h) ha

theorem ExecRanges.query_valid (rs : ExecRanges) (a : Addr) :
    ExecCache.Valid rs ⟨(rs.query a).base, (rs.query a).base + (rs.query a).size⟩ := by
  rcases rs.query_mem a with h | h
  · exact .inl (by rw [h]; rfl)
  · exact .inr ⟨_, h, rfl⟩

theorem checkLoop_valid (hc : c.Valid rs) : (checkLoop rs fuel c a size).2.Valid rs := by
  induction fuel generalizing c a size with
  | zero => exact hc
  | succ fuel ih =>
    unfold checkLoop
    split
    · dsimp only
      split
      · exact rs.query_valid a
      · split <;> exact ih (rs.query_valid a)
    · exact hc

theorem checkLoop_inside (h : ¬(a < c.base ∨ c.stop < a + size)) : checkLoop rs (fuel + 1) c a size = (true, c) := by
  rw [checkLoop, if_neg h]

theorem checkLoop_cache (hc : c.Valid rs) (hwrap : a.toNat + size.toNat < 2 ^ 64) (hsize : size ≠ 0) :
    (checkLoop rs (fuel + 2) c a size).1 = (checkLoop rs (fuel + 2) {} a size).1 := by
  rcases hc with rfl | ⟨r, hr, rfl⟩
  · rfl
  · have hnew : a < ({} : ExecCache).base ∨ ({} : ExecCache).stop < a + size := by bv_omega
    by_cases hin : a < r.base ∨ r.base + r.size < a + size
    · rw [checkLoop, checkLoop, if_pos hin, if_pos hnew]
    · have hcont : r.Contains a := by constructor <;> bv_omega
      have hq := rs.query_eq hr hcont
      have hrem : ¬ r.base + r.size - a < size := by bv_omega
      rw [checkLoop_inside hin, checkLoop, if_pos hnew]
      rw [hq, if_neg (rs.nonempty r hr), if_neg hrem, checkLoop_inside hin]

def ValidFor (rs : Option ExecRanges) (c : ExecCache) : Prop := ∀ rs', rs = some rs' → c.Valid rs'

/-- Where an accepted instruction can lie. The wrapped last word of the address
space passes the check; everything else is inside a mapping. -/
def Accepted (rs : Option ExecRanges) (a : Addr) : Prop :=
  rs = none ∨ a.toNat + 4 = 2 ^ 64 ∨ a.toNat + 4096 ≤ 2 ^ 64

theorem stop_le {rs : ExecRanges} (hr : r ∈ rs.ranges) : r.base.toNat + r.size.toNat + 4096 ≤ 2 ^ 64 := by
  have := rs.aligned r hr
  have := rs.below r hr
  omega

theorem checkLoop_end (hc : c.Valid rs) (hwrap : a.toNat + size.toNat < 2 ^ 64) (hsize : size ≠ 0)
    (h : (checkLoop rs fuel c a size).1) : a.toNat + size.toNat + 4096 ≤ 2 ^ 64 := by
  induction fuel generalizing c a size with
  | zero => cases h
  | succ fuel ih =>
    unfold checkLoop at h
    split at h
    · dsimp only at h
      split at h
      · cases h
      · have hvalid := rs.query_valid a
        split at h
        · have hsum := ih hvalid ?_ ?_ h <;> bv_omega
        · exact ih hvalid hwrap hsize h
    · rcases hc with rfl | ⟨r, hr, rfl⟩
      · bv_omega
      · have := stop_le hr
        bv_omega

theorem toNat_mod_four {a : Addr} (ha : a &&& 3 = 0) : a.toNat % 4 = 0 := by
  have h := Lib.toNat_and_mask (k := 2) (m := 3) a rfl
  rw [ha] at h
  exact h.symm

section
variable {rs : Option ExecRanges} {c : ExecCache} {a size : Addr}

theorem checkRangeExecutable_valid (hc : ValidFor rs c) : ValidFor rs (checkRangeExecutable rs c a size).2 := by
  rintro rs' rfl
  exact checkLoop_valid (hc rs' rfl)

theorem checkRangeExecutable_cache (hc : ValidFor rs c) (hwrap : a.toNat + size.toNat < 2 ^ 64) (hsize : size ≠ 0) :
    (checkRangeExecutable rs c a size).1 = (checkRangeExecutable rs {} a size).1 := by
  cases rs with
  | none => rfl
  | some rs => exact checkLoop_cache (hc rs rfl) hwrap hsize

theorem checkRangeExecutable_inst_cache (hc : ValidFor rs c) (ha : a &&& 3 = 0) :
    (checkRangeExecutable rs c a instructionSize).1 = (checkRangeExecutable rs {} a instructionSize).1 := by
  by_cases hwrap : a.toNat + 4 < 2 ^ 64
  · exact checkRangeExecutable_cache hc hwrap (by decide)
  · have hlast : a = -4 := by
      have hlow := toNat_mod_four ha
      bv_omega
    subst hlast
    cases rs with
    | none => rfl
    | some rs =>
      have hin : ∀ c : ExecCache, c.Valid rs → ¬((-4 : Addr) < c.base ∨ c.stop < -4 + instructionSize) := by
        rintro c (rfl | ⟨r, hr, rfl⟩)
        · decide
        · have := stop_le hr
          show ¬(_ ∨ _ < (0 : Addr))
          bv_omega
      simp only [checkRangeExecutable]
      rw [checkLoop_inside (hin c (hc rs rfl)), checkLoop_inside (hin {} (.inl rfl))]

theorem end_of_check (hr : rs = some rs') (hc : ValidFor rs c)
    (hwrap : a.toNat + size.toNat < 2 ^ 64) (hsize : size ≠ 0)
    (h : (checkRangeExecutable rs c a size).1) : a.toNat + size.toNat + 4096 ≤ 2 ^ 64 := by
  subst hr
  exact checkLoop_end (hc rs' rfl) hwrap hsize h

theorem accepted_of_check (hc : ValidFor rs c) (ha : a &&& 3 = 0)
    (h : (checkRangeExecutable rs c a instructionSize).1) : Accepted rs a := by
  cases rs with
  | none => exact .inl rfl
  | some rs =>
    refine .inr ?_
    have hmod := toNat_mod_four ha
    by_cases hwrap : a.toNat + 4 < 2 ^ 64
    · have hend : a.toNat + 4 + 4096 ≤ 2 ^ 64 := end_of_check rfl hc hwrap (by decide) h
      omega
    · omega

end

end PowerArm.Decode
