import PowerArm.Ppc.AndMask

/-!
# The AND-mask forms are exact

Each form names its mask: a run of ones at an end, inside the word, inside the
doubleword, or the complement of one (`classifyAndMask64_describes`). So the emitted
instructions compute the AND and touch nothing else (`emitAndMask_exact`); at 32 bits
the low half is right and the upper half is cleared or kept, by the kind of the form.
-/

namespace PowerArm.Ppc

/-! ## Bits of the masks -/

theorem getLsbD_add_one_of_lt (hk : m.getLsbD k = false) (hki : k < i)
    (hi : i < 64) : (m + 1#64).getLsbD i = m.getLsbD i := by
  obtain ⟨j, rfl⟩ : ∃ j, i = j + 1 := ⟨i - 1, by omega⟩
  have hcarry : BitVec.carry (j + 1) m 1#64 false = false := by
    rw [BitVec.carry_succ_one j m (by decide)]
    refine decide_eq_false fun hall => ?_
    rw [hall k (by omega)] at hk
    cases hk
  rw [BitVec.getLsbD_add hi, hcarry]
  simp

theorem not_ne_zero (hall : m ≠ BitVec.allOnes 64) : ~~~m ≠ 0#64 := by
  intro hz
  apply hall
  rw [← BitVec.not_not (b := m), hz]
  rfl

theorem getLsbD_of_low_run (hne : m ≠ BitVec.allOnes 64) (h : m &&& (m + 1#64) = 0#64) (hi : i < 64) :
    m.getLsbD i = decide (i < countrOne m) := by
  have hnot := not_ne_zero hne
  have hlow : ∀ j < countrOne m, m.getLsbD j := by
    intro j hj
    have hlt : j < 64 := by
      have := ctz_lt_of_ne_zero hnot
      unfold countrOne at hj
      omega
    have := BitVec.getLsbD_false_of_lt_ctz hj
    simpa [hlt] using this
  have hk : m.getLsbD (countrOne m) = false := by
    have := BitVec.getLsbD_true_ctz_of_ne_zero hnot
    simp only [BitVec.getLsbD_not, Bool.and_eq_true, Bool.not_eq_true'] at this
    exact this.2
  rcases Nat.lt_trichotomy i (countrOne m) with hlt | heq | hgt
  · rw [hlow i hlt]
    exact (decide_eq_true hlt).symm
  · subst heq
    rw [hk]
    exact (decide_eq_false (Nat.lt_irrefl _)).symm
  · have hbit := congrArg (BitVec.getLsbD · i) h
    simp only [BitVec.getLsbD_and, getLsbD_add_one_of_lt hk hgt hi, Bool.and_self, BitVec.getLsbD_zero] at hbit
    rw [hbit]
    exact (decide_eq_false (by omega)).symm

theorem low_run_of_getLsbD (h : ∀ i < 64, m.getLsbD i = decide (i < k)) : m &&& (m + 1#64) = 0#64 := by
  apply BitVec.eq_of_getLsbD_eq
  intro i hi
  rw [BitVec.getLsbD_and, BitVec.getLsbD_add hi, h i hi]
  by_cases hik : i < k
  · cases i with
    | zero => simp
    | succ i =>
      have hall : ∀ j ≤ i, m.getLsbD j := fun j hj => by
        rw [h j (by omega)]
        exact decide_eq_true (by omega)
      rw [BitVec.carry_succ_one i m (by decide), decide_eq_true hall]
      simp
  · simp [hik]

theorem countrOne_pos (hne : m ≠ 0#64) (hall : m ≠ BitVec.allOnes 64)
    (h : m &&& (m + 1#64) = 0#64) : 0 < countrOne m := by
  by_contra hzero
  apply hne
  apply BitVec.eq_of_getLsbD_eq
  intro i hi
  rw [getLsbD_of_low_run hall h hi]
  simp
  omega

theorem countrOne_lt (hall : m ≠ BitVec.allOnes 64) : countrOne m < 64 := by
  have := ctz_lt_of_ne_zero (not_ne_zero hall)
  unfold countrOne
  omega

theorem low_run_eq_mask (hne : m ≠ 0#64) (hall : m ≠ BitVec.allOnes 64)
    (h : m &&& (m + 1#64) = 0#64) : m = mask (64 - countrOne m) 63 := by
  have hpos := countrOne_pos hne hall h
  apply BitVec.eq_of_getLsbD_eq
  intro i hi
  rw [getLsbD_of_low_run hall h hi, getLsbD_mask _ _ _ (by omega) hi, decide_eq_decide]
  omega

theorem high_run_eq_mask (hne : m ≠ 0#64)
    (h : ~~~m &&& (~~~m + 1#64) = 0#64) : m = mask 0 (63 - countrOne (~~~m)) := by
  have hz : ~~~m ≠ BitVec.allOnes 64 := by
    intro heq
    apply hne
    rw [← BitVec.not_not (b := m), heq]
    rfl
  have hlt := countrOne_lt hz
  apply BitVec.eq_of_getLsbD_eq
  intro i hi
  have hbit := getLsbD_of_low_run hz h hi
  rw [BitVec.getLsbD_not] at hbit
  rw [getLsbD_mask _ _ _ (by omega) hi]
  simp only [hi, decide_true, Bool.true_and] at hbit
  rw [← Bool.not_not (m.getLsbD i), hbit, ← decide_not, decide_eq_decide]
  omega

theorem word_run_eq_mask (hle : m ≤ 0xFFFFFFFF#64) (hrun : isRun (m.setWidth 32)) :
    m = mask ((m.setWidth 32).clz.toNat + 32) (31 - (m.setWidth 32).ctz.toNat + 32) := by
  simp only [isRun, Bool.and_eq_true, bne_iff_ne, decide_eq_true_eq] at hrun
  have hlt := ctz_lt_of_ne_zero hrun.1
  apply BitVec.eq_of_getLsbD_eq
  intro i hi
  rw [getLsbD_mask _ _ _ (by omega) hi]
  have hbit := getLsbD_of_counts _ hrun.2 i
  by_cases hin : i < 32
  · rw [BitVec.getLsbD_setWidth] at hbit
    simp only [hin, decide_true, Bool.true_and] at hbit
    rw [hbit, decide_eq_decide]
    omega
  · have hhigh : m.getLsbD i = false := by
      refine Nat.testBit_lt_two_pow (Nat.lt_of_lt_of_le (m := 2 ^ 32) ?_ ?_)
      · exact Nat.lt_succ_of_le hle
      · exact Nat.pow_le_pow_right (by decide) (by omega)
    rw [hhigh]
    exact (decide_eq_false (by omega)).symm

theorem mask_split (h : mb ≤ me) (hme : me < 64) : mask mb me = mask mb 63 &&& mask 0 me := by
  apply BitVec.eq_of_getLsbD_eq
  intro i hi
  rw [BitVec.getLsbD_and, getLsbD_mask _ _ _ h hi, getLsbD_mask _ _ _ (by omega) hi,
    getLsbD_mask _ _ _ (by omega) hi, ← Bool.decide_and, decide_eq_decide]
  omega

/-! ## Forms -/

def AndMaskForm.Describes (form : AndMaskForm) (m : BitVec 64) : Prop :=
  match form.kind with
  | .none => True
  | .zero => m = 0
  | .move => m = BitVec.allOnes 64
  | .clearLeft => 0 < form.mb ∧ form.mb < 64 ∧ m = mask form.mb 63
  | .clearRight => form.me < 64 ∧ m = mask 0 form.me
  | .word => form.mb ≤ form.me ∧ form.me < 32 ∧ m = mask (form.mb + 32) (form.me + 32)
  | .insertZeroField => 0 < form.mb ∧ form.sh < 64 ∧ form.mb ≤ 63 - form.sh ∧ m = ~~~mask form.mb (63 - form.sh)
  | .clearBoth => 0 < form.mb ∧ form.mb < 64 ∧ form.me < 64 ∧ m = mask form.mb 63 &&& mask 0 form.me

theorem isRun_iff {w : Nat} {v : BitVec w} : isRun v ↔ v ≠ 0#w ∧ v.cpop.toNat + v.clz.toNat + v.ctz.toNat = w := by
  simp [isRun]

theorem word_describes {m : BitVec 64} (hle : m ≤ 0xFFFFFFFF#64) (hrun : isRun (m.setWidth 32)) :
    AndMaskForm.Describes ⟨.word, 31 - (31 - (m.setWidth 32).clz.toNat), 31 - (m.setWidth 32).ctz.toNat, 0⟩ m := by
  have hlt := ctz_lt_of_ne_zero (isRun_iff.mp hrun).1
  have hmb : 31 - (31 - (m.setWidth 32).clz.toNat) = (m.setWidth 32).clz.toNat := by omega
  rw [hmb]
  exact ⟨by dsimp only; omega, by dsimp only; omega, word_run_eq_mask hle hrun⟩

theorem insertZeroField_describes {m : BitVec 64} (hlow : ¬m &&& (m + 1#64) = 0#64) (hrun : isRun (~~~m)) :
    AndMaskForm.Describes ⟨.insertZeroField, 63 - (63 - (~~~m).clz.toNat), 0, (~~~m).ctz.toNat⟩ m := by
  obtain ⟨hne, hcounts⟩ := isRun_iff.mp hrun
  have hlt := ctz_lt_of_ne_zero hne
  have hmb : 63 - (63 - (~~~m).clz.toNat) = (~~~m).clz.toNat := by omega
  have htop : 0 < (~~~m).clz.toNat := by
    by_contra hzero
    refine hlow (low_run_of_getLsbD (k := (~~~m).ctz.toNat) fun i hi => ?_)
    have hbit := getLsbD_of_counts _ hcounts i
    rw [BitVec.getLsbD_not] at hbit
    simp only [hi, decide_true, Bool.true_and] at hbit
    rw [← Bool.not_not (m.getLsbD i), hbit, ← decide_not, decide_eq_decide]
    omega
  rw [hmb]
  refine ⟨htop, by dsimp only; omega, by dsimp only; omega, ?_⟩
  rw [mask_of_counts _ hne hcounts, BitVec.not_not]

theorem clearBoth_describes {m : BitVec 64} (hhigh : ¬~~~m &&& (~~~m + 1#64) = 0#64) (hrun : isRun m) :
    AndMaskForm.Describes ⟨.clearBoth, 63 - (63 - m.clz.toNat), 63 - m.ctz.toNat, 0⟩ m := by
  obtain ⟨hne, hcounts⟩ := isRun_iff.mp hrun
  have hlt := ctz_lt_of_ne_zero hne
  have hmb : 63 - (63 - m.clz.toNat) = m.clz.toNat := by omega
  have htop : 0 < m.clz.toNat := by
    by_contra hzero
    refine hhigh (low_run_of_getLsbD (k := m.ctz.toNat) fun i hi => ?_)
    rw [BitVec.getLsbD_not, getLsbD_of_counts _ hcounts i, ← decide_not, ← Bool.decide_and, decide_eq_decide]
    omega
  rw [hmb]
  refine ⟨htop, by dsimp only; omega, by dsimp only; omega, ?_⟩
  rw [← mask_split (by dsimp only; omega) (by dsimp only; omega), mask_of_counts _ hne hcounts]

theorem classifyAndMask64_describes (m : BitVec 64) (allowWord : Bool) :
    (classifyAndMask64 m allowWord).Describes m := by
  unfold classifyAndMask64
  dsimp only
  split
  · assumption
  · next hne =>
    split
    · assumption
    · next hall =>
      split
      · next hlow =>
        have hpos := countrOne_pos hne hall hlow
        have hlt := countrOne_lt hall
        exact ⟨by dsimp only; omega, by dsimp only; omega, low_run_eq_mask hne hall hlow⟩
      · next hlow =>
        split
        · next hhigh => exact ⟨by dsimp only; omega, high_run_eq_mask hne hhigh⟩
        · next hhigh =>
          split
          · next hword => exact word_describes hword.2.1 hword.2.2
          · split
            · next hzeros => exact insertZeroField_describes hlow hzeros
            · split
              · next hones => exact clearBoth_describes hhigh hones
              · trivial

/-! ## Emitted code -/

section
variable {g : Regs} {dst s1 : BitVec 5}

def runRot (g : Regs) (code : List RotInsn) : Regs := code.foldl RotInsn.exec g

theorem rotateLeft_zero (v : BitVec 64) : v.rotateLeft 0 = v := by
  apply BitVec.eq_of_getLsbD_eq
  intro i hi
  simp [hi]

theorem rotateLeft_of_zero (n : Nat) : (0#64).rotateLeft n = 0#64 := by
  apply BitVec.eq_of_getLsbD_eq
  simp

theorem rotl32_and_mask (v : BitVec 64) (h : mb ≤ me) (hme : me < 32) :
    rotl32 v 0 &&& mask (mb + 32) (me + 32) = v &&& mask (mb + 32) (me + 32) := by
  apply BitVec.eq_of_getLsbD_eq
  intro i hi
  rw [BitVec.getLsbD_and, BitVec.getLsbD_and, getLsbD_mask _ _ _ (by omega) hi]
  by_cases hin : i < 32
  · have hword : (rotl32 v 0).getLsbD i = v.getLsbD i := by
      simp only [rotl32, BitVec.getLsbD_append]
      simp [hin]
    rw [hword]
  · rw [decide_eq_false (by omega), Bool.and_false, Bool.and_false]

theorem runRot_prime (g : Regs) (dst s1 : BitVec 5) :
    runRot g (if dst ≠ s1 then [RotInsn.mr dst s1] else []) = g.set dst (g s1) := by
  split
  · rfl
  · next h =>
    obtain rfl := not_not.mp h
    exact (Regs.set_get g).symm

theorem runRot_append (g : Regs) (code code' : List RotInsn) :
    runRot g (code ++ code') = runRot (runRot g code) code' := List.foldl_append ..

theorem set_of_ne (g : Regs) (h : r' ≠ r) : g.set r v r' = g r' := if_neg h

theorem AndMaskForm.Describes.emit (h : form.Describes m)
    (hcode : emitAndMask dst s1 form = some code) (hzero : g 0 = 0) (hdst : dst ≠ 0) :
    (∀ insn ∈ code, insn.Encodable) ∧ runRot g code = g.set dst (g s1 &&& m) := by
  have hprime : ∀ insn ∈ (if dst ≠ s1 then [RotInsn.mr dst s1] else []), insn.Encodable := by
    intro insn hmem
    split at hmem
    · obtain rfl := List.mem_singleton.mp hmem
      trivial
    · cases hmem
  unfold AndMaskForm.Describes at h
  unfold emitAndMask at hcode
  cases hkind : form.kind with
  | none => simp [hkind] at hcode
  | zero =>
    simp only [hkind, Option.some.injEq] at h hcode
    subst hcode h
    refine ⟨by simp [RotInsn.Encodable], ?_⟩
    simp [runRot, RotInsn.exec]
  | move =>
    simp only [hkind, Option.some.injEq] at h hcode
    subst hcode h
    exact ⟨hprime, by rw [runRot_prime, BitVec.and_allOnes]⟩
  | clearLeft =>
    simp only [hkind, Option.some.injEq] at h hcode
    obtain ⟨-, hmb, rfl⟩ := h
    subst hcode
    exact ⟨by simp [RotInsn.Encodable, hmb], by simp [runRot, RotInsn.exec, rotateLeft_zero]⟩
  | clearRight =>
    simp only [hkind, Option.some.injEq] at h hcode
    obtain ⟨hme, rfl⟩ := h
    subst hcode
    exact ⟨by simp [RotInsn.Encodable, hme], by simp [runRot, RotInsn.exec, rotateLeft_zero]⟩
  | word =>
    simp only [hkind, Option.some.injEq] at h hcode
    obtain ⟨hle, hme, rfl⟩ := h
    subst hcode
    refine ⟨by simp only [List.mem_singleton, forall_eq, RotInsn.Encodable]; omega, ?_⟩
    simp [runRot, RotInsn.exec, rotl32_and_mask _ hle hme]
  | insertZeroField =>
    simp only [hkind, Option.some.injEq] at h hcode
    obtain ⟨-, hsh, hle, rfl⟩ := h
    subst hcode
    constructor
    · intro insn hmem
      rcases List.mem_append.mp hmem with hmem | hmem
      · exact hprime insn hmem
      · obtain rfl := List.mem_singleton.mp hmem
        exact ⟨hsh, by omega⟩
    · rw [runRot_append, runRot_prime]
      have hzero' : g.set dst (g s1) 0#5 = 0#64 := (set_of_ne g hdst.symm).trans hzero
      simp [runRot, RotInsn.exec, hzero', rotateLeft_of_zero]
  | clearBoth =>
    simp only [hkind, Option.some.injEq] at h hcode
    obtain ⟨-, hmb, hme, rfl⟩ := h
    subst hcode
    refine ⟨by simp [RotInsn.Encodable, hmb, hme], ?_⟩
    simp [runRot, RotInsn.exec, rotateLeft_zero, BitVec.and_assoc]

/-- The form is emitted as encodable instructions that leave `result` in `dst` and
nothing else. -/
def Emits (g : Regs) (dst s1 : BitVec 5) (form : AndMaskForm) (result : BitVec 64) : Prop :=
  ∃ code, emitAndMask dst s1 form = some code ∧ (∀ insn ∈ code, insn.Encodable) ∧ runRot g code = g.set dst result

theorem AndMaskForm.Describes.emits (h : form.Describes m)
    (hkind : form.kind ≠ .none) (hzero : g 0 = 0) (hdst : dst ≠ 0) : Emits g dst s1 form (g s1 &&& m) := by
  obtain ⟨code, hcode⟩ : ∃ code, emitAndMask dst s1 form = some code := by
    unfold emitAndMask
    cases hk : form.kind <;> simp_all
  exact ⟨code, hcode, h.emit hcode hzero hdst⟩

/-! ## The free upper half -/

theorem AndMaskForm.Describes.keepsHigh_eq {form : AndMaskForm} (h : form.Describes m)
    (hkind : form.kind ≠ .none) : form.kind.keepsHigh = m.getLsbD 63 := by
  unfold AndMaskForm.Describes at h
  cases hk : form.kind with
  | none => exact absurd hk hkind
  | zero =>
    simp only [hk] at h
    simp [h, AndMaskKind.keepsHigh]
  | move =>
    simp only [hk] at h
    simp [h, AndMaskKind.keepsHigh]
  | clearLeft =>
    simp only [hk] at h
    obtain ⟨hpos, hlt, rfl⟩ := h
    rw [getLsbD_mask _ _ _ (by omega) (by omega), decide_eq_false (by omega)]
    rfl
  | clearRight =>
    simp only [hk] at h
    obtain ⟨hlt, rfl⟩ := h
    rw [getLsbD_mask _ _ _ (by omega) (by omega), decide_eq_true (by omega)]
    rfl
  | word =>
    simp only [hk] at h
    obtain ⟨hle, hlt, rfl⟩ := h
    rw [getLsbD_mask _ _ _ (by omega) (by omega), decide_eq_false (by omega)]
    rfl
  | insertZeroField =>
    simp only [hk] at h
    obtain ⟨hpos, hsh, hle, rfl⟩ := h
    have hbit : (mask form.mb (63 - form.sh)).getLsbD 63 = false := by
      rw [getLsbD_mask _ _ _ hle (by omega), decide_eq_false (by omega)]
    rw [BitVec.getLsbD_not, hbit]
    rfl
  | clearBoth =>
    simp only [hk] at h
    obtain ⟨hpos, hlt, -, rfl⟩ := h
    rw [BitVec.getLsbD_and, getLsbD_mask _ _ _ (by omega) (by omega), decide_eq_false (by omega)]
    rfl

/-- The two completions: the chosen one agrees with the mask on the low half, and its
upper half is all zeros or all ones. -/
theorem classifyAndMask_completes (m : BitVec 64) : ∃ m', (classifyAndMask m true).Describes m' ∧
      (m' = m &&& 0xFFFFFFFF#64 ∨ m' = m ||| 0xFFFFFFFF00000000#64) := by
  unfold classifyAndMask
  simp only [Bool.not_true, Bool.false_eq_true, if_false]
  split
  · exact ⟨_, classifyAndMask64_describes _ _, .inr rfl⟩
  · exact ⟨_, classifyAndMask64_describes _ _, .inl rfl⟩

end

theorem getLsbD_lowHalf (hi : i < 64) : (0xFFFFFFFF#64).getLsbD i = decide (i < 32) := by
  rw [show 0xFFFFFFFF#64 = mask 32 63 from rfl, getLsbD_mask _ _ _ (by omega) hi, decide_eq_decide]
  omega

theorem getLsbD_highHalf (hi : i < 64) : (0xFFFFFFFF00000000#64).getLsbD i = decide (32 ≤ i) := by
  rw [show 0xFFFFFFFF00000000#64 = mask 0 31 from rfl, getLsbD_mask _ _ _ (by omega) hi, decide_eq_decide]
  omega

theorem and_clear_halves (v m : BitVec 64) : (v &&& (m &&& 0xFFFFFFFF#64)).setWidth 32 = (v &&& m).setWidth 32 ∧
      (v &&& (m &&& 0xFFFFFFFF#64)) >>> 32 = if (m &&& 0xFFFFFFFF#64).getLsbD 63 then v >>> 32 else 0#64 := by
  constructor
  · apply BitVec.eq_of_getLsbD_eq
    intro i hi
    simp only [BitVec.getLsbD_setWidth, BitVec.getLsbD_and, getLsbD_lowHalf (by omega : i < 64), hi,
      decide_true, Bool.and_true]
  · rw [BitVec.getLsbD_and, getLsbD_lowHalf (by omega)]
    simp only [Nat.reduceLT, decide_false, Bool.and_false, Bool.false_eq_true, if_false]
    apply BitVec.eq_of_getLsbD_eq
    intro i hi
    rw [BitVec.getLsbD_ushiftRight, BitVec.getLsbD_zero]
    by_cases hin : 32 + i < 64
    · simp [getLsbD_lowHalf hin]
    · exact BitVec.getLsbD_of_ge _ _ (by omega)

theorem and_keep_halves (v m : BitVec 64) :
    (v &&& (m ||| 0xFFFFFFFF00000000#64)).setWidth 32 = (v &&& m).setWidth 32 ∧
      (v &&& (m ||| 0xFFFFFFFF00000000#64)) >>> 32 =
        if (m ||| 0xFFFFFFFF00000000#64).getLsbD 63 then v >>> 32 else 0#64 := by
  constructor
  · apply BitVec.eq_of_getLsbD_eq
    intro i hi
    simp
  · rw [BitVec.getLsbD_or, getLsbD_highHalf (by omega)]
    simp only [Nat.reduceLeDiff, decide_true, Bool.or_true, if_true]
    apply BitVec.eq_of_getLsbD_eq
    intro i hi
    rw [BitVec.getLsbD_ushiftRight, BitVec.getLsbD_ushiftRight]
    by_cases hin : 32 + i < 64
    · simp [getLsbD_highHalf hin]
    · rw [BitVec.getLsbD_of_ge _ _ (by omega), BitVec.getLsbD_of_ge _ _ (by omega)]

theorem emitAndMask_exact (m : BitVec 64) (g : Regs) (dst s1 : BitVec 5) (hzero : g 0 = 0) (hdst : dst ≠ 0) :
    (∀ allowWord, (classifyAndMask64 m allowWord).kind ≠ .none →
      Emits g dst s1 (classifyAndMask64 m allowWord) (g s1 &&& m)) ∧
    ((classifyAndMask m false).kind ≠ .none → Emits g dst s1 (classifyAndMask m false) (g s1 &&& m)) ∧
    ((classifyAndMask m true).kind ≠ .none → ∃ result, Emits g dst s1 (classifyAndMask m true) result ∧
        result.setWidth 32 = (g s1 &&& m).setWidth 32 ∧
        result >>> 32 = if (classifyAndMask m true).kind.keepsHigh then g s1 >>> 32 else 0) := by
  refine ⟨fun allowWord hkind => ?_, fun hkind => ?_, fun hkind => ?_⟩
  · exact (classifyAndMask64_describes m allowWord).emits hkind hzero hdst
  · exact (classifyAndMask64_describes m false).emits hkind hzero hdst
  · obtain ⟨m', hdesc, hm'⟩ := classifyAndMask_completes m
    refine ⟨g s1 &&& m', hdesc.emits hkind hzero hdst, ?_⟩
    rw [hdesc.keepsHigh_eq hkind]
    rcases hm' with rfl | rfl
    · exact and_clear_halves (g s1) m
    · exact and_keep_halves (g s1) m

theorem emitAndMask_exact_byte :
    let g : Regs := fun r => if r = 0 then 0 else 0x1234
    Emits g 3 4 (classifyAndMask64 0xFF false) (0x1234 &&& 0xFF) := by
  intro g
  exact (emitAndMask_exact 0xFF g 3 4 rfl (by decide)).1 false (by decide)

end PowerArm.Ppc
