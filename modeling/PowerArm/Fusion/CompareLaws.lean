import PowerArm.Fusion.Pass

/-!
# A condition on the flags of a compare is a compare

The flags of a difference decide equality and the two orders of its operands, and
those of a sum with a constant decide them against the negated constant, but for the
constants that `resolveFusedCond` leaves out (`resolveFusedCond_sound`).
-/

namespace PowerArm.Fusion

open Flags

variable {size : OpSize} {x y : Word} {f : NZCV}

def Compared (size : OpSize) : Prop := size = .i32Bit ∨ size = .i64Bit

/-! ## Operands at a size -/

def low (size : OpSize) (x : Word) : Nat := x.toNat % 2 ^ size.bits

theorem low_lt (size : OpSize) (x : Word) : low size x < 2 ^ size.bits := Nat.mod_lt _ (Nat.two_pow_pos _)

theorem toNat_trunc (size : OpSize) (x : Word) : (size.trunc x).toNat = low size x := by
  have hle : 2 ^ size.bits ≤ 2 ^ 64 := by cases size <;> decide
  rw [OpSize.trunc]
  exact Nat.mod_eq_of_lt (Nat.lt_of_lt_of_le (low_lt size x) hle)

theorem trunc_eq_iff : size.trunc x = size.trunc y ↔ low size x = low size y := by
  rw [← BitVec.toNat_inj, toNat_trunc, toNat_trunc]

theorem trunc_lt_iff : size.trunc x < size.trunc y ↔ low size x < low size y := by
  rw [BitVec.lt_def, toNat_trunc, toNat_trunc]

theorem trunc_le_iff : size.trunc x ≤ size.trunc y ↔ low size x ≤ low size y := by
  rw [BitVec.le_def, toNat_trunc, toNat_trunc]

theorem toInt_cases (hs : Compared size) (x : Word) :
    (low size x < 2 ^ (size.bits - 1) ∧ size.toInt x = low size x) ∨
      (2 ^ (size.bits - 1) ≤ low size x ∧ size.toInt x = (low size x : Int) - 2 ^ size.bits) := by
  have hx : (x.setWidth size.bits).toNat = low size x := BitVec.toNat_setWidth ..
  unfold OpSize.toInt
  rw [BitVec.toInt_eq_toNat_cond, hx]
  by_cases hneg : low size x < 2 ^ (size.bits - 1)
  · obtain rfl | rfl := hs
    all_goals
      simp only [OpSize.bits] at *
      omega
  · refine .inr ⟨Nat.le_of_not_lt hneg, ?_⟩
    rw [if_neg]
    · norm_cast
    · obtain rfl | rfl := hs
      all_goals
        simp only [OpSize.bits] at *
        omega

/-! ## The flags of a sum and of a difference -/

theorem testBit_sign (hs : Compared size) (ha : a < 2 ^ size.bits) :
    a.testBit (size.bits - 1) = decide (2 ^ (size.bits - 1) ≤ a) := by
  rw [Nat.testBit_eq_decide_div_mod_eq, decide_eq_decide]
  obtain rfl | rfl := hs
  all_goals
    simp only [OpSize.bits] at *
    omega

structure SumFlags (size : OpSize) (a b k : Nat) (f : NZCV) : Prop where
  n : f.n = decide (2 ^ (size.bits - 1) ≤ (a + b + k) % 2 ^ size.bits)
  z : f.z = decide ((a + b + k) % 2 ^ size.bits = 0)
  c : f.c = decide (2 ^ size.bits ≤ a + b + k)
  v : f.v = decide ((2 ^ (size.bits - 1) ≤ a ↔ 2 ^ (size.bits - 1) ≤ b) ∧
    ¬ (2 ^ (size.bits - 1) ≤ (a + b + k) % 2 ^ size.bits ↔ 2 ^ (size.bits - 1) ≤ a))

section
variable (hs : Compared size)
include hs

theorem addWithCarry_flags (x y : Word) (carry : Bool) :
    SumFlags size (low size x) (low size y) carry.toNat (addWithCarry size x y carry).2 := by
  have hr : (low size x + low size y + carry.toNat) % 2 ^ size.bits < 2 ^ size.bits :=
    Nat.mod_lt _ (Nat.two_pow_pos _)
  have hx := testBit_sign hs (low_lt size x)
  have hy := testBit_sign hs (low_lt size y)
  have hsum := testBit_sign hs hr
  refine ⟨hsum, rfl, rfl, ?_⟩
  unfold low at hx hy hsum ⊢
  simp only [addWithCarry, hx, hy, hsum]
  rw [Bool.eq_iff_iff]
  simp

theorem low_not (y : Word) : low size (~~~y) = 2 ^ size.bits - 1 - low size y := by
  unfold low
  rw [BitVec.toNat_not]
  obtain rfl | rfl := hs
  all_goals
    simp only [OpSize.bits]
    omega

theorem sub_decides (x y : Word) (f : NZCV) : let g := (Arith.sub.compute size x y f).2
    (g.z ↔ low size x = low size y) ∧ (g.c ↔ low size y ≤ low size x) ∧
      (g.n = g.v ↔ size.toInt y ≤ size.toInt x) := by
  have hflags := addWithCarry_flags hs x (~~~y) true
  have hx := low_lt size x
  have hy := low_lt size y
  have hsx := toInt_cases hs x
  have hsy := toInt_cases hs y
  rw [low_not hs, Bool.toNat_true] at hflags
  intro g
  change SumFlags _ _ _ _ g at hflags
  rw [hflags.n, hflags.z, hflags.c, hflags.v, decide_eq_decide]
  simp only [decide_eq_true_eq]
  obtain rfl | rfl := hs
  all_goals
    simp only [OpSize.bits] at *
    omega

theorem low_zero_sub (x : Word) (f : NZCV) (hy : low size y = 0) :
    (Arith.sub.compute size x y f).2.v = false := by
  have hflags := addWithCarry_flags hs x (~~~y) true
  have hx := low_lt size x
  rw [low_not hs, Bool.toNat_true] at hflags
  rw [Arith.compute, hflags.v, decide_eq_false_iff_not]
  obtain rfl | rfl := hs
  all_goals
    simp only [OpSize.bits] at *
    omega

theorem low_zero_add (x : Word) (f : NZCV) (hy : low size y = 0) :
    (Arith.add.compute size x y f).2.v = false := by
  have hflags := addWithCarry_flags hs x y false
  rw [Bool.toNat_false] at hflags
  rw [Arith.compute, hflags.v, decide_eq_false_iff_not]
  obtain rfl | rfl := hs
  all_goals
    simp only [OpSize.bits] at *
    omega

end

theorem low_signExtend (v : BitVec 32) : low .i32Bit (v.signExtend 64) = v.toNat := by
  rw [low, BitVec.toNat_signExtend, BitVec.toNat_setWidth]
  simp only [OpSize.bits]
  split <;> omega

theorem low_negate (hs : Compared size) (y : Word) :
    low size (negate size (size.trunc y)) = (2 ^ size.bits - low size y) % 2 ^ size.bits := by
  have hy := low_lt size y
  have hneg : (size.trunc (0 - size.trunc y)).toNat = (2 ^ 64 - low size y) % 2 ^ 64 % 2 ^ size.bits := by
    rw [toNat_trunc, low, BitVec.toNat_sub, toNat_trunc]
    simp
  unfold negate
  obtain rfl | rfl := hs
  · rw [if_neg (by decide), low_signExtend, BitVec.toNat_setWidth]
    simp only [OpSize.bits] at *
    omega
  · rw [if_pos rfl, low]
    simp only [OpSize.bits] at *
    omega

/-- The flags of a sum decide the compare with the negated constant, the carry unless
the constant is zero and the signed order unless it is the least number. -/
theorem add_decides (hs : Compared size) (x y : Word) (f : NZCV) : let g := (Arith.add.compute size x y f).2
    let k := negate size (size.trunc y)
    (g.z ↔ low size x = low size k) ∧
      (low size y ≠ 0 → (g.c ↔ low size k ≤ low size x)) ∧
      (low size y ≠ 2 ^ (size.bits - 1) → (g.n = g.v ↔ size.toInt k ≤ size.toInt x)) := by
  have hflags := addWithCarry_flags hs x y false
  have hx := low_lt size x
  have hy := low_lt size y
  have hsx := toInt_cases hs x
  intro g k
  have hk : low size k = (2 ^ size.bits - low size y) % 2 ^ size.bits := low_negate hs y
  have hsk := toInt_cases hs k
  change SumFlags _ _ _ _ g at hflags
  rw [Bool.toNat_false] at hflags
  rw [hflags.n, hflags.z, hflags.c, hflags.v, decide_eq_decide]
  simp only [decide_eq_true_eq]
  obtain rfl | rfl := hs
  all_goals
    simp only [OpSize.bits] at *
    omega

/-! ## Conditions -/

theorem toInt_inj (hs : Compared size) : size.toInt x = size.toInt y ↔ low size x = low size y := by
  have hx := low_lt size x
  have hy := low_lt size y
  have hsx := toInt_cases hs x
  have hsy := toInt_cases hs y
  obtain rfl | rfl := hs
  all_goals
    simp only [OpSize.bits] at *
    omega

theorem compare_of_decides {k : Word} {cond : CondClass} (hs : Compared size) (hfus : isFusableCond cond)
    (hz : f.z ↔ low size x = low size k) (hc : isUnsignedCond cond → (f.c ↔ low size k ≤ low size x))
    (hnv : isSignedCond cond → (f.n = f.v ↔ size.toInt k ≤ size.toInt x)) :
    cond.compare size x k = some (cond.holds f) := by
  have hinj := toInt_inj hs (x := x) (y := k)
  have hz' : f.z = decide (low size x = low size k) := Bool.eq_iff_iff.mpr (by simpa using hz)
  have hc' (h : isUnsignedCond cond) : f.c = decide (low size k ≤ low size x) :=
    Bool.eq_iff_iff.mpr (by simpa using hc h)
  have hnv' (h : isSignedCond cond) : (f.n == f.v) = decide (size.toInt k ≤ size.toInt x) :=
    Bool.eq_iff_iff.mpr (by simpa using hnv h)
  cases cond <;> cases hfus <;> refine congrArg some (Bool.eq_iff_iff.mpr ?_)
  case eq | neq => simp [trunc_eq_iff, CondClass.holds, hz']
  case uge | ult => simp [trunc_lt_iff, trunc_le_iff, CondClass.holds, hc' rfl]
  case ugt | ule =>
    simp [trunc_lt_iff, trunc_le_iff, CondClass.holds, hz', hc' rfl]
    omega
  case sge | slt => simp [CondClass.holds, bne, hnv' rfl]
  case sgt | sle =>
    simp [CondClass.holds, bne, hz', hnv' rfl]
    omega

/-! ## Producers -/

def Producer.flags (p : Producer) (s : State) : NZCV :=
  let arith : Arith := if p.isAdd then .add else .sub
  (arith.compute p.size (s.read p.cmp1).word (s.read p.src2).word .none).2

structure Producer.Valid (p : Producer) (s : State) : Prop where
  size : Compared p.size
  zero : p.againstZero = true → low p.size (s.read p.src2).word = 0
  add : p.isAdd = true → p.addConst = p.size.trunc (s.read p.src2).word ∧ p.negatedConst = negate p.size p.addConst
  signBit : p.signBit.toNat = 2 ^ (p.size.bits - 1)

theorem word_inline (s : State) (c : Word) : (s.read (.inline c)).word = c := by
  simp [State.read, ofWord, Value.word]

theorem Producer.decides {p : Producer} {s : State} (hp : p.Valid s) :
    ((p.flags s).z ↔ low p.size (s.read p.cmp1).word = low p.size (s.read p.cmp2).word) ∧
    ((p.isAdd → p.addConst ≠ 0) →
      ((p.flags s).c ↔ low p.size (s.read p.cmp2).word ≤ low p.size (s.read p.cmp1).word)) ∧
    ((p.isAdd → p.addConst ≠ p.signBit) → ((p.flags s).n = (p.flags s).v ↔
        p.size.toInt (s.read p.cmp2).word ≤ p.size.toInt (s.read p.cmp1).word)) := by
  unfold Producer.flags Producer.cmp2
  cases hadd : p.isAdd with
  | false =>
    obtain ⟨hz, hc, hnv⟩ := sub_decides hp.size (s.read p.cmp1).word (s.read p.src2).word .none
    exact ⟨hz, fun _ => hc, fun _ => hnv⟩
  | true =>
    obtain ⟨hconst, hneg⟩ := hp.add hadd
    obtain ⟨hz, hc, hnv⟩ := add_decides hp.size (s.read p.cmp1).word (s.read p.src2).word .none
    simp only [if_true, word_inline, hneg, hconst] at hz hc hnv ⊢
    refine ⟨hz, fun hne => hc fun h0 => ?_, fun hne => hnv fun hsign => ?_⟩
    · exact hne trivial (BitVec.toNat_inj.mp (by simpa [toNat_trunc] using h0))
    · exact hne trivial (BitVec.toNat_inj.mp (by rw [toNat_trunc, hsign, hp.signBit]))

theorem Producer.overflow_of_againstZero {p : Producer} {s : State} (hp : p.Valid s)
    (h : p.againstZero) : (p.flags s).v = false := by
  unfold Producer.flags
  cases p.isAdd with
  | false => exact low_zero_sub hp.size _ _ (hp.zero h)
  | true => exact low_zero_add hp.size _ _ (hp.zero h)

theorem resolveFusedCond_sound {p : Producer} {s : State} {cond fused : CondClass} (hp : p.Valid s)
    (hr : resolveFusedCond p cond = some fused) (h : Host) :
    directCompare h s p.size fused p.cmp1 p.cmp2 = cond.holds (p.flags s) := by
  obtain ⟨hz, hc, hnv⟩ := Producer.decides hp
  have hdirect {b : Bool} (hcmp : fused.compare p.size (s.read p.cmp1).word (s.read p.cmp2).word = some b) :
      directCompare h s p.size fused p.cmp1 p.cmp2 = b := by
    simp [directCompare, CondSource.taken, word, hcmp]
  refine hdirect ?_
  unfold resolveFusedCond at hr
  split at hr
  next hsign =>
    split at hr
    next hzero =>
      -- against zero nothing overflows, so the sign is the signed order
      have hv := Producer.overflow_of_againstZero hp hzero
      have hnot : p.isAdd → p.addConst ≠ p.signBit := by
        intro hadd heq
        have hconst : p.addConst.toNat = 0 := by rw [(hp.add hadd).1, toNat_trunc, hp.zero hzero]
        rw [heq, hp.signBit] at hconst
        exact absurd hconst (Nat.pos_iff_ne_zero.mp (Nat.two_pow_pos _))
      have hcompare {c : CondClass} (hsig : isSignedCond c) (hfus : isFusableCond c) :
          c.compare p.size (s.read p.cmp1).word (s.read p.cmp2).word = some (c.holds (p.flags s)) :=
        compare_of_decides hp.size hfus hz (fun hu => by cases c <;> simp [isUnsignedCond, isSignedCond] at hu hsig)
          fun _ => hnv hnot
      obtain rfl | rfl := hsign
      · obtain rfl := Option.some.inj hr
        rw [if_pos rfl, hcompare rfl rfl, CondClass.holds, CondClass.holds, hv]
        simp
      · obtain rfl := Option.some.inj hr
        rw [if_neg nofun, hcompare rfl rfl, CondClass.holds, CondClass.holds, hv]
        cases (p.flags s).n <;> rfl
    next => cases hr
  next =>
    split at hr
    next => cases hr
    next hfus =>
      split at hr
      next => cases hr
      next hunsigned =>
        split at hr
        next => cases hr
        next hsigned =>
          obtain rfl := Option.some.inj hr
          refine compare_of_decides hp.size (by simpa using hfus) hz (fun hu => hc fun hadd h0 => ?_)
            fun hsg => hnv fun hadd h0 => ?_
          · exact hunsigned (by simp [hadd, hu, h0])
          · exact hsigned (by simp [hadd, hsg, h0])

end PowerArm.Fusion
