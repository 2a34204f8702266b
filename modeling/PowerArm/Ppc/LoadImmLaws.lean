import PowerArm.Lib.LittleEndian
import PowerArm.Lib.Submask
import PowerArm.Ppc.LoadImm

/-!
# Constant loads load their constant

The instructions the emitter uses for constants, as they act on the general
registers, decoded from their words. `run_loadImm64` and `run_loadImm64Fixed`:
both forms leave the constant in the register and nothing else changed.
-/

namespace PowerArm.Ppc

abbrev Regs := BitVec 5 → BitVec 64

def Regs.set (g : Regs) (r : BitVec 5) (v : BitVec 64) : Regs := fun i => if i = r then v else g i

@[simp] theorem Regs.set_self (g : Regs) : g.set r v r = v := if_pos rfl

@[simp] theorem Regs.set_set (g : Regs) : (g.set r v).set r w = g.set r w := by
  funext i
  simp only [Regs.set]
  split <;> rfl

@[simp] theorem Regs.set_get (g : Regs) : g.set r (g r) = g := by
  funext i
  simp only [Regs.set]
  split
  · next h => rw [h]
  · rfl

/-! ## Instructions -/

def opcode (w : Word) : BitVec 6 := w.extractLsb' 26 6
def fieldT (w : Word) : BitVec 5 := w.extractLsb' 21 5
def fieldA (w : Word) : BitVec 5 := w.extractLsb' 16 5
def imm16 (w : Word) : BitVec 16 := w.extractLsb' 0 16
def fieldSH (w : Word) : BitVec 6 := w.extractLsb' 1 1 ++ w.extractLsb' 11 5
def fieldMB (w : Word) : BitVec 6 := w.extractLsb' 5 1 ++ w.extractLsb' 6 5
def fieldXO (w : Word) : BitVec 3 := w.extractLsb' 2 3

def mask (mb me : Nat) : BitVec 64 :=
  let left := BitVec.allOnes 64 >>> mb
  let right := BitVec.allOnes 64 <<< (63 - me)
  if mb ≤ me then left &&& right else left ||| right

/-- The `addi`, `addis`, `ori`, `oris` and `rldic*` forms; `none` for any other. -/
def exec (g : Regs) (w : Word) : Option Regs :=
  let a := if fieldA w = 0 then 0#64 else g (fieldA w)
  let rotated := (g (fieldT w)).rotateLeft (fieldSH w).toNat
  let mb := (fieldMB w).toNat
  if opcode w = 14 then some (g.set (fieldT w) (a + (imm16 w).signExtend 64))
  else if opcode w = 15 then some (g.set (fieldT w) (a + (imm16 w).signExtend 64 <<< 16))
  else if opcode w = 24 then some (g.set (fieldA w) (g (fieldT w) ||| (imm16 w).setWidth 64))
  else if opcode w = 25 then some (g.set (fieldA w) (g (fieldT w) ||| (imm16 w).setWidth 64 <<< 16))
  else if opcode w = 30 ∧ fieldXO w = 0 then some (g.set (fieldA w) (rotated &&& mask mb 63))
  else if opcode w = 30 ∧ fieldXO w = 1 then some (g.set (fieldA w) (rotated &&& mask 0 mb))
  else if opcode w = 30 ∧ fieldXO w = 2 then
    some (g.set (fieldA w) (rotated &&& mask mb (63 - (fieldSH w).toNat)))
  else none

def run (g : Regs) (words : List Word) : Option Regs := words.foldlM exec g

/-! ## Fields of an emitted word -/

section
variable (op : BitVec 6) (rt ra : BitVec 5) (d : BitVec 16) (sh mb : BitVec 6) (xo : BitVec 3)

theorem emitD_fields : let w := emitD (op.setWidth 32) (rt.setWidth 32) (ra.setWidth 32) d
    opcode w = op ∧ fieldT w = rt ∧ fieldA w = ra ∧ imm16 w = d := by
  refine ⟨?_, ?_, ?_, ?_⟩
  · unfold opcode emitD
    ext i hi
    grind
  · unfold fieldT emitD
    ext i hi
    grind
  · unfold fieldA emitD
    grind
  · unfold imm16 emitD
    grind

theorem and_low (x : BitVec 32) : x &&& 0x1F = (x.setWidth 5).setWidth 32 := by
  apply BitVec.eq_of_toNat_eq
  rw [Lib.toNat_and_mask (k := 5) x rfl]
  simp
  omega

theorem and_one (x : BitVec 32) : x &&& 1 = (x.setWidth 1).setWidth 32 := by
  apply BitVec.eq_of_toNat_eq
  rw [Lib.toNat_and_mask (k := 1) x rfl]
  simp
  omega

theorem emitMD_fields :
    let w := emitMD (rt.setWidth 32) (ra.setWidth 32) (sh.setWidth 32) (mb.setWidth 32) (xo.setWidth 32) 0
    opcode w = 30 ∧ fieldT w = rt ∧ fieldA w = ra ∧ fieldSH w = sh ∧ fieldMB w = mb ∧
      fieldXO w = xo := by
  have h30 : (30#32 : BitVec 32) = (30#6).setWidth 32 := rfl
  simp only [emitMD, and_low, and_one, h30, opcode, fieldT, fieldA, fieldSH, fieldMB, fieldXO]
  refine ⟨?_, ?_, ?_, ?_, ?_, ?_⟩
  all_goals
    ext i hi
    simp only [BitVec.getElem_extractLsb', BitVec.getElem_append, BitVec.getLsbD_or, BitVec.getLsbD_shiftLeft,
      BitVec.getLsbD_setWidth, BitVec.getLsbD_ushiftRight]
    grind

end

/-! ## What each instruction does -/

section
variable (g : Regs) (rt : BitVec 5)

theorem exec_li (si : BitVec 16) : exec g (li (rt.setWidth 32) si) = some (g.set rt (si.signExtend 64)) := by
  obtain ⟨hop, ht, ha, hd⟩ := emitD_fields 14 rt 0 si
  change exec g (emitD ((14 : BitVec 6).setWidth 32) (rt.setWidth 32) ((0 : BitVec 5).setWidth 32) si) = _
  simp only [exec, hop, ht, ha, hd, if_true, BitVec.zero_add]

theorem exec_lis (si : BitVec 16) : exec g (lis (rt.setWidth 32) si) = some (g.set rt (si.signExtend 64 <<< 16)) := by
  obtain ⟨hop, ht, ha, hd⟩ := emitD_fields 15 rt 0 si
  change exec g (emitD ((15 : BitVec 6).setWidth 32) (rt.setWidth 32) ((0 : BitVec 5).setWidth 32) si) = _
  simp only [exec, hop, ht, ha, hd, if_true, BitVec.zero_add]
  rfl

theorem exec_ori (ui : BitVec 16) : exec g (ori (rt.setWidth 32) (rt.setWidth 32) ui) =
      some (g.set rt (g rt ||| ui.setWidth 64)) := by
  obtain ⟨hop, ht, ha, hd⟩ := emitD_fields 24 rt rt ui
  change exec g (emitD ((24 : BitVec 6).setWidth 32) (rt.setWidth 32) (rt.setWidth 32) ui) = _
  simp only [exec, hop, ht, ha, hd]
  rfl

theorem exec_oris (ui : BitVec 16) : exec g (oris (rt.setWidth 32) (rt.setWidth 32) ui) =
      some (g.set rt (g rt ||| ui.setWidth 64 <<< 16)) := by
  obtain ⟨hop, ht, ha, hd⟩ := emitD_fields 25 rt rt ui
  change exec g (emitD ((25 : BitVec 6).setWidth 32) (rt.setWidth 32) (rt.setWidth 32) ui) = _
  simp only [exec, hop, ht, ha, hd]
  rfl

theorem exec_nop : exec g nop = some g := by
  have h := exec_ori g 0 0
  rw [show ori ((0 : BitVec 5).setWidth 32) ((0 : BitVec 5).setWidth 32) 0 = nop from rfl] at h
  simpa using h

theorem exec_rldicr (sh me : BitVec 6) :
    exec g (rldicr (rt.setWidth 32) (rt.setWidth 32) (sh.setWidth 32) (me.setWidth 32)) =
      some (g.set rt ((g rt).rotateLeft sh.toNat &&& mask 0 me.toNat)) := by
  obtain ⟨hop, ht, ha, hsh, hmb, hxo⟩ := emitMD_fields rt rt sh me 1
  change exec g (emitMD (rt.setWidth 32) (rt.setWidth 32) (sh.setWidth 32) (me.setWidth 32)
    ((1 : BitVec 3).setWidth 32) 0) = _
  simp only [exec, hop, ht, ha, hsh, hmb, hxo]
  rfl

theorem exec_rldicl (sh mb : BitVec 6) :
    exec g (rldicl (rt.setWidth 32) (rt.setWidth 32) (sh.setWidth 32) (mb.setWidth 32)) =
      some (g.set rt ((g rt).rotateLeft sh.toNat &&& mask mb.toNat 63)) := by
  obtain ⟨hop, ht, ha, hsh, hmb, hxo⟩ := emitMD_fields rt rt sh mb 0
  change exec g (emitMD (rt.setWidth 32) (rt.setWidth 32) (sh.setWidth 32) (mb.setWidth 32)
    ((0 : BitVec 3).setWidth 32) 0) = _
  simp only [exec, hop, ht, ha, hsh, hmb, hxo]
  rfl

theorem exec_rldic (sh mb : BitVec 6) :
    exec g (rldic (rt.setWidth 32) (rt.setWidth 32) (sh.setWidth 32) (mb.setWidth 32)) =
      some (g.set rt ((g rt).rotateLeft sh.toNat &&& mask mb.toNat (63 - sh.toNat))) := by
  obtain ⟨hop, ht, ha, hsh, hmb, hxo⟩ := emitMD_fields rt rt sh mb 2
  change exec g (emitMD (rt.setWidth 32) (rt.setWidth 32) (sh.setWidth 32) (mb.setWidth 32)
    ((2 : BitVec 3).setWidth 32) 0) = _
  simp only [exec, hop, ht, ha, hsh, hmb, hxo]
  rfl

theorem getLsbD_mask (mb me i : Nat) (h : mb ≤ me) (hi : i < 64) :
    (mask mb me).getLsbD i = decide (63 - me ≤ i ∧ i < 64 - mb) := by
  simp only [mask, if_pos h, BitVec.getLsbD_and, BitVec.getLsbD_ushiftRight,
    BitVec.getLsbD_shiftLeft, BitVec.getLsbD_allOnes]
  grind

theorem ofNat_shift (h : n < 64) : BitVec.ofNat 32 n = (BitVec.ofNat 6 n).setWidth 32 := by
  apply BitVec.eq_of_toNat_eq
  simp
  omega

theorem toNat_shift (h : n < 64) : (BitVec.ofNat 6 n).toNat = n := by
  simp
  omega

theorem exec_sldi (n : Nat) (h : n < 64) : exec g (sldi (rt.setWidth 32) (rt.setWidth 32) (BitVec.ofNat 32 n)) =
      some (g.set rt (g rt <<< n)) := by
  have hme : (63 : BitVec 32) - (BitVec.ofNat 6 n).setWidth 32 = (BitVec.ofNat 6 (63 - n)).setWidth 32 := by
    apply BitVec.eq_of_toNat_eq
    simp
    omega
  unfold sldi
  rw [ofNat_shift h, hme, exec_rldicr]
  congr 2
  rw [toNat_shift h]
  apply BitVec.eq_of_getLsbD_eq
  intro i hi
  rw [BitVec.getLsbD_and, getLsbD_mask _ _ _ (by omega) hi, BitVec.getLsbD_shiftLeft]
  grind

theorem exec_sldi_word : exec g (sldi (rt.setWidth 32) (rt.setWidth 32) 32) = some (g.set rt (g rt <<< 32)) :=
  exec_sldi g rt 32 (by decide)

theorem exec_clrldi : exec g (clrldi (rt.setWidth 32) (rt.setWidth 32) 32) =
      some (g.set rt (((g rt).setWidth 32).setWidth 64)) := by
  have h := exec_rldicl g rt 0 32
  unfold clrldi
  rw [show (0 : BitVec 32) = (0 : BitVec 6).setWidth 32 from rfl,
    show (32 : BitVec 32) = (32 : BitVec 6).setWidth 32 from rfl, h]
  congr 2
  apply BitVec.eq_of_getLsbD_eq
  intro i hi
  rw [BitVec.getLsbD_and, show ((32 : BitVec 6).toNat) = 32 from rfl, getLsbD_mask 32 63 i (by decide) hi]
  grind

end

/-! ## Bits of a constant -/

theorem signExtend_halves (imm : BitVec 32) :
    ((imm >>> 16).setWidth 16).signExtend 64 <<< 16 ||| (imm.setWidth 16).setWidth 64 = imm.signExtend 64 := by
  apply BitVec.eq_of_getLsbD_eq
  intro i hi
  grind

theorem setWidth_halves (lo : BitVec 32) :
    ((lo >>> 16).setWidth 16).setWidth 64 <<< 16 ||| (lo.setWidth 16).setWidth 64 = lo.setWidth 64 := by
  grind

theorem setWidth_of_and (imm : BitVec 32) (h : imm &&& 0xFFFF = 0) : imm.setWidth 16 = 0#16 := by
  apply BitVec.eq_of_toNat_eq
  rw [BitVec.toNat_setWidth, ← Lib.toNat_and_mask (m := 0xFFFF) imm rfl, h]
  rfl

section
variable (g : Regs) (rt : BitVec 5)

theorem run_cons (w : Word) (ws : List Word) : run g (w :: ws) = (exec g w).bind (run · ws) := rfl

theorem run_append (ws ws' : List Word) : run g (ws ++ ws') = (run g ws).bind (run · ws') := by
  unfold run
  rw [List.foldlM_append]
  rfl

theorem run_halves (imm : BitVec 32) : run g (lis (rt.setWidth 32) ((imm >>> 16).setWidth 16) ::
      if imm &&& 0xFFFF ≠ 0 then [ori (rt.setWidth 32) (rt.setWidth 32) (imm.setWidth 16)]
      else []) = some (g.set rt (imm.signExtend 64)) := by
  rw [run_cons, exec_lis, Option.bind_some]
  split
  · rw [run_cons, exec_ori, Regs.set_self, Regs.set_set, signExtend_halves]
    rfl
  · next h =>
    have hzero := setWidth_of_and imm (not_not.mp h)
    have hhalves := signExtend_halves imm
    rw [hzero] at hhalves
    simp only [BitVec.setWidth_zero, BitVec.or_zero] at hhalves
    rw [hhalves]
    rfl

theorem run_loadImm32 (imm : BitVec 32) :
    run g (loadImm32 (rt.setWidth 32) imm) = some (g.set rt (imm.signExtend 64)) := by
  unfold loadImm32
  split
  · next h =>
    have hsmall : (imm.setWidth 16).signExtend 32 = imm :=
      Lib.signExtend_setWidth_of_range (by decide) (by decide) h.1 h.2
    have hint := congrArg BitVec.toInt hsmall
    have : (imm.setWidth 16).signExtend 64 = imm.signExtend 64 := by
      apply BitVec.eq_of_toInt_eq
      rwa [BitVec.toInt_signExtend_of_le (by decide), BitVec.toInt_signExtend_of_le (by decide)] at *
    rw [run_cons, exec_li, this]
    rfl
  · exact run_halves g rt imm

theorem run_loadHigh (hi : BitVec 32) : ∃ v : BitVec 64, run g (loadHigh (rt.setWidth 32) hi) = some (g.set rt v) ∧
      v.setWidth 32 = hi := by
  unfold loadHigh
  split
  · split
    · next hle =>
      refine ⟨(hi.setWidth 16).signExtend 64, ?_, ?_⟩
      · rw [run_cons, exec_li]
        rfl
      · have hlt : hi.toNat < 2 ^ 15 := Nat.lt_succ_of_le hle
        have hint : hi.toInt = hi.toNat := BitVec.toInt_eq_toNat_of_lt (by omega)
        have hv : (hi.setWidth 16).signExtend 32 = hi :=
          Lib.signExtend_setWidth_of_range (by decide) (by decide) (by omega) (by omega)
        grind
    · refine ⟨hi.signExtend 64, run_halves g rt hi, ?_⟩
      grind
  · next h =>
    refine ⟨0, ?_, ?_⟩
    · rw [run_cons, exec_li]
      rfl
    · rw [not_not.mp h]
      rfl

theorem run_loadLow (v : BitVec 64) (lo : BitVec 32) : run (g.set rt v)
      ((if lo >>> 16 ≠ 0 then [oris (rt.setWidth 32) (rt.setWidth 32) ((lo >>> 16).setWidth 16)]
        else []) ++
      (if lo &&& 0xFFFF ≠ 0 then [ori (rt.setWidth 32) (rt.setWidth 32) (lo.setWidth 16)]
        else [])) = some (g.set rt (v ||| lo.setWidth 64)) := by
  have hhigh (h : lo >>> 16 = 0) : ((lo >>> 16).setWidth 16).setWidth 64 <<< 16 = 0#64 := by
    rw [h]
    rfl
  have hlow (h : lo &&& 0xFFFF = 0) : (lo.setWidth 16).setWidth 64 = 0#64 := by
    rw [setWidth_of_and lo h]
    rfl
  rw [run_append]
  have hfirst : run (g.set rt v)
      (if lo >>> 16 ≠ 0 then [oris (rt.setWidth 32) (rt.setWidth 32) ((lo >>> 16).setWidth 16)]
        else []) = some (g.set rt (v ||| ((lo >>> 16).setWidth 16).setWidth 64 <<< 16)) := by
    split
    · rw [run_cons, exec_oris, Regs.set_self, Regs.set_set]
      rfl
    · next h =>
      rw [hhigh (not_not.mp h), BitVec.or_zero]
      rfl
  rw [hfirst, Option.bind_some, ← setWidth_halves, ← BitVec.or_assoc]
  split
  · rw [run_cons, exec_ori, Regs.set_self, Regs.set_set]
    rfl
  · next h =>
    rw [hlow (not_not.mp h), BitVec.or_zero]
    rfl

theorem halves_eq (imm v : BitVec 64) (h : v.setWidth 32 = (imm >>> 32).setWidth 32) :
    v <<< 32 ||| (imm.setWidth 32).setWidth 64 = imm := by
  apply BitVec.eq_of_getLsbD_eq
  intro i hi
  have hbit := congrArg (BitVec.getLsbD · (i - 32)) h
  grind

theorem run_loadGeneral (imm : BitVec 64) : run g (loadGeneral (rt.setWidth 32) imm) = some (g.set rt imm) := by
  obtain ⟨v, hrun, hv⟩ := run_loadHigh g rt ((imm >>> 32).setWidth 32)
  unfold loadGeneral
  rw [List.append_assoc, List.append_assoc, run_append, hrun, Option.bind_some,
    List.singleton_append, run_cons, exec_sldi_word, Option.bind_some, Regs.set_self,
    Regs.set_set, run_loadLow, halves_eq imm v hv]

theorem run_loadImm64Fixed (imm : BitVec 64) : run g (loadImm64Fixed (rt.setWidth 32) imm) = some (g.set rt imm) := by
  have hhigh := signExtend_halves ((imm >>> 32).setWidth 32)
  have hlow := setWidth_halves (imm.setWidth 32)
  have hv : (((imm >>> 32).setWidth 32).signExtend 64).setWidth 32 = (imm >>> 32).setWidth 32 := by grind
  unfold loadImm64Fixed
  simp only [run_cons, exec_lis, exec_ori, exec_oris, Option.bind_some, Regs.set_self]
  rw [hhigh, exec_sldi_word]
  simp only [Option.bind_some, Regs.set_self, Regs.set_set]
  rw [BitVec.or_assoc, hlow, halves_eq imm _ hv]
  rfl

end

/-! ## A run of ones -/

/-- Without ones below `lo` there are at most `n - lo` below `n`, and if there are
that many, every bit between is set. -/
theorem cpopNatRec_window (x : BitVec w) (lo n : Nat) (hlow : ∀ i < lo, x.getLsbD i = false) :
    x.cpopNatRec n 0 ≤ n - lo ∧ (x.cpopNatRec n 0 = n - lo → ∀ i, lo ≤ i → i < n → x.getLsbD i) := by
  induction n with
  | zero => exact ⟨by simp, fun _ i _ hi => absurd hi (by omega)⟩
  | succ n ih =>
    rw [BitVec.cpopNatRec_succ, BitVec.cpopNatRec_eq]
    obtain ⟨hle, hall⟩ := ih
    by_cases hn : n < lo
    · rw [hlow n hn]
      simp only [Bool.toNat_false]
      refine ⟨by omega, fun _ i hi hlt => absurd hi (by omega)⟩
    · cases hbit : x.getLsbD n with
      | false =>
        simp only [Bool.toNat_false]
        refine ⟨by omega, fun heq => absurd heq (by omega)⟩
      | true =>
        simp only [Bool.toNat_true]
        refine ⟨by omega, fun heq i hi hlt => ?_⟩
        by_cases hin : i < n
        · exact hall (by omega) i hi hin
        · rw [show i = n by omega, hbit]

theorem getLsbD_of_clz (x : BitVec w) (h : w - x.clz.toNat ≤ i) : x.getLsbD i = false := by
  exact Nat.testBit_lt_two_pow
    (Nat.lt_of_lt_of_le BitVec.toNat_lt_two_pow_sub_clz (Nat.pow_le_pow_right (by decide) h))

theorem cpopNatRec_clz (x : BitVec w) (n : Nat) :
    x.cpopNatRec (w - x.clz.toNat + n) 0 = x.cpopNatRec (w - x.clz.toNat) 0 := by
  induction n with
  | zero => rfl
  | succ n ih =>
    rw [← Nat.add_assoc, BitVec.cpopNatRec_succ, getLsbD_of_clz x (by omega), Bool.toNat_false, ih]

theorem ctz_lt_of_ne_zero {w : Nat} {x : BitVec w} (hne : x ≠ 0#w) : x.ctz.toNat < w - x.clz.toNat := by
  by_contra hge
  have htop := BitVec.getLsbD_true_ctz_of_ne_zero hne
  rw [getLsbD_of_clz x (by omega)] at htop
  cases htop

theorem getLsbD_of_counts (x : BitVec w) (h : x.cpop.toNat + x.clz.toNat + x.ctz.toNat = w) (i : Nat) :
    x.getLsbD i = decide (x.ctz.toNat ≤ i ∧ i < w - x.clz.toNat) := by
  have hcount : x.cpopNatRec (w - x.clz.toNat) 0 = w - x.clz.toNat - x.ctz.toNat := by
    rw [← cpopNatRec_clz x x.clz.toNat, Nat.sub_add_cancel (by omega), ← BitVec.toNat_cpop]
    omega
  have hall := (cpopNatRec_window x x.ctz.toNat (w - x.clz.toNat)
    fun i hi => BitVec.getLsbD_false_of_lt_ctz hi).2 hcount
  by_cases hlo : i < x.ctz.toNat
  · rw [BitVec.getLsbD_false_of_lt_ctz hlo]
    exact (decide_eq_false (by omega)).symm
  by_cases hhi : i < w - x.clz.toNat
  · rw [hall i (by omega) hhi]
    exact (decide_eq_true (by omega)).symm
  · rw [getLsbD_of_clz x (by omega)]
    exact (decide_eq_false (by omega)).symm

theorem mask_of_counts (imm : BitVec 64) (hne : imm ≠ 0) (h : imm.cpop.toNat + imm.clz.toNat + imm.ctz.toNat = 64) :
    mask imm.clz.toNat (63 - imm.ctz.toNat) = imm := by
  have hlt := ctz_lt_of_ne_zero hne
  apply BitVec.eq_of_getLsbD_eq
  intro i hi
  rw [getLsbD_mask _ _ _ (by omega) hi, getLsbD_of_counts imm h, decide_eq_decide]
  omega

/-! ## The variable form -/

section
variable (g : Regs) (rt : BitVec 5)

theorem shift_back (imm : BitVec 64) : imm >>> imm.ctz.toNat <<< imm.ctz.toNat = imm := by
  apply BitVec.eq_of_getLsbD_eq
  intro i hi
  simp only [BitVec.getLsbD_shiftLeft, BitVec.getLsbD_ushiftRight]
  by_cases hlo : i < imm.ctz.toNat
  · rw [BitVec.getLsbD_false_of_lt_ctz hlo]
    simp [hlo]
  · simp only [hi, hlo, decide_true, decide_false, Bool.not_false, Bool.true_and]
    congr 1
    omega

theorem signExtend_setWidth_of_le (v : BitVec 64) (h : v ≤ 0x7FFFFFFF) : (v.setWidth 32).signExtend 64 = v := by
  have hlt : v.toNat < 2 ^ 31 := Nat.lt_succ_of_le h
  have hint : v.toInt = v.toNat := BitVec.toInt_eq_toNat_of_lt (by omega)
  exact Lib.signExtend_setWidth_of_range (by decide) (by decide) (by omega) (by omega)

theorem run_loadWide (imm : BitVec 64) (hne : imm ≠ 0) :
    run g (loadWide d (rt.setWidth 32) imm imm.ctz.toNat (imm.sshiftRight imm.ctz.toNat)) =
      some (g.set rt imm) := by
  have hctz : imm.ctz.toNat < 64 := BitVec.ctz_lt_iff_ne_zero.mpr hne
  unfold loadWide
  split
  · next h =>
    obtain ⟨hlo, hhi, hback⟩ := h
    have hv : ((imm.sshiftRight imm.ctz.toNat).setWidth 16).signExtend 64 = imm.sshiftRight imm.ctz.toNat :=
      Lib.signExtend_setWidth_of_range (by decide) (by decide) hlo (by omega)
    rw [run_cons, exec_li, Option.bind_some, run_cons, exec_sldi _ _ _ hctz, Regs.set_self, Regs.set_set, hv, hback]
    rfl
  split
  · next h =>
    have hclz : imm.clz.toNat < 64 := BitVec.clz_lt_iff_ne_zero.mpr hne
    have hones (n : Nat) : ((-1 : BitVec 16).signExtend 64).rotateLeft n = BitVec.allOnes 64 := by
      apply BitVec.eq_of_getLsbD_eq
      intro i hi
      rw [show (-1 : BitVec 16).signExtend 64 = BitVec.allOnes 64 from rfl, BitVec.getLsbD_rotateLeft]
      simp only [BitVec.getLsbD_allOnes]
      grind
    rw [run_cons, exec_li, Option.bind_some, run_cons, ofNat_shift hctz, ofNat_shift hclz, exec_rldic,
      Regs.set_self, Regs.set_set, toNat_shift hctz, toNat_shift hclz, hones,
      BitVec.allOnes_and, mask_of_counts imm hne h]
    rfl
  split
  · next h =>
    rw [run_append, run_loadImm32, Option.bind_some, run_cons, exec_sldi _ _ _ hctz,
      Regs.set_self, Regs.set_set, signExtend_setWidth_of_le _ h.2.2, shift_back]
    rfl
  · exact run_loadGeneral g rt imm

theorem run_loadImm64 (imm : BitVec 64) : run g (loadImm64 d (rt.setWidth 32) imm) = some (g.set rt imm) := by
  unfold loadImm64
  split
  · next h =>
    rw [run_cons, exec_li, h]
    rfl
  next hne =>
  split
  · next h =>
    have hv : (imm.setWidth 32).signExtend 64 = imm := by
      rcases h with h | h
      · exact signExtend_setWidth_of_le imm h
      · have hlo : 0xFFFFFFFF80000000 ≤ imm.toNat := h
        have hint := BitVec.toInt_eq_toNat_cond imm
        exact Lib.signExtend_setWidth_of_range (by decide) (by decide) (by omega) (by omega)
    rw [run_loadImm32, hv]
  next hwide =>
  split
  · next h =>
    have hlt : imm.toNat < 2 ^ 32 := Nat.lt_succ_of_le h
    have hv : (((imm.setWidth 32).signExtend 64).setWidth 32).setWidth 64 = imm := by
      have hlow : ((imm.setWidth 32).signExtend 64).setWidth 32 = imm.setWidth 32 := by grind
      rw [hlow]
      apply BitVec.eq_of_toNat_eq
      simp
      omega
    rw [run_append, run_loadImm32, Option.bind_some, run_cons, exec_clrldi, Regs.set_self, Regs.set_set, hv]
    rfl
  · exact run_loadWide g rt imm hne

end

/-- Both forms load every constant into every register and change no other. The variable
form takes one to five instructions, one exactly for the constants the inliner counts as
such, and the fixed form five. -/
theorem loadImm64_exact (d : Bool) (rt : BitVec 5) (imm : BitVec 64) :
    (∀ g, run g (loadImm64 d (rt.setWidth 32) imm) = some (g.set rt imm)) ∧
      (loadImm64 d (rt.setWidth 32) imm).length ≤ 5 ∧
      ((loadImm64 d (rt.setWidth 32) imm).length = 1 ↔ isOneInsnConstant imm = true) ∧
      (loadImm64Fixed (rt.setWidth 32) imm).length = 5 ∧
      ∀ g, run g (loadImm64Fixed (rt.setWidth 32) imm) = some (g.set rt imm) := by
  obtain ⟨hle, hone⟩ := loadImm64_length d (rt.setWidth 32) imm
  exact ⟨fun g => run_loadImm64 g rt imm, hle, hone, rfl, fun g => run_loadImm64Fixed g rt imm⟩

end PowerArm.Ppc
