import Mathlib

/-!
# Words in bytes

`toBytes` writes the low bytes of a word, the lowest first, and `ofBytes` reads them
back (`ofBytes_toBytes`, `toBytes_ofBytes`). A word that is in the range of a shorter signed one is the
extension of its low bits (`signExtend_setWidth_of_range`).
-/

namespace PowerArm.Lib

def toBytes : Nat → BitVec w → List (BitVec 8)
  | 0, _ => []
  | n + 1, v => v.setWidth 8 :: toBytes n (v >>> 8)

def ofBytes (w : Nat) : List (BitVec 8) → BitVec w
  | [] => 0
  | b :: bs => b.setWidth w ||| ofBytes w bs <<< 8

@[simp] theorem length_toBytes (n : Nat) (v : BitVec w) : (toBytes n v).length = n := by
  induction n generalizing v with
  | zero => rfl
  | succ n ih => simp [toBytes, ih]

theorem getLsbD_ofBytes_toBytes (n : Nat) (v : BitVec w) (hi : i < w) :
    (ofBytes w (toBytes n v)).getLsbD i = (decide (i < 8 * n) && v.getLsbD i) := by
  induction n generalizing v i with
  | zero => simp [toBytes, ofBytes]
  | succ n ih =>
    simp only [toBytes, ofBytes, BitVec.getLsbD_or, BitVec.getLsbD_setWidth, BitVec.getLsbD_shiftLeft, hi,
      decide_true]
    by_cases hlow : i < 8
    · simp [hlow, show i < 8 * (n + 1) by omega]
    · rw [ih _ (by omega)]
      simp [hlow, show 8 + (i - 8) = i by omega, show i - 8 < 8 * n ↔ i < 8 * (n + 1) by omega]

theorem ofBytes_toBytes (v : BitVec w) (hw : w ≤ 8 * n) : ofBytes w (toBytes n v) = v := by
  apply BitVec.eq_of_getLsbD_eq
  intro i hi
  rw [getLsbD_ofBytes_toBytes n v hi]
  simp [show i < 8 * n by omega]

theorem getLsbD_ofBytes_of_le (bs : List (BitVec 8)) (h : 8 * bs.length ≤ i) : (ofBytes w bs).getLsbD i = false := by
  induction bs generalizing i with
  | nil => simp [ofBytes]
  | cons b bs ih =>
    rw [List.length_cons] at h
    simp [ofBytes, ih (show 8 * bs.length ≤ i - 8 by omega), BitVec.getLsbD_of_ge b i (by omega)]

theorem toBytes_ofBytes (bs : List (BitVec 8)) (h : 8 * bs.length ≤ w) : toBytes bs.length (ofBytes w bs) = bs := by
  induction bs with
  | nil => rfl
  | cons b bs ih =>
    rw [List.length_cons] at h
    rw [List.length_cons, toBytes]
    congr 1
    · ext i hi
      simp [ofBytes, hi, show i < w by omega]
    · have hrest : ofBytes w (b :: bs) >>> 8 = ofBytes w bs := by
        ext i hi
        by_cases hlow : 8 + i < w
        · simp [ofBytes, hlow]
        · have hzero := getLsbD_ofBytes_of_le (w := w) bs (show 8 * bs.length ≤ i by omega)
          simp [← BitVec.getLsbD_eq_getElem hi, hzero,
            BitVec.getLsbD_of_ge (ofBytes w (b :: bs)) (8 + i) (by omega)]
      rw [hrest, ih (by omega)]

theorem signExtend_setWidth_of_range {v : BitVec w} (hk : 0 < k) (hle : k ≤ w)
    (hlow : -2 ^ (k - 1) ≤ v.toInt) (hhigh : v.toInt < 2 ^ (k - 1)) : (v.setWidth k).signExtend w = v := by
  apply BitVec.eq_of_toInt_eq
  rw [BitVec.toInt_signExtend_of_le hle, BitVec.toInt_setWidth]
  have hmod : (v.toNat : Int).bmod (2 ^ k) = v.toInt.bmod (2 ^ k) := by
    rw [BitVec.toInt_eq_toNat_bmod, Int.bmod_bmod_of_dvd (Nat.pow_dvd_pow 2 hle)]
  rw [hmod]
  have hpow : (2 : Int) ^ k = 2 * 2 ^ (k - 1) := by rw [← Int.pow_succ', Nat.sub_add_cancel hk]
  apply Int.bmod_eq_of_le_mul_two
  · push_cast
    omega
  · push_cast
    omega

end PowerArm.Lib
