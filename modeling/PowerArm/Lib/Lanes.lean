import Mathlib

/-!
# Lanes of a vector register

A bit vector read as lanes of `w` bits, lane 0 lowest. `zipLanes` is what a lanewise
instruction computes; on vectors whose lanes are all the same it gives such a
vector again (`zipLanes_splat`).
-/

namespace PowerArm.Lib

variable {n w : Nat}

def lane (w i : Nat) (v : BitVec n) : BitVec w := v.extractLsb' (w * i) w

def ofLanes (n w : Nat) (f : Nat → BitVec w) : BitVec n :=
  (BitVec.ofBoolListLE ((List.range n).map fun i => (f (i / w)).getLsbD (i % w))).setWidth n

def zipLanes (w : Nat) (f : BitVec w → BitVec w → BitVec w) (a b : BitVec n) : BitVec n :=
  ofLanes n w fun i => f (lane w i a) (lane w i b)

def zipLanes₃ (w : Nat) (f : BitVec w → BitVec w → BitVec w → BitVec w) (a b c : BitVec n) : BitVec n :=
  ofLanes n w fun i => f (lane w i a) (lane w i b) (lane w i c)

def splat (n : Nat) (x : BitVec w) : BitVec n := ofLanes n w fun _ => x

def setLane (i : Nat) (x : BitVec w) (v : BitVec n) : BitVec n :=
  ofLanes n w fun j => if j = i then x else lane w j v

theorem getLsbD_ofLanes (f : Nat → BitVec w) (i : Nat) :
    (ofLanes n w f).getLsbD i = (decide (i < n) && (f (i / w)).getLsbD (i % w)) := by
  rw [ofLanes, BitVec.getLsbD_setWidth, BitVec.getLsbD_ofBoolListLE]
  by_cases h : i < n
  · simp [h]
  · simp [h]

theorem lane_ofLanes (f : Nat → BitVec w) (h : w * (i + 1) ≤ n) : lane w i (ofLanes n w f) = f i := by
  refine BitVec.eq_of_getLsbD_eq fun j hj => ?_
  have hlt : w * i + j < n := by
    rw [Nat.mul_succ] at h
    omega
  have hdiv : (w * i + j) / w = i := by rw [Nat.mul_add_div (by omega), Nat.div_eq_of_lt hj, Nat.add_zero]
  have hmod : (w * i + j) % w = j := by rw [Nat.mul_add_mod, Nat.mod_eq_of_lt hj]
  rw [lane, BitVec.getLsbD_extractLsb', getLsbD_ofLanes, hdiv, hmod]
  simp [hj, hlt]

theorem ofLanes_congr (hw : w ∣ n) (h : ∀ i, w * (i + 1) ≤ n → f i = g i) : ofLanes n w f = ofLanes n w g := by
  refine BitVec.eq_of_getLsbD_eq fun i hi => ?_
  have hpos : 0 < w := by
    rcases Nat.eq_zero_or_pos w with rfl | hpos
    · omega
    · exact hpos
  have hle : w * (i / w + 1) ≤ n := by
    obtain ⟨k, rfl⟩ := hw
    have hk : i / w < k := Nat.div_lt_of_lt_mul hi
    exact Nat.mul_le_mul_left w hk
  rw [getLsbD_ofLanes, getLsbD_ofLanes, h _ hle]

theorem lane_zero (k : Nat) (v : BitVec n) : lane k 0 v = v.setWidth k := by
  refine BitVec.eq_of_getLsbD_eq fun i hi => ?_
  simp [lane]

theorem lane_zero_splat_lane (hk : k ≤ w) (hw : w ≤ n) (v : BitVec n) :
    lane k 0 (splat n (lane w 0 v)) = lane k 0 v := by
  refine BitVec.eq_of_getLsbD_eq fun i hi => ?_
  have hlt : i < w := by omega
  rw [lane_zero, lane_zero k v, BitVec.getLsbD_setWidth, splat, getLsbD_ofLanes, Nat.mod_eq_of_lt hlt, lane_zero]
  simp [hlt, show i < n by omega]

theorem lane_zero_splat (h : w ≤ n) (x : BitVec w) : lane w 0 (splat n x) = x := lane_ofLanes _ (by omega)

theorem lane_zero_setLane (h : w ≤ n) (x : BitVec w) (v : BitVec n) : lane w 0 (setLane 0 x v) = x :=
  lane_ofLanes _ (by omega)

theorem lane_zero_zipLanes (h : w ≤ n) (f : BitVec w → BitVec w → BitVec w) (a b : BitVec n) :
    lane w 0 (zipLanes w f a b) = f (lane w 0 a) (lane w 0 b) :=
  lane_ofLanes _ (by omega)

theorem zipLanes_splat (hw : w ∣ n) (f : BitVec w → BitVec w → BitVec w) (x y : BitVec w) :
    zipLanes w f (splat n x) (splat n y) = splat n (f x y) :=
  ofLanes_congr hw fun i hi => by rw [splat, splat, lane_ofLanes _ hi, lane_ofLanes _ hi]

theorem zipLanes₃_splat (hw : w ∣ n) (f : BitVec w → BitVec w → BitVec w → BitVec w) (x y z : BitVec w) :
    zipLanes₃ w f (splat n x) (splat n y) (splat n z) = splat n (f x y z) :=
  ofLanes_congr hw fun i hi => by rw [splat, splat, splat, lane_ofLanes _ hi, lane_ofLanes _ hi, lane_ofLanes _ hi]

end PowerArm.Lib
