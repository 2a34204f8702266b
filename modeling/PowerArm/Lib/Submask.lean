import Mathlib

/-!
# Masks

A mask of the low bits takes a word modulo a power of two (`toNat_and_mask`), and a word
is the sum of what a mask keeps and what it drops (`and_not_add_and`).
From a submask `s` of `m`, the next lower submask of `m` is `(s - 1) &&& m`:
nothing between the two is a submask (`le_pred_and_of_lt`). This is why the
usual descending walk visits every submask.
-/

namespace PowerArm.Lib

theorem toNat_and_mask {m : BitVec w} (x : BitVec w) (hm : m.toNat = 2 ^ k - 1) :
    (x &&& m).toNat = x.toNat % 2 ^ k := by
  rw [BitVec.toNat_and, hm, Nat.and_two_pow_sub_one_eq_mod]

theorem and_not_add_and (x m : BitVec w) : (x &&& ~~~m) + (x &&& m) = x := by
  rw [BitVec.add_eq_or_of_and_eq_zero _ _ (by ext i; simp; grind)]
  grind

theorem le_pred_and_of_lt (hs : s &&& m = s) (ht : t &&& m = t) (hlt : t < s) : t ≤ (s - 1) &&& m := by
  induction s using Nat.strongRecOn generalizing t m with
  | ind s ih =>
    have hs2 : s / 2 &&& m / 2 = s / 2 := by rw [← Nat.and_div_two, hs]
    have ht2 : t / 2 &&& m / 2 = t / 2 := by rw [← Nat.and_div_two, ht]
    have hand : ((s - 1) &&& m) = 2 * ((s - 1) / 2 &&& m / 2) + ((s - 1) &&& m) % 2 := by
      rw [← Nat.and_div_two]
      omega
    have hbit : ∀ a : Nat, (a &&& m) % 2 = a % 2 * (m % 2) := fun a => by
      have ha := Nat.and_mod_two_pow (a := a) (b := m) (n := 1)
      rcases Nat.mod_two_eq_zero_or_one a with h | h <;>
        rcases Nat.mod_two_eq_zero_or_one m with h' | h' <;> simp [ha, h]
    rcases Nat.mod_two_eq_zero_or_one s with h0 | h1
    · -- the lowest set bit of `s` is higher up: recurse on the upper bits
      have hrec := ih (s / 2) (by omega) hs2 ht2 (by omega)
      have hpred : (s - 1) / 2 = s / 2 - 1 := by omega
      have hodd : (s - 1) % 2 = 1 := by omega
      have htm : t % 2 ≤ m % 2 := by
        have := hbit t
        rcases Nat.mod_two_eq_zero_or_one m with h | h <;> rw [h] at this <;> omega
      have := hbit (s - 1)
      rw [hpred] at hand
      rw [hodd] at this
      omega
    · have hpred : (s - 1) / 2 = s / 2 := by omega
      rw [hpred] at hand
      omega

end PowerArm.Lib
