import Mathlib

/-!
# Rearranging a list by independent neighbours

`Rearranged indep l l'` holds when `l'` is reached from `l` by exchanging
neighbours that `indep` relates. A search for the first element satisfying a
predicate cannot tell the two lists apart when independent elements never
satisfy it together (`Rearranged.find?_eq`). `inversions` is the measure that
bounds any sequence of exchanges driven by a key.
-/

namespace PowerArm.Lib

inductive Rearranged (indep : α → α → Prop) : List α → List α → Prop
  | nil : Rearranged indep [] []
  | cons : Rearranged indep l l' → Rearranged indep (x :: l) (x :: l')
  | swap : indep x y → Rearranged indep (x :: y :: l) (y :: x :: l)
  | trans : Rearranged indep l l' → Rearranged indep l' l'' → Rearranged indep l l''

namespace Rearranged

variable {indep : α → α → Prop}

theorem refl : (l : List α) → Rearranged indep l l
  | [] => .nil
  | _ :: l => .cons (refl l)

theorem perm (h : Rearranged indep l l') : l.Perm l' := by
  induction h with
  | nil => exact .nil
  | cons _ ih => exact ih.cons _
  | swap _ => exact .swap ..
  | trans _ _ ih ih' => exact ih.trans ih'

theorem find?_eq (h : Rearranged indep l l') (hp : ∀ x y, indep x y → ¬(p x ∧ p y)) : l.find? p = l'.find? p := by
  induction h with
  | nil => rfl
  | @cons l l' x _ ih => simp only [List.find?_cons, ih]
  | @swap x y l hxy =>
    have hne := hp x y hxy
    cases hx : p x <;> cases hy : p y <;> simp_all
  | trans _ _ ih ih' => exact ih.trans ih'

end Rearranged

def inversions (key : α → Int) : List α → Nat
  | [] => 0
  | x :: l => l.countP (fun y => key x < key y) + inversions key l

theorem inversions_swap_lt (h : key x < key y) : inversions key (y :: x :: l) < inversions key (x :: y :: l) := by
  have hyx : ¬ key y < key x := by omega
  simp only [inversions, List.countP_cons, h, hyx, decide_true]
  simp
  omega

theorem inversions_cons_le (hp : l.Perm l') (h : inversions key l' ≤ inversions key l) :
    inversions key (x :: l') ≤ inversions key (x :: l) := by
  simp only [inversions, hp.countP_eq]
  omega

theorem inversions_cons_lt (hp : l.Perm l') (h : inversions key l' < inversions key l) :
    inversions key (x :: l') < inversions key (x :: l) := by
  simp only [inversions, hp.countP_eq]
  omega

end PowerArm.Lib
