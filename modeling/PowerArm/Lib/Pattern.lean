import Mathlib

/-!
# Bit patterns and decision trees over them

A pattern fixes some bits of a word. `Tree.Allows` bounds what a decision tree
can answer on the words of a pattern (`Tree.eval_of_allows`), and `covers` shows
that every word of a pattern matches one of a list (`exists_of_covers`). Both are
computed, so facts about all words of a group come from evaluation.
-/

namespace PowerArm.Lib

structure Pattern (n : Nat) where
  mask : BitVec n
  value : BitVec n
deriving DecidableEq, Repr

namespace Pattern

def Matches (p : Pattern n) (w : BitVec n) : Prop := w &&& p.mask = p.value

instance (p : Pattern n) (w : BitVec n) : Decidable (p.Matches w) := inferInstanceAs (Decidable (_ = _))

def Apart (p q : Pattern n) : Prop := (p.value ^^^ q.value) &&& (p.mask &&& q.mask) ≠ 0#n

instance (p q : Pattern n) : Decidable (p.Apart q) := inferInstanceAs (Decidable (_ ≠ _))

def Within (p q : Pattern n) : Prop := p.mask &&& q.mask = q.mask ∧ p.value &&& q.mask = q.value

instance (p q : Pattern n) : Decidable (p.Within q) := inferInstanceAs (Decidable (_ ∧ _))

def meet (p q : Pattern n) : Pattern n := ⟨p.mask ||| q.mask, p.value ||| q.value⟩

def fix (p : Pattern n) (i : Nat) (b : Bool) : Pattern n :=
  p.meet ⟨BitVec.twoPow n i, if b then BitVec.twoPow n i else 0#n⟩

theorem Apart.not_matches (h : Apart p q) (hp : p.Matches w) : ¬q.Matches w := by
  intro hq
  refine h ?_
  rw [← hp, ← hq]
  ext i hi
  simp only [BitVec.getElem_and, BitVec.getElem_xor, BitVec.getElem_zero]
  cases w[i] <;> cases p.mask[i] <;> cases q.mask[i] <;> rfl

theorem Within.matches (h : Within p q) (hp : p.Matches w) : q.Matches w := by
  unfold Matches
  rw [← h.1, ← BitVec.and_assoc, show w &&& p.mask = p.value from hp]
  exact h.2

theorem Matches.meet (hp : Matches p w) (hq : q.Matches w) : (p.meet q).Matches w := by
  unfold Matches Pattern.meet
  rw [BitVec.and_or_distrib_left, hp, hq]

theorem Matches.fix (h : Matches p w) (i : Nat) : (p.fix i (w.getLsbD i)).Matches w :=
  h.meet (BitVec.and_twoPow w i)

/-- Split on the listed bits that are free until each part lies in one of the patterns. -/
def covers (qs : List (Pattern n)) : List Nat → Pattern n → Bool
  | [], p => qs.any (p.Within ·)
  | i :: is, p => qs.any (p.Within ·) || if p.mask.getLsbD i then covers qs is p
    else covers qs is (p.fix i false) && covers qs is (p.fix i true)

theorem exists_of_any {p : Pattern n} {qs : List (Pattern n)} (h : qs.any (p.Within ·)) (hp : p.Matches w) :
    ∃ q ∈ qs, q.Matches w := by
  obtain ⟨q, hq, hin⟩ := List.any_eq_true.mp h
  exact ⟨q, hq, (of_decide_eq_true hin).matches hp⟩

theorem exists_of_covers (is : List Nat) (h : covers qs is p) (hp : p.Matches w) : ∃ q ∈ qs, q.Matches w := by
  induction is generalizing p with
  | nil => exact exists_of_any h hp
  | cons i is ih =>
    rcases Bool.or_eq_true_iff.mp h with h | h
    · exact exists_of_any h hp
    · split at h
      · exact ih h hp
      · obtain ⟨h0, h1⟩ := Bool.and_eq_true_iff.mp h
        have hfix := hp.fix i
        cases hi : w.getLsbD i with
        | false => exact ih h0 (hi ▸ hfix)
        | true => exact ih h1 (hi ▸ hfix)

end Pattern

/-! ## Decision trees -/

inductive Tree (n : Nat) (α : Type)
  | leaf (answer : α)
  | node (test : Pattern n) (yes no : Tree n α)

namespace Tree

def eval (w : BitVec n) : Tree n α → α
  | leaf a => a
  | node t yes no => if t.Matches w then yes.eval w else no.eval w

theorem eval_leaf (w : BitVec n) (a : α) : (leaf a).eval w = a := rfl

theorem eval_node (w m v : BitVec n) (yes no : Tree n α) :
    (node ⟨m, v⟩ yes no).eval w = if w &&& m = v then yes.eval w else no.eval w := rfl

def allows (ok : α → Bool) : Tree n α → Pattern n → Bool
  | leaf a, _ => ok a
  | node t yes no, p =>
    if p.Apart t then no.allows ok p
    else if p.Within t then yes.allows ok p
    else yes.allows ok (p.meet t) && no.allows ok p

theorem eval_of_allows (tree : Tree n α) (h : tree.allows ok p) (hp : p.Matches w) : ok (tree.eval w) := by
  induction tree generalizing p with
  | leaf a => exact h
  | node t yes no ihy ihn =>
    rw [allows] at h
    rw [eval]
    split at h
    · rename_i hap
      rw [if_neg (hap.not_matches hp)]
      exact ihn h hp
    · split at h
      · rename_i hin
        rw [if_pos (hin.matches hp)]
        exact ihy h hp
      · obtain ⟨hy, hn⟩ := Bool.and_eq_true_iff.mp h
        split
        · rename_i ht
          exact ihy hy (hp.meet ht)
        · exact ihn hn hp

/-- The words with an accepted answer all match one of the patterns. -/
def answersWithin (ok : α → Bool) (qs : List (Pattern n)) (is : List Nat) : Tree n α → Pattern n → Bool
  | leaf a, p => !ok a || Pattern.covers qs is p
  | node t yes no, p =>
    if p.Apart t then no.answersWithin ok qs is p
    else yes.answersWithin ok qs is (p.meet t) && no.answersWithin ok qs is p

theorem exists_of_answersWithin (tree : Tree n α)
    (h : tree.answersWithin ok qs is p) (hp : p.Matches w) (hok : ok (tree.eval w)) : ∃ q ∈ qs, q.Matches w := by
  induction tree generalizing p with
  | leaf a =>
    rw [answersWithin, show ok a from hok] at h
    exact Pattern.exists_of_covers is h hp
  | node t yes no ihy ihn =>
    rw [answersWithin] at h
    rw [eval] at hok
    split at h
    · rename_i hap
      rw [if_neg (hap.not_matches hp)] at hok
      exact ihn h hp hok
    · obtain ⟨hy, hn⟩ := Bool.and_eq_true_iff.mp h
      split at hok
      · rename_i ht
        exact ihy hy (hp.meet ht) hok
      · exact ihn hn hp hok

end Tree

end PowerArm.Lib
