import Mathlib

/-!
# Peeling computations that can fail

Inversion of `bind` and of `mapM` on `Except` and `Option`, used to take a
successful run apart without unfolding the monad.
-/

namespace PowerArm.Lib

theorem Except.bind_ok {x : Except ε α} {f : α → Except ε β} : (x >>= f) = .ok r ↔ ∃ a, x = .ok a ∧ f a = .ok r := by
  cases x with
  | error e => exact ⟨nofun, fun ⟨_, h, _⟩ => nomatch h⟩
  | ok a => exact ⟨fun h => ⟨a, rfl, h⟩, fun ⟨_, h, hf⟩ => by cases h; exact hf⟩

theorem Except.mapM_ok {f : α → Except ε β} (h : l.mapM f = .ok r) : List.Forall₂ (fun a b => f a = .ok b) l r := by
  induction l generalizing r with
  | nil => cases h; exact .nil
  | cons a l ih =>
    rw [List.mapM_cons, bind_ok] at h
    obtain ⟨b, hb, h⟩ := h
    rw [bind_ok] at h
    obtain ⟨r', hr', h⟩ := h
    cases h
    exact .cons hb (ih hr')

theorem forall₂_mem_left (h : List.Forall₂ R l r) (ha : a ∈ l) : ∃ b ∈ r, R a b := by
  induction h with
  | nil => cases ha
  | cons hab _ ih =>
    rcases List.mem_cons.mp ha with rfl | ha
    · exact ⟨_, List.mem_cons_self, hab⟩
    · obtain ⟨b, hb, hR⟩ := ih ha
      exact ⟨b, List.mem_cons_of_mem _ hb, hR⟩

theorem forall₂_mem_right (h : List.Forall₂ R l r) (hb : b ∈ r) : ∃ a ∈ l, R a b := forall₂_mem_left h.flip hb

end PowerArm.Lib
