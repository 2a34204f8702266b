import Mathlib

/-!
# Runs of a transition function

A run applies a list of operations in order. `Admissible` says that each
operation met a side condition in the state it was applied to; what a single
admissible step preserves then holds after the run (`foldl_invariant`).
`AdmissibleM` and `foldlM_invariant` do the same for a step that may fail, with
a record of the past operations beside the state.
-/

namespace PowerArm.Lib

def Admissible (step : σ → ι → σ) (ok : σ → ι → Prop) : σ → List ι → Prop
  | _, [] => True
  | s, i :: is => ok s i ∧ Admissible step ok (step s i) is

theorem foldl_invariant {step : σ → ι → σ} {ok : σ → ι → Prop} {inv : σ → Prop}
    (hstep : ∀ s i, inv s → ok s i → inv (step s i)) (h : inv s)
    (hrun : Admissible step ok s is) : inv (is.foldl step s) := by
  induction is generalizing s with
  | nil => exact h
  | cons i is ih => exact ih (hstep s i h hrun.1) hrun.2

theorem admissible_append : Admissible step ok s (xs ++ ys) ↔
      Admissible step ok s xs ∧ Admissible step ok (xs.foldl step s) ys := by
  induction xs generalizing s with
  | nil => simp [Admissible]
  | cons x xs ih => simp [Admissible, ih, and_assoc]

theorem Admissible.and_all {step : σ → ι → σ} {p : ι → Prop} (h : Admissible step ok s is) (hp : ∀ i ∈ is, p i) :
    Admissible step (fun s i => ok s i ∧ p i) s is := by
  induction is generalizing s with
  | nil => trivial
  | cons i is ih =>
    obtain ⟨hi, his⟩ := List.forall_mem_cons.mp hp
    exact ⟨⟨h.1, hi⟩, ih h.2 his⟩

def AdmissibleM (step : σ → ι → Option σ) (ok : σ → ι → Prop) : σ → List ι → Prop
  | _, [] => True
  | s, i :: is => ok s i ∧ ∀ s' ∈ step s i, AdmissibleM step ok s' is

instance decidableAdmissibleM {step : σ → ι → Option σ} {ok : σ → ι → Prop}
    [∀ s i, Decidable (ok s i)] : ∀ s is, Decidable (AdmissibleM step ok s is)
  | _, [] => isTrue trivial
  | s, i :: is =>
    have (s' : σ) : Decidable (AdmissibleM step ok s' is) := decidableAdmissibleM s' is
    inferInstanceAs (Decidable (ok s i ∧ ∀ s' ∈ step s i, AdmissibleM step ok s' is))

theorem foldlM_invariant {step : σ → ι → Option σ} {ok : σ → ι → Prop} {record : γ → ι → γ} {inv : γ → σ → Prop}
    (hstep : ∀ g s i s', inv g s → ok s i → step s i = some s' → inv (record g i) s')
    (h : inv g s) (hok : AdmissibleM step ok s is) (hrun : is.foldlM step s = some s') :
    inv (is.foldl record g) s' := by
  induction is generalizing g s with
  | nil => exact Option.some.inj hrun ▸ h
  | cons i is ih =>
    obtain ⟨s₁, hs₁, hrest⟩ := Option.bind_eq_some_iff.mp hrun
    exact ih (hstep g s i s₁ h hok.1 hs₁) (hok.2 s₁ hs₁) hrest

end PowerArm.Lib
