import PowerArm.Overlay.Resolve

/-!
# The merged tree

What the layers stand for together: the entries of the overlay over those of the base,
without the names that are whited out and without the base's part of opaque directories
(`merged`). Only owned paths are layered; their ancestors are the base's, or directories
that only the overlay has.
-/

namespace PowerArm.Overlay

open Lib.PathWalk

/-! ## Prefixes of paths -/

def Owned (p : Path) : Prop := ∃ q ∈ ownedPrefixes, q <:+ p

def NoFallthrough (p : Path) : Prop := ∃ q ∈ noFallthroughPrefixes, q <:+ p

def OwnedAncestor (p : Path) : Prop := p ∈ ownedAncestors

instance : DecidablePred Owned := fun p => inferInstanceAs (Decidable (∃ q ∈ ownedPrefixes, q <:+ p))

instance : DecidablePred NoFallthrough := fun p => inferInstanceAs (Decidable (∃ q ∈ noFallthroughPrefixes, q <:+ p))

instance : DecidablePred OwnedAncestor := fun p => inferInstanceAs (Decidable (p ∈ ownedAncestors))

def PlainPath (p : Path) : Prop := ∀ c ∈ p, Plain c

theorem names_render (h : PlainPath p) : names (render p) = p.reverse := by
  induction p with
  | nil => rfl
  | cons c p ih =>
    obtain ⟨hc, hp⟩ := List.forall_mem_cons.mp h
    rw [render, names_append_slash, ih hp, names_of_plain hc, List.reverse_cons]

theorem render_append (r q : Path) : render (r ++ q) = render q ++ render r := by
  induction r with
  | nil => exact (List.append_nil _).symm
  | cons c r ih => rw [List.cons_append, render, ih, render, List.append_assoc]

theorem render_head (c : Name) (p : Path) : ∃ s, render (c :: p) = '/' :: s := by
  induction p generalizing c with
  | nil => exact ⟨c, rfl⟩
  | cons d p ih =>
    obtain ⟨s, hs⟩ := ih d
    exact ⟨s ++ '/' :: c, by rw [render, hs, List.cons_append]⟩

theorem hasPrefix_iff : hasPrefix s (render q) ↔ s = render q ∨ ∃ rest, s = render q ++ '/' :: rest := by
  rw [hasPrefix, Bool.and_eq_true, List.isPrefixOf_iff_prefix]
  constructor
  · rintro ⟨⟨rest, rfl⟩, hhead⟩
    cases rest with
    | nil => exact .inl (List.append_nil _)
    | cons ch rest =>
      have hch : ch = '/' := by simpa using hhead
      exact .inr ⟨rest, by rw [hch]⟩
  · rintro (rfl | ⟨rest, rfl⟩)
    · simp
    · simp

theorem hasPrefix_render (hp : PlainPath p) (hq : PlainPath q) : hasPrefix (render p) (render q) ↔ q <:+ p := by
  rw [hasPrefix_iff]
  constructor
  · rintro (h | ⟨rest, h⟩)
    · have hnames := congrArg names h
      rw [names_render hp, names_render hq] at hnames
      exact List.reverse_injective hnames ▸ List.suffix_refl _
    · have hnames := congrArg names h
      rw [names_append_slash, names_render hp, names_render hq] at hnames
      exact List.reverse_prefix.mp ⟨_, hnames.symm⟩
  · rintro ⟨r, rfl⟩
    rw [render_append]
    cases r with
    | nil => exact .inl (List.append_nil _)
    | cons c r =>
      obtain ⟨s, hs⟩ := render_head c r
      exact .inr ⟨s, by rw [hs]⟩

theorem plain_of_mem (hp : p ∈ ownedPrefixes ++ noFallthroughPrefixes ++ ownedAncestors) : PlainPath p := by
  have hall : ∀ p ∈ ownedPrefixes ++ noFallthroughPrefixes ++ ownedAncestors, ∀ c ∈ p, c ≠ [] ∧ '/' ∉ c := by decide
  exact hall p hp

theorem isOwned_render (hp : PlainPath p) : isOwned (render p) ↔ Owned p := by
  rw [isOwned, List.any_eq_true]
  refine exists_congr fun q => and_congr_right fun hq => hasPrefix_render hp (plain_of_mem ?_)
  simp [hq]

theorem isNoFallthrough_render (hp : PlainPath p) : isNoFallthrough (render p) ↔ NoFallthrough p := by
  rw [isNoFallthrough, List.any_eq_true]
  refine exists_congr fun q => and_congr_right fun hq => hasPrefix_render hp (plain_of_mem ?_)
  simp [hq]

theorem render_injective (hp : PlainPath p) (hq : PlainPath q) (h : render p = render q) : p = q := by
  have hnames := congrArg names h
  rw [names_render hp, names_render hq] at hnames
  exact List.reverse_injective hnames

theorem isOwnedAncestor_render (hp : PlainPath p) : isOwnedAncestor (render p) ↔ OwnedAncestor p := by
  rw [isOwnedAncestor, List.any_eq_true]
  constructor
  · rintro ⟨q, hq, h⟩
    have hplain : PlainPath q := plain_of_mem (by simp [hq])
    exact render_injective hp hplain (eq_of_beq h) ▸ hq
  · exact fun h => ⟨p, h, beq_self_eq_true _⟩

theorem Owned.cons (h : Owned p) (c : Name) : Owned (c :: p) := by
  obtain ⟨q, hq, hsuffix⟩ := h
  exact ⟨q, hq, hsuffix.trans (List.suffix_cons ..)⟩

theorem Owned.parent (h : Owned (c :: p)) : p = [] ∨ OwnedAncestor p ∨ Owned p := by
  obtain ⟨q, hq, hsuffix⟩ := h
  obtain hsuffix | hsuffix := List.suffix_cons_iff.mp hsuffix
  · have hall : ∀ q ∈ ownedPrefixes, q.tail = [] ∨ OwnedAncestor q.tail := by decide
    have htail := hall q hq
    rw [hsuffix] at htail
    exact htail.imp_right .inl
  · exact .inr (.inr ⟨q, hq, hsuffix⟩)

theorem OwnedAncestor.parent (h : OwnedAncestor (c :: p)) : p = [] ∨ OwnedAncestor p := by
  have hall : ∀ q ∈ ownedAncestors, q.tail = [] ∨ OwnedAncestor q.tail := by decide
  exact hall _ h

theorem OwnedAncestor.not_owned (h : OwnedAncestor p) : ¬ Owned p := by
  have hall : ∀ q ∈ ownedAncestors, ¬ Owned q := by decide
  exact hall p h

/-! ## The merged tree -/

namespace Config
variable (cfg : Config)

def tree (layer : Layer) (p : Path) : Option Obj := cfg.host.obj (p ++ cfg.layerDir layer)

def whitedOut (c : Name) (p : Path) : Bool := (cfg.tree .upper (whiteoutOf c :: p)).isSome

def opaqueDir (p : Path) : Bool := Owned p && (cfg.tree .upper (opaqueMarker :: p)).isSome

def shows : Path → Bool
  | [] => true
  | c :: p => shows p && !cfg.opaqueDir p && !(Owned (c :: p) && cfg.whitedOut c p)

def merged : Path → Option Obj
  | [] => cfg.tree .lower []
  | c :: p =>
    if (merged p).any Obj.isDir then
      if Owned (c :: p) then
        if isReserved c then none
        else (cfg.tree .upper (c :: p)).orElse fun _ => if cfg.shows (c :: p) then cfg.tree .lower (c :: p) else none
      else
        (cfg.tree .lower (c :: p)).orElse fun _ =>
          if OwnedAncestor (c :: p) then (cfg.tree .upper (c :: p)).filter Obj.isDir else none
    else none

end Config

end PowerArm.Overlay
