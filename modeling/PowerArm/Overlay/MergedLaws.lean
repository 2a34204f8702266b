import PowerArm.Overlay.Merged

/-!
# What a name is in the merged tree

Where no directory of the overlay stands over a link of the base or beside its own
whiteout (`Simple`), the objects that `probe` finds are those of the merged tree
(`probe_spec`).
-/

namespace PowerArm.Overlay

open Lib.PathWalk

variable {cfg : Config}

/-! ## The layers -/

theorem layerDir_isDir (cfg : Config) (layer : Layer) : (cfg.tree layer []).any Obj.isDir := by
  cases layer with
  | upper => exact cfg.upperDir
  | lower => exact cfg.baseDir
  | host => exact cfg.baseDir
  | hidden => exact cfg.baseDir

theorem tree_closed (h : (cfg.tree layer (c :: p)).isSome) : (cfg.tree layer p).any Obj.isDir :=
  cfg.host.closed c _ h

theorem tree_name (h : (cfg.tree layer (c :: p)).isSome) : Plain c ∧ Ordinary c := cfg.host.name c _ h

theorem tree_none (c : Name) (h : (cfg.tree layer p).any Obj.isDir = false) : cfg.tree layer (c :: p) = none := by
  cases hobj : cfg.tree layer (c :: p) with
  | none => rfl
  | some o =>
    rw [tree_closed (by rw [hobj]; rfl)] at h
    cases h

theorem tree_target (layer : Layer) (p : Path) (s : Nat) : cfg.tree layer p ≠ some ⟨.link [], s⟩ :=
  cfg.host.target _ s

theorem fstatat_child (hp : (cfg.tree layer p).any Obj.isDir) (hdot : c ≠ dot) (hdotDot : c ≠ dotDot) :
    cfg.fstatat layer (c :: p) =
      if nameMax < c.length then .error .enametoolong else (cfg.tree layer (c :: p)).elim (.error .enoent) .ok := by
  have hdir : (cfg.host.obj (p.reverse.reverse ++ cfg.layerDir layer)).any Obj.isDir := by
    rw [List.reverse_reverse]
    exact hp
  have hsegment : Lib.PathWalk.segment cfg.host.obj false (cfg.layerDir layer) (c :: p).reverse =
      Lib.PathWalk.segment cfg.host.obj false (p ++ cfg.layerDir layer) [c] := by
    rw [List.reverse_cons, segment_append hdir, List.reverse_reverse]
  rw [Lib.PathWalk.segment, if_neg hdot, if_neg hdotDot] at hsegment
  split
  next hlong =>
    rw [if_pos hlong] at hsegment
    rw [Config.fstatat, walk_done hsegment]
    rfl
  next hshort =>
    rw [if_neg hshort] at hsegment
    change _ = (cfg.host.obj (c :: (p ++ cfg.layerDir layer))).elim _ _
    cases hobj : cfg.host.obj (c :: (p ++ cfg.layerDir layer)) with
    | none =>
      rw [hobj] at hsegment
      rw [Config.fstatat, walk_done hsegment]
      rfl
    | some o =>
      obtain ⟨kind, s⟩ := o
      have hfound : Lib.PathWalk.segment cfg.host.obj false (cfg.layerDir layer) (c :: p).reverse =
          .done (.found (c :: (p ++ cfg.layerDir layer))) := by
        rw [hsegment, hobj]
        cases kind with
        | dir => rfl
        | file => rfl
        | link target => rfl
      rw [Config.fstatat, walk_done hfound]
      simp [needsDir, hobj]

theorem fstatat_toBool (hp : (cfg.tree layer p).any Obj.isDir) (hdot : c ≠ dot) (hdotDot : c ≠ dotDot) :
    (cfg.fstatat layer (c :: p)).toBool = (cfg.tree layer (c :: p)).isSome := by
  rw [fstatat_child hp hdot hdotDot]
  cases hobj : cfg.tree layer (c :: p) with
  | none => split <;> rfl
  | some o =>
    have hname := tree_name (by rw [hobj]; rfl)
    rw [if_neg (Nat.not_lt.mpr hname.2.2.2)]
    rfl

theorem fstatat_absent (hp : ∀ c ∈ p, Ordinary c) (hnone : cfg.tree layer p = none)
    (hlinks : ∀ q, q ≠ [] → q <:+ p → ∀ target s, cfg.tree layer q ≠ some ⟨.link target, s⟩) :
    cfg.fstatat layer p = .error .enoent ∨ cfg.fstatat layer p = .error .enotdir := by
  have hdir : (cfg.host.obj (cfg.layerDir layer)).isSome := Option.isSome_of_any (layerDir_isDir cfg layer)
  have hnames : ∀ c ∈ p.reverse, Ordinary c := fun c hc => hp c (List.mem_reverse.mp hc)
  obtain ⟨outcome, hsegment, habsent⟩ :=
    segment_of_none hnames hdir (by rw [List.reverse_reverse]; exact hnone) (by rw [List.reverse_reverse]; exact hlinks)
  rw [Config.fstatat, walk_done hsegment]
  obtain ⟨q, rfl⟩ | rfl := habsent
  · exact .inl rfl
  · exact .inr rfl

/-! ## The merged tree -/

section
variable {c : Name} {p : Path}

theorem merged_parent (h : (cfg.merged (c :: p)).isSome) : (cfg.merged p).any Obj.isDir := by
  rw [Config.merged] at h
  split at h
  next hp => exact hp
  next => cases h

theorem merged_owned (hp : (cfg.merged p).any Obj.isDir) (ho : Owned (c :: p)) (hr : isReserved c = false) :
    cfg.merged (c :: p) =
      (cfg.tree .upper (c :: p)).orElse fun _ => if cfg.shows (c :: p) then cfg.tree .lower (c :: p) else none := by
  rw [Config.merged, if_pos hp, if_pos ho, if_neg (by simp [hr])]

theorem merged_reserved (ho : Owned (c :: p)) (hr : isReserved c) : cfg.merged (c :: p) = none := by
  rw [Config.merged, if_pos ho, if_pos hr, ite_self]

theorem merged_unowned (hp : (cfg.merged p).any Obj.isDir) (ho : ¬ Owned (c :: p)) : cfg.merged (c :: p) =
      (cfg.tree .lower (c :: p)).orElse fun _ =>
        if OwnedAncestor (c :: p) then (cfg.tree .upper (c :: p)).filter Obj.isDir else none := by
  rw [Config.merged, if_pos hp, if_neg ho]

theorem merged_tree (h : cfg.merged p = some o) : cfg.tree .upper p = some o ∨ cfg.tree .lower p = some o := by
  cases p with
  | nil => exact .inr h
  | cons c p =>
    have hp := merged_parent (by rw [h]; rfl)
    by_cases ho : Owned (c :: p)
    · cases hr : isReserved c with
      | true =>
        rw [merged_reserved ho hr] at h
        cases h
      | false =>
        rw [merged_owned hp ho hr] at h
        cases hu : cfg.tree .upper (c :: p) with
        | some o' =>
          rw [hu] at h
          exact .inl h
        | none =>
          rw [hu] at h
          exact .inr (Option.ite_none_right_eq_some.mp h).2
    · rw [merged_unowned hp ho] at h
      cases hl : cfg.tree .lower (c :: p) with
      | some o' =>
        rw [hl] at h
        exact .inr h
      | none =>
        rw [hl] at h
        exact .inl (Option.filter_eq_some_iff.mp (Option.ite_none_right_eq_some.mp h).2).1

theorem merged_name (h : (cfg.merged (c :: p)).isSome) : Plain c ∧ Ordinary c := by
  obtain ⟨o, ho⟩ := Option.isSome_iff_exists.mp h
  obtain htree | htree := merged_tree ho
  · exact tree_name (by rw [htree]; rfl)
  · exact tree_name (by rw [htree]; rfl)

theorem merged_names (h : (cfg.merged p).isSome) : ∀ c ∈ p, Plain c ∧ Ordinary c := by
  induction p with
  | nil => exact nofun
  | cons c p ih =>
    rintro d (_ | ⟨_, hd⟩)
    · exact merged_name h
    · exact ih (Option.isSome_of_any (merged_parent h)) d hd

theorem merged_plain (h : (cfg.merged p).isSome) : PlainPath p := fun c hc => (merged_names h c hc).1

theorem merged_target (p : Path) (s : Nat) : cfg.merged p ≠ some ⟨.link [], s⟩ := by
  intro h
  obtain htree | htree := merged_tree h
  · exact tree_target _ _ _ htree
  · exact tree_target _ _ _ htree

end

/-! ## The base's part -/

def Config.reaches (cfg : Config) : Path → Bool
  | [] => true
  | _ :: p => reaches cfg p && !cfg.opaqueDir p

/-- No directory of the overlay that lets the base through stands over a link of the
base, or beside its own whiteout over a directory of the base. -/
def Simple (cfg : Config) : Prop :=
  ∀ c p, Owned (c :: p) → (cfg.tree .upper (c :: p)).any Obj.isDir = true → cfg.reaches (c :: p) = true →
    cfg.opaqueDir (c :: p) = false → (∀ target s, cfg.tree .lower (c :: p) ≠ some ⟨.link target, s⟩) ∧
        (cfg.whitedOut c p = true → (cfg.tree .lower (c :: p)).any Obj.isDir = false)

section
variable {c : Name} {p : Path}

theorem reaches_of_shows (h : cfg.shows p) : cfg.reaches p := by
  induction p with
  | nil => rfl
  | cons c p ih =>
    rw [Config.shows, Bool.and_eq_true, Bool.and_eq_true] at h
    rw [Config.reaches, Bool.and_eq_true]
    exact ⟨ih h.1.1, h.1.2⟩

theorem not_owned_of_cons (h : ¬ Owned (c :: p)) : ¬ Owned p := fun hp => h (hp.cons c)

theorem opaqueDir_of_not_owned (h : ¬ Owned p) : cfg.opaqueDir p = false := by
  rw [Config.opaqueDir, decide_eq_false h, Bool.false_and]

theorem reaches_of_not_owned (h : ¬ Owned p) : cfg.reaches p := by
  induction p with
  | nil => rfl
  | cons c p ih =>
    have hp := not_owned_of_cons h
    rw [Config.reaches, ih hp, opaqueDir_of_not_owned hp]
    rfl

theorem lower_of_merged (h : (cfg.merged (c :: p)).any Obj.isDir)
    (hu : (cfg.tree .upper (c :: p)).any Obj.isDir = false) :
    cfg.merged (c :: p) = cfg.tree .lower (c :: p) ∧ (Owned (c :: p) → cfg.whitedOut c p = false) := by
  have hp := merged_parent (Option.isSome_of_any h)
  by_cases ho : Owned (c :: p)
  · cases hr : isReserved c with
    | true =>
      rw [merged_reserved ho hr] at h
      cases h
    | false =>
      rw [merged_owned hp ho hr] at h ⊢
      cases htree : cfg.tree .upper (c :: p) with
      | some o =>
        rw [htree] at h hu
        rw [show (some o).any Obj.isDir from h] at hu
        cases hu
      | none =>
        rw [htree] at h
        cases hshows : cfg.shows (c :: p) with
        | false =>
          rw [hshows] at h
          cases h
        | true =>
          rw [Config.shows, decide_eq_true ho] at hshows
          simp only [Bool.and_eq_true, Bool.not_eq_true'] at hshows
          exact ⟨rfl, fun _ => hshows.2⟩
  · rw [merged_unowned hp ho] at h ⊢
    refine ⟨?_, fun h => absurd h ho⟩
    cases hl : cfg.tree .lower (c :: p) with
    | some o => rfl
    | none =>
      rw [hl] at h
      split at h
      next =>
        obtain ⟨o, hfilter, hdir⟩ := (Option.any_eq_true ..).mp h
        rw [(Option.filter_eq_some_iff.mp hfilter).1] at hu
        rw [show (some o).any Obj.isDir from hdir] at hu
        cases hu
      next => cases h

end

section
variable (hs : Simple cfg) {c : Name} {p : Path}
include hs

section
variable (hreach : cfg.reaches p) (hop : cfg.opaqueDir p = false) (hdir : (cfg.merged p).any Obj.isDir)
include hreach hop hdir

theorem no_link :
    ∀ q, q ≠ [] → q <:+ p → ∀ target s, cfg.tree .lower q ≠ some ⟨.link target, s⟩ := by
  induction p with
  | nil => exact fun q hne hq => absurd (List.suffix_nil.mp hq) hne
  | cons d p ih =>
    intro q hne hq target s hlink
    obtain rfl | hq := List.suffix_cons_iff.mp hq
    · cases hu : (cfg.tree .upper (d :: p)).any Obj.isDir with
      | false =>
        rw [(lower_of_merged hdir hu).1, hlink] at hdir
        cases hdir
      | true =>
        have howned : Owned (d :: p) := by
          by_contra ho
          rw [merged_unowned (merged_parent (Option.isSome_of_any hdir)) ho, hlink] at hdir
          cases hdir
        exact (hs d p howned hu hreach hop).1 target s hlink
    · rw [Config.reaches, Bool.and_eq_true, Bool.not_eq_true'] at hreach
      exact ih hreach.1 hreach.2 (merged_parent (Option.isSome_of_any hdir)) q hne hq target s hlink

theorem shows_or_none : cfg.shows p ∨ ∀ c, cfg.tree .lower (c :: p) = none := by
  induction p with
  | nil => exact .inl rfl
  | cons d p ih =>
    have hsplit := hreach
    rw [Config.reaches, Bool.and_eq_true, Bool.not_eq_true'] at hsplit
    obtain hshows | hnone := ih hsplit.1 hsplit.2 (merged_parent (Option.isSome_of_any hdir))
    · cases hw : decide (Owned (d :: p)) && cfg.whitedOut d p with
      | false =>
        rw [Config.shows, hshows, hsplit.2, hw]
        exact .inl rfl
      | true =>
        rw [Bool.and_eq_true] at hw
        have howned : Owned (d :: p) := of_decide_eq_true hw.1
        cases hu : (cfg.tree .upper (d :: p)).any Obj.isDir with
        | false =>
          rw [(lower_of_merged hdir hu).2 howned] at hw
          cases hw.2
        | true => exact .inr fun c => tree_none c ((hs d p howned hu hreach hop).2 hw.2)
    · exact .inr fun c => tree_none c (by rw [hnone d]; rfl)

theorem fstatat_lower (hc : Ordinary c) :
    (∃ o, cfg.tree .lower (c :: p) = some o ∧ cfg.fstatat .lower (c :: p) = .ok o) ∨
      cfg.tree .lower (c :: p) = none ∧
        (cfg.fstatat .lower (c :: p) = .error .enoent ∨ cfg.fstatat .lower (c :: p) = .error .enotdir) := by
  cases htree : cfg.tree .lower (c :: p) with
  | some o =>
    have hp := tree_closed (by rw [htree]; rfl)
    rw [fstatat_child hp hc.1 hc.2.1, if_neg (Nat.not_lt.mpr hc.2.2), htree]
    exact .inl ⟨o, rfl, rfl⟩
  | none =>
    refine .inr ⟨rfl, fstatat_absent ?_ htree ?_⟩
    · rintro d (_ | ⟨_, hd⟩)
      · exact hc
      · exact (merged_names (Option.isSome_of_any hdir) d hd).2
    · intro q hne hq target s hlink
      obtain rfl | hq := List.suffix_cons_iff.mp hq
      · rw [htree] at hlink
        cases hlink
      · exact no_link hs hreach hop hdir q hne hq target s hlink

end

end

end PowerArm.Overlay
