import PowerArm.Overlay.MergedLaws

/-!
# The names that a walk looks up

A frame of the walk stands for a directory of the merged tree (`FrameOk`). What `probe`
finds below it is the object of the merged tree (`probe_spec`), and a directory found
there is entered with a frame that stands for it (`Probed.frame`).
-/

namespace PowerArm.Overlay

open Lib.PathWalk

variable {cfg : Config}

/-- A missing name below the path is the host's, as far as directories decide it. -/
def Config.fallsThrough (cfg : Config) : Path → Bool
  | [] => true
  | c :: p => fallsThrough cfg p && !cfg.opaqueDir p && !(Owned (c :: p) && (cfg.sealed || NoFallthrough (c :: p)))

def Config.toHost (cfg : Config) : Path → Bool
  | [] => false
  | c :: p => cfg.fallsThrough (c :: p) && !(Owned (c :: p) && (isReserved c || cfg.whitedOut c p))

structure FrameOk (cfg : Config) (f : Frame) : Prop where
  dir : (cfg.merged f.path).any Obj.isDir = true
  layer : f.layer = .upper ∨ f.layer = .lower
  st : f.path ≠ [] → f.st = cfg.merged f.path ∧ f.st = cfg.tree f.layer f.path
  root : f.path = [] → f.st = none
  upper : f.state.upper = true → (cfg.tree .upper f.path).any Obj.isDir = true
  layered : f.path = [] ∨ OwnedAncestor f.path ∨ Owned f.path →
    (cfg.tree .upper f.path).any Obj.isDir = true → f.state.upper = true
  isOpaque : f.state.isOpaque = cfg.opaqueDir f.path
  lower : f.state.lower = cfg.reaches f.path
  fallthrough : f.state.fallthrough = cfg.fallsThrough f.path

theorem rootFrame_ok (cfg : Config) : FrameOk cfg rootFrame where
  dir := layerDir_isDir cfg .lower
  layer := .inr rfl
  st := fun h => absurd rfl h
  root := fun _ => rfl
  upper := fun _ => layerDir_isDir cfg .upper
  layered := fun _ _ => rfl
  isOpaque := (opaqueDir_of_not_owned (by decide)).symm
  lower := rfl
  fallthrough := rfl

theorem opaqueDir_upper (h : cfg.opaqueDir p) : Owned p ∧ (cfg.tree .upper p).any Obj.isDir := by
  rw [Config.opaqueDir, Bool.and_eq_true] at h
  exact ⟨of_decide_eq_true h.1, tree_closed h.2⟩

def upperEntry (cfg : Config) (c : Name) (p : Path) : Option (Layer × Option Obj) :=
  match cfg.tree .upper (c :: p) with
  | some o => some (.upper, some o)
  | none => if cfg.whitedOut c p then some (.hidden, none) else none

theorem whiteoutOf_ne_dot (c : Name) : whiteoutOf c ≠ dot ∧ whiteoutOf c ≠ dotDot := by constructor <;> nofun

section
variable {f : Frame} {c : Name}

theorem render_decide (hp : PlainPath p) :
    isOwned (render p) = decide (Owned p) ∧ isNoFallthrough (render p) = decide (NoFallthrough p) :=
  ⟨Bool.eq_iff_iff.mpr ((isOwned_render hp).trans decide_eq_true_iff.symm),
    Bool.eq_iff_iff.mpr ((isNoFallthrough_render hp).trans decide_eq_true_iff.symm)⟩

theorem probeUpper_owned (h : FrameOk cfg f) (hc : Ordinary c) (howned : Owned (c :: f.path))
    (hrender : isOwned (render (c :: f.path))) (hr : isReserved c = false) :
    probeUpper cfg f.path f.state c = .ok (upperEntry cfg c f.path) := by
  rw [probeUpper]
  simp only [hrender, hr, Bool.and_false, Bool.false_eq_true, if_false]
  split
  next hupper =>
    have hdir := h.upper hupper
    rw [fstatat_child hdir hc.1 hc.2.1, if_neg (Nat.not_lt.mpr hc.2.2), upperEntry]
    cases htree : cfg.tree .upper (c :: f.path) with
    | some o => rfl
    | none =>
      obtain ⟨hdot, hdotDot⟩ := whiteoutOf_ne_dot c
      simp only [Option.elim_none, ne_eq, not_true_eq_false, false_and, if_false, fstatat_toBool hdir hdot hdotDot]
      rw [Config.whitedOut]
      split
      next => rfl
      next => rfl
  next hupper =>
    have hdir : (cfg.tree .upper f.path).any Obj.isDir = false :=
      Bool.eq_false_iff.mpr fun hdir => hupper (h.layered howned.parent hdir)
    rw [upperEntry, tree_none c hdir, Config.whitedOut, tree_none _ hdir]
    rfl

theorem probeLower_spec (hs : Simple cfg) (h : FrameOk cfg f) (hc : Ordinary c) :
    probeLower cfg f.path f.state c =
      .ok (if cfg.reaches f.path && !cfg.opaqueDir f.path then (cfg.tree .lower (c :: f.path)).map fun o => (.lower, some o)
        else none) := by
  rw [probeLower, h.lower, h.isOpaque]
  split
  next hreach =>
    rw [Bool.and_eq_true, Bool.not_eq_true'] at hreach
    obtain ⟨o, htree, hstat⟩ | ⟨htree, hstat | hstat⟩ := fstatat_lower hs hreach.1 hreach.2 h.dir hc
    all_goals
      rw [htree, hstat]
      rfl
  next => rfl

theorem upperAncestor_spec (h : FrameOk cfg f) (hc : Ordinary c) (hplain : PlainPath (c :: f.path)) :
    upperAncestor cfg f.path f.state c =
      if OwnedAncestor (c :: f.path) then (cfg.tree .upper (c :: f.path)).filter Obj.isDir else none := by
  by_cases hanc : OwnedAncestor (c :: f.path)
  · have howned : isOwned (render (c :: f.path)) = false :=
      Bool.eq_false_iff.mpr fun ho => hanc.not_owned ((isOwned_render hplain).mp ho)
    rw [upperAncestor, howned, (isOwnedAncestor_render hplain).mpr hanc]
    split
    next hupper =>
      rw [fstatat_child (h.upper hupper) hc.1 hc.2.1, if_neg (Nat.not_lt.mpr hc.2.2)]
      cases cfg.tree .upper (c :: f.path) with
      | none => rfl
      | some o => rfl
    next hupper =>
      have hdir : (cfg.tree .upper f.path).any Obj.isDir = false :=
        Bool.eq_false_iff.mpr fun hdir => hupper (h.layered (hanc.parent.imp_right .inl) hdir)
      rw [tree_none c hdir]
      rfl
  · rw [if_neg hanc, upperAncestor, if_neg]
    rw [Bool.and_eq_true, Bool.and_eq_true]
    exact fun hand => hanc ((isOwnedAncestor_render hplain).mp hand.1.2)

structure Probed (cfg : Config) (f : Frame) (c : Name) (o : Obj) (p : Probe) : Prop where
  st : p.st = some o
  merged : cfg.merged (c :: f.path) = some o
  tree : cfg.tree p.hit (c :: f.path) = some o
  layer : p.hit = .upper ∨ p.hit = .lower
  upper : p.hit = .upper ∨ p.upperAncestor = true → o.isDir = true → (cfg.tree .upper (c :: f.path)).any Obj.isDir = true
  layered : OwnedAncestor (c :: f.path) ∨ Owned (c :: f.path) → (cfg.tree .upper (c :: f.path)).any Obj.isDir = true →
    p.hit = .upper ∨ p.upperAncestor = true
  lower : p.hit = .lower → f.state.lower = true ∧ f.state.isOpaque = false

structure Missed (cfg : Config) (f : Frame) (c : Name) (p : Probe) : Prop where
  st : p.st = none
  merged : cfg.merged (c :: f.path) = none
  hit : p.hit = if cfg.toHost (c :: f.path) then .host else .hidden

/-- A lookup below the frame is the merged tree's. -/
abbrev Probes (cfg : Config) (f : Frame) (c : Name) : Prop :=
  ∃ p, probe cfg f.path f.state c = .ok p ∧ ((∃ o, Probed cfg f c o p) ∨ Missed cfg f c p)

theorem fallthrough_hit (h : FrameOk cfg f) (hplain : PlainPath (c :: f.path))
    (hhidden : (Owned (c :: f.path) && (isReserved c || cfg.whitedOut c f.path)) = false) :
    (if !f.state.fallthrough || f.state.isOpaque ||
        (isOwned (render (c :: f.path)) && cfg.noFallthrough (render (c :: f.path))) then Layer.hidden else .host) =
      if cfg.toHost (c :: f.path) then .host else .hidden := by
  obtain ⟨howned, hno⟩ := render_decide hplain
  rw [Config.toHost, hhidden, Config.fallsThrough, h.fallthrough, h.isOpaque, howned, Config.noFallthrough, hno]
  cases cfg.fallsThrough f.path with
  | false => rfl
  | true =>
    cases cfg.opaqueDir f.path with
    | true => rfl
    | false =>
      cases decide (Owned (c :: f.path)) && (cfg.sealed || decide (NoFallthrough (c :: f.path))) with
      | true => rfl
      | false => rfl

theorem probe_of_lower (hs : Simple cfg) (h : FrameOk cfg f) (hc : Ordinary c)
    (hupper : probeUpper cfg f.path f.state c = .ok none) (hreach : (cfg.reaches f.path && !cfg.opaqueDir f.path))
    (htree : cfg.tree .lower (c :: f.path) = some o) :
    probe cfg f.path f.state c = .ok ⟨.lower, some o, (upperAncestor cfg f.path f.state c).isSome⟩ := by
  rw [probe, hupper, probeLower_spec hs h hc, hreach, htree]
  rfl

section
variable (hs : Simple cfg) (h : FrameOk cfg f) (hc : Ordinary c) (hplain : PlainPath (c :: f.path))
include hs h hc hplain

theorem probe_of_none (hupper : probeUpper cfg f.path f.state c = .ok none)
    (hhidden : (Owned (c :: f.path) && (isReserved c || cfg.whitedOut c f.path)) = false)
    (hancestor : upperAncestor cfg f.path f.state c = none) (hmerged : cfg.merged (c :: f.path) = none)
    (hnone : (cfg.reaches f.path && !cfg.opaqueDir f.path) = false ∨ cfg.tree .lower (c :: f.path) = none) :
    Probes cfg f c := by
  have hlower : probeLower cfg f.path f.state c = .ok none := by
    rw [probeLower_spec hs h hc]
    obtain hreach | htree := hnone
    · rw [hreach]
      rfl
    · rw [htree, Option.map_none, ite_self]
  refine ⟨⟨if cfg.toHost (c :: f.path) then .host else .hidden, none, false⟩, ?_, .inr ⟨rfl, hmerged, rfl⟩⟩
  rw [probe, hupper, hlower, hancestor, ← fallthrough_hit h hplain hhidden]
  rfl

theorem probe_owned (howned : Owned (c :: f.path)) : Probes cfg f c := by
  have hrender := (isOwned_render hplain).mpr howned
  have hancestor : upperAncestor cfg f.path f.state c = none := by
    rw [upperAncestor_spec h hc hplain, if_neg fun hanc => hanc.not_owned howned]
  cases hr : isReserved c with
  | true =>
    refine ⟨⟨.hidden, none, false⟩, ?_, .inr ⟨rfl, merged_reserved howned hr, ?_⟩⟩
    · rw [probe, hancestor, probeUpper, hrender, hr]
      rfl
    · rw [Config.toHost, hr, decide_eq_true howned]
      simp
  | false =>
    have hupper := probeUpper_owned h hc howned hrender hr
    have hmerged := merged_owned h.dir howned hr
    cases htree : cfg.tree .upper (c :: f.path) with
    | some o =>
      rw [htree] at hmerged
      refine ⟨⟨.upper, some o, false⟩, ?_, .inl ⟨o, rfl, hmerged, htree, .inl rfl, fun _ ho => ?_, fun _ _ => .inl rfl, nofun⟩⟩
      · rw [probe, hancestor, hupper, upperEntry, htree]
        rfl
      · rw [htree]
        exact ho
    | none =>
      rw [htree] at hmerged
      cases hw : cfg.whitedOut c f.path with
      | true =>
        refine ⟨⟨.hidden, none, false⟩, ?_, .inr ⟨rfl, ?_, ?_⟩⟩
        · rw [probe, hancestor, hupper, upperEntry, htree, hw]
          rfl
        · rw [hmerged, Config.shows, hw, decide_eq_true howned]
          simp
        · rw [Config.toHost, hw, decide_eq_true howned]
          simp
      | false =>
        have hnone : probeUpper cfg f.path f.state c = .ok none := by
          rw [hupper, upperEntry, htree, hw]
          rfl
        have hhidden : (decide (Owned (c :: f.path)) && (isReserved c || cfg.whitedOut c f.path)) = false := by
          rw [hr, hw, Bool.or_false, Bool.and_false]
        rw [show cfg.shows (c :: f.path) = (cfg.shows f.path && !cfg.opaqueDir f.path) by
          rw [Config.shows, hw, Bool.and_false, Bool.not_false, Bool.and_true]] at hmerged
        cases hreach : cfg.reaches f.path && !cfg.opaqueDir f.path with
        | false =>
          refine probe_of_none hs h hc hplain hnone hhidden hancestor ?_ (.inl hreach)
          -- the base shows only where it reaches
          cases hshows : cfg.shows f.path with
          | false =>
            rw [hmerged, hshows]
            rfl
          | true =>
            rw [reaches_of_shows hshows, Bool.true_and] at hreach
            rw [hmerged, hreach, Bool.and_false]
            rfl
        | true =>
          cases hlower : cfg.tree .lower (c :: f.path) with
          | none =>
            refine probe_of_none hs h hc hplain hnone hhidden hancestor ?_ (.inr hlower)
            rw [hmerged, hlower]
            exact ite_self _
          | some o =>
            have hprobe := probe_of_lower hs h hc hnone hreach hlower
            rw [Bool.and_eq_true, Bool.not_eq_true'] at hreach
            have hshows : cfg.shows f.path := by
              obtain hshows | hempty := shows_or_none hs hreach.1 hreach.2 h.dir
              · exact hshows
              · rw [hempty c] at hlower
                cases hlower
            rw [hshows, hreach.2, hlower] at hmerged
            rw [hancestor] at hprobe
            refine ⟨_, hprobe, .inl ⟨o, rfl, hmerged, hlower, .inr rfl, ?_, ?_, fun _ => ?_⟩⟩
            · rintro (hhit | hhit)
              · cases hhit
              · cases hhit
            · intro _ hdir
              rw [htree] at hdir
              cases hdir
            · rw [h.lower, h.isOpaque]
              exact hreach

theorem probe_unowned (howned : ¬ Owned (c :: f.path)) : Probes cfg f c := by
  have hrender : isOwned (render (c :: f.path)) = false :=
    Bool.eq_false_iff.mpr fun ho => howned ((isOwned_render hplain).mp ho)
  have hupper : probeUpper cfg f.path f.state c = .ok none := by
    rw [probeUpper, hrender]
    rfl
  have hparent := not_owned_of_cons howned
  have hreach : (cfg.reaches f.path && !cfg.opaqueDir f.path) := by
    rw [reaches_of_not_owned hparent, opaqueDir_of_not_owned hparent]
    rfl
  have hmerged := merged_unowned h.dir howned
  have hancestor := upperAncestor_spec h hc hplain
  rw [← hancestor] at hmerged
  have hsome : (upperAncestor cfg f.path f.state c).isSome =
      (decide (OwnedAncestor (c :: f.path)) && (cfg.tree .upper (c :: f.path)).any Obj.isDir) := by
    rw [hancestor]
    split
    next hanc => rw [Option.isSome_filter, decide_eq_true hanc, Bool.true_and]
    next hanc => rw [decide_eq_false hanc, Bool.false_and, Option.isSome_none]
  have hupperDir (hhit : (upperAncestor cfg f.path f.state c).isSome) :
      (cfg.tree .upper (c :: f.path)).any Obj.isDir := by
    rw [hsome, Bool.and_eq_true] at hhit
    exact hhit.2
  have hlayered (hpath : OwnedAncestor (c :: f.path) ∨ Owned (c :: f.path))
      (hdir : (cfg.tree .upper (c :: f.path)).any Obj.isDir) :
      (upperAncestor cfg f.path f.state c).isSome := by
    rw [hsome, hdir, decide_eq_true (hpath.resolve_right howned)]
    rfl
  cases hlower : cfg.tree .lower (c :: f.path) with
  | some o =>
    rw [hlower] at hmerged
    refine ⟨_, probe_of_lower hs h hc hupper hreach hlower, .inl ⟨o, rfl, hmerged, hlower, .inr rfl, ?_, ?_, fun _ => ?_⟩⟩
    · rintro (hhit | hhit) _
      · cases hhit
      · exact hupperDir hhit
    · exact fun hpath hdir => .inr (hlayered hpath hdir)
    · rw [Bool.and_eq_true, Bool.not_eq_true'] at hreach
      rw [h.lower, h.isOpaque]
      exact hreach
  | none =>
    rw [hlower] at hmerged
    cases hvalue : upperAncestor cfg f.path f.state c with
    | none =>
      have hhidden : (decide (Owned (c :: f.path)) && (isReserved c || cfg.whitedOut c f.path)) = false := by
        rw [decide_eq_false howned, Bool.false_and]
      rw [hvalue] at hmerged
      exact probe_of_none hs h hc hplain hupper hhidden hvalue hmerged (.inr hlower)
    | some o =>
      have hprobe : probe cfg f.path f.state c = .ok ⟨.upper, some o, true⟩ := by
        rw [probe, hupper, probeLower_spec hs h hc, hlower, hvalue, Option.map_none, ite_self]
        rfl
      have htree : cfg.tree .upper (c :: f.path) = some o := by
        rw [hvalue] at hancestor
        exact (Option.filter_eq_some_iff.mp (Option.ite_none_right_eq_some.mp hancestor.symm).2).1
      rw [hvalue] at hmerged
      refine ⟨_, hprobe, .inl ⟨o, rfl, hmerged, htree, .inl rfl, fun _ hdir => ?_, fun _ _ => .inl rfl, nofun⟩⟩
      rw [htree]
      exact hdir

end

theorem probe_spec (hs : Simple cfg) (h : FrameOk cfg f) (hplain : Plain c) (hc : Ordinary c) : Probes cfg f c := by
  have hpath : PlainPath (c :: f.path) :=
    List.forall_mem_cons.mpr ⟨hplain, merged_plain (Option.isSome_of_any h.dir)⟩
  by_cases howned : Owned (c :: f.path)
  · exact probe_owned hs h hc hpath howned
  · exact probe_unowned hs h hc hpath howned

theorem FrameOk.hidesLower (h : FrameOk cfg f) : (f.state.upper && f.state.isOpaque) = cfg.opaqueDir f.path := by
  rw [h.isOpaque]
  cases hop : cfg.opaqueDir f.path with
  | false => exact Bool.and_false _
  | true =>
    obtain ⟨howned, hdir⟩ := opaqueDir_upper hop
    rw [h.layered (.inr (.inr howned)) hdir]
    rfl

theorem Probed.isOpaque (hp : Probed cfg f c o p) (hdir : o.isDir) :
    ((decide (p.hit = .upper) || p.upperAncestor) && decide (Owned (c :: f.path)) && opaqueMarked cfg (c :: f.path)) =
      cfg.opaqueDir (c :: f.path) := by
  cases hupper : decide (p.hit = .upper) || p.upperAncestor with
  | true =>
    have htree := hp.upper (by simpa using hupper) hdir
    have hmarked : opaqueMarked cfg (c :: f.path) = (cfg.tree .upper (opaqueMarker :: c :: f.path)).isSome :=
      fstatat_toBool htree (by decide) (by decide)
    rw [hmarked, Bool.true_and, Config.opaqueDir]
  | false =>
    cases hop : cfg.opaqueDir (c :: f.path) with
    | false => rfl
    | true =>
      obtain ⟨howned, htree⟩ := opaqueDir_upper hop
      have htrue : (decide (p.hit = .upper) || p.upperAncestor) := by simpa using hp.layered (.inr howned) htree
      rw [htrue] at hupper
      cases hupper

theorem Probed.frame (hp : Probed cfg f c o p) (h : FrameOk cfg f) (hdir : o.isDir) :
    FrameOk cfg ⟨c :: f.path, childState cfg f.path f.state c p, p.hit, p.st⟩ := by
  obtain ⟨howned, hno⟩ := render_decide (merged_plain (p := c :: f.path) (by rw [hp.merged]; rfl))
  rw [childState, hp.st, if_pos (show (some o).any Obj.isDir from hdir), howned, h.hidesLower, Config.noFallthrough,
    hno]
  refine ⟨?_, hp.layer, fun _ => ⟨hp.merged.symm, hp.tree.symm⟩, nofun, ?_, ?_, hp.isOpaque hdir, ?_, ?_⟩
  · rw [hp.merged]
    exact hdir
  · intro hupper
    exact hp.upper (by simpa using hupper) hdir
  · rintro (hroot | hpath) htree
    · cases hroot
    · simpa using hp.layered hpath htree
  · rw [Config.reaches, h.lower]
    cases hhit : decide (p.hit = .lower) with
    | false => rfl
    | true =>
      have hlower := hp.lower (of_decide_eq_true hhit)
      rw [h.lower, h.isOpaque] at hlower
      rw [hlower.1, hlower.2]
      rfl
  · rw [Config.fallsThrough, h.fallthrough]

end

end PowerArm.Overlay
