import PowerArm.Overlay.ProbeLaws

/-!
# The walk over the layers is the walk over the merged tree

`resolve_merged`: where no directory of the overlay stands over a link of the base or
beside its own whiteout, `resolve` gives the object or the error that the resolution of
the path in the merged tree gives. A name that is not owned and that neither layer has
is left to the host. Up to the next link the two walks go together (`segment_sim`), and
so they do from link to link (`follow_sim`).
-/

namespace PowerArm.Overlay

open Lib.PathWalk

variable {cfg : Config}

/-! ## Up to the next link -/

def StackOk (cfg : Config) : Frame → List Frame → Prop
  | f, [] => FrameOk cfg f ∧ f.path = []
  | f, g :: gs => FrameOk cfg f ∧ f.path.tail = g.path ∧ StackOk cfg g gs

theorem StackOk.frame (h : StackOk cfg f fs) : FrameOk cfg f := by
  cases fs with
  | nil => exact h.1
  | cons g gs => exact h.1

def renderRoot (p : Path) : List Char := if p = [] then ['/'] else render p

/-- A node for an object of the merged tree; the root's has no `stat`. -/
structure NodeFound (cfg : Config) (p : Path) (n : Node) : Prop where
  error : n.error = none
  path : n.path = renderRoot p
  layer : n.layer = .upper ∨ n.layer = .lower
  st : p ≠ [] → n.st = cfg.merged p ∧ n.st = cfg.tree n.layer p
  root : p = [] → n.st = none

structure NodeMissing (cfg : Config) (p : Path) (n : Node) : Prop where
  error : n.error = none
  path : n.path = render p ∨ ∃ rest, n.path = render p ++ '/' :: rest
  layer : n.layer = if cfg.toHost p then .host else .hidden

inductive Matches (cfg : Config) : Lib.PathWalk.Stop → Stop → Prop where
  | found {p n} (h : NodeFound cfg p n) : Matches cfg (.done (.found p)) (.node n)
  | missing {p n} (h : NodeMissing cfg p n) : Matches cfg (.done (.missing p)) (.node n)
  | failed {e n} (h : n.error = some (toErrno e)) : Matches cfg (.done (.failed e)) (.node n)
  | link {f fs cand hit target after s} (hstack : StackOk cfg f fs) (hlink : cfg.merged cand = some ⟨.link target, s⟩)
      (hlast : after = [] ↔ names after = []) :
      Matches cfg (.link f.path target (names after)) (.link f fs cand hit target after)

theorem ended_found (h : FrameOk cfg f) : NodeFound cfg f.path (ended f fs) := ⟨rfl, rfl, h.layer, h.st, h.root⟩

section
variable {f : Frame} {fs : List Frame} {c : Name} {o : Obj} {p : Probe}

theorem Probed.last_found (hp : Probed cfg f c o p) : NodeFound cfg (c :: f.path) (last cfg f c p) :=
  ⟨rfl, rfl, hp.layer, fun _ => ⟨hp.st.trans hp.merged.symm, hp.st.trans hp.tree.symm⟩, nofun⟩

theorem Missed.stopped_missing (hp : Missed cfg f c p) (after : List Char) :
    NodeMissing cfg (c :: f.path) (stopped f c after p.hit) := by
  refine ⟨rfl, ?_, hp.hit⟩
  by_cases hafter : after = []
  · exact .inl (by simp [stopped, hafter])
  · exact .inr ⟨after, by simp [stopped, hafter]⟩

end

theorem segment_sim (hs : Simple cfg) (followLast : Bool) (hstack : StackOk cfg f fs) (hl : splits work = l) :
    Matches cfg (Lib.PathWalk.segment cfg.merged followLast f.path (l.map Prod.fst)) (segment cfg followLast f fs l) := by
  induction l generalizing f fs work with
  | nil => exact .found (ended_found hstack.frame)
  | cons x rest ih =>
    obtain ⟨c, after⟩ := x
    have hrest := splits_cons hl
    have hlast : after = [] ↔ rest.map Prod.fst = [] := (splits_last hl).trans List.map_eq_nil_iff.symm
    have hplain : Plain c := names_plain c (List.mem_map.mpr ⟨(c, after), by rw [hl]; exact .head _, rfl⟩)
    rw [List.map_cons, Lib.PathWalk.segment]
    unfold segment
    by_cases hdot : c = dot
    · rw [if_pos hdot, if_pos hdot]
      exact ih hstack hrest
    rw [if_neg hdot, if_neg hdot]
    by_cases hdotDot : c = dotDot
    · rw [if_pos hdotDot, if_pos hdotDot]
      cases fs with
      | nil =>
        rw [show f.path.tail = f.path by rw [hstack.2, List.tail_nil]]
        exact ih hstack hrest
      | cons g gs =>
        rw [hstack.2.1]
        exact ih hstack.2.2 hrest
    rw [if_neg hdotDot, if_neg hdotDot]
    by_cases hlong : nameMax < c.length
    · rw [if_pos hlong, if_pos hlong]
      exact .failed rfl
    rw [if_neg hlong, if_neg hlong]
    obtain ⟨p, hprobe, ⟨o, hp⟩ | hp⟩ := probe_spec hs hstack.frame hplain ⟨hdot, hdotDot, Nat.not_lt.mp hlong⟩
    · rw [hprobe, hp.merged]
      dsimp only
      rw [hp.st]
      obtain ⟨kind, s⟩ := o
      cases kind with
      | dir =>
        dsimp only
        split
        next hafter =>
          rw [hlast.mp hafter]
          exact .found hp.last_found
        next hafter =>
          have hframe := hp.frame hstack.frame rfl
          rw [hp.st] at hframe
          have hstack' : StackOk cfg ⟨c :: f.path, childState cfg f.path f.state c p, p.hit, some ⟨.dir, s⟩⟩ (f :: fs) :=
            ⟨hframe, rfl, hstack⟩
          exact ih hstack' hrest
      | file =>
        by_cases hafter : after = []
        · rw [if_pos hafter, if_pos (hlast.mp hafter)]
          exact .found hp.last_found
        · rw [if_neg hafter, if_neg fun h => hafter (hlast.mpr h)]
          exact .failed rfl
      | link target =>
        dsimp only
        have hnames : rest.map Prod.fst = names after := by rw [names, hrest]
        rw [hnames] at hlast ⊢
        by_cases hfollow : after ≠ [] ∨ followLast
        · rw [if_pos hfollow, if_pos (hfollow.imp_left fun h hn => h (hlast.mpr hn))]
          exact .link hstack hp.merged hlast
        · rw [if_neg hfollow, if_neg fun h => hfollow (h.imp_left fun hn ha => hn (hlast.mp ha))]
          exact .found hp.last_found
    · rw [hprobe, hp.merged]
      dsimp only
      rw [hp.st]
      exact .missing (hp.stopped_missing after)

/-! ## From link to link -/

def Answers (cfg : Config) (n : Node) : Outcome → Prop
  | .found p => n.error = none ∧ n.path = renderRoot p ∧
      (p ≠ [] → (n.layer = .upper ∨ n.layer = .lower) ∧ n.st = cfg.merged p ∧ n.st = cfg.tree n.layer p)
  | .missing p => NodeMissing cfg p n
  | .failed e => n.error = some (toErrno e)

theorem finish_failed (trailing : Bool) (h : n.error = some e) : (finish trailing n).error = some e := by
  simp [finish, h]

theorem finish_missing (trailing : Bool) (h : NodeMissing cfg p n) : NodeMissing cfg p (finish trailing n) := by
  refine ⟨?_, h.path, h.layer⟩
  have hlayer := h.layer
  split at hlayer
  next => simp [finish, h.error, hlayer]
  next => simp [finish, h.error, hlayer]

/-- The slash that `trailing` stands for is the path's own. Where the other one, at the end
of a link's target, asks for a directory, there has to be one. -/
theorem finish_found {trailing mustDir : Bool} (h : NodeFound cfg p n) (hslash : trailing → mustDir)
    (hlinks : mustDir → trailing ∨ (cfg.merged p).any Obj.isDir)
    (hroot : needsDir cfg.merged (mustDir, .found p) = .found [] → trailing = false) :
    Answers cfg (finish trailing n) (needsDir cfg.merged (mustDir, .found p)) := by
  have hlayer : (decide (n.layer = .upper) || decide (n.layer = .lower)) := by simpa using h.layer
  have hanswer (herror : (finish trailing n).error = none) : Answers cfg (finish trailing n) (.found p) :=
    ⟨herror, h.path, fun hne => ⟨h.layer, h.st hne⟩⟩
  rw [needsDir] at hroot ⊢
  cases trailing with
  | false =>
    rw [if_neg]
    · exact hanswer (by simp [finish, h.error])
    · intro hboth
      obtain ⟨hmust, hdir⟩ := (Bool.and_eq_true ..).mp hboth
      rw [(hlinks hmust).resolve_left Bool.false_ne_true] at hdir
      cases hdir
  | true =>
    rw [hslash rfl] at hroot ⊢
    by_cases hp : p = []
    · have hdir : (cfg.merged p).any Obj.isDir := by
        rw [hp]
        exact layerDir_isDir cfg .lower
      rw [hdir, hp] at hroot
      cases hroot rfl
    · have hst := (h.st hp).1
      cases hdir : (cfg.merged p).any Obj.isDir with
      | true => exact hanswer (by simp [finish, h.error, hst, hdir])
      | false =>
        simp only [finish, h.error, hst, hdir, hlayer]
        rfl

theorem follow_node (h : segment cfg followLast f fs (splits work) = .node n) :
    follow cfg trailing followLast links touched f fs work = { n with touchedUpper := touched } := by
  unfold follow
  rw [h]

theorem follow_loop (h : segment cfg followLast f fs (splits work) = .link f' fs' cand hit target after) :
    (follow cfg trailing followLast 0 touched f fs work).error = some .eloop := by
  unfold follow
  rw [h]

theorem follow_link (trailing touched : Bool) (links : Nat)
    (h : segment cfg followLast f fs (splits work) = .link f' fs' cand hit target after) (htarget : target ≠ []) :
    ∃ touched' work', names work' = names target ++ names after ∧
      follow cfg trailing followLast (links + 1) touched f fs work =
        if absolute target then follow cfg trailing followLast links touched' rootFrame [] work'
        else follow cfg trailing followLast links touched' f' fs' work' := by
  refine ⟨touched || hit = .upper, target ++ if after ≠ [] then '/' :: after else if trailing then ['/'] else [], ?_, ?_⟩
  · by_cases hafter : after = []
    · rw [hafter]
      cases trailing with
      | true => exact names_append_slash target []
      | false => exact (congrArg names (List.append_nil target)).trans (List.append_nil _).symm
    · rw [if_pos hafter, names_append_slash]
  · conv_lhs => unfold follow
    rw [h]
    dsimp only
    rw [if_neg htarget]

section
variable {trailing mustDir followLast touched : Bool} {links : Nat} {f : Frame} {fs : List Frame} {work : List Char}
  (hslash : trailing → mustDir)
  (hlinks : ∀ p, arrive cfg.merged followLast links mustDir f.path (names work) = (true, .found p) →
    trailing ∨ (cfg.merged p).any Obj.isDir)
  (hroot : walk cfg.merged followLast links mustDir f.path (names work) = .found [] → trailing = false)
include hslash hlinks hroot

theorem done_sim
    (hlib : Lib.PathWalk.segment cfg.merged (followLast || mustDir) f.path (names work) = .done outcome)
    (hseg : segment cfg (followLast || trailing) f fs (splits work) = .node n)
    (hmatch : Matches cfg (.done outcome) (.node n)) :
    Answers cfg (finish trailing (follow cfg trailing (followLast || trailing) links touched f fs work))
      (walk cfg.merged followLast links mustDir f.path (names work)) := by
  rw [arrive_done hlib] at hlinks
  rw [walk_done hlib] at hroot ⊢
  rw [follow_node hseg]
  cases hmatch with
  | @found p n h =>
    have hfound : NodeFound cfg p { n with touchedUpper := touched } := ⟨h.error, h.path, h.layer, h.st, h.root⟩
    exact finish_found hfound hslash (fun hmust => hlinks p (by rw [hmust])) hroot
  | missing h => exact finish_missing trailing ⟨h.error, h.path, h.layer⟩
  | failed h => exact finish_failed trailing h

/-- `trailing` is the slash the overlay knows of, `mustDir` the one the kernel does. The
kernel's may come later, from a link in the last place; such a link is followed either way. -/
theorem follow_sim (hs : Simple cfg) (hstack : StackOk cfg f fs) (hfollow : mustDir → (followLast || trailing)) :
    Answers cfg (finish trailing (follow cfg trailing (followLast || trailing) links touched f fs work))
      (walk cfg.merged followLast links mustDir f.path (names work)) := by
  induction links generalizing touched mustDir f fs work
  all_goals
    have hsame : (followLast || mustDir) = (followLast || trailing) := by grind
    have hsim : Matches cfg (Lib.PathWalk.segment cfg.merged (followLast || mustDir) f.path (names work))
      (segment cfg (followLast || trailing) f fs (splits work)) := hsame ▸ segment_sim hs _ hstack rfl
    generalize hlib : Lib.PathWalk.segment _ _ _ _ = stop at hsim
    generalize hseg : segment cfg _ _ _ _ = stop' at hsim
    cases hsim
    case found h => exact done_sim hslash hlinks hroot hlib hseg (.found h)
    case missing h => exact done_sim hslash hlinks hroot hlib hseg (.missing h)
    case failed h => exact done_sim hslash hlinks hroot hlib hseg (.failed h)
  case zero.link =>
    rw [walk, arrive_loop hlib]
    exact finish_failed trailing (follow_loop hseg)
  case succ.link links ih f' fs' cand hit target after s hstack' hlink hlast =>
    have htarget : target ≠ [] := fun h => merged_target cand s (by rw [hlink, h])
    obtain ⟨touched', work', hnames, hnext⟩ := follow_link trailing touched links hseg htarget
    rw [walk] at hroot ⊢
    rw [arrive_link hlib, ← hnames] at hlinks hroot ⊢
    rw [hnext]
    have hslash' : trailing → (mustDir || ((names after).isEmpty && endsInSlash target)) := fun h => by
      rw [hslash h, Bool.true_or]
    have hfollow' : (mustDir || ((names after).isEmpty && endsInSlash target)) → (followLast || trailing) := by
      intro hmust
      obtain hmust | hlastLink := (Bool.or_eq_true ..).mp hmust
      · exact hfollow hmust
      · rw [List.isEmpty_iff.mp ((Bool.and_eq_true ..).mp hlastLink).1] at hlib
        exact hsame ▸ follow_of_segment_link hlib
    cases habsolute : absolute target with
    | true =>
      rw [habsolute] at hlinks hroot
      exact ih hslash' hlinks hroot ⟨rootFrame_ok cfg, rfl⟩ hfollow'
    | false =>
      rw [habsolute] at hlinks hroot
      exact ih hslash' hlinks hroot hstack' hfollow'

end

/-- A slash at the end of a link's target asks for a directory only where the path asks for
one too, or where there is one. -/
def SlashedLinks (cfg : Config) (path : List Char) (followLast : Bool) : Prop :=
  ∀ p, arrive cfg.merged followLast maxSymlinks (endsInSlash path) [] (names path) = (true, .found p) →
    endsInSlash path = true ∨ (cfg.merged p).any Obj.isDir = true

theorem resolve_answers (hs : Simple cfg) (hlinks : SlashedLinks cfg path followLast) (hpath : path ≠ [])
    (hroot : Lib.PathWalk.resolve cfg.merged followLast [] path = .found [] → path = ['/'] ∨ endsInSlash path = false) :
    Answers cfg (resolve cfg path followLast) (Lib.PathWalk.resolve cfg.merged followLast [] path) := by
  rw [Lib.PathWalk.resolve, if_neg hpath, ite_self] at hroot ⊢
  by_cases hslash : path = ['/']
  · rw [hslash]
    have hdir : (cfg.merged []).any Obj.isDir := layerDir_isDir cfg .lower
    have hdone : Lib.PathWalk.segment cfg.merged (followLast || true) [] [] = .done (.found []) := rfl
    have hfound : walk cfg.merged followLast maxSymlinks true [] [] = .found [] := by
      rw [walk_done hdone, needsDir, hdir]
      rfl
    rw [show names ['/'] = [] from rfl, show endsInSlash ['/'] from rfl, hfound]
    exact ⟨rfl, rfl, fun h => absurd rfl h⟩
  · have htrailing : (decide (1 < path.length) && endsInSlash path) = endsInSlash path := by
      cases path with
      | nil => exact absurd rfl hpath
      | cons ch rest =>
        cases rest with
        | nil =>
          have hch : ch ≠ '/' := fun h => hslash (by rw [h])
          simp [endsInSlash, hch]
        | cons d rest => simp
    rw [resolve, htrailing]
    exact follow_sim id hlinks (fun h => (hroot h).resolve_left hslash) hs ⟨rootFrame_ok cfg, rfl⟩
      fun h => by rw [h, Bool.or_true]

/-! ## Sealed -/

theorem fallsThrough_sealed (hsealed : cfg.sealed) (p : Path) : cfg.fallsThrough p = !decide (Owned p) := by
  induction p with
  | nil => rfl
  | cons c p ih =>
    rw [Config.fallsThrough, ih, hsealed, Bool.true_or, Bool.and_true]
    by_cases howned : Owned (c :: p)
    · rw [decide_eq_true howned, Bool.not_true, Bool.and_false]
    · have hp := not_owned_of_cons howned
      rw [decide_eq_false hp, opaqueDir_of_not_owned hp]
      rfl

theorem toHost_sealed (hsealed : cfg.sealed) : cfg.toHost (c :: p) = !decide (Owned (c :: p)) := by
  rw [Config.toHost, fallsThrough_sealed hsealed]
  by_cases howned : Owned (c :: p)
  · rw [decide_eq_true howned]
    rfl
  · rw [decide_eq_false howned]
    rfl

/-- In a sealed process: the object or the error of the merged tree, and a missing name
is hidden where it is owned. -/
theorem resolve_merged (cfg : Config) (path : List Char) (followLast : Bool) (hsealed : cfg.sealed = true)
    (hs : Simple cfg) (hlinks : SlashedLinks cfg path followLast) (hpath : path ≠ [])
    (hroot : Lib.PathWalk.resolve cfg.merged followLast [] path = .found [] → path = ['/'] ∨ endsInSlash path = false) :
    Answers cfg (resolve cfg path followLast) (Lib.PathWalk.resolve cfg.merged followLast [] path) ∧
      ∀ c p, Lib.PathWalk.resolve cfg.merged followLast [] path = .missing (c :: p) →
        (resolve cfg path followLast).layer = if Owned (c :: p) then .hidden else .host := by
  have hanswers := resolve_answers hs hlinks hpath hroot
  refine ⟨hanswers, fun c p hmissing => ?_⟩
  rw [hmissing] at hanswers
  have hlayer := hanswers.layer
  rw [toHost_sealed hsealed] at hlayer
  by_cases howned : Owned (c :: p)
  · rw [hlayer, if_pos howned, decide_eq_true howned]
    rfl
  · rw [hlayer, if_neg howned, decide_eq_false howned]
    rfl

/-- A base with `/bin -> usr/bin/`, and an overlay with a new program and `/usr/lib` gone. -/
def installedEntries : List (Path × Obj) :=
  let b : Name := ['b']
  let u : Name := ['u']
  let bin : Name := ['b', 'i', 'n']
  [([], ⟨.dir, 0⟩), ([b], ⟨.dir, 1⟩), ([u], ⟨.dir, 2⟩),
    ([usr, b], ⟨.dir, 3⟩), ([bin, usr, b], ⟨.dir, 4⟩), ([lib, usr, b], ⟨.dir, 5⟩),
    ([bin, b], ⟨.link ['u', 's', 'r', '/', 'b', 'i', 'n', '/'], 6⟩), ([pacman, bin, usr, b], ⟨.file, 7⟩),
    ([usr, u], ⟨.dir, 8⟩), ([bin, usr, u], ⟨.dir, 9⟩), ([opt, bin, usr, u], ⟨.file, 10⟩),
    ([whiteoutOf lib, usr, u], ⟨.file, 11⟩)]

def installed : Config where
  host := .ofEntries installedEntries (by decide) (by decide +kernel)
  upper := [['u']]
  base := [['b']]
  sealed := true
  candidates := ownedRoots
  upperDir := by decide
  baseDir := by decide

theorem installed_mem (h : installed.tree layer p = some o) : (p ++ installed.layerDir layer, o) ∈ installedEntries :=
  mem_of_lookup h

theorem installed_simple : Simple installed := by
  have hall : ∀ e ∈ installedEntries, e.2.isDir → e.1.getLast? = some ['u'] → e.1.dropLast ≠ [] →
      (installed.tree .lower e.1.dropLast).any Obj.isDir ∧
        installed.whitedOut (e.1.dropLast.headD []) e.1.dropLast.tail = false := by decide +kernel
  intro c p _ hdir _ _
  obtain ⟨s, hs⟩ := kind_of_any hdir
  have hmem : ((c :: p) ++ [['u']], ⟨.dir, s⟩) ∈ installedEntries := installed_mem hs
  have hpath : ((c :: p) ++ [['u']]).dropLast = c :: p := List.dropLast_concat
  have hchecked := hall _ hmem rfl List.getLast?_concat
  rw [hpath] at hchecked
  obtain ⟨hlower, hwhite⟩ := hchecked (List.cons_ne_nil c p)
  refine ⟨fun target s hlink => ?_, fun hwhiteout => ?_⟩
  · rw [hlink] at hlower
    cases hlower
  · rw [show installed.whitedOut c p = false from hwhite] at hwhiteout
    cases hwhiteout

/-- `/bin/opt` and `/bin`: the base's link leads to the overlay's program, and its target
ends in a slash after a directory. -/
theorem resolve_merged_installed :
    Answers installed (resolve installed (render [opt, ['b', 'i', 'n']]) true) (.found [opt, ['b', 'i', 'n'], usr]) ∧
    Answers installed (resolve installed (render [['b', 'i', 'n']]) true) (.found [['b', 'i', 'n'], usr]) := by
  have hopt : arrive installed.merged true maxSymlinks (endsInSlash (render [opt, ['b', 'i', 'n']])) []
      (names (render [opt, ['b', 'i', 'n']])) = (false, .found [opt, ['b', 'i', 'n'], usr]) := by decide +kernel
  have hbin : arrive installed.merged true maxSymlinks (endsInSlash (render [['b', 'i', 'n']])) []
      (names (render [['b', 'i', 'n']])) = (true, .found [['b', 'i', 'n'], usr]) := by decide +kernel
  have hprogram := resolve_merged installed (render [opt, ['b', 'i', 'n']]) true rfl installed_simple
    (by rw [SlashedLinks, hopt]; nofun) (by decide) (by decide +kernel)
  have hdir := resolve_merged installed (render [['b', 'i', 'n']]) true rfl installed_simple
    (by rw [SlashedLinks, hbin]; rintro _ ⟨⟩; exact .inr (by decide +kernel)) (by decide) (by decide +kernel)
  exact ⟨hprogram.1, hdir.1⟩

/-- An overlay whose `/usr/x` stands over a link of the base and whose `/usr/y` stands
beside its own whiteout. -/
def shadowedEntries : List (Path × Obj) :=
  let b : Name := ['b']
  let u : Name := ['u']
  let x : Name := ['x']
  let y : Name := ['y']
  [([], ⟨.dir, 0⟩), ([b], ⟨.dir, 1⟩), ([u], ⟨.dir, 2⟩),
    ([usr, b], ⟨.dir, 3⟩), ([x, usr, b], ⟨.link y, 4⟩), ([y, usr, b], ⟨.dir, 5⟩), ([lib, y, usr, b], ⟨.file, 6⟩),
    ([etc, b], ⟨.dir, 7⟩), ([opt, etc, b], ⟨.file, 8⟩), ([log, etc, b], ⟨.link ['o', 'p', 't', '/'], 9⟩),
    ([usr, u], ⟨.dir, 10⟩), ([x, usr, u], ⟨.dir, 11⟩), ([y, usr, u], ⟨.dir, 12⟩), ([whiteoutOf y, usr, u], ⟨.file, 13⟩)]

def shadowed : Config where
  host := .ofEntries shadowedEntries (by decide) (by decide +kernel)
  upper := [['u']]
  base := [['b']]
  sealed := true
  candidates := ownedRoots
  upperDir := by decide
  baseDir := by decide

/-- In order: a name below the link and one below the whited-out directory are found in
the base, a link whose target ends in a slash leads to a file, a slash after the root is
no directory, and a name that is not owned is left to the host. -/
theorem resolve_unmerged :
    (Lib.PathWalk.resolve shadowed.merged true [] (render [lib, ['x'], usr]) = .missing [lib, ['x'], usr] ∧
      (resolve shadowed (render [lib, ['x'], usr]) true).layer = .lower) ∧
    (Lib.PathWalk.resolve shadowed.merged true [] (render [lib, ['y'], usr]) = .missing [lib, ['y'], usr] ∧
      (resolve shadowed (render [lib, ['y'], usr]) true).layer = .lower) ∧
    (Lib.PathWalk.resolve shadowed.merged true [] (render [log, etc]) = .failed .notDir ∧
      (resolve shadowed (render [log, etc]) true).error = none ∧ (resolve shadowed (render [log, etc]) true).layer = .lower) ∧
    (Lib.PathWalk.resolve installed.merged true [] (render [dotDot, usr] ++ ['/']) = .found [] ∧
      (resolve installed (render [dotDot, usr] ++ ['/']) true).error = some .enotdir) ∧
    (Lib.PathWalk.resolve shadowed.merged true [] (render [['h']]) = .missing [['h']] ∧
      (resolve shadowed (render [['h']]) true).layer = .host) := by
  decide +kernel

end PowerArm.Overlay
