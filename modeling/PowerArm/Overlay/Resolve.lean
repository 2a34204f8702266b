import PowerArm.Lib.PathWalk

/-!
# The walk over the layers of the root file system

A guest path is walked over a writable directory, the base below it and the host below
that, from `RootFSOverlay.cpp`. Both layers are directories of the host (`Config`), and
`fstatat` on a path below one of them is the host's own resolution of it.
-/

namespace PowerArm.Overlay

open Lib.PathWalk

/-! ## Prefixes -/

def usr : Name := ['u', 's', 'r']
def etc : Name := ['e', 't', 'c']
def opt : Name := ['o', 'p', 't']
def var : Name := ['v', 'a', 'r']
def lib : Name := ['l', 'i', 'b']
def cache : Name := ['c', 'a', 'c', 'h', 'e']
def log : Name := ['l', 'o', 'g']
def pacman : Name := ['p', 'a', 'c', 'm', 'a', 'n']
def pacmanLog : Name := ['p', 'a', 'c', 'm', 'a', 'n', '.', 'l', 'o', 'g']
def pacmanConf : Name := ['p', 'a', 'c', 'm', 'a', 'n', '.', 'c', 'o', 'n', 'f']
def pacmanD : Name := ['p', 'a', 'c', 'm', 'a', 'n', '.', 'd']

def render : Path → List Char
  | [] => []
  | c :: p => render p ++ '/' :: c

def ownedPrefixes : List Path :=
  [[usr], [etc], [opt], [pacman, lib, var], [pacman, cache, var], [pacmanLog, log, var]]

def noFallthroughPrefixes : List Path :=
  [[pacman, lib, var], [pacman, cache, var], [pacmanConf, etc], [pacmanD, etc], [pacmanLog, log, var]]

def ownedAncestors : List Path := [[var], [lib, var], [cache, var], [log, var]]

def ownedRoots : List Name := [usr, etc, opt, var]

def whiteoutPrefix : Name := ['.', 'w', 'h', '.']

def opaqueMarker : Name := ['.', 'w', 'h', '.', '.', 'w', 'h', '.', '.', 'o', 'p', 'q']

def hasPrefix (path pre : List Char) : Bool := pre.isPrefixOf path && (path.drop pre.length).head?.all (· == '/')

def isOwned (path : List Char) : Bool := ownedPrefixes.any fun p => hasPrefix path (render p)

def isNoFallthrough (path : List Char) : Bool := noFallthroughPrefixes.any fun p => hasPrefix path (render p)

def isOwnedAncestor (path : List Char) : Bool := ownedAncestors.any fun p => path == render p

def isReserved (c : Name) : Bool := whiteoutPrefix.isPrefixOf c

def whiteoutOf (c : Name) : Name := whiteoutPrefix ++ c

/-! ## Layers -/

/-- The host's files, with the directories of the overlay and of the base among them. -/
structure Config where
  host : Tree
  upper : Path
  base : Path
  sealed : Bool
  candidates : List Name
  upperDir : (host.obj upper).any Obj.isDir = true
  baseDir : (host.obj base).any Obj.isDir = true

inductive Layer where
  | upper | lower | host | hidden
deriving DecidableEq, Repr

inductive Errno where
  | enoent | enotdir | eloop | enametoolong
deriving DecidableEq, Repr

def toErrno : Failure → Errno
  | .notDir => .enotdir
  | .loop => .eloop
  | .nameTooLong => .enametoolong

namespace Config
variable (cfg : Config)

/-- The base is the layer of everything that is not the overlay's. -/
def layerDir : Layer → Path
  | .upper => cfg.upper
  | _ => cfg.base

def fstatat (layer : Layer) (path : Path) : Except Errno Obj :=
  match walk cfg.host.obj false maxSymlinks false (cfg.layerDir layer) path.reverse with
  | .found p => (cfg.host.obj p).elim (.error .enoent) .ok
  | .missing _ => .error .enoent
  | .failed e => .error (toErrno e)

def noFallthrough (path : List Char) : Bool := cfg.sealed || isNoFallthrough path

end Config

/-- What the walk knows of a directory: it is one in the overlay, that one is opaque,
the base's is visible, and missing names fall through to the host. -/
structure DirState where
  upper : Bool := false
  isOpaque : Bool := false
  lower : Bool := false
  fallthrough : Bool := false
deriving DecidableEq, Repr

/-- A path that was resolved; a missing `st` is a `struct stat` of zeros. -/
structure Node where
  path : List Char
  layer : Layer := .hidden
  error : Option Errno := none
  st : Option Obj := none
  owned : Bool := false
  touchedUpper : Bool := false
  trailingSlash : Bool := false
  stoppedEarly : Bool := false
  parent : Option DirState := none
  self : DirState := {}
deriving DecidableEq, Repr

structure Frame where
  path : Path
  state : DirState
  layer : Layer
  st : Option Obj

def rootFrame : Frame := ⟨[], ⟨true, false, true, true⟩, .lower, none⟩

/-! ## One name -/

structure Probe where
  hit : Layer
  st : Option Obj
  upperAncestor : Bool

section
variable (cfg : Config)

def probeUpper (cur : Path) (s : DirState) (c : Name) : Except Errno (Option (Layer × Option Obj)) :=
  let owned := isOwned (render (c :: cur))
  if owned && isReserved c then .ok (some (.hidden, none))
  else if owned && s.upper then
    match cfg.fstatat .upper (c :: cur) with
    | .ok o => .ok (some (.upper, some o))
    | .error e =>
      if e ≠ .enoent ∧ e ≠ .enotdir then .error e
      else if (cfg.fstatat .upper (whiteoutOf c :: cur)).toBool then .ok (some (.hidden, none))
      else .ok none
  else .ok none

def probeLower (cur : Path) (s : DirState) (c : Name) : Except Errno (Option (Layer × Option Obj)) :=
  if s.lower && !s.isOpaque then
    match cfg.fstatat .lower (c :: cur) with
    | .ok o => .ok (some (.lower, some o))
    | .error e => if e ≠ .enoent ∧ e ≠ .enotdir then .error e else .ok none
  else .ok none

/-- The directory of the overlay at an ancestor of an owned prefix. -/
def upperAncestor (cur : Path) (s : DirState) (c : Name) : Option Obj :=
  if !isOwned (render (c :: cur)) && isOwnedAncestor (render (c :: cur)) && s.upper then
    ((cfg.fstatat .upper (c :: cur)).toOption).filter Obj.isDir
  else none

def probe (cur : Path) (s : DirState) (c : Name) : Except Errno Probe := do
  let ancestor := upperAncestor cfg cur s c
  let upper ← probeUpper cfg cur s c
  match upper with
  | some (hit, st) => return ⟨hit, st, ancestor.isSome⟩
  | none =>
    let lower ← probeLower cfg cur s c
    match lower, ancestor with
    | some (hit, st), _ => return ⟨hit, st, ancestor.isSome⟩
    | none, some o => return ⟨.upper, some o, true⟩
    | none, none =>
      let hidden := !s.fallthrough || s.isOpaque || (isOwned (render (c :: cur)) && cfg.noFallthrough (render (c :: cur)))
      return ⟨if hidden then .hidden else .host, none, false⟩

def opaqueMarked (cand : Path) : Bool := (cfg.fstatat .upper (opaqueMarker :: cand)).toBool

def childState (cur : Path) (s : DirState) (c : Name) (p : Probe) : DirState :=
  if p.st.any Obj.isDir then
    let owned := isOwned (render (c :: cur))
    let parentHidesLower := s.upper && s.isOpaque
    let upper := p.hit = .upper || p.upperAncestor
    { upper := upper
      isOpaque := upper && owned && opaqueMarked cfg (c :: cur)
      lower := p.hit = .lower || (s.lower && !parentHidesLower)
      fallthrough := s.fallthrough && !parentHidesLower && !(owned && cfg.noFallthrough (render (c :: cur))) }
  else {}

/-! ## The walk -/

inductive Stop where
  | node (n : Node)
  | link (frame : Frame) (frames : List Frame) (cand : Path) (hit : Layer) (target after : List Char)

def ended (f : Frame) (fs : List Frame) : Node :=
  { path := if f.path = [] then ['/'] else render f.path
    layer := f.layer
    st := f.st
    self := f.state
    parent := fs.head?.map Frame.state }

/-- Nothing in either layer: what is left is for the host, or is hidden. -/
def stopped (f : Frame) (c : Name) (after : List Char) (hit : Layer) : Node :=
  { path := render (c :: f.path) ++ if after = [] then [] else '/' :: after
    layer := hit
    stoppedEarly := after ≠ []
    parent := some f.state }

def last (f : Frame) (c : Name) (p : Probe) : Node :=
  { path := render (c :: f.path)
    layer := p.hit
    st := p.st
    self := childState cfg f.path f.state c p
    parent := some f.state }

def failed (f : Frame) (c : Name) (e : Errno) : Node := { path := render (c :: f.path), error := some e }

def segment (followLast : Bool) : Frame → List Frame → List (Name × List Char) → Stop
  | f, fs, [] => .node (ended f fs)
  | f, fs, (c, after) :: rest =>
    if c = dot then segment followLast f fs rest
    else if c = dotDot then
      match fs with
      | [] => segment followLast f [] rest
      | g :: gs => segment followLast g gs rest
    else if nameMax < c.length then .node (failed f c .enametoolong)
    else
      match probe cfg f.path f.state c with
      | .error e => .node (failed f c e)
      | .ok p =>
        match p.st with
        | none => .node (stopped f c after p.hit)
        | some o =>
          match o.kind with
          | .link target =>
            if after ≠ [] ∨ followLast then .link f fs (c :: f.path) p.hit target after else .node (last cfg f c p)
          | .file => if after = [] then .node (last cfg f c p) else .node (failed f c .enotdir)
          | .dir =>
            if after = [] then .node (last cfg f c p)
            else segment followLast ⟨c :: f.path, childState cfg f.path f.state c p, p.hit, p.st⟩ (f :: fs) rest

def follow (trailing followLast : Bool) : Nat → Bool → Frame → List Frame → List Char → Node
  | links, touched, f, fs, work =>
    match links, segment cfg followLast f fs (splits work) with
    | _, .node n => { n with touchedUpper := touched }
    | 0, .link _ _ cand _ _ _ => { path := render cand, error := some .eloop, touchedUpper := touched }
    | links + 1, .link f fs cand hit target after =>
      if target = [] then { path := render cand, error := some .enoent, touchedUpper := touched }
      else
        let work := target ++ if after ≠ [] then '/' :: after else if trailing then ['/'] else []
        let touched := touched || hit = .upper
        if absolute target then follow trailing followLast links touched rootFrame [] work
        else follow trailing followLast links touched f fs work

def finish (trailing : Bool) (n : Node) : Node :=
  let inLayers := n.layer = .upper || n.layer = .lower
  { n with
    error := if n.error = none ∧ trailing ∧ inLayers ∧ !n.st.any Obj.isDir then some .enotdir else n.error
    trailingSlash := trailing
    owned := isOwned n.path }

def resolve (path : List Char) (followLast : Bool) : Node :=
  let trailing := 1 < path.length && endsInSlash path
  finish trailing (follow cfg trailing (followLast || trailing) maxSymlinks false rootFrame [] path)

def isCandidate (path : List Char) : Bool := (names path).head?.any fun c => cfg.candidates.contains c

def lookup (path : List Char) (followLast : Bool) : Option Node :=
  if isCandidate cfg path then
    let n := resolve cfg path followLast
    if n.path = ['/'] || (!n.owned && !n.touchedUpper) then none else some n
  else none

end

end PowerArm.Overlay
