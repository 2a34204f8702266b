import Mathlib

/-!
# Path resolution in a file tree

A tree maps a path to the object there (`Tree`). `resolve` goes the way a Unix kernel
does: names one after the other, `.` and `..`, links in place of the names they stand
for, and forty links at most (`arrive`); where a slash comes last, what is there must be a
directory (`needsDir`). A path that meets no link leads where its names say
(`segment_append`, `segment_of_none`).
-/

namespace PowerArm.Lib.PathWalk

abbrev Name := List Char

abbrev Path := List Name

inductive Kind where
  | dir
  | file
  | link (target : List Char)
deriving DecidableEq, Repr

structure Obj where
  kind : Kind
  stat : Nat
deriving DecidableEq, Repr

def Obj.isDir (o : Obj) : Bool := o.kind = .dir

def dot : Name := ['.']

def dotDot : Name := ['.', '.']

def nameMax : Nat := 255

def Plain (c : Name) : Prop := c ≠ [] ∧ '/' ∉ c

def Ordinary (c : Name) : Prop := c ≠ dot ∧ c ≠ dotDot ∧ c.length ≤ nameMax

structure Tree where
  obj : Path → Option Obj
  root : (obj []).any Obj.isDir = true
  closed : ∀ c p, (obj (c :: p)).isSome = true → (obj p).any Obj.isDir = true
  name : ∀ c p, (obj (c :: p)).isSome = true → Plain c ∧ Ordinary c
  target : ∀ p s, obj p ≠ some ⟨.link [], s⟩

/-! ## Path strings -/

def splits : List Char → List (Name × List Char)
  | [] => []
  | ch :: rest =>
    if ch = '/' then splits rest
    else if rest.head?.all (· == '/') then ([ch], rest.dropWhile (· == '/')) :: splits rest
    else
      match splits rest with
      | [] => []
      | (name, after) :: more => (ch :: name, after) :: more

def names (s : List Char) : List Name := (splits s).map Prod.fst

def endsInSlash (s : List Char) : Bool := s.getLast? = some '/'

def absolute (s : List Char) : Bool := s.head? = some '/'

def maxSymlinks : Nat := 40

/-! ## The walk -/

inductive Failure where
  | notDir
  | loop
  | nameTooLong
deriving DecidableEq, Repr

inductive Outcome where
  | found (p : Path)
  | missing (p : Path)
  | failed (e : Failure)
deriving DecidableEq, Repr

/-- Where a walk without links ends: at its outcome, or at a link to be followed. -/
inductive Stop where
  | done (outcome : Outcome)
  | link (dir : Path) (target : List Char) (rest : List Name)

section
variable (obj : Path → Option Obj) (follow : Bool)

def segment : Path → List Name → Stop
  | cur, [] => .done (.found cur)
  | cur, c :: rest =>
    if c = dot then segment cur rest
    else if c = dotDot then segment cur.tail rest
    else if nameMax < c.length then .done (.failed .nameTooLong)
    else
      match obj (c :: cur) with
      | none => .done (.missing (c :: cur))
      | some o =>
        match o.kind with
        | .dir => segment (c :: cur) rest
        | .file => .done (if rest = [] then .found (c :: cur) else .failed .notDir)
        | .link target => if rest ≠ [] ∨ follow then .link cur target rest else .done (.found (c :: cur))

/-- Where a path leads, and whether a slash comes last there: the path's own, or the one
that ends the target of a link in its last place. -/
def arrive : Nat → Bool → Path → List Name → Bool × Outcome
  | links, mustDir, cur, path =>
    match links, segment obj (follow || mustDir) cur path with
    | _, .done outcome => (mustDir, outcome)
    | 0, .link .. => (mustDir, .failed .loop)
    | links + 1, .link dir target rest =>
      arrive links (mustDir || (rest.isEmpty && endsInSlash target)) (if absolute target then [] else dir)
        (names target ++ rest)

/-- A name before a slash has to be a directory. -/
def needsDir : Bool × Outcome → Outcome
  | (mustDir, .found p) => if mustDir && !(obj p).any Obj.isDir then .failed .notDir else .found p
  | (_, outcome) => outcome

def walk (links : Nat) (mustDir : Bool) (cur : Path) (path : List Name) : Outcome :=
  needsDir obj (arrive obj follow links mustDir cur path)

def resolve (dir : Path) (path : List Char) : Outcome :=
  if path = [] then .missing dir
  else walk obj follow maxSymlinks (endsInSlash path) (if absolute path then [] else dir) (names path)

end

/-! ## Names of path strings -/

theorem splits_dropWhile (s : List Char) : splits (s.dropWhile (· == '/')) = splits s := by
  induction s with
  | nil => rfl
  | cons ch rest ih =>
    by_cases hch : ch = '/'
    · rw [List.dropWhile_cons_of_pos (by simp [hch]), ih, splits, if_pos hch]
    · rw [List.dropWhile_cons_of_neg (by simp [hch])]

theorem splits_ne_nil (hch : ch ≠ '/') : splits (ch :: rest) ≠ [] := by
  induction rest generalizing ch with
  | nil => simp [splits, hch]
  | cons d rest ih =>
    rw [splits, if_neg hch]
    by_cases hd : d = '/'
    · simp [hd]
    · obtain ⟨x, more, hx⟩ := List.exists_cons_of_ne_nil (ih hd)
      simp [hd, hx]

theorem splits_cons (h : splits s = (c, after) :: more) : splits after = more := by
  induction s generalizing c after more with
  | nil => cases h
  | cons ch rest ih =>
    rw [splits] at h
    split at h
    next => exact ih h
    next =>
    split at h
    next =>
      cases h
      exact splits_dropWhile rest
    next =>
      split at h
      next => cases h
      next hrest =>
        cases h
        exact ih hrest

theorem splits_last (h : splits s = (c, after) :: more) : after = [] ↔ more = [] := by
  have hhead : after.head? ≠ some '/' := by
    induction s generalizing c after more with
    | nil => cases h
    | cons ch rest ih =>
      rw [splits] at h
      split at h
      next => exact ih h
      next =>
      split at h
      next =>
        cases h
        exact fun hhead => by simpa [hhead] using List.head?_dropWhile_not (· == '/') rest
      next =>
        split at h
        next => cases h
        next hrest =>
          cases h
          exact ih hrest
  rw [← splits_cons h]
  cases after with
  | nil => simp [splits]
  | cons ch rest => simpa using splits_ne_nil fun hch => hhead (by rw [hch]; rfl)

theorem names_cons (ch : Char) (rest : List Char) : names (ch :: rest) = if ch = '/' then names rest
      else if rest.head?.all (· == '/') then [ch] :: names rest
      else
        match names rest with
        | [] => []
        | name :: more => (ch :: name) :: more := by
  rw [names, splits]
  split
  next => rfl
  next =>
  split
  next => rfl
  next =>
    rw [names]
    cases splits rest with
    | nil => rfl
    | cons x more => rfl

theorem names_ne_nil (hch : ch ≠ '/') : names (ch :: rest) ≠ [] :=
  fun h => splits_ne_nil hch (List.map_eq_nil_iff.mp h)

theorem names_append_slash (a b : List Char) : names (a ++ '/' :: b) = names a ++ names b := by
  induction a with
  | nil => rw [List.nil_append, names_cons]; rfl
  | cons ch a ih =>
    rw [List.cons_append, names_cons, names_cons ch a]
    split
    next => exact ih
    next hch =>
      cases a with
      | nil => simp [names, splits]
      | cons d a =>
        rw [List.cons_append] at ih ⊢
        rw [List.head?_cons, List.head?_cons, ih]
        split
        next => rfl
        next hd =>
          have hd : d ≠ '/' := fun h => hd (by simp [h])
          have hne : names (d :: a) ≠ [] := names_ne_nil hd
          obtain ⟨name, more, hmore⟩ := List.exists_cons_of_ne_nil hne
          simp [hmore]

theorem names_of_plain (h : Plain c) : names c = [c] := by
  obtain ⟨hne, hslash⟩ := h
  induction c with
  | nil => exact absurd rfl hne
  | cons ch c ih =>
    obtain ⟨hch, hc⟩ := not_or.mp (List.mem_cons.not.mp hslash)
    rw [names_cons, if_neg fun h => hch h.symm]
    cases c with
    | nil => rfl
    | cons d c =>
      have hd : d ≠ '/' := fun h => hc (h ▸ .head _)
      rw [if_neg (by simp [hd]), ih (List.cons_ne_nil _ _) hc]

theorem names_plain : ∀ c ∈ names s, Plain c := by
  induction s with
  | nil => exact nofun
  | cons ch rest ih =>
    rw [names_cons]
    split
    next => exact ih
    next hch =>
    split
    next =>
      rintro c (_ | ⟨_, hc⟩)
      · exact ⟨List.cons_ne_nil _ _, by simpa using fun h => hch h.symm⟩
      · exact ih c hc
    next =>
      cases hrest : names rest with
      | nil => exact nofun
      | cons name more =>
        rw [hrest] at ih
        rintro c (_ | ⟨_, hc⟩)
        · exact ⟨List.cons_ne_nil _ _, List.not_mem_cons_of_ne_of_not_mem (fun h => hch h.symm) (ih name (.head _)).2⟩
        · exact ih c (.tail _ hc)

/-! ## Walks that meet no link -/

theorem Tree.dir_of_isSome (t : Tree) (hne : cs ≠ []) (h : (t.obj (cs ++ d)).isSome) : (t.obj d).any Obj.isDir := by
  induction cs with
  | nil => exact absurd rfl hne
  | cons c cs ih =>
    have hdir := t.closed c (cs ++ d) h
    cases cs with
    | nil => exact hdir
    | cons c' cs =>
      refine ih (List.cons_ne_nil _ _) ?_
      obtain ⟨o, ho, -⟩ := (Option.any_eq_true ..).mp hdir
      rw [ho]
      rfl

theorem segment_cons (h : Ordinary c) : segment obj follow cur (c :: rest) = match obj (c :: cur) with
      | none => .done (.missing (c :: cur))
      | some o =>
        match o.kind with
        | .dir => segment obj follow (c :: cur) rest
        | .file => .done (if rest = [] then .found (c :: cur) else .failed .notDir)
        | .link target => if rest ≠ [] ∨ follow then .link cur target rest else .done (.found (c :: cur)) := by
  rw [segment, if_neg h.1, if_neg h.2.1, if_neg (Nat.not_lt.mpr h.2.2)]

theorem kind_of_any (h : o.any Obj.isDir) : ∃ s, o = some ⟨.dir, s⟩ := by
  obtain ⟨⟨kind, s⟩, rfl, hdir⟩ := (Option.any_eq_true ..).mp h
  cases of_decide_eq_true hdir
  exact ⟨s, rfl⟩

theorem arrive_done (h : segment obj (follow || mustDir) cur path = .done outcome) :
    arrive obj follow links mustDir cur path = (mustDir, outcome) := by
  unfold arrive
  rw [h]

theorem walk_done (h : segment obj (follow || mustDir) cur path = .done outcome) :
    walk obj follow links mustDir cur path = needsDir obj (mustDir, outcome) := by
  rw [walk, arrive_done h]

theorem arrive_link (h : segment obj (follow || mustDir) cur path = .link dir target rest) :
    arrive obj follow (links + 1) mustDir cur path =
      arrive obj follow links (mustDir || (rest.isEmpty && endsInSlash target)) (if absolute target then [] else dir)
        (names target ++ rest) := by
  conv_lhs => unfold arrive
  rw [h]

/-- A link in the last place is met only where such links are followed. -/
theorem follow_of_segment_link (h : segment obj follow cur path = .link dir target []) : follow = true := by
  induction path generalizing cur with
  | nil => cases h
  | cons c rest ih =>
    rw [segment] at h
    split at h
    next => exact ih h
    next =>
    split at h
    next => exact ih h
    next =>
    split at h
    next => cases h
    next =>
    split at h
    next => cases h
    next =>
    split at h
    next => exact ih h
    next => cases h
    next =>
      split at h
      next hfollow =>
        cases h
        simpa using hfollow
      next => cases h

theorem arrive_loop (h : segment obj (follow || mustDir) cur path = .link dir target rest) :
    arrive obj follow 0 mustDir cur path = (mustDir, .failed .loop) := by
  unfold arrive
  rw [h]

section
variable {t : Tree} {d : Path} {cs : List Name}

theorem segment_append (h : (t.obj (cs.reverse ++ d)).any Obj.isDir) :
    segment t.obj follow d (cs ++ rest) = segment t.obj follow (cs.reverse ++ d) rest := by
  induction cs generalizing d with
  | nil => rfl
  | cons c cs ih =>
    rw [List.reverse_cons, List.append_assoc] at h ⊢
    have hdir : (t.obj (c :: d)).any Obj.isDir := by
      cases cs with
      | nil => exact h
      | cons c' cs =>
        exact t.dir_of_isSome (List.reverse_ne_nil_iff.mpr (List.cons_ne_nil c' cs)) (Option.isSome_of_any h)
    obtain ⟨s, hs⟩ := kind_of_any hdir
    rw [List.cons_append, segment_cons (t.name c d (by rw [hs]; rfl)).2, hs]
    exact ih h

def Outcome.Absent (outcome : Outcome) : Prop := (∃ p, outcome = .missing p) ∨ outcome = .failed .notDir

theorem segment_of_none (hcs : ∀ c ∈ cs, Ordinary c) (hd : (t.obj d).isSome) (h : t.obj (cs.reverse ++ d) = none)
    (hlinks : ∀ q, q ≠ [] → q <:+ cs.reverse → ∀ target s, t.obj (q ++ d) ≠ some ⟨.link target, s⟩) :
    ∃ outcome, segment t.obj false d cs = .done outcome ∧ outcome.Absent := by
  induction cs generalizing d with
  | nil =>
    rw [show t.obj d = none from h] at hd
    cases hd
  | cons c cs ih =>
    obtain ⟨hc, hcs⟩ := List.forall_mem_cons.mp hcs
    rw [List.reverse_cons] at h hlinks
    rw [segment_cons hc]
    cases hobj : t.obj (c :: d) with
    | none => exact ⟨_, rfl, .inl ⟨_, rfl⟩⟩
    | some o =>
      obtain ⟨kind, s⟩ := o
      cases kind with
      | dir =>
        rw [List.append_assoc] at h
        refine ih hcs (by rw [hobj]; rfl) h fun q hq hsuffix target s => ?_
        obtain ⟨before, hbefore⟩ := hsuffix
        have hlink := hlinks (q ++ [c]) (by simp) ⟨before, by rw [← hbefore, List.append_assoc]⟩ target s
        rw [List.append_assoc] at hlink
        exact hlink
      | file =>
        cases cs with
        | nil =>
          rw [show t.obj (c :: d) = none from h] at hobj
          cases hobj
        | cons c' cs => exact ⟨_, rfl, .inr rfl⟩
      | link target => exact absurd hobj (hlinks [c] (List.cons_ne_nil _ _) (List.suffix_append ..) target s)

end

/-! ## Finite trees -/

instance (c : Name) : Decidable (Plain c) := inferInstanceAs (Decidable (_ ∧ _))

instance (c : Name) : Decidable (Ordinary c) := inferInstanceAs (Decidable (_ ∧ _ ∧ _))

def Fits (entries : List (Path × Obj)) : Path × Obj → Prop
  | ([], o) => o.isDir = true
  | (c :: p, o) => (entries.lookup p).any Obj.isDir = true ∧ Plain c ∧ Ordinary c ∧ o.kind ≠ .link []

instance (entries : List (Path × Obj)) : DecidablePred (Fits entries)
  | ([], o) => inferInstanceAs (Decidable (o.isDir = true))
  | (_ :: _, _) => inferInstanceAs (Decidable (_ ∧ _ ∧ _ ∧ _))

theorem mem_of_lookup {entries : List (Path × Obj)} {p : Path} {o : Obj} (h : entries.lookup p = some o) :
    (p, o) ∈ entries := by
  induction entries with
  | nil => cases h
  | cons e entries ih =>
    rw [List.lookup] at h
    split at h
    next heq =>
      cases h
      cases eq_of_beq heq
      exact .head _
    next => exact .tail _ (ih h)

def Tree.ofEntries (entries : List (Path × Obj)) (hroot : (entries.lookup []).isSome = true)
    (hfits : ∀ e ∈ entries, Fits entries e) : Tree where
  obj p := entries.lookup p
  root := by
    obtain ⟨o, ho⟩ := Option.isSome_iff_exists.mp hroot
    rw [ho]
    exact hfits _ (mem_of_lookup ho)
  closed c p h := by
    obtain ⟨o, ho⟩ := Option.isSome_iff_exists.mp h
    exact (hfits _ (mem_of_lookup ho)).1
  name c p h := by
    obtain ⟨o, ho⟩ := Option.isSome_iff_exists.mp h
    have hfit := hfits _ (mem_of_lookup ho)
    exact ⟨hfit.2.1, hfit.2.2.1⟩
  target p s h := by
    have hfit := hfits _ (mem_of_lookup h)
    cases p with
    | nil => cases hfit
    | cons c p => exact hfit.2.2.2 rfl

end PowerArm.Lib.PathWalk
