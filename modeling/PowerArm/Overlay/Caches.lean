import PowerArm.Lib.Run
import PowerArm.Overlay.Resolve

/-!
# What the overlay keeps of directories

`Opaque` keeps the answer for a directory by inode number and modification time, and
`Getdents64` keeps the listing of a directory for the positions of its descriptors. An answer
is current while the two tell directories apart (`opaque_current`). A listing has each name
of the merged directory once (`count_buildListing`), and a descriptor reads each name once
while the listing it reads is not built again (`reads_each_once`).
-/

namespace PowerArm.Overlay.Caches

open Function (update update_of_ne update_self)

open Lib

/-- A map with the number of its keys. -/
structure Table (κ ν : Type) where
  get : κ → Option ν := fun _ => none
  size : Nat := 0

/-- `insert_or_assign` on a map that is emptied when it has more than `cap` keys. -/
def Table.assign {κ ν : Type} [DecidableEq κ] (cap : Nat) (m : Table κ ν) (k : κ) (v : ν) : Table κ ν :=
  let m := if cap < m.size then {} else m
  ⟨update m.get k (some v), if (m.get k).isSome then m.size else m.size + 1⟩

/-! ## Opaque directories -/

structure UpperDir where
  ino : Nat
  mtime : Nat × Nat
  marker : Bool

section
variable {P : Type} (owned : P → Bool)

structure Opacity (P : Type) where
  upper : P → Option UpperDir
  cache : Table Nat ((Nat × Nat) × Bool) := {}

/-- `Opaque` on a directory that the walk has just entered. -/
def Opacity.isOpaque (s : Opacity P) (dir : P) : Bool × Table Nat ((Nat × Nat) × Bool) :=
  match (s.upper dir).filter fun _ => owned dir with
  | none => (false, s.cache)
  | some d =>
    match (s.cache.get d.ino).filter (·.1 = d.mtime) with
    | some e => (e.2, s.cache)
    | none => (d.marker, s.cache.assign 16384 d.ino (d.mtime, d.marker))

/-- A lookup, or what any other operation makes of the directories of the upper layer. -/
inductive Op (P : Type) where
  | change (upper : P → Option UpperDir)
  | lookup (dir : P)

def Opacity.step (s : Opacity P) : Op P → Opacity P
  | .change upper => { s with upper }
  | .lookup dir => { s with cache := (s.isOpaque owned dir).2 }

def Opacity.run (upper : P → Option UpperDir) (ops : List (Op P)) : Opacity P :=
  ops.foldl (Opacity.step owned) { upper }

/-- The directories that the upper layer has had. -/
def Seen (upper : P → Option UpperDir) (ops : List (Op P)) : Set UpperDir :=
  {d | ∃ u, (u = upper ∨ .change u ∈ ops) ∧ ∃ p, owned p = true ∧ u p = some d}

structure Opacity.Within (seen : Set UpperDir) (s : Opacity P) : Prop where
  upper : ∀ p d, owned p = true → s.upper p = some d → d ∈ seen
  cache : ∀ ino e, s.cache.get ino = some e → ∃ d ∈ seen, d.ino = ino ∧ d.mtime = e.1 ∧ d.marker = e.2

variable {owned} {seen : Set UpperDir} {s : Opacity P}

theorem Opacity.Within.lookup (h : s.Within owned seen) (dir : P) : (s.step owned (.lookup dir)).Within owned seen := by
  refine ⟨h.upper, fun ino e he => ?_⟩
  simp only [step, isOpaque] at he
  split at he
  next => exact h.cache ino e he
  next d hd =>
    split at he
    next => exact h.cache ino e he
    next =>
      rw [Table.assign] at he
      by_cases hino : ino = d.ino
      · subst hino
        obtain rfl : (d.mtime, d.marker) = e := by simpa using he
        obtain ⟨hdir, howned⟩ := Option.filter_eq_some_iff.mp hd
        exact ⟨d, h.upper dir d howned hdir, rfl, rfl, rfl⟩
      · simp only [update_of_ne hino] at he
        split at he
        next => cases he
        next => exact h.cache ino e he

theorem Opacity.Within.run {ops : List (Op P)} (h : s.Within owned seen)
    (hops : ∀ u, .change u ∈ ops → ∀ p d, owned p → u p = some d → d ∈ seen) :
    (ops.foldl (Opacity.step owned) s).Within owned seen := by
  induction ops generalizing s with
  | nil => exact h
  | cons op ops ih =>
    refine ih ?_ fun u hu => hops u (.tail _ hu)
    cases op with
    | change u => exact ⟨hops u (.head _), h.cache⟩
    | lookup dir => exact h.lookup dir

theorem opaque_current {upper : P → Option UpperDir} {ops : List (Op P)}
    (htell : ∀ d ∈ Seen owned upper ops, ∀ d' ∈ Seen owned upper ops,
      d.ino = d'.ino → d.mtime = d'.mtime → d.marker = d'.marker) (dir : P) :
    ((Opacity.run owned upper ops).isOpaque owned dir).1 = true ↔
      owned dir = true ∧ ∃ d, (Opacity.run owned upper ops).upper dir = some d ∧ d.marker = true := by
  have h : (Opacity.run owned upper ops).Within owned (Seen owned upper ops) :=
    .run ⟨fun p d howned hd => ⟨upper, .inl rfl, p, howned, hd⟩, nofun⟩
      fun u hu p d howned hd => ⟨u, .inr hu, p, howned, hd⟩
  generalize Opacity.run owned upper ops = s at h ⊢
  rw [Opacity.isOpaque]
  split
  next hnone =>
    refine ⟨nofun, fun ⟨howned, d, hd, _⟩ => ?_⟩
    simp [hd, howned] at hnone
  next d hd =>
    obtain ⟨hdir, howned⟩ := Option.filter_eq_some_iff.mp hd
    have hcurrent : (owned dir = true ∧ ∃ d, s.upper dir = some d ∧ d.marker = true) ↔ d.marker = true := by
      simp [howned, hdir]
    rw [hcurrent]
    split
    next e he =>
      obtain ⟨hlookup, hmtime⟩ := Option.filter_eq_some_iff.mp he
      obtain ⟨d', hd', hino, hmtime', hmarker⟩ := h.cache d.ino e hlookup
      rw [← hmarker, htell d' hd' d (h.upper dir d howned hdir) hino (hmtime'.trans (of_decide_eq_true hmtime))]
    next => rfl

theorem opaque_current_fresh : ((Opacity.run (fun _ => true) (fun _ : Unit => some ⟨1, (5, 0), true⟩) [.lookup ()]).isOpaque
    (fun _ => true) ()).1 = true ↔ true = true ∧ ∃ d, (Opacity.run (fun _ => true)
      (fun _ : Unit => some ⟨1, (5, 0), true⟩) [.lookup ()]).upper () = some d ∧ d.marker = true := by
  have hone : ∀ d ∈ Seen (fun _ => true) (fun _ : Unit => some ⟨1, (5, 0), true⟩) [.lookup ()], true = d.marker := by
    rintro d ⟨u, rfl | hu, p, -, hd⟩
    · exact congrArg UpperDir.marker (Option.some.inj hd)
    · simp at hu
  exact opaque_current (fun d hd d' hd' _ _ => (hone d hd).symm.trans (hone d' hd')) ()

/-- `MakeOpaque` on a directory that was looked up without the marker, and `Utimensat` back to
the time it had then. -/
theorem opaque_stale : ((Opacity.run (fun _ => true) (fun _ : Unit => some ⟨1, (5, 0), false⟩)
    [.lookup (), .change fun _ => some ⟨1, (6, 0), true⟩, .change fun _ => some ⟨1, (5, 0), true⟩]).isOpaque
      (fun _ => true) ()).1 = false := rfl

end

/-! ## Listings -/

open Lib.PathWalk (Name dot dotDot)

/-- The names the kernel lists in a directory. -/
structure DirNames where
  names : List Name
  nodup : names.Nodup
  dots : dot ∈ names ∧ dotDot ∈ names

/-- A directory of the upper layer and, where the walk found one there too, the base's. -/
structure MergedDir where
  upper : DirNames
  lower : Option DirNames

/-- A name of the merged directory: the upper layer's, or the base's where neither the
directory is opaque nor the name whited out. -/
def MergedDir.Has (d : MergedDir) (name : Name) : Prop :=
  isReserved name = false ∧ (name ∈ d.upper.names ∨
    opaqueMarker ∉ d.upper.names ∧ whiteoutOf name ∉ d.upper.names ∧ ∃ lower ∈ d.lower, name ∈ lower.names)

def whiteouts (names : List Name) : List Name :=
  (names.filter fun name => isReserved name && name != opaqueMarker).map (·.drop whiteoutPrefix.length)

/-- `BuildListing` of a directory that its path still leads to. `Opaque` answers by the
marker while its cache is current. -/
def buildListing (d : MergedDir) : List Name :=
  let seen := d.upper.names.filter fun name => !isReserved name
  let lowerShown := d.lower.filter fun _ => !d.upper.names.contains opaqueMarker
  seen ++ match lowerShown with
    | none => []
    | some lower => lower.names.filter fun name => !(name == dot || name == dotDot || isReserved name) &&
        !(seen.contains name || (whiteouts d.upper.names).contains name)

theorem mem_whiteouts {names : List Name} {name : Name} (hname : isReserved name = false) :
    name ∈ whiteouts names ↔ whiteoutOf name ∈ names := by
  constructor
  · intro hmem
    obtain ⟨marker, hmarker, rfl⟩ := List.mem_map.mp hmem
    obtain ⟨hin, hreserved⟩ := List.mem_filter.mp hmarker
    obtain ⟨rest, rfl⟩ := List.isPrefixOf_iff_prefix.mp ((Bool.and_eq_true ..).mp hreserved).1
    rw [List.drop_left]
    exact hin
  · intro hmem
    refine List.mem_map.mpr ⟨whiteoutOf name, List.mem_filter.mpr ⟨hmem, ?_⟩, List.drop_left⟩
    -- what the opaque marker would white out is a reserved name
    have hne : whiteoutOf name ≠ opaqueMarker := fun heq => by
      have hrest : name = opaqueMarker.drop whiteoutPrefix.length := by rw [← heq, whiteoutOf, List.drop_left]
      rw [hrest] at hname
      cases hname
    have hreserved : isReserved (whiteoutOf name) := List.isPrefixOf_iff_prefix.mpr ⟨name, rfl⟩
    simp [hne, hreserved]

theorem mem_buildListing {d : MergedDir} {name : Name} : name ∈ buildListing d ↔ d.Has name := by
  rw [buildListing, List.mem_append, List.mem_filter]
  constructor
  · rintro (⟨hupper, hname⟩ | hlower)
    · exact ⟨by simpa using hname, .inl hupper⟩
    · split at hlower
      next => cases hlower
      next lower hshown =>
        obtain ⟨hsome, hblocked⟩ := Option.filter_eq_some_iff.mp hshown
        simp only [List.mem_filter, Bool.and_eq_true, Bool.not_eq_true', Bool.or_eq_false_iff] at hlower
        obtain ⟨hmem, ⟨-, hname⟩, -, hwhiteout⟩ := hlower
        refine ⟨hname, .inr ⟨by simpa using hblocked, fun hwhite => ?_, lower, hsome, hmem⟩⟩
        rw [List.contains_iff_mem.mpr ((mem_whiteouts hname).mpr hwhite)] at hwhiteout
        cases hwhiteout
  · rintro ⟨hname, hnames⟩
    by_cases hupper : name ∈ d.upper.names
    · exact .inl ⟨hupper, by simp [hname]⟩
    obtain ⟨hblocked, hwhiteout, lower, hlower, hmem⟩ := hnames.resolve_left hupper
    have hshown : d.lower.filter (fun _ => !d.upper.names.contains opaqueMarker) = some lower :=
      Option.filter_eq_some_iff.mpr ⟨hlower, by simpa using hblocked⟩
    have hdot : name ≠ dot := fun h => hupper (h ▸ d.upper.dots.1)
    have hdotDot : name ≠ dotDot := fun h => hupper (h ▸ d.upper.dots.2)
    have hwhite : name ∉ whiteouts d.upper.names := (mem_whiteouts hname).not.mpr hwhiteout
    refine .inr ?_
    rw [hshown]
    exact List.mem_filter.mpr ⟨hmem, by simp [hname, hdot, hdotDot, hupper, hwhite]⟩

theorem nodup_buildListing (d : MergedDir) : (buildListing d).Nodup := by
  refine List.Nodup.append (d.upper.nodup.filter _) ?_ ?_
  · split
    next => exact .nil
    next lower _ => exact lower.nodup.filter _
  · intro name hupper hlower
    split at hlower
    next => cases hlower
    next =>
      have hfresh := (List.mem_filter.mp hlower).2
      rw [List.contains_iff_mem.mpr hupper, Bool.true_or, Bool.not_true, Bool.and_false] at hfresh
      cases hfresh

/-- A listing has each name of the merged directory once. -/
theorem count_buildListing {d : MergedDir} {name : Name} (h : d.Has name) : (buildListing d).count name = 1 :=
  List.count_eq_one_of_mem (nodup_buildListing d) (mem_buildListing.mpr h)

section
variable {D F : Type} [DecidableEq D] [DecidableEq F] (dirOf : F → D)

/-- The merged directories, the listings kept, and the positions. -/
structure Reading (D F : Type) where
  dirs : D → MergedDir
  listings : Table D (List Name) := {}
  pos : F → Nat

def recLen (name : Name) : Nat := (19 + name.length + 1 + 7) / 8 * 8

/-- The records that fit into the buffer. -/
def fill (count : Nat) : Nat → List Name → List Name
  | _, [] => []
  | size, e :: rest => if count < size + recLen e then [] else e :: fill count (size + recLen e) rest

namespace Reading
variable (s : Reading D F)

def entries (fd : F) : List Name × Table D (List Name) :=
  match (s.listings.get (dirOf fd)).filter fun _ => s.pos fd ≠ 0 with
  | some entries => (entries, s.listings)
  | none => (buildListing (s.dirs (dirOf fd)), s.listings.assign 64 (dirOf fd) (buildListing (s.dirs (dirOf fd))))

/-- `Getdents64`; `fault` is the copy to the guest failing. No names are an error. -/
def getdents64 (fd : F) (count : Nat) (fault : Bool) : Option (List Name) × Reading D F :=
  let (entries, listings) := s.entries dirOf fd
  let out := fill count 0 (entries.drop (s.pos fd))
  if out = [] ∧ s.pos fd < entries.length ∨ out ≠ [] ∧ fault then (none, { s with listings })
  else (some out, { s with listings, pos := update s.pos fd (s.pos fd + out.length) })

end Reading

inductive ReadOp (D F : Type) where
  | change (dirs : D → MergedDir)
  | lseek (fd : F) (pos : Nat)
  | getdents64 (fd : F) (count : Nat) (fault : Bool)

def Reading.step (s : Reading D F) : ReadOp D F → Reading D F
  | .change dirs => { s with dirs }
  | .lseek fd pos => { s with pos := update s.pos fd pos }
  | .getdents64 fd count fault => (s.getdents64 dirOf fd count fault).2

/-- What `fd` has read so far, beside the state. -/
def collect (fd : F) (acc : List Name × Reading D F) (op : ReadOp D F) : List Name × Reading D F :=
  (acc.1 ++ match op with
    | .getdents64 fd' count fault => if fd' = fd then (acc.2.getdents64 dirOf fd count fault).1.getD [] else []
    | _ => [], acc.2.step dirOf op)

/-- No listing is built over the one that `fd` reads, except from the same names. -/
def Quiet (fd : F) (acc : List Name × Reading D F) : ReadOp D F → Prop
  | .change _ => True
  | .lseek fd' _ => fd' ≠ fd
  | .getdents64 fd' _ _ => acc.2.listings.get (dirOf fd') = none ∨ acc.2.pos fd' = 0 → acc.2.listings.size ≤ 64 ∧
    (dirOf fd' = dirOf fd → acc.2.listings.get (dirOf fd) = some (buildListing (acc.2.dirs (dirOf fd))))

/-- `fd` is at its place in the names it began with. -/
structure Reads (fd : F) (names : List Name) (acc : List Name × Reading D F) : Prop where
  kept : acc.2.listings.get (dirOf fd) = some names
  started : acc.2.pos fd ≠ 0
  read : acc.1 = names.take (acc.2.pos fd)

variable {dirOf} {fd : F} {names : List Name}

theorem fill_append (count size : Nat) (l : List Name) : ∃ rest, l = fill count size l ++ rest := by
  induction l generalizing size with
  | nil => exact ⟨[], rfl⟩
  | cons e l ih =>
    rw [fill]
    split
    · exact ⟨_, rfl⟩
    · obtain ⟨rest, hrest⟩ := ih (size + recLen e)
      exact ⟨rest, congrArg (e :: ·) hrest⟩

theorem take_fill (count n : Nat) (names : List Name) :
    names.take n ++ fill count 0 (names.drop n) = names.take (n + (fill count 0 (names.drop n)).length) := by
  obtain ⟨rest, hrest⟩ := fill_append count 0 (names.drop n)
  rw [List.take_add, ← (List.prefix_iff_eq_take.mp ⟨rest, hrest.symm⟩)]

section
variable {acc : List Name × Reading D F} (h : Reads dirOf fd names acc)
include h

omit [DecidableEq F] in
theorem Reads.entries : acc.2.entries dirOf fd = (names, acc.2.listings) := by
  simp [Reading.entries, h.kept, h.started, Option.filter]

omit [DecidableEq F] in
theorem Reads.kept_entries (hq : Quiet dirOf fd acc (.getdents64 fd' count fault)) :
    (acc.2.entries dirOf fd').2.get (dirOf fd) = some names := by
  rw [Reading.entries]
  split
  next => exact h.kept
  next hnone =>
    rw [Option.filter_eq_none_iff] at hnone
    obtain ⟨hsize, hsame⟩ := hq (by
      cases hget : acc.2.listings.get (dirOf fd') with
      | none => exact .inl rfl
      | some l => exact .inr (by simpa using hnone l hget))
    simp only [Table.assign, if_neg (Nat.not_lt.mpr hsize)]
    by_cases hdir : dirOf fd' = dirOf fd
    · rw [hdir, update_self, ← hsame hdir, h.kept]
    · rw [update_of_ne (Ne.symm hdir), h.kept]

theorem Reads.step (hq : Quiet dirOf fd acc op) : Reads dirOf fd names (collect dirOf fd acc op) := by
  cases op with
  | change dirs => exact ⟨h.kept, h.started, by simpa [collect, Reading.step] using h.read⟩
  | lseek fd' pos =>
    have hpos : (acc.2.step dirOf (.lseek fd' pos)).pos fd = acc.2.pos fd := update_of_ne (Ne.symm hq) ..
    exact ⟨h.kept, hpos ▸ h.started, by simpa [collect, hpos] using h.read⟩
  | getdents64 fd' count fault =>
    have hkept := h.kept_entries hq
    by_cases hfd : fd' = fd
    · subst hfd
      simp only [collect, Reading.step, Reading.getdents64, if_true]
      split
      next => exact ⟨hkept, h.started, by simpa using h.read⟩
      next =>
        refine ⟨hkept, ?_, ?_⟩
        · have := h.started
          simp only [update_self]
          omega
        · simp only [update_self, h.entries, Option.getD_some, h.read]
          exact take_fill ..
    · simp only [collect, Reading.step, Reading.getdents64, if_neg hfd, List.append_nil]
      split
      next => exact ⟨hkept, h.started, h.read⟩
      next =>
        have hpos (n : Nat) : update acc.2.pos fd' n fd = acc.2.pos fd := update_of_ne (Ne.symm hfd) ..
        exact ⟨hkept, by simpa only [hpos] using h.started, by simpa only [hpos] using h.read⟩

end

theorem reads_each_once {s s₁ : Reading D F} (h0 : s.pos fd = 0) {count count' : Nat} {fault fault' : Bool} {out : List Name}
    (hfirst : s.getdents64 dirOf fd count fault = (some out, s₁)) {ops : List (ReadOp D F)}
    (hquiet : Admissible (collect dirOf fd) (Quiet dirOf fd) (out, s₁) ops)
    (hend : ((ops.foldl (collect dirOf fd) (out, s₁)).2.getdents64 dirOf fd count' fault').1 = some [])
    {name : Name} (hname : (s.dirs (dirOf fd)).Has name) :
    (ops.foldl (collect dirOf fd) (out, s₁)).1.count name = 1 := by
  have hcount := count_buildListing hname
  have hentries : s.entries dirOf fd = (buildListing (s.dirs (dirOf fd)),
      s.listings.assign 64 (dirOf fd) (buildListing (s.dirs (dirOf fd)))) := by simp [Reading.entries, h0]
  generalize buildListing (s.dirs (dirOf fd)) = names at hcount hentries
  -- the first read starts the pass
  have hstart : Reads dirOf fd names (out, s₁) := by
    simp only [Reading.getdents64, hentries, h0, List.drop_zero, Nat.zero_add] at hfirst
    split at hfirst
    next => cases hfirst
    next hok =>
      cases hfirst
      have htake := take_fill count 0 names
      simp only [List.drop_zero, List.take_zero, List.nil_append, Nat.zero_add] at htake
      refine ⟨by simp [Table.assign], fun hzero => hok (.inl ?_), by simpa using htake⟩
      simp only [update_self, List.length_eq_zero_iff] at hzero
      exact ⟨hzero, List.length_pos_of_mem (List.count_pos_iff.mp (hcount ▸ Nat.one_pos))⟩
  have hrun : Reads dirOf fd names (ops.foldl (collect dirOf fd) (out, s₁)) :=
    foldl_invariant (fun _ _ h hq => h.step hq) hstart hquiet
  generalize ops.foldl (collect dirOf fd) (out, s₁) = acc at hrun hend ⊢
  -- the last read found nothing left
  have hall : acc.1 = names := by
    rw [hrun.read]
    simp only [Reading.getdents64, hrun.entries] at hend
    split at hend
    next => cases hend
    next hok =>
      simp only [Option.some.injEq] at hend
      exact List.take_of_length_le (Nat.not_lt.mp fun hlt => hok (.inl ⟨hend, hlt⟩))
  rw [hall]
  exact hcount

end

/-! ## Two descriptors of one directory -/

def letters : Reading Unit Nat where
  dirs _ := ⟨⟨[dot, dotDot, ['a'], ['b']], by decide, by decide⟩,
    some ⟨[dot, dotDot, ['b'], ['c']], by decide, by decide⟩⟩
  pos _ := 0

/-- After descriptor 0 has read up to the first letter. -/
def lettersRead : List Name × Reading Unit Nat :=
  ([dot, dotDot, ['a']], (letters.getdents64 (fun _ => ()) 0 72 false).2)

theorem reads_each_once_alone : ([.getdents64 0 48 false].foldl (collect (fun _ => ()) 0) lettersRead).1.count ['b'] = 1 := by
  have hfirst : letters.getdents64 (fun _ => ()) 0 72 false = (some [dot, dotDot, ['a']], lettersRead.2) := rfl
  have hquiet : Admissible (collect (fun _ => ()) 0) (Quiet (fun _ => ()) 0) lettersRead [.getdents64 0 48 false] :=
    ⟨fun h => absurd h (by decide), trivial⟩
  have hend : (([.getdents64 0 48 false].foldl (collect (fun _ => ()) 0) lettersRead).2.getdents64 (fun _ => ()) 0 24 false).1 =
      some [] := rfl
  exact reads_each_once rfl hfirst hquiet hend ⟨rfl, .inl (by decide)⟩

/-- A name is removed and another descriptor reads from the start: the next name is lost. -/
theorem reads_lose_name : ([.change fun _ => ⟨⟨[dot, dotDot, ['b']], by decide, by decide⟩,
      some ⟨[dot, dotDot, ['b'], ['c']], by decide, by decide⟩⟩, .getdents64 1 100 false,
    .getdents64 0 100 false].foldl (collect (fun _ => ()) 0) lettersRead).1 = [dot, dotDot, ['a'], ['c']] := by decide

end PowerArm.Overlay.Caches
