import PowerArm.Lib.KeyIndex
import PowerArm.Lib.Run

/-!
# Publishing a segment

`PublishTempSegment` and the file-level steps of `CompactSegments`, by any number of
processes on one namespace, and what `ProbeNewSegments` opens while they go on. A segment
is its index, each entry with what `Validate` says of it. `readable_kept`: a block that
could be read is not lost. `written_readable`: a block that was written behind names that
can be opened is found by a probe during which no fold renames segment 0.
-/

namespace PowerArm.CodeCache.Publish

open Function (update update_apply update_of_ne)

open Lib

structure Entry where
  guestOffset : Nat
  valid : Bool
  block : Nat
deriving DecidableEq, Repr

abbrev Segment := List Entry

def Segment.lookup (s : Segment) (guestOffset : Nat) : Option Entry :=
  (search Entry.guestOffset s guestOffset).filter Entry.valid

def maxSegments : Nat := 8

/-- What each segment name holds. A file that `Open` refuses is `some none`. -/
abbrev Names := Nat → Option (Option Segment)

def probeFrom (names : Names) (i : Nat) : Nat → List Segment
  | 0 => []
  | n + 1 => match (names i).join with
    | none => []
    | some s => s :: probeFrom names (i + 1) n

def probe (names : Names) : List Segment := probeFrom names 0 maxSegments

def lookup (segments : List Segment) (guestOffset : Nat) : Option Entry := segments.findSome? (·.lookup guestOffset)

/-- One valid entry per guest offset, earliest segment first. -/
def compact (inputs : List Segment) : Segment :=
  unique Entry.guestOffset (sortByKey Entry.guestOffset (inputs.flatten.filter Entry.valid))

/-! ## Publishers -/

inductive Phase where
  | start
  /-- Under the shared lock, about to link name `i`. -/
  | linking (i : Nat)
  | unlinked
  /-- Under the exclusive lock, in `CompactSegments`. -/
  | folding
  /-- `named` segments were opened and `out` is written to the temp file. -/
  | folded (named : Nat) (out : Segment)
  /-- Segment 0 is renamed; the names below `named` but 0 are to go. -/
  | renamed (named : Nat)
  | done (written : Bool)
deriving DecidableEq, Repr

def Phase.exclusive : Phase → Bool
  | .folding | .folded .. | .renamed _ => true
  | _ => false

def Phase.locked (phase : Phase) : Bool := phase.exclusive || phase matches .linking _

structure State (n : Nat) where
  names : Names
  /-- The segment each publisher is to publish, as `Open` reads its temp file. -/
  temp : Fin n → Option Segment
  phase : Fin n → Phase

/-- A publisher's step. `ok` is what the host decides: that the lock is got in time and the
fold is not deferred, that the call succeeds. -/
structure Event (n : Nat) where
  pid : Fin n
  ok : Bool

def State.next (σ : State n) (e : Event n) : Names × Phase :=
  match σ.phase e.pid with
  | .start =>
    if e.ok ∧ ∀ q, q ≠ e.pid → (σ.phase q).exclusive = false then (σ.names, .linking 0)
    else (σ.names, .unlinked)
  | .linking i =>
    if i < maxSegments ∧ e.ok then
      match σ.names i with
      | some _ => (σ.names, .linking (i + 1))
      | none => (update σ.names i (some (σ.temp e.pid)), .done true)
    else (σ.names, .unlinked)
  | .unlinked =>
    if e.ok ∧ ∀ q, q ≠ e.pid → (σ.phase q).locked = false then (σ.names, .folding)
    else (σ.names, .done false)
  | .folding =>
    let inputs := probe σ.names ++ (σ.temp e.pid).toList
    if inputs ≠ [] ∧ e.ok then (σ.names, .folded (probe σ.names).length (compact inputs))
    else (σ.names, .done false)
  | .folded named out =>
    if e.ok then (update σ.names 0 (some (some out)), .renamed named)
    else (σ.names, .done false)
  | .renamed named =>
    if 1 < named then (update σ.names (named - 1) none, .renamed (named - 1))
    else (σ.names, .done true)
  | .done written => (σ.names, .done written)

def State.move (σ : State n) (p : Fin n) (next : Names × Phase) : State n :=
  { σ with names := next.1, phase := update σ.phase p next.2 }

def State.step (σ : State n) (e : Event n) : State n := σ.move e.pid (σ.next e)

/-- `ProbeNewSegments` takes no lock: the events of `gaps i` come before it opens name `i`. -/
def probing (gaps : Nat → List (Event n)) (σ : State n) (i : Nat) : Nat → List Segment
  | 0 => []
  | k + 1 =>
    let σ := (gaps i).foldl State.step σ
    match (σ.names i).join with
    | none => []
    | some s => s :: probing gaps σ (i + 1) k

/-! ## What a reader finds -/

theorem mem_probeFrom (hj : j < n) (hopen : ∀ k ≤ j, (names (i + k)).join.isSome)
    (hs : names (i + j) = some (some s)) : s ∈ probeFrom names i n := by
  induction n generalizing i j with
  | zero => cases hj
  | succ n ih =>
    obtain ⟨first, hfirst⟩ := Option.isSome_iff_exists.mp (hopen 0 (Nat.zero_le j))
    rw [probeFrom, show (names i).join = some first from hfirst]
    cases j with
    | zero => simp_all
    | succ j =>
      refine List.mem_cons_of_mem _ (ih (j := j) (by omega) (fun k hk => ?_) ?_)
      · rw [show i + 1 + k = i + (k + 1) by omega]
        exact hopen (k + 1) (by omega)
      · rwa [show i + 1 + j = i + (j + 1) by omega]

theorem Segment.of_lookup {s : Segment} (h : s.lookup o = some e) : e ∈ s ∧ e.valid ∧ e.guestOffset = o := by
  simp only [Segment.lookup, Option.filter_eq_some_iff] at h
  obtain ⟨hmem, hkey⟩ := key_of_search h.1
  exact ⟨hmem, h.2, hkey⟩

theorem Segment.lookup_isSome {s : Segment} (hsorted : s.Pairwise fun a b => a.guestOffset < b.guestOffset)
    (he : e ∈ s) (hvalid : e.valid) : (s.lookup e.guestOffset).isSome := by
  have hfind : s.find? (·.guestOffset = e.guestOffset) = some e := by
    obtain ⟨pre, post, rfl⟩ := List.append_of_mem he
    refine List.find?_eq_some_iff_append.mpr ⟨by simp, pre, post, rfl, fun a ha => ?_⟩
    have hlt := (List.pairwise_append.mp hsorted).2.2 a ha e (by simp)
    simp [Nat.ne_of_lt hlt]
  simp [Segment.lookup, search_eq_find? hsorted, hfind, hvalid]

theorem lookup_compact (hs : s ∈ inputs) (he : e ∈ s) (hvalid : e.valid) :
    ((compact inputs).lookup e.guestOffset).isSome := by
  obtain ⟨hsorted, hfind⟩ := @find?_sortUnique _ Entry.guestOffset (inputs.flatten.filter Entry.valid)
  rw [Segment.lookup, compact, search_eq_find? hsorted, hfind]
  cases hfirst : (inputs.flatten.filter Entry.valid).find? (·.guestOffset = e.guestOffset) with
  | none =>
    have hmem : e ∈ inputs.flatten.filter Entry.valid :=
      List.mem_filter.mpr ⟨List.mem_flatten.mpr ⟨s, hs, he⟩, hvalid⟩
    simpa using List.find?_eq_none.mp hfirst e hmem
  | some first =>
    have hmem := (List.mem_filter.mp (List.mem_of_find?_eq_some hfirst)).2
    simp [hmem]

/-! ## Blocks that were there before -/

abbrev Readable (names : Names) (o : Nat) : Prop := (lookup (probe names) o).isSome

theorem probeFrom_link (hi : names i = none) (f : Option (Option Segment)) (n j : Nat) :
    probeFrom names j n <+: probeFrom (update names i f) j n := by
  induction n generalizing j with
  | zero => exact List.prefix_rfl
  | succ n ih =>
    by_cases hj : j = i
    · simp [probeFrom, hj, hi]
    · rw [probeFrom, probeFrom, update_of_ne hj]
      cases (names j).join with
      | none => exact List.prefix_rfl
      | some s => exact (List.prefix_cons_inj s).mpr (ih (j + 1))

theorem readable_iff : Readable names o ↔ ∃ s ∈ probe names, (s.lookup o).isSome := List.findSome?_isSome_iff

def First (names : Names) (o : Nat) : Prop := ∃ s, names 0 = some (some s) ∧ (s.lookup o).isSome

theorem First.readable (h : First names o) : Readable names o := by
  obtain ⟨s, hs, hlookup⟩ := h
  exact readable_iff.mpr ⟨s, by simp [probe, maxSegments, probeFrom, hs], hlookup⟩

/-- A fold that is under way has the block in its segment 0. -/
def Keeps (names : Names) (o : Nat) : Phase → Prop
  | .folded _ out => (out.lookup o).isSome
  | .renamed _ => First names o
  | _ => True

def State.Kept (σ : State n) (o : Nat) : Prop := Readable σ.names o ∧ ∀ p, Keeps σ.names o (σ.phase p)

theorem State.Kept.next {σ : State n} (h : σ.Kept o) (e : Event n) : Readable (σ.next e).1 o ∧
      (First σ.names o → First (σ.next e).1 o) ∧ Keeps (σ.next e).1 o (σ.next e).2 := by
  obtain ⟨hfound, hkeeps⟩ := h
  have hself := hkeeps e.pid
  unfold State.next
  cases hphase : σ.phase e.pid with
  | linking i =>
    dsimp only
    split
    · split
      · exact ⟨hfound, id, trivial⟩
      · next hnone =>
        obtain ⟨s, hs, hlookup⟩ := readable_iff.mp hfound
        have hmem := (probeFrom_link hnone (some (σ.temp e.pid)) maxSegments 0).subset hs
        refine ⟨readable_iff.mpr ⟨s, hmem, hlookup⟩, fun ⟨s, hs, hlookup⟩ => ⟨s, ?_, hlookup⟩, trivial⟩
        have hi : 0 ≠ i := by
          rintro rfl
          simp [hnone] at hs
        exact (update_of_ne hi _ _).trans hs
    · exact ⟨hfound, id, trivial⟩
  | folding =>
    dsimp only
    split
    · obtain ⟨s, hs, hlookup⟩ := readable_iff.mp hfound
      obtain ⟨entry, hentry⟩ := Option.isSome_iff_exists.mp hlookup
      obtain ⟨hmem, hvalid, rfl⟩ := Segment.of_lookup hentry
      exact ⟨hfound, id, lookup_compact (List.mem_append_left _ hs) hmem hvalid⟩
    · exact ⟨hfound, id, trivial⟩
  | folded named out =>
    rw [hphase] at hself
    dsimp only
    split
    · have hfirst : First (update σ.names 0 (some (some out))) o := ⟨out, by simp, hself⟩
      exact ⟨hfirst.readable, fun _ => hfirst, hfirst⟩
    · exact ⟨hfound, id, trivial⟩
  | renamed named =>
    rw [hphase] at hself
    obtain ⟨s, hs, hlookup⟩ := hself
    dsimp only
    split
    · have hfirst : First (update σ.names (named - 1) none) o := ⟨s, by rwa [update_of_ne (by omega)], hlookup⟩
      exact ⟨hfirst.readable, fun _ => hfirst, hfirst⟩
    · exact ⟨hfound, id, trivial⟩
  | start | unlinked =>
    dsimp only
    split <;> exact ⟨hfound, id, trivial⟩
  | done written => exact ⟨hfound, id, trivial⟩

theorem State.Kept.step {σ : State n} (h : σ.Kept o) (e : Event n) : (σ.step e).Kept o := by
  obtain ⟨hfound, hfirst, hself⟩ := h.next e
  refine ⟨hfound, fun q => ?_⟩
  by_cases hq : q = e.pid
  · simpa [State.step, State.move, hq] using hself
  · have hother := h.2 q
    simp only [State.step, State.move, update_of_ne hq]
    cases hphase : σ.phase q <;> simp_all [Keeps]

theorem State.Kept.run {σ : State n} (h : σ.Kept o) (events : List (Event n)) : (events.foldl State.step σ).Kept o := by
  induction events generalizing σ with
  | nil => exact h
  | cons e events ih => exact ih (h.step e)

/-- From any state in which nobody folds, with segments that can be opened or not: a block
that a reader finds is found after all further steps. The locks play no part. -/
theorem readable_kept (σ : State n) (hidle : ∀ p, (σ.phase p).exclusive = false) (o : Nat)
    (hfound : Readable σ.names o) (events : List (Event n)) :
    Readable (events.foldl State.step σ).names o := by
  have hkept : σ.Kept o := by
    refine ⟨hfound, fun p => ?_⟩
    have hp := hidle p
    cases hphase : σ.phase p <;> simp_all [Keeps, Phase.exclusive]
  exact (hkept.run events).1

/-- One publisher with one block. -/
def onePublisher (names : Names) : State 1 := ⟨names, fun _ => some [⟨16, true, 1⟩], fun _ => .start⟩

theorem readable_kept_onePublisher : Readable ([⟨0, true⟩, ⟨0, true⟩, ⟨0, true⟩].foldl State.step
    (onePublisher fun i => if i = 0 then some (some [⟨32, true, 2⟩]) else none)).names 32 :=
  readable_kept _ (fun _ => rfl) 32 (by decide) _

/-! ## Blocks that are written -/

def Has (temp : Option Segment) (guestOffset : Nat) : Prop :=
  ∃ s, temp = some s ∧ ∃ e ∈ s, e.valid ∧ e.guestOffset = guestOffset

/-- What a publisher has made sure of for a block of its segment. -/
def State.Good (σ : State n) (o : Nat) : Phase → Prop
  | .folded _ out => (out.lookup o).isSome
  | .renamed _ => First σ.names o
  | .done true => σ.Kept o
  | _ => True

structure State.Inv (σ : State n) (p : Fin n) : Prop where
  alone : ∀ q r, r ≠ q → (σ.phase q).exclusive = true → (σ.phase r).locked = false
  good : ∀ o, Has (σ.temp p) o → σ.Good o (σ.phase p)

/-- A publisher links its segment only behind names that can be opened. -/
def Clear (p : Fin n) (σ : State n) (e : Event n) : Prop :=
  e.pid = p → ∀ i, σ.phase p = .linking i → σ.names i = none → ∀ k < i, (σ.names k).join.isSome = true

section
variable {σ : State n} {p : Fin n}

theorem Phase.locked_of_exclusive {phase : Phase} (h : phase.exclusive) : phase.locked := by simp [Phase.locked, h]

/-- What another publisher may be doing while `q` holds a lock. -/
theorem State.Inv.others (h : σ.Inv p) (hq : (σ.phase q).locked) (r : Fin n) (hne : r ≠ q) :
    (σ.phase r).exclusive = false := by
  by_contra hr
  rw [h.alone r q hne.symm (by simpa using hr)] at hq
  cases hq

/-- The locks: what is got is free of others, and names change under a lock only. -/
theorem State.Inv.next (h : σ.Inv p) (e : Event n) :
    ((σ.next e).2.exclusive → ∀ q, q ≠ e.pid → (σ.phase q).locked = false) ∧
      ((σ.next e).2.locked → ∀ q, q ≠ e.pid → (σ.phase q).exclusive = false) ∧
      ((σ.phase e.pid).locked = false → (σ.next e).1 = σ.names) := by
  have halone := fun hp q hq => h.alone e.pid q hq hp
  have hothers := h.others (q := e.pid)
  unfold State.next
  cases hphase : σ.phase e.pid with
  | start =>
    dsimp only
    split
    next hfree => exact ⟨nofun, fun _ => hfree.2, fun _ => rfl⟩
    next => exact ⟨nofun, nofun, fun _ => rfl⟩
  | linking i =>
    rw [hphase] at hothers
    dsimp only
    split
    next =>
      split
      next => exact ⟨nofun, fun _ => hothers rfl, nofun⟩
      next => exact ⟨nofun, nofun, nofun⟩
    next => exact ⟨nofun, nofun, nofun⟩
  | unlinked =>
    dsimp only
    split
    next hfree =>
      refine ⟨fun _ => hfree.2, fun _ q hq => ?_, fun _ => rfl⟩
      by_contra hex
      have hlocked := Phase.locked_of_exclusive (by simpa using hex)
      rw [hfree.2 q hq] at hlocked
      cases hlocked
    next => exact ⟨nofun, nofun, fun _ => rfl⟩
  | folding | folded | renamed =>
    rw [hphase] at halone hothers
    dsimp only
    split
    next => exact ⟨fun _ => halone rfl, fun _ => hothers rfl, nofun⟩
    next => exact ⟨nofun, nofun, nofun⟩
  | done written => exact ⟨nofun, nofun, fun _ => rfl⟩

theorem State.Inv.alone_step (h : σ.Inv p) (e : Event n) (q r : Fin n) (hne : r ≠ q)
    (hq : ((σ.step e).phase q).exclusive = true) : ((σ.step e).phase r).locked = false := by
  obtain ⟨hexclusive, hlocked, -⟩ := h.next e
  simp only [State.step, State.move, update_apply] at hq ⊢
  split at hq
  next hqe =>
    subst hqe
    rw [if_neg hne]
    exact hexclusive hq r hne
  next hqe =>
    split
    next =>
      by_contra hlock
      rw [hlocked (by simpa using hlock) q hqe] at hq
      cases hq
    next => exact h.alone q r hne hq

/-- Nobody else folds, so that nothing else has to have the block. -/
theorem State.kept_done (hothers : ∀ q, q ≠ p → (σ.phase q).exclusive = false) (names : Names) (h : Readable names o) :
    (σ.move p (names, .done true)).Kept o := by
  refine ⟨h, fun q => ?_⟩
  by_cases hq : q = p
  · simp [State.move, hq, Keeps]
  · have hidle := hothers q hq
    simp only [State.move, update_of_ne hq]
    cases hphase : σ.phase q <;> simp_all [Keeps, Phase.exclusive]

theorem readable_link (hi : i < maxSegments) (hopen : ∀ k < i, (names k).join.isSome) (h : (Segment.lookup s o).isSome) :
    Readable (update names i (some (some s))) o := by
  refine readable_iff.mpr ⟨s, mem_probeFrom hi (fun k hk => ?_) (by simp), h⟩
  obtain hk | rfl := Nat.lt_or_eq_of_le hk
  · rw [Nat.zero_add, update_of_ne (Nat.ne_of_lt hk)]
    exact hopen k hk
  · simp

theorem State.Inv.good_step (h : σ.Inv p)
    (hsorted : ∀ s, σ.temp p = some s → s.Pairwise fun a b => a.guestOffset < b.guestOffset) (e : Event n)
    (hclear : Clear p σ e) (ho : Has (σ.temp p) o) :
    (σ.step e).Good o ((σ.step e).phase p) := by
  have hgood := h.good o ho
  by_cases hp : e.pid = p
  · subst hp
    have hothers := h.others (q := e.pid)
    have hphase' : (σ.step e).phase e.pid = (σ.next e).2 := by simp [State.step, State.move]
    rw [hphase']
    unfold State.step State.next
    cases hphase : σ.phase e.pid with
    | linking i =>
      rw [hphase] at hothers
      dsimp only
      split
      next hcond =>
        split
        next => trivial
        next hnone =>
          obtain ⟨s, hs, entry, hentry, hvalid, rfl⟩ := ho
          rw [hs]
          exact State.kept_done (hothers rfl) _ (readable_link hcond.1 (hclear rfl i hphase hnone)
            (Segment.lookup_isSome (hsorted s hs) hentry hvalid))
      next => trivial
    | folding =>
      obtain ⟨s, hs, entry, hentry, hvalid, rfl⟩ := ho
      dsimp only
      split
      next => exact lookup_compact (by simp [hs]) hentry hvalid
      next => trivial
    | folded named out =>
      rw [hphase] at hgood
      dsimp only
      split
      next => exact ⟨out, by simp [State.move], hgood⟩
      next => trivial
    | renamed named =>
      rw [hphase] at hgood hothers
      obtain ⟨s, hs, hlookup⟩ := hgood
      dsimp only
      split
      next hnamed => exact ⟨s, by simpa [State.move, update_of_ne (show 0 ≠ named - 1 by omega)] using hs, hlookup⟩
      next => exact State.kept_done (hothers rfl) _ (First.readable ⟨s, hs, hlookup⟩)
    | start | unlinked =>
      dsimp only
      split <;> trivial
    | done written =>
      rw [hphase] at hgood
      have hself : σ.move e.pid (σ.names, .done written) = σ := by simp [State.move, ← hphase]
      simpa only [hself] using hgood
  · have hphase' : (σ.step e).phase p = σ.phase p := update_of_ne (Ne.symm hp) _ _
    have hquiet (hex : (σ.phase p).exclusive) : (σ.step e).names = σ.names := (h.next e).2.2 (h.alone p e.pid hp hex)
    rw [hphase']
    cases hphase : σ.phase p with
    | folded named out => rwa [hphase] at hgood
    | renamed named =>
      rw [hphase] at hgood hquiet
      rw [State.Good, hquiet rfl]
      exact hgood
    | done written =>
      rw [hphase] at hgood
      cases written with
      | false => trivial
      | true => exact hgood.step e
    | _ => trivial

/-! ## The probe -/

/-- No fold renames segment 0. -/
def NoRename (σ : State n) (e : Event n) : Prop := ∀ named out, σ.phase e.pid = .folded named out → e.ok = false

/-- While a probe is between two opens no fold renames segment 0. -/
def Undisturbed (gaps : Nat → List (Event n)) (σ : State n) (i : Nat) : Nat → Prop
  | 0 => True
  | k + 1 => (i ≠ 0 → Admissible State.step NoRename σ (gaps i)) ∧
    let σ := (gaps i).foldl State.step σ
    ((σ.names i).join.isSome = true → Undisturbed gaps σ (i + 1) k)

/-- The names ahead of a probe hold the block, and no fold is to unlink them. -/
structure State.Ahead (σ : State n) (o i k : Nat) : Prop where
  found : ∃ s ∈ probeFrom σ.names i k, (s.lookup o).isSome
  whole : ∀ q named, σ.phase q ≠ .renamed named

theorem State.Ahead.step (σ : State n) (e : Event n) (h : σ.Ahead o i k) (hquiet : NoRename σ e) :
    (σ.step e).Ahead o i k := by
  have hnext : (∃ s ∈ probeFrom (σ.next e).1 i k, (s.lookup o).isSome) ∧ ∀ named, (σ.next e).2 ≠ .renamed named := by
    unfold State.next
    cases hphase : σ.phase e.pid with
    | linking j =>
      dsimp only
      split
      next =>
        split
        next => exact ⟨h.found, nofun⟩
        next hnone =>
          obtain ⟨s, hs, hlookup⟩ := h.found
          exact ⟨⟨s, (probeFrom_link hnone _ k i).subset hs, hlookup⟩, nofun⟩
      next => exact ⟨h.found, nofun⟩
    | folded named out =>
      rw [hquiet named out hphase]
      exact ⟨h.found, nofun⟩
    | renamed named => exact absurd hphase (h.whole e.pid named)
    | start | unlinked | folding =>
      dsimp only
      split <;> exact ⟨h.found, nofun⟩
    | done written => exact ⟨h.found, nofun⟩
  refine ⟨hnext.1, fun q named => ?_⟩
  by_cases hq : q = e.pid
  · simpa [State.step, State.move, hq] using hnext.2 named
  · simpa [State.step, State.move, hq] using h.whole q named

theorem mem_probing {gaps : Nat → List (Event n)} (hi : i ≠ 0) (h : σ.Ahead o i k) (hquiet : Undisturbed gaps σ i k) :
    ∃ s ∈ probing gaps σ i k, (s.lookup o).isSome := by
  induction k generalizing σ i with
  | zero => exact h.found
  | succ k ih =>
    obtain ⟨hgap, hrest⟩ := hquiet
    have hahead := foldl_invariant State.Ahead.step h (hgap hi)
    rw [probing]
    generalize (gaps i).foldl State.step σ = σ' at hahead hrest
    obtain ⟨s, hs, hlookup⟩ := hahead.found
    rw [probeFrom] at hs
    cases hopen : (σ'.names i).join with
    | none => simp [hopen] at hs
    | some first =>
      rw [hopen] at hs
      have hrest := hrest (by rw [hopen]; rfl)
      obtain rfl | hs := List.mem_cons.mp hs
      · exact ⟨s, .head _, hlookup⟩
      · obtain ⟨s, hs, hlookup⟩ := ih (Nat.succ_ne_zero i) ⟨⟨s, hs, hlookup⟩, hahead.whole⟩ hrest
        exact ⟨s, .tail _ hs, hlookup⟩

theorem State.Kept.mem_probing {gaps : Nat → List (Event n)} (h : σ.Kept o)
    (hquiet : Undisturbed gaps σ 0 maxSegments) : ∃ s ∈ probing gaps σ 0 maxSegments, (s.lookup o).isSome := by
  have hkept : ((gaps 0).foldl State.step σ).Kept o := h.run (gaps 0)
  obtain ⟨-, hrest⟩ := hquiet
  rw [show maxSegments = 7 + 1 from rfl, probing]
  generalize (gaps 0).foldl State.step σ = σ' at hkept hrest
  obtain ⟨s, hs, hlookup⟩ := readable_iff.mp hkept.1
  rw [probe, show maxSegments = 7 + 1 from rfl, probeFrom] at hs
  cases hopen : (σ'.names 0).join with
  | none => simp [hopen] at hs
  | some first =>
    rw [hopen] at hs
    have hrest := hrest (by rw [hopen]; rfl)
    by_cases hfirst : (first.lookup o).isSome
    · exact ⟨first, .head _, hfirst⟩
    obtain rfl | hs := List.mem_cons.mp hs
    · exact absurd hlookup hfirst
    -- a fold that has renamed segment 0 has left the block there
    have hwhole (q : Fin n) (named : Nat) : σ'.phase q ≠ .renamed named := by
      intro hq
      have hkeeps := hkept.2 q
      rw [hq] at hkeeps
      obtain ⟨s', hs', hlookup'⟩ := hkeeps
      simp_all
    obtain ⟨s, hs, hlookup⟩ := Publish.mem_probing Nat.one_ne_zero ⟨⟨s, hs, hlookup⟩, hwhole⟩ hrest
    exact ⟨s, .tail _ hs, hlookup⟩

end

/-- Once a publisher has written, behind names that could be opened: whoever probes the
namespace then finds each valid block of its segment, or an earlier valid entry for the
same offset, unless a fold renames segment 0 between two opens of the probe. -/
theorem written_readable (σ : State n) (p : Fin n)
    (hsorted : ∀ s, σ.temp p = some s → s.Pairwise fun a b => a.guestOffset < b.guestOffset)
    (hstart : ∀ q, σ.phase q = .start) (events : List (Event n)) (hclear : Admissible State.step (Clear p) σ events)
    (hwritten : (events.foldl State.step σ).phase p = .done true) (gaps : Nat → List (Event n))
    (hquiet : Undisturbed gaps (events.foldl State.step σ) 0 maxSegments) (o : Nat) (ho : Has (σ.temp p) o) :
    ∃ found, lookup (probing gaps (events.foldl State.step σ) 0 maxSegments) o = some found ∧
      found.valid = true ∧ found.guestOffset = o := by
  have hinit : σ.Inv p := by
    refine ⟨fun q r _ hq => ?_, fun o _ => ?_⟩
    · rw [hstart q] at hq
      cases hq
    · rw [hstart p]
      trivial
  have hstep (σ' : State n) (e : Event n) (h : σ'.Inv p ∧ σ'.temp = σ.temp) (hclear : Clear p σ' e) :
      (σ'.step e).Inv p ∧ (σ'.step e).temp = σ.temp :=
    ⟨⟨h.1.alone_step e, fun o => h.1.good_step (h.2 ▸ hsorted) e hclear⟩, h.2⟩
  have hrun := foldl_invariant hstep ⟨hinit, rfl⟩ hclear
  have hkept := hrun.1.good o (hrun.2 ▸ ho)
  rw [hwritten] at hkept
  obtain ⟨s, hs, hlookup⟩ := State.Kept.mem_probing hkept hquiet
  obtain ⟨found, hfound⟩ : ∃ found, lookup (probing gaps (events.foldl State.step σ) 0 maxSegments) o = some found :=
    Option.isSome_iff_exists.mp (List.findSome?_isSome_iff.mpr ⟨s, hs, hlookup⟩)
  obtain ⟨_, _, hfirst⟩ := List.exists_of_findSome?_eq_some hfound
  exact ⟨found, hfound, (Segment.of_lookup hfirst).2⟩

theorem written_readable_onePublisher :
    ∃ found, lookup (probing (fun _ => []) ([⟨0, true⟩, ⟨0, true⟩].foldl State.step (onePublisher fun _ => none))
      0 maxSegments) 16 = some found ∧ found.valid = true ∧ found.guestOffset = 16 := by
  refine written_readable (onePublisher fun _ => none) 0 ?_ (fun _ => rfl) [⟨0, true⟩, ⟨0, true⟩] ?_ (by decide)
    (fun _ => []) ?_ 16 ⟨_, rfl, ⟨16, true, 1⟩, by simp, rfl, rfl⟩
  · rintro _ ⟨⟩
    simp
  · refine ⟨nofun, fun _ i hi _ k hk => ?_, trivial⟩
    obtain rfl : 0 = i := by simpa [State.step, State.next, State.move, onePublisher] using hi
    cases hk
  · simp [Undisturbed, maxSegments, Admissible]

/-- A segment is linked behind an unreadable one, where no reader gets to; and a fold by
another process between the first two opens of a probe takes the block to a segment 0 that
the probe has passed. -/
theorem written_unreadable :
    (let σ := [⟨0, true⟩, ⟨0, true⟩, ⟨0, true⟩].foldl State.step (onePublisher fun i => if i = 0 then some none else none)
    σ.phase 0 = .done true ∧ lookup (probing (fun _ => []) σ 0 maxSegments) 16 = none) ∧
    (let σ : State 2 := [⟨0, true⟩, ⟨0, true⟩, ⟨0, true⟩].foldl State.step
      ⟨fun i => if i = 0 then some (some [⟨32, true, 2⟩]) else none, fun _ => some [⟨16, true, 1⟩], fun _ => .start⟩
    let fold := [⟨1, false⟩, ⟨1, true⟩, ⟨1, true⟩, ⟨1, true⟩, ⟨1, true⟩, ⟨1, true⟩]
    σ.phase 0 = .done true ∧ lookup (probing (fun i => if i = 1 then fold else []) σ 0 maxSegments) 16 = none) := by
  decide

end PowerArm.CodeCache.Publish
