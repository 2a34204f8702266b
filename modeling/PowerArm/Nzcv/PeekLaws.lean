import PowerArm.Decode.LayoutLaws
import PowerArm.Nzcv.Peek

/-!
# Peeked witnesses are in the unit's footprint

The hull starts as the decoded extent and only grows upwards: a witness below the
entry is refused. So each exit that is marked keeps its witness inside the extent
the unit ends with, however many exits come after it (`apply_covers`).
-/

namespace PowerArm.Nzcv

open Decode (Addr Word pageOf insertSorted)

/-! ## Where witnesses lie -/

/-- What holds of a witness and is kept by each word that can be read. -/
def KeptBy (read : Memory) (P : Witness → Prop) : Prop := ∀ w pc word, read pc = some word → P w → P (w.note pc)

section
variable {read : Memory} {P : Witness → Prop}

def Act.witness : Act → Witness
  | .go _ s => s.witness
  | .stop s => s.witness
  | .answer a => a.2

theorem act_witness (word : Word) (pc : Addr) (s : Scan) : (act none word pc s).witness = s.witness := by
  unfold act
  cases hk : (classifyWord word).kind <;> simp [hk, Act.witness]

def endWitness : Except Answer Scan → Witness
  | .ok s => s.witness
  | .error a => a.2

theorem walk_witness (hP : KeptBy read P) (left : Nat) (pc : Addr) (s : Scan)
    (h : P s.witness) : P (endWitness (walk read none left pc s)) := by
  induction left generalizing pc s with
  | zero =>
    unfold walk
    split
    · exact h
    · dsimp only
      split <;> exact h
  | succ left ih =>
    unfold walk
    split
    · exact h
    · dsimp only
      split
      · exact h
      · cases hread : read pc with
        | none => exact h
        | some word =>
          have hact : P (act none word pc
              { s with seen := pc :: s.seen, witness := s.witness.note pc }).witness := by
            rw [act_witness]
            exact hP s.witness pc word hread h
          dsimp only
          split
          · rename_i hgo
            rw [hgo] at hact
            exact ih _ _ hact
          · rename_i hstop
            rw [hstop] at hact
            exact hact
          · rename_i hanswer
            rw [hanswer] at hact
            exact hact

theorem drain_witness (hP : KeptBy read P) (fuel : Nat) (s : Scan) (h : P s.witness) :
    P (drain read none fuel s).2 := by
  induction fuel generalizing s with
  | zero => exact h
  | succ fuel ih =>
    unfold drain
    split
    · exact h
    · rename_i pc rest _
      have hwalk := walk_witness hP (maxInsnsPerPath + 1) pc { s with stack := rest } h
      split
      · rename_i hok
        rw [hok] at hwalk
        exact ih _ hwalk
      · rename_i herr
        rw [herr] at hwalk
        exact hwalk

theorem scan_witness (hP : KeptBy read P) (target : Addr) (h : P {}) :
    P (scanWitnessed target false read {}).2 := drain_witness hP _ _ h

end

def Below (a : Addr) : Prop := a.toNat + 4096 ≤ 2 ^ 64

/-- The words that can be read end below the last page; the check lets the wrapped last
word pass, whose end is 0. -/
def ReadsBelow (read : Memory) : Prop := ∀ pc word, read pc = some word → Below (pc + 4)

section
variable {read : Memory} {u : PeekUnit} {hull w : Witness} {op : ExitFunction} {p : Peek}

theorem scan_high (hread : ReadsBelow read) (target : Addr) : Below (scanWitnessed target false read {}).2.high := by
  refine scan_witness (P := fun w => Below w.high) ?_ target (by unfold Below; decide)
  intro w pc word hword hw
  unfold Witness.note
  dsimp only
  split
  · exact hread pc word hword
  · exact hw

/-! ## One exit -/

structure Witnessed (read : Memory) (u : PeekUnit) (op : ExitFunction) (w : Witness) : Prop where
  scan : ∃ target, op.constantTarget u.entry = some target ∧ scanWitnessed target false read {} = (.dead, w)
  above : u.entry ≤ w.low
  high : Below w.high

theorem merge_eq (h : ¬ w.Empty) : hull.merge w = ⟨if w.low < hull.low then w.low else hull.low,
      if hull.high < w.high then w.high else hull.high⟩ := if_neg h

theorem peekExit_some (hread : ReadsBelow read) (h : peekExit read u false hull op = some hull') :
    ∃ w, Witnessed read u op w ∧ ¬ w.Empty ∧ hull' = hull.merge w ∧ hull'.high - hull'.low ≤ hullBound := by
  unfold peekExit at h
  split at h
  · cases h
  · rename_i target htarget
    have hhigh := scan_high hread target
    split at h
    · cases h
    · dsimp only at h
      generalize hscan : scanWitnessed target false read {} = scan at h hhigh
      split at h
      · cases h
      · rename_i hdead
        split at h
        · cases h
        · rename_i hwindow
          split at h
          · cases h
          · rename_i hbound
            cases h
            simp only [not_or, not_not] at hdead hbound
            refine ⟨scan.2, ⟨⟨target, htarget, ?_⟩, ?_, hhigh⟩, hdead.2, rfl, ?_⟩
            · rw [hscan, ← hdead.1]
            · exact BitVec.not_lt.mp fun hlt => hwindow ⟨hlt, rfl⟩
            · exact BitVec.not_lt.mp hbound.2

/-! ## All exits -/

structure PeekOk (read : Memory) (u : PeekUnit) (p : Peek) : Prop where
  low : p.hull.low = u.extent.minAddress
  high : u.extent.maxAddress ≤ p.hull.high
  below : Below p.hull.high
  bound : p.anyDead = true → p.hull.high - p.hull.low ≤ hullBound
  marked : ∀ op, .exitFunction op ∈ p.blocks → op.nzcvDeadAtTarget = true →
    p.anyDead = true ∧ ∃ w, Witnessed read u op w ∧ w.high ≤ p.hull.high

theorem PeekOk.visit (H : PeekOk read u p) (hread : ReadsBelow read) (t : Terminator)
    (ht : ∀ op, t = .exitFunction op → op.nzcvDeadAtTarget = false) : PeekOk read u (p.visit read u false t) := by
  have hkeep : ∀ t, (∀ op, t = .exitFunction op → op.nzcvDeadAtTarget = false) →
      PeekOk read u { p with blocks := p.blocks ++ [t] } := by
    intro t ht
    refine { H with marked := fun op hop hdead => ?_ }
    rcases List.mem_append.mp hop with hop | hop
    · exact H.marked op hop hdead
    · rw [ht op (List.mem_singleton.mp hop).symm] at hdead
      cases hdead
  cases t with
  | other => exact hkeep .other nofun
  | exitFunction op =>
    cases hpeek : peekExit read u false p.hull op with
    | none =>
      simp only [Peek.visit, hpeek]
      exact hkeep _ ht
    | some hull =>
      simp only [Peek.visit, hpeek]
      obtain ⟨w, hw, hne, rfl, hbound⟩ := peekExit_some hread hpeek
      have hlow := H.low
      have hmin := u.below
      have habove := hw.above
      -- the witness is not below the entry, so the hull grows at its end only
      have hnlt : ¬ w.low < p.hull.low := by bv_omega
      have hmerge : p.hull.merge w = ⟨p.hull.low, if p.hull.high < w.high then w.high else p.hull.high⟩ := by
        rw [merge_eq hne, if_neg hnlt]
      have hhigh : p.hull.high ≤ (p.hull.merge w).high ∧ w.high ≤ (p.hull.merge w).high := by
        rw [hmerge]
        split
        · exact ⟨BitVec.le_of_lt ‹_›, BitVec.le_refl _⟩
        · exact ⟨BitVec.le_refl _, BitVec.not_lt.mp ‹_›⟩
      refine ⟨?_, BitVec.le_trans H.high hhigh.1, ?_, fun _ => hbound, ?_⟩
      · rw [hmerge]
        exact hlow
      · rw [hmerge]
        split
        · exact hw.high
        · exact H.below
      · intro op' hop' hdead
        refine ⟨rfl, ?_⟩
        rcases List.mem_append.mp hop' with hop' | hop'
        · obtain ⟨-, w', hw', hle⟩ := H.marked op' hop' hdead
          exact ⟨w', hw', BitVec.le_trans hle hhigh.1⟩
        · cases List.mem_singleton.mp hop'
          exact ⟨w, ⟨hw.scan, hw.above, hw.high⟩, hhigh.2⟩

theorem PeekOk.visits (hread : ReadsBelow read) (ts : List Terminator)
    (hts : ∀ op, .exitFunction op ∈ ts → op.nzcvDeadAtTarget = false) (H : PeekOk read u p) :
    PeekOk read u (ts.foldl (Peek.visit read u false) p) := by
  induction ts generalizing p with
  | nil => exact H
  | cons t ts ih =>
    refine ih (fun op hop => hts op (List.mem_cons_of_mem _ hop)) (H.visit hread t ?_)
    rintro op rfl
    exact hts op List.mem_cons_self

end

/-! ## Pages -/

section
variable {stop page x q : Addr} {pages : List Addr} {fuel : Nat}

theorem addPages_mono (h : q ∈ pages) : q ∈ addPages stop fuel page pages := by
  induction fuel generalizing page pages with
  | zero => exact h
  | succ fuel ih =>
    unfold addPages
    split
    · exact ih (Decode.mem_insertSorted.mpr (.inl h))
    · exact h

theorem mem_addPages (hstop : Below stop) (haligned : page.toNat % 4096 = 0)
    (hfuel : stop.toNat ≤ page.toNat + 4096 * fuel) (hpage : page.toNat ≤ x.toNat)
    (hx : x < stop) : pageOf x ∈ addPages stop fuel page pages := by
  have hx' : x.toNat < stop.toNat := hx
  unfold Below at hstop
  induction fuel generalizing page pages with
  | zero => omega
  | succ fuel ih =>
    have hlt : page < stop := Nat.lt_of_le_of_lt hpage hx'
    have hnext : (page + 4096).toNat = page.toNat + 4096 := by bv_omega
    unfold addPages
    rw [if_pos hlt]
    by_cases hsame : x.toNat < page.toNat + 4096
    · have heq : pageOf x = page := by
        refine BitVec.eq_of_toNat_eq ?_
        rw [Decode.toNat_pageOf]
        omega
      rw [heq]
      exact addPages_mono (Decode.mem_insertSorted.mpr (.inr rfl))
    · refine ih ?_ ?_ ?_ <;> omega

theorem addPages_fuel (hstop : Below stop) (hfuel : stop.toNat ≤ page.toNat + 4096 * fuel) :
    addPages stop (fuel + 1) page pages = addPages stop fuel page pages := by
  unfold Below at hstop
  induction fuel generalizing page pages with
  | zero =>
    have hge : ¬ page < stop := fun h => by
      have : page.toNat < stop.toNat := h
      omega
    exact if_neg hge
  | succ fuel ih =>
    rw [addPages]
    conv_rhs => rw [addPages]
    split
    · refine ih ?_
      have hnext : (page + 4096).toNat = page.toNat + 4096 := by bv_omega
      omega
    · rfl

theorem pageFuel_enough (h : start < stop) : stop.toNat ≤ (pageOf start).toNat + 4096 * pageFuel start stop := by
  have hsub : (stop - start).toNat = stop.toNat - start.toNat := BitVec.toNat_sub_of_le (BitVec.le_of_lt h)
  unfold pageFuel
  rw [Decode.toNat_pageOf]
  omega

theorem addPeekWitnessRange_pages {e : Extent} {start stop : Addr} (hstop : Below stop)
    (hle : start ≤ x) (hlt : x < stop) : pageOf x ∈ (e.addPeekWitnessRange start stop).codePages := by
  have hne : start < stop := Nat.lt_of_le_of_lt hle hlt
  unfold Extent.addPeekWitnessRange
  rw [if_neg (BitVec.not_le.mpr hne)]
  refine mem_addPages hstop ?_ (pageFuel_enough hne) ?_ hlt
  · rw [Decode.toNat_pageOf]
    omega
  · have hle' : start.toNat ≤ x.toNat := hle
    rw [Decode.toNat_pageOf]
    omega

end

/-! ## The pass -/

/-- The witness of a marked exit lies in the footprint the extent gives the unit. -/
structure Covered (read : Memory) (u : PeekUnit) (e : Extent) (op : ExitFunction) (w : Witness) :
    Prop extends Witnessed read u op w where
  hashed : w.high.toNat ≤ u.entry.toNat + (e.maxAddress - e.minAddress).toNat
  pages : ∀ x, w.low ≤ x → x < w.high → pageOf x ∈ e.codePages

section
variable {read : Memory} {u : PeekUnit} {p : Peek}

theorem PeekUnit.start_ok (u : PeekUnit) (h : ∃ op, .exitFunction op ∈ u.blocks) :
    PeekOk read u { hull := u.hull } := by
  obtain ⟨hlt, hbelow⟩ := u.decoded h
  have hhull : u.hull = ⟨u.extent.minAddress, u.extent.maxAddress⟩ := if_pos hlt
  rw [hhull]
  exact ⟨rfl, BitVec.le_refl _, hbelow, nofun, nofun⟩

theorem visits_other (h : ∀ op, .exitFunction op ∉ ts) :
    ts.foldl (Peek.visit read u false) p = { p with blocks := p.blocks ++ ts } := by
  induction ts generalizing p with
  | nil => simp
  | cons t ts ih =>
    cases t with
    | exitFunction op => exact absurd List.mem_cons_self (h op)
    | other =>
      rw [List.foldl_cons, ih fun op hop => h op (List.mem_cons_of_mem _ hop)]
      simp [Peek.visit]

theorem PeekOk.widened (H : PeekOk read u p) (hlt : u.extent.minAddress < u.extent.maxAddress) :
    (u.extent.addPeekWitnessRange p.hull.low p.hull.high).minAddress = u.extent.minAddress ∧
    (u.extent.addPeekWitnessRange p.hull.low p.hull.high).maxAddress = p.hull.high := by
  have hhigh := H.high
  unfold Extent.addPeekWitnessRange
  rw [H.low, if_neg (BitVec.not_le.mpr (Nat.lt_of_lt_of_le hlt hhigh))]
  refine ⟨if_neg (Nat.lt_irrefl _), ?_⟩
  dsimp only
  split
  · rfl
  · exact BitVec.le_antisymm hhigh (BitVec.not_lt.mp ‹_›)

theorem PeekOk.covered {op : ExitFunction} {w : Witness} (H : PeekOk read u p)
    (hlt : u.extent.minAddress < u.extent.maxAddress) (hw : Witnessed read u op w) (hle : w.high ≤ p.hull.high) :
    Covered read u (u.extent.addPeekWitnessRange p.hull.low p.hull.high) op w := by
  obtain ⟨hmin, hmax⟩ := H.widened hlt
  have hbelow : u.extent.minAddress.toNat ≤ u.entry.toNat := u.below
  have hhigh : u.extent.maxAddress.toNat ≤ p.hull.high.toNat := H.high
  have hle' : w.high.toNat ≤ p.hull.high.toNat := hle
  refine ⟨hw, ?_, fun x hx hx' => addPeekWitnessRange_pages H.below ?_ ?_⟩
  · rw [hmin, hmax, BitVec.toNat_sub_of_le (by bv_omega)]
    omega
  · rw [H.low]
    exact BitVec.le_trans u.below (BitVec.le_trans hw.above hx)
  · exact Nat.lt_of_lt_of_le hx' hle

theorem apply_covered (hread : ReadsBelow read) (mode : Mode) (u : PeekUnit) :
    (∀ op, .exitFunction op ∈ (u.apply read mode false).1 → op.nzcvDeadAtTarget →
      ∃ w, Covered read u (u.apply read mode false).2 op w) ∧
    (u.apply read mode false).2.minAddress = u.extent.minAddress ∧
    ((∃ op, .exitFunction op ∈ (u.apply read mode false).1 ∧ op.nzcvDeadAtTarget) →
      (u.apply read mode false).2.maxAddress - (u.apply read mode false).2.minAddress ≤ hullBound) := by
  have hsame : ∀ e : Extent, (∀ op, .exitFunction op ∈ u.blocks → op.nzcvDeadAtTarget →
      ∃ w, Covered read u e op w) ∧ u.extent.minAddress = u.extent.minAddress ∧
      ((∃ op, .exitFunction op ∈ u.blocks ∧ op.nzcvDeadAtTarget) → e.maxAddress - e.minAddress ≤ hullBound) := by
    intro e
    have hno : ∀ op, .exitFunction op ∈ u.blocks → op.nzcvDeadAtTarget ≠ true := fun op hop => by
      simp [u.unmarked op hop]
    exact ⟨fun op hop hdead => absurd hdead (hno op hop), rfl, fun ⟨op, hop, hdead⟩ => absurd hdead (hno op hop)⟩
  unfold PeekUnit.apply
  split
  · exact hsame _
  · by_cases hexit : ∃ op, .exitFunction op ∈ u.blocks
    · have hlt := (u.decoded hexit).1
      have hstart : PeekOk read u { hull := u.hull } := u.start_ok hexit
      have H := PeekOk.visits hread u.blocks u.unmarked hstart
      dsimp only
      split
      · rename_i hdead
        obtain ⟨hmin, hmax⟩ := H.widened hlt
        refine ⟨fun op hop hd => ?_, hmin, fun _ => ?_⟩
        · obtain ⟨-, w, hw, hle⟩ := H.marked op hop hd
          exact ⟨w, H.covered hlt hw hle⟩
        · rw [hmin, hmax, ← H.low]
          exact H.bound hdead
      · rename_i hdead
        refine ⟨fun op hop hd => ?_, rfl, fun ⟨op, hop, hd⟩ => ?_⟩
        · exact absurd (H.marked op hop hd).1 hdead
        · exact absurd (H.marked op hop hd).1 hdead
    · rw [visits_other fun op hop => hexit ⟨op, hop⟩]
      exact hsame _

end

/-! ## Guests -/

section
variable {g : Decode.Guest} {rs : Decode.ExecRanges}

theorem peekMemory_below (hr : g.ranges = some rs) : ReadsBelow (peekMemory g) := by
  intro pc word hword
  unfold peekMemory at hword
  split at hword
  · rename_i h
    obtain ⟨halign, hexec⟩ := h
    have hmod := Decode.toNat_mod_four halign
    unfold Below
    by_cases hlast : pc.toNat + 4 < 2 ^ 64
    · have hnext : (pc + 4).toNat = pc.toNat + 4 := by bv_omega
      rw [hnext]
      exact Decode.end_of_check hr (Decode.validFor_new _) hlast (by decide) hexec
    · have hzero : pc + 4 = 0 := by bv_omega
      rw [hzero]
      decide
  · cases hword

/-- The pass on any unit of any guest, with its exits in any order: a marked exit has its
witness between the entry and the end of the footprint the code cache hashes, on pages the
unit lists; the start of the extent stays; and a widened extent is within the bound. -/
theorem apply_covers (hr : g.ranges = some rs) (mode : Mode) (u : PeekUnit) :
    (∀ op, .exitFunction op ∈ (u.apply (peekMemory g) mode false).1 → op.nzcvDeadAtTarget = true →
      ∃ w, Covered (peekMemory g) u (u.apply (peekMemory g) mode false).2 op w) ∧
    (u.apply (peekMemory g) mode false).2.minAddress = u.extent.minAddress ∧
    ((∃ op, .exitFunction op ∈ (u.apply (peekMemory g) mode false).1 ∧ op.nzcvDeadAtTarget = true) →
      (u.apply (peekMemory g) mode false).2.maxAddress -
        (u.apply (peekMemory g) mode false).2.minAddress ≤ hullBound) :=
  apply_covered (peekMemory_below hr) mode u

end

def compareUnit : PeekUnit where
  entry := 0x10000
  extent := ⟨0x10000, 0x10004, [0x10000]⟩
  isbExitTargets := []
  blocks := [.exitFunction ⟨.none, .inlineEntrypointOffset false 8, false⟩]
  below := by decide
  decoded _ := by decide
  unmarked op hop := by
    cases List.mem_singleton.mp hop
    rfl

/-- A `b .+8` at `0x10000` to a `cmp`, with `nop` after it. The word 0 has no handler. -/
def compareGuest : Decode.Guest where
  mem a := [0x14000002, 0, 0xEB01001F].getD ((a - 0x10000).toNat / 4) 0xD503201F
  ranges := some Decode.nopRange
  config := { maxInstPerBlock := 64 }
  decode word := if word = 0 then none else some Decode.nopMatcher
  handled _ := true

theorem apply_covers_compare : compareUnit.apply (peekMemory compareGuest) .on false =
        ([.exitFunction ⟨.none, .inlineEntrypointOffset false 8, true⟩], ⟨0x10000, 0x1000c, [0x10000]⟩) ∧
      (∃ w, Covered (peekMemory compareGuest) compareUnit (compareUnit.apply (peekMemory compareGuest) .on false).2
        ⟨.none, .inlineEntrypointOffset false 8, true⟩ w) := by
  have heq : compareUnit.apply (peekMemory compareGuest) .on false =
      ([.exitFunction ⟨.none, .inlineEntrypointOffset false 8, true⟩],
        ⟨0x10000, 0x1000c, [0x10000]⟩) := by decide +kernel
  refine ⟨heq, (apply_covers rfl .on compareUnit).1 _ ?_ rfl⟩
  exact List.mem_cons_self

end PowerArm.Nzcv
