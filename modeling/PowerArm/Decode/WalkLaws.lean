import PowerArm.Decode.RangeLaws

/-!
# Walks of a compile unit

Two walks whose slots agree, each read at its own generation, stay in step
(`WalkEq`) and lay out the same blocks. `Closed` collects what a walk preserves
in the range cache and the stamps, and the last section shows that the loops
end by their own conditions.
-/

namespace PowerArm.Decode

/-! ## Slots -/

def IsGen (gen : BitVec 32) : Prop := gen &&& genMask = gen
def IsFlag (flag : BitVec 32) : Prop := flag &&& genMask = 0#32

theorem isFlag_decodedBit : IsFlag decodedBit := by unfold IsFlag; decide
theorem isFlag_leaderBit : IsFlag leaderBit := by unfold IsFlag; decide
theorem isFlag_stopBit : IsFlag stopBit := by unfold IsFlag; decide
theorem isGen_and (x : BitVec 32) : IsGen (x &&& genMask) := by rw [IsGen, BitVec.and_assoc, BitVec.and_self]

section
variable {s s' : Slots} {gen gen' flag : BitVec 32}

theorem or_and_genMask (hf : IsFlag flag) : (x ||| flag) &&& genMask = x &&& genMask := by
  rw [BitVec.and_or_distrib_right, hf, BitVec.or_zero]

theorem flag_and_not (hf : IsFlag flag) : flag &&& ~~~genMask = flag := by
  ext i hi
  have := congrArg (·[i]) hf
  grind

theorem gen_and_not (hg : IsGen gen) : gen &&& ~~~genMask = 0#32 := by
  rw [← hg, BitVec.and_assoc]
  simp

theorem flags_setFlag (hg : IsGen gen) (hf : IsFlag flag) (i j : Nat) : (s.setFlag gen i flag).flags gen j =
      if j = i then s.flags gen i ||| flag else s.flags gen j := by
  by_cases hj : j = i
  · subst hj
    simp only [Slots.flags, Slots.setFlag, Function.update_self, or_and_genMask hf,
      BitVec.and_or_distrib_right, flag_and_not hf]
    by_cases hs : s.stamp j &&& genMask = gen
    · simp [hs]
    · have hgen : gen &&& genMask = gen := hg
      simp [hs, hgen, gen_and_not hg]
  · simp [Slots.flags, Slots.setFlag, hj]

/-- A flag is set after `setFlag` if it was before, or if it is the one that was set. -/
theorem flag_setFlag (hg : IsGen gen) (hf : IsFlag flag) (i j : Nat) (bit : BitVec 32) :
    (s.setFlag gen i flag).flags gen j &&& bit ≠ 0 ↔ s.flags gen j &&& bit ≠ 0 ∨ j = i ∧ flag &&& bit ≠ 0 := by
  rw [flags_setFlag hg hf]
  by_cases hj : j = i
  · subst hj
    have hor : (s.flags gen j &&& bit) ||| (flag &&& bit) = 0 ↔
        s.flags gen j &&& bit = 0 ∧ flag &&& bit = 0 := BitVec.or_eq_zero_iff
    rw [if_pos rfl, BitVec.and_or_distrib_right]
    tauto
  · simp [hj]

theorem stamp_setFlag_and (hg : IsGen gen) (hf : IsFlag flag) (i : Nat) :
    (s.setFlag gen i flag).stamp i &&& genMask = gen := by
  simp only [Slots.setFlag, Function.update_self, or_and_genMask hf]
  split
  · assumption
  · exact hg

structure SlotsEq (gen gen' : BitVec 32) (s s' : Slots) : Prop where
  flags : ∀ i, s.flags gen i = s'.flags gen' i
  word : ∀ i, s.flags gen i &&& decodedBit ≠ 0 → s.word i = s'.word i
  matcher : ∀ i, s.flags gen i &&& decodedBit ≠ 0 → s.matcher i = s'.matcher i

section
variable (h : SlotsEq gen gen' s s') (hg : IsGen gen) (hg' : IsGen gen')
include h hg hg'

theorem SlotsEq.setFlag (hf : IsFlag flag) (hd : flag &&& decodedBit = 0#32) (i : Nat) :
    SlotsEq gen gen' (s.setFlag gen i flag) (s'.setFlag gen' i flag) := by
  have hkeep : ∀ j, (s.setFlag gen i flag).flags gen j &&& decodedBit = s.flags gen j &&& decodedBit := by
    intro j
    rw [flags_setFlag hg hf]
    split
    · rename_i hj
      rw [BitVec.and_or_distrib_right, hd, BitVec.or_zero, hj]
    · rfl
  refine ⟨fun j => ?_, fun j hj => ?_, fun j hj => ?_⟩
  · rw [flags_setFlag hg hf, flags_setFlag hg' hf, h.flags, h.flags]
  · exact h.word j (hkeep j ▸ hj)
  · exact h.matcher j (hkeep j ▸ hj)

theorem SlotsEq.fill (i : Nat) (word : Word) (m : Option InstMatcher) :
    SlotsEq gen gen' (((s.setWord i word).setFlag gen i decodedBit).setMatcher i m)
      (((s'.setWord i word).setFlag gen' i decodedBit).setMatcher i m) := by
  have hflags : ∀ (t : Slots) (g : BitVec 32), IsGen g → ∀ j,
      (((t.setWord i word).setFlag g i decodedBit).setMatcher i m).flags g j =
        if j = i then t.flags g i ||| decodedBit else t.flags g j := fun t g hgt j =>
    flags_setFlag hgt isFlag_decodedBit i j
  refine ⟨fun j => ?_, fun j hj => ?_, fun j hj => ?_⟩
  · rw [hflags s gen hg, hflags s' gen' hg', h.flags, h.flags]
  · by_cases hji : j = i
    · simp [Slots.setMatcher, Slots.setFlag, Slots.setWord, hji]
    · rw [hflags s gen hg, if_neg hji] at hj
      simpa [Slots.setMatcher, Slots.setFlag, Slots.setWord, hji] using h.word j hj
  · by_cases hji : j = i
    · simp [Slots.setMatcher, hji]
    · rw [hflags s gen hg, if_neg hji] at hj
      simpa [Slots.setMatcher, Slots.setFlag, Slots.setWord, hji] using h.matcher j hj

end

end

/-! ## Discovery -/

def Region.withGen (r : Region) (gen : BitVec 32) : Region := { r with gen }

section
variable (r : Region) (gen : BitVec 32) (a : Addr)

theorem withGen_gen : (r.withGen gen).gen = gen := rfl
theorem withGen_cap : (r.withGen gen).cap = r.cap := rfl
theorem withGen_followBranches : (r.withGen gen).followBranches = r.followBranches := rfl
theorem withGen_isbEndsBlock : (r.withGen gen).isbEndsBlock = r.isbEndsBlock := rfl
theorem withGen_slotOf : (r.withGen gen).slotOf a = r.slotOf a := rfl
theorem withGen_inWindow : (r.withGen gen).InWindow a = r.InWindow a := rfl

end

structure WalkEq (g : Guest) (r : Region) (gen' : BitVec 32) (w w' : Walk) : Prop where
  slots : SlotsEq r.gen gen' w.slots w'.slots
  leaders : w.leaders = w'.leaders
  worklist : w.worklist = w'.worklist
  decoded : w.decoded = w'.decoded
  cache : ValidFor g.ranges w.cache
  cache' : ValidFor g.ranges w'.cache

namespace WalkEq

variable {g : Guest} {r : Region} {gen' : BitVec 32} {w w' : Walk}

section
variable (h : WalkEq g r gen' w w')
include h

theorem flags (a : Addr) : w.flags r a = w'.flags (r.withGen gen') a := h.slots.flags _

theorem skips_iff (pc t : Addr) : w'.Skips (r.withGen gen') pc t ↔ w.Skips r pc t := by
  unfold Walk.Skips
  rw [← h.flags, ← h.leaders]
  rfl

theorem checkExec (a size : Addr) :
    WalkEq g r gen' (w.checkExec g a size).2 (w'.checkExec g a size).2 :=
  ⟨h.slots, h.leaders, h.worklist, h.decoded, checkRangeExecutable_valid h.cache,
    checkRangeExecutable_valid h.cache'⟩

theorem checkExec_inst (ha : a &&& 3 = 0) :
    (w.checkExec g a instructionSize).1 = (w'.checkExec g a instructionSize).1 :=
  (checkRangeExecutable_inst_cache h.cache ha).trans (checkRangeExecutable_inst_cache h.cache' ha).symm

theorem checkExec_hash (ha : Accepted g.ranges pc) :
    (w.checkExec g (pc + instructionSize) thunkHashSize).1 =
      (w'.checkExec g (pc + instructionSize) thunkHashSize).1 := by
  have key : ∀ v : Walk, ValidFor g.ranges v.cache → (v.checkExec g (pc + instructionSize) thunkHashSize).1 =
        (checkRangeExecutable g.ranges {} (pc + instructionSize) thunkHashSize).1 := by
    intro v hv
    rcases ha with hnone | ha
    · simp [Walk.checkExec, checkRangeExecutable, hnone]
    · refine checkRangeExecutable_cache hv ?_ (by decide)
      show (pc + 4 : Addr).toNat + 32 < _
      bv_omega
  rw [key w h.cache, key w' h.cache']

variable (hg : IsGen r.gen) (hg' : IsGen gen')
include hg hg'

theorem setFlag (hf : IsFlag flag)
    (hd : flag &&& decodedBit = 0#32) (a : Addr) :
    WalkEq g r gen' (w.setFlag r a flag) (w'.setFlag (r.withGen gen') a flag) :=
  ⟨h.slots.setFlag hg hg' hf hd _, h.leaders, h.worklist, h.decoded, h.cache, h.cache'⟩

theorem addLeader (t : Addr) :
    WalkEq g r gen' (w.addLeader r t) (w'.addLeader (r.withGen gen') t) :=
  ⟨h.slots.setFlag hg hg' isFlag_leaderBit (by decide) _, congrArg (· ++ [t]) h.leaders,
    congrArg (t :: ·) h.worklist, h.decoded, h.cache, h.cache'⟩

theorem follow (pc t : Addr) :
    WalkEq g r gen' (w.follow r pc t) (w'.follow (r.withGen gen') pc t) := by
  simp only [Walk.follow, h.skips_iff]
  split
  · exact h
  · exact h.addLeader hg hg' t

theorem foldl_follow (pc : Addr) (ts : List Addr) :
    WalkEq g r gen' (ts.foldl (Walk.follow r pc) w) (ts.foldl (Walk.follow (r.withGen gen') pc) w') := by
  induction ts generalizing w w' with
  | nil => exact h
  | cons t ts ih => exact ih (h.follow hg hg' pc t)

theorem matchWord (ha : Accepted g.ranges pc) :
    ((w.fetch g r pc).matchWord g r pc).1 = ((w'.fetch g (r.withGen gen') pc).matchWord g (r.withGen gen') pc).1 ∧
      WalkEq g r gen' ((w.fetch g r pc).matchWord g r pc).2
        ((w'.fetch g (r.withGen gen') pc).matchWord g (r.withGen gen') pc).2 := by
  have hfill := fun m => h.slots.fill hg hg' (r.slotOf pc) (g.mem pc) m
  have hhash := h.checkExec_hash ha
  have hdec : w.decoded + 1 = w'.decoded + 1 := by rw [h.decoded]
  by_cases hm : g.mem pc = thunkMarkerWord
  · simp only [Walk.matchWord, hm]
    have hsame : ((w.fetch g r pc).checkExec g (pc + instructionSize) thunkHashSize).1 =
        ((w'.fetch g (r.withGen gen') pc).checkExec g (pc + instructionSize) thunkHashSize).1 :=
      hhash
    rw [hsame]
    exact ⟨rfl, hfill _, h.leaders, h.worklist, hdec, checkRangeExecutable_valid h.cache,
      checkRangeExecutable_valid h.cache'⟩
  · simp only [Walk.matchWord, hm, if_false]
    exact ⟨trivial, hfill _, h.leaders, h.worklist, hdec, h.cache, h.cache'⟩

theorem endRun (pc : Addr) (ts : List Addr) :
    WalkEq g r gen' (w.endRun r pc ts) (w'.endRun (r.withGen gen') pc ts) := by
  have hs := h.setFlag hg hg' isFlag_stopBit (by decide) pc
  unfold Walk.endRun
  rw [withGen_followBranches]
  split
  · exact hs.foldl_follow hg hg' pc ts
  · exact hs

variable (hentry : Accepted g.ranges r.pc)
include hentry

theorem decodeOne (pc : Addr) :
    (w.decodeOne g r pc).2 = (w'.decodeOne g (r.withGen gen') pc).2 ∧
      WalkEq g r gen' (w.decodeOne g r pc).1 (w'.decodeOne g (r.withGen gen') pc).1 := by
  simp only [Walk.decodeOne, ← h.flags, withGen_inWindow]
  split
  · exact ⟨rfl, h⟩
  · next hstop =>
    have halign : pc &&& 3 = 0 := (not_not.mp (not_or.mp hstop).1).2.2
    -- the entry was checked before discovery, every other address is checked here
    obtain ⟨b, v, v', hc, hc', hv, hacc⟩ : ∃ b v v',
        (if pc = r.pc then (true, w) else w.checkExec g pc instructionSize) = (b, v) ∧
        (if pc = (r.withGen gen').pc then (true, w') else w'.checkExec g pc instructionSize) =
          (b, v') ∧ WalkEq g r gen' v v' ∧ (b → Accepted g.ranges pc) := by
      by_cases hpc : pc = r.pc
      · exact ⟨true, w, w', if_pos hpc, if_pos hpc, h, fun _ => hpc ▸ hentry⟩
      · exact ⟨_, (w.checkExec g pc instructionSize).2, (w'.checkExec g pc instructionSize).2,
          if_neg hpc, (if_neg hpc).trans (Prod.ext (h.checkExec_inst halign).symm rfl),
          h.checkExec pc instructionSize, accepted_of_check h.cache halign⟩
    rw [hc, hc']
    cases b with
    | false => exact ⟨rfl, hv⟩
    | true =>
      obtain ⟨hm, hw⟩ := hv.matchWord hg hg' (hacc rfl)
      simp only [if_true, ← hm]
      split
      · rw [withGen_isbEndsBlock]
        split
        · exact ⟨rfl, hw.endRun hg hg' pc _⟩
        · exact ⟨rfl, hw⟩
      · exact ⟨rfl, hw.setFlag hg hg' isFlag_stopBit (by decide) pc⟩

theorem decodeRun (n : Nat) (pc : Addr) :
    WalkEq g r gen' (w.decodeRun g r n pc) (w'.decodeRun g (r.withGen gen') n pc) := by
  induction n generalizing pc w w' with
  | zero => exact h
  | succ n ih =>
    obtain ⟨hb, hw⟩ := h.decodeOne hg hg' hentry pc
    simp only [Walk.decodeRun, ← hb]
    split
    · exact ih hw _
    · exact hw

theorem discover (n : Nat) :
    WalkEq g r gen' (w.discover g r n) (w'.discover g (r.withGen gen') n) := by
  induction n generalizing w w' with
  | zero => exact h
  | succ n ih =>
    unfold Walk.discover
    rw [← h.worklist, ← h.decoded]
    split
    · exact h
    · rename_i pc rest hwl
      rw [withGen_cap]
      split
      · have hpop : WalkEq g r gen' { w with worklist := rest }
            { w' with worklist := rest, decoded := w.decoded } :=
          ⟨h.slots, h.leaders, rfl, rfl, h.cache, h.cache'⟩
        exact ih (hpop.decodeRun hg hg' hentry _ pc)
      · exact h

end

end WalkEq

/-! ## Layout -/

theorem emitBlock_eq (h : SlotsEq r.gen gen' s s') (leader : Addr) (n : Nat) (pc : Addr) (e : Emit) :
    emitBlock r s leader n pc e = emitBlock (r.withGen gen') s' leader n pc e := by
  induction n generalizing pc e with
  | zero => rfl
  | succ n ih =>
    simp only [emitBlock, withGen_slotOf, withGen_gen, withGen_inWindow, ← h.flags]
    split
    · split
      · rfl
      · rename_i hgo
        have hd := (not_or.mp hgo).1
        rw [h.word _ hd, h.matcher _ hd]
        split
        · rfl
        · exact ih _ _
    · rfl

theorem layoutLeader_eq (h : SlotsEq r.gen gen' s s') (l : Layout) (leader : Addr) :
    layoutLeader r s l leader = layoutLeader (r.withGen gen') s' l leader := by
  unfold layoutLeader
  rw [withGen_gen, ← h.flags, emitBlock_eq h]
  rfl

theorem layoutBlocks_eq (h : WalkEq g r gen' w w') : layoutBlocks r w = layoutBlocks (r.withGen gen') w' := by
  unfold layoutBlocks
  rw [← h.leaders]
  have hstep : layoutLeader r w.slots = layoutLeader (r.withGen gen') w'.slots := by
    funext l leader
    exact layoutLeader_eq h.slots l leader
  rw [hstep]
  rfl

/-! ## One round -/

/-- The range cache after the check of an instruction; the entry is not checked again. -/
def Walk.cacheAt (w : Walk) (g : Guest) (r : Region) (pc : Addr) : ExecCache :=
  if pc = r.pc then w.cache else (checkRangeExecutable g.ranges w.cache pc instructionSize).2

/-- The matcher of the word at `pc`. A thunk marker without a readable hash is no thunk. -/
def Walk.matcherAt (w : Walk) (g : Guest) (r : Region) (pc : Addr) : Option InstMatcher :=
  if g.mem pc = thunkMarkerWord ∧
      (checkRangeExecutable g.ranges (w.cacheAt g r pc) (pc + instructionSize) thunkHashSize).1 = false
  then none else g.decode (g.mem pc)

def Walk.decodedAt (w : Walk) (g : Guest) (r : Region) (pc : Addr) : Walk :=
  { w with
    cache := if g.mem pc = thunkMarkerWord then
        (checkRangeExecutable g.ranges (w.cacheAt g r pc) (pc + instructionSize) thunkHashSize).2
      else w.cacheAt g r pc
    slots := ((w.slots.setWord (r.slotOf pc) (g.mem pc)).setFlag r.gen (r.slotOf pc)
      decodedBit).setMatcher (r.slotOf pc) (w.matcherAt g r pc)
    decoded := w.decoded + 1 }

section
variable {g : Guest} {r : Region} {w : Walk} {pc : Addr}

theorem fetch_matchWord (g : Guest) (r : Region) (w : Walk) (pc : Addr) :
    (({ w with cache := w.cacheAt g r pc } : Walk).fetch g r pc).matchWord g r pc =
      (w.matcherAt g r pc, w.decodedAt g r pc) := by
  unfold Walk.matchWord Walk.decodedAt
  by_cases hthunk : g.mem pc = thunkMarkerWord
  · have hm : w.matcherAt g r pc = if (checkRangeExecutable g.ranges (w.cacheAt g r pc)
        (pc + instructionSize) thunkHashSize).1 then g.decode (g.mem pc) else none := by
      unfold Walk.matcherAt
      cases (checkRangeExecutable g.ranges (w.cacheAt g r pc) (pc + instructionSize)
        thunkHashSize).1 <;> simp [hthunk]
    rw [if_pos hthunk, if_pos hthunk, hm]
    rfl
  · have hm : w.matcherAt g r pc = g.decode (g.mem pc) := if_neg fun h => hthunk h.1
    rw [if_neg hthunk, if_neg hthunk, hm]
    rfl

theorem decodeOne_cases (g : Guest) (r : Region) (w : Walk) (pc : Addr) :
    (¬ r.InWindow pc ∨ w.flags r pc &&& decodedBit ≠ 0) ∧ w.decodeOne g r pc = (w, false) ∨
    r.InWindow pc ∧ w.flags r pc &&& decodedBit = 0 ∧
      (pc ≠ r.pc ∧ (checkRangeExecutable g.ranges w.cache pc instructionSize).1 = false ∧
          w.decodeOne g r pc = ({ w with cache := w.cacheAt g r pc }, false) ∨
        (pc = r.pc ∨ (checkRangeExecutable g.ranges w.cache pc instructionSize).1) ∧ w.decodeOne g r pc =
            if (w.matcherAt g r pc).any g.handled then
              if endsBlock (g.mem pc) r.isbEndsBlock then
                ((w.decodedAt g r pc).endRun r pc (getDirectSuccessors (g.mem pc) pc), false)
              else (w.decodedAt g r pc, true)
            else ((w.decodedAt g r pc).setFlag r pc stopBit, false)) := by
  unfold Walk.decodeOne
  by_cases hstop : ¬ r.InWindow pc ∨ w.flags r pc &&& decodedBit ≠ 0
  · exact .inl ⟨hstop, if_pos hstop⟩
  · rw [if_neg hstop]
    obtain ⟨hin, hnew⟩ := not_or.mp hstop
    refine .inr ⟨not_not.mp hin, not_not.mp hnew, ?_⟩
    have hmatch := fetch_matchWord g r w pc
    by_cases hpc : pc = r.pc
    · have hcache : w.cacheAt g r pc = w.cache := if_pos hpc
      rw [hcache] at hmatch
      simp only [if_pos hpc]
      exact .inr ⟨.inl hpc, by rw [hmatch, if_pos trivial]⟩
    · have hcache : w.cacheAt g r pc = _ := if_neg hpc
      simp only [if_neg hpc, Walk.checkExec]
      rw [hcache] at hmatch
      cases hexec : (checkRangeExecutable g.ranges w.cache pc instructionSize).1 with
      | false => exact .inl ⟨hpc, rfl, by simp [hcache]⟩
      | true => exact .inr ⟨.inr rfl, by simp [hmatch]⟩

end

/-! ## What a walk can do to the cache and the stamps -/

/-- A property of the range cache and the stamps that every write a walk makes
preserves. -/
structure Closed (g : Guest) (r : Region) (P : ExecCache → (Nat → BitVec 32) → Prop) : Prop where
  check : ∀ c st a size, P c st → P (checkRangeExecutable g.ranges c a size).2 st
  flag : ∀ c (s : Slots) a flag, IsFlag flag → P c s.stamp → P c (s.setFlag r.gen (r.slotOf a) flag).stamp

/-- The property, of the cache and the stamps of a walk. -/
abbrev Walk.Keeps (w : Walk) (P : ExecCache → (Nat → BitVec 32) → Prop) : Prop := P w.cache w.slots.stamp

namespace Closed

variable {g : Guest} {r : Region} {P : ExecCache → (Nat → BitVec 32) → Prop} {w : Walk}

section
variable (hP : Closed g r P)
include hP

theorem follow (h : w.Keeps P) (pc t : Addr) : (w.follow r pc t).Keeps P := by
  unfold Walk.follow
  split
  · exact h
  · exact hP.flag _ _ _ _ isFlag_leaderBit h

theorem endRun (h : w.Keeps P) (pc : Addr) (ts : List Addr) : (w.endRun r pc ts).Keeps P := by
  have hs : (w.setFlag r pc stopBit).Keeps P := hP.flag _ _ _ _ isFlag_stopBit h
  unfold Walk.endRun
  split
  · generalize w.setFlag r pc stopBit = v at hs
    induction ts generalizing v with
    | nil => exact hs
    | cons t ts ih => exact ih _ (hP.follow hs pc t)
  · exact hs

theorem cacheAt (h : P w.cache st) (pc : Addr) : P (w.cacheAt g r pc) st := by
  unfold Walk.cacheAt
  split
  · exact h
  · exact hP.check _ _ _ _ h

theorem decodedAt (h : w.Keeps P) (pc : Addr) : (w.decodedAt g r pc).Keeps P := by
  have hf : P (w.cacheAt g r pc) (w.decodedAt g r pc).slots.stamp :=
    hP.flag _ (w.slots.setWord (r.slotOf pc) (g.mem pc)) pc _ isFlag_decodedBit (hP.cacheAt h pc)
  simp only [Walk.decodedAt] at hf ⊢
  split
  · exact hP.check _ _ _ _ hf
  · exact hf

theorem decodeOne (h : w.Keeps P) (pc : Addr) : (w.decodeOne g r pc).1.Keeps P := by
  have hc := hP.cacheAt h pc
  have hm := hP.decodedAt h pc
  obtain ⟨-, heq⟩ | ⟨-, -, ⟨-, -, heq⟩ | ⟨-, heq⟩⟩ := decodeOne_cases g r w pc
  · rw [heq]
    exact h
  · rw [heq]
    exact hc
  · rw [heq]
    split
    · split
      · exact hP.endRun hm pc _
      · exact hm
    · exact hP.flag _ _ _ _ isFlag_stopBit hm

theorem decodeRun (h : w.Keeps P) (n : Nat) (pc : Addr) : (w.decodeRun g r n pc).Keeps P := by
  induction n generalizing w pc with
  | zero => exact h
  | succ n ih =>
    have h1 := hP.decodeOne h pc
    unfold Walk.decodeRun
    dsimp only
    split
    · exact ih h1 _
    · exact h1

theorem discover (h : w.Keeps P) (fuel : Nat) : (w.discover g r fuel).Keeps P := by
  induction fuel generalizing w with
  | zero => exact h
  | succ fuel ih =>
    unfold Walk.discover
    split
    · exact h
    · rename_i rest _
      split
      · exact ih (hP.decodeRun (w := { w with worklist := rest }) h _ _)
      · exact h

end

theorem walk {d : Decoder} (hP : Closed g (d.region g c) P) (h : P d.cache d.slots.stamp) : (d.walk g c).Keeps P :=
  hP.discover (hP.flag _ _ _ _ isFlag_leaderBit h) _

end Closed

/-! ## The loops end by their own conditions -/

section
variable {g : Guest} {r : Region} {w : Walk}

/-- One round decodes at most one instruction and adds at most two leaders, and
none unless it decodes. -/
structure Grows (k : Nat) (w w' : Walk) : Prop where
  decoded_le : w.decoded ≤ w'.decoded
  decoded_add : w'.decoded ≤ w.decoded + k
  worklist : w'.worklist.length ≤ w.worklist.length + 2 * (w'.decoded - w.decoded)

theorem follow_worklist (pc t : Addr) : (w.follow r pc t).worklist.length ≤ w.worklist.length + 1 ∧
      (w.follow r pc t).decoded = w.decoded := by
  unfold Walk.follow
  split
  · exact ⟨by omega, rfl⟩
  · exact ⟨by simp [Walk.addLeader], rfl⟩

theorem foldl_follow_worklist (pc : Addr) (ts : List Addr) :
    (ts.foldl (Walk.follow r pc) w).worklist.length ≤ w.worklist.length + ts.length ∧
      (ts.foldl (Walk.follow r pc) w).decoded = w.decoded := by
  induction ts generalizing w with
  | nil => exact ⟨by simp, rfl⟩
  | cons t ts ih =>
    obtain ⟨h1, h2⟩ := follow_worklist pc t
    obtain ⟨h3, h4⟩ := @ih (w.follow r pc t)
    exact ⟨by simp only [List.foldl_cons, List.length_cons]; omega, h4.trans h2⟩

theorem length_getDirectSuccessors (word : Word) (pc : Addr) : (getDirectSuccessors word pc).length ≤ 2 := by
  unfold getDirectSuccessors
  split
  · simp
  · split
    · simp
    · split
      · split <;> simp
      · simp

theorem endRun_grows {v : Walk} (pc : Addr) (hd : v.decoded = w.decoded + 1) (hw : v.worklist = w.worklist)
    (word : Word) : Grows 1 w (v.endRun r pc (getDirectSuccessors word pc)) := by
  have hlen := length_getDirectSuccessors word pc
  obtain ⟨h1, h2⟩ := foldl_follow_worklist (r := r) pc (getDirectSuccessors word pc)
  have hd' : (v.setFlag r pc stopBit).decoded = w.decoded + 1 := hd
  have hw' : (v.setFlag r pc stopBit).worklist = w.worklist := hw
  rw [hw'] at h1
  unfold Walk.endRun
  dsimp only
  split
  · exact ⟨by omega, by omega, by omega⟩
  · exact ⟨by omega, by omega, by rw [hw']; omega⟩

theorem decodeOne_grows (pc : Addr) : Grows 1 w (w.decodeOne g r pc).1 := by
  have hone : ∀ v : Walk, v.worklist = w.worklist → v.decoded = w.decoded + 1 → Grows 1 w v :=
    fun v hw hd => ⟨by omega, by omega, by rw [hw]; omega⟩
  have hsame : ∀ v : Walk, v.worklist = w.worklist → v.decoded = w.decoded → Grows 1 w v :=
    fun v hw hd => ⟨by omega, by omega, by rw [hw]; omega⟩
  obtain ⟨-, heq⟩ | ⟨-, -, ⟨-, -, heq⟩ | ⟨-, heq⟩⟩ := decodeOne_cases g r w pc
  · rw [heq]
    exact hsame w rfl rfl
  · rw [heq]
    exact hsame _ rfl rfl
  · rw [heq]
    split
    · split
      · exact endRun_grows (v := w.decodedAt g r pc) pc rfl rfl _
      · exact hone _ rfl rfl
    · exact hone _ rfl rfl

theorem Grows.trans (h : Grows j w w') (h' : Grows k w' w'') : Grows (j + k) w w'' := by
  have h1 := h.decoded_le
  have h2 := h.decoded_add
  have h3 := h.worklist
  have h1' := h'.decoded_le
  have h2' := h'.decoded_add
  have h3' := h'.worklist
  exact ⟨by omega, by omega, by omega⟩

theorem decodeRun_grows (n : Nat) (pc : Addr) : Grows n w (w.decodeRun g r n pc) := by
  induction n generalizing w pc with
  | zero => exact ⟨le_rfl, le_rfl, by simp [Walk.decodeRun]⟩
  | succ n ih =>
    have h1 := decodeOne_grows (w := w) (g := g) (r := r) pc
    unfold Walk.decodeRun
    dsimp only
    split
    · rw [Nat.add_comm]
      exact h1.trans (ih _)
    · exact ⟨h1.decoded_le, by have := h1.decoded_add; omega, h1.worklist⟩

theorem discover_done (hf : w.worklist.length + 2 * (r.cap - w.decoded) ≤ fuel) :
    (w.discover g r fuel).worklist = [] ∨ ¬ (w.discover g r fuel).decoded < r.cap := by
  induction fuel generalizing w with
  | zero => exact .inl (List.eq_nil_of_length_eq_zero (by simp only [Walk.discover]; omega))
  | succ fuel ih =>
    unfold Walk.discover
    split
    · exact .inl ‹_›
    · rename_i pc rest hwl
      split
      · have hg := decodeRun_grows (w := { w with worklist := rest }) (g := g) (r := r) (r.cap - w.decoded) pc
        have h1 := hg.decoded_le
        have h2 := hg.decoded_add
        have h3 := hg.worklist
        rw [hwl] at hf
        simp only [List.length_cons] at hf
        dsimp only at h1 h2 h3
        exact ih (by omega)
      · exact .inr ‹_›

/-- Discovery leaves nothing to visit unless the cap is reached. -/
theorem discovery_ends (d : Decoder) (g : Guest) (c : Call) :
    (d.walk g c).worklist = [] ∨ ¬ (d.walk g c).decoded < effectiveCap g.config c.maxInst := by
  refine discover_done ?_
  show 1 + 2 * (effectiveCap g.config c.maxInst - 0) ≤ 2 * effectiveCap g.config c.maxInst + 1
  omega

theorem emitBlock_outside (h : ¬ r.InWindow pc) : emitBlock r s leader n pc e = e := by
  cases n with
  | zero => rfl
  | succ n => rw [emitBlock, if_neg h]

theorem emitBlock_fuel (hn : (r.windowHigh - pc).toNat / 4 + 1 ≤ n) (hpc : pc ≤ r.windowHigh)
    (hwrap : r.windowHigh.toNat + 4 < 2 ^ 64) : emitBlock r s leader (n + 1) pc e = emitBlock r s leader n pc e := by
  induction n generalizing pc e with
  | zero => omega
  | succ n ih =>
    rw [emitBlock]
    conv_rhs => rw [emitBlock]
    split
    · dsimp only
      split
      · rfl
      · split
        · rfl
        · have hnext : (pc + instructionSize).toNat = pc.toNat + 4 := by
            show (pc + 4).toNat = _
            bv_omega
          by_cases hle : pc + instructionSize ≤ r.windowHigh
          · refine ih ?_ hle
            bv_omega
          · have hout : ¬ r.InWindow (pc + instructionSize) := fun h => hle h.2.1
            rw [emitBlock_outside hout, emitBlock_outside hout]
    · rfl

end

end PowerArm.Decode
