import PowerArm.Decode.LayoutLaws

/-!
# The predecessor census

A block with a single predecessor inside its unit may go on with what the
translation of that predecessor knew, so the census must not miss a way in.
`inUnitTargets` says where the translation of a block goes on inside the unit.
A call is translated to a jump when its target is a block of the unit, but the
census gives it a fallthrough edge only. `census_sound_iff` says when that does
no harm, and `census_missesCall` is a unit where it does.
-/

namespace PowerArm.Decode

/-! ## Where a block goes on -/

def isBL (word : Word) : Prop := word &&& 0xFC000000 = 0x94000000

instance (word : Word) : Decidable (isBL word) := inferInstanceAs (Decidable (_ = _))

def branchTarget (word : Word) (pc : Addr) : Addr := pc + signExtendImm (word &&& 0x03FFFFFF) 26 * 4

/-- Where the handler of a block's last instruction goes on, if there is a block:
`B_uncond`, `BL`, `CompareBranch`, `TestBranch` and `B_cond`. What is no direct
branch can at most reach the next instruction. -/
def translatedTargets (word : Word) (pc : Addr) : List Addr :=
  if word &&& 0xFC000000 = 0x14000000 ∨ isBL word then [branchTarget word pc]
  else if word &&& 0x7E000000 = 0x34000000 then
    [pc + signExtendImm (word >>> 5 &&& 0x7FFFF) 19 * 4, pc + instructionSize]
  else if word &&& 0x7E000000 = 0x36000000 then
    [pc + signExtendImm (word >>> 5 &&& 0x3FFF) 14 * 4, pc + instructionSize]
  else if word &&& 0xFE000000 = 0x54000000 then
    let taken := pc + signExtendImm (word >>> 5 &&& 0x7FFFF) 19 * 4
    if 0xE ≤ word &&& 0xF then [taken] else [taken, pc + instructionSize]
  else [pc + instructionSize]

def DecodedBlock.handledLast (b : DecodedBlock) (g : Guest) : Option DecodedInst :=
  b.instructions.getLast?.filter fun last => decide (b.status = .success) && last.matcher.any g.handled

def inUnitTargets (g : Guest) (b : DecodedBlock) : List Addr :=
  match b.handledLast g with
  | some last => translatedTargets last.word last.pc
  | none => (b.instructions.getLast?.map fun last => last.pc + instructionSize).toList

def callTarget (g : Guest) (b : DecodedBlock) : Option Addr :=
  (b.handledLast g).bind fun last =>
    if isBL last.word then some (branchTarget last.word last.pc) else none

def CensusSound (g : Guest) (blocks : List DecodedBlock) : Prop :=
  ∀ c ∈ blocks,
    (c.isEntryPoint = false → c.predCount = 1 →
      ∀ b ∈ blocks, c.entry ∈ inUnitTargets g b → b.entry = c.solePredEntry) ∧
    (c.predCount = 0 → ∀ b ∈ blocks, c.entry ∉ inUnitTargets g b)

/-! ## The edges that are counted -/

def countedEdges (g : Guest) (blocks : List DecodedBlock) : List (Addr × Addr) :=
  blocks.flatMap fun b => (censusTargets g b).map fun t => (b.entry, t)

def predsOf (edges : List (Addr × Addr)) (target : Addr) : List Addr :=
  (edges.filter fun e => e.2 = target).map Prod.fst

/-- Every call to a block of the unit goes to one that a counted edge enters; to one that is
no entry point two edges do, or the call falls through to it. -/
def CallsCounted (g : Guest) (blocks : List DecodedBlock) : Prop :=
  ∀ b ∈ blocks, ∀ c ∈ blocks, callTarget g b = some c.entry → predsOf (countedEdges g blocks) c.entry ≠ [] ∧
    (c.isEntryPoint = false →
      2 ≤ (predsOf (countedEdges g blocks) c.entry).length ∨ b.entry ∈ predsOf (countedEdges g blocks) c.entry)

section
variable {g : Guest} {blocks : List DecodedBlock} {b c : DecodedBlock}

theorem mem_predsOf : p ∈ predsOf edges t ↔ (p, t) ∈ edges := by simp [predsOf]

theorem mem_countedEdges : (p, t) ∈ countedEdges g blocks ↔ ∃ b ∈ blocks, b.entry = p ∧ t ∈ censusTargets g b := by
  simp only [countedEdges, List.mem_flatMap, List.mem_map, Prod.mk.injEq]
  constructor
  · rintro ⟨b, hb, t', ht, rfl, rfl⟩
    exact ⟨b, hb, rfl, ht⟩
  · rintro ⟨b, hb, rfl, ht⟩
    exact ⟨b, hb, t, ht, rfl, rfl⟩

theorem addPred_entry (b : DecodedBlock) (pred : Addr) : (b.addPred pred).entry = b.entry := rfl

section
variable (hnodup : (blocks.map DecodedBlock.entry).Nodup)
include hnodup

theorem addPredTo_eq_map (pred target : Addr) :
    addPredTo pred target blocks = blocks.map fun c => if c.entry = target then c.addPred pred else c := by
  induction blocks with
  | nil => rfl
  | cons b blocks ih =>
    obtain ⟨hb, hnodup⟩ := List.nodup_cons.mp hnodup
    unfold addPredTo
    split
    · rename_i heq
      subst heq
      have hrest : blocks.map (fun c => if c.entry = b.entry then c.addPred pred else c) = blocks := by
        refine (List.map_congr_left fun c hc => if_neg fun h => ?_).trans (List.map_id' blocks)
        exact hb (List.mem_map.mpr ⟨c, hc, h⟩)
      simp [hrest]
    · rename_i hne
      simp [hne, ih hnodup]

theorem foldl_addPredTo (edges : List (Addr × Addr)) :
    edges.foldl (fun acc e => addPredTo e.1 e.2 acc) blocks =
      blocks.map fun c => (predsOf edges c.entry).foldl DecodedBlock.addPred c := by
  induction edges generalizing blocks with
  | nil => simp [predsOf]
  | cons e edges ih =>
    have hentries : (blocks.map fun c => if c.entry = e.2 then c.addPred e.1 else c).map
        DecodedBlock.entry = blocks.map DecodedBlock.entry := by
      rw [List.map_map]
      refine List.map_congr_left fun c _ => ?_
      simp only [Function.comp]
      split <;> rfl
    rw [List.foldl_cons, addPredTo_eq_map hnodup, ih (hentries ▸ hnodup), List.map_map]
    refine List.map_congr_left fun c _ => ?_
    simp only [Function.comp]
    by_cases h : c.entry = e.2
    · rw [if_pos h, addPred_entry]
      simp [predsOf, h]
    · rw [if_neg h]
      simp [predsOf, Ne.symm h]

theorem census_eq : census g blocks =
      blocks.map fun c => (predsOf (countedEdges g blocks) c.entry).foldl DecodedBlock.addPred c := by
  rw [← foldl_addPredTo hnodup, countedEdges, List.foldl_flatMap]
  simp only [List.foldl_map]
  rfl

end

theorem foldl_addPred_saturated (hc : c.predCount = 2) (hs : c.solePredEntry = 0)
    (preds : List Addr) : preds.foldl DecodedBlock.addPred c = c := by
  induction preds with
  | nil => rfl
  | cons p preds ih =>
    have hadd : c.addPred p = c := by
      cases c
      simp_all [DecodedBlock.addPred]
    rw [List.foldl_cons, hadd, ih]

theorem foldl_addPred (hc : c.predCount = 0) (hs : c.solePredEntry = 0) (preds : List Addr) :
    preds.foldl DecodedBlock.addPred c = { c with
        predCount := min 2 preds.length
        solePredEntry := match preds with | [p] => p | _ => 0 } := by
  match preds with
  | [] =>
    cases c
    simp_all
  | [p] => simp [DecodedBlock.addPred, hc]
  | p :: q :: preds =>
    have htwo : (c.addPred p).addPred q = { c with predCount := 2, solePredEntry := 0 } := by
      simp [DecodedBlock.addPred, hc]
    rw [List.foldl_cons, List.foldl_cons, htwo, foldl_addPred_saturated rfl rfl]
    simp

/-! ## Edges against targets -/

theorem translatedTargets_direct (hcall : ¬ isBL word) (pc : Addr) : translatedTargets word pc =
      if getDirectSuccessors word pc = [] then [pc + instructionSize]
      else getDirectSuccessors word pc := by
  by_cases hb : word &&& 0xFC000000 = 0x14000000
  · have hs : getDirectSuccessors word pc = [branchTarget word pc] := if_pos hb
    rw [hs]
    exact if_pos (.inl hb)
  have hnb : ¬ (word &&& 0xFC000000 = 0x14000000 ∨ isBL word) := not_or.mpr ⟨hb, hcall⟩
  by_cases hcb : word &&& 0x7E000000 = 0x34000000
  · have htb : ¬ word &&& 0x7E000000 = 0x36000000 := fun h => absurd (hcb.symm.trans h) (by decide)
    have hs : getDirectSuccessors word pc =
        [pc + signExtendImm (word >>> 5 &&& 0x7FFFF) 19 * 4, pc + instructionSize] := by
      unfold getDirectSuccessors
      rw [if_neg hb, if_pos (Or.inl hcb), if_neg htb]
    rw [hs, if_neg (List.cons_ne_nil _ _), translatedTargets, if_neg hnb, if_pos hcb]
  by_cases htb : word &&& 0x7E000000 = 0x36000000
  · have hs : getDirectSuccessors word pc =
        [pc + signExtendImm (word >>> 5 &&& 0x3FFF) 14 * 4, pc + instructionSize] := by
      unfold getDirectSuccessors
      rw [if_neg hb, if_pos (Or.inr htb), if_pos htb]
    rw [hs, if_neg (List.cons_ne_nil _ _), translatedTargets, if_neg hnb, if_neg hcb, if_pos htb]
  unfold translatedTargets getDirectSuccessors
  rw [if_neg hnb, if_neg hcb, if_neg htb, if_neg hb, if_neg (not_or.mpr ⟨hcb, htb⟩)]
  by_cases hcond : word &&& 0xFE000000 = 0x54000000
  · rw [if_pos hcond, if_pos hcond]
    by_cases hal : word &&& 0xF < 0xE
    · rw [if_neg (BitVec.not_le.mpr hal), if_pos hal, if_neg (List.cons_ne_nil _ _)]
    · rw [if_pos (BitVec.not_lt.mp hal), if_neg hal, if_neg (List.cons_ne_nil _ _)]
  · rw [if_neg hcond, if_neg hcond, if_pos rfl]

def EndsAt (b : DecodedBlock) : Prop :=
  ∀ last ∈ b.instructions.getLast?, last.pc + instructionSize = b.entry + b.size

theorem handledLast_some (hlast : b.instructions.getLast? = some last)
    (hh : b.status = .success ∧ last.matcher.any g.handled) : b.handledLast g = some last := by
  simp [DecodedBlock.handledLast, hlast, hh]

theorem handledLast_none (hlast : b.instructions.getLast? = some last)
    (hh : ¬ (b.status = .success ∧ last.matcher.any g.handled)) : b.handledLast g = none := by
  simpa [DecodedBlock.handledLast, hlast] using hh

theorem mem_inUnitTargets (hend : EndsAt b) (ht : t ∈ inUnitTargets g b) :
    t ∈ censusTargets g b ∨ callTarget g b = some t := by
  cases hlast : b.instructions.getLast? with
  | none => simp [inUnitTargets, DecodedBlock.handledLast, hlast] at ht
  | some last =>
    have hsize := hend last hlast
    by_cases hh : b.status = .success ∧ last.matcher.any g.handled
    · simp only [inUnitTargets, callTarget, censusTargets, handledLast_some hlast hh, hlast,
        if_pos hh, Option.bind_some] at ht ⊢
      by_cases hcall : isBL last.word
      · have hbl : translatedTargets last.word last.pc = [branchTarget last.word last.pc] := if_pos (.inr hcall)
        rw [hbl] at ht
        rw [if_pos hcall, List.mem_singleton.mp ht]
        exact .inr rfl
      · rw [translatedTargets_direct hcall, hsize] at ht
        exact .inl ht
    · simp only [inUnitTargets, censusTargets, handledLast_none hlast hh, hlast, if_neg hh,
        Option.map_some, Option.toList_some, List.mem_singleton, if_true] at ht ⊢
      exact .inl (ht.trans hsize)

theorem callTarget_mem (h : callTarget g b = some t) : t ∈ inUnitTargets g b := by
  obtain ⟨last, hlast, hcall⟩ := Option.bind_eq_some_iff.mp h
  split at hcall
  · rename_i hbl
    have hone : translatedTargets last.word last.pc = [branchTarget last.word last.pc] := if_pos (.inr hbl)
    simp [inUnitTargets, hlast, hone, ← Option.some.inj hcall]
  · cases hcall

structure LaidOut (b : DecodedBlock) : Prop where
  predCount : b.predCount = 0
  solePredEntry : b.solePredEntry = 0
  ends : EndsAt b

def counted (g : Guest) (blocks : List DecodedBlock) (c : DecodedBlock) : DecodedBlock :=
  { c with
    predCount := min 2 (predsOf (countedEdges g blocks) c.entry).length
    solePredEntry := match predsOf (countedEdges g blocks) c.entry with | [p] => p | _ => 0 }

theorem census_eq_counted (hnodup : (blocks.map DecodedBlock.entry).Nodup)
    (hlaid : ∀ b ∈ blocks, LaidOut b) : census g blocks = blocks.map (counted g blocks) := by
  rw [census_eq hnodup]
  exact List.map_congr_left fun c hc => foldl_addPred (hlaid c hc).predCount (hlaid c hc).solePredEntry _

theorem censusSound_iff (hnodup : (blocks.map DecodedBlock.entry).Nodup) (hlaid : ∀ b ∈ blocks, LaidOut b) :
    CensusSound g (census g blocks) ↔ CallsCounted g blocks := by
  rw [census_eq_counted hnodup hlaid]
  simp only [CensusSound, List.forall_mem_map]
  constructor
  · intro h b hb c hc hcall
    obtain ⟨hone, hzero⟩ := h c hc
    have hin := callTarget_mem hcall
    simp only [counted] at hone hzero
    match hp : predsOf (countedEdges g blocks) c.entry with
    | [] => exact absurd hin (hzero (by simp [hp]) b hb)
    | [p] =>
      simp only [hp] at hone
      exact ⟨List.cons_ne_nil _ _, fun hentry => .inr (List.mem_singleton.mpr (hone hentry rfl b hb hin))⟩
    | p :: q :: rest => exact ⟨List.cons_ne_nil _ _, fun _ => .inl (by simp)⟩
  · intro h c hc
    -- whoever goes on at `c` is among its counted predecessors, unless there are two
    have hpred : ∀ b ∈ blocks, c.entry ∈ inUnitTargets g b → predsOf (countedEdges g blocks) c.entry ≠ [] ∧
        (c.isEntryPoint = false → 2 ≤ (predsOf (countedEdges g blocks) c.entry).length ∨
          b.entry ∈ predsOf (countedEdges g blocks) c.entry) := by
      intro b hb hin
      rcases mem_inUnitTargets (hlaid b hb).ends hin with hin | hcall
      · have hmem : b.entry ∈ predsOf (countedEdges g blocks) c.entry :=
          mem_predsOf.mpr (mem_countedEdges.mpr ⟨b, hb, rfl, hin⟩)
        exact ⟨List.ne_nil_of_mem hmem, fun _ => .inr hmem⟩
      · exact h b hb c hc hcall
    simp only [counted]
    match hp : predsOf (countedEdges g blocks) c.entry with
    | [] =>
      simp only [hp] at hpred
      exact ⟨fun _ h => by simp at h, fun _ b hb hin => (hpred b hb hin).1 rfl⟩
    | [p] =>
      simp only [hp] at hpred
      refine ⟨fun hentry _ b hb hin => ?_, fun h => by simp at h⟩
      simpa using (hpred b hb hin).2 hentry
    | p :: q :: rest => exact ⟨fun _ h => by simp at h, fun h => by simp at h⟩

end

/-! ## Units -/

theorem blockAt_laidOut (r : Region) (s : Slots) (leader : Addr) : LaidOut (blockAt r s leader) where
  predCount := rfl
  solePredEntry := rfl
  ends := by
    intro last hlast
    have hget : (blockRun r s leader)[(blockRun r s leader).length - 1]? = some last := by
      rw [← List.getLast?_eq_getElem?]
      exact hlast
    have hpos : 0 < (blockRun r s leader).length := by
      by_contra hzero
      simp [List.eq_nil_of_length_eq_zero (Nat.eq_zero_of_not_pos hzero)] at hget
    obtain ⟨n, hn⟩ := Nat.exists_eq_succ_of_ne_zero hpos.ne'
    rw [runFrom_pc _ _ hget]
    simp only [blockAt, wordAfter, instructionSize]
    bv_omega

theorem layoutBlocks_laidOut (r : Region) (w : Walk) : ∀ b ∈ (layoutBlocks r w).blocks, LaidOut b := by
  intro b hb
  rw [layoutBlocks_blocks] at hb
  obtain ⟨leader, -, rfl⟩ := List.mem_map.mp hb
  exact blockAt_laidOut r w.slots leader

theorem layoutBlocks_nodup (h : LeadersOk r w) : ((layoutBlocks r w).blocks.map DecodedBlock.entry).Nodup := by
  have hid : DecodedBlock.entry ∘ blockAt r w.slots = id := rfl
  rw [layoutBlocks_blocks, List.map_map, hid, List.map_id]
  exact ((sortLeaders_perm w.leaders).nodup_iff.mpr h.nodup).filter _

/-- The blocks a call lays out, before the census counts; a unit that cannot be read
has none. -/
def Decoder.laidOut (g : Guest) (d : Decoder) (c : Call) : List DecodedBlock :=
  if c.pc &&& 3 ≠ 0 then []
  else
    let e := checkRangeExecutable g.ranges d.cache c.pc instructionSize
    if e.1 then
      let d := (({ d with cache := e.2 } : Decoder).reserve (numSlotsOf g c)).bump
      (layoutBlocks (d.region g c) (d.walk g c)).blocks
    else []

/-- The census of a unit misses no way into a block exactly when its calls are
counted. -/
theorem census_sound_iff (g : Guest) (d : Decoder) (c : Call) :
    CensusSound g (d.decodeInstructionsAtEntry g c).1.blocks ↔ CallsCounted g (d.laidOut g c) := by
  -- a block that only stands for a fault goes nowhere
  have hfault : ∀ m status l, status ≠ .success →
      (CensusSound g (faultInfo c.pc m status l).blocks ↔ CallsCounted g []) := by
    intro m status l hstatus
    refine iff_of_true ?_ (fun b hb => absurd hb List.not_mem_nil)
    intro b hb
    rw [List.mem_singleton.mp hb]
    refine ⟨nofun, fun _ b' hb' hin => ?_⟩
    rw [List.mem_singleton.mp hb'] at hin
    simp [inUnitTargets, DecodedBlock.handledLast, hstatus, instructionSize] at hin
  unfold Decoder.decodeInstructionsAtEntry Decoder.laidOut
  split
  · exact hfault _ _ _ (by decide)
  · dsimp only
    split
    · unfold Decoder.decodeRegion infoOf
      dsimp only
      split
      · rename_i hempty
        rw [hempty]
        exact hfault _ _ _ (by decide)
      · exact censusSound_iff (layoutBlocks_nodup (walk_leadersOk _ g c)) (layoutBlocks_laidOut _ _)
    · exact hfault _ _ _ (by decide)

/-- Four words: `cbz x0, .+12`, `bl .+8`, one that is not reached, and `ret`. The branch
and the call both go to the last one. -/
def callGuest : Guest where
  mem a := if a = 0x10000 then 0xB4000060 else if a = 0x10004 then 0x94000002 else 0xD65F03C0
  ranges := some nopRange
  config := { maxInstPerBlock := 10 }
  decode word :=
    if word = 0xB4000060 then some ⟨"CBZ", 0x7F000000, 0x34000000, 0⟩
    else if word = 0x94000002 then some ⟨"BL", 0xFC000000, 0x94000000, 0⟩
    else some ⟨"RET", 0xFFFFFC1F, 0xD65F0000, 0⟩
  handled _ := true

def callUnit : List DecodedBlock := (({} : Decoder).decodeInstructionsAtEntry callGuest ⟨0x10000, 0⟩).1.blocks

/-- The block of `ret` has the entry as its only predecessor, and is called from the
block between them. -/
theorem census_missesCall : callUnit.map (fun b => (b.entry, b.predCount, b.solePredEntry)) =
        [(0x10000, 0, 0), (0x10004, 1, 0x10000), (0x1000c, 1, 0x10000)] ∧
      ¬ CensusSound callGuest callUnit := by
  unfold CensusSound
  decide +kernel

end PowerArm.Decode
