import PowerArm.Decode.BlockLaws

/-!
# The layout of a unit

Discovery leaves flagged slots and a list of leaders; the layout makes one block
of each leader whose word was decoded. `runFrom` is the block of a leader as a
list, apart from the pages and the end that are kept on the way, and
`layoutBlocks_blocks` says that a unit's blocks are the runs of its leaders.
-/

namespace PowerArm.Decode

section
variable {r : Region} {s : Slots} {leader pc : Addr}

def runFrom (r : Region) (s : Slots) (leader : Addr) : Nat → Addr → List DecodedInst
  | 0, _ => []
  | n + 1, pc =>
    if r.InWindow pc then
      let f := s.flags r.gen (r.slotOf pc)
      if f &&& decodedBit = 0 ∨ pc ≠ leader ∧ f &&& leaderBit ≠ 0 then []
      else
        ⟨pc, s.word (r.slotOf pc), s.matcher (r.slotOf pc)⟩ ::
          if f &&& stopBit ≠ 0 then [] else runFrom r s leader n (pc + instructionSize)
    else []

theorem emitBlock_eq_foldl (n : Nat) (pc : Addr) (e : Emit) :
    emitBlock r s leader n pc e = (runFrom r s leader n pc).foldl Emit.push e := by
  induction n generalizing pc e with
  | zero => rfl
  | succ n ih =>
    unfold emitBlock runFrom
    split
    · dsimp only
      split
      · rfl
      · split
        · rfl
        · exact ih _ _
    · rfl

theorem push_instructions (e : Emit) (inst : DecodedInst) :
    (e.push inst).instructions = e.instructions ++ [inst] := by
  unfold Emit.push
  split <;> rfl

theorem foldl_push_instructions (l : List DecodedInst) (e : Emit) :
    (l.foldl Emit.push e).instructions = e.instructions ++ l := by
  induction l generalizing e with
  | nil => simp
  | cons inst l ih => simp [ih, push_instructions]

def blockRun (r : Region) (s : Slots) (leader : Addr) : List DecodedInst :=
  runFrom r s leader ((r.windowHigh - leader).toNat / 4 + 1) leader

def blockAt (r : Region) (s : Slots) (leader : Addr) : DecodedBlock :=
  ⟨leader, BitVec.ofNat 64 (blockRun r s leader).length * instructionSize, blockRun r s leader,
    .success, leader = r.pc, 0, 0⟩

def IsDecoded (r : Region) (s : Slots) (a : Addr) : Prop := s.flags r.gen (r.slotOf a) &&& decodedBit ≠ 0

instance (r : Region) (s : Slots) (a : Addr) : Decidable (IsDecoded r s a) := inferInstanceAs (Decidable (_ ≠ _))

theorem layoutLeader_blocks (l : Layout) : (layoutLeader r s l leader).blocks =
      l.blocks ++ if IsDecoded r s leader then [blockAt r s leader] else [] := by
  unfold layoutLeader
  by_cases h : IsDecoded r s leader
  · rw [if_neg h, if_pos h]
    simp only [emitBlock_eq_foldl, foldl_push_instructions]
    rfl
  · rw [if_pos (not_not.mp h), if_neg h, List.append_nil]

theorem foldl_layoutLeader_blocks (leaders : List Addr) (l : Layout) : (leaders.foldl (layoutLeader r s) l).blocks =
      l.blocks ++ (leaders.filter fun a => IsDecoded r s a).map (blockAt r s) := by
  induction leaders generalizing l with
  | nil => simp
  | cons a leaders ih =>
    rw [List.foldl_cons, ih, layoutLeader_blocks]
    by_cases h : IsDecoded r s a <;> simp [h]

theorem layoutBlocks_blocks (r : Region) (w : Walk) : (layoutBlocks r w).blocks =
      ((sortLeaders w.leaders).filter fun a => IsDecoded r w.slots a).map (blockAt r w.slots) := by
  simp [layoutBlocks, foldl_layoutLeader_blocks]

theorem sortLeaders_perm (l : List Addr) : (sortLeaders l).Perm l := by
  cases l with
  | nil => exact List.Perm.refl _
  | cons a l => exact (List.perm_insertionSort _ l).cons a

/-! ## Consecutive words -/

def wordAfter (pc : Addr) (n : Nat) : Addr := pc + BitVec.ofNat 64 n * instructionSize

@[simp] theorem wordAfter_zero (pc : Addr) : wordAfter pc 0 = pc := by simp [wordAfter]

theorem wordAfter_succ (pc : Addr) (n : Nat) : wordAfter pc (n + 1) = wordAfter (pc + instructionSize) n := by
  simp only [wordAfter, instructionSize, BitVec.ofNat_add]
  bv_omega

theorem runFrom_pc (n : Nat) (pc : Addr)
    (h : (runFrom r s leader n pc)[i]? = some inst) : inst.pc = wordAfter pc i := by
  induction n generalizing pc i with
  | zero => simp [runFrom] at h
  | succ n ih =>
    unfold runFrom at h
    split at h
    · dsimp only at h
      split at h
      · simp at h
      · cases i with
        | zero =>
          simp only [List.getElem?_cons_zero, Option.some.injEq] at h
          simp [← h]
        | succ i =>
          split at h
          · simp at h
          · rw [wordAfter_succ]
            exact ih _ h
    · simp at h

end

/-! ## Leaders -/

/-- Every leader is flagged, so none is found twice; the entry is the first. -/
structure LeadersOk (r : Region) (w : Walk) : Prop where
  flagged : ∀ a ∈ w.leaders, w.flags r a &&& leaderBit ≠ 0
  nodup : w.leaders.Nodup
  head : w.leaders.head? = some r.pc
  inWindow : ∀ a ∈ w.leaders, a = r.pc ∨ r.InWindow a

section
variable {g : Guest} {r : Region} {w : Walk}

section
variable (H : LeadersOk r w)
include H

theorem LeadersOk.grow (hl : v.leaders = w.leaders)
    (hflags : ∀ a, w.flags r a &&& leaderBit ≠ 0 → v.flags r a &&& leaderBit ≠ 0) : LeadersOk r v where
  flagged a ha := hflags a (H.flagged a (hl ▸ ha))
  nodup := hl ▸ H.nodup
  head := hl ▸ H.head
  inWindow a ha := H.inWindow a (hl ▸ ha)

variable (hg : IsGen r.gen)
include hg

theorem LeadersOk.setFlag (hf : IsFlag flag) (a : Addr) : LeadersOk r (w.setFlag r a flag) :=
  H.grow rfl fun _ h => (flag_setFlag hg hf _ _ _).mpr (.inl h)

theorem LeadersOk.follow (pc t : Addr) : LeadersOk r (w.follow r pc t) := by
  unfold Walk.follow
  split
  · exact H
  · rename_i hskip
    simp only [Walk.Skips, not_or, not_not] at hskip
    obtain ⟨-, hin, hnew, -⟩ := hskip
    have hset := fun a => flag_setFlag (s := w.slots) hg isFlag_leaderBit (r.slotOf t) (r.slotOf a) leaderBit
    refine ⟨?_, ?_, ?_, ?_⟩
    · intro a ha
      rcases List.mem_append.mp ha with ha | ha
      · exact (hset a).mpr (.inl (H.flagged a ha))
      · rw [List.mem_singleton.mp ha]
        exact (hset t).mpr (.inr ⟨rfl, by decide⟩)
    · have hfresh : t ∉ w.leaders := fun ht => H.flagged t ht hnew
      simpa [Walk.addLeader, List.nodup_append] using ⟨H.nodup, fun a ha h => hfresh (h ▸ ha)⟩
    · have hhead := H.head
      cases hl : w.leaders with
      | nil => simp [hl] at hhead
      | cons a l => simpa [Walk.addLeader, hl] using hhead
    · intro a ha
      rcases List.mem_append.mp ha with ha | ha
      · exact H.inWindow a ha
      · exact .inr (List.mem_singleton.mp ha ▸ hin)

theorem LeadersOk.foldl_follow (pc : Addr) (ts : List Addr) : LeadersOk r (ts.foldl (Walk.follow r pc) w) := by
  induction ts generalizing w with
  | nil => exact H
  | cons t ts ih => exact ih (H.follow hg pc t)

theorem LeadersOk.decodeOne (pc : Addr) : LeadersOk r (w.decodeOne g r pc).1 := by
  have hm : LeadersOk r (w.decodedAt g r pc) :=
    H.grow rfl fun _ h => (flag_setFlag hg isFlag_decodedBit _ _ _).mpr (.inl h)
  have hs := hm.setFlag hg isFlag_stopBit pc
  obtain ⟨-, heq⟩ | ⟨-, -, ⟨-, -, heq⟩ | ⟨-, heq⟩⟩ := decodeOne_cases g r w pc
  · exact heq ▸ H
  · exact heq ▸ H.grow rfl fun _ h => h
  · rw [heq]
    split
    · split
      · unfold Walk.endRun
        split
        · exact hs.foldl_follow hg pc _
        · exact hs
      · exact hm
    · exact hs

theorem LeadersOk.decodeRun (n : Nat) (pc : Addr) : LeadersOk r (w.decodeRun g r n pc) := by
  induction n generalizing w pc with
  | zero => exact H
  | succ n ih =>
    have h1 := H.decodeOne (g := g) hg pc
    unfold Walk.decodeRun
    dsimp only
    split
    · exact ih h1 _
    · exact h1

theorem LeadersOk.discover (fuel : Nat) : LeadersOk r (w.discover g r fuel) := by
  induction fuel generalizing w with
  | zero => exact H
  | succ fuel ih =>
    unfold Walk.discover
    split
    · exact H
    · rename_i rest _
      split
      · have hrest : LeadersOk r { w with worklist := rest } := H.grow rfl fun _ h => h
        exact ih (hrest.decodeRun hg _ _)
      · exact H

end

theorem walk_leadersOk (d : Decoder) (g : Guest) (c : Call) : LeadersOk (d.region g c) (d.walk g c) := by
  refine LeadersOk.discover ⟨?_, List.nodup_singleton _, rfl, ?_⟩ (isGen_and _) _
  · intro a ha
    rw [List.mem_singleton.mp ha]
    exact (flag_setFlag (isGen_and _) isFlag_leaderBit _ _ _).mpr (.inr ⟨rfl, by decide⟩)
  · exact fun a ha => .inl (List.mem_singleton.mp ha)

end

/-! ## Pages -/

theorem toNat_pageOf (a : Addr) : (pageOf a).toNat = a.toNat / 4096 * 4096 := by
  have hlow := Lib.toNat_and_mask (k := 12) (m := 0xFFF) a rfl
  have hsum : (pageOf a + (a &&& 0xFFF)).toNat = a.toNat := congrArg _ (Lib.and_not_add_and a 0xFFF)
  bv_omega

theorem mem_insertSorted : q ∈ insertSorted l page ↔ q ∈ l ∨ q = page := by
  induction l with
  | nil => simp [insertSorted]
  | cons x l ih =>
    unfold insertSorted
    split
    · simp [ih, or_assoc]
    · split
      · rename_i heq
        subst heq
        simp
        tauto
      · simp
        tauto

end PowerArm.Decode
