import PowerArm.Fusion.ChainLaws

/-!
# Compare fusion keeps what the unit does

A block after `RunChain` and `Run` leaves as it did before, from every state
(`fuseBlock_rel`), and a signal in it finds a state from which the block before goes
on as it would have (`fuseBlock_resume`). With the dead-flag rounds before it, the
fused unit runs as the unit that the frontend made (`fuseCompares_sound`).
-/

namespace PowerArm.Fusion

open Flags

/-! ## One block -/

section
variable {opcodes : Nat → Opcode} {h : Host}

theorem execOps_map (h : Host) (code : List Node) (s : State) (cr : Bool) :
    execOps h (code.map .ir) ⟨s, cr⟩ = ⟨execCode h code s, cr⟩ := by
  induction code generalizing s with
  | nil => rfl
  | cons n code ih => exact ih _

theorem ofBlock_exec (b : Block k) (s : State) : (FusedBlock.ofBlock b).exec h s = b.exec h s := by
  simp only [FusedBlock.exec, FusedBlock.ofBlock, execOps_map]
  rfl

theorem Known.nil (opcodes : Nat → Opcode) (s : State) : Known opcodes [] s :=
  fun _ _ _ _ _ _ hmem => absurd hmem List.not_mem_nil

def Interruptible (opcodes : Nat → Opcode) (n : Node) : Prop :=
  touchesNZCV n = false ∧ mayRaiseSignal opcodes (.ir n) = true

/-- What the block that `runChain` leaves has to do with the block it was given. -/
structure Follows (opcodes : Nat → Opcode) (L : Fin k → NZCV) (b : Block k) (c : FusedBlock k) : Prop where
  wellFormed : WellFormed c.code
  live : c.exit.nzcvLiveOut L = nzcvLiveOut L b.exit
  leaves : ∀ h s, ConfigRel L ∅ (b.exec (withConstants opcodes h) s) (c.exec (withConstants opcodes h) s)
  /-- An interruptible op is still there, and from it on both blocks leave the same way. -/
  resumes : ∀ pre n post, b.code = pre ++ n :: post → Interruptible opcodes n →
    ∃ post', c.code = pre.map .ir ++ .ir n :: post' ∧ ∀ h m, Known opcodes (pre.map .ir) m.state → ConfigRel L ∅
        ((Terminator.ir b.exit).exec (withConstants opcodes h)
          (execOps (withConstants opcodes h) ((n :: post).map .ir) m))
        (c.exit.exec (withConstants opcodes h) (execOps (withConstants opcodes h) (.ir n :: post') m))

theorem Follows.ofBlock (hwf : WellFormed (b.code.map .ir)) (L : Fin k → NZCV) :
    Follows opcodes L b (.ofBlock b) where
  wellFormed := hwf
  live := rfl
  leaves h s := by
    rw [ofBlock_exec]
    exact ConfigRel.refl ..
  resumes pre n post hcode _ := ⟨post.map .ir, by simp [FusedBlock.ofBlock, hcode], fun h m _ => ConfigRel.refl ..⟩

theorem Chain.not_interruptible (ch : Chain opcodes code exit c) (hn : Interruptible opcodes n) :
    n ∉ ch.p :: (ch.between ++ ch.q :: ch.after) := by
  obtain ⟨htouch, hsig⟩ := hn
  have hquiet (hmem : n ∈ ch.between ++ ch.after) : False := by simp [(ch.quiet n hmem).2] at hsig
  have hp : touchesNZCV ch.p := by
    have hp := ch.producer
    simp only [analyzeProducer] at hp
    split at hp
    all_goals first
      | cases hp
      | simp_all [touchesNZCV, Op.writesNZCV, Op.classify, IROps.classify, NZCV.all, NZCV.none]
  have hq : touchesNZCV ch.q := by
    have hq := ch.compares
    unfold condCompare at hq
    split at hq
    all_goals first
      | cases hq
      | simp_all [touchesNZCV, Op.writesNZCV, Op.classify, IROps.classify, NZCV.all, NZCV.none]
  simp only [List.mem_cons, List.mem_append]
  rintro (rfl | hmem | rfl | hmem)
  · rw [hp] at htouch
    cases htouch
  · exact hquiet (List.mem_append_left _ hmem)
  · rw [hq] at htouch
    cases htouch
  · exact hquiet (List.mem_append_right _ hmem)

theorem Chain.follows (ch : Chain opcodes b.code b.exit c)
    (hwf : WellFormed (b.code.map .ir)) (hdead : nzcvLiveOut L b.exit = false) : Follows opcodes L b c where
  wellFormed := ch.wellFormed hwf
  live := by
    rw [ch.fused_exit]
    exact (congrArg (nzcvLiveOut L) ch.exit_eq).symm
  leaves h s := by
    have hrel := ch.rel (h := h) (m := ⟨s, false⟩) hwf hdead (List.nil_append _).symm (.nil opcodes s)
    rw [← ch.code_map, ← ch.fused_code, execOps_map] at hrel
    exact hrel
  resumes pre n post hcode hn := by
    have hsplit : pre ++ n :: post = ch.first ++ (ch.p :: (ch.between ++ ch.q :: ch.after)) :=
      hcode.symm.trans ch.code_eq
    obtain ⟨todo, hfirst, hpost⟩ : ∃ todo, ch.first = pre ++ n :: todo ∧
        post = todo ++ (ch.p :: (ch.between ++ ch.q :: ch.after)) := by
      obtain ⟨l, hf, hl⟩ | ⟨l, -, hl⟩ := List.append_eq_append_iff.mp hsplit
      · cases l with
        | nil =>
          have hmem : n ∈ ch.p :: (ch.between ++ ch.q :: ch.after) := by
            rw [List.nil_append] at hl
            simp [← hl]
          exact absurd hmem (ch.not_interruptible hn)
        | cons x todo =>
          obtain ⟨rfl, hpost⟩ := List.cons.inj hl
          exact ⟨todo, hf, hpost⟩
      · exact absurd (by simp [hl]) (ch.not_interruptible hn)
    refine ⟨todo.map .ir ++ ch.collapsed, by simp [ch.fused_code, hfirst], fun h m hk => ?_⟩
    have hrel := ch.rel (h := h) hwf hdead hfirst hk
    have hrest : (n :: post).map Op.ir = (n :: todo).map .ir ++ ch.rest := by simp [hpost, Chain.rest]
    rw [hrest]
    exact hrel

theorem runChain_follows (hwf : WellFormed (b.code.map .ir)) (L : Fin k → NZCV) (outside : Nat → Nat) :
    Follows opcodes L b (runChain opcodes outside b (nzcvLiveOut L b.exit)) := by
  obtain heq | ⟨hdead, ⟨ch⟩⟩ := runChain_cases opcodes outside b (nzcvLiveOut L b.exit)
  · rw [heq]
    exact .ofBlock hwf L
  · exact ch.follows hwf hdead

/-- The block after fusion leaves as the block before, and a signal at an op finds a
state from which the block before goes on as it would have. -/
theorem fuseBlock_sound (opcodes : Nat → Opcode) (h : Host) (fo : FusionOptions) (L : Fin k → NZCV)
    (hwf : WellFormed ((u b).code.map .ir)) (s : State) : ConfigRel L ∅ ((u b).exec (withConstants opcodes h) s)
        ((fuseBlock opcodes fo u L b).exec (withConstants opcodes h) s) ∧
      ∀ pre n post, (u b).code = pre ++ n :: post → Interruptible opcodes n →
        ∃ done rest, (fuseBlock opcodes fo u L b).code = done ++ .ir n :: rest ∧
          ConfigRel L ∅ ((u b).exec (withConstants opcodes h) s)
            ((Terminator.ir (u b).exit).exec (withConstants opcodes h) (execOps (withConstants opcodes h)
              ((n :: post).map .ir) (execOps (withConstants opcodes h) done ⟨s, false⟩))) := by
  unfold fuseBlock
  dsimp only
  split
  next =>
    set c := if fo.disableCCMPChain then FusedBlock.ofBlock (u b) else _ with hc
    have hf : Follows opcodes L (u b) c := by
      rw [hc]
      split
      · exact .ofBlock hwf L
      · exact runChain_follows hwf L _
    have hlive : c.exit.nzcvLiveOut L → nzcvLiveOut L (u b).exit := fun ht => hf.live ▸ ht
    refine ⟨(hf.leaves h s).then (run_rel hf.wellFormed hlive _ s), fun pre n post hcode hn => ?_⟩
    obtain ⟨post', hcode', hrest⟩ := hf.resumes pre n post hcode hn
    have htouch := hn.1
    simp only [touchesNZCV, Bool.or_eq_false_iff] at htouch
    obtain ⟨done, rest, hrun, hk, hresume⟩ :=
      run_resume hf.wellFormed hlive hcode' htouch.1 htouch.2 hn.2 (u.usesOutside b) s
    exact ⟨done, rest, hrun, ((hf.leaves h s).then hresume).then (hrest h _ hk).symm⟩
  next =>
    refine ⟨by rw [ofBlock_exec]; exact ConfigRel.refl .., fun pre n post hcode _ => ?_⟩
    refine ⟨pre.map .ir, post.map .ir, by simp [FusedBlock.ofBlock, hcode], ?_⟩
    rw [← execOps_append, ← List.map_append, ← hcode, execOps_map]
    exact ConfigRel.refl ..

end

/-! ## The dead-flag rounds before it -/

/-- The frontend tests values of 32 and 64 bits only, so no test is narrow enough to
become a `TestZ`. -/
def Wide (n : Node) : Prop := n.op ≠ .testZ ∧ (n.op = .testNZ ∨ n.op = .andWithFlags → 32 ≤ n.size.bits)

instance (n : Node) : Decidable (Wide n) := inferInstanceAs (Decidable (_ ∧ _))

/-- A unit as the frontend makes it: in SSA form, with every value defined before its
uses in its block, and `Wide`: without `TestZ` and with tests of 32 and 64 bits only. -/
structure SourceUnit (k : Nat) where
  unit : IRUnit k
  ssa : unit.ids.Nodup
  ordered : ∀ b, (unit b).code.Pairwise fun n later => .ref later.id ∉ n.args
  irrefl : ∀ b, ∀ n ∈ (unit b).code, .ref n.id ∉ n.args
  wide : ∀ b, ∀ n ∈ (unit b).code, Wide n

def nodeKey (n : Node) : Nat × List Arg := (n.id, n.args)

/-- The code has the nodes of `code`, some dropped and some with another op. -/
structure Thinned (code code' : List Node) : Prop where
  keys : (code'.map nodeKey).Sublist (code.map nodeKey)
  wide : (∀ n ∈ code, Wide n) → ∀ n ∈ code', Wide n

theorem Thinned.refl (code : List Node) : Thinned code code := ⟨.refl _, fun hw => hw⟩

theorem Thinned.trans (h : Thinned code code') (h' : Thinned code' code'') : Thinned code code'' :=
  ⟨h'.keys.trans h.keys, fun hw => h'.wide (h.wide hw)⟩

theorem Thinned.append (h : Thinned xs xs') (h' : Thinned ys ys') : Thinned (xs ++ ys) (xs' ++ ys') := by
  refine ⟨by simpa using h.keys.append h'.keys, fun hw n hn => ?_⟩
  obtain hn | hn := List.mem_append.mp hn
  · exact h.wide (fun n hn => hw n (List.mem_append_left _ hn)) n hn
  · exact h'.wide (fun n hn => hw n (List.mem_append_right _ hn)) n hn

theorem replacement_wide {op r : IROps} (hr : op.classify.replacement = some r) :
    r ≠ .testZ ∧ r ≠ .testNZ ∧ r ≠ .andWithFlags := by
  cases op <;> simp [IROps.classify] at hr <;> subst hr <;> simp

theorem replacementNoWrite_wide {op r : IROps} (hr : op.classify.replacementNoWrite = some r) :
    r ≠ .testZ ∧ (r = .testNZ ∨ r = .andWithFlags → op = .andWithFlags) := by
  cases op <;> simp [IROps.classify] at hr <;> subst hr <;> simp

theorem Wide.kept (hw : Wide n) (hk : n.Kept unused L m) : Wide m := by
  cases hk with
  | same => exact hw
  | replaced r hrep =>
    obtain ⟨hz, hnz, hand⟩ := replacement_wide hrep
    refine ⟨hz, ?_⟩
    rintro (hop | hop)
    · exact absurd hop hnz
    · exact absurd hop hand
  | noWrite r hrep =>
    obtain ⟨hz, hop⟩ := replacementNoWrite_wide hrep
    exact ⟨hz, fun hr => hw.2 (.inr (hop hr))⟩

theorem Wide.narrowTest (hw : Wide n) (L : NZCV) : n.narrowTest L = n := by
  unfold Node.narrowTest
  split
  next hc => exact absurd (hw.2 (.inl hc.1)) (Nat.not_le.mpr hc.2.1)
  next => rfl

theorem process_thinned (o : Options) (unused : Bool) (n : Node) (L : NZCV) :
    Thinned [n] (n.process o unused L).1.toList := by
  have hp := n.process_spec o unused L
  generalize n.process o unused L = r at hp
  cases hp with
  | removed => exact ⟨List.nil_sublist _, nofun⟩
  | kept m hk =>
    obtain ⟨hid, hargs, -, -⟩ := hk.shape
    refine ⟨?_, fun hw => ?_⟩
    · simp [nodeKey, hid, hargs]
    · have hm := (hw n (List.mem_singleton.mpr rfl)).kept hk
      simpa [hm.narrowTest] using hm

theorem processCode_thinned (o : Options) (outside : Nat → Nat) (code before : List Node) (L : NZCV) :
    Thinned code (processCode o outside before code L).1 := by
  induction code generalizing before with
  | nil => exact .refl _
  | cons n rest ih => exact (process_thinned ..).append (ih _)

theorem processBlock_thinned (o : Options) (u : IRUnit k) (F : Fin k → NZCV) (b : Fin k) :
    Thinned (u b).code (processBlock o u F b).1.code := by
  unfold processBlock
  dsimp only
  split
  · exact processCode_thinned ..
  · exact .refl _

theorem step_thinned (o : Options) (u : IRUnit k) (s : PassState k) (b : Fin k) :
    Thinned (s.unit b).code ((s.step o u).unit b).code := by
  have hstep (b' : Fin k) : Thinned (s.unit b).code
      (if b = b' then (processBlock o s.unit s.flags b').1 else s.unit b).code := by
    split
    next heq =>
      subst heq
      exact processBlock_thinned ..
    next => exact .refl _
  unfold PassState.step
  cases s.worklist.getLast? with
  | none => exact .refl _
  | some b' =>
    dsimp only
    split
    · exact hstep b'
    · rw [(PassState.foldl_addWorklist ..).1]
      exact hstep b'

theorem rounds_thinned (o : Options) (u : IRUnit k) (rounds : Nat) (b : Fin k) :
    Thinned (u b).code (((PassState.step o u)^[rounds] (.init u)).unit b).code := by
  induction rounds with
  | zero => exact .refl _
  | succ rounds ih =>
    rw [Function.iterate_succ_apply']
    exact ih.trans (step_thinned ..)

theorem SourceUnit.wellFormed (P : SourceUnit k) (ht : Thinned (P.unit b).code code) : WellFormed (code.map .ir) := by
  have hids (l : List Node) : opIds (l.map .ir) = Flags.ids l := by
    simp [opIds, Flags.ids, Function.comp_def, Op.id?]
  have hkeys (l : List Node) : (l.map Op.ir).map Op.key = (l.map nodeKey).map fun x => (some x.1, x.2) := by
    simp [Op.key, Op.id?, Op.args, nodeKey]
  have hsource : WellFormed ((P.unit b).code.map .ir) := by
    refine ⟨?_, ?_, ?_, ?_⟩
    · rw [hids]
      exact IRUnit.ids_nodup P.ssa b
    · refine List.pairwise_map.mpr ((P.ordered b).imp fun hnot id hid => ?_)
      cases hid
      exact hnot
    · intro op hop id hid
      obtain ⟨n, hn, rfl⟩ := List.mem_map.mp hop
      cases hid
      exact P.irrefl b n hn
    · intro n hn
      obtain ⟨n', hn', heq⟩ := List.mem_map.mp hn
      cases heq
      exact (P.wide b n hn').1
  refine hsource.sublist ?_ fun n hn => ?_
  · rw [hkeys, hkeys]
    exact ht.keys.map _
  · obtain ⟨n', hn', heq⟩ := List.mem_map.mp hn
    cases heq
    exact (ht.wide (P.wide b) n hn').1

/-! ## The unit -/

def SourceUnit.rounds (P : SourceUnit k) (o : Options) (rounds : Nat) : PassState k :=
  (PassState.step o P.unit)^[rounds] (.init P.unit)

theorem fused_run {P Q : IRUnit k} {h : Host} {F G : Fin k → NZCV} {D : Set Nat} {fused : FusedUnit k}
    (hs : Sound h P Q F G D) (hf : ∀ b s, ConfigRel F ∅ ((Q b).exec h s) ((fused b).exec h s))
    (entry : Fin k) (s : State) (blocks : Nat) :
    ConfigRel G D (P.run h blocks (.at entry s)) (fused.run h blocks (.at entry s)) := by
  induction blocks with
  | zero => exact ⟨rfl, .refl ..⟩
  | succ blocks ih =>
    simp only [IRUnit.run, FusedUnit.run, Function.iterate_succ_apply'] at ih ⊢
    generalize (P.step h)^[blocks] (.at entry s) = c at ih
    generalize (fused.step h)^[blocks] (.at entry s) = d at ih
    cases c <;> cases d
    case at.at b s b' t =>
      obtain ⟨rfl, hr⟩ := ih
      have hblock := (hs.sim b s t hr).trans ((hf b t).weaken D) Set.Subset.rfl
      exact hblock.mono fun b' => .inter (.refl _) (hs.live b')
    case left.left => exact ih
    all_goals exact ih.elim

/-- A condition that is accepted for a compare says of its flags what the direct
compare says of its operands. After any number of dead-flag rounds a fused block takes
the way the block took, from every state and so for all values of the operands; where
a signal can stop it, the block before fusion can go on from the state there; and the
fused unit runs as the unit the frontend made. -/
theorem fuseCompares_sound (opcodes : Nat → Opcode) (h : Host) (o : Options) (fo : FusionOptions) (P : SourceUnit k)
    (rounds : Nat) : let H := withConstants opcodes h
    let S := P.rounds o rounds
    let fused := fuseCompares opcodes fo S.flags S.unit
    (∀ p s cond cond', p.Valid s → resolveFusedCond p cond = some cond' →
        directCompare H s p.size cond' p.cmp1 p.cmp2 = cond.holds (p.flags s)) ∧
      (∀ b s, ConfigRel S.flags ∅ ((S.unit b).exec H s) ((fused b).exec H s)) ∧
      (∀ b s pre n post, (S.unit b).code = pre ++ n :: post → Interruptible opcodes n →
        ∃ done rest, (fused b).code = done ++ .ir n :: rest ∧ ConfigRel S.flags ∅ ((S.unit b).exec H s)
            ((Terminator.ir (S.unit b).exit).exec H
              (execOps H ((n :: post).map .ir) (execOps H done ⟨s, false⟩)))) ∧
      ∀ entry s blocks, SameOutcome S.unit (P.unit.run H blocks (.at entry s)) (fused.run H blocks (.at entry s)) := by
  intro H S fused
  have hwf (b : Fin k) : WellFormed ((S.unit b).code.map .ir) := P.wellFormed (rounds_thinned o P.unit rounds b)
  have hblock (b : Fin k) (s : State) := fuseBlock_sound opcodes h fo S.flags (hwf b) s
  refine ⟨fun p s cond cond' hp hr => resolveFusedCond_sound hp hr H, fun b s => (hblock b s).1,
    fun b s => (hblock b s).2, fun entry s blocks => ?_⟩
  obtain ⟨G, D, hs⟩ := PassState.rounds_sound H o P.ssa rounds
  have hrun := fused_run hs (fun b s => (hblock b s).1) entry s blocks
  exact hrun.sameOutcome hs.kept

def countdownSource : SourceUnit 2 where
  unit := countdown
  ssa := by decide
  ordered := by decide
  irrefl := by decide
  wide := by decide

example : (fuseCompares (fun _ => .unnamed) ⟨false, false, false⟩ (fun _ => .none) countdownSource.unit 0).exit =
    .ir (.condJump (.compare .i64Bit) .neq [.ref 2, .inline 0] 0 1) := by decide

end PowerArm.Fusion
