import PowerArm.Fusion.LiveLaws

/-!
# Clobbered flags are not seen

A run in which the permissions of `AnnotateFlagLiveness` are made use of shows what
the run without them shows (`annotateFlagLiveness_unseen`). The flags at an exit can
differ where the scan of the exit's target has found them dead, and only there.
-/

namespace PowerArm.Fusion

open Flags

variable {k : Nat} {h : Host} {m t : Machine} {L : NZCV}

/-! ## Machines that agree on live flags -/

structure MachineRel (L : NZCV) (m t : Machine) : Prop where
  chainCR : m.chainCR = t.chainCR
  state : Rel L ∅ m.state t.state

theorem avoids_empty (args : List Arg) : Avoids ∅ args := fun _ _ hmem => hmem

theorem MachineRel.env (hr : MachineRel L m t) : m.state.env = t.state.env :=
  funext fun id => hr.state.env id (Set.notMem_empty id)

theorem exec_rel (hr : MachineRel (through op L) m t) : MachineRel L (op.exec h m) (op.exec h t) := by
  have htrace := hr.state.trace
  have henv := hr.env
  cases op with
  | ir n => exact ⟨hr.chainCR, Node.exec_rel hr.state (avoids_empty _)⟩
  | select =>
    have hflags : Rel L ∅ m.state t.state := hr.state.mono (by rw [through_untouched rfl rfl]; exact .refl _)
    refine ⟨hr.chainCR, htrace, fun id _ => ?_, hflags.flags⟩
    simp only [Op.exec, directCompare_congr htrace henv, State.read_congr henv, henv]
  | chainCompare =>
    have hflags : Rel L ∅ m.state t.state := hr.state.mono (by rw [through_untouched rfl rfl]; exact .refl _)
    refine ⟨?_, hflags⟩
    simp only [Op.exec, directCompare_congr htrace henv]

theorem setCarry_rel (hr : MachineRel L m t) (hc : L.c → c = t.state.nzcv.c) : MachineRel L m (t.setCarry c) := by
  obtain ⟨hn, hz, hcarry, hv⟩ := hr.state.flags
  refine ⟨hr.chainCR, hr.state.trace, hr.state.env, hn, hz, fun hl => ?_, hv⟩
  rw [hcarry hl, ← hc hl]
  rfl

theorem ClobberOps.rel
    (hops : ClobberOps h (annotateCode shifts L code) t m') (hr : MachineRel (liveBefore L code) m t) :
    MachineRel L (execOps h code m) m' := by
  induction code generalizing m t with
  | nil =>
    cases hops
    exact hr
  | cons op code ih =>
    cases hops with
    | cons c hc hrest =>
      refine ih hrest (setCarry_rel (exec_rel hr) fun hl => hc ?_)
      simp [hl]

theorem ClobberOps.of_disabled (hops : ClobberOps h (code.map (·, false)) m m')
    (shifts : Nat → Bool) (L : NZCV) : ClobberOps h (annotateCode shifts L code) m m' := by
  induction code generalizing m with
  | nil => exact hops
  | cons op code ih =>
    cases hops with
    | cons c hc hrest => exact .cons c (fun _ => hc rfl) (ih hrest)

theorem terminator_rel {exit : Terminator k} {flags : Fin k → NZCV}
    (hr : MachineRel ((exit.liveOut flags).union exit.reads) m t) :
    ConfigRel flags ∅ (exit.exec h m) (exit.exec h t) := by
  cases exit with
  | ir exit => exact Exit.exec_rel hr.state (avoids_empty _)
  | chain ifTrue ifFalse =>
    have hlive : Rel ((flags ifTrue).union (flags ifFalse)) ∅ m.state t.state := hr.state.mono sub_union_left
    simp only [Terminator.exec, hr.chainCR]
    refine ⟨rfl, Rel.observe ?_ _⟩
    split
    · exact hlive.mono sub_union_left
    · exact hlive.mono sub_union_right

theorem setNZCV_state (c : Config k) : Config.setNZCV (Config.state c).nzcv c = c := by cases c <;> rfl

theorem target_dead {exit : Terminator k} {flags : Fin k → NZCV} (hjump : exit.isCondJump)
    (hdead : exit.liveOut flags = .none) (h : Host) (m : Machine) :
    ∃ b s, exit.exec h m = .at b s ∧ flags b = .none := by
  have htarget {ifTrue ifFalse : Fin k} (hdead : (flags ifTrue).union (flags ifFalse) = .none) (taken : Bool) :
      flags (if taken then ifTrue else ifFalse) = .none := by
    obtain ⟨htrue, hfalse⟩ := union_eq_none hdead
    cases taken
    · exact hfalse
    · exact htrue
  cases exit with
  | chain ifTrue ifFalse => exact ⟨_, _, rfl, htarget hdead _⟩
  | ir exit =>
    cases exit with
    | condJump source cond args ifTrue ifFalse => exact ⟨_, _, rfl, htarget hdead _⟩
    | jump | exitFunction | other => cases hjump

theorem setNZCV_rel {exit : Terminator k} {flags : Fin k → NZCV} {c : Config k} {f : NZCV}
    (hc : ConfigRel flags ∅ c (exit.exec h m))
    (hf : (exit.isCondJump && decide (exit.liveOut flags = .none)) = false →
      f = (Config.state (exit.exec h m)).nzcv) :
    ConfigRel flags ∅ c (Config.setNZCV f (exit.exec h m)) := by
  cases hdead : exit.isCondJump && decide (exit.liveOut flags = .none) with
  | false =>
    rw [hf hdead, setNZCV_state]
    exact hc
  | true =>
    simp only [Bool.and_eq_true, decide_eq_true_eq] at hdead
    obtain ⟨b, s, heq, hnone⟩ := target_dead hdead.1 hdead.2 h m
    rw [heq] at hc ⊢
    cases c with
    | left => exact hc.elim
    | «at» b' s' =>
      obtain ⟨rfl, hr⟩ := hc
      refine ⟨rfl, hr.trace, hr.env, ?_⟩
      rw [hnone]
      exact agree_none

/-! ## Runs -/

section
variable {shifts : Nat → Bool} {disabled : Bool} {flags : Fin k → NZCV} {u : FusedUnit k}

theorem clobberBlock_rel (hu : Stable flags u) {b : Fin k} {s s' : State} {f : NZCV} (hr : Rel (flags b) ∅ s' s)
    (hops : ClobberOps h (annotateFlagLiveness shifts disabled flags u b).code ⟨s, false⟩ m)
    (hf : (annotateFlagLiveness shifts disabled flags u b).nzcvDead = false →
      f = (Config.state ((u b).exit.exec h m)).nzcv) :
    ConfigRel flags ∅ ((u b).exec h s') (Config.setNZCV f ((u b).exit.exec h m)) := by
  have hstart : MachineRel (liveIn flags (u b)) ⟨s', false⟩ ⟨s, false⟩ := ⟨rfl, hr.mono (hu b)⟩
  cases disabled with
  | false => exact setNZCV_rel (terminator_rel (ClobberOps.rel hops hstart)) hf
  | true =>
    have hops' := ClobberOps.of_disabled hops shifts (((u b).exit.liveOut flags).union (u b).exit.reads)
    exact setNZCV_rel (terminator_rel (hops'.rel hstart)) fun _ => hf rfl

theorem annotateFlagLiveness_exit (b : Fin k) : (annotateFlagLiveness shifts disabled flags u b).exit = (u b).exit := by
  cases disabled <;> rfl

theorem ClobberRun.rel (hu : Stable flags u)
    (hrun : ClobberRun h (annotateFlagLiveness shifts disabled flags u) blocks c d) :
    ConfigRel flags ∅ (u.run h blocks c) d := by
  induction hrun with
  | zero c => exact .refl ..
  | @«at» blocks c b s m f hrun hops hf ih =>
    rw [annotateFlagLiveness_exit] at hf ⊢
    rw [FusedUnit.run, Function.iterate_succ_apply', ← FusedUnit.run]
    cases hc : u.run h blocks c with
    | left =>
      rw [hc] at ih
      exact ih.elim
    | «at» b' s' =>
      rw [hc] at ih
      obtain ⟨rfl, hr⟩ := ih
      exact clobberBlock_rel hu hr hops hf
  | @left blocks c dead s hrun ih =>
    rw [FusedUnit.run, Function.iterate_succ_apply', ← FusedUnit.run]
    cases hc : u.run h blocks c with
    | left =>
      rw [hc] at ih
      exact ih
    | «at» =>
      rw [hc] at ih
      exact ih.elim

end

/-- The same way, the same observations and values; the flags are the same at an exit
where they are not dead. -/
def Unseen : Config k → Config k → Prop
  | .at b s, .at b' t => b = b' ∧ s.trace = t.trace ∧ s.env = t.env
  | .left dead s, .left dead' t =>
    dead = dead' ∧ s.trace = t.trace ∧ s.env = t.env ∧ (dead = false → s.nzcv = t.nzcv)
  | _, _ => False

theorem ConfigRel.unseen (hc : ConfigRel flags ∅ c d) : Unseen c d := by
  cases c <;> cases d
  case at.at =>
    obtain ⟨heq, hr⟩ := hc
    exact ⟨heq, hr.trace, funext fun id => hr.env id (Set.notMem_empty id)⟩
  case left.left =>
    obtain ⟨heq, hr⟩ := hc
    refine ⟨heq, hr.trace, funext fun id => hr.env id (Set.notMem_empty id), fun hdead => Agree.eq ?_⟩
    simpa [hdead] using hr.flags
  all_goals exact hc.elim

/-- Whatever the permitted ops leave in the flags, the unit that the pass has made runs
as it does without. -/
theorem annotateFlagLiveness_unseen (opcodes : Nat → Opcode) (shifts : Nat → Bool) (h : Host) (o : Options)
    (fo : FusionOptions) (disabled : Bool) (P : SourceUnit k) (rounds : Nat) (entry : Fin k) (s : State) (blocks : Nat)
    (d : Config k) : let S := P.rounds o rounds
    let u := rewriteUnit opcodes fo S.flags S.unit
    ClobberRun h (annotateFlagLiveness shifts disabled S.flags u) blocks (.at entry s) d →
      Unseen (u.run h blocks (.at entry s)) d := by
  intro S u hrun
  have hu : Stable S.flags u := P.rewriteUnit_stable o fo rounds
  exact ConfigRel.unseen (hrun.rel hu)

/-! ## A shift before an exit with dead flags -/

def shiftSource : SourceUnit 1 where
  unit := fun _ =>
    { hasFlags := false
      code := [⟨1, .other 5 true false, .i64Bit, [.inline 8]⟩]
      exit := .exitFunction [] true
      flagless := by simp [IROps.isFlagOp, Exit.isCondJump] }
  ssa := by decide
  ordered := by decide
  irrefl := by decide
  wide := by decide

def shiftUnit : FusedUnit 1 :=
  let S := shiftSource.rounds ⟨false, false⟩ 1
  rewriteUnit (fun _ => .unnamed) ⟨false, false, false⟩ S.flags S.unit

def shiftPermissions : Fin 1 → Annotated 1 :=
  annotateFlagLiveness (fun opcode => opcode = 5) false (shiftSource.rounds ⟨false, false⟩ 1).flags shiftUnit

theorem shiftUnit_clobbered : ∃ d, ClobberRun zeroHost shiftPermissions 1 (.at 0 ⟨fun _ => 0, .none, []⟩) d ∧
      (Config.state d).nzcv = ⟨false, false, true, false⟩ := by
  have hops : ∃ m, ClobberOps zeroHost (shiftPermissions 0).code ⟨⟨fun _ => 0, .none, []⟩, false⟩ m ∧
      m.state.nzcv = ⟨false, false, true, false⟩ := by
    exact ⟨_, .cons true nofun (.nil _), rfl⟩
  obtain ⟨m, hops, hm⟩ := hops
  refine ⟨_, .at _ (.zero _) hops fun _ => rfl, ?_⟩
  exact hm

/-- Its flags at the exit are not those of the run without the permission. -/
theorem annotateFlagLiveness_exitFlags :
    ∃ d, ClobberRun zeroHost shiftPermissions 1 (.at 0 ⟨fun _ => 0, .none, []⟩) d ∧
      (Config.state (shiftUnit.run zeroHost 1 (.at 0 ⟨fun _ => 0, .none, []⟩))).nzcv ≠ (Config.state d).nzcv := by
  obtain ⟨d, hrun, hd⟩ := shiftUnit_clobbered
  refine ⟨d, hrun, ?_⟩
  rw [hd]
  decide

theorem annotateFlagLiveness_unseen_shift :
    ∃ d, ClobberRun zeroHost shiftPermissions 1 (.at 0 ⟨fun _ => 0, .none, []⟩) d ∧
      Unseen (shiftUnit.run zeroHost 1 (.at 0 ⟨fun _ => 0, .none, []⟩)) d := by
  obtain ⟨d, hrun, -⟩ := shiftUnit_clobbered
  exact ⟨d, hrun, annotateFlagLiveness_unseen (fun _ => .unnamed) (fun opcode => opcode = 5) zeroHost ⟨false, false⟩
    ⟨false, false, false⟩ false shiftSource 1 0 _ 1 d hrun⟩

end PowerArm.Fusion
