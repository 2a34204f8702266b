import PowerArm.Fusion.Annotate
import PowerArm.Fusion.PassLaws

/-!
# The cached live flags outlast the rewrites

The flags that the worklist has found for a block hold those live before it
(`Stable`): a round keeps that, and compare fusion and the folds only make fewer flags
live (`rewriteUnit_live`).
-/

namespace PowerArm.Fusion

open Flags

variable {k : Nat} {opcodes : Nat → Opcode} {L M : NZCV}

/-! ## Live flags -/

def through (op : Op) (flagsRead : NZCV) : NZCV := (flagsRead.diff op.classify.write).union op.classify.read

theorem sub_none (h : L.Sub .none) : L = .none := by
  simp only [NZCV.Sub, NZCV.none, Bool.false_eq_true, imp_false] at h
  ext <;> simp [h, NZCV.none]

theorem through_mono (h : L.Sub M) : (through op L).Sub (through op M) := by
  simp only [through, NZCV.Sub, NZCV.union, NZCV.diff, Bool.or_eq_true] at *
  grind

theorem through_untouched (hr : op.readsNZCV = false) (hw : op.writesNZCV = false) : through op L = L := by
  have hread : op.classify.read = .none := not_not.mp (of_decide_eq_false hr)
  have hwrite : op.classify.write = .none := not_not.mp (of_decide_eq_false hw)
  rw [through, hread, hwrite, diff_none, union_none]

theorem liveBefore_append (L : NZCV) (xs ys : List Op) :
    liveBefore L (xs ++ ys) = liveBefore (liveBefore L ys) xs := by
  induction xs with
  | nil => rfl
  | cons op xs ih => simp [liveBefore, ih]

theorem liveBefore_mono (h : L.Sub M) (code : List Op) : (liveBefore L code).Sub (liveBefore M code) := by
  induction code with
  | nil => exact h
  | cons op code ih => exact through_mono ih

theorem liveBefore_untouched (hcode : ∀ op ∈ code, op.readsNZCV = false ∧ op.writesNZCV = false) :
    liveBefore L code = L := by
  induction code with
  | nil => rfl
  | cons op code ih =>
    obtain ⟨hop, hrest⟩ := List.forall_mem_cons.mp hcode
    rw [liveBefore, ih hrest]
    exact through_untouched hop.1 hop.2

def liveIn (flags : Fin k → NZCV) (b : FusedBlock k) : NZCV :=
  liveBefore ((b.exit.liveOut flags).union b.exit.reads) b.code

theorem liveOut_mono (h : ∀ b, (F b).Sub (G b)) (exit : Terminator k) : (exit.liveOut F).Sub (exit.liveOut G) := by
  have hunion (a b : Fin k) : ((F a).union (F b)).Sub ((G a).union (G b)) :=
    .union ((h a).trans sub_union_left) ((h b).trans sub_union_right)
  cases exit with
  | chain ifTrue ifFalse => exact hunion ..
  | ir exit =>
    cases exit with
    | jump target => exact h target
    | condJump source cond args ifTrue ifFalse => exact hunion ..
    | exitFunction | other => exact .refl _

theorem liveIn_mono (h : ∀ b, (F b).Sub (G b)) (b : FusedBlock k) : (liveIn F b).Sub (liveIn G b) :=
  liveBefore_mono (.union ((liveOut_mono h _).trans sub_union_left) sub_union_right) _

/-- The flags kept for a block hold those that are live before it. -/
def Stable (flags : Fin k → NZCV) (u : FusedUnit k) : Prop := ∀ b, (liveIn flags (u b)).Sub (flags b)

/-! ## The dead-flag rounds -/

theorem replacement_reads {op r : IROps} (hr : op.classify.replacement = some r) :
    r.classify.read.Sub op.classify.read := by
  cases op <;> simp only [IROps.classify] at hr <;> cases hr <;> simp [IROps.classify, NZCV.Sub.refl]

theorem replacementNoWrite_classify {op r : IROps} (hr : op.classify.replacementNoWrite = some r) :
    r.classify.read = op.classify.read ∧ r.classify.write = op.classify.write := by
  cases op <;> simp only [IROps.classify] at hr <;> cases hr <;> simp [IROps.classify]

theorem diff_sub : (L.diff M).Sub L := by
  simp only [NZCV.Sub, NZCV.diff, Bool.and_eq_true]
  exact ⟨And.left, And.left, And.left, And.left⟩

theorem kept_live {n m : Node} (hk : n.Kept unused L m) : (through (.ir m) L).Sub (through (.ir n) L) := by
  cases hk with
  | same => exact .refl _
  | replaced r hrep hdead =>
    refine .union (diff_sub.trans ((sub_diff_of_dead hdead).trans sub_union_left)) ?_
    exact (replacement_reads hrep).trans sub_union_right
  | noWrite r hrep =>
    obtain ⟨hread, hwrite⟩ := replacementNoWrite_classify hrep
    simp only [through, Op.classify, hread, hwrite]
    exact .refl _

/-- A round finds no flag live that was not, and what it keeps of the op makes no
other flag live. -/
theorem process_live (o : Options) (unused : Bool) (n : Node) (L : NZCV) :
    (n.process o unused L).2.Sub (through (.ir n) L) ∧
      (Wide n → (liveBefore L ((n.process o unused L).1.toList.map .ir)).Sub (n.process o unused L).2) := by
  have hp := n.process_spec o unused L
  generalize n.process o unused L = r at hp
  cases hp with
  | removed hu htr hne hdead => exact ⟨sub_union_left, fun _ => sub_diff_of_dead hdead⟩
  | kept m hk =>
    refine ⟨.refl _, fun hw => ?_⟩
    rw [(hw.kept hk).narrowTest]
    exact kept_live hk

theorem processCode_live (o : Options) (outside : Nat → Nat) (code before : List Node) (L : NZCV) :
    let r := processCode o outside before code L
    r.2.Sub (liveBefore L (code.map .ir)) ∧ ((∀ n ∈ code, Wide n) → (liveBefore L (r.1.map .ir)).Sub r.2) := by
  induction code generalizing before with
  | nil => exact ⟨.refl _, fun _ => .refl _⟩
  | cons n rest ih =>
    obtain ⟨hsub, hlive⟩ := ih (before ++ [n])
    simp only [processCode]
    set r := processCode o outside (before ++ [n]) rest L
    generalize decide (outside n.id + usesIn (codeArgs (before ++ [n])) n.id + usesIn (codeArgs r.1) n.id = 0) = unused
    obtain ⟨hop, hkept⟩ := process_live o unused n r.2
    refine ⟨hop.trans (through_mono hsub), fun hw => ?_⟩
    obtain ⟨hn, hrest⟩ := List.forall_mem_cons.mp hw
    rw [List.map_append, liveBefore_append]
    exact (liveBefore_mono (hlive hrest) _).trans (hkept hn)

theorem liveIn_flagless (hb : b.hasFlags = false) (F : Fin k → NZCV) : liveIn F (.ofBlock b) = b.exit.liveOut F := by
  obtain ⟨hops, hjump⟩ := b.flagless hb
  have hreads : b.exit.reads = .none := by cases he : b.exit <;> simp_all [Exit.isCondJump, Exit.reads]
  have hcode : ∀ op ∈ b.code.map Op.ir, op.readsNZCV = false ∧ op.writesNZCV = false := by
    intro op hop
    obtain ⟨n, hn, rfl⟩ := List.mem_map.mp hop
    simp [Op.readsNZCV, Op.writesNZCV, Op.classify, IROps.classify_of_not_isFlagOp (hops n hn)]
  simp only [liveIn, FusedBlock.ofBlock, liveBefore_untouched hcode]
  simp only [Terminator.liveOut, Terminator.reads, hreads, union_none]

theorem processBlock_live (o : Options) (u : IRUnit k) (F : Fin k → NZCV) (b : Fin k) :
    (processBlock o u F b).2.Sub (liveIn F (.ofBlock (u b))) ∧ ((∀ n ∈ (u b).code, Wide n) →
        (liveIn F (.ofBlock (processBlock o u F b).1)).Sub (processBlock o u F b).2) := by
  unfold processBlock
  dsimp only
  split
  next => exact processCode_live ..
  next hf =>
    rw [liveIn_flagless (Bool.eq_false_iff.mpr hf)]
    exact ⟨.refl _, fun _ => .refl _⟩

/-- A round only takes flags away, so what holds of the blocks it leaves alone still
holds. -/
theorem step_stable (o : Options) (u : IRUnit k) {s : PassState k} (hw : ∀ b, ∀ n ∈ (s.unit b).code, Wide n)
    (hs : Stable s.flags fun b => .ofBlock (s.unit b)) :
    Stable (s.step o u).flags fun b => .ofBlock ((s.step o u).unit b) := by
  have hnext (b : Fin k) : Stable (fun b' => if b' = b then (processBlock o s.unit s.flags b).2 else s.flags b')
      fun b' => .ofBlock (if b' = b then (processBlock o s.unit s.flags b).1 else s.unit b') := by
    obtain ⟨hsub, hlive⟩ := processBlock_live o s.unit s.flags b
    have hless (b' : Fin k) :
        (if b' = b then (processBlock o s.unit s.flags b).2 else s.flags b').Sub (s.flags b') := by
      split
      next heq =>
        subst heq
        exact hsub.trans (hs b')
      next => exact .refl _
    intro b'
    refine (liveIn_mono hless _).trans ?_
    dsimp only
    split
    next => exact hlive (hw b)
    next => exact hs b'
  unfold PassState.step
  cases s.worklist.getLast? with
  | none => exact hs
  | some b =>
    dsimp only
    split
    · exact hnext b
    · rw [(PassState.foldl_addWorklist ..).1, (PassState.foldl_addWorklist ..).2]
      exact hnext b

theorem SourceUnit.rounds_stable (P : SourceUnit k) (o : Options) (rounds : Nat) :
    Stable (P.rounds o rounds).flags fun b => .ofBlock ((P.rounds o rounds).unit b) := by
  induction rounds with
  | zero => exact fun _ => sub_all
  | succ rounds ih =>
    rw [SourceUnit.rounds, Function.iterate_succ_apply']
    exact step_stable o P.unit (fun b => (rounds_thinned o P.unit rounds b).wide (P.wide b)) ih

/-! ## Compare fusion -/

theorem liveOut_of_dead {flags : Fin k → NZCV} {exit : Terminator k} (hdead : exit.nzcvLiveOut flags = false) :
    exit.liveOut flags = .none := by
  cases exit with
  | chain ifTrue ifFalse => exact not_not.mp (of_decide_eq_false hdead)
  | ir exit =>
    cases exit with
    | jump target => exact not_not.mp (of_decide_eq_false hdead)
    | condJump source cond args ifTrue ifFalse => exact not_not.mp (of_decide_eq_false hdead)
    | exitFunction | other => cases hdead

theorem reads_eq_none (hcond : ∀ cond, exitCond exit = some cond → cond.flags = .none) : exit.reads = .none := by
  cases exit with
  | chain => rfl
  | ir exit =>
    cases exit with
    | condJump source cond =>
      cases source with
      | fromNZCV => exact hcond cond rfl
      | compare | other => rfl
    | jump | exitFunction | other => rfl

theorem through_all (hr : op.readsNZCV = false) (hall : op.writesAllNZCV) : through op L = .none := by
  have hread : op.classify.read = .none := not_not.mp (of_decide_eq_false hr)
  have hwrite : op.classify.write = .all := of_decide_eq_true hall
  rw [through, hread, hwrite, diff_all, union_none]

theorem demote_live (hp : analyzeProducer opcodes code (.ir n) = some p) (unused : Bool) :
    liveBefore .none ((demote unused n).map .ir) = .none := by
  simp only [analyzeProducer] at hp
  split at hp
  next hop => simp [demote, hop, liveBefore, Op.classify, IROps.classify]
  next hop => cases unused <;> simp [demote, hop, liveBefore, Op.classify, IROps.classify]
  next hop => simp [demote, hop, liveBefore, Op.classify, IROps.classify]
  next hop => cases unused <;> simp [demote, hop, liveBefore, Op.classify, IROps.classify]
  next => cases hp

theorem rewriteExit_live (F : Walk) (flags : Fin k → NZCV) (exit : Terminator k) :
    (rewriteExit F exit).liveOut flags = exit.liveOut flags ∧ (rewriteExit F exit).reads.Sub exit.reads ∧
      (F.applied .exit ≠ none → (rewriteExit F exit).reads = .none) := by
  unfold rewriteExit
  split
  next source cond args ifTrue ifFalse =>
    cases happ : F.applied .exit with
    | none => exact ⟨rfl, .refl _, fun hne => absurd rfl hne⟩
    | some c => exact ⟨rfl, none_sub _, fun _ => rfl⟩
  next exit hnot =>
    refine ⟨rfl, .refl _, fun _ => reads_eq_none fun cond hc => ?_⟩
    obtain ⟨_, _, _, rfl⟩ := exitCond_spec hc
    exact (hnot _ _ _ _ _ rfl).elim

section
variable {code pre post : List Op} {exit : Terminator k} {live rd : Bool} {flags : Fin k → NZCV}

/-- What a dropped producer would be needed for is not there at the end of the block. -/
theorem exit_dropped (hok : WalkOk code (walkAfter opcodes rd code code)) (hwf : WellFormed code)
    (hlive : exit.nzcvLiveOut flags → live)
    (hnot : ¬ Alive (analyze opcodes rd live ⟨code, exit⟩) (walkAfter opcodes rd code code)) :
    ((rewriteExit (analyze opcodes rd live ⟨code, exit⟩) exit).liveOut flags).union
      (rewriteExit (analyze opcodes rd live ⟨code, exit⟩) exit).reads = .none := by
  set F := analyze opcodes rd live ⟨code, exit⟩
  set w := walkAfter opcodes rd code code
  have hnil : code = code ++ [] := (List.append_nil code).symm
  have hl : Leads [] w F := leads_analyze hwf hnil hok
  have hnodup : F.sites.Nodup := hl.nodup hok (hnil ▸ hwf)
  obtain ⟨hkept, rfl⟩ := dropped_at_exit hok hnot
  obtain ⟨hout, hsub, happlied⟩ := rewriteExit_live F flags exit
  have hdead : exit.liveOut flags = .none :=
    liveOut_of_dead (Bool.eq_false_iff.mpr fun ht => absurd (hlive ht) nofun)
  have hreads : (rewriteExit F exit).reads = .none := by
    obtain ⟨-, hcond⟩ | ⟨-, heq | ⟨p, orig, fused, hp, -, -, heq⟩⟩ := w.exit_cases exit
    · rw [reads_eq_none hcond] at hsub
      exact sub_none hsub
    · rw [heq] at hkept
      cases hkept
    · have hmem := Walk.decided_close (w := w.exit exit) (by rw [heq]; exact hp)
        (by rw [heq]; exact List.mem_append_right _ (List.mem_singleton.mpr rfl)) rd false
      have happ := applied_of_mem hnodup hmem
      rw [hkept] at happ
      exact happlied (happ ▸ nofun)
  rw [hout, hdead, hreads]
  rfl

theorem run_live_from (hwf : WellFormed code) (hlive : exit.nzcvLiveOut flags → live)
    (hcode : code = pre ++ post) (hok : WalkOk pre (walkAfter opcodes rd code pre)) (uses : Nat → Nat) :
    let F := analyze opcodes rd live ⟨code, exit⟩
    let L := liveBefore (((rewriteExit F exit).liveOut flags).union (rewriteExit F exit).reads)
      (post.flatMap (rewritten F uses))
    L.Sub (liveBefore ((exit.liveOut flags).union exit.reads) post) ∧
      (¬ Alive F (walkAfter opcodes rd code pre) → L = .none) := by
  intro F
  induction post generalizing pre with
  | nil =>
    rw [List.append_nil] at hcode
    subst hcode
    obtain ⟨hout, hreads, -⟩ := rewriteExit_live F flags exit
    refine ⟨?_, exit_dropped hok hwf hlive⟩
    rw [hout]
    exact .union sub_union_left (hreads.trans sub_union_right)
  | cons op post ih =>
    have hassoc : code = pre ++ [op] ++ post := by simp [hcode]
    have hok' := walkAfter_ok hok hwf hcode
    have hl : Leads post (walkAfter opcodes rd code (pre ++ [op])) F := leads_analyze hwf hassoc hok'
    obtain ⟨hsub, hnone⟩ := ih hassoc hok'
    rw [List.flatMap_cons, liveBefore_append]
    set R := liveBefore (((rewriteExit F exit).liveOut flags).union (rewriteExit F exit).reads)
      (post.flatMap (rewritten F uses))
    rw [walkAfter_append] at hl hnone
    subst hcode
    obtain ⟨hr, hw, hcur, heq⟩ | ⟨hw, hcur, halive, heq⟩ |
      ⟨n, p, cond, fused, _, _, rfl, -, hcur, hop, -, -, heq⟩ | ⟨hends, hrest⟩ := rewritten_cases hok hwf hl uses
    · rw [heq]
      refine ⟨through_mono hsub, fun hnot => ?_⟩
      have hsame : liveBefore R [op] = R := through_untouched hr hw
      rw [hsame]
      exact hnone fun ha => hnot ((alive_congr hcur).mp ha)
    · rw [heq]
      exact ⟨through_mono hsub, fun hnot => absurd halive hnot⟩
    · have hselect : liveBefore R (rewritten F uses (.ir n)) = R := by
        rw [heq]
        exact through_untouched rfl rfl
      have hwrite : (Op.ir n).classify.write = .none := by simp [Op.classify, hop, IROps.classify]
      rw [hselect]
      refine ⟨hsub.trans ?_, fun hnot => hnone fun ha => hnot ((alive_congr hcur).mp ha)⟩
      rw [liveBefore, hwrite, diff_none]
      exact sub_union_left
    · obtain ⟨n, p, rfl, hproducer, hnot, heq⟩ | heq := hrest
      · rw [heq, hnone hnot, demote_live hproducer]
        exact ⟨none_sub _, fun _ => rfl⟩
      · rw [heq]
        refine ⟨through_mono hsub, fun hnot => ?_⟩
        obtain halive | ⟨hr, hall⟩ := hends
        · exact absurd halive hnot
        · exact through_all hr hall

theorem run_live (hwf : WellFormed b.code) (hlive : b.exit.nzcvLiveOut flags → live)
    (outside : Nat → Nat) : (liveIn flags (run opcodes outside rd b live)).Sub (liveIn flags b) := by
  obtain ⟨uses, hrun⟩ := run_code opcodes outside rd b live
  obtain ⟨code, exit⟩ := b
  have hinit : WalkOk [] (walkAfter opcodes rd code []) :=
    (At.init (analyze opcodes rd live ⟨code, exit⟩) code ⟨⟨fun _ => 0, .none, []⟩, false⟩).ok
  rw [hrun]
  exact (run_live_from hwf hlive (List.nil_append code).symm hinit uses).1

end

/-- Nothing after a collapsed chain reads flags, so none is live from its compare on. -/
theorem Chain.live {b : Block k} {c : FusedBlock k} {flags : Fin k → NZCV} (ch : Chain opcodes b.code b.exit c)
    (hdead : nzcvLiveOut flags b.exit = false) : (liveIn flags c).Sub (liveIn flags (.ofBlock b)) := by
  have hquiet {ns : List Node} (hns : ns ⊆ ch.between ++ ch.after) (L : NZCV) : liveBefore L (ns.map .ir) = L :=
    liveBefore_untouched (ch.quiet_reads hns)
  have hout : c.exit.liveOut flags = .none := by
    refine liveOut_of_dead ?_
    rw [ch.fused_exit, ← hdead]
    exact (congrArg (nzcvLiveOut flags) ch.exit_eq).symm
  have hreads : c.exit.reads = .none := by
    rw [ch.fused_exit]
    rfl
  have hcollapsed : liveBefore .none ch.collapsed = .none := by
    have hcompare : liveBefore .none [ch.compare] = .none := through_untouched rfl rfl
    rw [Chain.collapsed, liveBefore_append, hcompare, List.append_assoc, List.map_append, liveBefore_append,
      hquiet (List.Subset.refl _), demote_live ch.producer]
  have hcode : (FusedBlock.ofBlock b).code = ch.first.map .ir ++ ch.rest := ch.code_map
  rw [liveIn, liveIn, ch.fused_code, hcode, liveBefore_append, liveBefore_append, hout, hreads, union_none, hcollapsed]
  exact liveBefore_mono (none_sub _) _

theorem fuseBlock_live (fo : FusionOptions) (flags : Fin k → NZCV) (hwf : WellFormed ((u b).code.map .ir)) :
    (liveIn flags (fuseBlock opcodes fo u flags b)).Sub (liveIn flags (.ofBlock (u b))) := by
  unfold fuseBlock
  dsimp only
  split
  next =>
    have hchain (outside : Nat → Nat) :
        (liveIn flags (runChain opcodes outside (u b) (nzcvLiveOut flags (u b).exit))).Sub
          (liveIn flags (.ofBlock (u b))) := by
      obtain heq | ⟨hdead, ⟨ch⟩⟩ := runChain_cases opcodes outside (u b) (nzcvLiveOut flags (u b).exit)
      · rw [heq]
        exact .refl _
      · exact ch.live hdead
    split
    next =>
      have hf : Follows opcodes flags (u b) (.ofBlock (u b)) := .ofBlock hwf flags
      exact run_live hf.wellFormed (fun ht => hf.live ▸ ht) _
    next =>
      have hf (outside : Nat → Nat) :
          Follows opcodes flags (u b) (runChain opcodes outside (u b) (nzcvLiveOut flags (u b).exit)) :=
        runChain_follows hwf flags outside
      exact (run_live (hf _).wellFormed (fun ht => (hf _).live ▸ ht) _).trans (hchain _)
  next => exact .refl _

/-! ## FoldBranch -/

theorem storeRegister_untouched {op : Op} (hop : op.isStoreRegister) :
    op.readsNZCV = false ∧ op.writesNZCV = false := by
  cases op with
  | ir n => cases hn : n.op <;> simp_all [Op.isStoreRegister, IROps.isStoreRegister, Op.readsNZCV, Op.writesNZCV,
      Op.classify, IROps.classify]
  | _ => cases hop

theorem foldBranch_cases (b : FusedBlock k) : b.foldBranch = b ∨ ∃ before prev stores x cond args ifTrue ifFalse,
      b = ⟨before ++ .ir prev :: stores, .ir (.condJump .fromNZCV cond args ifTrue ifFalse)⟩ ∧
      (∀ op ∈ stores, op.isStoreRegister) ∧
      b.foldBranch = ⟨before ++ stores, .ir (.condJump (.compare prev.size) cond [x, .inline 0] ifTrue ifFalse)⟩ := by
  obtain ⟨code, exit⟩ := b
  unfold FusedBlock.foldBranch
  dsimp only
  split
  next before prev stores hlast =>
    obtain ⟨rfl, hstores⟩ := splitLast_spec hlast
    split
    next hfold =>
      obtain ⟨cond, args, ifTrue, ifFalse, x, rfl, -, -, -, rfl⟩ := foldedExit_some hfold
      exact .inr ⟨before, prev, stores, x, cond, args, ifTrue, ifFalse, rfl,
        fun op hop => by simpa using hstores op hop, rfl⟩
    next => exact .inl rfl
  next => exact .inl rfl

theorem foldFused_live (flags : Fin k → NZCV) (hasFlags : Bool) (b : FusedBlock k) :
    (liveIn flags (foldFused flags hasFlags b)).Sub (liveIn flags b) := by
  have hfold (hdead : b.exit.liveOut flags = .none) : (liveIn flags b.foldBranch).Sub (liveIn flags b) := by
    obtain heq | ⟨before, prev, stores, x, cond, args, ifTrue, ifFalse, rfl, hstores, heq⟩ := foldBranch_cases b
    · rw [heq]
      exact .refl _
    · have hout : (flags ifTrue).union (flags ifFalse) = .none := hdead
      have hlast : liveBefore .none stores = .none :=
        liveBefore_untouched fun op hop => storeRegister_untouched (hstores op hop)
      rw [heq, liveIn, liveIn, liveBefore_append, liveBefore_append]
      refine liveBefore_mono ?_ _
      simp only [Terminator.liveOut, Terminator.reads, Exit.liveOut, Exit.reads, hout, union_none, hlast]
      exact none_sub _
  unfold foldFused
  split
  next =>
    split
    next hc => exact hfold hc.2
    next => exact .refl _
  next => exact .refl _

theorem SourceUnit.rewriteUnit_stable (P : SourceUnit k) (o : Options) (fo : FusionOptions) (rounds : Nat) :
    let S := P.rounds o rounds
    Stable S.flags (rewriteUnit opcodes fo S.flags S.unit) := by
  intro S b
  have hwf : WellFormed ((S.unit b).code.map .ir) := P.wellFormed (rounds_thinned o P.unit rounds b)
  exact ((foldFused_live ..).trans (fuseBlock_live fo S.flags hwf)).trans (P.rounds_stable o rounds b)

end PowerArm.Fusion
