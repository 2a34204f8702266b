import PowerArm.Fusion.RunLaws

/-!
# A collapsed chain takes the same way

`runChain` replaces a compare, a conditional compare and the branch on it by one
`ChainCompare` and a branch on its result (`Chain`). From any point before the
compare the new block leaves as the old one does (`Chain.rel`).
-/

namespace PowerArm.Fusion

open Flags

/-! ## Lists of ops -/

theorem mem_splits (hmem : (before, x, after) ∈ splits xs) : xs = before ++ x :: after := by
  induction xs generalizing before with
  | nil => cases hmem
  | cons y ys ih =>
    simp only [splits, List.mem_cons, List.mem_map, Prod.exists] at hmem
    obtain ⟨rfl, rfl, rfl⟩ | ⟨_, _, _, hmem, rfl, rfl, rfl⟩ := hmem
    · rfl
    · rw [ih hmem]
      rfl

def Op.key (op : Op) : Option Nat × List Arg := (op.id?, op.args)

theorem WellFormed.sublist (hwf : WellFormed code)
    (hsub : (code'.map Op.key).Sublist (code.map Op.key)) (hz : ∀ n, .ir n ∈ code' → n.op ≠ .testZ) :
    WellFormed code' where
  nodup := by
    have hids (l : List Op) : opIds l = (l.map Op.key).filterMap Prod.fst := by
      rw [List.filterMap_map]
      rfl
    have hnodup := hwf.nodup
    rw [hids] at hnodup ⊢
    exact (hsub.filterMap _).nodup hnodup
  ordered := by
    have hord : (code.map Op.key).Pairwise fun x y => ∀ id, y.1 = some id → .ref id ∉ x.2 :=
      List.pairwise_map.mpr hwf.ordered
    exact List.pairwise_map.mp (hord.sublist hsub)
  irrefl op hop id hid := by
    obtain ⟨op', hmem, hkey⟩ := List.mem_map.mp (hsub.subset (List.mem_map.mpr ⟨op, hop, rfl⟩))
    obtain ⟨hid', hargs⟩ := Prod.mk.inj hkey
    rw [← hargs]
    exact hwf.irrefl op' hmem id (hid'.trans hid)
  noTestZ := hz

theorem WellFormed.concat (hwf : WellFormed code) (hid : op.id? = none) : WellFormed (code ++ [op]) where
  nodup := by simpa [opIds, hid] using hwf.nodup
  ordered := by
    refine List.pairwise_append.mpr ⟨hwf.ordered, List.pairwise_singleton .., fun _ _ op' hmem id hop => ?_⟩
    obtain rfl := List.mem_singleton.mp hmem
    rw [hid] at hop
    cases hop
  irrefl op' hmem id hop := by
    obtain hmem | hmem := List.mem_append.mp hmem
    · exact hwf.irrefl op' hmem id hop
    · rw [List.mem_singleton.mp hmem, hid] at hop
      cases hop
  noTestZ n hmem := by
    obtain hmem | hmem := List.mem_append.mp hmem
    · exact hwf.noTestZ n hmem
    · rw [← List.mem_singleton.mp hmem] at hid
      cases hid

section
variable {opcodes : Nat → Opcode} {h : Host} {m t : Machine} {ops pre post : List Op}

theorem execOps_cons (op : Op) : execOps h (op :: ops) m = execOps h ops (op.exec h m) := rfl

theorem read_execOps (ha : ∀ op ∈ ops, ∀ id, op.id? = some id → a ≠ .ref id) :
    (execOps h ops m).state.read a = m.state.read a := by
  induction ops generalizing m with
  | nil => rfl
  | cons op ops ih =>
    obtain ⟨hop, hops⟩ := List.forall_mem_cons.mp ha
    rw [execOps_cons, ih hops, read_exec hop]

theorem nzcv_execOps (hw : ∀ op ∈ ops, op.writesNZCV = false) (hz : ∀ n, .ir n ∈ ops → n.op ≠ .testZ) :
    (execOps h ops m).state.nzcv = m.state.nzcv := by
  induction ops generalizing m with
  | nil => rfl
  | cons op ops ih =>
    obtain ⟨hop, hops⟩ := List.forall_mem_cons.mp hw
    rw [execOps_cons, ih hops fun n hn => hz n (.tail _ hn), nzcv_exec hop]
    rintro n rfl
    exact hz n (.head _)

theorem execOps_congr (hr : ∀ op ∈ ops, op.readsNZCV = false) (hs : Same m t) :
    Same (execOps h ops m) (execOps h ops t) := by
  induction ops generalizing m t with
  | nil => exact hs
  | cons op ops ih =>
    obtain ⟨hop, hops⟩ := List.forall_mem_cons.mp hr
    exact ih hops (exec_congr hop hs)

theorem Known.execOps (hk : Known opcodes pre m.state) (hwf : WellFormed (pre ++ ops ++ post)) :
    Known opcodes (pre ++ ops) (execOps (withConstants opcodes h) ops m).state := by
  induction ops generalizing pre m with
  | nil =>
    rw [List.append_nil]
    exact hk
  | cons op ops ih =>
    have hassoc : pre ++ op :: ops ++ post = pre ++ op :: (ops ++ post) := by simp
    have hassoc' : pre ++ op :: ops ++ post = pre ++ [op] ++ ops ++ post := by simp
    have hstep := ih (hk.exec (h := h) (hassoc ▸ hwf)) (hassoc' ▸ hwf)
    rwa [List.append_assoc] at hstep

end

/-! ## The match -/

structure Chain (opcodes : Nat → Opcode) (code : List Node) (exit : Exit k) (fused : FusedBlock k) where
  first : List Node
  p : Node
  between : List Node
  q : Node
  after : List Node
  gate : CondClass
  cond : CondClass
  falseNZCV : Nat
  isAdd : Bool
  ifTrue : Fin k
  ifFalse : Fin k
  pp : Producer
  qp : Producer
  cond1 : CondClass
  cond2 : CondClass
  unused : Bool
  code_eq : code = first ++ p :: (between ++ q :: after)
  exit_eq : exit = .condJump .fromNZCV cond [] ifTrue ifFalse
  compares : condCompare q.op = some (gate, falseNZCV, isAdd)
  quiet : ∀ n ∈ between ++ after, touchesNZCV n = false ∧ mayRaiseSignal opcodes (.ir n) = false
  producer : analyzeProducer opcodes (code.map .ir) (.ir p) = some pp
  operands : analyzeOperands opcodes (code.map .ir) q isAdd = some qp
  gate_eq : resolveFusedCond pp gate = some cond1
  cond_eq : resolveFusedCond qp cond = some cond2
  fused_eq : fused = ⟨(first ++ demote unused p ++ between ++ after).map .ir ++
      [.chainCompare p.size pp.cmp1 pp.cmp2 qp.cmp1 qp.cmp2 cond1 cond2 q.size (evalCondAgainstNZCV cond falseNZCV)],
      .chain ifTrue ifFalse⟩

theorem chainAt_spec (hcode : code = before ++ q :: after)
    (hc : chainAt opcodes outside code exit before q after = some fused) :
    Nonempty (Chain opcodes code exit fused) := by
  unfold chainAt at hc
  split at hc
  next gate falseNZCV isAdd first p between cond ifTrue ifFalse hcompares hlast =>
    obtain ⟨rfl, hbetween⟩ := splitLast_spec hlast
    dsimp only at hc
    split at hc
    next => cases hc
    next hquiet =>
      simp only [Bool.or_eq_true, List.any_eq_true, not_or, not_exists, not_and, Bool.not_eq_true] at hquiet
      split at hc
      next pp qp hpp hqp =>
        split at hc
        next cond1 cond2 hcond1 hcond2 =>
          refine ⟨⟨first, p, between, q, after, gate, cond, falseNZCV, isAdd, ifTrue, ifFalse, pp, qp, cond1, cond2,
            _, by simp [hcode], rfl, hcompares, fun n hn => ?_, hpp, hqp, hcond1, hcond2, (Option.some.inj hc).symm⟩⟩
          have htouch : touchesNZCV n = false := by
            obtain hn | hn := List.mem_append.mp hn
            · exact hbetween n hn
            · exact hquiet.1 n hn
          have hsig := hquiet.2 n hn
          simp only [htouch, Bool.not_false] at hsig
          exact ⟨htouch, hsig⟩
        next => cases hc
      next => cases hc
  next => cases hc

theorem runChain_cases (opcodes : Nat → Opcode) (outside : Nat → Nat) (b : Block k) (live : Bool) :
    runChain opcodes outside b live = .ofBlock b ∨
      live = false ∧ Nonempty (Chain opcodes b.code b.exit (runChain opcodes outside b live)) := by
  unfold runChain
  split
  next => exact .inl rfl
  next hlive =>
    generalize hfind : List.findSome? _ (splits b.code) = found
    cases found with
    | none => exact .inl rfl
    | some fused =>
      obtain ⟨⟨before, q, after⟩, hmem, hc⟩ := List.exists_of_findSome?_eq_some hfind
      exact .inr ⟨Bool.eq_false_iff.mpr hlive, chainAt_spec (mem_splits hmem) hc⟩

/-! ## The way it takes -/

theorem and_two_pow_ne_zero (m i : Nat) : m &&& 2 ^ i ≠ 0 ↔ m.testBit i := by
  rw [Nat.and_two_pow]
  cases m.testBit i <;> simp

theorem evalCondAgainstNZCV_eq {p : Producer} {cond fused : CondClass} (hr : resolveFusedCond p cond = some fused)
    (nzcv : Nat) : evalCondAgainstNZCV cond nzcv = cond.holds (.ofNibble nzcv) := by
  have hn : nzcv &&& 8 ≠ 0 ↔ nzcv.testBit 3 := and_two_pow_ne_zero nzcv 3
  have hz : nzcv &&& 4 ≠ 0 ↔ nzcv.testBit 2 := and_two_pow_ne_zero nzcv 2
  have hc : nzcv &&& 2 ≠ 0 ↔ nzcv.testBit 1 := and_two_pow_ne_zero nzcv 1
  have hv : nzcv &&& 1 ≠ 0 ↔ nzcv.testBit 0 := and_two_pow_ne_zero nzcv 0
  simp only [evalCondAgainstNZCV, hn, hz, hc, hv, NZCV.ofNibble]
  generalize nzcv.testBit 3 = n, nzcv.testBit 2 = z, nzcv.testBit 1 = c, nzcv.testBit 0 = v
  cases cond
  case fu | fnu | fge | flu | fgt | fleu | al | tstz | tstnz => simp [resolveFusedCond, isFusableCond] at hr
  all_goals
    revert n z c v
    decide

theorem condCompare_exec {q : Node} {gate : CondClass} (hc : condCompare q.op = some (gate, falseNZCV, isAdd))
    (h : Host) (s : State) :
    q.exec h s = { s with
        nzcv := if gate.holds s.nzcv then
            ((if isAdd then Arith.add else .sub).compute q.size (word (q.args.map s.read) 0)
              (word (q.args.map s.read) 1) .none).2
          else .ofNibble falseNZCV } := by
  unfold condCompare at hc
  split at hc
  next hop =>
    cases hc
    simp [Node.exec, hop, IROps.hasDest, IROps.traced, Node.flags, Arith.compute]
  next hop =>
    cases hc
    simp [Node.exec, hop, IROps.hasDest, IROps.traced, Node.flags, Arith.compute]
  next => cases hc

theorem WellFormed.read_execOps (hwf : WellFormed (pre ++ op :: post))
    (ha : a ∈ op.args) (h : Host) (m : Machine) : (execOps h (op :: post) m).state.read a = m.state.read a := by
  refine Fusion.read_execOps fun op' hmem id hid heq => ?_
  subst heq
  obtain rfl | hmem := List.mem_cons.mp hmem
  · exact hwf.self hid ha
  · have hord := (List.pairwise_cons.mp (List.pairwise_append.mp hwf.ordered).2.1).1
    exact hord op' hmem id hid ha

theorem demote_key (unused : Bool) (n : Node) :
    ((demote unused n).map fun n => (Op.ir n).key).Sublist [(Op.ir n).key] := by
  unfold demote
  split
  all_goals first | exact .refl _ | (split <;> simp)

theorem demote_testZ (unused : Bool) (hn : n.op ≠ .testZ) : ∀ n' ∈ demote unused n, n'.op ≠ .testZ := by
  unfold demote
  split <;> simp_all

section
variable {opcodes : Nat → Opcode} {code : List Node} {exit : Exit k} {fused : FusedBlock k} {h : Host} {m : Machine}
  (c : Chain opcodes code exit fused)

def Chain.compare : Op :=
  .chainCompare c.p.size c.pp.cmp1 c.pp.cmp2 c.qp.cmp1 c.qp.cmp2 c.cond1 c.cond2 c.q.size
    (evalCondAgainstNZCV c.cond c.falseNZCV)

theorem Chain.quiet_reads (hsub : ns ⊆ c.between ++ c.after) :
    ∀ op ∈ ns.map Op.ir, op.readsNZCV = false ∧ op.writesNZCV = false := by
  intro op hop
  obtain ⟨n, hn, rfl⟩ := List.mem_map.mp hop
  simpa [touchesNZCV] using (c.quiet n (hsub hn)).1

def Chain.rest : List Op := .ir c.p :: (c.between.map .ir ++ .ir c.q :: c.after.map .ir)

include c

theorem Chain.code_map : code.map Op.ir = c.first.map .ir ++ c.rest := by
  conv_lhs => rw [c.code_eq]
  simp [Chain.rest]

/-- The branch reads the second compare where the gate holds for the first, and the
nibble where it does not. -/
theorem Chain.holds (hwf : WellFormed (code.map .ir))
    (hk : Known opcodes (c.first.map .ir) m.state) : let s := (execOps (withConstants opcodes h) c.rest m).state
    c.pp.Valid s ∧ c.pp.size = c.p.size ∧ c.qp.Valid s ∧ c.qp.size = c.q.size ∧
      c.cond.holds s.nzcv = if c.gate.holds (c.pp.flags s) then c.cond.holds (c.qp.flags s)
        else evalCondAgainstNZCV c.cond c.falseNZCV := by
  have hcode := c.code_map
  have hcode' : code.map Op.ir =
      (c.first.map .ir ++ .ir c.p :: c.between.map .ir) ++ .ir c.q :: c.after.map .ir := by
    simp [hcode, Chain.rest]
  have hbetween := c.quiet_reads (List.subset_append_left ..)
  have hafter := c.quiet_reads (List.subset_append_right ..)
  have hz := hwf.noTestZ
  have hp := c.producer
  have hq := c.operands
  rw [hcode] at hp
  rw [hcode'] at hq
  have hwfp : WellFormed (c.first.map .ir ++ .ir c.p :: (c.between.map .ir ++ .ir c.q :: c.after.map .ir)) :=
    hcode ▸ hwf
  have hwfq := hcode' ▸ hwf
  obtain ⟨hpvalid, _, hnode, -, hpsize, hp1, hp2, hpflags⟩ := analyzeProducer_spec hk hwfp hp
  cases hnode
  set mb := execOps (withConstants opcodes h) (.ir c.p :: c.between.map .ir) m with hmb
  have hkb : Known opcodes (c.first.map .ir ++ .ir c.p :: c.between.map .ir) mb.state := hk.execOps hwfq
  obtain ⟨hqvalid, -, hqadd, hqsize, _, hqargs⟩ := analyzeOperands_spec hkb hwfq hq
  have hsplit : execOps (withConstants opcodes h) c.rest m =
      execOps (withConstants opcodes h) (.ir c.q :: c.after.map .ir) mb := by
    rw [← execOps_append]
    rfl
  intro s
  have hpread {a : Arg} (ha : a ∈ c.p.args) : m.state.read a = s.read a := (hwfp.read_execOps ha _ m).symm
  have hqread {a : Arg} (ha : a ∈ c.q.args) : mb.state.read a = s.read a := by
    rw [← hwfq.read_execOps ha (withConstants opcodes h) mb, ← hsplit]
  have hq1 : c.qp.cmp1 ∈ c.q.args := by simp [hqargs]
  have hq2 : c.qp.src2 ∈ c.q.args := by simp [hqargs]
  have hpsame : c.pp.flags m.state = c.pp.flags s := Producer.flags_congr (hpread hp1) (hpread hp2)
  have hqsame : c.qp.flags mb.state = c.qp.flags s := Producer.flags_congr (hqread hq1) (hqread hq2)
  have hflags : mb.state.nzcv = c.pp.flags s := by
    rw [hmb, execOps_cons, nzcv_execOps (fun op hop => (hbetween op hop).2), ← hpsame]
    · exact hpflags ..
    · exact fun n hn => hz n (by simp [hcode', hn])
  have hnzcv : s.nzcv = if c.gate.holds (c.pp.flags s) then c.qp.flags s else .ofNibble c.falseNZCV := by
    have hexec := condCompare_exec c.compares (withConstants opcodes h) mb.state
    have hqflags : ((if c.isAdd then Arith.add else .sub).compute c.q.size (word (c.q.args.map mb.state.read) 0)
        (word (c.q.args.map mb.state.read) 1) .none).2 = c.qp.flags mb.state := by
      rw [Producer.flags, hqadd, hqsize, hqargs]
      rfl
    rw [hqflags, hflags, hqsame] at hexec
    have hlast : s.nzcv = ((Op.ir c.q).exec (withConstants opcodes h) mb).state.nzcv := by
      simp only [s]
      rw [hsplit, execOps_cons, nzcv_execOps (fun op hop => (hafter op hop).2)]
      exact fun n hn => hz n (by simp [hcode', hn])
    rw [hlast]
    exact congrArg State.nzcv hexec
  refine ⟨hpvalid.congr (hpread hp2), hpsize, hqvalid.congr (hqread hq2), hqsize, ?_⟩
  rw [hnzcv, evalCondAgainstNZCV_eq c.cond_eq]
  exact apply_ite ..

theorem Chain.same :
    Same (execOps h c.rest m) (execOps h ((demote c.unused c.p ++ c.between ++ c.after).map .ir) m) := by
  have hbetween := c.quiet_reads (List.subset_append_left ..)
  have hafter := c.quiet_reads (List.subset_append_right ..)
  have hdemote := demote_exec (h := h) c.producer c.unused (.refl m)
  obtain ⟨htrace, henv, hchain⟩ := execOps_congr (h := h) (fun op hop => (hbetween op hop).1) hdemote
  simp only [Chain.rest, List.map_append, execOps_append, execOps_cons]
  refine execOps_congr (fun op hop => (hafter op hop).1) ⟨?_, ?_, hchain⟩
  · simp only [Op.exec, condCompare_exec c.compares]
    exact htrace
  · simp only [Op.exec, condCompare_exec c.compares]
    exact henv

theorem Chain.rel_from (hwf : WellFormed (code.map .ir))
    (hdead : nzcvLiveOut L exit = false) (hk : Known opcodes (c.first.map .ir) m.state) :
    ConfigRel L ∅ ((Terminator.ir exit).exec (withConstants opcodes h) (execOps (withConstants opcodes h) c.rest m))
      ((Terminator.chain c.ifTrue c.ifFalse).exec (withConstants opcodes h) (execOps (withConstants opcodes h)
        ((demote c.unused c.p ++ c.between ++ c.after).map .ir ++ [c.compare]) m)) := by
  obtain ⟨hpvalid, hpsize, hqvalid, hqsize, hholds⟩ := c.holds hwf hk
  have hsame := c.same (h := withConstants opcodes h) (m := m)
  have hgate := resolveFusedCond_sound hpvalid c.gate_eq (withConstants opcodes h)
  have hcond := resolveFusedCond_sound hqvalid c.cond_eq (withConstants opcodes h)
  rw [hpsize, directCompare_congr hsame.trace hsame.env] at hgate
  rw [hqsize, directCompare_congr hsame.trace hsame.env] at hcond
  rw [execOps_append, execOps_singleton]
  set ma := execOps (withConstants opcodes h) c.rest m
  set ta := execOps (withConstants opcodes h) ((demote c.unused c.p ++ c.between ++ c.after).map .ir) m
  have htaken : (c.compare.exec (withConstants opcodes h) ta).chainCR = c.cond.holds ma.state.nzcv := by
    rw [hholds, Chain.compare, Op.exec]
    simp only [hgate, hcond]
    cases c.gate.holds (c.pp.flags ma.state) <;> cases evalCondAgainstNZCV c.cond c.falseNZCV <;> simp
  have hnone : (L c.ifTrue).union (L c.ifFalse) = .none := by
    rw [c.exit_eq] at hdead
    exact not_not.mp (of_decide_eq_false hdead)
  have hexit : (Terminator.ir exit).exec (withConstants opcodes h) ma =
      .at (if c.cond.holds ma.state.nzcv then c.ifTrue else c.ifFalse)
        (ma.state.observe (.branch (c.cond.holds ma.state.nzcv))) := by
    conv_lhs => rw [c.exit_eq]
    rfl
  rw [hexit, Terminator.exec, htaken]
  exact at_rel _ hsame.trace hsame.env fun hne => absurd hnone hne

def Chain.collapsed : List Op :=
  (demote c.unused c.p ++ c.between ++ c.after).map .ir ++ [c.compare]

theorem Chain.fused_code : fused.code = c.first.map .ir ++ c.collapsed := by
  conv_lhs => rw [c.fused_eq]
  simp [Chain.collapsed, Chain.compare]

theorem Chain.fused_exit : fused.exit = .chain c.ifTrue c.ifFalse := by
  conv_lhs => rw [c.fused_eq]

theorem Chain.rel (hwf : WellFormed (code.map .ir))
    (hdead : nzcvLiveOut L exit = false) (hfirst : c.first = done ++ todo)
    (hk : Known opcodes (done.map .ir) m.state) :
    ConfigRel L ∅ ((Terminator.ir exit).exec (withConstants opcodes h)
        (execOps (withConstants opcodes h) (todo.map .ir ++ c.rest) m))
      (fused.exit.exec (withConstants opcodes h)
        (execOps (withConstants opcodes h) (todo.map .ir ++ c.collapsed) m)) := by
  have hcode : code.map Op.ir = done.map .ir ++ todo.map .ir ++ c.rest := by
    rw [c.code_map, hfirst, List.map_append]
  have hk' := hk.execOps (h := h) (hcode ▸ hwf)
  rw [← List.map_append, ← hfirst] at hk'
  rw [c.fused_exit, execOps_append, execOps_append]
  exact c.rel_from hwf hdead hk'

theorem Chain.wellFormed (hwf : WellFormed (code.map .ir)) : WellFormed fused.code := by
  rw [c.fused_code, Chain.collapsed, ← List.append_assoc]
  refine WellFormed.concat (hwf.sublist ?_ ?_) rfl
  · rw [c.code_map, Chain.rest]
    simp only [List.map_append, List.map_cons, List.map_map, List.append_assoc]
    refine .append (.refl _) (.append (demote_key ..) (.append (.refl _) ?_))
    exact List.sublist_cons_self ..
  · have hmem {n : Node} (hn : n ∈ code) : n.op ≠ .testZ := hwf.noTestZ n (List.mem_map.mpr ⟨n, hn, rfl⟩)
    have hcode {n : Node} (hn : n ∈ c.first ∨ n = c.p ∨ n ∈ c.between ∨ n ∈ c.after) : n ∈ code := by
      rw [c.code_eq]
      simp only [List.mem_append, List.mem_cons]
      tauto
    intro n hn
    rw [← List.map_append] at hn
    obtain ⟨n, hn, hop⟩ := List.mem_map.mp hn
    cases hop
    simp only [List.mem_append] at hn
    obtain hn | (hn | hn) | hn := hn
    · exact hmem (hcode (.inl hn))
    · exact demote_testZ _ (hmem (hcode (.inr (.inl rfl)))) n hn
    · exact hmem (hcode (.inr (.inr (.inl hn))))
    · exact hmem (hcode (.inr (.inr (.inr hn))))

end

end PowerArm.Fusion
