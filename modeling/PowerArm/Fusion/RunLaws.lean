import PowerArm.Fusion.WalkLaws

/-!
# Fused readers see what they saw

The rewritten block runs in step with the original one. Values and observations are
the same all along, and the flags are but for the range of a dropped compare (`Sim`).
An op that may raise a signal is never in such a range with a reader still to come
(`resume_rel`).
-/

namespace PowerArm.Fusion

open Flags

variable {id : Nat} {opcodes : Nat → Opcode} {pre post : List Op} {op : Op} {h : Host} {m t : Machine}
  {w F : Walk} {rd : Bool}

/-! ## The rewrite of a reader -/

theorem exists_node_of_reads (hr : op.readsNZCV) : ∃ n, op = .ir n := by
  cases op with
  | ir n => exact ⟨n, rfl⟩
  | select => simp [Op.readsNZCV, Op.classify] at hr
  | chainCompare => simp [Op.readsNZCV, Op.classify] at hr

theorem readers_eq (code : List Op) : ∃ l : List Nat, readers code = l.map Site.node ∧ l.Sublist (opIds code) := by
  induction code with
  | nil => exact ⟨[], rfl, .refl _⟩
  | cons op code ih =>
    obtain ⟨l, heq, hsub⟩ := ih
    cases hr : op.readsNZCV with
    | false =>
      refine ⟨l, by simpa [readers, hr] using heq, hsub.trans ?_⟩
      exact (List.sublist_cons_self op code).filterMap _
    | true =>
      obtain ⟨n, rfl⟩ := exists_node_of_reads hr
      exact ⟨n.id :: l, by simpa [readers, hr, Op.site] using heq, hsub.cons_cons _⟩

theorem mem_opIds_of_reader (hx : .node id ∈ readers code) : id ∈ opIds code := by
  obtain ⟨l, heq, hsub⟩ := readers_eq code
  rw [heq] at hx
  obtain ⟨_, hx, hid⟩ := List.mem_map.mp hx
  cases hid
  exact hsub.subset hx

theorem readers_nodup (hwf : WellFormed code) : (readers code ++ [Site.exit]).Nodup := by
  obtain ⟨l, heq, hsub⟩ := readers_eq code
  rw [heq]
  refine List.Nodup.append ?_ (List.nodup_singleton _) (by simp)
  exact (hsub.nodup hwf.nodup).map fun _ _ heq => by simpa using heq

theorem Leads.nodup (hl : Leads post w F) (hok : WalkOk pre w) (hwf : WellFormed (pre ++ post)) : F.sites.Nodup := by
  obtain ⟨more, hF, hsub⟩ := hl.sites
  have hall : (w.sites ++ more).Sublist (readers pre ++ (readers post ++ [.exit])) := hok.sites.append hsub
  have hreaders : readers pre ++ (readers post ++ [.exit]) = readers (pre ++ post) ++ [.exit] := by simp [readers]
  rw [hF]
  exact (hreaders ▸ hall).nodup (readers_nodup hwf)

theorem applied_of_mem {c : Consumer} (hnodup : F.sites.Nodup) (hmem : { c with apply := a } ∈ F.closed) :
    F.applied c.site = if a then some { c with apply := true } else none := by
  have hclosed : (F.closed.map Consumer.site).Nodup :=
    ((List.sublist_append_left ..).map Consumer.site).nodup hnodup
  have hunique {c' : Consumer} (hc' : c' ∈ F.closed) (hsite : c'.site = c.site) : c' = { c with apply := a } :=
    List.inj_on_of_nodup_map hclosed hc' hmem hsite
  cases happ : F.applied c.site with
  | none =>
    have hnone := List.find?_eq_none.mp happ _ hmem
    simp only [decide_true, Bool.true_and] at hnone
    simp [hnone]
  | some c' =>
    have hsite := List.find?_some happ
    simp only [Bool.and_eq_true, decide_eq_true_eq] at hsite
    have heq := hunique (List.mem_of_find?_eq_some happ) hsite.1
    rw [heq] at hsite ⊢
    obtain rfl : a := hsite.2
    rfl

theorem applied_of_notMem (hnot : site ∉ F.sites) : F.applied site = none := by
  refine List.find?_eq_none.mpr fun c hc heq => hnot ?_
  simp only [Bool.and_eq_true, decide_eq_true_eq] at heq
  exact List.mem_map.mpr ⟨c, List.mem_append_left _ hc, heq.1⟩

section
variable (hok : WalkOk pre w) (hwf : WellFormed (pre ++ op :: post))
  (hl : Leads post (w.step opcodes rd (pre ++ op :: post) op) F)
include hok hwf hl

theorem applied_none (hop : op = .ir n) (hsame : (w.step opcodes rd (pre ++ op :: post) op).sites = w.sites) :
    F.applied (.node n.id) = none := by
  obtain ⟨more, hF, hsub⟩ := hl.sites
  obtain ⟨hpre, hpost⟩ := hwf.fresh (show op.id? = some n.id by rw [hop, Op.id?])
  refine applied_of_notMem ?_
  rw [hF, hsame, List.mem_append]
  rintro (hx | hx)
  · exact hpre (mem_opIds_of_reader (hok.sites.subset hx))
  · have hx := hsub.subset hx
    simp only [List.mem_append, List.mem_singleton, reduceCtorEq, or_false] at hx
    exact hpost (mem_opIds_of_reader hx)

theorem applied_of_opened {c : Consumer} (hc : c ∈ (w.step opcodes rd (pre ++ op :: post) op).opened) :
    F.applied c.site = some { c with apply := true } ∨
    F.applied c.site = none ∧ ∀ p, (w.step opcodes rd (pre ++ op :: post) op).cur = some p →
      p.id ∉ F.deadProducers := by
  obtain ⟨a, hmem, hdead⟩ := hl.opened c hc
  have happ := applied_of_mem ((hl.of_step hok hwf).nodup hok hwf) hmem
  cases a with
  | true => exact .inl happ
  | false => exact .inr ⟨happ, hdead rfl⟩

end

/-! ## Two runs -/

def Alive (F w : Walk) : Prop := ∀ p, w.cur = some p → p.id ∉ F.deadProducers

/-- All but the flags. -/
structure Same (m t : Machine) : Prop where
  trace : m.state.trace = t.state.trace
  env : m.state.env = t.state.env
  chainCR : m.chainCR = t.chainCR

structure Sim (F w : Walk) (m t : Machine) : Prop where
  trace : m.state.trace = t.state.trace
  env : m.state.env = t.state.env
  chainCR : m.chainCR = t.chainCR
  flags : Alive F w → m.state.nzcv = t.state.nzcv

theorem Same.refl (m : Machine) : Same m m := ⟨rfl, rfl, rfl⟩

theorem Sim.same (hs : Sim F w m t) : Same m t := ⟨hs.trace, hs.env, hs.chainCR⟩

theorem Same.eq (hs : Same m t) (hnzcv : m.state.nzcv = t.state.nzcv) : m = t := by
  obtain ⟨⟨env, nzcv, trace⟩, chainCR⟩ := m
  obtain ⟨rfl, rfl, rfl⟩ := hs
  cases hnzcv
  rfl

theorem Sim.eq (hs : Sim F w m t) (ha : Alive F w) : m = t := hs.same.eq (hs.flags ha)

theorem State.read_congr {s s' : State} (henv : s.env = s'.env) : s.read = s'.read := by
  funext a
  cases a <;> simp [State.read, henv]

theorem directCompare_congr {s s' : State} (htrace : s.trace = s'.trace) (henv : s.env = s'.env) :
    directCompare h s = directCompare h s' := by
  funext size cond x y
  simp only [directCompare, CondSource.taken, State.read_congr henv, htrace]

theorem exec_congr (hr : op.readsNZCV = false) (hs : Same m t) : Same (op.exec h m) (op.exec h t) := by
  obtain ⟨htrace, henv, hchain⟩ := hs
  have hread := State.read_congr henv
  cases op with
  | ir n =>
    have hnone : n.op.classify.read = .none := not_not.mp (of_decide_eq_false hr)
    have hvalue : n.value h t.state.trace (n.args.map t.state.read) m.state.nzcv =
        n.value h t.state.trace (n.args.map t.state.read) t.state.nzcv :=
      Node.value_congr (hnone ▸ agree_none)
    constructor <;> simp [Op.exec, Node.exec, htrace, henv, hread, hvalue, hchain]
  | select =>
    simp only [Op.exec, directCompare_congr htrace henv, hread, henv]
    exact ⟨htrace, rfl, hchain⟩
  | chainCompare =>
    simp only [Op.exec, directCompare_congr htrace henv]
    exact ⟨htrace, henv, rfl⟩

def rewritten (F : Walk) (uses : Nat → Nat) (op : Op) : List Op := dropDead F uses (rewriteOp F op)

theorem rewriteOp_of_applied_none (happ : ∀ n, op = .ir n → F.applied (.node n.id) = none) : rewriteOp F op = op := by
  cases op with
  | ir n => simp [rewriteOp, happ n rfl]
  | _ => rfl

theorem demote_of_not_writes (hw : (Op.ir n).writesNZCV = false) (unused : Bool) : demote unused n = [n] := by
  unfold demote
  split
  all_goals first | rfl | simp_all [Op.writesNZCV, Op.classify, IROps.classify, NZCV.all, NZCV.none]

theorem dropDead_of_not_writes (hw : op.writesNZCV = false) (uses : Nat → Nat) : dropDead F uses op = [op] := by
  cases op with
  | ir n =>
    simp only [dropDead]
    split
    · rw [demote_of_not_writes hw]
      rfl
    · rfl
  | _ => rfl

theorem demote_exec {n : Node} (hp : analyzeProducer opcodes code (.ir n) = some p) (unused : Bool) (hs : Same m t) :
    Same ((Op.ir n).exec h m) (execOps h ((demote unused n).map .ir) t) := by
  have hread := State.read_congr hs.env
  simp only [analyzeProducer] at hp
  split at hp
  case h_5 => cases hp
  all_goals
    next hop =>
    cases unused <;> constructor <;> simp [demote, hop, execOps, Op.exec, Node.exec, Node.value, IROps.hasDest,
      IROps.traced, Arith.compute, hs.trace, hs.env, hread, hs.chainCR]

theorem execOps_singleton : execOps h [op] m = op.exec h m := rfl

theorem select_exec {n : Node} {p : Producer} {cond fused : CondClass} (hs : Sim F w m t)
    (hp : p.Valid m.state) (hflags : m.state.nzcv = p.flags m.state)
    (hfused : resolveFusedCond p cond = some fused) (hop : n.op = .nzcvSelect cond)
    (hargs : n.args = [trueVal, falseVal]) :
    Sim F w ((Op.ir n).exec h m)
      ((Op.select n.id n.size p.size fused p.cmp1 p.cmp2 trueVal falseVal).exec h t) := by
  have hcompare := resolveFusedCond_sound hp hfused h
  have hread := State.read_congr hs.env
  rw [← hflags, directCompare_congr hs.trace hs.env] at hcompare
  refine ⟨?_, ?_, hs.chainCR, fun ha => ?_⟩
  · simp [Op.exec, Node.exec, hop, IROps.traced, hs.trace]
  · simp only [Op.exec, Node.exec, hop, IROps.hasDest, Node.value, hcompare, hargs, hs.env, hread]
    cases cond.holds m.state.nzcv <;> simp [word]
  · simp only [Op.exec, Node.exec, Node.flags, hop]
    exact hs.flags ha

theorem writesAllNZCV_exec (hall : op.writesAllNZCV) (hr : op.readsNZCV = false) (hs : Same m t) :
    (op.exec h m).state.nzcv = (op.exec h t).state.nzcv := by
  cases op with
  | ir n =>
    have hwrite : n.op.classify.write = .all := of_decide_eq_true hall
    have hread : n.op.classify.read = .none := not_not.mp (of_decide_eq_false hr)
    have hagree : Agree .all (n.flags h t.state.trace (n.args.map t.state.read) m.state.nzcv)
        (n.flags h t.state.trace (n.args.map t.state.read) t.state.nzcv) :=
      Node.flags_congr (by rw [hwrite, hread, diff_all]; exact agree_none)
    simp only [Op.exec, Node.exec, hs.trace, State.read_congr hs.env]
    exact hagree.eq
  | select => cases hall
  | chainCompare => cases hall

theorem alive_congr (hcur : w'.cur = w.cur) : Alive F w' ↔ Alive F w := by rw [Alive, Alive, hcur]

section
variable (hok : WalkOk pre w) (hwf : WellFormed (pre ++ op :: post))
  (hl : Leads post (w.step opcodes rd (pre ++ op :: post) op) F)
include hok hwf hl

theorem rewritten_of_not_writes (hw : op.writesNZCV = false)
    (hsame : (w.step opcodes rd (pre ++ op :: post) op).sites = w.sites) (uses : Nat → Nat) :
    rewritten F uses op = [op] := by
  rw [rewritten, rewriteOp_of_applied_none fun n hop => applied_none hok hwf hl hop hsame, dropDead_of_not_writes hw]

/-- What is left of an op. It stays, or it is a fused reader or a dropped producer. A
writer ends the range of the producer before it; if that one is dropped, it writes all
flags and reads none. -/
theorem rewritten_cases (uses : Nat → Nat) :
    let w' := w.step opcodes rd (pre ++ op :: post) op
    (op.readsNZCV = false ∧ op.writesNZCV = false ∧ w'.cur = w.cur ∧ rewritten F uses op = [op]) ∨
    (op.writesNZCV = false ∧ w'.cur = w.cur ∧ Alive F w ∧ rewritten F uses op = [op]) ∨
    (∃ n p cond fused trueVal falseVal, op = .ir n ∧ w.cur = some p ∧ w'.cur = w.cur ∧ n.op = .nzcvSelect cond ∧
      n.args = [trueVal, falseVal] ∧ resolveFusedCond p cond = some fused ∧
      rewritten F uses op = [.select n.id n.size p.size fused p.cmp1 p.cmp2 trueVal falseVal]) ∨
    ((Alive F w ∨ op.readsNZCV = false ∧ op.writesAllNZCV) ∧
      ((∃ n p, op = .ir n ∧ analyzeProducer opcodes (pre ++ op :: post) op = some p ∧ ¬ Alive F w' ∧
        rewritten F uses op = (demote (uses n.id = 0) n).map .ir) ∨ rewritten F uses op = [op])) := by
  intro w'
  obtain ⟨hr, hw, hstep⟩ | ⟨hr, hw, hstep⟩ | ⟨hr, hw, c, hfuse, hstep⟩ | ⟨hw, hstep⟩ :=
    w.step_cases opcodes rd (pre ++ op :: post) op
  · refine .inl ⟨hr, hw, by simp only [w', hstep], ?_⟩
    exact rewritten_of_not_writes hok hwf hl hw (by rw [hstep]; rfl) uses
  · have halive : Alive F w := fun p hp hd => by
      have hkept := hl.kept p
      rw [hstep] at hkept
      exact absurd (hkept hp hd) nofun
    refine .inr (.inl ⟨hw, by simp only [w', hstep], halive, ?_⟩)
    exact rewritten_of_not_writes hok hwf hl hw (by rw [hstep]; rfl) uses
  · obtain ⟨p, cond, fused, hp, hcond, hfused, rfl⟩ := hfuse
    obtain ⟨n, trueVal, falseVal, rfl, hop, hargs⟩ := selectCond_spec hcond
    have hcur : w'.cur = w.cur := by simp only [w', hstep]
    have happ := applied_of_opened hok hwf hl (c := ⟨.node n.id, p, fused, nzcvFormReadsXER cond, false⟩)
      (by rw [hstep]; exact List.mem_append_right _ (List.mem_singleton.mpr rfl))
    obtain happ | ⟨happ, halive⟩ := happ
    · have hrewrite : rewriteOp F (.ir n) = .select n.id n.size p.size fused p.cmp1 p.cmp2 trueVal falseVal := by
        simp only [rewriteOp, happ, hargs]
      refine .inr (.inr (.inl ⟨n, p, cond, fused, trueVal, falseVal, rfl, hp, hcur, hop, hargs, hfused, ?_⟩))
      rw [rewritten, hrewrite]
      rfl
    · have hrewrite : rewriteOp F (.ir n) = .ir n := by simp [rewriteOp, happ]
      rw [hstep] at halive
      exact .inr (.inl ⟨hw, hcur, halive, by rw [rewritten, hrewrite, dropDead_of_not_writes hw]⟩)
  · refine .inr (.inr (.inr ⟨?_, ?_⟩))
    · by_cases halive : Alive F w
      · exact .inl halive
      · obtain ⟨p, hp, hdead⟩ : ∃ p, w.cur = some p ∧ p.id ∈ F.deadProducers := by simpa [Alive] using halive
        exact .inr (hl.closes hok hwf hw hp hdead).2
    · cases op with
      | select => cases hw
      | chainCompare => cases hw
      | ir n =>
        have hsites : (w.step opcodes rd (pre ++ .ir n :: post) (.ir n)).sites = w.sites := by
          rw [hstep]
          exact sites_close ..
        rw [rewritten, rewriteOp_of_applied_none fun n hop => applied_none hok hwf hl hop hsites]
        by_cases hd : n.id ∈ F.deadProducers
        · have hfresh := hwf.fresh (show (Op.ir n).id? = some n.id from rfl)
          have hcur : ∃ p, w'.cur = some p ∧ p.id = n.id := by
            obtain hx | hx | hx := hl.dead n.id hd
            · rw [hstep] at hx
              obtain hx | ⟨p, hp, hid, -⟩ := Walk.mem_dead_close hx
              · exact absurd (hok.dead n.id hx) hfresh.1
              · exact absurd (hid ▸ (hok.cur p hp).1) hfresh.1
            · exact hx
            · exact absurd hx hfresh.2
          obtain ⟨p, hp, hid⟩ := hcur
          have hproducer : analyzeProducer opcodes (pre ++ .ir n :: post) (.ir n) = some p := by
            simp only [w', hstep] at hp
            exact hp
          refine .inl ⟨n, p, rfl, hproducer, fun ha => ha p hp (hid ▸ hd), ?_⟩
          rw [dropDead, if_pos hd]
        · exact .inr (by rw [dropDead, if_neg hd])

theorem Sim.step (hs : Sim F w m t) (ht : Tracks opcodes pre w m.state) (uses : Nat → Nat) :
    Sim F (w.step opcodes rd (pre ++ op :: post) op) (op.exec h m) (execOps h (rewritten F uses op) t) := by
  have hsame (halive : Alive F w) {w' : Walk} : Sim F w' (op.exec h m) (execOps h [op] t) := by
    rw [hs.eq halive]
    exact ⟨rfl, rfl, rfl, fun _ => rfl⟩
  obtain ⟨hr, -, hcur, heq⟩ | ⟨-, -, halive, heq⟩ | ⟨n, p, cond, fused, _, _, rfl, hp, hcur, hop, hargs, hfused, heq⟩ |
    ⟨hends, hrest⟩ := rewritten_cases hok hwf hl uses
  · rw [heq]
    obtain ⟨htrace, henv, hchain⟩ := exec_congr hr hs.same
    refine ⟨htrace, henv, hchain, fun ha => ?_⟩
    rw [hs.eq ((alive_congr hcur).mp ha)]
    rfl
  · rw [heq]
    exact hsame halive
  · rw [heq]
    obtain ⟨hvalid, hflags, -⟩ := ht.cur p hp
    obtain ⟨htrace, henv, hchain, hnzcv⟩ := select_exec hs hvalid hflags hfused hop hargs
    exact ⟨htrace, henv, hchain, fun ha => hnzcv ((alive_congr hcur).mp ha)⟩
  · obtain ⟨n, p, rfl, hproducer, hnot, heq⟩ | heq := hrest
    · rw [heq]
      obtain ⟨htrace, henv, hchain⟩ := demote_exec hproducer (uses n.id = 0) hs.same
      exact ⟨htrace, henv, hchain, fun ha => absurd ha hnot⟩
    · rw [heq]
      obtain halive | ⟨hr, hall⟩ := hends
      · exact hsame halive
      · obtain ⟨htrace, henv, hchain⟩ := exec_congr hr hs.same
        exact ⟨htrace, henv, hchain, fun _ => writesAllNZCV_exec hall hr hs.same⟩

end

/-! ## The whole block -/

theorem execOps_append (xs ys : List Op) : execOps h (xs ++ ys) m = execOps h ys (execOps h xs m) :=
  List.foldl_append

def walkAfter (opcodes : Nat → Opcode) (rd : Bool) (code pre : List Op) : Walk :=
  pre.foldl (Walk.step opcodes rd code) {}

theorem walkAfter_append (opcodes : Nat → Opcode) (rd : Bool) (code pre : List Op) (op : Op) :
    walkAfter opcodes rd code (pre ++ [op]) = (walkAfter opcodes rd code pre).step opcodes rd code op := by
  simp [walkAfter]

structure At (opcodes : Nat → Opcode) (rd : Bool) (F : Walk) (code pre : List Op) (m t : Machine) : Prop where
  tracks : Tracks opcodes pre (walkAfter opcodes rd code pre) m.state
  ok : WalkOk pre (walkAfter opcodes rd code pre)
  sim : Sim F (walkAfter opcodes rd code pre) m t

section
variable {exit : Terminator k} {live : Bool} {code : List Op} {s : State}

theorem leads_analyze (hwf : WellFormed code) (hcode : code = pre ++ post)
    (hok : WalkOk pre (walkAfter opcodes rd code pre)) :
    Leads post (walkAfter opcodes rd code pre) (analyze opcodes rd live ⟨code, exit⟩) := by
  have hfinish : analyze opcodes rd live ⟨code, exit⟩ =
      finish opcodes rd live code exit post (walkAfter opcodes rd code pre) := by
    simp [analyze, finish, walkAfter, hcode]
  rw [hfinish]
  subst hcode
  exact leads_finish hok hwf rd live

theorem walkAfter_ok (hok : WalkOk pre (walkAfter opcodes rd code pre)) (hwf : WellFormed code)
    (hcode : code = pre ++ op :: post) : WalkOk (pre ++ [op]) (walkAfter opcodes rd code (pre ++ [op])) := by
  rw [walkAfter_append]
  subst hcode
  exact hok.step hwf rd

theorem At.init (F : Walk) (code : List Op) (m : Machine) : At opcodes rd F code [] m m where
  tracks := ⟨fun _ _ _ _ _ _ hmem => absurd hmem List.not_mem_nil, nofun⟩
  ok := ⟨.refl _, fun _ hx => absurd hx List.not_mem_nil, nofun, fun _ => rfl⟩
  sim := ⟨rfl, rfl, rfl, fun _ => rfl⟩

section
variable (ha : At opcodes rd (analyze opcodes rd live ⟨code, exit⟩) code pre m t) (hwf : WellFormed code)
include ha hwf

theorem At.step (hcode : code = pre ++ op :: post) (uses : Nat → Nat) :
    let F := analyze opcodes rd live ⟨code, exit⟩
    At opcodes rd F code (pre ++ [op]) (op.exec (withConstants opcodes h) m)
      (execOps (withConstants opcodes h) (rewritten F uses op) t) := by
  intro F
  have hassoc : code = pre ++ [op] ++ post := by simp [hcode]
  have hwalk := walkAfter_append opcodes rd code pre op
  have hok := walkAfter_ok ha.ok hwf hcode
  have hl : Leads post (walkAfter opcodes rd code (pre ++ [op])) F := leads_analyze hwf hassoc hok
  refine ⟨?_, hok, ?_⟩
  · rw [hwalk]
    subst hcode
    exact ha.tracks.step hwf rd
  · rw [hwalk] at hl ⊢
    subst hcode
    exact Sim.step ha.ok hwf hl ha.sim ha.tracks uses

theorem At.run (hcode : code = pre ++ mid ++ post) (uses : Nat → Nat) :
    let F := analyze opcodes rd live ⟨code, exit⟩
    At opcodes rd F code (pre ++ mid) (execOps (withConstants opcodes h) mid m)
      (execOps (withConstants opcodes h) (mid.flatMap (rewritten F uses)) t) := by
  induction mid generalizing pre m t with
  | nil =>
    rw [List.append_nil]
    exact ha
  | cons op mid ih =>
    have hassoc : code = pre ++ [op] ++ mid ++ post := by simp [hcode]
    have hcode' : code = pre ++ op :: (mid ++ post) := by simp [hcode]
    have hstep := ih (ha.step (h := h) hwf hcode' uses) hassoc
    intro F
    rw [List.flatMap_cons, execOps_append]
    rwa [List.append_assoc] at hstep

end

def Terminator.nzcvLiveOut (L : Fin k → NZCV) : Terminator k → Bool
  | .ir exit => Fusion.nzcvLiveOut L exit
  | .chain ifTrue ifFalse => (L ifTrue).union (L ifFalse) ≠ .none

theorem union_eq_none {a b : NZCV} (h : a.union b = .none) : a = .none ∧ b = .none := by
  simp only [NZCV.union, NZCV.none, NZCV.ext_iff, Bool.or_eq_false_iff] at h ⊢
  tauto

theorem at_rel {L : Fin k → NZCV} {ifTrue ifFalse : Fin k} (taken : Bool) (htrace : m.state.trace = t.state.trace)
    (henv : m.state.env = t.state.env) (hflags : (L ifTrue).union (L ifFalse) ≠ .none → m.state.nzcv = t.state.nzcv) :
    ConfigRel L ∅ (.at (if taken then ifTrue else ifFalse) (m.state.observe (.branch taken)))
      (.at (if taken then ifTrue else ifFalse) (t.state.observe (.branch taken))) := by
  refine ⟨rfl, Rel.observe ⟨htrace, fun _ _ => by rw [henv], ?_⟩ _⟩
  by_cases hdead : (L ifTrue).union (L ifFalse) = .none
  · obtain ⟨htrue, hfalse⟩ := union_eq_none hdead
    cases taken
    · exact hfalse ▸ agree_none
    · exact htrue ▸ agree_none
  · rw [hflags hdead]
    exact .refl ..

theorem Terminator.exec_rel {L : Fin k → NZCV} (hs : Same m t)
    (hlive : exit.nzcvLiveOut L → m.state.nzcv = t.state.nzcv)
    (hreads : ∀ cond, exitCond exit = some cond → cond.holds m.state.nzcv = cond.holds t.state.nzcv) :
    ConfigRel L ∅ (exit.exec h m) (exit.exec h t) := by
  have hread := State.read_congr hs.env
  cases exit with
  | chain ifTrue ifFalse =>
    simp only [Terminator.exec, hs.chainCR]
    exact at_rel _ hs.trace hs.env fun hne => hlive (decide_eq_true hne)
  | ir exit =>
    cases exit with
    | jump target =>
      refine ⟨rfl, hs.trace, fun _ _ => by rw [hs.env], ?_⟩
      by_cases hdead : L target = .none
      · exact hdead ▸ agree_none
      · rw [hlive (decide_eq_true hdead)]
        exact .refl ..
    | condJump source cond args ifTrue ifFalse =>
      have htaken : source.taken h cond (args.map m.state.read) m.state =
          source.taken h cond (args.map t.state.read) t.state := by
        cases source with
        | fromNZCV => exact hreads cond rfl
        | compare | other => simp only [CondSource.taken, hread, hs.trace]
      simp only [Terminator.exec, Exit.exec, htaken]
      exact at_rel _ hs.trace hs.env fun hne => hlive (decide_eq_true hne)
    | exitFunction | other =>
      have hflags := hlive rfl
      simp only [Terminator.exec, Exit.exec, hread]
      refine ⟨rfl, Rel.observe ⟨hs.trace, fun _ _ => by rw [hs.env], ?_⟩ _⟩
      rw [hflags]
      exact .refl ..

theorem exitCond_spec {cond : CondClass} (hc : exitCond exit = some cond) :
    ∃ args ifTrue ifFalse, exit = .ir (.condJump .fromNZCV cond args ifTrue ifFalse) := by
  unfold exitCond at hc
  split at hc
  next cond' args ifTrue ifFalse =>
    obtain rfl := Option.some.inj hc
    exact ⟨args, ifTrue, ifFalse, rfl⟩
  next => cases hc

theorem rewriteExit_of_none (happ : F.applied .exit = none) : rewriteExit F exit = exit := by
  unfold rewriteExit
  split
  next => rw [happ]
  next => rfl

/-- A producer that is dropped at the end was not kept and is not needed after the block. -/
theorem dropped_at_exit (hok : WalkOk pre w) (hnot : ¬ Alive ((w.exit exit).close rd live) w) :
    (w.exit exit).curKept = false ∧ live = false := by
  obtain ⟨p, hp, hdead⟩ : ∃ p, w.cur = some p ∧ p.id ∈ ((w.exit exit).close rd live).deadProducers := by
    simpa [Alive] using hnot
  obtain hmem | ⟨_, _, _, hkept, hneeded⟩ := Walk.mem_dead_close hdead
  · have hsame : (w.exit exit).deadProducers = w.deadProducers := by
      obtain ⟨heq, -⟩ | ⟨-, heq | ⟨_, _, _, _, _, _, heq⟩⟩ := w.exit_cases exit <;> rw [heq]
    exact absurd (hsame ▸ hmem) (hok.cur p hp).2
  · exact ⟨hkept, hneeded⟩

theorem exit_rel {L : Fin k → NZCV} (ha : At opcodes rd (analyze opcodes rd live ⟨code, exit⟩) code code m t)
    (hwf : WellFormed code) (hlive : exit.nzcvLiveOut L → live) :
    ConfigRel L ∅ (exit.exec h m) ((rewriteExit (analyze opcodes rd live ⟨code, exit⟩) exit).exec h t) := by
  set F := analyze opcodes rd live ⟨code, exit⟩ with hF
  set w := walkAfter opcodes rd code code with hw
  have hnil : code = code ++ [] := (List.append_nil code).symm
  have hl : Leads [] w F := leads_analyze hwf hnil ha.ok
  have hnodup : F.sites.Nodup := hl.nodup ha.ok (hnil ▸ hwf)
  have hclose : F = (w.exit exit).close rd live := rfl
  have hdead (hnot : ¬ Alive F w) : (w.exit exit).curKept = false ∧ live = false := dropped_at_exit ha.ok hnot
  have hflags (hout : exit.nzcvLiveOut L) : m.state.nzcv = t.state.nzcv := by
    refine ha.sim.flags (not_not.mp fun hnot => ?_)
    rw [(hdead hnot).2] at hlive
    exact absurd (hlive hout) nofun
  have hsame (halive : Alive F w) (happ : F.applied .exit = none) :
      ConfigRel L ∅ (exit.exec h m) ((rewriteExit F exit).exec h t) := by
    rw [rewriteExit_of_none happ, ha.sim.eq halive]
    exact Terminator.exec_rel (.refl _) (fun _ => rfl) fun _ _ => rfl
  have hnotMem (hsites : (w.exit exit).sites = w.sites) : F.applied .exit = none := by
    refine applied_of_notMem fun hmem => ?_
    rw [hclose, sites_close, hsites] at hmem
    obtain ⟨l, hl, -⟩ := readers_eq code
    have hmem := ha.ok.sites.subset hmem
    simp [hl] at hmem
  obtain ⟨heq, hcond⟩ | ⟨-, heq | ⟨p, orig, fused, hp, hcond, hfused, heq⟩⟩ := w.exit_cases exit
  · rw [rewriteExit_of_none (hnotMem (by rw [heq]))]
    exact Terminator.exec_rel ha.sim.same hflags fun cond hc => cond.holds_congr (hcond cond hc ▸ agree_none)
  · refine hsame (not_not.mp fun hnot => ?_) (hnotMem (by rw [heq]; rfl))
    have hkept := (hdead hnot).1
    rw [heq] at hkept
    cases hkept
  · have hmem := Walk.decided_close (w := w.exit exit) (by rw [heq]; exact hp)
      (by rw [heq]; exact List.mem_append_right _ (List.mem_singleton.mpr rfl)) rd live
    have happ := applied_of_mem hnodup hmem
    cases hdec : (!(w.exit exit).curKept && !live || nzcvFormReadsXER orig) with
    | false =>
      rw [hdec] at happ
      refine hsame (not_not.mp fun hnot => ?_) happ
      obtain ⟨hkept, hlive⟩ := hdead hnot
      simp [hkept, hlive] at hdec
    | true =>
      rw [hdec] at happ
      obtain ⟨args, ifTrue, ifFalse, rfl⟩ := exitCond_spec hcond
      obtain ⟨hvalid, hnzcv, -⟩ := ha.tracks.cur p hp
      have hcompare := resolveFusedCond_sound hvalid hfused h
      rw [← hnzcv, directCompare_congr ha.sim.trace ha.sim.env] at hcompare
      have hrewrite : rewriteExit F (.ir (.condJump .fromNZCV orig args ifTrue ifFalse)) =
          .ir (.condJump (.compare p.size) fused [p.cmp1, p.cmp2] ifTrue ifFalse) := by
        simp [rewriteExit, happ]
      have htaken : CondSource.fromNZCV.taken h orig (args.map m.state.read) m.state =
          (CondSource.compare p.size).taken h fused ([p.cmp1, p.cmp2].map t.state.read) t.state :=
        hcompare.symm
      rw [hrewrite]
      simp only [Terminator.exec, Exit.exec, htaken]
      exact at_rel _ ha.sim.trace ha.sim.env fun hne => hflags (decide_eq_true hne)

theorem run_code (opcodes : Nat → Opcode) (outside : Nat → Nat) (rd : Bool) (b : FusedBlock k) (live : Bool) :
    ∃ uses, run opcodes outside rd b live =
      ⟨b.code.flatMap (rewritten (analyze opcodes rd live b) uses), rewriteExit (analyze opcodes rd live b) b.exit⟩ := by
  let F := analyze opcodes rd live b
  refine ⟨fun id => usesIn ((b.code.map (rewriteOp F)).flatMap Op.args) id + usesIn (rewriteExit F b.exit).args id +
    outside id, ?_⟩
  rw [run, List.flatMap_map]
  rfl

theorem run_rel (hwf : WellFormed b.code) (hlive : b.exit.nzcvLiveOut L → live) (outside : Nat → Nat) (s : State) :
    ConfigRel L ∅ (b.exec (withConstants opcodes h) s)
      ((run opcodes outside rd b live).exec (withConstants opcodes h) s) := by
  obtain ⟨uses, hrun⟩ := run_code opcodes outside rd b live
  obtain ⟨code, exit⟩ := b
  have hinit : At opcodes rd (analyze opcodes rd live ⟨code, exit⟩) code [] ⟨s, false⟩ ⟨s, false⟩ := .init ..
  have hend := hinit.run (h := h) hwf (show code = [] ++ code ++ [] by simp) uses
  rw [hrun]
  exact exit_rel hend hwf hlive

/-- In the range of a dropped compare, after an op that may raise a signal, nothing
reads the flags any more. -/
theorem resume_rel (hwf : WellFormed code) (hlive : exit.nzcvLiveOut L → live) (hcode : code = pre ++ post)
    (hok : WalkOk pre (walkAfter opcodes rd code pre)) (hsig : (walkAfter opcodes rd code pre).signalSinceCur)
    (hnot : ¬ Alive (analyze opcodes rd live ⟨code, exit⟩) (walkAfter opcodes rd code pre)) (hs : Same m t) :
    ConfigRel L ∅ (exit.exec h (execOps h post m)) (exit.exec h (execOps h post t)) := by
  induction post generalizing pre m t with
  | nil =>
    rw [List.append_nil] at hcode
    subst hcode
    obtain ⟨hkept, rfl⟩ := dropped_at_exit hok hnot
    obtain ⟨-, hcond⟩ | ⟨-, heq | ⟨_, _, _, _, _, _, heq⟩⟩ := (walkAfter opcodes rd code code).exit_cases exit
    · refine Terminator.exec_rel hs (fun hout => absurd (hlive hout) nofun) fun cond hc => ?_
      exact cond.holds_congr (hcond cond hc ▸ agree_none)
    · rw [heq] at hkept
      cases hkept
    · rw [heq] at hkept
      simp [hsig] at hkept
  | cons op post ih =>
    have hwalk := walkAfter_append opcodes rd code pre op
    have hassoc : code = pre ++ [op] ++ post := by simp [hcode]
    have hok' := walkAfter_ok hok hwf hcode
    have hl : Leads post (walkAfter opcodes rd code (pre ++ [op])) (analyze opcodes rd live ⟨code, exit⟩) :=
      leads_analyze hwf hassoc hok'
    obtain ⟨p, hp, hdead⟩ : ∃ p, (walkAfter opcodes rd code pre).cur = some p ∧
        p.id ∈ (analyze opcodes rd live ⟨code, exit⟩).deadProducers := by simpa [Alive] using hnot
    obtain ⟨hr, -, hstep⟩ | ⟨-, -, hstep⟩ | ⟨-, -, c, -, hstep⟩ | ⟨hw, hstep⟩ :=
      (walkAfter opcodes rd code pre).step_cases opcodes rd code op
    · rw [hstep] at hwalk
      refine ih hassoc hok' ?_ ?_ (exec_congr hr hs)
      · rw [hwalk, hsig]
        rfl
      · rw [hwalk]
        exact hnot
    · rw [hwalk, hstep] at hl
      exact absurd (hl.kept p hp hdead) nofun
    · rw [hwalk, hstep] at hl
      have hkept := hl.kept p hp hdead
      simp [hsig] at hkept
    · rw [hwalk] at hl
      subst hcode
      obtain ⟨-, hr, hall⟩ := hl.closes hok hwf hw hp hdead
      have heq : op.exec h m = op.exec h t := (exec_congr hr hs).eq (writesAllNZCV_exec hall hr hs)
      change ConfigRel L ∅ (exit.exec h (execOps h post (op.exec h m))) (exit.exec h (execOps h post (op.exec h t)))
      rw [heq]
      exact Terminator.exec_rel (.refl _) (fun _ => rfl) fun _ _ => rfl

/-- A signal at an op of the rewritten block finds a state from which the original
block goes on as it would have: nothing that is dropped is still read. -/
theorem run_resume (hwf : WellFormed b.code)
    (hlive : b.exit.nzcvLiveOut L → live) (hcode : b.code = pre ++ op :: post)
    (hr : op.readsNZCV = false) (hw : op.writesNZCV = false) (hsig : mayRaiseSignal opcodes op)
    (outside : Nat → Nat) (s : State) :
    ∃ done rest, (run opcodes outside rd b live).code = done ++ op :: rest ∧
      Known opcodes pre (execOps (withConstants opcodes h) done ⟨s, false⟩).state ∧
      ConfigRel L ∅ (b.exec (withConstants opcodes h) s)
        (b.exit.exec (withConstants opcodes h) (execOps (withConstants opcodes h) (op :: post)
          (execOps (withConstants opcodes h) done ⟨s, false⟩))) := by
  obtain ⟨uses, hrun⟩ := run_code opcodes outside rd b live
  obtain ⟨code, exit⟩ := b
  obtain rfl : code = pre ++ op :: post := hcode
  rw [hrun]
  set code := pre ++ op :: post with hcode
  set F := analyze opcodes rd live ⟨code, exit⟩
  have hinit : At opcodes rd F code [] ⟨s, false⟩ ⟨s, false⟩ := .init ..
  have ha : At opcodes rd F code pre _ _ := hinit.run (h := h) hwf (show code = [] ++ pre ++ op :: post from hcode) uses
  have hok := walkAfter_ok ha.ok hwf hcode
  have hassoc : code = pre ++ [op] ++ post := by simp [hcode]
  have hl : Leads post (walkAfter opcodes rd code (pre ++ [op])) F := leads_analyze hwf hassoc hok
  have hwalk : walkAfter opcodes rd code (pre ++ [op]) =
      { walkAfter opcodes rd code pre with signalSinceCur := true } := by
    rw [walkAfter_append]
    simp [Walk.step, Walk.observe, hr, hw, hsig]
  refine ⟨pre.flatMap (rewritten F uses), post.flatMap (rewritten F uses), ?_, ha.tracks.known.congr ha.sim.env, ?_⟩
  · have hsites : (walkAfter opcodes rd code (pre ++ [op])).sites = (walkAfter opcodes rd code pre).sites := by
      rw [hwalk]
      rfl
    rw [walkAfter_append] at hl hsites
    have hsame : rewritten F uses op = [op] := rewritten_of_not_writes ha.ok hwf hl hw hsites uses
    simp [hcode, hsame]
  · rw [FusedBlock.exec, execOps_append]
    by_cases halive : Alive F (walkAfter opcodes rd code pre)
    · rw [ha.sim.eq halive]
      exact Terminator.exec_rel (.refl _) (fun _ => rfl) fun _ _ => rfl
    · have hsame := exec_congr (h := withConstants opcodes h) hr ha.sim.same
      have hrest := resume_rel (h := withConstants opcodes h) hwf hlive hassoc hok (by rw [hwalk])
        (by rw [hwalk]; exact halive) hsame
      exact hrest

end

end PowerArm.Fusion
