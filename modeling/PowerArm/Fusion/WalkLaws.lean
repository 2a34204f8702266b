import PowerArm.Flags.PassLaws
import PowerArm.Fusion.CompareLaws

/-!
# The walk over a block

What the walk of compare fusion knows at an op: which op its current producer is and
that the flags are that producer's (`Tracks`), and what the decisions at the end of
the walk will be for the readers it has open (`Leads`).
-/

namespace PowerArm.Fusion

open Flags

variable {id : Nat}

/-! ## Well-formed code -/

def Op.id? : Op → Option Nat
  | .ir n => some n.id
  | .select id .. => some id
  | .chainCompare .. => none

def opIds (code : List Op) : List Nat := code.filterMap Op.id?

/-- An op's arguments are defined before it. `TestZ` writes flags that the passes do
not know of; the dead-flag pass makes it from narrow tests only. -/
structure WellFormed (code : List Op) : Prop where
  nodup : (opIds code).Nodup
  ordered : code.Pairwise fun op later => ∀ id, later.id? = some id → .ref id ∉ op.args
  irrefl : ∀ op ∈ code, ∀ id, op.id? = some id → .ref id ∉ op.args
  noTestZ : ∀ n, .ir n ∈ code → n.op ≠ .testZ

theorem mem_opIds (h : op ∈ code) (hid : op.id? = some id) : id ∈ opIds code := List.mem_filterMap.mpr ⟨op, h, hid⟩

section
variable {pre post : List Op} {op : Op}

section
variable (hwf : WellFormed (pre ++ op :: post))
include hwf

theorem WellFormed.fresh (hid : op.id? = some id) :
    id ∉ opIds pre ∧ id ∉ opIds post := by
  have hnodup := hwf.nodup
  rw [opIds, List.filterMap_append, List.filterMap_cons_some hid] at hnodup
  have hnot := (List.nodup_cons.mp (List.nodup_middle.mp hnodup)).1
  rwa [List.mem_append, not_or] at hnot

theorem WellFormed.self (hid : op.id? = some id) : .ref id ∉ op.args :=
  hwf.irrefl op (by simp) id hid

theorem WellFormed.before (hmem : earlier ∈ pre)
    (hid : op.id? = some id) : .ref id ∉ earlier.args :=
  (List.pairwise_append.mp hwf.ordered).2.2 earlier hmem op (.head _) id hid

theorem WellFormed.mem_pre (hmem : d ∈ pre ++ op :: post)
    (hid : d.id? = some id) (ha : .ref id ∈ op.args) : d ∈ pre := by
  obtain hmem | hmem := List.mem_append.mp hmem
  · exact hmem
  · obtain rfl | hmem := List.mem_cons.mp hmem
    · exact absurd ha (hwf.self hid)
    · have hpost := (List.pairwise_cons.mp (List.pairwise_append.mp hwf.ordered).2.1).1
      exact absurd ha (hpost d hmem id hid)

end

end

/-! ## Running an op -/

section
variable {h : Host} {m : Machine} {op : Op} {s : State}

theorem env_exec (hx : op.id? ≠ some x) : (op.exec h m).state.env x = m.state.env x := by
  cases op with
  | ir n =>
    have hne : x ≠ n.id := fun heq => hx (heq ▸ rfl)
    simp only [Op.exec, Node.exec]
    split
    · exact Function.update_of_ne hne ..
    · rfl
  | select id =>
    have hne : x ≠ id := fun heq => hx (heq ▸ rfl)
    exact Function.update_of_ne hne ..
  | chainCompare => rfl

theorem read_exec (ha : ∀ id, op.id? = some id → a ≠ .ref id) : (op.exec h m).state.read a = m.state.read a := by
  cases a with
  | ref x => exact env_exec fun hid => ha x hid rfl
  | inline constant => rfl

theorem Producer.flags_congr {p : Producer} {t : State} (h1 : s.read p.cmp1 = t.read p.cmp1)
    (h2 : s.read p.src2 = t.read p.src2) : p.flags s = p.flags t := by
  unfold Producer.flags
  rw [h1, h2]

theorem Producer.Valid.congr {p : Producer} {t : State} (hp : p.Valid s)
    (h2 : s.read p.src2 = t.read p.src2) : p.Valid t where
  size := hp.size
  zero := h2 ▸ hp.zero
  add := h2 ▸ hp.add
  signBit := hp.signBit

theorem nzcv_exec (hw : op.writesNZCV = false) (hz : ∀ n, op = .ir n → n.op ≠ .testZ) :
    (op.exec h m).state.nzcv = m.state.nzcv := by
  cases op with
  | ir n =>
    have hwrite : n.op.classify.write = .none := not_not.mp (of_decide_eq_false hw)
    have hframe : Agree (NZCV.all.diff n.op.classify.write)
        (n.flags h m.state.trace (n.args.map m.state.read) m.state.nzcv) m.state.nzcv :=
      Node.flags_frame (hz n rfl)
    rw [hwrite] at hframe
    exact hframe.eq
  | select => rfl
  | chainCompare => rfl

end

/-! ## What the walk knows of the values -/

section
variable {opcodes : Nat → Opcode} {code pre post : List Op} {op : Op} {h : Host} {m : Machine} {s : State}
  {w : Walk} {rd : Bool}

theorem opcodeOf_spec (hop : opcodeOf opcodes code id = some oc) :
    ∃ opcode se size args, .ir ⟨id, .other opcode true se, size, args⟩ ∈ code ∧ opcodes opcode = oc := by
  obtain ⟨op, hmem, heq⟩ := List.exists_of_findSome?_eq_some hop
  split at heq
  next id' opcode se size args =>
    split at heq
    next hid =>
      subst hid
      exact ⟨opcode, se, size, args, hmem, Option.some.inj heq⟩
    next => cases heq
  next => cases heq

def Known (opcodes : Nat → Opcode) (pre : List Op) (s : State) : Prop :=
  ∀ id opcode se size args value, .ir ⟨id, .other opcode true se, size, args⟩ ∈ pre →
    opcodes opcode = .constant value → s.env id = ofWord value

theorem Known.congr (hk : Known opcodes pre s) (henv : s.env = t.env) : Known opcodes pre t := by
  intro id opcode se size args value hmem hconst
  rw [← henv]
  exact hk id opcode se size args value hmem hconst

theorem Known.exec (hk : Known opcodes pre m.state) (hwf : WellFormed (pre ++ op :: post)) :
    Known opcodes (pre ++ [op]) (op.exec (withConstants opcodes h) m).state := by
  intro id opcode se size args value hmem hconst
  obtain hmem | hmem := List.mem_append.mp hmem
  · rw [env_exec]
    · exact hk id opcode se size args value hmem hconst
    · intro hid
      exact (hwf.fresh hid).1 (mem_opIds hmem rfl)
  · obtain rfl := List.mem_singleton.mp hmem
    simp [Op.exec, Node.exec, IROps.hasDest, Node.value, withConstants, hconst]

theorem getConstant_spec (hk : Known opcodes pre s) (hwf : WellFormed (pre ++ op :: post)) (ha : a ∈ op.args)
    (hc : getConstant opcodes (pre ++ op :: post) a = some c) : (s.read a).word = c := by
  cases a with
  | inline constant =>
    obtain rfl : constant = c := Option.some.inj hc
    exact word_inline s constant
  | ref id =>
    simp only [getConstant] at hc
    split at hc
    next value hop =>
      obtain rfl := Option.some.inj hc
      obtain ⟨opcode, se, size, args, hmem, hconst⟩ := opcodeOf_spec hop
      have hval := hk id opcode se size args value (hwf.mem_pre hmem rfl ha) hconst
      simp [State.read, hval, ofWord, Value.word]
    next => cases hc

theorem analyzeOperands_spec (hk : Known opcodes pre s) (hwf : WellFormed (pre ++ .ir n :: post))
    (hp : analyzeOperands opcodes (pre ++ .ir n :: post) n isAdd = some p) :
    p.Valid s ∧ p.id = n.id ∧ p.isAdd = isAdd ∧ p.size = n.size ∧ ∃ rest, n.args = p.cmp1 :: p.src2 :: rest := by
  unfold analyzeOperands at hp
  split at hp
  next hsize =>
    split at hp
    next cmp1 src2 rest hargs =>
      split at hp
      next =>
        have hconst {c : Word} (hc : getConstant opcodes (pre ++ .ir n :: post) src2 = some c) :
            (s.read src2).word = c :=
          getConstant_spec hk hwf (by simp [Op.args, hargs]) hc
        have hsign : (if n.size = .i64Bit then (2 ^ 63 : Word) else 2 ^ 31).toNat = 2 ^ (n.size.bits - 1) := by
          obtain hs | hs := hsize <;> rw [hs] <;> decide
        have hzero (hz : (getConstant opcodes (pre ++ .ir n :: post) src2).any
            (fun c => n.size.trunc c = 0)) : low n.size (s.read src2).word = 0 := by
          obtain ⟨c, hc, h0⟩ := Option.any_eq_true _ _ |>.mp hz
          rw [hconst hc, ← toNat_trunc]
          simpa using congrArg BitVec.toNat (of_decide_eq_true h0)
        dsimp only at hp
        split at hp
        next hadd =>
          obtain ⟨c, hc, rfl⟩ := Option.map_eq_some_iff.mp hp
          refine ⟨⟨hsize, hzero, fun _ => ⟨?_, rfl⟩, hsign⟩, rfl, rfl, rfl, rest, hargs⟩
          rw [hconst hc]
        next hadd =>
          obtain rfl := Option.some.inj hp
          exact ⟨⟨hsize, hzero, fun h => absurd h hadd, hsign⟩, rfl, rfl, rfl, rest, hargs⟩
      next => cases hp
    next => cases hp
  next => cases hp

theorem analyzeProducer_spec (hk : Known opcodes pre s) (hwf : WellFormed (pre ++ op :: post))
    (hp : analyzeProducer opcodes (pre ++ op :: post) op = some p) :
    p.Valid s ∧ ∃ n, op = .ir n ∧ p.id = n.id ∧ p.size = n.size ∧ p.cmp1 ∈ n.args ∧ p.src2 ∈ n.args ∧
      ∀ h trace f, n.flags h trace (n.args.map s.read) f = p.flags s := by
  cases op with
  | ir n =>
    have hspec {isAdd : Bool} (ha : analyzeOperands opcodes (pre ++ .ir n :: post) n isAdd = some p)
        (hflags : ∀ h trace args f, n.flags h trace args f =
          ((if isAdd then Arith.add else .sub).compute n.size (word args 0) (word args 1) .none).2) :
        p.Valid s ∧ ∃ n', Op.ir n = .ir n' ∧ p.id = n'.id ∧ p.size = n'.size ∧ p.cmp1 ∈ n'.args ∧ p.src2 ∈ n'.args ∧
          ∀ h trace f, n'.flags h trace (n'.args.map s.read) f = p.flags s := by
      obtain ⟨hvalid, hid, hadd, hsize, rest, hargs⟩ := analyzeOperands_spec hk hwf ha
      refine ⟨hvalid, n, rfl, hid, hsize, by simp [hargs], by simp [hargs], fun h trace f => ?_⟩
      rw [hflags, Producer.flags, hadd, hsize, hargs]
      rfl
    simp only [analyzeProducer] at hp
    split at hp
    next hop => exact hspec hp fun h trace args f => by simp [Node.flags, hop, Arith.compute]
    next hop => exact hspec hp fun h trace args f => by simp [Node.flags, hop, Arith.compute]
    next hop => exact hspec hp fun h trace args f => by simp [Node.flags, hop, Arith.compute]
    next hop => exact hspec hp fun h trace args f => by simp [Node.flags, hop, Arith.compute]
    next => cases hp
  | _ => cases hp

/-! ## One step of the walk -/

def Fuses (opcodes : Nat → Opcode) (code : List Op) (w : Walk) (op : Op) (c : Consumer) : Prop :=
  ∃ p cond fused, w.cur = some p ∧ selectCond opcodes code op = some cond ∧
    resolveFusedCond p cond = some fused ∧ c = ⟨op.site, p, fused, nzcvFormReadsXER cond, false⟩

theorem Walk.read_cases (w : Walk) (site : Site) (cond : Option CondClass) :
    w.read site cond = { w with curKept := true } ∨
    ∃ p orig fused, w.cur = some p ∧ cond = some orig ∧ resolveFusedCond p orig = some fused ∧ w.read site cond =
        { w with
          opened := w.opened ++ [⟨site, p, fused, nzcvFormReadsXER orig, false⟩]
          curKept := w.curKept || w.signalSinceCur } := by
  unfold Walk.read
  cases hcur : w.cur with
  | none => exact .inl rfl
  | some p =>
    cases cond with
    | none => exact .inl rfl
    | some orig =>
      cases hfused : resolveFusedCond p orig with
      | none => exact .inl (by simp [hfused])
      | some fused => exact .inr ⟨p, orig, fused, rfl, rfl, hfused, by simp [hfused]⟩

theorem selectCond_spec {cond : CondClass} (hc : selectCond opcodes code op = some cond) :
    ∃ n trueVal falseVal, op = .ir n ∧ n.op = .nzcvSelect cond ∧ n.args = [trueVal, falseVal] := by
  cases op with
  | ir n =>
    simp only [selectCond] at hc
    split at hc
    next cond' trueVal falseVal hop hargs =>
      split at hc
      next =>
        obtain rfl := Option.some.inj hc
        exact ⟨n, trueVal, falseVal, rfl, hop, hargs⟩
      next => cases hc
    next => cases hc
  | _ => cases hc

theorem selectCond_of_writes (hw : op.writesNZCV) : selectCond opcodes code op = none := by
  cases hc : selectCond opcodes code op with
  | none => rfl
  | some cond =>
    obtain ⟨n, _, _, rfl, hop, -⟩ := selectCond_spec hc
    simp [Op.writesNZCV, Op.classify, hop, IROps.classify] at hw

/-- What the walk does at an op: it notes a signal, a read that it fuses or that
keeps the producer, or it closes the range of the producer. -/
theorem Walk.step_cases (opcodes : Nat → Opcode) (rd : Bool) (code : List Op) (w : Walk) (op : Op) :
    (op.readsNZCV = false ∧ op.writesNZCV = false ∧
      w.step opcodes rd code op = { w with signalSinceCur := w.signalSinceCur || mayRaiseSignal opcodes op }) ∨
    (op.readsNZCV ∧ op.writesNZCV = false ∧ w.step opcodes rd code op = { w with curKept := true }) ∨
    (op.readsNZCV ∧ op.writesNZCV = false ∧ ∃ c, Fuses opcodes code w op c ∧ w.step opcodes rd code op =
        { w with opened := w.opened ++ [c], curKept := w.curKept || w.signalSinceCur }) ∨
    (op.writesNZCV ∧ w.step opcodes rd code op =
      { ({ w with curKept := w.curKept || op.readsNZCV } : Walk).close rd (!op.writesAllNZCV) with
        cur := analyzeProducer opcodes code op
        curKept := false
        signalSinceCur := false }) := by
  cases hw : op.writesNZCV with
  | false =>
    have hstep : w.step opcodes rd code op = w.observe opcodes code op := by simp [Walk.step, hw]
    rw [hstep, Walk.observe]
    cases hr : op.readsNZCV with
    | false => cases hsig : mayRaiseSignal opcodes op <;> simp [hw]
    | true =>
      obtain heq | ⟨p, orig, fused, hcur, hcond, hfused, heq⟩ := w.read_cases op.site (selectCond opcodes code op)
      · exact .inr (.inl ⟨rfl, rfl, by simpa using heq⟩)
      · exact .inr (.inr (.inl ⟨rfl, rfl, _, ⟨p, orig, fused, hcur, hcond, hfused, rfl⟩, by simpa using heq⟩))
  | true =>
    have hobs : w.observe opcodes code op = { w with curKept := w.curKept || op.readsNZCV } := by
      unfold Walk.observe
      cases hr : op.readsNZCV with
      | false => simp [hw]
      | true =>
        obtain heq | ⟨_, _, _, _, hcond, _⟩ := w.read_cases op.site (selectCond opcodes code op)
        · simpa using heq
        · simp [selectCond_of_writes hw] at hcond
    simp [Walk.step, hw, hobs]

structure Tracks (opcodes : Nat → Opcode) (pre : List Op) (w : Walk) (s : State) : Prop where
  known : Known opcodes pre s
  cur : ∀ p, w.cur = some p → p.Valid s ∧ s.nzcv = p.flags s ∧
    ∃ n, .ir n ∈ pre ∧ p.id = n.id ∧ p.cmp1 ∈ n.args ∧ p.src2 ∈ n.args

theorem Tracks.step (ht : Tracks opcodes pre w m.state) (hwf : WellFormed (pre ++ op :: post)) (rd : Bool) :
    Tracks opcodes (pre ++ [op]) (w.step opcodes rd (pre ++ op :: post) op)
      (op.exec (withConstants opcodes h) m).state := by
  refine ⟨ht.known.exec hwf, fun p hp => ?_⟩
  have hsame (hw : op.writesNZCV = false) (hp : w.cur = some p) :
      p.Valid (op.exec (withConstants opcodes h) m).state ∧
        (op.exec (withConstants opcodes h) m).state.nzcv = p.flags (op.exec (withConstants opcodes h) m).state ∧
        ∃ n, .ir n ∈ pre ++ [op] ∧ p.id = n.id ∧ p.cmp1 ∈ n.args ∧ p.src2 ∈ n.args := by
    obtain ⟨hvalid, hflags, n, hn, hid, h1, h2⟩ := ht.cur p hp
    have hread {a : Arg} (ha : a ∈ n.args) : (op.exec (withConstants opcodes h) m).state.read a = m.state.read a :=
      read_exec fun id hop heq => hwf.before hn hop (heq ▸ ha)
    have hnzcv := nzcv_exec (h := withConstants opcodes h) (m := m) hw fun n' heq => hwf.noTestZ n' (by simp [heq])
    refine ⟨hvalid.congr (hread h2).symm, ?_, n, List.mem_append_left _ hn, hid, h1, h2⟩
    rw [hnzcv, hflags]
    exact Producer.flags_congr (hread h1).symm (hread h2).symm
  obtain ⟨-, hw, hstep⟩ | ⟨-, hw, hstep⟩ | ⟨-, hw, c, -, hstep⟩ | ⟨hw, hstep⟩ :=
    w.step_cases opcodes rd (pre ++ op :: post) op
  · exact hsame hw (by simpa [hstep] using hp)
  · exact hsame hw (by simpa [hstep] using hp)
  · exact hsame hw (by simpa [hstep] using hp)
  · replace hp : analyzeProducer opcodes (pre ++ op :: post) op = some p := by simpa [hstep] using hp
    obtain ⟨hvalid, n, rfl, hid, -, h1, h2, hflags⟩ := analyzeProducer_spec ht.known hwf hp
    have hread {a : Arg} (ha : a ∈ n.args) :
        ((Op.ir n).exec (withConstants opcodes h) m).state.read a = m.state.read a :=
      read_exec fun id hop heq => hwf.self hop (heq ▸ ha)
    refine ⟨hvalid.congr (hread h2).symm, ?_, n, by simp, hid, h1, h2⟩
    rw [← Producer.flags_congr (hread h1).symm (hread h2).symm]
    exact hflags ..

/-! ## What the walk will decide -/

def Walk.sites (w : Walk) : List Site := (w.closed ++ w.opened).map Consumer.site

def readers (code : List Op) : List Site := (code.filter Op.readsNZCV).map Op.site

structure WalkOk (pre : List Op) (w : Walk) : Prop where
  sites : w.sites.Sublist (readers pre)
  dead : ∀ x ∈ w.deadProducers, x ∈ opIds pre
  cur : ∀ p, w.cur = some p → p.id ∈ opIds pre ∧ p.id ∉ w.deadProducers
  opened : w.cur = none → w.opened = []

theorem readers_append (pre : List Op) (op : Op) :
    readers (pre ++ [op]) = readers pre ++ if op.readsNZCV then [op.site] else [] := by
  unfold readers
  cases hr : op.readsNZCV <;> simp [hr]

theorem sites_close (w : Walk) (needed : Bool) : (w.close rd needed).sites = w.sites := by
  unfold Walk.close
  split
  next => rfl
  next => simp [Walk.sites]

theorem Walk.decided_close (hp : w.cur = some p) (hc : c ∈ w.opened) (rd needed : Bool) :
    { c with apply := (!w.curKept && !needed) || c.readsXER } ∈ (w.close rd needed).closed := by
  simp only [Walk.close, hp]
  exact List.mem_append_right _ (List.mem_map_of_mem hc)

theorem Walk.mem_dead_close (hx : x ∈ (w.close rd needed).deadProducers) :
    x ∈ w.deadProducers ∨ ∃ p, w.cur = some p ∧ p.id = x ∧ w.curKept = false ∧ needed = false := by
  unfold Walk.close at hx
  cases hcur : w.cur with
  | none => exact .inl (by simpa [hcur] using hx)
  | some p =>
    simp only [hcur] at hx
    split at hx
    next hdead =>
      simp only [Bool.and_eq_true, Bool.not_eq_true'] at hdead
      obtain hx | hx := List.mem_append.mp hx
      · exact .inl hx
      · exact .inr ⟨p, rfl, (List.mem_singleton.mp hx).symm, hdead.1.1.1, hdead.1.1.2⟩
    next => exact .inl hx

theorem Walk.mem_closed_close (hc : c ∈ w.closed) : c ∈ (w.close rd needed).closed := by
  unfold Walk.close
  split
  · exact hc
  · exact List.mem_append_left _ hc

theorem analyzeProducer_id (hp : analyzeProducer opcodes code op = some p) : op.id? = some p.id := by
  have hoperands {n : Node} {isAdd : Bool} (ha : analyzeOperands opcodes code n isAdd = some p) : p.id = n.id := by
    unfold analyzeOperands at ha
    split at ha
    next =>
      split at ha
      next =>
        split at ha
        next =>
          dsimp only at ha
          split at ha
          next =>
            obtain ⟨_, -, rfl⟩ := Option.map_eq_some_iff.mp ha
            rfl
          next => exact congrArg Producer.id (Option.some.inj ha).symm
        next => cases ha
      next => cases ha
    next => cases ha
  cases op with
  | ir n =>
    simp only [analyzeProducer] at hp
    split at hp
    next => rw [Op.id?, hoperands hp]
    next => rw [Op.id?, hoperands hp]
    next => rw [Op.id?, hoperands hp]
    next => rw [Op.id?, hoperands hp]
    next => cases hp
  | _ => cases hp

theorem opIds_append (pre : List Op) (op : Op) : opIds (pre ++ [op]) = opIds pre ++ op.id?.toList := by
  cases h : op.id? <;> simp [opIds, h]

theorem WalkOk.step (hok : WalkOk pre w) (hwf : WellFormed (pre ++ op :: post)) (rd : Bool) :
    WalkOk (pre ++ [op]) (w.step opcodes rd (pre ++ op :: post) op) := by
  have hmem {x : Nat} (hx : x ∈ opIds pre) : x ∈ opIds (pre ++ [op]) := by
    rw [opIds_append]
    exact List.mem_append_left _ hx
  have hcur (p : Producer) (hp : w.cur = some p) : p.id ∈ opIds (pre ++ [op]) ∧ p.id ∉ w.deadProducers :=
    ⟨hmem (hok.cur p hp).1, (hok.cur p hp).2⟩
  have hsub : w.sites.Sublist (readers (pre ++ [op])) := by
    rw [readers_append]
    exact hok.sites.trans (List.sublist_append_left ..)
  obtain ⟨-, -, hstep⟩ | ⟨-, -, hstep⟩ | ⟨hr, -, c, ⟨p, cond, fused, hp, -, -, rfl⟩, hstep⟩ | ⟨hw, hstep⟩ :=
    w.step_cases opcodes rd (pre ++ op :: post) op
  · rw [hstep]
    exact ⟨hsub, fun x hx => hmem (hok.dead x hx), hcur, hok.opened⟩
  · rw [hstep]
    exact ⟨hsub, fun x hx => hmem (hok.dead x hx), hcur, hok.opened⟩
  · rw [hstep]
    refine ⟨?_, fun x hx => hmem (hok.dead x hx), hcur, fun hnone => ?_⟩
    · rw [readers_append, if_pos hr]
      have happ := hok.sites.append (.refl [op.site])
      simpa [Walk.sites] using happ
    · simp [hp] at hnone
  · rw [hstep]
    set v : Walk := { w with curKept := w.curKept || op.readsNZCV } with hv
    have hdead : ∀ x ∈ (v.close rd (!op.writesAllNZCV)).deadProducers, x ∈ opIds pre := by
      intro x hx
      obtain hx | ⟨p, hp, rfl, -⟩ := Walk.mem_dead_close hx
      · exact hok.dead x hx
      · exact (hok.cur p hp).1
    refine ⟨?_, fun x hx => hmem (hdead x hx), fun p hp => ?_, fun _ => ?_⟩
    · exact (sites_close v _).trans rfl ▸ hsub
    · have hid := analyzeProducer_id hp
      refine ⟨?_, fun hx => (hwf.fresh hid).1 (hdead _ hx)⟩
      rw [opIds_append, hid]
      simp
    · cases hp : w.cur with
      | none => simp [Walk.close, hv, hp, hok.opened hp]
      | some p => simp [Walk.close, hv, hp]

/-- What the decisions `F` at the end of the walk are for what the walk has before the
ops `post`. A producer that was kept is not dead, and the readers of a dead one are
all rewritten. -/
structure Leads (post : List Op) (w F : Walk) : Prop where
  dead : ∀ x ∈ F.deadProducers, x ∈ w.deadProducers ∨ (∃ p, w.cur = some p ∧ p.id = x) ∨ x ∈ opIds post
  kept : ∀ p, w.cur = some p → p.id ∈ F.deadProducers → w.curKept = false
  opened : ∀ c ∈ w.opened, ∃ a, { c with apply := a } ∈ F.closed ∧
    (a = false → ∀ p, w.cur = some p → p.id ∉ F.deadProducers)
  closed : ∀ c ∈ w.closed, c ∈ F.closed
  sites : ∃ more, F.sites = w.sites ++ more ∧ more.Sublist (readers post ++ [.exit])

section
variable {F : Walk} (hok : WalkOk pre w) (hwf : WellFormed (pre ++ op :: post))
  (hl : Leads post (w.step opcodes rd (pre ++ op :: post) op) F)
include hok hwf hl

/-- The range of a dead producer is closed by an op that writes all flags and reads none. -/
theorem Leads.closes (hw : op.writesNZCV) (hp : w.cur = some p) (hd : p.id ∈ F.deadProducers) :
    w.curKept = false ∧ op.readsNZCV = false ∧ op.writesAllNZCV := by
  obtain ⟨-, hw', -⟩ | ⟨-, hw', -⟩ | ⟨-, hw', -⟩ | ⟨-, hstep⟩ := w.step_cases opcodes rd (pre ++ op :: post) op
  · simp [hw] at hw'
  · simp [hw] at hw'
  · simp [hw] at hw'
  · obtain ⟨hpre, hnot⟩ := hok.cur p hp
    have hdead := hl.dead p.id hd
    rw [hstep] at hdead
    obtain hdead | ⟨p', hp', hid⟩ | hdead := hdead
    · obtain hdead | ⟨_, _, _, hkept, hneeded⟩ := Walk.mem_dead_close hdead
      · exact absurd hdead hnot
      · simpa [and_assoc] using And.intro hkept hneeded
    · have hfresh := hwf.fresh (analyzeProducer_id hp')
      exact absurd hpre (hid ▸ hfresh.1)
    · have hnodup := hwf.nodup
      rw [opIds, List.filterMap_append] at hnodup
      refine absurd hdead fun hpost => List.disjoint_of_nodup_append hnodup hpre ?_
      obtain ⟨d, hd, hid⟩ := List.mem_filterMap.mp hpost
      exact List.mem_filterMap.mpr ⟨d, .tail _ hd, hid⟩

theorem Leads.of_step : Leads (op :: post) w F := by
  have hpost {x : Nat} (hx : x ∈ opIds post) : x ∈ opIds (op :: post) := by
    obtain ⟨d, hd, hid⟩ := List.mem_filterMap.mp hx
    exact List.mem_filterMap.mpr ⟨d, .tail _ hd, hid⟩
  have hreaders : readers (op :: post) = (if op.readsNZCV then [op.site] else []) ++ readers post := by
    unfold readers
    cases hr : op.readsNZCV <;> simp [hr]
  have hsites (hsame : (w.step opcodes rd (pre ++ op :: post) op).sites = w.sites) :
      ∃ more, F.sites = w.sites ++ more ∧ more.Sublist (readers (op :: post) ++ [.exit]) := by
    obtain ⟨more, hF, hsub⟩ := hl.sites
    refine ⟨more, hsame ▸ hF, ?_⟩
    rw [hreaders, List.append_assoc]
    exact hsub.trans (List.sublist_append_right ..)
  have hcloses {p : Producer} := hl.closes hok hwf (p := p)
  obtain ⟨-, -, hstep⟩ | ⟨-, -, hstep⟩ | ⟨hr, -, c, ⟨p, _, _, hp, -, -, rfl⟩, hstep⟩ | ⟨hw, hstep⟩ :=
    w.step_cases opcodes rd (pre ++ op :: post) op
  · have hsame := hsites (by rw [hstep]; rfl)
    rw [hstep] at hl
    exact ⟨fun x hx => (hl.dead x hx).imp_right (·.imp_right hpost), hl.kept, hl.opened, hl.closed, hsame⟩
  · have hsame := hsites (by rw [hstep]; rfl)
    rw [hstep] at hl
    refine ⟨fun x hx => (hl.dead x hx).imp_right (·.imp_right hpost), fun p hp hd => ?_, hl.opened,
      hl.closed, hsame⟩
    exact absurd (hl.kept p hp hd) nofun
  · rw [hstep] at hl
    refine ⟨fun x hx => (hl.dead x hx).imp_right (·.imp_right hpost), fun p hp hd => ?_,
      fun c hc => hl.opened c (List.mem_append_left _ hc), hl.closed, ?_⟩
    · exact (Bool.or_eq_false_iff.mp (hl.kept p hp hd)).1
    · obtain ⟨more, hF, hsub⟩ := hl.sites
      refine ⟨op.site :: more, by simpa [Walk.sites] using hF, ?_⟩
      rw [hreaders, if_pos hr]
      exact hsub.cons_cons _
  · have hsame := hsites (by rw [hstep]; exact sites_close ..)
    rw [hstep] at hl
    refine ⟨fun x hx => ?_, fun p hp hd => (hcloses hw hp hd).1, fun c hc => ?_, fun c hc => ?_, hsame⟩
    · obtain hx | ⟨p, hp, rfl⟩ | hx := hl.dead x hx
      · obtain hx | ⟨p, hp, hid, -⟩ := Walk.mem_dead_close hx
        · exact .inl hx
        · exact .inr (.inl ⟨p, hp, hid⟩)
      · exact .inr (.inr (mem_opIds (.head _) (analyzeProducer_id hp)))
      · exact .inr (.inr (hpost hx))
    · cases hp : w.cur with
      | none => simp [hok.opened hp] at hc
      | some p =>
        have hdecided := Walk.decided_close (w := { w with curKept := w.curKept || op.readsNZCV })
          hp hc rd (!op.writesAllNZCV)
        refine ⟨_, hl.closed _ hdecided, fun ha p' hp' hd => ?_⟩
        obtain ⟨hkept, hread, hall⟩ := hcloses hw (hp.trans hp') hd
        simp [hkept, hread, hall] at ha
    · exact hl.closed c (Walk.mem_closed_close hc)

end

def finish (opcodes : Nat → Opcode) (rd live : Bool) (code : List Op) (exit : Terminator k) (post : List Op)
    (w : Walk) : Walk :=
  ((post.foldl (Walk.step opcodes rd code) w).exit exit).close rd live

theorem Walk.exit_cases (w : Walk) (exit : Terminator k) :
    (w.exit exit = w ∧ ∀ cond, exitCond exit = some cond → cond.flags = .none) ∨
    ((∃ cond, exitCond exit = some cond ∧ cond.flags ≠ .none) ∧ (w.exit exit = { w with curKept := true } ∨
      ∃ p orig fused, w.cur = some p ∧ exitCond exit = some orig ∧ resolveFusedCond p orig = some fused ∧
        w.exit exit = { w with
            opened := w.opened ++ [⟨.exit, p, fused, nzcvFormReadsXER orig, false⟩]
            curKept := w.curKept || w.signalSinceCur })) := by
  unfold Walk.exit
  cases hc : exitCond exit with
  | none => exact .inl ⟨rfl, nofun⟩
  | some cond =>
    by_cases hflags : cond.flags = .none
    · refine .inl ⟨by simp [hflags], fun c hc => ?_⟩
      obtain rfl := Option.some.inj hc
      exact hflags
    · simpa [hflags] using w.read_cases .exit (some cond)

theorem Leads.nil (hok : WalkOk pre w) (live : Bool) : Leads [] w ((w.exit exit).close rd live) := by
  have hclose (v : Walk) (hcur : v.cur = w.cur) (hdead : v.deadProducers = w.deadProducers)
      (hkept : v.curKept = false → w.curKept = false) (hopened : ∃ new, v.opened = w.opened ++ new ∧
        (new.map Consumer.site).Sublist [.exit]) (hclosed : v.closed = w.closed) :
      Leads [] w (v.close rd live) := by
    obtain ⟨new, hnew, hsub⟩ := hopened
    have hdeadCur {p : Producer} (hp : w.cur = some p) (hd : p.id ∈ (v.close rd live).deadProducers) :
        v.curKept = false ∧ live = false := by
      obtain hd | ⟨_, _, _, hk, hlive⟩ := Walk.mem_dead_close hd
      · exact absurd (hdead ▸ hd) (hok.cur p hp).2
      · exact ⟨hk, hlive⟩
    refine ⟨fun x hx => ?_, fun p hp hd => hkept (hdeadCur hp hd).1, fun c hc => ?_, fun c hc => ?_, ?_⟩
    · obtain hx | ⟨p, hp, hid, -⟩ := Walk.mem_dead_close hx
      · exact .inl (hdead ▸ hx)
      · exact .inr (.inl ⟨p, hcur ▸ hp, hid⟩)
    · cases hp : w.cur with
      | none => simp [hok.opened hp] at hc
      | some p =>
        have hdecided := Walk.decided_close (hcur.trans hp) (hnew ▸ List.mem_append_left _ hc) rd live
        refine ⟨_, hdecided, fun ha p' hp' hd => ?_⟩
        obtain ⟨hk, hlive⟩ := hdeadCur (hp.trans hp') hd
        simp [hk, hlive] at ha
    · exact Walk.mem_closed_close (hclosed ▸ hc)
    · refine ⟨new.map Consumer.site, ?_, by simpa [readers] using hsub⟩
      rw [sites_close]
      simp [Walk.sites, hnew, hclosed]
  obtain ⟨heq, -⟩ | ⟨-, heq | ⟨p, orig, fused, -, -, -, heq⟩⟩ := w.exit_cases exit
  · rw [heq]
    exact hclose w rfl rfl id ⟨[], by simp, by simp⟩ rfl
  · rw [heq]
    exact hclose _ rfl rfl nofun ⟨[], by simp, by simp⟩ rfl
  · rw [heq]
    exact hclose _ rfl rfl (fun h => (Bool.or_eq_false_iff.mp h).1) ⟨_, rfl, by simp⟩ rfl

theorem leads_finish (hok : WalkOk pre w) (hwf : WellFormed (pre ++ post)) (rd live : Bool) :
    Leads post w (finish opcodes rd live (pre ++ post) exit post w) := by
  induction post generalizing pre w with
  | nil => exact Leads.nil hok live
  | cons op post ih =>
    have hassoc : pre ++ op :: post = pre ++ [op] ++ post := by simp
    have hstep : WalkOk (pre ++ [op]) (w.step opcodes rd (pre ++ op :: post) op) := hok.step hwf rd
    have hnext := ih hstep (hassoc ▸ hwf)
    rw [← hassoc] at hnext
    exact hnext.of_step hok hwf

end

end PowerArm.Fusion
