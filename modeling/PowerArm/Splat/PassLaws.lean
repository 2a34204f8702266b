import PowerArm.Splat.RetargetLaws

/-!
# The pass preserves what is observed

The block runs in step with its rewritten form. Before each node the walk's tracked
ids have their candidates' values (`Follows`), and the rewritten block has every
value of the original, a marked candidate's in splat form beside its merge (`Sim`).
-/

namespace PowerArm.Splat

open Flags (Arg Value)
open Lib

variable {W : Type} {H : Host W} {b : Block} {pre post : List Node} {n : Node} {s s' : State W}

/-! ## Forwards -/

theorem bits_of_isEligible (h : isEligible n) : n.elementSize.bits ≤ 128 ∧ n.elementSize.bits ∣ 128 := by
  simp only [isEligible, Bool.and_eq_true, Bool.or_eq_true, decide_eq_true_eq] at h
  obtain ⟨⟨-, hsize | hsize⟩, -⟩ := h
  · rw [hsize]
    decide
  · rw [hsize]
    decide

theorem isSplattableProducer_of_isEligible (h : isEligible n) : n.op.isSplattableProducer := by
  simp only [isEligible, Bool.and_eq_true] at h
  exact h.1.1.1

theorem op_of_isEligible (h : isEligible n) :
    (∃ op zero splat, n.op = .arith op zero splat) ∨ ∃ op splat, n.op = .fma op splat := by
  have hop := isSplattableProducer_of_isEligible h
  cases hn : n.op with
  | arith op zero splat => exact .inl ⟨op, zero, splat, rfl⟩
  | fma op splat => exact .inr ⟨op, splat, rfl⟩
  | _ => simp [hn, IROps.isSplattableProducer, IROps.isArithProducer, IROps.isFMAProducer] at hop

/-- The positions whose reader looks at the low bits of the vector only, and how many. -/
def Block.elementRead (b : Block) (n : Node) (i : Nat) : Option Nat :=
  match n.op with
  | .arith .. =>
    if i = 0 ∧ b.marked n.id ∨ i = 1 then some n.elementSize.bits else none
  | .fma .. => if i = 1 ∨ i = 2 ∨ i = 3 then some n.elementSize.bits else none
  | .minMax _ => if i = 1 then some n.elementSize.bits else none
  | .storeMem true => if i = 0 then some n.size.bits else none
  | _ => none

def Block.Dropped (b : Block) (n : Node) (i : Nat) : Prop :=
  i = 0 ∧ n.op.isArithProducer = true ∧ ¬ b.marked n.id = true

/-- A forward that is not dropped goes to a position that reads no more than the
candidate's element, and a math operand has the candidate's element size. -/
theorem elementRead_of_isForward (h : isForward n i c) (hdrop : ¬ b.Dropped n i) :
    (∃ k, b.elementRead n i = some k ∧ k ≤ c.elementSize.bits) ∧
      (n.op.isSplattableProducer ∨ (∃ op, n.op = .minMax op) → n.elementSize = c.elementSize) := by
  simp only [isForward, Bool.or_eq_true, Bool.and_eq_true, decide_eq_true_eq] at h
  obtain ⟨hsize, hpos⟩ | ⟨⟨hop, rfl⟩, hle⟩ := h
  · refine ⟨⟨n.elementSize.bits, ?_, by rw [hsize]⟩, fun _ => hsize⟩
    unfold Block.elementRead Block.Dropped at *
    cases hn : n.op with
    | arith op zero splat =>
      simp [hn, IROps.isArithProducer] at hpos hdrop
      refine if_pos ?_
      obtain ⟨rfl, -⟩ | ⟨rfl, -⟩ := hpos
      · exact .inl ⟨rfl, hdrop rfl⟩
      · exact .inr rfl
    | fma op splat =>
      simp [hn, IROps.isFMAProducer] at hpos ⊢
      tauto
    | minMax op => simpa [hn, IROps.isFMAProducer, isEligible, IROps.isSplattableProducer,
        IROps.isArithProducer, IROps.readsOnlyElement0OfVector2] using hpos
    | _ =>
      simp [hn, IROps.isFMAProducer, isEligible, IROps.isSplattableProducer, IROps.isArithProducer,
        IROps.readsOnlyElement0OfVector2] at hpos
  · refine ⟨⟨n.size.bits, by simp [Block.elementRead, hop], hle⟩, ?_⟩
    rintro (hprod | ⟨op, hmin⟩)
    · simp [hop, IROps.isSplattableProducer, IROps.isArithProducer, IROps.isFMAProducer] at hprod
    · simp [hop] at hmin

/-! ## Marked candidates -/

namespace Block

theorem marked_iff_mem (h : b.marked x) : ∃ m ∈ b.nodes, m.id = x ∧ isEligible m := by
  simp only [marked, Bool.and_eq_true, List.any_eq_true, decide_eq_true_eq] at h
  exact h.1

theorem eq_of_id_eq (hm : m ∈ b.nodes) (hm' : m' ∈ b.nodes) (h : m.id = m'.id) : m = m' :=
  List.inj_on_of_nodup_map b.nodup hm hm' h

theorem lt_of_marked (h : b.marked x) : x < b.ssaCount := by
  obtain ⟨m, hm, rfl, -⟩ := marked_iff_mem h
  exact b.ids_lt m hm

theorem ne_mergeId {b : Block} (hx : x < b.ssaCount) (y : Nat) : x ≠ b.mergeId y := by
  unfold mergeId
  omega

theorem not_marked_mergeId (b : Block) (x : Nat) : b.marked (b.mergeId x) = false := by
  refine Bool.eq_false_iff.mpr fun h => ?_
  have := lt_of_marked h
  unfold mergeId at this
  omega

theorem mem_pre (hb : b.nodes = pre ++ n :: post) (ha : .ref m.id ∈ n.args) (hm : m ∈ b.nodes) : m ∈ pre := by
  have hordered := b.ordered
  rw [hb, List.pairwise_append] at hordered
  have hpost := (List.pairwise_cons.mp hordered.2.1).1
  rw [hb, List.mem_append, List.mem_cons] at hm
  obtain hm | rfl | hm := hm
  · exact hm
  · exact absurd ha (b.irrefl m (mem_nodes hb))
  · exact absurd ha (hpost m hm)

theorem splatResult_setSplatResult (h : isEligible n) (hsame : SameOp n m) : (setSplatResult m).splatResult := by
  unfold setSplatResult Node.splatResult
  rw [hsame.2.1]
  cases hn : n.op with
  | arith op zero splat => rfl
  | fma op splat => rfl
  | _ => simp [isEligible, hn, IROps.isSplattableProducer, IROps.isArithProducer, IROps.isFMAProducer] at h

theorem setSplatResult_frame (m : Node) :
    (setSplatResult m).id = m.id ∧ (setSplatResult m).elementSize = m.elementSize ∧
      (setSplatResult m).args = m.args := by
  unfold setSplatResult
  split <;> exact ⟨rfl, rfl, rfl⟩

theorem isSplatForm_scalarSplatChain (b : Block) (x : Nat) (elementSize : OpSize) :
    isSplatForm b.scalarSplatChain elementSize (.ref x) ↔
      b.marked x ∧ ∃ m ∈ b.nodes, m.id = x ∧ m.elementSize = elementSize := by
  simp only [isSplatForm, scalarSplatChain, List.any_eq_true, List.mem_flatMap, Bool.and_eq_true, decide_eq_true_eq]
  constructor
  · rintro ⟨m', ⟨m, hm, hmem⟩, ⟨rfl, hsplat⟩, helem⟩
    obtain ⟨hid, hop, -, hes⟩ := sameOp_retarget b m
    split at hmem
    next hmark =>
      obtain ⟨hframe, hframe', -⟩ := setSplatResult_frame (b.retarget m)
      simp only [List.mem_cons, List.not_mem_nil, or_false] at hmem
      obtain rfl | rfl := hmem
      · rw [hframe, hid]
        exact ⟨hmark, m, hm, rfl, by rw [← hes, ← hframe', helem]⟩
      · simp [mergeNode, Node.splatResult] at hsplat
    next =>
      rw [List.mem_singleton] at hmem
      subst hmem
      have hfresh := b.fresh m hm
      unfold Node.splatResult at hsplat hfresh
      rw [hop] at hsplat
      exact absurd (hfresh.symm.trans hsplat) nofun
  · rintro ⟨hmark, m, hm, rfl, rfl⟩
    obtain ⟨m', hm', hid', helig⟩ := marked_iff_mem hmark
    obtain rfl := eq_of_id_eq hm' hm hid'
    obtain ⟨hframe, hframe', -⟩ := setSplatResult_frame (b.retarget m')
    obtain ⟨hid, -, -, hes⟩ := sameOp_retarget b m'
    refine ⟨setSplatResult (b.retarget m'), ⟨m', hm, by simp [hmark]⟩, ⟨hframe.trans hid, ?_⟩, hframe'.trans hes⟩
    exact splatResult_setSplatResult helig (sameOp_retarget b m')

theorem not_isSplatForm (h : b.marked x = false) (elementSize : OpSize) :
    isSplatForm b.scalarSplatChain elementSize (.ref x) = false := by
  refine Bool.eq_false_iff.mpr fun hsplat => ?_
  have hmark := ((isSplatForm_scalarSplatChain b x elementSize).mp hsplat).1
  rw [h] at hmark
  cases hmark

theorem isSplatForm_fresh (b : Block) (elementSize : OpSize) (a : Arg) :
    isSplatForm b.nodes elementSize a = false := by
  cases a with
  | inline constant => rfl
  | ref x =>
    refine List.any_eq_false.mpr fun m hm => ?_
    simp [b.fresh m hm]

end Block

/-! ## The walk and the run of the original block -/

def IsCandidate (nodes : List Node) (c : Candidate) : Prop :=
  ∃ m ∈ nodes, m.id = c.node ∧ m.elementSize = c.elementSize ∧ isEligible m = true

theorem IsCandidate.mem (h : IsCandidate pre c) : c.node ∈ ids pre := by
  obtain ⟨m, hm, hid, -⟩ := h
  exact hid ▸ List.mem_map_of_mem hm

theorem IsCandidate.append (h : IsCandidate pre c) (n : Node) : IsCandidate (pre ++ [n]) c := by
  obtain ⟨m, hm, hc⟩ := h
  exact ⟨m, List.mem_append_left _ hm, hc⟩

/-- What a tracked id is: the candidate itself, or a load that has its value. -/
structure TracksValue (pre : List Node) (s : State W) (x : Nat) (t : Tracked) : Prop where
  cand : IsCandidate pre t.cand
  value : s.env x = s.env t.cand.node
  direct : t.isAlias = false → x = t.cand.node
  load : t.isAlias = true → ∃ m ∈ pre, m.id = x ∧ isEligible m = false

theorem TracksValue.mem (h : TracksValue pre s x t) : x ∈ ids pre := by
  cases halias : t.isAlias with
  | false => exact h.direct halias ▸ h.cand.mem
  | true =>
    obtain ⟨m, hm, rfl, -⟩ := h.load halias
    exact List.mem_map_of_mem hm

structure Follows (pre : List Node) (s : State W) : Prop where
  tracked : ∀ x t, (walkAfter pre).trackedOf x = some t → TracksValue pre s x t
  sra : ∀ r c, (walkAfter pre).curSRA r = some c → IsCandidate pre c ∧ s.fpr r = s.env c.node
  eligible : ∀ m ∈ pre, isEligible m = true → (walkAfter pre).trackedOf m.id = some ⟨⟨m.id, m.elementSize⟩, false⟩

theorem walkAfter_append (pre : List Node) (n : Node) : walkAfter (pre ++ [n]) = (walkAfter pre).step n := by
  simp [walkAfter]

theorem Walk.step_cases (w : Walk) (n : Node) : (isEligible n ∧ (∀ r, n.op ≠ .storeRegister (.fpr r)) ∧
      w.step n = w.track n.id ⟨n.id, n.elementSize⟩ false) ∨
    (isEligible n = false ∧ ∃ r, n.op = .storeRegister (.fpr r) ∧
      w.step n = { w with curSRA := Function.update w.curSRA r ((w.trackedOfArg (n.arg 0)).map Tracked.cand) }) ∨
    (isEligible n = false ∧ ∃ r c, n.op = .loadRegister (.fpr r) ∧ w.curSRA r = some c ∧
      w.step n = w.track n.id c true) ∨
    (isEligible n = false ∧ (∀ r, n.op ≠ .storeRegister (.fpr r)) ∧ w.step n = w) := by
  cases helig : isEligible n with
  | true =>
    obtain ⟨op, zero, splat, hn⟩ | ⟨op, splat, hn⟩ := op_of_isEligible helig
    · simp [Walk.step, Walk.register, Walk.update, helig, hn]
    · simp [Walk.step, Walk.register, Walk.update, helig, hn]
  | false =>
    refine .inr ?_
    have hstep : w.step n = w.update n := by simp [Walk.step, Walk.register, helig]
    rw [hstep]
    unfold Walk.update
    split
    next r hop => exact .inl ⟨rfl, r, hop, rfl⟩
    next r hop =>
      cases hc : w.curSRA r with
      | some c => exact .inr (.inl ⟨rfl, r, c, hop, hc, rfl⟩)
      | none => exact .inr (.inr ⟨rfl, fun _ heq => by simp [hop] at heq, rfl⟩)
    next hstore _ => exact .inr (.inr ⟨rfl, fun r heq => hstore r heq, rfl⟩)

theorem fpr_exec (hstore : ∀ r, n.op ≠ .storeRegister (.fpr r)) (nodes : List Node) :
    (exec H nodes s n).fpr = s.fpr := by
  simp only [exec, effect]
  split
  next r hop => exact absurd hop (hstore r)
  all_goals rfl

theorem env_exec (hx : x ≠ n.id) (nodes : List Node) : (exec H nodes s n).env x = s.env x := by simp [exec, hx]

theorem TracksValue.exec (h : TracksValue pre s x t) (hid : n.id ∉ ids pre) (nodes : List Node) :
    TracksValue (pre ++ [n]) (exec H nodes s n) x t where
  cand := h.cand.append n
  value := by
    have hx : x ≠ n.id := fun heq => hid (heq ▸ h.mem)
    have hc : t.cand.node ≠ n.id := fun heq => hid (heq ▸ h.cand.mem)
    rw [env_exec hx, env_exec hc, h.value]
  direct := h.direct
  load ha := by
    obtain ⟨m, hm, hfacts⟩ := h.load ha
    exact ⟨m, List.mem_append_left _ hm, hfacts⟩

/-- What a step does is what it tracks for its own id and in the registers. -/
theorem Follows.extend (h : Follows pre s) (hid : n.id ∉ ids pre)
    (hothers : ∀ x ≠ n.id, (walkAfter (pre ++ [n])).trackedOf x = (walkAfter pre).trackedOf x)
    (hself : ∀ t, (walkAfter (pre ++ [n])).trackedOf n.id = some t →
      TracksValue (pre ++ [n]) (exec H nodes s n) n.id t)
    (helig : isEligible n → (walkAfter (pre ++ [n])).trackedOf n.id = some ⟨⟨n.id, n.elementSize⟩, false⟩)
    (hsra : ∀ r c, (walkAfter (pre ++ [n])).curSRA r = some c →
      IsCandidate (pre ++ [n]) c ∧ (exec H nodes s n).fpr r = (exec H nodes s n).env c.node) :
    Follows (pre ++ [n]) (exec H nodes s n) where
  tracked x t ht := by
    by_cases hx : x = n.id
    · exact hx ▸ hself t (hx ▸ ht)
    · exact (h.tracked x t (hothers x hx ▸ ht)).exec hid _
  sra := hsra
  eligible m hm helig' := by
    obtain hm | hm := List.mem_append.mp hm
    · rw [hothers m.id fun heq => hid (heq ▸ List.mem_map_of_mem hm)]
      exact h.eligible m hm helig'
    · obtain rfl := List.mem_singleton.mp hm
      exact helig helig'

theorem Follows.exec (h : Follows pre s) (hb : b.nodes = pre ++ n :: post) :
    Follows (pre ++ [n]) (exec H b.nodes s n) := by
  obtain ⟨hid, -⟩ := Block.id_notMem hb
  have hcand {c : Candidate} (hc : IsCandidate pre c) : (Splat.exec H b.nodes s n).env c.node = s.env c.node :=
    env_exec (fun heq => hid (heq ▸ hc.mem)) _
  have hsra (hstore : ∀ r, n.op ≠ .storeRegister (.fpr r)) : ∀ r c, (walkAfter pre).curSRA r = some c →
        IsCandidate (pre ++ [n]) c ∧ (Splat.exec H b.nodes s n).fpr r = (Splat.exec H b.nodes s n).env c.node := by
    intro r c hc
    obtain ⟨hin, hval⟩ := h.sra r c hc
    exact ⟨hin.append n, by rw [fpr_exec hstore, hcand hin, hval]⟩
  obtain ⟨helig, hstore, hstep⟩ | ⟨helig, r, hop, hstep⟩ | ⟨helig, r, c, hop, hc, hstep⟩ |
    ⟨helig, hstore, hstep⟩ := (walkAfter pre).step_cases n
  all_goals rw [← walkAfter_append] at hstep
  · refine h.extend hid (fun x hx => by simp [hstep, Walk.track, hx]) (fun t ht => ?_)
      (fun _ => by simp [hstep, Walk.track]) (by rw [hstep]; exact hsra hstore)
    obtain rfl : ⟨⟨n.id, n.elementSize⟩, false⟩ = t := by simpa [hstep, Walk.track] using ht
    exact ⟨⟨n, by simp, rfl, rfl, helig⟩, rfl, fun _ => rfl, by simp⟩
  · have hfpr : (Splat.exec H b.nodes s n).fpr = Function.update s.fpr r (s.read (n.arg 0)) := by
      simp [Splat.exec, effect, hop]
    refine h.extend hid (fun x _ => by rw [hstep]) (fun t ht => ?_) (by simp [helig]) fun r' c hc => ?_
    · rw [hstep] at ht
      exact (h.tracked n.id t ht).exec hid _
    · rw [hstep] at hc
      rw [hfpr]
      by_cases hr : r' = r
      · subst hr
        simp only [Function.update_self] at hc ⊢
        obtain ⟨t, ht, rfl⟩ := Option.map_eq_some_iff.mp hc
        cases harg : n.arg 0 with
        | inline constant => simp [Walk.trackedOfArg, harg] at ht
        | ref x =>
          rw [harg] at ht
          have htracks := h.tracked x t ht
          exact ⟨htracks.cand.append n, by rw [hcand htracks.cand, ← htracks.value]; rfl⟩
      · simp only [Function.update_of_ne hr] at hc ⊢
        obtain ⟨hin, hval⟩ := h.sra r' c hc
        exact ⟨hin.append n, by rw [hcand hin, hval]⟩
  · obtain ⟨hin, hval⟩ := h.sra r c hc
    have hstore : ∀ r, n.op ≠ .storeRegister (.fpr r) := fun r' heq => by simp [hop] at heq
    refine h.extend hid (fun x hx => by simp [hstep, Walk.track, hx]) (fun t ht => ?_) (by simp [helig])
      (by rw [hstep]; exact hsra hstore)
    obtain rfl : ⟨c, true⟩ = t := by simpa [hstep, Walk.track] using ht
    refine ⟨hin.append n, ?_, by simp, fun _ => ⟨n, by simp, rfl, helig⟩⟩
    rw [hcand hin, ← hval]
    simp [Splat.exec, result, hop]
  · refine h.extend hid (fun x _ => by rw [hstep]) (fun t ht => ?_) (by simp [helig]) (by rw [hstep]; exact hsra hstore)
    rw [hstep] at ht
    exact (h.tracked n.id t ht).exec hid _

/-! ## The two runs -/

/-- What an argument receives: the same value or, where no more than a marked op's
element is read, element 0 of that value in every element. -/
def Agree (b : Block) (n : Node) (i : Nat) (v v' : Value) : Prop :=
  v' = v ∨ ∃ k, b.elementRead n i = some k ∧ ∃ m ∈ b.nodes, b.marked m.id = true ∧
    k ≤ m.elementSize.bits ∧ v' = splat 128 (lane m.elementSize.bits 0 v)

theorem Agree.lane_eq (h : Agree b n i v v') (hk : b.elementRead n i = some k) : lane k 0 v' = lane k 0 v := by
  obtain rfl | ⟨k', hk', m, hm, hmark, hle, rfl⟩ := h
  · rfl
  · obtain rfl : k = k' := by simpa [hk] using hk'
    obtain ⟨m', hm', hid, helig⟩ := Block.marked_iff_mem hmark
    obtain rfl := Block.eq_of_id_eq hm' hm hid
    exact lane_zero_splat_lane hle (bits_of_isEligible helig).1 _

structure Sim (b : Block) (pre : List Node) (s s' : State W) : Prop where
  fpr : s'.fpr = s.fpr
  world : s'.world = s.world
  plain : ∀ x < b.ssaCount, ¬ (x ∈ ids pre ∧ b.marked x = true) → s'.env x = s.env x
  chain : ∀ m ∈ pre, b.marked m.id = true → s'.env m.id = splat 128 (lane m.elementSize.bits 0 (s.env m.id)) ∧
      s'.env (b.mergeId m.id) = s.env m.id
  received : ∀ m ∈ pre, ∀ i, Agree b m i ((s.received m.id).getD i 0) ((s'.received m.id).getD i 0)

def Carried (b : Block) (n : Node) (i : Nat) (v v' : Value) (arg : Arg) : Prop :=
  (v' = v ∧ ∀ elementSize, isSplatForm b.scalarSplatChain elementSize arg = false) ∨
  ∃ c, isForward n i c = true ∧ ¬ b.Dropped n i ∧ c.elementSize.bits ≤ 128 ∧
    isSplatForm b.scalarSplatChain c.elementSize arg = true ∧
    v' = splat 128 (lane c.elementSize.bits 0 v)

section
variable (hs : Sim b pre s s') (hf : Follows pre s) (hb : b.nodes = pre ++ n :: post)
include hs hf hb

theorem read_newArg (ha : a ∈ n.args) :
    Carried b n i (s.read a) (s'.read (b.newArg (walkAfter pre) n i a)) (b.newArg (walkAfter pre) n i a) := by
  -- an unmarked id and a merge have the architectural value
  have hplain {x : Nat} (hx : x < b.ssaCount) (hmark : b.marked x = false) :
      Carried b n i (s.env x) (s'.env x) (.ref x) :=
    .inl ⟨hs.plain x hx fun h => by simp [hmark] at h, Block.not_isSplatForm hmark⟩
  have hmerge {c : Candidate} (hc : IsCandidate pre c) (hmark : b.marked c.node) :
      Carried b n i (s.env c.node) (s'.env (b.mergeId c.node)) (.ref (b.mergeId c.node)) := by
    obtain ⟨m, hm, hid, -⟩ := hc
    exact .inl ⟨hid ▸ (hs.chain m hm (hid ▸ hmark)).2, Block.not_isSplatForm (b.not_marked_mergeId _)⟩
  cases a with
  | inline constant => exact .inl ⟨rfl, fun _ => rfl⟩
  | ref x =>
    have hx : x < b.ssaCount := b.args_lt n (Block.mem_nodes hb) _ ha x rfl
    cases ht : (walkAfter pre).trackedOf x with
    | none =>
      simp only [Block.newArg, Walk.trackedOfArg, ht]
      refine hplain hx (Bool.eq_false_iff.mpr fun hmark => ?_)
      obtain ⟨m, hm, rfl, helig⟩ := Block.marked_iff_mem hmark
      have htracked := hf.eligible m (Block.mem_pre hb ha hm) helig
      rw [ht] at htracked
      cases htracked
    | some t =>
      have htracks := hf.tracked x t ht
      have hload (halias : t.isAlias) : b.marked x = false := by
        refine Bool.eq_false_iff.mpr fun hmark => ?_
        obtain ⟨m, hm, hid, helig⟩ := htracks.load halias
        obtain ⟨m', hm', hid', helig'⟩ := Block.marked_iff_mem hmark
        have hmem : m ∈ b.nodes := hb ▸ List.mem_append_left _ hm
        rw [Block.eq_of_id_eq hm' hmem (hid'.trans hid.symm), helig] at helig'
        cases helig'
      simp only [Block.newArg, Walk.trackedOfArg, ht]
      split
      next hmark =>
        split
        next hfwd =>
          unfold Block.forwardArg
          split
          next hdrop =>
            split
            next hdirect =>
              obtain rfl : x = t.cand.node := by simpa using hdirect
              exact hmerge htracks.cand hmark
            next hdirect =>
              refine hplain hx (hload (Bool.not_eq_false _ ▸ fun hfalse => hdirect ?_))
              rw [htracks.direct hfalse]
          next hdrop =>
            obtain ⟨m, hm, hid, helem, helig⟩ := htracks.cand
            have hbits := bits_of_isEligible helig
            obtain ⟨hsplat, -⟩ := hs.chain m hm (hid ▸ hmark)
            refine .inr ⟨t.cand, hfwd, hdrop, helem ▸ hbits.1, ?_, ?_⟩
            · rw [Block.isSplatForm_scalarSplatChain]
              exact ⟨hmark, m, hb ▸ List.mem_append_left _ hm, hid, helem⟩
            · change s'.env t.cand.node = splat 128 (lane _ 0 (s.env x))
              rw [htracks.value, ← hid, ← helem]
              exact hsplat
        next =>
          split
          next halias => exact hplain hx (hload halias)
          next halias =>
            have hdirect := htracks.direct (Bool.eq_false_iff.mpr halias)
            subst hdirect
            exact hmerge htracks.cand hmark
      next hmark =>
        refine hplain hx ?_
        cases halias : t.isAlias with
        | true => exact hload halias
        | false => exact htracks.direct halias ▸ Bool.eq_false_iff.mpr hmark

theorem read_arg (i : Nat) :
    Carried b n i (s.read (n.arg i)) (s'.read ((b.retarget n).arg i)) ((b.retarget n).arg i) := by
  unfold Node.arg
  rw [Block.args_retarget hb, List.getD_eq_getElem?_getD, List.getD_eq_getElem?_getD, List.getElem?_mapIdx]
  cases ha : n.args[i]? with
  | none => exact .inl ⟨rfl, fun _ => rfl⟩
  | some a => exact read_newArg hs hf hb (List.mem_of_getElem? ha)

theorem read_whole (h : b.elementRead n i = none) : s'.read ((b.retarget n).arg i) = s.read (n.arg i) := by
  obtain ⟨heq, -⟩ | ⟨c, hfwd, hdrop, -⟩ := read_arg hs hf hb i
  · exact heq
  · obtain ⟨⟨k, hk, -⟩, -⟩ := elementRead_of_isForward hfwd hdrop
    rw [h] at hk
    cases hk

theorem read_agree (i : Nat) : Agree b n i (s.read (n.arg i)) (s'.read ((b.retarget n).arg i)) := by
  obtain ⟨heq, -⟩ | ⟨c, hfwd, hdrop, hbits, hsplat, heq⟩ := read_arg hs hf hb i
  · exact .inl heq
  · obtain ⟨⟨k, hk, hle⟩, -⟩ := elementRead_of_isForward hfwd hdrop
    cases harg : (b.retarget n).arg i with
    | inline constant => simp [harg, isSplatForm] at hsplat
    | ref x =>
      rw [harg, Block.isSplatForm_scalarSplatChain] at hsplat
      obtain ⟨hmark, m, hm, rfl, helem⟩ := hsplat
      exact .inr ⟨k, hk, m, hm, hmark, helem ▸ hle, by rw [← harg, heq, helem]⟩

theorem operand_eq (i : Nat) (hop : n.op.isSplattableProducer) (m : Node)
    (hargs : m.args = (b.retarget n).args) (helem : m.elementSize = n.elementSize) :
    operand b.scalarSplatChain s' m i = splat 128 (lane n.elementSize.bits 0 (s.read (n.arg i))) ∧
      operand b.nodes s n i = splat 128 (lane n.elementSize.bits 0 (s.read (n.arg i))) := by
  have harg : m.arg i = (b.retarget n).arg i := by rw [Node.arg, hargs, Node.arg]
  refine ⟨?_, by simp [operand, b.isSplatForm_fresh]⟩
  unfold operand
  rw [harg, helem]
  obtain ⟨heq, hnot⟩ | ⟨c, hfwd, hdrop, -, hsplat, heq⟩ := read_arg hs hf hb i
  · simp [hnot, heq]
  · obtain ⟨-, hsame⟩ := elementRead_of_isForward hfwd hdrop
    rw [← hsame (.inl hop)] at hsplat heq
    simp [hsplat, heq]

/-- From an index on whose positions read whole vectors, the values are the original ones. -/
theorem map_read_drop (k : Nat) (h : ∀ i, k ≤ i → b.elementRead n i = none) :
    ((b.retarget n).args.drop k).map s'.read = (n.args.drop k).map s.read := by
  refine List.ext_getElem? fun i => ?_
  rw [List.getElem?_map, List.getElem?_map, List.getElem?_drop, List.getElem?_drop, Block.args_retarget hb,
    List.getElem?_mapIdx]
  cases ha : n.args[k + i]? with
  | none => rfl
  | some a =>
    obtain ⟨heq, -⟩ | ⟨c, hfwd, hdrop, -⟩ := read_newArg hs hf hb (List.mem_of_getElem? ha)
    · exact congrArg some heq
    · obtain ⟨⟨_, hk, -⟩, -⟩ := elementRead_of_isForward hfwd hdrop
      rw [h _ (Nat.le_add_right k i)] at hk
      cases hk

theorem map_read (h : ∀ i, b.elementRead n i = none) : (b.retarget n).args.map s'.read = n.args.map s.read :=
  map_read_drop hs hf hb 0 fun i _ => h i

/-! ## One node -/

theorem result_of_not_marked (hmark : b.marked n.id = false) :
    result H b.scalarSplatChain s' (b.retarget n) = result H b.nodes s n := by
  obtain ⟨hid, hop, hsize, helem⟩ := b.sameOp_retarget n
  cases hn : n.op with
  | arith op zero splatResult =>
    have hprod : n.op.isSplattableProducer := by simp [hn, IROps.isSplattableProducer, IROps.isArithProducer]
    obtain ⟨h0, h0'⟩ := operand_eq hs hf hb 0 hprod _ rfl helem
    obtain ⟨h1, h1'⟩ := operand_eq hs hf hb 1 hprod _ rfl helem
    have hupper := read_whole hs hf hb (i := 0) (by simp [Block.elementRead, hn, hmark])
    simp only [result, hop, hn, helem, h0, h0', h1, h1', hupper]
  | fma op splatResult =>
    have hprod : n.op.isSplattableProducer := by simp [hn, IROps.isSplattableProducer, IROps.isFMAProducer]
    obtain ⟨h1, h1'⟩ := operand_eq hs hf hb 1 hprod _ rfl helem
    obtain ⟨h2, h2'⟩ := operand_eq hs hf hb 2 hprod _ rfl helem
    obtain ⟨h3, h3'⟩ := operand_eq hs hf hb 3 hprod _ rfl helem
    have hupper := read_whole hs hf hb (i := 0) (by simp [Block.elementRead, hn])
    simp only [result, hop, hn, helem, h1, h1', h2, h2', h3, h3', hupper]
  | minMax op =>
    have hfirst := read_whole hs hf hb (i := 0) (by simp [Block.elementRead, hn])
    simp only [result, hop, hn, helem, hfirst]
    obtain ⟨heq, -⟩ | ⟨c, hfwd, hdrop, hbits, -, heq⟩ := read_arg hs hf hb 1
    · rw [heq]
    · obtain ⟨-, hsame⟩ := elementRead_of_isForward hfwd hdrop
      rw [← hsame (.inr ⟨op, hn⟩)] at hbits heq
      rw [heq, insElement, insElement, Host.minMaxLanes, Host.minMaxLanes, lane_zero_zipLanes hbits,
        lane_zero_zipLanes hbits, lane_zero_splat hbits]
  | storeRegister slot =>
    have hval := read_whole hs hf hb (i := 0) (by simp [Block.elementRead, hn])
    simp only [result, hop, hn, hval]
  | loadRegister slot =>
    cases slot with
    | fpr reg => simp only [result, hop, hn, hs.fpr]
    | gpr reg => simp only [result, hop, hn, hs.world]
  | storeMem fpr => simp only [result, hop, hn]
  | vInsElementWide destIdx srcIdx =>
    have hdest := read_whole hs hf hb (i := 0) (by simp [Block.elementRead, hn])
    have hsrc := read_whole hs hf hb (i := 1) (by simp [Block.elementRead, hn])
    simp only [result, hop, hn, helem, hdest, hsrc]
  | other opcode =>
    have hargs := map_read hs hf hb fun i => by simp [Block.elementRead, hn]
    simp only [result, hop, hn, hargs, hs.world]

theorem effect_retarget : effect H s' (b.retarget n) = effect H s n := by
  obtain ⟨hid, hop, hsize, helem⟩ := b.sameOp_retarget n
  cases hn : n.op with
  | storeRegister slot =>
    have hval := read_whole hs hf hb (i := 0) (by simp [Block.elementRead, hn])
    cases slot with
    | fpr reg => simp only [effect, hop, hn, hval, hs.fpr, hs.world]
    | gpr reg => simp only [effect, hop, hn, hval, hs.fpr, hs.world]
  | storeMem fpr =>
    have htail : (b.retarget n).args.tail.map s'.read = n.args.tail.map s.read := by
      have hdrop := map_read_drop hs hf hb 1 fun i hi => by
        have hi0 : i ≠ 0 := by omega
        cases fpr <;> simp [Block.elementRead, hn, hi0]
      rwa [List.drop_one, List.drop_one] at hdrop
    have hval : (s'.read ((b.retarget n).arg 0)).setWidth n.size.bits = (s.read (n.arg 0)).setWidth n.size.bits := by
      cases fpr with
      | false => rw [read_whole hs hf hb (by simp [Block.elementRead, hn])]
      | true =>
        have hread : b.elementRead n 0 = some n.size.bits := by simp [Block.elementRead, hn]
        have hlow := (read_agree hs hf hb 0).lane_eq hread
        rwa [lane_zero, lane_zero] at hlow
    simp only [effect, hop, hn, hsize, htail, hs.fpr, hs.world]
    rw [Host.storeLow, hval, Host.storeLow]
  | other opcode =>
    have hargs := map_read hs hf hb fun i => by simp [Block.elementRead, hn]
    simp only [effect, hop, hn, hargs, hs.fpr, hs.world]
  | _ => simp only [effect, hop, hn, hs.fpr, hs.world]

theorem result_of_marked (helig : isEligible n) : result H b.scalarSplatChain s' (setSplatResult (b.retarget n)) =
      splat 128 (lane n.elementSize.bits 0 (result H b.nodes s n)) ∧
    result H b.nodes s n = setLane 0 (lane n.elementSize.bits 0 (result H b.nodes s n)) (s.read (n.arg 0)) := by
  obtain ⟨hid, hop, hsize, helem⟩ := b.sameOp_retarget n
  obtain ⟨-, hframe, hargs⟩ := Block.setSplatResult_frame (b.retarget n)
  have helem' := hframe.trans helem
  obtain ⟨hle, hdvd⟩ := bits_of_isEligible helig
  have hfresh := b.fresh n (Block.mem_nodes hb)
  have hoperand (i : Nat) := operand_eq hs hf hb i (isSplattableProducer_of_isEligible helig) _ hargs helem'
  obtain ⟨op, zero, splatResult, hn⟩ | ⟨op, splatResult, hn⟩ := op_of_isEligible helig
  · obtain rfl : splatResult = false := by simpa [Node.splatResult, hn] using hfresh
    have hop' : (setSplatResult (b.retarget n)).op = .arith op zero true := by simp [setSplatResult, hop, hn]
    have horig : result H b.nodes s n = setLane 0 (H.arith op n.elementSize.bits
        (lane n.elementSize.bits 0 (s.read (n.arg 0))) (lane n.elementSize.bits 0 (s.read (n.arg 1))))
          (s.read (n.arg 0)) := by
      simp [result, hn, (hoperand 0).2, (hoperand 1).2, insElement, Host.arithLanes, zipLanes_splat hdvd, lane_zero_splat hle]
    rw [horig, lane_zero_setLane hle]
    refine ⟨?_, rfl⟩
    simp only [result, hop', helem', (hoperand 0).1, (hoperand 1).1, if_true]
    exact zipLanes_splat hdvd _ _ _
  · obtain rfl : splatResult = false := by simpa [Node.splatResult, hn] using hfresh
    have hop' : (setSplatResult (b.retarget n)).op = .fma op true := by simp [setSplatResult, hop, hn]
    have horig : result H b.nodes s n = setLane 0 (H.fma op n.elementSize.bits
        (lane n.elementSize.bits 0 (s.read (n.arg 1))) (lane n.elementSize.bits 0 (s.read (n.arg 2)))
        (lane n.elementSize.bits 0 (s.read (n.arg 3)))) (s.read (n.arg 0)) := by
      simp [result, hn, (hoperand 1).2, (hoperand 2).2, (hoperand 3).2, insElement, Host.fmaLanes,
        zipLanes₃_splat hdvd, lane_zero_splat hle]
    rw [horig, lane_zero_setLane hle]
    refine ⟨?_, rfl⟩
    simp only [result, hop', helem', (hoperand 1).1, (hoperand 2).1, (hoperand 3).1]
    exact zipLanes₃_splat hdvd _ _ _ _

omit hf in
theorem read_lineage (x : Value) :
    ({ s' with env := Function.update s'.env n.id x } : State W).read (b.lineage n) = s.read (n.arg 0) := by
  unfold Block.lineage IROps.lineageArgIdx
  cases harg : n.arg 0 with
  | inline constant => rfl
  | ref y =>
    have hmem : .ref y ∈ n.args := by
      rw [Node.arg, List.getD_eq_getElem?_getD] at harg
      cases h0 : n.args[0]? with
      | none => simp [h0] at harg
      | some a => exact List.mem_of_getElem? (by rw [h0, ← harg, h0, Option.getD_some])
    have hlt := b.ids_lt n (Block.mem_nodes hb)
    have hy := b.args_lt n (Block.mem_nodes hb) _ hmem y rfl
    have hself : y ≠ n.id := fun heq => b.irrefl n (Block.mem_nodes hb) (heq ▸ hmem)
    dsimp only
    split
    next hmark =>
      obtain ⟨m, hm, rfl, -⟩ := Block.marked_iff_mem hmark
      simp only [State.read, Function.update_of_ne (Block.ne_mergeId hlt m.id).symm]
      exact (hs.chain m (Block.mem_pre hb hmem hm) hmark).2
    next hmark =>
      simp only [State.read, Function.update_of_ne hself]
      exact hs.plain y hy fun h => hmark h.2

omit hs hf hb in
theorem getD_map_read (s : State W) (n : Node) (i : Nat) : (n.args.map s.read).getD i 0 = s.read (n.arg i) := by
  rw [Node.arg, List.getD_eq_getElem?_getD, List.getD_eq_getElem?_getD, List.getElem?_map]
  cases n.args[i]? <;> rfl

omit hs hf in
theorem ne_of_mem_pre (hm : m ∈ pre) : m.id ≠ n.id :=
  fun heq => (Block.id_notMem hb).1 (heq ▸ List.mem_map_of_mem hm)

/-- The step of a node, and of its merge when it has one, in terms of what the node's
value has become. -/
theorem Sim.extend (hfpr : t'.fpr = (effect H s n).1) (hworld : t'.world = (effect H s n).2)
    (henv : ∀ x < b.ssaCount, x ≠ n.id → t'.env x = s'.env x)
    (hmerge : ∀ m ∈ pre, t'.env (b.mergeId m.id) = s'.env (b.mergeId m.id))
    (hreceived : ∀ m ∈ pre, t'.received m.id = s'.received m.id)
    (hself : t'.received n.id = (b.retarget n).args.map s'.read)
    (hplain : b.marked n.id = false → t'.env n.id = result H b.nodes s n) (hchain : b.marked n.id →
      t'.env n.id = splat 128 (lane n.elementSize.bits 0 (result H b.nodes s n)) ∧
        t'.env (b.mergeId n.id) = result H b.nodes s n) :
    Sim b (pre ++ [n]) (exec H b.nodes s n) t' where
  fpr := hfpr
  world := hworld
  plain x hx hdone := by
    by_cases hxn : x = n.id
    · subst hxn
      have hmark : b.marked n.id = false := by
        refine Bool.eq_false_iff.mpr fun hmark => hdone ⟨?_, hmark⟩
        simp [ids]
      simpa [exec] using hplain hmark
    · rw [henv x hx hxn, env_exec hxn]
      refine hs.plain x hx fun h => hdone ⟨?_, h.2⟩
      rw [ids, List.map_append, List.mem_append]
      exact .inl h.1
  chain m hm hmark := by
    obtain hm | hm := List.mem_append.mp hm
    · have hne := ne_of_mem_pre hb hm
      have hlt := b.ids_lt m (hb ▸ List.mem_append_left _ hm)
      rw [henv _ hlt hne, hmerge m hm, env_exec hne]
      exact hs.chain m hm hmark
    · obtain rfl := List.mem_singleton.mp hm
      simpa [exec] using hchain hmark
  received m hm i := by
    obtain hm | hm := List.mem_append.mp hm
    · rw [hreceived m hm]
      have hne := ne_of_mem_pre hb hm
      simpa [exec, hne] using hs.received m hm i
    · obtain rfl := List.mem_singleton.mp hm
      have hagree := read_agree hs hf hb i
      rw [← getD_map_read s m, ← getD_map_read s' (b.retarget m), ← hself] at hagree
      simpa [exec] using hagree

theorem Sim.plainStep (hmark : b.marked n.id = false) :
    Sim b (pre ++ [n]) (exec H b.nodes s n) (exec H b.scalarSplatChain s' (b.retarget n)) := by
  obtain ⟨hid, -⟩ := b.sameOp_retarget n
  have heffect := effect_retarget (H := H) hs hf hb
  have hresult := result_of_not_marked (H := H) hs hf hb hmark
  have hlt := b.ids_lt n (Block.mem_nodes hb)
  refine Sim.extend hs hf hb (by simp [exec, heffect]) (by simp [exec, heffect])
    (fun x _ hx => env_exec (hid ▸ hx) _) (fun m _ => env_exec (Block.ne_mergeId (hid ▸ hlt) m.id).symm _) (fun m hm => ?_) ?_
    (fun _ => ?_) ?_
  · simp [exec, hid, ne_of_mem_pre hb hm]
  · simp [exec, hid]
  · simpa [exec, hid] using hresult
  · simp [hmark]

theorem Sim.chainStep (hmark : b.marked n.id) : Sim b (pre ++ [n]) (exec H b.nodes s n)
      (exec H b.scalarSplatChain (exec H b.scalarSplatChain s' (setSplatResult (b.retarget n)))
        (b.mergeNode n)) := by
  obtain ⟨m, hm, hmid, helig⟩ := Block.marked_iff_mem hmark
  obtain rfl := Block.eq_of_id_eq hm (Block.mem_nodes hb) hmid
  obtain ⟨hid, hop, -, -⟩ := b.sameOp_retarget m
  obtain ⟨hframe, -, hargs⟩ := Block.setSplatResult_frame (b.retarget m)
  have hid' := hframe.trans hid
  obtain ⟨hsplat, horig⟩ := result_of_marked (H := H) hs hf hb helig
  obtain ⟨hle, -⟩ := bits_of_isEligible helig
  have hlt := b.ids_lt m hm
  have heffect : effect H s' (setSplatResult (b.retarget m)) = effect H s m := by
    obtain ⟨op, zero, splat, hn⟩ | ⟨op, splat, hn⟩ := op_of_isEligible helig
    · simp [effect, setSplatResult, hop, hn, hs.fpr, hs.world]
    · simp [effect, setSplatResult, hop, hn, hs.fpr, hs.world]
  have hmerge : b.mergeId m.id ≠ m.id := (Block.ne_mergeId hlt _).symm
  have hvalue : result H b.scalarSplatChain (exec H b.scalarSplatChain s' (setSplatResult (b.retarget m)))
      (b.mergeNode m) = result H b.nodes s m := by
    have hread := read_lineage hs hb (splat 128 (lane m.elementSize.bits 0 (result H b.nodes s m)))
    have hlineage : (exec H b.scalarSplatChain s' (setSplatResult (b.retarget m))).read (b.lineage m) =
        s.read (m.arg 0) := by
      rw [← hread]
      cases b.lineage m with
      | inline constant => rfl
      | ref y => simp [State.read, exec, hid', hsplat]
    have hnode : (exec H b.scalarSplatChain s' (setSplatResult (b.retarget m))).env m.id =
        splat 128 (lane m.elementSize.bits 0 (result H b.nodes s m)) := by
      simp [exec, hid', hsplat]
    change insElement m.elementSize 0 0 (State.read _ (b.lineage m)) (State.read _ (.ref m.id)) = _
    rw [hlineage, State.read, hnode, insElement, lane_zero_splat hle]
    exact horig.symm
  refine Sim.extend hs hf hb (heffect ▸ rfl) (heffect ▸ rfl) (fun x hx hne => ?_) (fun m' hm' => ?_)
    (fun m' hm' => ?_) ?_ (fun hplain => ?_) (fun _ => ⟨?_, ?_⟩)
  · rw [env_exec (Block.ne_mergeId hx m.id), env_exec (hid' ▸ hne)]
  · have hne := ne_of_mem_pre hb hm'
    have hne' : b.mergeId m'.id ≠ b.mergeId m.id := by
      unfold Block.mergeId
      omega
    rw [env_exec hne', env_exec (Block.ne_mergeId (hid' ▸ hlt) m'.id).symm]
  · have hne := ne_of_mem_pre hb hm'
    have hlt' := b.ids_lt m' (hb ▸ List.mem_append_left _ hm')
    simp [exec, Block.mergeNode, hid', hne, Block.ne_mergeId hlt' m.id]
  · simp [exec, Block.mergeNode, hid', hmerge.symm, hargs]
  · simp [hmark] at hplain
  · rw [env_exec hmerge.symm]
    simp [exec, hid', hsplat]
  · rw [← hvalue]
    simp [exec, Block.mergeNode]

end

/-! ## The whole block -/

theorem sim_run (hs : Sim b pre s s') (hf : Follows pre s) (hb : b.nodes = pre ++ post) :
    Sim b b.nodes (post.foldl (exec H b.nodes) s) ((post.flatMap fun n =>
        if b.marked n.id then [setSplatResult (b.retarget n), b.mergeNode n] else [b.retarget n]).foldl
          (exec H b.scalarSplatChain) s') := by
  induction post generalizing pre s s' with
  | nil =>
    rw [List.append_nil] at hb
    exact hb ▸ hs
  | cons n post ih =>
    have hb' : b.nodes = (pre ++ [n]) ++ post := by simp [hb]
    rw [List.flatMap_cons, List.foldl_append]
    refine ih ?_ (hf.exec hb) hb'
    cases hmark : b.marked n.id with
    | true => exact Sim.chainStep hs hf hb hmark
    | false => exact Sim.plainStep hs hf hb hmark

def Walk.Direct (w : Walk) : Prop := ∀ x t, w.trackedOf x = some t → t.isAlias = false → x = t.cand.node

section
variable {w : Walk} (h : w.Direct)
include h

theorem Walk.Direct.track (hc : isAlias = false → x = c.node) :
    (w.track x c isAlias).Direct := by
  intro y t ht halias
  by_cases hy : y = x
  · obtain rfl : ⟨c, isAlias⟩ = t := by simpa [Walk.track, hy] using ht
    exact hy.trans (hc halias)
  · exact h y t (by simpa [Walk.track, hy] using ht) halias

theorem Walk.Direct.register (n : Node) : (w.register n).Direct := by
  unfold Walk.register
  split
  · exact h.track fun _ => rfl
  · exact h

theorem Walk.Direct.step (n : Node) : (w.step n).Direct := by
  obtain ⟨-, -, hstep⟩ | ⟨-, r, -, hstep⟩ | ⟨-, r, c, -, -, hstep⟩ | ⟨-, -, hstep⟩ := w.step_cases n
  · exact hstep ▸ h.track fun _ => rfl
  · exact hstep ▸ h
  · exact hstep ▸ h.track (by simp)
  · rwa [hstep]

theorem Walk.Direct.countP_classify (n : Node) (x : Nat) :
    ((w.classify n).countP fun u => !u.isAlias && u.cand.node = x) ≤ n.args.count (.ref x) := by
  rw [Walk.classify, List.countP_filterMap, ← List.zipIdx_map_fst 0 n.args, List.count, List.countP_map,
    List.zipIdx_map_fst]
  refine List.countP_mono_left fun p _ hp => ?_
  cases harg : p.1 with
  | inline constant => simp [harg, Walk.trackedOfArg] at hp
  | ref y =>
    cases ht : w.trackedOf y with
    | none => simp [harg, Walk.trackedOfArg, ht] at hp
    | some t =>
      simp only [harg, Walk.trackedOfArg, ht, Option.map_some, Option.getD_some, Bool.and_eq_true,
        Bool.not_eq_true', decide_eq_true_eq] at hp
      simp [harg, h y t ht hp.1, hp.2]

theorem Walk.Direct.countP_uses (nodes : List Node) (x : Nat) :
    ((w.uses nodes).countP fun u => !u.isAlias && u.cand.node = x) ≤ (nodes.flatMap Node.args).count (.ref x) := by
  induction nodes generalizing w with
  | nil => simp [Walk.uses]
  | cons n nodes ih =>
    rw [Walk.uses, List.countP_append, List.flatMap_cons, List.count_append]
    exact Nat.add_le_add ((h.register n).countP_classify n x) (ih (h.step n))

end

theorem Block.not_marked_of_outsideUses (b : Block) (h : b.outsideUses x ≠ 0) : b.marked x = false := by
  have hseen : b.candUsesSeen x ≤ (b.nodes.flatMap Node.args).count (.ref x) :=
    Walk.Direct.countP_uses (w := {}) (fun _ _ => nofun) b.nodes x
  have hne : b.candUsesSeen x ≠ b.getUses x := by
    unfold getUses
    omega
  simp [marked, hne]

/-- The rewritten block leaves the registers and the surroundings as the original does.
Every argument receives the same value, where no more than a marked op's element is
read at least element 0 of it. Every value is the same but a marked op's, whose
element 0 is, and which no other block uses. -/
theorem Block.scalarSplatChain_preserves (H : Host W) (b : Block) (s : State W) : let before := run H b.nodes s
    let after := run H b.scalarSplatChain s
    after.fpr = before.fpr ∧ after.world = before.world ∧
      (∀ n ∈ b.nodes, ∀ i, Agree b n i ((before.received n.id).getD i 0) ((after.received n.id).getD i 0)) ∧
      (∀ x < b.ssaCount, b.marked x = false → after.env x = before.env x) ∧
      (∀ n ∈ b.nodes, b.marked n.id = true →
        lane n.elementSize.bits 0 (after.env n.id) = lane n.elementSize.bits 0 (before.env n.id) ∧
          after.env (b.mergeId n.id) = before.env n.id) ∧
      ∀ x, b.outsideUses x ≠ 0 → b.marked x = false := by
  intro before after
  have hinit : Sim b [] s s :=
    ⟨rfl, rfl, fun _ _ _ => rfl, fun _ hm => absurd hm List.not_mem_nil, fun _ hm => absurd hm List.not_mem_nil⟩
  have hfollows : Follows [] s := ⟨nofun, nofun, fun _ hm => absurd hm List.not_mem_nil⟩
  have hsim : Sim b b.nodes before after := sim_run hinit hfollows (List.nil_append _).symm
  refine ⟨hsim.fpr, hsim.world, hsim.received, fun x hx hmark => hsim.plain x hx ?_, fun n hn hmark => ?_,
    fun x => b.not_marked_of_outsideUses⟩
  · rintro ⟨-, hmarked⟩
    simp [hmark] at hmarked
  · obtain ⟨hsplat, hmerge⟩ := hsim.chain n hn hmark
    obtain ⟨m, hm, hid, helig⟩ := marked_iff_mem hmark
    obtain rfl := eq_of_id_eq hm hn hid
    exact ⟨by rw [hsplat, lane_zero_splat (bits_of_isEligible helig).1], hmerge⟩

/-! ## A narrow store -/

namespace NarrowStore

def host : Host Unit where
  arith _ _ a c := a + c
  fma _ _ a c d := a * c + d
  minMax _ _ a _ := a
  loadGPR _ _ := 0
  storeGPR _ _ _ := ()
  storeMem _ _ _ _ := ()
  other _ _ _ := (0, ())

def storeNode : Node := ⟨3, .storeMem true, .i32Bit, .i32Bit, [.ref 2, .ref 1]⟩

def block : Block where
  nodes := [⟨2, .arith .add false false, .i128Bit, .i32Bit, [.ref 0, .ref 1]⟩, storeNode]
  outsideUses _ := 0
  ssaCount := 4
  nodup := by decide
  ordered := by decide
  irrefl := by decide
  ids_lt := by decide
  args_lt := by
    rintro n hn arg ha id rfl
    simp only [storeNode, List.mem_cons, List.not_mem_nil, or_false] at hn
    obtain rfl | rfl := hn
    · simp at ha
      omega
    · simp at ha
      omega
  fresh := by decide

def state : State Unit where
  env _ := 1
  fpr _ := 0
  world := ()
  received _ := []

end NarrowStore

/-- The store of a sum's element receives the sum in splat form. -/
theorem Block.scalarSplatChain_narrowStore :
    ¬ ∀ (H : Host Unit) (b : Block) (s : State Unit), ∀ n ∈ b.nodes, n.op = .storeMem true →
      ((run H b.scalarSplatChain s).received n.id).getD 0 0 = ((run H b.nodes s).received n.id).getD 0 0 := by
  intro h
  have hstore := h NarrowStore.host NarrowStore.block NarrowStore.state NarrowStore.storeNode
    (List.mem_cons_of_mem _ (List.mem_singleton.mpr rfl)) rfl
  revert hstore
  decide +kernel

end PowerArm.Splat
