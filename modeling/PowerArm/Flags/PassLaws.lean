import PowerArm.Flags.RewriteLaws

/-!
# Dead flag elimination preserves meaning

A block simulates another when states related on the flags live before it lead
to the same successor with states related on the flags live there (`BlockSim`).
The walk over a block gives such a simulation (`processBlock_sim`), simulations
compose although each is for another liveness (`BlockSim.trans`), and so every
round of the worklist keeps one between the unit as it was given and the unit
as it is (`PassState.step_sound`). `eliminateDeadFlags_sound` follows for runs
of any length.
-/

namespace PowerArm.Flags

/-! ## The walk over a block -/

@[simp] theorem codeArgs_append : codeArgs (xs ++ ys) = codeArgs xs ++ codeArgs ys := by simp [codeArgs]

theorem codeArgs_cons : codeArgs (n :: rest) = n.args ++ codeArgs rest := rfl

@[simp] theorem defs_append : defs (xs ++ ys) = defs xs ++ defs ys := by simp [defs]

@[simp] theorem ids_append : ids (xs ++ ys) = ids xs ++ ids ys := by simp [ids]

theorem defs_cons (n : Node) (rest : List Node) : defs (n :: rest) = defs [n] ++ defs rest := by
  rw [← defs_append, List.singleton_append]

theorem defs_subset_ids (code : List Node) : defs code ⊆ ids code := List.map_subset _ (List.filter_sublist.subset)

theorem execCode_cons : execCode h (n :: rest) s = execCode h rest (n.exec h s) := rfl

theorem execCode_append : execCode h (xs ++ ys) s = execCode h ys (execCode h xs s) := List.foldl_append

/-- What the walk does to the place of the ops in the unit. A value it drops is
used nowhere any more. -/
theorem processCode_shape (o : Options) (outside : Nat → Nat) (code before : List Node) (L : NZCV) :
    let code' := (processCode o outside before code L).1
    (ids code').Sublist (ids code) ∧ codeArgs code' ⊆ codeArgs code ∧ defs code' ⊆ defs code ∧
      ∀ id ∈ defs code, id ∉ defs code' →
        outside id = 0 ∧ .ref id ∉ codeArgs before ∧ .ref id ∉ codeArgs code' := by
  induction code generalizing before with
  | nil => simp [processCode, defs]
  | cons n rest ih =>
    obtain ⟨hids, hargs, hdefs, hdropped⟩ := ih (before ++ [n])
    simp only [processCode]
    set r := processCode o outside (before ++ [n]) rest L
    set unused := decide (outside n.id + usesIn (codeArgs (before ++ [n])) n.id +
      usesIn (codeArgs r.1) n.id = 0) with hunused
    obtain ⟨nids, nargs, ndefs, ndropped⟩ := (n.process_spec o unused r.2).shape
    set n' := (n.process o unused r.2).1
    refine ⟨?_, ?_, ?_, ?_⟩
    · rw [ids_append]
      exact nids.append hids
    · rw [codeArgs_append]
      exact List.append_subset.mpr
        ⟨List.subset_append_of_subset_left _ nargs, List.subset_append_of_subset_right _ hargs⟩
    · rw [defs_append, defs_cons]
      exact List.append_subset.mpr
        ⟨List.subset_append_of_subset_left _ ndefs, List.subset_append_of_subset_right _ hdefs⟩
    · intro id hmem hnot
      rw [defs_cons, List.mem_append] at hmem
      rw [defs_append, List.mem_append, not_or] at hnot
      obtain hmem | hmem := hmem
      · obtain ⟨rfl, hu⟩ := ndropped id hmem hnot.1
        rw [decide_eq_true_iff] at hu
        simp only [usesIn, codeArgs_append, Nat.add_eq_zero_iff, List.count_eq_zero, List.mem_append, not_or] at hu
        obtain ⟨⟨hout, hbefore, hself⟩, hrest⟩ := hu
        have hnargs : Arg.ref n.id ∉ codeArgs n'.toList :=
          fun hn => hself (by simpa [codeArgs] using nargs hn)
        exact ⟨hout, hbefore, by simp [hnargs, hrest]⟩
      · obtain ⟨hout, hbefore, hrest⟩ := hdropped id hmem hnot.2
        simp only [codeArgs_append, List.mem_append, not_or] at hbefore
        have hnargs : Arg.ref id ∉ codeArgs n'.toList :=
          fun hn => hbefore.2 (by simpa [codeArgs] using nargs hn)
        exact ⟨hout, hbefore.1, by simp [hnargs, hrest]⟩

theorem processCode_rel (o : Options) (outside : Nat → Nat) (code before : List Node) (L : NZCV)
    (hnodup : (ids code).Nodup) (hdrop : ∀ id ∈ defs code, id ∉ defs (processCode o outside before code L).1 → id ∈ D)
    (ha : Avoids D (codeArgs (processCode o outside before code L).1))
    (hr : Rel (processCode o outside before code L).2 D s t) :
    Rel L D (execCode h code s) (execCode h (processCode o outside before code L).1 t) := by
  induction code generalizing before s t with
  | nil => exact hr
  | cons n rest ih =>
    obtain ⟨hfresh, hnodup⟩ := List.nodup_cons.mp hnodup
    obtain ⟨hids, -, -, -⟩ := processCode_shape o outside rest (before ++ [n]) L
    simp only [processCode] at hdrop ha hr ⊢
    set r := processCode o outside (before ++ [n]) rest L
    set unused := decide (outside n.id + usesIn (codeArgs (before ++ [n])) n.id + usesIn (codeArgs r.1) n.id = 0)
    have hp := n.process_spec o unused r.2
    obtain ⟨-, -, ndefs, -⟩ := hp.shape
    rw [codeArgs_append] at ha
    have hhead : Rel r.2 D (n.exec h s) (execCode h (n.process o unused r.2).1.toList t) := by
      refine Node.process_rel hp ?_ (ha.subset (List.subset_append_left ..)) hr
      intro hd hnot
      refine hdrop n.id (by simp [defs, hd]) ?_
      rw [defs_append, List.mem_append, not_or]
      exact ⟨hnot, fun hmem => hfresh (hids.subset (defs_subset_ids _ hmem))⟩
    rw [execCode_append]
    refine ih (before ++ [n]) hnodup ?_ (ha.subset (List.subset_append_right ..)) hhead
    intro id hmem hnot
    refine hdrop id (by rw [defs_cons]; exact List.mem_append_right _ hmem) ?_
    rw [defs_append, List.mem_append, not_or]
    refine ⟨fun hn => hfresh ?_, hnot⟩
    obtain rfl : id = n.id := List.mem_singleton.mp (defs_subset_ids [n] (ndefs id hn))
    exact defs_subset_ids rest hmem

theorem execCode_rel (hlive : ∀ n ∈ code, ((L.diff n.op.classify.write).union n.op.classify.read).Sub L)
    (ha : Avoids D (codeArgs code)) (hr : Rel L D s t) : Rel L D (execCode h code s) (execCode h code t) := by
  induction code generalizing s t with
  | nil => exact hr
  | cons n rest ih =>
    have hn : Avoids D n.args := ha.subset (List.subset_append_left ..)
    have hrest : Avoids D (codeArgs rest) := ha.subset (List.subset_append_right ..)
    exact ih (fun m hm => hlive m (.tail _ hm)) hrest (Node.exec_rel (hr.mono (hlive n (.head _))) hn)

/-! ## Blocks -/

/-- The same block to run with states related on what is live there, or the
same way out; the flags are then all live unless they are dead at the target. -/
def ConfigRel (L : Fin k → NZCV) (D : Set Nat) : Config k → Config k → Prop
  | .at b s, .at b' t => b = b' ∧ Rel (L b) D s t
  | .left dead s, .left dead' t => dead = dead' ∧ Rel (if dead then .none else .all) D s t
  | _, _ => False

/-- The second block does what the first does, for states related on `Lin`. -/
def BlockSim (h : Host) (p q : Block k) (Lin : NZCV) (L : Fin k → NZCV) (D : Set Nat) : Prop :=
  ∀ s t, Rel Lin D s t → ConfigRel L D (p.exec h s) (q.exec h t)

theorem Rel.trans (hr : Rel L D s m) (hr' : Rel M D' m t) (hD : D ⊆ D') : Rel (L.inter M) D' s t where
  trace := hr.trace.trans hr'.trace
  env id hid := (hr.env id fun hmem => hid (hD hmem)).trans (hr'.env id hid)
  flags := hr.flags.trans hr'.flags

theorem Rel.interpolate (hr : Rel (L.inter M) D' s t) : ∃ m, Rel L D s m ∧ Rel M D' m t := by
  obtain ⟨hl, hm⟩ := hr.flags.interpolate
  exact ⟨{ s with nzcv := L.insert s.nzcv t.nzcv }, ⟨rfl, fun _ _ => rfl, hl⟩, hr.trace, hr.env, hm⟩

theorem ConfigRel.mono (hc : ConfigRel M D c d) (hs : ∀ b, (L b).Sub (M b)) : ConfigRel L D c d := by
  cases c <;> cases d
  case at.at => exact ⟨hc.1, hc.2.mono (hs _)⟩
  case left.left => exact hc
  all_goals exact hc.elim

theorem ConfigRel.trans (hc : ConfigRel L D c d) (hd : ConfigRel M D' d e)
    (hD : D ⊆ D') : ConfigRel (fun b => (L b).inter (M b)) D' c e := by
  cases c <;> cases d <;> cases e
  case at.at.at =>
    obtain ⟨rfl, hr⟩ := hc
    obtain ⟨rfl, hr'⟩ := hd
    exact ⟨rfl, hr.trans hr' hD⟩
  case left.left.left =>
    obtain ⟨rfl, hr⟩ := hc
    obtain ⟨rfl, hr'⟩ := hd
    exact ⟨rfl, (hr.trans hr' hD).mono (.inter (.refl _) (.refl _))⟩
  all_goals first | exact hc.elim | exact hd.elim

theorem ConfigRel.refl (L : Fin k → NZCV) (c : Config k) : ConfigRel L ∅ c c := by
  cases c with
  | «at» b s => exact ⟨rfl, .refl ..⟩
  | left dead s => exact ⟨rfl, .refl ..⟩

theorem ConfigRel.symm (hc : ConfigRel L D c d) : ConfigRel L D d c := by
  have hsymm {M : NZCV} {s t : State} (hr : Rel M D s t) : Rel M D t s :=
    ⟨hr.trace.symm, fun id hid => (hr.env id hid).symm, fun h => (hr.flags.n h).symm, fun h => (hr.flags.z h).symm,
      fun h => (hr.flags.c h).symm, fun h => (hr.flags.v h).symm⟩
  cases c <;> cases d
  case at.at =>
    obtain ⟨rfl, hr⟩ := hc
    exact ⟨rfl, hsymm hr⟩
  case left.left =>
    obtain ⟨rfl, hr⟩ := hc
    exact ⟨rfl, hsymm hr⟩
  all_goals exact hc.elim

theorem ConfigRel.weaken (hc : ConfigRel L ∅ c d) (D : Set Nat) : ConfigRel L D c d := by
  have hweaken {M : NZCV} {s t : State} (hr : Rel M ∅ s t) : Rel M D s t :=
    ⟨hr.trace, fun id _ => hr.env id (Set.notMem_empty id), hr.flags⟩
  cases c <;> cases d
  case at.at => exact ⟨hc.1, hweaken hc.2⟩
  case left.left => exact ⟨hc.1, hweaken hc.2⟩
  all_goals exact hc.elim

theorem ConfigRel.then (hc : ConfigRel L ∅ c d) (hd : ConfigRel L ∅ d e) : ConfigRel L ∅ c e :=
  (hc.trans hd (Set.Subset.refl _)).mono fun _ => .inter (.refl _) (.refl _)

/-- The two simulations are for different live flags: a state that has the
first's from one side and the others from the other side lies between. -/
theorem BlockSim.trans (hpq : BlockSim h p q Lin L D) (hqr : BlockSim h q r Lin' M D') (hD : D ⊆ D') :
    BlockSim h p r (Lin.inter Lin') (fun b => (L b).inter (M b)) D' := by
  intro s t hr
  obtain ⟨m, hsm, hmt⟩ := hr.interpolate
  exact (hpq s m hsm).trans (hqr m t hmt) hD

theorem BlockSim.mono (hs : BlockSim h p q Lin' M D) (hin : Lin'.Sub Lin) (hout : ∀ b, (L b).Sub (M b)) :
    BlockSim h p q Lin L D :=
  fun s t hr => (hs s t (hr.mono hin)).mono hout

theorem Rel.observe (hr : Rel L D s t) (e : Event) : Rel L D (s.observe e) (t.observe e) :=
  ⟨congrArg (· ++ [e]) hr.trace, hr.env, hr.flags⟩

theorem Exit.exec_rel {e : Exit k} (hr : Rel ((e.liveOut L).union e.reads) D s t)
    (ha : Avoids D e.args) : ConfigRel L D (e.exec h s) (e.exec h t) := by
  have hlive : Rel (e.liveOut L) D s t := hr.mono sub_union_left
  have hargs := hr.read_eq ha
  cases e with
  | jump target => exact ⟨rfl, hlive⟩
  | condJump source cond args ifTrue ifFalse =>
    have htaken : source.taken h cond (args.map s.read) s = source.taken h cond (args.map t.read) t := by
      have hargs' : args.map s.read = args.map t.read := hargs
      cases source with
      | fromNZCV => exact cond.holds_congr (hr.flags.mono sub_union_right)
      | compare | other => simp only [CondSource.taken, hargs', hr.trace]
    simp only [Exit.exec, htaken]
    refine ⟨rfl, Rel.observe ?_ _⟩
    split
    · exact hlive.mono sub_union_left
    · exact hlive.mono sub_union_right
  | exitFunction args dead =>
    have hargs' : args.map s.read = args.map t.read := hargs
    simp only [Exit.exec, hargs']
    exact ⟨rfl, hlive.observe _⟩
  | other opcode args =>
    have hargs' : args.map s.read = args.map t.read := hargs
    simp only [Exit.exec, hargs']
    exact ⟨rfl, hlive.observe _⟩

theorem BlockSim.refl (ha : Avoids D p.args) : BlockSim h p p .all (fun _ => .all) D := by
  intro s t hr
  have hcode : Rel .all D (execCode h p.code s) (execCode h p.code t) :=
    execCode_rel (fun _ _ => sub_all) (ha.subset (List.subset_append_left ..)) hr
  exact Exit.exec_rel (hcode.mono sub_all) (ha.subset (List.subset_append_right ..))

theorem IROps.classify_of_not_isFlagOp {op : IROps} (hop : op.isFlagOp = false) : op.classify = {} := by
  cases op <;> simp_all [IROps.isFlagOp, IROps.classify]

/-- The block that the walk makes simulates the block it was given, from the
live flags it computes to those it assumes. -/
theorem processBlock_sim (o : Options) (u : IRUnit k) (F : Fin k → NZCV) (b : Fin k) (hnodup : (ids (u b).code).Nodup)
    (hdrop : ∀ id ∈ defs (u b).code, id ∉ defs (processBlock o u F b).1.code → id ∈ D)
    (ha : Avoids D (processBlock o u F b).1.args) :
    BlockSim h (u b) (processBlock o u F b).1 (processBlock o u F b).2 F D := by
  have hcode := ha.subset (List.subset_append_left ..)
  have hexit := ha.subset (List.subset_append_right ..)
  intro s t hr
  by_cases hf : (u b).hasFlags
  · simp only [processBlock, hf] at hdrop hcode hexit hr ⊢
    exact Exit.exec_rel (processCode_rel _ _ _ _ _ hnodup hdrop hcode hr) hexit
  · simp only [processBlock, hf, Bool.false_eq_true] at hcode hexit hr ⊢
    obtain ⟨hops, hjump⟩ := (u b).flagless (Bool.eq_false_iff.mpr hf)
    have hreads : (u b).exit.reads = .none := by cases he : (u b).exit <;> simp_all [Exit.isCondJump, Exit.reads]
    have hkeep : Rel ((u b).exit.liveOut F) D (execCode h (u b).code s) (execCode h (u b).code t) := by
      refine execCode_rel (fun n hn => ?_) hcode hr
      simp [IROps.classify_of_not_isFlagOp (hops n hn), NZCV.Sub.refl]
    exact Exit.exec_rel (by simpa [hreads] using hkeep) hexit

theorem processBlock_shape (o : Options) (u : IRUnit k) (F : Fin k → NZCV) (b : Fin k) :
    let q := (processBlock o u F b).1
    (ids q.code).Sublist (ids (u b).code) ∧ q.args ⊆ (u b).args ∧ defs q.code ⊆ defs (u b).code ∧
      ∀ id ∈ defs (u b).code, id ∉ defs q.code → (∀ b', b' ≠ b → .ref id ∉ (u b').args) ∧ .ref id ∉ q.args := by
  unfold processBlock
  dsimp only
  split
  next hf =>
    obtain ⟨hids, hargs, hdefs, hdropped⟩ := processCode_shape o
      (fun id => u.usesOutside b id + usesIn (u b).exit.args id) (u b).code []
      (((u b).exit.liveOut F).union (u b).exit.reads)
    refine ⟨hids, ?_, hdefs, fun id hmem hnot => ?_⟩
    · exact List.append_subset.mpr ⟨List.subset_append_of_subset_left _ hargs, List.subset_append_right ..⟩
    · obtain ⟨hout, -, hcode⟩ := hdropped id hmem hnot
      simp only [Nat.add_eq_zero_iff, IRUnit.usesOutside, List.sum_eq_zero_iff_forall_eq_nat,
        List.mem_map, List.mem_finRange, true_and, forall_exists_index, forall_apply_eq_imp_iff] at hout
      refine ⟨fun b' hne => ?_, ?_⟩
      · have huses := hout.1 b'
        simpa [hne, usesIn, List.count_eq_zero] using huses
      · have hexit : Arg.ref id ∉ (u b).exit.args := by simpa [usesIn, List.count_eq_zero] using hout.2
        simp [Block.args, hcode, hexit]
  next =>
    refine ⟨.refl _, List.Subset.refl _, List.Subset.refl _, fun id hmem hnot => ?_⟩
    exact absurd hmem hnot

/-! ## The worklist -/

/-- What holds between the unit `P` as it was given and the unit `Q` with its
live flags `F` at any moment of the pass, for some flags `G` below `F` that were
live at every moment so far and some dropped values `D`. -/
structure Sound (h : Host) (P Q : IRUnit k) (F G : Fin k → NZCV) (D : Set Nat) : Prop where
  sim : ∀ b, BlockSim h (P b) (Q b) (G b) G D
  live : ∀ b, (G b).Sub (F b)
  avoids : ∀ b, Avoids D (Q b).args
  kept : ∀ b, ∀ id ∈ defs (Q b).code, id ∉ D
  ids : ∀ b, (ids (Q b).code).Sublist (ids (P b).code)

theorem Sound.init (h : Host) (P : IRUnit k) : Sound h P P (fun _ => .all) (fun _ => .all) ∅ where
  sim _ := BlockSim.refl fun _ _ => id
  live _ := .refl _
  avoids _ := fun _ _ => id
  kept _ := fun _ _ => id
  ids _ := .refl _

section
variable {h : Host} {P Q Q' : IRUnit k} {F F' G K : Fin k → NZCV} {D D' : Set Nat}

/-- Blocks that simulate those of `Q` can take their place. The flags that were
live all along shrink to those these simulations need. -/
theorem Sound.rewrite (hs : Sound h P Q F G D) (hD : D ⊆ D') (hsim : ∀ b, BlockSim h (Q b) (Q' b) (K b) F D')
    (hlive : ∀ b, ((G b).inter (K b)).Sub (F' b)) (havoids : ∀ b, Avoids D' (Q' b).args)
    (hkept : ∀ b, ∀ id ∈ defs (Q' b).code, id ∉ D')
    (hids : ∀ b, (Flags.ids (Q' b).code).Sublist (Flags.ids (Q b).code)) :
    Sound h P Q' F' (fun b => (G b).inter (K b)) D' where
  sim b := ((hs.sim b).trans (hsim b) hD).mono (.refl _) fun b' =>
    .inter inter_sub_left (inter_sub_left.trans (hs.live b'))
  live := hlive
  avoids := havoids
  kept := hkept
  ids b := (hids b).trans (hs.ids b)

theorem IRUnit.ids_nodup (hssa : P.ids.Nodup) (b : Fin k) : (Flags.ids (P b).code).Nodup :=
  (List.nodup_flatMap.mp hssa).1 b (List.mem_finRange b)

theorem IRUnit.ids_disjoint (hssa : P.ids.Nodup)
    (hb : i ∈ Flags.ids (P b).code) (hb' : i ∈ Flags.ids (P b').code) : b = b' := by
  by_contra hne
  have : Std.Symm (Function.onFun List.Disjoint fun b => Flags.ids (P b).code) := ⟨fun _ _ hd _ ha hb => hd hb ha⟩
  exact (List.nodup_flatMap.mp hssa).2.forall (List.mem_finRange b) (List.mem_finRange b') hne hb hb'

def newlyDropped (p q : Block k) : Set Nat := {id | id ∈ defs p.code ∧ id ∉ defs q.code}

theorem Sound.processBlock (hssa : P.ids.Nodup) (hs : Sound h P Q F G D) (o : Options) (b : Fin k) :
    let r := Flags.processBlock o Q F b
    ∃ G' D', Sound h P (fun b' => if b' = b then r.1 else Q b') (fun b' => if b' = b then r.2 else F b') G' D' := by
  intro r
  obtain ⟨hids, hargs, hdefs, hdropped⟩ := processBlock_shape o Q F b
  have hself : Avoids (D ∪ newlyDropped (Q b) r.1) r.1.args := by
    rintro id hid (hmem | ⟨hmem, hnot⟩)
    · exact hs.avoids b id (hargs hid) hmem
    · exact (hdropped id hmem hnot).2 hid
  have hothers (b' : Fin k) (hne : b' ≠ b) : Avoids (D ∪ newlyDropped (Q b) r.1) (Q b').args := by
    rintro id hid (hmem | ⟨hmem, hnot⟩)
    · exact hs.avoids b' id hid hmem
    · exact (hdropped id hmem hnot).1 b' hne hid
  have hmem_ids {b' : Fin k} {id : Nat} (hmem : id ∈ defs (Q b').code) : id ∈ Flags.ids (P b').code :=
    (hs.ids b').subset (defs_subset_ids _ hmem)
  refine ⟨_, D ∪ newlyDropped (Q b) r.1, hs.rewrite (K := fun b' => if b' = b then r.2 else .all)
    Set.subset_union_left ?_ ?_ ?_ ?_ ?_⟩ <;> intro b' <;> by_cases heq : b' = b <;>
    simp only [heq]
  · exact processBlock_sim o Q F b ((hs.ids b).nodup (P.ids_nodup hssa b))
      (fun id hmem hnot => .inr ⟨hmem, hnot⟩) hself
  · exact (BlockSim.refl (hothers b' heq)).mono (.refl _) fun _ => sub_all
  · exact inter_sub_right
  · exact inter_sub_left.trans (hs.live b')
  · exact hself
  · exact hothers b' heq
  · rintro id hmem (hold | ⟨-, hnot⟩)
    · exact hs.kept b id (hdefs hmem) hold
    · exact hnot hmem
  · rintro id hmem (hold | ⟨hb, -⟩)
    · exact hs.kept b' id hmem hold
    · exact heq (IRUnit.ids_disjoint hssa (hmem_ids hmem) (hmem_ids hb))
  · exact hids
  · exact .refl _

@[simp] theorem PassState.addWorklist_unit (s : PassState k) (b : Fin k) :
    (s.addWorklist b).unit = s.unit ∧ (s.addWorklist b).flags = s.flags := by
  unfold PassState.addWorklist
  split <;> simp

theorem PassState.foldl_addWorklist (s : PassState k) (bs : List (Fin k)) :
    (bs.foldl addWorklist s).unit = s.unit ∧ (bs.foldl addWorklist s).flags = s.flags := by
  induction bs generalizing s with
  | nil => exact ⟨rfl, rfl⟩
  | cons b bs ih => simp [ih]

theorem PassState.step_sound (o : Options) (u : IRUnit k) {s : PassState k} (hssa : P.ids.Nodup)
    (hs : Sound h P s.unit s.flags G D) : ∃ G' D', Sound h P (s.step o u).unit (s.step o u).flags G' D' := by
  unfold PassState.step
  cases hlast : s.worklist.getLast? with
  | none => exact ⟨G, D, hs⟩
  | some b =>
    have hnext := hs.processBlock hssa o b
    dsimp only
    split
    · exact hnext
    · simpa only [PassState.foldl_addWorklist] using hnext

theorem PassState.rounds_sound (h : Host) (o : Options) (hssa : P.ids.Nodup) (rounds : Nat) :
    ∃ G D, Sound h P ((PassState.step o P)^[rounds] (.init P)).unit
      ((PassState.step o P)^[rounds] (.init P)).flags G D := by
  induction rounds with
  | zero => exact ⟨_, _, .init h P⟩
  | succ rounds ih =>
    obtain ⟨G, D, hs⟩ := ih
    rw [Function.iterate_succ_apply']
    exact PassState.step_sound o P hssa hs

end

/-! ## FoldBranch -/

theorem splitLast_eq_none (hs : splitLast p xs = none) : ∀ x ∈ xs, p x = false := by
  induction xs with
  | nil => nofun
  | cons y ys ih =>
    simp only [splitLast] at hs
    split at hs
    next => cases hs
    next hnone =>
      simp only [ite_eq_right_iff, reduceCtorEq, imp_false, Bool.not_eq_true] at hs
      exact List.forall_mem_cons.mpr ⟨hs, ih hnone⟩

theorem splitLast_spec (hs : splitLast p xs = some (before, x, after)) :
    xs = before ++ x :: after ∧ ∀ y ∈ after, p y = false := by
  induction xs generalizing before with
  | nil => cases hs
  | cons y ys ih =>
    simp only [splitLast] at hs
    split at hs
    next hlast =>
      cases hs
      obtain ⟨rfl, hafter⟩ := ih hlast
      exact ⟨rfl, hafter⟩
    next hnone =>
      split at hs
      next =>
        cases hs
        exact ⟨rfl, splitLast_eq_none hnone⟩
      next => cases hs

theorem foldedExit_some {exit : Exit k} (h : foldedExit prev exit = some exit') :
    ∃ cond args ifTrue ifFalse x, exit = .condJump .fromNZCV cond args ifTrue ifFalse ∧
      prev.op = .subNZCV ∧ prev.args = [x, .inline 0] ∧ (cond = .neq ∨ cond = .eq) ∧
      exit' = .condJump (.compare prev.size) cond [x, .inline 0] ifTrue ifFalse := by
  unfold foldedExit at h
  split at h
  next cond args ifTrue ifFalse =>
    split at h
    next x hop hargs =>
      split at h
      next hcond => exact ⟨cond, args, ifTrue, ifFalse, x, rfl, hop, hargs, hcond, (Option.some.inj h).symm⟩
      next => cases h
    next => cases h
  next => cases h

section
variable {h : Host} {code stores : List Node} {D : Set Nat} {s t : State} {L : NZCV}

theorem execCode_stores (hstores : ∀ n ∈ stores, n.op.isStoreRegister) (s : State) :
    (execCode h stores s).env = s.env ∧ (execCode h stores s).nzcv = s.nzcv := by
  induction stores generalizing s with
  | nil => exact ⟨rfl, rfl⟩
  | cons n rest ih =>
    obtain ⟨henv, hnzcv⟩ := ih (fun m hm => hstores m (.tail _ hm)) (n.exec h s)
    have hn := hstores n (.head _)
    cases hop : n.op <;> simp only [hop, IROps.isStoreRegister, Bool.false_eq_true] at hn
    refine ⟨henv.trans ?_, hnzcv.trans ?_⟩
    · simp [Node.exec, hop, IROps.hasDest]
    · simp [Node.exec, Node.flags, hop]

theorem execCode_stores_rel (hstores : ∀ n ∈ stores, n.op.isStoreRegister)
    (ha : Avoids D (codeArgs stores)) (hr : Rel L D s t) : Rel L D (execCode h stores s) (execCode h stores t) := by
  refine execCode_rel (fun n hn => ?_) ha hr
  have hn := hstores n hn
  cases hop : n.op <;> simp only [hop, IROps.isStoreRegister, Bool.false_eq_true] at hn
  simp [IROps.classify, NZCV.Sub.refl]

theorem sub_zero_flags (size : OpSize) (x : Word) (f : NZCV) :
    (Arith.sub.compute size x 0 f).2.z = decide (size.trunc x = size.trunc 0) := by
  cases size <;> simp only [Arith.compute, addWithCarry, OpSize.trunc, OpSize.bits, ← BitVec.toNat_inj] <;>
    simp <;> omega

theorem holds_sub_zero {cond : CondClass} (hcond : cond = .neq ∨ cond = .eq) (size : OpSize) (x : Word) (f : NZCV) :
    cond.compare size x 0 = some (cond.holds (Arith.sub.compute size x 0 f).2) := by
  obtain rfl | rfl := hcond
  · simp only [CondClass.compare, CondClass.holds, sub_zero_flags]
    simp
  · simp only [CondClass.compare, CondClass.holds, sub_zero_flags]

theorem fold_sim {p q : Block k} {L : Fin k → NZCV} {cond : CondClass} {args : List Arg}
    {ifTrue ifFalse : Fin k} {prev : Node} {before : List Node} {x : Arg} (hcode : p.code = before ++ prev :: stores)
    (hstores : ∀ n ∈ stores, n.op.isStoreRegister) (hexit : p.exit = .condJump .fromNZCV cond args ifTrue ifFalse)
    (hcode' : q.code = before ++ stores)
    (hexit' : q.exit = .condJump (.compare prev.size) cond [x, .inline 0] ifTrue ifFalse)
    (hop : prev.op = .subNZCV) (hargs : prev.args = [x, .inline 0])
    (hcond : cond = .neq ∨ cond = .eq) (hdead : p.exit.liveOut L = .none) (ha : Avoids D p.args) :
    BlockSim h p q .all L D := by
  intro s t hr
  have hall : p.args = codeArgs before ++ (prev.args ++ (codeArgs stores ++ p.exit.args)) := by
    simp [Block.args, hcode, codeArgs]
  rw [hall] at ha
  have hbefore : Rel .all D (execCode h before s) (execCode h before t) :=
    execCode_rel (fun _ _ => sub_all) (ha.subset (List.subset_append_left ..)) hr
  have hprev : Rel .none D (prev.exec h (execCode h before s)) (execCode h before t) :=
    (hbefore.mono sub_all).exec_left (by simp [hop, IROps.traced]) (by simp [hop, IROps.hasDest]) agree_none
  have hafter := execCode_stores_rel (h := h) hstores (ha.subset fun a hmem => by simp [hmem]) hprev
  obtain ⟨-, hflags⟩ := execCode_stores (h := h) hstores (prev.exec h (execCode h before s))
  obtain ⟨henv, -⟩ := execCode_stores (h := h) hstores (execCode h before t)
  have hx : (execCode h before s).read x = (execCode h before t).read x := by
    have hprevArgs : Avoids D prev.args := ha.subset fun a hmem => by simp [hmem]
    have hmap := hbefore.read_eq hprevArgs
    simp only [hargs, List.map_cons, List.cons.injEq] at hmap
    exact hmap.1
  have hreadx : (execCode h stores (execCode h before t)).read x = (execCode h before t).read x := by
    cases x <;> simp [State.read, henv]
  have htaken (vs : List Value) :
      CondSource.fromNZCV.taken h cond vs (execCode h stores (prev.exec h (execCode h before s))) =
      (CondSource.compare prev.size).taken h cond
        ([x, .inline 0].map (execCode h stores (execCode h before t)).read)
        (execCode h stores (execCode h before t)) := by
    have hcompare := holds_sub_zero hcond prev.size ((execCode h before s).read x).word (execCode h before s).nzcv
    have hprevFlags : (prev.exec h (execCode h before s)).nzcv =
        (Arith.sub.compute prev.size ((execCode h before s).read x).word 0 (execCode h before s).nzcv).2 := by
      simp [Node.exec, Node.flags, hop, hargs, word, State.read, ofWord, Value.word]
    have hwords : word [(execCode h before t).read x, ofWord 0] 1 = 0 := by simp [word, ofWord, Value.word]
    have hword : word [(execCode h before t).read x, ofWord 0] 0 = ((execCode h before s).read x).word := by
      simp [word, hx]
    have hinline (st : State) : st.read (.inline 0) = ofWord 0 := rfl
    simp only [CondSource.taken, List.map_cons, List.map_nil, hreadx, hinline, hflags, hprevFlags,
      hword, hwords, hcompare, Option.getD_some]
  have hnone : (L ifTrue).union (L ifFalse) = .none := by simpa [hexit, Exit.liveOut] using hdead
  have hdeadAt (b : Bool) : (L (if b then ifTrue else ifFalse)).Sub .none := by
    rw [← hnone]
    cases b
    · exact sub_union_right
    · exact sub_union_left
  simp only [Block.exec, hcode, hcode', hexit, hexit', execCode_append, execCode_cons, Exit.exec, htaken]
  exact ⟨rfl, (hafter.observe _).mono (hdeadAt _)⟩

theorem foldBlock_sim {p : Block k} {L : Fin k → NZCV} (ha : Avoids D p.args) :
    BlockSim h p (foldBlock L p) .all L D ∧ Avoids D (foldBlock L p).args ∧
      defs (foldBlock L p).code ⊆ defs p.code ∧ (ids (foldBlock L p).code).Sublist (ids p.code) := by
  have hself : BlockSim h p p .all L D ∧ Avoids D p.args ∧ defs p.code ⊆ defs p.code ∧
      (ids p.code).Sublist (ids p.code) :=
    ⟨(BlockSim.refl ha).mono (.refl _) fun _ => sub_all, ha, List.Subset.refl _, .refl _⟩
  unfold foldBlock
  split
  next =>
    split
    next hc =>
      unfold foldBranch
      split
      next before prev stores hlast =>
        obtain ⟨hcode, hstores⟩ := splitLast_spec hlast
        split
        next exit hfold =>
          obtain ⟨cond, args, ifTrue, ifFalse, x, hexit, hop, hargs, hcond, rfl⟩ := foldedExit_some hfold
          refine ⟨fold_sim hcode (fun n hn => by simpa using hstores n hn) hexit rfl rfl hop hargs hcond hc.2 ha,
            ?_, ?_, ?_⟩
          · refine ha.subset fun a hmem => ?_
            have hprev : a ∈ [x, Arg.inline 0] → a ∈ prev.args := fun hx => hargs ▸ hx
            simp only [Block.args, hcode, codeArgs_append, codeArgs_cons, List.mem_append] at hmem ⊢
            tauto
          · rw [hcode]
            exact ((((List.sublist_cons_self prev stores).append_left before).filter _).map _).subset
          · rw [hcode]
            exact ((List.sublist_cons_self prev stores).append_left before).map Node.id
        next => exact hself
      next => exact hself
    next => exact hself
  next => exact hself

end

theorem Sound.foldBranches {P Q : IRUnit k} (hs : Sound h P Q F G D) :
    Sound h P (foldBranches F Q) F (fun b => (G b).inter .all) D := by
  have hfold (b : Fin k) := foldBlock_sim (h := h) (L := F) (hs.avoids b)
  exact hs.rewrite Set.Subset.rfl (fun b => (hfold b).1) (fun b => inter_sub_left.trans (hs.live b))
    (fun b => (hfold b).2.1) (fun b id hmem => hs.kept b id ((hfold b).2.2.1 hmem))
    fun b => (hfold b).2.2.2

/-! ## Runs -/

theorem Sound.step (hs : Sound h P Q F G D) (hc : ConfigRel G D c d) : ConfigRel G D (P.step h c) (Q.step h d) := by
  cases c <;> cases d
  case at.at =>
    obtain ⟨rfl, hr⟩ := hc
    exact hs.sim _ _ _ hr
  case left.left => exact hc
  all_goals exact hc.elim

theorem Sound.run (hs : Sound h P Q F G D) (hc : ConfigRel G D c d) (blocks : Nat) :
    ConfigRel G D (P.run h blocks c) (Q.run h blocks d) := by
  induction blocks with
  | zero => exact hc
  | succ blocks ih =>
    simp only [IRUnit.run, Function.iterate_succ_apply'] at ih ⊢
    exact hs.step ih

structure SameOn (q : IRUnit k) (s t : State) : Prop where
  trace : s.trace = t.trace
  values : ∀ b, ∀ id ∈ defs (q b).code, s.env id = t.env id

/-- Two runs are in the same block or were left the same way, with the same
observations and values; the flags are the same where they are not dead. -/
def SameOutcome (q : IRUnit k) : Config k → Config k → Prop
  | .at b s, .at b' t => b = b' ∧ SameOn q s t
  | .left dead s, .left dead' t => dead = dead' ∧ SameOn q s t ∧ (dead = false → s.nzcv = t.nzcv)
  | _, _ => False

theorem ConfigRel.sameOutcome {q : IRUnit k} {c d : Config k} (hc : ConfigRel G D c d)
    (hkept : ∀ b, ∀ id ∈ defs (q b).code, id ∉ D) : SameOutcome q c d := by
  have hsame {L : NZCV} {s t : State} (hr : Rel L D s t) : SameOn q s t :=
    ⟨hr.trace, fun b id hmem => hr.env id (hkept b id hmem)⟩
  cases c <;> cases d
  case at.at => exact ⟨hc.1, hsame hc.2⟩
  case left.left =>
    refine ⟨hc.1, hsame hc.2, fun hdead => Agree.eq ?_⟩
    simpa [hdead] using hc.2.flags
  all_goals exact hc.elim

/-- The unit after any number of rounds of the worklist, and so after as many as
empty it, and the folds runs as the unit before. -/
theorem eliminateDeadFlags_sound (h : Host) (o : Options) (P : IRUnit k) (hssa : P.ids.Nodup)
    (rounds : Nat) (entry : Fin k) (s : State) (blocks : Nat) :
    SameOutcome (eliminateDeadFlags o P rounds) (P.run h blocks (.at entry s))
      ((eliminateDeadFlags o P rounds).run h blocks (.at entry s)) := by
  obtain ⟨G, D, hrounds⟩ := PassState.rounds_sound h o hssa rounds
  have hs := hrounds.foldBranches
  have hrun := hs.run (c := .at entry s) (d := .at entry s) ⟨rfl, .refl ..⟩ blocks
  exact hrun.sameOutcome hs.kept

/-- A block that counts a value down and loops until it is zero, and its exit. -/
def countdown : IRUnit 2 := fun b =>
  if b = 0 then
    { hasFlags := true
      code := [⟨1, .other 0 true false, .i64Bit, []⟩, ⟨2, .subWithFlags, .i64Bit, [.ref 1, .inline 1]⟩,
        ⟨3, .storeRegister 0, .i64Bit, [.ref 2]⟩,
        ⟨4, .subNZCV, .i64Bit, [.ref 2, .inline 0]⟩]
      exit := .condJump .fromNZCV .neq [] 0 1
      flagless := nofun }
  else
    { hasFlags := false
      code := []
      exit := .exitFunction [] true
      flagless := by simp [Exit.isCondJump] }

def zeroHost : Host where
  result _ _ _ := 0
  flags _ _ _ := .none
  fcmp _ _ _ := .unordered
  branch _ _ _ _ := false

theorem eliminateDeadFlags_sound_countdown : countdown.ids.Nodup ∧
      SameOutcome (eliminateDeadFlags ⟨false, false⟩ countdown 4)
        (countdown.run zeroHost 3 (.at 0 ⟨fun _ => 0, .none, []⟩))
        ((eliminateDeadFlags ⟨false, false⟩ countdown 4).run zeroHost 3 (.at 0 ⟨fun _ => 0, .none, []⟩)) :=
  ⟨by decide, eliminateDeadFlags_sound zeroHost _ countdown (by decide) 4 0 _ 3⟩

end PowerArm.Flags
