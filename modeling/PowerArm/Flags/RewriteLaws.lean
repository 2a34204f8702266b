import PowerArm.Flags.Semantics
import PowerArm.Flags.Pass

/-!
# The rewrites of one op

`Rel L dropped s t` relates a state of the unit as it was to one of the unit as
it is: the same trace, the same SSA values except for the `dropped` ones, and
the same flags in `L`. The classification is sound for this relation
(`Node.exec_rel`): what an op reads must agree before it, what it writes agrees
after it. Each rewrite keeps the relation on the flags that are read later
(`Node.process_rel`).
-/

namespace PowerArm.Flags

structure Agree (L f g : NZCV) : Prop where
  n : L.n = true → f.n = g.n
  z : L.z = true → f.z = g.z
  c : L.c = true → f.c = g.c
  v : L.v = true → f.v = g.v

def NZCV.Sub (a b : NZCV) : Prop :=
  (a.n = true → b.n = true) ∧ (a.z = true → b.z = true) ∧ (a.c = true → b.c = true) ∧ (a.v = true → b.v = true)

section
variable {K L M f g : NZCV}

theorem NZCV.Sub.refl (L : NZCV) : L.Sub L := ⟨id, id, id, id⟩

theorem NZCV.Sub.trans (h : K.Sub L) (h' : L.Sub M) : K.Sub M :=
  ⟨h'.1 ∘ h.1, h'.2.1 ∘ h.2.1, h'.2.2.1 ∘ h.2.2.1, h'.2.2.2 ∘ h.2.2.2⟩

theorem sub_union_left : K.Sub (K.union L) := by
  simp only [NZCV.Sub, NZCV.union, Bool.or_eq_true]
  tauto

theorem sub_union_right : L.Sub (K.union L) := by
  simp only [NZCV.Sub, NZCV.union, Bool.or_eq_true]
  tauto

theorem inter_sub_left : (K.inter L).Sub K := by
  simp only [NZCV.Sub, NZCV.inter, Bool.and_eq_true]
  tauto

theorem inter_sub_right : (K.inter L).Sub L := by
  simp only [NZCV.Sub, NZCV.inter, Bool.and_eq_true]
  tauto

theorem NZCV.Sub.inter (h : K.Sub L) (h' : K.Sub M) : K.Sub (L.inter M) := by
  simp only [NZCV.Sub, NZCV.inter, Bool.and_eq_true] at *
  tauto

theorem NZCV.Sub.union (h : K.Sub M) (h' : L.Sub M) : (K.union L).Sub M := by
  simp only [NZCV.Sub, NZCV.union] at *
  grind

theorem none_sub (L : NZCV) : NZCV.none.Sub L := ⟨nofun, nofun, nofun, nofun⟩

theorem sub_all : L.Sub .all := by simp [NZCV.Sub, NZCV.all]

theorem Agree.refl (L f : NZCV) : Agree L f f := ⟨fun _ => rfl, fun _ => rfl, fun _ => rfl, fun _ => rfl⟩

theorem Agree.mono (h : Agree M f g) (hs : L.Sub M) : Agree L f g :=
  ⟨h.n ∘ hs.1, h.z ∘ hs.2.1, h.c ∘ hs.2.2.1, h.v ∘ hs.2.2.2⟩

theorem Agree.trans (h : Agree L f g) (h' : Agree M g e) : Agree (L.inter M) f e where
  n hi := (h.n (inter_sub_left.1 hi)).trans (h'.n (inter_sub_right.1 hi))
  z hi := (h.z (inter_sub_left.2.1 hi)).trans (h'.z (inter_sub_right.2.1 hi))
  c hi := (h.c (inter_sub_left.2.2.1 hi)).trans (h'.c (inter_sub_right.2.2.1 hi))
  v hi := (h.v (inter_sub_left.2.2.2 hi)).trans (h'.v (inter_sub_right.2.2.2 hi))

theorem Agree.eq (h : Agree .all f g) : f = g := NZCV.ext (h.n rfl) (h.z rfl) (h.c rfl) (h.v rfl)

@[simp] theorem diff_none : L.diff .none = L := by simp [NZCV.diff, NZCV.none]

@[simp] theorem union_none : L.union .none = L := by simp [NZCV.union, NZCV.none]

theorem Agree.insert (h : Agree (L.diff M) f g) (new : NZCV) : Agree L (M.insert new f) (M.insert new g) := by
  obtain ⟨hn, hz, hc, hv⟩ := h
  simp only [NZCV.diff] at hn hz hc hv
  refine ⟨?_, ?_, ?_, ?_⟩ <;> simp only [NZCV.insert] <;> grind

theorem agree_none : Agree .none f g := ⟨nofun, nofun, nofun, nofun⟩

@[simp] theorem diff_all : L.diff .all = .none := by simp [NZCV.diff, NZCV.all, NZCV.none]

theorem agree_insert_diff : Agree (L.diff M) (M.insert f g) g := by
  refine ⟨?_, ?_, ?_, ?_⟩ <;> simp +contextual [NZCV.diff, NZCV.insert]

theorem Agree.interpolate (h : Agree (L.inter M) f g) : Agree L f (L.insert f g) ∧ Agree M (L.insert f g) g := by
  obtain ⟨hn, hz, hc, hv⟩ := h
  simp only [NZCV.inter, Bool.and_eq_true] at hn hz hc hv
  refine ⟨⟨?_, ?_, ?_, ?_⟩, ⟨?_, ?_, ?_, ?_⟩⟩ <;> simp only [NZCV.insert] <;> grind

end

/-! ## The classification is sound -/

theorem CondClass.holds_congr (c : CondClass) (h : Agree c.flags f g) : c.holds f = c.holds g := by
  obtain ⟨hn, hz, hc, hv⟩ := h
  cases c <;> simp_all [CondClass.flags, CondClass.holds]

section
variable {h : Host} {trace : List Event} {n : Node} {args : List Value} {L f g : NZCV}

theorem Node.value_congr (ha : Agree n.op.classify.read f g) : n.value h trace args f = n.value h trace args g := by
  cases hop : n.op with
  | adc | adcZero | sbb | adcWithFlags | adcZeroWithFlags | sbbWithFlags =>
    have hc : f.c = g.c := ha.c (by simp [hop, IROps.classify, flagC])
    simp [Node.value, hop, Arith.compute, hc]
  | nzcvSelect cond | nzcvSelectV cond | nzcvSelectIncrement cond | neg cond =>
    have hc : cond.holds f = cond.holds g := cond.holds_congr (by simpa [hop, IROps.classify] using ha)
    simp [Node.value, hop, hc]
  | loadNZCV =>
    have heq : f = g := Agree.eq (by simpa [hop, IROps.classify] using ha)
    rw [heq]
  | _ => simp [Node.value, hop, Arith.compute]

/-- What the op reads of the flags, and the flags it leaves alone, decide the
flags after it. -/
theorem Node.flags_congr (ha : Agree ((L.diff n.op.classify.write).union n.op.classify.read) f g) :
    Agree L (n.flags h trace args f) (n.flags h trace args g) := by
  have hread : Agree n.op.classify.read f g := ha.mono sub_union_right
  have hkeep : Agree (L.diff n.op.classify.write) f g := ha.mono sub_union_left
  cases hop : n.op with
  | adcWithFlags | adcZeroWithFlags | sbbWithFlags | adcNZCV | sbbNZCV =>
    have hc : f.c = g.c := hread.c (by simp [hop, IROps.classify, flagC])
    simp [Node.flags, hop, Arith.compute, hc, Agree.refl]
  | condAddNZCV cond _ | condSubNZCV cond _ =>
    have hc : cond.holds f = cond.holds g := cond.holds_congr (by simpa [hop, IROps.classify] using hread)
    simp [Node.flags, hop, hc, Arith.compute, Agree.refl]
  | shiftFlags =>
    have heq : f = g := Agree.eq (by simpa [hop, IROps.classify] using hread)
    rw [heq]
    exact .refl ..
  | rmifNZCV | invalidateFlags =>
    simp only [IROps.classify] at hkeep
    simpa [Node.flags, hop] using hkeep.insert _
  | axFlag =>
    simp only [hop] at hread
    simp [Node.flags, hop, hread.z rfl, hread.c rfl, hread.v rfl, Agree.refl]
  | rotateFlags left =>
    simp only [hop, IROps.classify] at hread hkeep
    have hn : L.n → f.n = g.n := fun hl => hkeep.n (by simp [NZCV.diff, flagCV, hl])
    have hz : L.z → f.z = g.z := fun hl => hkeep.z (by simp [NZCV.diff, flagCV, hl])
    simp only [Node.flags, hop, Flags.rotateFlags]
    split
    · exact ⟨hn, hz, fun _ => hread.c rfl, fun _ => hread.v rfl⟩
    · exact ⟨hn, hz, fun _ => rfl, fun _ => rfl⟩
  | cmpPairZ =>
    simp only [hop, IROps.classify] at hkeep
    simp only [Node.flags, hop]
    exact ⟨fun hl => hkeep.n (by simp [NZCV.diff, flagZ, hl]), fun _ => rfl,
      fun hl => hkeep.c (by simp [NZCV.diff, flagZ, hl]),
      fun hl => hkeep.v (by simp [NZCV.diff, flagZ, hl])⟩
  | carryInvert =>
    simp only [hop, IROps.classify] at hread hkeep
    simp only [Node.flags, hop]
    exact ⟨fun hl => hkeep.n (by simp [NZCV.diff, flagC, hl]),
      fun hl => hkeep.z (by simp [NZCV.diff, flagC, hl]), fun _ => congrArg Bool.not (hread.c rfl),
      fun hl => hkeep.v (by simp [NZCV.diff, flagC, hl])⟩
  | setSmallNZV =>
    simp only [hop, IROps.classify] at hkeep
    simp only [Node.flags, hop]
    exact ⟨fun _ => rfl, fun _ => rfl, fun hl => hkeep.c (by simp [NZCV.diff, flagNZV, hl]), fun _ => rfl⟩
  | and | add | sub | adc | adcZero | sbb | loadNZCV | nzcvSelect | nzcvSelectV
  | nzcvSelectIncrement | neg | storeRegister | other => simpa [Node.flags, hop, IROps.classify] using hkeep
  | _ => simp [Node.flags, hop, Arith.compute, Agree.refl]

/-- Flags that the op does not write are left alone. `TestZ` writes flags and is
not classified. -/
theorem Node.flags_frame (hop : n.op ≠ .testZ) : Agree (L.diff n.op.classify.write) (n.flags h trace args f) f := by
  cases hn : n.op with
  | testZ => exact absurd hn hop
  | rotateFlags =>
    simp only [Node.flags, hn, IROps.classify, Flags.rotateFlags]
    split
    · exact .refl ..
    · exact ⟨fun _ => rfl, fun _ => rfl, by simp [NZCV.diff, flagCV], by simp [NZCV.diff, flagCV]⟩
  | cmpPairZ =>
    simp only [Node.flags, hn, IROps.classify]
    exact ⟨fun _ => rfl, by simp [NZCV.diff, flagZ], fun _ => rfl, fun _ => rfl⟩
  | carryInvert =>
    simp only [Node.flags, hn, IROps.classify]
    exact ⟨fun _ => rfl, fun _ => rfl, by simp [NZCV.diff, flagC], fun _ => rfl⟩
  | setSmallNZV =>
    simp only [Node.flags, hn, IROps.classify]
    exact ⟨by simp [NZCV.diff, flagNZV], by simp [NZCV.diff, flagNZV], fun _ => rfl, by simp [NZCV.diff, flagNZV]⟩
  | rmifNZCV | invalidateFlags =>
    simp only [Node.flags, hn]
    exact agree_insert_diff
  | _ => simp [Node.flags, hn, IROps.classify, Agree.refl, agree_none]

end

/-! ## Related states -/

structure Rel (L : NZCV) (dropped : Set Nat) (s t : State) : Prop where
  trace : s.trace = t.trace
  env : ∀ id ∉ dropped, s.env id = t.env id
  flags : Agree L s.nzcv t.nzcv

def Avoids (dropped : Set Nat) (args : List Arg) : Prop := ∀ id, .ref id ∈ args → id ∉ dropped

theorem Avoids.subset (h : Avoids D args) (hs : args' ⊆ args) : Avoids D args' :=
  fun id hid => h id (hs hid)

theorem Rel.refl (L : NZCV) (D : Set Nat) (s : State) : Rel L D s s := ⟨rfl, fun _ _ => rfl, .refl ..⟩

theorem Rel.mono (h : Rel M D s t) (hs : L.Sub M) : Rel L D s t := ⟨h.trace, h.env, h.flags.mono hs⟩

theorem Rel.read_eq (h : Rel L D s t) (ha : Avoids D args) : args.map s.read = args.map t.read := by
  refine List.map_congr_left fun a hmem => ?_
  cases a with
  | ref id => exact h.env id (ha id hmem)
  | inline constant => rfl

section
variable {h : Host} {n : Node} {L M : NZCV} {D : Set Nat} {s t : State}

/-- The classification of an op is sound: related states stay related when both
sides run it. -/
theorem Node.exec_rel (hr : Rel ((L.diff n.op.classify.write).union n.op.classify.read) D s t)
    (ha : Avoids D n.args) : Rel L D (n.exec h s) (n.exec h t) := by
  have hargs := hr.read_eq ha
  have hvalue : n.value h t.trace (n.args.map t.read) s.nzcv = n.value h t.trace (n.args.map t.read) t.nzcv :=
    Node.value_congr (hr.flags.mono sub_union_right)
  refine ⟨?_, fun id hid => ?_, ?_⟩
  · simp [Node.exec, hargs, hr.trace]
  · simp only [Node.exec, hargs, hr.trace, hvalue]
    split
    · simp only [Function.update_apply, hr.env id hid]
    · exact hr.env id hid
  · simp only [Node.exec, hargs, hr.trace]
    exact Node.flags_congr hr.flags

/-! ## Rewrites -/

/-- An op that shows nothing outside, whose value is dropped and whose flags
nobody reads, can be left out. -/
theorem Rel.exec_left (hr : Rel L D s t) (htr : n.op.traced = false) (hid : n.op.hasDest → n.id ∈ D)
    (hf : Agree L (n.flags h s.trace (n.args.map s.read) s.nzcv) s.nzcv) : Rel L D (n.exec h s) t where
  trace := by simp [Node.exec, htr, hr.trace]
  env id hmem := by
    cases hd : n.op.hasDest with
    | false => simp [Node.exec, hd, hr.env id hmem]
    | true =>
      have hne : id ≠ n.id := by
        rintro rfl
        exact hmem (hid hd)
      simp [Node.exec, hd, hne, hr.env id hmem]
  flags := (hf.trans hr.flags).mono (.inter (.refl L) (.refl L))

theorem IROps.pure_spec {op : IROps} (hp : op.hasSideEffects = false) :
    op.traced = false ∧ op.classify.write = .none ∧ op ≠ .testZ := by
  cases op <;> simp_all [IROps.hasSideEffects, IROps.traced, IROps.classify]

theorem IROps.eliminable_spec {op : IROps} (he : (op.classify.canEliminate || op.classify.replacement.isSome)) :
    op.traced = false ∧ op ≠ .testZ := by
  cases op <;> simp_all [IROps.classify, IROps.traced]

theorem IROps.replacement_spec {op r : IROps} (hr : op.classify.replacement = some r) :
    op.traced = false ∧ r.traced = false ∧ op.hasDest ∧ r.hasDest ∧ op ≠ .testZ := by
  cases op <;> simp only [IROps.classify] at hr <;> cases hr <;> simp [IROps.traced, IROps.hasDest]

theorem Node.replacement_exec (hr : n.op.classify.replacement = some r) :
    (∀ trace args f, ({ n with op := r } : Node).value h trace args f = n.value h trace args f) ∧
      ∀ trace args f, ({ n with op := r } : Node).flags h trace args f = f := by
  cases hop : n.op <;> simp only [hop, IROps.classify] at hr <;> cases hr <;> simp [Node.value, Node.flags, hop]

theorem IROps.replacementNoWrite_spec {op r : IROps} (hr : op.classify.replacementNoWrite = some r) :
    op.traced = false ∧ r.traced = false ∧ r.hasDest = false := by
  cases op <;> simp only [IROps.classify] at hr <;> cases hr <;> simp [IROps.traced, IROps.hasDest]

theorem Node.replacementNoWrite_exec (hr : n.op.classify.replacementNoWrite = some r)
    (trace : List Event) (args : List Value) (f : NZCV) :
    ({ n with op := r } : Node).flags h trace args f = n.flags h trace args f := by
  cases hop : n.op <;> simp only [hop, IROps.classify] at hr <;> cases hr <;> simp [Node.flags, hop]

theorem sub_diff_of_dead (hdead : L.inter M = .none) : L.Sub (L.diff M) := by
  simp only [NZCV.inter, NZCV.none] at hdead
  simp only [NZCV.Sub, NZCV.diff]
  grind

theorem Rel.exec_removed (hr : Rel (L.diff n.op.classify.write) D s t)
    (htr : n.op.traced = false) (hne : n.op ≠ .testZ)
    (hdead : L.inter n.op.classify.write = .none) (hid : n.op.hasDest → n.id ∈ D) : Rel L D (n.exec h s) t := by
  have hsub := sub_diff_of_dead hdead
  exact (hr.mono hsub).exec_left htr hid ((Node.flags_frame hne).mono hsub)

section
variable {r : IROps} (hr : Rel ((L.diff n.op.classify.write).union n.op.classify.read) D s t) (ha : Avoids D n.args)
include hr ha

theorem Rel.exec_replaced (hrep : n.op.classify.replacement = some r) (hdead : L.inter n.op.classify.write = .none) :
    Rel L D (n.exec h s) (({ n with op := r } : Node).exec h t) := by
  obtain ⟨htr, htr', hd, hd', hne⟩ := IROps.replacement_spec hrep
  obtain ⟨hvalue, hflags⟩ := Node.replacement_exec (h := h) hrep
  have hsub := sub_diff_of_dead hdead
  have hboth : Rel L D (n.exec h s) (n.exec h t) := Node.exec_rel hr ha
  refine ⟨?_, fun id hmem => ?_, ?_⟩
  · simp [Node.exec, htr, htr', hr.trace]
  · have henv := hboth.env id hmem
    simpa [Node.exec, hd, hd', hvalue] using henv
  · have hframe : Agree L (n.exec h s).nzcv s.nzcv := (Node.flags_frame hne).mono hsub
    have hkeep : Agree L s.nzcv t.nzcv := hr.flags.mono (hsub.trans sub_union_left)
    simp only [Node.exec, hflags]
    exact (hframe.trans hkeep).mono (.inter (.refl L) (.refl L))

theorem Rel.exec_noWrite (hrep : n.op.classify.replacementNoWrite = some r) (hid : n.op.hasDest → n.id ∈ D) :
    Rel L D (n.exec h s) (({ n with op := r } : Node).exec h t) := by
  obtain ⟨htr, htr', hd'⟩ := IROps.replacementNoWrite_spec hrep
  have hboth : Rel L D (n.exec h s) (n.exec h t) := Node.exec_rel hr ha
  refine ⟨?_, fun id hmem => ?_, ?_⟩
  · simp [Node.exec, htr, htr', hr.trace]
  · have henv := hboth.env id hmem
    cases hd : n.op.hasDest with
    | false => simpa [Node.exec, hd, hd'] using henv
    | true =>
      have hne : id ≠ n.id := by
        rintro rfl
        exact hmem (hid hd)
      simpa [Node.exec, hd, hd', hne] using henv
  · have hf := hboth.flags
    simpa [Node.exec, Node.replacementNoWrite_exec hrep] using hf

end

theorem Rel.exec_narrowTest (hr : Rel L D s (n.exec h t)) : Rel L D s ((n.narrowTest L).exec h t) := by
  unfold Node.narrowTest
  split
  next hc =>
    obtain ⟨hop, -, hdead⟩ := hc
    simp only [NZCV.inter, NZCV.none, flagNC] at hdead
    refine ⟨?_, fun id hmem => ?_, ?_⟩
    · have htr := hr.trace
      simpa [Node.exec, hop, IROps.traced] using htr
    · have henv := hr.env id hmem
      simpa [Node.exec, hop, IROps.hasDest] using henv
    · have hf := hr.flags
      simp only [Node.exec, Node.flags, hop] at hf ⊢
      refine ⟨fun hn => ?_, hf.z, hf.c, hf.v⟩
      simp [hn] at hdead
  next => exact hr

end

/-! ## One round of the walk -/

inductive Node.Kept (n : Node) (unused : Bool) (L : NZCV) : Node → Prop where
  | same : n.Kept unused L n
  | replaced (r : IROps) : n.op.classify.replacement = some r →
      L.inter n.op.classify.write = .none → n.Kept unused L { n with op := r }
  | noWrite (r : IROps) : n.op.classify.replacementNoWrite = some r → unused = true →
      n.Kept unused L { n with op := r }

inductive Node.Processed (n : Node) (unused : Bool) (L : NZCV) : Option Node × NZCV → Prop where
  | removed : unused = true → n.op.traced = false → n.op ≠ .testZ →
      L.inter n.op.classify.write = .none → n.Processed unused L (none, L.diff n.op.classify.write)
  | kept (m : Node) : n.Kept unused L m → n.Processed unused L
        (some (m.narrowTest L), (L.diff n.op.classify.write).union n.op.classify.read)

section
variable {h : Host} {n m : Node} {p : Option Node × NZCV} {L : NZCV} {D : Set Nat} {s t : State} {unused : Bool}

theorem Node.narrowTest_of_trivial (ht : n.op.classify.trivial) (L : NZCV) : n.narrowTest L = n := by
  unfold Node.narrowTest
  split
  next hc =>
    rw [hc.1] at ht
    cases ht
  next => rfl

theorem Node.eliminate_spec (o : Options) (n : Node) (unused : Bool) (L : NZCV) :
    (n.eliminate o unused L = none ∧ unused ∧ L.inter n.op.classify.write = .none ∧
        (n.op.classify.canEliminate || n.op.classify.replacement.isSome)) ∨
      ∃ m, n.eliminate o unused L = some m ∧ n.Kept unused L m := by
  unfold Node.eliminate
  dsimp only
  split
  next hdead =>
    split
    next hc =>
      simp only [Bool.and_eq_true] at hc
      exact .inl ⟨rfl, hc.1.2, hdead, hc.1.1⟩
    next =>
      refine .inr ⟨_, rfl, ?_⟩
      cases hrep : n.op.classify.replacement with
      | none => exact .same
      | some r => exact .replaced r hrep hdead
  next =>
    split
    next hc =>
      simp only [Bool.and_eq_true] at hc
      refine .inr ⟨_, rfl, ?_⟩
      cases hrep : n.op.classify.replacementNoWrite with
      | none => exact .same
      | some r => exact .noWrite r hrep hc.1
    next => exact .inr ⟨n, rfl, .same⟩

theorem Node.process_spec (o : Options) (n : Node) (unused : Bool) (L : NZCV) :
    n.Processed unused L (n.process o unused L) := by
  unfold Node.process
  split
  next hc =>
    simp only [Bool.and_eq_true, Bool.not_eq_true'] at hc
    obtain ⟨htr, hw, hne⟩ := IROps.pure_spec hc.2
    have hremoved := Node.Processed.removed (L := L) hc.1 htr hne (by simp [hw, NZCV.inter, NZCV.none])
    simpa [hw] using hremoved
  next =>
    dsimp only
    split
    next ht =>
      have hkept : n.Processed unused L _ := .kept n .same
      have hinfo : n.op.classify = {} := by simpa [FlagInfo.trivial] using ht
      simpa [Node.narrowTest_of_trivial ht, hinfo] using hkept
    next =>
      obtain ⟨heq, hu, hdead, he⟩ | ⟨m, heq, hkept⟩ := n.eliminate_spec o unused L
      · obtain ⟨htr, hne⟩ := IROps.eliminable_spec he
        rw [heq]
        exact .removed hu htr hne hdead
      · rw [heq]
        exact .kept m hkept

@[simp] theorem Node.narrowTest_id : (n.narrowTest L).id = n.id := by
  unfold Node.narrowTest
  split <;> rfl

@[simp] theorem Node.narrowTest_args : (n.narrowTest L).args = n.args := by
  unfold Node.narrowTest
  split <;> rfl

@[simp] theorem Node.narrowTest_hasDest : (n.narrowTest L).op.hasDest = n.op.hasDest := by
  unfold Node.narrowTest
  split
  next hc => simp [hc.1, IROps.hasDest]
  next => rfl

/-- An op that stays keeps its id and its arguments, and loses its destination
only when nobody uses it. -/
theorem Node.Kept.shape (hk : n.Kept unused L m) : m.id = n.id ∧ m.args = n.args ∧ (m.op.hasDest → n.op.hasDest) ∧
      (n.op.hasDest → m.op.hasDest ∨ unused) := by
  cases hk with
  | same => exact ⟨rfl, rfl, fun hd => hd, .inl⟩
  | replaced r hrep =>
    obtain ⟨-, -, hd, hd', -⟩ := IROps.replacement_spec hrep
    exact ⟨rfl, rfl, fun _ => hd, fun _ => .inl hd'⟩
  | noWrite r hrep hu =>
    have hd' : r.hasDest = false := (IROps.replacementNoWrite_spec hrep).2.2
    exact ⟨rfl, rfl, fun hd => by simp [hd'] at hd, fun _ => .inr hu⟩

theorem Rel.exec_kept (hk : n.Kept unused L m)
    (hr : Rel ((L.diff n.op.classify.write).union n.op.classify.read) D s t)
    (ha : Avoids D n.args) (hdrop : n.op.hasDest → m.op.hasDest = false → n.id ∈ D) :
    Rel L D (n.exec h s) (m.exec h t) := by
  cases hk with
  | same => exact Node.exec_rel hr ha
  | replaced r hrep hdead => exact hr.exec_replaced ha hrep hdead
  | noWrite r hrep hu =>
    exact hr.exec_noWrite ha hrep fun hd => hdrop hd (IROps.replacementNoWrite_spec hrep).2.2

theorem Node.process_rel (hp : n.Processed unused L p) (hdrop : n.op.hasDest → n.id ∉ defs p.1.toList → n.id ∈ D)
    (ha : Avoids D (codeArgs p.1.toList)) (hr : Rel p.2 D s t) : Rel L D (n.exec h s) (execCode h p.1.toList t) := by
  cases hp with
  | removed hu htr hne hdead => exact Rel.exec_removed hr htr hne hdead fun hd => hdrop hd (by simp [defs])
  | kept m hk =>
    obtain ⟨-, hargs, -, -⟩ := hk.shape
    have ha' : Avoids D n.args := by simpa [codeArgs, hargs] using ha
    refine Rel.exec_narrowTest (Rel.exec_kept hk hr ha' fun hd hd' => hdrop hd ?_)
    simp [defs, hd']

theorem Node.Processed.shape (hp : n.Processed unused L p) :
    (ids p.1.toList).Sublist [n.id] ∧ (codeArgs p.1.toList) ⊆ n.args ∧ (∀ id ∈ defs p.1.toList, id ∈ defs [n]) ∧
      (∀ id ∈ defs [n], id ∉ defs p.1.toList → id = n.id ∧ unused) := by
  cases hp with
  | removed hu => simp +contextual [ids, codeArgs, defs, hu]
  | kept m hk =>
    obtain ⟨hid, hargs, hd, hd'⟩ := hk.shape
    refine ⟨by simp [ids, hid], by simp [codeArgs, hargs], ?_, ?_⟩
    · simp +contextual [defs, hid, hd]
    · intro id hmem hnot
      cases hdest : n.op.hasDest with
      | false => simp [defs, hdest] at hmem
      | true =>
        obtain rfl : id = n.id := by simpa [defs, hdest] using hmem
        obtain hm | hu := hd' hdest
        · simp [defs, hm, hid] at hnot
        · exact ⟨rfl, hu⟩

end

end PowerArm.Flags
