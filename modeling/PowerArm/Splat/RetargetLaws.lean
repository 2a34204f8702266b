import PowerArm.Splat.Pass

/-!
# Where the pass retargets an argument

The uses of the whole block that belong to one argument of one node are what the
walk said when it came to the node (`uses_filter`), so the two retargeting loops
leave that argument at `newArg` (`args_retarget`).
-/

namespace PowerArm.Splat

open Flags (Arg)

/-! ## The uses of one argument -/

theorem zipIdx_filterMap_filter (l : List α) (f : α → Nat → Option Use) (hf : ∀ x i u, f x i = some u → u.argIdx = i)
    (k i : Nat) :
    (((l.zipIdx k).filterMap fun p => f p.1 p.2).filter fun u => u.argIdx = i + k) =
      ((l[i]?).bind fun x => f x (i + k)).toList := by
  induction l generalizing k i with
  | nil => rfl
  | cons x l ih =>
    have hhead : ∀ u, f x k = some u → u.argIdx = k := hf x k
    have hrest : (((l.zipIdx (k + 1)).filterMap fun p => f p.1 p.2).filter fun u => u.argIdx = k) = [] := by
      refine List.filter_eq_nil_iff.mpr fun u hu => ?_
      obtain ⟨p, hp, hpu⟩ := List.mem_filterMap.mp hu
      have hle := List.le_snd_of_mem_zipIdx hp
      have hidx := hf p.1 p.2 u hpu
      simp only [decide_eq_true_eq]
      omega
    rw [List.zipIdx_cons]
    cases i with
    | zero =>
      cases hx : f x k with
      | none => simpa [hx] using hrest
      | some u => simpa [hx, hhead u hx] using hrest
    | succ i =>
      have hshift := ih (k + 1) i
      rw [show i + (k + 1) = i + 1 + k by omega] at hshift
      cases hx : f x k with
      | none => simpa [hx] using hshift
      | some u =>
        have hne : ¬ k = i + 1 + k := by omega
        simpa [hx, hhead u hx] using hshift

theorem Walk.user_of_mem_classify {w : Walk} {u : Use} (h : u ∈ w.classify n) : u.user = n.id := by
  obtain ⟨p, -, hp⟩ := List.mem_filterMap.mp h
  obtain ⟨t, -, rfl⟩ := Option.map_eq_some_iff.mp hp
  rfl

theorem Walk.user_of_mem_uses {w : Walk} {u : Use} (h : u ∈ w.uses nodes) : u.user ∈ ids nodes := by
  induction nodes generalizing w with
  | nil => cases h
  | cons n nodes ih =>
    obtain h | h := List.mem_append.mp h
    · exact List.mem_cons.mpr (.inl (user_of_mem_classify h))
    · exact List.mem_cons_of_mem _ (ih h)

theorem Walk.uses_append (w : Walk) (pre rest : List Node) :
    w.uses (pre ++ rest) = w.uses pre ++ (pre.foldl Walk.step w).uses rest := by
  induction pre generalizing w with
  | nil => rfl
  | cons n pre ih => simp [Walk.uses, ih]

def walkAfter (pre : List Node) : Walk := pre.foldl Walk.step {}

theorem Walk.trackedOfArg_register {w : Walk} {n : Node} (h : a ≠ .ref n.id) :
    (w.register n).trackedOfArg a = w.trackedOfArg a := by
  unfold Walk.register
  split
  next =>
    cases a with
    | ref id =>
      have hne : id ≠ n.id := fun heq => h (heq ▸ rfl)
      simp [Walk.trackedOfArg, Walk.track, hne]
    | inline constant => rfl
  next => rfl

namespace Block

variable {b : Block} {pre post : List Node} {n : Node}

section
variable (hb : b.nodes = pre ++ n :: post)
include hb

theorem id_notMem : n.id ∉ ids pre ∧ n.id ∉ ids post := by
  have hnodup := b.nodup
  rw [hb, ids, List.map_append] at hnodup
  have hmid := List.nodup_middle.mp hnodup
  have hnot := (List.nodup_cons.mp hmid).1
  rw [List.mem_append, not_or] at hnot
  exact hnot

theorem mem_nodes : n ∈ b.nodes := by simp [hb]

theorem arg_ne_self (ha : a ∈ n.args) : a ≠ .ref n.id := by
  rintro rfl
  exact b.irrefl n (mem_nodes hb) ha

theorem uses_filter (ha : n.args[i]? = some a) :
    (b.uses.filter fun u => u.user = n.id && u.argIdx = i) = ((walkAfter pre).trackedOfArg a).toList.map fun t =>
        ⟨n.id, i, t.cand, t.isAlias, isForward n i t.cand⟩ := by
  obtain ⟨hpre, hpost⟩ := id_notMem hb
  have hnone {w : Walk} {nodes : List Node} (hid : n.id ∉ ids nodes) :
      ((w.uses nodes).filter fun u => u.user = n.id && u.argIdx = i) = [] := by
    refine List.filter_eq_nil_iff.mpr fun u hu => ?_
    have huser := Walk.user_of_mem_uses hu
    have hne : u.user ≠ n.id := fun heq => hid (heq ▸ huser)
    simp [hne]
  have hne : a ≠ .ref n.id := arg_ne_self hb (List.mem_of_getElem? ha)
  have hself : (((walkAfter pre).register n).classify n).filter (fun u => u.user = n.id && u.argIdx = i) =
      (((walkAfter pre).register n).classify n).filter fun u => u.argIdx = i + 0 := by
    refine List.filter_congr fun u hu => ?_
    simp [Walk.user_of_mem_classify hu]
  have hone := zipIdx_filterMap_filter n.args
    (fun arg i => (((walkAfter pre).register n).trackedOfArg arg).map fun t =>
      (⟨n.id, i, t.cand, t.isAlias, isForward n i t.cand⟩ : Use))
    (fun x i u hu => by obtain ⟨t, -, rfl⟩ := Option.map_eq_some_iff.mp hu; rfl) 0 i
  rw [ha, Option.bind_some, Walk.trackedOfArg_register hne] at hone
  rw [Block.uses, hb, Walk.uses_append, List.filter_append, hnone hpre, Walk.uses,
    List.filter_append, hnone hpost, List.append_nil]
  refine hself.trans (hone.trans ?_)
  cases (walkAfter pre).trackedOfArg a <;> rfl

end

/-! ## Retargeting -/

def newArg (b : Block) (w : Walk) (n : Node) (i : Nat) (arg : Arg) : Arg :=
  match w.trackedOfArg arg with
  | none => arg
  | some t =>
    if b.marked t.cand.node then
      if isForward n i t.cand then b.forwardArg n i t.cand.node arg
      else if t.isAlias then arg else .ref (b.mergeId t.cand.node)
    else arg

def SameOp (n n' : Node) : Prop := n'.id = n.id ∧ n'.op = n.op ∧ n'.size = n.size ∧ n'.elementSize = n.elementSize

theorem sameOp_retargetMerge (n : Node) (u : Use) : SameOp n (b.retargetMerge n u) := by
  unfold retargetMerge
  split
  · exact ⟨rfl, rfl, rfl, rfl⟩
  · exact ⟨rfl, rfl, rfl, rfl⟩

theorem sameOp_retargetForward (n : Node) (u : Use) : SameOp n (b.retargetForward n u) := by
  unfold retargetForward
  split
  · exact ⟨rfl, rfl, rfl, rfl⟩
  · exact ⟨rfl, rfl, rfl, rfl⟩

theorem sameOp_foldl (hf : ∀ n u, SameOp n (f n u)) (us : List Use) (n : Node) : SameOp n (us.foldl f n) := by
  induction us generalizing n with
  | nil => exact ⟨rfl, rfl, rfl, rfl⟩
  | cons u us ih =>
    obtain ⟨hid, hop, hsize, helem⟩ := hf n u
    obtain ⟨hid', hop', hsize', helem'⟩ := ih (f n u)
    exact ⟨hid'.trans hid, hop'.trans hop, hsize'.trans hsize, helem'.trans helem⟩

theorem sameOp_retarget (b : Block) (n : Node) : SameOp n (b.retarget n) := by
  obtain ⟨hid, hop, hsize, helem⟩ := sameOp_foldl (b.sameOp_retargetMerge)
    (b.uses.filter fun u => !u.forward && !u.isAlias) n
  obtain ⟨hid', hop', hsize', helem'⟩ := sameOp_foldl (b.sameOp_retargetForward)
    (b.uses.filter fun u => u.forward) ((b.uses.filter fun u => !u.forward && !u.isAlias).foldl b.retargetMerge n)
  exact ⟨hid'.trans hid, hop'.trans hop, hsize'.trans hsize, helem'.trans helem⟩

def mergeStep (b : Block) (_ : Node) (arg : Arg) (u : Use) : Arg :=
  if b.marked u.cand.node then .ref (b.mergeId u.cand.node) else arg

def forwardStep (b : Block) (n : Node) (arg : Arg) (u : Use) : Arg :=
  if b.marked u.cand.node then b.forwardArg n u.argIdx u.cand.node arg else arg

theorem getElem?_retargetMerge (n : Node) (u : Use) (i : Nat) : (b.retargetMerge n u).args[i]? =
      (n.args[i]?).map fun arg => if u.user = n.id ∧ u.argIdx = i then b.mergeStep n arg u else arg := by
  unfold retargetMerge mergeStep
  by_cases huser : u.user = n.id
  · by_cases hmark : b.marked u.cand.node
    · simp [huser, hmark, List.getElem?_modify]
    · simp [hmark]
  · simp [huser]

theorem getElem?_retargetForward (n : Node) (u : Use) (i : Nat) : (b.retargetForward n u).args[i]? =
      (n.args[i]?).map fun arg => if u.user = n.id ∧ u.argIdx = i then b.forwardStep n arg u else arg := by
  unfold retargetForward forwardStep
  by_cases huser : u.user = n.id
  · by_cases hmark : b.marked u.cand.node
    · simp [huser, hmark, List.getElem?_modify]
    · simp [hmark]
  · simp [huser]

theorem getElem?_foldl {f : Node → Use → Node} {g : Node → Arg → Use → Arg} (hf : ∀ n u, SameOp n (f n u))
    (hg : ∀ n n', SameOp n n' → g n' = g n) (hget : ∀ n u i, (f n u).args[i]? =
      (n.args[i]?).map fun arg => if u.user = n.id ∧ u.argIdx = i then g n arg u else arg)
    (us : List Use) (n : Node) (i : Nat) :
    (us.foldl f n).args[i]? =
      (n.args[i]?).map fun arg => (us.filter fun u => u.user = n.id && u.argIdx = i).foldl (g n) arg := by
  induction us generalizing n with
  | nil => simp
  | cons u us ih =>
    have hsame := hf n u
    rw [List.foldl_cons, ih, hget, Option.map_map, hg n _ hsame, hsame.1]
    congr 1
    funext arg
    by_cases hhit : u.user = n.id ∧ u.argIdx = i
    · simp [hhit]
    · have hfalse : (decide (u.user = n.id) && decide (u.argIdx = i)) = false := by simpa using not_and.mp hhit
      simp [hhit]

theorem args_retarget (hb : b.nodes = pre ++ n :: post) :
    (b.retarget n).args = n.args.mapIdx (b.newArg (walkAfter pre) n) := by
  have hsame := sameOp_foldl (b.sameOp_retargetMerge) (b.uses.filter fun u => !u.forward && !u.isAlias) n
  have hmerge := getElem?_foldl (b.sameOp_retargetMerge) (fun _ _ _ => rfl) b.getElem?_retargetMerge
    (b.uses.filter fun u => !u.forward && !u.isAlias) n
  have hforward := getElem?_foldl (b.sameOp_retargetForward)
    (fun n n' hs => by unfold forwardStep forwardArg; rw [hs.1, hs.2.1]) b.getElem?_retargetForward
    (b.uses.filter fun u => u.forward)
    ((b.uses.filter fun u => !u.forward && !u.isAlias).foldl b.retargetMerge n)
  have hcomm (p : Use → Bool) (i : Nat) : ((b.uses.filter p).filter fun u => u.user = n.id && u.argIdx = i) =
        (b.uses.filter fun u => u.user = n.id && u.argIdx = i).filter p := by
    rw [List.filter_filter, List.filter_filter]
    exact List.filter_congr fun u _ => Bool.and_comm _ _
  refine List.ext_getElem? fun i => ?_
  rw [retarget, hforward, hmerge, hsame.1, hcomm, hcomm, List.getElem?_mapIdx]
  cases ha : n.args[i]? with
  | none => rfl
  | some a =>
    rw [uses_filter hb ha, Option.map_some, Option.map_some, Option.map_some, newArg]
    cases (walkAfter pre).trackedOfArg a with
    | none => rfl
    | some t =>
      cases hfwd : isForward n i t.cand with
      | true => simp [hfwd, forwardStep, forwardArg, hsame.1, hsame.2.1]
      | false => cases halias : t.isAlias <;> simp [hfwd, halias, mergeStep]

end Block

end PowerArm.Splat
