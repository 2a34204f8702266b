import PowerArm.CodeCache.RoundTripLaws
import PowerArm.Lib.LittleEndian
import PowerArm.Ppc.ConstCache

/-!
# Every constant is exact

In every state the cached register holds the cached value, moved with the guest base when
it is a guest RIP (`Holds`), since the ops that keep the cache write scratch registers only
(`KeepConst.writes_scratch`, `FPRLoad.writes_scratch`). So each constant and each
entrypoint offset of a block gets its value, from the emitted code and from the rebased
one (`constCache_exact`).
-/

namespace PowerArm.Ppc

def Holds (delta : Value) (g : Regs) (cache : Option LastConstant) : Prop :=
  ∀ last ∈ cache, g (generalRegisters.get last.reg) = last.value + if last.guestRIP then delta else 0

def Rebased (unit : CompileUnit) (delta : Value) (code code' : Code) : Prop :=
  delta = 0 ∧ code' = code ∨ unit.retainRelocations = true ∧ code.rebase unit delta = some code'

/-! ## The ops that keep the cache -/

def scratch : List (BitVec 5) := [TMP1, TMP2, TMP3, TMP4]

theorem generalRegisters_not_scratch (i : Fin 5) : generalRegisters.get i ∉ scratch := by
  revert i
  decide

theorem KeepConst.writes_scratch (opcode : KeepConst) : opcode.writes ⊆ scratch := by
  unfold KeepConst.writes
  repeat' split
  all_goals simp [scratch]

theorem FPRLoad.writes_scratch (load : FPRLoad) (isa30 : Bool) : load.writes isa30 ⊆ scratch := by
  have hindex : (makeAddrForm isa30 (load.addr.getD TMP4) load.shift load.offset).1 ⊆ scratch := by
    unfold makeAddrForm
    dsimp only
    repeat' split
    all_goals simp [scratch]
  unfold FPRLoad.writes
  dsimp only
  generalize makeAddrForm .. = form at hindex ⊢
  refine List.append_subset.mpr ⟨List.append_subset.mpr ⟨?_, hindex⟩, ?_⟩
  · split <;> simp [scratch]
  · unfold materializeAddr prepareV128Addr loadFPRSized
    repeat' split
    all_goals simp [scratch]

/-! ## The instructions -/

theorem exec_addi (g : Regs) (rt ra : BitVec 5) (si : BitVec 16) (hra : ra ≠ 0) :
    exec g (addi (rt.setWidth 32) (ra.setWidth 32) si) = some (g.set rt (g ra + si.signExtend 64)) := by
  obtain ⟨hop, ht, ha, hd⟩ := emitD_fields 14 rt ra si
  change exec g (emitD ((14 : BitVec 6).setWidth 32) (rt.setWidth 32) (ra.setWidth 32) si) = _
  simp only [exec, hop, ht, ha, hd, if_true, if_neg hra]

theorem signExtend_of_fitsAddi (h : fitsAddi delta) : (delta.setWidth 16).signExtend 64 = delta :=
  Lib.signExtend_setWidth_of_range (by decide) (by decide) h.1 (Int.lt_add_one_of_le h.2)

/-- Only guest RIP moves are rebased. -/
theorem Rebased.unmoved (h : Rebased unit delta code code') (hcode : ∀ delta, code.rebase unit delta = some code) :
    code' = code := by
  rcases h with ⟨-, rfl⟩ | ⟨-, h⟩
  · rfl
  · exact (Option.some.inj ((hcode delta).symm.trans h)).symm

theorem exec_loadConstant (h : Rebased unit delta (.words (loadConstant unit dst value)) code')
    (g : Regs) : code'.exec g = some (g.set dst value) := by
  rw [h.unmoved (fun _ => rfl)]
  exact run_loadImm64 g dst value

theorem exec_emitAddi (h : Rebased unit delta (emitAddi dst base step) code') (hbase : base ≠ 0)
    (hfits : fitsAddi step) (g : Regs) : code'.exec g = some (g.set dst (g base + step)) := by
  rw [h.unmoved (fun _ => rfl), emitAddi, Code.exec, run_cons, exec_addi g dst base _ hbase, signExtend_of_fitsAddi hfits]
  rfl

theorem exec_ripMove (h : Rebased unit delta (insertRelocatableRIPMove unit dst value) code')
    (g : Regs) : code'.exec g = some (g.set dst (value + delta)) := by
  unfold insertRelocatableRIPMove at h
  rcases h with ⟨rfl, rfl⟩ | ⟨hretain, h⟩
  · rw [show value + 0 = value from BitVec.add_zero value]
    split <;> exact run_loadImm64 g dst value
  · rw [if_pos hretain, Code.rebase] at h
    simp only [Option.ite_none_right_eq_some, Option.some.injEq] at h
    obtain ⟨-, rfl⟩ := h
    have hreg : BitVec.ofNat 5 dst.toNat = dst := by simp
    rw [Code.exec, CodeCache.run_moveWords dst.isLt, hreg, BitVec.ofNat_toNat, BitVec.setWidth_eq]

/-! ## The two handlers -/

theorem exec_emitConstant (hc : Holds delta g cache)
    (h : Rebased unit delta (emitConstant unit cache dst value) code') : code'.exec g = some (g.set dst value) := by
  unfold emitConstant at h
  split at h
  case h_2 => exact exec_loadConstant h g
  next last =>
  split at h
  case isFalse => exact exec_loadConstant h g
  next hcond =>
  -- a guest RIP serves only where the code is never rebased
  have hmoved : (if last.guestRIP then delta else 0) = 0 := by
    rcases h with ⟨rfl, -⟩ | ⟨hretain, -⟩
    · exact ite_self _
    · simp_all
  have hbase : g (generalRegisters.get last.reg) = last.value := by
    rw [hc last rfl, hmoved]
    exact BitVec.add_zero _
  dsimp only at h
  split at h
  · next hfits => rw [exec_emitAddi h hfits.2.1 hfits.1, hbase, BitVec.add_comm, BitVec.sub_add_cancel]
  split at h
  · next hzero => rw [h.unmoved (fun _ => rfl), Code.exec, hbase, ← sub_eq_zero.mp hzero.1]
  · exact exec_loadConstant h g

theorem exec_emitEntrypointOffset (hc : Holds delta g cache)
    (h : Rebased unit delta (emitEntrypointOffset unit cache dst is32 value) code') :
    code'.exec g = some (g.set dst (value + delta)) := by
  unfold emitEntrypointOffset at h
  split at h
  case h_2 => exact exec_ripMove h g
  next last =>
  split at h
  case isFalse => exact exec_ripMove h g
  next hcond =>
  -- the base register has moved with the guest base, or nothing has
  have hmoved : (if last.guestRIP then delta else 0) = delta := by
    rcases h with ⟨rfl, -⟩ | ⟨hretain, -⟩
    · exact ite_self _
    · simp_all
  have hbase : g (generalRegisters.get last.reg) = last.value + delta := by rw [hc last rfl, hmoved]
  dsimp only at h
  split at h
  case isFalse => exact exec_ripMove h g
  next hreg =>
  split at h
  · next hzero => rw [h.unmoved (fun _ => rfl), Code.exec, hbase, ← sub_eq_zero.mp hzero]
  split at h
  · next hfits =>
    have hsum : last.value + delta + (value - last.value) = value + delta := by ring
    rw [exec_emitAddi h hreg.1 hfits, hbase, hsum]
  · exact exec_ripMove h g

theorem holds_none (delta : Value) (g : Regs) : Holds delta g none := by
  intro last h
  cases h

theorem holds_loaded {op : Op} (g : Regs) (h : op.loads unit delta = some (node, v)) :
    Holds delta (g.set (getReg node) v) (op.cacheAfter unit cache) := by
  cases op with
  | constant n value | entrypointOffset n is32 offset =>
    cases h
    cases node with
    | gprFixed i => exact holds_none _ _
    | gpr i =>
      simp only [Op.cacheAfter]
      split
      · rintro _ ⟨⟩
        simp [getReg]
      · exact holds_none _ _
  | _ => cases h

theorem Holds.writes (hc : Holds delta g cache) (hregs : regs ⊆ scratch) (values : Regs → Regs) :
    Holds delta (fun r => if r ∈ regs then values g r else g r) cache := by
  intro last hlast
  dsimp only
  rw [if_neg fun hmem => generalRegisters_not_scratch last.reg (hregs hmem)]
  exact hc last hlast

/-! ## Blocks -/

theorem forall_rebased_of_rebase (hretain : unit.retainRelocations) (h : rebaseBlock unit delta block = some block') :
    List.Forall₂ (Rebased unit delta) block block' := by
  induction block generalizing block' with
  | nil =>
    cases h
    exact .nil
  | cons item rest ih =>
    rw [rebaseBlock, List.mapM_cons] at h
    obtain ⟨item', hitem, h⟩ := Option.bind_eq_some_iff.mp h
    obtain ⟨rest', hrest, h⟩ := Option.bind_eq_some_iff.mp h
    cases h
    exact .cons (.inr ⟨hretain, hitem⟩) (ih hrest)

theorem exec_step {op : Op} (hc : Holds delta g cache) (h : Rebased unit delta (op.emit unit cache) code') :
    ∃ g', code'.exec g = some g' ∧ Holds delta g' (op.cacheAfter unit cache) ∧
      ∀ node v, op.loads unit delta = some (node, v) → g' (getReg node) = v := by
  cases op with
  | constant node value =>
    refine ⟨_, exec_emitConstant hc h, holds_loaded g rfl, ?_⟩
    rintro _ _ ⟨⟩
    exact Regs.set_self g
  | entrypointOffset node is32 offset =>
    refine ⟨_, exec_emitEntrypointOffset hc h, holds_loaded g rfl, ?_⟩
    rintro _ _ ⟨⟩
    exact Regs.set_self g
  | keepConst opcode values =>
    exact ⟨_, by rw [h.unmoved (fun _ => rfl)]; rfl, hc.writes opcode.writes_scratch values, nofun⟩
  | loadMem load values =>
    exact ⟨_, by rw [h.unmoved (fun _ => rfl)]; rfl, hc.writes (load.writes_scratch _) values, nofun⟩
  | other effect => exact ⟨effect g, by rw [h.unmoved (fun _ => rfl)]; rfl, holds_none _ _, nofun⟩

theorem execFrom_loads (hc : Holds delta g cache)
    (hb : List.Forall₂ (Rebased unit delta) (emitFrom unit cache ops) block') (hi : ops[i]? = some op) :
    ∃ g', (block'.take (i + 1)).foldlM Code.exec g = some g' ∧
      ∀ node v, op.loads unit delta = some (node, v) → g' (getReg node) = v := by
  induction ops generalizing cache g i block' with
  | nil => cases hi
  | cons first rest ih =>
    cases hb with
    | cons hitem hrest =>
      obtain ⟨g₁, hexec, hc₁, hloads⟩ := exec_step hc hitem
      rw [List.take_succ_cons, List.foldlM_cons, hexec]
      cases i with
      | zero =>
        cases hi
        exact ⟨g₁, rfl, hloads⟩
      | succ i => exact ih hc₁ hrest hi

/-- In every block, the code up to each constant and entrypoint offset leaves its value in
its register. With relocations retained, the code the relocator leaves for a guest base
moved by `delta` does the same, with every entrypoint offset moved by `delta`. -/
theorem constCache_exact (unit : CompileUnit) (ops : List Op) (g : Regs) (i : Nat) (op : Op)
    (hi : ops[i]? = some op) :
    (∃ g', ((emitBlock unit ops).take (i + 1)).foldlM Code.exec g = some g' ∧
      ∀ node v, op.loads unit 0 = some (node, v) → g' (getReg node) = v) ∧
    (unit.retainRelocations → ∀ delta block', rebaseBlock unit delta (emitBlock unit ops) = some block' →
      ∃ g', (block'.take (i + 1)).foldlM Code.exec g = some g' ∧
        ∀ node v, op.loads unit delta = some (node, v) → g' (getReg node) = v) := by
  constructor
  · exact execFrom_loads (holds_none 0 g) (List.forall₂_same.mpr fun _ _ => .inl ⟨rfl, rfl⟩) hi
  · intro hretain delta block' hblock
    exact execFrom_loads (holds_none delta g) (forall_rebased_of_rebase hretain hblock) hi

def cachedUnit : CompileUnit := ⟨0x10000, true, false, false, true⟩

/-- The third op takes its value from the first one's register, although the load between
them overwrites what it may; the fourth cannot. -/
def mixedBlock : List Op :=
  [.entrypointOffset (.gpr 0) false 4, .loadMem ⟨false, none, some (.const 0x10000), 0, 8, false⟩ fun _ _ => 7,
    .entrypointOffset (.gpr 1) false 8, .constant (.gpr 2) 0x1000c]

theorem constCache_exact_mixedBlock :
    ∃ block', rebaseBlock cachedUnit 0x20000 (emitBlock cachedUnit mixedBlock) = some block' ∧
      (∃ g', (block'.take 3).foldlM Code.exec (fun _ => 0) = some g' ∧ g' 25 = 0x30008) ∧
      ∃ g', (block'.take 4).foldlM Code.exec (fun _ => 0) = some g' ∧ g' 26 = 0x1000c := by
  have hsome : (rebaseBlock cachedUnit 0x20000 (emitBlock cachedUnit mixedBlock)).isSome := by decide +kernel
  obtain ⟨block', hblock⟩ := Option.isSome_iff_exists.mp hsome
  have hexact (i : Nat) (op : Op) (hi : mixedBlock[i]? = some op) :=
    (constCache_exact cachedUnit mixedBlock (fun _ => 0) i op hi).2 rfl 0x20000 block' hblock
  refine ⟨block', hblock, ?_, ?_⟩
  · obtain ⟨g', hexec, hloads⟩ := hexact 2 _ rfl
    exact ⟨g', hexec, hloads _ _ rfl⟩
  · obtain ⟨g', hexec, hloads⟩ := hexact 3 _ rfl
    exact ⟨g', hexec, hloads _ _ rfl⟩

end PowerArm.Ppc
