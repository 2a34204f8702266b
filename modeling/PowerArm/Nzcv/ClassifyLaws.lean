import PowerArm.Nzcv.Classify

/-!
# The classifier against the instructions

`classifyWord` is a decision tree over bit patterns (`classifyWord_eq`), so what
it answers on all words of a row is found by evaluation. Every word it calls a
writer is a flag write (`flagWrite_of_writer`), and a word it lets the scan pass
reads no flag and goes where the scan goes (`passes_of_follows`).
-/

namespace PowerArm.Nzcv

open Decode (Word parseBits)
open Lib (Pattern Tree)

/-! ## Bit fields as patterns -/

theorem shift_and_eq_iff {w m v : BitVec n} {k : Nat} (hm : m <<< k >>> k = m)
    (hv : v <<< k >>> k = v) : w >>> k &&& m = v ↔ w &&& m <<< k = v <<< k := by
  constructor
  · rintro rfl
    ext i hi
    by_cases hk : i < k
    · simp [hk]
    · simp [hk, show k + (i - k) = i by omega, hi]
  · intro h
    have hs : (w &&& m <<< k) >>> k = v <<< k >>> k := by rw [h]
    rwa [BitVec.ushiftRight_and_distrib, hm, hv] at hs

theorem shift_eq_iff {w v : BitVec n} {k : Nat} (hv : v <<< k >>> k = v) :
    w >>> k = v ↔ w &&& BitVec.allOnes n <<< k = v <<< k := by
  constructor
  · rintro rfl
    ext i hi
    by_cases hk : i < k
    · simp [hk]
    · simp [hk, show k + (i - k) = i by omega, hi]
  · intro h
    have hs : (w &&& BitVec.allOnes n <<< k) >>> k = v <<< k >>> k := by rw [h]
    rw [hv] at hs
    rw [← hs]
    ext i hi
    by_cases hn : k + i < n
    · simp [hn]
    · simp [BitVec.getLsbD_of_ge _ _ (Nat.le_of_not_lt hn)]

theorem and_masks_iff {w m m' v v' : BitVec n} (hv : (v ||| v') &&& m = v) (hv' : (v ||| v') &&& m' = v') :
    (w &&& m = v ∧ w &&& m' = v') ↔ w &&& (m ||| m') = v ||| v' := by
  constructor
  · rintro ⟨rfl, rfl⟩
    rw [BitVec.and_or_distrib_left]
  · intro h
    have hsub : ∀ x y : BitVec n, (x ||| y) &&& x = x := by
      intro x y
      ext i hi
      simp only [BitVec.getElem_and, BitVec.getElem_or]
      cases x[i] <;> cases y[i] <;> rfl
    refine ⟨?_, ?_⟩
    · rw [← hv, ← h, BitVec.and_assoc, hsub]
    · rw [← hv', ← h, BitVec.and_assoc, BitVec.or_comm m, hsub]

structure Shape where
  kind : WordClass
  lo : Nat
  len : Nat

def Shape.plain (kind : WordClass) : Shape := ⟨kind, 0, 0⟩

def Shape.at (s : Shape) (w : Word) : Classified :=
  ⟨s.kind, if s.len = 0 then 0
    else signExtend (w >>> s.lo &&& BitVec.ofNat 32 (2 ^ s.len - 1)) s.len * 4⟩

theorem Shape.at_ite (c : Prop) [Decidable c] (s t : Shape) (w : Word) :
    (if c then s else t).at w = if c then s.at w else t.at w := by
  split <;> rfl

/-- The tests of `classifyWord`, with its disjunctions and conjunctions split. -/
def classifyTree : Tree 32 Shape :=
  .node ⟨0xFC000000, 0x14000000⟩ (.leaf ⟨.branch, 0, 26⟩) <|
  .node ⟨0xFC000000, 0x94000000⟩ (.leaf ⟨.call, 0, 26⟩) <|
  .node ⟨0xFF000000, 0x54000000⟩ (.leaf (.plain .reader)) <|
  .node ⟨0x7F000000, 0x34000000⟩ (.leaf ⟨.twoway, 5, 19⟩) <|
  .node ⟨0x7F000000, 0x35000000⟩ (.leaf ⟨.twoway, 5, 19⟩) <|
  .node ⟨0x7F000000, 0x36000000⟩ (.leaf ⟨.twoway, 5, 14⟩) <|
  .node ⟨0x7F000000, 0x37000000⟩ (.leaf ⟨.twoway, 5, 14⟩) <|
  .node ⟨0xFE000000, 0xD6000000⟩ (.node ⟨0x01E00000, 0x00400000⟩ (.leaf (.plain .ret)) <|
     .node ⟨0x01E00000, 0x00800000⟩ (.leaf (.plain .ret)) <|
     .node ⟨0x01E00000, 0x00A00000⟩ (.leaf (.plain .ret)) (.leaf (.plain .term))) <|
  .node ⟨0xFF000000, 0xD4000000⟩ (.node ⟨0xFFE0001F, 0xD4000001⟩ (.leaf (.plain .svc)) (.leaf (.plain .term))) <|
  .node ⟨0xFFFFFFE0, 0xD53B4200⟩ (.leaf (.plain .reader)) <|
  .node ⟨0xFFFFFFE0, 0xD51B4200⟩ (.leaf (.plain .writer)) <|
  .node ⟨0xFFFFFFFF, 0xD500401F⟩ (.leaf (.plain .partialWriter)) <|
  .node ⟨0xFFFFFFFF, 0xD500403F⟩ (.leaf (.plain .partialWriter)) <|
  .node ⟨0xFFFFFFFF, 0xD500405F⟩ (.leaf (.plain .partialWriter)) <|
  .node ⟨0x1FE00000, 0x1A000000⟩ (.leaf (.plain .reader)) <|
  .node ⟨0x1FE00000, 0x1A400000⟩ (.leaf (.plain .reader)) <|
  .node ⟨0x1FE00000, 0x1A800000⟩ (.leaf (.plain .reader)) <|
  .node ⟨0x1F000000, 0x0B000000⟩
    (.node ⟨0x20000000, 0x20000000⟩ (.leaf (.plain .writer)) (.leaf (.plain .neutral))) <|
  .node ⟨0x1F000000, 0x0A000000⟩
    (.node ⟨0x60000000, 0x60000000⟩ (.leaf (.plain .writer)) (.leaf (.plain .neutral))) <|
  .node ⟨0xFFE07C10, 0xBA000400⟩ (.leaf (.plain .partialWriter)) <|
  .node ⟨0xFFFFFC1F, 0x3A00080D⟩ (.leaf (.plain .partialWriter)) <|
  .node ⟨0xFFFFFC1F, 0x3A00480D⟩ (.leaf (.plain .partialWriter)) <|
  .node ⟨0x1F800000, 0x11000000⟩
    (.node ⟨0x20000000, 0x20000000⟩ (.leaf (.plain .writer)) (.leaf (.plain .neutral))) <|
  .node ⟨0x1F800000, 0x12000000⟩
    (.node ⟨0x60000000, 0x60000000⟩ (.leaf (.plain .writer)) (.leaf (.plain .neutral))) <|
  .node ⟨0xDF200000, 0x1E200000⟩ (.node ⟨0x00000C00, 0x00000000⟩
      (.node ⟨0x0000FC00, 0x00002000⟩ (.leaf (.plain .writer)) (.leaf (.plain .neutral))) <|
     .node ⟨0x00000C00, 0x00000400⟩ (.leaf (.plain .reader)) <|
     .node ⟨0x00000C00, 0x00000C00⟩ (.leaf (.plain .reader)) (.leaf (.plain .neutral)))
  (.leaf (.plain .neutral))

theorem classifyWord_eq (w : Word) : classifyWord w = (classifyTree.eval w).at w := by
  have hfull : w &&& 0xFFFFFFFF#32 = w := BitVec.and_allOnes
  have hplain : ∀ kind, (Shape.plain kind).at w = ⟨kind, 0⟩ := fun _ => rfl
  have h26 : ∀ kind, Shape.at ⟨kind, 0, 26⟩ w = ⟨kind, signExtend (w &&& 0x3FFFFFF) 26 * 4⟩ :=
    fun _ => by simp [Shape.at]
  have h19 : ∀ kind, Shape.at ⟨kind, 5, 19⟩ w = ⟨kind, signExtend (w >>> 5 &&& 0x7FFFF) 19 * 4⟩ :=
    fun _ => rfl
  have h14 : ∀ kind, Shape.at ⟨kind, 5, 14⟩ w = ⟨kind, signExtend (w >>> 5 &&& 0x3FFF) 14 * 4⟩ :=
    fun _ => rfl
  simp [classifyWord, classifyTree, Tree.eval_node, Tree.eval_leaf, Shape.at_ite, hplain, h26, h19, h14, ite_or,
    shift_eq_iff, shift_and_eq_iff, and_masks_iff, hfull]

/-! ## Displacements -/

theorem xor_two_pow (h : v < 2 ^ k) : v ^^^ 2 ^ k = v + 2 ^ k := by
  have hor : v ||| 2 ^ k = v + 2 ^ k := by
    rw [Nat.or_comm, Nat.add_comm, ← Nat.mul_one (2 ^ k), ← Nat.two_pow_add_eq_or_of_lt h]
  rw [← hor]
  refine Nat.eq_of_testBit_eq fun i => ?_
  by_cases hi : k = i
  · subst hi
    simp [Nat.testBit_lt_two_pow h]
  · simp [hi]

theorem signExtend_eq (x : BitVec (k + 1)) (hk : k + 1 < 32) :
    signExtend (x.setWidth 32) (k + 1) = x.signExtend 64 := by
  have hpow : 2 ^ (k + 1) ≤ 2 ^ 31 := Nat.pow_le_pow_right (by decide) (by omega)
  have hx : (x.setWidth 32).toNat = x.toNat := by rw [BitVec.toNat_setWidth, Nat.mod_eq_of_lt (by omega)]
  have hs : (1#32 <<< k).toNat = 2 ^ k := by
    rw [BitVec.toNat_shiftLeft, BitVec.toNat_ofNat, Nat.one_shiftLeft, Nat.mod_eq_of_lt (by omega)]
  have hint : ((x.setWidth 32 ^^^ 1#32 <<< k) - 1#32 <<< k).toInt = x.toInt := by
    have hxor : (x.setWidth 32 ^^^ 1#32 <<< k).toNat =
        if x.toNat < 2 ^ k then x.toNat + 2 ^ k else x.toNat - 2 ^ k := by
      rw [BitVec.toNat_xor, hx, hs]
      split
      · rename_i h
        exact xor_two_pow h
      · have hy := xor_two_pow (v := x.toNat - 2 ^ k) (k := k) (by omega)
        rw [Nat.sub_add_cancel (by omega)] at hy
        conv_lhs => rw [← hy, Nat.xor_assoc, Nat.xor_self, Nat.xor_zero]
    rw [BitVec.toInt_eq_toNat_cond, BitVec.toInt_eq_toNat_cond, BitVec.toNat_sub, hxor]
    split <;> split <;> split <;> omega
  exact congrArg (BitVec.ofInt 64) hint

theorem field_eq (w : BitVec 32) (lo len : Nat) :
    w >>> lo &&& BitVec.ofNat 32 (2 ^ len - 1) = (w.extractLsb' lo len).setWidth 32 := by
  refine BitVec.eq_of_getLsbD_eq fun i hi => ?_
  simp only [BitVec.getLsbD_and, BitVec.getLsbD_ofNat, BitVec.getLsbD_setWidth, hi]
  simp [Bool.and_comm]

theorem Shape.at_offset (s : Shape) (w : Word) (hlen : s.len = 14 ∨ s.len = 19 ∨ s.len = 26) :
    (s.at w).offset = displacement w s.lo s.len := by
  obtain ⟨kind, lo, len⟩ := s
  dsimp only at hlen ⊢
  obtain ⟨k, rfl⟩ : ∃ k, len = k + 1 := ⟨len - 1, by omega⟩
  simp only [Shape.at, displacement, field_eq]
  rw [if_neg (Nat.succ_ne_zero k), signExtend_eq _ (by omega)]

/-! ## The rows -/

/-- What a row does is what the class says. Classes that end a scan without the
verdict DEAD say nothing. -/
def Shape.agrees (s : Shape) (uses : FlagUse) (flow : Flow) : Bool :=
  match s.kind with
  | .neutral | .svc => uses ≠ .reads && flow = .next
  | .writer => uses = .writesAll
  | .branch => uses ≠ .reads && flow = .jump s.lo s.len
  | .twoway => uses ≠ .reads && flow = .either s.lo s.len
  | .call => uses ≠ .reads && flow = .call s.lo s.len
  | .reader | .partialWriter | .ret | .term => true

/-- Only branches, calls and flag writes need a row or a reserved encoding. -/
def Shape.needsRow (s : Shape) : Bool := !s.agrees .none .next

theorem rows_checked : ((rows.all fun r => classifyTree.allows (·.agrees r.uses r.flow) r.pattern) &&
      (reserved.all (classifyTree.allows (·.kind = .writer)) &&
        classifyTree.answersWithin Shape.needsRow (rows.map (·.pattern) ++ reserved)
          [30, 23, 22, 21, 29, 4, 2, 1, 0] ⟨0, 0⟩)) := by
  decide +kernel

def Reserved (w : Word) : Prop := ∃ p ∈ reserved, p.Matches w

/-- The classifier agrees with the instructions, reserved encodings apart; those
it takes for flag writes. -/
theorem classify_agrees (w : Word) : (classifyTree.eval w).agrees (flagUse w) (flow w) ∨
      Reserved w ∧ (classifyTree.eval w).kind = .writer := by
  obtain ⟨hrows, hrest⟩ := Bool.and_eq_true_iff.mp rows_checked
  obtain ⟨hreserved, hneeds⟩ := Bool.and_eq_true_iff.mp hrest
  unfold flagUse flow
  cases hr : rowOf w with
  | some r =>
    have hmem := List.mem_of_find?_eq_some hr
    have hmatch : r.pattern.Matches w := by simpa using List.find?_some hr
    exact .inl (classifyTree.eval_of_allows (List.all_eq_true.mp hrows r hmem) hmatch)
  | none =>
    by_cases hneed : (classifyTree.eval w).needsRow
    · obtain ⟨p, hp, hmatch⟩ := classifyTree.exists_of_answersWithin hneeds (BitVec.and_zero) hneed
      rcases List.mem_append.mp hp with hp | hp
      · obtain ⟨r, hmem, rfl⟩ := List.mem_map.mp hp
        exact absurd hmatch (by simpa using List.find?_eq_none.mp hr r hmem)
      · have hwriter := classifyTree.eval_of_allows (List.all_eq_true.mp hreserved p hp) hmatch
        exact .inr ⟨⟨p, hp, hmatch⟩, of_decide_eq_true hwriter⟩
    · left
      simpa [Shape.needsRow] using hneed

/-! ## What the scan concludes from a class -/

/-- Overwrites all four flags, or has an encoding of those groups that is none. -/
def FlagWrite (w : Word) : Prop := flagUse w = .writesAll ∨ Reserved w

def follows (c : Classified) (pc : BitVec 64) : List (BitVec 64) :=
  match c.kind with
  | .neutral | .svc => [pc + 4]
  | .branch | .call => [pc + c.offset]
  | .twoway => [pc + 4, pc + c.offset]
  | .reader | .writer | .partialWriter | .ret | .term => []

theorem flagWrite_of_writer (h : (classifyWord w).kind = .writer) : FlagWrite w := by
  have hkind : (classifyTree.eval w).kind = .writer := by rwa [classifyWord_eq] at h
  rcases classify_agrees w with hag | ⟨hres, -⟩
  · left
    simpa [Shape.agrees, hkind] using hag
  · exact .inr hres

def Shape.isBranch (s : Shape) : Bool := s.kind = .branch || s.kind = .twoway || s.kind = .call

theorem classifyWord_offset (h : (classifyTree.eval w).isBranch) :
    (classifyWord w).offset = displacement w (classifyTree.eval w).lo (classifyTree.eval w).len := by
  have hall : classifyTree.allows
      (fun s => !s.isBranch || s.len = 14 || s.len = 19 || s.len = 26) ⟨0, 0⟩ := by decide
  have hlen := classifyTree.eval_of_allows hall (BitVec.and_zero (x := w))
  simp only [h, Bool.not_true, Bool.false_or, Bool.or_eq_true, decide_eq_true_eq, or_assoc] at hlen
  rw [classifyWord_eq]
  exact Shape.at_offset _ w hlen

theorem passes_of_follows (h : follows (classifyWord w) pc ≠ []) :
    flagUse w ≠ .reads ∧ flow w ≠ .leave ∧ successors pc w = follows (classifyWord w) pc := by
  have hkind : (classifyWord w).kind = (classifyTree.eval w).kind := by rw [classifyWord_eq]; rfl
  have hoffset := classifyWord_offset (w := w)
  rcases classify_agrees w with hag | ⟨-, hwriter⟩
  · unfold follows at h ⊢
    unfold Shape.agrees at hag
    unfold Shape.isBranch at hoffset
    rw [hkind] at h ⊢
    unfold successors
    cases hk : (classifyTree.eval w).kind <;> simp [hk] at h hag hoffset ⊢
    all_goals simp [hag, hoffset]
  · exact absurd (by simp [follows, hkind, hwriter]) h

end PowerArm.Nzcv
