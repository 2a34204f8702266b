import PowerArm.HostRanges.Ranges

/-!
# The host-owned ranges are exact

Over the addresses: an `Add` owns every page its range has a byte of, the snapshot
the mappings it includes from 4 GiB on. In every state the stored ranges are
separated and cover what is owned, and the bisection finds one of them exactly for
the requests that have an owned byte in one of their pages (`ranges_exact`).
Requests that wrap around are answered with a range that is not stored.
-/

namespace PowerArm.HostRanges

open PowerArm.Lib.Intervals

variable {page : HostPage} {S : SortByBase} {s : State}

/-! ## Pages -/

def Rounded (page : HostPage) (lo hi a : Nat) : Prop := ∃ x, lo ≤ x ∧ x < hi ∧ x / page.size = a / page.size

/-- The range and its last page end below the top of the address space. -/
def Fits (page : HostPage) (base size : BitVec 64) : Prop := base.toNat + size.toNat + page.size ≤ addressLimit

theorem rounded_iff (hlt : lo < hi) : Rounded page lo hi a ↔
      page.alignDown lo ≤ a ∧ a < (hi + page.size - 1) / page.size * page.size := by
  have hpos := page.size_pos
  have hup : (hi + page.size - 1) / page.size = (hi - 1) / page.size + 1 := by
    rw [show hi + page.size - 1 = hi - 1 + page.size by omega, Nat.add_div_right _ hpos]
  rw [hup, HostPage.alignDown, ← Nat.le_div_iff_mul_le hpos, ← Nat.div_lt_iff_lt_mul hpos, Nat.lt_succ_iff]
  constructor
  · rintro ⟨x, hlo, hhi, hpage⟩
    rw [← hpage]
    exact ⟨Nat.div_le_div_right hlo, Nat.div_le_div_right (by omega)⟩
  · rintro ⟨hlo, hhi⟩
    rcases Nat.eq_or_lt_of_le hlo with heq | hlt'
    · exact ⟨lo, Nat.le_refl _, hlt, heq⟩
    · refine ⟨a / page.size * page.size, ?_, ?_, Nat.mul_div_cancel _ hpos⟩
      · exact ((Nat.div_lt_iff_lt_mul hpos).mp hlt').le
      · have := (Nat.le_div_iff_mul_le hpos).mp hhi
        omega

theorem Fits.end_eq (h : Fits page base size) : page.alignUp (base + size).toNat =
      (base.toNat + size.toNat + page.size - 1) / page.size * page.size := by
  have hpos := page.size_pos
  have hsum : (base + size).toNat = base.toNat + size.toNat := by
    rw [BitVec.toNat_add]
    unfold Fits addressLimit at h
    omega
  rw [HostPage.alignUp, hsum, Nat.mod_eq_of_lt (by unfold Fits addressLimit at h; omega), HostPage.alignDown]

theorem Fits.rounded_iff (h : Fits page base size) (hsize : size ≠ 0) :
    Rounded page base.toNat (base.toNat + size.toNat) a ↔
      page.alignDown base.toNat ≤ a ∧ a < page.alignUp (base + size).toNat := by
  have hpos : size.toNat ≠ 0 := fun h0 => hsize (BitVec.eq_of_toNat_eq h0)
  rw [HostRanges.rounded_iff (by omega), h.end_eq]

theorem Fits.start_lt (h : Fits page base size) (hsize : size ≠ 0) :
    page.alignDown base.toNat < page.alignUp (base + size).toNat := by
  have hself : Rounded page base.toNat (base.toNat + size.toNat) base.toNat := by
    have hpos : size.toNat ≠ 0 := fun h0 => hsize (BitVec.eq_of_toNat_eq h0)
    exact ⟨base.toNat, Nat.le_refl _, by omega, rfl⟩
  obtain ⟨hlo, hhi⟩ := (h.rounded_iff hsize).mp hself
  omega

/-! ## The stored ranges -/

abbrev Stored (ranges : List Range) (a : Nat) : Prop := Covers Range.base Range.stop ranges a

structure Tidy (s : State) : Prop where
  separated : Separated Range.base Range.stop s.ranges
  count : s.rangeCount = s.ranges.length

theorem joining : Joining Range.base Range.stop joins merge where
  overlap := by
    intro r r' h
    simp [joins, h]
  touch := by
    intro r r' h
    simp only [joins, Bool.or_eq_true, decide_eq_true_eq, Bool.and_eq_true, beq_iff_eq] at h
    omega
  lo_merge := fun _ _ => rfl
  hi_merge := fun _ _ => rfl

theorem sortAndCoalesceLocked_spec (S : SortByBase) (s : State) (hproper : Proper Range.base Range.stop s.ranges) :
    Tidy (sortAndCoalesceLocked S s) ∧ ∀ a, Stored (sortAndCoalesceLocked S s).ranges a ↔ Stored s.ranges a := by
  have hsorted : Proper Range.base Range.stop (S.sort s.ranges) := fun r hr =>
    hproper r ((S.perm s.ranges).mem_iff.mp hr)
  refine ⟨⟨coalesce_separated joining hsorted (S.sorted s.ranges), rfl⟩, fun a => ?_⟩
  exact (coalesce_covers joining hsorted (S.sorted s.ranges) a).trans (covers_perm (S.perm s.ranges))

theorem addLocked_spec (base stop : Nat) (w : Bool) (hproper : Proper Range.base Range.stop l) :
    Proper Range.base Range.stop (addLocked l base stop w) ∧
      ∀ a, Stored (addLocked l base stop w) a ↔ Stored l a ∨ base ≤ a ∧ a < stop := by
  unfold addLocked
  split
  · next hempty =>
    refine ⟨hproper, fun a => ?_⟩
    constructor
    · exact .inl
    · rintro (h | ⟨hlo, hhi⟩)
      · exact h
      · omega
  · next hlt =>
    constructor
    · intro r hr
      rcases List.mem_append.mp hr with hr | hr
      · exact hproper r hr
      · obtain rfl := List.mem_singleton.mp hr
        exact Nat.not_le.mp hlt
    · simp [Has]

theorem foldl_stored {f : List Range → ι → List Range} {P : ι → Nat → Prop}
    (hstep : ∀ l i, Proper Range.base Range.stop l → Proper Range.base Range.stop (f l i) ∧
      ∀ a, Stored (f l i) a ↔ Stored l a ∨ P i a) (is : List ι) (l : List Range)
    (hproper : Proper Range.base Range.stop l) :
    Proper Range.base Range.stop (is.foldl f l) ∧ ∀ a, Stored (is.foldl f l) a ↔ Stored l a ∨ ∃ i ∈ is, P i a := by
  induction is generalizing l with
  | nil => exact ⟨hproper, by simp⟩
  | cons i is ih =>
    obtain ⟨hp₁, hc₁⟩ := hstep l i hproper
    obtain ⟨hp, hc⟩ := ih _ hp₁
    refine ⟨hp, fun a => ?_⟩
    rw [List.foldl_cons, hc a, hc₁ a]
    simp [exists_eq_or_imp, or_assoc]

theorem addParsed_spec (l : List Range) (r : Range) (hproper : Proper Range.base Range.stop l) :
    Proper Range.base Range.stop (addParsed l r) ∧ ∀ a, Stored (addParsed l r) a ↔
      Stored l a ∨ r.base ≤ a ∧ a < r.stop ∧ firstGuardedAddress ≤ a := by
  unfold addParsed
  split
  · next hlow =>
    refine ⟨hproper, fun a => ⟨.inl, ?_⟩⟩
    rintro (h | ⟨-, hhi, hguard⟩)
    · exact h
    · omega
  · obtain ⟨hp, hc⟩ := addLocked_spec (max r.base firstGuardedAddress) r.stop r.mayWrite hproper
    refine ⟨hp, fun a => (hc a).trans ?_⟩
    rw [max_le_iff]
    tauto

theorem addHook_spec (l : List Range) (e : BitVec 64 × BitVec 64) (hproper : Proper Range.base Range.stop l) :
    Proper Range.base Range.stop (addHook l e) ∧ ∀ a, Stored (addHook l e) a ↔
      Stored l a ∨ e.1.toNat ≤ a ∧ a < e.2.toNat :=
  addLocked_spec e.1.toNat e.2.toNat true hproper

/-! ## What is owned -/

def Contributes (page : HostPage) (snapshotted : Bool) : Op → Nat → Prop
  | .add base size, a => Rounded page base.toNat (base.toNat + size.toNat) a
  | .snapshot maps hook, a => snapshotted = false ∧ ∃ parsed, parseSelfMaps maps = some parsed ∧
      ((∃ r ∈ parsed, r.base ≤ a ∧ a < r.stop ∧ firstGuardedAddress ≤ a) ∨
        ∃ e ∈ hook, e.1.toNat ≤ a ∧ a < e.2.toNat)

def Op.isSnapshot : Op → Bool
  | .add .. => false
  | .snapshot .. => true

def Owned (page : HostPage) : Bool → List Op → Nat → Prop
  | _, [], _ => False
  | snapshotted, op :: ops, a => Contributes page snapshotted op a ∨ Owned page (snapshotted || op.isSnapshot) ops a

def Op.Fits (page : HostPage) : Op → Prop
  | .add base size => HostRanges.Fits page base size
  | .snapshot .. => True

structure Adds (page : HostPage) (s s' : State) (op : Op) : Prop where
  tidy : Tidy s'
  stored : ∀ a, Stored s'.ranges a ↔ Stored s.ranges a ∨ Contributes page s.snapshotted op a
  snapshotted : s'.snapshotted = (s.snapshotted || op.isSnapshot)

theorem add_adds (h : Tidy s) (hfit : Fits page base size) :
    Adds page s (add page S s base size) (.add base size) := by
  unfold add
  split
  · next hzero =>
    subst hzero
    refine ⟨h, fun a => ⟨.inl, ?_⟩, by simp [Op.isSnapshot]⟩
    rintro (hold | ⟨x, hlo, hhi, -⟩)
    · exact hold
    · simp at hhi
      omega
  · next hsize =>
    obtain ⟨hp, hc⟩ := addLocked_spec (page.alignDown base.toNat) (page.alignUp (base + size).toNat)
      true h.separated.proper
    obtain ⟨htidy, hstored⟩ := sortAndCoalesceLocked_spec S { s with ranges := addLocked .. } hp
    refine ⟨htidy, fun a => ?_, by simp [sortAndCoalesceLocked, Op.isSnapshot]⟩
    rw [hstored a, hc a, Contributes, hfit.rounded_iff hsize]

theorem snapshotSelf_adds (h : Tidy s) : Adds page s (snapshotSelf S s maps hook) (.snapshot maps hook) := by
  unfold snapshotSelf
  split
  · next hdone => exact ⟨h, by simp [Contributes, hdone], by simp [hdone]⟩
  · next hfirst =>
    have hfalse : s.snapshotted = false := by simpa using hfirst
    cases hparse : parseSelfMaps maps with
    | none => exact ⟨⟨h.separated, h.count⟩, by simp [Contributes, hparse], by simp [Op.isSnapshot]⟩
    | some parsed =>
      obtain ⟨hp₁, hc₁⟩ := foldl_stored addParsed_spec parsed s.ranges h.separated.proper
      obtain ⟨hp₂, hc₂⟩ := foldl_stored addHook_spec hook _ hp₁
      obtain ⟨htidy, hstored⟩ := sortAndCoalesceLocked_spec S { s with
        snapshotted := true
        ranges := hook.foldl addHook (parsed.foldl addParsed s.ranges) } hp₂
      refine ⟨htidy, fun a => ?_, by simp [sortAndCoalesceLocked, Op.isSnapshot]⟩
      rw [hstored a]
      refine (hc₂ a).trans ?_
      rw [hc₁ a, or_assoc]
      simp [Contributes, hfalse, hparse]

theorem step_adds (h : Tidy s) (hfit : op.Fits page) : Adds page s (step page S s op) op := by
  cases op with
  | add base size => exact add_adds h hfit
  | snapshot maps hook => exact snapshotSelf_adds h

theorem run_owned (ops : List Op) : ∀ s, Tidy s → (∀ op ∈ ops, op.Fits page) → Tidy (ops.foldl (step page S) s) ∧
      ∀ a, Stored (ops.foldl (step page S) s).ranges a ↔ Stored s.ranges a ∨ Owned page s.snapshotted ops a := by
  induction ops with
  | nil => exact fun s h _ => ⟨h, by simp [Owned]⟩
  | cons op ops ih =>
    intro s h hfit
    have hadds : Adds page s (step page S s op) op := step_adds h (hfit op (List.mem_cons_self ..))
    obtain ⟨htidy, hstored⟩ := ih _ hadds.tidy fun o ho => hfit o (List.mem_cons_of_mem _ ho)
    refine ⟨htidy, fun a => ?_⟩
    rw [List.foldl_cons, hstored a, hadds.stored a, hadds.snapshotted, Owned, or_assoc]

/-! ## FindOverlap -/

theorem baseAt_of_getElem? (hr : s.ranges[i]? = some r) : s.baseAt i = r.base := by simp [State.baseAt, hr]

theorem Tidy.baseAt_mono (h : Tidy s) (hij : i ≤ j) (hj : j < s.ranges.length) : s.baseAt i ≤ s.baseAt j := by
  have hgi := List.getElem?_eq_getElem (l := s.ranges) (i := i) (by omega)
  have hgj := List.getElem?_eq_getElem hj
  rw [baseAt_of_getElem? hgi, baseAt_of_getElem? hgj]
  rcases Nat.eq_or_lt_of_le hij with rfl | hlt
  · exact Nat.le_refl _
  · have hproper := h.separated.proper _ (List.mem_of_getElem? hgi)
    exact hproper.le.trans (h.separated.lo_le hgi hgj hlt)

theorem Tidy.search_spec (h : Tidy s) (hlt : start < stop) :
    (s.search start stop ∈ s.ranges ∧ Meets Range.base Range.stop (s.search start stop) start stop) ∨
      (s.search start stop = noRange ∧ ∀ r ∈ s.ranges, ¬Meets Range.base Range.stop r start stop) := by
  obtain ⟨hk, hbelow, habove⟩ := upperBound_spec (fun i => decide (start < s.baseAt i))
    s.ranges.length fun i j hij hj hi => by
      have := h.baseAt_mono hij hj
      simp only [decide_eq_true_eq] at hi ⊢
      omega
  unfold State.search
  generalize upperBound (fun i => decide (start < s.baseAt i)) s.ranges.length = k at hk hbelow habove
  have hlow : ∀ i r, i < k → s.ranges[i]? = some r → r.base ≤ start := by
    intro i r hi hr
    simpa [baseAt_of_getElem? hr] using hbelow i hi
  have hhigh : ∀ i r, k ≤ i → s.ranges[i]? = some r → start < r.base := by
    intro i r hi hr
    simpa [baseAt_of_getElem? hr] using habove i hi (List.getElem?_eq_some_iff.mp hr).1
  have hmeets : ∀ r ∈ s.ranges, start < r.stop → r.base < stop →
      Meets Range.base Range.stop r start stop := fun r hr h₁ h₂ =>
    (meets_iff (h.separated.proper r hr) hlt).mpr ⟨h₁, h₂⟩
  dsimp only
  split
  · next r hbefore =>
    split at hbefore
    · cases hbefore
    · obtain ⟨hget, htest⟩ := Option.filter_eq_some_iff.mp hbefore
      have hmem := List.mem_of_getElem? hget
      simp only [decide_eq_true_eq] at htest
      exact .inl ⟨hmem, hmeets r hmem htest.1 htest.2⟩
  · next hbefore =>
    cases hat : s.ranges[k]?.filter fun r => decide (r.base < stop) with
    | some r =>
      obtain ⟨hget, htest⟩ := Option.filter_eq_some_iff.mp hat
      have hmem := List.mem_of_getElem? hget
      have hstop := h.separated.proper r hmem
      refine .inl ⟨hmem, hmeets r hmem ((hhigh k r (Nat.le_refl _) hget).trans hstop) ?_⟩
      simpa using htest
    | none =>
      refine .inr ⟨rfl, fun r hr hmeet => ?_⟩
      rcases h.separated.meets_split hlt hk hlow hhigh hr hmeet with ⟨q, hpos, hget, h₁, h₂⟩ | ⟨q, hget, h₂⟩
      · simp [Nat.ne_of_gt hpos, hget, Option.filter, h₁, h₂] at hbefore
      · simp [hget, Option.filter, h₂] at hat

/-- The answer to a request: a stored range with a byte in one of its pages, or none
because nothing owned is there. -/
inductive Answers (page : HostPage) (s : State) (owned : Nat → Prop) (base size : BitVec 64) :
    Range → Prop
  | found (hr : r ∈ s.ranges) (ha : Rounded page base.toNat (base.toNat + size.toNat) a)
      (hhas : Has Range.base Range.stop r a) : Answers page s owned base size r
  | clear (h : ∀ a, Rounded page base.toNat (base.toNat + size.toNat) a → ¬owned a) :
      Answers page s owned base size noRange

theorem Tidy.findOverlap_answers (h : Tidy s) (howned : ∀ a, Stored s.ranges a ↔ owned a)
    (hfit : Fits page base size) : Answers page s owned base size (findOverlap page s base size) := by
  unfold findOverlap
  split
  · next hnone =>
    refine .clear fun a ha hown => ?_
    rcases hnone with hcount | hzero
    · obtain ⟨r, hr, -⟩ := (howned a).mpr hown
      rw [h.count, List.length_eq_zero_iff] at hcount
      simp [hcount] at hr
    · obtain ⟨x, hlo, hhi, -⟩ := ha
      subst hzero
      simp at hhi
      omega
  · next hsome =>
    have hsize : size ≠ 0 := fun hz => hsome (.inr hz)
    have hlt := hfit.start_lt hsize
    rw [if_neg (Nat.not_le.mpr hlt)]
    rcases h.search_spec hlt with ⟨hmem, a, hhas, hstart, hstop⟩ | ⟨heq, hclear⟩
    · exact .found hmem ((hfit.rounded_iff hsize).mpr ⟨hstart, hstop⟩) hhas
    · rw [heq]
      refine .clear fun a ha hown => ?_
      obtain ⟨r, hr, hhas⟩ := (howned a).mpr hown
      obtain ⟨hstart, hstop⟩ := (hfit.rounded_iff hsize).mp ha
      exact hclear r hr ⟨a, hhas, hstart, hstop⟩

/-- After every list of calls: the stored ranges are sorted, non-empty and disjoint,
they cover what is owned, and requests are answered from them. -/
theorem ranges_exact (page : HostPage) (S : SortByBase) (ops : List Op) (hfit : ∀ op ∈ ops, op.Fits page) :
    Separated Range.base Range.stop (run page S ops).ranges ∧
      (∀ a, Stored (run page S ops).ranges a ↔ Owned page false ops a) ∧
      ∀ base size, Fits page base size → Answers page (run page S ops) (Owned page false ops) base size
          (findOverlap page (run page S ops) base size) := by
  have hinit : Tidy {} := ⟨⟨by simp [Proper], by simp⟩, rfl⟩
  obtain ⟨htidy, hstored⟩ : Tidy (run page S ops) ∧ ∀ a, Stored (run page S ops).ranges a ↔
      Stored [] a ∨ Owned page false ops a := run_owned ops {} hinit hfit
  have howned : ∀ a, Stored (run page S ops).ranges a ↔ Owned page false ops a := fun a =>
    (hstored a).trans (by simp)
  exact ⟨htidy.separated, howned, fun base size h => htidy.findOverlap_answers howned h⟩

def sortByInsertion : SortByBase where
  sort := List.insertionSort fun r r' => r.base ≤ r'.base
  perm := List.perm_insertionSort _
  sorted := by
    have htotal : Std.Total fun r r' : Range => r.base ≤ r'.base := ⟨fun r r' => Nat.le_total ..⟩
    have htrans : IsTrans Range fun r r' => r.base ≤ r'.base := ⟨fun _ _ _ => Nat.le_trans⟩
    exact List.pairwise_insertionSort _

def startup : List Op :=
  [.snapshot (some [⟨0x20000000, 0x20010000, ['[', 'h', 'e', 'a', 'p', ']']⟩,
      ⟨0x13f800000, 0x13ff00000, ['/', 'p']⟩, ⟨0x13ff00000, 0x13ff10000, []⟩,
      ⟨0x150000000, 0x150010000, []⟩]) [],
    .add 0x3fffff001234 0x2000, .snapshot none []]

theorem ranges_exact_startup : Separated Range.base Range.stop (run page64K sortByInsertion startup).ranges ∧
      (∀ a, Stored (run page64K sortByInsertion startup).ranges a ↔ Owned page64K false startup a) ∧
      ∀ base size, Fits page64K base size →
        Answers page64K (run page64K sortByInsertion startup) (Owned page64K false startup) base size
          (findOverlap page64K (run page64K sortByInsertion startup) base size) :=
  ranges_exact page64K sortByInsertion startup (by
    intro op hop
    simp only [startup, List.mem_cons, List.not_mem_nil, or_false] at hop
    rcases hop with rfl | rfl | rfl
    · trivial
    · show Fits page64K 0x3fffff001234 0x2000
      unfold Fits
      decide
    · trivial)

/-- The two ranges of `startup`: image and `.bss` are one. -/
example : (run page64K sortByInsertion startup).ranges =
    [⟨0x13f800000, 0x13ff10000, true⟩, ⟨0x3fffff000000, 0x3fffff010000, true⟩] := by
  decide

def imageOnly : State := run page64K sortByInsertion [.add 0x140000000 0x1000]

/-- A request that wraps is answered with a range that is not stored, or not at all
when the wrapped end is past its start; a range that ends at the top is not added. -/
theorem wrapped_not_exact : findOverlap page64K imageOnly 0xfffffffffffff000 0x2000 =
        ⟨0xffffffffffff0000, 0xffffffffffffffff, true⟩ ∧
      ⟨0xffffffffffff0000, 0xffffffffffffffff, true⟩ ∉ imageOnly.ranges ∧
      findOverlap page64K imageOnly 0x10005 0xfffffffffffffffe = noRange ∧
      (run page64K sortByInsertion [.add 0xffffffffffff0000 0x10000]).ranges = [] := by
  decide

/-! ## Mappings that nobody may write -/

def Sealed (l : List Range) (a : Nat) : Prop := ∃ r ∈ l, r.mayWrite = false ∧ Has Range.base Range.stop r a

theorem Sealed.coalesce (h : Sealed l a) (hsub : l ⊆ s.ranges) (hproper : Proper Range.base Range.stop s.ranges) :
    Sealed (sortAndCoalesceLocked S s).ranges a := by
  obtain ⟨r, hr, hsealed⟩ := h
  have hinit : Coalesced Range.base Range.stop [] [] (S.sort s.ranges) := ⟨by simp [Proper], by simp, by simp, by simp⟩
  obtain ⟨q, hq, hseal⟩ := coalesced_exists joining (P := fun r => r.mayWrite = false ∧ Has Range.base Range.stop r a)
    (fun r r' hle => by simp only [merge, Has]; grind) hinit (fun r hr => hproper r ((S.perm s.ranges).mem_iff.mp hr))
    (S.sorted s.ranges)
    ⟨r, (S.perm s.ranges).mem_iff.mpr (hsub hr), hsealed⟩
  exact ⟨q, List.mem_reverse.mpr hq, hseal⟩

theorem subset_addLocked (l : List Range) (base stop : Nat) (w : Bool) : l ⊆ addLocked l base stop w := by
  unfold addLocked
  split <;> simp

theorem subset_addParsed (l : List Range) (r : Range) : l ⊆ addParsed l r := by
  unfold addParsed
  split
  · exact List.Subset.refl l
  · exact subset_addLocked ..

theorem subset_foldl {f : List Range → ι → List Range} (h : ∀ l i, l ⊆ f l i) (is : List ι) (l : List Range) :
    l ⊆ is.foldl f l := by
  induction is generalizing l with
  | nil => exact List.Subset.refl l
  | cons i is ih => exact List.Subset.trans (h l i) (ih (f l i))

theorem Sealed.step (hsealed : Sealed s.ranges a) (h : Tidy s) (op : Op) : Sealed (step page S s op).ranges a := by
  cases op with
  | add base size =>
    rw [HostRanges.step, add]
    split
    · exact hsealed
    · exact hsealed.coalesce (subset_addLocked ..) (addLocked_spec _ _ _ h.separated.proper).1
  | snapshot maps hook =>
    rw [HostRanges.step, snapshotSelf]
    split
    · exact hsealed
    · cases parseSelfMaps maps with
      | none => exact hsealed
      | some parsed =>
        have hparsed := (foldl_stored addParsed_spec parsed s.ranges h.separated.proper).1
        refine hsealed.coalesce (List.Subset.trans (subset_foldl subset_addParsed parsed _) ?_)
          (foldl_stored addHook_spec hook _ hparsed).1
        exact subset_foldl (fun _ _ => subset_addLocked ..) ..

/-- An address in a range that nobody may write, as `[vvar]` is, is never again in one that
may be written, whatever is added over it. -/
theorem readOnly_kept (page : HostPage) (S : SortByBase) (before after : List Op)
    (hfit : ∀ op ∈ before ++ after, op.Fits page) (hsealed : Sealed (run page S before).ranges a) :
    ∀ r ∈ (run page S (before ++ after)).ranges, Has Range.base Range.stop r a → r.mayWrite = false := by
  rw [List.forall_mem_append] at hfit
  obtain ⟨hbefore, hafter⟩ := hfit
  have hrun : ∀ s : State, Tidy s → Sealed s.ranges a →
      Tidy (after.foldl (step page S) s) ∧ Sealed (after.foldl (step page S) s).ranges a := by
    induction after with
    | nil => exact fun s h hs => ⟨h, hs⟩
    | cons op after ih =>
      obtain ⟨hop, hafter⟩ := List.forall_mem_cons.mp hafter
      exact fun s h hs => ih hafter _ (step_adds h hop).tidy (hs.step h op)
  have hinit : Tidy {} := ⟨⟨by simp [Proper], by simp⟩, rfl⟩
  obtain ⟨htidy, q, hq, hseal, hqa⟩ := hrun _ (run_owned before {} hinit hbefore).1 hsealed
  rw [run, List.foldl_append]
  intro r hr ha
  -- the stored ranges are apart, so only one of them has the address
  obtain ⟨-, hends⟩ | ⟨t, -, -, ht, hothers⟩ := htidy.separated.search_hi a
  · exact absurd (hends r hr) (Nat.not_le.mpr ha.2)
  · have hsame {p : Range} (h : p = t ∨ p.stop ≤ a ∨ t.stop ≤ p.base) (hp : Has Range.base Range.stop p a) : p = t :=
      h.resolve_right fun h => by unfold Has at hp; omega
    rw [hsame (hothers r hr) ha, ← hsame (hothers q hq) hqa, hseal]

def vvar : Op := .snapshot (some [⟨0x150000000, 0x150010000, "[vvar]".toList⟩]) []

/-- An `Add` over the page behind makes one range of both. -/
theorem readOnly_kept_vvar :
    ∃ r ∈ (run page64K sortByInsertion ([vvar] ++ [.add 0x150000000 0x20000])).ranges, r.mayWrite = false :=
  ⟨⟨0x150000000, 0x150020000, false⟩, by decide,
    readOnly_kept (a := 0x150000000) page64K sortByInsertion [vvar] [.add 0x150000000 0x20000]
      (by simp [vvar, Op.Fits, Fits, page64K, HostPage.size, addressLimit])
      ⟨⟨0x150000000, 0x150010000, false⟩, by decide, rfl, by simp [Has]⟩ _ (by decide) (by simp [Has])⟩

end PowerArm.HostRanges
