import PowerArm.CodeCache.InstallLaws

/-!
# What the relocator leaves behind

The words and fields each relocation writes, when the relocator succeeds:
`patchLink_gives` for a link record, `relocateOther_gives` for a literal and a
guest RIP move.
-/

namespace PowerArm.CodeCache

open Lib

/-! ## Reading by block offset -/

def blockNumber (hot cold : Span) (m : Mem) (x n : Nat) : Nat := m.number (placed hot cold x) n

def OneSide (hot : Span) (x n : Nat) : Prop := x + n ≤ hot.size ∨ hot.size ≤ x

theorem placed_add (h : OneSide hot x n) (hi : i < n) : placed hot cold x + i = placed hot cold (x + i) := by
  rcases h with h | h
  · rw [placed_hot (by omega), placed_hot (by omega), Nat.add_assoc]
  · rw [placed_cold h, placed_cold (by omega)]
    omega

section
variable (hk : Kept (Footprint hot cold relocs) m m') (hap : Apart hot cold) (hside : OneSide hot x n)
  (hclear : ∀ r ∈ relocs, ∀ w ∈ r.kind.writes r.offset, Span.Clear w ⟨x, n⟩)
include hk hap hside hclear

theorem Kept.block :
    ∀ i < n, m' (placed hot cold x + i) = m (placed hot cold x + i) := by
  intro i hi
  rw [placed_add hside hi]
  apply hk
  rintro ⟨r, hr, y, ⟨w, hw, hy⟩, _, heq⟩
  have hxy := placed_inj hap heq
  have hclr := hclear r hr w hw
  unfold Span.Clear at hclr
  unfold Span.Has at hy
  simp only at hclr
  omega

theorem blockNumber_kept :
    blockNumber hot cold m' x n = blockNumber hot cold m x n :=
  number_shift (Kept.block hk hap hside hclear)

end

/-! ## Link records -/

def LinkRecord.caller (l : LinkRecord) (record : Nat) : Nat := (record + l.callerDelta).toNat
def LinkRecord.thunk (l : LinkRecord) (record : Nat) : Nat := (record + l.thunkDelta).toNat
def LinkRecord.linkBranch (l : LinkRecord) (record : Nat) : Nat := (record + l.linkBranchDelta).toNat

def offsetField (hot cold : Span) (record : Nat) (delta : Int) (tag : Nat) : Nat :=
  if delta ≠ 0 then int64 (hot.base + (record + delta) - placed hot cold record) ||| tag else 0

theorem int64_lt (v : Int) : int64 v < 2 ^ 64 := by
  unfold int64
  omega

theorem offsetField_lt (htag : tag < 2 ^ 64) : offsetField hot cold record delta tag < 256 ^ 8 := by
  unfold offsetField
  split
  · exact Nat.or_lt_two_pow (int64_lt _) htag
  · decide

def linkBranchDelta (hot cold : Span) (record : Nat) (l : LinkRecord) : Int :=
  (placed hot cold (l.thunk record) + 0x14 : Nat) - (placed hot cold (l.linkBranch record) : Int)

structure LinkPlace (hot cold : Span) (record : Nat) (l : LinkRecord) : Prop where
  record_lo : hot.size ≤ record
  record_hi : record + 56 ≤ hot.size + cold.size
  thunk : (hot.size : Int) ≤ record + l.thunkDelta
  caller : 0 ≤ record + l.callerDelta ∧ record + l.callerDelta + 4 ≤ hot.size
  linkBranch : 0 ≤ record + l.linkBranchDelta ∧ record + l.linkBranchDelta + 4 ≤ hot.size
  inRange : branchDisplacementInRange (linkBranchDelta hot cold record l)

/-- The record and its words as the relocator leaves them, the caller word apart. -/
structure LinkDone (hot cold : Span) (record : Nat) (l : LinkRecord) (m : Mem) : Prop where
  branch : blockNumber hot cold m (l.linkBranch record) 4 =
    encodeBranch (linkBranchDelta hot cold record l) % 256 ^ 4
  hostCode : blockNumber hot cold m record 8 = 0
  thunkWord : blockNumber hot cold m (l.thunk record) 4 = l.origThunkWord
  callerOffset : blockNumber hot cold m (record + 16) 8 =
    int64 (placed hot cold (l.caller record) - placed hot cold record) % 256 ^ 8
  callerWord : blockNumber hot cold m (record + 24) 4 = (if l.caller record = l.linkBranch record then
      encodeBranch (linkBranchDelta hot cold record l) else l.origCallerWord) % 256 ^ 4
  origThunkWord : blockNumber hot cold m (record + 28) 4 = l.origThunkWord % 256 ^ 4
  linkedEntry : blockNumber hot cold m (record + 40) 8 = offsetField hot cold record l.linkedEntryDelta 0 % 256 ^ 8
  final : blockNumber hot cold m (record + 48) 8 =
    offsetField hot cold record l.finalDelta (if l.finalPlainBranch ≠ 0 then 1 else 0) % 256 ^ 8

section
variable {host : Host} {hot cold : Span} {m : Mem} {l : LinkRecord}

theorem patchOffset_gives (h : Q () (m.put field (numberBytes 8 (offsetField hot cold record delta tag)))) :
    Gives (patchOffset hot cold field (placed hot cold record) record delta tag) m Q := by
  unfold patchOffset
  unfold offsetField at h
  split
  · next hne =>
    apply Gives.bind_require
    intro _
    apply Gives.store
    rwa [if_pos hne] at h
  · next hzero =>
    apply Gives.store
    rwa [if_neg hzero] at h

theorem unlinkedCallerWord_gives (h : Q (if caller = linkBranch then m.number caller 4 else orig) m) :
    Gives (unlinkedCallerWord hot cold caller linkBranch orig) m Q := by
  unfold unlinkedCallerWord
  split
  · next heq =>
    rw [if_pos heq] at h
    exact Gives.load h
  · next hne =>
    rw [if_neg hne] at h
    exact Gives.pure h

theorem patchLink_gives (hap : Apart hot cold) (hthunk : l.thunkDelta = -0x38) :
    Gives (patchLink host hot cold record l) m fun _ m' =>
      LinkPlace hot cold record l ∧ LinkDone hot cold record l m' := by
  unfold patchLink
  apply Gives.bind_require
  intro hoff
  apply Gives.bind_require
  intro hrec
  apply Gives.bind_require
  intro hth
  apply Gives.bind_require
  intro hcaller
  apply Gives.bind_require
  intro hbranch
  unfold linkRecordSize at hrec
  -- the addresses of the source are those of the block offsets
  have hrecord : cold.base + (record - hot.size) = placed hot cold record := (placed_cold hoff.1).symm
  have hthunkAt : cold.base + (((record - hot.size : Nat) : Int) + l.thunkDelta).toNat =
      placed hot cold (l.thunk record) := by
    unfold LinkRecord.thunk
    rw [placed_cold (by omega)]
    omega
  have hcallerAt : hot.base + ((record : Int) + l.callerDelta).toNat =
      placed hot cold (l.caller record) := (placed_hot (by omega)).symm
  have hbranchAt : hot.base + ((record : Int) + l.linkBranchDelta).toNat = placed hot cold (l.linkBranch record) :=
    (placed_hot (by omega)).symm
  rw [hrecord, hthunkAt, hcallerAt, hbranchAt]
  apply Gives.bind_load
  apply Gives.bind_load
  apply Gives.bind_require
  intro hunlinked
  apply Gives.bind_require
  intro hrange
  apply Gives.bind_store
  apply Gives.bind_store
  apply Gives.bind
  apply unlinkedCallerWord_gives
  apply Gives.bind_store
  apply Gives.bind_store
  apply Gives.bind_store
  apply Gives.bind
  apply patchOffset_gives
  apply patchOffset_gives
  have hfield (k : Nat) : placed hot cold (record + k) = placed hot cold record + k := by
    rw [placed_cold (by omega), placed_cold hoff.1]
    omega
  have hsame : placed hot cold (l.caller record) = placed hot cold (l.linkBranch record) ↔
      l.caller record = l.linkBranch record := ⟨placed_inj hap, congrArg _⟩
  unfold Apart at hap
  have hthunkLo : placed hot cold (l.thunk record) + 56 = placed hot cold record := by omega
  have hcallerHi : placed hot cold (l.caller record) + 4 ≤ cold.base := by omega
  have hbranchHi : placed hot cold (l.linkBranch record) + 4 ≤ cold.base := by omega
  have hthunkCold : cold.base ≤ placed hot cold (l.thunk record) := by omega
  refine ⟨⟨hoff.1, by omega, by omega, hcaller, hbranch, hrange⟩, ?_⟩
  clear hoff hrec hth hcaller hbranch hrecord hthunkAt hcallerAt hbranchAt
  constructor <;> unfold blockNumber <;>
    simp (disch := omega) only [hfield, linkBranchDelta, number_put_away, number_put]
  · exact hunlinked.1
  · exact hunlinked.2
  · simp only [hsame]
    split
    · next heq =>
      rw [heq]
      simp (disch := omega) only [number_put, Nat.mod_mod]
    · rfl

end

/-! ## Literals and moves -/

def wordsAt (m : Mem) (a : Nat) : Nat → List Ppc.Word
  | 0 => []
  | n + 1 => BitVec.ofNat 32 (m.number a 4) :: wordsAt m (a + 4) n

theorem wordsAt_congr (h : ∀ i < n * 4, m' (a + i) = m (a + i)) : wordsAt m' a n = wordsAt m a n := by
  induction n generalizing a with
  | zero => rfl
  | succ n ih =>
    have hhead : m'.number a 4 = m.number a 4 := number_shift fun i hi => h i (by omega)
    have htail : wordsAt m' (a + 4) n = wordsAt m (a + 4) n := by
      apply ih
      intro i hi
      rw [Nat.add_assoc]
      exact h (4 + i) (by omega)
    rw [wordsAt, wordsAt, hhead, htail]

theorem wordsAt_put (m : Mem) (a : Nat) (words : List Ppc.Word) :
    wordsAt (m.put a (wordBytes words)) a words.length = words := by
  induction words generalizing m a with
  | nil => rfl
  | cons w ws ih =>
    have hbytes : wordBytes (w :: ws) = numberBytes 4 w.toNat ++ wordBytes ws := rfl
    have hword : w.toNat % 256 ^ 4 = w.toNat := Nat.mod_eq_of_lt w.isLt
    rw [hbytes, put_append, numberBytes_length, List.length_cons, wordsAt, ih,
      number_put_outside _ _ (.inl (Nat.le_refl _)), number_put, hword]
    simp

def moveWords (disableShiftedImm32 : Bool) (register instructions rip : Nat) : List Ppc.Word :=
  if instructions = 0 then
    Ppc.loadImm64Fixed (BitVec.ofNat 32 register) (BitVec.ofNat 64 rip)
  else
    paddedMove (Ppc.loadImm64 disableShiftedImm32 (BitVec.ofNat 32 register) (BitVec.ofNat 64 rip))
      (instructions * 4)

def Relocation.Done (host : Host) (guestEntry : Nat) (hot cold : Span) (r : Relocation) (m : Mem) : Prop :=
  match r.kind with
  | .guestRIPLiteral rip =>
    OneSide hot r.offset 8 ∧ blockNumber hot cold m r.offset 8 = (guestEntry + rip) % 256 ^ 8
  | .guestRIPMove register instructions rip =>
    OneSide hot r.offset (relocWidth r.kind) ∧ wordsAt m (placed hot cold r.offset) (relocWidth r.kind / 4) =
        moveWords host.disableShiftedImm32 register instructions (rip + guestEntry)
  | _ => True

section
variable {host : Host} {hot cold : Span} {m : Mem} {r : Relocation}

theorem relocDest_gives
    (h : OneSide hot offset width → Q (placed hot cold offset) m) : Gives (relocDest hot cold offset width) m Q := by
  unfold relocDest
  split
  · next hlt =>
    apply Gives.bind_require
    intro hfit
    rw [placed_hot hlt] at h
    exact Gives.pure (h (.inl (by omega)))
  · next hge =>
    apply Gives.bind_require
    intro _
    rw [placed_cold (by omega)] at h
    exact Gives.pure (h (.inr (by omega)))

theorem relocateOther_gives : Gives (relocateOther host guestEntry hot cold r) m fun _ m' =>
      r.Done host guestEntry hot cold m' := by
  obtain ⟨offset, kind⟩ := r
  cases kind with
  | linkRecord l => exact Gives.pure trivial
  | guestRIPLiteral rip =>
    apply Gives.bind
    apply relocDest_gives
    intro hside
    apply Gives.store
    exact ⟨hside, number_put _ _ _ _⟩
  | guestRIPMove register instructions rip =>
    apply Gives.bind
    apply relocDest_gives
    intro hside
    simp only [patchAt]
    split
    · next hzero =>
      subst hzero
      apply Gives.store
      refine ⟨hside, ?_⟩
      have hwords := wordsAt_put m (placed hot cold offset)
        (Ppc.loadImm64Fixed (BitVec.ofNat 32 register) (BitVec.ofNat 64 (rip + guestEntry)))
      have hwidth : relocWidth (.guestRIPMove register 0 rip) / 4 = 5 := by
        simp [relocWidth, Ppc.loadConstantFixedBytes]
      rw [Ppc.loadImm64Fixed_length] at hwords
      simp only [hwidth]
      rw [hwords, moveWords, if_pos rfl]
    · next hn =>
      apply Gives.bind_require
      intro hfit
      apply Gives.store
      refine ⟨hside, ?_⟩
      have hlen := paddedMove_length hfit.1
      have hwidth : relocWidth (.guestRIPMove register instructions rip) / 4 = instructions := by
        rw [relocWidth, if_pos hn, Nat.mul_div_cancel _ (by decide)]
      have hwords := wordsAt_put m (placed hot cold offset) (paddedMove
        (Ppc.loadImm64 host.disableShiftedImm32 (BitVec.ofNat 32 register)
          (BitVec.ofNat 64 (rip + guestEntry))) (instructions * 4))
      rw [hlen] at hwords
      simp only [hwidth]
      rw [hwords, moveWords, if_neg hn]
  | _ => exact fun _ _ _ => trivial

theorem Relocation.Done.kept (h : r.Done host guestEntry hot cold m)
    (hk : Kept (Footprint hot cold relocs) m m') (hap : Apart hot cold)
    (hclear : ∀ s ∈ relocs, ∀ w ∈ s.kind.writes s.offset,
      Span.Clear w ⟨r.offset, relocWidth r.kind⟩) : r.Done host guestEntry hot cold m' := by
  obtain ⟨offset, kind⟩ := r
  cases kind with
  | guestRIPLiteral rip =>
    obtain ⟨hside, hnumber⟩ := h
    exact ⟨hside, (blockNumber_kept hk hap hside hclear).trans hnumber⟩
  | guestRIPMove register instructions rip =>
    obtain ⟨hside, hwords⟩ := h
    refine ⟨hside, ?_⟩
    refine (wordsAt_congr fun i hi => Kept.block hk hap hside hclear i ?_).trans hwords
    omega
  | _ => trivial

end

end PowerArm.CodeCache
