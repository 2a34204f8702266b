import PowerArm.CodeCache.SaveLaws
import PowerArm.Ppc.LoadImmLaws

/-!
# Saving and loading a block

A block that was saved at base `B` and installed at base `B'` has its guest RIPs
moved by `B' - B`, its miss legs on their own thunks and its link records
unlinked, if and only if every guest RIP move that begins at a link's caller word
begins with the same instruction at both bases (`install_roundTrips`).
-/

namespace PowerArm.CodeCache

open Lib

/-! ## The relocator's two loops -/

section
variable {host : Host} {hot cold : Span} {relocs : List Relocation} {m m' : Mem}

theorem Span.Clear.sub (h : Span.Clear s ⟨x, n⟩) (hlo : x ≤ y) (hhi : y + k ≤ x + n) : Span.Clear s ⟨y, k⟩ := by
  unfold Span.Clear at *
  simp only at *
  omega

theorem LinkDone.kept (h : LinkDone hot cold record l m) (hp : LinkPlace hot cold record l)
    (hk : Kept (Footprint hot cold relocs) m m') (hap : Apart hot cold)
    (hclear : ∀ r ∈ relocs, ∀ w ∈ r.kind.writes r.offset, ∀ f ∈ l.fields record, Span.Clear w f) :
    LinkDone hot cold record l m' := by
  have hlo := hp.record_lo
  have hfield (f) (hf : f ∈ l.fields record) (x n) (hx : f.base ≤ x) (hn : x + n ≤ f.base + f.size)
      (hside : OneSide hot x n) : blockNumber hot cold m' x n = blockNumber hot cold m x n :=
    blockNumber_kept hk hap hside fun r hr w hw => (hclear r hr w hw f hf).sub hx hn
  have hbranch := hfield ⟨l.linkBranch record, 4⟩ (by simp [LinkRecord.fields]) (l.linkBranch record) 4
    (Nat.le_refl _) (Nat.le_refl _)
    (.inl (by have := hp.linkBranch; unfold LinkRecord.linkBranch; omega))
  have hthunk := hfield ⟨l.thunk record, 4⟩ (by simp [LinkRecord.fields]) (l.thunk record) 4
    (Nat.le_refl _) (Nat.le_refl _)
    (.inr (by have := hp.thunk; unfold LinkRecord.thunk; omega))
  have hhost := hfield ⟨record, 8⟩ (by simp [LinkRecord.fields]) record 8 (Nat.le_refl _) (Nat.le_refl _) (.inr hlo)
  have hmiddle (k n) (hk : 16 ≤ k) (hn : k + n ≤ 32) :=
    hfield ⟨record + 16, 16⟩ (by simp [LinkRecord.fields]) (record + k) n (by simp only; omega)
      (by simp only; omega) (.inr (by omega))
  have hlast (k n) (hk : 40 ≤ k) (hn : k + n ≤ 56) :=
    hfield ⟨record + 40, 16⟩ (by simp [LinkRecord.fields]) (record + k) n (by simp only; omega)
      (by simp only; omega) (.inr (by omega))
  exact {
    branch := hbranch.trans h.branch
    hostCode := hhost.trans h.hostCode
    thunkWord := hthunk.trans h.thunkWord
    callerOffset := (hmiddle 16 8 (by omega) (by omega)).trans h.callerOffset
    callerWord := (hmiddle 24 4 (by omega) (by omega)).trans h.callerWord
    origThunkWord := (hmiddle 28 4 (by omega) (by omega)).trans h.origThunkWord
    linkedEntry := (hlast 40 8 (by omega) (by omega)).trans h.linkedEntry
    final := (hlast 48 8 (by omega) (by omega)).trans h.final }

def Relocation.Linked (hot cold : Span) (r : Relocation) (m : Mem) : Prop :=
  ∀ l, r.kind = .linkRecord l → LinkPlace hot cold r.offset l ∧ LinkDone hot cold r.offset l m

theorem relocateLink_gives (hap : Apart hot cold) (hthunk : ∀ l, r.kind = .linkRecord l → l.thunkDelta = -0x38) :
    Gives (relocateLink host hot cold r) m fun _ m' =>
      r.Linked hot cold m' ∧ Kept (fun a => r.kind.isLink ∧ Footprint hot cold [r] a) m m' := by
  obtain ⟨record, kind⟩ := r
  cases kind with
  | linkRecord l =>
    have hdone : Gives (relocateLink host hot cold ⟨record, .linkRecord l⟩) m fun _ m' =>
        LinkPlace hot cold record l ∧ LinkDone hot cold record l m' :=
      patchLink_gives hap (hthunk l rfl)
    refine (hdone.and (Gives.of_within (relocateLink_within (List.mem_singleton_self _)))).mono ?_
    rintro _ m' ⟨hlink, hkept, _⟩
    refine ⟨?_, hkept.mono fun a ha => ⟨rfl, ha⟩⟩
    rintro _ ⟨⟩
    exact hlink
  | _ => exact Gives.pure ⟨nofun, Kept.refl _ _⟩

theorem writes_words (hw : w ∈ RelocKind.writes record (.linkRecord l)) : w ∈ l.words record := by
  simp only [RelocKind.writes, List.mem_cons, List.not_mem_nil, or_false] at hw
  rcases hw with rfl | rfl <;> simp [LinkRecord.words, LinkRecord.linkBranch]

theorem fields_clear (h : ∀ b ∈ LinkRecord.words l record, Span.Clear w b) :
    ∀ f ∈ l.fields record, Span.Clear w f := by
  intro f hf
  have hrecord := h ⟨record + 16, 40⟩ (by simp [LinkRecord.words])
  simp only [LinkRecord.fields, List.mem_cons, List.not_mem_nil, or_false] at hf
  rcases hf with rfl | rfl | rfl | rfl | rfl
  · exact h _ (by simp [LinkRecord.words])
  · exact h _ (by simp [LinkRecord.words])
  · exact h _ (by simp [LinkRecord.words])
  · exact hrecord.sub (by omega) (by omega)
  · exact hrecord.sub (by omega) (by omega)

theorem writes_window {r : Relocation} (hother : r.kind.isLink = false)
    (hw : w ∈ r.kind.writes r.offset) : w = r.window := by
  obtain ⟨x, kind⟩ := r
  cases kind with
  | linkRecord l => cases hother
  | _ => exact List.mem_singleton.mp hw

theorem relocateLinks_gives (hs : Sited relocs) (hap : Apart hot cold) :
    Gives (relocs.forM (relocateLink host hot cold)) m fun _ m' => ∀ r ∈ relocs, r.Linked hot cold m' := by
  refine (Gives.forM (W := fun r a => r.kind.isLink ∧ Footprint hot cold [r] a) ?_ ?_).mono fun _ _ h => h.1
  · rintro ⟨x, kind⟩ hr m
    apply relocateLink_gives hap
    rintro l rfl
    exact (hs.sound x l hr).thunk
  · refine hs.apart.imp ?_
    rintro ⟨x, rk⟩ ⟨y, sk⟩ hapart m m' hk hlinked l rfl
    obtain ⟨hplace, hdone⟩ := hlinked l rfl
    refine ⟨hplace, hdone.kept hplace (hk.mono fun _ ha => ha.2) hap ?_⟩
    simp only [List.mem_singleton, forall_eq]
    intro w hw
    cases sk with
    | linkRecord k => exact fields_clear fun b hb => (hapart b hb w (writes_words hw)).symm
    | _ =>
      obtain rfl := writes_window (r := ⟨y, _⟩) rfl hw
      exact hapart.1

theorem relocateOthers_gives (hs : Sited relocs) (hap : Apart hot cold) (hlinks : ∀ r ∈ relocs, r.Linked hot cold m) :
    Gives (relocs.forM (relocateOther host guestEntry hot cold)) m fun _ m' =>
      (∀ r ∈ relocs, r.Linked hot cold m') ∧ ∀ r ∈ relocs, r.Done host guestEntry hot cold m' := by
  have hstep (r) (m) : Gives (relocateOther host guestEntry hot cold r) m fun _ m' =>
      r.Done host guestEntry hot cold m' ∧
        Kept (fun a => r.kind.isLink = false ∧ Footprint hot cold [r] a) m m' := by
    obtain ⟨x, kind⟩ := r
    cases kind with
    | linkRecord l => exact Gives.pure ⟨trivial, Kept.refl _ _⟩
    | _ =>
      refine (relocateOther_gives.and (Gives.of_within (relocateOther_within (List.mem_singleton_self _)))).mono ?_
      rintro _ m' ⟨hdone, hkept, _⟩
      exact ⟨hdone, hkept.mono fun a ha => ⟨rfl, ha⟩⟩
  refine Gives.and ?_ ((Gives.forM (fun r _ m => hstep r m) ?_).mono fun _ _ h => h.1)
  · refine Gives.forM_keeps ?_ hlinks
    intro s hs' m hlinked
    refine (hstep s m).mono ?_
    rintro _ m' ⟨_, hk⟩ ⟨x, _⟩ hr l rfl
    obtain ⟨hplace, hdone⟩ := hlinked _ hr l rfl
    refine ⟨hplace, ?_⟩
    by_cases hlink : s.kind.isLink
    · have hsame : Kept (Footprint hot cold []) m m' :=
        hk.mono fun a ha => absurd (hlink.symm.trans ha.1) (by decide)
      exact hdone.kept hplace hsame hap nofun
    · have hother : s.kind.isLink = false := by simpa using hlink
      refine hdone.kept hplace (hk.mono fun _ ha => ha.2) hap ?_
      simp only [List.mem_singleton, forall_eq]
      intro w hw
      rw [writes_window hother hw]
      exact (hs.beside hr hs' hother).1
  · refine hs.apart.imp ?_
    rintro r s hapart m m' hk hdone
    by_cases hrs : r.kind.isLink = false ∧ s.kind.isLink = false
    · refine hdone.kept (hk.mono fun _ ha => ha.2) hap ?_
      simp only [List.mem_singleton, forall_eq]
      intro w hw
      rw [writes_window hrs.2 hw]
      exact (hapart.windows hrs.1 hrs.2).symm
    · obtain ⟨x, kind⟩ := r
      cases kind with
      | linkRecord l => trivial
      | _ =>
        have hsame : Kept (Footprint hot cold []) m m' := hk.mono fun a ha => absurd ⟨rfl, ha.1⟩ hrs
        exact hdone.kept hsame hap nofun

end

/-- A block the installer completes: every relocation done, and the file's bytes
where none writes. -/
theorem install_gives (hs : Sited (seg.relocs b))
    (hfits : seg.Fits b) (hap : Apart hot cold) (hhot : hot.size = b.hotSize)
    (hcold : cold.size = b.coldSize) (hnear : cold.base - hot.base < 2 ^ 32) :
    Gives (install host fileStartVA guestRIP seg b hot cold) m fun _ m' =>
      (∃ m₁, Copied seg b hot cold m₁ ∧ Kept (Footprint hot cold (seg.relocs b)) m₁ m') ∧
        (∀ r ∈ seg.relocs b, r.Linked hot cold m') ∧ ∀ r ∈ seg.relocs b, r.Done host fileStartVA hot cold m' := by
  refine Gives.and ((Gives.of_within (install_within hfits hap hhot hcold hnear)).mono fun _ _ h => h.2) ?_
  apply Gives.bind_fetch
  apply Gives.bind_store
  apply Gives.bind_fetch
  apply Gives.bind_store
  apply Gives.bind
  refine (Gives.of_within (W := fun _ => False) (fetchRelocs_within hfits.relocs_le)).mono ?_
  rintro relocs m₁ ⟨_, rfl, rfl⟩
  apply Gives.bind
  have hheader : jitCodeHeaderSize ≤ hot.size := by
    have h8 : 8 ≤ hot.size := hhot ▸ hfits.2.2.2.2.2.1
    unfold jitCodeHeaderSize
    omega
  have hloops (m : Mem) : Gives (do
      (seg.relocs b).forM (relocateLink host hot cold)
      (seg.relocs b).forM (relocateOther host fileStartVA hot cold)) m fun _ m' =>
      (∀ r ∈ seg.relocs b, r.Linked hot cold m') ∧ ∀ r ∈ seg.relocs b, r.Done host fileStartVA hot cold m' :=
    Gives.bind ((relocateLinks_gives hs hap).mono fun _ _ hlinks => relocateOthers_gives hs hap hlinks)
  unfold applyCodeRelocationsSplit
  rw [if_pos hheader]
  apply Gives.bind_store
  refine (hloops _).mono ?_
  intro _ m' hdone
  apply Gives.bind_load
  apply Gives.bind_load
  apply Gives.bind_load
  apply Gives.bind_load
  exact Gives.require fun _ => hdone

/-! ## Live and stored layout -/

def Live.moved (v : Live) (hot cold : Span) (a : Nat) : Nat :=
  if v.start ≤ a ∧ a < v.start + v.size then hot.base + (a - v.start)
  else cold.base + (a - v.coldBase)

theorem Live.moved_hot {v : Live} (hlo : v.start ≤ a) (hhi : a < v.start + v.size) :
    v.moved hot cold a = hot.base + (a - v.start) := if_pos ⟨hlo, hhi⟩

theorem Live.moved_cold {v : Live} (hap : v.start + v.size ≤ v.coldBase) :
    v.moved hot cold (v.coldBase + c) = cold.base + c := by
  unfold Live.moved
  rw [if_neg (by omega), Nat.add_sub_cancel_left]

theorem wrap32_of_small (hlo : -2 ^ 31 ≤ x) (hhi : x < 2 ^ 31) : wrap32 x = x := by
  unfold wrap32 int32
  split <;> omega

section
variable {v : Live} {hot cold : Span}

theorem Live.moved_stored (hsize : hot.size = v.size) (r : Relocation) :
    v.moved hot cold r.offset = placed hot cold (v.stored fileStartVA r).offset := by
  unfold Live.moved Live.stored
  split
  · rw [placed_hot (by simp only; omega)]
  · rw [placed_cold (by simp only; omega)]
    simp only
    omega

theorem Live.hot_delta (hsmall : v.size + c < 2 ^ 31) (hlo : (v.start : Int) ≤ (v.coldBase + c : Nat) + δ)
    (hhi : (v.coldBase + c : Nat) + δ < v.start + v.size) :
    wrap32 ((v.coldBase : Int) + c + δ - v.start - (v.size + c)) =
      (v.coldBase : Int) + c + δ - v.start - (v.size + c) :=
  wrap32_of_small (by omega) (by omega)

theorem Live.offsetField_stored {δ : Int} (hsmall : v.size + c < 2 ^ 31)
    (hplace : δ ≠ 0 → (v.start : Int) < (v.coldBase + c : Nat) + δ ∧
      (v.coldBase + c : Nat) + δ < v.start + v.size) :
    offsetField hot cold (v.size + c) (let live := if δ ≠ 0 then (v.coldBase : Int) + c + δ else 0
       let hotOff := if live ≠ 0 then live - v.start else 0
       if hotOff ≠ 0 then wrap32 (hotOff - (v.size + c)) else 0) tag =
      if δ = 0 then 0 else
        int64 (v.moved hot cold ((v.coldBase + c : Nat) + δ).toNat - placed hot cold (v.size + c)) ||| tag := by
  by_cases hzero : δ = 0
  · simp [hzero, offsetField]
  · obtain ⟨hlo, hhi⟩ := hplace hzero
    have hlive : (v.coldBase : Int) + c + δ ≠ 0 := by omega
    have hoff : (v.coldBase : Int) + c + δ - v.start ≠ 0 := by omega
    have hdelta := Live.hot_delta hsmall (by omega) hhi
    have hne : (v.coldBase : Int) + c + δ - v.start - (v.size + c) ≠ 0 := by omega
    simp only [ne_eq, hzero, not_false_eq_true, if_true, hlive, hoff, hdelta, offsetField, hne]
    rw [Live.moved_hot (by omega) (by omega)]
    congr 2
    omega

end

/-! ## Branches -/

/-- The target of an unconditional relative branch `word` at `a`. -/
def branchTarget (a word : Nat) : Option Int :=
  if word / 2 ^ 26 = 18 ∧ word % 4 = 0 then
    some (a + (if word % 2 ^ 26 < 2 ^ 25 then (word % 2 ^ 26 : Int) else word % 2 ^ 26 - 2 ^ 26))
  else none

theorem and_branchMask (x : Nat) (h : x % 4 = 0) : x &&& 0x03FFFFFC = x % 2 ^ 26 := by
  have hx : x = (x / 4) <<< 2 := by omega
  have hmask : 0x03FFFFFC = (2 ^ 24 - 1) <<< 2 := by decide
  rw [hmask, hx, ← Nat.shiftLeft_and_distrib, Nat.and_two_pow_sub_one_eq_mod, Nat.shiftLeft_eq]
  omega

theorem encodeBranch_eq (h : branchDisplacementInRange delta) :
    encodeBranch delta = 2 ^ 26 * 18 + (delta % 2 ^ 26).toNat := by
  obtain ⟨hmod, -, -⟩ := h
  have hword : (delta % 2 ^ 32).toNat &&& 0x03FFFFFC = (delta % 2 ^ 26).toNat := by
    rw [and_branchMask _ (by omega)]
    omega
  rw [Nat.two_pow_add_eq_or_of_lt (by omega), encodeBranch, hword]

theorem branchTarget_encodeBranch (h : branchDisplacementInRange delta) :
    branchTarget a (encodeBranch delta % 256 ^ 4) = some (a + delta) := by
  rw [encodeBranch_eq h]
  obtain ⟨hmod, hlo, hhi⟩ := h
  rw [branchTarget, if_pos (by omega)]
  congr 2
  split <;> omega

/-! ## The round trip -/

def LinkRecord.linkedEntry (l : LinkRecord) (record : Nat) : Nat := (record + l.linkedEntryDelta).toNat

/-- An installed link record in its unlinked state, by the live addresses of the
compiled block. -/
structure LinkRestored (v : Live) (hot cold : Span) (record : Nat) (l : LinkRecord) (m : Mem) :
    Prop where
  hostCode : m.number (v.moved hot cold record) 8 = 0
  callerWord : m.number (v.moved hot cold (l.caller record)) 4 = m.number (v.moved hot cold record + 24) 4
  thunkWord : m.number (v.moved hot cold (l.thunk record)) 4 = m.number (v.moved hot cold record + 28) 4
  missLeg : branchTarget (v.moved hot cold (l.linkBranch record))
      (m.number (v.moved hot cold (l.linkBranch record)) 4) =
    some (v.moved hot cold (l.thunk record) + 0x14)
  callerOffset : m.number (v.moved hot cold record + 16) 8 =
    int64 (v.moved hot cold (l.caller record) - v.moved hot cold record)
  linkedEntry : m.number (v.moved hot cold record + 40) 8 = if l.linkedEntryDelta = 0 then 0 else
      int64 (v.moved hot cold (l.linkedEntry record) - v.moved hot cold record)
  final : m.number (v.moved hot cold record + 48) 8 = if l.finalDelta = 0 then 0 else
      int64 (v.moved hot cold (l.final record) - v.moved hot cold record) |||
        (if l.finalPlainBranch ≠ 0 then 1 else 0)

/-- A relocation's bytes in the installed block: guest RIPs moved with the base,
moves by what they load. -/
def Live.Restored (v : Live) (fileStartVA fileStartVA' : Nat) (hot cold : Span) (r : Relocation) (m : Mem) : Prop :=
  match r.kind with
  | .guestRIPLiteral rip => m.number (v.moved hot cold r.offset) 8 = int64 (rip + fileStartVA' - fileStartVA)
  | .guestRIPMove register _ rip =>
    ∀ g, Ppc.run g (wordsAt m (v.moved hot cold r.offset) (relocWidth r.kind / 4)) =
      some (g.set (BitVec.ofNat 5 register) (BitVec.ofInt 64 (rip + fileStartVA' - fileStartVA)))
  | .linkRecord l => LinkRestored v hot cold r.offset l m
  | _ => True

def Live.RoundTrips (v : Live) (fileStartVA fileStartVA' : Nat) (hot cold : Span) (m : Mem) : Prop :=
  ∀ r ∈ v.relocs, v.Restored fileStartVA fileStartVA' hot cold r m

/-- A guest RIP move sunk below the caller word of a link: it begins there. -/
def Live.Sunk (v : Live) (l : LinkRecord) (register instructions rip : Nat) : Prop :=
  ∃ record, ⟨record, .linkRecord l⟩ ∈ v.relocs ∧
    ⟨l.caller record, .guestRIPMove register instructions rip⟩ ∈ v.relocs

/-- What `CompileCode` leaves: the link state and the code bytes are free. -/
structure Live.WellFormed (v : Live) (fileStartVA : Nat) (disableShiftedImm32 : Bool) : Prop where
  small : v.codeSize < 2 ^ 31
  apart : v.start + v.size ≤ v.coldBase
  sited : Sited (v.relocs.map (v.stored fileStartVA))
  register : ∀ offset register instructions rip,
    ⟨offset, .guestRIPMove register instructions rip⟩ ∈ v.relocs → register < 32
  linkedEntry : ∀ record l, ⟨record, .linkRecord l⟩ ∈ v.relocs → l.linkedEntryDelta ≠ 0 →
    v.start < l.linkedEntry record
  final : ∀ record l, ⟨record, .linkRecord l⟩ ∈ v.relocs → l.finalDelta ≠ 0 → v.start < l.final record
  sunk : ∀ l register instructions rip, v.Sunk l register instructions rip →
    (moveWords disableShiftedImm32 register instructions rip).head? = some (BitVec.ofNat 32 l.origCallerWord)

/-- Every sunk move begins with the same instruction at both bases. -/
def Live.SameCallerWords (v : Live) (fileStartVA fileStartVA' : Nat)
    (disableShiftedImm32 disableShiftedImm32' : Bool) : Prop :=
  ∀ l register instructions rip, v.Sunk l register instructions rip →
    (moveWords disableShiftedImm32 register instructions rip).head? =
      (moveWords disableShiftedImm32' register instructions (int64 (rip + fileStartVA' - fileStartVA))).head?

structure Segment.Holds (seg : Segment) (b : SegmentBlock) (v : Live) (fileStartVA : Nat)
    (code : Mem) : Prop where
  fits : seg.Fits b
  hotSize : b.hotSize = v.size
  coldSize : b.coldSize = v.coldSize
  code : ∀ x < v.codeSize, seg.image.byte (seg.codeOffset + b.codeOffset + x) = code x
  relocs : seg.relocs b = v.relocs.map (v.stored fileStartVA)

structure Live.Placement (v : Live) (hot cold : Span) : Prop where
  hotSize : hot.size = v.size
  coldSize : cold.size = v.coldSize
  apart : Apart hot cold
  near : cold.base - hot.base < 2 ^ 32

theorem save_cacheable {v : Live} : Gives (v.save fileStartVA) m fun _ _ => ∀ r ∈ v.relocs, v.Cacheable r := by
  apply Gives.bind_require
  intro hcache _ _ _
  exact hcache

section
variable {v : Live} {hot cold : Span} {host : Host} {m : Mem}

theorem Live.stored_other (v : Live) (hother : kind.isLink = false) :
    (v.stored fileStartVA ⟨x, kind⟩).kind = kind.rebased fileStartVA := by
  unfold Live.stored
  split
  · rfl
  · cases kind with
    | linkRecord l => cases hother
    | _ => rfl

theorem Live.stored_move (hr : r ∈ v.relocs.map (v.stored fileStartVA)) (hmove : r.kind.isMove)
    (hhot : r.offset < v.size) :
    ∃ register instructions rip : Nat, ⟨r.offset + v.start, .guestRIPMove register instructions rip⟩ ∈ v.relocs ∧
        r = ⟨r.offset, .guestRIPMove register instructions (int64 (rip - fileStartVA))⟩ := by
  obtain ⟨⟨y, kind⟩, hy, rfl⟩ := List.mem_map.mp hr
  by_cases hin : v.start ≤ y ∧ y < v.start + v.size
  · have hstored : v.stored fileStartVA ⟨y, kind⟩ = ⟨y - v.start, kind.rebased fileStartVA⟩ := if_pos hin
    rw [hstored] at hmove ⊢
    cases kind with
    | guestRIPMove register instructions rip =>
      refine ⟨register, instructions, rip, ?_, rfl⟩
      rwa [Nat.sub_add_cancel hin.1]
    | _ => simp [RelocKind.rebased, RelocKind.isMove] at hmove
  · unfold Live.stored at hhot
    rw [if_neg hin] at hhot
    simp only at hhot
    omega

theorem literal_restored (hsize : hot.size = v.size)
    (h : (v.stored fileStartVA ⟨x, .guestRIPLiteral rip⟩).Done host fileStartVA' hot cold m) :
    v.Restored fileStartVA fileStartVA' hot cold ⟨x, .guestRIPLiteral rip⟩ m := by
  have hkind : (v.stored fileStartVA ⟨x, .guestRIPLiteral rip⟩).kind =
      .guestRIPLiteral (int64 (rip - fileStartVA)) := v.stored_other rfl
  have hmoved : v.moved hot cold x = placed hot cold (v.stored fileStartVA ⟨x, .guestRIPLiteral rip⟩).offset :=
    v.moved_stored hsize ⟨x, .guestRIPLiteral rip⟩
  unfold Relocation.Done at h
  rw [hkind] at h
  unfold Live.Restored
  rw [hmoved]
  refine h.2.trans ?_
  unfold int64
  omega

theorem run_moveWords (hreg : register < 32) (g : Ppc.Regs) : Ppc.run g (moveWords d register instructions rip) =
      some (g.set (BitVec.ofNat 5 register) (BitVec.ofNat 64 rip)) := by
  have hwide : BitVec.ofNat 32 register = (BitVec.ofNat 5 register).setWidth 32 := by
    apply BitVec.eq_of_toNat_eq
    simp only [BitVec.toNat_ofNat, BitVec.toNat_setWidth]
    omega
  unfold moveWords
  rw [hwide]
  split
  · exact Ppc.run_loadImm64Fixed _ _ _
  · have hnops (n : Nat) (g : Ppc.Regs) : Ppc.run g (List.replicate n Ppc.nop) = some g := by
      induction n with
      | zero => rfl
      | succ n ih => rw [List.replicate_succ, Ppc.run_cons, Ppc.exec_nop, Option.bind_some, ih]
    rw [paddedMove, Ppc.run_append, Ppc.run_loadImm64, Option.bind_some, hnops]

theorem ofNat_rebased (rip fileStartVA fileStartVA' : Nat) :
    BitVec.ofNat 64 (int64 (rip - fileStartVA) + fileStartVA') =
      BitVec.ofInt 64 (rip + fileStartVA' - fileStartVA) := by
  apply BitVec.eq_of_toNat_eq
  rw [BitVec.toNat_ofNat, BitVec.toNat_ofInt]
  unfold int64
  omega

theorem move_restored (hsize : hot.size = v.size) (hreg : register < 32)
    (h : (v.stored fileStartVA ⟨x, .guestRIPMove register instructions rip⟩).Done host fileStartVA' hot cold m) :
    v.Restored fileStartVA fileStartVA' hot cold ⟨x, .guestRIPMove register instructions rip⟩ m := by
  have hkind : (v.stored fileStartVA ⟨x, .guestRIPMove register instructions rip⟩).kind =
      .guestRIPMove register instructions (int64 (rip - fileStartVA)) := v.stored_other rfl
  have hmoved : v.moved hot cold x =
      placed hot cold (v.stored fileStartVA ⟨x, .guestRIPMove register instructions rip⟩).offset :=
    v.moved_stored hsize ⟨x, .guestRIPMove register instructions rip⟩
  unfold Relocation.Done at h
  rw [hkind] at h
  unfold Live.Restored
  rw [hmoved]
  intro g
  rw [← ofNat_rebased, ← run_moveWords hreg, ← h.2]
  rfl

theorem Live.stored_link (hsize : hot.size = v.size) (hc : v.Cacheable ⟨x, .linkRecord l⟩)
    (hl : (v.stored fileStartVA ⟨x, .linkRecord l⟩).Linked hot cold m) :
    ∃ c, x = v.coldBase + c ∧ v.stored fileStartVA ⟨x, .linkRecord l⟩ =
      ⟨v.size + c, .linkRecord (v.storedLink c l)⟩ := by
  by_cases hhot : v.start ≤ x ∧ x < v.start + v.size
  · have hstored : v.stored fileStartVA ⟨x, .linkRecord l⟩ = ⟨x - v.start, .linkRecord l⟩ := if_pos hhot
    rw [hstored] at hl
    have hlo := (hl l rfl).1.record_lo
    simp only at hlo
    omega
  · have hcold : v.coldBase ≤ x := by
      rcases hc.2 with ⟨hlo, hhi⟩ | ⟨hlo, _⟩
      · simp only [relocWidth] at hlo hhi
        omega
      · exact hlo
    exact ⟨x - v.coldBase, by omega, if_neg hhot⟩

theorem link_restored (hp : v.Placement hot cold) (hap : v.start + v.size ≤ v.coldBase)
    (hsmall : v.codeSize < 2 ^ 31) (hthunk : l.thunkDelta = -0x38) (hc : v.LinkCacheable (v.coldBase + c) l)
    (hentry : l.linkedEntryDelta ≠ 0 → v.start < l.linkedEntry (v.coldBase + c))
    (hfinal : l.finalDelta ≠ 0 → v.start < l.final (v.coldBase + c))
    (hplace : LinkPlace hot cold (v.size + c) (v.storedLink c l))
    (hdone : LinkDone hot cold (v.size + c) (v.storedLink c l) m) :
    LinkRestored v hot cold (v.coldBase + c) l m ↔
      blockNumber hot cold m ((v.storedLink c l).caller (v.size + c)) 4 =
        blockNumber hot cold m (v.size + c + 24) 4 := by
  obtain ⟨hcaller, hbranch, hlinked, hfin⟩ := hc
  unfold Live.HasWord at hcaller hbranch hfin
  unfold Live.codeSize at hsmall
  have hsize := hp.hotSize
  have hlast := hplace.record_hi
  have hcold := hp.coldSize
  have hRsmall : v.size + c < 2 ^ 31 := by omega
  have hrecord : v.moved hot cold (v.coldBase + c) = placed hot cold (v.size + c) := by
    rw [Live.moved_cold hap, placed_cold (by omega)]
    omega
  have hfield (k : Nat) : v.moved hot cold (v.coldBase + c) + k = placed hot cold (v.size + c + k) := by
    rw [Live.moved_cold hap, placed_cold (by omega)]
    omega
  have hth : v.moved hot cold (l.thunk (v.coldBase + c)) =
      placed hot cold ((v.storedLink c l).thunk (v.size + c)) := by
    have hlo : (hot.size : Int) ≤ (v.size + c : Nat) + l.thunkDelta := hplace.thunk
    have hlive : l.thunk (v.coldBase + c) = v.coldBase + (c - 56) := by
      unfold LinkRecord.thunk
      omega
    have hstored : (v.storedLink c l).thunk (v.size + c) = v.size + (c - 56) := by
      show (((v.size + c : Nat) : Int) + l.thunkDelta).toNat = _
      omega
    rw [hlive, Live.moved_cold hap, placed_cold (by omega)]
    omega
  have hword {δ : Int} (hw : (v.start : Int) ≤ (v.coldBase + c : Nat) + δ ∧
      (v.coldBase + c : Nat) + δ + 4 ≤ v.start + v.size) :
      v.moved hot cold ((v.coldBase + c : Nat) + δ).toNat = placed hot cold
        ((v.size + c : Nat) + wrap32 ((v.coldBase : Int) + c + δ - v.start - (v.size + c))).toNat := by
    rw [Live.hot_delta hRsmall (by omega) (by omega), Live.moved_hot (by omega) (by omega), placed_hot (by omega)]
    omega
  have hcl : v.moved hot cold (l.caller (v.coldBase + c)) =
      placed hot cold ((v.storedLink c l).caller (v.size + c)) := hword hcaller
  have hbr : v.moved hot cold (l.linkBranch (v.coldBase + c)) =
      placed hot cold ((v.storedLink c l).linkBranch (v.size + c)) := hword hbranch
  have hoffset {δ : Int} (tag) (hlo : δ ≠ 0 → v.start < ((v.coldBase + c : Nat) + δ).toNat)
      (hhi : δ ≠ 0 → (v.coldBase + c : Nat) + δ < v.start + v.size) :
      offsetField hot cold (v.size + c) _ tag = _ :=
    Live.offsetField_stored hRsmall fun hne => ⟨by have := hlo hne; omega, hhi hne⟩
  constructor
  · intro h
    have hcw := h.callerWord
    rwa [hcl, hfield] at hcw
  · intro hcw
    exact {
      hostCode := by rw [hrecord]; exact hdone.hostCode
      callerWord := by rw [hcl, hfield]; exact hcw
      thunkWord := by
        have hlt : blockNumber hot cold m ((v.storedLink c l).thunk (v.size + c)) 4 < 256 ^ 4 := number_lt _ _ _
        rw [hdone.thunkWord] at hlt
        rw [hth, hfield]
        refine hdone.thunkWord.trans ?_
        rw [← Nat.mod_eq_of_lt hlt]
        exact hdone.origThunkWord.symm
      missLeg := by
        rw [hbr]
        refine (congrArg (branchTarget _) hdone.branch).trans ?_
        rw [branchTarget_encodeBranch hplace.inRange, linkBranchDelta]
        congr 1
        omega
      callerOffset := by
        rw [hcl, hfield, hrecord]
        exact hdone.callerOffset.trans (Nat.mod_eq_of_lt (int64_lt _))
      linkedEntry := by
        rw [hfield, hrecord]
        refine (hdone.linkedEntry.trans (Nat.mod_eq_of_lt (offsetField_lt (by decide)))).trans ?_
        refine (hoffset 0 hentry fun hne => (hlinked hne).2).trans ?_
        simp only [Nat.or_zero]
        rfl
      final := by
        rw [hfield, hrecord]
        refine (hdone.final.trans (Nat.mod_eq_of_lt (offsetField_lt (by split <;> decide)))).trans ?_
        refine (hoffset _ hfinal fun hne => ?_).trans rfl
        omega }

/-! ## The caller word -/

theorem callerWord_plain {m₁ : Mem} (hs : Sited relocs) (hap : Apart hot cold)
    (hlinks : ∀ r ∈ relocs, r.Linked hot cold m) (hkept : Kept (Footprint hot cold relocs) m₁ m)
    (hl : ⟨record, .linkRecord l⟩ ∈ relocs)
    (hclear : ∀ r ∈ relocs, r.kind.isLink = false → Span.Clear r.window ⟨l.caller record, 4⟩)
    (horig : blockNumber hot cold m₁ (l.caller record) 4 = l.origCallerWord) :
    blockNumber hot cold m (l.caller record) 4 = blockNumber hot cold m (record + 24) 4 := by
  obtain ⟨hplace, hdone⟩ := hlinks _ hl l rfl
  have hsound := hs.sound record l hl
  have hcaller : 0 ≤ (record : Int) + l.callerDelta ∧ record + l.callerDelta + 4 ≤ hot.size := hplace.caller
  have hlo : hot.size ≤ record := hplace.record_lo
  have hhot : l.caller record + 4 ≤ hot.size := by
    unfold LinkRecord.caller
    omega
  by_cases hsame : l.caller record = l.linkBranch record
  · refine Eq.trans ?_ hdone.callerWord.symm
    rw [if_pos hsame, hsame]
    exact hdone.branch
  · refine Eq.trans ?_ hdone.callerWord.symm
    have hword : l.origCallerWord % 256 ^ 4 = l.origCallerWord := Nat.mod_eq_of_lt hsound.word
    rw [if_neg hsame, hword, ← horig]
    refine blockNumber_kept hkept hap (.inl hhot) ?_
    intro r hr w hw
    cases hlink : r.kind.isLink with
    | false =>
      rw [writes_window hlink hw]
      exact hclear r hr hlink
    | true =>
      by_cases hself : r = ⟨record, .linkRecord l⟩
      · subst hself
        simp only [RelocKind.writes, List.mem_cons, List.not_mem_nil, or_false] at hw
        rcases hw with rfl | rfl
        · exact (hsound.branch.resolve_left hsame).symm
        · exact .inr (by simp only; omega)
      · obtain ⟨y, kind⟩ := r
        cases kind with
        | linkRecord k =>
          have hwords := hs.apart.forall hl hr (Ne.symm hself)
          exact (hwords ⟨l.caller record, 4⟩ (by simp [LinkRecord.words]) w (writes_words hw)).symm
        | _ => simp [RelocKind.isLink] at hlink

theorem callerWord_sunk (hs : Sited relocs) (hlinks : ∀ r ∈ relocs, r.Linked hot cold m)
    (hmoves : ∀ r ∈ relocs, r.Done host fileStartVA' hot cold m) (hl : ⟨record, .linkRecord l⟩ ∈ relocs)
    (hmove : ⟨l.caller record, .guestRIPMove register instructions rip⟩ ∈ relocs) :
    blockNumber hot cold m (l.caller record) 4 = blockNumber hot cold m (record + 24) 4 ↔
      (moveWords host.disableShiftedImm32 register instructions (rip + fileStartVA')).head? =
        some (BitVec.ofNat 32 l.origCallerWord) := by
  obtain ⟨hplace, hdone⟩ := hlinks _ hl l rfl
  have hword := (hs.sound record l hl).word
  obtain ⟨n, hn⟩ : ∃ n, relocWidth (.guestRIPMove register instructions rip) / 4 = n + 1 := by
    cases instructions with
    | zero => exact ⟨4, by simp [relocWidth, Ppc.loadConstantFixedBytes]⟩
    | succ n => exact ⟨n, by simp [relocWidth]⟩
  -- the branch lies outside the window, so it is another word
  have hne : l.caller record ≠ l.linkBranch record := by
    have hclear := (hs.beside hl hmove rfl).1 ⟨l.linkBranch record, 4⟩ (by simp [LinkRecord.fields])
    unfold Span.Clear Relocation.window at hclear
    simp only at hclear
    omega
  obtain ⟨_, hwords⟩ := hmoves _ hmove
  simp only [hn, wordsAt] at hwords
  have hlt : m.number (placed hot cold (l.caller record)) 4 < 256 ^ 4 := number_lt _ _ _
  have hfield : blockNumber hot cold m (record + 24) 4 = l.origCallerWord := by
    refine hdone.callerWord.trans ?_
    simp only [if_neg hne]
    exact Nat.mod_eq_of_lt hword
  rw [← hwords, hfield, List.head?_cons, Option.some.injEq, blockNumber]
  constructor
  · rintro h
    rw [h]
  · intro h
    have hnat := congrArg BitVec.toNat h
    rw [BitVec.toNat_ofNat] at hnat
    exact ((Nat.mod_eq_of_lt hlt).symm.trans hnat).trans (Nat.mod_eq_of_lt hword)

theorem moveWords_rebased (d : Bool) (register instructions rip fileStartVA fileStartVA' : Nat) :
    moveWords d register instructions (int64 (rip - fileStartVA) + fileStartVA') =
      moveWords d register instructions (int64 (rip + fileStartVA' - fileStartVA)) := by
  have hrip : BitVec.ofNat 64 (int64 (rip - fileStartVA) + fileStartVA') =
      BitVec.ofNat 64 (int64 (rip + fileStartVA' - fileStartVA)) := by
    apply BitVec.eq_of_toNat_eq
    rw [BitVec.toNat_ofNat, BitVec.toNat_ofNat]
    unfold int64
    omega
  unfold moveWords
  rw [hrip]

theorem Live.WellFormed.link (hw : v.WellFormed fileStartVA d) (hp : v.Placement hot cold)
    (hcache : ∀ r ∈ v.relocs, v.Cacheable r) (hlinks : ∀ r ∈ v.relocs.map (v.stored fileStartVA), r.Linked hot cold m)
    (hl : ⟨x, .linkRecord l⟩ ∈ v.relocs) :
    ∃ record k, ⟨record, .linkRecord k⟩ ∈ v.relocs.map (v.stored fileStartVA) ∧
      k.origCallerWord = l.origCallerWord ∧ k.caller record + v.start = l.caller x ∧
      k.caller record + 4 ≤ v.size ∧
      (LinkRestored v hot cold x l m ↔
        blockNumber hot cold m (k.caller record) 4 = blockNumber hot cold m (record + 24) 4) := by
  have hmem := List.mem_map_of_mem (f := v.stored fileStartVA) hl
  have hcacheable := hcache _ hl
  obtain ⟨c, rfl, hstored⟩ := Live.stored_link hp.hotSize hcacheable (hlinks _ hmem)
  rw [hstored] at hmem
  obtain ⟨hplace, hdone⟩ := hlinks _ hmem _ rfl
  have hsound := hw.sited.sound _ _ hmem
  have hlink : v.LinkCacheable (v.coldBase + c) l := hcacheable.1
  have hhi := hplace.record_hi
  have hcaller : (v.start : Int) ≤ (v.coldBase + c : Nat) + l.callerDelta ∧
      (v.coldBase + c : Nat) + l.callerDelta + 4 ≤ v.start + v.size := hlink.1
  have hsize := hp.hotSize
  have hcold := hp.coldSize
  have hsmall := hw.small
  unfold Live.codeSize at hsmall
  simp only at hhi
  have hsite : (v.storedLink c l).caller (v.size + c) + v.start = l.caller (v.coldBase + c) := by
    have hdelta := Live.hot_delta (by omega) hcaller.1 (by omega)
    show ((v.size + c : Nat) + wrap32 ((v.coldBase : Int) + c + l.callerDelta - v.start -
      (v.size + c))).toNat + v.start = ((v.coldBase + c : Nat) + l.callerDelta).toNat
    omega
  refine ⟨v.size + c, v.storedLink c l, hmem, rfl, hsite, ?_, ?_⟩
  · have : l.caller (v.coldBase + c) + 4 ≤ v.start + v.size := by
      unfold LinkRecord.caller
      omega
    omega
  · exact link_restored hp hw.apart hw.small hsound.thunk hlink (hw.linkedEntry _ _ hl)
      (hw.final _ _ hl) hplace hdone

end

/-! ## The theorem -/

/-- A block saved at one base and installed at another is the compiled block moved
there, exactly when every sunk guest RIP move begins with the same instruction at
both bases. -/
theorem install_roundTrips (v : Live) (fileStartVA fileStartVA' : Nat)
    (disableShiftedImm32 : Bool) (host : Host) (guestRIP : Nat) (seg : Segment) (b : SegmentBlock)
    (hot cold : Span) (code m m' : Mem) (hw : v.WellFormed fileStartVA disableShiftedImm32)
    (hsave : v.save fileStartVA v.copy = .value () code)
    (hheld : seg.Holds b v fileStartVA code) (hp : v.Placement hot cold)
    (hrun : install host fileStartVA' guestRIP seg b hot cold m = .value () m') :
    v.RoundTrips fileStartVA fileStartVA' hot cold m' ↔
      v.SameCallerWords fileStartVA fileStartVA' disableShiftedImm32 host.disableShiftedImm32 := by
  have hsited : Sited (seg.relocs b) := hheld.relocs ▸ hw.sited
  obtain ⟨⟨m₁, hcopied, hkept⟩, hlinks, hdone⟩ := install_gives hsited hheld.fits hp.apart
    (hp.hotSize.trans hheld.hotSize.symm) (hp.coldSize.trans hheld.coldSize.symm) hp.near () m' hrun
  rw [hheld.relocs] at hkept hlinks hdone hsited
  have hcache := save_cacheable () code hsave
  have hcallerHot (record : Nat) (l : LinkRecord)
      (hl : ⟨record, .linkRecord l⟩ ∈ v.relocs.map (v.stored fileStartVA)) :
      l.caller record + 4 ≤ hot.size := by
    have hplace := (hlinks _ hl l rfl).1.caller
    unfold LinkRecord.caller
    simp only at hplace
    omega
  -- a saved caller word is there before the relocations are applied
  have hcode (record : Nat) (l : LinkRecord) (hl : ⟨record, .linkRecord l⟩ ∈ v.relocs.map (v.stored fileStartVA)) :
      blockNumber hot cold m₁ (l.caller record) 4 = code.number (l.caller record) 4 := by
    have hlow := (hsited.sound record l hl).caller
    have hhot := hcallerHot record l hl
    have hsize := hp.hotSize
    refine number_shift fun i hi => ?_
    rw [placed_add (.inl hhot) hi, hcopied.code _ (by omega) (by omega), hheld.code]
    unfold Live.codeSize
    omega
  constructor
  · rintro htrip l register instructions rip ⟨x, hl, hmove⟩
    obtain ⟨record, k, hk, hword, hsite, hhot, hiff⟩ := hw.link hp hcache hlinks hl
    have hstored : v.stored fileStartVA ⟨l.caller x, .guestRIPMove register instructions rip⟩ =
        ⟨k.caller record, .guestRIPMove register instructions (int64 (rip - fileStartVA))⟩ := by
      unfold Live.stored
      rw [if_pos (by simp only; omega)]
      simp only [RelocKind.rebased, Relocation.mk.injEq, and_true]
      omega
    have hmem := List.mem_map_of_mem (f := v.stored fileStartVA) hmove
    rw [hstored] at hmem
    have hfirst := (callerWord_sunk hsited hlinks hdone hk hmem).mp (hiff.mp (htrip _ hl))
    rw [moveWords_rebased, hword] at hfirst
    rw [hfirst]
    exact hw.sunk l register instructions rip ⟨x, hl, hmove⟩
  · intro hsame
    rintro ⟨x, kind⟩ hr
    have hmem := List.mem_map_of_mem (f := v.stored fileStartVA) hr
    cases kind with
    | guestRIPLiteral rip => exact literal_restored hp.hotSize (hdone _ hmem)
    | guestRIPMove register instructions rip =>
      exact move_restored hp.hotSize (hw.register _ _ _ _ hr) (hdone _ hmem)
    | linkRecord l =>
      obtain ⟨record, k, hk, hword, hsite, hhot, hiff⟩ := hw.link hp hcache hlinks hr
      apply hiff.mpr
      by_cases hplain : ∀ r ∈ v.relocs.map (v.stored fileStartVA), r.kind.isLink = false →
          Span.Clear r.window ⟨k.caller record, 4⟩
      · refine callerWord_plain hsited hp.apart hlinks hkept hk hplain ?_
        rw [hcode record k hk]
        refine save_callerWord hsited ?_ ?_ hk hplain () code hsave
        · intro y l hl
          have hthunk := (hlinks _ hl l rfl).1.thunk
          rw [(hsited.sound y l hl).thunk] at hthunk
          have hsize := hp.hotSize
          simp only at hthunk
          omega
        · intro y l hl
          exact hp.hotSize ▸ hcallerHot y l hl
      · push Not at hplain
        obtain ⟨r, hr', hother, hmeets⟩ := hplain
        obtain ⟨hmove, hoffset⟩ := (hsited.beside hk hr' hother).2.resolve_left hmeets
        obtain ⟨register, instructions, rip, hsunk, hstored⟩ := Live.stored_move hr' hmove (by omega)
        rw [hoffset] at hsunk hstored
        rw [hstored] at hr'
        rw [hsite] at hsunk
        rw [callerWord_sunk hsited hlinks hdone hk hr', moveWords_rebased, hword,
          ← hsame l register instructions rip ⟨x, hr, hsunk⟩]
        exact hw.sunk l register instructions rip ⟨x, hr, hsunk⟩
    | _ => trivial

/-! ## A sunk move that changes its first instruction -/

def storeFields (fields : List (Nat × Nat × Nat)) (m : Mem) : Mem :=
  fields.foldl (fun m (a, n, v) => m.put a (numberBytes n v)) m

/-- The link record of the exit below, in deltas from a record at `record` to hot
code at `hot`. -/
def exitLink (record hot : Int) : LinkRecord where
  callerDelta := hot + 4 - record
  thunkDelta := -0x38
  origCallerWord := 0x3C600001
  origThunkWord := 0x48000014
  linkBranchDelta := hot + 12 - record
  linkedEntryDelta := 0
  finalDelta := 0
  finalPlainBranch := 0

/-- A constant exit in the probe-first form, currently linked: the caller word is
the first word of the move of guest RIP 0x10008 into r3, and the branch to the
link path comes after it. The cold bytes are tail, thunk and record. -/
def exitBlock : Live where
  start := 0
  size := 32
  coldBase := 4096
  coldSize := 160
  mem := storeFields [
    -- caller word linked, the rest of the move, the miss leg
    (4, 4, 0x48001000), (8, 4, 0x60630008), (12, 4, 0x48001038),
    -- tail: size, RIP, guest size and cold size
    (4096, 8, 32), (4104, 8, 0x10000), (4112, 8, 4), (4136, 4, 160),
    -- record: host code and guest RIP
    (4200, 8, 0x7000000), (4208, 8, 0x10008)] fun _ => 0
  relocs := [ ⟨4, .guestRIPMove 3 2 0x10008⟩,
    ⟨4104, .guestRIPLiteral 0x10000⟩,
    ⟨4200, .linkRecord (exitLink 4200 0)⟩,
    ⟨4208, .guestRIPLiteral 0x10008⟩,
    ⟨4232, .namedSymbolLiteral 1⟩]

def End.memory : End α → Mem
  | .value _ m => m
  | _ => fun _ => 0

def End.isValue : End α → Bool
  | .value _ _ => true
  | _ => false

theorem End.eq_value (h : End.isValue e) : e = .value () (End.memory e) := by
  cases e with
  | value u m => rfl
  | _ => cases h

def exitCode : Mem := End.memory (exitBlock.save 0x10000 exitBlock.copy)

def exitFile : Segment where
  image := {
    size := 544
    byte := fun a => if 352 ≤ a then exitCode (a - 352) else storeFields [
      (112, 8, 4), (120, 4, 3), (124, 1, 3), (125, 1, 2), (128, 8, 8),
      (160, 8, 40), (168, 4, 2), (176, 8, 0),
      (208, 8, 136), (216, 4, 4), (220, 4, 0xFFFFFF7C), (224, 4, 0xFFFFFFC8),
        (228, 4, 0x3C600001), (232, 4, 0x48000014), (236, 4, 0xFFFFFF84),
      (256, 8, 144), (264, 4, 2), (272, 8, 8),
      (304, 8, 168), (316, 4, 1)] (fun _ => 0) a }
  numBlocks := 0
  numRelocs := 5
  relocOffset := 112
  codeOffset := 352
  codeSize := 192
  checkHashes := false
  hash := fun _ => 0
  index_le := by decide
  relocs_le := by decide
  code_le := by decide

def exitEntry : SegmentBlock where
  guestOffset := 0
  guestHash := 0
  codeOffset := 0
  guestLength := 4
  codeSize := 192
  entryOffset := 4
  relocBegin := 0
  relocCount := 5
  coldSize := 160
  entryHash := 0

def exitHost : Host where
  exitFunctionLinker := 0
  exitFunctionLinkerWithRecord := 0
  lookupThunk := fun _ => 0
  disableShiftedImm32 := false

def exitInstalled (fileStartVA' : Nat) : End Unit :=
  install exitHost fileStartVA' fileStartVA' exitFile exitEntry ⟨64, 32⟩ ⟨512, 160⟩ fun _ => 0

theorem exitBlock_stored : exitBlock.relocs.map (exitBlock.stored 0x10000) = [
    ⟨4, .guestRIPMove 3 2 8⟩, ⟨40, .guestRIPLiteral 0⟩, ⟨136, .linkRecord (exitLink 136 0)⟩,
    ⟨144, .guestRIPLiteral 8⟩, ⟨168, .namedSymbolLiteral 1⟩] := by
  decide +kernel

theorem exitBlock_wellFormed : exitBlock.WellFormed 0x10000 false where
  small := by decide
  apart := by decide
  sited := by
    rw [exitBlock_stored]
    refine ⟨by decide +kernel, ?_⟩
    intro record l hl
    simp only [List.mem_cons, Relocation.mk.injEq, reduceCtorEq, and_false, RelocKind.linkRecord.injEq,
      List.not_mem_nil, false_or, or_false] at hl
    obtain ⟨rfl, rfl⟩ := hl
    constructor <;> decide
  register := by
    intro offset register instructions rip h
    simp [exitBlock] at h
    omega
  linkedEntry := by
    intro record l h
    simp [exitBlock] at h
    obtain ⟨rfl, rfl⟩ := h
    simp [exitLink]
  final := by
    intro record l h
    simp [exitBlock] at h
    obtain ⟨rfl, rfl⟩ := h
    simp [exitLink]
  sunk := by
    rintro l register instructions rip ⟨record, hl, hmove⟩
    simp [exitBlock] at hl hmove
    obtain ⟨rfl, rfl⟩ := hl
    obtain ⟨-, rfl, rfl, rfl⟩ := hmove
    decide +kernel

theorem exitFile_holds : exitFile.Holds exitEntry exitBlock 0x10000 exitCode where
  fits := by decide
  hotSize := by decide
  coldSize := by decide
  code := by
    intro x hx
    have hle : 352 ≤ exitFile.codeOffset + exitEntry.codeOffset + x := Nat.le_add_right 352 x
    have hsub : exitFile.codeOffset + exitEntry.codeOffset + x - 352 = x := Nat.add_sub_cancel_left 352 x
    exact (if_pos hle).trans (congrArg exitCode hsub)
  relocs := by decide +kernel

theorem exitBlock_placement : exitBlock.Placement ⟨64, 32⟩ ⟨512, 160⟩ :=
  ⟨rfl, rfl, by unfold Apart; decide, by decide⟩

theorem exitCode_saved : exitBlock.save 0x10000 exitBlock.copy = .value () exitCode :=
  End.eq_value (by decide +kernel)

/-- One 64 KiB up the move begins with another `lis`: the record keeps the old
word for unlinking, and the site holds the new one. -/
theorem install_staleCallerWord :
    exitBlock.WellFormed 0x10000 false ∧ exitFile.Holds exitEntry exitBlock 0x10000 exitCode ∧
      exitBlock.save 0x10000 exitBlock.copy = .value () exitCode ∧
      exitBlock.Placement ⟨64, 32⟩ ⟨512, 160⟩ ∧
      ∃ m', exitInstalled 0x20000 = .value () m' ∧
        ¬ exitBlock.RoundTrips 0x10000 0x20000 ⟨64, 32⟩ ⟨512, 160⟩ m' := by
  refine ⟨exitBlock_wellFormed, exitFile_holds, exitCode_saved, exitBlock_placement,
    End.memory (exitInstalled 0x20000), End.eq_value (by decide +kernel), ?_⟩
  intro htrip
  have hlink : LinkRestored exitBlock ⟨64, 32⟩ ⟨512, 160⟩ 4200 (exitLink 4200 0) _ :=
    htrip ⟨4200, .linkRecord (exitLink 4200 0)⟩ (by simp [exitBlock])
  exact absurd hlink.callerWord (by decide +kernel)

/-- One page up it begins with the same `lis`. -/
theorem install_roundTrips_page : ∃ m', exitInstalled 0x11000 = .value () m' ∧
      exitBlock.RoundTrips 0x10000 0x11000 ⟨64, 32⟩ ⟨512, 160⟩ m' := by
  have hrun : exitInstalled 0x11000 = .value () (End.memory (exitInstalled 0x11000)) :=
    End.eq_value (by decide +kernel)
  refine ⟨_, hrun, ?_⟩
  apply (install_roundTrips exitBlock 0x10000 0x11000 false exitHost 0x11000 exitFile exitEntry
    ⟨64, 32⟩ ⟨512, 160⟩ exitCode (fun _ => 0) _ exitBlock_wellFormed exitCode_saved exitFile_holds
    exitBlock_placement hrun).mpr
  rintro l register instructions rip ⟨record, hl, hmove⟩
  simp [exitBlock] at hl hmove
  obtain ⟨-, rfl, rfl, rfl⟩ := hmove
  decide +kernel

end PowerArm.CodeCache
