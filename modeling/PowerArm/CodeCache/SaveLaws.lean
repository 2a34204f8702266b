import PowerArm.CodeCache.Save
import PowerArm.CodeCache.PatchLaws

/-!
# What a saved block holds

The relocations of a block claim their own words: `SitesApart` says which spans
of two of them must not meet. Under it the storage form keeps, at every link
site outside the guest RIP windows, the word the site had when it was compiled
(`save_callerWord`).
-/

namespace PowerArm.CodeCache

open Lib

/-! ## Sites -/

theorem Span.Clear.symm (h : Span.Clear s t) : Span.Clear t s := Or.symm h

def LinkRecord.final (l : LinkRecord) (record : Nat) : Nat := (record + l.finalDelta).toNat

def LinkRecord.words (l : LinkRecord) (record : Nat) : List Span :=
  [⟨l.caller record, 4⟩, ⟨l.linkBranch record, 4⟩, ⟨l.thunk record, 4⟩, ⟨l.final record, 4⟩,
    ⟨record, 8⟩, ⟨record + 16, 40⟩]

/-- The spans of a link record that no literal or move lies in: its branch, its
thunk and the fields other than the guest RIP and the stub address. -/
def LinkRecord.fields (l : LinkRecord) (record : Nat) : List Span :=
  [⟨l.linkBranch record, 4⟩, ⟨l.thunk record, 4⟩, ⟨record, 8⟩, ⟨record + 16, 16⟩, ⟨record + 40, 16⟩]

def Relocation.window (r : Relocation) : Span := ⟨r.offset, relocWidth r.kind⟩

def RelocKind.isLink : RelocKind → Bool
  | .linkRecord _ => true
  | _ => false

def RelocKind.isMove : RelocKind → Bool
  | .guestRIPMove _ _ _ => true
  | _ => false

/-- A literal or move beside a link record: only a guest RIP move may begin at the
record's caller word. -/
def Relocation.Beside (r : Relocation) (l : LinkRecord) (record : Nat) : Prop :=
  (∀ f ∈ l.fields record, Span.Clear r.window f) ∧
    (Span.Clear r.window ⟨l.caller record, 4⟩ ∨ r.kind.isMove ∧ r.offset = l.caller record)

instance (r : Relocation) : Decidable (r.Beside l record) := inferInstanceAs (Decidable (_ ∧ _))

def SitesApart (r s : Relocation) : Prop :=
  match r.kind, s.kind with
  | .linkRecord l, .linkRecord k => ∀ a ∈ l.words r.offset, ∀ b ∈ k.words s.offset, Span.Clear a b
  | .linkRecord l, _ => s.Beside l r.offset
  | _, .linkRecord l => r.Beside l s.offset
  | _, _ => Span.Clear r.window s.window

instance : Decidable (SitesApart r s) := by
  obtain ⟨x, rk⟩ := r
  obtain ⟨y, sk⟩ := s
  unfold SitesApart
  cases rk <;> cases sk <;> infer_instance

theorem SitesApart.symm (h : SitesApart r s) : SitesApart s r := by
  obtain ⟨x, rk⟩ := r
  obtain ⟨y, sk⟩ := s
  cases rk <;> cases sk <;> first
    | exact fun b hb a ha => (h a ha b hb).symm
    | exact h
    | exact Span.Clear.symm h

theorem SitesApart.windows (h : SitesApart r s) (hr : r.kind.isLink = false)
    (hs : s.kind.isLink = false) : Span.Clear r.window s.window := by
  obtain ⟨x, rk⟩ := r
  obtain ⟨y, sk⟩ := s
  cases rk <;> cases sk <;> first
    | exact h
    | simp [RelocKind.isLink] at hr; done
    | simp [RelocKind.isLink] at hs

instance : Std.Symm SitesApart := ⟨fun _ _ => SitesApart.symm⟩

structure LinkRecord.Sound (l : LinkRecord) (record : Nat) : Prop where
  thunk : l.thunkDelta = -0x38
  caller : 4 ≤ l.caller record
  branch : l.caller record = l.linkBranch record ∨ Span.Clear ⟨l.caller record, 4⟩ ⟨l.linkBranch record, 4⟩
  final : l.finalDelta = l.callerDelta ∨ Span.Clear ⟨l.caller record, 4⟩ ⟨l.final record, 4⟩
  word : l.origCallerWord < 2 ^ 32

structure Sited (relocs : List Relocation) : Prop where
  apart : relocs.Pairwise SitesApart
  sound : ∀ record l, ⟨record, .linkRecord l⟩ ∈ relocs → l.Sound record

theorem Sited.beside (h : Sited relocs) (hl : ⟨record, .linkRecord l⟩ ∈ relocs) (hr : r ∈ relocs)
    (hother : r.kind.isLink = false) : r.Beside l record := by
  have hne : (⟨record, .linkRecord l⟩ : Relocation) ≠ r := by
    rintro rfl
    cases hother
  have hapart := h.apart.forall hl hr hne
  obtain ⟨y, kind⟩ := r
  cases kind with
  | linkRecord k => cases hother
  | _ => exact hapart

/-! ## The storage loops -/

def Relocation.Unlinks (r : Relocation) (a : Nat) : Prop :=
  ∃ l, r.kind = .linkRecord l ∧ ∃ w ∈ l.words r.offset, w.Has a

def CallerKept (r : Relocation) (m : Mem) : Prop :=
  ∀ l, r.kind = .linkRecord l → m.number (l.caller r.offset) 4 = l.origCallerWord

theorem put_kept (h : ∀ i, a ≤ i → i < a + bs.length → W i) : Kept W m (m.put a bs) := by
  intro i hi
  apply put_outside
  by_contra hin
  exact hi (h i (by omega) (by omega))

theorem unlinks_word (hw : w ∈ LinkRecord.words l record) : Kept (Relocation.Unlinks ⟨record, .linkRecord l⟩) m
      (m.put w.base (numberBytes w.size v)) := by
  apply put_kept
  intro i hi hlt
  rw [numberBytes_length] at hlt
  exact ⟨l, rfl, w, hw, hi, hlt⟩

section
variable {relocs : List Relocation} {size : Nat} {m : Mem}

theorem unlink_gives (hsound : ∀ l, r.kind = .linkRecord l → l.Sound r.offset)
    (hcold : ∀ l, r.kind = .linkRecord l → l.caller r.offset + 60 ≤ r.offset) :
    Gives (unlink size r) m fun _ m' => CallerKept r m' ∧ Kept r.Unlinks m m' := by
  obtain ⟨record, kind⟩ := r
  cases kind with
  | linkRecord l =>
    have hs : l.Sound record := hsound l rfl
    have hc : l.caller record + 60 ≤ record := hcold l rfl
    apply Gives.bind_require
    intro hsites
    apply Gives.bind_store
    apply Gives.bind_store
    apply Gives.bind_store
    have hthunk : l.thunk record + 56 = record := by
      unfold LinkRecord.thunk
      rw [hs.thunk]
      omega
    have hkept : Kept (Relocation.Unlinks ⟨record, .linkRecord l⟩) m
        (((m.put (l.caller record) (numberBytes 4 l.origCallerWord)).put
          (l.thunk record) (numberBytes 4 l.origThunkWord)).put record (numberBytes 8 0)) :=
      ((unlinks_word (w := ⟨l.caller record, 4⟩) (by simp [LinkRecord.words])).trans
        (unlinks_word (w := ⟨l.thunk record, 4⟩) (by simp [LinkRecord.words]))).trans
        (unlinks_word (w := ⟨record, 8⟩) (by simp [LinkRecord.words]))
    have hword : (((m.put (l.caller record) (numberBytes 4 l.origCallerWord)).put
        (l.thunk record) (numberBytes 4 l.origThunkWord)).put record (numberBytes 8 0)).number
        (l.caller record) 4 = l.origCallerWord := by
      rw [number_put_away _ _ (by omega), number_put_away _ _ (by omega), number_put]
      exact Nat.mod_eq_of_lt hs.word
    dsimp only
    split
    · next hfinal =>
      apply Gives.store
      refine ⟨?_, hkept.trans (unlinks_word (w := ⟨l.final record, 4⟩) (by simp [LinkRecord.words]))⟩
      rintro _ ⟨⟩
      have hclear := hs.final.resolve_left hfinal.2.1
      exact (number_put_away _ _ hclear).trans hword
    · refine Gives.pure ⟨?_, hkept⟩
      rintro _ ⟨⟩
      exact hword
  | _ => exact Gives.pure ⟨nofun, Kept.refl _ _⟩

theorem CallerKept.kept (h : CallerKept r m) (hk : Kept W m m')
    (hW : ∀ l, r.kind = .linkRecord l → ∀ i, l.caller r.offset ≤ i → i < l.caller r.offset + 4 →
      ¬ W i) : CallerKept r m' := by
  intro l hl
  rw [← h l hl]
  exact number_congr fun i hi hlt => hk i (hW l hl i hi hlt)

theorem unlinkAll_gives (hs : Sited relocs)
    (hcold : ∀ record l, ⟨record, .linkRecord l⟩ ∈ relocs → l.caller record + 60 ≤ record) :
    Gives (relocs.forM (unlink size)) m fun _ m' => ∀ r ∈ relocs, CallerKept r m' := by
  refine (Gives.forM (W := Relocation.Unlinks) ?_ ?_).mono fun _ _ h => h.1
  · rintro ⟨record, kind⟩ hr m
    apply unlink_gives
    · rintro l rfl
      exact hs.sound record l hr
    · rintro l rfl
      exact hcold record l hr
  · refine hs.apart.imp ?_
    rintro ⟨x, rk⟩ ⟨y, sk⟩ hapart m m' hk hkept
    apply hkept.kept hk
    rintro l rfl i hi hlt ⟨k, rfl, w, hw, hin⟩
    have hclear := hapart ⟨l.caller x, 4⟩ (by simp [LinkRecord.words]) w hw
    unfold Span.Clear at hclear
    unfold Span.Has at hin
    simp only at hi hlt hclear
    omega

theorem storageBytes_gives (hother : RelocKind.isLink kind = false) :
    Gives (storageBytes kind) m fun bytes m' => bytes.length = relocWidth kind ∧ m' = m := by
  cases kind with
  | linkRecord l => cases hother
  | unknown type => exact Gives.refuse
  | guestRIPMove register instructions rip =>
    simp only [storageBytes]
    split
    · next hzero =>
      subst hzero
      exact Gives.pure ⟨by simp [relocWidth, Ppc.loadConstantFixedBytes], rfl⟩
    · next hn =>
      apply Gives.bind_require
      intro _
      exact Gives.pure ⟨by simp [relocWidth, hn], rfl⟩
  | _ => exact Gives.pure ⟨by simp [relocWidth, Ppc.loadConstantFixedBytes], rfl⟩

theorem toStorage_gives : Gives (toStorage size r) m fun _ m' =>
      Kept (fun a => r.kind.isLink = false ∧ r.window.Has a) m m' := by
  obtain ⟨offset, kind⟩ := r
  apply Gives.bind_require
  intro _
  apply Gives.bind
  cases kind with
  | linkRecord l =>
    apply Gives.pure
    apply Gives.store
    exact put_kept fun i hi hlt => absurd hlt (by simpa using hi)
  | _ =>
    refine (storageBytes_gives rfl).mono ?_
    rintro bytes _ ⟨hlen, rfl⟩
    apply Gives.store
    apply put_kept
    intro i hi hlt
    rw [hlen] at hlt
    exact ⟨rfl, hi, hlt⟩

theorem recordWords_gives (hcold : ∀ l, r.kind = .linkRecord l → hot ≤ r.offset) :
    Gives (recordWords size r) m fun _ m' => Kept (fun a => hot ≤ a) m m' := by
  obtain ⟨record, kind⟩ := r
  cases kind with
  | linkRecord l =>
    have hrecord : hot ≤ record := hcold l rfl
    apply Gives.bind_require
    intro _
    apply Gives.bind_load
    apply Gives.bind_load
    apply Gives.bind_store
    apply Gives.store
    refine (put_kept ?_).trans (put_kept ?_)
    · intro i hi _
      exact Nat.le_trans (Nat.le_trans hrecord (Nat.le_add_right _ _)) hi
    · intro i hi _
      exact Nat.le_trans (Nat.le_trans hrecord (Nat.le_add_right _ _)) hi
  | _ => exact Gives.pure (Kept.refl _ _)

end

/-! ## The saved block -/

theorem save_callerWord {v : Live} (hs : Sited (v.relocs.map (v.stored fileStartVA)))
    (hcold : ∀ record l, ⟨record, .linkRecord l⟩ ∈ v.relocs.map (v.stored fileStartVA) → v.size + 56 ≤ record)
    (hcaller : ∀ record l, ⟨record, .linkRecord l⟩ ∈ v.relocs.map (v.stored fileStartVA) →
      l.caller record + 4 ≤ v.size)
    (hl : ⟨record, .linkRecord l⟩ ∈ v.relocs.map (v.stored fileStartVA))
    (hclear : ∀ r ∈ v.relocs.map (v.stored fileStartVA), r.kind.isLink = false →
      Span.Clear r.window ⟨l.caller record, 4⟩) :
    Gives (v.save fileStartVA) m fun _ m' => m'.number (l.caller record) 4 = l.origCallerWord := by
  have hsite := hcaller record l hl
  apply Gives.bind_require
  intro _
  apply Gives.bind
  apply Gives.bind
  refine (unlinkAll_gives hs fun x k hx => ?_).mono fun _ m₁ hunlinked => ?_
  · have := hcold x k hx
    have := hcaller x k hx
    omega
  apply Gives.bind
  refine Gives.mono (Gives.forM_keeps ?_ (hunlinked _ hl)) fun _ m₂ hstored => ?_
  · intro r hr m hkept
    refine toStorage_gives.mono fun _ m' hk => hkept.kept hk ?_
    rintro _ ⟨⟩ i hi hlt ⟨hother, hin⟩
    have hclr := hclear r hr hother
    unfold Span.Clear at hclr
    unfold Span.Has at hin
    simp only at hi hlt hclr
    omega
  refine Gives.mono (Gives.forM_keeps ?_ hstored) fun _ m₃ hrecorded => ?_
  · rintro ⟨x, kind⟩ hr m hkept
    have hrecord (k) (hk : kind = .linkRecord k) : v.size ≤ x := by
      subst hk
      have := hcold x k hr
      omega
    refine (recordWords_gives hrecord).mono fun _ m' hk => hkept.kept hk ?_
    rintro _ ⟨⟩ i hi hlt hge
    simp only at hi hlt
    omega
  apply Gives.bind_store
  apply Gives.store
  rw [number_put_away _ _ (by omega), number_put_away _ _ (.inr (hs.sound record l hl).caller)]
  exact hrecorded l rfl

end PowerArm.CodeCache
