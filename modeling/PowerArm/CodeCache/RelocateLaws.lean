import PowerArm.CodeCache.Relocate

/-!
# Where the relocator writes

In block offsets, hot bytes first and the cold bytes after them, every
relocation names the bytes it may change (`Relocation.Writes`). Whatever the
file says, the relocator touches the two destination spans only and changes no
other byte (`relocateLink_within`, `relocateOther_within`).
-/

namespace PowerArm.CodeCache

open Lib

def placed (hot cold : Span) (x : Nat) : Nat :=
  if x < hot.size then hot.base + x else cold.base + (x - hot.size)

def RelocKind.writes (offset : Nat) : RelocKind → List Span
  | .linkRecord l => [⟨(offset + l.linkBranchDelta).toNat, 4⟩, ⟨offset + 16, 40⟩]
  | kind => [⟨offset, relocWidth kind⟩]

def Relocation.Writes (r : Relocation) (x : Nat) : Prop := ∃ w ∈ r.kind.writes r.offset, w.Has x

def Footprint (hot cold : Span) (relocs : List Relocation) (a : Nat) : Prop :=
  ∃ r ∈ relocs, ∃ x, r.Writes x ∧ x < hot.size + cold.size ∧ a = placed hot cold x

/-! ## Spans -/

theorem covers_hot (h : Span.Covers hot a n) : ∃ s ∈ [hot, cold], Span.Covers s a n := ⟨hot, by simp, h⟩

theorem covers_cold (h : Span.Covers cold a n) : ∃ s ∈ [hot, cold], Span.Covers s a n := ⟨cold, by simp, h⟩

theorem placed_hot (h : x < hot.size) : placed hot cold x = hot.base + x := if_pos h

theorem placed_cold (h : hot.size ≤ x) : placed hot cold x = cold.base + (x - hot.size) := if_neg (by omega)

theorem footprint_hot (hr : r ∈ relocs) (hw : Relocation.Writes r x) (hx : x < hot.size)
    (ha : a = hot.base + x) : Footprint hot cold relocs a :=
  ⟨r, hr, x, hw, by omega, by rw [placed_hot hx, ha]⟩

theorem footprint_cold (hr : r ∈ relocs) (hw : Relocation.Writes r x) (hx : hot.size ≤ x)
    (hlt : x < hot.size + cold.size) (ha : a = cold.base + (x - hot.size)) : Footprint hot cold relocs a :=
  ⟨r, hr, x, hw, hlt, by rw [placed_cold hx, ha]⟩

theorem Footprint.spans (h : Footprint hot cold relocs a) : hot.Has a ∨ cold.Has a := by
  obtain ⟨r, _, x, _, hlt, rfl⟩ := h
  by_cases hx : x < hot.size
  · rw [placed_hot hx]
    exact .inl ⟨by omega, by omega⟩
  · rw [placed_cold (by omega)]
    exact .inr ⟨by omega, by omega⟩

/-! ## Link records -/

section
variable {host : Host} {hot cold : Span} {relocs : List Relocation} {m : Mem}

section
variable {l : LinkRecord} (hr : ⟨offset, .linkRecord l⟩ ∈ relocs) (hhot : hot.size ≤ offset)
  (hrec : offset - hot.size + linkRecordSize ≤ cold.size) (hlo : 16 ≤ k)
include hr hhot hrec hlo

theorem store_record (hhi : k + bs.length ≤ 56) :
    Within (Prog.store [hot, cold] (cold.base + (offset - hot.size) + k) bs) m
      (Footprint hot cold relocs) fun _ _ => True := by
  unfold linkRecordSize at hrec
  apply Within.store
  · exact covers_cold ⟨by omega, by omega⟩
  · intro i hi hlt
    have hx : (⟨offset, .linkRecord l⟩ : Relocation).Writes (hot.size + (i - cold.base)) :=
      ⟨⟨offset + 16, 40⟩, by simp [RelocKind.writes], by constructor <;> simp only <;> omega⟩
    exact footprint_cold hr hx (by omega) (by omega) (by omega)
  · trivial

theorem patchOffset_within (hhi : k + 8 ≤ 56) :
    Within (patchOffset hot cold (cold.base + (offset - hot.size) + k) record offset delta tag) m
      (Footprint hot cold relocs) fun _ _ => True := by
  unfold patchOffset
  split
  · apply Within.bind_require
    intro _
    exact store_record hr hhot hrec hlo (by simpa using hhi)
  · exact store_record hr hhot hrec hlo (by simpa using hhi)

end

theorem unlinkedCallerWord_within (h : hot.Covers caller 4) :
    Within (unlinkedCallerWord hot cold caller linkBranch orig) m W fun _ _ => True := by
  unfold unlinkedCallerWord
  split
  · exact Within.load (covers_hot h) trivial
  · exact Within.pure trivial

theorem patchLink_within (hr : ⟨offset, .linkRecord l⟩ ∈ relocs) :
    Within (patchLink host hot cold offset l) m (Footprint hot cold relocs) fun _ _ => True := by
  unfold patchLink
  apply Within.bind_require
  intro hoff
  apply Within.bind_require
  intro hrec
  apply Within.bind_require
  intro hthunk
  apply Within.bind_require
  intro hcaller
  apply Within.bind_require
  intro hbranch
  have hhot := hoff.1
  have hsize : offset - hot.size + 56 ≤ cold.size := hrec
  have hthunk' : (((offset - hot.size : Nat) : Int) + l.thunkDelta) + 112 ≤ cold.size := hthunk.2
  apply Within.bind_load (covers_cold ⟨by omega, by omega⟩)
  apply Within.bind_load (covers_cold ⟨by omega, by omega⟩)
  apply Within.bind_require
  intro _
  apply Within.bind_require
  intro _
  have hwrites (i) (hi : i < 4) :
      (⟨offset, .linkRecord l⟩ : Relocation).Writes ((offset + l.linkBranchDelta).toNat + i) :=
    ⟨⟨(offset + l.linkBranchDelta).toNat, 4⟩, by simp [RelocKind.writes], by constructor <;> simp only <;> omega⟩
  refine Within.seq (Within.store (covers_hot ⟨by omega, by rw [numberBytes_length]; omega⟩) ?_
    trivial) fun _ _ => ?_
  · intro i hi hlt
    rw [numberBytes_length] at hlt
    have hx := hwrites (i - (hot.base + (offset + l.linkBranchDelta).toNat)) (by omega)
    exact footprint_hot hr hx (by omega) (by omega)
  refine Within.seq (store_record hr hhot hrec (by omega) (by simp)) fun _ _ => ?_
  refine Within.seq (unlinkedCallerWord_within ⟨by omega, by omega⟩) fun _ _ => ?_
  refine Within.seq (store_record hr hhot hrec (by omega) (by simp)) fun _ _ => ?_
  refine Within.seq (store_record hr hhot hrec (by omega) (by simp)) fun _ _ => ?_
  refine Within.seq (store_record hr hhot hrec (by omega) (by simp)) fun _ _ => ?_
  refine Within.seq (patchOffset_within hr hhot hrec (by omega) (by omega)) fun _ _ => ?_
  exact patchOffset_within hr hhot hrec (by omega) (by omega)

theorem relocateLink_within (hr : r ∈ relocs) :
    Within (relocateLink host hot cold r) m (Footprint hot cold relocs) fun _ _ => True := by
  obtain ⟨offset, kind⟩ := r
  unfold relocateLink
  split
  · next l hl =>
    subst hl
    exact patchLink_within hr
  · exact Within.pure trivial

/-! ## The other relocations -/

@[simp] theorem wordBytes_length (words : List Ppc.Word) : (wordBytes words).length = words.length * 4 := by
  induction words with
  | nil => rfl
  | cons w ws ih =>
    have : wordBytes (w :: ws) = numberBytes 4 w.toNat ++ wordBytes ws := rfl
    rw [this, List.length_append, numberBytes_length, List.length_cons]
    omega

theorem paddedMove_length (h : words.length * 4 ≤ n * 4) : (paddedMove words (n * 4)).length = n := by
  simp only [paddedMove, List.length_append, List.length_replicate]
  omega

/-- `width` bytes from `ptr` are the bytes of `r`, inside one of the spans. -/
structure Dest (hot cold : Span) (relocs : List Relocation) (ptr width : Nat) : Prop where
  covered : ∃ s ∈ [hot, cold], s.Covers ptr width
  footprint : ∀ i, ptr ≤ i → i < ptr + width → Footprint hot cold relocs i

theorem Dest.store (hd : Dest hot cold relocs ptr width) (h : bs.length = width) :
    Within (Prog.store [hot, cold] ptr bs) m (Footprint hot cold relocs) fun _ _ => True := by
  subst h
  exact Within.store hd.covered hd.footprint trivial

theorem patchAt_within (hd : Dest hot cold relocs ptr (relocWidth kind)) :
    Within (patchAt host guestEntry hot cold ptr kind) m (Footprint hot cold relocs) fun _ _ => True := by
  cases kind with
  | namedSymbolLiteral symbol =>
    simp only [patchAt]
    split
    · exact hd.store (numberBytes_length 8 _)
    · exact Within.abort
  | namedThunkMove register symbol =>
    apply Within.bind_require
    intro _
    exact hd.store (wordBytes_length _)
  | guestRIPLiteral guestRIP => exact hd.store (numberBytes_length 8 _)
  | guestRIPMove register instructions guestRIP =>
    simp only [patchAt]
    split
    · next hzero =>
      subst hzero
      exact hd.store (wordBytes_length _)
    · next hn =>
      have hwidth : relocWidth (.guestRIPMove register instructions guestRIP) = instructions * 4 := if_pos hn
      rw [hwidth] at hd
      apply Within.bind_require
      intro hfit
      apply hd.store
      rw [wordBytes_length, paddedMove_length hfit.1]
  | linkRecord l => exact Within.pure trivial
  | unknown type => exact Within.refuse

theorem relocDest_within (hr : r ∈ relocs) (hk : r.kind.writes r.offset = [⟨r.offset, width⟩]) :
    Within (relocDest hot cold r.offset width) m (Footprint hot cold relocs)
      fun ptr _ => Dest hot cold relocs ptr width := by
  have hwrites (x) (hlo : r.offset ≤ x) (hhi : x < r.offset + width) : r.Writes x :=
    ⟨⟨r.offset, width⟩, by simp [hk], hlo, hhi⟩
  unfold relocDest
  split
  · next hlt =>
    apply Within.bind_require
    intro hfit
    refine Within.pure ⟨covers_hot ⟨by omega, by omega⟩, ?_⟩
    intro i hi hilt
    exact footprint_hot hr (hwrites (i - hot.base) (by omega) (by omega)) (by omega) (by omega)
  · next hge =>
    apply Within.bind_require
    intro hfit
    refine Within.pure ⟨covers_cold ⟨by omega, by omega⟩, ?_⟩
    intro i hi hilt
    exact footprint_cold hr (hwrites (hot.size + (i - cold.base)) (by omega) (by omega)) (by omega)
      (by omega) (by omega)

theorem relocateOther_within (hr : r ∈ relocs) :
    Within (relocateOther host guestEntry hot cold r) m (Footprint hot cold relocs) fun _ _ => True := by
  unfold relocateOther
  split
  · exact Within.pure trivial
  · next hkind =>
    refine Within.bind (relocDest_within hr ?_) ?_
    · cases hk : r.kind with
      | linkRecord l => exact absurd hk (hkind l)
      | _ => rfl
    · intro ptr m' _ hd
      exact patchAt_within hd

end

end PowerArm.CodeCache
