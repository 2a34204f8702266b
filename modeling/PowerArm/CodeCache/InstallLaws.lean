import PowerArm.CodeCache.SegmentLaws

/-!
# Installing a block

Where a block is placed in the code buffer, and what its bytes are once it is
there. `EnsureHeadroom` leaves the hot and the cold span inside the free bytes
and apart from each other, the writes of an installation stay in
those spans (`install_within`), and a block whose file keeps its RIP table
inside the cold bytes can be walked there (`Copied.readable`).
-/

namespace PowerArm.CodeCache

open Lib

/-! ## The chunk allocator -/

namespace Buffer

structure Ok (b : Buffer) : Prop where
  latest_le : b.latestOffset ≤ b.coldOffset
  cold_le : b.coldOffset ≤ b.chunkEnd
  chunk_le : b.chunkEnd ≤ b.usable
  near : b.coldOffset ≤ b.latestOffset + kChunkSize

def Free (b : Buffer) (a : Nat) : Prop := (b.latestOffset ≤ a ∧ a < b.coldOffset) ∨ (b.chunkEnd ≤ a ∧ a < b.usable)

/-- `b'` is `b` some chunks on: the same buffer with no more free bytes. -/
structure Onward (b b' : Buffer) : Prop where
  ok : b'.Ok
  ptr : b'.ptr = b.ptr
  usable : b'.usable = b.usable
  free : ∀ a, b'.Free a → b.Free a

theorem Onward.trans (h : Onward b b') (h' : Onward b' b'') : Onward b b'' :=
  ⟨h'.ok, h'.ptr.trans h.ptr, h'.usable.trans h.usable, fun a ha => h.free a (h'.free a ha)⟩

theorem firstChunk_onward (h : Ok b) : Onward b b.firstChunk := by
  obtain ⟨hlatest, hcold, hchunk, hnear⟩ := h
  unfold firstChunk
  split
  · next hzero =>
    refine ⟨⟨Nat.zero_le _, Nat.le_refl _, Nat.min_le_right _ _, ?_⟩, rfl, rfl, ?_⟩
    · simp
    rintro a (⟨_, ha⟩ | ⟨_, ha⟩)
    · exact .inr ⟨by omega, by simp only at ha; omega⟩
    · exact .inr ⟨by omega, ha⟩
  · exact ⟨⟨hlatest, hcold, hchunk, hnear⟩, rfl, rfl, fun _ ha => ha⟩

theorem nextChunk_onward (h : Ok b) : Onward b b.nextChunk := by
  obtain ⟨hlatest, hcold, hchunk, _⟩ := h
  refine ⟨⟨?_, Nat.le_refl _, Nat.min_le_right _ _, Nat.min_le_left _ _⟩, rfl, rfl, ?_⟩
  · simp only [nextChunk]
    omega
  · rintro a (⟨hlo, hhi⟩ | ⟨hlo, hhi⟩) <;> simp only [nextChunk] at hlo hhi
    · exact .inr ⟨hlo, by omega⟩
    · exact .inr ⟨by omega, hhi⟩

theorem headroomLoop_onward (h : Ok b) : Onward b (headroomLoop need fuel b).1 ∧ ((headroomLoop need fuel b).2 →
      (headroomLoop need fuel b).1.latestOffset + need ≤ (headroomLoop need fuel b).1.coldOffset) := by
  have hself : Onward b b := ⟨h, rfl, rfl, fun _ ha => ha⟩
  induction fuel generalizing b with
  | zero => exact ⟨hself, nofun⟩
  | succ fuel ih =>
    unfold headroomLoop
    split
    · split
      · exact ⟨hself, nofun⟩
      · have hnext := nextChunk_onward h
        obtain ⟨honward, hroom⟩ := ih hnext.ok ⟨hnext.ok, rfl, rfl, fun _ ha => ha⟩
        exact ⟨hnext.trans honward, hroom⟩
    · next hfits => exact ⟨hself, fun _ => Nat.not_lt.mp hfits⟩

theorem ensureHeadroom_onward (h : Ok b) : Onward b (b.ensureHeadroom need).1 :=
  (firstChunk_onward h).trans (headroomLoop_onward (firstChunk_onward h).ok).1

theorem ensureHeadroom_room (h : Ok b) (hroom : (b.ensureHeadroom need).2) :
    (b.ensureHeadroom need).1.latestOffset + need ≤ (b.ensureHeadroom need).1.coldOffset :=
  (headroomLoop_onward (firstChunk_onward h).ok).2 hroom

end Buffer

theorem alignUp_bounds (v : Nat) : v ≤ alignUp v 16 ∧ alignUp v 16 ≤ v + 15 := by
  unfold alignUp
  omega

theorem alignUp_of_mod (h : v % 16 = 0) : alignUp v 16 = v := by
  unfold alignUp
  omega

/-! ## The installation -/

def Apart (hot cold : Span) : Prop := hot.base + hot.size ≤ cold.base

theorem placed_inj (h : Apart hot cold) (heq : placed hot cold x = placed hot cold y) : x = y := by
  unfold Apart at h
  unfold placed at heq
  split at heq <;> split at heq <;> omega

/-- The block's bytes as the file has them, with the header word set. -/
structure Copied (seg : Segment) (b : SegmentBlock) (hot cold : Span) (m : Mem) : Prop where
  header : m.number hot.base 4 = cold.base - hot.base
  code : ∀ x, 4 ≤ x → x < hot.size + cold.size →
    m (placed hot cold x) = seg.image.byte (seg.codeOffset + b.codeOffset + x)

section
variable {seg : Segment} {b : SegmentBlock} {hot cold : Span} {m : Mem}

def copiedMem (seg : Segment) (b : SegmentBlock) (hot cold : Span) (m : Mem) : Mem :=
  let code := seg.codeOffset + b.codeOffset
  ((m.put hot.base (seg.image.byte.slice code hot.size)).put cold.base
      (seg.image.byte.slice (code + hot.size) cold.size)).put hot.base
    (numberBytes 4 (((cold.base : Int) - hot.base) % 2 ^ 32).toNat)

theorem copiedMem_copied (hap : Apart hot cold) (hhot : 4 ≤ hot.size)
    (hnear : cold.base - hot.base < 2 ^ 32) : Copied seg b hot cold (copiedMem seg b hot cold m) := by
  unfold Apart at hap
  constructor
  · have hword : (((cold.base : Int) - hot.base) % 2 ^ 32).toNat = cold.base - hot.base := by omega
    unfold copiedMem
    rw [number_put, hword, Nat.mod_eq_of_lt (by omega)]
  · intro x hx hlt
    unfold copiedMem
    by_cases hin : x < hot.size
    · rw [placed_hot hin, put_outside _ _ (by rw [numberBytes_length]; omega),
        put_outside _ _ (by omega), put_slice _ _ (by omega) (by omega), Nat.add_sub_cancel_left]
    · rw [placed_cold (by omega), put_outside _ _ (by rw [numberBytes_length]; omega),
        put_slice _ _ (by omega) (by omega)]
      congr 1
      omega

def Reserved (hot cold : Span) (a : Nat) : Prop := hot.Has a ∨ cold.Has a

/-- An installation stays in its spans; a block it completes has the file's bytes
where no relocation writes. -/
theorem install_within (hfits : seg.Fits b) (hap : Apart hot cold) (hhot : hot.size = b.hotSize)
    (hcold : cold.size = b.coldSize) (hnear : cold.base - hot.base < 2 ^ 32) :
    Within (install host fileStartVA guestRIP seg b hot cold) m (Reserved hot cold) fun _ m' =>
      ∃ m₁, Copied seg b hot cold m₁ ∧ Kept (Footprint hot cold (seg.relocs b)) m₁ m' := by
  have hcode := hfits.code_le
  have hle : b.coldSize ≤ b.codeSize := hfits.2.2.2.1
  have hhot4 : 8 ≤ hot.size := hhot ▸ hfits.2.2.2.2.2.1
  have hcold48 : 48 ≤ cold.size := hcold ▸ hfits.2.2.2.2.2.2.1
  unfold SegmentBlock.hotSize at hhot
  unfold install
  apply Within.bind_fetch (by omega)
  refine Within.bind (Q := fun _ m' =>
    m' = m.put hot.base (seg.image.byte.slice (seg.codeOffset + b.codeOffset) hot.size)) ?_ ?_
  · apply Within.store (covers_hot ⟨by omega, by simp⟩) _ rfl
    intro i hi hlt
    rw [slice_length] at hlt
    exact .inl ⟨hi, hlt⟩
  rintro _ m' _ rfl
  apply Within.bind_fetch (by omega)
  refine Within.bind (Q := fun _ m' =>
    m' = (m.put hot.base (seg.image.byte.slice (seg.codeOffset + b.codeOffset) hot.size)).put
      cold.base (seg.image.byte.slice (seg.codeOffset + b.codeOffset + hot.size) cold.size)) ?_ ?_
  · apply Within.store (covers_cold ⟨by omega, by simp⟩) _ rfl
    intro i hi hlt
    rw [slice_length] at hlt
    exact .inr ⟨hi, hlt⟩
  rintro _ m' _ rfl
  refine Within.bind (fetchRelocs_within hfits.relocs_le) ?_
  rintro rs m' _ ⟨rfl, rfl⟩
  have hspans (i : Nat) (h : Footprint hot cold (seg.relocs b) i) : Reserved hot cold i := h.spans
  refine Within.bind (Q := fun _ m' => ∃ m₁, Copied seg b hot cold m₁ ∧
      Kept (Footprint hot cold (seg.relocs b)) m₁ m') ?_ ?_
  · unfold applyCodeRelocationsSplit
    rw [if_pos (show jitCodeHeaderSize ≤ hot.size by unfold jitCodeHeaderSize; omega)]
    refine Within.bind (Q := fun _ m' => m' = copiedMem seg b hot cold m) ?_ ?_
    · apply Within.store (covers_hot ⟨by omega, by rw [numberBytes_length]; omega⟩) _ rfl
      intro i hi hlt
      rw [numberBytes_length] at hlt
      exact .inl ⟨hi, by omega⟩
    rintro _ m' _ rfl
    have hloops : Within (do
        (seg.relocs b).forM (relocateLink host hot cold)
        (seg.relocs b).forM (relocateOther host fileStartVA hot cold))
        (copiedMem seg b hot cold m) (Footprint hot cold (seg.relocs b)) fun _ _ => True :=
      Within.seq (Within.forM fun r hr m => relocateLink_within hr) fun _ _ =>
        Within.forM fun r hr m => relocateOther_within hr
    refine hloops.mono hspans ?_
    intro _ m' hkept _
    exact ⟨_, copiedMem_copied hap (by omega) hnear, hkept⟩
  rintro _ m' _ hdone
  apply Within.bind_load (covers_cold ⟨by omega, by omega⟩)
  apply Within.bind_load (covers_cold ⟨by omega, by omega⟩)
  apply Within.bind_load (covers_cold ⟨by omega, by omega⟩)
  apply Within.bind_load (covers_cold ⟨by omega, by omega⟩)
  unfold Prog.require
  split
  · exact Within.pure hdone
  · exact Within.refuse

/-! ## RIP tables -/

def tableEnd (m : Mem) : Nat → Nat → Nat
  | 0, a => a
  | n + 1, a => tableEnd m n (a + pairSize (m a).toNat)

theorem pairSize_pos (first : Nat) : 0 < pairSize first := by
  unfold pairSize
  split
  · decide
  split
  · decide
  split <;> decide

theorem le_tableEnd (m : Mem) (n a : Nat) : a ≤ tableEnd m n a := by
  induction n generalizing a with
  | zero => exact Nat.le_refl a
  | succ n ih => exact Nat.le_trans (Nat.le_add_right a _) (ih _)

theorem tableEnd_shift (h : ∀ i, a + i < tableEnd m n a → m' (a' + i) = m (a + i)) :
    tableEnd m' n a' - a' = tableEnd m n a - a := by
  induction n generalizing a a' with
  | zero => simp [tableEnd]
  | succ n ih =>
    have hstep := le_tableEnd m n (a + pairSize (m a).toNat)
    have hpos := pairSize_pos (m a).toNat
    have hfirst : m' a' = m a := h 0 (by simp only [tableEnd]; omega)
    have hrest := @ih (a + pairSize (m a).toNat) (a' + pairSize (m a).toNat) fun i hi => by
      rw [Nat.add_assoc, Nat.add_assoc a]
      exact h _ (by simp only [tableEnd]; omega)
    have hstep' := le_tableEnd m' n (a' + pairSize (m a).toNat)
    simp only [tableEnd, hfirst]
    omega

/-- A block whose header leads to its tail and whose table ends inside the cold
bytes. -/
structure Readable (m : Mem) (hot cold : Span) : Prop where
  hot_size : 4 ≤ hot.size
  cold_size : 48 ≤ cold.size
  header : hot.base + m.number hot.base 4 = cold.base
  table : m.number (cold.base + 24) 4 = 0 ∨
    tableEnd m (m.number (cold.base + 24) 4) (cold.base + m.number (cold.base + 28) 4) ≤ cold.base + cold.size

def Span.Clear (s t : Span) : Prop := s.base + s.size ≤ t.base ∨ t.base + t.size ≤ s.base

instance : Decidable (Span.Clear s t) := inferInstanceAs (Decidable (_ ∨ _))

def Segment.tail (seg : Segment) (b : SegmentBlock) : Nat := seg.codeOffset + b.codeOffset + b.hotSize

def Segment.numberOfRIPEntries (seg : Segment) (b : SegmentBlock) : Nat := seg.image.byte.number (seg.tail b + 24) 4

def Segment.offsetToRIPEntries (seg : Segment) (b : SegmentBlock) : Nat := seg.image.byte.number (seg.tail b + 28) 4

def Segment.ripTableEnd (seg : Segment) (b : SegmentBlock) : Nat :=
  tableEnd seg.image.byte (seg.numberOfRIPEntries b) (seg.tail b + seg.offsetToRIPEntries b)

/-- The block offsets a lookup goes by: the header, the table's count and offset,
and the table. -/
def Segment.lookedUp (seg : Segment) (b : SegmentBlock) : List Span :=
  [⟨0, 4⟩, ⟨b.hotSize + 24, 8⟩, ⟨b.hotSize + seg.offsetToRIPEntries b,
      seg.ripTableEnd b - (seg.tail b + seg.offsetToRIPEntries b)⟩]

/-- The file's RIP table ends inside the cold bytes, and no relocation writes to
what a lookup goes by. -/
def Segment.TableOk (seg : Segment) (b : SegmentBlock) : Prop :=
  (seg.numberOfRIPEntries b = 0 ∨ seg.ripTableEnd b ≤ seg.tail b + b.coldSize) ∧
    ∀ r ∈ seg.relocs b, ∀ w ∈ r.kind.writes r.offset, ∀ t ∈ seg.lookedUp b, Span.Clear w t

instance : Decidable (Segment.TableOk seg b) := inferInstanceAs (Decidable (_ ∧ _))

theorem Segment.TableOk.kept (hok : seg.TableOk b) (hap : Apart hot cold)
    (hkept : Kept (Footprint hot cold (seg.relocs b)) m₁ m') (ht : t ∈ seg.lookedUp b)
    (hx : t.Has x) : m' (placed hot cold x) = m₁ (placed hot cold x) := by
  apply hkept
  rintro ⟨r, hr, y, ⟨w, hw, hy⟩, _, heq⟩
  have hclear := hok.2 r hr w hw t ht
  rw [← placed_inj hap heq] at hy
  unfold Span.Has at hx hy
  unfold Span.Clear at hclear
  omega

theorem Copied.readable (hcopied : Copied seg b hot cold m₁)
    (hkept : Kept (Footprint hot cold (seg.relocs b)) m₁ m') (hok : seg.TableOk b)
    (hap : Apart hot cold) (hhot : hot.size = b.hotSize) (hcold : cold.size = b.coldSize)
    (hhot4 : 4 ≤ hot.size) (hcold48 : 48 ≤ cold.size) : Readable m' hot cold := by
  have hap' : hot.base + hot.size ≤ cold.base := hap
  have hheader : m'.number hot.base 4 = m₁.number hot.base 4 := by
    apply number_congr
    intro i hi hlt
    have := hok.kept hap hkept (t := ⟨0, 4⟩) (x := i - hot.base) (by simp [Segment.lookedUp])
      ⟨Nat.zero_le _, by simp only; omega⟩
    rwa [placed_hot (by omega), Nat.add_sub_cancel' hi] at this
  -- a looked-up cold byte is the file's byte
  have hbyte (t) (ht : t ∈ seg.lookedUp b) (k) (hk : t.Has (b.hotSize + k)) (hlt : k < cold.size) :
      m' (cold.base + k) = seg.image.byte (seg.tail b + k) := by
    have hsame := hok.kept hap hkept ht hk
    rw [hcopied.code _ (by omega) (by omega), placed_cold (by omega), ← hhot, Nat.add_sub_cancel_left] at hsame
    rw [hsame, Segment.tail, ← hhot, Nat.add_assoc (seg.codeOffset + b.codeOffset)]
  have hfields (k) (hlo : 24 ≤ k) (hhi : k < 32) : m' (cold.base + k) = seg.image.byte (seg.tail b + k) :=
    hbyte ⟨b.hotSize + 24, 8⟩ (by simp [Segment.lookedUp]) k ⟨by simp only; omega, by simp only; omega⟩ (by omega)
  have hentries : m'.number (cold.base + 24) 4 = seg.numberOfRIPEntries b :=
    number_shift fun i hi => by
      rw [Nat.add_assoc, Nat.add_assoc]
      exact hfields (24 + i) (by omega) (by omega)
  have hoffset : m'.number (cold.base + 28) 4 = seg.offsetToRIPEntries b :=
    number_shift fun i hi => by
      rw [Nat.add_assoc, Nat.add_assoc]
      exact hfields (28 + i) (by omega) (by omega)
  refine ⟨hhot4, hcold48, ?_, ?_⟩
  · rw [hheader, hcopied.header]
    omega
  rw [hentries, hoffset]
  refine hok.1.imp id fun hend => ?_
  have hle : seg.tail b + seg.offsetToRIPEntries b ≤ seg.ripTableEnd b := le_tableEnd _ _ _
  have hshift : tableEnd m' (seg.numberOfRIPEntries b) (cold.base + seg.offsetToRIPEntries b) -
      (cold.base + seg.offsetToRIPEntries b) =
      seg.ripTableEnd b - (seg.tail b + seg.offsetToRIPEntries b) := by
    apply tableEnd_shift
    intro i hi
    have hi' : seg.tail b + seg.offsetToRIPEntries b + i < seg.ripTableEnd b := hi
    rw [Nat.add_assoc, Nat.add_assoc]
    refine hbyte ⟨b.hotSize + seg.offsetToRIPEntries b,
      seg.ripTableEnd b - (seg.tail b + seg.offsetToRIPEntries b)⟩ (by simp [Segment.lookedUp]) _
      ⟨?_, ?_⟩ (by omega) <;> simp only <;> omega
  omega

end

end PowerArm.CodeCache
