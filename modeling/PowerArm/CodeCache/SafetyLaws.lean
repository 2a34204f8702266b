import PowerArm.CodeCache.InstallLaws
import PowerArm.Lib.Run

/-!
# Memory safety of loading and lookup

Opening a file and loading a block never touch a byte outside the mapping and
the spans reserved for the block, whatever the file holds
(`openFile_safe`, `tryLoadBlock_safe`), and a load that returns nothing keeps
nothing reserved. A lookup trusts the header and the RIP table of the installed
block: it stays inside the block when the file keeps the table there
(`run_safe`), and leaves it otherwise (`run_unsafe`).
-/

namespace PowerArm.CodeCache

open Lib

/-! ## Lookups -/

section
variable {m : Mem} {W : Nat → Prop} {hot cold : Span}

theorem number_one (m : Mem) (a : Nat) : m.number a 1 = (m a).toNat := rfl

theorem decodePair_within (hlo : cold.base ≤ a) (hhi : a + pairSize (m a).toNat ≤ cold.base + cold.size) :
    Within (decodePair [hot, cold] a) m W fun d m' => m' = m ∧ d.size = pairSize (m a).toNat := by
  have hpos := pairSize_pos (m a).toNat
  apply Within.bind_load (covers_cold ⟨hlo, by omega⟩)
  rw [number_one]
  unfold pairSize at hhi ⊢
  by_cases h8 : (m a).toNat < 128
  · simp only [if_pos h8]
    exact Within.pure ⟨rfl, rfl⟩
  simp only [if_neg h8] at hhi ⊢
  by_cases h16 : (m a).toNat / 64 = 2
  · simp only [if_pos h16] at hhi ⊢
    apply Within.bind_load (covers_cold ⟨by omega, by omega⟩)
    exact Within.pure ⟨rfl, rfl⟩
  simp only [if_neg h16] at hhi ⊢
  by_cases h32 : (m a).toNat = 0xC0
  · simp only [if_pos h32] at hhi ⊢
    apply Within.bind_load (covers_cold ⟨by omega, by omega⟩)
    apply Within.bind_load (covers_cold ⟨by omega, by omega⟩)
    exact Within.pure ⟨rfl, rfl⟩
  · simp only [if_neg h32] at hhi ⊢
    apply Within.bind_load (covers_cold ⟨by omega, by omega⟩)
    apply Within.bind_load (covers_cold ⟨by omega, by omega⟩)
    exact Within.pure ⟨rfl, rfl⟩

theorem walkEntries_within (hlo : cold.base ≤ entry) (hhi : tableEnd m n entry ≤ cold.base + cold.size) :
    Within (walkEntries [hot, cold] hostPC n entry startPC rip) m W fun _ _ => True := by
  induction n generalizing entry startPC rip with
  | zero => exact Within.pure trivial
  | succ n ih =>
    have hrest := le_tableEnd m n (entry + pairSize (m entry).toNat)
    refine Within.bind (decodePair_within hlo (Nat.le_trans hrest hhi)) ?_
    rintro d m' _ ⟨rfl, hsize⟩
    split
    · rw [hsize]
      exact ih (by omega) hhi
    · exact Within.pure trivial

theorem walkBlock_within {s : State} (hr : Readable m b.hot b.cold) (hoff : b.offset = b.hot.base) :
    Within (s.walkBlock framePC hostPC b) m W fun _ _ => True := by
  obtain ⟨hhot, hcold, hheader, htable⟩ := hr
  unfold State.walkBlock Installed.spans
  rw [hoff]
  apply Within.bind_load (covers_hot ⟨by omega, by omega⟩)
  simp only [hheader]
  apply Within.bind_load (covers_cold ⟨by omega, by omega⟩)
  split
  · exact Within.pure trivial
  · next hne =>
    apply Within.bind_load (covers_cold ⟨by omega, by omega⟩)
    apply Within.bind_load (covers_cold ⟨by omega, by omega⟩)
    exact walkEntries_within (by omega) (htable.resolve_left hne)

theorem upperBound_within (h : hi ≤ blocks.length) (hlo : lo ≤ hi) :
    Within (upperBound blocks target fuel lo hi) m W fun i m' => m' = m ∧ i ≤ blocks.length := by
  induction fuel generalizing lo hi with
  | zero => exact Within.pure ⟨rfl, by omega⟩
  | succ fuel ih =>
    unfold upperBound
    split
    · have hmid : lo + (hi - lo) / 2 < blocks.length := by omega
      simp only [List.getElem?_eq_getElem hmid]
      split
      · exact ih h (by omega)
      · exact ih (by omega) (by omega)
    · exact Within.pure ⟨rfl, by omega⟩

end

/-! ## The state between operations -/

/-- The blocks' spans lie in the buffer, and no byte belongs to two of them. -/
structure Separate (s : State) : Prop where
  inside : ∀ b ∈ s.blocks, ∀ a, Reserved b.hot b.cold a → a < s.buf.usable
  apart : ∀ b ∈ s.blocks, Apart b.hot b.cold
  disjoint : s.blocks.Pairwise fun b c => ∀ a, Reserved b.hot b.cold a → ¬ Reserved c.hot c.cold a

structure Layout (s : State) : Prop extends Separate s where
  ok : s.buf.Ok
  taken : ∀ b ∈ s.blocks, ∀ a, Reserved b.hot b.cold a → ¬ s.buf.Free a

structure Inv (s : State) : Prop extends Layout s where
  small : s.buf.usable ≤ 2 ^ 32
  offset : ∀ b ∈ s.blocks, b.offset = b.hot.base
  readable : ∀ b ∈ s.blocks, Readable s.mem b.hot b.cold

theorem findBlockHeader_within (hinv : Inv s) :
    Within (s.findBlockHeader hostPC) s.mem W fun b _ => b ∈ s.blocks := by
  apply Within.bind_require
  intro _
  apply Within.bind_require
  intro _
  apply Within.bind_require
  intro _
  refine Within.bind (upperBound_within (Nat.le_refl _) (Nat.zero_le _)) ?_
  rintro lo m' _ ⟨rfl, hle⟩
  apply Within.bind_require
  intro hlo
  have hlast : lo - 1 < s.blocks.length := by omega
  have hmem : s.blocks[lo - 1] ∈ s.blocks := List.getElem_mem hlast
  obtain ⟨hhot, hcold, hheader, _⟩ := hinv.readable _ hmem
  simp only [List.getElem?_eq_getElem hlast, Installed.spans]
  rw [hinv.offset _ hmem]
  apply Within.bind_load (covers_hot ⟨by omega, by omega⟩)
  rw [hheader]
  apply Within.bind_load (covers_cold ⟨by omega, by omega⟩)
  apply Within.bind_require
  intro _
  exact Within.pure hmem

/-! ## Loads -/

def Outcome.Safe (o : Outcome α) (P : State → α → Prop) : Prop :=
  match o with
  | .fault => False
  | .abort => True
  | .next s r => P s r

theorem Outcome.Safe.mono {o : Outcome α} {P Q : State → α → Prop} (h : o.Safe P)
    (hPQ : ∀ s r, P s r → Q s r) : o.Safe Q := by
  cases o with
  | fault => exact h
  | abort => trivial
  | next s r => exact hPQ s r h

theorem Outcome.Safe.map {o : Outcome α} {f : α → β} {P : State → β → Prop}
    (h : o.Safe fun s r => P s (f r)) : (o.map f).Safe P := by
  cases o with
  | fault => exact h
  | abort => trivial
  | next s r => exact h

/-- A load that returned nothing: the room `EnsureHeadroom` left, and only free
bytes changed. -/
structure Idle (s s' : State) : Prop where
  buf : s'.buf = s.buf ∨ ∃ need, s'.buf = (s.buf.ensureHeadroom need).1
  segments : s'.segments = s.segments
  blocks : s'.blocks = s.blocks
  mem : Kept s.buf.Free s.mem s'.mem

theorem Idle.refl (s : State) : Idle s s := ⟨.inl rfl, rfl, rfl, Kept.refl _ _⟩

structure Grown (s s' : State) (seg : Segment) (b : SegmentBlock) (hot cold : Span) : Prop where
  onward : s.buf.Onward s'.buf
  segments : s'.segments = s.segments
  blocks : s'.blocks = s.blocks ++ [⟨hot.base % 2 ^ 32, hot, cold⟩]
  hot_size : hot.size = b.hotSize
  cold_size : cold.size = b.coldSize
  apart : Apart hot cold
  reserved : ∀ a, Reserved hot cold a → s.buf.Free a ∧ ¬ s'.buf.Free a
  mem : Kept (Reserved hot cold) s.mem s'.mem
  copied : ∃ m₁, Copied seg b hot cold m₁ ∧ Kept (Footprint hot cold (seg.relocs b)) m₁ s'.mem

theorem mem_of_appendBlock (h : appendBlock buf blocks b = some blocks') : blocks' = blocks ++ [b] := by
  unfold appendBlock at h
  split at h
  · cases h
  · exact (Option.some.inj h).symm

/-- Where `TryLoadBlock` puts a block it has room for. -/
structure Room (buf taken : Buffer) (hot cold : Span) : Prop where
  apart : Apart hot cold
  near : cold.base - hot.base < 2 ^ 32
  free : ∀ a, Reserved hot cold a → buf.Free a
  restored : { taken with coldOffset := taken.coldOffset + cold.size } = buf
  onward : buf.Onward { taken with latestOffset := hot.base + hot.size }
  spent : ∀ a, Reserved hot cold a → ¬ { taken with latestOffset := hot.base + hot.size }.Free a

theorem room_of_headroom (hok : buf.Ok) (hcold16 : coldSize % 16 = 0)
    (hneed : buf.latestOffset + (hotSize + coldSize + 16) ≤ buf.coldOffset) :
    Room buf (buf.allocateColdThunkBytes coldSize) ⟨alignUp buf.latestOffset 16, hotSize⟩
      ⟨(buf.allocateColdThunkBytes coldSize).coldOffset, coldSize⟩ := by
  obtain ⟨hle, hcold, hchunk, hnear⟩ := hok
  obtain ⟨hlo, hhi⟩ := alignUp_bounds buf.latestOffset
  have hsize := alignUp_of_mod hcold16
  have hbase : (buf.allocateColdThunkBytes coldSize).coldOffset = buf.coldOffset - coldSize := by
    simp only [Buffer.allocateColdThunkBytes, hsize]
  unfold Buffer.kChunkSize at hnear
  refine ⟨?_, ?_, ?_, ?_, ⟨⟨?_, ?_, hchunk, ?_⟩, rfl, rfl, ?_⟩, ?_⟩
  · simp only [Apart]
    omega
  · simp only
    omega
  · rintro a (⟨h, h'⟩ | ⟨h, h'⟩) <;> simp only at h h'
    · exact .inl ⟨by omega, by omega⟩
    · exact .inl ⟨by omega, by omega⟩
  · simp only [hbase, Nat.sub_add_cancel (by omega : coldSize ≤ buf.coldOffset)]
    rfl
  · simp only
    omega
  · exact Nat.le_trans (Nat.sub_le _ _) hcold
  · simp only [Buffer.kChunkSize]
    omega
  · rintro a (⟨h, h'⟩ | h)
    · simp only at h h'
      exact .inl ⟨by omega, by omega⟩
    · exact .inr h
  · intro a ha hf
    simp only [Reserved, Span.Has] at ha
    simp only [Buffer.Free, Buffer.allocateColdThunkBytes] at hf
    omega

theorem place_safe (hl : Layout s) (hfits : Segment.Fits seg b) :
    (s.place env fileStartVA guestRIP seg b).Safe fun s' r =>
      (r = none ∧ Idle s s') ∨ (r ≠ none ∧ ∃ hot cold, Grown s s' seg b hot cold) := by
  have honward : s.buf.Onward (s.buf.ensureHeadroom (b.hotSize + b.coldSize + 16)).1 :=
    Buffer.ensureHeadroom_onward hl.ok
  have hroom (h : (s.buf.ensureHeadroom (b.hotSize + b.coldSize + 16)).2) := Buffer.ensureHeadroom_room hl.ok h
  unfold State.place blockAlignment
  rcases hres : s.buf.ensureHeadroom (b.hotSize + b.coldSize + 16) with ⟨buf, room⟩
  rw [hres] at honward hroom
  simp only at honward hroom ⊢
  split
  · exact .inl ⟨rfl, .inr ⟨_, by rw [hres]⟩, rfl, rfl, Kept.refl _ _⟩
  next hfree =>
  have htrue : room := by
    cases room with
    | false => exact absurd (.inl rfl) hfree
    | true => rfl
  have hr := room_of_headroom honward.ok hfits.2.2.2.2.1 (hroom htrue)
  have hin : Within (install env.host fileStartVA guestRIP seg b _ _) s.mem _ _ :=
    install_within hfits hr.apart rfl rfl hr.near
  have hfreed (a : Nat) (ha : Reserved _ _ a) : s.buf.Free a := honward.free a (hr.free a ha)
  unfold Within at hin
  split at hin
  · exact hin.elim
  · next h => rw [h]; trivial
  · next mem h =>
    rw [h]
    refine .inl ⟨rfl, .inr ⟨b.hotSize + b.coldSize + 16, ?_⟩, rfl, rfl, hin.mono hfreed⟩
    rw [hres]
    exact hr.restored
  · next mem h =>
    rw [h]
    simp only
    split
    · trivial
    · next blocks happ =>
      refine .inr ⟨nofun, _, _, honward.trans hr.onward, rfl, mem_of_appendBlock happ, rfl, rfl,
        hr.apart, ?_, hin.1, hin.2⟩
      intro a ha
      exact ⟨hfreed a ha, hr.spent a ha⟩

/-- `TryLoadBlock` over any files: it returns nothing and holds nothing, or it
installs one of their entries in free bytes. -/
theorem tryLoadBlock_safe {s : State} (hl : Layout s) : (s.tryLoadBlock env guestRIP).Safe fun s' r =>
      (r = none ∧ Idle s s') ∨ (r ≠ none ∧ ∃ fileStartVA ∈ env.fileStartVA, ∃ seg b hot cold,
        Entry s.segments (guestRIP - fileStartVA) seg b ∧ Grown s s' seg b hot cold) := by
  unfold State.tryLoadBlock
  split
  · exact .inl ⟨rfl, Idle.refl s⟩
  next fileStartVA hstart =>
  split
  · exact .inl ⟨rfl, Idle.refl s⟩
  have hfind : Within (lookup (guestRIP - fileStartVA) s.segments) s.mem (fun _ => False) _ := lookup_within
  unfold Within at hfind
  split at hfind
  · exact hfind.elim
  · next h => rw [h]; trivial
  · next h => rw [h]; exact .inl ⟨rfl, Idle.refl s⟩
  · next r m' h =>
    rw [h]
    cases r with
    | none => exact .inl ⟨rfl, Idle.refl s⟩
    | some p =>
      have hentry := hfind.2 p rfl
      simp only
      split
      · refine (place_safe hl hentry.2.1).mono ?_
        intro s' r hr
        refine hr.imp id fun ⟨hne, hot, cold, hgrown⟩ => ⟨hne, ?_⟩
        exact ⟨fileStartVA, hstart, p.1, p.2, hot, cold, hentry, hgrown⟩
      · exact .inl ⟨rfl, Idle.refl s⟩

theorem Idle.onward (h : Idle s s') (hok : s.buf.Ok) : s.buf.Onward s'.buf := by
  rcases h.buf with hbuf | ⟨need, hbuf⟩
  · rw [hbuf]
    exact ⟨hok, rfl, rfl, fun _ ha => ha⟩
  · rw [hbuf]
    exact Buffer.ensureHeadroom_onward hok

theorem Layout.idle (hl : Layout s) (h : Idle s s') : Layout s' := by
  have honward := h.onward hl.ok
  refine ⟨⟨?_, ?_, ?_⟩, honward.ok, ?_⟩ <;> rw [h.blocks]
  · rw [honward.usable]
    exact hl.inside
  · exact hl.apart
  · exact hl.disjoint
  · intro b hb a ha hfree
    exact hl.taken b hb a ha (honward.free a hfree)

theorem Buffer.Free.lt {buf : Buffer} (hok : buf.Ok) (h : buf.Free a) : a < buf.usable := by
  have hcold := hok.cold_le
  have hchunk := hok.chunk_le
  rcases h with ⟨_, h⟩ | ⟨_, h⟩
  · omega
  · exact h

theorem Layout.grown {s s' : State} (hl : Layout s) (h : Grown s s' seg b hot cold) : Layout s' := by
  refine ⟨⟨?_, ?_, ?_⟩, h.onward.ok, ?_⟩ <;> rw [h.blocks]
  · rw [h.onward.usable, List.forall_mem_append, List.forall_mem_singleton]
    exact ⟨hl.inside, fun a ha => (h.reserved a ha).1.lt hl.ok⟩
  · rw [List.forall_mem_append, List.forall_mem_singleton]
    exact ⟨hl.apart, h.apart⟩
  · rw [List.pairwise_append]
    refine ⟨hl.disjoint, List.pairwise_singleton _ _, ?_⟩
    intro c hc d hd a ha ha'
    rw [List.mem_singleton] at hd
    subst hd
    exact hl.taken c hc a ha (h.reserved a ha').1
  · rw [List.forall_mem_append, List.forall_mem_singleton]
    refine ⟨?_, fun a ha => (h.reserved a ha).2⟩
    intro c hc a ha hfree
    exact hl.taken c hc a ha (h.onward.free a hfree)

/-! ## Blocks stay readable -/

theorem Readable.congr (hr : Readable m hot cold)
    (h : ∀ a, Reserved hot cold a → m' a = m a) : Readable m' hot cold := by
  obtain ⟨hhot, hcold, hheader, htable⟩ := hr
  have hfield (k n) (hk : k + n ≤ cold.size) : m'.number (cold.base + k) n = m.number (cold.base + k) n :=
    number_congr fun i hi hlt => h i (.inr ⟨by omega, by omega⟩)
  have hfirst : m'.number hot.base 4 = m.number hot.base 4 := number_congr fun i hi hlt => h i (.inl ⟨hi, by omega⟩)
  refine ⟨hhot, hcold, by rw [hfirst, hheader], ?_⟩
  rw [hfield 24 4 (by omega), hfield 28 4 (by omega)]
  refine htable.imp id fun hend => ?_
  have hle := le_tableEnd m (m.number (cold.base + 24) 4) (cold.base + m.number (cold.base + 28) 4)
  have hshift : tableEnd m' (m.number (cold.base + 24) 4) (cold.base + m.number (cold.base + 28) 4) -
      (cold.base + m.number (cold.base + 28) 4) = _ :=
    tableEnd_shift fun i hi => h _ (.inr ⟨by omega, by omega⟩)
  omega

theorem Inv.kept {s s' : State} (hinv : Inv s) (h : Kept s.buf.Free s.mem s'.mem)
    (hb : b ∈ s.blocks) : Readable s'.mem b.hot b.cold :=
  (hinv.readable b hb).congr fun a ha => h a (hinv.taken b hb a ha)

theorem Inv.idle (hinv : Inv s) (h : Idle s s') : Inv s' := by
  refine ⟨hinv.toLayout.idle h, ?_, ?_, ?_⟩
  · rw [(h.onward hinv.ok).usable]
    exact hinv.small
  · rw [h.blocks]
    exact hinv.offset
  · rw [h.blocks]
    exact fun b hb => hinv.kept h.mem hb

theorem Inv.grown {s s' : State} (hinv : Inv s) (h : Grown s s' seg b hot cold)
    (hfits : seg.Fits b) (htable : seg.TableOk b) : Inv s' := by
  obtain ⟨m₁, hcopied, hkept⟩ := h.copied
  have hhot : 8 ≤ hot.size := h.hot_size ▸ hfits.2.2.2.2.2.1
  have hcold : 48 ≤ cold.size := h.cold_size ▸ hfits.2.2.2.2.2.2.1
  refine ⟨hinv.toLayout.grown h, ?_, ?_, ?_⟩
  · rw [h.onward.usable]
    exact hinv.small
  · rw [h.blocks, List.forall_mem_append, List.forall_mem_singleton]
    refine ⟨hinv.offset, Nat.mod_eq_of_lt ?_⟩
    have hfree := (h.reserved hot.base (.inl ⟨Nat.le_refl _, by omega⟩)).1
    exact Nat.lt_of_lt_of_le (hfree.lt hinv.ok) hinv.small
  · rw [h.blocks, List.forall_mem_append, List.forall_mem_singleton]
    constructor
    · intro c hc
      exact hinv.kept (h.mem.mono fun a ha => (h.reserved a ha).1) hc
    · exact hcopied.readable hkept htable h.apart h.hot_size h.cold_size (by omega) hcold

/-! ## Runs -/

def State.fresh (ptr usable : Nat) (mem : Mem) : State where
  buf := {
    ptr, usable
    chunkBase := 0
    chunkEnd := min Buffer.kChunkSize usable
    latestOffset := 0
    coldOffset := min Buffer.kChunkSize usable }
  mem
  segments := []
  blocks := []

/-- Every entry the load can find keeps its RIP table in the block. -/
def TablesOk (s : State) : Op → Prop
  | .load env guestRIP => ∀ fileStartVA ∈ env.fileStartVA, ∀ seg ∈ s.segments,
      ∀ i < seg.numBlocks, (seg.block i).guestOffset = guestRIP - fileStartVA → seg.TableOk (seg.block i)
  | _ => True

instance (s : State) : (op : Op) → Decidable (TablesOk s op)
  | .load env guestRIP => inferInstanceAs (Decidable (∀ fileStartVA ∈ env.fileStartVA,
      ∀ seg ∈ s.segments, ∀ i < seg.numBlocks,
        (seg.block i).guestOffset = guestRIP - fileStartVA → seg.TableOk (seg.block i)))
  | .openFile _ _ => isTrue trivial
  | .lookup _ _ => isTrue trivial

/-- No access outside the mapping, the reserved spans or the looked-up block; the
blocks stay apart and keep their bytes; and nothing stays reserved for a load
that returns nothing. -/
def SafeStep (s : State) (op : Op) : Prop :=
  (s.perform op).Safe fun s' answer =>
    Separate s' ∧ (∀ b ∈ s.blocks, ∀ a, Reserved b.hot b.cold a → s'.mem a = s.mem a) ∧
      (answer = .loaded none → s'.buf = s.buf ∨ ∃ need, s'.buf = (s.buf.ensureHeadroom need).1)

theorem openFile_safe {s : State} : (s.openFile cfg img).Safe fun s' _ => ∃ segments, s' = { s with segments } := by
  unfold State.openFile
  have h : Within (openSegment cfg img) s.mem (fun _ => False) fun _ _ => True := openSegment_within
  unfold Within at h
  split at h
  · exact h.elim
  · next he => rw [he]; trivial
  · next he => rw [he]; exact ⟨_, rfl⟩
  · next he => rw [he]; exact ⟨_, rfl⟩

theorem restoreRIP_safe (hinv : Inv s) : (s.restoreRIPFromHostPC framePC hostPC).Safe fun s' _ => s' = s := by
  unfold State.restoreRIPFromHostPC
  have hfind : Within (s.findBlockHeader hostPC) s.mem (fun _ => False) _ := findBlockHeader_within hinv
  unfold Within at hfind
  split at hfind
  · exact hfind.elim
  · next he => rw [he]; trivial
  · next he => rw [he]; exact rfl
  next b m' he =>
  rw [he]
  have hwalk : Within (s.walkBlock framePC hostPC b) s.mem (fun _ => False) fun _ _ => True :=
    walkBlock_within (hinv.readable b hfind.2) (hinv.offset b hfind.2)
  unfold Within at hwalk
  simp only
  split at hwalk
  · exact hwalk.elim
  · next hw => rw [hw]; trivial
  · next hw => rw [hw]; exact rfl
  · next hw => rw [hw]; exact rfl

theorem Inv.withSegments (hinv : Inv s) : Inv { s with segments } :=
  ⟨⟨⟨hinv.inside, hinv.apart, hinv.disjoint⟩, hinv.ok, hinv.taken⟩, hinv.small, hinv.offset, hinv.readable⟩

theorem perform_safe {s : State} (hinv : Inv s) (hop : TablesOk s op) :
    (s.perform op).Safe fun s' answer => Inv s' ∧ Kept s.buf.Free s.mem s'.mem ∧
      (answer = .loaded none → s'.buf = s.buf ∨ ∃ need, s'.buf = (s.buf.ensureHeadroom need).1) := by
  cases op with
  | openFile cfg img =>
    refine Outcome.Safe.map (openFile_safe.mono ?_)
    rintro _ _ ⟨segments, rfl⟩
    exact ⟨hinv.withSegments, Kept.refl _ _, nofun⟩
  | load env guestRIP =>
    refine Outcome.Safe.map ((tryLoadBlock_safe hinv.toLayout).mono ?_)
    rintro s' r (⟨rfl, hidle⟩ | ⟨hne, fileStartVA, hstart, seg, b, hot, cold, hentry, hgrown⟩)
    · exact ⟨hinv.idle hidle, hidle.mem, fun _ => hidle.buf⟩
    · obtain ⟨hseg, hfits, i, hi, rfl, hoff⟩ := hentry
      refine ⟨hinv.grown hgrown hfits (hop fileStartVA hstart seg hseg i hi hoff),
        hgrown.mem.mono fun a ha => (hgrown.reserved a ha).1, ?_⟩
      intro hnone
      exact absurd (Answer.loaded.inj hnone) hne
  | lookup framePC hostPC =>
    refine Outcome.Safe.map ((restoreRIP_safe hinv).mono ?_)
    rintro _ _ rfl
    exact ⟨hinv, Kept.refl _ _, nofun⟩

theorem inv_fresh (hsmall : usable ≤ 2 ^ 32) : Inv (State.fresh ptr usable mem) :=
  ⟨⟨⟨nofun, nofun, List.Pairwise.nil⟩,
    ⟨Nat.zero_le _, Nat.le_refl _, Nat.min_le_right _ _,
      by simp [State.fresh]⟩, nofun⟩, hsmall, nofun, nofun⟩

/-- Over files of any bytes, in a code buffer of at most 4 GiB: as long as every
block found in them keeps its RIP table inside its cold bytes and out of its
relocations' way, every step of every run is memory safe. -/
theorem run_safe (ptr usable : Nat) (mem : Mem) (ops : List Op) (s : State) (op : Op) (hsmall : usable ≤ 2 ^ 32)
    (hok : AdmissibleM State.step TablesOk (State.fresh ptr usable mem) ops)
    (hrun : ops.foldlM State.step (State.fresh ptr usable mem) = some s) (hop : TablesOk s op) : SafeStep s op := by
  have hinv : Inv s := by
    refine @foldlM_invariant _ _ Unit () _ _ _ _ _ (fun _ _ => ()) (fun _ s => Inv s) ?_ (inv_fresh hsmall) hok hrun
    intro _ s i s' hinv hi hstep
    have hsafe := perform_safe hinv hi
    unfold State.step at hstep
    split at hstep
    · next s₁ r hs₁ =>
      rw [hs₁] at hsafe
      cases hstep
      exact hsafe.1
    · cases hstep
  refine (perform_safe hinv hop).mono ?_
  intro s' answer ⟨hinv', hkept, hroom⟩
  refine ⟨hinv'.toSeparate, ?_, hroom⟩
  intro b hb a ha
  exact hkept a (hinv.taken b hb a ha)

/-! ## A table that leaves its block -/

/-- A file with one block of 16 hot and 48 cold bytes, whose tail says that
`entries` RIP entries start at `offset`. -/
def oneBlockFile (entries offset : Nat) : Image where
  size := 240
  byte :=
    let fields : List (Nat × Nat × Nat) := [
      -- header: one block, no relocations, index, relocations and code
      (44, 4, 1), (72, 8, 112), (80, 8, 168), (88, 8, 176), (96, 8, 64),
      -- index entry: guest length, code size, entry offset and cold size
      (112 + 24, 4, 4), (112 + 28, 4, 64), (112 + 32, 4, 4), (112 + 44, 4, 48),
      -- tail: size, RIP, guest size, RIP entries and cold size
      (192, 8, 16), (200, 8, 0x10000), (208, 8, 4), (216, 4, entries), (220, 4, offset),
      (232, 4, 48)]
    fields.foldl (fun m (a, n, v) => m.put a (numberBytes n v)) fun _ => 0

def anyHash : Config where
  magic := 0
  version := 0
  configId := 0
  fileId := 0
  buildHash := List.replicate 20 0
  bootId := List.replicate 16 0
  forceVerify := true
  hash := fun _ => 0

def oneBlockEnv : Env where
  host := {
    exitFunctionLinker := 0
    exitFunctionLinkerWithRecord := 0
    lookupThunk := fun _ => 0
    disableShiftedImm32 := false }
  loadEnabled := true
  fileStartVA := some 0x10000
  executableRange := fun _ => (0x10000, 0x1000)
  validateOnly := fun _ => false
  guestHash := fun _ _ => 0

def oneBlockRun (entries offset : Nat) : List Op :=
  [.openFile anyHash (oneBlockFile entries offset), .load oneBlockEnv 0x10000]

def oneBlockStart : State := State.fresh 0x7000000 4096 fun _ => 0

def Outcome.isFault : Outcome α → Bool
  | .fault => true
  | _ => false

/-- One entry right behind the tail of a block that ends there: the block is
installed, and looking an address of it up reads past its cold bytes. -/
theorem run_unsafe : ∃ s, (oneBlockRun 1 48).foldlM State.step oneBlockStart = some s ∧
    ¬ SafeStep s (.lookup 0 0x7000004) := by
  have h : ((oneBlockRun 1 48).foldlM State.step oneBlockStart).map
      (fun s => (s.perform (.lookup 0 0x7000004)).isFault) = some true := by decide +kernel
  obtain ⟨s, hs, hfault⟩ := Option.map_eq_some_iff.mp h
  refine ⟨s, hs, ?_⟩
  unfold SafeStep
  cases hp : s.perform (.lookup 0 0x7000004) with
  | fault => exact id
  | _ => rw [hp] at hfault; cases hfault

/-- The same file with the entry inside the cold bytes. -/
theorem run_safe_inside : ∃ s, (oneBlockRun 1 47).foldlM State.step oneBlockStart = some s ∧
    s.blocks.length = 1 ∧ SafeStep s (.lookup 0 0x7000004) := by
  have h : ((oneBlockRun 1 47).foldlM State.step oneBlockStart).map
      (fun s => s.blocks.length) = some 1 := by decide +kernel
  obtain ⟨s, hs, hlen⟩ := Option.map_eq_some_iff.mp h
  refine ⟨s, hs, hlen, ?_⟩
  exact run_safe _ _ _ _ _ _ (by decide) (by decide +kernel) hs trivial

end PowerArm.CodeCache
