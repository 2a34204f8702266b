import PowerArm.Lookup.Compile
import PowerArm.Lookup.MapLaws

/-!
# The overlap query against the live blocks

In every state of a run whose markings got their leaves, a live block is listed and
marked on its code pages, and its tail has the unit's entry and the extent's size
(`Sound`). The query then finds every byte that is not below the entry
(`run_rangeOverlapsCompiledCode`); the bytes below it are lost.
-/

namespace PowerArm.Lookup

open Lib (Admissible foldl_invariant)
open CodeGranuleBitmap (Shows Alloc extentGranules)

variable {m m' : GuestToHostMap} {a b p addr start length : BitVec 64} {e : BlockEntry}

/-! ## Registration on a page -/

theorem pageIndexes_page (h : p.toNat % pageSize = 0) : pageIndexes p (BitVec.ofNat 64 pageSize) = [pageIndex p] := by
  have hlast : pageIndex (p + BitVec.ofNat 64 pageSize - 1) = pageIndex p := by
    have hsum : (p + BitVec.ofNat 64 pageSize - 1).toNat = p.toNat + 4095 := by
      unfold pageSize at *
      bv_omega
    unfold pageIndex
    unfold pageSize at *
    omega
  rw [pageIndexes, hlast, Nat.add_sub_cancel_left]
  rfl

namespace GuestToHostMap

theorem addBlockExecutableRange_page (m : GuestToHostMap) (h : p.toNat % pageSize = 0)
    (addresses : List (BitVec 64)) (start length : BitVec 64) (alloc : Nat → Alloc) :
    (m.addBlockExecutableRange addresses p (BitVec.ofNat 64 pageSize) start length alloc).1 =
      m.addPage addresses start length alloc (pageIndex p) := by
  simp [addBlockExecutableRange, pageIndexes_page h]

theorem listed_addPage : (m.addPage addresses start length alloc page).Listed q a ↔
      m.Listed q a ∨ q = page ∧ a ∈ addresses := by
  by_cases hq : q = page
  · simp [Listed, addPage, hq]
  · simp [Listed, addPage, hq]

theorem shows_addPage (halign : p.toNat % pageSize = 0) (hwrap : start.toNat + length.toNat ≤ 2 ^ 64)
    (hobtains : m.codeGranules.Obtains p (alloc (pageIndex p)))
    (h : Shows m.codeGranules g ∨ g ∈ extentGranules p start length) :
    Shows (m.addPage addresses start length alloc (pageIndex p)).codeGranules g := by
  unfold addPage
  rw [pageBase_pageIndex halign]
  split
  next => exact Shows.setPageRange halign hwrap hobtains h
  next hoff =>
    rintro hroot
    simp [CodeGranuleBitmap.enabled] at hoff
    exact absurd hoff hroot

end GuestToHostMap

/-! ## Registration of a unit -/

namespace Context

def Marked (addresses codePages : List (BitVec 64)) (start length : BitVec 64) (alloc : Nat → Alloc)
    (m : GuestToHostMap) : Prop :=
  Admissible
    (fun m page => (m.addBlockExecutableRange addresses page (BitVec.ofNat 64 pageSize) start length alloc).1)
    (fun m page => m.codeGranules.Obtains page (alloc (pageIndex page))) m codePages

structure Extends (m m' : GuestToHostMap) : Prop where
  blockList : m'.blockList = m.blockList
  retainedBlocks : m'.retainedBlocks = m.retainedBlocks
  listed : ∀ page a, m.Listed page a → m'.Listed page a
  shows : ∀ g, Shows m.codeGranules g → Shows m'.codeGranules g

theorem Extends.indexed (h : Extends m m') (hindexed : m.Indexed a e) : m'.Indexed a e :=
  fun p hp => ⟨h.listed _ _ (hindexed p hp).1, fun g hg => h.shows g ((hindexed p hp).2 g hg)⟩

theorem extends_addCodePages
    (hwrap : start.toNat + length.toNat ≤ 2 ^ 64) (haligned : ∀ p ∈ codePages, p.toNat % pageSize = 0)
    (hmarked : Marked addresses codePages start length alloc m) :
    Extends m (addCodePages addresses codePages start length alloc m) ∧
    ∀ p ∈ codePages, (∀ a ∈ addresses,
      (addCodePages addresses codePages start length alloc m).Listed (pageIndex p) a) ∧
      ∀ g ∈ extentGranules p start length,
        Shows (addCodePages addresses codePages start length alloc m).codeGranules g := by
  induction codePages generalizing m with
  | nil => exact ⟨⟨rfl, rfl, fun _ _ => id, fun _ => id⟩, nofun⟩
  | cons q codePages ih =>
    obtain ⟨hq, haligned⟩ := List.forall_mem_cons.mp haligned
    obtain ⟨hobtains, hmarked⟩ := hmarked
    have hpage := m.addBlockExecutableRange_page hq addresses start length alloc
    obtain ⟨hext, hnew⟩ := ih haligned hmarked
    simp only [addCodePages, List.foldl_cons] at hext hnew ⊢
    rw [hpage] at hext hnew ⊢
    have hshows : ∀ g, Shows m.codeGranules g ∨ g ∈ extentGranules q start length →
        Shows (m.addPage addresses start length alloc (pageIndex q)).codeGranules g :=
      fun g => GuestToHostMap.shows_addPage hq hwrap hobtains
    refine ⟨⟨hext.blockList, hext.retainedBlocks, fun page a h => ?_, fun g h => ?_⟩,
      List.forall_mem_cons.mpr ⟨⟨fun a ha => ?_, fun g hg => ?_⟩, hnew⟩⟩
    · exact hext.listed page a (GuestToHostMap.listed_addPage.mpr (.inl h))
    · exact hext.shows g (hshows g (.inl h))
    · exact hext.listed _ a (GuestToHostMap.listed_addPage.mpr (.inr ⟨rfl, ha⟩))
    · exact hext.shows g (hshows g (.inr hg))

/-! ## What the entries record -/

/-- The tail has an entry inside the extent and the extent's size; the hashed range,
where there is one, is the extent. -/
structure Recorded (e : BlockEntry) : Prop extends GuestToHostMap.Placed e where
  guestSize : e.tail.guestSize = e.extentLength
  rip_ge : e.extentStart.toNat ≤ e.tail.rip.toNat
  rip_lt : e.tail.rip.toNat < e.extentStart.toNat + e.extentLength.toNat
  rangeStart : e.guestRangeStart = e.extentStart
  rangeLength : e.guestRangeLength = 0 ∨ e.guestRangeLength = e.extentLength

theorem recorded_blockEntry (u : CompiledUnit) (hostCode : BitVec 64) : Recorded (u.blockEntry hostCode) where
  extent := u.extent_lt.le
  aligned := u.codePages_aligned
  guestSize := rfl
  rip_ge := u.guestRIP_ge
  rip_lt := u.guestRIP_lt
  rangeStart := rfl
  rangeLength := by
    unfold CompiledUnit.blockEntry
    cases u.hashed <;> simp

theorem Recorded.hostCode (h : Recorded e) (hostCode : BitVec 64) : Recorded { e with hostCode := hostCode } :=
  ⟨⟨h.extent, h.aligned⟩, h.guestSize, h.rip_ge, h.rip_lt, h.rangeStart, h.rangeLength⟩

/-- Every entry of the map records its unit, and a retained one has a hash. -/
structure AllRecorded (m : GuestToHostMap) : Prop where
  live : ∀ a e, m.blockList a = some e → Recorded e
  retained : ∀ a e, m.retainedBlocks a = some e → Recorded e ∧ e.guestRangeLength ≠ 0

theorem AllRecorded.of_sub (h : AllRecorded m) (hlive : ∀ a e, m'.blockList a = some e → m.blockList a = some e)
    (hretained : ∀ a e, m'.retainedBlocks a = some e → m.retainedBlocks a = some e) : AllRecorded m' :=
  ⟨fun a e he => h.live a e (hlive a e he), fun a e he => h.retained a e (hretained a e he)⟩

theorem some_of_update_none (a x : BitVec 64) (e : BlockEntry)
    (h : Function.update f x none a = some e) : f a = some e := by
  by_cases hax : a = x
  · simp [hax] at h
  · simpa [hax] using h

theorem AllRecorded.dropRetainedBlockLocked (h : AllRecorded m) (x : BitVec 64) :
    AllRecorded (m.dropRetainedBlockLocked x) := by
  unfold GuestToHostMap.dropRetainedBlockLocked
  split
  · exact h
  · exact h.of_sub (fun _ _ => id) fun a e => some_of_update_none a x e

theorem AllRecorded.erase (h : AllRecorded m) (x : BitVec 64) : AllRecorded (m.erase x) :=
  h.of_sub (fun a e => some_of_update_none a x e) fun _ _ => id

theorem AllRecorded.softEraseBlock (h : AllRecorded m) (x : BitVec 64) : AllRecorded (m.softEraseBlock x) := by
  unfold GuestToHostMap.softEraseBlock
  split
  next => exact h
  next e hx =>
    split
    next => exact h.erase x
    next hhash =>
      have hdrop := h.dropRetainedBlockLocked x
      refine ⟨fun a e' he => hdrop.live a e' (some_of_update_none a x e' he), fun a e' he => ?_⟩
      by_cases hax : a = x
      · obtain rfl : e = e' := by simpa [hax] using he
        exact ⟨h.live x e hx, fun h0 => hhash (.inl h0)⟩
      · exact hdrop.retained a e' (by simpa [hax] using he)

theorem AllRecorded.dropRetainedRange (h : AllRecorded m) (start length : BitVec 64) :
    AllRecorded (m.dropRetainedRange start length) :=
  List.foldlRecOn _ _ h fun _ h x _ => h.dropRetainedBlockLocked x

theorem AllRecorded.erasePages {eraseBlock : GuestToHostMap → BitVec 64 → GuestToHostMap}
    (hf : ∀ m x, AllRecorded m → AllRecorded (eraseBlock m x)) (h : AllRecorded m)
    (start length : BitVec 64) : AllRecorded (m.erasePages eraseBlock start length) := by
  refine (List.foldlRecOn (motive := AllRecorded) (pageIndexes start length) _ h fun m h page _ => ?_).of_sub
    (fun _ _ => id) fun _ _ => id
  unfold GuestToHostMap.erasePage
  split
  · exact h
  · exact (List.foldlRecOn (motive := AllRecorded) _ _ h fun m h x _ => hf m x h).of_sub (fun _ _ => id) fun _ _ => id

theorem AllRecorded.preciseEntries (h : AllRecorded w.map) (start endAddr base : BitVec 64)
    (entries : List (BitVec 64)) :
    AllRecorded (entries.foldl (GuestToHostMap.preciseEntry start endAddr base) w).map := by
  induction entries generalizing w with
  | nil => exact h
  | cons x entries ih =>
    refine ih ?_
    unfold GuestToHostMap.preciseEntry
    split
    · exact h
    · split
      · exact h.erase x
      · exact h

theorem AllRecorded.precisePage (h : AllRecorded m) (start endAddr : BitVec 64) (n page : Nat) :
    AllRecorded (GuestToHostMap.precisePage start endAddr (m, n) page).1 := by
  unfold GuestToHostMap.precisePage
  split
  · exact h
  · exact (AllRecorded.preciseEntries h start endAddr _ _).of_sub (fun _ _ => id) fun _ _ => id

theorem AllRecorded.precisePages (h : AllRecorded m) (start endAddr : BitVec 64) (n : Nat) (pages : List Nat) :
    AllRecorded (pages.foldl (GuestToHostMap.precisePage start endAddr) (m, n)).1 := by
  induction pages generalizing m n with
  | nil => exact h
  | cons page pages ih => exact ih (h.precisePage start endAddr n page) _

theorem AllRecorded.invalidate (h : AllRecorded m) (start length : BitVec 64)
    (kind : GuestToHostMap.Invalidation) : AllRecorded (m.invalidate start length kind) := by
  cases kind with
  | hard => exact (h.erasePages (fun _ x h => h.erase x) start length).dropRetainedRange start length
  | soft => exact h.erasePages (fun _ x h => h.softEraseBlock x) start length
  | precise => exact (h.precisePages start _ 0 _).dropRetainedRange start length

/-! ## Runs -/

/-- What every state of a run has: a block in the list, or about to be, is listed
and marked on its code pages. -/
structure Sound (c : Context) : Prop where
  recorded : AllRecorded c.map
  indexed : c.map.AllIndexed
  compiling : ∀ r ∈ c.compiling, Recorded r.entry ∧ ∀ x ∈ r.entryPoints, c.map.Indexed x.1 r.entry

def Kept (c : Context) : Op → Prop
  | .compile u alloc => Marked (u.entryPoints.map Prod.fst) u.codePages u.startAddr u.length alloc c.map
  | .relink addr _ alloc => ∀ e, c.map.retainedBlocks addr = some e →
    Marked [addr] e.codePages e.guestRangeStart e.guestRangeLength alloc (c.map.dropRetainedBlockLocked addr)
  | _ => True

theorem sound_init (root : Bool) : Sound (init root) := ⟨⟨nofun, nofun⟩, nofun, nofun⟩

theorem Sound.register (h : Sound c) (hext : Extends c.map m')
    (hr : Recorded r.entry ∧ ∀ x ∈ r.entryPoints, m'.Indexed x.1 r.entry) :
    Sound { map := m', compiling := r :: c.compiling } where
  recorded := h.recorded.of_sub (fun _ _ he => hext.blockList ▸ he) fun _ _ he => hext.retainedBlocks ▸ he
  indexed a e he := by
    obtain ⟨hplaced, hindexed⟩ := h.indexed a e (hext.blockList ▸ he)
    exact ⟨hplaced, hext.indexed hindexed⟩
  compiling := by
    refine List.forall_mem_cons.mpr ⟨hr, fun r hmem => ?_⟩
    obtain ⟨hrecorded, hindexed⟩ := h.compiling r hmem
    exact ⟨hrecorded, fun x hx => hext.indexed (hindexed x hx)⟩

theorem Sound.compile (h : Sound c) (hop : Kept c (.compile u alloc)) : Sound (c.compile u alloc) := by
  obtain ⟨hext, hnew⟩ := extends_addCodePages u.extent_lt.le u.codePages_aligned hop
  refine h.register hext ⟨recorded_blockEntry u 0, fun x hx p hp => ?_⟩
  exact ⟨(hnew p hp).1 x.1 (List.mem_map_of_mem hx), (hnew p hp).2⟩

theorem Sound.dropRetained (h : Sound c) (addr : BitVec 64) :
    Sound { c with map := c.map.dropRetainedBlockLocked addr } := by
  have hsame := GuestToHostMap.sameLive_dropRetainedBlockLocked c.map addr
  refine ⟨h.recorded.dropRetainedBlockLocked addr, h.indexed.sameLive hsame, fun r hr => ?_⟩
  obtain ⟨-, hpages, hgranules⟩ := hsame
  simpa only [GuestToHostMap.Indexed, GuestToHostMap.Listed, hpages, hgranules] using h.compiling r hr

theorem Sound.relink (h : Sound c) (hop : Kept c (.relink addr unchanged alloc)) :
    Sound (c.relink addr unchanged alloc) := by
  unfold Context.relink GuestToHostMap.takeRetainedBlock
  have hdrop := h.dropRetained addr
  cases he : c.map.retainedBlocks addr with
  | none => exact hdrop
  | some e =>
    dsimp only
    split
    next =>
      obtain ⟨hrecorded, hhash⟩ := h.recorded.retained addr e he
      have hlength := hrecorded.rangeLength.resolve_left hhash
      have hmarked := hop e he
      rw [hrecorded.rangeStart, hlength] at hmarked ⊢
      obtain ⟨hext, hnew⟩ := extends_addCodePages hrecorded.extent hrecorded.aligned hmarked
      refine hdrop.register hext ⟨hrecorded, List.forall_mem_singleton.mpr fun p hp => ?_⟩
      exact ⟨(hnew p hp).1 addr List.mem_cons_self, (hnew p hp).2⟩
    next => exact hdrop

theorem Sound.publish (h : Sound c) (hr : r ∈ c.compiling) (hx : (addr, hostCode) ∈ r.entryPoints) :
    Sound { c with map := c.map.addBlockMapping addr { r.entry with hostCode := hostCode } } := by
  obtain ⟨hrecorded, hindexed⟩ := h.compiling r hr
  have hnew {a : BitVec 64} {e : BlockEntry}
      (he : (c.map.addBlockMapping addr { r.entry with hostCode := hostCode }).blockList a = some e) :
      (a = addr ∧ e = { r.entry with hostCode := hostCode }) ∨ c.map.blockList a = some e := by
    by_cases ha : a = addr
    · exact .inl ⟨ha, by simpa [GuestToHostMap.addBlockMapping, ha] using he.symm⟩
    · exact .inr (by simpa [GuestToHostMap.addBlockMapping, ha] using he)
  refine ⟨⟨fun a e he => ?_, h.recorded.retained⟩, fun a e he => ?_, h.compiling⟩
  · obtain ⟨rfl, rfl⟩ | he := hnew he
    · exact hrecorded.hostCode hostCode
    · exact h.recorded.live a e he
  · obtain ⟨rfl, rfl⟩ | he := hnew he
    · exact ⟨⟨hrecorded.extent, hrecorded.aligned⟩, hindexed _ hx⟩
    · exact h.indexed a e he

theorem Sound.step (h : Sound c) (hop : Kept c op) : Sound (c.step op) := by
  cases op with
  | compile u alloc => exact h.compile hop
  | relink addr unchanged alloc => exact h.relink hop
  | publish r addr hostCode =>
    simp only [Context.step]
    split
    next hr => exact h.publish hr.1 hr.2
    next => exact h
  | finish r => exact ⟨h.recorded, h.indexed, fun r' hr' => h.compiling r' (List.mem_of_mem_erase hr')⟩
  | invalidate start length kind =>
    simp only [Context.step]
    split
    next hidle =>
      refine ⟨h.recorded.invalidate start length kind, h.indexed.invalidate start length kind, fun r hr => ?_⟩
      rw [List.isEmpty_iff.mp hidle] at hr
      exact absurd hr List.not_mem_nil
    next => exact h

/-! ## The query -/

def Decoded (e : BlockEntry) (b : BitVec 64) : Prop :=
  e.extentStart.toNat ≤ b.toNat ∧ b.toNat < e.extentStart.toNat + e.extentLength.toNat ∧
    ∃ p ∈ e.codePages, pageIndex p = pageIndex b

def InRange (start length b : BitVec 64) : Prop := start.toNat ≤ b.toNat ∧ b.toNat < start.toNat + length.toNat

instance (start length b : BitVec 64) : Decidable (InRange start length b) := by
  unfold InRange
  infer_instance

theorem not_provablyClear (hindexed : m.Indexed a e) (hb : Decoded e b) (hin : InRange start length b) :
    m.codeGranules.provablyClear start length = false := by
  obtain ⟨hlo, hhi, p, hp, hpage⟩ := hb
  refine Bool.eq_false_iff.mpr fun hclear => ?_
  have hmeets : CodeGranuleBitmap.Meets (b.toNat / 64) start length := by
    unfold CodeGranuleBitmap.Meets
    unfold InRange at hin
    omega
  have hgranule : b.toNat / 64 ∈ extentGranules p e.extentStart e.extentLength := by
    refine ⟨?_, .inr (.inr (.inr (by omega)))⟩
    unfold pageIndex pageSize at *
    omega
  obtain ⟨hroot, hmax, hbit⟩ := CodeGranuleBitmap.provablyClear_sound hclear hmeets
  have hshown := (hindexed p hp).2 _ hgranule hroot _ rfl hmax
  rw [hbit] at hshown
  cases hshown

theorem pageIndex_mem (hin : InRange start length b) (hend : start.toNat + length.toNat < 2 ^ 64) :
    pageIndex b ∈ pageIndexes start length := by
  obtain ⟨hlo, hhi⟩ := hin
  have hlast : (start + length - 1).toNat = start.toNat + length.toNat - 1 := by bv_omega
  rw [mem_pageIndexes]
  exact ⟨Nat.div_le_div_right hlo, Nat.div_le_div_right (by omega)⟩

section
variable {e : BlockEntry} (hb : Decoded e b) (hin : InRange start length b) (hentry : e.tail.rip ≤ b)
  (hend : start.toNat + length.toNat < 2 ^ 64) (htail : e.tail.rip.toNat + e.tail.guestSize.toNat < 2 ^ 64)
include hb hin hentry hend htail

/-- The tail of a block meets a range with one of its bytes that is not below the entry. -/
theorem tail_meets (hrecorded : Recorded e) :
    e.tail.rip < start + length ∧ start < e.tail.rip + e.tail.guestSize := by
  obtain ⟨hlo, hhi⟩ := hin
  have hsize := congrArg BitVec.toNat hrecorded.guestSize
  have hge := hrecorded.rip_ge
  have hupper := hb.2.1
  rw [BitVec.le_def] at hentry
  rw [BitVec.lt_def, BitVec.lt_def, BitVec.toNat_add, BitVec.toNat_add]
  omega

theorem Sound.rangeOverlapsCompiledCode (h : Sound c) (hlive : c.map.blockList a = some e) :
    c.map.rangeOverlapsCompiledCode start length := by
  obtain ⟨-, hindexed⟩ := h.indexed a e hlive
  obtain ⟨p, hp, hpage⟩ := hb.2.2
  rw [GuestToHostMap.rangeOverlapsCompiledCode, not_provablyClear hindexed hb hin]
  refine List.any_eq_true.mpr ⟨pageIndex b, pageIndex_mem hin hend, ?_⟩
  refine List.any_eq_true.mpr ⟨a, hpage ▸ (hindexed p hp).1, ?_⟩
  obtain ⟨hbelow, habove⟩ := tail_meets hb hin hentry hend htail (h.recorded.live a e hlive)
  simp [hlive, hbelow, habove]

end

/-- In every state of a run whose markings got their leaves, a range with a byte of
a live block that is not below the unit's entry overlaps compiled code. -/
theorem run_rangeOverlapsCompiledCode (root : Bool) {ops : List Op}
    (hrun : Admissible Context.step Kept (init root) ops)
    (hlive : (ops.foldl Context.step (init root)).map.blockList a = some e)
    (hb : Decoded e b) (hin : InRange start length b) (hentry : e.tail.rip ≤ b)
    (hend : start.toNat + length.toNat < 2 ^ 64) (htail : e.tail.rip.toNat + e.tail.guestSize.toNat < 2 ^ 64) :
    (ops.foldl Context.step (init root)).map.rangeOverlapsCompiledCode start length = true := by
  have hsound := foldl_invariant (fun _ _ => Sound.step) (sound_init root) hrun
  exact Sound.rangeOverlapsCompiledCode hb hin hentry hend htail hsound hlive

/-- A loop entered in the middle: the branch back goes to `0x400000`, below the
entry at `0x400040`. -/
def backwardUnit : CompiledUnit where
  guestRIP := 0x400040
  startAddr := 0x400000
  length := 0x80
  codePages := [0x400000]
  entryPoints := [(0x400040, 0x10000)]
  hashed := false
  guestHash := 0
  extent_lt := by decide
  guestRIP_ge := by decide
  guestRIP_lt := by decide
  codePages_aligned := List.forall_mem_singleton.mpr (by decide)

def compileBackward : List Op :=
  [.compile backwardUnit fun _ => ⟨true, true⟩,
    .publish ⟨backwardUnit.entryPoints, backwardUnit.blockEntry 0⟩ 0x400040 0x10000]

theorem run_rangeOverlapsCompiledCode_above :
    (compileBackward.foldl Context.step (init true)).map.rangeOverlapsCompiledCode 0x400044 4 = true := by
  have hlive : (compileBackward.foldl Context.step (init true)).map.blockList 0x400040 =
      some (backwardUnit.blockEntry 0x10000) := by decide
  have hrun : Admissible Context.step Kept (init true) compileBackward := ⟨⟨by decide, trivial⟩, trivial, trivial⟩
  exact run_rangeOverlapsCompiledCode (b := 0x400044) true hrun hlive
    ⟨by decide, by decide, 0x400000, List.mem_cons_self, by decide⟩ (by decide) (by decide) (by decide)
    (by decide)

theorem run_rangeOverlapsCompiledCode_below :
    (compileBackward.foldl Context.step (init true)).map.blockList 0x400040 =
      some (backwardUnit.blockEntry 0x10000) ∧
    Decoded (backwardUnit.blockEntry 0x10000) 0x400000 ∧ InRange 0x400000 4 0x400000 ∧
    (compileBackward.foldl Context.step (init true)).map.rangeOverlapsCompiledCode 0x400000 4 = false :=
  ⟨by decide, ⟨by decide, by decide, 0x400000, List.mem_cons_self, rfl⟩, by decide, by decide⟩

end Context

end PowerArm.Lookup
