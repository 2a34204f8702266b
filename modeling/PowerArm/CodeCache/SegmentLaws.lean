import PowerArm.CodeCache.Load
import PowerArm.CodeCache.RelocateLaws

/-!
# Reading a segment stays in its mapping

`Open`, `Find`, `Validate` and the relocation walk read inside the image for any
bytes it holds. What a lookup returns is an entry of the index that `Validate`
accepted (`lookup_within`).
-/

namespace PowerArm.CodeCache

open Lib

section
variable {m : Mem} {W : Nat → Prop} {seg : Segment}

theorem openSegment_within : Within (openSegment cfg img) m W fun _ _ => True := by
  unfold openSegment
  split
  · next hsize =>
    apply Within.bind_fetch (by omega)
    split
    · apply Within.bind_require
      intro _
      exact Within.pure trivial
    · exact Within.refuse
  · exact Within.refuse

theorem Segment.block_le (h : i < seg.numBlocks) : seg.blockAddress i + blockSize ≤ seg.image.size := by
  have hindex := seg.index_le
  unfold Segment.blockAddress
  unfold blockSize at *
  omega

theorem Segment.reloc_le (h : i + n ≤ seg.numRelocs) : seg.relocAddress i + n * relocSize ≤ seg.image.size := by
  have hrelocs := seg.relocs_le
  unfold Segment.relocAddress
  unfold relocSize at *
  omega

theorem bind_fetchBlock (h : i < seg.numBlocks) (hf : Within (f (seg.block i)) m W Q) :
    Within (seg.fetchBlock i >>= f) m W Q :=
  Within.bind_fetch (Segment.block_le h) hf

theorem lowerBound_within (h : first + len ≤ seg.numBlocks) :
    Within (seg.lowerBound guestOffset fuel first len) m W fun i m' => m' = m ∧ i ≤ seg.numBlocks := by
  induction fuel generalizing first len with
  | zero => exact Within.pure ⟨rfl, by omega⟩
  | succ fuel ih =>
    unfold Segment.lowerBound
    split
    · exact Within.pure ⟨rfl, by omega⟩
    · apply bind_fetchBlock (by omega)
      split
      · exact ih (by omega)
      · exact ih (by omega)

theorem find_within : Within (seg.find guestOffset) m W fun r m' =>
      m' = m ∧ ∀ i ∈ r, i < seg.numBlocks ∧ (seg.block i).guestOffset = guestOffset := by
  refine Within.bind (lowerBound_within (by omega)) ?_
  rintro i m' _ ⟨rfl, hi⟩
  split
  · apply bind_fetchBlock (by omega)
    refine Within.pure ⟨rfl, ?_⟩
    intro j hj
    split at hj
    · next heq =>
      cases hj
      exact ⟨by omega, heq⟩
    · cases hj
  · exact Within.pure ⟨rfl, nofun⟩

theorem Segment.Fits.code_le (h : seg.Fits b) : seg.codeOffset + b.codeOffset + b.codeSize ≤ seg.image.size := by
  have hcode := seg.code_le
  have hoff := h.1
  have hsize := h.2.1
  omega

theorem Segment.Fits.relocs_le (h : seg.Fits b) : b.relocBegin + b.relocCount ≤ seg.numRelocs := by
  have hbegin := h.2.2.2.2.2.2.2.2.1
  have hcount := h.2.2.2.2.2.2.2.2.2
  omega

theorem validate_within (hi : i < seg.numBlocks) :
    Within (seg.validate i) m W fun r m' => m' = m ∧ (r → seg.Fits (seg.block i)) := by
  apply bind_fetchBlock hi
  split
  · next hfits =>
    split
    · have hentry := Segment.block_le hi
      unfold blockSize at hentry
      refine Within.bind (Q := fun _ m' => m' = m) ?_ ?_
      · apply Within.bind_fetch (by omega)
        apply Within.bind_fetch hfits.code_le
        apply Within.bind_fetch (Segment.reloc_le hfits.relocs_le)
        exact Within.pure rfl
      · rintro h m' _ rfl
        exact Within.pure ⟨rfl, fun _ => hfits⟩
    · exact Within.pure ⟨rfl, fun _ => hfits⟩
  · exact Within.pure ⟨rfl, nofun⟩

/-- What a lookup hands on: an entry of one of the segments that fits it. -/
def Entry (segs : List Segment) (guestOffset : Nat) (seg : Segment) (b : SegmentBlock) : Prop :=
  seg ∈ segs ∧ seg.Fits b ∧ ∃ i < seg.numBlocks, b = seg.block i ∧ b.guestOffset = guestOffset

theorem lookup_within : Within (lookup guestOffset segs) m W fun r _ =>
      ∀ p ∈ r, Entry segs guestOffset p.1 p.2 := by
  induction segs with
  | nil => exact Within.pure nofun
  | cons seg rest ih =>
    have hrest : Within (lookup guestOffset rest) m W fun r _ =>
        ∀ p ∈ r, Entry (seg :: rest) guestOffset p.1 p.2 := by
      refine ih.mono (fun _ h => h) ?_
      intro r m' _ hr p hp
      obtain ⟨hmem, hp⟩ := hr p hp
      exact ⟨List.mem_cons_of_mem _ hmem, hp⟩
    refine Within.bind find_within ?_
    rintro r m' _ ⟨rfl, hfound⟩
    cases r with
    | none => exact hrest
    | some i =>
      obtain ⟨hi, hoff⟩ := hfound i rfl
      refine Within.bind (validate_within hi) ?_
      rintro ok m' _ ⟨rfl, hvalid⟩
      cases ok with
      | false => exact hrest
      | true =>
        apply bind_fetchBlock hi
        apply Within.pure
        rintro p ⟨⟩
        exact ⟨List.mem_cons_self, hvalid rfl, i, hi, rfl, hoff⟩

theorem fetchRelocs_within (h : i + n ≤ seg.numRelocs) : Within (fetchRelocs seg i n) m W fun rs m' =>
      m' = m ∧ rs = (List.range n).map fun j => seg.reloc (i + j) := by
  induction n generalizing i with
  | zero => exact Within.pure ⟨rfl, rfl⟩
  | succ n ih =>
    have hone : seg.relocAddress i + 1 * relocSize ≤ seg.image.size := Segment.reloc_le (by omega)
    apply Within.bind_fetch (by omega)
    refine Within.bind (ih (by omega)) ?_
    rintro rs m' _ ⟨rfl, rfl⟩
    refine Within.pure ⟨rfl, ?_⟩
    rw [List.range_succ_eq_map, List.map_cons, List.map_map]
    congr 1
    apply List.map_congr_left
    intro j _
    simp [Nat.add_right_comm i 1 j, Nat.add_assoc]

end

end PowerArm.CodeCache
