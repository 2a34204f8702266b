import PowerArm.Vma.TrackingLaws

/-!
# Changing protections

`ChangeProtectionFlags` walks down from the end of the range, one entry at a
time. `Protected` is what it is for, address by address, and
`changeProtectionFlags_protects` says for which maps and ranges it does that:
there is an entry at or below the start of the range, no entry that ends inside
the range has a hole behind it, and the entry that reaches past the end of the
range, if it starts inside, has no file behind it.
-/

namespace PowerArm.Vma

open Lib VMATracking

/-- What the map says of an address. Only a resource has a file offset. -/
structure AddrInfo where
  prot : VMAProt
  shared : Bool
  file : Option (ResourceId × Int)
deriving DecidableEq, Repr

def VMAEntry.info (v : VMAEntry) (a : Nat) : AddrInfo :=
  ⟨v.prot, v.shared, v.resource.map fun r => (r, v.offset + a - v.base)⟩

def infoAt (l : List VMAEntry) (a : Nat) : Option AddrInfo := (l.find? fun v => v.Covers a).map fun v => v.info a

def AddrInfo.protect (lo hi : Nat) (newProt : VMAProt) (a : Nat) (i : AddrInfo) : AddrInfo :=
  if lo ≤ a ∧ a < hi then { i with prot := newProt } else i

/-- The addresses of `[lo, hi)` that are mapped get the new protection, and nothing
else changes at any address. -/
def Protected (lo hi : Nat) (newProt : VMAProt) (l l' : List VMAEntry) : Prop :=
  ∀ a, infoAt l' a = (infoAt l a).map (AddrInfo.protect lo hi newProt a)

/-- Nothing stops the walk down from `top`: it meets an entry at or below `base`,
and every entry that ends inside the range has another one right behind it. -/
def Unbroken (l : List VMAEntry) (base top : Nat) : Prop :=
  (∃ w ∈ l, w.base ≤ base) ∧ ∀ v ∈ l, base < v.top → v.top < top → ∃ w ∈ l, w.base = v.top

instance (l : List VMAEntry) (base top : Nat) : Decidable (Unbroken l base top) :=
  inferInstanceAs (Decidable (_ ∧ _))

/-- No file lies behind an entry that starts inside the range and ends after it. -/
def TailAnonymous (l : List VMAEntry) (base top : Nat) : Prop :=
  ∀ v ∈ l, base < v.base → v.base < top → top < v.top → v.resource = none

instance (l : List VMAEntry) (base top : Nat) : Decidable (TailAnonymous l base top) :=
  inferInstanceAs (Decidable (∀ v ∈ l, _))

/-! ## The map at an address -/

section
variable {A B X Y l : List VMAEntry} {v : VMAEntry} {a : Nat}

@[simp] theorem infoAt_nil : infoAt [] a = none := rfl

theorem infoAt_cons : infoAt (v :: l) a = if v.Covers a then some (v.info a) else infoAt l a := by
  by_cases h : v.Covers a <;> simp [infoAt, h]

theorem infoAt_append : infoAt (A ++ B) a = (infoAt A a).or (infoAt B a) := by
  simp only [infoAt, List.find?_append]
  cases A.find? fun v => v.Covers a <;> rfl

theorem infoAt_eq_none (h : ∀ v ∈ l, ¬ v.Covers a) : infoAt l a = none := by simpa [infoAt] using h

theorem Protected.refl_of_none (h : ∀ a, lo ≤ a → a < hi → infoAt l a = none) : Protected lo hi newProt l l := by
  intro a
  by_cases ha : lo ≤ a ∧ a < hi
  · rw [h a ha.1 ha.2, Option.map_none]
  · have hid : AddrInfo.protect lo hi newProt a = id := funext fun _ => if_neg ha
    rw [hid, Option.map_id, id]

theorem protected_low (h : ∀ v ∈ l, v.top ≤ lo) : Protected lo hi newProt l l :=
  Protected.refl_of_none fun _ ha _ => infoAt_eq_none fun v hv hc => by
    have := h v hv
    have := hc.2
    omega

theorem protected_high (h : ∀ v ∈ l, hi ≤ v.base) : Protected lo hi newProt l l :=
  Protected.refl_of_none fun _ _ ha => infoAt_eq_none fun v hv hc => by
    have := h v hv
    have := hc.1
    omega

theorem Protected.append (hX : Protected lo hi newProt A X) (hY : Protected lo hi newProt B Y) :
    Protected lo hi newProt (A ++ B) (X ++ Y) := by
  intro a
  rw [infoAt_append, infoAt_append, hX a, hY a]
  cases infoAt A a <;> rfl

theorem Protected.trans (hlo : lo ≤ mid) (hhi : mid ≤ hi) (h₁ : Protected mid hi newProt X Y)
    (h₂ : Protected lo mid newProt Y l) : Protected lo hi newProt X l := by
  intro a
  rw [h₂ a, h₁ a, Option.map_map]
  congr 1
  funext i
  simp only [Function.comp, AddrInfo.protect]
  grind

/-! ## Edits of the map -/

variable {s : VMATracking} {c : VMAEntry}

theorem modify_vmas (hs : s.vmas = A ++ c :: B) (hA : ∀ a ∈ A, a.base < c.base)
    (hB : ∀ b ∈ B, c.base < b.base) (f : VMAEntry → VMAEntry) : (s.modify c.base f).vmas = A ++ f c :: B := by
  simp only [VMATracking.modify, hs, map_at hA hB f]

theorem insertAfter_vmas (s : VMATracking) (after : Nat) (v : VMAEntry) :
    (s.insertAfter after v).vmas = emplaceEntry v s.vmas := by
  simp only [insertAfter]
  split <;> rfl

theorem insertAfterOrDie_vmas (after : Nat) (hs : s.vmas = A ++ B)
    (hA : ∀ a ∈ A, a.base < v.base) (hB : ∀ b ∈ B, v.base < b.base) :
    ∃ s', s.insertAfterOrDie after v = some s' ∧ s'.vmas = A ++ v :: B := by
  have hfree : ¬ s.contains v.base := by
    simp only [contains, hs, List.any_eq_true, decide_eq_true_eq, not_exists, not_and]
    intro w hw
    rcases List.mem_append.mp hw with hw | hw
    · exact (hA w hw).ne
    · exact (hB w hw).ne'
  refine ⟨_, if_neg hfree, ?_⟩
  rw [insertAfter_vmas, hs, emplaceEntry_append hA hB]

/-! ## One entry -/

/-- What strategy 4 makes of an entry that reaches up to `top`. -/
def overlapPieces (newProt : VMAProt) (c : VMAEntry) (top : Nat) : List VMAEntry :=
  { c with prot := newProt, length := top - c.base } ::
    if top < c.top then
      [{ c with base := top, offset := c.offset - c.base + c.base, length := c.top - top }]
    else []

theorem protectOverlap_vmas (newProt : VMAProt) (H : Ordered s.vmas) (hs : s.vmas = A ++ c :: B)
    (hlow : c.base < top) :
    ∃ s', protectOverlap newProt s c top = some s' ∧ s'.vmas = A ++ overlapPieces newProt c top ++ B := by
  have hL : Ordered (A ++ c :: B) := hs ▸ H
  have hA : ∀ a ∈ A, a.base < c.base := fun _ ha => (hL.lt_of_mem_left ha).2
  have hB : ∀ b ∈ B, c.base < b.base := fun _ hb => (hL.lt_of_mem_right hb).2
  unfold protectOverlap overlapPieces
  by_cases htail : top < c.top
  · have hs' : s.vmas = (A ++ [c]) ++ B := hs.trans (List.append_cons ..)
    have hbelow : ∀ a ∈ A ++ [c], a.base < top := by
      simp only [List.mem_append, List.mem_singleton]
      rintro a (ha | rfl)
      · exact (hA a ha).trans hlow
      · exact hlow
    obtain ⟨s₁, h₁, hv₁⟩ := insertAfterOrDie_vmas c.base
      (v := { c with base := top, offset := c.offset - c.base + c.base, length := c.top - top })
      hs' hbelow fun b hb => htail.trans_le (hL.lt_of_mem_right hb).1
    rw [List.append_assoc] at hv₁
    refine ⟨_, by simp only [if_pos htail, h₁]; rfl, ?_⟩
    rw [modify_vmas hv₁ hA, if_pos htail]
    · simp
    · intro b hb
      rcases List.mem_cons.mp hb with rfl | hb
      · exact hlow
      · exact hB b hb
  · exact ⟨_, by simp only [if_neg htail]; rfl, by simp [modify_vmas hs hA hB, htail]⟩

/-- What strategies 1, 2 and 3 make of the entry that holds the start of the range. -/
def lastPieces (newProt : VMAProt) (c : VMAEntry) (base top : Nat) : List VMAEntry :=
  if c.base = base then
    { c with prot := newProt, length := top - c.base } ::
      if top < c.top then [trailing c top] else []
  else
    { c with length := base - c.base } :: middle c base top newProt ::
      if top < c.top then [trailing c top] else []

theorem protectLast_vmas (newProt : VMAProt) (H : Ordered s.vmas) (hs : s.vmas = A ++ c :: B)
    (hbase : c.base ≤ base) (hlt : base < top) (htop : top ≤ c.top) :
    ∃ s', protectLast base newProt s c top = some s' ∧ s'.vmas = A ++ lastPieces newProt c base top ++ B := by
  have hL : Ordered (A ++ c :: B) := hs ▸ H
  have hA : ∀ a ∈ A, a.base < c.base := fun _ ha => (hL.lt_of_mem_left ha).2
  have hB : ∀ b ∈ B, c.base < b.base := fun _ hb => (hL.lt_of_mem_right hb).2
  have hBtop : ∀ b ∈ B, c.top ≤ b.base := fun _ hb => (hL.lt_of_mem_right hb).1
  have hnot : ¬ c.top ≤ base := by omega
  unfold protectLast lastPieces
  rw [if_neg hnot]
  by_cases heq : c.base = base
  · by_cases htail : top < c.top
    · -- strategy 2
      have hv := modify_vmas hs hA hB fun v => { v with prot := newProt, length := top - c.base }
      obtain ⟨s₁, h₁, hv₁⟩ := insertAfterOrDie_vmas c.base (v := trailing c top)
        (hv.trans (List.append_cons ..)) (by
          simp only [List.mem_append, List.mem_singleton]
          rintro a (ha | rfl)
          · exact (hA a ha).trans (heq ▸ hlt)
          · exact heq ▸ hlt) fun b hb => htail.trans_le (hBtop b hb)
      refine ⟨s₁, ?_, ?_⟩
      · rw [if_neg (by omega), if_pos ⟨heq, htail⟩, h₁]
      · simp [hv₁, heq, htail]
    · -- strategy 1: the length is what it was
      have hlen : c.top - c.base = c.length := Nat.add_sub_cancel_left ..
      have hend : c.top = top := by omega
      refine ⟨_, by rw [if_pos ⟨heq, hend⟩], ?_⟩
      subst hend
      rw [modify_vmas hs hA hB, if_pos heq, hlen]
      simp
  · -- strategy 3
    have hfirst : c.base < base := by omega
    have hv := modify_vmas hs hA hB fun v => { v with length := base - c.base }
    obtain ⟨s₁, h₁, hv₁⟩ := insertAfterOrDie_vmas c.base (v := middle c base top newProt)
      (hv.trans (List.append_cons ..)) (by
        simp only [List.mem_append, List.mem_singleton]
        rintro a (ha | rfl)
        · exact (hA a ha).trans hfirst
        · exact hfirst) fun b hb => hlt.trans_le (htop.trans (hBtop b hb))
    rw [if_neg (fun h => heq h.1), if_neg (fun h => heq h.1), if_pos ⟨hfirst, htop⟩, if_neg heq]
    by_cases htail : top < c.top
    · obtain ⟨s₂, h₂, hv₂⟩ := insertAfterOrDie_vmas c.base (v := trailing c top)
        (hv₁.trans (List.append_cons ..)) (by
          simp only [List.mem_append, List.mem_singleton]
          rintro a ((ha | rfl) | rfl)
          · exact (hA a ha).trans (hfirst.trans hlt)
          · exact hfirst.trans hlt
          · exact hlt) fun b hb => htail.trans_le (hBtop b hb)
      refine ⟨s₂, ?_, ?_⟩
      · simp [h₁, if_pos htail, h₂]
      · simp [hv₂, htail]
    · refine ⟨s₁, ?_, ?_⟩
      · simp [h₁, if_neg htail]
      · simp [hv₁, htail]

/-- Pieces that together cover what the entry covers, each with what its addresses
have to say after the change, may stand in its place. -/
theorem protected_pieces (hcov : ∀ a, c.Covers a ↔ ∃ v ∈ P, v.Covers a)
    (hinfo : ∀ v ∈ P, ∀ a, v.Covers a → v.info a = (c.info a).protect lo hi newProt a) :
    Protected lo hi newProt [c] P := by
  intro a
  rw [infoAt_cons]
  by_cases hc : c.Covers a
  · obtain ⟨v, hv⟩ := Option.isSome_iff_exists.mp
      (List.find?_isSome.mpr (by simpa using (hcov a).mp hc) : (P.find? fun v => v.Covers a).isSome)
    have hva : v.Covers a := by simpa using List.find?_some hv
    rw [if_pos hc, infoAt, hv, Option.map_some, Option.map_some, hinfo v (List.mem_of_find?_eq_some hv) a hva]
  · rw [if_neg hc]
    exact infoAt_eq_none fun v hv hva => hc ((hcov a).mpr ⟨v, hv, hva⟩)

theorem info_trailing (c : VMAEntry) (top a : Nat) : (trailing c top).info a = c.info a := by
  have hoff : c.offset - c.base + top + a - top = c.offset + a - c.base := by omega
  simp [VMAEntry.info, trailing, hoff]

theorem info_middle (c : VMAEntry) (base top : Nat) (newProt : VMAProt) (a : Nat) :
    (middle c base top newProt).info a = { c.info a with prot := newProt } := by
  have hoff : c.offset - c.base + base + a - base = c.offset + a - c.base := by omega
  simp [VMAEntry.info, middle, hoff]

theorem protect_in (i : AddrInfo) (h : lo ≤ a ∧ a < hi) :
    i.protect lo hi newProt a = { i with prot := newProt } := if_pos h

theorem protect_out (i : AddrInfo) (h : ¬ (lo ≤ a ∧ a < hi)) : i.protect lo hi newProt a = i := if_neg h

theorem lastPieces_protected (newProt : VMAProt) (hbase : c.base ≤ base) (hlt : base < top)
    (htop : top ≤ c.top) : Protected base top newProt [c] (lastPieces newProt c base top) := by
  have hend : c.top = c.base + c.length := rfl
  apply protected_pieces
  · unfold lastPieces
    split <;> split <;> simp only [List.mem_cons, List.not_mem_nil, or_false, exists_eq_or_imp, exists_eq_left,
        VMAEntry.Covers, VMAEntry.top, trailing, middle] <;>
      omega
  · intro v hv a ha
    unfold lastPieces at hv
    split at hv
    · simp only [List.mem_cons, List.mem_ite_nil_right, List.not_mem_nil, or_false] at hv
      rcases hv with rfl | ⟨-, rfl⟩
      · have hin : c.base ≤ a ∧ a < c.base + (top - c.base) := ha
        rw [protect_in _ (by omega)]
        rfl
      · have hin : top ≤ a := ha.1
        rw [info_trailing, protect_out _ (by omega)]
    · simp only [List.mem_cons, List.mem_ite_nil_right, List.not_mem_nil, or_false] at hv
      rcases hv with rfl | rfl | ⟨-, rfl⟩
      · have hin : a < c.base + (base - c.base) := ha.2
        exact (protect_out _ (by omega)).symm
      · have hin : base ≤ a ∧ a < base + (top - base) := ha
        rw [info_middle, protect_in _ (by omega)]
      · have hin : top ≤ a := ha.1
        rw [info_trailing, protect_out _ (by omega)]

theorem overlapPieces_protected (newProt : VMAProt) (hlow : c.base < top) (htop : top ≤ c.top)
    (hfile : top < c.top → c.resource = none) : Protected c.base top newProt [c] (overlapPieces newProt c top) := by
  have hend : c.top = c.base + c.length := rfl
  apply protected_pieces
  · unfold overlapPieces
    split <;> simp only [List.mem_cons, List.not_mem_nil, or_false, exists_eq_or_imp, exists_eq_left,
        VMAEntry.Covers, VMAEntry.top] <;>
      omega
  · intro v hv a ha
    simp only [overlapPieces, List.mem_cons, List.mem_ite_nil_right, List.not_mem_nil, or_false] at hv
    rcases hv with rfl | ⟨htail, rfl⟩
    · have hin : c.base ≤ a ∧ a < c.base + (top - c.base) := ha
      rw [protect_in _ (by omega)]
      rfl
    · -- with no file behind it, the tail's offset does not matter
      have hin : top ≤ a := ha.1
      rw [protect_out _ (by omega)]
      simp [VMAEntry.info, hfile htail]

theorem Ordered.splice (H : Ordered (A ++ c :: B)) (hP : Ordered P)
    (hin : ∀ v ∈ P, c.base ≤ v.base ∧ v.top ≤ c.top) : Ordered (A ++ P ++ B) := by
  obtain ⟨hA, hB, hAB⟩ := List.pairwise_append.mp H.apart
  refine ⟨List.pairwise_append.mpr ⟨List.pairwise_append.mpr ⟨hA, hP.apart, ?_⟩,
    (List.pairwise_cons.mp hB).2, ?_⟩, ?_⟩
  · intro a ha v hv
    exact (H.lt_of_mem_left ha).1.trans (hin v hv).1
  · intro a ha b hb
    rcases List.mem_append.mp ha with ha | ha
    · exact hAB a ha b (List.mem_cons_of_mem _ hb)
    · exact (hin a ha).2.trans (H.lt_of_mem_right hb).1
  · simp only [List.mem_append]
    rintro v ((hv | hv) | hv)
    · exact H.nonempty v (by simp [hv])
    · exact hP.nonempty v hv
    · exact H.nonempty v (by simp [hv])

theorem overlapPieces_ordered (newProt : VMAProt) (hlow : c.base < top) : Ordered (overlapPieces newProt c top) := by
  unfold overlapPieces
  split
  · refine ⟨by simp [VMAEntry.top]; omega, ?_⟩
    simp
    omega
  · exact ⟨by simp, by simpa using Nat.sub_pos_of_lt hlow⟩

theorem overlapPieces_within (newProt : VMAProt) (hlow : c.base < top) (htop : top ≤ c.top) :
    ∀ v ∈ overlapPieces newProt c top, c.base ≤ v.base ∧ v.top ≤ c.top := by
  simp only [overlapPieces, List.mem_cons, List.mem_ite_nil_right, List.not_mem_nil, or_false]
  rintro v (rfl | ⟨htail, rfl⟩)
  · exact ⟨Nat.le_refl _, by simp only [VMAEntry.top] at htop ⊢; omega⟩
  · exact ⟨hlow.le, by simp only [VMAEntry.top] at htail ⊢; omega⟩

theorem protectOverlap_ordered (newProt : VMAProt) (H : Ordered s.vmas) (hs : s.vmas = A ++ c :: B)
    (hlow : c.base < top) (htop : top ≤ c.top) : ∃ s', protectOverlap newProt s c top = some s' ∧ Ordered s'.vmas ∧
      s'.vmas = A ++ (overlapPieces newProt c top ++ B) ∧ ∀ v ∈ overlapPieces newProt c top ++ B, c.base ≤ v.base := by
  have hL : Ordered (A ++ c :: B) := hs ▸ H
  have hP := overlapPieces_within newProt hlow htop
  obtain ⟨s', h, hv⟩ := protectOverlap_vmas newProt H hs hlow
  refine ⟨s', h, hv ▸ hL.splice (overlapPieces_ordered newProt hlow) hP, by rw [hv, List.append_assoc], ?_⟩
  intro v hv
  exact (List.mem_append.mp hv).elim (fun h => (hP v h).1) fun h => (hL.lt_of_mem_right h).2.le

/-! ## The walk -/

/-- What the walk asks of the entries below `top`, in the order it meets them. -/
def Chained (base : Nat) : Nat → List VMAEntry → Prop
  | _, [] => False
  | top, c :: rest =>
    if c.base ≤ base then c.top ≤ base ∨ top ≤ c.top else top ≤ c.top ∧ Chained base c.base rest

theorem protectLoop_protects (newProt : VMAProt) (H : Ordered s.vmas)
    (hs : s.vmas = rest.reverse ++ D) (hlt : base < top) (hD : ∀ v ∈ D, top ≤ v.base)
    (hrest : ∀ v ∈ rest, v.base < top) (hchain : Chained base top rest) (htail : TailAnonymous rest base top) :
    ∃ s', protectLoop base newProt rest s top = some s' ∧ Protected base top newProt s.vmas s'.vmas := by
  induction rest generalizing s D top with
  | nil => exact hchain.elim
  | cons c rest ih =>
    have hs' : s.vmas = rest.reverse ++ c :: D := by simp [hs]
    have hL : Ordered (rest.reverse ++ c :: D) := hs' ▸ H
    have hclow := hrest c List.mem_cons_self
    have hA : ∀ v ∈ rest.reverse, v.top ≤ c.base := fun v hv => (hL.lt_of_mem_left hv).1
    unfold Chained at hchain
    unfold protectLoop
    by_cases hbase : c.base ≤ base
    · rw [if_pos hbase] at hchain
      rw [if_pos (.inl hbase)]
      by_cases hout : c.top ≤ base
      · -- nothing of the range is left below the entries that were visited
        refine ⟨s, if_pos hout, ?_⟩
        rw [hs', List.append_cons]
        refine (protected_low fun v hv => ?_).append (protected_high hD)
        rcases List.mem_append.mp hv with hv | hv
        · exact (hA v hv).trans hbase
        · rwa [List.mem_singleton.mp hv]
      · have htop := hchain.resolve_left hout
        obtain ⟨s', h', hv'⟩ := protectLast_vmas newProt H hs' hbase hlt htop
        refine ⟨s', h', ?_⟩
        rw [hv', hs', List.append_cons]
        exact ((protected_low fun v hv => (hA v hv).trans hbase).append
          (lastPieces_protected newProt hbase hlt htop)).append (protected_high hD)
    · rw [if_neg hbase] at hchain
      obtain ⟨htop, hchain⟩ := hchain
      have hgo : ¬ (c.base ≤ base ∨ c.top < top) := by omega
      have hbase : base < c.base := Nat.lt_of_not_le hbase
      obtain ⟨s₁, h₁, H₁, hv₁, hD₁⟩ := protectOverlap_ordered newProt H hs' hclow htop
      have hprot : Protected c.base top newProt s.vmas s₁.vmas := by
        rw [hv₁, hs']
        exact (protected_low hA).append ((overlapPieces_protected newProt hclow htop
          (htail c List.mem_cons_self hbase hclow)).append (protected_high hD))
      obtain ⟨s', h', hprot'⟩ := ih H₁ hv₁ hbase hD₁
        (fun v hv => (hL.lt_of_mem_left (List.mem_reverse.mpr hv)).2) hchain
        (fun v hv _ _ ht => absurd (hA v (List.mem_reverse.mpr hv)) ht.not_ge)
      refine ⟨s', ?_, hprot.trans hbase.le hclow.le hprot'⟩
      rw [if_neg hgo, h₁]
      exact h'

theorem protectLast_dies (newProt : VMAProt) (hbase : c.base ≤ base → c.top < top)
    (hlt : base < c.top) : protectLast base newProt s c top = none := by
  unfold protectLast
  split
  · omega
  split
  · omega
  split
  · omega
  split
  · omega
  · rfl

/-- The walk dies where the chain breaks off, and at the lowest entry when the range
starts below it. -/
theorem protectLoop_dies (newProt : VMAProt) (H : Ordered s.vmas)
    (hs : s.vmas = rest.reverse ++ D) (hD : ∀ v ∈ D, base < v.base)
    (hrest : ∀ v ∈ rest, v.base < top) (hchain : ¬ Chained base top rest) :
    protectLoop base newProt rest s top = none := by
  induction rest generalizing s D top with
  | nil =>
    unfold protectLoop
    split
    · rfl
    · rename_i c l hc
      have hmem : c ∈ D := by
        rw [← List.nil_append D, ← List.reverse_nil, ← hs, hc]
        exact List.mem_cons_self
      have hlow := hD c hmem
      have hpos := VMAEntry.base_lt_top (H.nonempty c (hc ▸ List.mem_cons_self))
      exact protectLast_dies newProt (by omega) (by omega)
  | cons c rest ih =>
    have hs' : s.vmas = rest.reverse ++ c :: D := by simp [hs]
    have hL : Ordered (rest.reverse ++ c :: D) := hs' ▸ H
    have hclow := hrest c List.mem_cons_self
    have hpos := VMAEntry.base_lt_top (hL.nonempty c (by simp))
    unfold Chained at hchain
    unfold protectLoop
    by_cases hbase : c.base ≤ base
    · rw [if_pos hbase] at hchain
      rw [if_pos (.inl hbase)]
      exact protectLast_dies newProt (by omega) (by omega)
    · rw [if_neg hbase] at hchain
      replace hbase := Nat.lt_of_not_le hbase
      by_cases htop : c.top < top
      · rw [if_pos (.inr htop)]
        exact protectLast_dies newProt (by omega) (by omega)
      · replace htop := Nat.le_of_not_lt htop
        obtain ⟨s₁, h₁, H₁, hv₁, hD₁⟩ := protectOverlap_ordered newProt H hs' hclow htop
        rw [if_neg (by omega), h₁]
        exact ih H₁ hv₁ (fun v hv => hbase.trans_le (hD₁ v hv))
          (fun v hv => (hL.lt_of_mem_left (List.mem_reverse.mpr hv)).2)
          fun h => hchain ⟨htop, h⟩

theorem chained_iff (hdesc : rest.Pairwise fun v w => w.top ≤ v.base)
    (hpos : ∀ v ∈ rest, 0 < v.length) (hrest : ∀ v ∈ rest, v.base < top) :
    Chained base top rest ↔ Unbroken rest base top := by
  induction rest generalizing top with
  | nil => simp [Chained, Unbroken]
  | cons c rest ih =>
    obtain ⟨hc, hdesc⟩ := List.pairwise_cons.mp hdesc
    obtain ⟨hcpos, hpos⟩ := List.forall_mem_cons.mp hpos
    obtain ⟨hctop, -⟩ := List.forall_mem_cons.mp hrest
    have hlen := VMAEntry.base_lt_top hcpos
    have hbelow : ∀ v ∈ rest, v.base < c.base := fun v hv => (VMAEntry.base_lt_top (hpos v hv)).trans_le (hc v hv)
    -- no entry starts where the highest one ends
    have hlast : ¬ ∃ w ∈ c :: rest, w.base = c.top := by
      simp only [List.mem_cons, exists_eq_or_imp, not_or, not_exists, not_and]
      refine ⟨by omega, fun w hw => ?_⟩
      have := hbelow w hw
      omega
    unfold Chained
    split
    · rename_i hbase
      constructor
      · intro h
        refine ⟨⟨c, List.mem_cons_self, hbase⟩, ?_⟩
        intro v hv h₁ h₂
        rcases List.mem_cons.mp hv with rfl | hv
        · omega
        · have := hc v hv
          omega
      · rintro ⟨-, h⟩
        by_contra hcon
        exact hlast (h c List.mem_cons_self (by omega) (by omega))
    · rename_i hbase
      rw [ih hdesc hpos hbelow]
      constructor
      · rintro ⟨htop, ⟨w, hw, hwb⟩, h⟩
        refine ⟨⟨w, List.mem_cons_of_mem _ hw, hwb⟩, ?_⟩
        intro v hv h₁ h₂
        rcases List.mem_cons.mp hv with rfl | hv
        · omega
        · rcases Nat.lt_or_eq_of_le (hc v hv) with hlt | heq
          · obtain ⟨w, hw, hwv⟩ := h v hv h₁ hlt
            exact ⟨w, List.mem_cons_of_mem _ hw, hwv⟩
          · exact ⟨c, List.mem_cons_self, heq.symm⟩
      · rintro ⟨⟨w, hw, hwb⟩, h⟩
        refine ⟨?_, ⟨w, (List.mem_cons.mp hw).resolve_left ?_, hwb⟩, ?_⟩
        · by_contra hcon
          exact hlast (h c List.mem_cons_self (by omega) (by omega))
        · rintro rfl
          exact hbase hwb
        · intro v hv h₁ h₂
          obtain ⟨w, hw, hwv⟩ := h v (List.mem_cons_of_mem _ hv) h₁ (h₂.trans hctop)
          refine ⟨w, (List.mem_cons.mp hw).resolve_left ?_, hwv⟩
          rintro rfl
          omega

theorem mem_below (H : Ordered s.vmas) : v ∈ s.below top ↔ v ∈ s.vmas ∧ v.base < top := by
  obtain ⟨hbelow, habove⟩ := H.split top
  have hs : s.vmas = s.below top ++ s.atOrAfter top := List.takeWhile_append_dropWhile.symm
  constructor
  · exact fun hv => ⟨hs ▸ List.mem_append_left _ hv, hbelow v hv⟩
  · rintro ⟨hv, hvt⟩
    rw [hs] at hv
    exact (List.mem_append.mp hv).resolve_right fun h => (habove v h).not_gt hvt

theorem unbroken_below (H : Ordered s.vmas) (hlt : base < top) :
    Unbroken (s.below top).reverse base top ↔ Unbroken s.vmas base top := by
  simp only [Unbroken, List.mem_reverse, mem_below H]
  constructor
  · rintro ⟨⟨w, hw, hwb⟩, h⟩
    refine ⟨⟨w, hw.1, hwb⟩, fun v hv h₁ h₂ => ?_⟩
    have hle : v.base ≤ v.top := Nat.le_add_right ..
    obtain ⟨w, hw, hwv⟩ := h v ⟨hv, by omega⟩ h₁ h₂
    exact ⟨w, hw.1, hwv⟩
  · rintro ⟨⟨w, hw, hwb⟩, h⟩
    refine ⟨⟨w, ⟨hw, by omega⟩, hwb⟩, fun v hv h₁ h₂ => ?_⟩
    obtain ⟨w, hw, hwv⟩ := h v hv.1 h₁ h₂
    exact ⟨w, ⟨hw, by omega⟩, hwv⟩

theorem infoAt_overlapPieces_top (newProt : VMAProt) (hlow : c.base < top) (htail : top < c.top)
    (hr : c.resource = some r) :
    infoAt (overlapPieces newProt c top) top = some ⟨c.prot, c.shared, some (r, c.offset)⟩ := by
  rw [overlapPieces, if_pos htail, infoAt_cons, if_neg, infoAt_cons, if_pos]
  · simp [VMAEntry.info, hr]
  · simp only [VMAEntry.Covers, VMAEntry.top] at htail ⊢
    omega
  · simp only [VMAEntry.Covers, VMAEntry.top]
    omega

/-- An entry of a file that starts inside the range and reaches past its end: its tail
is left with a wrong file offset. -/
theorem protectLoop_tail (newProt : VMAProt)
    (H : Ordered s.vmas) (hs : s.vmas = (c :: rest).reverse ++ D) (hbase : base < c.base)
    (hlow : c.base < top) (htail : top < c.top) (hr : c.resource = some r)
    (h : protectLoop base newProt (c :: rest) s top = some s') : ¬ Protected base top newProt s.vmas s'.vmas := by
  have hs' : s.vmas = rest.reverse ++ c :: D := by simp [hs]
  have hL : Ordered (rest.reverse ++ c :: D) := hs' ▸ H
  have hA : ∀ v ∈ rest.reverse, v.top ≤ c.base := fun v hv => (hL.lt_of_mem_left hv).1
  have hrest : ∀ v ∈ rest, v.base < c.base := fun v hv => (hL.lt_of_mem_left (List.mem_reverse.mpr hv)).2
  obtain ⟨s₁, h₁, H₁, hv₁, hD⟩ := protectOverlap_ordered newProt H hs' hlow htail.le
  have hmore : protectLoop base newProt rest s₁ c.base = some s' := by
    unfold protectLoop at h
    rw [if_neg (by omega), h₁] at h
    exact h
  have hchain : Chained base c.base rest := by
    by_contra hcon
    rw [protectLoop_dies newProt H₁ hv₁ (fun v hv => hbase.trans_le (hD v hv)) hrest hcon] at hmore
    cases hmore
  obtain ⟨s₂, h₂, hprot⟩ := protectLoop_protects newProt H₁ hv₁ hbase hD hrest hchain
    (fun v hv _ _ ht => absurd (hA v (List.mem_reverse.mpr hv)) ht.not_ge)
  cases Option.some.inj (hmore.symm.trans h₂)
  -- the first address after the range tells the difference
  have hnone : infoAt rest.reverse top = none := infoAt_eq_none fun v hv hc => ((hA v hv).trans hlow.le).not_gt hc.2
  have hbefore : infoAt s.vmas top = some (c.info top) := by
    rw [hs', infoAt_append, hnone, Option.none_or, infoAt_cons, if_pos ⟨hlow.le, htail⟩]
  have hafter : infoAt s'.vmas top = some ⟨c.prot, c.shared, some (r, c.offset)⟩ := by
    rw [hprot top, hv₁, infoAt_append, hnone, Option.none_or, infoAt_append,
      infoAt_overlapPieces_top newProt hlow htail hr, Option.some_or, Option.map_some,
      protect_out _ (by omega)]
  intro hall
  have htop := hall top
  rw [hbefore, hafter, Option.map_some, protect_out _ (by omega)] at htop
  simp only [VMAEntry.info, hr, Option.map_some, Option.some.injEq, AddrInfo.mk.injEq, Prod.mk.injEq] at htop
  omega

theorem tailAnonymous_below (H : Ordered s.vmas) :
    TailAnonymous (s.below top).reverse base top ↔ TailAnonymous s.vmas base top := by
  simp only [TailAnonymous, List.mem_reverse, mem_below H]
  exact ⟨fun h v hv h₁ h₂ => h v ⟨hv, h₂⟩ h₁ h₂, fun h v hv => h v hv.1⟩

section
variable {base top : Nat} {newProt : VMAProt} {s s' : VMATracking} (H : Ordered s.vmas) (hlt : base < top)
include H hlt

theorem chained_of_protectLoop (h : protectLoop base newProt (s.below top).reverse s top = some s') :
    Chained base top (s.below top).reverse := by
  obtain ⟨hbelow, habove⟩ := H.split top
  by_contra hcon
  rw [protectLoop_dies newProt H (s.vmas_eq top) (fun v hv => hlt.trans_le (habove v hv))
    (fun v hv => hbelow v (List.mem_reverse.mp hv)) hcon] at h
  cases h

theorem protectLoop_below (newProt : VMAProt) (hchain : Chained base top (s.below top).reverse)
    (htail : TailAnonymous s.vmas base top) : ∃ s', protectLoop base newProt (s.below top).reverse s top = some s' ∧
      Protected base top newProt s.vmas s'.vmas := by
  obtain ⟨hbelow, habove⟩ := H.split top
  exact protectLoop_protects newProt H (s.vmas_eq top) hlt habove (fun v hv => hbelow v (List.mem_reverse.mp hv))
    hchain ((tailAnonymous_below H).mpr htail)

end

/-- `ChangeProtectionFlags` returns and has changed the protections of the range, and
nothing else, exactly when the range is empty or the walk meets no hole and cuts no
file mapping that starts inside the range. -/
theorem changeProtectionFlags_protects (s : VMATracking) (base length : Nat) (newProt : VMAProt)
    (H : Ordered s.vmas) : (∃ s', s.changeProtectionFlags base length newProt = some s' ∧
        Protected base (base + length) newProt s.vmas s'.vmas) ↔
      length = 0 ∨ Unbroken s.vmas base (base + length) ∧ TailAnonymous s.vmas base (base + length) := by
  unfold changeProtectionFlags
  by_cases hlen : length = 0
  · subst hlen
    refine iff_of_true ⟨s, rfl, Protected.refl_of_none fun a h₁ h₂ => ?_⟩ (.inl rfl)
    omega
  rw [if_neg hlen, or_iff_right hlen]
  have hlt : base < base + length := Nat.lt_add_of_pos_right (Nat.pos_of_ne_zero hlen)
  generalize htop : base + length = top at *
  have hs := s.vmas_eq top
  have hsub : (s.below top).Sublist s.vmas := List.takeWhile_sublist _
  have hrest : ∀ v ∈ (s.below top).reverse, v.base < top := fun v hv => (H.split top).1 v (List.mem_reverse.mp hv)
  have hchain : Chained base top (s.below top).reverse ↔ Unbroken s.vmas base top := by
    rw [← unbroken_below H hlt]
    exact chained_iff (List.pairwise_reverse.mpr (H.sublist hsub).apart)
      (fun v hv => (H.sublist hsub).nonempty v (List.mem_reverse.mp hv)) hrest
  constructor
  · rintro ⟨s', h, hprot⟩
    refine ⟨hchain.mp (chained_of_protectLoop H hlt h), (tailAnonymous_below H).mp fun v hv hbase hlow hpast => ?_⟩
    cases hr : v.resource with
    | none => rfl
    | some r =>
      -- only the highest entry below `top` can reach past it
      cases hl : (s.below top).reverse with
      | nil => simp [hl] at hv
      | cons c rest =>
        rw [hl] at hs hv h
        have hL : Ordered (rest.reverse ++ c :: s.atOrAfter top) := by simpa [hs] using H
        rcases List.mem_cons.mp hv with rfl | hv
        · exact absurd hprot (protectLoop_tail newProt H hs hbase hlow hpast hr h)
        · have hle := (hL.lt_of_mem_left (List.mem_reverse.mpr hv)).1
          have hc := hrest c (hl ▸ List.mem_cons_self)
          omega
  · rintro ⟨hun, htail⟩
    exact protectLoop_below H hlt newProt (hchain.mpr hun) htail

/-- Sixteen pages are mapped and the third is unmapped. A change that starts in the
page before the hole and ends with it is fatal. -/
theorem changeProtectionFlags_hole :
    let s := run {} [.trackVMARange none 0x10000 0 0x10000 false ⟨true, true, false⟩,
      .deleteVMARange 0x12000 0x1000]
    s.map VMATracking.vmas = some [⟨none, 0x10000, 0, 0x2000, false, ⟨true, true, false⟩⟩,
          ⟨none, 0x13000, 0x3000, 0xd000, false, ⟨true, true, false⟩⟩] ∧
      (s.bind fun s => s.changeProtectionFlags 0x11000 0x2000 ⟨true, false, false⟩).isNone := by
  decide

def twoMappings : VMATracking :=
  (run {} [.insertMappedResource 0 ⟨false, 0x2000⟩,
    .trackVMARange (some 0) 0x10000 0 0x2000 false ⟨true, false, true⟩,
    .trackVMARange none 0x12000 0 0x2000 false ⟨true, true, false⟩]).getD {}

/-- A change across the boundary of the two mappings. -/
theorem changeProtectionFlags_protects_pair :
    ∃ s', twoMappings.changeProtectionFlags 0x11000 0x2000 ⟨true, false, false⟩ = some s' ∧
      Protected 0x11000 (0x11000 + 0x2000) ⟨true, false, false⟩ twoMappings.vmas s'.vmas :=
  (changeProtectionFlags_protects twoMappings 0x11000 0x2000 ⟨true, false, false⟩ (by decide)).mpr (by decide)

end

end PowerArm.Vma
