import Mathlib

/-!
# Intrusive doubly linked lists

The list fields live in the nodes themselves: a heap `Links` gives every node
its `prev` and `next` pointer. `Chain h p l q` says that the nodes `l` are
linked in order between the neighbours `p` and `q`. Every edit of such a list
replaces a middle part: `Chain.splice` is the one lemma behind removal,
replacement and insertion, and `Threaded.splice` lifts it to a family of lists
that share the heap.
-/

namespace PowerArm.Lib

open Function (update update_of_ne update_self)

structure Links (α : Type _) where
  prev : α → Option α
  next : α → Option α

namespace Links

variable [DecidableEq α]

def setPrev (h : Links α) (a p : Option α) : Links α :=
  match a with
  | none => h
  | some a => { h with prev := update h.prev a p }

def setNext (h : Links α) (a n : Option α) : Links α :=
  match a with
  | none => h
  | some a => { h with next := update h.next a n }

def node (h : Links α) (x : α) (p n : Option α) : Links α where
  prev := update h.prev x p
  next := update h.next x n

section
variable (h : Links α)
include h

@[simp] theorem setPrev_next : (h.setPrev a p).next = h.next := by cases a <;> rfl

@[simp] theorem setNext_prev : (h.setNext a n).prev = h.prev := by cases a <;> rfl

@[simp] theorem setNext_none : h.setNext none n = h := rfl

theorem setPrev_prev_of_ne (hb : a ≠ some b) : (h.setPrev a p).prev b = h.prev b := by
  cases a with
  | none => rfl
  | some a => exact update_of_ne (fun e => hb (congrArg some e.symm)) _ _

theorem setNext_next_of_ne (hb : a ≠ some b) : (h.setNext a n).next b = h.next b := by
  cases a with
  | none => rfl
  | some a => exact update_of_ne (fun e => hb (congrArg some e.symm)) _ _

@[simp] theorem setPrev_prev_self : (h.setPrev (some a) p).prev a = p := update_self ..

@[simp] theorem setNext_next_self : (h.setNext (some a) n).next a = n := update_self ..

@[simp] theorem setPrev_setNext : (h.setPrev b p).setNext a n = (h.setNext a n).setPrev b p := by
  cases a <;> cases b <;> rfl

@[simp] theorem node_prev_self : (h.node x p n).prev x = p := update_self ..

@[simp] theorem node_next_self : (h.node x p n).next x = n := update_self ..

theorem node_prev_of_ne (hb : b ≠ x) : (h.node x p n).prev b = h.prev b := update_of_ne hb ..

theorem node_next_of_ne (hb : b ≠ x) : (h.node x p n).next b = h.next b := update_of_ne hb ..

end

end Links

/-! ## Chains -/

def Chain (h : Links α) : Option α → List α → Option α → Prop
  | _, [], _ => True
  | p, a :: l, q => h.prev a = p ∧ h.next a = l.head?.or q ∧ Chain h (some a) l q

variable {h h' : Links α}

theorem Chain.congr (H : Chain h p l q) (hp : ∀ a ∈ l, h'.prev a = h.prev a)
    (hn : ∀ a ∈ l, h'.next a = h.next a) : Chain h' p l q := by
  induction l generalizing p with
  | nil => trivial
  | cons a l ih =>
    simp only [List.forall_mem_cons] at hp hn
    exact ⟨hp.1.trans H.1, hn.1.trans H.2.1, ih H.2.2 hp.2 hn.2⟩

theorem getLast?_cons_or (a : α) (l : List α) (p : Option α) : (a :: l).getLast?.or p = l.getLast?.or (some a) := by
  rw [List.getLast?_cons]
  cases l.getLast? <;> rfl

theorem chain_append : Chain h p (l₁ ++ l₂) q ↔ Chain h p l₁ (l₂.head?.or q) ∧ Chain h (l₁.getLast?.or p) l₂ q := by
  induction l₁ generalizing p with
  | nil => simp [Chain]
  | cons a l₁ ih =>
    have hhead : (l₁ ++ l₂).head?.or q = l₁.head?.or (l₂.head?.or q) := by cases l₁ <;> simp
    simp only [List.cons_append, Chain, ih, getLast?_cons_or, hhead, and_assoc]

section
variable [DecidableEq α]

section
variable (H : Chain h p l q)
include H

theorem Chain.setPrev (hl : l.Nodup) : Chain (h.setPrev l.head? p') p' l q := by
  cases l with
  | nil => trivial
  | cons a l =>
    have hne : ∀ b ∈ l, some a ≠ some b := by
      rintro b hb ⟨⟩
      exact (List.nodup_cons.mp hl).1 hb
    refine ⟨by simp, by simpa using H.2.1, H.2.2.congr (fun b hb => ?_) (by simp)⟩
    exact Links.setPrev_prev_of_ne h (hne b hb)

theorem Chain.setNext (hl : l.Nodup) : Chain (h.setNext l.getLast? q') p l q' := by
  obtain rfl | ⟨l, a, rfl⟩ := List.eq_nil_or_concat l
  · trivial
  rw [List.concat_eq_append] at H hl ⊢
  obtain ⟨hfront, hlast⟩ := chain_append.mp H
  have hne : ∀ b ∈ l, some a ≠ some b := by
    rintro b hb ⟨⟩
    exact (List.disjoint_of_nodup_append hl) hb (List.mem_singleton_self a)
  rw [List.getLast?_concat]
  refine chain_append.mpr ⟨hfront.congr (by simp) fun b hb => ?_, ?_⟩
  · exact Links.setNext_next_of_ne h (hne b hb)
  · exact ⟨by simpa using hlast.1, by simp, trivial⟩

theorem Chain.setPrev_frame (ha : ∀ b ∈ l, a ≠ some b) : Chain (h.setPrev a p') p l q :=
  H.congr (fun b hb => Links.setPrev_prev_of_ne h (ha b hb)) (by simp)

theorem Chain.setNext_frame (ha : ∀ b ∈ l, a ≠ some b) : Chain (h.setNext a q') p l q :=
  H.congr (by simp) (fun b hb => Links.setNext_next_of_ne h (ha b hb))

theorem Chain.node_frame (hx : x ∉ l) : Chain (h.node x p' n) p l q :=
  H.congr (fun _ hb => Links.node_prev_of_ne h fun e => hx (e ▸ hb))
    (fun _ hb => Links.node_next_of_ne h fun e => hx (e ▸ hb))

end

/-- The nodes `m` go in between `l₁` and `l₂` once the neighbours point at
them, whatever stood there before. -/
theorem Chain.splice (H₁ : Chain h none l₁ n) (H₂ : Chain h p l₂ none)
    (Hm : Chain h l₁.getLast? m l₂.head?) (hnodup : (l₁ ++ m ++ l₂).Nodup) :
    Chain ((h.setNext l₁.getLast? (m ++ l₂).head?).setPrev l₂.head? (l₁ ++ m).getLast?)
      none (l₁ ++ m ++ l₂) none := by
  obtain ⟨h₁m, h₂, hd⟩ := List.nodup_append'.mp hnodup
  obtain ⟨h₁, hm, hd'⟩ := List.nodup_append'.mp h₁m
  have hlast : ∀ b ∈ m ++ l₂, l₁.getLast? ≠ some b := by
    intro b hb e
    have hb₁ := List.mem_of_getLast? e
    rcases List.mem_append.mp hb with hb | hb
    · exact hd' hb₁ hb
    · exact hd (List.mem_append_left _ hb₁) hb
  have hfirst : ∀ b ∈ l₁ ++ m, l₂.head? ≠ some b := fun b hb e => hd hb (List.mem_of_mem_head? e)
  simp only [List.mem_append] at hlast hfirst
  refine chain_append.mpr ⟨chain_append.mpr ⟨?_, ?_⟩, ?_⟩
  · refine Chain.setPrev_frame ?_ fun b hb => hfirst b (.inl hb)
    have hto : Chain _ _ l₁ (m ++ l₂).head? := H₁.setNext h₁
    simpa using hto
  · simpa using (Hm.setNext_frame fun b hb => hlast b (.inl hb)).setPrev_frame fun b hb => hfirst b (.inr hb)
  · simpa using Chain.setPrev (H₂.setNext_frame fun b hb => hlast b (.inr hb)) h₂

end

/-! ## Families of lists over one heap -/

/-- Each list of the family starts at its `first` node and is doubly linked. -/
structure Threaded (h : Links α) (first : ρ → Option α) (lists : ρ → List α) : Prop where
  head : ∀ r, first r = (lists r).head?
  chain : ∀ r, Chain h none (lists r) none

theorem Threaded.node [DecidableEq α] (H : Threaded h first lists)
    (hx : ∀ r, x ∉ lists r) : Threaded (h.node x p n) first lists :=
  ⟨H.head, fun r => (H.chain r).node_frame (hx r)⟩

theorem Chain.neighbours (H : Chain h none (l₁ ++ a :: l₂) none) : h.prev a = l₁.getLast? ∧ h.next a = l₂.head? := by
  obtain ⟨-, hprev, hnext, -⟩ := chain_append.mp H
  exact ⟨by simpa using hprev, by simpa using hnext⟩

/-- One list of the family has its part `old` replaced by the nodes `m`. The
heap `h'` may differ from the old one at `m`, whose pointers are set up. -/
theorem Threaded.splice [DecidableEq α] (H : Threaded h first lists) (hold : lists r = l₁ ++ old ++ l₂)
    (hnew : lists' r = l₁ ++ m ++ l₂) (hothers : ∀ r', r' ≠ r → lists' r' = lists r')
    (hfirst : first' r = (l₁ ++ m ++ l₂).head?) (hfirsts : ∀ r', r' ≠ r → first' r' = first r')
    (hprev : ∀ b, b ∉ m → h'.prev b = h.prev b) (hnext : ∀ b, b ∉ m → h'.next b = h.next b)
    (hm : Chain h' l₁.getLast? m l₂.head?) (hnodup : (l₁ ++ m ++ l₂).Nodup)
    (hapart : ∀ r', r' ≠ r → ∀ b ∈ lists r', b ∉ l₁ ++ m ++ l₂) :
    Threaded ((h'.setNext l₁.getLast? (m ++ l₂).head?).setPrev l₂.head? (l₁ ++ m).getLast?) first' lists' := by
  have hkeep : ∀ {p l q}, (∀ b ∈ l, b ∉ m) → Chain h p l q → Chain h' p l q :=
    fun hl hc => hc.congr (fun b hb => hprev b (hl b hb)) (fun b hb => hnext b (hl b hb))
  obtain ⟨h₁m, h₂, hd⟩ := List.nodup_append'.mp hnodup
  obtain ⟨h₁, -, hd'⟩ := List.nodup_append'.mp h₁m
  refine ⟨fun r' => ?_, fun r' => ?_⟩
  · by_cases hr : r' = r
    · rw [hr, hfirst, hnew]
    · rw [hfirsts r' hr, hothers r' hr, H.head]
  · by_cases hr : r' = r
    · have hc := H.chain r
      rw [hold] at hc
      obtain ⟨hc₁, hc₂⟩ := chain_append.mp hc
      obtain ⟨hc₁, -⟩ := chain_append.mp hc₁
      rw [hr, hnew]
      exact Chain.splice (hkeep (fun b hb hbm => hd' hb hbm) hc₁)
        (hkeep (fun b hb hbm => hd (List.mem_append_right _ hbm) hb) hc₂) hm hnodup
    · have hout := hapart r' hr
      simp only [List.mem_append, not_or] at hout
      rw [hothers r' hr]
      refine Chain.setPrev_frame (Chain.setNext_frame (hkeep (fun b hb => ?_) (H.chain r')) ?_) ?_
      · exact (hout b hb).1.2
      · exact fun b hb e => (hout b hb).1.1 (List.mem_of_getLast? e)
      · exact fun b hb e => (hout b hb).2 (List.mem_of_mem_head? e)

end PowerArm.Lib
