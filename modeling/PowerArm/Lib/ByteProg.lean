import Mathlib

/-!
# Checked programs over a byte memory

A `Prog` reads and writes one byte memory through spans it was given, reads a
file image that does not change, and may refuse, abort or return a value. An
access outside the spans or past the end of the image is a fault.

`Within p m W Q` is the judgement used on them: from `m`, the program does not
fault, changes no byte outside `W` whether it refuses or returns, and what it
returns satisfies `Q`.
-/

namespace PowerArm.Lib

abbrev Mem := Nat → UInt8

def Mem.number (m : Mem) (a : Nat) : Nat → Nat
  | 0 => 0
  | n + 1 => (m a).toNat + 256 * m.number (a + 1) n

def Mem.slice (m : Mem) (a n : Nat) : List UInt8 := (List.range n).map fun i => m (a + i)

def Mem.put (m : Mem) (a : Nat) (bs : List UInt8) : Mem := fun i =>
  if a ≤ i ∧ i < a + bs.length then bs.getD (i - a) 0 else m i

def numberBytes : Nat → Nat → List UInt8
  | 0, _ => []
  | n + 1, v => UInt8.ofNat v :: numberBytes n (v / 256)

structure Span where
  base : Nat
  size : Nat
  deriving DecidableEq, Repr

def Span.Has (s : Span) (a : Nat) : Prop := s.base ≤ a ∧ a < s.base + s.size

def Span.Covers (s : Span) (a n : Nat) : Prop := s.base ≤ a ∧ a + n ≤ s.base + s.size

instance (s : Span) : Decidable (s.Covers a n) := inferInstanceAs (Decidable (_ ∧ _))

structure Image where
  size : Nat
  byte : Mem

/-! ## Bytes -/

theorem number_congr {m m' : Mem} (h : ∀ i, a ≤ i → i < a + n → m i = m' i) : m.number a n = m'.number a n := by
  induction n generalizing a with
  | zero => rfl
  | succ n ih =>
    have htail : m.number (a + 1) n = m'.number (a + 1) n := ih fun i hi hlt => h i (by omega) (by omega)
    simp only [Mem.number, h a (Nat.le_refl a) (by omega), htail]

theorem number_shift {m m' : Mem} (h : ∀ i < n, m (a + i) = m' (b + i)) : m.number a n = m'.number b n := by
  induction n generalizing a b with
  | zero => rfl
  | succ n ih =>
    have htail : m.number (a + 1) n = m'.number (b + 1) n := by
      apply ih
      intro i hi
      have := h (i + 1) (by omega)
      rwa [← Nat.add_assoc, Nat.add_right_comm, ← Nat.add_assoc, Nat.add_right_comm b] at this
    have hhead : m a = m' b := h 0 (by omega)
    simp only [Mem.number, hhead, htail]

theorem number_lt (m : Mem) (a n : Nat) : m.number a n < 256 ^ n := by
  induction n generalizing a with
  | zero => simp [Mem.number]
  | succ n ih =>
    have hhead := (m a).toNat_lt
    have htail := ih (a + 1)
    simp only [Mem.number]
    omega

@[simp] theorem slice_length (m : Mem) (a n : Nat) : (m.slice a n).length = n := by simp [Mem.slice]

@[simp] theorem numberBytes_length (n v : Nat) : (numberBytes n v).length = n := by
  induction n generalizing v with
  | zero => rfl
  | succ n ih => simp [numberBytes, ih]

theorem put_outside (m : Mem) (bs : List UInt8) (h : i < a ∨ a + bs.length ≤ i) : m.put a bs i = m i := by
  unfold Mem.put
  rw [if_neg]
  omega

theorem put_append (m : Mem) (xs ys : List UInt8) : m.put a (xs ++ ys) = (m.put a xs).put (a + xs.length) ys := by
  funext i
  unfold Mem.put
  rw [List.length_append]
  by_cases hys : a + xs.length ≤ i ∧ i < a + xs.length + ys.length
  · have hsub : i - a - xs.length = i - (a + xs.length) := by omega
    rw [if_pos (by omega), if_pos hys, List.getD_eq_getElem?_getD, List.getD_eq_getElem?_getD,
      List.getElem?_append_right (by omega), hsub]
  · rw [if_neg hys]
    by_cases hxs : a ≤ i ∧ i < a + xs.length
    · rw [if_pos (by omega), if_pos hxs, List.getD_eq_getElem?_getD, List.getD_eq_getElem?_getD,
        List.getElem?_append_left (by omega)]
    · rw [if_neg (by omega), if_neg hxs]

theorem put_slice (m src : Mem) (hi : a ≤ i) (hlt : i < a + n) : m.put a (src.slice b n) i = src (b + (i - a)) := by
  have hlen : i - a < n := by omega
  simp [Mem.put, hi, hlt, Mem.slice, hlen]

theorem numberBytes_getD (n v i : Nat) (h : i < n) : (numberBytes n v).getD i 0 = UInt8.ofNat (v / 256 ^ i) := by
  induction n generalizing v i with
  | zero => omega
  | succ n ih =>
    cases i with
    | zero => simp [numberBytes]
    | succ i =>
      simp only [numberBytes, List.getD_cons_succ]
      rw [ih (v / 256) i (by omega), Nat.div_div_eq_div_mul, Nat.pow_succ']

theorem number_put (m : Mem) (a n v : Nat) : (m.put a (numberBytes n v)).number a n = v % 256 ^ n := by
  have key : ∀ k j w, (∀ i < k, m.put a (numberBytes n v) (j + i) = UInt8.ofNat (w / 256 ^ i)) →
      (m.put a (numberBytes n v)).number j k = w % 256 ^ k := by
    intro k
    induction k with
    | zero => intro j w _; simp [Mem.number, Nat.mod_one]
    | succ k ih =>
      intro j w hj
      have hhead := hj 0 (by omega)
      have htail := ih (j + 1) (w / 256) fun i hi => by
        rw [Nat.add_right_comm, Nat.add_assoc, hj (i + 1) (by omega), Nat.div_div_eq_div_mul, Nat.pow_succ']
      simp only [Nat.pow_zero, Nat.div_one, Nat.add_zero] at hhead
      have hmod : w % 256 ^ (k + 1) = w % 256 + 256 * (w / 256 % 256 ^ k) := by rw [Nat.pow_succ', Nat.mod_mul]
      simp only [Mem.number, hhead, htail, hmod, UInt8.toNat_ofNat']
  apply key
  intro i hi
  unfold Mem.put
  rw [if_pos (by simp; omega), Nat.add_sub_cancel_left, numberBytes_getD n v i hi]

theorem number_put_outside (m : Mem) (bs : List UInt8) (h : b + n ≤ a ∨ a + bs.length ≤ b) :
    (m.put a bs).number b n = m.number b n := by
  apply number_congr
  intro i hi hlt
  apply put_outside
  omega

theorem number_put_away (m : Mem) (v : Nat) (h : b + k ≤ a ∨ a + n ≤ b) :
    (m.put a (numberBytes n v)).number b k = m.number b k :=
  number_put_outside m _ (by rwa [numberBytes_length])

/-! ## Programs -/

/-- How a program ends: on a forbidden access, by ending the process, by an early
return that reports failure, or with a value. -/
inductive End (α : Type) where
  | fault
  | abort
  | refused (m : Mem)
  | value (a : α) (m : Mem)

def Prog (α : Type) := Mem → End α

namespace Prog

protected def pure (a : α) : Prog α := fun m => .value a m

protected def bind (p : Prog α) (f : α → Prog β) : Prog β := fun m =>
  match p m with
  | .fault => .fault
  | .abort => .abort
  | .refused m' => .refused m'
  | .value a m' => f a m'

instance : Monad Prog where
  pure := Prog.pure
  bind := Prog.bind

def refuse : Prog α := fun m => .refused m

def abort : Prog α := fun _ => .abort

def fault : Prog α := fun _ => .fault

/-- Goes on only when `P` holds: the source's `if (!P) return false`. -/
def require (P : Prop) [Decidable P] : Prog Unit := if P then pure () else refuse

def load (spans : List Span) (a n : Nat) : Prog Nat := fun m =>
  if ∃ s ∈ spans, s.Covers a n then .value (m.number a n) m else .fault

def store (spans : List Span) (a : Nat) (bs : List UInt8) : Prog Unit := fun m =>
  if ∃ s ∈ spans, s.Covers a bs.length then .value () (m.put a bs) else .fault

def fetch (img : Image) (a n : Nat) (view : Mem → Nat → Nat → α) : Prog α := fun m =>
  if a + n ≤ img.size then .value (view img.byte a n) m else .fault

end Prog

/-! ## The judgement -/

def Kept (W : Nat → Prop) (m m' : Mem) : Prop := ∀ i, ¬ W i → m' i = m i

theorem Kept.refl (W : Nat → Prop) (m : Mem) : Kept W m m := fun _ _ => rfl

theorem Kept.trans (h : Kept W m m') (h' : Kept W m' m'') : Kept W m m'' :=
  fun i hi => (h' i hi).trans (h i hi)

theorem Kept.mono (h : Kept W m m') (hW : ∀ i, W i → W' i) : Kept W' m m' :=
  fun i hi => h i fun hw => hi (hW i hw)

def Within (p : Prog α) (m : Mem) (W : Nat → Prop) (Q : α → Mem → Prop) : Prop :=
  match p m with
  | .fault => False
  | .abort => True
  | .refused m' => Kept W m m'
  | .value a m' => Kept W m m' ∧ Q a m'

namespace Within

theorem pure (h : Q a m) : Within (Pure.pure a) m W Q := ⟨Kept.refl W m, h⟩

theorem bind
    (hp : Within p m W Q) (hf : ∀ a m', Kept W m m' → Q a m' → Within (f a) m' W R) : Within (p >>= f) m W R := by
  show Within (Prog.bind p f) m W R
  unfold Within Prog.bind
  unfold Within at hp
  cases hpm : p m with
  | fault => rw [hpm] at hp; exact hp
  | abort => trivial
  | refused m' => rw [hpm] at hp; exact hp
  | value a m' =>
    rw [hpm] at hp
    obtain ⟨hkept, hQ⟩ := hp
    have hnext := hf a m' hkept hQ
    unfold Within at hnext
    simp only
    cases hfm : f a m' with
    | fault => rw [hfm] at hnext; exact hnext
    | abort => trivial
    | refused m'' => rw [hfm] at hnext; exact hkept.trans hnext
    | value b m'' => rw [hfm] at hnext; exact ⟨hkept.trans hnext.1, hnext.2⟩

theorem mono (hp : Within p m W Q)
    (hW : ∀ i, W i → W' i) (hQ : ∀ a m', Kept W m m' → Q a m' → R a m') : Within p m W' R := by
  unfold Within at *
  cases hpm : p m with
  | fault => rw [hpm] at hp; exact hp
  | abort => trivial
  | refused m' => rw [hpm] at hp; exact hp.mono hW
  | value a m' =>
    rw [hpm] at hp
    exact ⟨hp.1.mono hW, hQ a m' hp.1 hp.2⟩

theorem refuse : Within Prog.refuse m W Q := Kept.refl W m

theorem abort : Within Prog.abort m W Q := trivial

theorem load (h : ∃ s ∈ spans, Span.Covers s a n) (hQ : Q (m.number a n) m) : Within (Prog.load spans a n) m W Q := by
  unfold Within Prog.load
  rw [if_pos h]
  exact ⟨Kept.refl W m, hQ⟩

theorem store (h : ∃ s ∈ spans, Span.Covers s a bs.length)
    (hW : ∀ i, a ≤ i → i < a + bs.length → W i) (hQ : Q () (m.put a bs)) : Within (Prog.store spans a bs) m W Q := by
  unfold Within Prog.store
  rw [if_pos h]
  refine ⟨fun i hi => put_outside m bs ?_, hQ⟩
  by_contra hout
  exact hi (hW i (by omega) (by omega))

theorem fetch (h : a + n ≤ img.size) (hQ : Q (view img.byte a n) m) : Within (Prog.fetch img a n view) m W Q := by
  unfold Within Prog.fetch
  rw [if_pos h]
  exact ⟨Kept.refl W m, hQ⟩

theorem bind_require [Decidable P] (h : P → Within (f ()) m W R) : Within (Prog.require P >>= f) m W R := by
  unfold Prog.require
  split
  · next hP => exact h hP
  · exact refuse

theorem bind_load (hc : ∃ s ∈ spans, Span.Covers s a n) (h : Within (f (m.number a n)) m W R) :
    Within (Prog.load spans a n >>= f) m W R := by
  refine bind (load hc (Q := fun v m' => v = m.number a n ∧ m' = m) ⟨rfl, rfl⟩) ?_
  rintro v m' _ ⟨rfl, rfl⟩
  exact h

theorem bind_fetch (hc : a + n ≤ img.size) (h : Within (f (view img.byte a n)) m W R) :
    Within (Prog.fetch img a n view >>= f) m W R := by
  refine bind (fetch hc (Q := fun v m' => v = view img.byte a n ∧ m' = m) ⟨rfl, rfl⟩) ?_
  rintro v m' _ ⟨rfl, rfl⟩
  exact h

theorem seq (hp : Within p m W fun _ _ => True) (hf : ∀ a m', Within (f a) m' W R) : Within (p >>= f) m W R :=
  bind hp fun a m' _ _ => hf a m'

theorem forM {f : ι → Prog PUnit} {l : List ι} (h : ∀ i ∈ l, ∀ m, Within (f i) m W fun _ _ => True) :
    Within (l.forM f) m W fun _ _ => True := by
  induction l generalizing m with
  | nil => exact pure trivial
  | cons i l ih =>
    refine bind (h i List.mem_cons_self m) ?_
    intro _ m' _ _
    exact ih fun j hj => h j (List.mem_cons_of_mem _ hj)

end Within

/-! ## What a returned value tells -/

/-- If the program returns, what it returns satisfies `Q`. -/
def Gives (p : Prog α) (m : Mem) (Q : α → Mem → Prop) : Prop := ∀ a m', p m = .value a m' → Q a m'

namespace Gives

theorem pure (h : Q a m) : Gives (Pure.pure a) m Q := by
  rintro _ _ ⟨⟩
  exact h

theorem bind (h : Gives p m fun a m' => Gives (f a) m' Q) : Gives (p >>= f) m Q := by
  intro b m'' hrun
  change Prog.bind p f m = _ at hrun
  unfold Prog.bind at hrun
  split at hrun
  · cases hrun
  · cases hrun
  · cases hrun
  · next a m' ha => exact h a m' ha b m'' hrun

theorem mono (h : Gives p m Q) (hQ : ∀ a m', Q a m' → R a m') : Gives p m R :=
  fun a m' ha => hQ a m' (h a m' ha)

theorem refuse : Gives Prog.refuse m Q := nofun

theorem store (h : Q () (m.put a bs)) : Gives (Prog.store spans a bs) m Q := by
  intro _ m' hrun
  unfold Prog.store at hrun
  split at hrun
  · cases hrun
    exact h
  · cases hrun

theorem bind_store (h : Gives (f ()) (m.put a bs) Q) : Gives (Prog.store spans a bs >>= f) m Q := bind (store h)

theorem load (h : Q (m.number a n) m) : Gives (Prog.load spans a n) m Q := by
  intro v m' hrun
  unfold Prog.load at hrun
  split at hrun
  · cases hrun
    exact h
  · cases hrun

theorem bind_load (h : Gives (f (m.number a n)) m Q) : Gives (Prog.load spans a n >>= f) m Q := bind (load h)

theorem bind_fetch (h : Gives (f (view img.byte a n)) m Q) : Gives (Prog.fetch img a n view >>= f) m Q := by
  refine bind ?_
  intro v m' hrun
  unfold Prog.fetch at hrun
  split at hrun
  · cases hrun
    exact h
  · cases hrun

theorem require [Decidable P] (h : P → Q () m) : Gives (Prog.require P) m Q := by
  unfold Prog.require
  split
  · next hP => exact pure (h hP)
  · exact refuse

theorem bind_require [Decidable P] (h : P → Gives (f ()) m Q) : Gives (Prog.require P >>= f) m Q := bind (require h)

theorem of_within (h : Within p m W Q) : Gives p m fun a m' => Kept W m m' ∧ Q a m' := by
  intro a m' hrun
  unfold Within at h
  rw [hrun] at h
  exact h

theorem and (h : Gives p m Q) (h' : Gives p m R) : Gives p m fun a m' => Q a m' ∧ R a m' :=
  fun a m' ha => ⟨h a m' ha, h' a m' ha⟩

theorem forM_keeps {f : ι → Prog PUnit} {l : List ι} {P : Mem → Prop}
    (hstep : ∀ i ∈ l, ∀ m, P m → Gives (f i) m fun _ m' => P m') (h : P m) : Gives (l.forM f) m fun _ m' => P m' := by
  induction l generalizing m with
  | nil => exact pure h
  | cons i l ih =>
    refine bind ((hstep i List.mem_cons_self m h).mono ?_)
    intro _ m' hm'
    exact ih (fun j hj => hstep j (List.mem_cons_of_mem _ hj)) hm'

/-- After a loop every round's result still holds, when no later round's writes
reach it. -/
theorem forM {f : ι → Prog PUnit} {l : List ι} {E : ι → Mem → Prop} {W : ι → Nat → Prop}
    (hstep : ∀ i ∈ l, ∀ m, Gives (f i) m fun _ m' => E i m' ∧ Kept (W i) m m')
    (hstable : l.Pairwise fun i j => ∀ m m', Kept (W j) m m' → E i m → E i m') :
    Gives (l.forM f) m fun _ m' => (∀ i ∈ l, E i m') ∧ Kept (fun a => ∃ i ∈ l, W i a) m m' := by
  induction l generalizing m with
  | nil => exact pure ⟨nofun, Kept.refl _ _⟩
  | cons i l ih =>
    obtain ⟨hfirst, hrest⟩ := List.pairwise_cons.mp hstable
    have htail (j) (hj : j ∈ l) := hstep j (List.mem_cons_of_mem _ hj)
    refine bind ((hstep i List.mem_cons_self m).mono ?_)
    intro _ m₁ ⟨hi, hkept₁⟩
    have hkeep : Gives (l.forM f) m₁ fun _ m' => E i m' :=
      forM_keeps (fun j hj m hm => (htail j hj m).mono fun _ m' h => hfirst j hj m m' h.2 hm) hi
    refine ((ih htail hrest).and hkeep).mono ?_
    intro _ m₂ ⟨⟨hall, hkept₂⟩, hi₂⟩
    refine ⟨List.forall_mem_cons.mpr ⟨hi₂, hall⟩, ?_⟩
    refine (hkept₁.mono ?_).trans (hkept₂.mono ?_)
    · exact fun a ha => ⟨i, List.mem_cons_self, ha⟩
    · exact fun a ⟨j, hj, ha⟩ => ⟨j, List.mem_cons_of_mem _ hj, ha⟩

end Gives

end PowerArm.Lib
