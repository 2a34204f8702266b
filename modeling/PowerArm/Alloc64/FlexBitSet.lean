import Mathlib

/-!
# The page bitmap

`FlexBitSet` with its two scans for a run of unset elements, in `size_t`. A scan looks at
a window of elements from its far end, and when it meets one that is set it moves the
window past it.
-/

namespace PowerArm.Alloc64

abbrev FlexBitSet := Nat → Bool

namespace FlexBitSet

def alignUp64 (n : Nat) : Nat := (n + 63) / 64 * 64

def sizeInBytes (elements : Nat) : Nat := alignUp64 elements / 8

/-- The elements that `MemSet` sets: the size it hands to `memset` is in bytes. -/
def memSetBits (elements : Nat) : Nat := alignUp64 (elements / 64) * 8

def memSet (bits : FlexBitSet) (elements : Nat) : FlexBitSet := fun i => i < memSetBits elements || bits i

/-- `TestAndSet` on `count` elements, with the number of those that were unset. -/
def setRange (bits : FlexBitSet) (start : Nat) : Nat → FlexBitSet × Nat
  | 0 => (bits, 0)
  | count + 1 =>
    let (bits', pagesSet) := setRange bits start count
    (Function.update bits' (start + count) true, pagesSet + if bits' (start + count) then 0 else 1)

/-- `TestAndClear` on `count` elements, with the number of those that were set. -/
def clearRange (bits : FlexBitSet) (start : Nat) : Nat → FlexBitSet × Nat
  | 0 => (bits, 0)
  | count + 1 =>
    let (bits', freedPages) := clearRange bits start count
    (Function.update bits' (start + count) false, freedPages + if bits' (start + count) then 1 else 0)

structure BitsetScanResults where
  foundElement : Option Nat
  foundHole : Bool
deriving DecidableEq, Repr

def add (a b : Nat) : Nat := (a + b) % 2 ^ 64

def sub (a b : Nat) : Nat := (a + 2 ^ 64 - b) % 2 ^ 64

/-- What sets the scans apart: the bound of the loop, the element read at `Remaining`, the
step past a conflict and the first element of a window. -/
structure Direction where
  continues : Nat → Bool
  element : Nat → Nat → Nat
  next : Nat → Nat → Nat
  first : Nat → Nat

def forward (elementCount elementsInSet : Nat) : Direction where
  continues current := current ≤ add (sub elementsInSet elementCount) 1
  element current remaining := sub (add current remaining) 1
  next := add
  first := id

def backward (elementCount minimumElement : Nat) : Direction where
  continues current := sub (add minimumElement elementCount) 1 ≤ current
  element current remaining := add (sub current remaining) 1
  next := sub
  first current := add (sub current elementCount) 1

section
variable (get : Nat → Option Bool)

/-- The inner loop of both scans: how much of a window remains at its first set element, 0
when it has none. -/
def window (element : Nat → Nat) : Nat → Option Nat
  | 0 => some 0
  | remaining + 1 =>
    (get (element (remaining + 1))).bind fun set => if set then some (remaining + 1) else window element remaining

/-- An element without a value ends the scan, and so does the fuel. -/
def scan (d : Direction) (elementCount : Nat) : Nat → Nat → Bool → Option BitsetScanResults
  | 0, _, _ => none
  | fuel + 1, current, foundHole =>
    if d.continues current then
      (window get (d.element current) elementCount).bind fun remaining =>
        if remaining = 0 then some ⟨some (d.first current), foundHole⟩
        else scan d elementCount fuel (d.next current remaining) (foundHole || remaining ≠ elementCount)
    else some ⟨none, foundHole⟩

def forwardScanForRange (beginningElement elementCount elementsInSet : Nat) : Option BitsetScanResults :=
  scan get (forward elementCount elementsInSet) elementCount (elementsInSet + 2) beginningElement false

def backwardScanForRange (beginningElement elementCount minimumElement : Nat) : Option BitsetScanResults :=
  scan get (backward elementCount minimumElement) elementCount (beginningElement + 2) beginningElement false

end

/-! ## Ranges -/

def unset (bits : FlexBitSet) : Nat → Nat
  | 0 => 0
  | elements + 1 => unset bits elements + if bits elements then 0 else 1

def Free (bits : FlexBitSet) (start count : Nat) : Prop := ∀ i < count, bits (start + i) = false

variable {bits : FlexBitSet} {start count elements i : Nat}

theorem setRange_bits (bits : FlexBitSet) (start count i : Nat) :
    (setRange bits start count).1 i ↔ (start ≤ i ∧ i < start + count) ∨ bits i := by
  induction count with
  | zero =>
    simp only [setRange, iff_or_self]
    omega
  | succ count ih =>
    simp only [setRange]
    grind

theorem clearRange_bits (bits : FlexBitSet) (start count i : Nat) :
    (clearRange bits start count).1 i ↔ ¬ (start ≤ i ∧ i < start + count) ∧ bits i := by
  induction count with
  | zero =>
    simp only [clearRange, iff_and_self]
    omega
  | succ count ih =>
    simp only [clearRange]
    grind

theorem Free.mono (h : Free bits start count) (hn : n ≤ count) : Free bits start n :=
  fun i hi => h i (Nat.lt_of_lt_of_le hi hn)

theorem unset_congr (h : ∀ i < elements, bits i = bits' i) : unset bits elements = unset bits' elements := by
  induction elements with
  | zero => rfl
  | succ elements ih =>
    rw [unset, unset, ih fun i hi => h i (Nat.lt_succ_of_lt hi), h elements (Nat.lt_succ_self _)]

theorem unset_update (bits : FlexBitSet) (hi : i < elements) (b : Bool) :
    unset (Function.update bits i b) elements + (if bits i then 0 else 1) =
      unset bits elements + if b then 0 else 1 := by
  induction elements with
  | zero => omega
  | succ elements ih =>
    by_cases heq : i = elements
    · subst heq
      have hsame : unset (Function.update bits i b) i = unset bits i :=
        unset_congr fun j hj => Function.update_of_ne (Nat.ne_of_lt hj) ..
      simp only [unset, Function.update_self]
      omega
    · simp only [unset, Function.update_of_ne (Ne.symm heq)]
      omega

theorem unset_setRange (bits : FlexBitSet) (h : start + count ≤ elements) :
    unset (setRange bits start count).1 elements + (setRange bits start count).2 = unset bits elements := by
  induction count with
  | zero => rfl
  | succ count ih =>
    have hone := unset_update (setRange bits start count).1 (show start + count < elements by omega) true
    simp only [setRange, if_true] at hone ⊢
    omega

theorem unset_clearRange (bits : FlexBitSet) (h : start + count ≤ elements) :
    unset (clearRange bits start count).1 elements = unset bits elements + (clearRange bits start count).2 := by
  induction count with
  | zero => rfl
  | succ count ih =>
    have hone := unset_update (clearRange bits start count).1 (show start + count < elements by omega) false
    simp only [clearRange, Bool.false_eq_true, if_false] at hone ⊢
    cases hbit : (clearRange bits start count).1 (start + count) with
    | false =>
      simp only [hbit, Bool.false_eq_true, if_false] at hone ⊢
      omega
    | true =>
      simp only [hbit, if_true] at hone ⊢
      omega

theorem unset_of_set_iff (h : ∀ i < elements, bits i = decide (i < start)) :
    unset bits elements + min start elements = elements := by
  induction elements with
  | zero => simp [unset]
  | succ elements ih =>
    have hrec := ih fun i hi => h i (Nat.lt_succ_of_lt hi)
    have hlast := h elements (Nat.lt_succ_self _)
    by_cases hlt : elements < start
    · simp only [unset, hlast, hlt, decide_true, if_true]
      omega
    · simp only [unset, hlast, hlt, decide_false, Bool.false_eq_true, if_false]
      omega

end FlexBitSet

end PowerArm.Alloc64
