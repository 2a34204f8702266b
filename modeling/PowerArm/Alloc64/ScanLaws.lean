import PowerArm.Alloc64.FlexBitSet

/-!
# What the scans find

On a set that ends, a read outside it has no value. A scan goes from window to window, each
starting just past the conflict in the one before (`After`, `Before`). It finds the outermost
run unless it comes to a window that it reads outside the set (`scans_exact_iff`).
-/

namespace PowerArm.Alloc64.FlexBitSet

/-- The elements of a set. -/
def inside (bits : FlexBitSet) (elements i : Nat) : Option Bool := if i < elements then some (bits i) else none

/-! ## One window -/

section
variable {get : Nat → Option Bool} {element : Nat → Nat}

theorem window_congr (h : ∀ r, 1 ≤ r → r ≤ n → element r = element' r) :
    window get element n = window get element' n := by
  induction n with
  | zero => rfl
  | succ n ih =>
    rw [window, window, h (n + 1) (by omega) (Nat.le_refl _), ih fun r h1 hr => h r h1 (by omega)]

theorem window_skip (hle : r ≤ n) (hfree : ∀ i, r < i → i ≤ n → get (element i) = some false) :
    window get element n = window get element r := by
  induction n with
  | zero => rw [Nat.le_zero.mp hle]
  | succ n ih =>
    obtain rfl | hlt := Nat.eq_or_lt_of_le hle
    · rfl
    · rw [window, hfree (n + 1) hlt (Nat.le_refl _)]
      exact ih (by omega) fun i h1 h2 => hfree i h1 (by omega)

/-- Where the loop stops: at an element that is set, at one without a value, or at the end. -/
theorem window_stops (get : Nat → Option Bool) (element : Nat → Nat) (n : Nat) :
    ∃ r ≤ n, (∀ i, r < i → i ≤ n → get (element i) = some false) ∧
      (r = 0 ∨ get (element r) = some true ∨ get (element r) = none) := by
  induction n with
  | zero => exact ⟨0, Nat.le_refl _, fun i h1 h2 => by omega, .inl rfl⟩
  | succ n ih =>
    match hget : get (element (n + 1)) with
    | none => exact ⟨n + 1, Nat.le_refl _, fun i h1 h2 => by omega, .inr (.inr hget)⟩
    | some true => exact ⟨n + 1, Nat.le_refl _, fun i h1 h2 => by omega, .inr (.inl hget)⟩
    | some false =>
      obtain ⟨r, hle, hfree, hstop⟩ := ih
      refine ⟨r, by omega, fun i h1 h2 => ?_, hstop⟩
      obtain h2 | rfl := Nat.le_succ_iff.mp h2
      · exact hfree i h1 h2
      · exact hget

theorem window_set (hr : r ≠ 0) (hset : get (element r) = some true) : window get element r = some r := by
  obtain ⟨r, rfl⟩ := Nat.exists_eq_succ_of_ne_zero hr
  rw [window, hset]
  rfl

theorem window_none (hr : r ≠ 0) (hnone : get (element r) = none) : window get element r = none := by
  obtain ⟨r, rfl⟩ := Nat.exists_eq_succ_of_ne_zero hr
  rw [window, hnone]
  rfl

theorem window_some (h : window get element n = some r) : r ≤ n ∧ (r ≠ 0 → get (element r) = some true) ∧
    ∀ i, r < i → i ≤ n → get (element i) = some false := by
  obtain ⟨q, hle, hfree, hstop⟩ := window_stops get element n
  rw [window_skip hle hfree] at h
  obtain rfl : r = q := by
    cases q with
    | zero =>
      cases h
      rfl
    | succ q =>
      rw [window] at h
      obtain hset | hnone := hstop.resolve_left (Nat.succ_ne_zero q)
      · rw [hset] at h
        cases h
        rfl
      · rw [hnone] at h
        cases h
  refine ⟨hle, fun hr => ?_, hfree⟩
  obtain hset | hnone := hstop.resolve_left hr
  · exact hset
  · rw [window_none hr hnone] at h
    cases h

end

/-! ## From window to window -/

section
variable {get : Nat → Option Bool} {d : Direction} {count : Nat}

theorem scan_step (fuel : Nat) (hole : Bool) (hcont : d.continues q) (hr : r ≠ 0)
    (hwindow : window get (d.element q) count = some r) :
    scan get d count (fuel + 1) q hole = scan get d count fuel (d.next q r) (hole || r ≠ count) := by
  rw [scan, if_pos hcont, hwindow]
  exact if_neg hr

theorem scan_none (fuel : Nat) (hole : Bool) (hcont : d.continues q)
    (hwindow : window get (d.element q) count = none) : scan get d count fuel q hole = none := by
  cases fuel with
  | zero => rfl
  | succ fuel =>
    rw [scan, if_pos hcont, hwindow]
    rfl

/-- What a scan that returns has found. -/
def Finds (outermost : Set Nat → Nat → Prop) (runs : Set Nat) : Option Nat → Prop
  | some s => outermost runs s
  | none => runs = ∅

/-- A scan finds the outermost run when from every window that is `ok` it steps over no run
to one that is. -/
theorem scan_finds (runs : Nat → Set Nat) (ok : Nat → Prop) (left : Nat → Nat)
    (hstop : ∀ q, d.continues q = false → runs q = ∅)
    (hstep : ∀ q, ok q → d.continues q → ∃ r, window get (d.element q) count = some r ∧
      (r = 0 → outermost (runs q) (d.first q)) ∧
      (r ≠ 0 → runs (d.next q r) = runs q ∧ ok (d.next q r) ∧ left (d.next q r) < left q))
    (hole : Bool) (hok : ok q) (hfuel : left q < fuel) :
    ∃ found hole', scan get d count fuel q hole = some ⟨found, hole'⟩ ∧ Finds outermost (runs q) found := by
  induction fuel generalizing q hole with
  | zero => omega
  | succ fuel ih =>
    cases hcont : d.continues q with
    | false => exact ⟨none, hole, by rw [scan, hcont]; rfl, hstop q hcont⟩
    | true =>
      obtain ⟨r, hwindow, hfound, hnext⟩ := hstep q hok hcont
      by_cases hr : r = 0
      · refine ⟨some (d.first q), hole, ?_, hfound hr⟩
        rw [scan, if_pos hcont, hwindow]
        exact if_pos hr
      · obtain ⟨hruns, hok', hleft⟩ := hnext hr
        obtain ⟨found, hole', hscan, hfinds⟩ := ih (hole || r ≠ count) hok' (by omega)
        exact ⟨found, hole', (scan_step fuel hole hcont hr hwindow).trans hscan, hruns ▸ hfinds⟩

/-- What holds of the first window and is kept from one to the next holds of the one found. -/
theorem scan_found (inv : Nat → Prop)
    (hstep : ∀ q r, inv q → d.continues q → window get (d.element q) count = some r → r ≠ 0 → inv (d.next q r))
    (hinv : inv q) (h : scan get d count fuel q hole = some ⟨some e, hole'⟩) :
    ∃ q, inv q ∧ d.continues q ∧ window get (d.element q) count = some 0 ∧ d.first q = e := by
  induction fuel generalizing q hole with
  | zero => cases h
  | succ fuel ih =>
    rw [scan] at h
    split at h
    next hcont =>
      cases hwindow : window get (d.element q) count with
      | none =>
        rw [hwindow] at h
        cases h
      | some r =>
        rw [hwindow, Option.bind_some] at h
        split at h
        next hr =>
          cases h
          exact ⟨q, hinv, hcont, hr ▸ hwindow, rfl⟩
        next hr => exact ih (hstep q r hinv hcont hwindow hr) h
    next => cases h

/-- A scan that comes to a window it cannot read does not return. -/
theorem scan_lost {hop : Nat → Nat → Prop} (inv : Nat → Prop)
    (hstep : ∀ q q', hop q q' → inv q' →
      inv q ∧ d.continues q ∧ ∃ r ≠ 0, window get (d.element q) count = some r ∧ d.next q r = q')
    (hpath : Relation.ReflTransGen hop q lost) (hinv : inv lost)
    (hlost : ∀ fuel hole, scan get d count fuel lost hole = none) :
    inv q ∧ ∀ fuel hole, scan get d count fuel q hole = none := by
  induction hpath using Relation.ReflTransGen.head_induction_on with
  | refl => exact ⟨hinv, hlost⟩
  | head hhop _ ih =>
    obtain ⟨hq, hcont, r, hr, hwindow, hnext⟩ := hstep _ _ hhop ih.1
    refine ⟨hq, fun fuel hole => ?_⟩
    cases fuel with
    | zero => rfl
    | succ fuel => rw [scan_step fuel hole hcont hr hwindow, hnext, ih.2]

end

/-! ## Runs -/

/-- The runs of `count` unset elements between two bounds. -/
def fits (bits : FlexBitSet) (count lo hi : Nat) : Set Nat := {s | lo ≤ s ∧ s + count ≤ hi ∧ Free bits s count}

variable {bits : FlexBitSet} {elements count lo hi x : Nat} {get : Nat → Option Bool}

/-- No run goes over a set element. -/
theorem not_over (hx : bits x) (h : Free bits s count) : x < s ∨ s + count ≤ x := by
  by_contra hover
  have hfree := h (x - s) (by omega)
  rw [show s + (x - s) = x by omega, hx] at hfree
  cases hfree

theorem fits_above (hx : bits x) (hlo : lo ≤ x) (hnear : x < lo + count) :
    fits bits count lo hi = fits bits count (x + 1) hi := by
  ext s
  refine ⟨fun ⟨hge, hle, hfree⟩ => ⟨?_, hle, hfree⟩, fun ⟨hge, hle, hfree⟩ => ⟨by omega, hle, hfree⟩⟩
  have := not_over hx hfree
  omega

theorem fits_below (hx : bits x) (hhi : x < hi) (hnear : hi ≤ x + count) :
    fits bits count lo hi = fits bits count lo x := by
  ext s
  refine ⟨fun ⟨hge, hle, hfree⟩ => ⟨hge, ?_, hfree⟩, fun ⟨hge, hle, hfree⟩ => ⟨hge, by omega, hfree⟩⟩
  have := not_over hx hfree
  omega

theorem fits_empty (h : hi < lo + count) : fits bits count lo hi = ∅ :=
  Set.eq_empty_of_forall_notMem fun s ⟨hge, hle, _⟩ => by omega

theorem inside_some : inside bits elements x = some b ↔ x < elements ∧ bits x = b := by
  unfold inside
  split <;> simp_all

theorem inside_none : inside bits elements x = none ↔ elements ≤ x := by
  unfold inside
  split <;> simp_all

/-! ## The forward scan -/

/-- Past the last set element of the window that begins at `q`. -/
def After (bits : FlexBitSet) (elements count q q' : Nat) : Prop :=
  q < q' ∧ q' ≤ q + count ∧ inside bits elements (q' - 1) = some true ∧
    ∀ x, q' ≤ x → x < q + count → inside bits elements x = some false

theorem forward_window (hq : q + count ≤ 2 ^ 64) (n : Nat) :
    window get ((forward count n).element q) count = window get (fun r => q + r - 1) count := by
  refine window_congr fun r h1 hr => ?_
  simp only [forward, add, sub]
  omega

theorem forward_continues (hcount : count ≤ elements) (hc : 1 ≤ count) (hword : elements < 2 ^ 64) :
    (forward count elements).continues q = decide (q + count ≤ elements + 1) := by
  refine decide_eq_decide.mpr ?_
  simp only [add, sub]
  omega

theorem forward_finds (hc : 1 ≤ count) (hcount : count ≤ elements) (hword : elements < 2 ^ 64)
    (hpath : ¬ Relation.ReflTransGen (After bits elements count) start (elements + 1 - count)) :
    ∃ found hole, forwardScanForRange (inside bits elements) start count elements = some ⟨found, hole⟩ ∧
      Finds IsLeast (fits bits count start elements) found := by
  refine scan_finds (fits bits count · elements)
    (fun q => ¬ Relation.ReflTransGen (After bits elements count) q (elements + 1 - count))
    (elements - ·) (fun q hcont => fits_empty ?_) (fun q hok hcont => ?_) false hpath (by omega)
  · rw [forward_continues hcount hc hword, decide_eq_false_iff_not] at hcont
    omega
  · rw [forward_continues hcount hc hword, decide_eq_true_eq] at hcont
    -- the window at `elements + 1 - count` would be the first to leave the set
    have hne : q ≠ elements + 1 - count := fun h => hok (h ▸ .refl)
    obtain ⟨r, hle, hfree, hstop⟩ := window_stops (inside bits elements) (fun r => q + r - 1) count
    refine ⟨r, ?_⟩
    rw [forward_window (by omega), window_skip hle hfree]
    by_cases hr : r = 0
    · subst hr
      refine ⟨rfl, fun _ => ⟨⟨Nat.le_refl q, show q + count ≤ elements by omega, fun i hi => ?_⟩, fun s hs => hs.1⟩,
        fun h => absurd rfl h⟩
      exact (inside_some.mp (hfree (i + 1) (by omega) (by omega))).2
    obtain hset | hnone := hstop.resolve_left hr
    · refine ⟨window_set hr hset, fun h => absurd h hr, fun _ => ?_⟩
      have hnext : (forward count elements).next q r = q + r := Nat.mod_eq_of_lt (show q + r < 2 ^ 64 by omega)
      have hruns : fits bits count q elements = fits bits count (q + r - 1 + 1) elements :=
        fits_above (inside_some.mp hset).2 (by omega) (by omega)
      rw [show q + r - 1 + 1 = q + r by omega] at hruns
      have hafter : After bits elements count q (q + r) := by
        refine ⟨by omega, by omega, hset, fun x h1 h2 => ?_⟩
        have hunset := hfree (x - q + 1) (by omega) (by omega)
        rwa [show q + (x - q + 1) - 1 = x by omega] at hunset
      rw [hnext]
      exact ⟨hruns.symm, fun h => hok (.head hafter h), by omega⟩
    · have := inside_none.mp hnone
      omega

theorem forward_lost (hc : 1 ≤ count) (hcount : count ≤ elements) (hword : elements < 2 ^ 64)
    (hpath : Relation.ReflTransGen (After bits elements count) start (elements + 1 - count)) :
    forwardScanForRange (inside bits elements) start count elements = none := by
  have hcont : ∀ {q}, q + count ≤ elements + 1 → (forward count elements).continues q := fun h => by
    rw [forward_continues hcount hc hword, decide_eq_true h]
  refine (scan_lost (fun q => q + count ≤ elements + 1) (fun q q' hhop hq' => ?_) hpath (by omega)
    fun fuel hole => scan_none fuel hole (hcont (by omega)) ?_).2 _ _
  · obtain ⟨hlt, hle, hset, hfree⟩ := hhop
    refine ⟨by omega, hcont (by omega), q' - q, by omega, ?_, ?_⟩
    · rw [forward_window (by omega), window_skip (r := q' - q) (by omega) fun i h1 h2 => hfree _ (by omega) (by omega)]
      exact window_set (by omega) (by rw [show q + (q' - q) - 1 = q' - 1 by omega, hset])
    · show (q + (q' - q)) % 2 ^ 64 = q'
      omega
  · rw [forward_window (by omega)]
    exact window_none (by omega) (inside_none.mpr (by omega))

/-! ## The backward scan -/

/-- Below the first set element of the window that ends at `q`. -/
def Before (bits : FlexBitSet) (elements count q q' : Nat) : Prop :=
  q' < q ∧ q ≤ q' + count ∧ inside bits elements (q' + 1) = some true ∧
    ∀ x, q < x + count → x ≤ q' → inside bits elements x = some false

/-- A window that is read to the element after the last, or from whose element 0 the scan
steps on. -/
def Lost (bits : FlexBitSet) (elements count m q : Nat) : Prop :=
  (q = elements ∧ m + count ≤ elements + 1 ∧ Free bits (elements + 1 - count) (count - 1)) ∨
    (m = 0 ∧ q + 1 = count ∧ bits 0 = true)

theorem backward_element (hq : q < 2 ^ 64) (h1 : 1 ≤ r) (hr : r ≤ q + 1) : add (sub q r) 1 = q + 1 - r := by
  simp only [add, sub]
  omega

theorem backward_first (hq : q < 2 ^ 64) (hc : 1 ≤ count) (hcount : count ≤ q + 1) :
    (backward count m).first q = q + 1 - count :=
  backward_element hq hc hcount

theorem backward_window (hq : q < 2 ^ 64) (hcount : count ≤ q + 1) (m : Nat) :
    window get ((backward count m).element q) count = window get (fun r => q + 1 - r) count :=
  window_congr fun _ h1 hr => backward_element hq h1 (by omega)

theorem backward_continues (hc : 1 ≤ count) (hword : m + count ≤ 2 ^ 64) :
    (backward count m).continues q = decide (m + count ≤ q + 1) := by
  have hfinal : sub (add m count) 1 = m + count - 1 := by
    simp only [add, sub]
    omega
  simp only [backward, hfinal, Nat.sub_le_iff_le_add]

section
variable (hc : 1 ≤ count) (hcount : count ≤ elements) (hword : elements ≤ 2 ^ 63) (hm : m ≤ elements)
include hc hcount hword hm

theorem backward_finds (hstart : start ≤ elements)
    (hpath : ¬ ∃ q, Relation.ReflTransGen (Before bits elements count) start q ∧ Lost bits elements count m q) :
    ∃ found hole, backwardScanForRange (inside bits elements) start count m = some ⟨found, hole⟩ ∧
      Finds IsGreatest (fits bits count m (min (start + 1) elements)) found := by
  refine scan_finds (fun q => fits bits count m (min (q + 1) elements)) (fun q => q ≤ elements ∧
      ¬ ∃ q', Relation.ReflTransGen (Before bits elements count) q q' ∧ Lost bits elements count m q')
    id (fun q hcont => fits_empty ?_) (fun q hok hcont => ?_) false ⟨hstart, hpath⟩ (Nat.lt_succ_of_lt (Nat.lt_succ_self _))
  · rw [backward_continues hc (by omega), decide_eq_false_iff_not] at hcont
    omega
  · obtain ⟨hq, hok⟩ := hok
    have hlost : ¬ Lost bits elements count m q := fun h => hok ⟨q, .refl, h⟩
    rw [backward_continues hc (by omega), decide_eq_true_eq] at hcont
    obtain ⟨r, hle, hfree, hstop⟩ := window_stops (inside bits elements) (fun r => q + 1 - r) count
    have hunset : ∀ x, q + 1 ≤ x + count → x + r ≤ q → inside bits elements x = some false := fun x h1 h2 => by
      have hx := hfree (q + 1 - x) (by omega) (by omega)
      rwa [show q + 1 - (q + 1 - x) = x by omega] at hx
    refine ⟨r, ?_⟩
    rw [backward_window (by omega) (by omega), window_skip hle hfree]
    by_cases hr : r = 0
    · subst hr
      refine ⟨rfl, fun _ => ?_, fun h => absurd rfl h⟩
      obtain ⟨hin, -⟩ := inside_some.mp (hunset q (by omega) (by omega))
      rw [backward_first (by omega) hc (by omega)]
      refine ⟨⟨by omega, by omega, fun i hi => ?_⟩, fun s hs => ?_⟩
      · exact (inside_some.mp (hunset _ (by omega) (by omega))).2
      · have := hs.2.1
        omega
    obtain hset | hnone := hstop.resolve_left hr
    · obtain ⟨hin, hbit⟩ := inside_some.mp hset
      have hle' : r ≤ q := by
        by_contra hwrap
        exact hlost (.inr ⟨by omega, by omega, by rwa [show q + 1 - r = 0 by omega] at hbit⟩)
      refine ⟨window_set hr hset, fun h => absurd h hr, fun _ => ?_⟩
      have hnext : (backward count m).next q r = q - r := by
        simp only [backward, sub]
        omega
      have hruns : fits bits count m (min (q + 1) elements) = fits bits count m (q + 1 - r) :=
        fits_below hbit (by omega) (by omega)
      have hbefore : Before bits elements count q (q - r) := by
        refine ⟨by omega, by omega, ?_, fun x h1 h2 => hunset x (by omega) (by omega)⟩
        rw [show q - r + 1 = q + 1 - r by omega, hset]
      rw [hnext, hruns, show min (q - r + 1) elements = q + 1 - r by omega]
      exact ⟨rfl, ⟨by omega, fun ⟨q', h, hl⟩ => hok ⟨q', .head hbefore h, hl⟩⟩, Nat.sub_lt (by omega) (by omega)⟩
    · have hout := inside_none.mp hnone
      refine absurd (.inl ⟨by omega, by omega, fun i hi => ?_⟩) hlost
      exact (inside_some.mp (hunset _ (by omega) (by omega))).2

theorem backward_lost (hpath : Relation.ReflTransGen (Before bits elements count) start q)
    (hlost : Lost bits elements count m q) :
    backwardScanForRange (inside bits elements) start count m = none := by
  have hcont : ∀ {q}, m + count ≤ q + 1 → (backward count m).continues q := fun h => by
    rw [backward_continues hc (by omega), decide_eq_true h]
  have hinv : m + count ≤ q + 1 := by obtain ⟨rfl, h, -⟩ | ⟨rfl, h, -⟩ := hlost <;> omega
  refine (scan_lost (fun q => m + count ≤ q + 1) (fun q q' hhop hq' => ?_) hpath hinv fun fuel hole => ?_).2 _ _
  · obtain ⟨hlt, hle, hset, hfree⟩ := hhop
    have hin := (inside_some.mp hset).1
    refine ⟨by omega, hcont (by omega), q - q', by omega, ?_, ?_⟩
    · rw [backward_window (by omega) (by omega),
        window_skip (r := q - q') (by omega) fun i h1 h2 => hfree _ (by omega) (by omega)]
      exact window_set (by omega) (by rw [show q + 1 - (q - q') = q' + 1 by omega, hset])
    · simp only [backward, sub]
      omega
  obtain ⟨rfl, -, hfree⟩ | ⟨rfl, hq, hbit⟩ := hlost
  · -- all but the element after the last are unset
    refine scan_none fuel hole (hcont hinv) ?_
    rw [backward_window (by omega) (by omega), window_skip hc fun i h1 h2 => ?_, window_none (by omega)]
    · exact inside_none.mpr (by omega)
    · have := hfree (count - i) (by omega)
      exact inside_some.mpr ⟨by omega, by rwa [show q + 1 - count + (count - i) = q + 1 - i by omega] at this⟩
  · -- the step down from element 0 wraps
    have helement : (backward count 0).element q count = 0 :=
      (backward_element (by omega) hc (by omega)).trans (by omega)
    cases fuel with
    | zero => rfl
    | succ fuel =>
      have hnext : (backward count 0).next q count = 2 ^ 64 - 1 := by
        simp only [backward, sub]
        omega
      have hset : inside bits elements ((backward count 0).element q count) = some true := by
        rw [helement]
        exact inside_some.mpr ⟨by omega, hbit⟩
      rw [scan_step fuel hole (hcont hinv) (by omega) (window_set (by omega) hset), hnext]
      refine scan_none fuel _ (hcont (by omega)) ?_
      rw [backward_window (by omega) (by omega)]
      exact window_none (by omega) (inside_none.mpr (by omega))

end

/-! ## A bitmap in memory -/

theorem forward_found (hc : 1 ≤ count) (hcount : count ≤ elements) (hword : elements < 2 ^ 63)
    (h : forwardScanForRange (some ∘ bits) start count elements = some ⟨some e, hole⟩) :
    start ≤ e ∧ e + count ≤ elements + 1 ∧ Free bits e count ∧ ∀ e', start ≤ e' → e' < e → ¬ Free bits e' count := by
  have hbound : ∀ {q}, (forward count elements).continues q → q + count ≤ elements + 1 := fun hcont => by
    rwa [forward_continues hcount hc (by omega), decide_eq_true_eq] at hcont
  have hfound := scan_found (fun q => start ≤ q ∧ ∀ e', start ≤ e' → e' < q → ¬ Free bits e' count)
    (fun q r hinv hcont hwindow hr => ?_) ⟨Nat.le_refl _, fun e' h1 h2 => by omega⟩ h
  · obtain ⟨q, ⟨hge, hfirst⟩, hcont, hwindow, rfl⟩ := hfound
    have hle := hbound hcont
    rw [forward_window (by omega)] at hwindow
    refine ⟨hge, hle, fun i hi => ?_, hfirst⟩
    exact Option.some.inj ((window_some hwindow).2.2 (i + 1) (by omega) (by omega))
  · have hle := hbound hcont
    rw [forward_window (by omega)] at hwindow
    obtain ⟨hrc, hset, -⟩ := window_some hwindow
    have hset := hset hr
    have hnext : (forward count elements).next q r = q + r := Nat.mod_eq_of_lt (show q + r < 2 ^ 64 by omega)
    rw [hnext]
    refine ⟨by omega, fun e' h1 h2 hfree => ?_⟩
    by_cases hlt : e' < q
    · exact hinv.2 e' h1 hlt hfree
    · have := not_over (Option.some.inj hset) hfree
      omega

theorem backward_found (hc : 1 ≤ count) (hm : 1 ≤ m) (hword : m + count ≤ 2 ^ 63) (hstart : start < 2 ^ 63)
    (h : backwardScanForRange (some ∘ bits) start count m = some ⟨some e, hole⟩) :
    e + count ≤ start + 1 ∧ Free bits e count := by
  have hbound : ∀ {q}, (backward count m).continues q → m + count ≤ q + 1 := fun hcont => by
    rwa [backward_continues hc (by omega), decide_eq_true_eq] at hcont
  have hfound := scan_found (· ≤ start) (fun q r hq hcont hwindow hr => ?_) (Nat.le_refl _) h
  · obtain ⟨q, hq, hcont, hwindow, rfl⟩ := hfound
    have hle := hbound hcont
    rw [backward_window (by omega) (by omega)] at hwindow
    rw [backward_first (by omega) hc (by omega)]
    refine ⟨by omega, fun i hi => ?_⟩
    have hunset := (window_some hwindow).2.2 (count - i) (by omega) (by omega)
    rw [show q + 1 - (count - i) = q + 1 - count + i by omega] at hunset
    exact Option.some.inj hunset
  · have hle := hbound hcont
    have hrc := (window_some hwindow).1
    simp only [backward, sub]
    omega

/-! ## Both scans -/

/-- The scans find the outermost run unless they come to a window that they read outside the
set. -/
theorem scans_exact_iff {start : Nat} (hc : 1 ≤ count) (hcount : count ≤ elements) (hword : elements ≤ 2 ^ 63)
    (hstart : start ≤ elements) :
    ((∃ found hole, forwardScanForRange (inside bits elements) start count elements = some ⟨found, hole⟩ ∧
        Finds IsLeast (fits bits count start elements) found) ↔
      ¬ Relation.ReflTransGen (After bits elements count) start (elements + 1 - count)) ∧
    ∀ m ≤ elements, ((∃ found hole, backwardScanForRange (inside bits elements) start count m = some ⟨found, hole⟩ ∧
        Finds IsGreatest (fits bits count m (min (start + 1) elements)) found) ↔
      ¬ ∃ q, Relation.ReflTransGen (Before bits elements count) start q ∧ Lost bits elements count m q) := by
  refine ⟨⟨fun ⟨found, hole, hscan, _⟩ hpath => ?_, forward_finds hc hcount (by omega)⟩,
    fun m hm => ⟨fun ⟨found, hole, hscan, _⟩ ⟨q, hpath, hlost⟩ => ?_, backward_finds hc hcount hword hm hstart⟩⟩
  · rw [forward_lost hc hcount (by omega) hpath] at hscan
    cases hscan
  · rw [backward_lost hc hcount hword hm hpath hlost] at hscan
    cases hscan

/-- Element 1 of four is set: from the window at 0 the scan steps to the free one at 2. -/
theorem scans_exact_iff_four : ∃ found hole, forwardScanForRange (inside (· = 1) 4) 0 2 4 = some ⟨found, hole⟩ ∧
    Finds IsLeast (fits (· = 1) 2 0 4) found := by
  refine (scans_exact_iff (by decide) (by decide) (by decide) (by decide)).1.mpr fun h => ?_
  obtain h | ⟨q, ⟨-, hle, hset, -⟩, h⟩ := h.cases_head
  · cases h
  have hq : q - 1 = 1 := by simpa using (inside_some.mp hset).2
  obtain rfl : q = 2 := by omega
  obtain h | ⟨q, ⟨hlt, -, hset, -⟩, -⟩ := h.cases_head
  · cases h
  have hq : q - 1 = 1 := by simpa using (inside_some.mp hset).2
  omega

/-- The forward scan and a backward scan from the end read the element after the last; a
backward scan to element 0 wraps past it. -/
theorem scans_read_outside : forwardScanForRange (inside (· = 0) 1) 0 1 1 = none ∧
    backwardScanForRange (inside (· = 0) 2) 2 1 1 = none ∧ backwardScanForRange (inside (· = 0) 1) 0 1 0 = none := by
  decide +kernel

end PowerArm.Alloc64.FlexBitSet
