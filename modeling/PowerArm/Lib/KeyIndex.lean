import PowerArm.Lib.Intervals

/-!
# Lists ordered by a key

Entries in a stable order of their keys, the first of each key kept, and the binary
search for a key in such a list. Sorting and dropping repeated keys keep which entry of
a key comes first (`find?_sortUnique`), and the search finds it (`search_eq_find?`).
-/

namespace PowerArm.Lib

variable {α : Type} (key : α → Nat)

def uniqueFrom (last : Nat) : List α → List α
  | [] => []
  | a :: rest => if key a = last then uniqueFrom last rest else a :: uniqueFrom (key a) rest

def unique : List α → List α
  | [] => []
  | a :: rest => a :: uniqueFrom key (key a) rest

def sortByKey (l : List α) : List α := l.mergeSort fun a b => decide (key a ≤ key b)

/-- The entry `std::lower_bound` stops at, if it has the key. -/
def search (l : List α) (target : Nat) : Option α :=
  (l.drop (Intervals.search (fun a => decide (target ≤ key a)) l)).head?.filter fun a => key a = target

variable {key}

theorem key_of_search (h : search key l target = some a) : a ∈ l ∧ key a = target := by
  simp only [search, Option.filter_eq_some_iff, decide_eq_true_eq] at h
  exact ⟨List.mem_of_mem_drop (List.mem_of_mem_head? h.1), h.2⟩

theorem find?_sortByKey (l : List α) (target : Nat) :
    (sortByKey key l).find? (key · = target) = l.find? (key · = target) := by
  have hperm := List.mergeSort_perm l fun a b => decide (key a ≤ key b)
  have hsub : (l.filter (key · = target)).Sublist (sortByKey key l) := by
    refine List.sublist_mergeSort (by simp; omega) (by simp; omega) ?_ List.filter_sublist
    refine List.pairwise_of_forall_mem_list fun a ha b hb => ?_
    simp only [List.mem_filter, decide_eq_true_eq] at *
    omega
  have heq : l.filter (key · = target) = (sortByKey key l).filter (key · = target) := by
    refine List.Sublist.eq_of_length ?_ (hperm.filter _).length_eq.symm
    simpa using hsub.filter (key · = target)
  rw [← List.head?_filter, ← List.head?_filter, heq]

theorem pairwise_uniqueFrom (h : l.Pairwise fun a b => key a ≤ key b) (hlast : ∀ a ∈ l, last ≤ key a) :
    (uniqueFrom key last l).Pairwise (fun a b => key a < key b) ∧ (∀ a ∈ uniqueFrom key last l, last < key a) ∧
      ∀ target, target ≠ last → (uniqueFrom key last l).find? (key · = target) = l.find? (key · = target) := by
  induction l generalizing last with
  | nil => simp [uniqueFrom]
  | cons a rest ih =>
    obtain ⟨ha, hrest⟩ := List.pairwise_cons.mp h
    unfold uniqueFrom
    split
    next heq =>
      obtain ⟨hlt, hgt, hfind⟩ := ih hrest fun b hb => heq ▸ ha b hb
      refine ⟨hlt, hgt, fun target ht => ?_⟩
      rw [hfind target ht, List.find?_cons_of_neg (by simp [heq, ht.symm])]
    next hne =>
      obtain ⟨hlt, hgt, hfind⟩ := ih hrest ha
      have hlast' : last < key a := lt_of_le_of_ne (hlast a (by simp)) (Ne.symm hne)
      refine ⟨List.pairwise_cons.mpr ⟨hgt, hlt⟩, ?_, fun target ht => ?_⟩
      · rintro b (_ | ⟨_, hb⟩)
        · exact hlast'
        · exact hlast'.trans (hgt b hb)
      · by_cases htarget : key a = target
        · simp [htarget]
        · rw [List.find?_cons_of_neg (by simpa using htarget), List.find?_cons_of_neg (by simpa using htarget),
            hfind target (Ne.symm htarget)]

theorem pairwise_unique (h : l.Pairwise fun a b => key a ≤ key b) :
    (unique key l).Pairwise (fun a b => key a < key b) ∧
      ∀ target, (unique key l).find? (key · = target) = l.find? (key · = target) := by
  cases l with
  | nil => simp [unique]
  | cons a rest =>
    obtain ⟨ha, hrest⟩ := List.pairwise_cons.mp h
    obtain ⟨hlt, hgt, hfind⟩ := pairwise_uniqueFrom hrest ha
    refine ⟨List.pairwise_cons.mpr ⟨hgt, hlt⟩, fun target => ?_⟩
    by_cases htarget : key a = target
    · simp [unique, htarget]
    · rw [unique, List.find?_cons_of_neg (by simpa using htarget), List.find?_cons_of_neg (by simpa using htarget),
        hfind target (Ne.symm htarget)]

/-- The first entry of each key, in the order of the keys. -/
theorem find?_sortUnique (l : List α) : (unique key (sortByKey key l)).Pairwise (fun a b => key a < key b) ∧
      ∀ target, (unique key (sortByKey key l)).find? (key · = target) = l.find? (key · = target) := by
  have hsorted : (sortByKey key l).Pairwise fun a b => key a ≤ key b := by
    have hle : (sortByKey key l).Pairwise fun a b => decide (key a ≤ key b) :=
      List.pairwise_mergeSort (by simp; omega) (by simp; omega) l
    simpa using hle
  obtain ⟨hlt, hfind⟩ := pairwise_unique hsorted
  exact ⟨hlt, fun target => (hfind target).trans (find?_sortByKey l target)⟩

theorem search_eq_find? (h : l.Pairwise fun a b => key a < key b) (target : Nat) :
    search key l target = l.find? (key · = target) := by
  have hmono : l.Pairwise fun a b => decide (target ≤ key a) → decide (target ≤ key b) := h.imp (by simp; omega)
  obtain ⟨-, hbelow, habove⟩ := Intervals.search_spec hmono
  have hnone : (l.take (Intervals.search (fun a => decide (target ≤ key a)) l)).find? (key · = target) = none := by
    refine List.find?_eq_none.mpr fun a ha => ?_
    have hlt : key a < target := by simpa using hbelow a ha
    simp [hlt.ne]
  have hsplit : l.find? (key · = target) =
      (l.drop (Intervals.search (fun a => decide (target ≤ key a)) l)).find? (key · = target) := by
    rw [← Option.none_or (o := List.find? _ (l.drop _)), ← hnone, ← List.find?_append, List.take_append_drop]
  rw [search, hsplit]
  have hrest := h.drop (i := Intervals.search (fun a => decide (target ≤ key a)) l)
  generalize l.drop _ = rest at habove hrest
  cases rest with
  | nil => rfl
  | cons a rest =>
    by_cases hkey : key a = target
    · simp [hkey]
    · have hge : target ≤ key a := by simpa using habove a (by simp)
      have hlater : rest.find? (key · = target) = none := by
        refine List.find?_eq_none.mpr fun b hb => ?_
        have := (List.pairwise_cons.mp hrest).1 b hb
        simp only [decide_eq_true_eq]
        omega
      simp [hkey, hlater, Option.filter]

end PowerArm.Lib
