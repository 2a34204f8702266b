import Mathlib

/-!
# Chains in a pool of nodes

A pool is a vector of nodes, each with the index of the next one. `Chain pool start is`
says that following the indexes from `start` visits `is` and stops. A chain repeats no
index, so the walk along it ends within as many steps as the pool has nodes
(`Chain.walk`). `Shared` is a family of chains over one pool with a free list beside
them: a node that is in none of them may be put in front of one (`Shared.link`), and a
whole chain may go to the free list (`Shared.release`); no node is lost (`Covered`).
-/

namespace PowerArm.Lib

open Function (update update_of_ne update_self)

structure PoolNode (α : Type _) where
  val : α
  next : Option Nat
deriving DecidableEq, Repr

namespace Pool

variable {pool pool' : List (PoolNode α)}

inductive Chain (pool : List (PoolNode α)) : Option Nat → List Nat → Prop
  | nil : Chain pool none []
  | cons {i : Nat} {node : PoolNode α} {is : List Nat} :
      pool[i]? = some node → Chain pool node.next is → Chain pool (some i) (i :: is)

/-- The indexes from `start` on; `none` when they do not end within the fuel, or leave the pool. -/
def walk (pool : List (PoolNode α)) : Nat → Option Nat → Option (List Nat)
  | _, none => some []
  | 0, some _ => none
  | fuel + 1, some i => pool[i]?.bind fun node => (walk pool fuel node.next).map (i :: ·)

def vals (pool : List (PoolNode α)) (is : List Nat) : List α := is.filterMap fun i => pool[i]?.map PoolNode.val

/-! ## One chain -/

section
variable (h : Chain pool start is)
include h

theorem Chain.unique (h' : Chain pool start js) : is = js := by
  induction h generalizing js with
  | nil =>
    cases h'
    rfl
  | cons hnode _ ih =>
    cases h' with
    | cons hnode' hrest =>
      obtain rfl := Option.some.inj (hnode.symm.trans hnode')
      rw [ih hrest]

theorem Chain.lt : ∀ i ∈ is, i < pool.length := by
  induction h with
  | nil => exact nofun
  | cons hnode _ ih => exact List.forall_mem_cons.mpr ⟨(List.getElem?_eq_some_iff.mp hnode).1, ih⟩

theorem Chain.suffix (hi : i ∈ is) :
    ∃ js, Chain pool (some i) (i :: js) ∧ js.length < is.length := by
  induction h with
  | nil => cases hi
  | cons hnode hrest ih =>
    rcases List.mem_cons.mp hi with rfl | hi
    · exact ⟨_, .cons hnode hrest, by simp⟩
    · obtain ⟨js, hjs, hlt⟩ := ih hi
      exact ⟨js, hjs, Nat.lt_trans hlt (by simp)⟩

theorem Chain.nodup : is.Nodup := by
  induction h with
  | nil => exact List.nodup_nil
  | cons hnode hrest ih =>
    refine List.nodup_cons.mpr ⟨fun hi => ?_, ih⟩
    obtain ⟨js, hjs, hlt⟩ := hrest.suffix hi
    obtain rfl := (List.cons.inj (hjs.unique (.cons hnode hrest))).2
    exact Nat.lt_irrefl _ hlt

theorem Chain.length_le : is.length ≤ pool.length := by
  have hsub : is ⊆ List.range pool.length := fun i hi => List.mem_range.mpr (h.lt i hi)
  simpa using (h.nodup.subperm hsub).length_le

theorem Chain.walk_of_le (hfuel : is.length ≤ fuel) : walk pool fuel start = some is := by
  induction h generalizing fuel with
  | nil => simp [Pool.walk]
  | cons hnode _ ih =>
    cases fuel with
    | zero => simp at hfuel
    | succ fuel => simp [Pool.walk, hnode, ih (Nat.le_of_succ_le_succ hfuel)]

theorem Chain.walk : Pool.walk pool pool.length start = some is :=
  h.walk_of_le h.length_le

theorem Chain.of_agree (hagree : ∀ i ∈ is, pool'[i]? = pool[i]?) :
    Chain pool' start is := by
  induction h with
  | nil => exact .nil
  | cons hnode _ ih =>
    obtain ⟨hi, hagree⟩ := List.forall_mem_cons.mp hagree
    exact .cons (hi.trans hnode) (ih hagree)

end

theorem vals_of_agree (hagree : ∀ i ∈ is, pool'[i]? = pool[i]?) : vals pool' is = vals pool is :=
  List.filterMap_congr fun i hi => by rw [hagree i hi]

theorem length_vals (h : Chain pool start is) : (vals pool is).length = is.length := by
  induction h with
  | nil => rfl
  | cons hnode _ ih => simpa [vals, hnode] using ih

theorem getElem?_setNext_of_ne (hi : i ≠ tail) :
    (pool.modify tail fun node => { node with next := next })[i]? = pool[i]? := by
  simp [hi.symm]

theorem Chain.splice (h : Chain pool start (is ++ [tail])) (hfree : Chain pool free spare)
    (hapart : (is ++ [tail]).Disjoint spare) :
    Chain (pool.modify tail fun node => { node with next := free }) start (is ++ tail :: spare) := by
  have hspare : Chain (pool.modify tail fun node => { node with next := free }) free spare :=
    hfree.of_agree fun i hi => getElem?_setNext_of_ne fun heq => hapart (by simp) (heq ▸ hi)
  induction is generalizing start with
  | nil =>
    cases h with
    | @cons _ node _ hnode _ =>
      have hset : (pool.modify tail fun node => { node with next := free })[tail]? =
          some { node with next := free } := by simp [hnode]
      exact .cons hset hspare
  | cons i is ih =>
    have hne : i ≠ tail := fun heq => by
      have := h.nodup
      simp [heq] at this
    cases h with
    | cons hnode hrest =>
      refine .cons ((getElem?_setNext_of_ne hne).trans hnode) (ih hrest fun j hj hj' => ?_)
      exact hapart (List.mem_cons_of_mem _ hj) hj'

/-! ## A family of chains and a free list -/

structure Shared (pool : List (PoolNode α)) (heads : κ → Option Nat) (free : Option Nat)
    (lists : κ → List Nat) (spare : List Nat) : Prop where
  chain : ∀ k, Chain pool (heads k) (lists k)
  spared : Chain pool free spare
  disjoint : ∀ k k', k ≠ k' → (lists k).Disjoint (lists k')
  apart : ∀ k, (lists k).Disjoint spare

def Covered (pool : List (PoolNode α)) (lists : κ → List Nat) (spare : List Nat) : Prop :=
  ∀ i < pool.length, (∃ k, i ∈ lists k) ∨ i ∈ spare

theorem shared_nil : Shared ([] : List (PoolNode α)) (fun _ : κ => none) none (fun _ => []) [] :=
  ⟨fun _ => .nil, .nil, fun _ _ _ => List.disjoint_nil_left _, fun _ => List.disjoint_nil_left _⟩

variable [DecidableEq κ] {heads : κ → Option Nat} {lists : κ → List Nat}

theorem Shared.link (h : Shared pool heads free lists spare)
    (hagree : ∀ j, j ≠ i → j < pool.length → pool'[j]? = pool[j]?)
    (hi : pool'[i]? = some ⟨v, heads k⟩) (hnew : ∀ k, i ∉ lists k)
    (hfree : Chain pool free' spare') (hspare : spare' ⊆ spare) (hunspared : i ∉ spare') :
    Shared pool' (update heads k (some i)) free' (update lists k (i :: lists k)) spare' where
  chain k' := by
    have hold : Chain pool' (heads k') (lists k') :=
      (h.chain k').of_agree fun j hj => hagree j (fun heq => hnew k' (heq ▸ hj)) ((h.chain k').lt j hj)
    by_cases hk : k' = k
    · subst hk
      simp only [update_self]
      exact .cons hi hold
    · simpa [hk] using hold
  spared := hfree.of_agree fun j hj => hagree j (fun heq => hunspared (heq ▸ hj)) (hfree.lt j hj)
  disjoint a b hab := by
    by_cases ha : a = k
    · subst ha
      simp only [update_self, update_of_ne hab.symm, List.disjoint_cons_left]
      exact ⟨hnew b, h.disjoint a b hab⟩
    · by_cases hb : b = k
      · subst hb
        simp only [update_self, update_of_ne hab, List.disjoint_cons_right]
        exact ⟨hnew a, h.disjoint a b hab⟩
      · simpa [ha, hb] using h.disjoint a b hab
  apart a := by
    have hold : (lists a).Disjoint spare' := fun j hj hj' => h.apart a hj (hspare hj')
    by_cases ha : a = k
    · subst ha
      simp only [update_self, List.disjoint_cons_left]
      exact ⟨hunspared, hold⟩
    · simpa [ha] using hold

theorem Shared.release (h : Shared pool heads free lists spare) (hk : lists k = is ++ [tail]) :
    Shared (pool.modify tail fun node => { node with next := free }) (update heads k none)
      (heads k) (update lists k []) (lists k ++ spare) where
  chain k' := by
    by_cases hk' : k' = k
    · subst hk'
      simpa using Chain.nil
    · simp only [update_of_ne hk']
      refine (h.chain k').of_agree fun j hj => getElem?_setNext_of_ne fun heq => ?_
      exact h.disjoint k' k hk' hj (by simp [hk, heq])
  spared := by
    have hchain := h.chain k
    have hapart := h.apart k
    rw [hk] at hchain hapart ⊢
    simpa using hchain.splice h.spared hapart
  disjoint a b hab := by
    by_cases ha : a = k
    · simp [ha]
    · by_cases hb : b = k
      · simp [hb]
      · simpa [ha, hb] using h.disjoint a b hab
  apart a := by
    by_cases ha : a = k
    · simp [ha]
    · simp only [update_of_ne ha, List.disjoint_append_right]
      exact ⟨h.disjoint a k ha, h.apart a⟩

theorem Covered.link (h : Covered pool lists spare)
    (hgrown : ∀ j < pool'.length, j = i ∨ j < pool.length) (hfreed : ∀ j ∈ spare, j = i ∨ j ∈ spare')
    (k : κ) : Covered pool' (update lists k (i :: lists k)) spare' := by
  intro j hj
  by_cases hji : j = i
  · exact .inl ⟨k, by simp [hji]⟩
  · rcases h j ((hgrown j hj).resolve_left hji) with ⟨k', hk'⟩ | hspare
    · refine .inl ⟨k', ?_⟩
      by_cases hk : k' = k
      · subst hk
        simp [hk']
      · rwa [update_of_ne hk]
    · exact .inr ((hfreed j hspare).resolve_left hji)

theorem Covered.release (h : Covered pool lists spare) (hlen : pool'.length = pool.length) (k : κ) :
    Covered pool' (update lists k []) (lists k ++ spare) := by
  intro j hj
  rcases h j (hlen ▸ hj) with ⟨k', hk'⟩ | hspare
  · by_cases hk : k' = k
    · subst hk
      exact .inr (List.mem_append_left _ hk')
    · exact .inl ⟨k', by rwa [update_of_ne hk]⟩
  · exact .inr (List.mem_append_right _ hspare)

end Pool

end PowerArm.Lib
