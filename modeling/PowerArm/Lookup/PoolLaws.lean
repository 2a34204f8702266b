import PowerArm.Lookup.LinkLaws

/-!
# The link pool is a partition

`blockLinkPool` holds the chains of all destinations and the free list, whatever was
added and severed (`links_partition`). The delinkers that a severing runs are those of
the links added since the address was last severed, each once: the table is compared
with `LinkLog`, which keeps a list for each destination and no pool.
-/

namespace PowerArm.Lookup

open Lib

/-! ## The operations on links -/

inductive LinkOp where
  | addBlockLink (dest : BitVec 64) (link : BlockLink)
  | severLinks (addr : BitVec 64)
  | erase (addr : BitVec 64)
  | clearCache
deriving DecidableEq, Repr

namespace LinkedMap

def linkStep (m : LinkedMap) : LinkOp → Option LinkedMap
  | .addBlockLink dest link => do
    let links ← m.links.addBlockLink dest link
    some { m with links }
  | .severLinks addr => do
    let (links, _) ← m.links.severLinks addr
    some { m with links }
  | .erase addr => m.erase addr
  | .clearCache => some m.clearCache

end LinkedMap

/-- What the links are for: the branches patched to each destination, the last one
first, and the delinkers that ran. -/
structure LinkLog where
  patched : BitVec 64 → List BlockLink := fun _ => []
  delinked : List BlockLink := []

namespace LinkLog

def sever (l : LinkLog) (addr : BitVec 64) : LinkLog where
  patched := Function.update l.patched addr []
  delinked := l.delinked ++ l.patched addr

def step (l : LinkLog) : LinkOp → LinkLog
  | .addBlockLink dest link => { l with patched := Function.update l.patched dest (link :: l.patched dest) }
  | .severLinks addr => l.sever addr
  | .erase addr => l.sever addr
  -- the code buffer is being retired: no delinker runs
  | .clearCache => { l with patched := fun _ => [] }

end LinkLog

/-! ## The partition -/

namespace LinkTable

variable {t t' : LinkTable} {a dest : BitVec 64} {link : BlockLink}

def head (t : LinkTable) : Option (BitVec 64) → Option Nat
  | some dest => t.blockLinks dest
  | none => t.blockLinkFreeHead

def nodes (t : LinkTable) (which : Option (BitVec 64)) : Option (List Nat) :=
  Pool.walk t.blockLinkPool t.blockLinkPool.length (t.head which)

/-- Each list ends without meeting a node twice, and each node is in one of them. -/
structure Partition (t : LinkTable) : Prop where
  ends : ∀ which, ∃ is, t.nodes which = some is ∧ is.Nodup
  one : ∀ i < t.blockLinkPool.length, ∃! which, ∃ is, t.nodes which = some is ∧ i ∈ is

structure Follows (t : LinkTable) (l : LinkLog) (lists : BitVec 64 → List Nat) (spare : List Nat) :
    Prop where
  shared : Pool.Shared t.blockLinkPool t.blockLinks t.blockLinkFreeHead lists spare
  covered : Pool.Covered t.blockLinkPool lists spare
  patched : ∀ a, t.inbound a = l.patched a
  delinked : t.delinked = l.delinked

theorem nodes_dest (h : Pool.Shared t.blockLinkPool t.blockLinks t.blockLinkFreeHead lists spare)
    (a : BitVec 64) : t.nodes (some a) = some (lists a) :=
  (h.chain a).walk

theorem nodes_free (h : Pool.Shared t.blockLinkPool t.blockLinks t.blockLinkFreeHead lists spare) :
    t.nodes none = some spare :=
  h.spared.walk

theorem Follows.partition (h : Follows t l lists spare) : t.Partition where
  ends
    | none => ⟨spare, nodes_free h.shared, h.shared.spared.nodup⟩
    | some a => ⟨lists a, nodes_dest h.shared a, (h.shared.chain a).nodup⟩
  one i hi := by
    rcases h.covered i hi with ⟨a, ha⟩ | hspare
    · refine ⟨some a, ⟨_, nodes_dest h.shared a, ha⟩, ?_⟩
      rintro (_ | b) ⟨is, his, hmem⟩
      · obtain rfl := Option.some.inj ((nodes_free h.shared).symm.trans his)
        exact absurd hmem (h.shared.apart a ha)
      · obtain rfl := Option.some.inj ((nodes_dest h.shared b).symm.trans his)
        by_contra hne
        exact h.shared.disjoint b a (fun heq => hne (congrArg some heq)) hmem ha
    · refine ⟨none, ⟨_, nodes_free h.shared, hspare⟩, ?_⟩
      rintro (_ | b) ⟨is, his, hmem⟩
      · rfl
      · obtain rfl := Option.some.inj ((nodes_dest h.shared b).symm.trans his)
        exact absurd hspare (h.shared.apart b hmem)

theorem follows_empty (l : LinkLog) (hl : ∀ a, l.patched a = []) :
    Follows { delinked := l.delinked } l (fun _ => []) [] :=
  ⟨Pool.shared_nil, nofun, fun a => (hl a).symm, rfl⟩

/-! ## One operation -/

theorem Follows.addBlockLink (h : Follows t l lists spare) (dest : BitVec 64) (link : BlockLink) :
    ∃ t' lists' spare', t.addBlockLink dest link = some t' ∧
      Follows t' (l.step (.addBlockLink dest link)) lists' spare' := by
  obtain ⟨t', i, spare', hadd, hlinked⟩ := addBlockLink_linked h.shared dest link
  refine ⟨t', _, spare', hadd, hlinked.shared, h.covered.link hlinked.grown hlinked.freed dest,
    fun a => ?_, hlinked.delinked.trans h.delinked⟩
  rw [hlinked.inbound h.shared, h.patched]
  simp only [LinkLog.step, Function.update_apply]
  split
  next ha => rw [ha]
  next => rfl

theorem Follows.severLinks (h : Follows t l lists spare) (a : BitVec 64) :
    ∃ t' lists' spare', t.severLinks a = some (t', (l.patched a).length) ∧
      Follows t' (l.sever a) lists' spare' := by
  obtain ⟨t', hsever, hsevered⟩ := severLinks_severed h.shared a
  rw [h.patched] at hsever
  refine ⟨t', _, _, hsever, hsevered.shared, h.covered.release hsevered.length a, fun b => ?_, ?_⟩
  · rw [hsevered.inbound, h.patched]
    simp only [LinkLog.sever, Function.update_apply]
  · rw [hsevered.delinked, h.delinked, h.patched]
    rfl

end LinkTable

/-! ## Runs -/

namespace LinkedMap

open LinkTable (Follows Partition)

def Follows (m : LinkedMap) (l : LinkLog) : Prop := ∃ lists spare, LinkTable.Follows m.links l lists spare

theorem Follows.linkStep {m : LinkedMap} (h : m.Follows l) (op : LinkOp) :
    ∃ m', m.linkStep op = some m' ∧ m'.Follows (l.step op) := by
  obtain ⟨lists, spare, h⟩ := h
  cases op with
  | addBlockLink dest link =>
    obtain ⟨t', lists', spare', hadd, hfollows⟩ := h.addBlockLink dest link
    exact ⟨{ m with links := t' }, by simp [LinkedMap.linkStep, hadd], _, _, hfollows⟩
  | severLinks addr =>
    obtain ⟨t', lists', spare', hsever, hfollows⟩ := h.severLinks addr
    exact ⟨{ m with links := t' }, by simp [LinkedMap.linkStep, hsever], _, _, hfollows⟩
  | erase addr =>
    obtain ⟨t', lists', spare', hsever, hfollows⟩ := h.severLinks addr
    exact ⟨⟨m.map.erase addr, t'⟩, by simp [LinkedMap.linkStep, LinkedMap.erase, hsever], _, _, hfollows⟩
  | clearCache =>
    have hdelinked : (l.step .clearCache).delinked = m.links.delinked := h.delinked.symm
    have hempty := LinkTable.follows_empty (l.step .clearCache) fun _ => rfl
    rw [hdelinked] at hempty
    exact ⟨m.clearCache, rfl, _, _, hempty⟩

theorem Follows.linkRun {m : LinkedMap} (h : m.Follows l) (ops : List LinkOp) :
    ∃ m', ops.foldlM LinkedMap.linkStep m = some m' ∧ m'.Follows (ops.foldl LinkLog.step l) := by
  induction ops generalizing m l with
  | nil => exact ⟨m, rfl, h⟩
  | cons op ops ih =>
    obtain ⟨m₁, hop, hfollows⟩ := h.linkStep op
    obtain ⟨m', hops, hfollows'⟩ := ih hfollows
    exact ⟨m', by rw [List.foldlM_cons, hop]; exact hops, hfollows'⟩

/-- After any operations the pool is a partition, the delinkers that ran are the log's,
and severing an address runs those of the links added to it since, and no other. -/
theorem links_partition (root : Bool) (ops : List LinkOp) : ∃ m, ops.foldlM linkStep (init root) = some m ∧
      m.links.Partition ∧
      m.links.delinked = (ops.foldl LinkLog.step {}).delinked ∧
      ∀ addr, ∃ links, m.links.severLinks addr = some (links, ((ops.foldl LinkLog.step {}).patched addr).length) ∧
        links.delinked = m.links.delinked ++ (ops.foldl LinkLog.step {}).patched addr := by
  have hinit : (init root).Follows {} := ⟨_, _, LinkTable.follows_empty {} fun _ => rfl⟩
  obtain ⟨m, hrun, lists, spare, hfollows⟩ := hinit.linkRun ops
  refine ⟨m, hrun, hfollows.partition, hfollows.delinked, fun addr => ?_⟩
  obtain ⟨links, _, _, hsever, hsevered⟩ := hfollows.severLinks addr
  exact ⟨links, hsever, by rw [hsevered.delinked, hfollows.delinked]; rfl⟩

end LinkedMap

end PowerArm.Lookup
