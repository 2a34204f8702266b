import PowerArm.Lookup.Links
import PowerArm.Lookup.MapLaws

/-!
# Severing finds every link

The chains of a table are disjoint and end, whatever links were added and severed
(`LinkTable.Sound`), so the table is a map from destinations to their inbound links
(`inbound_addBlockLink`, `Severs`). Along a walk over the map the links that go are
those of the blocks that go, and the walk does to the map what it does without links.
-/

namespace PowerArm.Lookup

open Lib

namespace LinkTable

variable {t t' : LinkTable} {a dest : BitVec 64} {link : BlockLink}

def Sound (t : LinkTable) : Prop :=
  ∃ lists spare, Pool.Shared t.blockLinkPool t.blockLinks t.blockLinkFreeHead lists spare

def inbound (t : LinkTable) (a : BitVec 64) : List BlockLink :=
  Pool.vals t.blockLinkPool ((Pool.walk t.blockLinkPool t.blockLinkPool.length (t.blockLinks a)).getD [])

theorem inbound_of_chain (h : Pool.Chain t.blockLinkPool (t.blockLinks a) is) :
    t.inbound a = Pool.vals t.blockLinkPool is := by
  rw [inbound, h.walk]
  rfl

theorem sound_empty (delinked : List BlockLink) : Sound { delinked } := ⟨_, _, Pool.shared_nil⟩

/-! ## A new link -/

/-- The node `i`, in no chain before, has the link and is in front of the destination's. -/
structure Linked (t t' : LinkTable) (dest : BitVec 64) (link : BlockLink)
    (lists : BitVec 64 → List Nat) (spare : List Nat) (i : Nat) (spare' : List Nat) : Prop where
  shared : Pool.Shared t'.blockLinkPool t'.blockLinks t'.blockLinkFreeHead
    (Function.update lists dest (i :: lists dest)) spare'
  node : t'.blockLinkPool[i]? = some ⟨link, t.blockLinks dest⟩
  agree : ∀ j, j ≠ i → j < t.blockLinkPool.length → t'.blockLinkPool[j]? = t.blockLinkPool[j]?
  fresh : ∀ a, i ∉ lists a
  grown : ∀ j < t'.blockLinkPool.length, j = i ∨ j < t.blockLinkPool.length
  freed : ∀ j ∈ spare, j = i ∨ j ∈ spare'
  delinked : t'.delinked = t.delinked

theorem addBlockLink_linked
    (h : Pool.Shared t.blockLinkPool t.blockLinks t.blockLinkFreeHead lists spare) (dest : BitVec 64)
    (link : BlockLink) :
    ∃ t' i spare', t.addBlockLink dest link = some t' ∧ Linked t t' dest link lists spare i spare' := by
  unfold addBlockLink
  cases hhead : t.blockLinkFreeHead with
  | none =>
    have hagree : ∀ j, j ≠ t.blockLinkPool.length → j < t.blockLinkPool.length →
        (t.blockLinkPool ++ [⟨link, t.blockLinks dest⟩])[j]? = t.blockLinkPool[j]? :=
      fun j _ hlt => List.getElem?_append_left hlt
    have hfresh : ∀ a, t.blockLinkPool.length ∉ lists a :=
      fun a hmem => Nat.lt_irrefl _ ((h.chain a).lt _ hmem)
    have hunspared : t.blockLinkPool.length ∉ spare :=
      fun hmem => Nat.lt_irrefl _ (h.spared.lt _ hmem)
    have hshared := h.link (v := link) (k := dest) hagree (by simp) hfresh h.spared (List.Subset.refl _) hunspared
    rw [hhead] at hshared
    refine ⟨_, _, spare, rfl, hshared, by simp, hagree, hfresh, fun j hj => ?_, fun j => .inr, rfl⟩
    simp only [List.length_append, List.length_singleton] at hj
    omega
  | some index =>
    have hspared := h.spared
    rw [hhead] at hspared
    obtain ⟨node, rest, hnode, hrest, rfl⟩ : ∃ node rest, t.blockLinkPool[index]? = some node ∧
        Pool.Chain t.blockLinkPool node.next rest ∧ spare = index :: rest := by
      cases hspared with
      | cons hnode hrest => exact ⟨_, _, hnode, hrest, rfl⟩
    have hlt := (List.getElem?_eq_some_iff.mp hnode).1
    have hagree : ∀ j, j ≠ index → j < t.blockLinkPool.length →
        (t.blockLinkPool.set index ⟨link, t.blockLinks dest⟩)[j]? = t.blockLinkPool[j]? :=
      fun j hj _ => List.getElem?_set_ne hj.symm
    have hfresh : ∀ a, index ∉ lists a := fun a hmem => h.apart a hmem List.mem_cons_self
    simp only [hnode, Option.bind_eq_bind]
    refine ⟨_, index, rest, rfl, ?_, List.getElem?_set_self hlt, hagree, hfresh, fun j hj => ?_,
      fun j hj => List.mem_cons.mp hj, rfl⟩
    · exact h.link hagree (List.getElem?_set_self hlt) hfresh hrest (List.subset_cons_self _ _)
        (List.nodup_cons.mp hspared.nodup).1
    · rw [List.length_set] at hj
      exact .inr hj

theorem Linked.inbound (h : Linked t t' dest link lists spare i spare')
    (hold : Pool.Shared t.blockLinkPool t.blockLinks t.blockLinkFreeHead lists spare) (a : BitVec 64) :
    t'.inbound a = if a = dest then link :: t.inbound a else t.inbound a := by
  have hvals : Pool.vals t'.blockLinkPool (lists a) = Pool.vals t.blockLinkPool (lists a) :=
    Pool.vals_of_agree fun j hj => h.agree j (fun heq => h.fresh a (heq ▸ hj)) ((hold.chain a).lt j hj)
  rw [inbound_of_chain (h.shared.chain a), inbound_of_chain (hold.chain a), ← hvals]
  split
  next ha =>
    subst ha
    simp [Pool.vals, h.node]
  next ha => rw [Function.update_of_ne ha]

theorem inbound_addBlockLink (h : t.Sound) (dest : BitVec 64) (link : BlockLink) :
    ∃ t', t.addBlockLink dest link = some t' ∧ t'.Sound ∧ t'.delinked = t.delinked ∧
      ∀ a, t'.inbound a = if a = dest then link :: t.inbound a else t.inbound a := by
  obtain ⟨lists, spare, h⟩ := h
  obtain ⟨t', i, spare', hadd, hlinked⟩ := addBlockLink_linked h dest link
  exact ⟨t', hadd, ⟨_, _, hlinked.shared⟩, hlinked.delinked, hlinked.inbound h⟩

/-! ## Severing -/

/-- The links of the addresses, and only they, are gone, and their delinkers ran. -/
structure Severs (t t' : LinkTable) (addrs : List (BitVec 64)) : Prop where
  sound : t'.Sound
  inbound : ∀ a, t'.inbound a = if a ∈ addrs then [] else t.inbound a
  delinked : ∃ calls, t'.delinked = t.delinked ++ calls ∧ ∀ link, link ∈ calls ↔ ∃ a ∈ addrs, link ∈ t.inbound a

theorem Severs.refl (h : t.Sound) : Severs t t [] := ⟨h, fun _ => by simp, [], by simp, by simp⟩

theorem Severs.trans (h : Severs t t₁ xs) (h' : Severs t₁ t' ys) : Severs t t' (xs ++ ys) where
  sound := h'.sound
  inbound a := by
    rw [h'.inbound, h.inbound]
    by_cases hx : a ∈ xs
    · simp [hx]
    · simp [hx]
  delinked := by
    obtain ⟨calls, hcalls, hmem⟩ := h.delinked
    obtain ⟨calls', hcalls', hmem'⟩ := h'.delinked
    refine ⟨calls ++ calls', by rw [hcalls', hcalls, List.append_assoc], fun link => ?_⟩
    rw [List.mem_append, hmem, hmem']
    constructor
    · rintro (⟨a, ha, hlink⟩ | ⟨a, ha, hlink⟩)
      · exact ⟨a, List.mem_append_left _ ha, hlink⟩
      · rw [h.inbound] at hlink
        split at hlink
        · cases hlink
        · exact ⟨a, List.mem_append_right _ ha, hlink⟩
    · rintro ⟨a, ha, hlink⟩
      by_cases hx : a ∈ xs
      · exact .inl ⟨a, hx, hlink⟩
      · have hy := (List.mem_append.mp ha).resolve_left hx
        exact .inr ⟨a, hy, by rwa [h.inbound, if_neg hx]⟩

/-- The chain of the address is on the free list, and its delinkers ran, in its order. -/
structure Severed (t t' : LinkTable) (a : BitVec 64) (lists : BitVec 64 → List Nat)
    (spare : List Nat) : Prop where
  shared : Pool.Shared t'.blockLinkPool t'.blockLinks t'.blockLinkFreeHead
    (Function.update lists a []) (lists a ++ spare)
  length : t'.blockLinkPool.length = t.blockLinkPool.length
  inbound : ∀ b, t'.inbound b = if b = a then [] else t.inbound b
  delinked : t'.delinked = t.delinked ++ t.inbound a

theorem severLinks_severed
    (h : Pool.Shared t.blockLinkPool t.blockLinks t.blockLinkFreeHead lists spare) (a : BitVec 64) :
    ∃ t', t.severLinks a = some (t', (t.inbound a).length) ∧ Severed t t' a lists spare := by
  unfold severLinks
  have hchain := h.chain a
  have hinbound := inbound_of_chain hchain
  cases hhead : t.blockLinks a with
  | none =>
    rw [hhead] at hchain
    have hnil : lists a = [] := hchain.unique .nil
    have hnone : t.inbound a = [] := by
      rw [hinbound, hnil]
      rfl
    have hsame : Function.update lists a [] = lists := Function.update_eq_self_iff.mpr hnil.symm
    refine ⟨t, by simp [hnone], ?_, rfl, fun b => ?_, by simp [hnone]⟩
    · rwa [hsame, hnil]
    · split
      next hb => rw [hb, hnone]
      next => rfl
  | some head =>
    rw [hhead] at hchain
    obtain ⟨is, tail, his⟩ : ∃ is tail, lists a = is ++ [tail] := by
      refine (List.eq_nil_or_concat' (lists a)).resolve_left fun hnil => ?_
      rw [hnil] at hchain
      cases hchain
    have hlast : (lists a).getLast? = some tail := by simp [his]
    have hrelease := h.release his
    rw [hhead] at hrelease
    simp only [hchain.walk, Option.bind_eq_bind, Option.bind_some, hlast]
    refine ⟨_, by rw [hinbound, Pool.length_vals hchain], hrelease, by simp, fun b => ?_, by rw [hinbound]⟩
    rw [inbound_of_chain (hrelease.chain b), inbound_of_chain (h.chain b)]
    by_cases hb : b = a
    · simp [hb, Pool.vals]
    · simp only [Function.update_of_ne hb, hb]
      refine Pool.vals_of_agree fun j hj => Pool.getElem?_setNext_of_ne fun heq => ?_
      exact h.disjoint b a hb hj (by simp [his, heq])

theorem severLinks_severs (h : t.Sound) (a : BitVec 64) :
    ∃ t' n, t.severLinks a = some (t', n) ∧ Severs t t' [a] := by
  obtain ⟨lists, spare, h⟩ := h
  obtain ⟨t', hsever, hsevered⟩ := severLinks_severed h a
  refine ⟨t', _, hsever, ⟨_, _, hsevered.shared⟩, ?_, _, hsevered.delinked, by simp⟩
  simpa using hsevered.inbound

end LinkTable

/-! ## The walks of the map -/

namespace LinkedMap

open LinkTable (Severs)

/-- With links the step does the same to the map; it ends, and severs some blocks. -/
def Tracks (f : LinkedMap → ι → Option LinkedMap) (g : GuestToHostMap → ι → GuestToHostMap) : Prop :=
  ∀ m x, m.links.Sound → ∃ links addrs, f m x = some ⟨g m.map x, links⟩ ∧ Severs m.links links addrs

theorem tracks_erase : Tracks erase GuestToHostMap.erase := by
  intro m a h
  obtain ⟨links, n, hsever, hsevers⟩ := LinkTable.severLinks_severs h a
  exact ⟨links, [a], by simp [erase, hsever], hsevers⟩

theorem tracks_softEraseBlock : Tracks softEraseBlock GuestToHostMap.softEraseBlock := by
  intro m a h
  unfold softEraseBlock
  cases hblock : m.map.blockList a with
  | none =>
    have hsame : m.map.softEraseBlock a = m.map := by simp [GuestToHostMap.softEraseBlock, hblock]
    exact ⟨m.links, [], by rw [hsame], .refl h⟩
  | some e =>
    obtain ⟨links, n, hsever, hsevers⟩ := LinkTable.severLinks_severs h a
    exact ⟨links, [a], by simp [hsever], hsevers⟩

theorem Tracks.foldlM (hf : Tracks f g) :
    Tracks (fun m xs => List.foldlM f m xs) (fun m xs => List.foldl g m xs) := by
  intro m xs h
  dsimp only
  induction xs generalizing m with
  | nil => exact ⟨m.links, [], rfl, .refl h⟩
  | cons x xs ih =>
    obtain ⟨links, addrs, hx, hsevers⟩ := hf m x h
    obtain ⟨links', addrs', hxs, hsevers'⟩ := ih ⟨g m.map x, links⟩ hsevers.sound
    refine ⟨links', addrs ++ addrs', ?_, hsevers.trans hsevers'⟩
    rw [List.foldlM_cons, hx]
    exact hxs

theorem Tracks.erasePage (hf : Tracks f g) : Tracks (erasePage f) (GuestToHostMap.erasePage g) := by
  intro m page h
  unfold LinkedMap.erasePage GuestToHostMap.erasePage
  cases m.map.codePages page with
  | none => exact ⟨m.links, [], rfl, .refl h⟩
  | some entries =>
    obtain ⟨links, addrs, hfold, hsevers⟩ := hf.foldlM m entries h
    exact ⟨links, addrs, by simp [hfold], hsevers⟩

theorem Tracks.erasePages {m : LinkedMap} (hf : Tracks f g) (h : m.links.Sound) (start length : BitVec 64) :
    ∃ links addrs, m.erasePages f start length = some ⟨m.map.erasePages g start length, links⟩ ∧
      Severs m.links links addrs := by
  obtain ⟨links, addrs, hfold, hsevers⟩ := hf.erasePage.foldlM m (pageIndexes start length) h
  refine ⟨links, addrs, ?_, hsevers⟩
  simp only [LinkedMap.erasePages, hfold, Option.bind_eq_bind]
  rfl

theorem invalidateRange_tracks {m : LinkedMap} (h : m.links.Sound) (start length : BitVec 64) :
    ∃ links addrs, m.invalidateRange start length = some ⟨m.map.invalidateRange start length, links⟩ ∧
      Severs m.links links addrs := by
  obtain ⟨links, addrs, hpages, hsevers⟩ := tracks_erase.erasePages h start length
  exact ⟨links, addrs, by simp [invalidateRange, hpages, GuestToHostMap.invalidateRange], hsevers⟩

/-! ## The precise walk -/

def Covers (m m' : GuestToHostMap) (addrs : List (BitVec 64)) : Prop :=
  ∀ a, m.blockList a ≠ none → m'.blockList a = none → a ∈ addrs

theorem Covers.trans (h : Covers m m₁ xs) (h' : Covers m₁ m' ys) : Covers m m' (xs ++ ys) := by
  intro a hlive hgone
  by_cases hmid : m₁.blockList a = none
  · exact List.mem_append_left _ (h a hlive hmid)
  · exact List.mem_append_right _ (h' a hmid hgone)

theorem covers_self (m : GuestToHostMap) : Covers m m [] := fun _ hlive hgone => absurd hgone hlive

variable {start endAddr base : BitVec 64}

theorem preciseEntry_tracks (w : LinkedWalk) (h : w.links.Sound) (a : BitVec 64) :
    ∃ links addrs, preciseEntry start endAddr base w a =
        some ⟨GuestToHostMap.preciseEntry start endAddr base w.walk a, links⟩ ∧
      Severs w.links links addrs ∧
      Covers w.walk.map (GuestToHostMap.preciseEntry start endAddr base w.walk a).map addrs := by
  unfold preciseEntry GuestToHostMap.preciseEntry
  cases w.walk.map.blockList a with
  | none => exact ⟨w.links, [], rfl, .refl h, covers_self _⟩
  | some e =>
    dsimp only
    split
    next =>
      obtain ⟨links, n, hsever, hsevers⟩ := LinkTable.severLinks_severs h a
      refine ⟨links, [a], by simp [hsever], hsevers, fun b hlive hgone => ?_⟩
      by_contra hb
      simp only [List.mem_singleton] at hb
      simp [GuestToHostMap.erase, Function.update_of_ne hb] at hgone
      exact hlive hgone
    next => exact ⟨w.links, [], rfl, .refl h, covers_self _⟩

theorem preciseEntries_track (w : LinkedWalk) (h : w.links.Sound) (entries : List (BitVec 64)) :
    ∃ links addrs, entries.foldlM (preciseEntry start endAddr base) w =
        some ⟨entries.foldl (GuestToHostMap.preciseEntry start endAddr base) w.walk, links⟩ ∧
      Severs w.links links addrs ∧
      Covers w.walk.map (entries.foldl (GuestToHostMap.preciseEntry start endAddr base) w.walk).map
        addrs := by
  induction entries generalizing w with
  | nil => exact ⟨w.links, [], rfl, .refl h, covers_self _⟩
  | cons a entries ih =>
    obtain ⟨links, addrs, ha, hsevers, hcovers⟩ := preciseEntry_tracks w h a
    obtain ⟨links', addrs', hrest, hsevers', hcovers'⟩ := ih ⟨_, links⟩ hsevers.sound
    refine ⟨links', addrs ++ addrs', ?_, hsevers.trans hsevers', hcovers.trans hcovers'⟩
    rw [List.foldlM_cons, ha]
    exact hrest

theorem precisePage_tracks (m : LinkedMap) (h : m.links.Sound) (n page : Nat) :
    ∃ links addrs, precisePage start endAddr (m, n) page =
        some (⟨(GuestToHostMap.precisePage start endAddr (m.map, n) page).1, links⟩,
          (GuestToHostMap.precisePage start endAddr (m.map, n) page).2) ∧
      Severs m.links links addrs ∧
      Covers m.map (GuestToHostMap.precisePage start endAddr (m.map, n) page).1 addrs := by
  unfold precisePage GuestToHostMap.precisePage
  cases m.map.codePages page with
  | none => exact ⟨m.links, [], rfl, .refl h, covers_self _⟩
  | some entries =>
    obtain ⟨links, addrs, hfold, hsevers, hcovers⟩ := preciseEntries_track ⟨{ map := m.map }, m.links⟩ h entries
    exact ⟨links, addrs, by simp only [hfold, Option.bind_eq_bind, Option.bind_some], hsevers, hcovers⟩

theorem precisePages_track (start endAddr : BitVec 64) (m : LinkedMap) (h : m.links.Sound) (n : Nat)
    (pages : List Nat) : ∃ links addrs, pages.foldlM (precisePage start endAddr) (m, n) =
        some (⟨(pages.foldl (GuestToHostMap.precisePage start endAddr) (m.map, n)).1, links⟩,
          (pages.foldl (GuestToHostMap.precisePage start endAddr) (m.map, n)).2) ∧
      Severs m.links links addrs ∧
      Covers m.map (pages.foldl (GuestToHostMap.precisePage start endAddr) (m.map, n)).1 addrs := by
  induction pages generalizing m n with
  | nil => exact ⟨m.links, [], rfl, .refl h, covers_self _⟩
  | cons page pages ih =>
    obtain ⟨links, addrs, hpage, hsevers, hcovers⟩ := precisePage_tracks m h n page
    obtain ⟨links', addrs', hrest, hsevers', hcovers'⟩ := ih ⟨_, links⟩ hsevers.sound _
    refine ⟨links', addrs ++ addrs', ?_, hsevers.trans hsevers', hcovers.trans hcovers'⟩
    rw [List.foldlM_cons, hpage]
    exact hrest

theorem invalidateRangePrecise_tracks (m : LinkedMap) (h : m.links.Sound) (start length : BitVec 64) :
    ∃ links addrs, m.invalidateRangePrecise start length =
        some (⟨(m.map.invalidateRangePrecise start length).1, links⟩,
          (m.map.invalidateRangePrecise start length).2) ∧
      Severs m.links links addrs ∧
      Covers m.map (m.map.invalidateRangePrecise start length).1 addrs := by
  obtain ⟨links, addrs, hpages, hsevers, hcovers⟩ :=
    precisePages_track start (start + length) m h 0 (pageIndexes start length)
  refine ⟨links, addrs, ?_, hsevers, ?_⟩
  · simp only [invalidateRangePrecise, hpages, Option.bind_eq_bind]
    rfl
  · intro a hlive hgone
    refine hcovers a hlive ?_
    rw [← (GuestToHostMap.sameLive_dropRetainedRange _ start length).1]
    exact hgone

/-! ## One operation -/

def mapStep (m : GuestToHostMap) : Op → GuestToHostMap
  | .addBlockMapping addr e => m.addBlockMapping addr e
  | .addBlockExecutableRange addresses start length guestRangeStart guestRangeLength alloc =>
    (m.addBlockExecutableRange addresses start length guestRangeStart guestRangeLength alloc).1
  | .addBlockLink _ _ => m
  | .erase addr => m.erase addr
  | .takeRetainedBlock addr => (m.takeRetainedBlock addr).1
  | .invalidateRange start length => m.invalidateRange start length
  | .softInvalidateRange start length => m.softInvalidateRange start length
  | .invalidateRangePrecise start length => (m.invalidateRangePrecise start length).1
  | .clearCache => { codePages := m.codePages, codeGranules := m.codeGranules.clearAll }

theorem step_tracks (m : LinkedMap) (h : m.links.Sound) (op : Op) :
    ∃ links, m.step op = some ⟨mapStep m.map op, links⟩ ∧ links.Sound := by
  cases op with
  | addBlockMapping addr e => exact ⟨_, rfl, h⟩
  | addBlockExecutableRange addresses start length guestRangeStart guestRangeLength alloc => exact ⟨_, rfl, h⟩
  | addBlockLink dest link =>
    obtain ⟨links, hlinks, hsound, -⟩ := LinkTable.inbound_addBlockLink h dest link
    exact ⟨links, by simp [step, hlinks, mapStep], hsound⟩
  | erase addr =>
    obtain ⟨links, addrs, heq, hsevers⟩ := tracks_erase m addr h
    exact ⟨links, heq, hsevers.sound⟩
  | takeRetainedBlock addr => exact ⟨_, rfl, h⟩
  | invalidateRange start length =>
    obtain ⟨links, addrs, heq, hsevers⟩ := invalidateRange_tracks h start length
    exact ⟨links, heq, hsevers.sound⟩
  | softInvalidateRange start length =>
    obtain ⟨links, addrs, heq, hsevers⟩ := tracks_softEraseBlock.erasePages h start length
    exact ⟨links, heq, hsevers.sound⟩
  | invalidateRangePrecise start length =>
    obtain ⟨links, addrs, heq, hsevers, -⟩ := invalidateRangePrecise_tracks m h start length
    refine ⟨links, ?_, hsevers.sound⟩
    simp [step, heq, mapStep]
  | clearCache => exact ⟨_, rfl, LinkTable.sound_empty _⟩

end LinkedMap

end PowerArm.Lookup
