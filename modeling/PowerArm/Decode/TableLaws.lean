import PowerArm.Decode.Table
import PowerArm.Lib.Result
import PowerArm.Lib.Submask

/-!
# The generated table decodes like the rows

Scanning the bucket a word indexes finds the first row, in priority order,
that matches the word (`decodeInstruction_eq_reference`). Two facts carry the
proof: an entry stands in every bucket a word it matches can index
(`index_mem_reachableBuckets`), and reordering only exchanges entries no word
matches together (`find?_reorderByWeight`).
-/

namespace PowerArm.Decode

def Entry.Matches (e : Entry) (word : Word) : Prop := e.maskExpect.Matches word

instance (e : Entry) (word : Word) : Decidable (e.Matches word) :=
  inferInstanceAs (Decidable (MaskExpect.Matches _ _))

/-! ## Matching -/

theorem Entry.not_both_match (h : Entry.Disjoint a b) (word : Word) : ¬(a.Matches word ∧ b.Matches word) := by
  rintro ⟨ha, hb⟩
  have ha' : word &&& a.mask = a.expect := ha
  have hb' : word &&& b.mask = b.expect := hb
  apply h
  rw [← ha', ← hb']
  ext i hi
  simp only [BitVec.getElem_and, BitVec.getElem_xor]
  cases word[i] <;> cases a.mask[i] <;> cases b.mask[i] <;> simp

theorem fastLookupIndex_and (a b : Word) : fastLookupIndex (a &&& b) = fastLookupIndex a &&& fastLookupIndex b := by
  unfold fastLookupIndex
  ext i hi
  have hdisj : ((0x00F#32)[i] && (0x3FF0#32)[i]) = false := by
    rw [← BitVec.getElem_and]
    simp
  grind

theorem fastLookupIndex_toNat_lt (word : Word) : (fastLookupIndex word).toNat < indexCount := by
  have h : fastLookupIndex word &&& 0x3FFF = fastLookupIndex word := by
    unfold fastLookupIndex
    rw [BitVec.and_or_distrib_right, BitVec.and_assoc, BitVec.and_assoc]
    rfl
  rw [← h]
  exact Nat.lt_of_le_of_lt Nat.and_le_right (by decide)

/-! ## Reachable buckets -/

theorem toNat_pred {sub : Word} (h : sub ≠ 0) : (sub - 1).toNat = sub.toNat - 1 := by bv_omega

theorem mem_reachableFrom {want free sub t : Word} (hsub : sub &&& free = sub)
    (ht : t &&& free = t) (hle : t.toNat ≤ sub.toNat) (hfuel : sub.toNat < fuel) :
    want ||| t ∈ reachableFrom want free fuel sub := by
  induction fuel generalizing sub with
  | zero => omega
  | succ fuel ih =>
    simp only [reachableFrom, List.mem_cons]
    by_cases heq : t = sub
    · exact .inl (by rw [heq])
    · have hlt : t.toNat < sub.toNat := lt_of_le_of_ne hle (fun h => heq (BitVec.eq_of_toNat_eq h))
      have h0 : sub ≠ 0 := by rintro rfl; simp at hlt
      have hnext : ((sub - 1) &&& free).toNat = (sub.toNat - 1) &&& free.toNat := by
        rw [BitVec.toNat_and, toNat_pred h0]
      refine .inr ?_
      rw [if_neg h0]
      refine ih (by rw [BitVec.and_assoc, BitVec.and_self]) ?_ ?_
      · rw [hnext]
        exact Lib.le_pred_and_of_lt (by rw [← BitVec.toNat_and, hsub]) (by rw [← BitVec.toNat_and, ht]) hlt
      · rw [hnext]
        exact (Nat.and_le_left.trans_lt (by omega))

theorem reachableFrom_ne_nil (fuel : Nat) : reachableFrom want free (fuel + 1) sub ≠ [] := by simp [reachableFrom]

theorem reachableFrom_lt (hwant : want.toNat < indexCount)
    (hfree : free.toNat < indexCount) (hsub : sub.toNat < indexCount)
    (hi : i ∈ reachableFrom want free fuel sub) : i.toNat < indexCount := by
  induction fuel generalizing sub with
  | zero => simp [reachableFrom] at hi
  | succ fuel ih =>
    simp only [reachableFrom, List.mem_cons] at hi
    rcases hi with rfl | hi
    · exact Nat.or_lt_two_pow hwant hsub
    · split at hi
      · simp at hi
      · exact ih (by rw [BitVec.toNat_and]; exact Nat.and_le_right.trans_lt hfree) hi

def Entry.free (e : Entry) : Word := ~~~fastLookupIndex e.mask &&& (BitVec.ofNat 32 indexCount - 1)

theorem Entry.free_lt (e : Entry) : e.free.toNat < indexCount := by
  rw [Entry.free]
  exact Nat.and_le_right.trans_lt (by decide)

theorem reachableBuckets_eq (e : Entry) :
    reachableBuckets e = reachableFrom (fastLookupIndex e.expect) e.free indexCount e.free := rfl

theorem reachableBuckets_lt (hi : i ∈ reachableBuckets e) : i.toNat < indexCount :=
  reachableFrom_lt (fastLookupIndex_toNat_lt _) e.free_lt e.free_lt hi

theorem index_mem_reachableBuckets (h : e.Matches word) : fastLookupIndex word ∈ reachableBuckets e := by
  have hfixed : fastLookupIndex word &&& fastLookupIndex e.mask = fastLookupIndex e.expect := by
    rw [← fastLookupIndex_and]
    exact congrArg fastLookupIndex h
  have hlow : fastLookupIndex word &&& (BitVec.ofNat 32 indexCount - 1) = fastLookupIndex word := by
    apply BitVec.eq_of_toNat_eq
    have hlt := fastLookupIndex_toNat_lt word
    rw [Lib.toNat_and_mask (k := indexBits) _ (by decide)]
    exact Nat.mod_eq_of_lt hlt
  have hsplit : fastLookupIndex e.expect ||| (fastLookupIndex word &&& e.free) = fastLookupIndex word := by
    rw [Entry.free]
    grind
  rw [← hsplit, reachableBuckets_eq]
  refine mem_reachableFrom BitVec.and_self ?_ ?_ e.free_lt
  · rw [BitVec.and_assoc, BitVec.and_self]
  · exact Nat.and_le_right

/-! ## Buckets -/

def Entry.copies (e : Entry) (i : Nat) : Nat := (reachableBuckets e).countP (·.toNat = i)

theorem foldl_appendTo_getElem? (is : List Word) (buckets : List (List Entry)) (i : Nat) :
    (is.foldl (appendTo e) buckets)[i]? = buckets[i]?.map (· ++ List.replicate (is.countP (·.toNat = i)) e) := by
  induction is generalizing buckets with
  | nil => simp
  | cons j is ih =>
    rw [List.foldl_cons, ih, appendTo, List.getElem?_modify]
    by_cases hj : j.toNat = i
    · simp [hj, Function.comp_def, List.replicate_succ]
    · simp [hj]

theorem foldl_buckets_getElem? (order : List Entry) (buckets : List (List Entry)) (i : Nat) :
    (order.foldl (fun bs e => (reachableBuckets e).foldl (appendTo e) bs) buckets)[i]? =
      buckets[i]?.map (· ++ order.flatMap fun e => List.replicate (e.copies i) e) := by
  induction order generalizing buckets with
  | nil => simp
  | cons e order ih =>
    rw [List.foldl_cons, ih, foldl_appendTo_getElem?]
    simp [Function.comp_def, Entry.copies]

theorem buildBuckets_getElem? (order : List Entry) (hi : i < indexCount) :
    (buildBuckets order)[i]? = some (order.flatMap fun e => List.replicate (e.copies i) e) := by
  rw [buildBuckets, foldl_buckets_getElem?]
  simp [hi]

theorem find?_flatMap_replicate {p : Entry → Bool} {n : Entry → Nat} (order : List Entry) (h : ∀ e, p e → 0 < n e) :
    (order.flatMap fun e => List.replicate (n e) e).find? p = order.find? p := by
  induction order with
  | nil => rfl
  | cons e order ih =>
    rw [List.flatMap_cons, List.find?_append, ih]
    cases hp : p e with
    | false => simp [hp]
    | true => simp [hp, (h e hp).ne']

theorem Entry.copies_pos {e : Entry} (h : e.Matches word) : 0 < e.copies (fastLookupIndex word).toNat :=
  List.countP_pos_iff.mpr ⟨_, index_mem_reachableBuckets h, by simp⟩

theorem reorderByWeight_rearranged (weight : Weights) (b : List Entry) :
    Lib.Rearranged Entry.Disjoint b (reorderByWeight weight b) := by
  fun_induction reorderByWeight weight b with
  | case1 b r _ ih => exact (reorderPass_rearranged weight b).trans ih
  | case2 b r _ => exact reorderPass_rearranged weight b

theorem find?_reorderByWeight (weight : Weights) (b : List Entry) (word : Word) :
    (reorderByWeight weight b).find? (·.Matches word) = b.find? (·.Matches word) := by
  refine ((reorderByWeight_rearranged weight b).find?_eq ?_).symm
  intro x y hxy
  simpa using Entry.not_both_match hxy word

theorem buckets_find? (weight : Weights) (entries : List Entry) (word : Word) :
    ∃ b, (buckets weight entries)[(fastLookupIndex word).toNat]? = some b ∧
      b.find? (·.Matches word) = (priorityOrder entries).find? (·.Matches word) := by
  have hb := buildBuckets_getElem? (priorityOrder entries) (fastLookupIndex_toNat_lt word)
  refine ⟨_, by rw [buckets, List.getElem?_map, hb, Option.map_some], ?_⟩
  · rw [find?_reorderByWeight, find?_flatMap_replicate]
    intro e he
    exact Entry.copies_pos (by simpa using he)

/-! ## Layout -/

theorem layout_slots (bs : List (List Entry)) : (layout bs).2 = bs.flatten.map (·.raw) := by
  induction bs using List.reverseRecOn with
  | nil => rfl
  | append_singleton bs b ih => simp_all [layout]

theorem layout_starts (bs : List (List Entry)) :
    (layout bs).1 = (List.range (bs.length + 1)).map fun k => (bs.take k).flatten.length := by
  induction bs using List.reverseRecOn with
  | nil => rfl
  | append_singleton bs b ih =>
    have hstep : (layout (bs ++ [b])).1 =
        (layout bs).1 ++ [((layout bs).2 ++ b.map (·.raw)).length] := by simp [layout]
    have hlen : (bs ++ [b]).length = bs.length + 1 := by simp
    rw [hstep, ih, layout_slots, hlen, List.range_succ (n := bs.length + 1), List.map_append]
    congr 1
    · refine List.map_congr_left fun k hk => ?_
      rw [List.take_append_of_le_length (by simpa [Nat.lt_succ_iff] using hk)]
    · have hall : (bs ++ [b]).take (bs.length + 1) = bs ++ [b] := List.take_of_length_le (by simp)
      rw [List.map_singleton, hall]
      simp [Function.comp_def]

theorem layout_start_getElem? (hk : k ≤ bs.length) : (layout bs).1[k]? = some (bs.take k).flatten.length := by
  rw [layout_starts, List.getElem?_map, List.getElem?_range (by omega), Option.map_some]

theorem layout_slot_getElem? (hb : bs[k]? = some b) (j : Nat) (hj : j < b.length) :
    (layout bs).2[(bs.take k).flatten.length + j]? = (b[j]?).map (·.raw) := by
  have hsplit : bs = bs.take k ++ b :: bs.drop (k + 1) := by
    obtain ⟨hk, rfl⟩ := List.getElem?_eq_some_iff.mp hb
    rw [List.getElem_cons_drop, List.take_append_drop]
  have hflat : bs.flatten = (bs.take k).flatten ++ (b ++ (bs.drop (k + 1)).flatten) := by
    nth_rewrite 1 [hsplit]
    simp
  rw [layout_slots, List.getElem?_map, hflat, List.getElem?_append_right (by omega),
    Nat.add_sub_cancel_left, List.getElem?_append_left hj]

theorem length_foldl_appendTo (is : List Word) (bs : List (List Entry)) :
    (is.foldl (appendTo e) bs).length = bs.length := by
  induction is generalizing bs with
  | nil => rfl
  | cons i is ih => rw [List.foldl_cons, ih, appendTo, List.length_modify]

theorem length_buckets (weight : Weights) (entries : List Entry) : (buckets weight entries).length = indexCount := by
  have hfold : ∀ (order : List Entry) (bs : List (List Entry)),
      (order.foldl (fun bs e => (reachableBuckets e).foldl (appendTo e) bs) bs).length = bs.length := by
    intro order
    induction order with
    | nil => exact fun _ => rfl
    | cons e order ih => exact fun bs => (ih _).trans (length_foldl_appendTo _ bs)
  rw [buckets, List.length_map, buildBuckets, hfold, List.length_replicate]

theorem mem_priorityOrder : e ∈ priorityOrder entries ↔ e ∈ entries := by
  simp only [priorityOrder, List.mem_append, List.mem_filter, List.mem_insertionSort, decide_eq_true_eq]
  tauto

/-! ## Lookup -/

def Entry.inst (e : Entry) : Inst := ⟨e.name, e.desc, e.bits⟩

def Entry.matcher (e : Entry) : InstMatcher := ⟨e.name, e.mask, e.expect, e.raw⟩

theorem Entry.ofInst_ok (h : Entry.ofInst i row = .ok e) : e.raw = i ∧ e.inst = row := by
  unfold Entry.ofInst at h
  split at h
  · cases h
    exact ⟨rfl, rfl⟩
  · cases h

theorem parseInc_forall₂ (h : parseInc rows = .ok entries) :
    List.Forall₂ (fun r e => e.raw = r.2 ∧ Entry.inst e = r.1) rows.zipIdx entries :=
  (Lib.Except.mapM_ok h).imp fun _ _ hre => Entry.ofInst_ok hre

theorem parseInc_row (h : parseInc rows = .ok entries) (he : e ∈ entries) : rows[e.raw]? = some e.inst := by
  obtain ⟨⟨row, raw⟩, hmem, rfl, rfl⟩ := Lib.forall₂_mem_right (parseInc_forall₂ h) he
  exact List.mem_zipIdx_iff_getElem?.mp hmem

theorem parseInc_entry (h : parseInc rows = .ok entries) (hr : row ∈ rows) : ∃ e ∈ entries, e.inst = row := by
  obtain ⟨raw, hraw⟩ := List.mem_iff_getElem?.mp hr
  obtain ⟨e, he, -, hinst⟩ := Lib.forall₂_mem_left (parseInc_forall₂ h)
    (List.mem_zipIdx_iff_getElem?.mpr hraw : (row, raw) ∈ rows.zipIdx)
  exact ⟨e, he, hinst⟩

theorem matchers_getElem? (h : rows[e.raw]? = some (Entry.inst e)) : (matchers rows)[e.raw]? = some e.matcher := by
  simp [matchers, h, Entry.inst, Entry.matcher, Entry.mask, Entry.expect, Entry.maskExpect]

theorem scan_eq {b : List Entry}
    (hslot : ∀ j < b.length, table.slot[start + j]? = (b[j]?).map fun e => UInt16.ofNat e.raw)
    (hraw : ∀ e ∈ b, e.raw < 2 ^ 16) (hrow : ∀ e ∈ b, rows[e.raw]? = some e.inst) (hfuel : b.length < fuel) :
    scan rows table word (start + b.length) fuel start = some ((b.find? (·.Matches word)).map Entry.matcher) := by
  induction b generalizing start fuel with
  | nil =>
    obtain ⟨fuel, rfl⟩ := Nat.exists_eq_add_of_lt hfuel
    simp [scan]
  | cons e b ih =>
    cases fuel with
    | zero => omega
    | succ fuel =>
      have hs : table.slot[start]? = some (UInt16.ofNat e.raw) := by simpa using hslot 0 (by simp)
      have he := UInt16.toNat_ofNat_of_lt' (hraw e List.mem_cons_self)
      have hr := hrow e List.mem_cons_self
      have hm : scanSlot rows table start = some e.maskExpect := by
        simp [scanSlot, hs, he, hr, Entry.inst, Entry.maskExpect]
      have htail := @ih (start + 1) fuel
        (fun j hj => by simpa [Nat.add_assoc, Nat.add_comm 1 j] using hslot (j + 1) (by simpa using hj))
        (fun e' h' => hraw e' (List.mem_cons_of_mem _ h'))
        (fun e' h' => hrow e' (List.mem_cons_of_mem _ h')) (by simpa using hfuel)
      have hstop : start + (e :: b).length = start + 1 + b.length := by simp; omega
      rw [scan, if_neg (by simp), hm, hstop]
      by_cases hw : e.Matches word
      · have hw' : e.maskExpect.Matches word := hw
        simp [hw, hw', hs, he, matchers_getElem? hr]
      · have hw' : ¬ e.maskExpect.Matches word := hw
        simp [hw, hw', htail]

/-! ## Capacity: slots and rows fit the 16-bit arrays -/

theorem length_flatten_appendTo (hi : i.toNat < bs.length) :
    (appendTo e bs i).flatten.length = bs.flatten.length + 1 := by
  unfold appendTo
  generalize i.toNat = k at hi
  induction bs generalizing k with
  | nil => simp at hi
  | cons b bs ih =>
    cases k with
    | zero => simp; omega
    | succ k =>
      have := ih k (by simpa using hi)
      simp only [List.modify_succ_cons, List.flatten_cons, List.length_append]
      omega

theorem length_flatten_foldl_appendTo {is : List Word} {bs : List (List Entry)}
    (his : ∀ i ∈ is, i.toNat < bs.length) :
    (is.foldl (appendTo e) bs).flatten.length = bs.flatten.length + is.length := by
  induction is generalizing bs with
  | nil => rfl
  | cons i is ih =>
    rw [List.foldl_cons, ih, length_flatten_appendTo (his i List.mem_cons_self), List.length_cons]
    · omega
    · intro j hj
      rw [appendTo, List.length_modify]
      exact his j (List.mem_cons_of_mem _ hj)

theorem length_flatten_buildBuckets (order : List Entry) :
    (buildBuckets order).flatten.length = (order.map fun e => (reachableBuckets e).length).sum := by
  have hfold : ∀ (bs : List (List Entry)), bs.length = indexCount →
      (order.foldl (fun bs e => (reachableBuckets e).foldl (appendTo e) bs) bs).flatten.length =
        bs.flatten.length + (order.map fun e => (reachableBuckets e).length).sum := by
    induction order with
    | nil => simp
    | cons e order ih =>
      intro bs hbs
      rw [List.foldl_cons, ih _ ((length_foldl_appendTo _ bs).trans hbs),
        length_flatten_foldl_appendTo fun i hi => hbs ▸ reachableBuckets_lt hi]
      simp
      omega
  simpa [buildBuckets] using hfold (List.replicate indexCount []) List.length_replicate

theorem length_layout_slots (weight : Weights) (entries : List Entry) : (layout (buckets weight entries)).2.length =
      ((priorityOrder entries).map fun e => (reachableBuckets e).length).sum := by
  rw [layout_slots, List.length_map, ← length_flatten_buildBuckets, buckets, List.length_flatten,
    List.length_flatten, List.map_map]
  congr 2
  funext b
  exact (reorderByWeight_rearranged weight b).perm.length_eq.symm

theorem length_priorityOrder (entries : List Entry) : (priorityOrder entries).length = entries.length := by
  have h := (List.filter_append_perm (fun e : Entry => e.desc ∈ comesFirst)
    (entries.insertionSort fun a b => popcount b.mask ≤ popcount a.mask)).length_eq
  simpa [priorityOrder] using h

theorem length_entries_le (weight : Weights) (entries : List Entry) :
    entries.length ≤ (layout (buckets weight entries)).2.length := by
  rw [length_layout_slots, ← length_priorityOrder]
  generalize priorityOrder entries = order
  induction order with
  | nil => simp
  | cons e order ih =>
    have : 0 < (reachableBuckets e).length := List.length_pos_of_ne_nil (reachableFrom_ne_nil (indexCount - 1))
    simp only [List.length_cons, List.map_cons, List.sum_cons]
    omega

theorem generate_ok_iff : generate rows weight = .ok table ↔ ∃ entries, parseInc rows = .ok entries ∧
      ((priorityOrder entries).map fun e => (reachableBuckets e).length).sum ≤ 0xFFFF ∧
      table = ⟨(layout (buckets weight entries)).1.map UInt16.ofNat,
        (layout (buckets weight entries)).2.map UInt16.ofNat⟩ := by
  rw [generate, Lib.Except.bind_ok]
  refine exists_congr fun entries => and_congr_right fun _ => ?_
  rw [← length_layout_slots weight]
  dsimp only
  split
  · exact ⟨nofun, fun h => absurd h.1 (by omega)⟩
  · exact ⟨fun h => by cases h; exact ⟨by omega, rfl⟩, fun h => by rw [h.2]; rfl⟩

/-! ## Main result -/

def reference (entries : List Entry) (word : Word) : Option Entry := (priorityOrder entries).find? (·.Matches word)

theorem decodeInstruction_generate (h : generate rows weight = .ok table)
    (hp : parseInc rows = .ok entries) (word : Word) :
    decodeInstruction rows table word = some ((reference entries word).map Entry.matcher) := by
  obtain ⟨entries', hp', hcap, rfl⟩ := generate_ok_iff.mp h
  cases hp.symm.trans hp'
  obtain ⟨b, hb, hfind⟩ := buckets_find? weight entries word
  rw [← length_layout_slots weight] at hcap
  set bs := buckets weight entries with hbs
  set k := (fastLookupIndex word).toNat with hk
  have hlen : bs.length = indexCount := length_buckets weight entries
  have hklt : k < bs.length := hlen ▸ fastLookupIndex_toNat_lt word
  have hstop : (bs.take (k + 1)).flatten.length = (bs.take k).flatten.length + b.length := by
    rw [List.take_add_one, hb]
    simp
  have hfit : (bs.take k).flatten.length + b.length ≤ (layout bs).2.length := by
    rw [← hstop, layout_slots, List.length_map]
    nth_rewrite 2 [← List.take_append_drop (k + 1) bs]
    rw [List.flatten_append, List.length_append]
    exact Nat.le_add_right ..
  have hmem : ∀ e ∈ b, e ∈ entries := by
    intro e he
    rw [hbs, buckets, List.getElem?_map, buildBuckets_getElem? _ (hlen ▸ hklt)] at hb
    cases hb
    have he' := (reorderByWeight_rearranged weight _).perm.mem_iff.mpr he
    obtain ⟨e', he', hrep⟩ := List.mem_flatMap.mp he'
    cases List.eq_of_mem_replicate hrep
    exact mem_priorityOrder.mp he'
  have hrow : ∀ e ∈ b, rows[e.raw]? = some e.inst := fun e he => parseInc_row hp (hmem e he)
  have hrows : rows.length = entries.length := by simpa using (parseInc_forall₂ hp).length_eq
  have hraw : ∀ e ∈ b, e.raw < 2 ^ 16 := fun e he => by
    have := (List.getElem?_eq_some_iff.mp (hrow e he)).1
    have := length_entries_le weight entries
    rw [← hbs] at this
    omega
  have hstart : (UInt16.ofNat (bs.take k).flatten.length).toNat = (bs.take k).flatten.length :=
    UInt16.toNat_ofNat_of_lt' (show _ < 2 ^ 16 by omega)
  have hend : (UInt16.ofNat (bs.take (k + 1)).flatten.length).toNat = (bs.take k).flatten.length + b.length := by
    rw [hstop]
    exact UInt16.toNat_ofNat_of_lt' (show _ < 2 ^ 16 by omega)
  simp only [decodeInstruction, ← hk, List.getElem?_map, layout_start_getElem? hklt,
    layout_start_getElem? hklt.le, Option.map_some, Option.bind_eq_bind, Option.bind_some,
    hstart, hend, List.length_map]
  rw [scan_eq ?_ hraw hrow (by omega), hfind, reference]
  intro j hj
  rw [List.getElem?_map, layout_slot_getElem? hb j hj, Option.map_map]
  rfl

theorem reference_none_iff (hp : parseInc rows = .ok entries) :
    reference entries word = none ↔ ∀ row ∈ rows, ¬(parseBits row.bits).Matches word := by
  simp only [reference, List.find?_eq_none, mem_priorityOrder, decide_eq_true_eq]
  constructor
  · intro h row hrow
    obtain ⟨e, he, rfl⟩ := parseInc_entry hp hrow
    exact h e he
  · intro h e he
    exact h e.inst (List.mem_of_getElem? (parseInc_row hp he))

/-- For any rows and weights the generator accepts, the table returns what the
rows searched in priority order return, and nothing when no row matches. -/
theorem decodeInstruction_eq_reference (rows : List Inst) (weight : Weights) (table : Generated)
    (h : generate rows weight = .ok table) (word : Word) :
    ∃ entries, parseInc rows = .ok entries ∧
      decodeInstruction rows table word = some ((reference entries word).map Entry.matcher) ∧
      (decodeInstruction rows table word = some none ↔ ∀ row ∈ rows, ¬(parseBits row.bits).Matches word) := by
  obtain ⟨entries, hp, -⟩ := generate_ok_iff.mp h
  have hd := decodeInstruction_generate h hp word
  refine ⟨entries, hp, hd, ?_⟩
  rw [hd, ← reference_none_iff hp]
  simp

def hintRows : List Inst :=
  [⟨"HINT", "HINT", "11010101000000110010MMMMooo11111"⟩, ⟨"NOP", "NOP", "11010101000000110010000000011111"⟩]

/-- A heavier `HINT` does not overtake `NOP`: the rows are not disjoint. -/
theorem decodeInstruction_eq_reference_nop :
    ∃ table, generate hintRows (fun key => if key.1 = "HINT" then some 5 else none) = .ok table ∧
      decodeInstruction hintRows table 0xD503201F = some (some ⟨"NOP", 0xFFFFFFFF, 0xD503201F, 1⟩) := by
  have hg : generate hintRows (fun key => if key.1 = "HINT" then some 5 else none) = .ok _ :=
    generate_ok_iff.mpr ⟨_, rfl, by decide, rfl⟩
  obtain ⟨entries, hp, hd, -⟩ := decodeInstruction_eq_reference _ _ _ hg 0xD503201F
  cases hp
  exact ⟨_, hg, hd.trans (by decide)⟩

end PowerArm.Decode
