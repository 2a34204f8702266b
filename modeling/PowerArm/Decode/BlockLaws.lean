import PowerArm.Decode.WalkLaws

/-!
# A decoder's past does not show

The scratch slots are reused from call to call and only told apart by a
generation stamp. A call whose generation no earlier stamp carries decodes as
on a new decoder (`decode_after_eq_new`). The stamp keeps 29 bits of a 32-bit
generation that is only reset at 2^32, so a stamp written 2^29 units earlier is
taken for a current one (`decode_after_ne_new`).
-/

namespace PowerArm.Decode

/-! ## One call -/

/-- The call clears the slot table, or no flagged stamp in it carries the bits
of the generation the call is about to use. -/
def Decoder.Unaliased (d : Decoder) (g : Guest) (c : Call) : Prop :=
  d.numSlots < numSlotsOf g c ∨ d.generation + 1 = 0 ∨
    ∀ i, d.slots.stamp i &&& genMask = (d.generation + 1) &&& genMask → d.slots.stamp i &&& ~~~genMask = 0

section
variable {d d' : Decoder} {g : Guest} {c : Call}

theorem flags_cleared (s : Slots) (gen : BitVec 32) (i : Nat) : s.cleared.flags gen i = 0 := by
  simp [Slots.flags, Slots.cleared]

def Decoder.Blank (d : Decoder) : Prop := ∀ i, d.slots.flags (d.generation &&& genMask) i = 0

theorem Decoder.Unaliased.blank (h : d.Unaliased g c) : ((d.reserve (numSlotsOf g c)).bump).Blank := by
  intro i
  unfold Decoder.reserve Decoder.bump
  by_cases hn : d.numSlots < numSlotsOf g c
  · rw [if_pos hn]
    exact flags_cleared ..
  · rw [if_neg hn]
    by_cases hw : d.generation + 1 = 0
    · rw [if_pos hw]
      exact flags_cleared ..
    · rw [if_neg hw]
      obtain h | h | h := h
      · exact absurd h hn
      · exact absurd h hw
      · simpa [Slots.flags] using h i

theorem bump_reserve_cache (d : Decoder) (n : Nat) : (d.reserve n).bump.cache = d.cache := by
  unfold Decoder.bump Decoder.reserve
  split <;> split <;> rfl

def Decoder.SameSlots (d d' : Decoder) : Prop :=
  SlotsEq (d.generation &&& genMask) (d'.generation &&& genMask) d.slots d'.slots

theorem Decoder.Blank.sameSlots (hd : d.Blank) (hd' : d'.Blank) : d.SameSlots d' :=
  ⟨fun i => by rw [hd i, hd' i], fun i hi => absurd (by simp [hd i]) hi, fun i hi => absurd (by simp [hd i]) hi⟩

theorem walk_eq (hs : d.SameSlots d') (hc : ValidFor g.ranges d.cache)
    (hc' : ValidFor g.ranges d'.cache) (hentry : Accepted g.ranges c.pc) :
    WalkEq g (d.region g c) (d'.generation &&& genMask) (d.walk g c) (d'.walk g c) := by
  have he : WalkEq g (d.region g c) (d'.generation &&& genMask) (entryWalk (d.region g c) d)
      (entryWalk (d'.region g c) d') :=
    ⟨hs.setFlag (isGen_and _) (isGen_and _) isFlag_leaderBit (by decide) _, rfl, rfl, rfl, hc, hc'⟩
  exact he.discover (isGen_and _) (isGen_and _) hentry _

theorem decodeRegion_eq (h : d.Unaliased g c) (h' : d'.Unaliased g c)
    (hc : ValidFor g.ranges d.cache) (hc' : ValidFor g.ranges d'.cache) (hentry : Accepted g.ranges c.pc) :
    (d.decodeRegion g c).1 = (d'.decodeRegion g c).1 := by
  have hw := walk_eq (h.blank.sameSlots h'.blank) (bump_reserve_cache d _ ▸ hc)
    (bump_reserve_cache d' _ ▸ hc') hentry
  exact congrArg (infoOf g c.pc) (layoutBlocks_eq hw)

end

theorem closed_validFor (g : Guest) (r : Region) : Closed g r fun c _ => ValidFor g.ranges c :=
  ⟨fun _ _ _ _ h => checkRangeExecutable_valid h, fun _ _ _ _ _ h => h⟩

theorem decodeInstructionsAtEntry_valid {d : Decoder} (h : ValidFor g.ranges d.cache) (c : Call) :
    ValidFor g.ranges (d.decodeInstructionsAtEntry g c).2.cache := by
  unfold Decoder.decodeInstructionsAtEntry
  split
  · exact h
  · have hv : ValidFor g.ranges (checkRangeExecutable g.ranges d.cache c.pc instructionSize).2 :=
      checkRangeExecutable_valid h
    dsimp only
    split
    · refine (closed_validFor g _).walk ?_
      rw [bump_reserve_cache]
      exact hv
    · exact hv

theorem after_valid {d : Decoder} (h : ValidFor g.ranges d.cache) (calls : List Call) :
    ValidFor g.ranges (d.after g calls).cache := by
  induction calls generalizing d with
  | nil => exact h
  | cons c calls ih => exact ih (decodeInstructionsAtEntry_valid h c)

theorem validFor_new (rs : Option ExecRanges) : ValidFor rs ({} : Decoder).cache :=
  fun _ _ => .inl rfl

theorem unaliased_new (g : Guest) (c : Call) : ({} : Decoder).Unaliased g c := .inl (Nat.succ_pos _)

/-- A call made when no stamp of an earlier unit carries its generation gives
what it gives on a newly constructed decoder, whatever was decoded before. -/
theorem decode_after_eq_new (g : Guest) (calls : List Call) (c : Call)
    (h : (({} : Decoder).after g calls).Unaliased g c) :
    ((({} : Decoder).after g calls).decodeInstructionsAtEntry g c).1 =
      (({} : Decoder).decodeInstructionsAtEntry g c).1 := by
  have hv := after_valid (validFor_new g.ranges) calls
  generalize ({} : Decoder).after g calls = d at h hv
  unfold Decoder.decodeInstructionsAtEntry
  split
  · rfl
  · rename_i halign
    have ha : c.pc &&& 3 = 0 := not_not.mp halign
    have hsame := checkRangeExecutable_inst_cache hv ha
    dsimp only
    rw [hsame]
    split
    · rename_i hok
      have hacc := accepted_of_check hv ha (hsame.trans hok)
      exact @decodeRegion_eq { d with cache := _ } { ({} : Decoder) with cache := _ } g c h
        (unaliased_new g c) (checkRangeExecutable_valid hv)
        (checkRangeExecutable_valid (validFor_new g.ranges)) hacc
    · rfl

/-! ## Generations within reach of a stamp -/

def StampedUpTo (n : Nat) (stamp : Nat → BitVec 32) : Prop :=
  ∀ i, stamp i &&& ~~~genMask ≠ 0 → ∃ k, 1 ≤ k ∧ k ≤ n ∧ stamp i &&& genMask = BitVec.ofNat 32 k &&& genMask

theorem StampedUpTo.mono (h : StampedUpTo n stamp) (hle : n ≤ m) : StampedUpTo m stamp := by
  intro i hi
  obtain ⟨k, h1, hk, he⟩ := h i hi
  exact ⟨k, h1, hk.trans hle, he⟩

theorem stampedUpTo_cleared (s : Slots) : StampedUpTo n s.cleared.stamp :=
  fun i hi => absurd (by simp [Slots.cleared]) hi

theorem closed_stampedUpTo (g : Guest) (r : Region) (hn : 1 ≤ n) (hr : r.gen = BitVec.ofNat 32 n &&& genMask) :
    Closed g r fun _ st => StampedUpTo n st := by
  refine ⟨fun _ _ _ _ h => h, fun _ s a flag hf h i hi => ?_⟩
  by_cases hia : i = r.slotOf a
  · subst hia
    refine ⟨n, hn, le_rfl, ?_⟩
    rw [stamp_setFlag_and (hr ▸ isGen_and _) hf, hr]
  · simp only [Slots.setFlag, Function.update_of_ne hia] at hi ⊢
    exact h i hi

def Decoder.Stamped (d : Decoder) : Prop := StampedUpTo d.generation.toNat d.slots.stamp

theorem Decoder.Stamped.bump {d : Decoder} (h : d.Stamped) (n : Nat) :
    (d.reserve n).bump.Stamped ∧ 1 ≤ (d.reserve n).bump.generation.toNat := by
  have hr : (d.reserve n).Stamped := by
    unfold Decoder.reserve
    split
    · exact stampedUpTo_cleared _
    · exact h
  unfold Decoder.bump
  split
  · exact ⟨stampedUpTo_cleared _, Nat.le_refl 1⟩
  · have hnat : ((d.reserve n).generation + 1).toNat = (d.reserve n).generation.toNat + 1 := by bv_omega
    constructor
    · show StampedUpTo ((d.reserve n).generation + 1).toNat _
      rw [hnat]
      exact StampedUpTo.mono hr (Nat.le_succ _)
    · show 1 ≤ ((d.reserve n).generation + 1).toNat
      omega

theorem decodeInstructionsAtEntry_stamped {d : Decoder} (h : d.Stamped) (g : Guest) (c : Call) :
    (d.decodeInstructionsAtEntry g c).2.Stamped := by
  unfold Decoder.decodeInstructionsAtEntry
  split
  · exact h
  · dsimp only
    split
    · set e : Decoder := { d with cache := _ }
      obtain ⟨hb, hpos⟩ := Decoder.Stamped.bump (d := e) h (numSlotsOf g c)
      refine (closed_stampedUpTo g _ hpos ?_).walk hb
      rw [BitVec.ofNat_toNat]
      rfl
    · exact h

theorem after_stamped {d : Decoder} (h : d.Stamped) (g : Guest) (calls : List Call) : (d.after g calls).Stamped := by
  induction calls generalizing d with
  | nil => exact h
  | cons c calls ih => exact ih (decodeInstructionsAtEntry_stamped h g c)

theorem toNat_and_genMask (x : BitVec 32) : (x &&& genMask).toNat = x.toNat % 2 ^ 29 :=
  Lib.toNat_and_mask x (by decide)

theorem unaliased_of_generation_lt {g : Guest} {calls : List Call} (c : Call)
    (h : (({} : Decoder).after g calls).generation.toNat + 1 < 2 ^ 29) :
    (({} : Decoder).after g calls).Unaliased g c := by
  have hs : (({} : Decoder).after g calls).Stamped := after_stamped (fun i hi => absurd (by simp) hi) g calls
  generalize ({} : Decoder).after g calls = d at h hs
  refine .inr (.inr fun i hi => ?_)
  by_contra hflag
  obtain ⟨k, hk1, hk, he⟩ := hs i hflag
  have hnat : (d.generation + 1).toNat = d.generation.toNat + 1 := by bv_omega
  have hkn : (BitVec.ofNat 32 k).toNat = k := by exact Nat.mod_eq_of_lt (by omega)
  have hmod := congrArg BitVec.toNat (he.symm.trans hi)
  rw [toNat_and_genMask, toNat_and_genMask, hnat] at hmod
  omega

/-! ## Aliasing after 2^29 units -/

/-- A word the decoder neither stops at nor gives a meaning of its own. -/
structure Guest.Plain (g : Guest) (pc : Addr) : Prop where
  not_thunk : g.mem pc ≠ thunkMarkerWord
  handled : (g.decode (g.mem pc)).any g.handled = true
  not_end : endsBlock (g.mem pc) g.config.smcICache = false

theorem matchWord_plain {w : Walk} (h : g.Plain pc) : w.matchWord g r pc = (g.decode (g.mem pc),
      { w with slots := w.slots.setMatcher (r.slotOf pc) (g.decode (g.mem pc)) }) :=
  if_neg h.not_thunk

theorem decodeOne_plain {w : Walk} (h : g.Plain r.pc) (hin : r.InWindow r.pc)
    (hisb : r.isbEndsBlock = g.config.smcICache) (hnew : w.flags r r.pc &&& decodedBit = 0) :
    w.decodeOne g r r.pc = (((w.fetch g r r.pc).matchWord g r r.pc).2, true) := by
  have hgo : ¬(¬ r.InWindow r.pc ∨ w.flags r r.pc &&& decodedBit ≠ 0) :=
    not_or.mpr ⟨not_not.mpr hin, not_not.mpr hnew⟩
  rw [Walk.decodeOne, if_neg hgo]
  simp only [matchWord_plain h, h.handled, hisb, h.not_end]
  rfl

theorem discover_single {w : Walk} (h : g.Plain r.pc) (hin : r.InWindow r.pc) (hcap : r.cap = 1)
    (hisb : r.isbEndsBlock = g.config.smcICache) (hnew : w.flags r r.pc &&& decodedBit = 0)
    (hwl : w.worklist = [r.pc]) (hd : w.decoded = 0) (fuel : Nat) :
    (w.discover g r (fuel + 1)).slots = (((w.slots.setWord (r.slotOf r.pc) (g.mem r.pc)).setFlag r.gen
      (r.slotOf r.pc) decodedBit).setMatcher (r.slotOf r.pc) (g.decode (g.mem r.pc))) := by
  have hnew' : Walk.flags { w with worklist := [] } r r.pc &&& decodedBit = 0 := hnew
  have hstep := decodeOne_plain h hin hisb hnew'
  have hrun : Walk.decodeRun g r 1 r.pc { w with worklist := [] } =
      ((Walk.fetch { w with worklist := [] } g r r.pc).matchWord g r r.pc).2 := by
    rw [Walk.decodeRun, hstep]
    rfl
  rw [Walk.discover, hwl]
  dsimp only
  rw [hd] at hrun ⊢
  rw [hcap, hrun, matchWord_plain h]
  cases fuel <;> rfl

def nopRange : ExecRanges where
  ranges := [⟨0x10000, 0x1000⟩]
  aligned := by decide
  nonempty := by decide
  below := by decide
  disjoint := by
    intro r hr r' hr' a _ _
    rw [List.mem_singleton.mp hr, List.mem_singleton.mp hr']

def nopMatcher : InstMatcher := ⟨"NOP", 0xFFFFFFFF, 0xD503201F, 0⟩

def nopGuest : Guest where
  mem := fun _ => 0xD503201F
  ranges := some nopRange
  config := { maxInstPerBlock := 1024 }
  decode := fun word => if word = 0xD503201F then some nopMatcher else none
  handled := fun _ => true

/-- A single step right after a two-instruction unit. -/
theorem decode_after_eq_new_nop : (({} : Decoder).after nopGuest [⟨0x10000, 2⟩]).Unaliased nopGuest ⟨0x10000, 1⟩ ∧
      ((({} : Decoder).after nopGuest [⟨0x10000, 2⟩]).decodeInstructionsAtEntry nopGuest
        ⟨0x10000, 1⟩).1 = (({} : Decoder).decodeInstructionsAtEntry nopGuest ⟨0x10000, 1⟩).1 := by
  have h : (({} : Decoder).after nopGuest [⟨0x10000, 2⟩]).Unaliased nopGuest ⟨0x10000, 1⟩ :=
    unaliased_of_generation_lt _ (by decide)
  exact ⟨h, decode_after_eq_new _ _ _ h⟩

/-- After a two-instruction unit and `k` single steps of its entry: slot 33 still
holds the first unit's stamp. -/
structure Stepped (k : Nat) (d : Decoder) : Prop where
  valid : ValidFor nopGuest.ranges d.cache
  numSlots : d.numSlots = 67
  generation : d.generation = BitVec.ofNat 32 (k + 1)
  entry : d.slots.stamp 32 &&& genMask = d.generation &&& genMask
  rest : ∀ i, i ≠ 32 → d.slots.stamp i = if i = 33 then 1 ||| decodedBit else 0
  word : d.slots.word 33 = 0xD503201F
  matcher : d.slots.matcher 33 = some nopMatcher

theorem stepped_zero : Stepped 0 (({} : Decoder).decodeInstructionsAtEntry nopGuest ⟨0x10000, 2⟩).2 where
  valid := decodeInstructionsAtEntry_valid (validFor_new _) _
  numSlots := by decide
  generation := by decide
  entry := by decide
  rest := by
    intro i hi
    have hst : (({} : Decoder).decodeInstructionsAtEntry nopGuest ⟨0x10000, 2⟩).2.slots.stamp =
        Function.update (Function.update (Function.update (fun _ => 0#32) 32 (1 ||| leaderBit)) 32
          (1 ||| leaderBit ||| decodedBit)) 33 (1 ||| decodedBit) := rfl
    rw [hst]
    by_cases h : i = 33
    · simp [h]
    · simp [h, hi]
  word := by decide
  matcher := by decide

theorem plain_nop (pc : Addr) : nopGuest.Plain pc where
  not_thunk := show (0xD503201F : Word) ≠ thunkMarkerWord by decide
  handled := rfl
  not_end := show endsBlock 0xD503201F false = false by decide

theorem nop_single {d : Decoder} (h : ValidFor nopGuest.ranges d.cache) (hn : d.numSlots = 67)
    (hg : d.generation + 1 ≠ 0) :
    ∃ e : Decoder, ValidFor nopGuest.ranges e.cache ∧ e.numSlots = d.numSlots ∧
      e.slots = d.slots ∧ e.generation = d.generation + 1 ∧
      d.decodeInstructionsAtEntry nopGuest ⟨0x10000, 1⟩ =
        (infoOf nopGuest 0x10000 (layoutBlocks (e.region nopGuest ⟨0x10000, 1⟩) (e.walk nopGuest ⟨0x10000, 1⟩)),
          { e with cache := (e.walk nopGuest ⟨0x10000, 1⟩).cache
                   slots := (e.walk nopGuest ⟨0x10000, 1⟩).slots }) := by
  have hok : (checkRangeExecutable nopGuest.ranges d.cache 0x10000 instructionSize).1 :=
    (checkRangeExecutable_inst_cache h (by decide)).trans (by decide)
  have hsize : ¬ 67 < numSlotsOf nopGuest ⟨0x10000, 1⟩ := by decide
  set c := (checkRangeExecutable nopGuest.ranges d.cache 0x10000 instructionSize).2 with hc
  refine ⟨{ d with cache := c, generation := d.generation + 1 }, checkRangeExecutable_valid h, rfl, rfl, rfl, ?_⟩
  rw [Decoder.decodeInstructionsAtEntry, if_neg (by decide)]
  dsimp only
  rw [hok, if_pos rfl, Decoder.decodeRegion, Decoder.reserve]
  rw [hn, if_neg hsize, Decoder.bump, if_neg hg]

theorem nop_walk_slots {e : Decoder} (hblank : e.slots.flags (e.generation &&& genMask) 32 = 0) :
    (e.walk nopGuest ⟨0x10000, 1⟩).slots =
      (((e.slots.setFlag (e.generation &&& genMask) 32 leaderBit).setWord 32 0xD503201F).setFlag
        (e.generation &&& genMask) 32 decodedBit).setMatcher 32 (some nopMatcher) := by
  set r := e.region nopGuest ⟨0x10000, 1⟩ with hr
  have hslot : r.slotOf r.pc = 32 := by
    show (regionOf nopGuest ⟨0x10000, 1⟩ 0).slotOf 0x10000 = 32
    decide
  have hin : r.InWindow r.pc := by
    show (regionOf nopGuest ⟨0x10000, 1⟩ 0).InWindow 0x10000
    decide
  have hw : (entryWalk r e).slots = e.slots.setFlag r.gen 32 leaderBit := by
    rw [← hslot]
    rfl
  have hnew : (entryWalk r e).flags r r.pc &&& decodedBit = 0 := by
    have hgen : IsGen r.gen := isGen_and _
    have hz : e.slots.flags r.gen 32 = 0 := hblank
    rw [Walk.flags, hw, hslot, flags_setFlag hgen isFlag_leaderBit, hz]
    decide
  have hs := discover_single (plain_nop r.pc) hin rfl rfl hnew rfl rfl 2
  rw [hslot, hw] at hs
  exact hs

theorem ofNat_succ_and_ne (k : Nat) : BitVec.ofNat 32 (k + 1) &&& genMask ≠ BitVec.ofNat 32 (k + 2) &&& genMask := by
  intro h
  have h' := congrArg BitVec.toNat h
  rw [toNat_and_genMask, toNat_and_genMask, BitVec.toNat_ofNat, BitVec.toNat_ofNat] at h'
  omega

theorem Stepped.next_ne_zero (h : Stepped k d) (hk : k + 2 < 2 ^ 32) :
    d.generation + 1 = BitVec.ofNat 32 (k + 2) ∧ d.generation + 1 ≠ 0 := by
  rw [h.generation]
  constructor <;> bv_omega

theorem Stepped.step (h : Stepped k d) (hk : k + 2 < 2 ^ 32) :
    Stepped (k + 1) (d.decodeInstructionsAtEntry nopGuest ⟨0x10000, 1⟩).2 := by
  obtain ⟨hsucc, hne⟩ := h.next_ne_zero hk
  obtain ⟨e, -, hn, hes, heg, hd⟩ := nop_single h.valid h.numSlots hne
  have hblank : e.slots.flags (e.generation &&& genMask) 32 = 0 := by
    rw [Slots.flags, if_neg]
    rw [hes, heg, hsucc, h.entry, h.generation]
    exact ofNat_succ_and_ne k
  have hw := nop_walk_slots hblank
  have hvalid := decodeInstructionsAtEntry_valid h.valid ⟨0x10000, 1⟩
  have hout := congrArg Prod.snd hd
  rw [hw] at hout
  generalize (d.decodeInstructionsAtEntry nopGuest ⟨0x10000, 1⟩).2 = d' at hout hvalid ⊢
  subst hout
  refine ⟨hvalid, hn.trans h.numSlots, heg.trans hsucc, ?_, ?_, ?_, ?_⟩
  · exact stamp_setFlag_and (isGen_and _) isFlag_decodedBit 32
  · intro i hi
    rw [← h.rest i hi, ← hes]
    simp [Slots.setFlag, Slots.setWord, Slots.setMatcher, hi]
  · rw [← h.word, ← hes]
    simp [Slots.setFlag, Slots.setWord, Slots.setMatcher]
  · rw [← h.matcher, ← hes]
    simp [Slots.setFlag, Slots.setWord, Slots.setMatcher]

theorem Stepped.steps (h : Stepped k d) (n : Nat) (hn : k + n + 1 < 2 ^ 32) :
    Stepped (k + n) (d.after nopGuest (List.replicate n ⟨0x10000, 1⟩)) := by
  induction n generalizing k d with
  | zero => exact h
  | succ n ih =>
    rw [List.replicate_succ, Nat.add_comm n 1, ← Nat.add_assoc]
    exact ih (h.step (by omega)) (by omega)

theorem stepped_after (n : Nat) (hn : n + 1 < 2 ^ 32) :
    Stepped n (({} : Decoder).after nopGuest (⟨0x10000, 2⟩ :: List.replicate n ⟨0x10000, 1⟩)) := by
  have h := stepped_zero.steps n (by omega)
  rw [Nat.zero_add] at h
  exact h

theorem region_withGen (d d' : Decoder) (g : Guest) (c : Call) :
    (d.region g c).withGen (d'.generation &&& genMask) = d'.region g c := rfl

/-- What the last call sees: the first unit's second instruction, still stamped 1. -/
def aliasedDecoder : Decoder where
  numSlots := 67
  slots :=
    { stamp := fun i => if i = 33 then 1 ||| decodedBit else 0
      word := fun _ => 0xD503201F
      matcher := fun _ => some nopMatcher }
  generation := BitVec.ofNat 32 (2 ^ 29)

theorem Stepped.sameSlots {d e : Decoder} (h : Stepped (2 ^ 29 - 1) d) (hs : e.slots = d.slots)
    (hg : e.generation = d.generation + 1) : e.SameSlots aliasedDecoder.bump := by
  have hgen : e.generation &&& genMask = 1 := by
    rw [hg, h.generation]
    decide
  have hgen' : aliasedDecoder.bump.generation &&& genMask = 1 := by decide
  have hentry : e.slots.stamp 32 &&& genMask ≠ 1 := by
    rw [hs, h.entry, h.generation]
    decide
  have hst : aliasedDecoder.bump.slots.stamp = fun i => if i = 33 then 1 ||| decodedBit else 0 := rfl
  have hrest : ∀ i, i ≠ 32 → e.slots.stamp i = aliasedDecoder.bump.slots.stamp i := fun i hi => by
    rw [hs, h.rest i hi, hst]
  -- slot 32 carries the previous generation, every other slot what the first unit left
  have hflags : ∀ i, e.slots.flags 1 i = if i = 33 then decodedBit else 0 := by
    intro i
    by_cases hi : i = 32
    · subst hi
      rw [Slots.flags, if_neg hentry]
      rfl
    · rw [Slots.flags, hrest i hi, hst]
      by_cases h33 : i = 33
      · subst h33
        decide
      · simp only [h33]
        decide
  have hflags' : ∀ i, aliasedDecoder.bump.slots.flags 1 i = if i = 33 then decodedBit else 0 := by
    intro i
    rw [Slots.flags, hst]
    by_cases h33 : i = 33
    · subst h33
      decide
    · simp only [h33]
      decide
  have h33 : ∀ i, e.slots.flags 1 i &&& decodedBit ≠ 0 → i = 33 := by
    intro i hi
    by_contra hne
    rw [hflags, if_neg hne] at hi
    exact hi (by decide)
  unfold Decoder.SameSlots
  rw [hgen, hgen']
  refine ⟨fun i => by rw [hflags, hflags'], fun i hi => ?_, fun i hi => ?_⟩
  · rw [h33 i hi, hs, h.word]
    rfl
  · rw [h33 i hi, hs, h.matcher]
    rfl

/-- A single step after `2 ^ 29` units emits two instructions, not one. -/
theorem decode_after_ne_new : ((({} : Decoder).after nopGuest
        (⟨0x10000, 2⟩ :: List.replicate (2 ^ 29 - 1) ⟨0x10000, 1⟩)).decodeInstructionsAtEntry
          nopGuest ⟨0x10000, 1⟩).1 ≠
      (({} : Decoder).decodeInstructionsAtEntry nopGuest ⟨0x10000, 1⟩).1 := by
  have h := stepped_after (2 ^ 29 - 1) (by decide)
  obtain ⟨hsucc, hne⟩ := h.next_ne_zero (by decide)
  obtain ⟨e, hv, -, hes, heg, hd⟩ := nop_single h.valid h.numSlots hne
  have hw := walk_eq (c := ⟨0x10000, 1⟩) (h.sameSlots hes heg) hv (validFor_new _) (.inr (.inr (by decide)))
  have hl := layoutBlocks_eq hw
  intro heq
  have hcount := congrArg BlockInfo.totalInstructionCount heq
  rw [hd] at hcount
  dsimp only at hcount
  rw [hl, region_withGen] at hcount
  revert hcount
  decide

end PowerArm.Decode
