import PowerArm.Utils.Vl64pair

/-!
# The walk finds the guest address

Each of the four formats is read back as it was written, whatever follows
(`decode_encode`): the header bits of the first byte keep them apart. The walk then adds
up what the loop took apart, and stops at the last entry that is not above the host
address (`walk_publish`).
-/

namespace PowerArm.Utils

open Lib (toBytes ofBytes ofBytes_toBytes signExtend_setWidth_of_range)

namespace Vl64pair

variable {arm rip : BitVec 64}

/-! ## The fields of a byte -/

theorem vl8_fields (r : BitVec 3) (a : BitVec 4) :
    (0#1 ++ r ++ a).extractLsb' 7 1 = 0 ∧ (0#1 ++ r ++ a).extractLsb' 4 3 = r ∧
      (0#1 ++ r ++ a).extractLsb' 0 4 = a := by
  revert r a
  decide

theorem vl16_fields (r : BitVec 6) : (0b10#2 ++ r).extractLsb' 7 1 ≠ 0 ∧ (0b10#2 ++ r).extractLsb' 6 2 = 0b10 ∧
      (0b10#2 ++ r).extractLsb' 0 6 = r := by
  revert r
  decide

theorem toNat_of_aligned (h : arm &&& 3 = 0) : arm.toNat % 4 = 0 := by
  have hmask : (arm &&& 3).toNat = arm.toNat % 4 := by exact Nat.and_two_pow_sub_one_eq_mod _ 2
  rw [← hmask, h]
  rfl

/-! ## The four formats -/

theorem decode_vl8 (h : canEncodeVl8 arm rip) (rest : List (BitVec 8)) :
    decode ((0#1 ++ (rip - 1).setWidth 3 ++ ((arm - 1) >>> 2).setWidth 4) :: rest) = ⟨arm, rip, 1⟩ := by
  simp only [canEncodeVl8, decide_eq_true_eq] at h
  obtain ⟨hlow, hhigh, haligned, hmin, hmax⟩ := h
  obtain ⟨htype, hrip, harm⟩ := vl8_fields ((rip - 1).setWidth 3) (((arm - 1) >>> 2).setWidth 4)
  have hmod := toNat_of_aligned haligned
  have hlt : (arm >>> 2).toNat = arm.toNat / 4 := by rw [BitVec.toNat_ushiftRight, Nat.shiftRight_eq_div_pow]
  have hnonneg : (arm >>> 2).toInt = arm.toNat / 4 := by
    rw [BitVec.toInt_eq_toNat_of_lt (by omega), hlt]
    rfl
  have hone : (1 : BitVec 64).toNat = 1 := rfl
  simp only [decode, List.headD_cons, htype, harm, if_true]
  congr 1
  · apply BitVec.eq_of_toNat_eq
    simp only [BitVec.toNat_shiftLeft, BitVec.toNat_add, BitVec.toNat_setWidth, BitVec.toNat_ushiftRight,
      BitVec.toNat_sub, Nat.shiftLeft_eq]
    omega
  · bv_omega

theorem toInt_of_aligned (h : arm &&& 3 = 0) : arm.toInt % 4 = 0 := by
  have hmod := toNat_of_aligned h
  rw [BitVec.toInt_eq_toNat_cond]
  split
  · omega
  · omega

theorem arm_vl16 (haligned : arm &&& 3 = 0) (hmin : -128 ≤ (arm.sshiftRight 2).toInt)
    (hmax : (arm.sshiftRight 2).toInt ≤ 127) :
    (((arm.sshiftRight 2).setWidth 8).signExtend 32 <<< 2).signExtend 64 = arm := by
  have hmod := toInt_of_aligned haligned
  have hshift : (arm.sshiftRight 2).toInt = arm.toInt / 4 := by
    rw [BitVec.toInt_sshiftRight, Int.shiftRight_eq_div_pow]
    rfl
  have hbyte : ((arm.sshiftRight 2).setWidth 8).toInt = arm.toInt / 4 := by
    have hback := signExtend_setWidth_of_range (k := 8) (by decide) (by decide) hmin (by omega)
    rw [← hshift]
    conv_rhs => rw [← hback]
    rw [BitVec.toInt_signExtend_of_le (by decide)]
  apply BitVec.eq_of_toInt_eq
  rw [BitVec.toInt_signExtend_of_le (by decide), BitVec.shiftLeft_eq_mul_twoPow, BitVec.toInt_mul,
    BitVec.toInt_signExtend_of_le (by decide), hbyte]
  have hfour : (BitVec.twoPow 32 2).toInt = 4 := by decide
  rw [hfour, Int.ediv_mul_cancel (Int.dvd_of_emod_eq_zero hmod)]
  apply Int.bmod_eq_of_le_mul_two
  · omega
  · omega

theorem decode_vl16 (h : canEncodeVl16 arm rip) (rest : List (BitVec 8)) :
    decode ((0b10#2 ++ rip.setWidth 6) :: (arm.sshiftRight 2).setWidth 8 :: rest) = ⟨arm, rip, 2⟩ := by
  simp only [canEncodeVl16, decide_eq_true_eq] at h
  obtain ⟨hlow, hhigh, haligned, hmin, hmax⟩ := h
  obtain ⟨htype, hheader, hrip⟩ := vl16_fields (rip.setWidth 6)
  have harm := arm_vl16 haligned hmin hmax
  have hback : (rip.setWidth 6).signExtend 64 = rip :=
    signExtend_setWidth_of_range (by decide) (by decide) hlow (by omega)
  simp only [decode, List.headD_cons, htype, hheader, hrip, hback, List.getD_cons_succ,
    List.getD_cons_zero, harm, if_false, if_true]

theorem take_words (n : Nat) (x y : BitVec w) (rest : List (BitVec 8)) :
    (toBytes n x ++ toBytes n y ++ rest).take n = toBytes n x ∧
      ((toBytes n x ++ toBytes n y ++ rest).drop n).take n = toBytes n y := by
  rw [List.append_assoc, List.take_left' (Lib.length_toBytes n x),
    List.drop_left' (Lib.length_toBytes n x), List.take_left' (Lib.length_toBytes n y)]
  exact ⟨rfl, rfl⟩

theorem decode_vl32 (h : canEncodeVl32 arm rip) (rest : List (BitVec 8)) :
    decode (vl32Header :: (toBytes 4 (arm.setWidth 32) ++ toBytes 4 (rip.setWidth 32)) ++ rest) =
      ⟨arm, rip, 9⟩ := by
  simp only [canEncodeVl32, decide_eq_true_eq] at h
  obtain ⟨hlow, hhigh, hmin, hmax⟩ := h
  have htype : vl32Header.extractLsb' 7 1 ≠ 0 ∧ vl32Header.extractLsb' 6 2 ≠ 0b10 := by decide
  have harm : (arm.setWidth 32).signExtend 64 = arm :=
    signExtend_setWidth_of_range (by decide) (by decide) hmin hmax
  have hrip : (rip.setWidth 32).signExtend 64 = rip :=
    signExtend_setWidth_of_range (by decide) (by decide) hlow hhigh
  have hwords := take_words 4 (arm.setWidth 32) (rip.setWidth 32) rest
  simp only [decode, List.cons_append, List.headD_cons, htype, List.drop_succ_cons, List.drop_zero,
    if_false, if_true, hwords, ofBytes_toBytes _ (show 32 ≤ 8 * 4 by decide), harm, hrip]

theorem decode_vl64 (arm rip : BitVec 64) (rest : List (BitVec 8)) :
    decode (vl64Header :: (toBytes 8 arm ++ toBytes 8 rip) ++ rest) = ⟨arm, rip, 17⟩ := by
  have htype : vl64Header.extractLsb' 7 1 ≠ 0 ∧ vl64Header.extractLsb' 6 2 ≠ 0b10 ∧
      vl64Header ≠ vl32Header := by decide
  have hwords := take_words 8 arm rip rest
  simp only [decode, List.cons_append, List.headD_cons, htype, List.drop_succ_cons, List.drop_zero,
    if_false, hwords, ofBytes_toBytes _ (show 64 ≤ 8 * 8 by decide)]

theorem decode_encode (arm rip : BitVec 64) (rest : List (BitVec 8)) :
    decode (encode arm rip ++ rest) = ⟨arm, rip, (encode arm rip).length⟩ := by
  unfold encode
  split
  next h => exact decode_vl8 h rest
  next =>
    split
    next h => exact decode_vl16 h rest
    next =>
      split
      next h =>
        rw [decode_vl32 h rest]
        simp
      next =>
        rw [decode_vl64]
        simp

theorem length_encode_le (arm rip : BitVec 64) : (encode arm rip).length ≤ 17 := by
  unfold encode
  split
  · simp
  · split
    · simp
    · split
      · simp
      · simp

end Vl64pair

/-! ## The walk -/

theorem length_encodeEntries_le (pc rip : BitVec 64) (opcodes : List DebugDataGuestOpcode) :
    (encodeEntries pc rip opcodes).length ≤ opcodes.length * 17 := by
  induction opcodes generalizing pc rip with
  | nil => simp [encodeEntries]
  | cons g opcodes ih =>
    have hfirst := Vl64pair.length_encode_le (g.hostEntryOffset - pc) (g.ripOffset - rip)
    have hrest := ih g.hostEntryOffset g.ripOffset
    simp only [encodeEntries, List.length_append, List.length_cons]
    omega

theorem le_entrySpace (scratch : Nat) (opcodes : List DebugDataGuestOpcode) :
    opcodes.length * 17 ≤ entrySpace scratch opcodes := by
  unfold entrySpace
  dsimp only
  split
  · split
    · exact Nat.le_refl _
    · omega
  · omega

def Ascending (opcodes : List DebugDataGuestOpcode) : Prop :=
  opcodes.Pairwise fun g g' => g.hostEntryOffset ≤ g'.hostEntryOffset

def lastEntry (opcodes : List DebugDataGuestOpcode) (offset : BitVec 64) : Option DebugDataGuestOpcode :=
  (opcodes.filter fun g => g.hostEntryOffset ≤ offset).getLast?

theorem lastEntry_cons_of_le (h : g.hostEntryOffset ≤ offset) (opcodes : List DebugDataGuestOpcode) :
    lastEntry (g :: opcodes) offset = some ((lastEntry opcodes offset).getD g) := by
  simp [lastEntry, h, List.getLast?_cons]

theorem lastEntry_eq_none (hasc : Ascending (g :: opcodes)) (h : ¬g.hostEntryOffset ≤ offset) :
    lastEntry (g :: opcodes) offset = none := by
  have hafter : ∀ g' ∈ opcodes, ¬g'.hostEntryOffset ≤ offset := fun g' hg' hle =>
    h (BitVec.le_trans ((List.pairwise_cons.mp hasc).1 g' hg') hle)
  simpa [lastEntry, h] using hafter

theorem walkEntries_encode (hpc : blockBegin ≤ hostPC)
    (opcodes : List DebugDataGuestOpcode) (hasc : Ascending opcodes)
    (hblock : ∀ g ∈ opcodes, blockBegin.toNat + g.hostEntryOffset.toNat < 2 ^ 64)
    (pc rip : BitVec 64) (rest : List (BitVec 8)) :
    walkEntries hostPC opcodes.length (encodeEntries pc rip opcodes ++ rest) (blockBegin + pc) (entry + rip) =
      entry + ((lastEntry opcodes (hostPC - blockBegin)).map (·.ripOffset)).getD rip := by
  induction opcodes generalizing pc rip with
  | nil => rfl
  | cons g opcodes ih =>
    obtain ⟨hg, hblock⟩ := List.forall_mem_cons.mp hblock
    have hhost : blockBegin + pc + (g.hostEntryOffset - pc) = blockBegin + g.hostEntryOffset := by bv_omega
    have hguest : entry + rip + (g.ripOffset - rip) = entry + g.ripOffset := by bv_omega
    have hreached : blockBegin + g.hostEntryOffset ≤ hostPC ↔ g.hostEntryOffset ≤ hostPC - blockBegin := by bv_omega
    simp only [List.length_cons, encodeEntries, walkEntries, List.append_assoc, Vl64pair.decode_encode,
      hhost, hguest, List.drop_left, hreached]
    split
    next hle =>
      rw [ih (List.pairwise_cons.mp hasc).2 hblock, lastEntry_cons_of_le hle]
      cases lastEntry opcodes (hostPC - blockBegin) with
      | none => rfl
      | some g' => rfl
    next habove =>
      rw [lastEntry_eq_none hasc habove]
      rfl

def Fits (g : DebugDataGuestOpcode) : Prop := -2 ^ 31 ≤ g.guestEntryOffset.toInt ∧ g.guestEntryOffset.toInt < 2 ^ 31

theorem Fits.ripOffset (h : Fits g) : g.ripOffset = g.guestEntryOffset :=
  signExtend_setWidth_of_range (by decide) (by decide) h.1 h.2

/-- The walk over the table of a unit gives the entry's guest address moved by the
offset of the last opcode at or below the host address. -/
theorem walk_publish (entry blockBegin hostPC : BitVec 64) (opcodes : List DebugDataGuestOpcode)
    (rest : List (BitVec 8)) (scratch : Nat) (hasc : Ascending opcodes) (hguest : ∀ g ∈ opcodes, Fits g)
    (hcount : opcodes.length < 2 ^ 32) (hblock : ∀ g ∈ opcodes, blockBegin.toNat + g.hostEntryOffset.toNat < 2 ^ 64)
    (hpc : blockBegin ≤ hostPC) : walkBlockRIPTable blockBegin (publishRIPTable entry opcodes rest) hostPC =
        entry + ((lastEntry opcodes (hostPC - blockBegin)).map (·.guestEntryOffset)).getD 0 ∧
      (encodeEntries 0 0 opcodes).length ≤ entrySpace scratch opcodes := by
  refine ⟨?_, Nat.le_trans (length_encodeEntries_le 0 0 opcodes) (le_entrySpace scratch opcodes)⟩
  have hwalk : walkEntries hostPC opcodes.length (encodeEntries 0 0 opcodes ++ rest) (blockBegin + 0#64)
      (entry + 0#64) = _ := walkEntries_encode hpc opcodes hasc hblock 0 0 rest
  have hnumber : (BitVec.ofNat 32 opcodes.length).toNat = opcodes.length := by
    rw [BitVec.toNat_ofNat, Nat.mod_eq_of_lt hcount]
  simp only [walkBlockRIPTable, publishRIPTable, hnumber]
  rw [BitVec.add_zero, BitVec.add_zero] at hwalk
  rw [hwalk]
  cases hlast : lastEntry opcodes (hostPC - blockBegin) with
  | none => rfl
  | some g =>
    have hmem : g ∈ opcodes := (List.mem_filter.mp (List.mem_of_getLast? hlast)).1
    simp [(hguest g hmem).ripOffset]

def loopOpcodes : List DebugDataGuestOpcode := [⟨0, 0⟩, ⟨-64, 12⟩, ⟨0x7FFFFFFC, 600⟩]

theorem walk_publish_loopOpcodes :
    walkBlockRIPTable 0x10000 (publishRIPTable 0x400000 loopOpcodes []) 0x10010 = 0x3FFFC0 := by
  have hfits : ∀ g ∈ loopOpcodes, Fits g := by
    unfold Fits
    decide
  have hasc : Ascending loopOpcodes := by
    unfold Ascending
    decide
  exact (walk_publish 0x400000 0x10000 0x10010 loopOpcodes [] 0 hasc hfits (by decide) (by decide) (by decide)).1

theorem lastEntry_replicate (hn : n ≠ 0) (h : g.hostEntryOffset ≤ offset) :
    lastEntry (List.replicate n g) offset = some g := by
  simp [lastEntry, h, List.getLast?_replicate, hn]

/-- A table of 2^32 entries counts none, and a block at the top of the address space has
an entry whose address wraps. -/
theorem walk_wraps : (∃ opcodes, Ascending opcodes ∧ (∀ g ∈ opcodes, Fits g) ∧
      (∀ g ∈ opcodes, (0x10000 : BitVec 64).toNat + g.hostEntryOffset.toNat < 2 ^ 64) ∧
      walkBlockRIPTable 0x10000 (publishRIPTable 0x400000 opcodes []) 0x10000 ≠
        0x400000 + ((lastEntry opcodes 0).map (·.guestEntryOffset)).getD 0) ∧
    walkBlockRIPTable 0xFFFFFFFFFFFFFFF0 (publishRIPTable 0x400000 [⟨4, 32⟩] []) 0xFFFFFFFFFFFFFFF0 ≠
      0x400000 + ((lastEntry [⟨4, 32⟩] 0).map (·.guestEntryOffset)).getD 0 := by
  refine ⟨⟨List.replicate (2 ^ 32) ⟨4, 0⟩, ?_, ?_, ?_, ?_⟩, by decide⟩
  · exact List.pairwise_replicate.mpr (.inr (BitVec.le_refl _))
  · intro g hg
    obtain rfl := List.eq_of_mem_replicate hg
    exact ⟨by decide, by decide⟩
  · intro g hg
    obtain rfl := List.eq_of_mem_replicate hg
    decide
  · have hnumber : (BitVec.ofNat 32 (2 ^ 32)).toNat = 0 := by decide
    rw [lastEntry_replicate (by decide) (BitVec.le_refl _)]
    simp only [publishRIPTable, List.length_replicate]
    decide

end PowerArm.Utils
