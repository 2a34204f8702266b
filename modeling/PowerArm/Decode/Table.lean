import PowerArm.Lib.Rearrange

/-!
# The A64 decode table

The rows of `a64.inc`, the build-time generator that lays them out in buckets
(`a64_decode_table_generator.py`) and the lookup that scans one bucket
(`DecodeTable.cpp`). Bitstring parsing is one function here: the generator and
the C++ constant expression spell the same loop. Handler resolution and the
generated file's text layout are not modelled.
-/

namespace PowerArm.Decode

abbrev Word := BitVec 32

structure Inst where
  name : String
  desc : String
  bits : String
deriving BEq, DecidableEq, Repr

structure MaskExpect where
  mask : Word := 0
  expect : Word := 0
deriving BEq, DecidableEq, Repr

/-- Character `i` of a bitstring fixes word bit `31 - i` when it is a digit. -/
def parseBit (out : MaskExpect) (c : Char) (bit : Word) : MaskExpect :=
  if c = '0' then { out with mask := out.mask ||| bit }
  else if c = '1' then ⟨out.mask ||| bit, out.expect ||| bit⟩
  else out

def parseBits (bits : String) : MaskExpect :=
  bits.toList.zipIdx.foldl (fun out (c, i) => parseBit out c (1#32 <<< (31 - i))) {}

def MaskExpect.Matches (m : MaskExpect) (word : Word) : Prop := word &&& m.mask = m.expect

instance (m : MaskExpect) (word : Word) : Decidable (m.Matches word) := inferInstanceAs (Decidable (_ = _))

/-- `mask` and `expect` are those of `bits`, as the constructor derives them. -/
structure Entry where
  raw : Nat
  name : String
  desc : String
  bits : String
  length_bits : bits.length = 32
deriving BEq, DecidableEq

namespace Entry

def maskExpect (e : Entry) : MaskExpect := parseBits e.bits
def mask (e : Entry) : Word := e.maskExpect.mask
def expect (e : Entry) : Word := e.maskExpect.expect
def key (e : Entry) : String × String := (e.name, e.bits)

def ofInst (raw : Nat) (row : Inst) : Except String Entry :=
  if h : row.bits.length = 32 then .ok ⟨raw, row.name, row.desc, row.bits, h⟩
  else .error ("a64.inc entry " ++ row.name ++ " is not 32 bits: '" ++ row.bits ++ "'")

end Entry

def parseInc (rows : List Inst) : Except String (List Entry) :=
  rows.zipIdx.mapM fun (row, raw) => Entry.ofInst raw row

/-! ## Generator -/

def comesFirst : List String :=
  ["MOVI, MVNI, ORR, BIC (vector, immediate)", "FMOV (vector, immediate)", "Unallocated SIMD modified immediate"]

def indexBits : Nat := 14
def indexCount : Nat := 2 ^ indexBits

def fastLookupIndex (word : Word) : Word := (word >>> 10 &&& 0x00F) ||| (word >>> 18 &&& 0x3FF0)

def popcount (word : Word) : Nat := (List.range 32).countP (word.getLsbD ·)

/-- Stable: `insertionSort` keeps rows of equal specificity in table order. -/
def priorityOrder (entries : List Entry) : List Entry :=
  let bySpecificity := entries.insertionSort fun a b => popcount b.mask ≤ popcount a.mask
  bySpecificity.filter (·.desc ∈ comesFirst) ++ bySpecificity.filter (·.desc ∉ comesFirst)

/-- The submask enumeration of `reachable_buckets`. The fuel stands for its
unbounded loop; `sub` falls on every round. -/
def reachableFrom (want free : Word) : Nat → Word → List Word
  | 0, _ => []
  | fuel + 1, sub => (want ||| sub) :: if sub = 0 then [] else reachableFrom want free fuel ((sub - 1) &&& free)

def reachableBuckets (e : Entry) : List Word :=
  let fixed := fastLookupIndex e.mask
  let want := fastLookupIndex e.expect
  let free := ~~~fixed &&& (BitVec.ofNat 32 indexCount - 1)
  reachableFrom want free indexCount free

def appendTo (e : Entry) (buckets : List (List Entry)) (i : Word) : List (List Entry) :=
  buckets.modify i.toNat (· ++ [e])

def buildBuckets (order : List Entry) : List (List Entry) :=
  order.foldl (fun buckets e => (reachableBuckets e).foldl (appendTo e) buckets) (List.replicate indexCount [])

/-- No word matches both entries (`Entry.not_both_match`). -/
def Entry.Disjoint (a b : Entry) : Prop := (a.expect ^^^ b.expect) &&& a.mask &&& b.mask ≠ 0

instance (a b : Entry) : Decidable (a.Disjoint b) := inferInstanceAs (Decidable (_ ≠ _))

abbrev Weights := String × String → Option Int

def Weights.of (weight : Weights) (e : Entry) : Int := (weight e.key).getD 0

def reorderPass (weight : Weights) : List Entry → List Entry × Bool
  | [] => ([], false)
  | [x] => ([x], false)
  | x :: y :: rest =>
    if weight.of x < weight.of y ∧ x.Disjoint y then
      (y :: (reorderPass weight (x :: rest)).1, true)
    else
      let r := reorderPass weight (y :: rest)
      (x :: r.1, r.2)

theorem reorderPass_rearranged (weight : Weights) (b : List Entry) :
    Lib.Rearranged Entry.Disjoint b (reorderPass weight b).1 := by
  fun_induction reorderPass weight b with
  | case1 => exact .nil
  | case2 x => exact .refl _
  | case3 x y rest h ih => exact (Lib.Rearranged.swap h.2).trans (.cons ih)
  | case4 x y rest _ r ih => exact .cons ih

theorem reorderPass_inversions (weight : Weights) (b : List Entry) :
    Lib.inversions weight.of (reorderPass weight b).1 ≤ Lib.inversions weight.of b ∧ ((reorderPass weight b).2 →
        Lib.inversions weight.of (reorderPass weight b).1 < Lib.inversions weight.of b) := by
  fun_induction reorderPass weight b with
  | case1 => simp
  | case2 x => simp
  | case3 x y rest h ih =>
    have hlt := (Lib.inversions_cons_le (reorderPass_rearranged weight (x :: rest)).perm ih.1).trans_lt
      (Lib.inversions_swap_lt h.1)
    exact ⟨hlt.le, fun _ => hlt⟩
  | case4 x y rest _ r ih =>
    have hp := (reorderPass_rearranged weight (y :: rest)).perm
    exact ⟨Lib.inversions_cons_le hp ih.1, fun hs => Lib.inversions_cons_lt hp (ih.2 hs)⟩

/-- The `while swapped` loop. Each pass that swaps leaves fewer inversions. -/
def reorderByWeight (weight : Weights) (bucket : List Entry) : List Entry :=
  let r := reorderPass weight bucket
  if r.2 then reorderByWeight weight r.1 else r.1
termination_by Lib.inversions weight.of bucket
decreasing_by exact (reorderPass_inversions weight bucket).2 ‹_›

/-- The generated arrays, `A64DecodeBucketStart` and `A64DecodeSlot`. -/
structure Generated where
  bucketStart : List UInt16
  slot : List UInt16

def layout (buckets : List (List Entry)) : List Nat × List Nat :=
  buckets.foldl (fun (starts, slots) b =>
      let slots := slots ++ b.map (·.raw)
      (starts ++ [slots.length], slots))
    ([0], [])

def buckets (weight : Weights) (entries : List Entry) : List (List Entry) :=
  (buildBuckets (priorityOrder entries)).map (reorderByWeight weight)

def generate (rows : List Inst) (weight : Weights) : Except String Generated := do
  let entries ← parseInc rows
  let (starts, slots) := layout (buckets weight entries)
  if 0xFFFF < slots.length then
    throw (toString slots.length ++ " bucket slots does not fit a uint16_t")
  return ⟨starts.map UInt16.ofNat, slots.map UInt16.ofNat⟩

/-! ## Lookup -/

structure InstMatcher where
  name : String
  mask : Word
  expect : Word
  rawIndex : Nat
deriving BEq, DecidableEq, Repr

def matchers (rows : List Inst) : List InstMatcher :=
  rows.zipIdx.map fun (row, index) => ⟨row.name, (parseBits row.bits).mask, (parseBits row.bits).expect, index⟩

def scanSlot (rows : List Inst) (table : Generated) (slot : Nat) : Option MaskExpect := do
  let entry ← table.slot[slot]?
  let row ← rows[entry.toNat]?
  return parseBits row.bits

/-- The scan of one bucket. The outer `none` is a read outside an array, or
the fuel running out; the inner one is the null matcher. -/
def scan (rows : List Inst) (table : Generated) (word : Word) (stop : Nat) : Nat → Nat → Option (Option InstMatcher)
  | 0, _ => none
  | fuel + 1, slot =>
    if slot = stop then some none
    else do
      let m ← scanSlot rows table slot
      if m.Matches word then
        let entry ← table.slot[slot]?
        let matcher ← (matchers rows)[entry.toNat]?
        return some matcher
      else scan rows table word stop fuel (slot + 1)

def decodeInstruction (rows : List Inst) (table : Generated) (word : Word) : Option (Option InstMatcher) := do
  let index := (fastLookupIndex word).toNat
  let stop ← table.bucketStart[index + 1]?
  let start ← table.bucketStart[index]?
  scan rows table word stop.toNat (table.slot.length + 1) start.toNat

end PowerArm.Decode
