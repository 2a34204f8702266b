import Mathlib

/-!
# The code-granule bitmap

`CodeGranuleBitmap`: one bit for each 64-byte granule of guest memory, one word
for each page, found through a three-level radix over a 48-bit address. Interior
nodes and leaves are allocated when a page is first marked, and an allocation
may fail.
-/

namespace PowerArm.Lookup

def pageSize : Nat := 4096

abbrev PageWord := BitVec 64

abbrev Leaf := Nat → PageWord
abbrev L1Node := Nat → Option Leaf
abbrev L0Node := Nat → Option L1Node

/-- `allLeaves` names the leaves by their places. -/
structure CodeGranuleBitmap where
  root : Option L0Node := none
  allLeaves : List (Nat × Nat) := []

namespace CodeGranuleBitmap

def leafBits : Nat := 10
def l1Bits : Nat := 13
def l0Bits : Nat := 13

def maxAddress : Nat := 2 ^ 48

def l0Index (addr : BitVec 64) : Nat := addr.toNat / 2 ^ 35 % 2 ^ l0Bits
def l1Index (addr : BitVec 64) : Nat := addr.toNat / 2 ^ 22 % 2 ^ l1Bits
def wordIndex (addr : BitVec 64) : Nat := addr.toNat / pageSize % 2 ^ leafBits

structure Alloc where
  node : Bool
  leaf : Bool
deriving DecidableEq, Repr

def enable (root : Bool) : CodeGranuleBitmap := { root := if root then some fun _ => none else none }

/-! ## Masks -/

def bitRangeMask (firstBit lastBit : Nat) : PageWord :=
  let count := lastBit - firstBit + 1
  let base : PageWord := if 64 ≤ count then BitVec.allOnes 64 else (1#64 <<< count) - 1#64
  base <<< firstBit

/-- The bits that `[start, start + length)` occupies inside the page. An unknown
extent, or one beside the page, covers all of it. -/
def pageMaskFor (pageBase start length : BitVec 64) : PageWord :=
  if length = 0 then BitVec.allOnes 64
  else
    let pageEnd := pageBase + BitVec.ofNat 64 pageSize
    let lo := if pageBase < start then start else pageBase
    let hiExcl := if start + length < pageEnd then start + length else pageEnd
    if hiExcl ≤ lo then BitVec.allOnes 64
    else bitRangeMask ((lo - pageBase).toNat / 64) ((hiExcl - 1 - pageBase).toNat / 64)

/-! ## Leaves -/

def findLeafFrom (r : L0Node) (addr : BitVec 64) : Option Leaf :=
  (r (l0Index addr)).bind fun node => node (l1Index addr)

variable (b : CodeGranuleBitmap)

def findLeaf (addr : BitVec 64) : Option Leaf :=
  b.root.bind fun r => if maxAddress ≤ addr.toNat then none else findLeafFrom r addr

def getOrCreateNode (r : L0Node) (addr : BitVec 64) (alloc : Bool) : Option L1Node :=
  match r (l0Index addr) with
  | some node => some node
  | none => if alloc then some fun _ => none else none

def setLeaf (r : L0Node) (node : L1Node) (addr : BitVec 64) (leaf : Option Leaf) : L0Node :=
  Function.update r (l0Index addr) (some (Function.update node (l1Index addr) leaf))

/-- The leaf of an address; a node that was allocated stays when the leaf fails. -/
def getOrCreateLeaf (addr : BitVec 64) (alloc : Alloc) : CodeGranuleBitmap × Option Leaf :=
  match b.root with
  | none => (b, none)
  | some r =>
    if maxAddress ≤ addr.toNat then (b, none)
    else
      match getOrCreateNode r addr alloc.node with
      | none => (b, none)
      | some node =>
        match node (l1Index addr) with
        | some leaf => ({ b with root := some (setLeaf r node addr (some leaf)) }, some leaf)
        | none =>
          if alloc.leaf then
            let leaf : Leaf := fun _ => 0
            ({ root := some (setLeaf r node addr (some leaf))
               allLeaves := b.allLeaves ++ [(l0Index addr, l1Index addr)] }, some leaf)
          else ({ b with root := some (setLeaf r node addr none) }, none)

def storeWord (addr : BitVec 64) (word : PageWord) : CodeGranuleBitmap :=
  { b with
    root := b.root.map fun r i0 => (r i0).map fun node i1 => (node i1).map fun leaf i =>
      if i0 = l0Index addr ∧ i1 = l1Index addr ∧ i = wordIndex addr then word else leaf i }

/-! ## Writers -/

def setPageRange (pageBase start length : BitVec 64) (alloc : Alloc) : CodeGranuleBitmap :=
  match b.getOrCreateLeaf pageBase alloc with
  | (b, none) => b
  | (b, some leaf) => b.storeWord pageBase (leaf (wordIndex pageBase) ||| pageMaskFor pageBase start length)

def recomputePageWord (pageBase : BitVec 64) (word : PageWord) : CodeGranuleBitmap :=
  match b.findLeaf pageBase with
  | none => b
  | some _ => b.storeWord pageBase word

def clearPage (pageBase : BitVec 64) : CodeGranuleBitmap := b.recomputePageWord pageBase 0

def clearAll : CodeGranuleBitmap :=
  { b with
    root := b.root.map fun r i0 => (r i0).map fun node i1 => (node i1).map fun leaf i =>
      if (i0, i1) ∈ b.allLeaves then 0 else leaf i }

/-! ## The reader -/

def pageClear (r : L0Node) (start endAddr pageBase : BitVec 64) : Bool :=
  match findLeafFrom r pageBase with
  | none => true
  | some leaf =>
    let word := leaf (wordIndex pageBase)
    let pageEnd := pageBase + BitVec.ofNat 64 pageSize
    let lo := if pageBase < start then start else pageBase
    let hiExcl := if endAddr < pageEnd then endAddr else pageEnd
    word = 0 || word &&& bitRangeMask ((lo - pageBase).toNat / 64) ((hiExcl - 1 - pageBase).toNat / 64) = 0

def provablyClear (start length : BitVec 64) : Bool :=
  match b.root with
  | none => false
  | some r =>
    if length = 0 then false
    else
      let endAddr := start + length
      if endAddr < start ∨ maxAddress < endAddr.toNat then false
      else
        let firstPage := start.toNat / pageSize
        let lastPage := (endAddr - 1).toNat / pageSize
        if 3 < lastPage - firstPage then false
        else (List.range' firstPage (lastPage - firstPage + 1)).all fun page =>
          pageClear r start endAddr (BitVec.ofNat 64 (page * pageSize))

end CodeGranuleBitmap

end PowerArm.Lookup
