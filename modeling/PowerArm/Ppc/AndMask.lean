import PowerArm.Ppc.LoadImmLaws

/-!
# AND with a constant

`ClassifyAndMask` finds the rotate-and-mask form of a constant mask, `EmitAndMask`
emits it. At 32 bits the upper half of the mask is free, and of its two completions
the cheaper one is taken. Register 0 is the pinned zero of the code generator.
-/

namespace PowerArm.Ppc

/-! ## Classification -/

inductive AndMaskKind
  | none | zero | move | clearLeft | clearRight | word | insertZeroField | clearBoth
deriving DecidableEq, Repr

structure AndMaskForm where
  kind : AndMaskKind := .none
  mb : Nat := 0
  me : Nat := 0
  sh : Nat := 0
deriving DecidableEq, Repr

def isRun {w : Nat} (v : BitVec w) : Bool := v != 0 && decide (v.cpop.toNat + v.clz.toNat + v.ctz.toNat = w)

def countrOne (v : BitVec 64) : Nat := (~~~v).ctz.toNat

def classifyAndMask64 (m : BitVec 64) (allowWord : Bool) : AndMaskForm :=
  let w := m.setWidth 32
  let z := ~~~m
  if m = 0 then ⟨.zero, 0, 0, 0⟩
  else if m = BitVec.allOnes 64 then ⟨.move, 0, 0, 0⟩
  else if m &&& (m + 1) = 0 then ⟨.clearLeft, 64 - countrOne m, 0, 0⟩
  else if z &&& (z + 1) = 0 then ⟨.clearRight, 0, 63 - countrOne z, 0⟩
  else if allowWord ∧ m ≤ 0xFFFFFFFF ∧ isRun w then
    let lo := w.ctz.toNat
    let hi := 31 - w.clz.toNat
    ⟨.word, 31 - hi, 31 - lo, 0⟩
  else if isRun z then
    let lo := z.ctz.toNat
    let hi := 63 - z.clz.toNat
    ⟨.insertZeroField, 63 - hi, 0, lo⟩
  else if isRun m then
    let lo := m.ctz.toNat
    let hi := 63 - m.clz.toNat
    ⟨.clearBoth, 63 - hi, 63 - lo, 0⟩
  else {}

def andMaskCost : AndMaskKind → Nat
  | .none => 99
  | .zero | .move | .clearLeft | .clearRight | .word => 1
  | .insertZeroField | .clearBoth => 2

def classifyAndMask (m : BitVec 64) (is32Bit : Bool) : AndMaskForm :=
  if !is32Bit then classifyAndMask64 m false
  else
    let clear := classifyAndMask64 (m &&& 0xFFFFFFFF) true
    let keep := classifyAndMask64 (m ||| 0xFFFFFFFF00000000) false
    if andMaskCost keep.kind < andMaskCost clear.kind then keep else clear

/-- `ConstMaskHighZero` of the mask elision reads the upper half off the kind: these
leave the source's, the others clear it. -/
def AndMaskKind.keepsHigh : AndMaskKind → Bool
  | .move | .clearRight | .insertZeroField => true
  | .none | .zero | .clearLeft | .word | .clearBoth => false

/-! ## Instructions -/

inductive RotInsn
  | li (rt : BitVec 5) (si : BitVec 16)
  | mr (ra rs : BitVec 5)
  | rldicl (ra rs : BitVec 5) (sh mb : Nat)
  | rldicr (ra rs : BitVec 5) (sh me : Nat)
  | rlwinm (ra rs : BitVec 5) (sh mb me : Nat)
  | rldimi (ra rs : BitVec 5) (sh mb : Nat)
deriving DecidableEq, Repr

/-- The fields fit: six bits for the doubleword forms, five for the word form. -/
def RotInsn.Encodable : RotInsn → Prop
  | .li .. | .mr .. => True
  | .rldicl _ _ sh m | .rldicr _ _ sh m | .rldimi _ _ sh m => sh < 64 ∧ m < 64
  | .rlwinm _ _ sh mb me => sh < 32 ∧ mb < 32 ∧ me < 32

def rotl32 (v : BitVec 64) (sh : Nat) : BitVec 64 :=
  let word := (v.setWidth 32).rotateLeft sh
  (word ++ word : BitVec 64)

def RotInsn.exec (g : Regs) : RotInsn → Regs
  | .li rt si => g.set rt (si.signExtend 64)
  | .mr ra rs => g.set ra (g rs)
  | .rldicl ra rs sh mb => g.set ra ((g rs).rotateLeft sh &&& mask mb 63)
  | .rldicr ra rs sh me => g.set ra ((g rs).rotateLeft sh &&& mask 0 me)
  | .rlwinm ra rs sh mb me => g.set ra (rotl32 (g rs) sh &&& mask (mb + 32) (me + 32))
  | .rldimi ra rs sh mb =>
    let m := mask mb (63 - sh)
    g.set ra ((g rs).rotateLeft sh &&& m ||| g ra &&& ~~~m)

def emitAndMask (dst s1 : BitVec 5) (form : AndMaskForm) : Option (List RotInsn) :=
  let prime := if dst ≠ s1 then [RotInsn.mr dst s1] else []
  match form.kind with
  | .none => none
  | .zero => some [.li dst 0]
  | .move => some prime
  | .clearLeft => some [.rldicl dst s1 0 form.mb]
  | .clearRight => some [.rldicr dst s1 0 form.me]
  | .word => some [.rlwinm dst s1 0 form.mb form.me]
  | .insertZeroField => some (prime ++ [.rldimi dst 0 form.sh form.mb])
  | .clearBoth => some [.rldicl dst s1 0 form.mb, .rldicr dst dst 0 form.me]

end PowerArm.Ppc
