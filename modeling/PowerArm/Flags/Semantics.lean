import PowerArm.Flags.Ir

/-!
# What an IR unit computes

A state is the SSA values, the four flags and the trace of everything that can
be observed outside: register stores, memory and call effects, and the
directions of branches. What the outside answers (a load, a call, a random
number, a value the IR leaves undefined) is a function of that trace and of the
op that asks, so two runs with the same past get the same answers.

A general-register result is truncated to the size of its op.
-/

namespace PowerArm.Flags

abbrev Word := BitVec 64

abbrev Value := BitVec 128

def Value.word (v : Value) : Word := v.setWidth 64

def ofWord (w : Word) : Value := w.setWidth 128

def OpSize.trunc (size : OpSize) (x : Word) : Word := .ofNat 64 (x.toNat % 2 ^ size.bits)

def OpSize.toInt (size : OpSize) (x : Word) : Int := (x.setWidth size.bits).toInt

inductive FpOrder where
  | less | equal | greater | unordered
deriving DecidableEq, Repr

inductive Event where
  | effect (node : Node) (args : List Value)
  | branch (taken : Bool)
  | leave (opcode : Option Nat) (args : List Value)
deriving DecidableEq, Repr

structure Host where
  result : List Event → Node → List Value → Value
  flags : List Event → Node → List Value → NZCV
  fcmp : OpSize → Value → Value → FpOrder
  branch : List Event → CondSource → CondClass → List Value → Bool

structure State where
  env : Nat → Value
  nzcv : NZCV
  trace : List Event

def State.read (s : State) : Arg → Value
  | .ref id => s.env id
  | .inline constant => ofWord constant

/-! ## Conditions and arithmetic -/

def CondClass.holds : CondClass → NZCV → Bool
  | .eq, f => f.z
  | .neq, f => !f.z
  | .uge, f => f.c
  | .ult, f => !f.c
  | .mi, f => f.n
  | .pl, f => !f.n
  | .vs, f | .fu, f => f.v
  | .vc, f | .fnu, f => !f.v
  | .ugt, f => f.c && !f.z
  | .ule, f => !f.c || f.z
  | .sge, f | .fge, f => f.n == f.v
  | .slt, f | .flu, f => f.n != f.v
  | .sgt, f | .fgt, f => !f.z && f.n == f.v
  | .sle, f | .fleu, f => f.z || f.n != f.v
  | .al, _ => true
  | .tstz, _ | .tstnz, _ => false

def addWithCarry (size : OpSize) (x y : Word) (carry : Bool) : Word × NZCV :=
  let w := size.bits
  let a := x.toNat % 2 ^ w
  let b := y.toNat % 2 ^ w
  let sum := a + b + carry.toNat
  let r := sum % 2 ^ w
  let sign (n : Nat) := n.testBit (w - 1)
  (.ofNat 64 r, ⟨sign r, r = 0, 2 ^ w ≤ sum, sign a == sign b && sign r != sign a⟩)

inductive Arith where
  | and | add | sub | adc | adcZero | sbb

def Arith.compute (size : OpSize) (x y : Word) (f : NZCV) : Arith → Word × NZCV
  | .and =>
    let r := size.trunc (x &&& y)
    (r, ⟨r.getLsbD (size.bits - 1), r = 0, false, false⟩)
  | .add => addWithCarry size x y false
  | .sub => addWithCarry size x (~~~y) true
  | .adc => addWithCarry size x y f.c
  | .adcZero => addWithCarry size x 0 (!f.c)
  | .sbb => addWithCarry size x (~~~y) f.c

/-- A compare of two general registers; `none` for the other conditions. -/
def CondClass.compare (size : OpSize) (x y : Word) : CondClass → Option Bool
  | .eq => some (size.trunc x = size.trunc y)
  | .neq => some (size.trunc x ≠ size.trunc y)
  | .ult => some (size.trunc x < size.trunc y)
  | .uge => some (size.trunc y ≤ size.trunc x)
  | .ugt => some (size.trunc y < size.trunc x)
  | .ule => some (size.trunc x ≤ size.trunc y)
  | .slt => some (size.toInt x < size.toInt y)
  | .sge => some (size.toInt y ≤ size.toInt x)
  | .sgt => some (size.toInt y < size.toInt x)
  | .sle => some (size.toInt x ≤ size.toInt y)
  | .tstz => some (!x.getLsbD y.toNat)
  | .tstnz => some (x.getLsbD y.toNat)
  | _ => none

/-! ## Flag ops -/

def shiftCount (size : OpSize) (x : Word) : Nat := x.toNat % if size = .i64Bit then 64 else 32

def OpSize.msb (size : OpSize) (x : Word) : Bool := x.getLsbD (size.bits - 1)

/-- The flags of a variable shift: none change when the count is zero. -/
def shiftFlags (size : OpSize) (shift : ShiftType) (invertCF : Bool) (result src count : Word) (f : NZCV) : NZCV :=
  let n := shiftCount size count
  if n = 0 then f
  else
    let out := if shift = .lsl then n ≤ size.bits && src.getLsbD (size.bits - n)
      else src.getLsbD (n - 1)
    ⟨size.msb result, size.trunc result = 0, out ^^ invertCF, shift ≠ .asr && (size.msb src ^^ size.msb result)⟩

def shiftParity (size : OpSize) (result count parityIn : Word) : Word :=
  if shiftCount size count = 0 then parityIn
  else .ofNat 64 (((List.range 8).countP fun i => result.getLsbD i) % 2)

/-- The flags of a variable rotate: the carry is stored inverted. -/
def rotateFlags (size : OpSize) (left : Bool) (result count : Word) (f : NZCV) : NZCV :=
  if shiftCount size count = 0 then f
  else
    let out := if left then result.getLsbD 0 else size.msb result
    let other := if left then result.getLsbD 0 else result.getLsbD (size.bits - 2)
    { f with c := !out, v := size.msb result ^^ other }

def fcmpFlags : FpOrder → NZCV
  | .less => ⟨true, false, false, false⟩
  | .equal => ⟨false, true, true, false⟩
  | .greater => ⟨false, false, true, false⟩
  | .unordered => ⟨false, false, true, true⟩

def fcmpX86Flags (o : FpOrder) : NZCV :=
  ⟨false, o = .equal || o = .unordered, !(o = .less || o = .unordered), false⟩

def NZCV.ofWord (w : Word) : NZCV := ofNibble (w.toNat / 2 ^ 28)

def NZCV.toWord (f : NZCV) : Word :=
  .ofNat 64 (f.n.toNat * 2 ^ 31 + f.z.toNat * 2 ^ 30 + f.c.toNat * 2 ^ 29 + f.v.toNat * 2 ^ 28)

def NZCV.insert (mask new f : NZCV) : NZCV :=
  ⟨if mask.n then new.n else f.n, if mask.z then new.z else f.z,
    if mask.c then new.c else f.c, if mask.v then new.v else f.v⟩

def pairEqual (size : OpSize) (lo₁ hi₁ lo₂ hi₂ : Word) : Bool :=
  if size = .i32Bit then
    size.trunc lo₁ = size.trunc lo₂ && size.trunc hi₁ = size.trunc hi₂
  else lo₁ = lo₂ && hi₁ = hi₂

def smallNZV (size : OpSize) (x : Word) (f : NZCV) : NZCV :=
  let sign := if size = .i8Bit then 7 else 15
  { f with
    n := x.getLsbD sign
    z := x.toNat % 2 ^ (sign + 1) = 0
    v := x.getLsbD (sign + 1) ^^ x.getLsbD sign }

/-! ## Ops -/

section
variable (h : Host) (trace : List Event) (n : Node) (args : List Value) (f : NZCV)

def word (i : Nat) : Word := (args.getD i 0).word

def Node.value : Value :=
  let x := word args 0
  let y := word args 1
  let arith (a : Arith) := ofWord (a.compute n.size x y f).1
  match n.op with
  | .and | .andWithFlags => arith .and
  | .add | .addWithFlags => arith .add
  | .sub | .subWithFlags => arith .sub
  | .adc | .adcWithFlags => arith .adc
  | .adcZero | .adcZeroWithFlags => arith .adcZero
  | .sbb | .sbbWithFlags => arith .sbb
  | .shiftFlags _ _ => ofWord (shiftParity n.size x (word args 2) (word args 3))
  | .fcmpX86 => ofWord (if h.fcmp n.size (args.getD 0 0) (args.getD 1 0) = .unordered then 0 else 1)
  | .loadNZCV => ofWord f.toWord
  | .nzcvSelect cond => ofWord (n.size.trunc (if cond.holds f then x else y))
  | .nzcvSelectV cond => if cond.holds f then args.getD 0 0 else args.getD 1 0
  | .nzcvSelectIncrement cond => ofWord (n.size.trunc (if cond.holds f then x else y + 1))
  | .neg cond => ofWord (n.size.trunc (if cond.holds f then -x else x))
  | _ => h.result trace n args

def Node.flags : NZCV :=
  let x := word args 0
  let y := word args 1
  let arith (a : Arith) := (a.compute n.size x y f).2
  match n.op with
  | .andWithFlags | .testNZ => arith .and
  | .addWithFlags | .addNZCV => arith .add
  | .subWithFlags | .subNZCV => arith .sub
  | .adcWithFlags | .adcNZCV => arith .adc
  | .adcZeroWithFlags => arith .adcZero
  | .sbbWithFlags | .sbbNZCV => arith .sbb
  | .testZ => { arith .and with n := (h.flags trace n args).n }
  | .shiftFlags shift invertCF => shiftFlags n.size shift invertCF x y (word args 2) f
  | .rotateFlags left => rotateFlags n.size left x y f
  | .rdrand => h.flags trace n args
  | .fcmp => fcmpFlags (h.fcmp n.size (args.getD 0 0) (args.getD 1 0))
  | .fcmpX86 => fcmpX86Flags (h.fcmp n.size (args.getD 0 0) (args.getD 1 0))
  | .storeNZCV => .ofWord x
  | .axFlag => ⟨false, f.z || f.v, f.c && !f.v, false⟩
  | .cmpPairZ => { f with z := pairEqual n.size x y (word args 2) (word args 3) }
  | .carryInvert => { f with c := !f.c }
  | .setSmallNZV => smallNZV n.size x f
  | .condAddNZCV cond falseNZCV => if cond.holds f then arith .add else .ofNibble falseNZCV
  | .condSubNZCV cond falseNZCV => if cond.holds f then arith .sub else .ofNibble falseNZCV
  | .rmifNZCV rotate mask => .insert (.ofNibble mask) (.ofNibble (x.rotateRight rotate).toNat) f
  | .invalidateFlags flags => .insert (.ofNibble (flags / 2 ^ 28)) (h.flags trace n args) f
  | _ => f

end

def IROps.traced : IROps → Bool
  | .storeRegister _ | .rdrand => true
  | .other _ _ sideEffects => sideEffects
  | _ => false

def Node.exec (h : Host) (n : Node) (s : State) : State :=
  let args := n.args.map s.read
  { env := if n.op.hasDest then Function.update s.env n.id (n.value h s.trace args s.nzcv) else s.env
    nzcv := n.flags h s.trace args s.nzcv
    trace := if n.op.traced then s.trace ++ [.effect n args] else s.trace }

def execCode (h : Host) (code : List Node) (s : State) : State := code.foldl (fun s n => n.exec h s) s

/-! ## Blocks and runs -/

/-- A unit about to run a block, or after it has been left; then it is known
whether the flags are dead at the target. -/
inductive Config (k : Nat) where
  | at (block : Fin k) (state : State)
  | left (nzcvDead : Bool) (state : State)

def CondSource.taken (h : Host) (cond : CondClass) (args : List Value) (s : State) : CondSource → Bool
  | .fromNZCV => cond.holds s.nzcv
  | .compare size =>
    (cond.compare size (word args 0) (word args 1)).getD (h.branch s.trace (.compare size) cond args)
  | .other mode => h.branch s.trace (.other mode) cond args

def State.observe (s : State) (e : Event) : State := { s with trace := s.trace ++ [e] }

def Exit.exec (h : Host) (s : State) : Exit k → Config k
  | .jump target => .at target s
  | .condJump source cond args ifTrue ifFalse =>
    let taken := source.taken h cond (args.map s.read) s
    .at (if taken then ifTrue else ifFalse) (s.observe (.branch taken))
  | .exitFunction args nzcvDead => .left nzcvDead (s.observe (.leave none (args.map s.read)))
  | .other opcode args => .left false (s.observe (.leave (some opcode) (args.map s.read)))

def Block.exec (h : Host) (b : Block k) (s : State) : Config k := b.exit.exec h (execCode h b.code s)

def IRUnit.step (h : Host) (u : IRUnit k) : Config k → Config k
  | .at b s => (u b).exec h s
  | .left dead s => .left dead s

def IRUnit.run (h : Host) (u : IRUnit k) (blocks : Nat) (c : Config k) : Config k := (u.step h)^[blocks] c

end PowerArm.Flags
