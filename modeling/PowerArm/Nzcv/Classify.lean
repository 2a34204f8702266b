import PowerArm.Decode.Table
import PowerArm.Lib.Pattern

/-!
# What an A64 word does to NZCV

`ClassifyWordImpl` of the exit census, as it tests the word, and next to it the
rows of `a64.inc` that use the flags or move the PC with what they do. The two
are compared in `ClassifyLaws`.
-/

namespace PowerArm.Nzcv

open Decode (Word parseBits)
open Lib (Pattern)

/-! ## ClassifyWordImpl -/

inductive WordClass
  | neutral | reader | writer | partialWriter | branch | twoway | call | svc | ret | term
deriving DecidableEq, Repr

/-- The class and, for `branch`, `twoway` and `call`, the displacement in bytes. -/
structure Classified where
  kind : WordClass
  offset : BitVec 64 := 0
deriving DecidableEq, Repr

def signExtend (value : BitVec 32) (bits : Nat) : BitVec 64 :=
  let sign : BitVec 32 := 1#32 <<< (bits - 1)
  ((value ^^^ sign) - sign).signExtend 64

def classifyWord (i : Word) : Classified :=
  -- branches, exception generation and system registers
  if i >>> 26 = 0b000101 then ⟨.branch, signExtend (i &&& 0x3FFFFFF) 26 * 4⟩
  else if i >>> 26 = 0b100101 then ⟨.call, signExtend (i &&& 0x3FFFFFF) 26 * 4⟩
  else if i >>> 24 &&& 0xFF = 0x54 then ⟨.reader, 0⟩
  else if i >>> 24 &&& 0x7F = 0x34 ∨ i >>> 24 &&& 0x7F = 0x35 then
    ⟨.twoway, signExtend (i >>> 5 &&& 0x7FFFF) 19 * 4⟩
  else if i >>> 24 &&& 0x7F = 0x36 ∨ i >>> 24 &&& 0x7F = 0x37 then
    ⟨.twoway, signExtend (i >>> 5 &&& 0x3FFF) 14 * 4⟩
  else if i >>> 25 &&& 0x7F = 0b1101011 then
    if i >>> 21 &&& 0xF = 0b0010 ∨ i >>> 21 &&& 0xF = 0b0100 ∨ i >>> 21 &&& 0xF = 0b0101 then ⟨.ret, 0⟩
    else ⟨.term, 0⟩
  else if i >>> 24 &&& 0xFF = 0xD4 then
    if i &&& 0xFFE0001F = 0xD4000001 then ⟨.svc, 0⟩ else ⟨.term, 0⟩
  else if i &&& 0xFFFFFFE0 = 0xD53B4200 then ⟨.reader, 0⟩
  else if i &&& 0xFFFFFFE0 = 0xD51B4200 then ⟨.writer, 0⟩
  else if i = 0xD500401F ∨ i = 0xD500403F ∨ i = 0xD500405F then ⟨.partialWriter, 0⟩
  -- data processing, register
  else if i >>> 21 &&& 0xFF = 0b11010000 then ⟨.reader, 0⟩
  else if i >>> 21 &&& 0xFF = 0b11010010 then ⟨.reader, 0⟩
  else if i >>> 21 &&& 0xFF = 0b11010100 then ⟨.reader, 0⟩
  else if i >>> 24 &&& 0x1F = 0b01011 then
    if i >>> 29 &&& 1 = 1 then ⟨.writer, 0⟩ else ⟨.neutral, 0⟩
  else if i >>> 24 &&& 0x1F = 0b01010 then
    if i >>> 29 &&& 3 = 3 then ⟨.writer, 0⟩ else ⟨.neutral, 0⟩
  else if i >>> 21 = 0b10111010000 ∧ i >>> 10 &&& 0x1F = 1 ∧ i >>> 4 &&& 1 = 0 then ⟨.partialWriter, 0⟩
  else if i &&& 0xFFFFFC1F = 0x3A00080D ∨ i &&& 0xFFFFFC1F = 0x3A00480D then ⟨.partialWriter, 0⟩
  -- data processing, immediate
  else if i >>> 23 &&& 0x3F = 0b100010 then
    if i >>> 29 &&& 1 = 1 then ⟨.writer, 0⟩ else ⟨.neutral, 0⟩
  else if i >>> 23 &&& 0x3F = 0b100100 then
    if i >>> 29 &&& 3 = 3 then ⟨.writer, 0⟩ else ⟨.neutral, 0⟩
  -- scalar floating point
  else if i >>> 30 = 0 ∧ i >>> 24 &&& 0x1F = 0b11110 ∧ i >>> 21 &&& 1 = 1 then
    if i >>> 10 &&& 3 = 0b00 then
      if i >>> 10 &&& 0x3F = 0b001000 then ⟨.writer, 0⟩ else ⟨.neutral, 0⟩
    else if i >>> 10 &&& 3 = 0b01 then ⟨.reader, 0⟩
    else if i >>> 10 &&& 3 = 0b11 then ⟨.reader, 0⟩
    else ⟨.neutral, 0⟩
  else ⟨.neutral, 0⟩

/-! ## The instructions -/

/-- What an instruction does with N, Z, C and V; one that reads and writes reads. -/
inductive FlagUse
  | none | reads | writesSome | writesAll
deriving DecidableEq, Repr

/-- Where control goes. A displacement is `len` bits from bit `lo`, in words. -/
inductive Flow
  | next
  | jump (lo len : Nat)
  | either (lo len : Nat)
  | call (lo len : Nat)
  | leave
deriving DecidableEq, Repr

structure Row where
  bits : String
  uses : FlagUse
  flow : Flow

/-- The rows of `a64.inc` that use NZCV or do not just continue, with `MRS` and
`MSR (register)` narrowed to the NZCV register. -/
def rows : List Row :=
  [ -- conditional and other branches
    ⟨"01010100iiiiiiiiiiiiiiiiiii0cccc", .reads, .either 5 19⟩, -- B.cond
    ⟨"000101iiiiiiiiiiiiiiiiiiiiiiiiii", .none, .jump 0 26⟩, -- B
    ⟨"100101iiiiiiiiiiiiiiiiiiiiiiiiii", .none, .call 0 26⟩, -- BL
    ⟨"z0110100iiiiiiiiiiiiiiiiiiittttt", .none, .either 5 19⟩, -- CBZ
    ⟨"z0110101iiiiiiiiiiiiiiiiiiittttt", .none, .either 5 19⟩, -- CBNZ
    ⟨"b0110110bbbbbiiiiiiiiiiiiiittttt", .none, .either 5 14⟩, -- TBZ
    ⟨"b0110111bbbbbiiiiiiiiiiiiiittttt", .none, .either 5 14⟩, -- TBNZ
    ⟨"1101011000111111000000nnnnn00000", .none, .leave⟩, -- BLR
    ⟨"1101011000011111000000nnnnn00000", .none, .leave⟩, -- BR
    ⟨"1101011001011111000000nnnnn00000", .none, .leave⟩, -- RET
    -- exception generation; the kernel returns after an SVC with the flags kept
    ⟨"11010100000iiiiiiiiiiiiiiii00001", .none, .next⟩, -- SVC
    ⟨"11010100001iiiiiiiiiiiiiiii00000", .none, .leave⟩, -- BRK
    ⟨"11010100010iiiiiiiiiiiiiiii00000", .none, .leave⟩, -- HLT
    -- system
    ⟨"110101010011101101000010000ttttt", .reads, .next⟩, -- MRS NZCV
    ⟨"110101010001101101000010000ttttt", .writesAll, .next⟩, -- MSR NZCV
    ⟨"11010101000000000100000000011111", .reads, .next⟩, -- CFINV
    ⟨"11010101000000000100000000111111", .reads, .next⟩, -- XAFlag
    ⟨"11010101000000000100000001011111", .reads, .next⟩, -- AXFlag
    ⟨"10111010000iiiiii00001nnnnn0IIII", .writesSome, .next⟩, -- RMIF
    -- data processing
    ⟨"z0110001ssiiiiiiiiiiiinnnnnddddd", .writesAll, .next⟩, -- ADDS (immediate)
    ⟨"z1110001ssiiiiiiiiiiiinnnnnddddd", .writesAll, .next⟩, -- SUBS (immediate)
    ⟨"z11100100Nrrrrrrssssssnnnnnddddd", .writesAll, .next⟩, -- ANDS (immediate)
    ⟨"z1101010ss0mmmmmiiiiiinnnnnddddd", .writesAll, .next⟩, -- ANDS (shifted register)
    ⟨"z1101010ss1mmmmmiiiiiinnnnnddddd", .writesAll, .next⟩, -- BICS (shifted register)
    ⟨"z0101011ss0mmmmmiiiiiinnnnnddddd", .writesAll, .next⟩, -- ADDS (shifted register)
    ⟨"z1101011ss0mmmmmiiiiiinnnnnddddd", .writesAll, .next⟩, -- SUBS (shifted register)
    ⟨"z0101011001mmmmmxxxiiinnnnnddddd", .writesAll, .next⟩, -- ADDS (extended register)
    ⟨"z1101011001mmmmmxxxiiinnnnnddddd", .writesAll, .next⟩, -- SUBS (extended register)
    ⟨"z0011010000mmmmm000000nnnnnddddd", .reads, .next⟩, -- ADC
    ⟨"z0111010000mmmmm000000nnnnnddddd", .reads, .next⟩, -- ADCS
    ⟨"z1011010000mmmmm000000nnnnnddddd", .reads, .next⟩, -- SBC
    ⟨"z1111010000mmmmm000000nnnnnddddd", .reads, .next⟩, -- SBCS
    ⟨"z0111010010mmmmmcccc00nnnnn0ffff", .reads, .next⟩, -- CCMN (register)
    ⟨"z1111010010mmmmmcccc00nnnnn0ffff", .reads, .next⟩, -- CCMP (register)
    ⟨"z0111010010iiiiicccc10nnnnn0ffff", .reads, .next⟩, -- CCMN (immediate)
    ⟨"z1111010010iiiiicccc10nnnnn0ffff", .reads, .next⟩, -- CCMP (immediate)
    ⟨"z0011010100mmmmmcccc00nnnnnddddd", .reads, .next⟩, -- CSEL
    ⟨"z0011010100mmmmmcccc01nnnnnddddd", .reads, .next⟩, -- CSINC
    ⟨"z1011010100mmmmmcccc00nnnnnddddd", .reads, .next⟩, -- CSINV
    ⟨"z1011010100mmmmmcccc01nnnnnddddd", .reads, .next⟩, -- CSNEG
    -- scalar floating point
    ⟨"00011110yy1mmmmm001000nnnnn0o000", .writesAll, .next⟩, -- FCMP
    ⟨"00011110yy1mmmmm001000nnnnn1o000", .writesAll, .next⟩, -- FCMPE
    ⟨"00011110yy1mmmmmcccc01nnnnn0ffff", .reads, .next⟩, -- FCCMP
    ⟨"00011110yy1mmmmmcccc01nnnnn1ffff", .reads, .next⟩, -- FCCMPE
    ⟨"00011110yy1mmmmmcccc11nnnnnddddd", .reads, .next⟩ ] -- FCSEL

def Row.pattern (r : Row) : Pattern 32 := ⟨(parseBits r.bits).mask, (parseBits r.bits).expect⟩

def rowOf (w : Word) : Option Row := rows.find? (·.pattern.Matches w)

def flagUse (w : Word) : FlagUse := ((rowOf w).map (·.uses)).getD .none
def flow (w : Word) : Flow := ((rowOf w).map (·.flow)).getD .next

def displacement (w : Word) (lo len : Nat) : BitVec 64 := (w.extractLsb' lo len).signExtend 64 * 4

def successors (pc : BitVec 64) (w : Word) : List (BitVec 64) :=
  match flow w with
  | .next => [pc + 4]
  | .jump lo len | .call lo len => [pc + displacement w lo len]
  | .either lo len => [pc + 4, pc + displacement w lo len]
  | .leave => []

/-- Encodings of the flag-setting groups that no instruction has: add/subtract
(extended register) with a nonzero `opt`, floating-point compare with `S` or with
low bits of `opcode2`. -/
def reserved : List (Pattern 32) :=
  ["--1010111-1---------------------", "--101011-11---------------------",
    "00111110--1-----001000----------", "00-11110--1-----001000---------1",
    "00-11110--1-----001000--------1-", "00-11110--1-----001000-------1--"].map
      fun bits => ⟨(parseBits bits).mask, (parseBits bits).expect⟩

end PowerArm.Nzcv
