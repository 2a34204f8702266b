import PowerArm.A64.DataProcessing
import PowerArm.A64.Exclusive
import PowerArm.A64.LoadStore
import PowerArm.Decode.Table

/-!
# Decoded instructions

The rows of `a64.inc` whose handlers are modelled, the handler `HandlerTable.h` gives
each, and `TranslateInstruction`.
-/

namespace PowerArm.A64

inductive Row
  | ADD_imm | ADDS_imm | SUB_imm | SUBS_imm
  | AND_imm | ORR_imm | EOR_imm | ANDS_imm
  | MOVN | MOVZ | MOVK
  | SBFM | BFM | UBFM | ASR_1 | ASR_2 | SXTB_1 | SXTB_2 | SXTH_1 | SXTH_2 | SXTW | EXTR
  | UDIV | SDIV | LSLV | LSRV | ASRV | RORV
  | RBIT_int | REV16_int | REV | CLZ_int | CLS_int | REV32_int
  | AND_shift | BIC_shift | ORR_shift | ORN_shift | EOR_shift | EON | ANDS_shift | BICS
  | ADD_shift | ADDS_shift | SUB_shift | SUBS_shift
  | ADD_ext | ADDS_ext | SUB_ext | SUBS_ext
  | ADC | ADCS | SBC | SBCS
  | CCMN_reg | CCMP_reg | CCMN_imm | CCMP_imm
  | CSEL | CSINC | CSINV | CSNEG
  | MADD | MSUB | SMADDL | SMSUBL | SMULH | UMADDL | UMSUBL | UMULH
  | CBNZ
  | STXR | STLXR | STXP | STLXP | LDXR | LDAXR | LDXP | LDAXP | CLREX
  | STNP_LDNP_gen | STP_LDP_gen | STURx_LDURx | STRx_LDRx_imm_1 | STRx_LDRx_imm_2
  | STTRB | LDTRB | LDTRSB | STTRH | LDTRH | LDTRSH | STTR | LDTR | LDTRSW | STRx_reg | LDRx_reg
deriving DecidableEq, Repr

def Row.bits : Row → String
  | .ADD_imm => "z0010001ssiiiiiiiiiiiinnnnnddddd"
  | .ADDS_imm => "z0110001ssiiiiiiiiiiiinnnnnddddd"
  | .SUB_imm => "z1010001ssiiiiiiiiiiiinnnnnddddd"
  | .SUBS_imm => "z1110001ssiiiiiiiiiiiinnnnnddddd"
  | .AND_imm => "z00100100Nrrrrrrssssssnnnnnddddd"
  | .ORR_imm => "z01100100Nrrrrrrssssssnnnnnddddd"
  | .EOR_imm => "z10100100Nrrrrrrssssssnnnnnddddd"
  | .ANDS_imm => "z11100100Nrrrrrrssssssnnnnnddddd"
  | .MOVN => "z00100101ssiiiiiiiiiiiiiiiiddddd"
  | .MOVZ => "z10100101ssiiiiiiiiiiiiiiiiddddd"
  | .MOVK => "z11100101ssiiiiiiiiiiiiiiiiddddd"
  | .SBFM => "z00100110Nrrrrrrssssssnnnnnddddd"
  | .BFM => "z01100110Nrrrrrrssssssnnnnnddddd"
  | .UBFM => "z10100110Nrrrrrrssssssnnnnnddddd"
  | .ASR_1 => "00010011000rrrrr011111nnnnnddddd"
  | .ASR_2 => "1001001101rrrrrr111111nnnnnddddd"
  | .SXTB_1 => "0001001100000000000111nnnnnddddd"
  | .SXTB_2 => "1001001101000000000111nnnnnddddd"
  | .SXTH_1 => "0001001100000000001111nnnnnddddd"
  | .SXTH_2 => "1001001101000000001111nnnnnddddd"
  | .SXTW => "1001001101000000011111nnnnnddddd"
  | .EXTR => "z00100111N0mmmmmssssssnnnnnddddd"
  | .UDIV => "z0011010110mmmmm000010nnnnnddddd"
  | .SDIV => "z0011010110mmmmm000011nnnnnddddd"
  | .LSLV => "z0011010110mmmmm001000nnnnnddddd"
  | .LSRV => "z0011010110mmmmm001001nnnnnddddd"
  | .ASRV => "z0011010110mmmmm001010nnnnnddddd"
  | .RORV => "z0011010110mmmmm001011nnnnnddddd"
  | .RBIT_int => "z101101011000000000000nnnnnddddd"
  | .REV16_int => "z101101011000000000001nnnnnddddd"
  | .REV => "z10110101100000000001onnnnnddddd"
  | .CLZ_int => "z101101011000000000100nnnnnddddd"
  | .CLS_int => "z101101011000000000101nnnnnddddd"
  | .REV32_int => "1101101011000000000010nnnnnddddd"
  | .AND_shift => "z0001010ss0mmmmmiiiiiinnnnnddddd"
  | .BIC_shift => "z0001010ss1mmmmmiiiiiinnnnnddddd"
  | .ORR_shift => "z0101010ss0mmmmmiiiiiinnnnnddddd"
  | .ORN_shift => "z0101010ss1mmmmmiiiiiinnnnnddddd"
  | .EOR_shift => "z1001010ss0mmmmmiiiiiinnnnnddddd"
  | .EON => "z1001010ss1mmmmmiiiiiinnnnnddddd"
  | .ANDS_shift => "z1101010ss0mmmmmiiiiiinnnnnddddd"
  | .BICS => "z1101010ss1mmmmmiiiiiinnnnnddddd"
  | .ADD_shift => "z0001011ss0mmmmmiiiiiinnnnnddddd"
  | .ADDS_shift => "z0101011ss0mmmmmiiiiiinnnnnddddd"
  | .SUB_shift => "z1001011ss0mmmmmiiiiiinnnnnddddd"
  | .SUBS_shift => "z1101011ss0mmmmmiiiiiinnnnnddddd"
  | .ADD_ext => "z0001011001mmmmmxxxiiinnnnnddddd"
  | .ADDS_ext => "z0101011001mmmmmxxxiiinnnnnddddd"
  | .SUB_ext => "z1001011001mmmmmxxxiiinnnnnddddd"
  | .SUBS_ext => "z1101011001mmmmmxxxiiinnnnnddddd"
  | .ADC => "z0011010000mmmmm000000nnnnnddddd"
  | .ADCS => "z0111010000mmmmm000000nnnnnddddd"
  | .SBC => "z1011010000mmmmm000000nnnnnddddd"
  | .SBCS => "z1111010000mmmmm000000nnnnnddddd"
  | .CCMN_reg => "z0111010010mmmmmcccc00nnnnn0ffff"
  | .CCMP_reg => "z1111010010mmmmmcccc00nnnnn0ffff"
  | .CCMN_imm => "z0111010010iiiiicccc10nnnnn0ffff"
  | .CCMP_imm => "z1111010010iiiiicccc10nnnnn0ffff"
  | .CSEL => "z0011010100mmmmmcccc00nnnnnddddd"
  | .CSINC => "z0011010100mmmmmcccc01nnnnnddddd"
  | .CSINV => "z1011010100mmmmmcccc00nnnnnddddd"
  | .CSNEG => "z1011010100mmmmmcccc01nnnnnddddd"
  | .MADD => "z0011011000mmmmm0aaaaannnnnddddd"
  | .MSUB => "z0011011000mmmmm1aaaaannnnnddddd"
  | .SMADDL => "10011011001mmmmm0aaaaannnnnddddd"
  | .SMSUBL => "10011011001mmmmm1aaaaannnnnddddd"
  | .SMULH => "10011011010mmmmm011111nnnnnddddd"
  | .UMADDL => "10011011101mmmmm0aaaaannnnnddddd"
  | .UMSUBL => "10011011101mmmmm1aaaaannnnnddddd"
  | .UMULH => "10011011110mmmmm011111nnnnnddddd"
  | .CBNZ => "z0110101iiiiiiiiiiiiiiiiiiittttt"
  | .STXR => "zz001000000sssss011111nnnnnttttt"
  | .STLXR => "zz001000000sssss111111nnnnnttttt"
  | .STXP => "1z001000001sssss0uuuuunnnnnttttt"
  | .STLXP => "1z001000001sssss1uuuuunnnnnttttt"
  | .LDXR => "zz00100001011111011111nnnnnttttt"
  | .LDAXR => "zz00100001011111111111nnnnnttttt"
  | .LDXP => "1z001000011111110uuuuunnnnnttttt"
  | .LDAXP => "1z001000011111111uuuuunnnnnttttt"
  | .CLREX => "11010101000000110011MMMM01011111"
  | .STNP_LDNP_gen => "o01010000Liiiiiiiuuuuunnnnnttttt"
  | .STP_LDP_gen => "oo10100pwLiiiiiiiuuuuunnnnnttttt"
  | .STURx_LDURx => "zz111000oo0iiiiiiiii00nnnnnttttt"
  | .STRx_LDRx_imm_1 => "zz111000oo0iiiiiiiiip1nnnnnttttt"
  | .STRx_LDRx_imm_2 => "zz111001ooiiiiiiiiiiiinnnnnttttt"
  | .STTRB => "00111000000iiiiiiiii10nnnnnttttt"
  | .LDTRB => "00111000010iiiiiiiii10nnnnnttttt"
  | .LDTRSB => "00111000oo0iiiiiiiii10nnnnnttttt"
  | .STTRH => "01111000000iiiiiiiii10nnnnnttttt"
  | .LDTRH => "01111000010iiiiiiiii10nnnnnttttt"
  | .LDTRSH => "01111000oo0iiiiiiiii10nnnnnttttt"
  | .STTR => "zz111000000iiiiiiiii10nnnnnttttt"
  | .LDTR => "zz111000010iiiiiiiii10nnnnnttttt"
  | .LDTRSW => "10111000100iiiiiiiii10nnnnnttttt"
  | .STRx_reg => "zz111000o01mmmmmxxxS10nnnnnttttt"
  | .LDRx_reg => "zz111000o11mmmmmxxxS10nnnnnttttt"

def compareBranch (currentPC : Addr) (word : Word) (isNonZero : Bool) : Emit Bool := do
  let is64 := bit word 31
  let target := currentPC + signExtend (bits word 23 5) 19 * 4
  let value := (sizeFor is64).trunc (← loadX (reg word 0))
  if (value != 0) == isNonZero then exitToPC target else exitToPC (currentPC + 4)
  return true

def Row.handler (currentPC : Addr) : Row → Word → Emit Bool
  | .ADD_imm, word => addSubImmediate word false false
  | .ADDS_imm, word => addSubImmediate word false true
  | .SUB_imm, word => addSubImmediate word true false
  | .SUBS_imm, word => addSubImmediate word true true
  | .AND_imm, word | .ORR_imm, word | .EOR_imm, word | .ANDS_imm, word => logicalImmediate word
  | .MOVN, word | .MOVZ, word | .MOVK, word => moveWide word
  | .SBFM, word | .BFM, word | .UBFM, word | .ASR_1, word | .ASR_2, word | .SXTB_1, word
  | .SXTB_2, word | .SXTH_1, word | .SXTH_2, word | .SXTW, word => bitfield word
  | .EXTR, word => extr word
  | .UDIV, word => udiv word
  | .SDIV, word => sdiv word
  | .LSLV, word => shiftVariable word .lshl
  | .LSRV, word => shiftVariable word .lshr
  | .ASRV, word => shiftVariable word .ashr
  | .RORV, word => shiftVariable word .ror
  | .RBIT_int, word => rbitInt word
  | .REV16_int, word => rev16Int word
  | .REV, word => rev word
  | .CLZ_int, word => clzInt word
  | .CLS_int, word => clsInt word
  | .REV32_int, word => rev32Int word
  | .AND_shift, word | .BIC_shift, word | .ORR_shift, word | .ORN_shift, word | .EOR_shift, word
  | .EON, word | .ANDS_shift, word | .BICS, word => logicalShifted word
  | .ADD_shift, word | .ADDS_shift, word | .SUB_shift, word | .SUBS_shift, word => addSubShifted word
  | .ADD_ext, word | .ADDS_ext, word | .SUB_ext, word | .SUBS_ext, word => addSubExtended word
  | .ADC, word => addSubCarry word false false
  | .ADCS, word => addSubCarry word false true
  | .SBC, word => addSubCarry word true false
  | .SBCS, word => addSubCarry word true true
  | .CCMN_reg, word | .CCMP_reg, word | .CCMN_imm, word | .CCMP_imm, word => condCompare word
  | .CSEL, word | .CSINC, word | .CSINV, word | .CSNEG, word => condSelect word
  | .MADD, word => madd word
  | .MSUB, word => msub word
  | .SMADDL, word => multiplyAddSubLong word true false
  | .SMSUBL, word => multiplyAddSubLong word true true
  | .SMULH, word => smulh word
  | .UMADDL, word => multiplyAddSubLong word false false
  | .UMSUBL, word => multiplyAddSubLong word false true
  | .UMULH, word => umulh word
  | .CBNZ, word => compareBranch currentPC word true
  | .STXR, word | .STLXR, word => storeExclusive word
  | .STXP, word | .STLXP, word => storeExclusivePair word
  | .LDXR, word | .LDAXR, word => loadExclusive word
  | .LDXP, word | .LDAXP, word => loadExclusivePair word
  | .CLREX, _ => clrex
  | .STNP_LDNP_gen, word => stnpLdnpGen word
  | .STP_LDP_gen, word => stpLdpGen word
  | .STURx_LDURx, word | .STRx_LDRx_imm_1, word => loadStoreImm9 word
  | .STRx_LDRx_imm_2, word => strxLdrxImm2 word
  | .STTRB, word | .LDTRB, word | .LDTRSB, word | .STTRH, word | .LDTRH, word | .LDTRSH, word
  | .STTR, word | .LDTR, word | .LDTRSW, word => loadStoreImm9 word
  | .STRx_reg, word | .LDRx_reg, word => loadStoreRegOffset word

/-- A fetched word with the row the lookup found for it, `none` where no row matches or
the row is not one of the above. -/
structure DecodedInst where
  pc : Addr
  word : Word
  matcher : Option Row
  matched : ∀ row ∈ matcher, (Decode.parseBits row.bits).Matches word

/-- An instruction without a handler, or one its handler rejects, is a signal. -/
def translateInstruction (inst : DecodedInst) : Emit Unit := do
  let handled ← match inst.matcher with
    | none => pure false
    | some row => row.handler inst.pc inst.word
  if !handled then do
    let _ ← Lib.Act.request .signal

end PowerArm.A64
