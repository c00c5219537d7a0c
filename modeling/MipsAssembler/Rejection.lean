import MipsAssembler.SymbolTable
import MipsAssembler.Text.Quoted

/-!
# Rejections

Why the assembler refuses an operand or an instruction, and how it says so. Each cause is a
constructor, and the wording is in `OperandError.message` and `Rejection.message` only.
-/

namespace MipsAssembler

/-- Why an operand is refused. -/
inductive OperandError where
  /-- The token names no register. -/
  | notRegister (token : Bytes)
  /-- The token is no integer literal. -/
  | notInteger (token : Bytes)
  /-- The literal does not fit a signed 64-bit number. -/
  | tooWide (token : Bytes)
  /-- The value is outside the range of the operand. -/
  | outside (value least greatest : Int)
  deriving DecidableEq, Repr

/-- The wording of an operand error. -/
def OperandError.message : OperandError → Bytes
  | .notRegister token => quoted token ++ ascii " is not a register"
  | .notInteger token => quoted token ++ ascii " is not an integer"
  | .tooWide token => token ++ ascii " does not fit in 64 bits"
  | .outside value least greatest =>
    decimalInt value ++ ascii " is outside [" ++ decimalInt least ++ ascii ", " ++
      decimalInt greatest ++ ascii "]"

/-- The wording of a write that did not fit. -/
def diskFull : Bytes := ascii "disk full"

/-- Why an instruction is refused. -/
inductive Rejection where
  /-- The operation takes another number of operands. -/
  | arity (name : Bytes) (wanted given : Nat)
  /-- The line has more operands than the settings allow. -/
  | tooManyArguments (limit : Int) (given : Nat)
  /-- An operand is refused. -/
  | operand (error : OperandError)
  /-- The target of a branch is in no table. -/
  | undefinedSymbol (name : Bytes)
  /-- The target of a branch is no whole number of words away. -/
  | branchUnaligned (source target : Address)
  /-- The target of a branch is too many words away. -/
  | branchTooFar (source target : Address) (distance : Int)
  /-- There is no such operation. -/
  | unknownMnemonic (name : Bytes)
  /-- The name cannot be a label. -/
  | invalidLabel (name : Bytes)
  /-- The symbol table refuses the label. -/
  | definition (error : SymbolTable.Error)
  /-- The relocation table refuses the reference. -/
  | relocation (name : Bytes) (error : SymbolTable.Error)
  /-- A jump needs a relocation table, and there is none. -/
  | noRelocationTable (name : Bytes)
  /-- The expansion could not be written. -/
  | expansionNotWritten (name : Bytes)
  /-- The word could not be written. -/
  | wordNotWritten
  deriving DecidableEq, Repr

namespace Rejection

/-- What sort of mistake a rejection reports. -/
inductive Kind where
  /-- A wrong number of operands. -/
  | arity
  /-- A bad register or literal. -/
  | operand
  /-- A branch to a label that is not defined. -/
  | undefinedSymbol
  /-- A branch that cannot reach its target. -/
  | branchRange
  /-- No such operation. -/
  | unknownMnemonic
  /-- A name that cannot be a label. -/
  | invalidLabel
  /-- A label defined twice. -/
  | duplicate
  /-- An address that is no multiple of four. -/
  | unaligned
  /-- Nothing the source could mend. -/
  | system
  deriving DecidableEq, Repr

/-- The sort of mistake behind a refusal of a table. -/
def tableKind : SymbolTable.Error → Kind
  | .unaligned .. => .unaligned
  | .duplicate _ => .duplicate

/-- The sort of mistake behind a rejection. -/
def kind : Rejection → Kind
  | .arity .. | .tooManyArguments .. => .arity
  | .operand _ => .operand
  | .undefinedSymbol _ => .undefinedSymbol
  | .branchUnaligned .. | .branchTooFar .. => .branchRange
  | .unknownMnemonic _ => .unknownMnemonic
  | .invalidLabel _ => .invalidLabel
  | .definition error | .relocation _ error => tableKind error
  | .noRelocationTable _ | .expansionNotWritten _ | .wordNotWritten => .system

/-- The wording of a rejection. -/
def message : Rejection → Bytes
  | .arity name wanted given =>
    ascii "wrong number of arguments: " ++ name ++ ascii " takes " ++ decimal wanted ++
      ascii ", got " ++ decimal given
  | .tooManyArguments limit given =>
    ascii "wrong number of arguments: at most " ++ decimalInt limit ++ ascii ", got " ++
      decimal given
  | .operand error => ascii "invalid operand: " ++ error.message
  | .undefinedSymbol name => ascii "undefined symbol: " ++ name
  | .branchUnaligned source target =>
    ascii "branch target out of range: " ++ hexAddress target.toNat ++
      ascii " is not word aligned from " ++ hexAddress source.toNat
  | .branchTooFar source target distance =>
    ascii "branch target out of range: " ++ hexAddress target.toNat ++ ascii " is " ++
      decimalInt distance ++ ascii " bytes from " ++ hexAddress source.toNat
  | .unknownMnemonic name => ascii "unknown instruction: " ++ quoted name
  | .invalidLabel name => ascii "invalid label: " ++ quoted name
  | .definition error => error.message
  | .relocation name error =>
    ascii "failed to record relocation for " ++ name ++ ascii ": " ++ error.message
  | .noRelocationTable name =>
    ascii "cannot relocate " ++ name ++ ascii ": no relocation table"
  | .expansionNotWritten name =>
    ascii "failed to write expansion of " ++ name ++ ascii ": " ++ diskFull
  | .wordNotWritten => ascii "failed to write instruction: " ++ diskFull

end Rejection

end MipsAssembler
