import MipsAssembler.Text.Quoted

/-!
# Options

The options of the command line. An option starts with one or two dashes; its value stands behind an
equals sign or, unless the option is a switch, is the next argument. Options end at the first
argument that is none, and behind `--`.
-/

namespace MipsAssembler

/-- What was asked for on the command line. -/
structure Options where
  /-- The output file; empty or a dash for standard output. -/
  output : Bytes := []
  /-- The file for the raw image, if not empty. -/
  binary : Bytes := []
  /-- The settings file, if not empty. -/
  config : Bytes := []
  /-- Stop after the first pass. -/
  passOne : Bool := false
  /-- Show tables and the whole log. -/
  verbose : Bool := false
  /-- Disassemble instead. -/
  disassemble : Bool := false
  deriving DecidableEq, Repr

/-- An option that has a value. -/
inductive ValueOption where
  | output | binary | config
  deriving DecidableEq, Repr

/-- An option that is on or off. -/
inductive Switch where
  | passOne | verbose | disassemble
  deriving DecidableEq, Repr

/-- Why a command line cannot be understood. -/
inductive UsageError where
  /-- An argument is no proper option. -/
  | badSyntax (argument : Bytes)
  /-- There is no such option. -/
  | undefined (name : Bytes)
  /-- An option lacks its value. -/
  | needsArgument (name : Bytes)
  /-- A switch has a value that is neither on nor off. -/
  | badBoolean (value name : Bytes)
  /-- Help was asked for. -/
  | help
  /-- There is not exactly one file. -/
  | fileCount
  deriving DecidableEq, Repr

/-- The wording of a usage error, above the usage text. -/
def UsageError.message : UsageError → Bytes
  | .badSyntax argument => ascii "bad flag syntax: " ++ argument ++ ascii "\n"
  | .undefined name => ascii "flag provided but not defined: -" ++ name ++ ascii "\n"
  | .needsArgument name => ascii "flag needs an argument: -" ++ name ++ ascii "\n"
  | .badBoolean value name =>
    ascii "invalid boolean value " ++ quoted value ++ ascii " for -" ++ name ++
      ascii ": parse error\n"
  | .help | .fileCount => []

/-- The usage text. -/
def usage : Bytes :=
  ascii "Usage: mipsasm [options] <source.s | program.obj>\n\nOptions:\n" ++
  ascii "  -bin string\n    \tAlso write the raw program image to this file\n" ++
  ascii "  -config string\n    \tPath to assembler configuration JSON file\n" ++
  ascii "  -dis\n    \tDisassemble an object file instead of assembling\n" ++
  ascii "  -o string\n    \tOutput file (default stdout)\n" ++
  ascii "  -p1\n    \tStop after pass one and write the expanded source\n" ++
  ascii "  -v\tVerbose output\n"

namespace ValueOption

/-- The option with this name. -/
def ofName? (name : Bytes) : Option ValueOption :=
  [(ascii "o", output), (ascii "bin", binary), (ascii "config", config)].lookup name

/-- Sets an option. -/
def set (o : Options) (value : Bytes) : ValueOption → Options
  | output => { o with output := value }
  | binary => { o with binary := value }
  | config => { o with config := value }

end ValueOption

namespace Switch

/-- The switch with this name. -/
def ofName? (name : Bytes) : Option Switch :=
  [(ascii "p1", passOne), (ascii "v", verbose), (ascii "dis", disassemble)].lookup name

/-- Sets a switch. -/
def set (o : Options) (value : Bool) : Switch → Options
  | passOne => { o with passOne := value }
  | verbose => { o with verbose := value }
  | disassemble => { o with disassemble := value }

/-- The values that turn a switch on or off. -/
def ofValue? (value : Bytes) : Option Bool :=
  if value ∈ ["1", "t", "T", "TRUE", "true", "True"].map ascii then some true
  else if value ∈ ["0", "f", "F", "FALSE", "false", "False"].map ascii then some false
  else none

end Switch

/-- An argument, by its form. -/
inductive Argument where
  /-- Not an option: options end before it. -/
  | operand
  /-- Two dashes: options end behind it. -/
  | separator
  /-- An option without a name. -/
  | malformed
  /-- An option and perhaps its value. -/
  | option (name : Bytes) (value : Option Bytes)
  deriving DecidableEq, Repr

namespace Argument

/-- An option behind its dashes; an equals sign counts from the second byte on. -/
def ofBody : Bytes → Argument
  | [] => .malformed
  | first :: rest =>
    if first = Ascii.minus ∨ first = Ascii.equals then .malformed
    else
      match rest.span (· != Ascii.equals) with
      | (name, []) => .option (first :: name) none
      | (name, _ :: value) => .option (first :: name) (some value)

/-- The form of an argument. -/
def ofBytes : Bytes → Argument
  | [] => .operand
  | [_] => .operand
  | first :: second :: rest =>
    if first ≠ Ascii.minus then .operand
    else if second ≠ Ascii.minus then ofBody (second :: rest)
    else if rest.isEmpty then .separator
    else ofBody rest

end Argument

namespace Options

/-- Sets a switch from its value, which is on when there is none. -/
def setSwitch (o : Options) (switch : Switch) (name : Bytes) :
    Option Bytes → Except UsageError Options
  | none => .ok (switch.set o true)
  | some value =>
    match Switch.ofValue? value with
    | some on => .ok (switch.set o on)
    | none => .error (.badBoolean value name)

/-- An option that is none of the known ones. -/
def unknown (name : Bytes) : UsageError :=
  if name = ascii "help" ∨ name = ascii "h" then .help else .undefined name

/-- Reads options from arguments; what is left are the files. -/
def parse (o : Options) : List Bytes → Except UsageError (Options × List Bytes)
  | [] => .ok (o, [])
  | argument :: rest =>
    match Argument.ofBytes argument with
    | .operand => .ok (o, argument :: rest)
    | .separator => .ok (o, rest)
    | .malformed => .error (.badSyntax argument)
    | .option name value =>
      match Switch.ofName? name, ValueOption.ofName? name with
      | some switch, _ =>
        match o.setSwitch switch name value with
        | .ok o => o.parse rest
        | .error e => .error e
      | none, none => .error (unknown name)
      | none, some option =>
        match value, rest with
        | some value, rest => (option.set o value).parse rest
        | none, value :: rest => (option.set o value).parse rest
        | none, [] => .error (.needsArgument name)

end Options

end MipsAssembler
