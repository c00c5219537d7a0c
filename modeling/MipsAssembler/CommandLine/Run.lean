import MipsAssembler.CommandLine.Files
import MipsAssembler.CommandLine.Options
import MipsAssembler.Listing
import MipsAssembler.Log

/-!
# Running the command line

`run` carries out one invocation on a file system: it assembles a source file, stops after the first
pass, or disassembles an object file. It gives the exit code and what goes to standard output and
to standard error.
-/

namespace MipsAssembler

/-- The result of an invocation. -/
structure Outcome where
  /-- Zero, one when the work failed, two when it was not understood. -/
  exit : Nat := 0
  /-- Standard output. -/
  stdout : Bytes := []
  /-- Standard error. -/
  stderr : Bytes := []
  deriving DecidableEq, Repr

/-- The wording of settings that assembling refuses. -/
def invalidSettings (e : Settings.Error) : Bytes :=
  ascii "invalid assembler config: " ++ e.message

/-- One line per fault, behind the path of the source. -/
def faultReport (path : Bytes) (faults : List Fault) : Bytes :=
  faults.flatMap fun f => path ++ ascii ": " ++ f.message ++ [Ascii.newline]

namespace Outcome

/-- An outcome with more on standard error. -/
def warn (o : Outcome) (text : Bytes) : Outcome :=
  { o with stderr := o.stderr ++ text }

/-- An outcome that ends in an error. -/
def fail (o : Outcome) (exit : Nat) (what : String) (message : Bytes) : Outcome :=
  { o with exit, stderr := o.stderr ++ ascii what ++ ascii ": " ++ message ++ [Ascii.newline] }

/-- Writes to the named file, or to standard output if the name is empty or a dash. -/
def write {m : Type → Type} [Monad m] (o : Outcome) (fs : FileSystem m) (path contents : Bytes) :
    m Outcome := do
  if path.isEmpty || path == ascii "-" then return { o with stdout := o.stdout ++ contents }
  match ← fs.write path contents with
  | .ok _ => return o
  | .error e => return o.fail 1 "Error writing output" e

/-- Writes the raw image, if a file is named for it. -/
def writeImage {m : Type → Type} [Monad m] (o : Outcome) (fs : FileSystem m) (path : Bytes)
    (image : Image) : m Outcome := do
  if path.isEmpty then return o
  match ← fs.write path image.bytes with
  | .ok _ => return o
  | .error e => return o.fail 1 "Error writing image" e

end Outcome

/-- Writes what the first pass makes of a source. -/
def runPassOne {m : Type → Type} [Monad m] (fs : FileSystem m) (options : Options)
    (settings : Settings) (path : Bytes) (source : Source) : m Outcome := do
  let expansion := Expansion.run settings source
  let outcome := Outcome.warn {} (renderLog options.verbose expansion.events.toList)
  if !expansion.allFaults.isEmpty then
    return { outcome with exit := 1 }.warn (faultReport path expansion.allFaults)
  let tables := if options.verbose then (symbolGrid expansion.symbols).render else []
  (outcome.warn tables).write fs options.output expansion.text

/-- The tables of an assembled program. -/
def assemblyTables (a : Assembly) : Bytes :=
  (symbolGrid a.symbols).render ++ (relocationGrid a.relocations).render ++
    (wordGrid a.words).render

/-- Assembles a source and writes the object file, and the image if it is asked for. -/
def runAssemble {m : Type → Type} [Monad m] (fs : FileSystem m) (options : Options)
    (settings : Settings) (path : Bytes) (source : Source) : m Outcome := do
  match assemble settings source with
  | .error e =>
    return { exit := 1, stderr := path ++ ascii ": " ++ invalidSettings e ++ [Ascii.newline] }
  | .ok assembly =>
    let outcome := Outcome.warn {} (renderLog options.verbose assembly.events)
    if !assembly.faults.isEmpty then
      return { outcome with exit := 1 }.warn (faultReport path assembly.faults)
    let tables := if options.verbose then assemblyTables assembly else []
    let outcome ← (outcome.warn tables).write fs options.output assembly.object
    if outcome.exit ≠ 0 then return outcome
    outcome.writeImage fs options.binary assembly.image

/-- Disassembles an object file. -/
def runDisassemble {m : Type → Type} [Monad m] (fs : FileSystem m) (settings : Settings)
    (path : Bytes) : m Outcome := do
  match ← fs.read path with
  | .error e =>
    return Outcome.fail {} 1 "Error loading object"
      (ascii "failed to open object file: " ++ e.message)
  | .ok source =>
    match Program.read source with
    | .error e => return Outcome.fail {} 1 "Error loading object" (path ++ ascii ": " ++ e.message)
    | .ok program => return { stdout := (disassemblyGrid program settings.textBase).render }

/-- The settings an invocation runs with, or how it is refused. -/
def runSettings {m : Type → Type} [Monad m] (fs : FileSystem m) (path : Bytes) :
    m (Except Bytes Settings) := do
  if path.isEmpty then return .ok {}
  match ← loadSettings fs path with
  | .error e => return .error e.message
  | .ok settings =>
    match settings.check with
    | .error e => return .error e.message
    | .ok _ => return .ok settings

/-- Carries out what the options ask for with one file. -/
def runFile {m : Type → Type} [Monad m] (fs : FileSystem m) (options : Options) (path : Bytes) :
    m Outcome := do
  match ← runSettings fs options.config with
  | .error message => return Outcome.fail {} 2 "Error loading config" message
  | .ok settings =>
    if options.disassemble then runDisassemble fs settings path
    else
      match ← fs.read path with
      | .error e => return Outcome.fail {} 1 "Error opening source" e.message
      | .ok source =>
        if options.passOne then runPassOne fs options settings path source
        else runAssemble fs options settings path source

/-- Carries out one invocation. -/
def run {m : Type → Type} [Monad m] (fs : FileSystem m) (arguments : List Bytes) : m Outcome :=
  match Options.parse {} arguments with
  | .error e => return { exit := 2, stderr := e.message ++ usage }
  | .ok (options, [path]) => runFile fs options path
  | .ok _ => return { exit := 2, stderr := UsageError.fileCount.message ++ usage }

end MipsAssembler
