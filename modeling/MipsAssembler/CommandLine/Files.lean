import MipsAssembler.Settings.File
import MipsAssembler.Text.Line

/-!
# Files

The command line reaches files through a `FileSystem`, which is given by what it can do, so that the
same program runs on the files of a machine and on a `FileTree` in memory.

* `FileError` is what goes wrong with a file.
* `FileTree` holds files by the names on the way to them; `FileTree.files` is the file system it
  makes.
* `loadSettings` and `saveSettings` keep settings in files.
-/

namespace MipsAssembler

/-- What was done with a file when it failed. -/
inductive FileAction where
  | opening | reading
  deriving DecidableEq, Repr

/-- Why it failed. -/
inductive FileReason where
  | missing | isDirectory | notDirectory | nameTooLong | invalidName
  /-- Any other reason, in the words of the system. -/
  | other (message : Bytes)
  deriving DecidableEq, Repr

/-- What went wrong with a file. -/
structure FileError where
  /-- What was done. -/
  action : FileAction
  /-- What it was done to. -/
  path : Bytes
  /-- Why it failed. -/
  reason : FileReason
  deriving DecidableEq, Repr

/-- The wording of a reason. -/
def FileReason.message : FileReason → Bytes
  | .missing => ascii "no such file or directory"
  | .isDirectory => ascii "is a directory"
  | .notDirectory => ascii "not a directory"
  | .nameTooLong => ascii "file name too long"
  | .invalidName => ascii "invalid argument"
  | .other message => message

/-- The wording of a file error. -/
def FileError.message (e : FileError) : Bytes :=
  (match e.action with
    | .opening => ascii "open "
    | .reading => ascii "read ") ++ e.path ++ ascii ": " ++ e.reason.message

/-- What the command line can do with files. Opening a directory succeeds, and reading it fails. -/
structure FileSystem (m : Type → Type) where
  /-- Opens a file and reads it as far as it can be read. -/
  read : Bytes → m (Except FileError Source)
  /-- Creates or replaces a file, or says why not. -/
  write : Bytes → Bytes → m (Except Bytes Unit)

/-- The error of an output that was written and then closed; a failed write counts first. -/
def closeOutput (written closed : Except Bytes Unit) : Except Bytes Unit :=
  match written, closed with
  | .error e, _ => .error e
  | .ok _, .error e => .error (ascii "failed to close output: " ++ e)
  | .ok _, .ok _ => .ok ()

/-! ## Files in memory -/

/-- The names on the way from the root to a file or a directory. -/
abbrev Place := List Bytes

/-- Files by their places. A directory is there when it is on the way to a file or to the place that
relative paths start at. -/
structure FileTree where
  /-- The directory that relative paths start at. -/
  home : Place := []
  /-- The files. -/
  entries : List (Place × Bytes) := []
  deriving DecidableEq, Repr

namespace FileTree

/-- What a place in a tree is. -/
inductive Node where
  | file (contents : Bytes)
  | directory
  deriving DecidableEq, Repr

/-- The longest name. -/
def maxName : Nat := 255

/-- The longest path. -/
def maxPath : Nat := 4095

/-- The byte between the names of a path. -/
def slash : UInt8 := 0x2f

/-- What stands at a place. -/
def node? (t : FileTree) (place : Place) : Option Node :=
  match t.entries.lookup place with
  | some contents => some (.file contents)
  | none =>
    if place.isPrefixOf t.home || t.entries.any (fun (path, _) => place.isPrefixOf path) then
      some .directory
    else none

/-- Checks that a directory stands at a place. -/
def enter (t : FileTree) (place : Place) : Except FileReason Unit :=
  match t.node? place with
  | none => .error .missing
  | some (.file _) => .error .notDirectory
  | some .directory => .ok ()

/-- The place that one name leads to. The root is its own parent. -/
def descend (t : FileTree) (place : Place) (name : Bytes) : Except FileReason Place := do
  t.enter place
  if name.isEmpty || name == ascii "." then return place
  if name == ascii ".." then return place.dropLast
  if maxName < name.length then throw .nameTooLong
  return place ++ [name]

/-- Checks a path before any of its names is looked at. -/
def checkPath (path : Bytes) : Except FileReason Unit := do
  if path.contains 0 then throw .invalidName
  if path.isEmpty then throw .missing
  if maxPath < path.length then throw .nameTooLong

/-- Where the first name of a path is looked up. -/
def start (t : FileTree) (path : Bytes) : Place :=
  if path.head? = some slash then [] else t.home

/-- The place that a path leads to. Only what stands before its last name has to exist, and a slash
behind that name asks for a directory. -/
def locate (t : FileTree) (path : Bytes) : Except FileReason Place := do
  checkPath path
  (pieces (· == slash) path).foldlM t.descend (t.start path)

/-- Reads a file. -/
def read (t : FileTree) (path : Bytes) : Except FileError Source :=
  match t.locate path with
  | .error reason => .error ⟨.opening, path, reason⟩
  | .ok place =>
    match t.node? place with
    | none => .error ⟨.opening, path, .missing⟩
    | some (.file contents) => .ok ⟨contents, none⟩
    | some .directory => .ok ⟨[], some (FileError.message ⟨.reading, path, .isDirectory⟩)⟩

/-- The place at which a path asks for a file. A path that ends in a slash asks for a directory,
which is refused once the directory it would stand in is found, and before its own name is
looked at. -/
def target (t : FileTree) (path : Bytes) : Except FileReason Place := do
  checkPath path
  let names := (pieces (· == slash) path).filter (! ·.isEmpty)
  let directory ← names.dropLast.foldlM t.descend (t.start path)
  t.enter directory
  if path.getLast? = some slash then throw .isDirectory
  let place ← t.descend directory (names.getLast?.getD [])
  if t.node? place = some .directory then throw .isDirectory
  return place

/-- Creates or replaces a file. -/
def write (t : FileTree) (path contents : Bytes) : Except FileError FileTree :=
  match t.target path with
  | .error reason => .error ⟨.opening, path, reason⟩
  | .ok place =>
    .ok { t with entries := (place, contents) :: t.entries.filter fun (name, _) => name != place }

/-- The file system that a tree makes. -/
def files : FileSystem (StateM FileTree) where
  read path := do return (← get).read path
  write path contents := do
    match (← get).write path contents with
    | .ok t => set t; return .ok ()
    | .error e => return .error e.message

end FileTree

/-! ## Settings in files -/

/-- Why settings could not be loaded. -/
inductive SettingsFileError where
  /-- The file could not be read. -/
  | unreadable (message : Bytes)
  /-- The file does not hold settings. -/
  | malformed
  deriving DecidableEq, Repr

/-- The wording of a settings file error. -/
def SettingsFileError.message : SettingsFileError → Bytes
  | .unreadable message => ascii "failed to read assembler config file: " ++ message
  | .malformed => ascii "failed to parse assembler config"

/-- The settings that a file holds, once it was opened. -/
def settingsOf (file : Except FileError Source) : Except SettingsFileError Settings :=
  match file with
  | .error e => .error (.unreadable e.message)
  | .ok ⟨_, some failure⟩ => .error (.unreadable failure)
  | .ok ⟨text, none⟩ =>
    match Settings.parse? text with
    | some settings => .ok settings
    | none => .error .malformed

/-- Loads settings from a file. -/
def loadSettings {m : Type → Type} [Monad m] (fs : FileSystem m) (path : Bytes) :
    m (Except SettingsFileError Settings) := do
  return settingsOf (← fs.read path)

/-- Saves settings to a file. -/
def saveSettings {m : Type → Type} [Monad m] (fs : FileSystem m) (path : Bytes)
    (settings : Settings) : m (Except Bytes Unit) := do
  let written ← fs.write path settings.render
  return written.mapError (ascii "failed to write assembler config file: " ++ ·)

end MipsAssembler
