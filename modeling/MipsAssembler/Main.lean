import MipsAssembler.CommandLine.Run

/-!
# The program

The command line on the files of the machine.
-/

namespace MipsAssembler

/-- The bytes of a string. -/
def bytesOf (s : String) : Bytes := s.toUTF8.toList

/-- Bytes as an array, to be written. -/
def packed (bytes : Bytes) : ByteArray := ⟨bytes.toArray⟩

/-- The reason of a system error, in lower case as it stands behind a path. -/
def reasonOf (e : IO.Error) : FileReason :=
  match e with
  | .noFileOrDirectory .. => .missing
  | .inappropriateType _ _ details => .other (bytesOf details.decapitalize)
  | .permissionDenied _ _ details => .other (bytesOf details.decapitalize)
  | e => .other (bytesOf e.toString)

/-- The files of the machine. -/
def systemFiles : FileSystem IO where
  read path := do
    match String.fromUTF8? (packed path) with
    | none => return .error ⟨.opening, path, .invalidName⟩
    | some name =>
      match ← (IO.FS.Handle.mk name .read).toBaseIO with
      | .error e => return .error ⟨.opening, path, reasonOf e⟩
      | .ok handle =>
        match ← handle.readBinToEnd.toBaseIO with
        | .ok text => return .ok ⟨text.toList, none⟩
        | .error e => return .ok ⟨[], some (FileError.message ⟨.reading, path, reasonOf e⟩)⟩
  write path contents := do
    match String.fromUTF8? (packed path) with
    | none => return .error (FileError.message ⟨.opening, path, .invalidName⟩)
    | some name =>
      match ← (IO.FS.Handle.mk name .write).toBaseIO with
      | .error e => return .error (FileError.message ⟨.opening, path, reasonOf e⟩)
      | .ok handle =>
        let written ← (handle.write (packed contents)).toBaseIO
        let closed ← handle.flush.toBaseIO
        let message (e : IO.Error) := bytesOf e.toString
        return closeOutput (written.mapError message) (closed.mapError message)

end MipsAssembler

open MipsAssembler in
/-- Runs one invocation and ends with its exit code. -/
def main (arguments : List String) : IO UInt32 := do
  let outcome ← run systemFiles (arguments.map bytesOf)
  (← IO.getStdout).write (packed outcome.stdout)
  (← IO.getStderr).write (packed outcome.stderr)
  return outcome.exit.toUInt32
