import Galley.CommandLine

/-
Runs the command line: reads the input and the files that the arguments name, writes the
document, and reports on standard error.
-/

namespace Galley
namespace CommandLine

/-- An error of the operating system with its number. -/
def systemReason : IO.Error → String
  | .noFileOrDirectory .. => "No such file or directory (os error 2)"
  | .permissionDenied .. => "Permission denied (os error 13)"
  | .inappropriateType .. => "Is a directory (os error 21)"
  | e => toString e

def readFile (path : String) : IO FileContent := do
  match ← (IO.FS.readBinFile path).toBaseIO with
  | .ok bytes => return .ok bytes
  | .error e => return .error (systemReason e)

/-- Bytes asked for at a time. -/
def chunkSize : USize := 65536

/-- Reads a stream to its end. -/
partial def readAll (stream : IO.FS.Stream) (read : ByteArray) : IO ByteArray := do
  let chunk ← stream.read chunkSize
  if chunk.isEmpty then return read else readAll stream (read ++ chunk)

def readInput : Option String → IO FileContent
  | some path => readFile path
  | none => do
    let stdin ← IO.getStdin
    match ← (readAll stdin .empty).toBaseIO with
    | .ok bytes => return .ok bytes
    | .error e => return .error (systemReason e)

/-- A file that is not named is not read. -/
def readSide : Option String → IO FileContent
  | some path => readFile path
  | none => return .ok .empty

def writeDocument (path : String) (bytes : ByteArray) : IO Outcome := do
  match ← (IO.FS.writeBinFile path bytes).toBaseIO with
  | .ok () => return .written path bytes.size
  | .error e => return .writeFailed path (systemReason e)

end CommandLine
end Galley

open Galley CommandLine

def main (args : List String) : IO UInt32 := do
  let request := Request.ofArgs args
  let input ← readInput request.input
  let files : SideFiles :=
    { options := ← readSide request.optionsFile, styles := ← readSide request.stylesFile }
  let outcome ← match request.produce files input with
    | .error outcome => pure outcome
    | .ok document => writeDocument request.output ⟨document.toBytes.toArray⟩
  IO.eprintln outcome.message
  return outcome.exitCode
