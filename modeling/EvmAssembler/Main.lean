import EvmAssembler.CommandLine.Run

/-!
# `EvmAssembler.Main`: the program

The outer layer of the command line. It loads the nodes that the paths among the arguments
lead through into a `FileTree`, lets `CommandLine.run` decide everything, and then carries
out what the run left: log lines, new directories, new files, exit code.
-/

set_option autoImplicit false

namespace EvmAssembler.Main

/-- The text of a location, as the system takes it. -/
def locationText : Location → String
  | "/" :: rest => "/" ++ "/".intercalate rest
  | l => "/".intercalate l

/-- The node on disk at a location. What is there and cannot be read as a file is a
directory. -/
def loadNode (l : Location) : IO (Option Node) := do
  match ← (IO.FS.readBinFile (locationText l)).toBaseIO with
  | .ok content => return some (.file content)
  | .error (.noFileOrDirectory ..) => return none
  | .error _ => return some .directory

/-- Loads the nodes that a path leads through, up to the first that is no directory. -/
def loadParts (t : FileTree) (l : Location) : List String → IO FileTree
  | [] => return t
  | part :: rest => do
    let next := FileTree.step l part
    match t.node? next with
    | some _ => loadParts t next rest
    | none =>
      match ← loadNode next with
      | some .directory => loadParts (t.put next .directory) next rest
      | some found => return t.put next found
      | none => return t

/-- Loads the nodes that paths lead through. -/
def loadPaths (t : FileTree) : List String → IO FileTree
  | [] => return t
  | text :: rest => do
    let p := Path.ofString text
    loadPaths (← loadParts t (if p.anchor = "" then [] else ["/"]) p.parts) rest

/-- The paths a request names. -/
def requestPaths : Option CommandLine.Request → List String
  | some (.assemble options sources binary) => options.dump.toList ++ sources ++ [binary]
  | _ => []

/-- Carries out a change of one node. -/
def storeNode (before : FileTree) (l : Location) (n : Node) : IO Unit := do
  match n, before.node? l with
  | .directory, some .directory => return
  | .directory, _ => IO.FS.createDir (locationText l)
  | .file new, some (.file old) =>
    if new != old then IO.FS.writeBinFile (locationText l) new
  | .file new, _ => IO.FS.writeBinFile (locationText l) new

/-- The most directories made for one path. -/
def maxNewDirectories : Nat := 985

/-- How to use the program. -/
def usage : String :=
  "Usage: [-v] [--listing] [--check-jumps] [--dump PATH] [SOURCES]... BINARY"

/-- The wording of a failure. -/
def failureText : CommandLine.Failure → String
  | .library e => e.message.getD "the source cannot be read"
  | .file .missing => "no such file or directory"
  | .file .notDirectory => "not a directory"
  | .file .isDirectory => "is a directory"
  | .file .alreadyExists => "file exists"
  | .file .tooLong => "file name too long"
  | .file .tooDeep => "too many directories are missing"
  | .file .nullCharacter => "null character in a path"
  | .file .notText => "the file is no text"

end EvmAssembler.Main

/-- Runs the command line on the files it names. -/
def main (args : List String) : IO UInt32 := do
  let request := EvmAssembler.CommandLine.Request.ofArguments args
  let before ← EvmAssembler.Main.loadPaths ⟨[]⟩ (EvmAssembler.Main.requestPaths request)
  let report := EvmAssembler.CommandLine.run EvmAssembler.Main.maxNewDirectories args before
  for line in EvmAssembler.CommandLine.log args report do
    IO.eprintln line
  for (l, n) in report.tree.nodes.reverse do
    EvmAssembler.Main.storeNode before l n
  if report.exit = EvmAssembler.CommandLine.exitUsage then
    IO.eprintln EvmAssembler.Main.usage
  if request == some .help then IO.println EvmAssembler.Main.usage
  if let some failure := report.failure then
    IO.eprintln (EvmAssembler.Main.failureText failure)
  return report.exit.toUInt32
