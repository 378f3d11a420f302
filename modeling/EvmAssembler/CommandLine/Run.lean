import EvmAssembler.Assembly
import EvmAssembler.CommandLine.Arguments
import EvmAssembler.Datum.Json
import EvmAssembler.FileTree
import EvmAssembler.Instruction.Record
import EvmAssembler.Program.Jumps

/-!
# `EvmAssembler.CommandLine.Run`: a run of the command line

A run takes arguments and a file tree and ends in a `Report`: exit code, events, and the
tree it leaves. Sources are all read before anything is assembled. After assembly come the
listing, the dump, the jump check and the binary, in this order, and each stops the run if
it fails. Nothing is written before assembly and encoding have succeeded, and the binary is
written last, so a failed check leaves the old one alone.

The binary's directories are made where they are missing. `room` is how many of them can be
made for one path (`FileTree.ensureDirectory`).
-/

set_option autoImplicit false

namespace EvmAssembler.CommandLine

/-- A failure that no exit code is reserved for. -/
inductive Failure where
  | library (e : Error)
  | file (e : FileError)
  deriving Repr

/-- What a run comes to. -/
structure Report where
  exit : Nat
  failure : Option Failure
  /-- The events reported, most important or not. -/
  events : List Event
  tree : FileTree

/-- The exit code of a run that did all it was asked for. -/
def exitOk : Nat := 0

/-- The exit code of a run that failed. -/
def exitFailed : Nat := 1

/-- The exit code of a run whose arguments are unusable. -/
def exitUsage : Nat := 2

/-- The exit code of a run whose jump check found a bad jump. -/
def exitBadJump : Nat := 3

/-- The source unit of a file: UTF-8 text with line ends of any kind, in a module named by the
file. -/
def unitOfFile (p : Path) (content : ByteArray) : Except FileError SourceUnit :=
  match String.fromUTF8? content with
  | some text => .ok ⟨p.stem, none, String.ofList (Text.unifyLineEnds text.toList)⟩
  | none => .error .notText

/-- Reads source files up to the first failure, reporting each before it is read. -/
def readSources (t : FileTree) : List Path → List Event × Except FileError (List SourceUnit)
  | [] => ([], .ok [])
  | p :: rest =>
    match (t.read p).bind (unitOfFile p) with
    | .error e => ([.collecting p.text], .error e)
    | .ok u =>
      let (events, result) := readSources t rest
      (.collecting p.text :: events, result.map (u :: ·))

/-- A row of the listing: the instruction's offset, bytes and mnemonic. -/
def listingEvent (row : Nat × Instruction) : Except Error Event :=
  row.2.encode.bind fun code => row.2.mnemonic.map fun mnemonic => .listed row.1 code mnemonic

/-- The listing of a program. -/
def listingEvents (p : Program) : Except Error (List Event) :=
  p.listing.bind (·.mapM listingEvent)

/-- A row of the dump: the instruction's record with its offset in front. -/
def dumpRow (row : Nat × Instruction) : Except Error Datum :=
  row.2.record.map fun fields => .dict (("Offset", .int row.1) :: fields)

/-- The dump of a program. -/
def dump (p : Program) : Except Error Datum :=
  (p.listing.bind (·.mapM dumpRow)).map .list

/-- Whether a failed assembly is reported as such: its source or an operand is at fault. -/
def isReported (e : Error) : Bool :=
  e.isEncoding || e.kind == .assembly

/-- Writes the binary, with the directories above it. -/
def writeBinary (room : Nat) (events : List Event) (t : FileTree) (code : List UInt8)
    (binary : Path) : Report :=
  match t.ensureDirectory room binary.parent with
  | .error e => ⟨exitFailed, some (.file e), events, t.residue room binary.parent⟩
  | .ok made =>
    match made.write binary ⟨code.toArray⟩ with
    | .error e => ⟨exitFailed, some (.file e), events, made⟩
    | .ok written => ⟨exitOk, none, events ++ [.wrote code.length binary.text], written⟩

/-- Checks jumps if asked to, and writes the binary if none is bad. -/
def checkAndWrite (room : Nat) (options : Options) (events : List Event) (t : FileTree)
    (p : Program) (code : List UInt8) (binary : Path) : Report :=
  if options.checkJumps then
    match p.badJumps with
    | .error e => ⟨exitFailed, some (.library e), events, t⟩
    | .ok [] => writeBinary room events t code binary
    | .ok bad => ⟨exitBadJump, none, events ++ bad.map fun (o, target) => .badJump o target, t⟩
  else writeBinary room events t code binary

/-- Writes the dump if asked to, and goes on. -/
def dumpAndCheck (room : Nat) (options : Options) (events : List Event) (t : FileTree)
    (p : Program) (code : List UInt8) (binary : Path) : Report :=
  match options.dump with
  | none => checkAndWrite room options events t p code binary
  | some path =>
    match dump p with
    | .error e => ⟨exitFailed, some (.library e), events, t⟩
    | .ok rows =>
      match t.write (.ofString path) ((rows.json 0).toUTF8) with
      | .error e => ⟨exitFailed, some (.file e), events, t⟩
      | .ok dumped => checkAndWrite room options events dumped p code binary

/-- Lists the program if asked to, and goes on. -/
def listAndDump (room : Nat) (options : Options) (events : List Event) (t : FileTree)
    (p : Program) (code : List UInt8) (binary : Path) : Report :=
  if options.listing then
    match listingEvents p with
    | .error e => ⟨exitFailed, some (.library e), events, t⟩
    | .ok rows => dumpAndCheck room options (events ++ rows) t p code binary
  else dumpAndCheck room options events t p code binary

/-- Reads the sources, assembles them, and goes on with the program and its bytes. -/
def assembleFiles (room : Nat) (options : Options) (t : FileTree) (sources : List Path)
    (binary : Path) : Report :=
  match readSources t sources with
  | (events, .error e) => ⟨exitFailed, some (.file e), .started :: events, t⟩
  | (events, .ok units) =>
    let assembly := Assembly.ofUnits units
    let events := .started :: events ++ assembly.events
    -- A program that cannot be encoded counts as a failed assembly.
    match assembly.result.bind fun p => p.code.map fun code => (p, code) with
    | .ok (p, code) => listAndDump room options events t p code binary
    | .error e =>
      if isReported e then
        ⟨exitFailed, none, events ++ [.failed (e.message.getD "")], t⟩
      else ⟨exitFailed, some (.library e), events, t⟩

/-- The dump path if it holds a null character, and then the sources that are no files. Each
keeps a run from being started. -/
def unfitPaths (options : Options) (t : FileTree) (sources : List String) : List String :=
  options.dump.toList.filter (·.contains '\x00') ++ sources.filter (!t.isFile ·)

/-- What a run comes to that is not started because of a path. A path with a null character
cannot even be looked up; any other makes the arguments unusable. -/
def refusal (t : FileTree) (path : String) : Report :=
  if path.contains '\x00' then ⟨exitFailed, some (.file .nullCharacter), [], t⟩
  else ⟨exitUsage, none, [], t⟩

/-- A run of the command line. Its paths are looked at before anything is started, the dump
even before the binary is missed. -/
def run (room : Nat) (args : List String) (t : FileTree) : Report :=
  match Request.ofArguments args with
  | none => ⟨exitUsage, none, [], t⟩
  | some .help => ⟨exitOk, none, [], t⟩
  | some (.incomplete options) =>
    match unfitPaths options t [] with
    | [] => ⟨exitUsage, none, [], t⟩
    | path :: _ => refusal t path
  | some (.assemble options sources binary) =>
    match unfitPaths options t sources with
    | [] => assembleFiles room options t (sources.map Path.ofString) (.ofString binary)
    | path :: _ => refusal t path

/-- Whether an event is shown: debugging events only when the run is verbose. -/
def isShown (verbose : Bool) (e : Event) : Bool :=
  verbose || e.level != .debug

/-- Whether the arguments ask for a verbose run. -/
def isVerbose (args : List String) : Bool :=
  match Request.ofArguments args with
  | some (.assemble options _ _) => options.verbose
  | _ => false

/-- The line an event leaves in the log. -/
def logLine (e : Event) : String :=
  e.level.name ++ ":root:" ++ e.message

/-- The log of a run. -/
def log (args : List String) (r : Report) : List String :=
  (r.events.filter (isShown (isVerbose args))).map logLine

end EvmAssembler.CommandLine
