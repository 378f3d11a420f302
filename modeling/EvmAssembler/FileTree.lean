import EvmAssembler.Path

/-!
# `EvmAssembler.FileTree`: files and directories as a value

A `FileTree` is what a run of the command line finds and leaves behind. Its nodes are
listed under the components that lead to them from the working directory. A path is
followed component by component, and every component but the last must lead to a
directory. Above the working directory and at the root there are only directories.

Links and devices are left out, and so is who may read or write a node. Each location has
a node of its own: a file is read as it was written, and writing it changes no other.

The directories above a path are made by a recursion, for which there is room up to some
depth. How much room there is depends on who calls, so it is an argument, `room`.
-/

set_option autoImplicit false

namespace EvmAssembler

/-- Why a file operation fails. -/
inductive FileError where
  | missing
  | notDirectory
  | isDirectory
  | alreadyExists
  /-- The path, or a component of it, is too long. -/
  | tooLong
  /-- Too many directories are missing. -/
  | tooDeep
  /-- The path holds a null character. -/
  | nullCharacter
  /-- The file's bytes are no text. -/
  | notText
  deriving DecidableEq, Repr

/-- What a name in a directory stands for. -/
inductive Node where
  | directory
  | file (content : ByteArray)

/-- The components that lead to a node. Those above the working directory start with double
dots, those below the root with a slash. -/
abbrev Location := List String

/-- Nodes by their location. -/
structure FileTree where
  nodes : List (Location × Node)

namespace FileTree

/-- The node at a location. -/
def node? (t : FileTree) (l : Location) : Option Node :=
  if l = ["/"] ∨ l.all (· == "..") then some .directory else t.nodes.lookup l

/-- The location one component further. -/
def step (l : Location) (part : String) : Location :=
  if part = "" ∨ part = "." then l
  else if part = ".." then
    -- The root is its own parent, and above the working directory the dots add up.
    if l = ["/"] then l else if l.all (· == "..") then l ++ [".."] else l.dropLast
  else l ++ [part]

/-- The most bytes a component of a path may have. -/
def maxPartBytes : Nat := 255

/-- The most bytes a path may have. -/
def maxPathBytes : Nat := 4095

/-- Follows components from a location. The node they lead to need not exist. -/
def follow (t : FileTree) (l : Location) : List String → Except FileError Location
  | [] => .ok l
  | part :: rest =>
    match t.node? l with
    | some .directory =>
      if maxPartBytes < part.utf8ByteSize then .error .tooLong else follow t (step l part) rest
    | some (.file _) => .error .notDirectory
    | none => .error .missing

/-- Follows the components of a path that is written as the given text. -/
def followText (t : FileTree) (text : String) (parts : List String) :
    Except FileError Location :=
  if text.contains '\x00' then .error .nullCharacter
  else if maxPathBytes < text.utf8ByteSize then .error .tooLong
  else t.follow (if Path.anchorOf text.toList = "" then [] else ["/"]) parts

/-- Where a path leads. -/
def locate (t : FileTree) (p : Path) : Except FileError Location :=
  t.followText p.text p.parts

/-- Whether a path leads to a directory. -/
def isDirectory (t : FileTree) (p : Path) : Bool :=
  match t.locate p with
  | .ok l => match t.node? l with
    | some .directory => true
    | _ => false
  | .error _ => false

/-- Whether a text, taken as it stands, names a file. A slash at its end asks for a
directory. -/
def isFile (t : FileTree) (text : String) : Bool :=
  match t.followText text ((splitSlashes text.toList).map String.ofList) with
  | .ok l => match t.node? l with
    | some (.file _) => true
    | _ => false
  | .error _ => false

/-- The tree with a node set. -/
def put (t : FileTree) (l : Location) (n : Node) : FileTree :=
  ⟨(l, n) :: t.nodes.filter (·.1 != l)⟩

/-- The content of a file. -/
def read (t : FileTree) (p : Path) : Except FileError ByteArray :=
  (t.locate p).bind fun l =>
    match t.node? l with
    | some (.file content) => .ok content
    | some .directory => .error .isDirectory
    | none => .error .missing

/-- Writes a file, new or in place of its old content. -/
def write (t : FileTree) (p : Path) (content : ByteArray) : Except FileError FileTree :=
  (t.locate p).bind fun l =>
    match t.node? l with
    | some .directory => .error .isDirectory
    | _ => .ok (t.put l (.file content))

/-- Makes one directory. -/
def makeDirectory (t : FileTree) (p : Path) : Except FileError FileTree :=
  (t.locate p).bind fun l =>
    match t.node? l with
    | some _ => .error .alreadyExists
    | none => .ok (t.put l .directory)

/-- Makes one directory unless it is there. -/
def ensureOne (t : FileTree) (p : Path) : Except FileError FileTree :=
  match t.makeDirectory p with
  | .ok made => .ok made
  | .error e => if t.isDirectory p then .ok t else .error e

/-- Makes the directory with the given anchor and components, the last component first,
and those above it where they are missing, `room` directories at most. -/
def ensureParts (t : FileTree) (anchor : String) (room : Nat) :
    List String → Except FileError FileTree
  | [] => t.ensureOne ⟨anchor, []⟩
  | part :: above =>
    let p : Path := ⟨anchor, (part :: above).reverse⟩
    if room = 0 then .error .tooDeep
    else match t.makeDirectory p with
      | .error .missing =>
        (ensureParts t anchor (room - 1) above).bind fun made => made.ensureOne p
      | _ => t.ensureOne p

/-- Makes a directory with all that leads to it, as far as it is not there and there is room. -/
def ensureDirectory (t : FileTree) (room : Nat) (p : Path) : Except FileError FileTree :=
  t.ensureParts p.anchor room p.parts.reverse

/-- The tree that `ensureParts` leaves where it fails. Directories made before the failure stay. -/
def residueParts (t : FileTree) (anchor : String) (room : Nat) : List String → FileTree
  | [] => t
  | part :: above =>
    if room = 0 then t
    else match t.makeDirectory ⟨anchor, (part :: above).reverse⟩ with
      | .error .missing =>
        match ensureParts t anchor (room - 1) above with
        | .ok made => made
        -- The room runs out on the way up, before anything is made.
        | .error .tooDeep => t
        | .error _ => residueParts t anchor (room - 1) above
      | _ => t

/-- The tree that `ensureDirectory` leaves where it fails. -/
def residue (t : FileTree) (room : Nat) (p : Path) : FileTree :=
  t.residueParts p.anchor room p.parts.reverse

end FileTree

end EvmAssembler
