/-!
# `EvmAssembler.CommandLine.Arguments`: reading the command line

Options may stand anywhere before a double dash and positional arguments anywhere. The last
positional argument is the binary to write and the others are sources. A long option with a
value may have it attached by an equals sign; otherwise the next argument is the value,
whatever it looks like. Letters of short options may be run together.
-/

set_option autoImplicit false

namespace EvmAssembler.CommandLine

/-- The settings given by options. -/
structure Options where
  verbose : Bool
  listing : Bool
  checkJumps : Bool
  dump : Option String
  help : Bool
  deriving DecidableEq, Repr

/-- The settings without any option. -/
def Options.default : Options :=
  ⟨false, false, false, none, false⟩

/-- What a command line asks for. -/
inductive Request where
  /-- Shows how to use the program. -/
  | help
  /-- Nothing that can be done: the binary is missing. -/
  | incomplete (options : Options)
  /-- Assembles sources into a binary. -/
  | assemble (options : Options) (sources : List String) (binary : String)
  deriving DecidableEq, Repr

/-- What an option means, given the value attached to it. -/
inductive OptionMeaning where
  | set (change : Options → Options)
  /-- The value is the next argument. -/
  | needsValue (change : String → Options → Options)
  | unusable

/-- The setting a flag makes. -/
def flag? (name : String) : Option (Options → Options) :=
  if name = "--verbose" then some fun o => { o with verbose := true }
  else if name = "--listing" then some fun o => { o with listing := true }
  else if name = "--check-jumps" then some fun o => { o with checkJumps := true }
  else if name = "--help" then some fun o => { o with help := true }
  else none

/-- The setting that a dump path makes. -/
def setDump (path : String) (o : Options) : Options :=
  { o with dump := some path }

/-- The meaning of letters run together behind a single dash. -/
def shortMeaning (letters : List Char) : OptionMeaning :=
  if letters.all (· == 'v') then .set fun o => { o with verbose := true } else .unusable

/-- The meaning of an argument that looks like an option. -/
def optionMeaning (arg : List Char) : OptionMeaning :=
  let name := String.ofList (arg.takeWhile (· != '='))
  let value? := (arg.dropWhile (· != '=')).tail?.map String.ofList
  match flag? name, value? with
  | some change, none => .set change
  | some _, some _ => .unusable
  | none, value? =>
    if name = "--dump" then
      match value? with
      | some value => .set (setDump value)
      | none => .needsValue setDump
    else
      match arg with
      | '-' :: '-' :: _ => .unusable
      | _ => shortMeaning arg.tail

/-- Whether an argument is read as an option: a dash with something behind it. -/
def looksLikeOption : List Char → Bool
  | '-' :: _ :: _ => true
  | _ => false

/-- Collects settings and positional arguments, the latter newest first. -/
def collect (options : Options) (positional : List String) :
    List String → Option (Options × List String)
  | [] => some (options, positional)
  | arg :: rest =>
    if arg = "--" then some (options, rest.reverse ++ positional)
    else if looksLikeOption arg.toList then
      match optionMeaning arg.toList with
      | .set change => collect (change options) positional rest
      | .needsValue change =>
        match rest with
        | [] => none
        -- The value is taken even where it looks like an option.
        | value :: rest => collect (change value options) positional rest
      | .unusable => none
    else collect options (arg :: positional) rest

/-- What a command line asks for; `none` if it is unusable. -/
def Request.ofArguments (args : List String) : Option Request :=
  match collect .default [] args with
  | none => none
  | some (options, positional) =>
    if options.help then some .help
    else
      match positional with
      | [] => some (.incomplete options)
      | binary :: sources => some (.assemble options sources.reverse binary)

end EvmAssembler.CommandLine
