import EvmAssembler.Operand

/-!
# `EvmAssembler.Error`: everything that can be refused

Each constructor is one cause of refusal with the facts its message needs, and
`Error.message` gives the wording. `Error.kind` groups the causes the way callers
tell them apart: the navigator forgives malformed offsets and encoding errors, the
command line reports encoding and assembly errors, and everything else is passed on.

A message that would have to show an integer past the decimal limit cannot be
written. `refuse` checks this first, so that such a refusal turns into `tooManyDigits`
at the moment it is raised.
-/

set_option autoImplicit false

namespace EvmAssembler

/-- The groups of errors. -/
inductive ErrorKind where
  /-- An operand outside the encoder's domain. -/
  | invalidParameter
  /-- An immediate of the wrong length. -/
  | invalidImmediateLength
  /-- An opcode table that assigns a byte or a mnemonic twice. -/
  | opcodeCollision
  /-- A name that no family defines. -/
  | unknownMnemonic
  /-- A source text the assembler rejects. -/
  | assembly
  /-- An offset at which no instruction starts. -/
  | malformedOffset
  /-- A value of the wrong type. -/
  | wrongType
  /-- A text that cannot be read as a value, or a value that cannot be written as text. -/
  | wrongValue
  /-- A measure beyond what can be computed with. -/
  | outOfBounds
  /-- A value that no memory holds. -/
  | outOfMemory
  /-- A value without the feature asked of it. -/
  | missingFeature
  /-- A list without the item asked of it. -/
  | missingItem
  /-- An operation that this value leaves undefined. -/
  | undefinedOperation
  /-- A source text outside the grammar. -/
  | syntaxError
  deriving DecidableEq, Repr

/-- What is wrong with the data of a push. -/
inductive DataFault where
  /-- An item outside the range of a byte. -/
  | itemOutOfRange
  /-- An item that is no integer, by its type. -/
  | itemNotInteger (typeWord : String)
  /-- A text, which stands for bytes only under some encoding. -/
  | unencodedText
  /-- No list at all, by its type. -/
  | notSequence (typeWord : String)
  deriving DecidableEq, Repr

/-- The wording of a fault. -/
def DataFault.message : DataFault → String
  | itemOutOfRange => "bytes must be in range(0, 256)"
  | itemNotInteger word => "'" ++ word ++ "' object cannot be interpreted as an integer"
  | unencodedText => "string argument without an encoding"
  | notSequence word => "cannot convert '" ++ word ++ "' object to bytes"

/-- Why no instruction starts at an offset. -/
inductive OffsetFault where
  | negative
  | pastEnd
  | insideInstruction
  deriving DecidableEq, Repr

/-- The wording of an offset's fault. -/
def OffsetFault.message : OffsetFault → String
  | negative => "negative offset"
  | pastEnd => "past the end of the program"
  | insideInstruction => "inside an instruction"

/-- The causes of refusal. -/
inductive Error where
  | unknownByte (value : Datum)
  | stackIndex (n : Datum)
  | pushLength (length : Datum)
  | numberAsData (value : Datum)
  | badData (data : Datum) (fault : DataFault)
  | negativePush (value : Datum)
  | pushOverflow (value : Int) (width : Nat)
  | sharedCode (name other : String) (code : Int)
  | sharedMnemonic (name : String)
  /-- A member's name that is taken, with the value it is taken for. -/
  | repeatedMember (name : String) (value : Int)
  /-- A name that a family or its members cannot have. -/
  | reservedName (name : String)
  /-- A setting of a family that an integer cannot be. -/
  | unusableSetting (name : String)
  | unknownMnemonic (name : String)
  | notInFamily (operand : Operand) (family : Family)
  | notMember (value : Datum)
  /-- Something that is no instruction, with its value if that has a text. -/
  | notInstruction (value : Option Datum)
  | malformedOffset (offset : Int) (fault : OffsetFault)
  | duplicateLabel (name : String)
  | undefinedLabel (name : String)
  | unknownCommand (text : String)
  /-- A text that is no numeral. -/
  | badNumeral
  /-- An integer past the decimal limit, met while reading or about to be shown. -/
  | tooManyDigits
  /-- Values that have no order, or an operand no number can be made of. -/
  | notComparable
  /-- A text that was taken for a template and is none. -/
  | malformedTemplate
  /-- A template that asks for more digits than there can be. -/
  | tooPrecise
  /-- A text too long to be held. -/
  | tooWide
  /-- A loose value where an opcode's name, an integer's bytes or a literal's letters were asked
  for. -/
  | noSuchFeature
  /-- A reference without a name, or tokens without the one asked for. -/
  | emptyReference
  /-- A token that is no name, or that is neither a literal nor a list. -/
  | wrongToken
  /-- A record asked of the bare instruction. -/
  | noRecord
  /-- Source text that no part of the grammar takes. -/
  | unparsedText
  deriving Repr

namespace Error

/-- The group an error belongs to. -/
def kind : Error → ErrorKind
  | unknownByte _ | stackIndex _ | numberAsData _ | badData _ _ | negativePush _ =>
    .invalidParameter
  | pushLength _ | pushOverflow _ _ => .invalidImmediateLength
  | sharedCode _ _ _ | sharedMnemonic _ => .opcodeCollision
  | unknownMnemonic _ => .unknownMnemonic
  | duplicateLabel _ | undefinedLabel _ | unknownCommand _ => .assembly
  | malformedOffset _ _ => .malformedOffset
  | repeatedMember _ _ | unusableSetting _ | notInFamily _ _ | notMember _ | notInstruction _
  | notComparable | wrongToken => .wrongType
  | reservedName _ | badNumeral | tooManyDigits | malformedTemplate => .wrongValue
  | tooPrecise => .outOfBounds
  | tooWide => .outOfMemory
  | noSuchFeature => .missingFeature
  | emptyReference => .missingItem
  | noRecord => .undefinedOperation
  | unparsedText => .syntaxError

/-- Whether the error is the encoder's: a bad operand, immediate, table or mnemonic. -/
def isEncoding (e : Error) : Bool :=
  match e.kind with
  | .invalidParameter | .invalidImmediateLength | .opcodeCollision | .unknownMnemonic => true
  | _ => false

/-- The code of a collision: hexadecimal capitals, at least two characters, the sign
counted. -/
def codeText (code : Int) : String :=
  if code < 0 then "-" ++ Text.capitalHex code.natAbs
  else Text.padStart 2 '0' (Text.capitalHex code.natAbs)

/-- The wording of an error. Errors whose wording is not this library's have none. -/
def message : Error → Option String
  | unknownByte v => some ("Unknown opcode " ++ v.shown ++ " is not a byte")
  | stackIndex n => some ("Stack index " ++ n.shown ++ " out of range 1..16")
  | pushLength n => some ("Push immediate of " ++ n.shown ++ " bytes, need 1..32")
  | numberAsData v => some ("Immediate data must be a byte sequence, got " ++ v.shown)
  | badData v fault => some ("Invalid immediate data " ++ v.shown ++ ": " ++ fault.message)
  | negativePush v => some ("Cannot push negative value " ++ v.plain)
  | pushOverflow v width =>
    some ("Value " ++ Text.signedDecimal v ++ " does not fit in " ++ Text.decimal width
      ++ " bytes")
  | sharedCode name other code =>
    some (name ++ " and " ++ other ++ " share opcode 0x" ++ codeText code)
  | sharedMnemonic name => some ("Mnemonic " ++ name ++ " defined twice")
  | unknownMnemonic name => some ("Unknown mnemonic " ++ name)
  | notInFamily operand family =>
    some (operand.shown ++ " is not a " ++ family.name ++ " instruction")
  | notMember v => some (v.shown ++ " is not an opcode family member")
  | notInstruction v => v.map fun v => "Not an instruction: " ++ v.shown
  | malformedOffset offset fault =>
    some ("Malformed offset " ++ Text.signedDecimal offset ++ ": " ++ fault.message)
  | duplicateLabel name => some ("Duplicate label " ++ name)
  | undefinedLabel name => some ("Undefined label " ++ name)
  | unknownCommand text => some ("Unknown command " ++ text)
  | repeatedMember _ _ | reservedName _ | unusableSetting _ | badNumeral | tooManyDigits
  | notComparable | malformedTemplate | tooPrecise | tooWide | noSuchFeature | emptyReference
  | wrongToken | noRecord | unparsedText => none

/-- Whether the error can be reported: nothing it has to show is an integer past the decimal
limit. -/
def isShowable : Error → Bool
  | unknownByte v | stackIndex v | pushLength v | numberAsData v | badData v _
  | negativePush v | notMember v => v.isShowable
  | pushOverflow v _ | repeatedMember _ v => Text.hasDecimal v
  | notInFamily operand _ => operand.isShowable
  | notInstruction v => v.all Datum.isShowable
  | malformedOffset offset _ => Text.hasDecimal offset
  | _ => true

end Error

/-- Fails with the error, or with `tooManyDigits` if it cannot be reported. -/
def refuse {α : Type} (e : Error) : Except Error α :=
  .error (if e.isShowable then e else .tooManyDigits)

end EvmAssembler
