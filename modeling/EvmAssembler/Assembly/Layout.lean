import EvmAssembler.Event
import EvmAssembler.Immediate
import EvmAssembler.Program
import EvmAssembler.Source.Action

/-!
# `EvmAssembler.Assembly.Layout`: laying out a program

The first pass over the source performs its actions one after another and keeps a
`Layout`: what has been placed so far, how many bytes that takes, and the offset of every
label defined. A reference to a label is placed as a promise of a push: its width is known
at once, so everything behind it has its offset before the label is even defined. The
promise is kept by `Layout.program`, once all labels are there.

An action either succeeds with a new layout or fails, and a failure leaves the layout as
it was.
-/

set_option autoImplicit false

namespace EvmAssembler

/-- Something placed: an instruction, or a push of a label's offset in a fixed width. -/
inductive Placement where
  | instruction (i : Instruction)
  | reference (width : Nat) (label : String)

/-- A program in the making. Its lists have the newest item first. -/
structure Layout where
  placed : List Placement
  /-- The bytes that the placements take. -/
  offset : Nat
  /-- The namespace that plain names belong to. -/
  space : String
  /-- The qualified labels with their offsets. -/
  labels : List (String × Nat)
  reported : List Event

namespace Layout

open Source (LabelPath PushOperand Action)

/-- The width of a reference whose keyword gives none. -/
def defaultReferenceWidth : Nat := 2

/-- Nothing placed, in the namespace outside all units. -/
def empty : Layout where
  placed := []
  offset := 0
  space := "<global>"
  labels := []
  reported := []

/-- What has been placed, in order. -/
def placements (l : Layout) : List Placement :=
  l.placed.reverse

/-- The events so far, in order. -/
def events (l : Layout) : List Event :=
  l.reported.reverse

/-- The layout with one more event. -/
def report (l : Layout) (e : Event) : Layout :=
  { l with reported := e :: l.reported }

/-- The layout with another current namespace. -/
def enter (l : Layout) (space : String) : Layout :=
  { l with space := space }

/-- A label's name under a namespace. -/
def qualified (space name : String) : String :=
  space ++ "::" ++ name

/-- The label a path means: a lone name belongs to the current namespace. -/
def resolve (l : Layout) : LabelPath → Except Error String
  | [] => refuse .emptyReference
  | [name] => .ok (qualified l.space name)
  -- The grammar gives two names at most.
  | space :: name :: _ => .ok (qualified space name)

/-- Places an instruction. One that cannot be encoded is refused. -/
def issue (l : Layout) (i : Instruction) : Except Error Layout :=
  i.size.bind fun width => i.mnemonic.map fun mnemonic =>
    { l.report (.issuing mnemonic l.offset) with
      placed := .instruction i :: l.placed
      offset := l.offset + width }

/-- Defines a label at the current offset. -/
def define (l : Layout) (name : String) : Except Error Layout :=
  let label := qualified l.space name
  if (l.labels.lookup label).isSome then refuse (.duplicateLabel label)
  else .ok { l.report (.labelled label l.offset) with labels := (label, l.offset) :: l.labels }

/-- Places a reference of the given width: an opcode and as many bytes. -/
def refer (l : Layout) (width : Datum) (path : LabelPath) : Except Error Layout :=
  match indexWithin? maxPushBytes width with
  | none => refuse (.pushLength width)
  | some w => (l.resolve path).map fun label =>
    { l.report (.referring label) with
      placed := .reference w label :: l.placed
      offset := l.offset + (1 + w) }

/-- The integer of a literal. -/
def ofReading : Text.Reading → Except Error Int
  | .value n => .ok n
  | .malformed => .error .badNumeral
  | .tooLong => .error .tooManyDigits

/-- Places a byte that stands for itself. -/
def issueByte (l : Layout) (literal : String) : Except Error Layout :=
  (ofReading (Text.readInteger literal.toList)).bind fun n =>
    (Instruction.ofByte (.int n)).bind l.issue

/-- The width a push keyword gives: the numeral behind its four letters. -/
def keywordWidth (keyword : String) : Except Error (Option Int) :=
  match keyword.toList.drop 4 with
  | [] => .ok none
  | digits => (ofReading (Text.readDecimal digits)).map some

/-- The push of a literal. A hexadecimal one without a width keeps the length it is written
in, leading zeros included; any other is a number. -/
def literalPush (width : Option Int) (literal : String) : Except Error Instruction :=
  if width.isNone && Text.isHexMarked literal.toList then
    match Text.readHexBytes literal.toList with
    | some bytes => .ok (.push bytes)
    | none => .error .badNumeral
  else
    (ofReading (Text.readInteger literal.toList)).bind fun n => Instruction.pushInt n width

/-- Places a push. -/
def issuePush (l : Layout) (keyword : String) (operand : PushOperand) : Except Error Layout :=
  (keywordWidth keyword).bind fun width =>
    match operand with
    | .literal text => (literalPush width text).bind l.issue
    | .reference path => l.refer (.int (width.getD defaultReferenceWidth)) path

/-- Performs an action. -/
def perform (l : Layout) : Action → Except Error Layout
  | .opcode op => l.issue (.ofOpcode op)
  | .dup n => l.issue (.dup (.int n))
  | .swap n => l.issue (.swap (.int n))
  | .push keyword operand => l.issuePush keyword operand
  | .byte literal => l.issueByte literal
  | .label name => l.define name
  | .unknown text => refuse (.unknownCommand text)

/-- Performs actions up to the first failure, which is returned with the layout it left. -/
def performAll (l : Layout) : List Action → Layout × Option Error
  | [] => (l, none)
  | a :: rest =>
    match l.perform a with
    | .ok next => performAll next rest
    | .error e => (l, some e)

/-- The instruction a placement becomes once the labels are known. -/
def settle (labels : List (String × Nat)) : Placement → Except Error Instruction
  | .instruction i => .ok i
  | .reference width label =>
    match labels.lookup label with
    | some offset => Instruction.pushInt offset (some width)
    | none => refuse (.undefinedLabel label)

/-- The program that was laid out, every reference settled. -/
def program (l : Layout) : Except Error Program :=
  l.placements.mapM (settle l.labels)

end Layout

end EvmAssembler
