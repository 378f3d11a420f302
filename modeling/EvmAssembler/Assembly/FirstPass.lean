import EvmAssembler.Assembly.Layout

/-!
# `EvmAssembler.Assembly.FirstPass`: the first pass as a machine

The actions of the grammar reach the first pass as calls of its handlers. The handlers can be
called with anything, though: their arguments are loose values, and the tokens of a call may be
too few or of the wrong type. A `Call` is such a call.

A handler works on the layout in place. It goes through its checks and changes one field after
another, and where a check fails, the layout stays as it is at that moment: nothing is undone.
So `Call.perform` is a program over the layout that can fail at any point with the layout it has
left by then, and `Call.leave` is that layout, whether the call has failed or not. The driver of
the assembler goes on after a success only. `Layout.after` goes on after a failure too.

`Call.ofAction` is the call that the grammar makes for an action. `Layout.perform` answers actions
without going through the steps of a call.
-/

set_option autoImplicit false

namespace EvmAssembler

open MonadExcept (ofExcept)

namespace Layout

/-- A label's name under a namespace, or under the current one if none is given. -/
def qualify (l : Layout) (space name : Datum) : Except Error String :=
  match space, name with
  | .null, .text name => .ok (qualified l.space name)
  | .text space, .text name => .ok (qualified space name)
  | _, _ => refuse .wrongToken

/-- The label that the tokens of a reference mean. A lone one is a name, and otherwise the
first is a namespace and the second a name there. -/
def target (l : Layout) : List Datum → Except Error String
  | [] => refuse .emptyReference
  | [name] => l.qualify .null name
  | space :: name :: _ => l.qualify space name

end Layout

/-- A program that works on a layout in place. A failure keeps what has been done before it. -/
abbrev Pass := EStateM Error Layout

namespace Pass

/-- The token at an index. -/
def token (tokens : List Datum) (index : Nat) : Except Error Datum :=
  match tokens[index]? with
  | some d => .ok d
  | none => refuse .emptyReference

/-- The text that a message or a keyword makes of a token. -/
def spelled (d : Datum) : Except Error String :=
  if d.isShowable then .ok d.plain else .error .tooManyDigits

/-- The letters of a literal. -/
def literal : Datum → Except Error String
  | .text s => .ok s
  | _ => refuse .noSuchFeature

/-- The items of an operand that is no text. A dictionary counts as the list of its keys. -/
def items : Datum → Except Error (List Datum)
  | .list items => .ok items
  | .dict entries => .ok (entries.map fun (key, _) => .text key)
  | _ => refuse .wrongToken

/-- Places an instruction. One that cannot be encoded is refused. -/
def issue (i : Instruction) : Pass Unit := do
  let width ← ofExcept i.size
  let mnemonic ← ofExcept i.mnemonic
  modify fun l => l.report (.issuing mnemonic l.offset)
  modify fun l => { l with placed := .instruction i :: l.placed }
  modify fun l => { l with offset := l.offset + width }

/-- Places a reference of the given width: an opcode and as many bytes. -/
def refer (width : Datum) (tokens : List Datum) : Pass Unit := do
  match indexWithin? maxPushBytes width with
  | none => ofExcept (refuse (.pushLength width))
  | some w =>
    let l ← get
    let label ← ofExcept (l.target tokens)
    modify fun l => l.report (.referring label)
    modify fun l => { l with placed := .reference w label :: l.placed }
    modify fun l => { l with offset := l.offset + (1 + w) }

/-- Defines a label at the current offset. -/
def define (tokens : List Datum) : Pass Unit := do
  let name ← ofExcept (token tokens 0)
  let l ← get
  let label ← ofExcept (l.qualify .null name)
  if (l.labels.lookup label).isSome then ofExcept (refuse (.duplicateLabel label))
  else
    modify fun l => { l with labels := (label, l.offset) :: l.labels }
    modify fun l => l.report (.labelled label l.offset)

/-- Places a byte that stands for itself. -/
def issueByte (tokens : List Datum) : Pass Unit := do
  let text ← ofExcept ((token tokens 0).bind literal)
  let n ← ofExcept (Layout.ofReading (Text.readInteger text.toList))
  let i ← ofExcept (Instruction.ofByte (.int n))
  issue i

/-- Places a push. The operand is a literal if it is a text, and otherwise a reference. -/
def issuePush (tokens : List Datum) : Pass Unit := do
  let keyword ← ofExcept ((token tokens 0).bind spelled)
  let width ← ofExcept (Layout.keywordWidth keyword)
  let operand ← ofExcept (token tokens 1)
  match operand with
  | .text text =>
    let i ← ofExcept (Layout.literalPush width text)
    issue i
  | _ =>
    let path ← ofExcept (items operand)
    refer (.int (width.getD Layout.defaultReferenceWidth)) path

/-- Rejects a line. -/
def reject (tokens : List Datum) : Pass Unit := do
  let text ← ofExcept ((token tokens 0).bind spelled)
  ofExcept (refuse (.unknownCommand text))

end Pass

/-- A call of a handler of the first pass, or a change of the namespace between two calls. -/
inductive Call where
  | enter (space : String)
  | issue (i : Instruction)
  | fixed (member : Operand)
  | dup (n : Datum)
  | swap (n : Datum)
  | byte (tokens : List Datum)
  | push (tokens : List Datum)
  | label (tokens : List Datum)
  | refer (width : Datum) (tokens : List Datum)
  | reject (tokens : List Datum)

namespace Call

/-- What a call does. -/
def perform : Call → Pass Unit
  | enter space => modify fun l => l.enter space
  | issue i => Pass.issue i
  | fixed member => do
    let i ← ofExcept (Instruction.ofOperand member)
    Pass.issue i
  | dup n => Pass.issue (.dup n)
  | swap n => Pass.issue (.swap n)
  | byte tokens => Pass.issueByte tokens
  | push tokens => Pass.issuePush tokens
  | label tokens => Pass.define tokens
  | refer width tokens => Pass.refer width tokens
  | reject tokens => Pass.reject tokens

/-- The layout that a call leaves, be it by an answer or by a failure. -/
def leave (c : Call) (l : Layout) : Layout :=
  match c.perform.run l with
  | .ok _ next => next
  | .error _ left => left

/-- The call that the grammar makes for an action. -/
def ofAction : Source.Action → Call
  | .opcode op => fixed (.opcode op)
  | .dup n => dup (.int n)
  | .swap n => swap (.int n)
  | .push keyword (.literal text) => push [.text keyword, .text text]
  | .push keyword (.reference path) => push [.text keyword, .list (path.map .text)]
  | .byte literal => byte [.text literal]
  | .label name => label [.text name]
  | .unknown text => reject [.text text]

end Call

/-- The layout after a run of calls on an empty one, failed calls included. -/
def Layout.after (calls : List Call) : Layout :=
  calls.foldl (fun l c => c.leave l) .empty

end EvmAssembler
