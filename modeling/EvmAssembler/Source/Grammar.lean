import EvmAssembler.Error
import EvmAssembler.Source.Action
import EvmAssembler.Source.Recogniser
import EvmAssembler.Text.Case
import EvmAssembler.Text.Numeral
import EvmAssembler.Text.Word

/-!
# `EvmAssembler.Source.Grammar`: the grammar of source text

A source text is a sequence of segments: statements, comments, and lines that are
neither. At each place the longest of the three is taken, so a statement with anything
but a comment after it on its last line loses to `unknownLine`, which takes the whole
line. A statement is a label, a command, or both; a command may stand on the line after
its label, and an operand on the line after its keyword, because line ends are skipped
before every token.

A fixed mnemonic is compared in capitals, and the text compared may end before the
mnemonic does if capitalising lengthens it. Such a match takes as many characters as the
mnemonic has, which is past the end of the text.

The index of `dup` and `swap` is turned into a number here. Its digits may be too many for
that, and then the whole text is refused, but only if the statement is the one taken.
-/

set_option autoImplicit false

namespace EvmAssembler.Source

open Recogniser

/-- What a statement asks for. An action with an index of too many digits is an error. -/
abbrev Finding := List (Except Error Action)

/-! ### Names and literals -/

/-- A name starts with an ASCII letter or an underscore. -/
def isNameStart (c : Char) : Bool :=
  c.isAlpha || c == '_'

/-- Digits too may follow the first character of a name. -/
def isNameRest (c : Char) : Bool :=
  c.isAlphanum || c == '_'

/-- A name: ASCII letters, digits and underscores, no digit first. -/
def name : Recogniser String := fun p =>
  match p.rest with
  | c :: rest =>
    if isNameStart c then
      let taken := c :: rest.takeWhile isNameRest
      some (String.ofList taken, taken.length)
    else none
  | [] => none

/-- A hexadecimal literal: its mark and at least one digit. -/
def hexLiteral : Recogniser String := fun p =>
  match p.rest with
  | '0' :: x :: rest =>
    if x == 'x' || x == 'X' then
      let digits := rest.takeWhile fun c => (Text.hexDigit? c).isSome
      if digits.isEmpty then none
      else some (String.ofList ('0' :: x :: digits), digits.length + 2)
    else none
  | _ => none

/-- A decimal literal. -/
def decimalLiteral : Recogniser String :=
  (run Char.isDigit).map String.ofList

/-- An integer literal. -/
def integerLiteral : Recogniser String :=
  hexLiteral.token.orElse decimalLiteral.token

/-- A name with the mark that makes it a namespace. -/
def namespacePart : Recogniser String :=
  name.token.andThen fun space => (exactly [':', ':']).token.map fun _ => space

/-- A reference to a label. Once a namespace has been taken, a name must follow. -/
def reference : Recogniser LabelPath :=
  (exactly ['&']).token.andThen fun _ =>
    namespacePart.optional.andThen fun space =>
      name.token.map fun label => space.toList ++ [label]

/-! ### Commands -/

/-- A keyword in any case, as it is written. -/
def keyword (letters : List Char) : Recogniser (List Char) := fun p =>
  let taken := p.rest.take letters.length
  if taken.length = letters.length ∧ (letters.zip taken).all fun (l, c) => Text.sameLetter l c then
    some (taken, letters.length)
  else none

/-- The end of a word: no character that could continue it follows. -/
def wordEnd : Recogniser Unit := fun p =>
  if p.rest.head?.any Text.isWord then none else some ((), 0)

/-- The number that ASCII digits stand for, unless they are too many. -/
def index? (digits : List Char) : Except Error Nat :=
  if Text.maxDecimalDigits < digits.length then .error .tooManyDigits
  else .ok (Text.ofDigits 10 (digits.map fun c => c.toNat - '0'.toNat))

/-- A keyword with an index attached. -/
def indexed (letters : List Char) (make : Nat → Action) : Recogniser (Except Error Action) :=
  (keyword letters).andThen fun _ =>
    (run Char.isDigit).andThen fun digits =>
      wordEnd.map fun _ => (index? digits).map make

/-- Whether a character would continue a fixed mnemonic. -/
def continuesMnemonic (c : Char) : Bool :=
  match Text.capital c with
  -- Among capitals, only those that ASCII words are made of count.
  | [u] => u.isUpper || u.isDigit || u == '_' || u == '$'
  | _ => false

/-- The mnemonic of a fixed opcode, with nothing around that would continue it. -/
def mnemonic (op : Opcode) : Recogniser Action := fun p =>
  let letters := op.name.toList
  if Text.capitals (p.rest.take letters.length) = letters
      ∧ !p.before.any continuesMnemonic
      ∧ !(p.rest.drop letters.length).head?.any continuesMnemonic then
    some (.opcode op, letters.length)
  else none

/-- A push keyword with its width, if it has one, as it is written. -/
def pushKeyword : Recogniser String :=
  (keyword ['p', 'u', 's', 'h']).andThen fun letters =>
    (run Char.isDigit).optional.andThen fun digits =>
      wordEnd.map fun _ => String.ofList (letters ++ digits.getD [])

/-- What a push is given: a literal or a reference. -/
def pushOperand : Recogniser PushOperand :=
  (integerLiteral.map .literal).orElse (reference.map .reference)

/-- A push. -/
def push : Recogniser Action :=
  pushKeyword.token.andThen fun written => pushOperand.map fun operand => .push written operand

/-- The directive for a byte, in any case. -/
def byteDirective : Recogniser Unit := fun p =>
  if Text.capitals (p.rest.take 5) = ['.', 'B', 'Y', 'T', 'E'] then some ((), 5) else none

/-- A byte that stands for itself. -/
def byte : Recogniser Action :=
  byteDirective.token.andThen fun _ => integerLiteral.map fun literal => .byte literal

/-- A fixed mnemonic, the first that matches in the order of the opcode table. -/
def fixedCommand : Recogniser Action :=
  (firstOf (Opcode.all.map mnemonic)).token

/-- A command: the longest of its kinds. -/
def command : Recogniser (Except Error Action) :=
  (fixedCommand.map .ok).longer <|
    (indexed ['d', 'u', 'p'] .dup).token.longer <|
      (indexed ['s', 'w', 'a', 'p'] .swap).token.longer <|
        (push.map .ok).longer (byte.map .ok)

/-! ### Segments -/

/-- The definition of a label. -/
def label : Recogniser Action :=
  name.token.andThen fun label => (exactly [':']).token.map fun _ => .label label

/-- A comment: its mark and the rest of the line. -/
def comment : Recogniser Unit :=
  (exactly ['/', '/']).token.andThen fun _ p =>
    some ((), (p.rest.takeWhile (· != '\n')).length)

/-- A label with or without a command, or a command alone. -/
def instructionLine : Recogniser Finding :=
  (label.andThen fun l => command.optional.map fun c => .ok l :: c.toList).orElse
    (command.map ([·]))

/-- A statement with or without a comment, which may stand on a later line. -/
def statement : Recogniser Finding :=
  instructionLine.andThen fun actions => comment.optional.map fun _ => actions

/-- All of a line up to its last character that is not white space. -/
def unknownLine : Recogniser String :=
  Recogniser.token fun p =>
    let line := p.rest.takeWhile (· != '\n')
    -- A carriage return before the line feed is white space too, so it is not part of the text.
    let text := (line.reverse.dropWhile Text.isBlank).reverse
    if text.isEmpty then none else some (String.ofList text, text.length)

/-- What a segment is. -/
inductive SegmentKind where
  | statement
  | comment
  | unknown
  deriving DecidableEq, Repr

/-- A segment's kind and what it asks for: the longest of the three kinds. -/
def segment : Recogniser (SegmentKind × Finding) :=
  (statement.map fun actions => (.statement, actions)).longer <|
    (comment.map fun _ => (.comment, [])).longer
      (unknownLine.map fun text => (.unknown, [.ok (.unknown text)]))

/-! ### Every segment shortens the text -/

/-- A name has its first character. -/
theorem consumes_name : name.Consumes := by
  intro p a n h
  simp only [name] at h
  split at h
  · rename_i c rest hrest
    split at h
    · obtain ⟨-, rfl⟩ := Prod.mk.inj (Option.some.inj h)
      simp only [hrest, List.length_cons, List.length_drop]
      omega
    · simp at h
  · simp at h

/-- A keyword takes its own letters, of which there is at least one. -/
theorem consumes_keyword {letters : List Char} (hl : letters ≠ []) :
    (keyword letters).Consumes := by
  intro p a n h
  simp only [keyword] at h
  split at h
  · rename_i hp
    obtain ⟨-, rfl⟩ := Prod.mk.inj (Option.some.inj h)
    have hpos : 0 < letters.length := List.length_pos_iff.mpr hl
    have hlen := hp.1
    simp only [List.length_take, List.length_drop] at hlen ⊢
    omega
  · simp at h

/-- A mnemonic takes as many characters as its name has, and no name is empty. -/
theorem consumes_mnemonic (op : Opcode) : (mnemonic op).Consumes := by
  intro p a n h
  simp only [mnemonic] at h
  split at h
  · rename_i hp
    obtain ⟨-, rfl⟩ := Prod.mk.inj (Option.some.inj h)
    have hpos : op.name.toList ≠ [] := by cases op <;> simp [Opcode.name]
    have hlen : 0 < op.name.toList.length := List.length_pos_iff.mpr hpos
    have hne : p.rest ≠ [] := by
      intro hnil
      rw [hnil] at hp
      simp at hp
      exact hpos (by simp [← hp.1])
    have := List.length_pos_iff.mpr hne
    simp only [List.length_drop]
    omega
  · simp at h

/-- The byte directive takes five characters, which are not there at the end of the source. -/
theorem consumes_byteDirective : byteDirective.Consumes := by
  intro p a n h
  simp only [byteDirective] at h
  split at h
  · rename_i hp
    obtain ⟨-, rfl⟩ := Prod.mk.inj (Option.some.inj h)
    have hne : p.rest ≠ [] := by
      intro hnil
      simp [hnil] at hp
    have := List.length_pos_iff.mpr hne
    simp only [List.length_drop]
    omega
  · simp at h

/-- Whichever mnemonic matches, it shortens the text. -/
theorem consumes_fixedCommand : fixedCommand.Consumes := by
  apply Consumes.token
  apply Consumes.firstOf
  intro r hr
  obtain ⟨op, -, rfl⟩ := List.mem_map.mp hr
  exact consumes_mnemonic op

/-- Every command starts with a word of its own. -/
theorem consumes_command : command.Consumes := by
  refine (consumes_fixedCommand.map _).longer (Consumes.longer ?_ (Consumes.longer ?_ ?_))
  · exact ((consumes_keyword (by simp)).andThen _).token
  · exact ((consumes_keyword (by simp)).andThen _).token
  · refine Consumes.longer (Consumes.map ?_ _) (Consumes.map ?_ _)
    · exact ((consumes_keyword (by simp)).andThen _).token.andThen _
    · exact consumes_byteDirective.token.andThen _

/-- A comment has at least its two slashes. -/
theorem consumes_comment : comment.Consumes :=
  (consumes_exactly (by simp)).token.andThen _

/-- A statement starts with a label or a command. -/
theorem consumes_statement : statement.Consumes :=
  Consumes.andThen (Consumes.orElse ((consumes_name.token.andThen _).andThen _)
    (consumes_command.map _)) _

/-- A rejected line is not empty. -/
theorem consumes_unknownLine : unknownLine.Consumes := by
  apply Consumes.token
  intro p a n h
  dsimp only at h
  split at h
  · simp at h
  · rename_i hne
    obtain ⟨-, rfl⟩ := Prod.mk.inj (Option.some.inj h)
    have hpos : 0 < ((p.rest.takeWhile (· != '\n')).reverse.dropWhile Text.isBlank).length := by
      rw [List.length_pos_iff]
      simpa using hne
    have h1 := (List.dropWhile_suffix (l := (p.rest.takeWhile (· != '\n')).reverse)
      Text.isBlank).length_le
    have h2 := (List.takeWhile_sublist (l := p.rest) (· != '\n')).length_le
    simp only [List.length_reverse, List.length_drop] at h1 ⊢
    omega

/-- A segment is never empty, so reading segment after segment comes to an end. -/
theorem consumes_segment : segment.Consumes :=
  (consumes_statement.map _).longer ((consumes_comment.map _).longer (consumes_unknownLine.map _))

end EvmAssembler.Source
