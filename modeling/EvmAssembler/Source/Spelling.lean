import EvmAssembler.Instruction

/-!
# `EvmAssembler.Source.Spelling`: the ways to write a program

`Spelling i text` says that a text is one way to write an instruction, and `Listing p text`
that a text lists a program, one instruction a line, under any choice of letter case,
indentation, blank lines and comments. Neither mentions the grammar: they say what an
author may write, and the grammar has to read it back.

An instruction that cannot be encoded has no spelling, and neither has an annotation.
-/

set_option autoImplicit false

namespace EvmAssembler.Source

/-- Texts that differ in the case of their ASCII letters only. -/
def SameLetters (written letters : List Char) : Prop :=
  written.map Char.toLower = letters.map Char.toLower

instance (written letters : List Char) : Decidable (SameLetters written letters) :=
  inferInstanceAs (Decidable (_ = _))

/-- Spaces and tabs. -/
def IsMargin (text : List Char) : Prop :=
  ∀ c ∈ text, c = ' ' ∨ c = '\t'

instance (text : List Char) : Decidable (IsMargin text) :=
  List.decidableBAll (fun c => c = ' ' ∨ c = '\t') text

/-- What may end a line: a margin, and a comment or none. -/
inductive IsTrailer : List Char → Prop where
  | margin {space : List Char} : IsMargin space → IsTrailer space
  | comment {space text : List Char} : IsMargin space → '\n' ∉ text →
    IsTrailer (space ++ '/' :: '/' :: text)

/-- Literals of a byte: decimal or hexadecimal, with any leading zeros that leave a decimal
one within the limit. -/
inductive IsByteLiteral (b : UInt8) : List Char → Prop where
  | decimal {zeros : Nat} : zeros + (Text.decimal b.toNat).length ≤ Text.maxDecimalDigits →
    IsByteLiteral b (List.replicate zeros '0' ++ (Text.decimal b.toNat).toList)
  | hex {zeros : Nat} {written : List Char} :
    SameLetters written ('0' :: 'x' :: List.replicate zeros '0' ++ Text.hexDigits b.toNat) →
    IsByteLiteral b written

/-- The ways to write an instruction on a line of its own. -/
inductive Spelling : Instruction → List Char → Prop where
  | fixed {op : Opcode} {word : List Char} : SameLetters word op.name.toList →
    Spelling (.ofOpcode op) word
  | dup {n : Nat} {word : List Char} : 1 ≤ n → n ≤ 16 →
    SameLetters word ("DUP" ++ Text.decimal n).toList → Spelling (.dup (.int n)) word
  | swap {n : Nat} {word : List Char} : 1 ≤ n → n ≤ 16 →
    SameLetters word ("SWAP" ++ Text.decimal n).toList → Spelling (.swap (.int n)) word
  | push {data : List UInt8} {word space literal : List Char} :
    1 ≤ data.length → data.length ≤ 32 →
    SameLetters word ("PUSH" ++ Text.decimal data.length).toList →
    IsMargin space → space ≠ [] →
    SameLetters literal ("0x" ++ Text.bytesHex data).toList →
    Spelling (.push data) (word ++ space ++ literal)
  | byte {b : UInt8} {word space literal : List Char} :
    SameLetters word ".byte".toList → IsMargin space → IsByteLiteral b literal →
    Spelling (.unknown b) (word ++ space ++ literal)

/-- The texts that list a program: a line for each instruction, and lines without one in
between. The last line need not end. -/
inductive Listing : List Instruction → List Char → Prop where
  | last {text : List Char} : IsTrailer text → Listing [] text
  | lastLine {i : Instruction} {margin word trailer : List Char} : IsMargin margin →
    Spelling i word → IsTrailer trailer → Listing [i] (margin ++ word ++ trailer)
  | empty {p : List Instruction} {text rest : List Char} : IsTrailer text → Listing p rest →
    Listing p (text ++ '\n' :: rest)
  | line {i : Instruction} {p : List Instruction} {margin word trailer rest : List Char} :
    IsMargin margin → Spelling i word → IsTrailer trailer → Listing p rest →
    Listing (i :: p) (margin ++ word ++ trailer ++ '\n' :: rest)

end EvmAssembler.Source
