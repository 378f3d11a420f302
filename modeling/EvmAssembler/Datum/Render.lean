import EvmAssembler.Datum
import EvmAssembler.Number.Shortest
import EvmAssembler.Text.Quoted

/-!
# `EvmAssembler.Datum.Render`: data as message text

How a message shows a datum. Texts stand between quotes, in a list or dictionary
and on their own; `plain` leaves a lone text bare, as mnemonics do. An integer past
the decimal limit cannot be shown, and with it no datum that holds one:
`isShowable` says so in advance.
-/

set_option autoImplicit false

namespace EvmAssembler.Datum

mutual

/-- Whether the datum's text exists: no integer in it exceeds the decimal limit. -/
def isShowable : Datum → Bool
  | int n => Text.hasDecimal n
  | list items => areShowable items
  | dict entries => entriesShowable entries
  | object o => o.texts?.isSome
  | _ => true

/-- Whether every item of a list has a text. -/
def areShowable : List Datum → Bool
  | [] => true
  | x :: rest => isShowable x && areShowable rest

/-- Whether every value of a dictionary has a text. -/
def entriesShowable : List (String × Datum) → Bool
  | [] => true
  | (_, x) :: rest => isShowable x && entriesShowable rest

end

mutual

/-- The text of a datum in a message. -/
def shown : Datum → String
  | null => "None"
  | bool true => "True"
  | bool false => "False"
  | int n => Text.signedDecimal n
  | real x => x.text
  | text s => Text.quoted s
  | list items => "[" ++ ", ".intercalate (shownItems items) ++ "]"
  | dict entries => "\x7b" ++ ", ".intercalate (shownEntries entries) ++ "\x7d"
  | object o => (o.texts?.map ObjectTexts.shown).getD ""

/-- The texts of a list's items. -/
def shownItems : List Datum → List String
  | [] => []
  | x :: rest => shown x :: shownItems rest

/-- The texts of a dictionary's entries, key and value. -/
def shownEntries : List (String × Datum) → List String
  | [] => []
  | (key, x) :: rest => (Text.quoted key ++ ": " ++ shown x) :: shownEntries rest

end

/-- The text of a datum where a lone text stands without quotes. -/
def plain : Datum → String
  | text s => s
  | object o => (o.texts?.map ObjectTexts.plain).getD ""
  | x => shown x

/-- The word for the datum's type in a message. -/
def typeWord : Datum → String
  | null => "NoneType"
  | bool _ => "bool"
  | int _ => "int"
  | real _ => "float"
  | text _ => "str"
  | list _ => "list"
  | dict _ => "dict"
  | object o => o.typeWord

end EvmAssembler.Datum
