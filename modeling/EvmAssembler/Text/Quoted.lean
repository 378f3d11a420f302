import EvmAssembler.Text.Numeral
import EvmAssembler.Text.Printable

/-!
# `EvmAssembler.Text.Quoted`: text between quotes

A message shows a text between single quotes, or between double quotes when the
text holds a single quote and no double one. The quote in use and the backslash
are escaped by a backslash; tab, line feed and carriage return have letters; any
other unprintable character is written by its code point in the shortest of the
three fixed widths.
-/

set_option autoImplicit false

namespace EvmAssembler.Text

/-- The quote a text is shown between. -/
def quoteMark (cs : List Char) : Char :=
  if cs.contains '\x27' && !cs.contains '\x22' then '\x22' else '\x27'

/-- One character between quotes. -/
def quotedChar (mark c : Char) : List Char :=
  if c = mark || c = '\\' then ['\\', c]
  else if c = '\t' then ['\\', 't']
  else if c = '\n' then ['\\', 'n']
  else if c = '\r' then ['\\', 'r']
  else if isPrintable c then [c]
  else
    let digits := String.ofList (hexDigits c.toNat)
    if c.toNat < 0x100 then '\\' :: 'x' :: (padStart 2 '0' digits).toList
    else if c.toNat < 0x10000 then '\\' :: 'u' :: (padStart 4 '0' digits).toList
    else '\\' :: 'U' :: (padStart 8 '0' digits).toList

/-- The text between quotes. -/
def quoted (text : String) : String :=
  let cs := text.toList
  let mark := quoteMark cs
  String.ofList (mark :: cs.flatMap (quotedChar mark) ++ [mark])

end EvmAssembler.Text
