/-!
# `EvmAssembler.Text.Lines`: tabs and line ends

Source text is prepared in two ways before it is read. A file's line ends are
brought to line feeds when it is loaded, and tabs are widened to columns before
the grammar sees the text, so that a rejected line is shown as it stood.
-/

set_option autoImplicit false

namespace EvmAssembler.Text

/-- The distance between two tab stops. -/
def tabWidth : Nat := 8

/-- Widens tabs by spaces up to the next tab stop, for text that starts in the given
column. Columns count characters and start over after a line feed or a carriage
return. -/
def expandTabsFrom (column : Nat) : List Char → List Char
  | [] => []
  | '\t' :: rest =>
    let step := tabWidth - column % tabWidth
    List.replicate step ' ' ++ expandTabsFrom (column + step) rest
  | c :: rest =>
    c :: expandTabsFrom (if c = '\n' ∨ c = '\r' then 0 else column + 1) rest

/-- The text with its tabs widened. -/
def expandTabs (text : List Char) : List Char :=
  expandTabsFrom 0 text

/-- Brings every line end, be it `\r\n` or a lone `\r`, to a line feed. -/
def unifyLineEnds : List Char → List Char
  | [] => []
  | '\r' :: '\n' :: rest => '\n' :: unifyLineEnds rest
  | '\r' :: rest => '\n' :: unifyLineEnds rest
  | c :: rest => c :: unifyLineEnds rest

end EvmAssembler.Text
