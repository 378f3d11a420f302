import EvmAssembler.Datum.Render

/-!
# `EvmAssembler.Datum.Json`: data as indented JSON

The text of a dump. Every item of a list and every field of an object has a line of its
own, indented by two spaces for each level. Characters outside printable ASCII are
escaped by their UTF-16 units.
-/

set_option autoImplicit false

namespace EvmAssembler.Datum

/-- A UTF-16 unit as an escape. -/
def jsonUnit (unit : Nat) : List Char :=
  '\\' :: 'u' :: (Text.padStart 4 '0' (String.ofList (Text.hexDigits unit))).toList

/-- A character inside a JSON string. -/
def jsonChar (c : Char) : List Char :=
  if c = '\x22' ∨ c = '\\' then ['\\', c]
  else if c = '\n' then ['\\', 'n']
  else if c = '\r' then ['\\', 'r']
  else if c = '\t' then ['\\', 't']
  else if c = '\x08' then ['\\', 'b']
  else if c = '\x0c' then ['\\', 'f']
  else if 32 ≤ c.toNat ∧ c.toNat < 127 then [c]
  else if c.toNat < 0x10000 then jsonUnit c.toNat
  else jsonUnit (0xD800 + (c.toNat - 0x10000) / 0x400)
    ++ jsonUnit (0xDC00 + (c.toNat - 0x10000) % 0x400)

/-- A text as a JSON string. -/
def jsonString (s : String) : String :=
  String.ofList ('\x22' :: s.toList.flatMap jsonChar ++ ['\x22'])

/-- The start of a line at a level of nesting. -/
def jsonIndent (level : Nat) : String :=
  "\n" ++ String.ofList (List.replicate (2 * level) ' ')

/-- A real as a JSON number. The values that are no JSON numbers have their names. -/
def jsonReal (x : Binary64) : String :=
  if x.isFinite then x.text
  else if x.fraction ≠ 0 then "NaN"
  else if x.negative then "-Infinity"
  else "Infinity"

mutual

/-- The JSON text of a datum at a level of nesting. -/
def json (level : Nat) : Datum → String
  | null => "null"
  | bool true => "true"
  | bool false => "false"
  | int n => Text.signedDecimal n
  | real x => jsonReal x
  | text s => jsonString s
  | list [] => "[]"
  | list items =>
    "[" ++ ",".intercalate (jsonItems (level + 1) items) ++ jsonIndent level ++ "]"
  | dict [] => "\x7b\x7d"
  | dict entries =>
    "\x7b" ++ ",".intercalate (jsonFields (level + 1) entries) ++ jsonIndent level ++ "\x7d"
  -- There is no JSON text for an object, and no program that has bytes holds one.
  | object _ => ""

/-- The items of a list, each on a line of its own. -/
def jsonItems (level : Nat) : List Datum → List String
  | [] => []
  | x :: rest => (jsonIndent level ++ json level x) :: jsonItems level rest

/-- The entries of a dictionary, each on a line of its own. -/
def jsonFields (level : Nat) : List (String × Datum) → List String
  | [] => []
  | (key, x) :: rest =>
    (jsonIndent level ++ jsonString key ++ ": " ++ json level x) :: jsonFields level rest

end

end EvmAssembler.Datum
