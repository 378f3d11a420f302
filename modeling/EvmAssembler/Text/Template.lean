/-!
# `EvmAssembler.Text.Template`: texts with places for values

A place in a template starts with a percent sign and ends with the letter that says how
its value is shown. In between stand, in this order and each if wanted, flags, a width, a
precision behind a point, and a length letter. An asterisk in the place of a width or a
precision takes a value of its own. A doubled percent sign is no place.

`fillOne` says whether a template can be filled with one integer and nothing else. It reads
the text once and keeps the `Stage` it is in and whether the integer has been used.
-/

set_option autoImplicit false

namespace EvmAssembler.Text.Template

/-- Why a template cannot be filled with one integer. -/
inductive Fault where
  /-- The places do not ask for exactly one value, or they ask for it by a name. -/
  | unfilled
  /-- A place breaks off, ends in a letter without a meaning or has a measure too large. -/
  | malformed
  /-- An integer would have more digits than there can be. -/
  | tooPrecise
  /-- The filled text would be too long to be held. -/
  | tooWide
  deriving DecidableEq, Repr

/-- What has been read last. -/
inductive Stage where
  | text
  /-- The percent sign of a place. -/
  | opened
  | flags
  | width
  /-- A width that is an asterisk. -/
  | widthGiven
  | point
  | precision
  /-- A precision that is an asterisk. -/
  | precisionGiven
  | length
  deriving DecidableEq, Repr

/-- How far the reading is: the stage, whether the integer has been used, and what the
measures of the last place come to. -/
structure State where
  stage : Stage
  used : Bool
  width : Nat
  precision : Nat
  deriving DecidableEq, Repr

/-- Nothing read. -/
def State.start : State :=
  ⟨.text, false, 0, 0⟩

/-- The same place at another stage. -/
def State.at (s : State) (stage : Stage) : State :=
  { s with stage := stage }

/-- The largest width that can be written. -/
def maxWidth : Nat := 0x7fffffffffffffff

/-- The largest width that is held. -/
def maxHeldWidth : Nat := 0xfffffffff

/-- The largest precision that can be written. -/
def maxPrecision : Nat := 0x7fffffff

/-- The largest precision of an integer. -/
def maxIntegerPrecision : Nat := 0x7ffffffc

/-- A number with one more digit, within a limit. -/
def extend (limit n : Nat) (c : Char) : Except Fault Nat :=
  let next := n * 10 + (c.toNat - '0'.toNat)
  if limit < next then .error .malformed else .ok next

/-- A digit of the width. -/
def widthDigit (s : State) (c : Char) : Except Fault State :=
  (extend maxWidth s.width c).map fun n => { s with stage := .width, width := n }

/-- A digit of the precision. -/
def precisionDigit (s : State) (c : Char) : Except Fault State :=
  (extend maxPrecision s.precision c).map fun n => { s with stage := .precision, precision := n }

/-- Uses the integer and goes on to a stage. -/
def use (s : State) (next : Stage) : Except Fault State :=
  if s.used then .error .unfilled else .ok { s with stage := next, used := true }

/-- The letter that ends a place. -/
def letter (s : State) (c : Char) : Except Fault State :=
  (use s .text).bind fun next =>
    if !"sradiuoxXeEfFgGc".toList.contains c then .error .malformed
    else if "diuoxX".toList.contains c && maxIntegerPrecision < s.precision then
      .error .tooPrecise
    else if maxHeldWidth < s.width then .error .tooWide
    else .ok next

/-- A length letter, or what may follow it. -/
def lengthOn (s : State) (c : Char) : Except Fault State :=
  if c = 'h' ∨ c = 'l' ∨ c = 'L' then .ok (s.at .length) else letter s c

/-- The point before a precision, or what may follow a width. -/
def pointOn (s : State) (c : Char) : Except Fault State :=
  if c = '.' then .ok (s.at .point) else lengthOn s c

/-- A flag, or what may follow it. -/
def flagsOn (s : State) (c : Char) : Except Fault State :=
  if "-+ #0".toList.contains c then .ok (s.at .flags)
  else if c = '*' then use s .widthGiven
  else if c.isDigit then widthDigit s c
  else pointOn s c

/-- Reads a character. -/
def step (s : State) (c : Char) : Except Fault State :=
  match s.stage with
  | .text => .ok (if c = '%' then ⟨.opened, s.used, 0, 0⟩ else s)
  | .opened =>
    if c = '%' then .ok (s.at .text)
    else if c = '(' then .error .unfilled
    else flagsOn s c
  | .flags => flagsOn s c
  | .width => if c.isDigit then widthDigit s c else pointOn s c
  | .widthGiven => pointOn s c
  | .point =>
    if c = '*' then use s .precisionGiven
    else if c.isDigit then precisionDigit s c
    else lengthOn s c
  | .precision => if c.isDigit then precisionDigit s c else lengthOn s c
  | .precisionGiven => lengthOn s c
  | .length => letter s c

/-- Whether one integer fills the template. -/
def fillOne (template : List Char) : Except Fault Unit :=
  (template.foldlM step .start).bind fun s =>
    if s.stage ≠ .text then .error .malformed
    else if s.used then .ok ()
    else .error .unfilled

end EvmAssembler.Text.Template
