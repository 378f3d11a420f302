/-!
# `EvmAssembler.Text.Case`: capital letters

Mnemonics are written in capitals and compared after capitalising the source. The
map below is Unicode's full upper-casing restricted to the characters whose
capital form is made of ASCII letters: two letters outside ASCII capitalise to
one ASCII letter, and the sharp s and seven ligatures to several. A character
with any other capital form is left alone. It differs from every ASCII character
either way, so comparisons with ASCII names come out the same.
-/

set_option autoImplicit false

namespace EvmAssembler.Text

/-- The capital form of one character. -/
def capital (c : Char) : List Char :=
  if c.toNat < 128 then [c.toUpper]
  else if c = 'ı' then ['I']
  else if c = 'ſ' then ['S']
  else if c = 'ß' then ['S', 'S']
  else if c = 'ﬀ' then ['F', 'F']
  else if c = 'ﬁ' then ['F', 'I']
  else if c = 'ﬂ' then ['F', 'L']
  else if c = 'ﬃ' then ['F', 'F', 'I']
  else if c = 'ﬄ' then ['F', 'F', 'L']
  else if c = 'ﬅ' ∨ c = 'ﬆ' then ['S', 'T']
  else [c]

/-- The text in capitals. -/
def capitals (cs : List Char) : List Char :=
  cs.flatMap capital

/-- Whether two characters are the same letter in either case. Besides the two
ASCII forms, `s` has the long form `ſ`. -/
def sameLetter (letter c : Char) : Bool :=
  c.toLower == letter || (letter == 's' && c == 'ſ')

/-- No text has no capitals. -/
@[simp] theorem capitals_nil : capitals [] = [] := rfl

/-- Capitals are formed character by character. -/
@[simp] theorem capitals_cons (c : Char) (cs : List Char) :
    capitals (c :: cs) = capital c ++ capitals cs := by
  simp [capitals]

end EvmAssembler.Text
