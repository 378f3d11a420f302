import EvmAssembler.Error
import EvmAssembler.Text.Template

/-!
# `EvmAssembler.Predicate`: tests on a machine state

An annotation asserts something about the state of the machine at its place. The
state is opaque to the library: a predicate is a named test that answers any datum,
whose truth value counts, or fails. Whether two predicates are equal is not for the
library to say either: a function is equal to itself alone, while objects that can be
called may be equal to one another. A key stands for what a predicate is equal to.
Equal predicates need not have the same name, nor answer alike.

The second half holds the tests this library provides.
-/

set_option autoImplicit false

namespace EvmAssembler

/-- A named test on a machine state. -/
structure Predicate where
  /-- What the predicate is equal to: those with the same key. -/
  key : Nat
  name : String
  test : Datum → Except Error Datum

namespace Predicate

/-- Whether the predicate accepts the state: the truth value of what its test answers. -/
def holds (p : Predicate) (state : Datum) : Except Error Bool :=
  (p.test state).map Datum.truth

/-- Answers `value` whatever the state. -/
def const (key : Nat) (name : String) (value : Datum) : Predicate :=
  ⟨key, name, fun _ => .ok value⟩

/-- The answer of a comparison, which fails where the two data have no order. -/
def ordered (answer : Option Bool) : Except Error Datum :=
  match answer with
  | some b => .ok (.bool b)
  | none => refuse .notComparable

/-- Accepts states above a bound. -/
def above (key : Nat) (name : String) (bound : Datum) : Predicate :=
  ⟨key, name, fun state => ordered (bound.lt? state)⟩

/-- Accepts states below a bound. -/
def below (key : Nat) (name : String) (bound : Datum) : Predicate :=
  ⟨key, name, fun state => ordered (state.lt? bound)⟩

/-- Whether what remains of a datum divided by two is zero. What remains of a text is the
text with the two filled in, and so never zero. -/
def isEven (state : Datum) : Except Error Datum :=
  match state with
  | .text template =>
    match Text.Template.fillOne template.toList with
    | .ok () => .ok (.bool false)
    | .error .unfilled => refuse .notComparable
    | .error .malformed => refuse .malformedTemplate
    | .error .tooPrecise => refuse .tooPrecise
    | .error .tooWide => refuse .tooWide
  | other => ordered (other.quantity?.map Quantity.isEven)

/-- Accepts even numbers, negative ones included. -/
def even (key : Nat) (name : String) : Predicate :=
  ⟨key, name, isEven⟩

/-- Answers the state itself. -/
def identity (key : Nat) (name : String) : Predicate :=
  ⟨key, name, fun state => .ok state⟩

end Predicate

end EvmAssembler
