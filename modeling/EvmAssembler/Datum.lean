import EvmAssembler.Number.Binary64

/-!
# `EvmAssembler.Datum`: loosely typed values

Operands reach an instruction from outside the library, and the library's rules
say what happens when one has the wrong shape: which checks catch it and how the
message shows it. `Datum` is the type of such operands. The values assertions look
at are data too.

Numbers compare by value whatever their form: a truth value counts as 0 or 1, and
a real equals the integer it denotes. Comparison is exact, through `Quantity`.

Only the types that the library tells apart have a constructor of their own. A value of
any other type is an `Object`: a complex number, a fraction, a decimal. Such a value is no
integer, even where it equals one, and its own type says what it equals. `Likeness` is that
part of it. Undefined numbers aside this is an equivalence, as equality is meant to be, and by
it no object equals an opcode. Its order and its items are left out: a comparison and the data
of a push, which would ask for them, refuse an object.

The undefined number equals nothing, not even itself. Inside a larger value it does agree
with itself, so that a list equals an unchanged copy of it. `same` is the first kind of
equality and `agrees` the second.
-/

set_option autoImplicit false

namespace EvmAssembler

/-- What a number denotes: a finite quantity is `numerator / 2 ^ scale`. -/
inductive Quantity where
  | finite (numerator : Int) (scale : Nat)
  | infinite (negative : Bool)
  | undefined
  deriving DecidableEq, Repr

namespace Quantity

/-- The integer doubled `k` times: `n · 2 ^ k`. -/
def doubled (n : Int) (k : Nat) : Int :=
  n * (Nat.pow 2 k : Nat)

/-- Whether two quantities are equal. An undefined one equals nothing. -/
def same : Quantity → Quantity → Bool
  | finite m i, finite n j => doubled m j == doubled n i
  | infinite a, infinite b => a == b
  | _, _ => false

/-- Whether the first quantity is below the second. -/
def lt : Quantity → Quantity → Bool
  | finite m i, finite n j => doubled m j < doubled n i
  | infinite a, infinite b => a && !b
  | infinite a, finite _ _ => a
  | finite _ _, infinite b => !b
  | undefined, _ => false
  | _, undefined => false

/-- Whether the quantity is an even integer. -/
def isEven : Quantity → Bool
  | finite n scale => n % doubled 2 scale == 0
  | _ => false

end Quantity

/-- The quantity a floating point number denotes. -/
def Binary64.quantity (x : Binary64) : Quantity :=
  if x.isFinite then
    let m : Int := if x.negative then -(x.mantissa : Int) else x.mantissa
    .finite (Quantity.doubled m x.exponent.toNat) (-x.exponent).toNat
  else if x.fraction = 0 then .infinite x.negative
  else .undefined

/-- What decides with what a value is equal that is neither a text nor a container. -/
inductive Likeness where
  /-- A number equals the numbers of its value, whatever their types are. -/
  | number (value : Quantity)
  /-- Anything else has a key, which it shares with what it equals and with nothing more. -/
  | own (key : Nat)
  deriving DecidableEq, Repr

/-- Whether two values of such likenesses are equal. -/
def Likeness.same : Likeness → Likeness → Bool
  | number p, number q => p.same q
  | own j, own k => j == k
  | _, _ => false

/-- The texts of a value: the one that shows it within a message, and the bare one. -/
structure ObjectTexts where
  shown : String
  plain : String
  deriving Repr

/-- A value of a type without a constructor below, by what the library can see of it. -/
structure Object where
  /-- The word for its type. -/
  typeWord : String
  /-- Its texts, unless they show an integer past the decimal limit. -/
  texts? : Option ObjectTexts
  /-- Its truth value. -/
  truth : Bool
  /-- What it is equal to. -/
  likeness : Likeness
  deriving Repr

/-- A value of no declared type. -/
inductive Datum where
  | null
  | bool (b : Bool)
  | int (n : Int)
  | real (x : Binary64)
  | text (s : String)
  | list (items : List Datum)
  | dict (entries : List (String × Datum))
  | object (o : Object)
  deriving Repr, Inhabited

namespace Datum

/-- The quantity a number denotes; other data denote none. -/
def quantity? : Datum → Option Quantity
  | bool b => some (.finite (if b then 1 else 0) 0)
  | int n => some (.finite n 0)
  | real x => some x.quantity
  | _ => none

/-- What a datum is equal to, if that is not decided by its characters or its parts. -/
def likeness? : Datum → Option Likeness
  | object o => some o.likeness
  | x => x.quantity?.map .number

/-- Whether the datum is an integer proper; a truth value is not. -/
def int? : Datum → Option Int
  | int n => some n
  | _ => none

/-- The integer a datum stands for where a truth value counts as one. -/
def integral? : Datum → Option Int
  | int n => some n
  | bool b => some (if b then 1 else 0)
  | _ => none

/-- Whether the datum is an undefined number. -/
def isUndefined (x : Datum) : Bool :=
  x.likeness? == some (.number .undefined)

mutual

/-- Equality of data: numbers and objects by their likeness, texts by their characters, lists
item by item, dictionaries entry by entry in any order. -/
def same : Datum → Datum → Bool
  | null, null => true
  | text s, text t => s == t
  | list xs, list ys => sameItems xs ys
  | dict xs, dict ys => xs.length == ys.length && sameEntries xs ys
  | x, y => match x.likeness?, y.likeness? with
    | some l, some m => l.same m
    | _, _ => false

/-- Equality of lists, item by item. -/
def sameItems : List Datum → List Datum → Bool
  | [], [] => true
  | x :: xs, y :: ys => (same x y || x.isUndefined && y.isUndefined) && sameItems xs ys
  | _, _ => false

/-- Whether every entry of the first dictionary is one of the second. -/
def sameEntries : List (String × Datum) → List (String × Datum) → Bool
  | [], _ => true
  | (key, x) :: rest, ys =>
    (match ys.lookup key with
      | some y => same x y || x.isUndefined && y.isUndefined
      | none => false) && sameEntries rest ys

end

/-- Equality of data that are parts of something larger. -/
def agrees (x y : Datum) : Bool :=
  same x y || x.isUndefined && y.isUndefined

mutual

/-- Whether the first datum is below the second; `none` where the two have no order, as objects
have none. -/
def lt? : Datum → Datum → Option Bool
  | text s, text t => some (s < t)
  | list xs, list ys => ltItems? xs ys
  | x, y => match x.quantity?, y.quantity? with
    | some p, some q => some (p.lt q)
    | _, _ => none

/-- Lists are ordered by their first difference, and a proper beginning comes first. -/
def ltItems? : List Datum → List Datum → Option Bool
  | [], ys => some (!ys.isEmpty)
  | _ :: _, [] => some false
  | x :: xs, y :: ys => if agrees x y then ltItems? xs ys else lt? x y

end

/-- The truth value of a datum: what is absent, zero or empty counts as false. -/
def truth : Datum → Bool
  | null => false
  | bool b => b
  | int n => n != 0
  | real x => !(Quantity.same x.quantity (.finite 0 0))
  | text s => s != ""
  | list items => !items.isEmpty
  | dict entries => !entries.isEmpty
  | object o => o.truth

end Datum

end EvmAssembler
