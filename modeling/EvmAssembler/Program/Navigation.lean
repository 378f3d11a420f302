import EvmAssembler.Program

/-!
# `EvmAssembler.Program.Navigation`: finding the code at an offset

Offsets count bytes of the serialized program. `dropBytes` walks to an offset and
returns what is left; it measures only the instructions it passes, so what stands behind
the offset does not matter. Annotations take no space. Those at an offset belong to
the instruction that follows them and are kept.
-/

set_option autoImplicit false

namespace EvmAssembler.Program

/-- Walks past `left` bytes. Failures report the offset asked for at the start. -/
def walk (offset : Int) : (left : Nat) → Program → Except Error Program
  | 0, p => .ok p
  -- Bytes are still to be passed, and none are there.
  | _ + 1, [] => refuse (.malformedOffset offset .pastEnd)
  | left + 1, i :: rest => i.size.bind fun n =>
    if left + 1 < n then refuse (.malformedOffset offset .insideInstruction)
    else walk offset (left + 1 - n) rest

/-- The part of the program that starts at an offset. -/
def dropBytes (p : Program) (offset : Int) : Except Error Program :=
  if offset < 0 then refuse (.malformedOffset offset .negative)
  else walk offset offset.toNat p

/-- The annotations a program starts with. -/
def leadingAnnotations (p : Program) : List Predicate :=
  (p.takeWhile Instruction.isAssertion).filterMap Instruction.predicate?

/-- The instruction a program starts with, annotations aside. -/
def first? (p : Program) : Option Instruction :=
  (p.dropWhile Instruction.isAssertion).head?

/-- The instruction at an offset; `none` at the end of the program. -/
def instructionAt (p : Program) (offset : Int) : Except Error (Option Instruction) :=
  (p.dropBytes offset).map first?

/-- The annotations at an offset. -/
def annotationsAt (p : Program) (offset : Int) : Except Error (List Predicate) :=
  (p.dropBytes offset).map leadingAnnotations

/-- Whether all predicates hold, asked in order up to the first that does not. -/
def allHold (state : Datum) : List Predicate → Except Error Bool
  | [] => .ok true
  | p :: rest => (p.holds state).bind fun b => if b then allHold state rest else .ok false

/-- Whether the annotations at an offset hold in a state. -/
def checkAnnotations (p : Program) (offset : Int) (state : Datum) : Except Error Bool :=
  (p.annotationsAt offset).bind (allHold state)

/-- Whether an error only says that no encodable code reaches the offset. -/
def isForgiven (e : Error) : Bool :=
  e.kind == .malformedOffset || e.isEncoding

/-- Whether a jump destination stands at the offset. An offset that no encodable code
reaches has none. -/
def isJumpdest (p : Program) (offset : Int) : Except Error Bool :=
  match p.instructionAt offset with
  | .ok (some i) => .ok (i.same .jumpdest)
  | .ok none => .ok false
  | .error e => if isForgiven e then .ok false else .error e

end EvmAssembler.Program
