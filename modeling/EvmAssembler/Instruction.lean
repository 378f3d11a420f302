import EvmAssembler.Predicate

/-!
# `EvmAssembler.Instruction`: the instruction type

One constructor per shape of instruction: a byte outside the modelled opcodes, an
opcode under its family, `DUP` and `SWAP` with their index, `PUSH` with its immediate
bytes, and the annotation, which takes no space.

Operands are checked by the encoder and not by the type, so an instruction may carry
an index out of range, an immediate of any length or an opcode of another family. For
the same reason a program may hold two things that are no instructions: a plain value,
and the bare instruction that has no shape. Everything defined on instructions says
what becomes of these.

Only the data of `PUSH` and the byte of `unknown` are checked when the instruction is
built. The functions here do it: `ofByte`, `ofData`, `ofOperand`.
-/

set_option autoImplicit false

namespace EvmAssembler

/-- An instruction, its operands not yet checked. -/
inductive Instruction where
  /-- A byte that stands for itself. -/
  | unknown (byte : UInt8)
  /-- An opcode under a family. -/
  | fixed (family : Family) (operand : Operand)
  | dup (n : Datum)
  | swap (n : Datum)
  | push (data : List UInt8)
  /-- An annotation: an assertion about the machine state. It takes no space. -/
  | assertion (predicate : Predicate)
  /-- A value in the place of an instruction. -/
  | loose (datum : Datum)
  /-- An instruction without a shape. -/
  | bare

namespace Instruction

/-- The instruction of an opcode, under its own family. -/
def ofOpcode (op : Opcode) : Instruction :=
  .fixed op.family (.opcode op)

/-- The instruction that marks a jump destination. -/
def jumpdest : Instruction :=
  ofOpcode .JUMPDEST

/-- The instruction of an operand, which must be an opcode. -/
def ofOperand : Operand → Except Error Instruction
  | .opcode op => .ok (ofOpcode op)
  | .loose value => refuse (.notMember value)

/-- The instruction of a lone byte. A truth value is no byte. -/
def ofByte (value : Datum) : Except Error Instruction :=
  match value.int? with
  | some n => if 0 ≤ n ∧ n ≤ 0xFF then .ok (.unknown (UInt8.ofNat n.toNat))
    else refuse (.unknownByte value)
  | none => refuse (.unknownByte value)

/-- The byte an item of push data stands for. -/
def byteOfItem (item : Datum) : Except DataFault UInt8 :=
  match item.integral? with
  | some n => if 0 ≤ n ∧ n ≤ 0xFF then .ok (UInt8.ofNat n.toNat) else .error .itemOutOfRange
  | none => .error (.itemNotInteger item.typeWord)

/-- The bytes that push data stands for: a list of integers in range. A dictionary counts
as the list of its keys. The items of an object are left out. -/
def bytesOfData : Datum → Except DataFault (List UInt8)
  | .list items => items.mapM byteOfItem
  | .dict entries => entries.mapM fun (key, _) => byteOfItem (.text key)
  | .text _ => .error .unencodedText
  | other => .error (.notSequence other.typeWord)

/-- The push of loose data. A number is no data: it would have to say how many zeros. -/
def ofData (data : Datum) : Except Error Instruction :=
  match data.integral? with
  | some _ => refuse (.numberAsData data)
  | none =>
    match bytesOfData data with
    | .ok bytes => .ok (.push bytes)
    | .error fault => refuse (.badData data fault)

/-- Whether the instruction is an annotation. -/
def isAssertion : Instruction → Bool
  | assertion _ => true
  | _ => false

/-- The predicate of an annotation. -/
def predicate? : Instruction → Option Predicate
  | assertion p => some p
  | _ => none

/-- Equality of instructions: one shape and operands that agree. Annotations are equal when
their predicates are; the bare instruction equals nothing. -/
def same : Instruction → Instruction → Bool
  | unknown a, unknown b => a == b
  | fixed f x, fixed g y => f == g && x.same y
  | dup m, dup n => m.agrees n
  | swap m, swap n => m.agrees n
  | push a, push b => a == b
  | assertion p, assertion q => p.key == q.key
  | loose a, loose b => a.same b
  | _, _ => false

/-- The mnemonic of an instruction with an index: a word and, behind it, the index. -/
def indexed (word : String) (n : Datum) : Except Error String :=
  if n.isShowable then .ok (word ++ n.plain) else .error .tooManyDigits

/-- The mnemonic shown in listings and logs. -/
def mnemonic : Instruction → Except Error String
  | assertion _ => .ok "ANNOTATION"
  | unknown b => .ok ("UNKNOWN(0x" ++ Text.bytesHex [b] ++ ")")
  | push data => .ok ("PUSH" ++ Text.decimal data.length)
  | dup n => indexed "DUP" n
  | swap n => indexed "SWAP" n
  | fixed _ operand =>
    match operand.mnemonic? with
    | some name => .ok name
    | none => refuse .noSuchFeature
  | loose datum => refuse (.notInstruction (some datum))
  | bare => refuse (.notInstruction none)

end Instruction

end EvmAssembler
