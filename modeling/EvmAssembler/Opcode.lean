/-!
# `EvmAssembler.Opcode`: the fixed opcodes

The one-byte opcodes that carry neither an index nor an immediate, in the ten
families they are grouped by. `Opcode.all` lists them in the order of the opcode
table, which is the order mnemonics are tried in. `DUP`, `SWAP` and `PUSH` are
ranges of opcodes and stand with the instruction encoder.
-/

set_option autoImplicit false

namespace EvmAssembler

/-- The families of fixed opcodes. -/
inductive Family where
  /-- Bitwise logic. -/
  | bits
  /-- Signed arithmetic. -/
  | sarith
  /-- Unsigned arithmetic. -/
  | arith
  /-- Environment and block information. -/
  | info
  /-- Memory and copies into it. -/
  | memory
  /-- Contract storage. -/
  | storage
  /-- Program counter and control flow. -/
  | pc
  /-- Stack operations of one byte. Pushing is not one of them. -/
  | stack
  /-- Event logs. -/
  | log
  /-- Halting and calls. -/
  | misc
  deriving DecidableEq, Repr

/-- The fixed opcodes. -/
inductive Opcode where
  | AND | OR | XOR | NOT | BYTE
  | SDIV | SMOD | SIGNEXTEND | SLT | SGT
  | ADD | MUL | SUB | DIV | MOD | ADDMOD | MULMOD | EXP | LT | GT | EQ | ISZERO | SHA3
  | ADDRESS | BALANCE | ORIGIN | CALLER | CALLVALUE | CALLDATASIZE | CODESIZE | GASPRICE
  | EXTCODESIZE | BLOCKHASH | COINBASE | TIMESTAMP | NUMBER | DIFFICULTY | GASLIMIT | GAS
  | CALLDATACOPY | CODECOPY | EXTCODECOPY | MLOAD | MSTORE | MSTORE8 | MSIZE
  | SLOAD | SSTORE
  | JUMP | JUMPI | PC | JUMPDEST
  | CALLDATALOAD | POP
  | LOG0 | LOG1 | LOG2 | LOG3 | LOG4
  | STOP | CREATE | CALL | CALLCODE | RETURN | DELEGATECALL | SUICIDE
  deriving DecidableEq, Repr

namespace Family

/-- The families in the order of the opcode table. -/
def all : List Family :=
  [.bits, .sarith, .arith, .info, .memory, .storage, .pc, .stack, .log, .misc]

/-- The family's name. -/
def name : Family → String
  | .bits => "Bits"
  | .sarith => "SArith"
  | .arith => "Arith"
  | .info => "Info"
  | .memory => "Memory"
  | .storage => "Storage"
  | .pc => "Pc"
  | .stack => "Stack"
  | .log => "Log"
  | .misc => "Misc"

/-- The class a record gives to an instruction of the family. -/
def recordClass : Family → String
  | .bits => "BitInst"
  | .sarith => "SArithInst"
  | .arith => "ArithInst"
  | .info => "InfoInst"
  | .memory => "MemoryInst"
  | .storage => "StorageInst"
  | .pc => "PcInst"
  | .stack => "StackInst"
  | .log => "LogInst"
  | .misc => "MiscInst"

/-- The list of families is complete. -/
theorem mem_all (f : Family) : f ∈ all := by
  cases f <;> decide

end Family

namespace Opcode

/-- The family the opcode belongs to. -/
def family : Opcode → Family
  | .AND | .OR | .XOR | .NOT | .BYTE => .bits
  | .SDIV | .SMOD | .SIGNEXTEND | .SLT | .SGT => .sarith
  | .ADD | .MUL | .SUB | .DIV | .MOD | .ADDMOD | .MULMOD | .EXP | .LT | .GT | .EQ | .ISZERO
  | .SHA3 => .arith
  | .ADDRESS | .BALANCE | .ORIGIN | .CALLER | .CALLVALUE | .CALLDATASIZE | .CODESIZE
  | .GASPRICE | .EXTCODESIZE | .BLOCKHASH | .COINBASE | .TIMESTAMP | .NUMBER | .DIFFICULTY
  | .GASLIMIT | .GAS => .info
  | .CALLDATACOPY | .CODECOPY | .EXTCODECOPY | .MLOAD | .MSTORE | .MSTORE8 | .MSIZE => .memory
  | .SLOAD | .SSTORE => .storage
  | .JUMP | .JUMPI | .PC | .JUMPDEST => .pc
  | .CALLDATALOAD | .POP => .stack
  | .LOG0 | .LOG1 | .LOG2 | .LOG3 | .LOG4 => .log
  | .STOP | .CREATE | .CALL | .CALLCODE | .RETURN | .DELEGATECALL | .SUICIDE => .misc

/-- The opcode's mnemonic. -/
def name : Opcode → String
  | .AND => "AND"
  | .OR => "OR"
  | .XOR => "XOR"
  | .NOT => "NOT"
  | .BYTE => "BYTE"
  | .SDIV => "SDIV"
  | .SMOD => "SMOD"
  | .SIGNEXTEND => "SIGNEXTEND"
  | .SLT => "SLT"
  | .SGT => "SGT"
  | .ADD => "ADD"
  | .MUL => "MUL"
  | .SUB => "SUB"
  | .DIV => "DIV"
  | .MOD => "MOD"
  | .ADDMOD => "ADDMOD"
  | .MULMOD => "MULMOD"
  | .EXP => "EXP"
  | .LT => "LT"
  | .GT => "GT"
  | .EQ => "EQ"
  | .ISZERO => "ISZERO"
  | .SHA3 => "SHA3"
  | .ADDRESS => "ADDRESS"
  | .BALANCE => "BALANCE"
  | .ORIGIN => "ORIGIN"
  | .CALLER => "CALLER"
  | .CALLVALUE => "CALLVALUE"
  | .CALLDATASIZE => "CALLDATASIZE"
  | .CODESIZE => "CODESIZE"
  | .GASPRICE => "GASPRICE"
  | .EXTCODESIZE => "EXTCODESIZE"
  | .BLOCKHASH => "BLOCKHASH"
  | .COINBASE => "COINBASE"
  | .TIMESTAMP => "TIMESTAMP"
  | .NUMBER => "NUMBER"
  | .DIFFICULTY => "DIFFICULTY"
  | .GASLIMIT => "GASLIMIT"
  | .GAS => "GAS"
  | .CALLDATACOPY => "CALLDATACOPY"
  | .CODECOPY => "CODECOPY"
  | .EXTCODECOPY => "EXTCODECOPY"
  | .MLOAD => "MLOAD"
  | .MSTORE => "MSTORE"
  | .MSTORE8 => "MSTORE8"
  | .MSIZE => "MSIZE"
  | .SLOAD => "SLOAD"
  | .SSTORE => "SSTORE"
  | .JUMP => "JUMP"
  | .JUMPI => "JUMPI"
  | .PC => "PC"
  | .JUMPDEST => "JUMPDEST"
  | .CALLDATALOAD => "CALLDATALOAD"
  | .POP => "POP"
  | .LOG0 => "LOG0"
  | .LOG1 => "LOG1"
  | .LOG2 => "LOG2"
  | .LOG3 => "LOG3"
  | .LOG4 => "LOG4"
  | .STOP => "STOP"
  | .CREATE => "CREATE"
  | .CALL => "CALL"
  | .CALLCODE => "CALLCODE"
  | .RETURN => "RETURN"
  | .DELEGATECALL => "DELEGATECALL"
  | .SUICIDE => "SUICIDE"

/-- The opcode's byte. -/
def code : Opcode → UInt8
  | .AND => 0x16
  | .OR => 0x17
  | .XOR => 0x18
  | .NOT => 0x19
  | .BYTE => 0x1A
  | .SDIV => 0x05
  | .SMOD => 0x07
  | .SIGNEXTEND => 0x0B
  | .SLT => 0x12
  | .SGT => 0x13
  | .ADD => 0x01
  | .MUL => 0x02
  | .SUB => 0x03
  | .DIV => 0x04
  | .MOD => 0x06
  | .ADDMOD => 0x08
  | .MULMOD => 0x09
  | .EXP => 0x0A
  | .LT => 0x10
  | .GT => 0x11
  | .EQ => 0x14
  | .ISZERO => 0x15
  | .SHA3 => 0x20
  | .ADDRESS => 0x30
  | .BALANCE => 0x31
  | .ORIGIN => 0x32
  | .CALLER => 0x33
  | .CALLVALUE => 0x34
  | .CALLDATASIZE => 0x36
  | .CODESIZE => 0x38
  | .GASPRICE => 0x3A
  | .EXTCODESIZE => 0x3B
  | .BLOCKHASH => 0x40
  | .COINBASE => 0x41
  | .TIMESTAMP => 0x42
  | .NUMBER => 0x43
  | .DIFFICULTY => 0x44
  | .GASLIMIT => 0x45
  | .GAS => 0x5A
  | .CALLDATACOPY => 0x37
  | .CODECOPY => 0x39
  | .EXTCODECOPY => 0x3C
  | .MLOAD => 0x51
  | .MSTORE => 0x52
  | .MSTORE8 => 0x53
  | .MSIZE => 0x59
  | .SLOAD => 0x54
  | .SSTORE => 0x55
  | .JUMP => 0x56
  | .JUMPI => 0x57
  | .PC => 0x58
  | .JUMPDEST => 0x5B
  | .CALLDATALOAD => 0x35
  | .POP => 0x50
  | .LOG0 => 0xA0
  | .LOG1 => 0xA1
  | .LOG2 => 0xA2
  | .LOG3 => 0xA3
  | .LOG4 => 0xA4
  | .STOP => 0x00
  | .CREATE => 0xF0
  | .CALL => 0xF1
  | .CALLCODE => 0xF2
  | .RETURN => 0xF3
  | .DELEGATECALL => 0xF4
  | .SUICIDE => 0xFF

/-- Every fixed opcode, in the order of the opcode table. -/
def all : List Opcode :=
  [.AND, .OR, .XOR, .NOT, .BYTE, .SDIV, .SMOD, .SIGNEXTEND, .SLT, .SGT, .ADD, .MUL, .SUB, .DIV,
   .MOD, .ADDMOD, .MULMOD, .EXP, .LT, .GT, .EQ, .ISZERO, .SHA3, .ADDRESS, .BALANCE, .ORIGIN,
   .CALLER, .CALLVALUE, .CALLDATASIZE, .CODESIZE, .GASPRICE, .EXTCODESIZE, .BLOCKHASH,
   .COINBASE, .TIMESTAMP, .NUMBER, .DIFFICULTY, .GASLIMIT, .GAS, .CALLDATACOPY, .CODECOPY,
   .EXTCODECOPY, .MLOAD, .MSTORE, .MSTORE8, .MSIZE, .SLOAD, .SSTORE, .JUMP, .JUMPI, .PC,
   .JUMPDEST, .CALLDATALOAD, .POP, .LOG0, .LOG1, .LOG2, .LOG3, .LOG4, .STOP, .CREATE, .CALL,
   .CALLCODE, .RETURN, .DELEGATECALL, .SUICIDE]

/-- The list of opcodes is complete. -/
theorem mem_all (op : Opcode) : op ∈ all := by
  cases op <;> decide

/-- No two fixed opcodes share a byte. -/
theorem code_injective {a b : Opcode} (h : a.code = b.code) : a = b := by
  have distinct : ∀ x ∈ all, ∀ y ∈ all, x.code = y.code → x = y := by decide +kernel
  exact distinct a (mem_all a) b (mem_all b) h

/-- The members of a family, in the order of the opcode table. -/
def members (f : Family) : List Opcode :=
  all.filter (·.family == f)

end Opcode

end EvmAssembler
