import EvmAssembler.Text.Numeral

/-!
# `EvmAssembler.Event`: what happens while assembling

The assembler and the command line report what they do as events. An event holds the
facts; `Event.level` says how important it is and `Event.message` words it.
-/

set_option autoImplicit false

namespace EvmAssembler

/-- How important an event is. -/
inductive Level where
  | debug
  | info
  | error
  deriving DecidableEq, Repr

/-- The name of a level in log lines. -/
def Level.name : Level → String
  | debug => "DEBUG"
  | info => "INFO"
  | error => "ERROR"

/-- Something that happened. -/
inductive Event where
  /-- The command line starts. -/
  | started
  /-- A source file is about to be read. -/
  | collecting (path : String)
  /-- A source unit is about to be assembled under a namespace. -/
  | processing (space : String)
  | issuing (mnemonic : String) (offset : Nat)
  | labelled (name : String) (offset : Nat)
  | referring (name : String)
  /-- Assembly has failed. -/
  | failed (message : String)
  /-- A row of the listing. -/
  | listed (offset : Nat) (code : List UInt8) (mnemonic : String)
  | badJump (offset target : Nat)
  | wrote (count : Nat) (path : String)
  deriving DecidableEq, Repr

namespace Event

/-- The level of an event. -/
def level : Event → Level
  | collecting _ | issuing _ _ | labelled _ _ | referring _ => .debug
  | failed _ | badJump _ _ => .error
  | started | processing _ | listed _ _ _ | wrote _ _ => .info

/-- An offset as messages write it. -/
def hexOffset (n : Nat) : String :=
  "0x" ++ Text.capitalHex n

/-- The wording of an event. -/
def message : Event → String
  | started => "EVM ASM"
  | collecting path => "Collecting file " ++ path
  | processing space => "Processing " ++ space
  | issuing mnemonic offset => "Issuing " ++ mnemonic ++ " @ " ++ hexOffset offset
  | labelled name offset => "Label " ++ name ++ " @ " ++ hexOffset offset
  | referring name => "Ref " ++ name
  | failed message => "Assembly failed: " ++ message
  | listed offset code mnemonic =>
    Text.padStart 4 '0' (Text.capitalHex offset) ++ ": "
      ++ Text.padEnd 16 ' ' (Text.bytesHex code) ++ " " ++ mnemonic
  | badJump offset target =>
    "Jump at " ++ hexOffset offset ++ " targets " ++ hexOffset target ++ ", not a JUMPDEST"
  | wrote count path => "Wrote " ++ Text.decimal count ++ " bytes to " ++ path

end Event

end EvmAssembler
