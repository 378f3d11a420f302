/-!
# `EvmAssembler.Opcode.EntryRole`: what the entries of a family are for

A family is described by entries, each a name with an integer. Nearly every entry is an
opcode. Those that are not are told apart by the underscores around their names:

* a name in single underscores is reserved, apart from a few settings;
* a name in double underscores is a setting or a remark;
* a name that starts with an underscore, the family's own name and two more underscores
  belongs to the family alone.

Some settings have no use for an integer and refuse it, at once, when the family is put
together, or when its first member is. `EntryRole` says which of all these an entry is.
-/

set_option autoImplicit false

namespace EvmAssembler

/-- The part an entry plays in the description of a family. -/
inductive EntryRole where
  /-- An opcode. -/
  | opcode
  /-- Neither an opcode nor of any effect. -/
  | remark
  /-- The names to leave out. An integer is refused where it stands. -/
  | omission
  /-- The order of the members. Zero asks for none, and any other integer is refused. -/
  | order
  /-- How members are stored, which no integer can say. It is looked at before the family's
  own name. -/
  | storage
  /-- Something else about the family as a whole that no integer can be. -/
  | setting
  /-- Something done with each member that no integer can do. -/
  | hook
  /-- Nothing yet: such a name is refused. -/
  | reserved
  deriving DecidableEq, Repr

namespace EntryRole

/-- Whether exactly `width` underscores stand at either end of a name, with more between. -/
def isFramed (width : Nat) (name : List Char) : Bool :=
  (name.takeWhile (· == '_')).length == width
    && (name.reverse.takeWhile (· == '_')).length == width
    && 2 * width < name.length

/-- Whether a name belongs to its family alone. -/
def isOwn (family name : List Char) : Bool :=
  let mark := '_' :: family ++ ['_', '_']
  mark.isPrefixOf name && mark.length < name.length && !(['_', '_'].isSuffixOf name)

/-- The role of a name in single underscores. -/
def ofReserved (name : String) : EntryRole :=
  if name = "_order_" then .order
  else if name = "_ignore_" then .omission
  else if ["_generate_next_value_", "_numeric_repr_", "_missing_", "_iter_member_",
      "_iter_member_by_value_", "_iter_member_by_def_"].contains name then .remark
  else .reserved

/-- The role of a name in double underscores. -/
def ofMarked (name : String) : EntryRole :=
  if name = "__order__" then .order
  else if name = "__slots__" then .storage
  else if name = "__classcell__" ∨ name = "__qualname__" then .setting
  else if ["__getattr__", "__getattribute__", "__init__", "__new__", "__setattr__"].contains
      name then .hook
  else .remark

/-- The role of a name in the description of a family. -/
def ofName (family name : String) : EntryRole :=
  if isOwn family.toList name.toList then .remark
  else if isFramed 1 name.toList then ofReserved name
  else if isFramed 2 name.toList then ofMarked name
  else .opcode

end EntryRole

end EvmAssembler
