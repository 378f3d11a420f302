import EvmAssembler.Instruction.Codes
import EvmAssembler.Opcode.EntryRole

/-!
# `EvmAssembler.Opcode.Table`: opcode tables and their checks

An opcode table assigns bytes to names: families of named members, the `DUP`,
`SWAP` and `PUSH` ranges, and further entries after them. Two checks guard a table.
`checkDistinct` refuses a code that is given twice anywhere in the list of entries,
and `mnemonics` refuses a member name that two families define.

Within a family two names may carry one value. The later name is then an alias: it
stands for the member that had the value first.

`FamilyTable.ofEntries` builds a family from a description. It keeps the entries that are
opcodes and refuses a description with a name that is taken, reserved or unfit.
-/

set_option autoImplicit false

namespace EvmAssembler

/-- A family of named codes. Names are distinct; values need not be. -/
structure FamilyTable where
  name : String
  members : List (String × Int)
  nodup : (members.map Prod.fst).Nodup

/-- A named code a mnemonic stands for: its family, the name its value came first
under, and the value. -/
structure Member where
  family : String
  canonical : String
  value : Int
  deriving DecidableEq, Repr

namespace FamilyTable

/-- The opcodes among entries, behind those found so far. A reserved name, an omission and
a name that is taken are each refused where they stand. -/
def collect (family : String) (found : List (String × Int)) :
    List (String × Int) → Except Error (List (String × Int))
  | [] => .ok found
  | (name, value) :: rest =>
    match EntryRole.ofName family name with
    | .reserved => refuse (.reservedName name)
    | .omission => refuse (.unusableSetting name)
    | .opcode =>
      match found.lookup name with
      | some taken => refuse (.repeatedMember name taken)
      | none => collect family (found ++ [(name, value)]) rest
    | .remark | .order | .storage | .setting | .hook => collect family found rest

/-- Collected opcodes have distinct names. -/
theorem nodup_of_collect {family : String} {found entries members : List (String × Int)}
    (distinct : (found.map Prod.fst).Nodup) (h : collect family found entries = .ok members) :
    (members.map Prod.fst).Nodup := by
  induction entries generalizing found with
  | nil =>
    simp only [collect, Except.ok.injEq] at h
    exact h ▸ distinct
  | cons entry rest ih =>
    obtain ⟨name, value⟩ := entry
    simp only [collect] at h
    split at h
    · simp [refuse] at h
    · simp [refuse] at h
    · split at h
      · simp only [refuse, reduceCtorEq] at h
      · rename_i fresh
        refine ih ?_ h
        -- The new name goes to the end, so it has to differ from all that are there.
        rw [List.map_append, List.nodup_append]
        refine ⟨distinct, by simp, ?_⟩
        intro a ha b hb hab
        obtain ⟨e, he, rfl⟩ := List.mem_map.mp ha
        have hname : e.1 = name := hab.trans (by simpa using hb)
        have hne := List.lookup_eq_none_iff.mp fresh e he
        simp [hname] at hne
    all_goals exact ih distinct h

/-- Names that no opcode can have. -/
def unfitNames : List String := ["", "mro"]

/-- The first thing that keeps entries and their opcodes from making up a family: a name
that cannot be used, or an integer in the place of a setting. -/
def fault? (family : String) (entries members : List (String × Int)) : Option Error :=
  let withRole (role : EntryRole) := entries.filter (EntryRole.ofName family ·.1 == role)
  let unfit := members.filter (unfitNames.contains ·.1)
  let named := if family.contains '\x00' then [Error.reservedName family] else []
  -- Hooks are only called for members, and of several orders the last one counts.
  let hooks := if members.isEmpty then [] else withRole .hook
  let orders := (withRole .order).getLast?.toList.filter (·.2 != 0)
  (unfit.map (Error.reservedName ·.1)
    ++ (withRole .storage).map (Error.unusableSetting ·.1)
    ++ named
    ++ (withRole .setting ++ hooks ++ orders).map (Error.unusableSetting ·.1)).head?

/-- The family that entries describe. -/
def ofEntries (family : String) (entries : List (String × Int)) : Except Error FamilyTable :=
  match h : collect family [] entries with
  | .error e => .error e
  | .ok members =>
    match fault? family entries members with
    | some e => refuse e
    | none => .ok ⟨family, members, nodup_of_collect (by simp) h⟩

/-- The member a name of the family stands for: the first of its value. -/
def member (f : FamilyTable) (name : String) (value : Int) : Member :=
  let first := f.members.find? (·.2 == value)
  ⟨f.name, (first.map Prod.fst).getD name, value⟩

/-- The family's mnemonics with the members they stand for, aliases included. -/
def mnemonics (f : FamilyTable) : List (String × Member) :=
  f.members.map fun (name, value) => (name, f.member name value)

end FamilyTable

/-- An opcode table: its families, and entries after the computed ranges. -/
structure CodeTable where
  families : List FamilyTable
  extra : List (String × Int)

namespace CodeTable

/-- The entries of an indexed range of opcodes. -/
def rangeEntries (name : String) (base : UInt8) (count : Nat) : List (String × Int) :=
  (List.range count).map fun i =>
    (name ++ Text.decimal (i + 1), ((base.toNat + i + 1 : Nat) : Int))

/-- Every name with its code: families, `DUP`, `SWAP`, `PUSH`, further entries. -/
def entries (t : CodeTable) : List (String × Int) :=
  t.families.flatMap FamilyTable.members
    ++ rangeEntries "DUP" dupBase maxStackIndex
    ++ rangeEntries "SWAP" swapBase maxStackIndex
    ++ rangeEntries "PUSH" pushBase maxPushBytes
    ++ t.extra

/-- The first entry whose code an earlier one holds, with that earlier name. -/
def collision? (seen : List (String × Int)) : List (String × Int) → Option (String × String × Int)
  | [] => none
  | (name, code) :: rest =>
    match seen.find? (·.2 == code) with
    | some (other, _) => some (name, other, code)
    | none => collision? ((name, code) :: seen) rest

/-- Refuses a table that gives one code to two entries. -/
def checkDistinct (t : CodeTable) : Except Error Unit :=
  match collision? [] t.entries with
  | some (name, other, code) => refuse (.sharedCode name other code)
  | none => .ok ()

/-- Adds mnemonics to those collected so far, refusing one that is there already. -/
def addMnemonics (known : List (String × Member)) :
    List (String × Member) → Except Error (List (String × Member))
  | [] => .ok known
  | (name, m) :: rest =>
    if known.any (·.1 == name) then refuse (.sharedMnemonic name)
    else addMnemonics (known ++ [(name, m)]) rest

/-- Every mnemonic of the families with the member it stands for. -/
def mnemonics (t : CodeTable) : Except Error (List (String × Member)) :=
  addMnemonics [] (t.families.flatMap FamilyTable.mnemonics)

/-- The table of one family's opcodes. -/
def ofFamily (f : Family) : FamilyTable where
  name := f.name
  members := (Opcode.members f).map fun op => (op.name, (op.code.toNat : Int))
  nodup := by cases f <;> decide +kernel

/-- The table of the fixed opcodes. -/
def standard : CodeTable where
  families := Family.all.map ofFamily
  extra := []

end CodeTable

end EvmAssembler
