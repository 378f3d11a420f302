import EvmAssembler.Opcode.Lookup
import EvmAssembler.Proofs.CommandLine.Entries
import EvmAssembler.Proofs.Equality.Datum
import EvmAssembler.Proofs.Source.Command
import EvmAssembler.Proofs.Text.Literal

/-!
# `EvmAssembler.Proofs.CommandLine.Dump`: reading a dump back

The library writes dumps and never reads one. `dumpBytes?` does, and gives the bytes of the program
that was dumped (`dumpBytes?_eq`). So a dump says all about a program that its bytes depend on,
although it leaves bases and opcodes out: the class of a record says which base an index is added to
and how the payload has to be read.

Every row has the same three fields for its class, so dumps that are equal as data, where the order
of the fields does not matter, are the same (`same_iff_of_dump`).
-/

set_option autoImplicit false

namespace EvmAssembler

/-! ### Numbers and texts -/

/-- The digit pairs of bytes are read as the bytes. -/
theorem Text.readByteDigits_byteHex (data : List UInt8) :
    readByteDigits (data.flatMap byteHex) = some data := by
  obtain ⟨hdigits, hvalue⟩ := ofDigits_byteHex data
  rw [readByteDigits_eq data.length (length_byteHex data) hdigits, hvalue, Immediate.bytes_toNat]

/-- An opcode is found by its mnemonic. -/
theorem Opcode.ofName?_name (op : Opcode) : ofName? op.name = some op := by
  have hcapitals : Text.capitals op.name.toList = op.name.toList :=
    Source.capitals_name rfl
  rw [ofName?, hcapitals]
  have hsome : (all.find? fun other => other.name.toList == op.name.toList).isSome = true :=
    List.find?_isSome.mpr ⟨op, mem_all op, beq_self_eq_true op.name.toList⟩
  obtain ⟨found, hfound⟩ := Option.isSome_iff_exists.mp hsome
  have hname := List.find?_some hfound
  rw [hfound, Source.name_injective (beq_iff_eq.mp hname)]

namespace Instruction

/-! ### Records -/

/-- The bytes that a payload stands for under a class. -/
def payloadBytes? (kind : String) : Datum → Option (List UInt8)
  | .int n =>
    if kind = "Unknown" then some [UInt8.ofNat n.toNat]
    else if kind = "Dup" then some [dupBase + UInt8.ofNat n.toNat]
    else if kind = "Swap" then some [swapBase + UInt8.ofNat n.toNat]
    else none
  | .text s =>
    if kind = "Push" then
      (Text.readByteDigits s.toList).map fun data => (pushBase + UInt8.ofNat data.length) :: data
    else if kind = "Annotation" then some []
    -- Any other class is that of a family, and the opcode knows its family itself.
    else (Opcode.ofName? s).map fun op => [op.code]
  | _ => none

/-- A record of a class and a payload that stands for the bytes. -/
inductive StandsFor : Record → List UInt8 → Prop where
  | intro {kind key : String} {payload : Datum} {bytes : List UInt8} : key ≠ "Offset" →
    key ≠ "Class" → payload.IsScalar → payloadBytes? kind payload = some bytes →
      StandsFor [("Class", .text kind), (key, payload)] bytes

/-- The record of an instruction stands for its bytes. -/
theorem Encodes.standsFor_record {i : Instruction} {bytes : List UInt8} {fields : Record}
    (h : i.Encodes bytes) (hfields : i.record = .ok fields) : StandsFor fields bytes := by
  cases h with
  | assertion p =>
    obtain rfl := Except.ok.inj hfields
    exact .intro (by decide) (by decide) trivial rfl
  | unknown b =>
    obtain rfl := Except.ok.inj hfields
    refine .intro (by decide) (by decide) trivial ?_
    rw [payloadBytes?, if_pos rfl, Int.toNat_natCast, UInt8.ofNat_toNat]
  | fixed op =>
    obtain rfl := Except.ok.inj hfields
    refine .intro (by decide) (by decide) trivial ?_
    have hclass : op.family.recordClass ≠ "Push" ∧ op.family.recordClass ≠ "Annotation" := by
      cases op.family <;> decide
    rw [payloadBytes?, if_neg hclass.1, if_neg hclass.2, Opcode.ofName?_name]
    rfl
  | dup least most =>
    obtain rfl := Except.ok.inj hfields
    exact .intro (by decide) (by decide) trivial rfl
  | swap least most =>
    obtain rfl := Except.ok.inj hfields
    exact .intro (by decide) (by decide) trivial rfl
  | push least most =>
    obtain rfl := Except.ok.inj hfields
    refine .intro (by decide) (by decide) trivial ?_
    rw [payloadBytes?, if_pos rfl, Text.bytesHex, String.toList_ofList,
      Text.readByteDigits_byteHex]
    rfl

end Instruction

namespace CommandLine

open Instruction (Record StandsFor)

/-! ### Rows -/

/-- The bytes that a row of a dump stands for: the offset in front adds nothing. -/
def rowBytes? : Datum → Option (List UInt8)
  | .dict [_, (_, .text kind), (_, payload)] => Instruction.payloadBytes? kind payload
  | _ => none

/-- The bytes that rows stand for, one after another. -/
def rowsBytes? : List Datum → Option (List UInt8)
  | [] => some []
  | row :: rows => (rowBytes? row).bind fun bytes => (rowsBytes? rows).map (bytes ++ ·)

/-- The bytes that a dump stands for. -/
def dumpBytes? : Datum → Option (List UInt8)
  | .list rows => rowsBytes? rows
  | _ => none

/-- A row of an offset and a record that stands for the bytes. -/
inductive IsRow : Datum → List UInt8 → Prop where
  | intro {offset : Nat} {fields : Record} {bytes : List UInt8} : StandsFor fields bytes →
    IsRow (.dict (("Offset", .int offset) :: fields)) bytes

/-- The bytes that a row stands for are those that it is read as. -/
theorem IsRow.rowBytes?_eq {row : Datum} {bytes : List UInt8} (h : IsRow row bytes) :
    rowBytes? row = some bytes := by
  obtain ⟨⟨-, -, -, hbytes⟩⟩ := h
  exact hbytes

/-- Rows are equal as data only where they are the same. -/
theorem IsRow.agrees_iff {row row' : Datum} {bytes bytes' : List UInt8} (h : IsRow row bytes)
    (h' : IsRow row' bytes') : row.agrees row' = true ↔ row = row' := by
  obtain ⟨⟨hoffset, hclass, hpayload, -⟩⟩ := h
  obtain ⟨⟨-, -, hpayload', -⟩⟩ := h'
  rename_i offset kind key payload offset' kind' key' payload'
  have hnumber := @Datum.agrees_iff_of_isScalar (.int offset) (.int offset') trivial trivial
  have htext := @Datum.agrees_iff_of_isScalar (.text kind) (.text kind') trivial trivial
  have hvalue := Datum.agrees_iff_of_isScalar hpayload hpayload'
  generalize hentries : [("Offset", Datum.int offset'), ("Class", .text kind'), (key', payload')] =
    entries
  have hfirst : entries.lookup "Offset" = some (.int offset') := by
    rw [← hentries]
    rfl
  have hsecond : entries.lookup "Class" = some (.text kind') := by
    rw [← hentries]
    rfl
  -- The name of the payload is none of the other fields, so only a payload is found under it.
  have hthird : ∀ y, entries.lookup key = some y ↔ key = key' ∧ payload' = y := by
    intro y
    rw [← hentries, List.lookup_cons, beq_eq_false_iff_ne.mpr hoffset, List.lookup_cons,
      beq_eq_false_iff_ne.mpr hclass, List.lookup_cons, List.lookup_nil]
    by_cases hkey : key = key'
    · rw [beq_iff_eq.mpr hkey]
      simp [hkey]
    · rw [beq_eq_false_iff_ne.mpr hkey]
      simp [hkey]
  rw [Datum.agrees_dict_iff, Datum.sameEntries_cons_iff, Datum.sameEntries_cons_iff,
    Datum.sameEntries_cons_iff]
  simp only [hfirst, hsecond, hthird, Option.some.injEq, exists_eq_left', hnumber, htext]
  rw [← hentries]
  simp [hvalue, Datum.sameEntries]

/-- Lists of rows too. -/
theorem sameItems_iff_of_isRow {rows rows' : List Datum}
    (h : ∀ row ∈ rows, ∃ bytes, IsRow row bytes) (h' : ∀ row ∈ rows', ∃ bytes, IsRow row bytes) :
    Datum.sameItems rows rows' = true ↔ rows = rows' := by
  induction rows generalizing rows' with
  | nil => cases rows' <;> simp [Datum.sameItems]
  | cons row rows ih =>
    cases rows' with
    | nil => simp [Datum.sameItems]
    | cons row' rows' =>
      obtain ⟨⟨bytes, hrow⟩, hrows⟩ := List.forall_mem_cons.mp h
      obtain ⟨⟨bytes', hrow'⟩, hrows'⟩ := List.forall_mem_cons.mp h'
      rw [Datum.sameItems, Bool.and_eq_true, ih hrows hrows', List.cons.injEq]
      exact and_congr_left fun _ => hrow.agrees_iff hrow'

/-! ### Dumps -/

/-- An entry's row stands for the bytes of the entry. -/
theorem Entry.Shows.isRow {e : Entry} {i : Instruction} (h : e.Shows i) : IsRow e.row e.code :=
  .intro ((Instruction.Encodes.of_encode h.code).standsFor_record h.fields)

/-- The rows of a program's entries stand for all of its bytes, one entry after another. -/
theorem Entries.rowsBytes?_eq {offset : Nat} {p : Program} {entries : List Entry}
    (h : Entries offset p entries) :
    rowsBytes? (entries.map Entry.row) = some (entries.flatMap Entry.code) := by
  induction h with
  | nil => rfl
  | @cons i e p entries hshows _ ih =>
    rw [List.map_cons, rowsBytes?, hshows.isRow.rowBytes?_eq, Option.bind_some, ih]
    rfl

/-- A dump is read back as the bytes of the program. -/
theorem dumpBytes?_eq {p : Program} {code : List UInt8} {d : Datum} (hcode : p.code = .ok code)
    (h : dump p = .ok d) : dumpBytes? d = some code := by
  obtain ⟨entries, hentries⟩ :=
    exists_entries (Program.encodable_iff_exists_code.mpr ⟨code, hcode⟩) 0
  obtain rfl := Except.ok.inj (hentries.dump_eq.symm.trans h)
  obtain rfl := Except.ok.inj (hentries.code_eq.symm.trans hcode)
  exact hentries.rowsBytes?_eq

/-- Dumps are equal as data only where they are the same. -/
theorem same_iff_of_dump {p p' : Program} {d d' : Datum} (hp : p.Encodable) (hp' : p'.Encodable)
    (h : dump p = .ok d) (h' : dump p' = .ok d') : d.same d' = true ↔ d = d' := by
  have hrows : ∀ {p : Program} {d : Datum}, p.Encodable → dump p = .ok d →
      ∃ rows, d = .list rows ∧ ∀ row ∈ rows, ∃ bytes, IsRow row bytes := by
    intro p d hp h
    obtain ⟨entries, hentries⟩ := exists_entries hp 0
    refine ⟨_, Except.ok.inj (h.symm.trans hentries.dump_eq), fun row hrow => ?_⟩
    obtain ⟨e, he, rfl⟩ := List.mem_map.mp hrow
    obtain ⟨i, hi⟩ := exists_forall₂_iff.mp ⟨p, hentries.forall₂.flip⟩ e he
    exact ⟨e.code, hi.isRow⟩
  obtain ⟨rows, rfl, hall⟩ := hrows hp h
  obtain ⟨rows', rfl, hall'⟩ := hrows hp' h'
  rw [Datum.same, sameItems_iff_of_isRow hall hall', Datum.list.injEq]

/-- So programs that are dumped alike have the same bytes. -/
theorem code_eq_of_dump {p p' : Program} {d : Datum} (hp : p.Encodable) (hp' : p'.Encodable)
    (h : dump p = .ok d) (h' : dump p' = .ok d) : p.code = p'.code := by
  obtain ⟨code, hcode⟩ := Program.encodable_iff_exists_code.mp hp
  obtain ⟨code', hcode'⟩ := Program.encodable_iff_exists_code.mp hp'
  have hbytes := (dumpBytes?_eq hcode h).symm.trans (dumpBytes?_eq hcode' h')
  rw [hcode, hcode', Option.some.inj hbytes]

end CommandLine

end EvmAssembler
