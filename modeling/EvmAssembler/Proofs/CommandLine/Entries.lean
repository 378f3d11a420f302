import EvmAssembler.Proofs.CommandLine.Containment

/-!
# `EvmAssembler.Proofs.CommandLine.Entries`: what is shown of each instruction

The listing, the dump and the binary come from three walks over a program. An `Entry` is what all of
them show of one instruction: where it starts, its bytes, its mnemonic and its record. `Entries`
puts the entries of a program one behind another, each starting where the bytes of the one before
end, and every encodable program has them (`exists_entries`). The rest is read off entries:

* `Entries.listingEvents_eq` and `Entries.dump_eq`: the listing and the dump have one item for each
  entry, in their order. Both are cases of `Entries.mapM_rows`.
* `Entries.code_eq`: the bytes of a program are those of its entries.
* `Entries.size_take` and `Entries.extract_eq`: an entry starts behind the bytes before it, and its
  own bytes reach to where the next one starts.
-/

set_option autoImplicit false

namespace EvmAssembler.CommandLine

/-- What is shown of an instruction. -/
structure Entry where
  offset : Nat
  code : List UInt8
  mnemonic : String
  fields : Instruction.Record

namespace Entry

/-- The entry shows the instruction. -/
structure Shows (e : Entry) (i : Instruction) : Prop where
  code : i.encode = .ok e.code
  mnemonic : i.mnemonic = .ok e.mnemonic
  fields : i.record = .ok e.fields

/-- The listing's event for an entry. -/
def event (e : Entry) : Event :=
  .listed e.offset e.code e.mnemonic

/-- The dump's row for an entry. -/
def row (e : Entry) : Datum :=
  .dict (("Offset", .int e.offset) :: e.fields)

/-- Where the bytes of an entry end. -/
def next (e : Entry) : Nat :=
  e.offset + e.code.length

end Entry

/-- The entries of a program from an offset on. -/
inductive Entries : Nat → Program → List Entry → Prop where
  | nil {offset : Nat} : Entries offset [] []
  | cons {i : Instruction} {e : Entry} {p : Program} {entries : List Entry} : e.Shows i →
    Entries e.next p entries → Entries e.offset (i :: p) (e :: entries)

/-- An encodable program has entries. -/
theorem exists_entries {p : Program} (h : p.Encodable) (offset : Nat) :
    ∃ entries, Entries offset p entries := by
  induction p generalizing offset with
  | nil => exact ⟨[], .nil⟩
  | cons i p ih =>
    obtain ⟨⟨bytes, hbytes⟩, hp⟩ := Program.encodable_cons.mp h
    have hencodes := Instruction.Encodes.of_encode hbytes
    obtain ⟨mnemonic, hmnemonic⟩ := Layout.exists_mnemonic hencodes
    obtain ⟨fields, hfields⟩ := hencodes.exists_record
    obtain ⟨entries, hentries⟩ := ih hp (offset + bytes.length)
    let e : Entry := ⟨offset, bytes, mnemonic, fields⟩
    have hshows : e.Shows i := ⟨hbytes, hmnemonic, hfields⟩
    exact ⟨e :: entries, .cons hshows hentries⟩

namespace Entries

variable {offset : Nat} {p : Program} {entries : List Entry}

/-- There is one entry for each instruction. -/
theorem forall₂ (h : Entries offset p entries) : List.Forall₂ (fun i e => e.Shows i) p entries := by
  induction h with
  | nil => exact .nil
  | cons hshows _ ih => exact .cons hshows ih

/-- The bytes of a program are those of its entries. -/
theorem code_eq (h : Entries offset p entries) : p.code = .ok (entries.flatMap Entry.code) := by
  induction h with
  | nil => rfl
  | cons hshows _ ih => exact Program.code_cons_eq_ok_iff.mpr ⟨_, _, hshows.code, ih, rfl⟩

/-- Only programs that can be encoded have entries. -/
theorem encodable (h : Entries offset p entries) : p.Encodable :=
  Program.encodable_iff_exists_code.mpr ⟨_, h.code_eq⟩

/-! ### The listing and the dump -/

/-- What is made of each row of a program can be made of its entries. -/
theorem mapM_rows {α : Type} {f : Nat × Instruction → Except Error α} {g : Entry → α}
    (hf : ∀ i e, e.Shows i → f (e.offset, i) = .ok (g e)) (h : Entries offset p entries) :
    (p.rowsFrom offset).mapM f = .ok (entries.map g) := by
  induction h with
  | nil => rfl
  | @cons i e p entries hshows _ ih =>
    have hextent : e.offset + i.extent = e.next := by
      rw [Entry.next, (Instruction.Encodes.of_encode hshows.code).length_eq]
    rw [Program.rowsFrom_cons, mapM_cons_eq_bind, hf i e hshows, hextent, ih]
    rfl

/-- The listing has an event for each entry. -/
theorem listingEvents_eq (h : Entries 0 p entries) :
    listingEvents p = .ok (entries.map Entry.event) := by
  rw [listingEvents, Program.listing_eq_rows h.encodable, except_bind_ok]
  refine h.mapM_rows fun i e hshows => ?_
  rw [listingEvent, hshows.code, except_bind_ok, hshows.mnemonic]
  rfl

/-- The dump has a row for each entry. -/
theorem dump_eq (h : Entries 0 p entries) : dump p = .ok (.list (entries.map Entry.row)) := by
  have hrows : (p.rowsFrom 0).mapM dumpRow = .ok (entries.map Entry.row) := by
    refine h.mapM_rows fun i e hshows => ?_
    rw [dumpRow, hshows.fields]
    rfl
  rw [dump, Program.listing_eq_rows h.encodable, except_bind_ok, hrows]
  rfl

/-! ### Where entries stand -/

/-- An entry starts behind the instructions before it. -/
theorem size_take (h : Entries offset p entries) {k : Nat} {e : Entry}
    (he : entries[k]? = some e) : ∃ n, Program.size (p.take k) = .ok n ∧ e.offset = offset + n := by
  induction h generalizing k with
  | nil => cases he
  | @cons i first p entries hshows _ ih =>
    cases k with
    | zero =>
      obtain rfl := Option.some.inj he
      exact ⟨0, rfl, rfl⟩
    | succ k =>
      obtain ⟨n, hn, hoffset⟩ := ih he
      refine ⟨first.code.length + n, ?_, ?_⟩
      · rw [List.take_succ_cons, Program.size, Instruction.size_eq_ok_of_encode hshows.code,
          except_bind_ok, hn]
        rfl
      · rw [hoffset, Entry.next, Nat.add_assoc]

/-- Where the entry behind the `k`-th one starts, or the end where there is none. -/
def startBehind (entries : List Entry) (stop k : Nat) : Nat :=
  (entries[k + 1]?.map Entry.offset).getD stop

/-- Entries start where they are said to. -/
theorem startBehind_zero {first : Entry} {stop : Nat} (h : Entries offset p entries)
    (hstop : entries = [] → stop = offset) : startBehind (first :: entries) stop 0 = offset := by
  cases h with
  | nil => exact hstop rfl
  | cons _ _ => rfl

/-- The bytes of an entry are those from where it starts to where the next one does. The bytes that
the offset counts stand in front. -/
theorem extract_eq (h : Entries offset p entries) {k : Nat} {e : Entry} {before code : List UInt8}
    (hbefore : before.length = offset) (hcode : before ++ entries.flatMap Entry.code = code)
    (he : entries[k]? = some e) :
    code.extract e.offset (startBehind entries code.length k) = e.code := by
  induction h generalizing k before with
  | nil => cases he
  | @cons i first p entries hshows hlater ih =>
    rw [List.flatMap_cons, ← List.append_assoc] at hcode
    have hnext : (before ++ first.code).length = first.next := by
      rw [List.length_append, hbefore, Entry.next]
    cases k with
    | zero =>
      obtain rfl := Option.some.inj he
      -- Behind the first entry there is another one, or its bytes are the last.
      have hstart : startBehind (first :: entries) code.length 0 = first.next := by
        refine hlater.startBehind_zero fun hnil => ?_
        rw [← hcode, hnil, List.flatMap_nil, List.append_nil, hnext]
      rw [hstart, ← hcode, List.append_assoc, Entry.next, ← hbefore, List.extract_eq_take_drop,
        List.drop_left, Nat.add_sub_cancel_left, List.take_left]
    | succ k => exact ih hnext hcode he

end Entries

end EvmAssembler.CommandLine
