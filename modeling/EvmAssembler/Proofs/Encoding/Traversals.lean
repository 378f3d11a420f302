import EvmAssembler.Proofs.Encoding

/-!
# `EvmAssembler.Proofs.Encoding.Traversals`: bytes, size and listing agree

The bytes of a program, its size and its listing come from three passes over its instructions, and
each of them encodes every instruction on its own. `Program.chunks` is that part of them, the bytes
of the instructions one by one, and each pass is a plain function of it:

* `code_eq_chunks`, `size_eq_chunks` and `listing_eq_chunks`: the passes fail as the chunks do. Else
  they join the chunks, add up the extents, and pair every instruction with the extents before it
  (`rowsFrom`). In an encodable program they do not fail (`listing_eq_rows`).
* `chunks_eq_error_iff`: the chunks fail with the first instruction that has no bytes.
* `chunks_append`: programs one behind the other have the chunks of the one and then those of the
  other. `code_append`, `size_append` and `listing_append` follow, failures included.

`Program.traversals_agree` puts these together. Nothing is assumed of the program.
-/

set_option autoImplicit false

namespace EvmAssembler.Program

/-! ### What the passes have in common -/

/-- The bytes of each instruction, up to the first that has none. -/
def chunks (p : Program) : Except Error (List (List UInt8)) :=
  p.mapM Instruction.encode

/-- The empty program has no chunks. -/
@[simp] theorem chunks_nil : chunks [] = .ok [] := rfl

/-- An instruction has its chunk in front of those behind it, unless it is refused. -/
theorem chunks_cons (i : Instruction) (p : Program) :
    chunks (i :: p) = i.encode.bind fun own => p.chunks.map (own :: ·) := by
  rw [chunks, mapM_cons_eq_bind]
  rfl

/-- The program has bytes up to an instruction that is refused. -/
def FailsFirst (p : Program) (e : Error) : Prop :=
  ∃ before i after, p = before ++ i :: after ∧ Encodable before ∧ i.encode = .error e

/-- No chunks are found exactly where some instruction is refused, and the error is that of the
first one. -/
theorem chunks_eq_error_iff {p : Program} {e : Error} :
    p.chunks = .error e ↔ p.FailsFirst e :=
  mapM_eq_error_iff

/-- The bytes of a program are its chunks, joined. -/
theorem code_eq_chunks (p : Program) : p.code = p.chunks.map List.flatten := by
  induction p with
  | nil => rfl
  | cons i p ih =>
    rw [code, chunks_cons, ih]
    cases i.encode with
    | error e => rfl
    | ok own => cases chunks p <;> rfl

/-- The size of a program that has chunks is its extent. -/
theorem size_eq_chunks (p : Program) : p.size = p.chunks.map fun _ => p.extent := by
  induction p with
  | nil => rfl
  | cons i p ih =>
    rw [size, chunks_cons, ih]
    cases hi : i.encode with
    | error e => rw [Instruction.size_eq_error_of_encode hi]; rfl
    | ok own =>
      rw [Instruction.size_eq_extent ⟨own, hi⟩]
      cases chunks p <;> rfl

/-- Every instruction with the bytes before it, counted from an offset. It is defined for every
program, like the extents it adds up. -/
def rowsFrom (offset : Nat) : Program → List (Nat × Instruction)
  | [] => []
  | i :: rest => (offset, i) :: rowsFrom (offset + i.extent) rest

/-- The rows of a program with one more instruction in front. -/
@[simp] theorem rowsFrom_cons (offset : Nat) (i : Instruction) (p : Program) :
    rowsFrom offset (i :: p) = (offset, i) :: rowsFrom (offset + i.extent) p := rfl

/-- The listing of a program that has chunks is its rows. -/
theorem listingFrom_eq_chunks (offset : Nat) (p : Program) :
    listingFrom offset p = p.chunks.map fun _ => p.rowsFrom offset := by
  induction p generalizing offset with
  | nil => rfl
  | cons i p ih =>
    rw [listingFrom, chunks_cons]
    cases hi : i.encode with
    | error e => rw [Instruction.size_eq_error_of_encode hi]; rfl
    | ok own =>
      rw [Instruction.size_eq_extent ⟨own, hi⟩, except_bind_ok, ih]
      cases chunks p <;> rfl

/-- A whole listing is that from offset zero. -/
theorem listing_eq_chunks (p : Program) : p.listing = p.chunks.map fun _ => p.rowsFrom 0 :=
  listingFrom_eq_chunks 0 p

/-- An encodable program is listed with its rows. -/
theorem listing_eq_rows {p : Program} (h : p.Encodable) : p.listing = .ok (p.rowsFrom 0) := by
  obtain ⟨bytes, hbytes⟩ := encodable_iff_exists_code.mp h
  rw [code_eq_chunks] at hbytes
  obtain ⟨chunks, hchunks, -⟩ := except_map_eq_ok_iff.mp hbytes
  rw [listing_eq_chunks, hchunks]
  rfl

/-! ### Programs one behind the other -/

/-- The chunks of two programs are those of the first and then those of the second. If the first has
none, the second is not looked at. -/
theorem chunks_append (p q : Program) :
    chunks (p ++ q) = p.chunks.bind fun first => q.chunks.map (first ++ ·) := by
  induction p with
  | nil => cases h : q.chunks <;> simp [h, Except.bind, Except.map]
  | cons i p ih =>
    rw [List.cons_append, chunks_cons, chunks_cons, ih]
    cases i.encode with
    | error e => rfl
    | ok own =>
      cases chunks p with
      | error e => rfl
      | ok first => cases q.chunks <;> rfl

/-- The bytes follow from the chunks, and so they are joined where both programs have some. -/
theorem code_append (p q : Program) :
    code (p ++ q) = p.code.bind fun first => q.code.map (first ++ ·) := by
  rw [code_eq_chunks, code_eq_chunks, code_eq_chunks, chunks_append]
  cases p.chunks with
  | error e => rfl
  | ok first =>
    cases q.chunks with
    | error e => rfl
    | ok second => exact congrArg Except.ok List.flatten_append

/-- The sizes add up. -/
theorem size_append (p q : Program) :
    size (p ++ q) = p.size.bind fun n => q.size.map (n + ·) := by
  rw [size_eq_chunks, size_eq_chunks, size_eq_chunks, chunks_append]
  cases p.chunks with
  | error e => rfl
  | ok first =>
    cases q.chunks with
    | error e => rfl
    | ok second => exact congrArg Except.ok (extent_append p q)

/-- The row as it is with `n` more bytes before it. -/
def shiftRow (n : Nat) (row : Nat × Instruction) : Nat × Instruction :=
  (n + row.1, row.2)

/-- Rows that start later are the same rows, shifted. -/
theorem rowsFrom_add (n offset : Nat) (p : Program) :
    p.rowsFrom (n + offset) = (p.rowsFrom offset).map (shiftRow n) := by
  induction p generalizing offset with
  | nil => rfl
  | cons i p ih =>
    rw [rowsFrom_cons, rowsFrom_cons, Nat.add_assoc, ih]
    rfl

/-- The rows of the second program start where the first one ends. -/
theorem rowsFrom_append (offset : Nat) (p q : Program) :
    rowsFrom offset (p ++ q) = p.rowsFrom offset ++ q.rowsFrom (offset + p.extent) := by
  induction p generalizing offset with
  | nil => rfl
  | cons i p ih =>
    rw [List.cons_append, rowsFrom_cons, rowsFrom_cons, ih, extent_cons, Nat.add_assoc]
    rfl

/-- A listing goes on with that of the second program, moved by the size of the first. -/
theorem listing_append (p q : Program) :
    listing (p ++ q) = p.listing.bind fun rows => p.size.bind fun n =>
      q.listing.map fun later => rows ++ later.map (shiftRow n) := by
  rw [listing_eq_chunks, listing_eq_chunks, listing_eq_chunks, size_eq_chunks, chunks_append]
  cases p.chunks with
  | error e => rfl
  | ok first =>
    cases q.chunks with
    | error e => rfl
    | ok second =>
      refine congrArg Except.ok ?_
      rw [rowsFrom_append, Nat.zero_add]
      exact congrArg (p.rowsFrom 0 ++ ·) (rowsFrom_add p.extent 0 q)

/-! ### The three passes together -/

/-- The three passes over a program agree. Either all of them return, and then the size is the
number of the bytes, or all of them fail, with the error of the first instruction that has no bytes.
Where a program is split in two, its bytes and its listing are those of the first part and then
those of the second, with the size of the first part added to the offsets of the second. Where a
part fails, so does the whole. -/
theorem traversals_agree :
    (∀ p : Program,
      (∃ bytes rows, p.code = .ok bytes ∧ p.size = .ok bytes.length ∧ p.listing = .ok rows) ∨
        ∃ e, p.FailsFirst e ∧ p.code = .error e ∧ p.size = .error e ∧ p.listing = .error e) ∧
      ∀ q r : Program,
        code (q ++ r) = (q.code.bind fun first => r.code.map (first ++ ·)) ∧
        size (q ++ r) = (q.size.bind fun n => r.size.map (n + ·)) ∧
        listing (q ++ r) = (q.listing.bind fun rows => q.size.bind fun n =>
          r.listing.map fun later => rows ++ later.map (shiftRow n)) := by
  refine ⟨fun p => ?_, fun q r => ⟨code_append q r, size_append q r, listing_append q r⟩⟩
  have hcode := code_eq_chunks p
  have hsize := size_eq_chunks p
  have hlisting := listing_eq_chunks p
  cases h : p.chunks with
  | error e =>
    rw [h] at hcode hsize hlisting
    exact Or.inr ⟨e, chunks_eq_error_iff.mp h, hcode, hsize, hlisting⟩
  | ok chunks =>
    rw [h] at hcode hsize hlisting
    exact Or.inl ⟨_, _, hcode, by rw [length_code hcode]; exact hsize, hlisting⟩

/-- Of two refused instructions the first decides in all three passes. -/
example : let p : Program := [.push [0x01], .fixed .stack (.opcode .ADD), .bare]
    p.code = .error (.notInFamily (.opcode .ADD) .stack) ∧
      p.size = .error (.notInFamily (.opcode .ADD) .stack) ∧
      p.listing = .error (.notInFamily (.opcode .ADD) .stack) :=
  ⟨rfl, rfl, rfl⟩

end EvmAssembler.Program
