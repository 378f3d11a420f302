import EvmAssembler.Proofs.Jumps

/-!
# `EvmAssembler.Proofs.Navigation.Annotations`: programs without their annotations

An annotation takes no bytes, and nothing that is said about the bytes of a program may depend on
it. `Program.unannotated` leaves the annotations out, and `Program.unannotated_transparent` compares
a program with that version of it: the bytes and the size, every walk to an offset and what it
finds, the listing, and the jump check are the same. Nothing is assumed of the program. Where one
of the two fails, so does the other, with the same error.

Each function meets annotations in a way of its own. The bytes and the listing measure them as
nothing. A walk passes those before an offset and keeps those at it, so it is compared by what is
left (`dropBytes_unannotated`). The jump check passes over them with the pushed number in hand
(`jumpsAfter_unannotated`). All proofs go over the program by `annotationCases`, where the case of
an annotation says that nothing happens.
-/

set_option autoImplicit false

namespace EvmAssembler.Program

/-- The program without its annotations. -/
def unannotated (p : Program) : Program :=
  p.filter fun i => !i.isAssertion

/-- An annotation is left out. -/
@[simp] theorem unannotated_assertion (a : Predicate) (p : Program) :
    unannotated (.assertion a :: p) = p.unannotated := rfl

/-- Everything else is left in, where it was. -/
theorem unannotated_cons {i : Instruction} (h : i.isAssertion = false) (p : Program) :
    unannotated (i :: p) = i :: p.unannotated :=
  List.filter_cons_of_pos (by rw [h]; rfl)

/-- Induction over a program that tells annotations from all other instructions. -/
@[elab_as_elim]
theorem annotationCases {motive : Program → Prop} (nil : motive [])
    (assertion : ∀ a p, motive p → motive (.assertion a :: p))
    (cons : ∀ i p, i.isAssertion = false → motive p → motive (i :: p)) (p : Program) :
    motive p := by
  induction p with
  | nil => exact nil
  | cons i p ih =>
    cases i with
    | assertion a => exact assertion a p ih
    | _ => exact cons _ p rfl ih

/-! ### Bytes, size and listing -/

/-- Annotations have no bytes, so the bytes of a program are those that it has without them. -/
theorem code_unannotated (p : Program) : p.unannotated.code = p.code := by
  induction p using annotationCases with
  | nil => rfl
  | assertion a p ih =>
    rw [unannotated_assertion, ih, code, Instruction.encode_assertion, except_bind_ok]
    cases p.code <;> rfl
  | cons i p h ih => rw [unannotated_cons h, code, code, ih]

/-- An annotation is measured as nothing. -/
theorem size_assertion (a : Predicate) : (Instruction.assertion a).size = .ok 0 := rfl

/-- Its size is the same for that reason. -/
theorem size_unannotated (p : Program) : p.unannotated.size = p.size := by
  induction p using annotationCases with
  | nil => rfl
  | assertion a p ih =>
    rw [unannotated_assertion, ih, size, size_assertion, except_bind_ok]
    cases p.size with
    | ok n => exact congrArg Except.ok (Nat.zero_add n).symm
    | error e => rfl
  | cons i p h ih => rw [unannotated_cons h, size, size, ih]

/-- Whether a row of a listing is one of an instruction that is no annotation. -/
def isProper (row : Nat × Instruction) : Bool :=
  !row.2.isAssertion

/-- The offsets in a listing do not change when the rows of annotations are left out. -/
theorem listingFrom_unannotated (offset : Nat) (p : Program) :
    listingFrom offset p.unannotated = (listingFrom offset p).map (·.filter isProper) := by
  induction p using annotationCases generalizing offset with
  | nil => rfl
  | assertion a p ih =>
    rw [unannotated_assertion, ih, listingFrom, size_assertion, except_bind_ok, Nat.add_zero]
    cases listingFrom offset p <;> rfl
  | cons i p h ih =>
    have hproper : isProper (offset, i) = true := by rw [isProper, h]; rfl
    rw [unannotated_cons h, listingFrom, listingFrom]
    cases i.size with
    | error e => rfl
    | ok n =>
      rw [except_bind_ok, except_bind_ok, ih]
      cases listingFrom (offset + n) p with
      | error e => rfl
      | ok rows => exact congrArg Except.ok (List.filter_cons_of_pos hproper).symm

/-! ### Walking to an offset -/

/-- A walk leaves the same instructions, annotations aside. -/
theorem walk_unannotated (offset : Int) (left : Nat) (p : Program) :
    walk offset left p.unannotated = (walk offset left p).map unannotated := by
  induction p using annotationCases generalizing left with
  | nil => cases left <;> rfl
  | assertion a p ih =>
    cases left with
    -- The walk has arrived, and the annotation is in what it leaves.
    | zero => rw [walk, walk]; rfl
    -- On the way it is passed, and as much is left to walk behind it.
    | succ left => rw [unannotated_assertion, ih, walk, size_assertion]; rfl
  | cons i p h ih =>
    cases left with
    | zero => rw [walk, walk]; rfl
    | succ left =>
      rw [unannotated_cons h, walk, walk]
      cases i.size with
      | error e => rfl
      | ok n =>
        rw [except_bind_ok, except_bind_ok, ih]
        split <;> rfl

/-- At every offset stands what stood there with the annotations, which are left out of it now. An
offset that is refused is refused for the same reason. -/
theorem dropBytes_unannotated (p : Program) (offset : Int) :
    p.unannotated.dropBytes offset = (p.dropBytes offset).map unannotated := by
  rw [dropBytes, dropBytes, walk_unannotated]
  split <;> rfl

/-- What is looked for behind leading annotations is found without them. -/
theorem first?_unannotated (p : Program) : p.unannotated.first? = p.first? := by
  induction p using annotationCases with
  | nil => rfl
  | assertion a p ih => rw [unannotated_assertion, ih, first?_cons]; rfl
  | cons i p h ih => rw [unannotated_cons h, first?_cons, first?_cons, h]; rfl

/-- The instruction at an offset is never an annotation, so it is found without them. -/
theorem instructionAt_unannotated (p : Program) (offset : Int) :
    p.unannotated.instructionAt offset = p.instructionAt offset := by
  rw [instructionAt, instructionAt, dropBytes_unannotated]
  cases p.dropBytes offset with
  | error e => rfl
  | ok rest => exact congrArg Except.ok (first?_unannotated rest)

/-- So are the jump destinations. -/
theorem isJumpdest_unannotated (p : Program) (offset : Int) :
    p.unannotated.isJumpdest offset = p.isJumpdest offset := by
  rw [isJumpdest, isJumpdest, instructionAt_unannotated]

/-! ### The jump check -/

/-- The rows of annotations have no say in what is collected. -/
theorem jumpsAfter_unannotated (pushed : Option Nat) (rows : List (Nat × Instruction)) :
    jumpsAfter pushed (rows.filter isProper) = jumpsAfter pushed rows := by
  -- A number stays pushed over any number of annotations, so it has to vary.
  induction rows generalizing pushed with
  | nil => rfl
  | cons row rows ih =>
    obtain ⟨offset, i⟩ := row
    cases h : i.isAssertion with
    | true => rw [List.filter_cons_of_neg (by simp [isProper, h]), ih, jumpsAfter_of_isAssertion h]
    | false =>
      rw [List.filter_cons_of_pos (by simp [isProper, h]), jumpsAfter_cons h, jumpsAfter_cons h, ih]

/-- A jump is matched to its push over annotations in between, so the known targets stay the
same. -/
theorem staticJumps_unannotated (p : Program) : p.unannotated.staticJumps = p.staticJumps := by
  rw [staticJumps, staticJumps, listing, listingFrom_unannotated]
  show ((listingFrom 0 p).map _).map _ = (listingFrom 0 p).map _
  cases listingFrom 0 p with
  | error e => rfl
  | ok rows => exact congrArg Except.ok (jumpsAfter_unannotated none rows)

/-- Which jumps are bad is decided by the targets' answers alone. -/
theorem keepBad_unannotated (p : Program) (jumps : List (Nat × Nat)) :
    p.unannotated.keepBad jumps = p.keepBad jumps := by
  induction jumps with
  | nil => rfl
  | cons jump jumps ih =>
    obtain ⟨offset, target⟩ := jump
    rw [keepBad, keepBad, isJumpdest_unannotated, ih]

/-- Of these jumps the same are bad. -/
theorem badJumps_unannotated (p : Program) : p.unannotated.badJumps = p.badJumps := by
  rw [badJumps, badJumps, staticJumps_unannotated]
  exact congrArg _ (funext (keepBad_unannotated p))

/-- Annotations are transparent. A program and its version without them have the same bytes and the
same size. A walk to an offset leaves the same program behind it, annotations aside, and finds the
same instruction and the same answer about jump destinations. The listing differs by the rows of
annotations only, and the static jumps and the bad ones do not differ. Failures are the same too. -/
theorem unannotated_transparent (p : Program) :
    p.unannotated.code = p.code ∧ p.unannotated.size = p.size ∧
      (∀ offset, p.unannotated.dropBytes offset = (p.dropBytes offset).map unannotated ∧
        p.unannotated.instructionAt offset = p.instructionAt offset ∧
        p.unannotated.isJumpdest offset = p.isJumpdest offset) ∧
      p.unannotated.listing = p.listing.map (·.filter fun row => !row.2.isAssertion) ∧
      p.unannotated.staticJumps = p.staticJumps ∧ p.unannotated.badJumps = p.badJumps := by
  refine ⟨code_unannotated p, size_unannotated p, fun offset => ?_, listingFrom_unannotated 0 p,
    staticJumps_unannotated p, badJumps_unannotated p⟩
  exact ⟨dropBytes_unannotated p offset, instructionAt_unannotated p offset,
    isJumpdest_unannotated p offset⟩

end EvmAssembler.Program
