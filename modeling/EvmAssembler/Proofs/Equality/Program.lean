import EvmAssembler.Program.Jumps
import EvmAssembler.Proofs.Equality.Instruction

/-!
# `EvmAssembler.Proofs.Equality.Program`: equal instructions in programs

A program in which instructions are replaced by equal ones has the same bytes and the same size, and
all that is asked about its offsets is answered as before, as long as no replacement mixes its index
or its text. An answer that hands out instructions hands out those that stand in the place of the
old ones, and annotations of equal predicates. Whether these hold is for the predicates to say:
where equal predicates answer a state alike, the annotations hold in it alike. `Program.SameAnswers`
lists the questions, and `Program.Replaces.sameAnswers` puts their lemmas together.

Every function goes over the two programs side by side. It measures, tells annotations from the rest
or looks for a jump, and `Instruction.Interchangeable` has each of these.
`Program.equality_respects_encoding` adds what decides it for the instructions themselves.
-/

set_option autoImplicit false

namespace EvmAssembler.Program

/-- The programs have the same length, and each instruction of the second may stand in the place of
the first's. -/
abbrev Replaces (p q : Program) : Prop :=
  List.Forall₂ Instruction.Replaces p q

/-- The rows are of one offset, and the instruction of the second may stand in the place of the
first's. -/
def ReplacesRow (row row' : Nat × Instruction) : Prop :=
  row.1 = row'.1 ∧ row.2.Replaces row'.2

variable {p q : Program}

/-! ### Bytes, size and listing -/

/-- The bytes are the same, or the first refusal is of the same kind. -/
theorem Replaces.code (h : Replaces p q) : SameOutcome Eq p.code q.code := by
  induction h with
  | nil => exact .ok rfl
  | cons hi _ ih =>
    refine hi.interchangeable.encode.bind fun own _ hown => ?_
    rw [hown]
    exact ih.map fun _ _ => congrArg _

/-- So is the size. -/
theorem Replaces.size (h : Replaces p q) : SameOutcome Eq p.size q.size := by
  induction h with
  | nil => exact .ok rfl
  | cons hi _ ih =>
    refine hi.interchangeable.size.bind fun n _ hn => ?_
    rw [hn]
    exact ih.map fun _ _ => congrArg _

/-- Rows are listed at the same offsets. -/
theorem Replaces.listingFrom (h : Replaces p q) (offset : Nat) :
    SameOutcome (List.Forall₂ ReplacesRow) (listingFrom offset p) (listingFrom offset q) := by
  induction h generalizing offset with
  | nil => exact .ok .nil
  | cons hi _ ih =>
    refine hi.interchangeable.size.bind fun n _ hn => ?_
    rw [hn]
    exact (ih _).map fun _ _ => .cons ⟨rfl, hi⟩

/-! ### Walking to an offset -/

/-- A walk stops at the same place in both programs. -/
theorem Replaces.walk (h : Replaces p q) (offset : Int) (left : Nat) :
    SameOutcome Replaces (walk offset left p) (walk offset left q) := by
  induction h generalizing left with
  | nil =>
    cases left with
    | zero => exact .ok .nil
    | succ left => exact SameOutcome.error_self _
  | @cons i j p q hi hrest ih =>
    cases left with
    | zero => exact .ok (.cons hi hrest)
    | succ left =>
      refine hi.interchangeable.size.bind fun n _ hn => ?_
      rw [← hn]
      -- Both instructions are passed, or both span the offset.
      split
      · exact SameOutcome.error_self _
      · exact ih _

/-- What stands at an offset is what stands there in the other program, put in its place. -/
theorem Replaces.dropBytes (h : Replaces p q) (offset : Int) :
    SameOutcome Replaces (p.dropBytes offset) (q.dropBytes offset) := by
  rw [Program.dropBytes, Program.dropBytes]
  split
  · exact SameOutcome.error_self _
  · exact h.walk offset _

/-- The programs start with instructions that stand in each other's place, annotations aside. -/
theorem Replaces.first? (h : Replaces p q) :
    Option.Rel Instruction.Replaces p.first? q.first? := by
  induction h with
  | nil => exact .none
  | cons hi _ ih =>
    rw [first?_cons, first?_cons, ← hi.interchangeable.isAssertion]
    split
    · exact ih
    · exact .some hi

/-- The annotations in front are collected up to the first other instruction. -/
theorem leadingAnnotations_cons (i : Instruction) (p : Program) :
    leadingAnnotations (i :: p) =
      match i.predicate? with
      | some x => x :: p.leadingAnnotations
      | none => [] := by
  cases i <;> rfl

/-- They are annotations of the program. -/
theorem assertion_mem_of_leadingAnnotations {x : Predicate} (h : x ∈ p.leadingAnnotations) :
    .assertion x ∈ p := by
  induction p with
  | nil => cases h
  | cons i p ih =>
    rw [leadingAnnotations_cons] at h
    cases i with
    | assertion y =>
      rcases List.mem_cons.mp h with rfl | hrest
      · exact List.mem_cons_self
      · exact List.mem_cons_of_mem _ (ih hrest)
    | _ => cases h

/-- Two lists are of equal predicates, one by one. -/
def SameKeys (xs ys : List Predicate) : Prop :=
  xs.map Predicate.key = ys.map Predicate.key

/-- The programs start with annotations of equal predicates. -/
theorem Replaces.leadingAnnotations (h : Replaces p q) :
    SameKeys p.leadingAnnotations q.leadingAnnotations := by
  induction h with
  | nil => rfl
  | @cons i j _ _ hi _ ih =>
    have hkey := hi.interchangeable.key?
    rw [leadingAnnotations_cons, leadingAnnotations_cons]
    cases hx : i.predicate? with
    | some x =>
      cases hy : j.predicate? with
      | some y =>
        rw [hx, hy] at hkey
        exact congrArg₂ List.cons (Option.some.inj hkey) ih
      | none => rw [hx, hy] at hkey; cases hkey
    | none =>
      cases hy : j.predicate? with
      | some y => rw [hx, hy] at hkey; cases hkey
      | none => rfl

/-- The instruction at an offset is the one in the place of the other program's. -/
theorem Replaces.instructionAt (h : Replaces p q) (offset : Int) :
    SameOutcome (Option.Rel Instruction.Replaces) (p.instructionAt offset)
      (q.instructionAt offset) :=
  (h.dropBytes offset).map fun _ _ => Replaces.first?

/-- The annotations at an offset are of equal predicates. -/
theorem Replaces.annotationsAt (h : Replaces p q) (offset : Int) :
    SameOutcome SameKeys (p.annotationsAt offset) (q.annotationsAt offset) :=
  (h.dropBytes offset).map fun _ _ => Replaces.leadingAnnotations

/-- Equal predicates of the two programs answer the state alike. -/
def AnswerAlike (p q : Program) (state : Datum) : Prop :=
  ∀ x y, .assertion x ∈ p → .assertion y ∈ q → x.key = y.key →
    SameOutcome Eq (x.holds state) (y.holds state)

/-- Predicates that are equal one by one, and answer alike where they are, hold alike. -/
theorem allHold_of_sameKeys {state : Datum} {xs ys : List Predicate} (hkeys : SameKeys xs ys)
    (h : ∀ x ∈ xs, ∀ y ∈ ys, x.key = y.key → SameOutcome Eq (x.holds state) (y.holds state)) :
    SameOutcome Eq (allHold state xs) (allHold state ys) := by
  induction xs generalizing ys with
  | nil =>
    rw [List.map_eq_nil_iff.mp hkeys.symm]
    exact .ok rfl
  | cons x xs ih =>
    cases ys with
    | nil => cases hkeys
    | cons y ys =>
      obtain ⟨hkey, hrest⟩ := List.cons.inj hkeys
      refine (h x List.mem_cons_self y List.mem_cons_self hkey).bind fun b _ hb => ?_
      rw [← hb]
      -- The first that does not hold decides, and the others are not asked.
      split
      · refine ih hrest fun x hx y hy => ?_
        exact h x (List.mem_cons_of_mem _ hx) y (List.mem_cons_of_mem _ hy)
      · exact .ok rfl

/-- What stands at an offset has annotations of the program only. -/
theorem assertion_mem_of_annotationsAt {offset : Int} {xs : List Predicate} {x : Predicate}
    (h : p.annotationsAt offset = .ok xs) (hx : x ∈ xs) : .assertion x ∈ p := by
  obtain ⟨rest, hdrop, rfl⟩ := except_map_eq_ok_iff.mp h
  rw [Program.dropBytes] at hdrop
  split at hdrop
  · cases hdrop
  · exact (suffix_of_walk hdrop).subset (assertion_mem_of_leadingAnnotations hx)

/-- The annotations at an offset hold alike in a state that equal predicates answer alike. -/
theorem Replaces.checkAnnotations (h : Replaces p q) (offset : Int) {state : Datum}
    (hstate : AnswerAlike p q state) :
    SameOutcome Eq (p.checkAnnotations offset state) (q.checkAnnotations offset state) := by
  refine (h.annotationsAt offset).bind_of_eq_ok fun xs ys hxs hys hkeys => ?_
  refine allHold_of_sameKeys hkeys fun x hx y hy => hstate x y ?_ ?_
  · exact assertion_mem_of_annotationsAt hxs hx
  · exact assertion_mem_of_annotationsAt hys hy

/-! ### Jumps -/

/-- Errors that callers treat alike are forgiven alike. -/
theorem isForgiven_eq_of_akin {d e : Error} (h : d.Akin e) : isForgiven d = isForgiven e := by
  rw [isForgiven, isForgiven, Error.isEncoding, Error.isEncoding, h.1]

/-- Jump destinations stand at the same offsets. -/
theorem Replaces.isJumpdest (h : Replaces p q) (offset : Int) :
    SameOutcome Eq (p.isJumpdest offset) (q.isJumpdest offset) := by
  have hat := h.instructionAt offset
  rw [Program.isJumpdest, Program.isJumpdest]
  generalize p.instructionAt offset = x, q.instructionAt offset = y at hat
  cases hat with
  | ok hfound =>
    cases hfound with
    | none => exact .ok rfl
    | some hi => exact .ok hi.interchangeable.isJumpdest
  | error hakin =>
    -- An error is forgiven for its kind, and the error itself is not in the answer then.
    dsimp only
    rw [isForgiven_eq_of_akin hakin]
    split
    · exact .ok rfl
    · exact .error hakin

/-- The jump check takes from a row what both instructions have. -/
theorem jumpsAfter_eq_of_replacesRow {rows rows' : List (Nat × Instruction)}
    (h : List.Forall₂ ReplacesRow rows rows') (pushed : Option Nat) :
    jumpsAfter pushed rows = jumpsAfter pushed rows' := by
  induction h generalizing pushed with
  | nil => rfl
  | @cons row row' _ _ hrow _ ih =>
    obtain ⟨offset, i⟩ := row
    obtain ⟨offset', j⟩ := row'
    obtain ⟨rfl, hi⟩ := hrow
    have hij := hi.interchangeable
    rw [jumpsAfter, jumpsAfter, hij.isAssertion, hij.isJump, hij.pushed?, ih, ih]

/-- The same jumps have the same known targets. -/
theorem Replaces.staticJumps (h : Replaces p q) : SameOutcome Eq p.staticJumps q.staticJumps :=
  (h.listingFrom 0).map fun _ _ hrows => jumpsAfter_eq_of_replacesRow hrows none

/-- Of given jumps the same are bad. -/
theorem Replaces.keepBad (h : Replaces p q) (jumps : List (Nat × Nat)) :
    SameOutcome Eq (p.keepBad jumps) (q.keepBad jumps) := by
  induction jumps with
  | nil => exact .ok rfl
  | cons jump jumps ih =>
    refine (h.isJumpdest jump.2).bind fun good _ hgood => ?_
    rw [hgood]
    exact ih.map fun _ _ hbad => by rw [hbad]

/-- The jump check finds the same. -/
theorem Replaces.badJumps (h : Replaces p q) : SameOutcome Eq p.badJumps q.badJumps := by
  refine h.staticJumps.bind fun jumps _ hjumps => ?_
  rw [← hjumps]
  exact h.keepBad jumps

/-! ### All questions -/

/-- Whatever is asked about the programs has the same answer. Where instructions are handed out,
each one of the second program may stand in the place of the first's, and annotations that are
handed out are of equal predicates. Annotations hold alike in a state that equal predicates answer
alike. -/
structure SameAnswers (p q : Program) : Prop where
  code : SameOutcome Eq p.code q.code
  size : SameOutcome Eq p.size q.size
  listing : SameOutcome (List.Forall₂ ReplacesRow) p.listing q.listing
  dropBytes : ∀ offset, SameOutcome Replaces (p.dropBytes offset) (q.dropBytes offset)
  instructionAt : ∀ offset, SameOutcome (Option.Rel Instruction.Replaces) (p.instructionAt offset)
    (q.instructionAt offset)
  annotationsAt : ∀ offset, SameOutcome SameKeys (p.annotationsAt offset) (q.annotationsAt offset)
  checkAnnotations : ∀ offset state, AnswerAlike p q state →
    SameOutcome Eq (p.checkAnnotations offset state) (q.checkAnnotations offset state)
  isJumpdest : ∀ offset, SameOutcome Eq (p.isJumpdest offset) (q.isJumpdest offset)
  staticJumps : SameOutcome Eq p.staticJumps q.staticJumps
  badJumps : SameOutcome Eq p.badJumps q.badJumps

/-- Programs are not told apart after instructions were replaced. -/
theorem Replaces.sameAnswers (h : Replaces p q) : SameAnswers p q where
  code := h.code
  size := h.size
  listing := h.listingFrom 0
  dropBytes := h.dropBytes
  instructionAt := h.instructionAt
  annotationsAt := h.annotationsAt
  checkAnnotations := fun offset _ => h.checkAnnotations offset
  isJumpdest := h.isJumpdest
  staticJumps := h.staticJumps
  badJumps := h.badJumps

/-- Equality respects encoding but for the form of an index and for what can be shown. Equal
instructions have the same bytes or are refused for a reason of one kind, exactly if they mix
neither their indices nor their texts. Of mixed indices, the integer has its byte and the other is
refused, as an invalid parameter if it can be shown. Of mixed texts, where both are refused, just
one is refused for what cannot be shown, and this takes an operand that is not plain. Programs are
not told apart after instructions were replaced by equal ones that mix neither with them. -/
theorem equality_respects_encoding :
    (∀ a b : Instruction, a.same b = true →
      (SameOutcome Eq a.encode b.encode ↔ ¬a.MixesIndex b ∧ ¬a.MixesText b) ∧
      (a.MixesText b → ¬a.MixesIndex b → ∃ d e, a.encode = .error d ∧ b.encode = .error e ∧
        ¬(d.kind = .wrongValue ↔ e.kind = .wrongValue)) ∧
      (a.IsPlain → b.IsPlain → ¬a.MixesText b)) ∧
      (∀ (k : Nat) (n : Datum), 1 ≤ k → k ≤ maxStackIndex → n.int? = none →
        (Instruction.dup (.int k)).encode = .ok [dupBase + UInt8.ofNat k] ∧
        (Instruction.swap (.int k)).encode = .ok [swapBase + UInt8.ofNat k] ∧
        ∃ e, (Instruction.dup n).encode = .error e ∧ (Instruction.swap n).encode = .error e ∧
          e.kind = if n.isShowable then .invalidParameter else .wrongValue) ∧
      ∀ p q : Program, Replaces p q → SameAnswers p q := by
  refine ⟨fun a b h => ⟨Instruction.sameOutcome_encode_iff (.of_same h),
    Instruction.refusedApart_of_mixesText (.of_same h),
    fun ha hb => Instruction.not_mixesText_of_isPlain ha hb (.of_same h)⟩,
    fun k n least most hn => ?_, fun p q h => h.sameAnswers⟩
  obtain ⟨e, hrefuse, hkind⟩ := Instruction.exists_refusal_of_int?_eq_none hn
  refine ⟨?_, ?_, e, ?_, ?_, hkind⟩
  · exact congrArg (Except.map ([·])) (Instruction.rangeCode_int least most)
  · exact congrArg (Except.map ([·])) (Instruction.rangeCode_int least most)
  · exact congrArg (Except.map ([·])) (hrefuse dupBase)
  · exact congrArg (Except.map ([·])) (hrefuse swapBase)

/-- The complex number 1, which equals the depth. -/
def complexOne : Datum :=
  .object ⟨"complex", some ⟨"(1+0j)", "(1+0j)"⟩, true, .number (.finite 1 0)⟩

/-- A decimal of a short text, which equals the least integer that is too long to be shown. -/
def longDecimal : Datum :=
  .object ⟨"Decimal", some ⟨"Decimal('1E+4300')", "1E+4300"⟩, true,
    .number (.finite Text.decimalLimit 0)⟩

/-- An integer that is too long cannot be shown. -/
theorem isShowable_decimalLimit : (Datum.int Text.decimalLimit).isShowable = false := by
  rw [Datum.isShowable, Text.hasDecimal, Int.natAbs_natCast]
  exact decide_eq_false (Nat.lt_irrefl _)

/-- It is far too large for an index. -/
theorem maxStackIndex_lt_decimalLimit : maxStackIndex < Text.decimalLimit :=
  Nat.lt_of_lt_of_le (by decide) (@Text.pow_le_decimalLimit 2 (by decide))

/-- It is equal to the decimal as an index. -/
theorem same_longDecimal :
    (Instruction.dup (.int Text.decimalLimit)).same (.dup longDecimal) = true := by
  -- For any object of this value, so that the limit is never computed.
  have hobject : ∀ o : Object, o.likeness = .number (.finite Text.decimalLimit 0) →
      (Instruction.dup (.int Text.decimalLimit)).same (.dup (.object o)) = true :=
    fun o h => Datum.agrees_int_object h
  exact hobject _ rfl

/-- Behind a jump the complex number stands for the truth value, and an annotation for one of an
equal predicate. It does not stand for the depth 1, which has a byte, nor the decimal for the
integer that it equals, as they are refused for different reasons. -/
theorem equality_respects_encoding_one :
    ¬SameOutcome Eq (Instruction.dup (.int 1)).encode (Instruction.dup complexOne).encode ∧
      (Instruction.dup (.int 16)).encode = .ok [0x8F] ∧
      (∃ e, (Instruction.swap complexOne).encode = .error e ∧ e.kind = .invalidParameter) ∧
      (∃ d e, (Instruction.dup (.int Text.decimalLimit)).encode = .error d ∧
        (Instruction.dup longDecimal).encode = .error e ∧
          ¬(d.kind = .wrongValue ↔ e.kind = .wrongValue)) ∧
      ¬(Instruction.dup (.bool true)).MixesText (.dup (.real ⟨0x3FF0000000000000⟩)) ∧
      SameAnswers
        [.push [4], .ofOpcode .JUMP, .assertion (.const 0 "kept" .null), .dup (.bool true)]
        [.push [4], .ofOpcode .JUMP, .assertion (.const 0 "renamed" .null), .dup complexOne] := by
  obtain ⟨hinstructions, hindices, hprograms⟩ := equality_respects_encoding
  have hmixed : (Instruction.dup (.int 1)).MixesIndex (.dup complexOne) :=
    ⟨1, by decide, by decide, Or.inl ⟨rfl, rfl⟩⟩
  have hunmixed : ∀ n : Datum, n.int? = none →
      ¬(Instruction.dup (.bool true)).MixesIndex (.dup n) := by
    rintro n hn ⟨k, -, -, ⟨h, -⟩ | ⟨-, rfl⟩⟩
    · cases h
    · cases hn
  have htext : (Instruction.dup (.int Text.decimalLimit)).MixesText (.dup longDecimal) := by
    show (Datum.int Text.decimalLimit).isShowable ≠ true
    rw [isShowable_decimalLimit]
    exact Bool.false_ne_true
  refine ⟨fun h => ((hinstructions _ (.dup complexOne) (by decide)).1.mp h).1 hmixed,
    (hindices 16 complexOne (by decide) (by decide) rfl).1, ?_, ?_, ?_,
    hprograms _ _ (.cons (.refl _) (.cons (.refl _) (.cons ?_ (.cons ?_ .nil))))⟩
  · obtain ⟨-, -, e, -, he, hkind⟩ := hindices 16 complexOne (by decide) (by decide) rfl
    exact ⟨e, he, hkind⟩
  · refine (hinstructions _ (.dup longDecimal) same_longDecimal).2.1 htext ?_
    rintro ⟨k, -, hk, ⟨h, -⟩ | ⟨-, h⟩⟩
    · have hlimit := maxStackIndex_lt_decimalLimit
      have heq : (Text.decimalLimit : Int) = k := by injection h
      omega
    · cases h
  · exact (hinstructions _ (.dup (.real ⟨0x3FF0000000000000⟩)) (by decide)).2.2 trivial trivial
  · exact .equal rfl id id
  · exact .equal (by decide) (hunmixed _ rfl) fun h => h rfl

/-- Equal instructions need not have equal bytes: the truth value is the number 1 to the equality of
instructions and no index to the encoder. Nor need they be refused alike: the decimal equals an
integer and is shown where that cannot be. And annotations of equal predicates need not hold
alike. -/
theorem equal_and_told_apart :
    ((Instruction.dup (.int 1)).same (.dup (.bool true)) = true ∧
      (Instruction.dup (.int 1)).encode = .ok [0x80] ∧
      (Instruction.dup (.bool true)).encode = .error (.stackIndex (.bool true))) ∧
      ((Instruction.dup (.int Text.decimalLimit)).same (.dup longDecimal) = true ∧
        (Instruction.dup (.int Text.decimalLimit)).encode = .error .tooManyDigits ∧
        (Instruction.dup longDecimal).encode = .error (.stackIndex longDecimal)) ∧
      (Instruction.assertion (.const 0 "open" (.bool true))).same
          (.assertion (.const 0 "shut" (.bool false))) = true ∧
        checkAnnotations [.assertion (.const 0 "open" (.bool true))] 0 .null = .ok true ∧
        checkAnnotations [.assertion (.const 0 "shut" (.bool false))] 0 .null = .ok false := by
  refine ⟨⟨by decide, rfl, rfl⟩, ⟨same_longDecimal, ?_, rfl⟩, rfl, rfl, rfl⟩
  have hnone : indexWithin? maxStackIndex (.int Text.decimalLimit) = none := by
    have hlimit := maxStackIndex_lt_decimalLimit
    exact Instruction.indexWithin?_int_eq_none (by omega)
  -- For any index that is none, so that the limit is never computed.
  have hrefuse : ∀ d, indexWithin? maxStackIndex d = none → (Instruction.dup d).encode =
      (refuse (.stackIndex d) : Except Error UInt8).map ([·]) :=
    fun d h => congrArg (Except.map ([·])) (Instruction.rangeCode_eq_refuse h)
  rw [hrefuse _ hnone, refuse]
  show (Except.error (if (Datum.int _).isShowable then _ else _)).map _ = _
  rw [isShowable_decimalLimit]
  rfl

end EvmAssembler.Program
