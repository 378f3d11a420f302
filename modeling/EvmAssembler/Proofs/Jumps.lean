import EvmAssembler.Program.Jumps
import EvmAssembler.Proofs.Encoding.Traversals
import EvmAssembler.Proofs.Immediate
import EvmAssembler.Proofs.Navigation

/-!
# `EvmAssembler.Proofs.Jumps`: the jump check of an encodable program

The jump check goes over the listing, remembers what the last push has pushed, and asks for a
jump destination at every target it collects. Each of these can fail in a program that cannot be
encoded, and none of them in one that can. The lemmas say what is left then:

* `staticJumps_eq`: the jumps are collected from the rows of the listing, whose offsets are the
  extents before each instruction.
* `jumpsAfter_of_isAssertion` and `jumpsAfter_cons`: an annotation is passed over with the pushed
  number still in hand. Every other instruction replaces it, be it a jump or not.
* `exists_push_of_mem_jumpsAfter` and `mem_jumpsAfter_of_push`: a target is always the immediate of
  some push of the program, and a jump right behind a push is always collected.
* `isJumpdest_natCast` and `badJumps_eq`: every target gets an answer, and the bad jumps are those
  with a negative one.
-/

set_option autoImplicit false

namespace EvmAssembler.Program

/-! ### Collecting jumps -/

/-- The jumps of an encodable program are those among its rows. -/
theorem staticJumps_eq {p : Program} (h : p.Encodable) :
    p.staticJumps = .ok (jumpsAfter none (p.rowsFrom 0)) := by
  rw [staticJumps, listing_eq_rows h]
  rfl

/-- Behind an annotation the pushed number is still known. -/
theorem jumpsAfter_of_isAssertion {pushed : Option Nat} {offset : Nat} {i : Instruction}
    {rows : List (Nat × Instruction)} (h : i.isAssertion = true) :
    jumpsAfter pushed ((offset, i) :: rows) = jumpsAfter pushed rows := by
  simp [jumpsAfter, h]

/-- Any other instruction decides alone what is known behind it. It is collected if it is a jump
and a number was known in front of it. -/
theorem jumpsAfter_cons {pushed : Option Nat} {offset : Nat} {i : Instruction}
    {rows : List (Nat × Instruction)} (h : i.isAssertion = false) :
    jumpsAfter pushed ((offset, i) :: rows) =
      ((if i.isJump then pushed else none).map (offset, ·)).toList
        ++ jumpsAfter i.pushed? rows := by
  cases hjump : i.isJump <;> cases pushed <;> simp [jumpsAfter, h, hjump]

/-- A jump is no annotation. -/
theorem isAssertion_of_isJump {i : Instruction} (h : i.isJump = true) : i.isAssertion = false := by
  cases i with
  | assertion p => cases h
  | _ => rfl

/-- A target that was not known from the start has been pushed by the program. -/
theorem exists_push_of_mem_jumpsAfter {p : Program} {pushed : Option Nat} {offset : Nat}
    {jump : Nat × Nat} (h : jump ∈ jumpsAfter pushed (p.rowsFrom offset)) :
    pushed = some jump.2 ∨ ∃ data, .push data ∈ p ∧ jump.2 = Immediate.toNat data := by
  induction p generalizing pushed offset with
  | nil => simp [rowsFrom, jumpsAfter] at h
  | cons i p ih =>
    rw [rowsFrom_cons] at h
    cases hnote : i.isAssertion with
    | true =>
      rw [jumpsAfter_of_isAssertion hnote] at h
      obtain hpushed | ⟨data, hdata, heq⟩ := ih h
      · exact Or.inl hpushed
      · exact Or.inr ⟨data, List.mem_cons_of_mem i hdata, heq⟩
    | false =>
      rw [jumpsAfter_cons hnote, List.mem_append] at h
      obtain hown | hlater := h
      · cases pushed <;> cases hjump : i.isJump <;> simp_all
      · -- What is known behind `i` is the immediate of `i` itself.
        obtain hpushed | ⟨data, hdata, heq⟩ := ih hlater
        · cases i with
          | push data => exact Or.inr ⟨data, List.mem_cons_self, (Option.some.inj hpushed).symm⟩
          | _ => cases hpushed
        · exact Or.inr ⟨data, List.mem_cons_of_mem i hdata, heq⟩

/-- A jump right behind a push is collected with the number pushed. -/
theorem mem_jumpsAfter_of_push {q r : Program} {data : List UInt8} {j : Instruction}
    (hj : j.isJump = true) (pushed : Option Nat) (offset : Nat) :
    (offset + q.extent + (1 + data.length), Immediate.toNat data) ∈
      jumpsAfter pushed (rowsFrom offset (q ++ .push data :: j :: r)) := by
  induction q generalizing pushed offset with
  | nil =>
    rw [List.nil_append, rowsFrom_cons, rowsFrom_cons, jumpsAfter_cons rfl,
      jumpsAfter_cons (isAssertion_of_isJump hj)]
    simp [hj, Instruction.pushed?, Instruction.extent]
  | cons i q ih =>
    rw [List.cons_append, rowsFrom_cons, extent_cons, ← Nat.add_assoc offset]
    cases hnote : i.isAssertion with
    | true =>
      rw [jumpsAfter_of_isAssertion hnote]
      exact ih pushed _
    | false =>
      rw [jumpsAfter_cons hnote]
      exact List.mem_append_right _ (ih i.pushed? _)

/-! ### Checking targets -/

/-- What a push can carry is short enough to be reported. -/
theorem hasDecimal_toNat {data : List UInt8} (h : data.length ≤ maxPushBytes) :
    Text.hasDecimal (Immediate.toNat data) = true := by
  have hlt : Immediate.toNat data < 256 ^ maxPushBytes :=
    Nat.lt_of_lt_of_le (Immediate.toNat_lt data) (Nat.pow_le_pow_right (by decide) h)
  refine @Text.hasDecimal_of_natAbs_lt _ 78 (by decide) ?_
  rw [Int.natAbs_natCast]
  exact Nat.lt_trans hlt (by decide)

/-- The targets of an encodable program are immediates of its pushes, so they can be reported. -/
theorem hasDecimal_of_mem_jumpsAfter {p : Program} (h : p.Encodable) {jump : Nat × Nat}
    (hjump : jump ∈ jumpsAfter none (p.rowsFrom 0)) : Text.hasDecimal jump.2 = true := by
  obtain hnone | ⟨data, hdata, heq⟩ := exists_push_of_mem_jumpsAfter hjump
  · cases hnone
  · obtain ⟨bytes, hbytes⟩ := h _ hdata
    cases Instruction.Encodes.of_encode hbytes with
    | push _ most =>
      rw [heq]
      exact hasDecimal_toNat most

/-- A jump destination stands behind the given number of bytes. -/
def JumpdestAt (p : Program) (n : Nat) : Prop :=
  ∃ q r : Program, p = q ++ .jumpdest :: r ∧ q.extent = n

/-- In an encodable program the question about a jump destination has an answer at every offset
that can be reported. -/
theorem isJumpdest_natCast {p : Program} (h : p.Encodable) {n : Nat}
    (hn : Text.hasDecimal n = true) :
    ∃ good, p.isJumpdest n = .ok good ∧ (good = true ↔ p.JumpdestAt n) := by
  have hencode : ∀ i ∈ p, ∀ e, i.encode = .error e → isForgiven e = true := by
    intro i hi e he
    obtain ⟨bytes, hbytes⟩ := h i hi
    rw [hbytes] at he
    cases he
  obtain ⟨good, hgood⟩ := isJumpdest_eq_ok hn hencode
  refine ⟨good, hgood, ?_⟩
  have htrue : good = true ↔ p.isJumpdest n = .ok true := by simp [hgood]
  rw [htrue, isJumpdest_eq_true_iff]
  constructor
  · rintro ⟨-, q, r, hp, -, hn⟩
    exact ⟨q, r, hp, by omega⟩
  · rintro ⟨q, r, rfl, hn⟩
    exact ⟨by omega, q, r, rfl, h.of_subset (List.subset_append_left _ _), by omega⟩

/-- What stands at an offset is what a walk to it has left, behind the annotations there. -/
theorem jumpdestAt_iff_of_dropBytes {p rest : Program} (h : p.Encodable) {n : Nat}
    (hdrop : p.dropBytes n = .ok rest) : p.JumpdestAt n ↔ rest.first? = some .jumpdest := by
  have hat : p.instructionAt n = .ok (some .jumpdest) ↔ rest.first? = some .jumpdest := by
    simp [instructionAt, hdrop, Except.map]
  rw [← hat, instructionAt_eq_some_iff]
  constructor
  · rintro ⟨q, r, rfl, hn⟩
    exact ⟨by omega, rfl, q, r, rfl, h.of_subset (List.subset_append_left _ _), by omega⟩
  · rintro ⟨-, -, q, r, hp, -, hn⟩
    exact ⟨q, r, hp, by omega⟩

/-- Where every target has an answer, the jumps with a negative one are kept. -/
theorem keepBad_eq {p : Program} {good : Nat → Bool} {jumps : List (Nat × Nat)}
    (h : ∀ jump ∈ jumps, p.isJumpdest jump.2 = .ok (good jump.2)) :
    p.keepBad jumps = .ok (jumps.filter fun jump => !good jump.2) := by
  induction jumps with
  | nil => rfl
  | cons jump jumps ih =>
    obtain ⟨offset, target⟩ := jump
    have hfirst := h (offset, target) List.mem_cons_self
    rw [keepBad, hfirst, except_bind_ok, ih fun j hj => h j (List.mem_cons_of_mem _ hj)]
    cases hgood : good target <;> simp [Except.map, hgood]

/-- The jump check of an encodable program comes to an end. It keeps the static jumps that lead to
no jump destination, however that is decided. -/
theorem badJumps_eq {p : Program} (h : p.Encodable) (good : Nat → Bool)
    (hgood : ∀ n, good n = true ↔ p.JumpdestAt n) :
    p.badJumps =
      .ok ((jumpsAfter none (p.rowsFrom 0)).filter fun jump => !good jump.2) := by
  rw [badJumps, staticJumps_eq h, except_bind_ok]
  refine keepBad_eq fun jump hjump => ?_
  obtain ⟨answer, hanswer, hiff⟩ := isJumpdest_natCast h (hasDecimal_of_mem_jumpsAfter h hjump)
  rw [hanswer, Bool.eq_iff_iff.mpr (hiff.trans (hgood _).symm)]

end EvmAssembler.Program
