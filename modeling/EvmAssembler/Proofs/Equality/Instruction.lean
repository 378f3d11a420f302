import EvmAssembler.Program.Jumps
import EvmAssembler.Proofs.Equality.Datum
import EvmAssembler.Proofs.Navigation

/-!
# `EvmAssembler.Proofs.Equality.Instruction`: equal instructions and their bytes

Instructions are equal when they have one shape and operands that agree, and numbers agree whatever
their form. The encoder looks at the form, in two places:

* An index has to be an integer, and anything else that equals one is refused. The depth 1 and the
  truth value are equal as indices of `DUP`, and only the first has bytes
  (`Instruction.MixesIndex`).
* A refusal shows the operand, and where the text would have an integer past the decimal limit in
  it, an error of another kind takes its place. Such an integer has equals among objects that can be
  shown (`Instruction.MixesText`). Among plain data it has none (`not_mixesText_of_isPlain`).

`sameOutcome_encode_iff` says that there is no third place. `SameOutcome` compares results:
successes by a relation of their values, and failures by what callers can tell apart.
`Instruction.Interchangeable` lists all that a function on programs sees of an instruction, and
`Replaces` when one instruction may stand for another.
-/

set_option autoImplicit false

namespace EvmAssembler

/-! ### Outcomes -/

/-- A refusal is of the error's kind, or for what cannot be shown. -/
theorem exists_refusal (e : Error) : ∃ d, (∀ α, (refuse e : Except Error α) = .error d) ∧
    d.kind = if e.isShowable then e.kind else .wrongValue := by
  refine ⟨if e.isShowable then e else .tooManyDigits, fun _ => rfl, ?_⟩
  split <;> rfl

/-- Both results are failures, and just one of them is for what cannot be shown. -/
def RefusedApart {α : Type} (x y : Except Error α) : Prop :=
  ∃ d e, x = .error d ∧ y = .error e ∧ ¬(d.kind = .wrongValue ↔ e.kind = .wrongValue)

/-- Failures are kept by a change of successful values. -/
theorem RefusedApart.map {α β : Type} {x y : Except Error α} (h : RefusedApart x y) (f : α → β) :
    RefusedApart (x.map f) (y.map f) := by
  obtain ⟨d, e, rfl, rfl, hkinds⟩ := h
  exact ⟨d, e, rfl, rfl, hkinds⟩

/-- Of two refusals for reasons of one kind, where one reason can be shown and the other cannot,
just one is for what cannot be shown. -/
theorem refusedApart_refuse {α : Type} {d e : Error} (hkind : d.kind = e.kind)
    (hvalue : d.kind ≠ .wrongValue) (hshow : d.isShowable ≠ e.isShowable) :
    RefusedApart (refuse d : Except Error α) (refuse e) := by
  obtain ⟨d', hd, hdkind⟩ := exists_refusal d
  obtain ⟨e', he, hekind⟩ := exists_refusal e
  refine ⟨d', e', hd α, he α, ?_⟩
  rw [hdkind, hekind, ← hkind]
  cases hd : d.isShowable <;> cases he : e.isShowable
  · exact absurd (hd.trans he.symm) hshow
  · exact fun hiff => hvalue (hiff.mp rfl)
  · exact fun hiff => hvalue (hiff.mpr rfl)
  · exact absurd (hd.trans he.symm) hshow

/-- Callers treat the errors alike: they are of one kind, and a report of an offset says the
same. -/
def Error.Akin (d e : Error) : Prop :=
  d.kind = e.kind ∧ (d.kind = .malformedOffset → d = e)

/-- Both results are successes, with related values, or both are failures that callers treat
alike. -/
inductive SameOutcome {α β : Type} (R : α → β → Prop) : Except Error α → Except Error β → Prop where
  | ok {a : α} {b : β} : R a b → SameOutcome R (.ok a) (.ok b)
  | error {d e : Error} : d.Akin e → SameOutcome R (.error d) (.error e)

namespace SameOutcome

variable {α β γ δ : Type} {R : α → β → Prop} {S : γ → δ → Prop} {x : Except Error α}
  {y : Except Error β}

/-- A failure is like itself, whatever successes would have been compared by. -/
theorem error_self (e : Error) : SameOutcome R (.error e) (.error e) :=
  .error ⟨rfl, fun _ => rfl⟩

/-- Every result is like itself. -/
theorem eq_self (x : Except Error α) : SameOutcome Eq x x := by
  cases x with
  | ok a => exact .ok rfl
  | error e => exact error_self e

/-- Like results are like after a change of their values that respects the relation. -/
theorem map (h : SameOutcome R x y) {f : α → γ} {g : β → δ}
    (hfg : ∀ a b, R a b → S (f a) (g b)) : SameOutcome S (x.map f) (y.map g) := by
  cases h with
  | ok hab => exact .ok (hfg _ _ hab)
  | error hde => exact .error hde

/-- A change that loses nothing keeps outcomes apart. -/
theorem map_eq_iff {x y : Except Error α} {f : α → γ} (hf : f.Injective) :
    SameOutcome Eq (x.map f) (y.map f) ↔ SameOutcome Eq x y := by
  refine ⟨fun h => ?_, fun h => h.map fun a b hab => congrArg f hab⟩
  cases x with
  | ok a =>
    cases y with
    | ok b => cases h with | ok hab => exact .ok (hf hab)
    | error e => cases h
  | error d =>
    cases y with
    | ok b => cases h
    | error e => cases h with | error hde => exact .error hde

/-- Like results are like after a step that goes on alike from the values they have. -/
theorem bind_of_eq_ok (h : SameOutcome R x y) {f : α → Except Error γ} {g : β → Except Error δ}
    (hfg : ∀ a b, x = .ok a → y = .ok b → R a b → SameOutcome S (f a) (g b)) :
    SameOutcome S (x.bind f) (y.bind g) := by
  cases h with
  | ok hab => exact hfg _ _ rfl rfl hab
  | error hde => exact .error hde

/-- It is enough that the step goes on alike from all related values. -/
theorem bind (h : SameOutcome R x y) {f : α → Except Error γ} {g : β → Except Error δ}
    (hfg : ∀ a b, R a b → SameOutcome S (f a) (g b)) : SameOutcome S (x.bind f) (y.bind g) :=
  h.bind_of_eq_ok fun a b _ _ => hfg a b

/-- Refusals of one kind are alike exactly if both of their messages can be written, or neither. A
refusal that cannot be reported is of a kind of its own. -/
theorem refuse_iff {d e : Error} (hkind : d.kind = e.kind) (hoffset : d.kind ≠ .malformedOffset)
    (hvalue : d.kind ≠ .wrongValue) :
    SameOutcome R (refuse d) (refuse e) ↔ d.isShowable = e.isShowable := by
  rw [refuse, refuse]
  constructor
  · intro h
    cases h with
    | error hakin =>
      cases hd : d.isShowable with
      | true =>
        cases he : e.isShowable with
        | true => rfl
        | false =>
          rw [hd, he] at hakin
          exact absurd hakin.1 hvalue
      | false =>
        cases he : e.isShowable with
        | true =>
          rw [hd, he] at hakin
          exact absurd (hkind.trans hakin.1.symm) hvalue
        | false => rfl
  · intro hshow
    rw [hshow]
    split
    · exact .error ⟨hkind, fun h => absurd h hoffset⟩
    · exact error_self _

end SameOutcome

/-! ### Indices of different forms -/

namespace Datum

/-- One index is an integer that the encoder accepts, and the other is no integer. -/
def IsMixed (m n : Datum) : Prop :=
  ∃ k : Nat, 1 ≤ k ∧ k ≤ maxStackIndex ∧
    (m = .int k ∧ n.int? = none ∨ m.int? = none ∧ n = .int k)

/-- Only an integer is read as one. -/
theorem eq_int_of_int? {d : Datum} {n : Int} (h : d.int? = some n) : d = .int n := by
  cases d with
  | int m => rw [Option.some.inj h]
  | _ => cases h

/-- What is no integer is no index. -/
theorem indexWithin?_eq_none {d : Datum} (h : d.int? = none) (limit : Nat) :
    indexWithin? limit d = none := by
  rw [indexWithin?, h]

/-- An integer that the encoder accepts has no equal among integers but itself. -/
theorem int?_eq_none_of_agrees {m n : Datum} (h : m.agrees n = true)
    (hne : (indexWithin? maxStackIndex m).isSome ≠ (indexWithin? maxStackIndex n).isSome) :
    m.int? = none ∨ n.int? = none := by
  cases hm : m.int? with
  | none => exact Or.inl rfl
  | some i =>
    cases hn : n.int? with
    | none => exact Or.inr rfl
    | some j =>
      obtain rfl := eq_int_of_int? hm
      obtain rfl := eq_int_of_int? hn
      rw [(@agrees_iff_of_isScalar (.int i) (.int j) trivial trivial).mp h] at hne
      exact absurd rfl hne

/-- Equal indices are mixed exactly if the encoder accepts one of them only. -/
theorem isMixed_iff {m n : Datum} (h : m.agrees n = true) :
    m.IsMixed n ↔
      (indexWithin? maxStackIndex m).isSome ≠ (indexWithin? maxStackIndex n).isSome := by
  constructor
  · rintro ⟨k, h1, h2, ⟨rfl, hn⟩ | ⟨hm, rfl⟩⟩
    · rw [Instruction.indexWithin?_int_of_le h1 h2, indexWithin?_eq_none hn]
      nofun
    · rw [Instruction.indexWithin?_int_of_le h1 h2, indexWithin?_eq_none hm]
      nofun
  · intro hne
    have hform := int?_eq_none_of_agrees h hne
    cases hm : indexWithin? maxStackIndex m with
    | some i =>
      obtain ⟨h1, h2, rfl⟩ := Instruction.indexWithin?_eq_some_iff.mp hm
      exact ⟨i, h1, h2, Or.inl ⟨rfl, hform.resolve_left nofun⟩⟩
    | none =>
      cases hn : indexWithin? maxStackIndex n with
      | some j =>
        obtain ⟨h1, h2, rfl⟩ := Instruction.indexWithin?_eq_some_iff.mp hn
        exact ⟨j, h1, h2, Or.inr ⟨hform.resolve_right nofun, rfl⟩⟩
      | none => rw [hm, hn] at hne; exact absurd rfl hne

/-- No index is mixed with itself. -/
theorem not_isMixed_self (d : Datum) : ¬d.IsMixed d := by
  rintro ⟨k, -, -, ⟨rfl, h⟩ | ⟨h, rfl⟩⟩ <;> cases h

end Datum

namespace Instruction

/-- The byte of a `DUP` or a `SWAP`, which have one range each and no other difference. -/
abbrev indexCode (base : UInt8) (d : Datum) : Except Error UInt8 :=
  rangeCode base maxStackIndex .stackIndex d

/-- What is no integer is refused as an index, whatever it equals. The parameter is reported as
invalid if it can be shown. -/
theorem exists_refusal_of_int?_eq_none {n : Datum} (h : n.int? = none) :
    ∃ e, (∀ base, indexCode base n = .error e) ∧
      e.kind = if n.isShowable then .invalidParameter else .wrongValue := by
  obtain ⟨e, hrefuse, hkind⟩ := exists_refusal (.stackIndex n)
  refine ⟨e, fun base => ?_, hkind⟩
  exact (rangeCode_eq_refuse (Datum.indexWithin?_eq_none h _)).trans (hrefuse UInt8)

/-- An index that has a byte is its only equal among those that have one. -/
theorem eq_of_indexWithin? {m n : Datum} {i j : Nat} (h : m.agrees n = true)
    (hm : indexWithin? maxStackIndex m = some i) (hn : indexWithin? maxStackIndex n = some j) :
    m = n := by
  obtain ⟨-, -, rfl⟩ := indexWithin?_eq_some_iff.mp hm
  obtain ⟨-, -, rfl⟩ := indexWithin?_eq_some_iff.mp hn
  exact (@Datum.agrees_iff_of_isScalar (.int i) (.int j) trivial trivial).mp h

/-- Equal indices that are not mixed are both refused if one can be shown and the other cannot, and
just one of them is refused for that. -/
theorem refusedApart_indexCode (base : UInt8) {m n : Datum} (h : m.agrees n = true)
    (hshow : m.isShowable ≠ n.isShowable) (hmixed : ¬m.IsMixed n) :
    RefusedApart (indexCode base m) (indexCode base n) := by
  rw [Datum.isMixed_iff h, ne_eq, not_not] at hmixed
  cases hi : indexWithin? maxStackIndex m with
  | some i =>
    cases hj : indexWithin? maxStackIndex n with
    | some j => exact absurd (congrArg Datum.isShowable (eq_of_indexWithin? h hi hj)) hshow
    | none => rw [hi, hj] at hmixed; cases hmixed
  | none =>
    cases hj : indexWithin? maxStackIndex n with
    | some j => rw [hi, hj] at hmixed; cases hmixed
    | none =>
      rw [indexCode, indexCode, rangeCode_eq_refuse hi, rangeCode_eq_refuse hj]
      exact refusedApart_refuse rfl nofun hshow

/-- Equal indices have one outcome unless they are mixed, or one of them can be shown and the other
cannot. -/
theorem sameOutcome_indexCode_iff (base : UInt8) {m n : Datum} (h : m.agrees n = true) :
    SameOutcome Eq (indexCode base m) (indexCode base n) ↔
      ¬m.IsMixed n ∧ ¬m.isShowable ≠ n.isShowable := by
  rw [Datum.isMixed_iff h]
  cases hi : indexWithin? maxStackIndex m with
  | some i =>
    cases hj : indexWithin? maxStackIndex n with
    | some j =>
      obtain rfl := eq_of_indexWithin? h hi hj
      exact iff_of_true (.eq_self _) ⟨fun hne => hne rfl, fun hne => hne rfl⟩
    | none =>
      rw [indexCode, indexCode, rangeCode_eq_ok hi, rangeCode_eq_refuse hj]
      exact iff_of_false nofun fun hand => hand.1 nofun
  | none =>
    cases hj : indexWithin? maxStackIndex n with
    | some j =>
      rw [indexCode, indexCode, rangeCode_eq_refuse hi, rangeCode_eq_ok hj]
      exact iff_of_false nofun fun hand => hand.1 nofun
    | none =>
      have hrefuse : SameOutcome (α := UInt8) Eq (refuse (.stackIndex m)) (refuse (.stackIndex n)) ↔
          m.isShowable = n.isShowable := SameOutcome.refuse_iff rfl nofun nofun
      rw [indexCode, indexCode, rangeCode_eq_refuse hi, rangeCode_eq_refuse hj, hrefuse,
        ← not_ne_iff]
      exact (and_iff_right fun hne => hne rfl).symm

/-! ### Equal instructions -/

/-- The forms that equal instructions have. -/
inductive Equal : Instruction → Instruction → Prop where
  | refl (a : Instruction) : Equal a a
  | operand (family : Family) {v w : Datum} : v.agrees w = true →
    Equal (.fixed family (.loose v)) (.fixed family (.loose w))
  | dup {m n : Datum} : m.agrees n = true → Equal (.dup m) (.dup n)
  | swap {m n : Datum} : m.agrees n = true → Equal (.swap m) (.swap n)
  | assertion {p q : Predicate} : p.key = q.key → Equal (.assertion p) (.assertion q)
  | loose {v w : Datum} : v.same w = true → Equal (.loose v) (.loose w)

/-- Equal instructions have one of the listed forms. -/
theorem Equal.of_same {a b : Instruction} (h : a.same b = true) : Equal a b := by
  -- Different shapes are not equal, so each shape leaves one case of the other instruction.
  cases a with
  | unknown x =>
    cases b with
    | unknown y =>
      obtain rfl := beq_iff_eq.mp h
      exact .refl _
    | _ => cases h
  | fixed f x =>
    cases b with
    | fixed g y =>
      obtain ⟨hfamily, hoperand⟩ := Bool.and_eq_true_iff.mp h
      obtain rfl := beq_iff_eq.mp hfamily
      cases x with
      | opcode op =>
        cases y with
        | opcode op' =>
          obtain rfl := beq_iff_eq.mp hoperand
          exact .refl _
        | loose w => cases hoperand
      | loose v =>
        cases y with
        | opcode op' => cases hoperand
        | loose w => exact .operand f hoperand
    | _ => cases h
  | dup m =>
    cases b with
    | dup n => exact .dup h
    | _ => cases h
  | swap m =>
    cases b with
    | swap n => exact .swap h
    | _ => cases h
  | push data =>
    cases b with
    | push data' =>
      obtain rfl := beq_iff_eq.mp h
      exact .refl _
    | _ => cases h
  | assertion p =>
    cases b with
    | assertion q => exact .assertion (beq_iff_eq.mp h)
    | _ => cases h
  | loose v =>
    cases b with
    | loose w => exact .loose h
    | _ => cases h
  | bare => cases b <;> cases h

/-- The annotations are the instructions with a predicate. -/
theorem isAssertion_eq_isSome (a : Instruction) : a.isAssertion = a.predicate?.isSome := by
  cases a <;> rfl

/-- No operand is an object or has one among its parts, and no dictionary in one has a key twice. -/
def IsPlain : Instruction → Prop
  | fixed _ (.loose v) | dup v | swap v | loose v => v.IsPlain
  | _ => True

/-- Both instructions are `DUP`, or both are `SWAP`, and their indices are mixed. -/
def MixesIndex : Instruction → Instruction → Prop
  | dup m, dup n | swap m, swap n => m.IsMixed n
  | _, _ => False

/-- Of the operands that a refusal would show, one can be shown and the other cannot. -/
def MixesText : Instruction → Instruction → Prop
  | fixed _ (.loose v), fixed _ (.loose w) | dup v, dup w | swap v, swap w | loose v, loose w =>
    v.isShowable ≠ w.isShowable
  | _, _ => False

/-- No instruction mixes its index with itself. -/
theorem not_mixesIndex_self (a : Instruction) : ¬a.MixesIndex a := by
  cases a with
  | dup d => exact d.not_isMixed_self
  | swap d => exact d.not_isMixed_self
  | _ => exact id

/-- No instruction mixes its text with itself. -/
theorem not_mixesText_self (a : Instruction) : ¬a.MixesText a := by
  cases a with
  | fixed family operand =>
    cases operand with
    | opcode op => exact id
    | loose v => exact fun h => h rfl
  | dup d => exact fun h => h rfl
  | swap d => exact fun h => h rfl
  | loose v => exact fun h => h rfl
  | _ => exact id

/-- Equal instructions have the same bytes, or are refused for a reason of the same kind, unless
they mix their indices or their texts. -/
theorem sameOutcome_encode_iff {a b : Instruction} (h : a.Equal b) :
    SameOutcome Eq a.encode b.encode ↔ ¬a.MixesIndex b ∧ ¬a.MixesText b := by
  have hsingle : (fun code : UInt8 => [code]).Injective := fun _ _ => List.singleton_inj.mp
  cases h with
  | refl a => exact iff_of_true (.eq_self _) ⟨a.not_mixesIndex_self, a.not_mixesText_self⟩
  | @operand family v w h =>
    have hcode : SameOutcome Eq (family.code (.loose v)) (family.code (.loose w)) ↔
        v.isShowable = w.isShowable := SameOutcome.refuse_iff rfl nofun nofun
    refine (SameOutcome.map_eq_iff hsingle).trans (hcode.trans ?_)
    rw [← not_ne_iff]
    exact (and_iff_right id).symm
  | dup h =>
    exact (SameOutcome.map_eq_iff hsingle).trans (sameOutcome_indexCode_iff dupBase h)
  | swap h =>
    exact (SameOutcome.map_eq_iff hsingle).trans (sameOutcome_indexCode_iff swapBase h)
  | assertion _ => exact iff_of_true (.ok rfl) ⟨id, id⟩
  | @loose v w h =>
    have hrefuse : SameOutcome Eq (loose v).encode (loose w).encode ↔
        v.isShowable = w.isShowable := SameOutcome.refuse_iff rfl nofun nofun
    rw [hrefuse, ← not_ne_iff]
    exact (and_iff_right id).symm

/-- Equal instructions that mix their texts and not their indices are both refused, and just one of
them for what cannot be shown. -/
theorem refusedApart_of_mixesText {a b : Instruction} (h : a.Equal b) (htext : a.MixesText b)
    (hindex : ¬a.MixesIndex b) : RefusedApart a.encode b.encode := by
  cases h with
  | refl a => exact absurd htext a.not_mixesText_self
  | @operand family v w h =>
    have hrefuse : RefusedApart (family.code (.loose v)) (family.code (.loose w)) :=
      @refusedApart_refuse _ (.notInFamily (.loose v) family) (.notInFamily (.loose w) family)
        rfl nofun htext
    exact hrefuse.map ([·])
  | dup h => exact (refusedApart_indexCode dupBase h htext hindex).map ([·])
  | swap h => exact (refusedApart_indexCode swapBase h htext hindex).map ([·])
  | assertion _ => cases htext
  | @loose v w h =>
    exact @refusedApart_refuse _ (.notInstruction (some v)) (.notInstruction (some w)) rfl nofun
      htext

/-- Plain operands that are equal do not mix their texts. -/
theorem not_mixesText_of_isPlain {a b : Instruction} (ha : a.IsPlain) (hb : b.IsPlain)
    (h : a.Equal b) : ¬a.MixesText b := by
  cases h with
  | refl a => exact a.not_mixesText_self
  | operand family h => exact fun hne => hne (Datum.isShowable_eq_of_agrees ha hb h)
  | dup h => exact fun hne => hne (Datum.isShowable_eq_of_agrees ha hb h)
  | swap h => exact fun hne => hne (Datum.isShowable_eq_of_agrees ha hb h)
  | assertion _ => exact id
  | loose h => exact fun hne => hne (Datum.isShowable_eq_of_same _ _ ha hb h)

/-! ### One instruction for another -/

/-- One instruction may stand in the place of the other: it is the same, or an equal one that mixes
neither its index nor its text with it. -/
inductive Replaces : Instruction → Instruction → Prop where
  | refl (a : Instruction) : Replaces a a
  | equal {a b : Instruction} : a.same b = true → ¬a.MixesIndex b → ¬a.MixesText b → Replaces a b

/-- What the functions on programs see of an instruction is the same for both. Of a predicate they
see what it is equal to. -/
structure Interchangeable (a b : Instruction) : Prop where
  encode : SameOutcome Eq a.encode b.encode
  key? : a.predicate?.map Predicate.key = b.predicate?.map Predicate.key
  pushed? : a.pushed? = b.pushed?
  isJump : a.isJump = b.isJump
  isJumpdest : a.same .jumpdest = b.same .jumpdest

/-- An instruction that stands in the place of another is not told from it. -/
theorem Replaces.interchangeable {a b : Instruction} (h : a.Replaces b) :
    a.Interchangeable b := by
  cases h with
  | refl => exact ⟨.eq_self _, rfl, rfl, rfl, rfl⟩
  | equal hsame hindex htext =>
    have hequal := Equal.of_same hsame
    have hencode := (sameOutcome_encode_iff hequal).mpr ⟨hindex, htext⟩
    cases hequal with
    | assertion hkey => exact ⟨hencode, congrArg some hkey, rfl, rfl, rfl⟩
    | operand family _ => exact ⟨hencode, rfl, rfl, by cases family <;> rfl, rfl⟩
    | _ => exact ⟨hencode, rfl, rfl, rfl, rfl⟩

namespace Interchangeable

variable {a b : Instruction}

/-- They are measured alike. -/
theorem size (h : a.Interchangeable b) : SameOutcome Eq a.size b.size :=
  h.encode.map fun _ _ => congrArg List.length

/-- Both are annotations, or neither is. -/
theorem isAssertion (h : a.Interchangeable b) : a.isAssertion = b.isAssertion := by
  rw [isAssertion_eq_isSome, isAssertion_eq_isSome, ← Option.isSome_map, h.key?, Option.isSome_map]

end Interchangeable

end Instruction

end EvmAssembler
