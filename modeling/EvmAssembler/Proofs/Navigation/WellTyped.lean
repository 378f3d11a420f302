import EvmAssembler.Proofs.Navigation.Landing

/-!
# `EvmAssembler.Proofs.Navigation.WellTyped`: jump destinations where not everything has bytes

An instruction of the right types can still have no bytes: its index may be out of range, or its
immediate too long or empty. `Program.isJumpdest` is asked about such programs too. It forgives what
the encoder refuses, so it always has an answer (`Instruction.WellTyped.isForgiven`), and the answer
is about what stands before the offset only:

* `isJumpdest_append_iff`: in front of the end of `q`, the destinations are the same whatever `q` is
  continued with.
* `isJumpdest_append_cons_iff`: no destination stands at an instruction without bytes, nor behind
  it, so what is continued there has none besides those of the beginning.

In both a program is split in two, while a destination splits it at another place.
`append_eq_append_cons` puts the two splits in order.
-/

set_option autoImplicit false

namespace EvmAssembler

namespace Instruction

/-- The operands are of the types that the instruction is made for: an opcode of its own family, an
integer as an index, whatever its value, and an immediate of whatever length. Index and length have
to be short enough to be shown in a message, which goes up to ten to the power of 4300. -/
inductive WellTyped : Instruction → Prop where
  | unknown (b : UInt8) : WellTyped (.unknown b)
  | fixed {family : Family} {op : Opcode} : op.family = family →
    WellTyped (.fixed family (.opcode op))
  | dup {n : Int} : Text.hasDecimal n = true → WellTyped (.dup (.int n))
  | swap {n : Int} : Text.hasDecimal n = true → WellTyped (.swap (.int n))
  | push {data : List UInt8} : Text.hasDecimal data.length = true → WellTyped (.push data)
  | assertion (p : Predicate) : WellTyped (.assertion p)

/-- Refusing an index or a length is forgiven, if the refusal can be shown. -/
theorem isForgiven_of_rangeCode {base : UInt8} {limit : Nat} {fault : Datum → Error} {d : Datum}
    {e : Error} (hshow : (fault d).isShowable = true) (hencoding : (fault d).isEncoding = true)
    (h : rangeCode base limit fault d = .error e) : Program.isForgiven e = true := by
  rw [rangeCode] at h
  split at h
  · cases h
  · rw [refuse, if_pos hshow] at h
    obtain rfl := Except.error.inj h
    rw [Program.isForgiven, hencoding, Bool.or_true]

/-- The encoder has nothing against the types of such an instruction, and whatever else it refuses
is forgiven. -/
theorem WellTyped.isForgiven {i : Instruction} (h : i.WellTyped) {e : Error}
    (he : i.encode = .error e) : Program.isForgiven e = true := by
  have hcode : ∀ {x : Except Error UInt8} {f : UInt8 → List UInt8}, x.map f = .error e →
      x = .error e := by
    intro x f hx
    cases x with
    | ok code => cases hx
    | error d => exact congrArg Except.error (Except.error.inj hx)
  cases h with
  | unknown b => cases he
  | assertion p => cases he
  | fixed hfamily =>
    have hrefused := hcode he
    rw [Family.code, if_pos hfamily] at hrefused
    cases hrefused
  | @dup n hshow =>
    exact @isForgiven_of_rangeCode _ _ .stackIndex (.int n) e hshow rfl (hcode he)
  | @swap n hshow =>
    exact @isForgiven_of_rangeCode _ _ .stackIndex (.int n) e hshow rfl (hcode he)
  | @push data hshow =>
    exact @isForgiven_of_rangeCode _ _ .pushLength (.int data.length) e hshow rfl (hcode he)

/-- The jump destination is a byte of its own. -/
theorem encodable_jumpdest : Encodable jumpdest :=
  ⟨[Opcode.JUMPDEST.code], encode_ofOpcode .JUMPDEST⟩

end Instruction

namespace Program

/-! ### Splits of a program -/

section
variable {p q r before after : Program} {i : Instruction}

/-- Where a program is split in two ways, one of them at an instruction, that instruction stands in
the second part of the other split or in the first. -/
theorem append_eq_append_cons (h : q ++ r = before ++ i :: after) :
    (∃ mid, before = q ++ mid ∧ r = mid ++ i :: after) ∨ ∃ mid, q = before ++ i :: mid := by
  rcases List.append_eq_append_iff.mp h with ⟨mid, hbefore, hr⟩ | ⟨mid, hq, hafter⟩
  · exact Or.inl ⟨mid, hbefore, hr⟩
  · cases mid with
    | nil =>
      rw [List.append_nil] at hq
      exact Or.inl ⟨[], by rw [List.append_nil, hq], hafter.symm⟩
    | cons j mid =>
      obtain ⟨rfl, -⟩ := List.cons.inj hafter
      exact Or.inr ⟨mid, hq⟩

/-- An instruction behind encodable ones is one at an index before which everything has a size. -/
theorem exists_split_iff {n : Nat} :
    (∃ before after : Program, p = before ++ i :: after ∧ before.Encodable ∧ before.extent = n) ↔
      ∃ k, Encodable (p.take k) ∧ size (p.take k) = .ok n ∧ p[k]? = some i := by
  constructor
  · rintro ⟨before, after, rfl, hbefore, rfl⟩
    refine ⟨before.length, ?_⟩
    rw [List.take_left, List.getElem?_append_right (Nat.le_refl _), Nat.sub_self]
    exact ⟨hbefore, size_eq_extent hbefore, rfl⟩
  · rintro ⟨k, hbefore, hsize, hi⟩
    obtain ⟨hk, rfl⟩ := List.getElem?_eq_some_iff.mp hi
    refine ⟨p.take k, p.drop (k + 1), ?_, hbefore, (encodable_of_size hsize).2.symm⟩
    rw [← List.drop_eq_getElem_cons hk, List.take_append_drop]

/-! ### Destinations in a part of a program -/

variable {o : Int}

/-- What stands behind the offset does not make it a destination, nor does it prevent that. -/
theorem isJumpdest_append_iff (ho : o < extent q) :
    isJumpdest (q ++ r) o = .ok true ↔ isJumpdest q o = .ok true := by
  rw [isJumpdest_eq_true_iff, isJumpdest_eq_true_iff]
  constructor
  · rintro ⟨hpos, before, after, heq, hbefore, hextent⟩
    refine ⟨hpos, before, ?_⟩
    rcases append_eq_append_cons heq with ⟨mid, rfl, -⟩ | ⟨mid, rfl⟩
    · rw [extent_append] at hextent
      omega
    · exact ⟨mid, rfl, hbefore, hextent⟩
  · rintro ⟨hpos, before, after, rfl, hbefore, hextent⟩
    exact ⟨hpos, before, after ++ r, List.append_assoc before _ r, hbefore, hextent⟩

/-- From an instruction without bytes on there are no destinations. -/
theorem isJumpdest_append_cons_iff (hi : ¬i.Encodable) :
    isJumpdest (q ++ i :: r) o = .ok true ↔ isJumpdest q o = .ok true := by
  rw [isJumpdest_eq_true_iff, isJumpdest_eq_true_iff]
  constructor
  · rintro ⟨hpos, before, after, heq, hbefore, hextent⟩
    refine ⟨hpos, before, ?_⟩
    rcases append_eq_append_cons heq with ⟨mid, rfl, htail⟩ | ⟨mid, rfl⟩
    · -- Either the instruction is the destination itself, or it stands before it.
      cases mid with
      | nil =>
        obtain ⟨rfl, -⟩ := List.cons.inj htail
        exact absurd Instruction.encodable_jumpdest hi
      | cons j mid =>
        obtain ⟨rfl, -⟩ := List.cons.inj htail
        exact absurd (hbefore i (List.mem_append_right q List.mem_cons_self)) hi
    · exact ⟨mid, rfl, hbefore, hextent⟩
  · rintro ⟨hpos, before, after, rfl, hbefore, hextent⟩
    exact ⟨hpos, before, after ++ i :: r, List.append_assoc before _ _, hbefore, hextent⟩

/-- No destination stands at the end of an encodable program or behind it. -/
theorem isJumpdest_ne_true_of_extent_le (ho : extent q ≤ o) : isJumpdest q o ≠ .ok true := by
  rw [Ne, isJumpdest_eq_true_iff]
  rintro ⟨-, before, after, rfl, -, hextent⟩
  have hpos : 0 < Instruction.jumpdest.extent := Instruction.extent_pos rfl
  rw [extent_append, extent_cons] at ho
  omega

/-! ### Well-typed programs -/

/-- The question about a jump destination has an answer for every program of the right types. -/
theorem exists_isJumpdest (hp : ∀ i ∈ p, i.WellTyped) (ho : Text.hasDecimal o = true) :
    ∃ answer, p.isJumpdest o = .ok answer :=
  isJumpdest_eq_ok ho fun i hi _ he => (hp i hi).isForgiven he

/-- Where both questions have an answer, it is enough to compare the destinations. -/
theorem isJumpdest_congr (hp : ∀ i ∈ p, i.WellTyped) (hq : ∀ i ∈ q, i.WellTyped)
    (ho : Text.hasDecimal o = true)
    (h : p.isJumpdest o = .ok true ↔ q.isJumpdest o = .ok true) :
    p.isJumpdest o = q.isJumpdest o := by
  obtain ⟨answer, hanswer⟩ := exists_isJumpdest hp ho
  obtain ⟨other, hother⟩ := exists_isJumpdest hq ho
  rw [hanswer, hother] at h ⊢
  cases answer <;> cases other <;> simp_all

/-- The question about a jump destination is total and exact on well-typed programs, valid or not.
It always has an answer. The answer is yes exactly for the offsets at which a jump destination
stands behind encodable instructions of as many bytes. What stands behind the offset does not
matter, be it encodable or not. An instruction without bytes counts as the end: what stands in front
of it decides, and from it on the answer is no. -/
theorem isJumpdest_of_wellTyped (hp : ∀ i ∈ p, i.WellTyped) (ho : Text.hasDecimal o = true) :
    (∃ answer, p.isJumpdest o = .ok answer) ∧
      (p.isJumpdest o = .ok true ↔ 0 ≤ o ∧ ∃ k, Encodable (p.take k) ∧
        size (p.take k) = .ok o.toNat ∧ p[k]? = some .jumpdest) ∧
      (∀ q r n, p = q ++ r → size q = .ok n → o < n → p.isJumpdest o = isJumpdest q o) ∧
      ∀ q i r, p = q ++ i :: r → ¬i.Encodable → p.isJumpdest o = isJumpdest q o ∧
        ∀ n, size q = .ok n → n ≤ o → p.isJumpdest o = .ok false := by
  refine ⟨exists_isJumpdest hp ho, ?_, ?_, ?_⟩
  · rw [isJumpdest_eq_true_iff, ← exists_split_iff]
    refine and_congr_right fun hpos => ?_
    have hextent : ∀ before : Program, (before.extent : Int) = o ↔ before.extent = o.toNat := by
      intro before
      omega
    simp only [hextent]
  · rintro q r n rfl hsize hlt
    obtain ⟨-, rfl⟩ := encodable_of_size hsize
    exact isJumpdest_congr hp (fun i hi => hp i (List.mem_append_left r hi)) ho
      (isJumpdest_append_iff hlt)
  · rintro q i r rfl hi
    have hsame := isJumpdest_congr hp (fun j hj => hp j (List.mem_append_left _ hj)) ho
      (isJumpdest_append_cons_iff hi)
    refine ⟨hsame, fun n hsize hle => ?_⟩
    obtain ⟨-, rfl⟩ := encodable_of_size hsize
    -- It has an answer, and behind the refused instruction no destination is reached.
    obtain ⟨answer, hanswer⟩ := exists_isJumpdest hp ho
    cases answer with
    | false => exact hanswer
    | true => exact absurd (hsame.symm.trans hanswer) (isJumpdest_ne_true_of_extent_le hle)

/-- The byte of a jump destination as data, one that can be reached, and one behind an index out of
range. -/
def cutShort : Program :=
  [.push [0x5B], .assertion (.const 0 "loop" (.bool true)), .jumpdest, .dup (.int 17), .jumpdest]

/-- Every instruction is of the right types, but from offset 3 on nothing has an offset. -/
theorem isJumpdest_of_wellTyped_cutShort :
    (∀ i ∈ cutShort, i.WellTyped) ∧ Text.hasDecimal 2 = true ∧ Text.hasDecimal 4 = true ∧
      cutShort.isJumpdest 2 = .ok true ∧ cutShort.isJumpdest 4 = .ok false := by
  have hshow : ∀ n : Int, n.natAbs < 10 ^ 2 → Text.hasDecimal n = true :=
    fun n hn => Text.hasDecimal_of_natAbs_lt (by decide) hn
  have hp : ∀ i ∈ cutShort, i.WellTyped := by
    simp only [cutShort, List.forall_mem_cons]
    exact ⟨.push (hshow 1 (by decide)), .assertion _, .fixed rfl, .dup (hshow 17 (by decide)),
      .fixed rfl, nofun⟩
  have h2 := hshow 2 (by decide)
  have h4 := hshow 4 (by decide)
  have hrange : ¬Instruction.Encodable (.dup (.int 17)) := by
    rintro ⟨bytes, h⟩
    cases h
  obtain ⟨-, hexact, -, -⟩ := isJumpdest_of_wellTyped hp h2
  obtain ⟨-, -, -, hend⟩ := isJumpdest_of_wellTyped hp h4
  obtain ⟨-, hbehind⟩ := hend (cutShort.take 3) (.dup (.int 17)) [.jumpdest] rfl hrange
  refine ⟨hp, h2, h4, hexact.mpr ⟨by decide, 2, ?_, rfl, rfl⟩, hbehind 3 rfl (by decide)⟩
  exact (encodable_of_size (n := 2) rfl).1

end

end Program

end EvmAssembler
