import EvmAssembler.Immediate
import EvmAssembler.Program
import EvmAssembler.Proofs.Result

/-!
# `EvmAssembler.Proofs.Encoding`: what the encoder accepts and how long it gets

`Instruction.encode` is handed operands that nobody has checked, so a proof about bytes
would have to look at every shape an instruction may have. `Encodes` lists the shapes that
have bytes at all, each with its bytes, and `encode_eq_ok_iff` says that the list is
complete. Proofs about encoded programs go by cases on `Encodes` and never unfold the
encoder.

`Instruction.extent` is the width rule in plain numbers: nothing for an annotation, the
opcode and its immediate for a push, one byte for anything else. It is defined for every
instruction, so offsets can be added up before it is known whether the program encodes.
`size_eq_extent` and `length_code` tie it to the sizes and bytes that the library computes.
-/

set_option autoImplicit false

namespace EvmAssembler

namespace Instruction

/-! ### The shapes that have bytes -/

/-- The instructions that can be encoded, with their bytes. -/
inductive Encodes : Instruction → List UInt8 → Prop where
  | assertion (p : Predicate) : Encodes (.assertion p) []
  | unknown (b : UInt8) : Encodes (.unknown b) [b]
  | fixed (op : Opcode) : Encodes (.ofOpcode op) [op.code]
  | dup {n : Nat} (least : 1 ≤ n) (most : n ≤ maxStackIndex) :
    Encodes (.dup (.int n)) [dupBase + UInt8.ofNat n]
  | swap {n : Nat} (least : 1 ≤ n) (most : n ≤ maxStackIndex) :
    Encodes (.swap (.int n)) [swapBase + UInt8.ofNat n]
  | push {data : List UInt8} (least : 1 ≤ data.length) (most : data.length ≤ maxPushBytes) :
    Encodes (.push data) ((pushBase + UInt8.ofNat data.length) :: data)

/-- The instruction has bytes. -/
def Encodable (i : Instruction) : Prop :=
  ∃ bytes, i.encode = .ok bytes

/-- The bytes an instruction takes if it can be encoded. -/
def extent : Instruction → Nat
  | .assertion _ => 0
  | .push data => 1 + data.length
  | _ => 1

/-- The values an index within a limit can have. -/
theorem indexWithin?_eq_some_iff {limit : Nat} {d : Datum} {n : Nat} :
    indexWithin? limit d = some n ↔ 1 ≤ n ∧ n ≤ limit ∧ d = .int n := by
  unfold indexWithin?
  cases d with
  | int i =>
    show (if 1 ≤ i ∧ i ≤ limit then some i.toNat else none) = some n ↔ _
    constructor
    · intro h
      split at h
      · obtain rfl := Option.some.inj h
        exact ⟨by omega, by omega, by congr 1; omega⟩
      · cases h
    · rintro ⟨h1, h2, h⟩
      obtain rfl : i = n := by injection h
      rw [if_pos (by omega)]
      rfl
  | _ => simp [Datum.int?]

/-- An index outside its limit has no value. -/
theorem indexWithin?_int_eq_none {limit : Nat} {i : Int} (h : ¬(1 ≤ i ∧ i ≤ limit)) :
    indexWithin? limit (.int i) = none := by
  show (if 1 ≤ i ∧ i ≤ limit then some i.toNat else none) = none
  rw [if_neg h]

/-- An index within its limit has its own value. -/
theorem indexWithin?_int_of_le {limit n : Nat} (h1 : 1 ≤ n) (h2 : n ≤ limit) :
    indexWithin? limit (.int n) = some n :=
  indexWithin?_eq_some_iff.mpr ⟨h1, h2, rfl⟩

section
variable {base : UInt8} {limit : Nat} {fault : Datum → Error} {d : Datum}

/-- An index within the limit has its byte in the range. -/
theorem rangeCode_eq_ok {n : Nat} (h : indexWithin? limit d = some n) :
    rangeCode base limit fault d = .ok (base + UInt8.ofNat n) := by
  rw [rangeCode, h]

/-- So has each number up to the limit. -/
theorem rangeCode_int {n : Nat} (h1 : 1 ≤ n) (h2 : n ≤ limit) :
    rangeCode base limit fault (.int n) = .ok (base + UInt8.ofNat n) :=
  rangeCode_eq_ok (indexWithin?_int_of_le h1 h2)

/-- What is no such index is refused. -/
theorem rangeCode_eq_refuse (h : indexWithin? limit d = none) :
    rangeCode base limit fault d = refuse (fault d) := by
  rw [rangeCode, h]

/-- A range has bytes for the indices within its limit and for nothing else. -/
theorem exists_of_rangeCode {code : UInt8} (h : rangeCode base limit fault d = .ok code) :
    ∃ n : Nat, 1 ≤ n ∧ n ≤ limit ∧ d = .int n ∧ code = base + UInt8.ofNat n := by
  cases hn : indexWithin? limit d with
  | some n =>
    obtain ⟨h1, h2, rfl⟩ := indexWithin?_eq_some_iff.mp hn
    rw [rangeCode_int h1 h2] at h
    exact ⟨n, h1, h2, rfl, (Except.ok.inj h).symm⟩
  | none =>
    rw [rangeCode_eq_refuse hn] at h
    cases h

end

/-- Whatever has bytes has one of the listed shapes. -/
theorem Encodes.of_encode {i : Instruction} {bytes : List UInt8} (h : i.encode = .ok bytes) :
    Encodes i bytes := by
  cases i with
  | assertion p =>
    obtain rfl := Except.ok.inj h
    exact .assertion p
  | unknown b =>
    obtain rfl := Except.ok.inj h
    exact .unknown b
  | fixed family operand =>
    obtain ⟨code, hcode, rfl⟩ := except_map_eq_ok_iff.mp h
    cases operand with
    | loose value => cases hcode
    | opcode op =>
      simp only [Family.code] at hcode
      split at hcode
      · rename_i hfamily
        subst hfamily
        obtain rfl := Except.ok.inj hcode
        exact .fixed op
      · cases hcode
  -- The three opcodes with a number are made only if the number is within its limit.
  | dup d =>
    obtain ⟨code, hcode, rfl⟩ := except_map_eq_ok_iff.mp h
    obtain ⟨n, h1, h2, rfl, rfl⟩ := exists_of_rangeCode hcode
    exact .dup h1 h2
  | swap d =>
    obtain ⟨code, hcode, rfl⟩ := except_map_eq_ok_iff.mp h
    obtain ⟨n, h1, h2, rfl, rfl⟩ := exists_of_rangeCode hcode
    exact .swap h1 h2
  | push data =>
    obtain ⟨code, hcode, rfl⟩ := except_map_eq_ok_iff.mp h
    obtain ⟨n, h1, h2, hlen, rfl⟩ := exists_of_rangeCode hcode
    obtain rfl : data.length = n := by injection hlen with hlen; omega
    exact .push h1 h2
  | loose datum => cases h
  | bare => cases h

/-- Every listed shape has the listed bytes. -/
theorem Encodes.encode {i : Instruction} {bytes : List UInt8} (h : Encodes i bytes) :
    i.encode = .ok bytes := by
  cases h with
  | assertion p => rfl
  | unknown b => rfl
  | fixed op => exact encode_ofOpcode op
  | dup h1 h2 => exact congrArg (Except.map ([·])) (rangeCode_int h1 h2)
  | swap h1 h2 => exact congrArg (Except.map ([·])) (rangeCode_int h1 h2)
  | @push data h1 h2 => exact congrArg (Except.map (· :: data)) (rangeCode_int h1 h2)

/-- The list of encodable shapes is complete. -/
theorem encode_eq_ok_iff {i : Instruction} {bytes : List UInt8} :
    i.encode = .ok bytes ↔ Encodes i bytes :=
  ⟨Encodes.of_encode, Encodes.encode⟩

/-- The bytes of an instruction are as many as its extent. -/
theorem Encodes.length_eq {i : Instruction} {bytes : List UInt8} (h : Encodes i bytes) :
    bytes.length = i.extent := by
  cases h with
  | push h1 h2 => simp [extent, Nat.add_comm]
  | _ => rfl

/-- What can be encoded is measured by its extent. -/
theorem size_eq_extent {i : Instruction} (h : i.Encodable) : i.size = .ok i.extent := by
  obtain ⟨bytes, hbytes⟩ := h
  rw [size_eq_ok_of_encode hbytes, (Encodes.of_encode hbytes).length_eq]

/-- What has a size can be encoded. -/
theorem encodable_of_size {i : Instruction} {n : Nat} (h : i.size = .ok n) :
    i.Encodable ∧ n = i.extent := by
  obtain ⟨bytes, hbytes, hn⟩ := except_map_eq_ok_iff.mp h
  exact ⟨⟨bytes, hbytes⟩, by rw [← hn, (Encodes.of_encode hbytes).length_eq]⟩

/-- Only annotations take no space. -/
theorem extent_pos {i : Instruction} (h : i.isAssertion = false) : 0 < i.extent := by
  cases i with
  | assertion p => cases h
  | push data => exact Nat.lt_of_lt_of_le Nat.one_pos (Nat.le_add_right 1 _)
  | _ => exact Nat.one_pos

end Instruction

namespace Program

/-! ### Whole programs -/

/-- Every instruction of the program has bytes. -/
def Encodable (p : Program) : Prop :=
  ∀ i ∈ p, i.Encodable

/-- The bytes a program takes if it can be encoded. -/
def extent : Program → Nat
  | [] => 0
  | i :: p => i.extent + extent p

/-- The empty program takes no bytes. -/
@[simp] theorem extent_nil : extent [] = 0 := rfl

/-- The extents of instructions add up, one by one. -/
@[simp] theorem extent_cons (i : Instruction) (p : Program) :
    extent (i :: p) = i.extent + p.extent := rfl

/-- So do those of programs one behind the other. -/
@[simp] theorem extent_append (p q : Program) : extent (p ++ q) = p.extent + q.extent := by
  induction p with
  | nil => simp
  | cons i p ih => rw [List.cons_append, extent_cons, ih, extent_cons, Nat.add_assoc]

/-- A program is encodable if its first instruction and its rest are. -/
theorem encodable_cons {i : Instruction} {p : Program} :
    Encodable (i :: p) ↔ i.Encodable ∧ p.Encodable := by
  simp [Encodable]

/-- Any part of an encodable program is encodable. -/
theorem Encodable.of_subset {p q : Program} (h : q.Encodable) (hsub : p ⊆ q) : p.Encodable :=
  fun i hi => h i (hsub hi)

/-- The bytes of a program start with those of its first instruction. -/
theorem code_cons_eq_ok_iff {i : Instruction} {p : Program} {bytes : List UInt8} :
    code (i :: p) = .ok bytes ↔
      ∃ own rest, i.encode = .ok own ∧ code p = .ok rest ∧ own ++ rest = bytes := by
  rw [code, except_bind_eq_ok_iff]
  constructor
  · rintro ⟨own, hown, h⟩
    obtain ⟨rest, hrest, rfl⟩ := except_map_eq_ok_iff.mp h
    exact ⟨own, rest, hown, hrest, rfl⟩
  · rintro ⟨own, rest, hown, hrest, rfl⟩
    exact ⟨own, hown, except_map_eq_ok_iff.mpr ⟨rest, hrest, rfl⟩⟩

/-- A program has bytes exactly when each of its instructions has. -/
theorem encodable_iff_exists_code {p : Program} : p.Encodable ↔ ∃ bytes, p.code = .ok bytes := by
  induction p with
  | nil => simp [Encodable, code]
  | cons i p ih =>
    rw [encodable_cons, ih]
    constructor
    · rintro ⟨⟨own, hown⟩, ⟨rest, hrest⟩⟩
      exact ⟨own ++ rest, code_cons_eq_ok_iff.mpr ⟨own, rest, hown, hrest, rfl⟩⟩
    · rintro ⟨bytes, h⟩
      obtain ⟨own, rest, hown, hrest, -⟩ := code_cons_eq_ok_iff.mp h
      exact ⟨⟨own, hown⟩, ⟨rest, hrest⟩⟩

/-- The bytes of a program are as many as its extent. -/
theorem length_code {p : Program} {bytes : List UInt8} (h : p.code = .ok bytes) :
    bytes.length = p.extent := by
  induction p generalizing bytes with
  | nil =>
    obtain rfl := Except.ok.inj h
    rfl
  | cons i p ih =>
    obtain ⟨own, rest, hown, hrest, rfl⟩ := code_cons_eq_ok_iff.mp h
    rw [List.length_append, (Instruction.Encodes.of_encode hown).length_eq, ih hrest, extent_cons]

/-- An encodable program is measured by its extent. -/
theorem size_eq_extent {p : Program} (h : p.Encodable) : p.size = .ok p.extent := by
  induction p with
  | nil => rfl
  | cons i p ih =>
    obtain ⟨hi, hp⟩ := encodable_cons.mp h
    rw [size, Instruction.size_eq_extent hi, except_bind_ok, ih hp]
    rfl

end Program

end EvmAssembler
