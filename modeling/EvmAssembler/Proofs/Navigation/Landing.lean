import EvmAssembler.Proofs.Encoding.Traversals
import EvmAssembler.Proofs.Navigation

/-!
# `EvmAssembler.Proofs.Navigation.Landing`: the five ways a walk to an offset can end

`Program.dropBytes` counts an offset down as it goes over a program. A `Landing` says where that
ends, in terms of the sizes of the program's beginnings and of no count: at the front of an
instruction, inside one, at one that cannot be encoded, behind the last, or nowhere, if the offset
is negative. Each landing has its condition, `Landing.IsMet`, and its result.

* `isMet_cons_iff` is the step: behind an instruction that ends at the offset or before it, the
  conditions are those of the rest of the program, at an offset that is smaller by its size.
* `exists_landing` goes over the whole program with it: one landing is met and no other, and a walk
  has its result.
* `dropBytes_landing` says so of the navigator, and what the bytes of the result are.
-/

set_option autoImplicit false

namespace EvmAssembler

/-- Where a walk to an offset ends. Indices count the instructions before that place. -/
inductive Landing where
  /-- Nowhere: the offset is negative. -/
  | negative
  /-- At the front of instruction `k`, or behind the last. -/
  | front (k : Nat)
  /-- At instruction `k`, which would have to be passed and has no bytes. -/
  | unencodable (k : Nat) (e : Error)
  /-- Between two bytes of instruction `k`. -/
  | inside (k : Nat)
  /-- Behind the program. -/
  | pastEnd

namespace Landing

/-- The condition under which a walk ends there. That a beginning of the program has a size says too
that its instructions are encodable. -/
def IsMet (p : Program) (offset : Int) : Landing → Prop
  | negative => offset < 0
  | front k => ∃ n : Nat, n = offset ∧ Program.size (p.take k) = .ok n ∧
      ∀ j < k, Program.size (p.take j) ≠ .ok n
  | unencodable k e => ∃ (n : Nat) (i : Instruction), n < offset ∧
      Program.size (p.take k) = .ok n ∧ p[k]? = some i ∧ i.encode = .error e
  | inside k => ∃ m n : Nat, m < offset ∧ offset < n ∧ Program.size (p.take k) = .ok m ∧
      Program.size (p.take (k + 1)) = .ok n
  | pastEnd => ∃ n : Nat, n < offset ∧ p.size = .ok n

/-- What a walk that ends there comes to. -/
def result (p : Program) (offset : Int) : Landing → Except Error Program
  | negative => .error (.malformedOffset offset .negative)
  | front k => .ok (p.drop k)
  | unencodable _ e => .error e
  | inside _ => .error (.malformedOffset offset .insideInstruction)
  | pastEnd => .error (.malformedOffset offset .pastEnd)

/-- The same place with one more instruction before it. -/
def behind : Landing → Landing
  | front k => front (k + 1)
  | unencodable k e => unencodable (k + 1) e
  | inside k => inside (k + 1)
  | l => l

/-- One more instruction in front does not change the result of a place behind it. -/
theorem result_behind (i : Instruction) (p : Program) (offset : Int) (l : Landing) :
    l.behind.result (i :: p) offset = l.result p offset := by
  cases l <;> rfl

/-- A landing is one at the first instruction, or one behind it. -/
theorem eq_zero_or_behind (l : Landing) :
    l = .negative ∨ l = .front 0 ∨ (∃ e, l = .unencodable 0 e) ∨ l = .inside 0 ∨
      ∃ next : Landing, next ≠ .negative ∧ l = next.behind := by
  cases l with
  | negative => exact Or.inl rfl
  | front k =>
    cases k with
    | zero => exact Or.inr (Or.inl rfl)
    | succ k => exact Or.inr (Or.inr (Or.inr (Or.inr ⟨.front k, nofun, rfl⟩)))
  | unencodable k e =>
    cases k with
    | zero => exact Or.inr (Or.inr (Or.inl ⟨e, rfl⟩))
    | succ k => exact Or.inr (Or.inr (Or.inr (Or.inr ⟨.unencodable k e, nofun, rfl⟩)))
  | inside k =>
    cases k with
    | zero => exact Or.inr (Or.inr (Or.inr (Or.inl rfl)))
    | succ k => exact Or.inr (Or.inr (Or.inr (Or.inr ⟨.inside k, nofun, rfl⟩)))
  | pastEnd => exact Or.inr (Or.inr (Or.inr (Or.inr ⟨.pastEnd, nofun, rfl⟩)))

end Landing

namespace Program

open Landing

/-! ### Sizes of beginnings -/

/-- A program has a size when its first instruction has bytes and the rest has a size, and the two
add up. -/
theorem size_cons_eq_ok_iff {i : Instruction} {p : Program} {n : Nat} :
    size (i :: p) = .ok n ↔ ∃ r, i.Encodable ∧ size p = .ok r ∧ n = i.extent + r := by
  rw [size, except_bind_eq_ok_iff]
  constructor
  · rintro ⟨m, hm, h⟩
    obtain ⟨r, hr, rfl⟩ := except_map_eq_ok_iff.mp h
    obtain ⟨hi, rfl⟩ := Instruction.encodable_of_size hm
    exact ⟨r, hi, hr, rfl⟩
  · rintro ⟨r, hi, hr, rfl⟩
    exact ⟨_, Instruction.size_eq_extent hi, except_map_eq_ok_iff.mpr ⟨r, hr, rfl⟩⟩

/-- A program that has a size can be encoded, and the size is its extent. -/
theorem encodable_of_size {p : Program} {n : Nat} (h : p.size = .ok n) :
    p.Encodable ∧ n = p.extent := by
  induction p generalizing n with
  | nil => exact ⟨by simp [Encodable], (Except.ok.inj h).symm⟩
  | cons i p ih =>
    obtain ⟨r, hi, hr, rfl⟩ := size_cons_eq_ok_iff.mp h
    obtain ⟨hp, rfl⟩ := ih hr
    exact ⟨encodable_cons.mpr ⟨hi, hp⟩, (extent_cons i p).symm⟩

/-! ### Which landing is met -/

section
variable {p : Program} {i : Instruction} {offset : Int}

/-- At offset zero a walk has arrived before it starts. -/
theorem isMet_zero_iff {l : Landing} : l.IsMet p 0 ↔ l = .front 0 := by
  constructor
  · intro h
    cases l with
    | negative => exact absurd h (Int.lt_irrefl 0)
    | front k =>
      obtain ⟨n, hn, -, hleast⟩ := h
      obtain rfl : n = 0 := by omega
      cases k with
      | zero => rfl
      | succ k => exact absurd rfl (hleast 0 (Nat.zero_lt_succ k))
    | unencodable k e =>
      obtain ⟨n, -, hn, -⟩ := h
      omega
    | inside k =>
      obtain ⟨m, -, hm, -⟩ := h
      omega
    | pastEnd =>
      obtain ⟨n, hn, -⟩ := h
      omega
  · rintro rfl
    exact ⟨0, rfl, rfl, fun j hj => absurd hj (Nat.not_lt_zero j)⟩

/-- Without instructions, any larger offset is behind the end. -/
theorem isMet_nil_iff (hpos : 0 < offset) {l : Landing} : l.IsMet [] offset ↔ l = .pastEnd := by
  have hsize : ∀ k n, size (List.take k ([] : Program)) = .ok n → n = 0 := by
    intro k n h
    rw [List.take_nil] at h
    exact (Except.ok.inj h).symm
  constructor
  · intro h
    cases l with
    | negative => exact absurd h (Int.not_lt.mpr (Int.le_of_lt hpos))
    | front k =>
      obtain ⟨n, hn, hk, -⟩ := h
      have := hsize k n hk
      omega
    | unencodable k e =>
      obtain ⟨_, _, _, _, hi, _⟩ := h
      cases hi
    | inside k =>
      obtain ⟨-, n, -, hn, -, hk⟩ := h
      have := hsize (k + 1) n hk
      omega
    | pastEnd => rfl
  · rintro rfl
    exact ⟨0, hpos, rfl⟩

/-- The front of the first instruction is where offset zero is. -/
theorem isMet_front_zero_iff : (Landing.front 0).IsMet p offset ↔ offset = 0 := by
  constructor
  · rintro ⟨n, hn, hsize, -⟩
    obtain rfl : 0 = n := Except.ok.inj hsize
    exact hn.symm
  · rintro rfl
    exact ⟨0, rfl, rfl, fun j hj => absurd hj (Nat.not_lt_zero j)⟩

/-- On the way to a later offset, a walk is stopped at the first instruction exactly if that has no
bytes. -/
theorem isMet_unencodable_zero_iff {e : Error} :
    (Landing.unencodable 0 e).IsMet (i :: p) offset ↔ 0 < offset ∧ i.encode = .error e := by
  constructor
  · rintro ⟨n, j, hn, hsize, hj, he⟩
    obtain rfl : 0 = n := Except.ok.inj hsize
    obtain rfl : i = j := Option.some.inj hj
    exact ⟨hn, he⟩
  · rintro ⟨hpos, he⟩
    exact ⟨0, i, hpos, rfl, rfl, he⟩

/-- It is stopped within the first instruction exactly if the offset is one of the inner bytes. -/
theorem isMet_inside_zero_iff :
    (Landing.inside 0).IsMet (i :: p) offset ↔
      0 < offset ∧ i.Encodable ∧ offset < i.extent := by
  constructor
  · rintro ⟨m, n, hm, hn, hfirst, hsecond⟩
    obtain rfl : 0 = m := Except.ok.inj hfirst
    obtain ⟨r, hi, hr, rfl⟩ := size_cons_eq_ok_iff.mp hsecond
    obtain rfl : 0 = r := Except.ok.inj hr
    exact ⟨hm, hi, by omega⟩
  · rintro ⟨hpos, hi, hlt⟩
    exact ⟨0, i.extent, hpos, hlt, rfl, size_cons_eq_ok_iff.mpr ⟨0, hi, rfl, rfl⟩⟩

/-- With one more instruction in front, a place behind it is reached at an offset that is larger by
the size of the instruction. -/
theorem isMet_behind_iff (hpos : 0 < offset) {l : Landing} (hl : l ≠ .negative) :
    l.behind.IsMet (i :: p) offset ↔ i.Encodable ∧ l.IsMet p (offset - i.extent) := by
  cases l with
  | negative => exact absurd rfl hl
  | front k =>
    constructor
    · rintro ⟨n, hn, hsize, hleast⟩
      obtain ⟨r, hi, hr, rfl⟩ := size_cons_eq_ok_iff.mp hsize
      refine ⟨hi, r, by omega, hr, fun j hj hsmall => ?_⟩
      exact hleast (j + 1) (by omega) (size_cons_eq_ok_iff.mpr ⟨r, hi, hsmall, rfl⟩)
    · rintro ⟨hi, r, hr, hsize, hleast⟩
      refine ⟨i.extent + r, by omega, size_cons_eq_ok_iff.mpr ⟨r, hi, hsize, rfl⟩, ?_⟩
      -- The offset is not zero, so the front of the new instruction is no earlier place for it.
      rintro (_ | j) hj hsmall
      · have := Except.ok.inj hsmall
        omega
      · obtain ⟨r', -, hr', heq⟩ := size_cons_eq_ok_iff.mp hsmall
        obtain rfl : r' = r := by omega
        exact hleast j (by omega) hr'
  | unencodable k e =>
    constructor
    · rintro ⟨n, j, hn, hsize, hj, he⟩
      obtain ⟨r, hi, hr, rfl⟩ := size_cons_eq_ok_iff.mp hsize
      exact ⟨hi, r, j, by omega, hr, hj, he⟩
    · rintro ⟨hi, r, j, hr, hsize, hj, he⟩
      exact ⟨i.extent + r, j, by omega, size_cons_eq_ok_iff.mpr ⟨r, hi, hsize, rfl⟩, hj, he⟩
  | inside k =>
    constructor
    · rintro ⟨m, n, hm, hn, hfirst, hsecond⟩
      obtain ⟨r, hi, hr, rfl⟩ := size_cons_eq_ok_iff.mp hfirst
      obtain ⟨t, -, ht, rfl⟩ := size_cons_eq_ok_iff.mp hsecond
      exact ⟨hi, r, t, by omega, by omega, hr, ht⟩
    · rintro ⟨hi, r, t, hr, ht, hfirst, hsecond⟩
      exact ⟨i.extent + r, i.extent + t, by omega, by omega,
        size_cons_eq_ok_iff.mpr ⟨r, hi, hfirst, rfl⟩, size_cons_eq_ok_iff.mpr ⟨t, hi, hsecond, rfl⟩⟩
  | pastEnd =>
    constructor
    · rintro ⟨n, hn, hsize⟩
      obtain ⟨r, hi, hr, rfl⟩ := size_cons_eq_ok_iff.mp hsize
      exact ⟨hi, r, by omega, hr⟩
    · rintro ⟨hi, r, hr, hsize⟩
      exact ⟨i.extent + r, by omega, size_cons_eq_ok_iff.mpr ⟨r, hi, hsize, rfl⟩⟩

/-- No place is met at a negative offset. -/
theorem eq_negative_of_isMet (hneg : offset < 0) {l : Landing} (h : l.IsMet p offset) :
    l = .negative := by
  cases l with
  | negative => rfl
  | front k =>
    obtain ⟨n, hn, -⟩ := h
    omega
  | unencodable k e =>
    obtain ⟨n, -, hn, -⟩ := h
    omega
  | inside k =>
    obtain ⟨m, -, hm, -⟩ := h
    omega
  | pastEnd =>
    obtain ⟨n, hn, -⟩ := h
    omega

/-- An instruction that cannot be encoded is not passed. -/
theorem isMet_cons_error_iff (hpos : 0 < offset) {e : Error} (he : i.encode = .error e)
    {l : Landing} : l.IsMet (i :: p) offset ↔ l = .unencodable 0 e := by
  have hi : ¬i.Encodable := by
    rintro ⟨bytes, hbytes⟩
    rw [he] at hbytes
    cases hbytes
  constructor
  · intro h
    obtain rfl | rfl | ⟨d, rfl⟩ | rfl | ⟨next, hnext, rfl⟩ := l.eq_zero_or_behind
    · exact absurd h (Int.not_lt.mpr (Int.le_of_lt hpos))
    · exact absurd (isMet_front_zero_iff.mp h) (Int.ne_of_gt hpos)
    · rw [Except.error.inj (he.symm.trans (isMet_unencodable_zero_iff.mp h).2)]
    · exact absurd (isMet_inside_zero_iff.mp h).2.1 hi
    · exact absurd ((isMet_behind_iff hpos hnext).mp h).1 hi
  · rintro rfl
    exact isMet_unencodable_zero_iff.mpr ⟨hpos, he⟩

/-- An instruction that reaches beyond the offset holds it. -/
theorem isMet_cons_lt_iff (hpos : 0 < offset) (hi : i.Encodable) (hlt : offset < i.extent)
    {l : Landing} : l.IsMet (i :: p) offset ↔ l = .inside 0 := by
  constructor
  · intro h
    obtain rfl | rfl | ⟨d, rfl⟩ | rfl | ⟨next, hnext, rfl⟩ := l.eq_zero_or_behind
    · exact absurd h (Int.not_lt.mpr (Int.le_of_lt hpos))
    · exact absurd (isMet_front_zero_iff.mp h) (Int.ne_of_gt hpos)
    · obtain ⟨bytes, hbytes⟩ := hi
      rw [(isMet_unencodable_zero_iff.mp h).2] at hbytes
      cases hbytes
    · rfl
    · have hrest := ((isMet_behind_iff hpos hnext).mp h).2
      exact absurd (eq_negative_of_isMet (by omega) hrest) hnext
  · rintro rfl
    exact isMet_inside_zero_iff.mpr ⟨hpos, hi, hlt⟩

/-- An instruction that ends at the offset or before it is passed, and what is met is met in the
rest of the program. -/
theorem isMet_cons_iff (hpos : 0 < offset) (hi : i.Encodable) (hle : i.extent ≤ offset)
    {l : Landing} :
    l.IsMet (i :: p) offset ↔
      ∃ next : Landing, next.IsMet p (offset - i.extent) ∧ l = next.behind := by
  constructor
  · intro h
    obtain rfl | rfl | ⟨d, rfl⟩ | rfl | ⟨next, hnext, rfl⟩ := l.eq_zero_or_behind
    · exact absurd h (Int.not_lt.mpr (Int.le_of_lt hpos))
    · exact absurd (isMet_front_zero_iff.mp h) (Int.ne_of_gt hpos)
    · obtain ⟨bytes, hbytes⟩ := hi
      rw [(isMet_unencodable_zero_iff.mp h).2] at hbytes
      cases hbytes
    · have hlt := (isMet_inside_zero_iff.mp h).2.2
      omega
    · exact ⟨next, ((isMet_behind_iff hpos hnext).mp h).2, rfl⟩
  · rintro ⟨next, hrest, rfl⟩
    refine (isMet_behind_iff hpos ?_).mpr ⟨hi, hrest⟩
    rintro rfl
    have hneg : offset - i.extent < 0 := hrest
    omega

end

/-! ### Where a walk ends -/

/-- A report of an offset that can be shown is what is raised. -/
theorem refuse_malformedOffset {α : Type} {offset : Int} (ho : Text.hasDecimal offset = true)
    (fault : OffsetFault) :
    (refuse (.malformedOffset offset fault) : Except Error α) =
      .error (.malformedOffset offset fault) := by
  rw [refuse, show (Error.malformedOffset offset fault).isShowable = true from ho, if_pos rfl]

/-- Exactly one landing is met, and a walk has its result. -/
theorem exists_landing {offset : Int} (ho : Text.hasDecimal offset = true) (left : Nat)
    (p : Program) :
    ∃ l : Landing, (∀ other : Landing, other.IsMet p left ↔ other = l) ∧
      walk offset left p = l.result p offset := by
  fun_induction walk offset left p with
  | case1 p => exact ⟨.front 0, fun _ => isMet_zero_iff, rfl⟩
  | case2 left =>
    exact ⟨.pastEnd, fun _ => isMet_nil_iff (by omega), refuse_malformedOffset ho .pastEnd⟩
  | case3 left i p ih =>
    have hpos : (0 : Int) < (left + 1 : Nat) := by omega
    cases hencode : i.encode with
    | error e =>
      rw [Instruction.size_eq_error_of_encode hencode]
      exact ⟨.unencodable 0 e, fun _ => isMet_cons_error_iff hpos hencode, rfl⟩
    | ok bytes =>
      have hi : i.Encodable := ⟨bytes, hencode⟩
      rw [Instruction.size_eq_extent hi, except_bind_ok]
      by_cases hlt : left + 1 < i.extent
      · rw [if_pos hlt]
        exact ⟨.inside 0, fun _ => isMet_cons_lt_iff hpos hi (by omega),
          refuse_malformedOffset ho .insideInstruction⟩
      · -- The instruction is passed, and the walk over the rest has met its landing.
        rw [if_neg hlt]
        obtain ⟨l, hmet, hwalk⟩ := ih i.extent
        refine ⟨l.behind, fun other => ?_, ?_⟩
        · rw [isMet_cons_iff hpos hi (by omega),
            show ((left + 1 : Nat) : Int) - i.extent = (left + 1 - i.extent : Nat) by omega]
          simp only [hmet, exists_eq_left]
        · rw [hwalk, l.result_behind]

/-- A refusal for another reason is no report of an offset. -/
theorem refuse_ne_malformedOffset {α : Type} {e : Error} {offset : Int} {fault : OffsetFault}
    (h : e ≠ .malformedOffset offset fault) :
    (refuse e : Except Error α) ≠ .error (.malformedOffset offset fault) := by
  intro heq
  rw [refuse] at heq
  split at heq
  · exact h (Except.error.inj heq)
  · cases heq

/-- Nor is what a range refuses, unless that is its fault. -/
theorem rangeCode_ne_malformedOffset {base : UInt8} {limit : Nat} {refusal : Datum → Error}
    {d : Datum} {offset : Int} {fault : OffsetFault}
    (h : refusal d ≠ .malformedOffset offset fault) :
    rangeCode base limit refusal d ≠ .error (.malformedOffset offset fault) := by
  rw [rangeCode]
  split
  · rintro ⟨⟩
  · exact refuse_ne_malformedOffset h

/-- The encoder never reports an offset. -/
theorem encode_ne_malformedOffset (i : Instruction) (offset : Int) (fault : OffsetFault) :
    i.encode ≠ .error (.malformedOffset offset fault) := by
  have hmap : ∀ {x : Except Error UInt8} {f : UInt8 → List UInt8},
      x ≠ .error (.malformedOffset offset fault) →
        x.map f ≠ .error (.malformedOffset offset fault) := by
    intro x f hx
    cases x with
    | ok code => rintro ⟨⟩
    | error e => exact fun h => hx (congrArg Except.error (Except.error.inj h))
  -- Each shape has bytes or is refused for a reason of its own.
  cases i with
  | assertion _ => rintro ⟨⟩
  | unknown _ => rintro ⟨⟩
  | push data => exact hmap (rangeCode_ne_malformedOffset nofun)
  | dup n => exact hmap (rangeCode_ne_malformedOffset nofun)
  | swap n => exact hmap (rangeCode_ne_malformedOffset nofun)
  | fixed family operand =>
    refine hmap ?_
    cases operand with
    | opcode op =>
      rw [Family.code]
      split
      · rintro ⟨⟩
      · exact refuse_ne_malformedOffset (by rintro ⟨⟩)
    | loose value => exact refuse_ne_malformedOffset (by rintro ⟨⟩)
  | loose datum => exact refuse_ne_malformedOffset (by rintro ⟨⟩)
  | bare => exact refuse_ne_malformedOffset (by rintro ⟨⟩)

/-- What is left behind the beginning of a program has the bytes behind those of the beginning. -/
theorem code_drop {p : Program} {bytes : List UInt8} {k n : Nat} (hcode : p.code = .ok bytes)
    (hsize : size (p.take k) = .ok n) : code (p.drop k) = .ok (bytes.drop n) := by
  rw [← List.take_append_drop k p, code_append, except_bind_eq_ok_iff] at hcode
  obtain ⟨first, hfirst, hcode⟩ := hcode
  obtain ⟨second, hsecond, rfl⟩ := except_map_eq_ok_iff.mp hcode
  have hencodable : Encodable (p.take k) := encodable_iff_exists_code.mpr ⟨first, hfirst⟩
  obtain rfl : extent (p.take k) = n :=
    Except.ok.inj ((size_eq_extent hencodable).symm.trans hsize)
  rw [hsecond, ← length_code hfirst, List.drop_left]

/-- Of the five ways in which going to an offset can end, the condition of exactly one is met, and
that one is the outcome. A report of an offset is about the offset asked for. In a program that can
be encoded, the bytes of what is returned are those behind the offset. -/
theorem dropBytes_landing {p : Program} {offset : Int} (ho : Text.hasDecimal offset = true) :
    (∃ l : Landing, (∀ other : Landing, other.IsMet p offset ↔ other = l) ∧
        p.dropBytes offset = l.result p offset) ∧
      (∀ reported fault, p.dropBytes offset = .error (.malformedOffset reported fault) →
        reported = offset) ∧
      ∀ bytes rest, p.code = .ok bytes → p.dropBytes offset = .ok rest →
        rest.code = .ok (bytes.drop offset.toNat) := by
  have hlanding : ∃ l : Landing, (∀ other : Landing, other.IsMet p offset ↔ other = l) ∧
      p.dropBytes offset = l.result p offset := by
    unfold dropBytes
    by_cases hneg : offset < 0
    · rw [if_pos hneg]
      refine ⟨.negative, fun other => ⟨eq_negative_of_isMet hneg, ?_⟩,
        refuse_malformedOffset ho .negative⟩
      rintro rfl
      exact hneg
    · rw [if_neg hneg]
      have h := exists_landing ho offset.toNat p
      rwa [Int.toNat_of_nonneg (Int.not_lt.mp hneg)] at h
  refine ⟨hlanding, ?_, ?_⟩
  · intro reported fault h
    obtain ⟨l, hmet, hresult⟩ := hlanding
    rw [hresult] at h
    cases l with
    | negative =>
      cases h
      rfl
    | front k => cases h
    | unencodable k e =>
      -- This error is the encoder's own.
      obtain ⟨n, i, -, -, -, he⟩ := (hmet (.unencodable k e)).mpr rfl
      obtain rfl := Except.error.inj h
      exact absurd he (encode_ne_malformedOffset i reported fault)
    | inside k =>
      cases h
      rfl
    | pastEnd =>
      cases h
      rfl
  · intro bytes rest hcode h
    obtain ⟨l, hmet, hresult⟩ := hlanding
    rw [hresult] at h
    cases l with
    | front k =>
      obtain rfl := Except.ok.inj h
      obtain ⟨n, rfl, hsize, -⟩ := (hmet (.front k)).mpr rfl
      rw [Int.toNat_natCast]
      exact code_drop hcode hsize
    | negative => cases h
    | unencodable k e => cases h
    | inside k => cases h
    | pastEnd => cases h

/-- A push, an annotated addition, and an addition under the wrong family. -/
def halfEncodable : Program :=
  [.push [0x01, 0x02], .assertion (.const 0 "loop" (.bool true)), .ofOpcode .ADD,
    .fixed .stack (.opcode .ADD), .jumpdest]

/-- The annotation is kept, the push is not entered, and what cannot be encoded is an obstacle only
to offsets behind it. -/
theorem dropBytes_halfEncodable :
    Text.hasDecimal 3 = true ∧ Text.hasDecimal 2 = true ∧ Text.hasDecimal 4 = true ∧
      Text.hasDecimal 5 = true ∧ halfEncodable.dropBytes 3 = .ok (halfEncodable.drop 1) ∧
      halfEncodable.dropBytes 2 = .error (.malformedOffset 2 .insideInstruction) ∧
      halfEncodable.dropBytes 4 = .ok (halfEncodable.drop 3) ∧
      halfEncodable.dropBytes 5 = .error (.notInFamily (.opcode .ADD) .stack) := by
  have hshow : ∀ n : Int, n.natAbs < 10 ^ 1 → Text.hasDecimal n = true :=
    fun n hn => Text.hasDecimal_of_natAbs_lt (by decide) hn
  have h3 := hshow 3 (by decide)
  have h2 := hshow 2 (by decide)
  have h4 := hshow 4 (by decide)
  have h5 := hshow 5 (by decide)
  obtain ⟨l3, hmet3, hdrop3⟩ := (@dropBytes_landing halfEncodable 3 h3).1
  obtain ⟨l2, hmet2, hdrop2⟩ := (@dropBytes_landing halfEncodable 2 h2).1
  obtain ⟨l4, hmet4, hdrop4⟩ := (@dropBytes_landing halfEncodable 4 h4).1
  obtain ⟨l5, hmet5, hdrop5⟩ := (@dropBytes_landing halfEncodable 5 h5).1
  have hfront3 : (Landing.front 1).IsMet halfEncodable 3 := by
    refine ⟨3, rfl, rfl, fun j hj => ?_⟩
    obtain rfl : j = 0 := by omega
    nofun
  have hinside : (Landing.inside 0).IsMet halfEncodable 2 := ⟨0, 3, by decide, by decide, rfl, rfl⟩
  have hfront4 : (Landing.front 3).IsMet halfEncodable 4 := by
    refine ⟨4, rfl, rfl, fun j hj => ?_⟩
    obtain rfl | rfl | rfl : j = 0 ∨ j = 1 ∨ j = 2 := by omega
    all_goals nofun
  have hobstacle : (Landing.unencodable 3 (.notInFamily (.opcode .ADD) .stack)).IsMet
      halfEncodable 5 := ⟨4, .fixed .stack (.opcode .ADD), by decide, rfl, rfl, rfl⟩
  rw [← (hmet3 _).mp hfront3] at hdrop3
  rw [← (hmet2 _).mp hinside] at hdrop2
  rw [← (hmet4 _).mp hfront4] at hdrop4
  rw [← (hmet5 _).mp hobstacle] at hdrop5
  exact ⟨h3, h2, h4, h5, hdrop3, hdrop2, hdrop4, hdrop5⟩

end Program

end EvmAssembler
