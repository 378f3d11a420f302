import EvmAssembler.Program.Navigation
import EvmAssembler.Proofs.Encoding

/-!
# `EvmAssembler.Proofs.Navigation`: where a walk to an offset ends

`Program.walk` goes over the program front to back and keeps count of the bytes still to
be passed. The lemmas here replace the count by a split of the program:

* `walk_append`: a walk past exactly the bytes of `q` leaves what stands behind `q`, unless
  `q` ends in annotations, which the walk does not pass. `dropBytes_append` is the case where
  there are none.
* `walk_eq_error`: a walk fails because no instruction starts at the offset, or because of
  an instruction that cannot be encoded. There is no other reason.
* `instructionAt_eq_some_iff`: the instruction at an offset is the one that stands behind
  encodable instructions of exactly that many bytes. Annotations at the offset are looked
  through, so here it does not matter on which side of them the split is made.
* `isJumpdest_eq_true_iff`: the same for jump destinations.

Nothing is assumed of the program in the last two: what stands behind the offset may be
anything.
-/

set_option autoImplicit false

namespace EvmAssembler.Program

/-! ### The walk -/

/-- One step of a walk that is not over yet: an encodable instruction is passed if it ends
at the offset or before it. -/
theorem walk_cons {offset : Int} {left : Nat} {i : Instruction} {p : Program}
    (hi : i.Encodable) (hleft : 0 < left) :
    walk offset left (i :: p) =
      if left < i.extent then refuse (.malformedOffset offset .insideInstruction)
      else walk offset (left - i.extent) p := by
  cases left with
  | zero => omega
  | succ left => rw [walk, Instruction.size_eq_extent hi, except_bind_ok]

/-- What a walk leaves is an end of the program. -/
theorem suffix_of_walk {offset : Int} {left : Nat} {p rest : Program}
    (h : walk offset left p = .ok rest) : rest <:+ p := by
  fun_induction walk offset left p with
  | case1 p =>
    obtain rfl := Except.ok.inj h
    exact List.suffix_rfl
  | case2 left => cases h
  | case3 left i p ih =>
    obtain ⟨n, -, hrest⟩ := except_bind_eq_ok_iff.mp h
    split at hrest
    · cases hrest
    · exact (ih n hrest).trans (List.suffix_cons i p)

/-- A walk past the bytes of `q` ends behind `q`, if it cannot end any earlier. -/
theorem walk_append {offset : Int} {q r : Program} (hq : q.Encodable)
    (hleast : ∀ k < q.length, extent (q.take k) < q.extent) :
    walk offset q.extent (q ++ r) = .ok r := by
  induction q with
  | nil => rw [extent_nil, List.nil_append, walk]
  | cons i q ih =>
    obtain ⟨hi, hq⟩ := encodable_cons.mp hq
    have hpos : 0 < extent (i :: q) := hleast 0 (Nat.zero_lt_succ _)
    rw [List.cons_append, walk_cons hi hpos, extent_cons, if_neg (by omega),
      Nat.add_sub_cancel_left]
    refine ih hq fun k hk => ?_
    have h := hleast (k + 1) (Nat.succ_lt_succ hk)
    rw [List.take_succ_cons, extent_cons, extent_cons] at h
    omega

/-- Without annotations there is no earlier place for the walk to end. -/
theorem dropBytes_append {q r : Program} (hq : q.Encodable)
    (hnote : ∀ i ∈ q, i.isAssertion = false) :
    dropBytes (q ++ r) q.extent = .ok r := by
  -- No annotation is left out at the end, so no shorter part takes as many bytes.
  have hleast : ∀ k < q.length, extent (q.take k) < q.extent := by
    intro k hk
    have hsplit : q.extent = extent (q.take k) + extent (q.drop k) := by
      rw [← extent_append, List.take_append_drop]
    have hpos : 0 < q[k].extent := Instruction.extent_pos (hnote _ (List.getElem_mem hk))
    rw [hsplit, List.drop_eq_getElem_cons hk, extent_cons]
    omega
  rw [dropBytes, if_neg (by omega), Int.toNat_natCast]
  exact walk_append hq hleast

/-- The only reasons for a walk to fail. -/
theorem walk_eq_error {offset : Int} {left : Nat} {p : Program} {e : Error}
    (h : walk offset left p = .error e) :
    (∃ fault, (refuse (.malformedOffset offset fault) : Except Error Program) = .error e) ∨
      ∃ i ∈ p, i.encode = .error e := by
  fun_induction walk offset left p with
  | case1 p => cases h
  | case2 left => exact Or.inl ⟨.pastEnd, h⟩
  | case3 left i rest ih =>
    cases henc : i.encode with
    | error e' =>
      rw [Instruction.size_eq_error_of_encode henc, except_bind_error] at h
      obtain rfl := Except.error.inj h
      exact Or.inr ⟨i, List.mem_cons_self, henc⟩
    | ok bytes =>
      rw [Instruction.size_eq_ok_of_encode henc, except_bind_ok] at h
      -- The instruction is measured, so it either spans the offset or is passed.
      split at h
      · exact Or.inl ⟨.insideInstruction, h⟩
      · rcases ih _ h with hfault | ⟨j, hj, hje⟩
        · exact Or.inl hfault
        · exact Or.inr ⟨j, List.mem_cons_of_mem _ hj, hje⟩

/-! ### The instruction at an offset -/

/-- An encodable instruction without bytes is an annotation. -/
theorem isAssertion_of_extent_eq_zero {i : Instruction} (h : i.extent = 0) :
    i.isAssertion = true := by
  cases hi : i.isAssertion with
  | true => rfl
  | false =>
    have := Instruction.extent_pos hi
    omega

/-- Annotations are encodable and take no bytes. -/
theorem encodable_of_isAssertion {i : Instruction} (h : i.isAssertion = true) :
    i.Encodable ∧ i.extent = 0 := by
  cases i with
  | assertion p => exact ⟨⟨[], rfl⟩, rfl⟩
  | _ => cases h

/-- The first instruction of a program is looked for behind its leading annotations. -/
theorem first?_cons (i : Instruction) (p : Program) :
    first? (i :: p) = if i.isAssertion then first? p else some i := by
  unfold first?
  rw [List.dropWhile_cons]
  split <;> rfl

/-- A walk to an instruction that stands behind encodable ones finds it, whether or not
annotations stand right before it. -/
theorem walk_first {offset : Int} {q r : Program} {i : Instruction} (hq : q.Encodable)
    (hi : i.isAssertion = false) :
    ∃ rest, walk offset q.extent (q ++ i :: r) = .ok rest ∧ first? rest = some i := by
  induction q with
  | nil =>
    refine ⟨i :: r, by rw [extent_nil, List.nil_append, walk], ?_⟩
    rw [first?_cons, hi]
    rfl
  | cons j q ih =>
    obtain ⟨hj, hq⟩ := encodable_cons.mp hq
    obtain ⟨rest, hwalk, hfirst⟩ := ih hq
    rw [extent_cons, List.cons_append]
    by_cases hpos : 0 < j.extent + extent q
    · refine ⟨rest, ?_, hfirst⟩
      rw [walk_cons hj hpos, if_neg (by omega), Nat.add_sub_cancel_left, hwalk]
    · -- Only annotations are passed, so the walk stops at once and looks through them.
      have hzero : extent q = 0 := by omega
      have hnote : j.isAssertion = true := isAssertion_of_extent_eq_zero (by omega)
      rw [hzero, walk] at hwalk
      obtain rfl := Except.ok.inj hwalk
      refine ⟨j :: (q ++ i :: r), ?_, ?_⟩
      · rw [show j.extent + extent q = 0 by omega, walk]
      · rw [first?_cons, hnote]
        exact hfirst

/-- What a walk finds stands behind encodable instructions of as many bytes as were walked. -/
theorem exists_of_walk_first {offset : Int} {left : Nat} {p rest : Program} {i : Instruction}
    (hwalk : walk offset left p = .ok rest) (hfirst : first? rest = some i) :
    i.isAssertion = false ∧
      ∃ q r : Program, p = q ++ i :: r ∧ q.Encodable ∧ q.extent = left := by
  induction p generalizing left rest with
  | nil =>
    cases left with
    | zero =>
      rw [walk] at hwalk
      obtain rfl := Except.ok.inj hwalk
      cases hfirst
    | succ left => rw [walk] at hwalk; cases hwalk
  | cons j p ih =>
    cases left with
    | zero =>
      -- The walk has stopped, and what is found stands behind annotations that it stopped at.
      rw [walk] at hwalk
      obtain rfl := Except.ok.inj hwalk
      rw [first?_cons] at hfirst
      split at hfirst
      · rename_i hnote
        obtain ⟨hi, q, r, rfl, hq, hext⟩ := ih (by rw [walk]) hfirst
        obtain ⟨hj, hzero⟩ := encodable_of_isAssertion hnote
        exact ⟨hi, j :: q, r, rfl, encodable_cons.mpr ⟨hj, hq⟩,
          by rw [extent_cons, hzero, hext]⟩
      · rename_i hnote
        obtain rfl := Option.some.inj hfirst
        exact ⟨by simpa using hnote, [], p, rfl, by simp [Encodable], rfl⟩
    | succ left =>
      rw [walk, except_bind_eq_ok_iff] at hwalk
      obtain ⟨n, hn, hwalk⟩ := hwalk
      obtain ⟨hj, rfl⟩ := Instruction.encodable_of_size hn
      split at hwalk
      · cases hwalk
      · obtain ⟨hi, q, r, rfl, hq, hext⟩ := ih hwalk hfirst
        exact ⟨hi, j :: q, r, rfl, encodable_cons.mpr ⟨hj, hq⟩, by rw [extent_cons, hext]; omega⟩

/-- The instruction at an offset stands behind encodable ones of that many bytes. -/
theorem instructionAt_eq_some_iff {p : Program} {o : Int} {i : Instruction} :
    p.instructionAt o = .ok (some i) ↔
      0 ≤ o ∧ i.isAssertion = false ∧
        ∃ q r : Program, p = q ++ i :: r ∧ q.Encodable ∧ (q.extent : Int) = o := by
  unfold instructionAt dropBytes
  rw [except_map_eq_ok_iff]
  constructor
  · rintro ⟨rest, hwalk, hfirst⟩
    split at hwalk
    · cases hwalk
    · obtain ⟨hi, q, r, rfl, hq, hext⟩ := exists_of_walk_first hwalk hfirst
      exact ⟨by omega, hi, q, r, rfl, hq, by omega⟩
  · rintro ⟨ho, hi, q, r, rfl, hq, hext⟩
    obtain ⟨rest, hwalk, hfirst⟩ := @walk_first o q r i hq hi
    refine ⟨rest, ?_, hfirst⟩
    rw [if_neg (by omega), show o.toNat = extent q by omega, hwalk]

/-! ### Jump destinations -/

/-- Only the jump destination itself compares equal to it. -/
theorem same_jumpdest_iff {i : Instruction} : i.same .jumpdest = true ↔ i = .jumpdest := by
  constructor
  · -- Families and operands are compared one by one, and both have to be the destination's.
    intro h
    cases i with
    | fixed family operand =>
      cases operand with
      | opcode op =>
        simp only [Instruction.same, Instruction.jumpdest, Instruction.ofOpcode, Operand.same,
          Bool.and_eq_true, beq_iff_eq] at h
        rw [h.1, h.2]
        rfl
      | loose value => simp [Instruction.same, Instruction.jumpdest, Instruction.ofOpcode,
          Operand.same] at h
    | _ => cases h
  · rintro rfl
    rfl

/-- A jump destination stands at an offset when the instruction there is one. -/
theorem isJumpdest_eq_true_iff {p : Program} {o : Int} :
    p.isJumpdest o = .ok true ↔
      0 ≤ o ∧ ∃ q r : Program, p = q ++ .jumpdest :: r ∧ q.Encodable ∧ (q.extent : Int) = o := by
  have hat : p.isJumpdest o = .ok true ↔ p.instructionAt o = .ok (some .jumpdest) := by
    unfold isJumpdest
    cases h : p.instructionAt o with
    | error e =>
      dsimp only
      split <;> simp
    | ok found =>
      cases found with
      | none => simp
      | some i => simpa using same_jumpdest_iff
  rw [hat, instructionAt_eq_some_iff]
  constructor
  · rintro ⟨ho, -, h⟩
    exact ⟨ho, h⟩
  · rintro ⟨ho, h⟩
    exact ⟨ho, rfl, h⟩

/-- The answer about jump destinations fails to come only where an instruction has no bytes
for a reason that is not forgiven, or where the offset is too long to be reported. -/
theorem isJumpdest_eq_ok {p : Program} {o : Int} (ho : Text.hasDecimal o = true)
    (hp : ∀ i ∈ p, ∀ e, i.encode = .error e → isForgiven e = true) :
    ∃ b, p.isJumpdest o = .ok b := by
  -- A report that can be worded is forgiven, and wording it needs no more than the offset.
  have hmalformed : ∀ fault e,
      (refuse (.malformedOffset o fault) : Except Error Program) = .error e →
        isForgiven e = true := by
    intro fault e h
    rw [refuse, show (Error.malformedOffset o fault).isShowable = true from ho, if_pos rfl] at h
    obtain rfl := Except.error.inj h
    rfl
  unfold isJumpdest
  cases h : p.instructionAt o with
  | ok found => cases found with
    | none => exact ⟨false, rfl⟩
    | some i => exact ⟨_, rfl⟩
  | error e =>
    have hdrop : p.dropBytes o = .error e := by
      unfold instructionAt at h
      cases hdrop : p.dropBytes o with
      | ok rest => rw [hdrop] at h; cases h
      | error e' =>
        rw [hdrop] at h
        exact congrArg Except.error (Except.error.inj h)
    have hforgiven : isForgiven e = true := by
      unfold dropBytes at hdrop
      split at hdrop
      · exact hmalformed .negative e hdrop
      · rcases walk_eq_error hdrop with ⟨fault, hfault⟩ | ⟨i, hi, he⟩
        · exact hmalformed fault e hfault
        · exact hp i hi e he
    exact ⟨false, if_pos hforgiven⟩

end EvmAssembler.Program
