import EvmAssembler.Proofs.Jumps
import EvmAssembler.Proofs.Navigation.Landing

/-!
# `EvmAssembler.Proofs.Navigation.Listing`: the listing as a map for walks

A listing adds sizes up from the front, and a walk takes them away from the offset it has to reach.
`Program.navigation_of_listing` says that the two agree on every encodable program: a walk arrives
at exactly the offsets that the listing shows, and at the end, and what is found there is what the
listing pairs with the offset. Several rows may share an offset. They are annotations, but for the
last, which is the instruction they belong to. At the end there is no such instruction.

* `paired_rowsFrom`: the rows with the first offset of a program are its leading annotations and
  its first instruction. Whatever comes later has a larger offset (`le_of_mem_rowsFrom`).
* `walk_cases`: a walk to a shown offset arrives, and any other is malformed.
* `paired_of_walk`: what a walk has left starts with what is paired with its offset.
* `allHold_eq_iff`: the answer about annotations is that of the first that does not hold.
-/

set_option autoImplicit false

namespace EvmAssembler

/-! ### Asking predicates in order -/

/-- The answer to whether predicates hold: the first that does not hold decides, be it that it is
not fulfilled or that it fails. -/
inductive Verdict (state : Datum) (notes : List Predicate) : Except Error Bool → Prop where
  | holds : (∀ a ∈ notes, a.holds state = .ok true) → Verdict state notes (.ok true)
  | unfulfilled {before after : List Predicate} {a : Predicate} : notes = before ++ a :: after →
    (∀ b ∈ before, b.holds state = .ok true) → a.holds state = .ok false →
      Verdict state notes (.ok false)
  | fails {before after : List Predicate} {a : Predicate} {e : Error} :
    notes = before ++ a :: after → (∀ b ∈ before, b.holds state = .ok true) →
      a.holds state = .error e → Verdict state notes (.error e)

/-- A predicate that holds leaves the answer to those behind it. -/
theorem verdict_cons_iff {state : Datum} {a : Predicate} {notes : List Predicate}
    (ha : a.holds state = .ok true) {r : Except Error Bool} :
    Verdict state (a :: notes) r ↔ Verdict state notes r := by
  -- Whatever decides is not `a`, so it stands behind `a`.
  have hsplit : ∀ {before after : List Predicate} {b : Predicate},
      a :: notes = before ++ b :: after → (∀ c ∈ before, c.holds state = .ok true) →
        b.holds state ≠ .ok true →
        ∃ rest, notes = rest ++ b :: after ∧ ∀ c ∈ rest, c.holds state = .ok true := by
    intro before after b heq hbefore hb
    cases before with
    | nil =>
      obtain ⟨rfl, -⟩ := List.cons.inj heq
      exact absurd ha hb
    | cons c rest =>
      obtain ⟨rfl, rfl⟩ := List.cons.inj heq
      exact ⟨rest, rfl, fun d hd => hbefore d (List.mem_cons_of_mem _ hd)⟩
  have hbehind : ∀ {before : List Predicate}, (∀ c ∈ before, c.holds state = .ok true) →
      ∀ c ∈ a :: before, c.holds state = .ok true := by
    intro before hbefore c hc
    rcases List.mem_cons.mp hc with rfl | hc
    · exact ha
    · exact hbefore c hc
  constructor
  · intro h
    cases h with
    | holds hall => exact .holds fun b hb => hall b (List.mem_cons_of_mem a hb)
    | unfulfilled heq hbefore hb =>
      obtain ⟨rest, hrest, hholds⟩ := hsplit heq hbefore (by rw [hb]; nofun)
      exact .unfulfilled hrest hholds hb
    | fails heq hbefore hb =>
      obtain ⟨rest, hrest, hholds⟩ := hsplit heq hbefore (by rw [hb]; nofun)
      exact .fails hrest hholds hb
  · intro h
    cases h with
    | holds hall => exact .holds (hbehind hall)
    | @unfulfilled before after b heq hbefore hb =>
      exact .unfulfilled (by rw [heq, List.cons_append]) (hbehind hbefore) hb
    | @fails before after b e heq hbefore hb =>
      exact .fails (by rw [heq, List.cons_append]) (hbehind hbefore) hb

/-- A predicate that does not hold decides for all behind it. -/
theorem verdict_cons_iff_of_ne {state : Datum} {a : Predicate} {notes : List Predicate}
    (ha : a.holds state ≠ .ok true) {r : Except Error Bool} :
    Verdict state (a :: notes) r ↔ a.holds state = r := by
  have hfirst : ∀ {before after : List Predicate} {b : Predicate},
      a :: notes = before ++ b :: after → (∀ c ∈ before, c.holds state = .ok true) → a = b := by
    intro before after b heq hbefore
    cases before with
    | nil => exact (List.cons.inj heq).1
    | cons c rest =>
      obtain ⟨rfl, -⟩ := List.cons.inj heq
      exact absurd (hbefore a List.mem_cons_self) ha
  constructor
  · intro h
    cases h with
    | holds hall => exact hall a List.mem_cons_self
    | unfulfilled heq hbefore hb => rwa [hfirst heq hbefore]
    | fails heq hbefore hb => rwa [hfirst heq hbefore]
  · rintro rfl
    have hnone : ∀ b ∈ ([] : List Predicate), b.holds state = .ok true := by simp
    cases hr : a.holds state with
    | error e => exact .fails (List.nil_append _).symm hnone hr
    | ok b =>
      cases b with
      | false => exact .unfulfilled (List.nil_append _).symm hnone hr
      | true => exact absurd hr ha

namespace Program

/-- The check of annotations comes to its verdict on them, and to no other. -/
theorem allHold_eq_iff {state : Datum} {notes : List Predicate} {r : Except Error Bool} :
    allHold state notes = r ↔ Verdict state notes r := by
  induction notes with
  | nil =>
    constructor
    · rintro rfl
      exact .holds (by simp)
    · intro h
      cases h with
      | holds => rfl
      | unfulfilled heq => simp at heq
      | fails heq => simp at heq
  | cons a notes ih =>
    rw [allHold]
    by_cases ha : a.holds state = .ok true
    · rw [verdict_cons_iff ha, ← ih, ha]
      rfl
    · rw [verdict_cons_iff_of_ne ha]
      cases hr : a.holds state with
      | error e => rfl
      | ok b =>
        cases b with
        | false => rfl
        | true => exact absurd hr ha

/-! ### Rows that share an offset -/

/-- The instructions that the rows of a listing pair with an offset, in order. -/
def paired (offset : Int) (rows : List (Nat × Instruction)) : List Instruction :=
  (rows.filter fun row => row.1 = offset).map Prod.snd

section
variable {n : Nat} {offset : Int}

/-- A row at the offset is paired with it. -/
theorem paired_cons_of_eq (h : n = offset) (i : Instruction) (rows : List (Nat × Instruction)) :
    paired offset ((n, i) :: rows) = i :: paired offset rows := by
  rw [paired, List.filter_cons_of_pos (by simpa using h)]
  rfl

/-- A row elsewhere is passed over. -/
theorem paired_cons_of_ne (h : n ≠ offset) (i : Instruction) (rows : List (Nat × Instruction)) :
    paired offset ((n, i) :: rows) = paired offset rows := by
  rw [paired, List.filter_cons_of_neg (by simpa using h)]
  rfl

end

/-- No row stands before the first. -/
theorem le_of_mem_rowsFrom {p : Program} {offset : Nat} {row : Nat × Instruction}
    (h : row ∈ p.rowsFrom offset) : offset ≤ row.1 := by
  induction p generalizing offset with
  | nil => cases h
  | cons i p ih =>
    rcases List.mem_cons.mp h with rfl | h
    · exact Nat.le_refl offset
    · exact Nat.le_trans (Nat.le_add_right offset i.extent) (ih h)

/-- No row stands in front of the offset at which the program starts. -/
theorem paired_eq_nil {p : Program} {offset n : Nat} (h : n < offset) :
    paired n (p.rowsFrom offset) = [] := by
  have hnone : ((p.rowsFrom offset).filter fun row => (row.1 : Int) = n) = [] := by
    rw [List.filter_eq_nil_iff]
    intro row hrow
    have := le_of_mem_rowsFrom hrow
    simp only [decide_eq_true_eq]
    omega
  rw [paired, hnone, List.map_nil]

/-- The annotations a program starts with and the instruction behind them. -/
def opening (p : Program) : List Instruction :=
  p.takeWhile Instruction.isAssertion ++ p.first?.toList

/-- The rows with the first offset are those of the opening. -/
theorem paired_rowsFrom (offset : Nat) (p : Program) :
    paired offset (p.rowsFrom offset) = p.opening := by
  induction p with
  | nil => rfl
  | cons i p ih =>
    rw [rowsFrom_cons, paired_cons_of_eq rfl, opening, first?_cons, List.takeWhile_cons]
    cases h : i.isAssertion with
    | true =>
      rw [(encodable_of_isAssertion h).2, Nat.add_zero, ih]
      rfl
    | false =>
      have := Instruction.extent_pos h
      rw [paired_eq_nil (by omega)]
      rfl

/-! ### Walks to the offsets of rows -/

/-- The listing shows the offset: it is that of a row or that of the end. -/
def Shows (p : Program) (start offset : Nat) : Prop :=
  offset = start + p.extent ∨ ∃ row ∈ p.rowsFrom start, row.1 = offset

/-- Behind its first offset, a listing shows what it shows without its first row. -/
theorem shows_cons_iff {i : Instruction} {p : Program} {start offset : Nat} (h : start < offset) :
    Shows (i :: p) start offset ↔ Shows p (start + i.extent) offset := by
  rw [Shows, Shows, extent_cons, rowsFrom_cons, Nat.add_assoc]
  refine or_congr_right ⟨?_, ?_⟩
  · rintro ⟨row, hrow, rfl⟩
    rcases List.mem_cons.mp hrow with rfl | hrow
    · exact absurd h (Nat.lt_irrefl _)
    · exact ⟨row, hrow, rfl⟩
  · rintro ⟨row, hrow, hoffset⟩
    exact ⟨row, List.mem_cons_of_mem _ hrow, hoffset⟩

/-- A listing shows no offset in front of its start. -/
theorem Shows.le {p : Program} {start offset : Nat} (h : p.Shows start offset) :
    start ≤ offset := by
  rcases h with rfl | ⟨row, hrow, rfl⟩
  · exact Nat.le_add_right start _
  · exact le_of_mem_rowsFrom hrow

/-- It shows its start, be it that of a row or, where there are none, the end. -/
theorem shows_self (p : Program) (start : Nat) : p.Shows start start := by
  cases p with
  | nil => exact Or.inl rfl
  | cons i p => exact Or.inr ⟨(start, i), List.mem_cons_self, rfl⟩

/-- A walk over an encodable program arrives at the offsets that its listing shows. All others are
malformed. -/
theorem walk_cases {p : Program} (h : p.Encodable) (o : Int) (start left : Nat) :
    p.Shows start (start + left) ∧ (∃ rest, walk o left p = .ok rest) ∨
      ¬p.Shows start (start + left) ∧
        ∃ fault, walk o left p = refuse (.malformedOffset o fault) := by
  induction p generalizing start left with
  | nil =>
    cases left with
    | zero => exact Or.inl ⟨shows_self [] start, [], by rw [walk]⟩
    | succ left =>
      refine Or.inr ⟨?_, .pastEnd, by rw [walk]⟩
      rintro (heq | ⟨row, hrow, -⟩)
      · rw [extent_nil] at heq
        omega
      · cases hrow
  | cons i p ih =>
    obtain ⟨hi, hp⟩ := encodable_cons.mp h
    cases left with
    | zero => exact Or.inl ⟨shows_self _ start, i :: p, by rw [walk]⟩
    | succ left =>
      rw [walk_cons hi (Nat.succ_pos left), shows_cons_iff (by omega)]
      by_cases hlt : left + 1 < i.extent
      · rw [if_pos hlt]
        refine Or.inr ⟨fun hshows => ?_, .insideInstruction, rfl⟩
        have := hshows.le
        omega
      · -- The instruction is passed, and the rest of the program is listed from behind it.
        rw [if_neg hlt]
        have hrest := ih hp (start + i.extent) (left + 1 - i.extent)
        rwa [show start + i.extent + (left + 1 - i.extent) = start + (left + 1) by omega] at hrest

/-- What a walk has left opens with the instructions that the listing pairs with its offset. -/
theorem paired_of_walk {p rest : Program} (h : p.Encodable) {o : Int} {start left : Nat}
    (hwalk : walk o left p = .ok rest) :
    paired (start + left : Nat) (p.rowsFrom start) = rest.opening := by
  induction p generalizing start left with
  | nil =>
    cases left with
    | zero =>
      rw [walk] at hwalk
      obtain rfl := Except.ok.inj hwalk
      rfl
    | succ left => rw [walk] at hwalk; cases hwalk
  | cons i p ih =>
    -- The walk passes the instruction, whose row is at a smaller offset, or stops in front of it.
    obtain ⟨hi, hp⟩ := encodable_cons.mp h
    cases left with
    | zero =>
      rw [walk] at hwalk
      obtain rfl := Except.ok.inj hwalk
      exact paired_rowsFrom start (i :: p)
    | succ left =>
      rw [walk_cons hi (Nat.succ_pos left)] at hwalk
      split at hwalk
      · cases hwalk
      · rename_i hle
        have hrest := @ih hp (start + i.extent) _ hwalk
        rw [show start + i.extent + (left + 1 - i.extent) = start + (left + 1) by omega] at hrest
        rw [rowsFrom_cons, paired_cons_of_ne (by omega), hrest]

/-- A walk takes as many bytes off a program as it was told to. -/
theorem extent_of_walk {p rest : Program} (h : p.Encodable) {o : Int} {left : Nat}
    (hwalk : walk o left p = .ok rest) : p.extent = left + rest.extent := by
  induction p generalizing left with
  | nil =>
    cases left with
    | zero =>
      rw [walk] at hwalk
      obtain rfl := Except.ok.inj hwalk
      rfl
    | succ left => rw [walk] at hwalk; cases hwalk
  | cons i p ih =>
    obtain ⟨hi, hp⟩ := encodable_cons.mp h
    cases left with
    | zero =>
      rw [walk] at hwalk
      obtain rfl := Except.ok.inj hwalk
      exact (Nat.zero_add _).symm
    | succ left =>
      rw [walk_cons hi (Nat.succ_pos left)] at hwalk
      split at hwalk
      · cases hwalk
      · have := ih hp hwalk
        rw [extent_cons]
        omega

/-- A program without a first instruction takes no bytes. -/
theorem first?_eq_none_iff {p : Program} : p.first? = none ↔ p.extent = 0 := by
  induction p with
  | nil => simp [first?]
  | cons i p ih =>
    rw [first?_cons, extent_cons]
    cases h : i.isAssertion with
    | true => rw [(encodable_of_isAssertion h).2, Nat.zero_add, ← ih]; rfl
    | false =>
      have := Instruction.extent_pos h
      simp
      omega

/-! ### What the opening holds -/

/-- The instruction found in front is the one in the opening that is no annotation. -/
theorem filter_opening (p : Program) :
    (p.opening.filter fun i => !i.isAssertion) = p.first?.toList := by
  induction p with
  | nil => rfl
  | cons i p ih =>
    rw [opening, first?_cons, List.takeWhile_cons]
    cases h : i.isAssertion with
    | true => simpa [opening, h] using ih
    | false => simp [h]

/-- The annotations found in front are those of the opening. -/
theorem filterMap_opening (p : Program) :
    p.opening.filterMap Instruction.predicate? = p.leadingAnnotations := by
  induction p with
  | nil => rfl
  | cons i p ih =>
    rw [opening, first?_cons, leadingAnnotations, List.takeWhile_cons]
    cases i with
    | assertion a => exact congrArg (a :: ·) ih
    | _ => rfl

/-! ### Listing and navigation -/

/-- On an encodable program, listing and navigation agree. At an offset that the listing shows, and
at the end, the instruction found is the only one that the listing pairs with the offset,
annotations aside, and there is none exactly at the end. The annotations found are those that the
listing pairs with the offset, in order, and the answer about them is that of the first that does
not hold. At all other offsets each of the three reports the offset as malformed. -/
theorem navigation_of_listing {p : Program} (h : p.Encodable) (o : Int) :
    ∃ rows size, p.listing = .ok rows ∧ p.size = .ok size ∧
      ((o = size ∨ ∃ row ∈ rows, row.1 = o) → ∃ found notes,
        p.instructionAt o = .ok found ∧ p.annotationsAt o = .ok notes ∧
          (paired o rows).filter (fun i => !i.isAssertion) = found.toList ∧
          (found = none ↔ o = size) ∧
          (paired o rows).filterMap Instruction.predicate? = notes ∧
          ∀ state r, p.checkAnnotations o state = r ↔ Verdict state notes r) ∧
      (¬(o = size ∨ ∃ row ∈ rows, row.1 = o) → Text.hasDecimal o = true → ∃ fault,
        p.instructionAt o = .error (.malformedOffset o fault) ∧
          p.annotationsAt o = .error (.malformedOffset o fault) ∧
          ∀ state, p.checkAnnotations o state = .error (.malformedOffset o fault)) := by
  refine ⟨p.rowsFrom 0, p.extent, listing_eq_rows h, size_eq_extent h, ?_, ?_⟩
  · -- What the listing shows is no negative number, so there is a walk, and it arrives.
    intro hshown
    obtain ⟨n, rfl⟩ : ∃ n : Nat, o = n := by
      rcases hshown with hsize | ⟨row, -, hrow⟩
      · exact ⟨_, hsize⟩
      · exact ⟨_, hrow.symm⟩
    have hshows : p.Shows 0 (0 + n) := by
      rw [Shows, Nat.zero_add, Nat.zero_add]
      exact_mod_cast hshown
    obtain ⟨-, rest, hwalk⟩ | ⟨hnot, -⟩ := walk_cases h n 0 n
    · have hdrop : p.dropBytes n = .ok rest := by
        rw [dropBytes, if_neg (by omega), Int.toNat_natCast, hwalk]
      have hpaired : paired n (p.rowsFrom 0) = rest.opening := by
        have hstart := @paired_of_walk p rest h n 0 n hwalk
        rwa [Nat.zero_add] at hstart
      have hextent := extent_of_walk h hwalk
      have hat : p.annotationsAt n = .ok rest.leadingAnnotations := by
        rw [annotationsAt, hdrop]
        rfl
      refine ⟨rest.first?, rest.leadingAnnotations, by rw [instructionAt, hdrop]; rfl, hat, ?_, ?_,
        ?_, fun state r => ?_⟩
      · rw [hpaired, filter_opening]
      · rw [first?_eq_none_iff]
        omega
      · rw [hpaired, filterMap_opening]
      · rw [checkAnnotations, hat, except_bind_ok, allHold_eq_iff]
    · exact absurd hshows hnot
  · -- Anything else is negative, or there is a walk that does not arrive.
    intro hnot ho
    have hdrop : ∃ fault, p.dropBytes o = .error (.malformedOffset o fault) := by
      rw [dropBytes]
      by_cases hneg : o < 0
      · rw [if_pos hneg]
        exact ⟨.negative, refuse_malformedOffset ho .negative⟩
      · rw [if_neg hneg]
        obtain ⟨hshows, -⟩ | ⟨-, fault, hwalk⟩ := walk_cases h o 0 o.toNat
        · rw [Shows, Nat.zero_add, Nat.zero_add] at hshows
          refine absurd ?_ hnot
          rcases hshows with hsize | ⟨row, hrow, hoffset⟩
          · exact Or.inl (by omega)
          · exact Or.inr ⟨row, hrow, by omega⟩
        · exact ⟨fault, by rw [hwalk, refuse_malformedOffset ho fault]⟩
    obtain ⟨fault, hdrop⟩ := hdrop
    have hat : p.annotationsAt o = .error (.malformedOffset o fault) := by
      rw [annotationsAt, hdrop]
      rfl
    exact ⟨fault, by rw [instructionAt, hdrop]; rfl, hat, fun state => by
      rw [checkAnnotations, hat]; rfl⟩

/-- A push, an addition of which two things are asserted, and an assertion at the end. -/
def guarded : Program :=
  [.push [0x01], .assertion (.above 0 "positive" (.int 0)), .assertion (.even 1 "even"),
    .ofOpcode .ADD, .assertion (.const 2 "done" (.bool true))]

/-- The addition is found behind its annotations, the odd state is refused by the second of them, an
annotation stands at the end and no instruction, and nothing stands inside the push. -/
theorem navigation_of_listing_guarded :
    guarded.Encodable ∧ Text.hasDecimal 1 = true ∧
      guarded.instructionAt 2 = .ok (some (.ofOpcode .ADD)) ∧
      guarded.annotationsAt 2 = .ok [.above 0 "positive" (.int 0), .even 1 "even"] ∧
      guarded.checkAnnotations 2 (.int 3) = .ok false ∧
      guarded.instructionAt 3 = .ok none ∧
      guarded.annotationsAt 3 = .ok [.const 2 "done" (.bool true)] ∧
      ∃ fault, guarded.checkAnnotations 1 (.int 3) = .error (.malformedOffset 1 fault) := by
  have hencodable : guarded.Encodable := encodable_iff_exists_code.mpr ⟨[0x60, 0x01, 0x01], rfl⟩
  have hshow : Text.hasDecimal 1 = true := @Text.hasDecimal_of_natAbs_lt 1 1 (by decide) (by decide)
  have hlisting : guarded.listing = .ok (guarded.rowsFrom 0) := rfl
  have hsize : guarded.size = .ok 3 := rfl
  obtain ⟨rows1, size1, hrows1, hsize1, -, hoff⟩ := navigation_of_listing hencodable 1
  obtain ⟨rows2, size2, hrows2, hsize2, hat2, -⟩ := navigation_of_listing hencodable 2
  obtain ⟨rows3, size3, hrows3, hsize3, hat3, -⟩ := navigation_of_listing hencodable 3
  obtain rfl := Except.ok.inj (hlisting.symm.trans hrows1)
  obtain rfl := Except.ok.inj (hlisting.symm.trans hrows2)
  obtain rfl := Except.ok.inj (hlisting.symm.trans hrows3)
  obtain rfl := Except.ok.inj (hsize.symm.trans hsize1)
  obtain rfl := Except.ok.inj (hsize.symm.trans hsize3)
  obtain ⟨fault, -, -, hfault⟩ :=
    hoff (by simp [guarded, rowsFrom, Instruction.extent, Instruction.ofOpcode]) hshow
  obtain ⟨found, notes, hfound, hnotes, hproper, -, hpaired, hcheck⟩ :=
    hat2 (Or.inr ⟨(2, .ofOpcode .ADD), by simp [guarded, rowsFrom, Instruction.extent], rfl⟩)
  obtain ⟨last, endNotes, hlast, hendNotes, -, hend, hendPaired, -⟩ := hat3 (Or.inl rfl)
  obtain rfl : found = some (.ofOpcode .ADD) := Option.toList_eq_singleton_iff.mp hproper.symm
  obtain rfl : last = none := hend.mpr rfl
  subst hpaired hendPaired
  refine ⟨hencodable, hshow, hfound, hnotes, (hcheck _ _).mpr ?_, hlast, hendNotes, fault, hfault _⟩
  exact @Verdict.unfulfilled _ _ [.above 0 "positive" (.int 0)] _ _ rfl (by simp; rfl) rfl

end Program

end EvmAssembler
