import EvmAssembler.Proofs.Source.Below

/-!
# `EvmAssembler.Proofs.Source.Segments`: segments with a line below

`LineAt` and `SegmentAt` list what an instruction line and a segment may be made of. With them,
`segment_above` says that a segment with others behind it stays as it is when a line is put below
the text.

The argument goes from the parts to the whole. A command and a comment that are there are still
found, and a rejection of the line takes no more than before. What remains is a label without a
command: `command_above_eq_none` shows that what follows it, a comment or another label, does not
become a command by what the line below has to offer.
-/

set_option autoImplicit false

namespace EvmAssembler.Source

open Recogniser

/-! ### Statements in their parts -/

section
variable {p : Place} {line : List Char}

/-- What an instruction line at a place asks for, and how far it goes. -/
inductive LineAt (p : Place) : Finding → Nat → Prop where
  | labelOnly {a : Action} {n : Nat} : label p = some (a, n) → command (p.advance n) = none →
    LineAt p [.ok a] n
  | labelled {a : Action} {c : Except Error Action} {n m : Nat} : label p = some (a, n) →
    command (p.advance n) = some (c, m) → LineAt p [.ok a, c] (n + m)
  | commandOnly {c : Except Error Action} {n : Nat} : label p = none → command p = some (c, n) →
    LineAt p [c] n

/-- An instruction line is a label, a command, or one behind the other. -/
theorem instructionLine_eq_some_iff {found : Finding} {n : Nat} :
    instructionLine p = some (found, n) ↔ LineAt p found n := by
  constructor
  · intro h
    -- The label is tried first, and once it is there the line does not go back behind it.
    cases hlabel : label p with
    | none =>
      rw [instructionLine, orElse_eq_right _ (andThen_eq_none _ hlabel)] at h
      obtain ⟨c, hcommand, rfl⟩ := map_eq_some_iff.mp h
      exact .commandOnly hlabel hcommand
    | some labelled =>
      obtain ⟨a, k⟩ := labelled
      cases hcommand : command (p.advance k) with
      | none =>
        have hline : (label.andThen fun l => command.optional.map fun c =>
            (.ok l :: c.toList : Finding)) p = some ([.ok a], k) :=
          andThen_eq (m := 0) hlabel (map_eq _ (optional_eq_none hcommand))
        rw [instructionLine, orElse_eq_left hline] at h
        cases h
        exact .labelOnly hlabel hcommand
      | some behind =>
        obtain ⟨c, m⟩ := behind
        have hline : (label.andThen fun l => command.optional.map fun c =>
            (.ok l :: c.toList : Finding)) p = some ([.ok a, c], k + m) :=
          andThen_eq hlabel (map_eq _ (optional_eq hcommand))
        rw [instructionLine, orElse_eq_left hline] at h
        cases h
        exact .labelled hlabel hcommand
  · rintro (⟨hlabel, hcommand⟩ | ⟨hlabel, hcommand⟩ | ⟨hlabel, hcommand⟩)
    · exact orElse_eq_left (andThen_eq (m := 0) hlabel (map_eq _ (optional_eq_none hcommand)))
    · exact orElse_eq_left (andThen_eq hlabel (map_eq _ (optional_eq hcommand)))
    · rw [instructionLine, orElse_eq_right _ (andThen_eq_none _ hlabel)]
      exact map_eq _ hcommand

/-- A statement is an instruction line and a comment, if there is one. -/
theorem statement_eq_some_iff {found : Finding} {n : Nat} :
    statement p = some (found, n) ↔ ∃ k comment? m, LineAt p found k ∧
      comment.optional (p.advance k) = some (comment?, m) ∧ n = k + m := by
  constructor
  · intro h
    obtain ⟨actions, k, m, hline, hbehind, rfl⟩ := andThen_eq_some_iff.mp h
    obtain ⟨comment?, hcomment, rfl⟩ := map_eq_some_iff.mp hbehind
    exact ⟨k, comment?, m, instructionLine_eq_some_iff.mp hline, hcomment, rfl⟩
  · rintro ⟨k, comment?, m, hline, hcomment, rfl⟩
    exact andThen_eq (instructionLine_eq_some_iff.mpr hline) (map_eq _ hcomment)

/-- It asks for something in each case. -/
theorem LineAt.ne_nil {found : Finding} {n : Nat} (h : LineAt p found n) : found ≠ [] := by
  cases h <;> exact List.cons_ne_nil _ _

/-- Only its comment brings a slash into a statement. -/
theorem LineAt.takes {found : Finding} {n : Nat} (h : LineAt p found n) :
    '/' ∉ p.rest.take n ∧ (EndsWhole p.rest → n ≤ p.rest.length) := by
  have hlabel : ∀ {a : Action} {k : Nat}, label p = some (a, k) →
      k ≤ p.rest.length ∧ '/' ∉ p.rest.take k := by
    intro a k hfound
    obtain ⟨hle, hall⟩ := takes_label p a k hfound
    exact ⟨hle, fun hmem => hall _ hmem rfl⟩
  cases h with
  | labelOnly hfound _ => exact ⟨(hlabel hfound).2, fun _ => (hlabel hfound).1⟩
  | @labelled a c k m hfound hcommand =>
    obtain ⟨hle, hslash⟩ := hlabel hfound
    obtain ⟨hslash', hwhole⟩ := command_takes hcommand
    rw [Place.rest_advance] at hslash' hwhole
    refine ⟨?_, fun h => ?_⟩
    · rw [List.take_add, List.mem_append, not_or]
      exact ⟨hslash, hslash'⟩
    · have hm := hwhole (h.suffix (List.drop_suffix _ _))
      rw [List.length_drop] at hm
      omega
  | commandOnly _ hcommand => exact command_takes hcommand

/-! ### Segments by their kind -/

/-- A comment starts with two slashes. -/
theorem starts_of_comment {found : Unit × Nat} (hp : p.blanks = 0) (h : comment p = some found) :
    p.Starts '/' '/' := by
  obtain ⟨_, n, _, hmark, -, -⟩ := andThen_eq_some_iff.mp h
  rw [token_eq _ hp, exactly] at hmark
  split at hmark
  · rename_i htake
    have hsplit := @List.take_append_drop _ ['/', '/'].length p.rest
    rw [htake] at hsplit
    exact ⟨'/', '/', _, hsplit.symm, by decide, by decide, rfl, rfl⟩
  · cases hmark

/-- Where a comment is next, no command is. -/
theorem command_eq_none_of_comment {found : Unit × Nat} (h : comment p = some found) :
    command p = none := by
  rw [skipsFirst_comment p, Option.map_eq_some_iff] at h
  obtain ⟨found, hcomment, -⟩ := h
  rw [skipsFirst_command p,
    command_eq_none (starts_of_comment p.blanks_advance_blanks hcomment)]
  rfl

/-- What a segment may be, and that nothing else would take more. -/
inductive SegmentAt (p : Place) : SegmentKind → Finding → Nat → Prop where
  | statement {found : Finding} {n : Nat} : statement p = some (found, n) →
    (∀ text m, unknownLine p = some (text, m) → m ≤ n) → SegmentAt p .statement found n
  | comment {n : Nat} : comment p = some ((), n) → SegmentAt p .comment [] n
  | unknown {text : String} {n : Nat} : SegmentAt p .unknown [.ok (.unknown text)] n

/-- A segment is a statement, a comment or a rejected line, and a statement takes at least what a
rejection would. -/
theorem segmentAt_of_segment {kind : SegmentKind} {found : Finding} {n : Nat}
    (h : segment p = some ((kind, found), n)) : SegmentAt p kind found n := by
  rcases longer_eq_some h with ⟨hstatement, hothers⟩ | ⟨hothers, -⟩
  · obtain ⟨actions, hstatement, heq⟩ := map_eq_some_iff.mp hstatement
    cases heq
    refine .statement hstatement fun text m hunknown => ?_
    have hmapped := map_eq (fun text => (SegmentKind.unknown, ([.ok (.unknown text)] : Finding)))
      hunknown
    exact le_of_longer hmapped hothers
  rcases longer_eq_some hothers with ⟨hcomment, -⟩ | ⟨hunknown, -⟩
  · obtain ⟨⟨⟩, hfound, heq⟩ := map_eq_some_iff.mp hcomment
    cases heq
    exact .comment hfound
  · obtain ⟨text, -, heq⟩ := map_eq_some_iff.mp hunknown
    cases heq
    exact .unknown

/-- Where a statement does so, it is the segment. -/
theorem segment_of_statement {found : Finding} {n : Nat} (hp : p.blanks = 0)
    (h : statement p = some (found, n))
    (hunknown : ∀ text m, unknownLine p = some (text, m) → m ≤ n) :
    segment p = some ((.statement, found), n) := by
  have hcomment : comment p = none := by
    cases hfound : comment p with
    | none => rfl
    | some found =>
      rw [statement_eq_none (starts_of_comment hp hfound)] at h
      cases h
  refine longer_eq_of_le (map_eq _ h) ?_
  rw [longer_eq_right _ (map_eq_none _ hcomment)]
  intro found m hfound
  obtain ⟨text, hfound, -⟩ := map_eq_some_iff.mp hfound
  exact hunknown text m hfound

/-! ### Statements with a line below -/

/-- A comment that is still to come is not among the blanks. -/
theorem Place.Parted.advance_blanks (h : p.Parted line) : (p.advance p.blanks).Parted line := by
  refine h.imp_left fun hslash => ?_
  rw [← List.take_append_drop p.blanks p.rest, List.mem_append, p.take_blanks] at hslash
  refine hslash.resolve_left fun hmem => ?_
  exact ne_slash_of_isSkipped _ (List.mem_takeWhile_imp hmem) rfl

/-- A label is found behind the blanks in front of its name. -/
theorem skipsFirst_label : label.SkipsFirst :=
  (skipsFirst_token _).andThen _

/-- Where a comment or a label is next, no command starts to be found. -/
theorem command_above_eq_none (hp : ¬p.AtEnd) (hparted : p.Parted line)
    (hnone : command p = none) (h : comment p ≠ none ∨ label p ≠ none) :
    command (p.above line) = none := by
  rcases h with hcomment | hlabel
  · obtain ⟨found, hfound⟩ := Option.ne_none_iff_exists'.mp hcomment
    exact command_eq_none_of_comment ((keeps_comment hp).trans hfound)
  · -- Only a push or a byte could start to be found, and a label rules out both.
    have hvisible := Place.visible_advance_blanks hp
    obtain ⟨found, hfound⟩ := Option.ne_none_iff_exists'.mp hlabel
    rw [skipsFirst_label p, Option.map_eq_some_iff] at hfound
    obtain ⟨⟨a, n⟩, hfound, -⟩ := hfound
    have hover := (keeps_label hvisible.not_atEnd hparted.advance_blanks).trans hfound
    have hblanks := (hvisible.above line).blanks_eq_zero
    rw [skipsFirst_command p, Option.map_eq_none_iff] at hnone
    rw [eq_above_advance_blanks skipsFirst_command hp]
    rw [hvisible.misses_command (push_eq_none_of_label hblanks hover)
      (byte_eq_none_of_label hblanks hover) hnone]
    rfl

/-- An instruction line in front of the line below stays as it is, unless it is a label that is
given a command there. -/
theorem LineAt.above {found : Finding} {n : Nat} (hp : ¬p.AtEnd) (h : LineAt p found n)
    (hle : n ≤ p.rest.length) (hparted : (p.advance n).Parted line)
    (hlabel : ∀ a, label p = some (a, n) → command (p.advance n) = none →
      command ((p.advance n).above line) = none) : LineAt (p.above line) found n := by
  have hkeeps := keeps_label hp hparted.of_advance
  cases h with
  | labelOnly hfound hcommand =>
    refine .labelOnly (hkeeps.trans hfound) ?_
    rw [Place.above_advance line hle]
    exact hlabel _ hfound hcommand
  | @labelled a c k m hfound hcommand =>
    refine .labelled (hkeeps.trans hfound) ?_
    rw [Place.above_advance line (by omega)]
    rw [← Place.advance_advance] at hparted
    refine finds_command c m hcommand ?_ hparted
    rw [Place.rest_advance, List.length_drop]
    omega
  | commandOnly hnone hcommand =>
    exact .commandOnly (hkeeps.trans hnone) (finds_command _ n hcommand hle hparted)

/-- A statement with more of the text behind its line stays as it is. -/
theorem statement_above {found : Finding} {comment? : Option Unit} {n m : Nat} (hp : ¬p.AtEnd)
    (hline : LineAt p found n) (hcomment : comment.optional (p.advance n) = some (comment?, m))
    (hmore : ¬(p.advance n).AtEnd) (hparted : (p.advance n).Parted line)
    (hlabel : ∀ a, label p = some (a, n) → command (p.advance n) = none →
      comment (p.advance n) ≠ none ∨ label (p.advance n) ≠ none) :
    statement (p.above line) = some (found, n + m) := by
  have hlt := Place.lt_length_of_not_atEnd hmore
  refine statement_eq_some_iff.mpr ⟨n, comment?, m, ?_, ?_, rfl⟩
  · refine hline.above hp (Nat.le_of_lt hlt) hparted fun a hnamed hnone => ?_
    exact command_above_eq_none hmore hparted hnone (hlabel a hnamed hnone)
  · rw [Place.above_advance line (Nat.le_of_lt hlt)]
    exact (keeps_comment hmore).optional.trans hcomment

/-- So does a comment. -/
theorem keeps_segment_of_comment {found : Unit × Nat} (hp : p.Visible)
    (h : comment p = some found) : segment.Keeps p line := by
  have hover : comment (p.above line) = some found := (keeps_comment hp.not_atEnd).trans h
  have hnone := statement_eq_none (starts_of_comment hp.blanks_eq_zero h)
  have hnone' := statement_eq_none (starts_of_comment (hp.above line).blanks_eq_zero hover)
  rw [Keeps, segment, longer_eq_right _ (map_eq_none _ hnone),
    longer_eq_right _ (map_eq_none _ hnone')]
  exact ((keeps_comment hp.not_atEnd).map _).longer ((keeps_unknownLine hp.not_atEnd).map _)

/-- A statement found with the line below wins as it did without. -/
theorem segment_above_of_statement {found : Finding} {n m : Nat} (hp : p.Visible)
    (h : statement (p.above line) = some (found, m))
    (hunknown : ∀ text k, unknownLine p = some (text, k) → k ≤ n) (hle : n ≤ m) :
    segment (p.above line) = some ((.statement, found), m) := by
  refine segment_of_statement (hp.above line).blanks_eq_zero h fun text k hfound => ?_
  exact Nat.le_trans (hunknown text k ((keeps_unknownLine hp.not_atEnd).symm.trans hfound)) hle

/-- A segment that is not the last of its text stays as it is. -/
theorem segment_above {kind : SegmentKind} {found : Finding} {n : Nat} (hp : p.Visible)
    (h : segment p = some ((kind, found), n)) (hknown : ∀ text, .ok (.unknown text) ∉ found)
    (hnext : ¬(p.advance n).AtEnd) (hparted : (p.advance n).Parted line)
    (hfollow : ∃ kind' found' n', segment (p.advance n) = some ((kind', found'), n') ∧
      ∀ text, .ok (.unknown text) ∉ found') :
    segment (p.above line) = some ((kind, found), n) := by
  cases segmentAt_of_segment h with
  | unknown => exact absurd List.mem_cons_self (hknown _)
  | comment hcomment => exact (keeps_segment_of_comment hp hcomment).trans h
  | statement hstatement hunknown =>
    obtain ⟨k, comment?, m, hline, hcomment, rfl⟩ := statement_eq_some_iff.mp hstatement
    rw [← Place.advance_advance] at hnext hparted hfollow
    have hmore : ¬(p.advance k).AtEnd := fun hend => hnext (hend.advance m)
    refine segment_above_of_statement hp ?_ hunknown (Nat.le_refl _)
    refine statement_above hp.not_atEnd hline hcomment hmore hparted.of_advance fun _ _ hnone => ?_
    -- If it is no comment that follows a lone label, it is a statement that starts with a label.
    by_contra hneither
    rw [not_or, not_not, not_not] at hneither
    rw [optional_eq_none hneither.1] at hcomment
    cases hcomment
    obtain ⟨kind', found', n', hsegment, hknown'⟩ := hfollow
    cases segmentAt_of_segment hsegment with
    | unknown => exact hknown' _ List.mem_cons_self
    | comment hcomment =>
      rw [Place.advance_zero, hneither.1] at hcomment
      cases hcomment
    | statement hstatement _ =>
      obtain ⟨_, _, _, hbehind, -, -⟩ := statement_eq_some_iff.mp hstatement
      rw [Place.advance_zero] at hbehind
      cases hbehind with
      | labelOnly hfound _ =>
        rw [hneither.2] at hfound
        cases hfound
      | labelled hfound _ =>
        rw [hneither.2] at hfound
        cases hfound
      | commandOnly _ hfound =>
        rw [hnone] at hfound
        cases hfound

end

end EvmAssembler.Source
