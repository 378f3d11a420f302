import EvmAssembler.Proofs.Source.Tabs
import EvmAssembler.Proofs.Source.Unreadable
import EvmAssembler.Proofs.Source.Written

/-!
# `EvmAssembler.Proofs.Source.Cover`: no character is passed over

`Covers text segs left` says that a text is made of segments one behind the other, with what is
left over at its end. In front of each there are only skipped characters, and each accounts for
all of its own: a statement writes what it asks for, a comment and a rejected line go on to where
their line ends. `covers_segmentsFrom` says this of any text. `accounts_of_segment` is its step,
one kind of segment at a time, and the induction is along the segments.

What remains is that nothing shows in what is left over, and that each finding is an action.
`Unreadable` has the reasons against it: white space that is not skipped, and an index of too many
digits. `IndicesFit` excludes the latter, and `indicesFit_of_digits` says that it is enough to look
at the digits of the text.
-/

set_option autoImplicit false

namespace EvmAssembler.Source

open Recogniser

/-! ### What a segment accounts for -/

/-- The line ends here: nothing follows, or a line feed does. -/
def LineEnds (after : List Char) : Prop :=
  ∀ c ∈ after.head?, c = '\n'

/-- A part of a line in front of the given text: it starts with a character that is not skipped
and goes on to the last one of its line that is not white space. -/
structure IsRejected (text after : List Char) : Prop where
  oneLine : '\n' ∉ text
  first : ∃ c ∈ text.head?, Text.isSkipped c = false
  last : ∃ c ∈ text.getLast?, Text.isBlank c = false
  rest : ∀ c ∈ after.takeWhile (· != '\n'), Text.isBlank c = true

/-- All characters of a segment in front of the given text are there for what it asks for. -/
inductive Segment.Accounts (s : Segment) (after : List Char) : Prop where
  /-- There is no slash in a statement but in a comment at its end. -/
  | statement : s.kind = .statement → StatementText s.actions s.text →
    ('/' ∈ s.text → LineEnds after) → s.Accounts after
  | comment : s.kind = .comment → s.actions = [] → CommentText s.text → LineEnds after →
    s.Accounts after
  | unknown : s.kind = .unknown → s.actions = [.ok (.unknown (String.ofList s.text))] →
    IsRejected s.text after → s.Accounts after

/-- The text is made of the segments, one behind the other, and of what is left over. -/
inductive Covers : List Char → List Segment → List Char → Prop where
  | done {left : List Char} : Covers left [] left
  | next {s : Segment} {segs : List Segment} {rest left : List Char} : IsGap s.gap →
    s.Accounts rest → Covers rest segs left → Covers (s.gap ++ s.text ++ rest) (s :: segs) left

section
variable {text left : List Char} {segs : List Segment}

/-- What is left over stands at the end of the text. -/
theorem Covers.suffix (h : Covers text segs left) : left <:+ text := by
  induction h with
  | done => exact List.suffix_refl _
  | next _ _ _ ih => exact ih.trans (List.suffix_append _ _)

/-- Every segment is a part of the text, and accounts for its own characters. -/
theorem Covers.of_mem (h : Covers text segs left) {s : Segment} (hs : s ∈ segs) :
    s.text <:+: text ∧ ∃ after, s.Accounts after := by
  induction h with
  | done => cases hs
  | @next s' segs rest left _ haccounts _ ih =>
    rcases List.mem_cons.mp hs with rfl | hs
    · exact ⟨⟨s.gap, rest, rfl⟩, rest, haccounts⟩
    · obtain ⟨hpart, hafter⟩ := ih hs
      exact ⟨hpart.trans (List.suffix_append _ _).isInfix, hafter⟩

end

/-! ### One segment -/

section
variable {p : Place} {n : Nat}

/-- At a character that is not skipped there is no gap. -/
theorem Place.Visible.of_spaced {P : List Char → Prop} (hp : p.Visible)
    (h : Spaced P (p.rest.take n)) : P (p.rest.take n) := by
  obtain ⟨gap, word, heq, hgap, hword⟩ := h
  obtain ⟨c, rest, hrest, hc⟩ := hp
  cases gap with
  | nil =>
    rw [heq]
    exact hword
  | cons d gap =>
    have hd : p.rest.head? = some d := by
      rw [← List.take_append_drop n p.rest, heq]
      rfl
    rw [hrest] at hd
    cases hd
    rw [hgap c List.mem_cons_self] at hc
    cases hc

/-- A comment goes to the end of its line. -/
theorem lineEnds_of_comment {found : Unit} (h : comment p = some (found, n)) :
    LineEnds (p.rest.drop n) := by
  rw [skipsFirst_comment p, Option.map_eq_some_iff] at h
  obtain ⟨⟨⟨⟩, m⟩, hcomment, heq⟩ := h
  obtain ⟨-, rfl⟩ := Prod.mk.inj heq
  have hm := length_comment p.blanks_advance_blanks hcomment
  rw [← List.drop_drop, ← Place.rest_advance, hm, drop_length_takeWhile]
  intro c hc
  have hhead := List.head?_dropWhile_not (· != '\n') (p.advance p.blanks).rest
  rw [Option.mem_def.mp hc] at hhead
  simpa using hhead

/-- A slash in a statement starts the comment at its end. -/
theorem lineEnds_of_statement {found : Finding} (h : statement p = some (found, n))
    (hslash : '/' ∈ p.rest.take n) : LineEnds (p.rest.drop n) := by
  obtain ⟨k, comment?, m, hline, hcomment, rfl⟩ := statement_eq_some_iff.mp h
  rcases optional_eq_some hcomment with ⟨_, hfound, -⟩ | ⟨-, -, rfl⟩
  · rw [← List.drop_drop, ← Place.rest_advance]
    exact lineEnds_of_comment hfound
  · exact absurd hslash hline.takes.1

/-- A rejected line is found as it stands. -/
theorem isRejected_of_unknownLine {text : String} (hp : p.Visible)
    (h : unknownLine p = some (text, n)) :
    text = String.ofList (p.rest.take n) ∧ IsRejected (p.rest.take n) (p.rest.drop n) := by
  rw [unknownLine, token_eq _ hp.blanks_eq_zero] at h
  dsimp only at h
  generalize hline : p.rest.takeWhile (· != '\n') = line at h
  generalize hshown : (line.reverse.dropWhile Text.isBlank).reverse = shown at h
  split at h
  · cases h
  rename_i hne
  obtain ⟨rfl, rfl⟩ := Prod.mk.inj (Option.some.inj h)
  rw [List.isEmpty_iff] at hne
  -- The line is what is shown and a margin, and behind it comes its end.
  have hsplit : line = shown ++ (line.reverse.takeWhile Text.isBlank).reverse := by
    rw [← hshown, ← List.reverse_append, List.takeWhile_append_dropWhile, List.reverse_reverse]
  have hrest : p.rest = shown ++ ((line.reverse.takeWhile Text.isBlank).reverse ++
      p.rest.dropWhile (· != '\n')) := by
    rw [← List.append_assoc, ← hsplit, ← hline, List.takeWhile_append_dropWhile]
  have hfeed : ∀ c ∈ line, (c != '\n') = true := by
    intro c hc
    rw [← hline] at hc
    exact List.mem_takeWhile_imp (p := (· != '\n')) hc
  have htake : p.rest.take shown.length = shown := by
    rw [hrest, List.take_left]
  have hdrop : p.rest.drop shown.length = (line.reverse.takeWhile Text.isBlank).reverse ++
      p.rest.dropWhile (· != '\n') := by
    rw [hrest, List.drop_left, ← hrest]
  rw [htake, hdrop]
  refine ⟨rfl, ?_, ?_, ?_, ?_⟩
  · intro hmem
    have hc := hfeed '\n' (by rw [hsplit]; exact List.mem_append_left _ hmem)
    exact absurd hc (by decide)
  · obtain ⟨c, rest, hc, hskip⟩ := hp
    cases shown with
    | nil => exact absurd rfl hne
    | cons d shown =>
      rw [hc] at hrest
      obtain ⟨rfl, -⟩ := List.cons.inj hrest
      exact ⟨c, rfl, hskip⟩
  · have hhead := List.head?_dropWhile_not Text.isBlank line.reverse
    rw [← List.getLast?_reverse, hshown] at hhead
    obtain ⟨c, hc⟩ := Option.ne_none_iff_exists'.mp (mt List.getLast?_eq_none_iff.mp hne)
    rw [hc] at hhead
    exact ⟨c, hc, by simpa using hhead⟩
  · rw [takeWhile_eq]
    · intro c hc
      exact List.mem_takeWhile_imp (List.mem_reverse.mp hc)
    · intro c hc
      refine hfeed c ?_
      rw [hsplit]
      exact List.mem_append_right _ hc
    · intro c hc
      have hhead := List.head?_dropWhile_not (· != '\n') p.rest
      rw [Option.mem_def.mp hc] at hhead
      simpa using hhead

/-- Whatever kind of segment is found, it accounts for what it has taken. -/
theorem accounts_of_segment {kind : SegmentKind} {found : Finding} (hp : p.Visible)
    (h : segment p = some ((kind, found), n)) (gap : List Char) :
    Segment.Accounts ⟨gap, p.rest.take n, kind, found⟩ (p.rest.drop n) := by
  rcases longer_eq_some h with ⟨hstatement, -⟩ | ⟨hothers, -⟩
  · obtain ⟨_, hfound, heq⟩ := map_eq_some_iff.mp hstatement
    cases heq
    refine .statement rfl ?_ (lineEnds_of_statement hfound)
    exact hp.of_spaced (reads_statement p found n hfound)
  rcases longer_eq_some hothers with ⟨hcomment, -⟩ | ⟨hunknown, -⟩
  · obtain ⟨⟨⟩, hfound, heq⟩ := map_eq_some_iff.mp hcomment
    cases heq
    refine .comment rfl rfl ?_ (lineEnds_of_comment hfound)
    exact hp.of_spaced (reads_comment p () n hfound)
  · obtain ⟨text, hfound, heq⟩ := map_eq_some_iff.mp hunknown
    cases heq
    obtain ⟨rfl, hrejected⟩ := isRejected_of_unknownLine hp hfound
    exact .unknown rfl rfl hrejected

end

/-! ### All segments -/

/-- The segments from a place on, and what they leave over, are all of the text there. -/
theorem covers_segmentsFrom (p : Place) :
    Covers p.rest (segmentsFrom p).1 (segmentsFrom p).2.rest := by
  fun_induction segmentsFrom p with
  | case1 p => exact .done
  | case2 p kind found n hfound gap text later finish hlater ih =>
    rw [hlater] at ih
    have hend : ¬p.AtEnd := by
      intro hend
      rw [eq_none_of_atEnd skipsFirst_segment consumes_segment hend] at hfound
      cases hfound
    rw [skipsFirst_segment p, Option.map_eq_some_iff] at hfound
    obtain ⟨⟨found', m⟩, hfound, heq⟩ := hfound
    obtain ⟨rfl, rfl⟩ := Prod.mk.inj heq
    -- The segment is the one that is found behind the gap.
    have hgap : p.rest.take p.blanks = gap := p.take_blanks
    have htext : text = (p.advance p.blanks).rest.take m := by
      show (p.rest.take (p.blanks + m)).drop gap.length = (p.rest.drop p.blanks).take m
      rw [List.take_add, hgap, List.drop_left]
    have hwhole : p.rest = gap ++ text ++ (p.advance (p.blanks + m)).rest := by
      rw [htext, ← hgap, Place.rest_advance, Place.rest_advance, ← List.take_add,
        List.take_append_drop]
    have haccounts := accounts_of_segment (Place.visible_advance_blanks hend) hfound gap
    rw [← htext, Place.rest_advance, List.drop_drop] at haccounts
    have hskipped : IsGap gap := fun c hc => List.mem_takeWhile_imp hc
    rw [hwhole]
    exact .next (s := ⟨gap, text, kind, found⟩) hskipped haccounts ih

/-! ### Texts that can be read -/

/-- Every index of a statement has few enough digits to be read. -/
def IndicesFit (text : List Char) : Prop :=
  ∀ s ∈ (segments (Text.expandTabs text)).1, s.kind = .statement →
    ∀ digits, IndexStatement digits s.text → digits.length ≤ Text.maxDecimalDigits

/-- Then nothing that a segment asks for is an error. -/
theorem IndicesFit.not_error {text : List Char} (h : IndicesFit text) {s : Segment} {e : Error}
    (hs : s ∈ (segments (Text.expandTabs text)).1) : .error e ∉ s.actions := by
  intro he
  obtain ⟨-, after, haccounts⟩ := (covers_segmentsFrom _).of_mem hs
  cases haccounts with
  | statement hkind htext _ =>
    obtain ⟨digits, hindex, hlong⟩ := htext.exists_index he
    exact absurd (h s hs hkind digits hindex) (Nat.not_le_of_lt hlong)
  | comment _ hactions _ _ =>
    rw [hactions] at he
    cases he
  | unknown _ hactions _ =>
    rw [hactions] at he
    cases List.mem_singleton.mp he

/-- The digits of an index stand together in its statement. -/
theorem IndexStatement.isInfix {digits text : List Char} (h : IndexStatement digits text) :
    digits <:+: text ∧ ∀ c ∈ digits, c.isDigit = true := by
  obtain ⟨-, hindex, -⟩ := h
  rcases hindex with ⟨-, -, hdigits⟩ | ⟨-, -, hdigits⟩
  all_goals
    refine ⟨List.IsInfix.trans ?_ (List.infix_append _ _ _), hdigits⟩
    exact (List.suffix_append _ _).isInfix

/-- It is enough that the text has no longer run of digits. -/
theorem indicesFit_of_digits {text : List Char} (h : ∀ digits, digits <:+: text →
    (∀ c ∈ digits, c.isDigit = true) → digits.length ≤ Text.maxDecimalDigits) :
    IndicesFit text := by
  intro s hs _ digits hindex
  obtain ⟨hpart, hdigits⟩ := hindex.isInfix
  refine h digits ?_ hdigits
  refine infix_of_infix_expandTabsFrom (hpart.trans ((covers_segmentsFrom _).of_mem hs).1) ?_
  intro hspace
  exact absurd (hdigits ' ' hspace) (by decide)

/-- A text without white space but that which is skipped, and with no index of too many digits, is
read. Its segments cover it, they ask for the actions that are found, and only skipped characters
are left over. -/
theorem exists_actions_covers {text : List Char}
    (hblank : ∀ c ∈ text, Text.isBlank c = true → Text.isSkipped c = true)
    (hindex : IndicesFit text) :
    ∃ found left, actions text = .ok found ∧
      Covers (Text.expandTabs text) (segments (Text.expandTabs text)).1 left ∧ IsGap left ∧
      (segments (Text.expandTabs text)).1.flatMap Segment.actions = found.map .ok ∧
      ∀ s ∈ (segments (Text.expandTabs text)).1, s.kind = .statement →
        s.actions.length = 1 ∨ s.actions.length = 2 := by
  have hcovers := covers_segmentsFrom (.start (Text.expandTabs text))
  cases hfound : actions text with
  | error e =>
    -- An error comes from an index or from a blank line of other white space: both are excluded.
    exfalso
    cases actions_eq_error_iff.mp hfound with
    | index hs he => exact hindex.not_error hs he
    | blankLine _ hstops =>
      obtain ⟨gap, c, line, after, hleft, -, hskip, hline, -⟩ := hstops
      have hc : c ∈ Text.expandTabs text := by
        refine hcovers.suffix.subset ?_
        show c ∈ (segments (Text.expandTabs text)).2
        rw [hleft]
        simp
      have hshown : Text.isSkipped c = true := by
        rcases mem_of_mem_expandTabsFrom hc with rfl | ⟨hmem, -⟩
        · rfl
        · exact hblank c hmem (hline c List.mem_cons_self)
      rw [hshown] at hskip
      cases hskip
  | ok found =>
    obtain ⟨as, has, hleft⟩ := except_bind_eq_ok_iff.mp hfound
    split at hleft
    · rename_i hskipped
      obtain rfl := Except.ok.inj hleft
      refine ⟨as, _, rfl, hcovers, List.all_eq_true.mp hskipped, mapM_id_eq_ok_iff.mp has, ?_⟩
      intro s hs hkind
      obtain ⟨-, after, haccounts⟩ := hcovers.of_mem hs
      cases haccounts with
      | statement _ htext _ => exact htext.length
      | comment hcomment _ _ _ =>
        rw [hcomment] at hkind
        cases hkind
      | unknown hunknown _ _ =>
        rw [hunknown] at hkind
        cases hkind
    · cases hleft

/-- A text with all kinds of segments. Its first label has its command on the next line, behind a
tab, and its push has its operand there. Its last mnemonic is a character short. -/
def ragged : List Char :=
  " a:\r\n\tDup16 // x\n?! b \t\n // y\r\npush\n&n :: a\r\n\n .byte 0x7\n ßtore".toList

/-- The text has no white space but blanks and line ends, and no index in it is too long. So it is
read to its end, where a mnemonic is written with a letter from outside ASCII. -/
theorem exists_actions_covers_ragged :
    (∀ c ∈ ragged, Text.isBlank c = true → Text.isSkipped c = true) ∧ IndicesFit ragged ∧
      ∃ left, Covers (Text.expandTabs ragged) (segments (Text.expandTabs ragged)).1 left ∧
        IsGap left ∧ (segments (Text.expandTabs ragged)).1.flatMap Segment.actions =
          ([.label "a", .dup 16, .unknown "?! b", .push "push" (.reference ["n", "a"]),
            .byte "0x7", .opcode .SSTORE] : List Action).map .ok := by
  have hblank : ∀ c ∈ ragged, Text.isBlank c = true → Text.isSkipped c = true :=
    forall_mem_of_all (by decide +kernel)
  have hindex : IndicesFit ragged := by
    refine indicesFit_of_digits fun digits hdigits _ => Nat.le_trans hdigits.length_le ?_
    decide +kernel
  have hactions : (actions ragged).toOption = some [.label "a", .dup 16, .unknown "?! b",
      .push "push" (.reference ["n", "a"]), .byte "0x7", .opcode .SSTORE] := by
    decide +kernel
  obtain ⟨found, left, hfound, hcovers, hleft, hmap, -⟩ := exists_actions_covers hblank hindex
  obtain rfl := Except.ok.inj (hfound.symm.trans (eq_ok_of_toOption hactions))
  exact ⟨hblank, hindex, left, hcovers, hleft, hmap⟩

end EvmAssembler.Source
