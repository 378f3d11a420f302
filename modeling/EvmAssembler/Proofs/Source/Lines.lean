import EvmAssembler.Proofs.Source.Segments
import Mathlib.Data.List.Infix

/-!
# `EvmAssembler.Proofs.Source.Lines`: one text above another

One statement stands on a line, so a text above another should be read as the one and then the
other. `actions_append_line_iff` says when it is, for texts above that have no rejected line.

Only the last segment of the text above is in reach of what is below it. A comment that is taken
along does no harm. A label without a command takes the command that the text below starts with,
and that is right only if the text below starts with that command when it is read on its own. A
line with two commands does not: it is rejected there, and accepted below a label.

Two more ways to go on across the line feed are left out by hypothesis. `StartsApart` excludes
the colons that would make a label or a namespace of the last name above. `EndsWhole` excludes a
word that is read as a longer mnemonic at the end of a text only.

* `Place.reading` is what segment after segment asks for, and `EndsAt` the place of the last one.
  `EndsAt.of_advance` is the step and `exists_endsAt` the induction along the segments.
* `reading_above_of_not_dangles` and `reading_above_of_dangles` are about the last segment.
* `reading_above_iff` puts the two together.
-/

set_option autoImplicit false

namespace EvmAssembler.Source

open Recogniser

/-! ### What a text asks for from a place on -/

/-- All that the segments from a place on ask for, and whether they leave nothing over. -/
def Place.reading (p : Place) : Finding × Bool :=
  ((segmentsFrom p).1.flatMap Segment.actions, (segmentsFrom p).2.rest.all Text.isSkipped)

section
variable {p q : Place} {line : List Char}

/-- Where no segment is found, reading stops. -/
theorem segmentsFrom_of_none (h : segment p = none) : segmentsFrom p = ([], p) := by
  rw [segmentsFrom]
  split
  · rfl
  · rename_i hfound
    rw [h] at hfound
    cases hfound

/-- Where one is found, reading goes on behind it. The segment keeps the blanks in front of it apart
from its text. -/
theorem segmentsFrom_of_some {kind : SegmentKind} {found : Finding} {n : Nat}
    (h : segment p = some ((kind, found), n)) :
    segmentsFrom p = (⟨p.rest.takeWhile Text.isSkipped,
      (p.rest.take n).drop p.blanks, kind, found⟩ :: (segmentsFrom (p.advance n)).1,
        (segmentsFrom (p.advance n)).2) := by
  rw [segmentsFrom]
  split
  · rename_i hnone
    rw [h] at hnone
    cases hnone
  · rename_i kind' found' n' hfound
    rw [h] at hfound
    cases hfound
    rfl

/-- A place without a segment asks for nothing. What is left over has to be blank. -/
theorem reading_of_none (h : segment p = none) : p.reading = ([], p.rest.all Text.isSkipped) := by
  rw [Place.reading, segmentsFrom_of_none h]
  rfl

/-- Otherwise it asks for what its segment does, and then for what the place behind it does. -/
theorem reading_of_some {kind : SegmentKind} {found : Finding} {n : Nat}
    (h : segment p = some ((kind, found), n)) :
    p.reading = (found ++ (p.advance n).reading.1, (p.advance n).reading.2) := by
  rw [Place.reading, segmentsFrom_of_some h, List.flatMap_cons]
  rfl

/-- Places that are alike ask for the same. -/
theorem Place.Alike.reading (h : p.Alike q) : p.reading = q.reading := by
  fun_induction segmentsFrom p generalizing q with
  | case1 p hnone =>
    rw [reading_of_none hnone, reading_of_none ((looksAhead_segment p q h).symm.trans hnone),
      h.rest]
  | case2 p kind found n hfound _ _ later finish hlater =>
    rename_i ih
    rw [reading_of_some hfound,
      reading_of_some ((looksAhead_segment p q h).symm.trans hfound), ih (h.advance n)]

/-- What is skipped in front asks for nothing. -/
theorem reading_advance_blanks (p : Place) : (p.advance p.blanks).reading = p.reading := by
  have hskip := skipsFirst_segment p
  cases hfound : segment (p.advance p.blanks) with
  | none =>
    rw [hfound] at hskip
    rw [reading_of_none hfound, reading_of_none hskip, Place.rest_advance_blanks]
    conv_rhs => rw [← @List.takeWhile_append_dropWhile _ Text.isSkipped p.rest, List.all_append,
      List.all_takeWhile, Bool.true_and]
  | some found =>
    obtain ⟨⟨kind, found⟩, n⟩ := found
    rw [hfound] at hskip
    rw [reading_of_some hfound, reading_of_some hskip, Place.advance_advance]

/-! ### The line below on its own -/

/-- Behind the text, the line below is read as on its own: a line feed goes on with no mnemonic. -/
theorem alike_above_advance (p : Place) (line : List Char) (n : Nat) :
    ((p.above line).advance (p.rest.length + 1 + n)).Alike ((Place.start line).advance n) := by
  rw [← Place.advance_advance]
  refine Place.Alike.advance ⟨?_, ?_⟩ n
  · show (p.rest ++ '\n' :: line).drop (p.rest.length + 1) = line
    rw [← List.drop_drop, List.drop_left]
    rfl
  · show (((p.rest ++ '\n' :: line).take (p.rest.length + 1)).getLast?.or p.before).any _ = false
    rw [List.take_length_add_append, List.take_succ_cons, List.take_zero, List.getLast?_concat]
    exact isStopped_continuesMnemonic.2.2.2

/-- Where nothing is left of the text, the line below is next. -/
theorem above_atEnd {α : Type} {r : Recogniser α} (hskip : r.SkipsFirst) (hlook : r.LooksAhead)
    (hp : p.AtEnd) (line : List Char) :
    r (p.above line) = (r (.start line)).map fun (a, n) => (a, p.rest.length + 1 + n) := by
  have hblanks : (p.above line).blanks = p.rest.length + 1 + (Place.start line).blanks := by
    rw [Place.blanks, Place.rest_above, List.takeWhile_append_of_pos hp,
      List.takeWhile_cons_of_pos rfl, List.length_append, List.length_cons, Nat.add_assoc,
      Nat.add_comm 1]
    rfl
  rw [hskip (p.above line), hskip (.start line), hblanks, hlook _ _ (alike_above_advance p line _)]
  cases r ((Place.start line).advance (Place.start line).blanks) with
  | none => rfl
  | some found =>
    obtain ⟨a, n⟩ := found
    show some (a, p.rest.length + 1 + (Place.start line).blanks + n) = some (a, _ + (_ + n))
    rw [Nat.add_assoc]

/-- Below a text that is at its end, a line is read as if it stood alone. -/
theorem reading_above_of_atEnd (hp : p.AtEnd) (line : List Char) :
    (p.above line).reading = (Place.start line).reading := by
  have hover := above_atEnd skipsFirst_segment looksAhead_segment hp line
  cases hfound : segment (.start line) with
  | none =>
    rw [hfound] at hover
    rw [reading_of_none hfound, reading_of_none hover, Place.rest_above, List.all_append,
      List.all_cons, List.all_eq_true.mpr hp]
    rfl
  | some found =>
    obtain ⟨⟨kind, found⟩, n⟩ := found
    rw [hfound] at hover
    rw [reading_of_some hfound, reading_of_some hover, (alike_above_advance p line n).reading]

/-- A rejection of the line takes no more than the line. -/
theorem length_unknownLine_le {text : String} {n : Nat} (hp : p.blanks = 0)
    (h : unknownLine p = some (text, n)) : n ≤ (p.rest.takeWhile (· != '\n')).length := by
  rw [unknownLine, token_eq _ hp] at h
  dsimp only at h
  split at h
  · cases h
  · obtain ⟨-, rfl⟩ := Prod.mk.inj (Option.some.inj h)
    have hle := (List.dropWhile_sublist (l := (p.rest.takeWhile (· != '\n')).reverse)
      Text.isBlank).length_le
    rwa [List.length_reverse] at hle ⊢

/-- A comment takes all of it. -/
theorem length_comment {n : Nat} (hp : p.blanks = 0) (h : comment p = some ((), n)) :
    n = (p.rest.takeWhile (· != '\n')).length := by
  obtain ⟨_, k, m, hmark, hline, rfl⟩ := andThen_eq_some_iff.mp h
  rw [token_eq _ hp, exactly] at hmark
  split at hmark
  · rename_i htake
    obtain ⟨-, rfl⟩ := Prod.mk.inj (Option.some.inj hmark)
    obtain ⟨-, rfl⟩ := Prod.mk.inj (Option.some.inj hline)
    conv_rhs => rw [← List.take_append_drop ['/', '/'].length p.rest, htake]
    rw [List.takeWhile_append_of_pos (forall_mem_of_all (by decide)), List.length_append]
    rfl
  · cases hmark

/-- A comment is longer than the rejection of its line, and no statement starts with slashes. So the
segment is the comment. -/
theorem segment_eq_comment {n : Nat} (h : comment p = some ((), n)) :
    segment p = some ((.comment, []), n) := by
  rw [skipsFirst_comment p, Option.map_eq_some_iff] at h
  obtain ⟨⟨⟨⟩, m⟩, hcomment, heq⟩ := h
  obtain ⟨-, rfl⟩ := Prod.mk.inj heq
  have hp := p.blanks_advance_blanks
  rw [skipsFirst_segment p, segment,
    longer_eq_right _ (map_eq_none _ (statement_eq_none (starts_of_comment hp hcomment))),
    longer_eq_of_le (map_eq _ hcomment)]
  · rfl
  · intro found k hfound
    obtain ⟨text, hunknown, -⟩ := map_eq_some_iff.mp hfound
    rw [length_comment hp hcomment]
    exact length_unknownLine_le hp hunknown

/-- A comment on the line below asks for nothing, so it may be taken with what is above. -/
theorem reading_above_comment {comment? : Option Unit} {n : Nat} (hp : p.AtEnd)
    (h : comment.optional (p.above line) = some (comment?, n)) :
    ((p.above line).advance n).reading = (Place.start line).reading := by
  have hover := above_atEnd skipsFirst_comment looksAhead_comment hp line
  cases hfound : comment (.start line) with
  | none =>
    rw [hfound] at hover
    rw [optional_eq_none hover] at h
    cases h
    exact reading_above_of_atEnd hp line
  | some found =>
    obtain ⟨⟨⟩, m⟩ := found
    rw [hfound] at hover
    rw [optional_eq hover] at h
    cases h
    rw [(alike_above_advance p line m).reading, reading_of_some (segment_eq_comment hfound)]
    rfl

/-- A command that the line below starts with is read first there only if its statement is. -/
theorem reading_of_command {c : Except Error Action} {n : Nat} (hcommand : command p = some (c, n))
    (hfirst : p.reading.1.head? = some c) {comment? : Option Unit} {m : Nat}
    (hcomment : comment.optional (p.advance n) = some (comment?, m)) :
    p.reading = (c :: (p.advance (n + m)).reading.1, (p.advance (n + m)).reading.2) := by
  have hnever : ∀ a, c = .ok a → a.IsCommand := yields_command_isCommand p c n hcommand
  have hnamed : ∀ {a k}, label p = some (a, k) → c ≠ .ok a := by
    rintro a k hlabel rfl
    obtain ⟨word, rfl⟩ := yields_label p a k hlabel
    exact hnever _ rfl
  -- A segment that asks for the command first is a statement without a label.
  cases hsegment : segment p with
  | none =>
    rw [reading_of_none hsegment] at hfirst
    cases hfirst
  | some found =>
    obtain ⟨⟨kind, found⟩, k⟩ := found
    have hreading := reading_of_some hsegment
    rw [hreading] at hfirst
    cases segmentAt_of_segment hsegment with
    | unknown =>
      cases hfirst
      exact absurd (hnever _ rfl) id
    | comment hfound =>
      rw [command_eq_none_of_comment hfound] at hcommand
      cases hcommand
    | statement hstatement _ =>
      obtain ⟨i, comment?', j, hline, hcomment', rfl⟩ := statement_eq_some_iff.mp hstatement
      cases hline with
      | labelOnly hlabel _ =>
        cases hfirst
        exact absurd rfl (hnamed hlabel)
      | labelled hlabel _ =>
        cases hfirst
        exact absurd rfl (hnamed hlabel)
      | commandOnly _ hfound =>
        rw [hcommand] at hfound
        cases hfound
        rw [hcomment] at hcomment'
        cases hcomment'
        exact hreading

/-- The command of a line, and what it leaves of the line, are what the line asks for if it asks for
the command first. -/
theorem reading_behind_command_iff {as : List Action} (hp : p.reading = (as.map .ok, true))
    {c : Except Error Action} {n : Nat} (hcommand : command p = some (c, n))
    {comment? : Option Unit} {m : Nat}
    (hcomment : comment.optional (p.advance n) = some (comment?, m)) :
    (c :: (p.advance (n + m)).reading.1, (p.advance (n + m)).reading.2) = (as.map .ok, true) ↔
      as.head?.map .ok = some c := by
  rw [← List.head?_map]
  constructor
  · intro heq
    rw [← (Prod.mk.inj heq).1]
    rfl
  · intro hfirst
    rw [← reading_of_command hcommand (by rw [hp]; exact hfirst) hcomment, hp]

/-! ### The last segment -/

/-- A label at the end of the text takes the command that the line below starts with. -/
theorem segment_above_of_label {a : Action} {c : Except Error Action} {comment? : Option Unit}
    {k n m : Nat} (hp : p.Visible) (hlabel : label p = some (a, k)) (hend : (p.advance k).AtEnd)
    (hparted : p.Parted line) (hunknown : ∀ text j, unknownLine p = some (text, j) → j ≤ k)
    (hcommand : command (.start line) = some (c, n))
    (hcomment : comment.optional ((Place.start line).advance n) = some (comment?, m)) :
    segment (p.above line) =
      some ((.statement, [.ok a, c]), k + ((p.advance k).rest.length + 1 + n) + m) := by
  have hk := Place.above_advance line (takes_label p a k hlabel).1
  have hbelow : command ((p.above line).advance k) =
      some (c, (p.advance k).rest.length + 1 + n) := by
    rw [hk, above_atEnd skipsFirst_command looksAhead_command hend line, hcommand]
    rfl
  have hbehind : comment.optional
      ((p.above line).advance (k + ((p.advance k).rest.length + 1 + n))) = some (comment?, m) := by
    rw [← Place.advance_advance, hk,
      looksAhead_comment.optional _ _ (alike_above_advance (p.advance k) line n), hcomment]
  have hlabel' := (keeps_label hp.not_atEnd hparted).trans hlabel
  refine segment_above_of_statement hp ?_ hunknown (by omega)
  exact statement_eq_some_iff.mpr ⟨_, _, _, .labelled hlabel' hbelow, hbehind, rfl⟩

/-- A comment stays within the text, whatever is in it. -/
theorem takes_comment : comment.Takes fun _ => True := by
  have hmark : (exactly ['/', '/']).token.Takes fun _ => True :=
    ((takes_exactly _).imp fun _ _ => trivial).token fun _ _ => trivial
  refine hmark.andThen fun _ p _ n h => ⟨?_, fun _ _ => trivial⟩
  obtain ⟨-, rfl⟩ := Prod.mk.inj (Option.some.inj h)
  exact (List.takeWhile_sublist _).length_le

/-- A comment has its slashes. -/
theorem slash_mem_take_of_comment {n : Nat} (h : comment p = some ((), n)) :
    '/' ∈ p.rest.take n := by
  obtain ⟨_, k, m, hmark, -, rfl⟩ := andThen_eq_some_iff.mp h
  obtain ⟨i, hslashes, rfl⟩ := token_eq_some_iff.mp hmark
  obtain ⟨rfl, htake⟩ := exactly_eq_some hslashes
  rw [Place.rest_advance] at htake
  rw [List.take_add, List.take_add, htake]
  exact List.mem_append_left _ (List.mem_append_right _ List.mem_cons_self)

variable {kind : SegmentKind} {found : Finding} {n : Nat}

/-- A comment in the last segment keeps the line below away from the rest of it. -/
theorem segment_above_of_slash (hp : p.Visible) (h : segment p = some ((kind, found), n))
    (hknown : ∀ text, .ok (.unknown text) ∉ found) (hslash : '/' ∈ p.rest.take n) :
    segment (p.above line) = some ((kind, found), n) ∧ n ≤ p.rest.length := by
  cases segmentAt_of_segment h with
  | unknown => exact absurd List.mem_cons_self (hknown _)
  | comment hcomment =>
    exact ⟨(keeps_segment_of_comment hp hcomment).trans h, (takes_comment p _ n hcomment).1⟩
  | statement hstatement hunknown =>
    obtain ⟨k, comment?, m, hline, hcomment, rfl⟩ := statement_eq_some_iff.mp hstatement
    rcases optional_eq_some hcomment with ⟨⟨⟩, hfound, -⟩ | ⟨-, -, rfl⟩
    · have hmore : ¬(p.advance k).AtEnd := by
        intro hend
        rw [eq_none_of_atEnd skipsFirst_comment consumes_comment hend] at hfound
        cases hfound
      have hk := Place.lt_length_of_not_atEnd hmore
      have hm := (takes_comment _ _ m hfound).1
      rw [Place.rest_advance, List.length_drop] at hm
      refine ⟨segment_above_of_statement hp ?_ hunknown (Nat.le_refl _), by omega⟩
      refine statement_above hp.not_atEnd hline hcomment hmore ?_ fun _ _ _ => Or.inl ?_
      · exact Or.inl (List.mem_of_mem_take (slash_mem_take_of_comment hfound))
      · rw [hfound]
        exact Option.some_ne_none _
    · exact absurd hslash hline.takes.1

/-- Without a comment the last segment is an instruction line and no more. -/
theorem lineAt_of_segment (h : segment p = some ((kind, found), n))
    (hknown : ∀ text, .ok (.unknown text) ∉ found) (hslash : '/' ∉ p.rest.take n) :
    LineAt p found n ∧ ∀ text m, unknownLine p = some (text, m) → m ≤ n := by
  cases segmentAt_of_segment h with
  | unknown => exact absurd List.mem_cons_self (hknown _)
  | comment hcomment => exact absurd (slash_mem_take_of_comment hcomment) hslash
  | statement hstatement hunknown =>
    obtain ⟨k, comment?, m, hline, hcomment, rfl⟩ := statement_eq_some_iff.mp hstatement
    rcases optional_eq_some hcomment with ⟨⟨⟩, hfound, -⟩ | ⟨-, -, rfl⟩
    · refine absurd ?_ hslash
      rw [List.take_add]
      exact List.mem_append_right _ (slash_mem_take_of_comment hfound)
    · exact ⟨hline, hunknown⟩

/-- A lone label that takes a command of the line below is all of its segment. -/
theorem LineAt.eq_of_label {a : Action} (h : LineAt p found n) (hlabel : label p = some (a, n))
    (hnone : command (p.advance n) = none) : found = [.ok a] := by
  cases h with
  | labelOnly hfound _ =>
    rw [hlabel] at hfound
    cases hfound
    rfl
  | @labelled _ _ k m hfound hcommand =>
    rw [hlabel] at hfound
    obtain ⟨-, hk⟩ := Prod.mk.inj (Option.some.inj hfound)
    rw [hk, hcommand] at hnone
    cases hnone
  | commandOnly hfound _ =>
    rw [hlabel] at hfound
    cases hfound

/-- A lone label is the only instruction line that ends with a label. -/
theorem LineAt.command_eq_none {word : String} (h : LineAt p found n)
    (hlast : found.getLast? = some (.ok (.label word))) :
    (∃ a, label p = some (a, n)) ∧ command (p.advance n) = none := by
  cases h with
  | @labelOnly a _ hlabel hcommand => exact ⟨⟨a, hlabel⟩, hcommand⟩
  | labelled _ hcommand =>
    obtain rfl := Option.some.inj hlast
    exact absurd (yields_command_isCommand _ _ _ hcommand _ rfl) id
  | commandOnly _ hcommand =>
    obtain rfl := Option.some.inj hlast
    exact absurd (yields_command_isCommand _ _ _ hcommand _ rfl) id

/-- The segment is a label, and no comment keeps it from a command that the line below starts
with. -/
structure Dangles (found : Finding) (taken line : List Char) : Prop where
  bare : '/' ∉ taken
  label : ∃ word, found.getLast? = some (.ok (.label word))
  command : command (.start line) ≠ none

/-- The last segment and the line below are read one after the other, if it does not dangle. -/
theorem reading_above_of_not_dangles (hp : p.Visible) (h : segment p = some ((kind, found), n))
    (hknown : ∀ text, .ok (.unknown text) ∉ found) (hend : (p.advance n).AtEnd)
    (hopen : '/' ∉ p.rest.take n → EndsWhole p.rest ∧ StartsApart line)
    (hdangles : ¬Dangles found (p.rest.take n) line) :
    (p.above line).reading =
      (found ++ (Place.start line).reading.1, (Place.start line).reading.2) := by
  by_cases hslash : '/' ∈ p.rest.take n
  · obtain ⟨hover, hle⟩ := @segment_above_of_slash p line _ _ _ hp h hknown hslash
    rw [reading_of_some hover, Place.above_advance line hle, reading_above_of_atEnd hend]
  obtain ⟨hline, hunknown⟩ := lineAt_of_segment h hknown hslash
  obtain ⟨hwhole, hcolon⟩ := hopen hslash
  have hle := hline.takes.2 hwhole
  have hkept : LineAt (p.above line) found n := by
    refine hline.above hp.not_atEnd hle (Or.inr hcolon) fun a hlabel hnone => ?_
    obtain ⟨word, rfl⟩ := yields_label p a n hlabel
    obtain rfl := hline.eq_of_label hlabel hnone
    rw [above_atEnd skipsFirst_command looksAhead_command hend line, Option.map_eq_none_iff]
    by_contra hcommand
    exact hdangles ⟨hslash, ⟨word, rfl⟩, hcommand⟩
  -- Behind the kept instruction line, the line below may still hand over its own comment.
  obtain ⟨comment?, m, hcomment⟩ := exists_optional comment ((p.advance n).above line)
  have hstatement : statement (p.above line) = some (found, n + m) := by
    refine statement_eq_some_iff.mpr ⟨n, comment?, m, hkept, ?_, rfl⟩
    rw [Place.above_advance line hle, hcomment]
  rw [reading_of_some (segment_above_of_statement hp hstatement hunknown (by omega)),
    ← Place.advance_advance, Place.above_advance line hle, reading_above_comment hend hcomment]

/-- If it dangles, the command comes next, and then what the line below leaves of itself. -/
theorem reading_above_of_dangles {c : Except Error Action} {comment? : Option Unit} {m i : Nat}
    (hp : p.Visible) (h : segment p = some ((kind, found), n))
    (hknown : ∀ text, .ok (.unknown text) ∉ found) (hend : (p.advance n).AtEnd)
    (hopen : '/' ∉ p.rest.take n → EndsWhole p.rest ∧ StartsApart line)
    (hdangles : Dangles found (p.rest.take n) line) (hcommand : command (.start line) = some (c, m))
    (hcomment : comment.optional ((Place.start line).advance m) = some (comment?, i)) :
    (p.above line).reading = (found ++ c :: ((Place.start line).advance (m + i)).reading.1,
      ((Place.start line).advance (m + i)).reading.2) := by
  obtain ⟨word, hlast⟩ := hdangles.label
  obtain ⟨hline, hunknown⟩ := lineAt_of_segment h hknown hdangles.bare
  obtain ⟨hwhole, hcolon⟩ := hopen hdangles.bare
  have hle := hline.takes.2 hwhole
  obtain ⟨⟨a, hlabel⟩, hnone⟩ := hline.command_eq_none hlast
  obtain rfl := hline.eq_of_label hlabel hnone
  have hsegment := segment_above_of_label hp hlabel hend (Or.inr hcolon) hunknown hcommand hcomment
  rw [reading_of_some hsegment, Nat.add_assoc, Nat.add_assoc, ← Place.advance_advance,
    Place.above_advance line hle, (alike_above_advance (p.advance n) line (m + i)).reading]
  rfl

/-! ### All segments -/

/-- The last segment of the text at a place, if it has any. -/
def Place.lastSegment? (p : Place) : Option Segment :=
  (segmentsFrom p).1.getLast?

/-- The last segment of the text at `p` starts at `q`. With the line below, all in front of it is
read as before. -/
structure EndsAt (p q : Place) (line : List Char) (before : Finding) (last : Segment) (n : Nat) :
    Prop where
  visible : q.Visible
  suffix : q.rest <:+ p.rest
  found : segment q = some ((last.kind, last.actions), n)
  atEnd : (q.advance n).AtEnd
  isLast : p.lastSegment? = some last
  text : last.text = q.rest.take n
  reading : p.reading.1 = before ++ last.actions
  above : (p.above line).reading = (before ++ (q.above line).reading.1, (q.above line).reading.2)

/-- Where nothing is rejected, the last segment is not. -/
theorem EndsAt.known {before : Finding} {last : Segment} (h : EndsAt p q line before last n)
    (hknown : ∀ text, .ok (.unknown text) ∉ p.reading.1) :
    ∀ text, .ok (.unknown text) ∉ last.actions := by
  intro text hmem
  refine hknown text ?_
  rw [h.reading]
  exact List.mem_append_right _ hmem

/-- The blanks at a place may be taken before the line is put below it. -/
theorem reading_above_advance_blanks (hp : ¬p.AtEnd) (line : List Char) :
    ((p.advance p.blanks).above line).reading = (p.above line).reading := by
  rw [← reading_advance_blanks (p.above line), Place.blanks_above line hp,
    Place.above_advance line p.blanks_le]

/-- At the end of a text there are no segments. -/
theorem segmentsFrom_of_atEnd (hp : p.AtEnd) : segmentsFrom p = ([], p) :=
  segmentsFrom_of_none (eq_none_of_atEnd skipsFirst_segment consumes_segment hp)

/-- What is last behind the first segment is last. -/
theorem lastSegment?_of_advance {last : Segment} (h : segment p = some ((kind, found), n))
    (hlast : (p.advance n).lastSegment? = some last) : p.lastSegment? = some last := by
  rw [Place.lastSegment?] at hlast ⊢
  rw [segmentsFrom_of_some h, List.getLast?_cons, hlast]
  rfl

/-- The segment at a place is the one behind its blanks. -/
theorem segment_advance_blanks (h : segment p = some ((kind, found), n)) :
    ∃ m, segment (p.advance p.blanks) = some ((kind, found), m) ∧ n = p.blanks + m := by
  have hskip := (skipsFirst_segment p).symm.trans h
  obtain ⟨⟨_, m⟩, hsegment, heq⟩ := Option.map_eq_some_iff.mp hskip
  cases heq
  exact ⟨m, hsegment, rfl⟩

/-- A segment with nothing but blanks behind it is the last one, and it starts behind the blanks in
front of it. -/
theorem endsAt_of_atEnd (hp : ¬p.AtEnd) (h : segment p = some ((kind, found), n))
    (hend : (p.advance n).AtEnd) (line : List Char) :
    ∃ last m, EndsAt p (p.advance p.blanks) line [] last m := by
  obtain ⟨m, hsegment, rfl⟩ := segment_advance_blanks h
  have hlater := segmentsFrom_of_atEnd hend
  refine ⟨⟨p.rest.takeWhile Text.isSkipped, (p.rest.take (p.blanks + m)).drop p.blanks, kind,
    found⟩, m, Place.visible_advance_blanks hp, List.drop_suffix _ _, hsegment, ?_, ?_, ?_, ?_, ?_⟩
  · rwa [Place.advance_advance]
  · rw [Place.lastSegment?, segmentsFrom_of_some h, hlater]
    rfl
  · show (p.rest.take (p.blanks + m)).drop p.blanks = (p.rest.drop p.blanks).take m
    rw [List.drop_take, Nat.add_sub_cancel_left]
  · rw [reading_of_some h, Place.reading, hlater]
    exact List.append_nil _
  · rw [reading_above_advance_blanks hp]
    rfl

/-- The first segment is out of reach for the line below if there are others behind it. -/
theorem EndsAt.of_advance {before : Finding} {last : Segment} {m : Nat} (hp : ¬p.AtEnd)
    (h : segment p = some ((kind, found), n)) (hlater : EndsAt (p.advance n) q line before last m)
    (hknown : ∀ text, .ok (.unknown text) ∉ p.reading.1)
    (hopen : '/' ∉ last.text → StartsApart line) :
    EndsAt p q line (found ++ before) last m := by
  have hnext : ¬(p.advance n).AtEnd := fun hend =>
    hlater.visible.not_atEnd fun c hc => hend c (hlater.suffix.subset hc)
  -- A comment in the last segment is still to come here, and parts the first from the line below.
  have hparted : (p.advance n).Parted line := by
    by_cases hslash : '/' ∈ last.text
    · rw [hlater.text] at hslash
      exact Or.inl (hlater.suffix.subset (List.mem_of_mem_take hslash))
    · exact Or.inr (hopen hslash)
  rw [reading_of_some h] at hknown
  -- What follows is no rejection: that is what keeps a lone label from taking a command below.
  have hfollow : ∃ kind' found' n', segment (p.advance n) = some ((kind', found'), n') ∧
      ∀ text, .ok (.unknown text) ∉ found' := by
    cases hsegment : segment (p.advance n) with
    | none =>
      have hlast := hlater.isLast
      rw [Place.lastSegment?, segmentsFrom_of_none hsegment] at hlast
      cases hlast
    | some next =>
      obtain ⟨⟨kind', found'⟩, n'⟩ := next
      rw [reading_of_some hsegment] at hknown
      refine ⟨kind', found', n', rfl, fun text hmem => hknown text ?_⟩
      exact List.mem_append_right _ (List.mem_append_left _ hmem)
  have hreading := reading_of_some h
  have hlast := lastSegment?_of_advance h hlater.isLast
  obtain ⟨i, hsegment, rfl⟩ := segment_advance_blanks h
  rw [← Place.advance_advance] at hnext hparted hfollow
  have hkept := segment_above (Place.visible_advance_blanks hp) hsegment
    (fun text hmem => hknown text (List.mem_append_left _ hmem)) hnext hparted hfollow
  refine ⟨hlater.visible, hlater.suffix.trans (List.drop_suffix _ _), hlater.found, hlater.atEnd,
    hlast, hlater.text, ?_, ?_⟩
  · rw [hreading, hlater.reading, List.append_assoc]
  · rw [← reading_above_advance_blanks hp, reading_of_some hkept,
      Place.above_advance line (Nat.le_of_lt (Place.lt_length_of_not_atEnd hnext)),
      Place.advance_advance, hlater.above, List.append_assoc]

/-- A text that is read to its end without a rejection has its last segment somewhere, and what is
in front of it is read as before. -/
theorem exists_endsAt (hp : ¬p.AtEnd) (hleft : p.reading.2 = true)
    (hknown : ∀ text, .ok (.unknown text) ∉ p.reading.1)
    (hopen : ∀ last, p.lastSegment? = some last → '/' ∉ last.text → StartsApart line) :
    ∃ q before last n, EndsAt p q line before last n := by
  -- Along the segments: the last one is found first, and each in front of it is kept in turn.
  fun_induction segmentsFrom p with
  | case1 p hnone =>
    rw [reading_of_none hnone] at hleft
    exact absurd (List.all_eq_true.mp hleft) hp
  | case2 p kind found n hfound _ _ later finish hlater =>
    rename_i ih
    by_cases hend : (p.advance n).AtEnd
    · obtain ⟨last, m, h⟩ := endsAt_of_atEnd hp hfound hend line
      exact ⟨_, _, last, m, h⟩
    · have hreading := reading_of_some hfound
      have hknown' : ∀ text, .ok (.unknown text) ∉ (p.advance n).reading.1 := by
        intro text hmem
        refine hknown text ?_
        rw [hreading]
        exact List.mem_append_right _ hmem
      rw [hreading] at hleft
      obtain ⟨q, before, last, m, h⟩ := ih hend hleft hknown' fun last hlast =>
        hopen last (lastSegment?_of_advance hfound hlast)
      exact ⟨q, _, last, m, .of_advance hp hfound h hknown
        (hopen last (lastSegment?_of_advance hfound h.isLast))⟩

end

/-! ### Texts -/

/-- What a text asks for is what is read from its start, if it can be read and nothing is left. -/
theorem actions_eq_ok_iff {text : List Char} {as : List Action} :
    actions text = .ok as ↔ (Place.start (Text.expandTabs text)).reading = (as.map .ok, true) := by
  rw [Place.reading, Prod.mk.injEq]
  show (((segmentsFrom (.start (Text.expandTabs text))).1.flatMap Segment.actions).mapM id).bind
    (fun found => if (segmentsFrom (.start (Text.expandTabs text))).2.rest.all Text.isSkipped then
      .ok found else .error .unparsedText) = .ok as ↔ _
  rw [except_bind_eq_ok_iff]
  constructor
  · rintro ⟨found, hfound, hleft⟩
    split at hleft
    · rename_i hall
      cases hleft
      exact ⟨mapM_id_eq_ok_iff.mp hfound, hall⟩
    · cases hleft
  · rintro ⟨hfound, hleft⟩
    exact ⟨as, mapM_id_eq_ok_iff.mpr hfound, if_pos hleft⟩

/-- Tabs that become spaces leave a text to end whole, since no mnemonic has a space in it. -/
theorem EndsWhole.expandTabs {text : List Char} (h : EndsWhole text) :
    EndsWhole (Text.expandTabs text) := by
  intro word hword op hcapitals
  have hblank : ' ' ∉ word := not_mem_of_capitals hcapitals rfl rfl
  exact h word (suffix_of_suffix_expandTabsFrom hword hblank) op hcapitals

/-- Nor do they put a colon at the start of a text. -/
theorem StartsApart.expandTabsFrom {text : List Char} (h : StartsApart text) (column : Nat) :
    StartsApart (Text.expandTabsFrom column text) := by
  fun_induction Text.expandTabsFrom column text with
  | case1 => exact h
  | case2 column rest step ih =>
    have hspaces : ∀ c ∈ List.replicate step ' ', Text.isSkipped c = true := by
      intro c hc
      rw [List.eq_of_mem_replicate hc]
      rfl
    rw [StartsApart, List.dropWhile_cons_of_pos rfl] at h
    rw [StartsApart, List.dropWhile_append_of_pos hspaces]
    exact ih h
  | case3 column c rest hc ih =>
    by_cases hskip : Text.isSkipped c = true
    · rw [StartsApart, List.dropWhile_cons_of_pos hskip] at h ⊢
      exact ih h
    · rw [StartsApart, List.dropWhile_cons_of_neg hskip] at h ⊢
      exact h

/-- The text ends in a segment that has no comment. -/
def EndsOpen (text : List Char) : Prop :=
  ∃ last, (segments (Text.expandTabs text)).1.getLast? = some last ∧ '/' ∉ last.text

/-- If a command can be read at the start of the text, it is the first of these actions. -/
def LeadsWithCommand (text : List Char) (as : List Action) : Prop :=
  ∀ c n, command (.start (Text.expandTabs text)) = some (c, n) → as.head?.map .ok = some c

section
variable {above below : List Char} {as bs : List Action}

/-- Where the last segment asks for something, the last action is the last it asks for. -/
theorem getLast?_eq_label_iff {before found : Finding} (has : as.map .ok = before ++ found)
    (hne : found ≠ []) (word : String) :
    as.getLast? = some (.label word) ↔ found.getLast? = some (.ok (.label word)) := by
  have hmap := List.getLast?_map (f := (Except.ok : Action → Except Error Action)) (l := as)
  rw [has, List.getLast?_append_of_ne_nil _ hne] at hmap
  rw [hmap, Option.map_eq_some_iff]
  constructor
  · exact fun h => ⟨_, h, rfl⟩
  · rintro ⟨a, h, ⟨⟩⟩
    exact h

/-- The text at a place is read as on its own, and then the line below, unless a label at its end
takes a command from there. -/
theorem reading_above_iff {p : Place} {line : List Char}
    (hread : p.reading = (as.map .ok, true))
    (hbelow : (Place.start line).reading = (bs.map .ok, true))
    (hknown : ∀ text, .unknown text ∉ as)
    (hopen : ∀ last, p.lastSegment? = some last → '/' ∉ last.text →
      EndsWhole p.rest ∧ StartsApart line) :
    (p.above line).reading = ((as ++ bs).map .ok, true) ↔
      ∀ last, p.lastSegment? = some last → '/' ∉ last.text →
        ∀ word, as.getLast? = some (.label word) → ∀ c n, command (.start line) = some (c, n) →
          bs.head?.map .ok = some c := by
  rw [List.map_append]
  by_cases hend : p.AtEnd
  · -- Nothing stands above.
    have hnone := segmentsFrom_of_atEnd hend
    rw [Place.reading, hnone] at hread
    rw [reading_above_of_atEnd hend, hbelow, ← (Prod.mk.inj hread).1, Place.lastSegment?, hnone]
    refine ⟨fun _ last hlast => ?_, fun _ => rfl⟩
    cases hlast
  have hknown' : ∀ text, .ok (.unknown text) ∉ p.reading.1 := by
    intro text hmem
    rw [hread] at hmem
    obtain ⟨a, ha, heq⟩ := List.mem_map.mp hmem
    cases heq
    exact hknown text ha
  obtain ⟨q, before, last, n, h⟩ := exists_endsAt hend (by rw [hread]) hknown'
    fun last hlast hslash => (hopen last hlast hslash).2
  -- All in front of the last segment is read as before, so it is this one that decides.
  have has : as.map .ok = before ++ last.actions := by rw [← h.reading, hread]
  have hactions := h.known hknown'
  have hopen' : '/' ∉ q.rest.take n → EndsWhole q.rest ∧ StartsApart line := by
    rw [← h.text]
    intro hslash
    obtain ⟨hwhole, hcolon⟩ := hopen last h.isLast hslash
    exact ⟨hwhole.suffix h.suffix, hcolon⟩
  have hword := fun hslash =>
    getLast?_eq_label_iff has (lineAt_of_segment h.found hactions hslash).1.ne_nil
  rw [h.above, has, List.append_assoc]
  by_cases hdangles : Dangles last.actions (q.rest.take n) line
  · -- The label has taken a command, and that is right only if the line starts with it anyway.
    have hslash := hdangles.bare
    obtain ⟨word, hlabel⟩ := hdangles.label
    obtain ⟨⟨c, m⟩, hcommand⟩ := Option.ne_none_iff_exists'.mp hdangles.command
    obtain ⟨comment?, i, hcomment⟩ := exists_optional comment ((Place.start line).advance m)
    rw [reading_above_of_dangles h.visible h.found hactions h.atEnd hopen' hdangles hcommand
      hcomment]
    have hcancel : ∀ {rest : Finding} {left : Bool},
        (before ++ (last.actions ++ rest), left) =
          (before ++ (last.actions ++ bs.map .ok), true) ↔ (rest, left) = (bs.map .ok, true) := by
      simp only [Prod.mk.injEq, List.append_cancel_left_eq, implies_true]
    rw [hcancel, reading_behind_command_iff hbelow hcommand hcomment]
    constructor
    · intro hfirst _ _ _ _ _ c' k hcommand'
      rw [hcommand] at hcommand'
      cases hcommand'
      exact hfirst
    · intro hfirst
      exact hfirst last h.isLast (h.text ▸ hslash) word ((hword hslash word).mpr hlabel) c m
        hcommand
  · -- The two are read one after the other, and the condition is about no label.
    rw [reading_above_of_not_dangles h.visible h.found hactions h.atEnd hopen' hdangles, hbelow]
    refine ⟨fun _ last' hlast hslash word hlabel c k hcommand => absurd ?_ hdangles, fun _ => rfl⟩
    rw [h.isLast] at hlast
    cases hlast
    rw [h.text] at hslash
    refine ⟨hslash, ⟨word, (hword hslash word).mp hlabel⟩, ?_⟩
    rw [hcommand]
    exact Option.some_ne_none _

/-- Of two texts without a rejected line in the first, one above the other asks for what the two
ask for one after the other. If the first ends in a label without a comment, it does so only if the
second starts with the command that the label takes. -/
theorem actions_append_line_iff (habove : actions above = .ok as) (hbelow : actions below = .ok bs)
    (hknown : ∀ text, .unknown text ∉ as)
    (hopen : EndsOpen above → EndsWhole above ∧ StartsApart below) :
    actions (above ++ '\n' :: below) = .ok (as ++ bs) ↔
      (EndsOpen above → (∃ word, as.getLast? = some (.label word)) →
        LeadsWithCommand below bs) := by
  have hstart : Place.start (Text.expandTabs (above ++ '\n' :: below)) =
      (Place.start (Text.expandTabs above)).above (Text.expandTabs below) := by
    rw [expandTabs_append_line]
    rfl
  rw [actions_eq_ok_iff, hstart, reading_above_iff (actions_eq_ok_iff.mp habove)
    (actions_eq_ok_iff.mp hbelow) hknown]
  · constructor
    · rintro h ⟨last, hlast, hslash⟩ ⟨word, hword⟩
      exact h last hlast hslash word hword
    · intro h last hlast hslash word hword
      exact h ⟨last, hlast, hslash⟩ ⟨word, hword⟩
  · intro last hlast hslash
    obtain ⟨hwhole, hcolon⟩ := hopen ⟨last, hlast, hslash⟩
    exact ⟨hwhole.expandTabs, hcolon.expandTabsFrom 0⟩

/-- A line with two commands is rejected on its own, and below a label it is not. -/
theorem actions_append_line_dangling :
    actions "a:".toList = .ok [.label "a"] ∧
      actions "add sub".toList = .ok [.unknown "add sub"] ∧
      (EndsOpen "a:".toList ∧ EndsWhole "a:".toList ∧ StartsApart "add sub".toList) ∧
      actions ("a:".toList ++ '\n' :: "add sub".toList) ≠ .ok [.label "a", .unknown "add sub"] := by
  have habove : (actions "a:".toList).toOption = some [.label "a"] := by decide +kernel
  have hbelow : (actions "add sub".toList).toOption = some [.unknown "add sub"] := by
    decide +kernel
  have hlast : (segments (Text.expandTabs "a:".toList)).1.getLast?.map Segment.text =
      some ['a', ':'] := by decide +kernel
  obtain ⟨last, hlast, htext⟩ := Option.map_eq_some_iff.mp hlast
  have hopen : EndsOpen "a:".toList := ⟨last, hlast, by rw [htext]; decide⟩
  have hwhole : EndsWhole "a:".toList := by
    have hall : ∀ word ∈ "a:".toList.tails, ∀ op ∈ Opcode.all,
        Text.capitals word = op.name.toList → word.length = op.name.toList.length := by
      decide +kernel
    exact fun word hword op => hall word ((List.mem_tails _ _).mpr hword) op (Opcode.mem_all op)
  have hcolon : StartsApart "add sub".toList := by
    intro c hc
    obtain rfl : 'a' = c := Option.some.inj hc
    decide
  refine ⟨eq_ok_of_toOption habove, eq_ok_of_toOption hbelow, ⟨hopen, hwhole, hcolon⟩, ?_⟩
  intro hjoined
  have hleads := (actions_append_line_iff (eq_ok_of_toOption habove) (eq_ok_of_toOption hbelow)
    (by simp) fun _ => ⟨hwhole, hcolon⟩).mp hjoined hopen ⟨"a", rfl⟩
  -- The line starts with the first of its commands, and its only action is the rejection.
  have hcommand : (command (.start (Text.expandTabs "add sub".toList))).map (·.1.toOption) =
      some (some (.opcode .ADD)) := by decide +kernel
  obtain ⟨⟨c, n⟩, hcommand, hadd⟩ := Option.map_eq_some_iff.mp hcommand
  cases hleads c n hcommand
  cases hadd

example : (actions "a:\nadd sub".toList).toOption =
    some [.label "a", .opcode .ADD, .opcode .SUB] := by decide +kernel

end

end EvmAssembler.Source
