import EvmAssembler.Proofs.Source.Lines

/-!
# `EvmAssembler.Proofs.Source.Unreadable`: texts that cannot be read

A rejected line is an action like any other, so a text with nonsense in it can be read. Two things
are not caught by it. `Source.actions_eq_error_iff` says that there are no others:

* An index of `dup` or `swap` has too many digits to be turned into a number.
* The segments stop short of a line that shows nothing and is not skipped: white space up to its
  end, of which the first character is none of those passed over (`StopsAtBlank`). There is no
  token in it to make a statement of, and no character for a rejected line to end with.
-/

set_option autoImplicit false

namespace EvmAssembler.Source

open Recogniser

/-! ### Where segments stop -/

/-- Behind skipped characters stands white space that is not skipped, and nothing else up to the
end of its line. -/
def StopsAtBlank (text : List Char) : Prop :=
  ∃ gap c line after, text = gap ++ c :: line ++ after ∧
    (∀ d ∈ gap, Text.isSkipped d = true) ∧ Text.isSkipped c = false ∧
    (∀ d ∈ c :: line, Text.isBlank d = true) ∧ ∀ d ∈ after.head?, d = '\n'

/-- No line is rejected where the line ahead shows nothing. -/
theorem isBlank_of_unknownLine_eq_none {p : Place} (h : unknownLine p = none) :
    ∀ c ∈ (p.rest.dropWhile Text.isSkipped).takeWhile (· != '\n'), Text.isBlank c = true := by
  rw [unknownLine, token, Option.map_eq_none_iff, Place.rest_advance_blanks] at h
  dsimp only at h
  split at h
  · rename_i hempty
    rw [List.isEmpty_iff, List.reverse_eq_nil_iff, List.dropWhile_eq_nil_iff] at hempty
    exact fun c hc => hempty c (List.mem_reverse.mpr hc)
  · cases h

/-- Where no segment begins, nothing is left to read, or a line that shows nothing is ahead. -/
theorem stopsAtBlank_of_segment_eq_none {p : Place} (h : segment p = none)
    (hleft : p.rest.all Text.isSkipped = false) : StopsAtBlank p.rest := by
  have hend : ¬p.AtEnd := by
    intro hend
    rw [List.all_eq_true.mpr hend] at hleft
    cases hleft
  obtain ⟨c, rest, hrest, hc⟩ := Place.visible_advance_blanks hend
  rw [Place.rest_advance_blanks] at hrest
  have hunknown : unknownLine p = none :=
    Option.map_eq_none_iff.mp (longer_eq_none_iff.mp (longer_eq_none_iff.mp h).2).2
  have hblank := isBlank_of_unknownLine_eq_none hunknown
  -- The first character is on the line, for a line feed would have been skipped.
  have hne : c ≠ '\n' := by
    rintro rfl
    cases hc
  rw [hrest, List.takeWhile_cons_of_pos (p := (· != '\n')) (bne_iff_ne.mpr hne)] at hblank
  refine ⟨p.rest.takeWhile Text.isSkipped, c, rest.takeWhile (· != '\n'),
    rest.dropWhile (· != '\n'), ?_, fun d hd => List.mem_takeWhile_imp hd, hc, hblank, ?_⟩
  · rw [List.append_assoc, List.cons_append, List.takeWhile_append_dropWhile, ← hrest,
      List.takeWhile_append_dropWhile]
  · intro d hd
    have hhead := List.head?_dropWhile_not (· != '\n') rest
    rw [Option.mem_def.mp hd] at hhead
    simpa using hhead

/-- Segments go on as long as there is one. -/
theorem segment_segmentsFrom (p : Place) : segment (segmentsFrom p).2 = none := by
  fun_induction segmentsFrom p with
  | case1 p hnone => exact hnone
  | case2 p kind found n hfound gap text later finish hlater ih =>
    rw [hlater] at ih
    exact ih

/-- What segments leave over is nothing, or it begins with a line that shows nothing. -/
theorem stopsAtBlank_segments {text : List Char}
    (h : (segments text).2.all Text.isSkipped = false) : StopsAtBlank (segments text).2 :=
  stopsAtBlank_of_segment_eq_none (segment_segmentsFrom _) h

/-- Such a line cannot be passed over. -/
theorem StopsAtBlank.all_eq_false {text : List Char} (h : StopsAtBlank text) :
    text.all Text.isSkipped = false := by
  obtain ⟨gap, c, line, after, rfl, -, hc, -, -⟩ := h
  simp [hc]

/-! ### Findings that are errors -/

/-- Only an index of too many digits makes an error of a command. -/
theorem yields_command_error :
    command.Yields fun c => ∀ e, c = .error e → e = .tooManyDigits := by
  have hok : ∀ (a : Action) e, (Except.ok a : Except Error Action) = .error e →
      e = .tooManyDigits := by
    intro a e h
    cases h
  have hindexed : ∀ letters make, (indexed letters make).Yields
      fun c => ∀ e, c = .error e → e = .tooManyDigits := by
    intro letters make
    refine (yields_true _).andThen fun _ _ => (yields_true _).andThen fun digits _ => ?_
    refine (yields_true wordEnd).map fun _ _ e he => ?_
    rw [index?] at he
    split at he
    · exact (Except.error.inj he).symm
    · cases he
  exact ((yields_true fixedCommand).map fun a _ => hok a).longer ((hindexed _ _).token.longer
    ((hindexed _ _).token.longer (((yields_true push).map fun a _ => hok a).longer
      ((yields_true byte).map fun a _ => hok a))))

/-- So it is in a segment. -/
theorem yields_segment_error :
    segment.Yields fun found => ∀ c ∈ found.2, ∀ e, c = .error e → e = .tooManyDigits := by
  have hline : instructionLine.Yields fun found => ∀ c ∈ found, ∀ e, c = .error e →
      e = .tooManyDigits := by
    refine ((yields_true label).andThen fun l _ => yields_command_error.optional.map
      fun c hc => ?_).orElse (yields_command_error.map fun c hc => by simpa using hc)
    rintro d hd e rfl
    rcases List.mem_cons.mp hd with hd | hd
    · cases hd
    · exact hc _ (Option.mem_toList.mp hd) e rfl
  refine Yields.longer (Yields.map ?_ fun _ h => h) (Yields.longer ?_ ?_)
  · exact hline.andThen fun _ h => yields_const _ h
  · exact (yields_true comment).map fun _ _ c hc => by cases hc
  · refine (yields_true unknownLine).map fun text _ c hc e he => ?_
    obtain rfl := List.mem_singleton.mp hc
    cases he

/-- Whatever is refused while a text is read is refused for an index of too many digits. -/
theorem eq_tooManyDigits_of_segmentsFrom {p : Place} {s : Segment} {e : Error}
    (hs : s ∈ (segmentsFrom p).1) (he : .error e ∈ s.actions) : e = .tooManyDigits := by
  fun_induction segmentsFrom p with
  | case1 => cases hs
  | case2 p kind actions n found gap text later finish hrest ih =>
    rcases List.mem_cons.mp hs with rfl | hs
    · exact yields_segment_error p _ n found _ he e rfl
    · exact ih (by rwa [hrest])

/-! ### Texts -/

/-- Why a text cannot be read. An index is met on the way, so it comes before what is left over. -/
inductive Unreadable (text : List Char) : Error → Prop where
  /-- A statement has an index of too many digits. -/
  | index {s : Segment} : s ∈ (segments (Text.expandTabs text)).1 →
    .error .tooManyDigits ∈ s.actions → Unreadable text .tooManyDigits
  /-- Every index can be read, but the segments stop short of a line that shows nothing. -/
  | blankLine : (∀ s ∈ (segments (Text.expandTabs text)).1, ∀ c ∈ s.actions, ∃ a, c = .ok a) →
    StopsAtBlank (segments (Text.expandTabs text)).2 → Unreadable text .unparsedText

/-- A text is not read for one of these reasons only. -/
theorem actions_eq_error_iff {text : List Char} {e : Error} :
    actions text = .error e ↔ Unreadable text e := by
  have hactions : actions text = (((segments (Text.expandTabs text)).1.flatMap
      Segment.actions).mapM id).bind fun actions =>
        if (segments (Text.expandTabs text)).2.all Text.isSkipped then .ok actions
        else .error .unparsedText := rfl
  rw [hactions]
  cases hfound : ((segments (Text.expandTabs text)).1.flatMap Segment.actions).mapM id with
  | error d =>
    -- One of the findings is an error, and all errors are the same.
    obtain ⟨before, c, after, hsplit, -, hc⟩ := mapM_eq_error_iff.mp hfound
    have hmem : .error d ∈ (segments (Text.expandTabs text)).1.flatMap Segment.actions := by
      rw [hsplit, ← (show c = .error d from hc)]
      simp
    obtain ⟨s, hs, hd⟩ := List.mem_flatMap.mp hmem
    obtain rfl := eq_tooManyDigits_of_segmentsFrom hs hd
    rw [except_bind_error, Except.error.injEq]
    constructor
    · rintro rfl
      exact .index hs hd
    · intro h
      cases h with
      | index _ _ => rfl
      | blankLine hread _ =>
        obtain ⟨a, ha⟩ := hread s hs _ hd
        cases ha
  | ok as =>
    have hread : ∀ s ∈ (segments (Text.expandTabs text)).1, ∀ c ∈ s.actions, ∃ a, c = .ok a := by
      intro s hs c hc
      have hmem := List.mem_flatMap.mpr ⟨s, hs, hc⟩
      rw [mapM_id_eq_ok_iff.mp hfound] at hmem
      obtain ⟨a, -, rfl⟩ := List.mem_map.mp hmem
      exact ⟨a, rfl⟩
    rw [except_bind_ok]
    constructor
    · intro h
      split at h
      · cases h
      · rename_i hleft
        obtain rfl := Except.error.inj h
        exact .blankLine hread (stopsAtBlank_segments (Bool.eq_false_iff.mpr hleft))
    · intro h
      cases h with
      | index hs he =>
        obtain ⟨a, ha⟩ := hread _ hs _ he
        cases ha
      | blankLine _ hstops => simp [hstops.all_eq_false]

end EvmAssembler.Source
