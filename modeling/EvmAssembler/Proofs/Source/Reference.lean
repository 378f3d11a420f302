import EvmAssembler.Proofs.Source.Lines

/-!
# `EvmAssembler.Proofs.Source.Reference`: how a label of another namespace is referred to

`referenceLine` writes a push of a label with the name of its namespace in front. If the grammar
takes both for names, `actions_referenceLine` reads the push back, and nothing else.

The line ends in an empty comment. So nothing below it can be taken for a part of it, and
`actions_referenceLine_above` puts it above any text that can be read.
-/

set_option autoImplicit false

namespace EvmAssembler.Source

open Recogniser

/-- A push, in the given width, of a label that a namespace defines. -/
def referenceLine (width : Nat) (space name : String) : String :=
  "push" ++ Text.decimal width ++ " &" ++ space ++ "::" ++ name ++ " //"

/-- The action that the line asks for. -/
def referencePush (width : Nat) (space name : String) : Action :=
  .push ("push" ++ Text.decimal width) (.reference [space, name])

/-! ### Names -/

section
variable {p : Place} {word space name : String} {after : List Char}

/-- All characters of a name are ones that a name may go on with. -/
theorem IsName.isNameRest (h : IsName word) : ∀ c ∈ word.toList, isNameRest c = true := by
  obtain ⟨c, rest, hword, hstart, hrest⟩ := h
  intro d hd
  rw [hword] at hd
  rcases List.mem_cons.mp hd with rfl | hd
  · rw [isNameStart, Bool.or_eq_true] at hstart
    rw [Source.isNameRest, Char.isAlphanum, Bool.or_eq_true, Bool.or_eq_true]
    exact hstart.imp_left Or.inl
  · exact hrest d hd

/-- A name is taken whole where no more of a name follows. -/
theorem name_eq (h : IsName word) (hrest : p.rest = word.toList ++ after)
    (hafter : ∀ c ∈ after.head?, isNameRest c = false) :
    Source.name p = some (word, word.toList.length) := by
  obtain ⟨c, rest, hword, hstart, hall⟩ := h
  rw [hword] at hrest
  rw [Source.name, hrest, List.cons_append]
  dsimp only
  rw [takeWhile_eq hall hafter, if_pos hstart, ← hword, String.ofList_toList]

/-- No name starts with a blank. -/
theorem IsName.blanks_eq_zero (h : IsName word) (hrest : p.rest = word.toList ++ after) :
    p.blanks = 0 := by
  have hblanks := @Place.blanks_eq p [] _ hrest (fun c hc => absurd hc List.not_mem_nil)
  refine hblanks fun c hc => ?_
  obtain ⟨d, rest, hword, -, -⟩ := id h
  rw [hword] at hc
  obtain rfl : d = c := Option.some.inj hc
  have hname := h.isNameRest d (by rw [hword]; exact List.mem_cons_self)
  exact isSkipped_eq_false hname (by decide)

/-! ### References -/

/-- A reference with a namespace is taken behind one blank, up to the end of its name. -/
theorem reference_eq (hspace : IsName space) (hname : IsName name)
    (hrest : p.rest = ' ' :: '&' :: (space.toList ++ ':' :: ':' :: (name.toList ++ after)))
    (hafter : ∀ c ∈ after.head?, isNameRest c = false) :
    reference p =
      some ([space, name], 2 + (space.toList.length + 2 + name.toList.length)) := by
  have hmark : (exactly ['&']).token p = some ((), 2) := by
    have hblanks : p.blanks = 1 := by
      refine @Place.blanks_eq p [' '] _ hrest (forall_mem_of_all (by decide)) fun c hc => ?_
      obtain rfl : '&' = c := Option.some.inj hc
      rfl
    have hbehind : (p.advance p.blanks).rest =
        ['&'] ++ (space.toList ++ ':' :: ':' :: (name.toList ++ after)) := by
      rw [Place.rest_advance, hblanks, hrest]
      rfl
    rw [token, exactly_eq hbehind, hblanks]
    rfl
  have hbehind : (p.advance 2).rest =
      space.toList ++ ':' :: ':' :: (name.toList ++ after) := by
    rw [Place.rest_advance, hrest]
    rfl
  have hcolons : ((p.advance 2).advance space.toList.length).rest =
      [':', ':'] ++ (name.toList ++ after) := by
    rw [Place.rest_advance, hbehind, List.drop_left]
    rfl
  have hlast : ((p.advance 2).advance (space.toList.length + 2)).rest = name.toList ++ after := by
    rw [← Place.advance_advance, Place.rest_advance, hcolons]
    rfl
  -- The two colons end the name in front of them and make it a namespace.
  have hfirst : namespacePart (p.advance 2) = some (space, space.toList.length + 2) := by
    have hword : Source.name.token (p.advance 2) = some (space, space.toList.length) := by
      rw [token_eq _ (hspace.blanks_eq_zero hbehind)]
      refine name_eq hspace hbehind fun c hc => ?_
      obtain rfl : ':' = c := Option.some.inj hc
      decide
    have hnone : ((p.advance 2).advance space.toList.length).blanks = 0 := by
      refine @Place.blanks_eq _ [] _ hcolons (fun c hc => absurd hc List.not_mem_nil) fun c hc => ?_
      obtain rfl : ':' = c := Option.some.inj hc
      rfl
    have hexactly : (exactly [':', ':']).token ((p.advance 2).advance space.toList.length) =
        some ((), 2) := by
      rw [token_eq _ hnone, exactly_eq hcolons]
      rfl
    exact andThen_eq hword (map_eq _ hexactly)
  refine andThen_eq hmark (andThen_eq (optional_eq hfirst) (map_eq _ ?_))
  rw [token_eq _ (hname.blanks_eq_zero hlast)]
  exact name_eq hname hlast hafter

/-- The keyword is written in small letters, with the width behind them. -/
theorem sameLetters_keyword (width : Nat) : SameLetters ("push" ++ Text.decimal width).toList
    (['p', 'u', 's', 'h'] ++ (Text.decimal width).toList) := by
  rw [String.toList_append]
  rfl

/-- The keyword of the push has the width behind its letters. -/
theorem pushWidth?_keyword {width : Nat} (hwidth : width < 100) :
    pushWidth? ("push" ++ Text.decimal width) = some width ∧
      (("push" ++ Text.decimal width).toList.drop 4).length ≤ Text.maxDecimalDigits := by
  have hstop : Stops [] := fun c hc => by cases hc
  have hkeyword := (@pushKeyword_eq (.start ("push" ++ Text.decimal width).toList)
    ("push" ++ Text.decimal width).toList [] width (List.append_nil _).symm
    (sameLetters_keyword width) hwidth hstop).2
  rwa [String.ofList_toList] at hkeyword

/-- A push takes its keyword, and behind one blank its reference. -/
theorem command_of_reference {width : Nat} (hwidth : width < 100) (hspace : IsName space)
    (hname : IsName name)
    (hrest : p.rest = ("push" ++ Text.decimal width).toList ++
      ' ' :: '&' :: (space.toList ++ ':' :: ':' :: (name.toList ++ after)))
    (hafter : ∀ c ∈ after.head?, isNameRest c = false) :
    command p = some (.ok (referencePush width space name),
      ("push" ++ Text.decimal width).toList.length +
        (2 + (space.toList.length + 2 + name.toList.length))) := by
  have hsame := sameLetters_keyword width
  have hstart : p.Starts 'p' 'u' := .of_sameLetters hrest hsame (by decide) (by decide)
  have hstop : Stops (' ' :: '&' :: (space.toList ++ ':' :: ':' :: (name.toList ++ after))) := by
    intro c hc
    exact Or.inl (Option.some.inj hc).symm
  have hkeyword : pushKeyword.token p =
      some ("push" ++ Text.decimal width, ("push" ++ Text.decimal width).toList.length) := by
    rw [token_eq _ (hstart.blanks_eq_zero rfl), (pushKeyword_eq hrest hsame hwidth hstop).1,
      String.ofList_toList]
  have hbehind : (p.advance ("push" ++ Text.decimal width).toList.length).rest =
      ' ' :: '&' :: (space.toList ++ ':' :: ':' :: (name.toList ++ after)) := by
    rw [Place.rest_advance, hrest, List.drop_left]
  -- An ampersand is no digit, so no literal comes before the reference.
  have hliteral :
      integerLiteral (p.advance ("push" ++ Text.decimal width).toList.length) = none := by
    have hdrop : ((p.advance ("push" ++ Text.decimal width).toList.length).advance
        (p.advance ("push" ++ Text.decimal width).toList.length).blanks).rest =
        '&' :: (space.toList ++ ':' :: ':' :: (name.toList ++ after)) := by
      rw [Place.rest_advance_blanks, hbehind]
      rfl
    have hhex : hexLiteral.token (p.advance ("push" ++ Text.decimal width).toList.length) =
        none := by
      rw [token, hexLiteral, hdrop]
      rfl
    rw [integerLiteral, orElse_eq_right _ hhex, token, decimalLiteral, Recogniser.map, run, hdrop]
    rfl
  rw [command_eq_push hstart]
  refine map_eq _ (andThen_eq hkeyword (map_eq _ ?_))
  rw [pushOperand, orElse_eq_right _ (map_eq_none _ hliteral)]
  exact map_eq _ (reference_eq hspace hname hbehind hafter)

end

/-! ### The line -/

section
variable {width : Nat} {space name : String}

/-- The characters of the line are those of its parts, in their order. -/
theorem toList_referenceLine (width : Nat) (space name : String) :
    (referenceLine width space name).toList = ("push" ++ Text.decimal width).toList ++
      ' ' :: '&' :: (space.toList ++ ':' :: ':' :: (name.toList ++ [' ', '/', '/'])) := by
  simp [referenceLine]

/-- The line starts like a push. -/
theorem starts_referenceLine (width : Nat) (space name : String) :
    (Place.start (referenceLine width space name).toList).Starts 'p' 'u' := by
  have hline := toList_referenceLine width space name
  generalize (referenceLine width space name).toList = line at hline ⊢
  exact .of_sameLetters hline (sameLetters_keyword width) (by decide) (by decide)

/-- A tab or a line feed is no part of the line. -/
theorem not_mem_referenceLine (hspace : IsName space) (hname : IsName name) {c : Char}
    (hc : c = '\t' ∨ c = '\n') : c ∉ (referenceLine width space name).toList := by
  have hword : ∀ {word : List Char}, (∀ d ∈ word, isNameRest d = true) → c ∉ word := by
    intro word hall hmem
    have hrest := hall c hmem
    rcases hc with rfl | rfl <;> exact absurd hrest (by decide)
  have hkeyword : c ∉ ("push" ++ Text.decimal width).toList := by
    rw [String.toList_append]
    exact hword (isNameRest_of_mem_keyword width (forall_mem_of_all (by decide)))
  rw [toList_referenceLine]
  simp only [List.mem_append, List.mem_cons, not_or]
  rcases hc with rfl | rfl <;>
    exact ⟨hkeyword, by decide, by decide, hword hspace.isNameRest, by decide, by decide,
      hword hname.isNameRest, by decide, by decide, by decide, List.not_mem_nil⟩

/-- The line is one statement, from its start to its end. -/
theorem segment_referenceLine (hwidth : width < 100) (hspace : IsName space)
    (hname : IsName name) :
    segment (.start (referenceLine width space name).toList) =
      some ((.statement, [.ok (referencePush width space name)]),
        (referenceLine width space name).toList.length) := by
  have hp := (starts_referenceLine width space name).blanks_eq_zero rfl
  have hline := toList_referenceLine width space name
  -- From here on only the characters of the line matter.
  generalize (referenceLine width space name).toList = line at hp hline ⊢
  have hrest : (Place.start line).rest = ("push" ++ Text.decimal width).toList ++
      ' ' :: '&' :: (space.toList ++ ':' :: ':' :: (name.toList ++ [' ', '/', '/'])) := hline
  have hafter : ∀ c ∈ [' ', '/', '/'].head?, isNameRest c = false := by
    intro c hc
    obtain rfl : ' ' = c := Option.some.inj hc
    rfl
  have hcommand := command_of_reference hwidth hspace hname hrest hafter
  generalize hk : ("push" ++ Text.decimal width).toList.length +
    (2 + (space.toList.length + 2 + name.toList.length)) = k at hcommand
  have hlabel : label (.start line) = none := by
    refine label_eq_none hp hrest ?_ ?_ ?_ ?_
    · simp
    · rw [String.toList_append]
      exact isNameRest_of_mem_keyword width (forall_mem_of_all (by decide))
    · intro c hc
      exact Or.inl (Option.some.inj hc).symm
    · intro c hc
      obtain rfl : '&' = c := Option.some.inj hc
      decide
  have hlength : line.length = k + 3 := by
    rw [hline, ← hk]
    simp only [List.length_append, List.length_cons, List.length_nil]
    omega
  have hbehind : ((Place.start line).advance k).rest =
      [' ', '/', '/'] := by
    have hcut : line =
        (("push" ++ Text.decimal width).toList ++
          ' ' :: '&' :: (space.toList ++ ':' :: ':' :: name.toList)) ++ [' ', '/', '/'] := by
      rw [hline]
      simp
    rw [Place.rest_advance]
    show line.drop k = _
    rw [hcut]
    refine List.drop_left' ?_
    rw [← hk]
    simp only [List.length_append, List.length_cons]
    omega
  have hcomment : comment ((Place.start line).advance k) =
      some ((), 3) :=
    @comment_eq [] _ [' '] [] [] hbehind (forall_mem_of_all (by decide)) List.not_mem_nil .last
  rw [hlength]
  refine segment_of_statement hp (statement_eq_some_iff.mpr
    ⟨k, some (), 3, .commandOnly hlabel hcommand, optional_eq hcomment, rfl⟩) ?_
  intro text m hunknown
  have hle := length_unknownLine_le hp hunknown
  have hline := (List.takeWhile_sublist (l := line)
    (· != '\n')).length_le
  rw [hlength] at hline
  exact Nat.le_trans hle hline

/-- So it is all that the grammar finds in the line. -/
theorem segments_referenceLine (hwidth : width < 100) (hspace : IsName space)
    (hname : IsName name) :
    segments (Text.expandTabs (referenceLine width space name).toList) =
      ([⟨(referenceLine width space name).toList.takeWhile Text.isSkipped,
        (referenceLine width space name).toList, .statement,
        [.ok (referencePush width space name)]⟩], []) := by
  have htabs : Text.expandTabs (referenceLine width space name).toList =
      (referenceLine width space name).toList :=
    expandTabsFrom_eq_self (not_mem_referenceLine hspace hname (Or.inl rfl)) 0
  have hp := (starts_referenceLine width space name).blanks_eq_zero rfl
  have hsegment := segment_referenceLine hwidth hspace hname
  rw [htabs]
  generalize (referenceLine width space name).toList = line at hp hsegment ⊢
  have hend : ((Place.start line).advance line.length).rest = [] := List.drop_length
  have htake : (Place.start line).rest.take line.length = line := List.take_length
  rw [segments, segmentsFrom_of_some hsegment, segmentsFrom_of_none (segment_eq_none hend), hp,
    htake, List.drop_zero]
  dsimp only
  rw [hend]
  rfl

/-- The line asks for the push and for nothing else. -/
theorem actions_referenceLine (hwidth : width < 100) (hspace : IsName space)
    (hname : IsName name) :
    actions (referenceLine width space name).toList = .ok [referencePush width space name] := by
  rw [actions, segments_referenceLine hwidth hspace hname]
  rfl

/-- It may be put above any text, and the two ask for the push and for what the text asks for. -/
theorem actions_referenceLine_above (hwidth : width < 100) (hspace : IsName space)
    (hname : IsName name) {text : List Char} {found : List Action} (h : actions text = .ok found) :
    actions ((referenceLine width space name).toList ++ '\n' :: text) =
      .ok (referencePush width space name :: found) := by
  -- The comment is where the line ends, so no part of it can go on below.
  have hclosed : ¬EndsOpen (referenceLine width space name).toList := by
    rintro ⟨last, hlast, hslash⟩
    rw [segments_referenceLine hwidth hspace hname] at hlast
    obtain rfl := Option.some.inj hlast
    refine hslash ?_
    rw [toList_referenceLine]
    simp
  refine (actions_append_line_iff (actions_referenceLine hwidth hspace hname) h ?_
    fun hopen => absurd hopen hclosed).mpr fun hopen => absurd hopen hclosed
  intro text hmem
  cases List.mem_singleton.mp hmem

end

end EvmAssembler.Source
