import EvmAssembler.Proofs.Source.Tabs
import EvmAssembler.Proofs.Source.Yield

/-!
# `EvmAssembler.Proofs.Source.Listing`: a listing is read as its program

Segments do not follow the lines of a listing. A statement passes over line ends in search of
a comment and takes the first one it meets, and a segment may start in the middle of a line.
What every segment leaves is a listing again, of the instructions that are still to be read:

* `Ahead` is what a listing looks like at its first character that is not skipped: the end, a
  comment, or a spelled instruction.
* `Spelling.exists_cons` and `label_eq_none_of_spelling` are what words have in common: how
  they start, and that none of them is a label.
* `reads_of_listing` reads one segment and says what is left. The instruction on a line is
  taken, and not the rejection of the line, because a statement is never shorter.
* `exists_actions_of_listing` goes through all segments: their actions issue the program, one
  for one, and nothing is left over.
-/

set_option autoImplicit false

namespace EvmAssembler.Source

open Recogniser

/-! ### What a listing starts with -/

/-- What follows a line: nothing, or a line feed and the listing of what is still to come. -/
inductive LineEnd : List Instruction → List Char → Prop where
  | last : LineEnd [] []
  | next {p : List Instruction} {text : List Char} : Listing p text → LineEnd p ('\n' :: text)

/-- A listing from its first character that is not skipped. -/
inductive Ahead : List Instruction → List Char → Prop where
  | done : Ahead [] []
  | comment {p : List Instruction} {text rest : List Char} : '\n' ∉ text → LineEnd p rest →
    Ahead p ('/' :: '/' :: (text ++ rest))
  | word {i : Instruction} {p : List Instruction} {word trailer rest : List Char} :
    Spelling i word → IsTrailer trailer → LineEnd p rest →
    Ahead (i :: p) (word ++ (trailer ++ rest))

/-- A trailer in front of what follows a line makes a listing of it, that of an empty line. -/
theorem LineEnd.listing {p : List Instruction} {rest trailer : List Char} (h : LineEnd p rest)
    (htrailer : IsTrailer trailer) : Listing p (trailer ++ rest) := by
  cases h with
  | last =>
    rw [List.append_nil]
    exact .last htrailer
  | next hlisting => exact .empty htrailer hlisting

/-- There may be nothing in a margin. -/
theorem isMargin_nil : IsMargin [] := by
  intro c hc
  cases hc

/-- Every listing has skipped characters and then one of the three. -/
theorem Listing.exists_ahead {p : List Instruction} {text : List Char} (h : Listing p text) :
    ∃ gap rest, text = gap ++ rest ∧ (∀ c ∈ gap, Text.isSkipped c = true) ∧ Ahead p rest := by
  -- Lines are gone through up to the first that is not blank.
  induction h with
  | last htrailer =>
    cases htrailer with
    | margin hspace =>
      exact ⟨_, [], (List.append_nil _).symm, isSkipped_of_isMargin hspace, .done⟩
    | @comment space text hspace htext =>
      refine ⟨space, '/' :: '/' :: (text ++ []), ?_, isSkipped_of_isMargin hspace, ?_⟩
      · rw [List.append_nil]
      · exact .comment htext .last
  | @lastLine i margin word trailer hmargin hword htrailer =>
    refine ⟨margin, word ++ (trailer ++ []), ?_, isSkipped_of_isMargin hmargin, ?_⟩
    · rw [List.append_nil, List.append_assoc]
    · exact .word hword htrailer .last
  | @empty p trailer text htrailer hlisting ih =>
    cases htrailer with
    | margin hspace =>
      -- A blank line is skipped together with what is skipped behind it.
      obtain ⟨gap, rest, rfl, hgap, hahead⟩ := ih
      refine ⟨trailer ++ '\n' :: gap, rest, ?_, ?_, hahead⟩
      · rw [List.append_assoc, List.cons_append]
      · intro c hc
        rcases List.mem_append.mp hc with hc | hc
        · exact isSkipped_of_isMargin hspace c hc
        · rcases List.mem_cons.mp hc with rfl | hc
          · rfl
          · exact hgap c hc
    | @comment space comment hspace hcomment =>
      refine ⟨space, '/' :: '/' :: (comment ++ '\n' :: text), ?_, isSkipped_of_isMargin hspace,
        .comment hcomment (.next hlisting)⟩
      rw [List.append_assoc, List.cons_append, List.cons_append]
  | @line i p margin word trailer text hmargin hword htrailer hlisting _ =>
    refine ⟨margin, word ++ (trailer ++ '\n' :: text), ?_, isSkipped_of_isMargin hmargin,
      .word hword htrailer (.next hlisting)⟩
    rw [List.append_assoc, List.append_assoc]

/-! ### How words start -/

/-- Names go on with letters of ASCII, digits and underscores. -/
theorem isNameRest_iff {c : Char} :
    isNameRest c = true ↔ (65 ≤ c.toNat ∧ c.toNat ≤ 90) ∨ (97 ≤ c.toNat ∧ c.toNat ≤ 122) ∨
      (48 ≤ c.toNat ∧ c.toNat ≤ 57) ∨ c.toNat = 95 := by
  have hmark : c = '_' ↔ c.toNat = 95 := Char.toNat_inj.symm
  show (decide (c.val ≥ 'A'.val ∧ c.val ≤ 'Z'.val) || (c.val ≥ 'a'.val && c.val ≤ 'z'.val) ||
    c.isDigit || c == '_') = true ↔ _
  rw [Bool.or_eq_true, Bool.or_eq_true, Bool.or_eq_true, Bool.and_eq_true, decide_eq_true_iff,
    decide_eq_true_iff, decide_eq_true_iff, beq_iff_eq, hmark, Text.isDigit_iff, or_assoc, or_assoc]
  exact Iff.rfl

/-- Case decides nothing about what a name may have. -/
theorem isNameRest_of_toLower_eq {c d : Char} (h : c.toLower = d.toLower)
    (hd : isNameRest d = true) : isNameRest c = true := by
  have hname := isNameRest_iff.mp hd
  have hnat := toNat_of_toLower_eq h
  rw [isNameRest_iff]
  omega

/-- Names may be written in any case. -/
theorem SameLetters.isNameRest {written letters : List Char} (h : SameLetters written letters)
    (hletters : ∀ d ∈ letters, isNameRest d = true) : ∀ c ∈ written, isNameRest c = true := by
  intro c hc
  obtain ⟨d, hd, hcd⟩ := h.exists_of_mem hc
  exact isNameRest_of_toLower_eq hcd (hletters d hd)

/-- Mnemonics are made of capitals and digits, so they could be names. -/
theorem isNameRest_of_mem_name (op : Opcode) : ∀ c ∈ op.name.toList, isNameRest c = true := by
  intro c hc
  have hname := (isUpper_or_isDigit_of_mem_name op c hc).1
  rw [Bool.or_eq_true] at hname
  show (c.isUpper || c.isLower || c.isDigit || c == '_') = true
  rcases hname with hname | hname <;> simp [hname]

/-- So could a keyword with a number behind it. -/
theorem isNameRest_of_mem_keyword {letters : List Char} (n : Nat)
    (h : ∀ c ∈ letters, isNameRest c = true) :
    ∀ c ∈ letters ++ (Text.decimal n).toList, isNameRest c = true := by
  intro c hc
  rcases List.mem_append.mp hc with hc | hc
  · exact h c hc
  · have htext : (Text.decimal n).toList = Nat.toDigits 10 n := String.toList_ofList
    rw [htext] at hc
    have hdigit := Text.isDigit_iff.mp (Nat.isDigit_of_mem_toDigits (by decide) (by decide) hc)
    exact isNameRest_iff.mpr (Or.inr (Or.inr (Or.inl hdigit)))

/-- Whatever is written starts as a name does, or with the dot of a directive. -/
theorem Spelling.exists_cons {i : Instruction} {word : List Char} (h : Spelling i word) :
    ∃ c rest, word = c :: rest ∧ (isNameRest c = true ∨ c = '.') := by
  have hfirst : ∀ {written letters : List Char} {d : Char}, SameLetters written (d :: letters) →
      isNameRest d = true → ∃ c rest, written = c :: rest ∧ isNameRest c = true := by
    intro written letters d hsame hd
    obtain ⟨c, rest, rfl, hcd, -⟩ := hsame.exists_cons
    exact ⟨c, rest, rfl, isNameRest_of_toLower_eq hcd hd⟩
  cases h with
  | @fixed op _ hword =>
    obtain ⟨d, e, letters, hname, -⟩ := exists_initials op
    have hd := isNameRest_of_mem_name op d (hname ▸ List.mem_cons_self)
    obtain ⟨c, rest, rfl, hc⟩ := hfirst (hname ▸ hword) hd
    exact ⟨c, rest, rfl, Or.inl hc⟩
  | dup _ _ hword =>
    have hsame : SameLetters word ('d' :: (['u', 'p'] ++ _)) := hword.small rfl
    obtain ⟨c, rest, rfl, hc⟩ := hfirst hsame rfl
    exact ⟨c, rest, rfl, Or.inl hc⟩
  | swap _ _ hword =>
    have hsame : SameLetters word ('s' :: (['w', 'a', 'p'] ++ _)) := hword.small rfl
    obtain ⟨c, rest, rfl, hc⟩ := hfirst hsame rfl
    exact ⟨c, rest, rfl, Or.inl hc⟩
  | @push data keyword space literal _ _ hword _ _ _ =>
    have hsame : SameLetters keyword ('p' :: (['u', 's', 'h'] ++ _)) := hword.small rfl
    obtain ⟨c, rest, rfl, hc⟩ := hfirst hsame rfl
    exact ⟨c, rest ++ space ++ literal, rfl, Or.inl hc⟩
  | @byte b directive space literal hword _ _ =>
    have hsame : SameLetters directive ('.' :: ['b', 'y', 't', 'e']) := hword
    obtain ⟨c, rest, rfl, hc, -⟩ := hsame.exists_cons
    exact ⟨c, rest ++ space ++ literal, rfl, Or.inr (eq_of_toLower_eq hc (by decide))⟩

/-- So it is not skipped, and it is the start of no comment and no colon. -/
theorem Spelling.head {i : Instruction} {word after : List Char} (h : Spelling i word) :
    ∀ c ∈ (word ++ after).head?, Text.isSkipped c = false ∧ c ≠ '/' ∧ c ≠ ':' := by
  obtain ⟨d, rest, rfl, hd⟩ := h.exists_cons
  intro c hc
  obtain rfl : d = c := Option.some.inj hc
  refine ⟨?_, ?_, ?_⟩
  · rcases hd with hd | rfl
    · exact isSkipped_eq_false hd (by decide)
    · rfl
  · rintro rfl
    revert hd
    decide
  · rintro rfl
    revert hd
    decide

/-- What a listing starts with is not skipped, and it is no colon. -/
theorem Ahead.head {p : List Instruction} {rest : List Char} (h : Ahead p rest) :
    ∀ c ∈ rest.head?, Text.isSkipped c = false ∧ c ≠ ':' := by
  intro c hc
  cases h with
  | done => cases hc
  | comment _ _ =>
    obtain rfl : '/' = c := Option.some.inj hc
    decide
  | word hword _ _ =>
    obtain ⟨hskip, -, hcolon⟩ := hword.head c hc
    exact ⟨hskip, hcolon⟩

/-- No listing goes on with a colon. -/
theorem Listing.head_ne_colon {p : List Instruction} {text : List Char} (h : Listing p text) :
    ∀ c ∈ (text.dropWhile Text.isSkipped).head?, c ≠ ':' := by
  obtain ⟨gap, rest, rfl, hgap, hahead⟩ := h.exists_ahead
  have hdrop : rest.dropWhile Text.isSkipped = rest := by
    cases rest with
    | nil => rfl
    | cons c rest =>
      have hc := (hahead.head c rfl).1
      exact List.dropWhile_cons_of_neg (by rw [hc]; exact Bool.false_ne_true)
  rw [List.dropWhile_append_of_pos hgap, hdrop]
  intro c hc
  exact (hahead.head c hc).2

/-! ### Lines -/

/-- A line is followed by a line feed, unless it is the last. -/
theorem LineEnd.head {p : List Instruction} {rest : List Char} (h : LineEnd p rest) :
    ∀ c ∈ rest.head?, c = '\n' := by
  intro c hc
  cases h with
  | last => cases hc
  | next _ => exact (Option.some.inj hc).symm

/-- A line goes as far as its line end. -/
theorem LineEnd.takeWhile_eq {p : List Instruction} {line rest : List Char} (h : LineEnd p rest)
    (hline : '\n' ∉ line) : (line ++ rest).takeWhile (· != '\n') = line := by
  refine Source.takeWhile_eq ?_ ?_
  · intro c hc
    rw [bne_iff_ne]
    rintro rfl
    exact hline hc
  · intro c hc
    rw [h.head c hc]
    rfl

/-- There are spaces and tabs in a margin, and no line feed. -/
theorem IsMargin.lineFeed_not_mem {space : List Char} (h : IsMargin space) : '\n' ∉ space := by
  intro hmem
  rcases h _ hmem with hc | hc <;> exact absurd hc (by decide)

/-- A trailer is a margin or a comment, and stays on its line. -/
theorem IsTrailer.lineFeed_not_mem {trailer : List Char} (h : IsTrailer trailer) :
    '\n' ∉ trailer := by
  cases h with
  | margin hspace => exact hspace.lineFeed_not_mem
  | comment hspace htext =>
    simp only [List.mem_append, List.mem_cons]
    rintro (hmem | hmem | hmem | hmem)
    · exact hspace.lineFeed_not_mem hmem
    · exact absurd hmem (by decide)
    · exact absurd hmem (by decide)
    · exact htext hmem

/-- A margin does not go on with a word either. -/
theorem IsMargin.stops {space after : List Char} (h : IsMargin space) (hafter : Stops after) :
    Stops (space ++ after) := by
  by_cases hne : space = []
  · rw [hne, List.nil_append]
    exact hafter
  · exact stops_of_isMargin h hne

/-- Words end where a trailer starts. -/
theorem IsTrailer.stops {p : List Instruction} {trailer rest : List Char} (h : IsTrailer trailer)
    (hend : LineEnd p rest) : Stops (trailer ++ rest) := by
  cases h with
  | margin hspace =>
    refine hspace.stops fun c hc => ?_
    exact Or.inr (Or.inr (Or.inr (hend.head c hc)))
  | comment hspace _ =>
    rw [List.append_assoc]
    refine hspace.stops fun c hc => ?_
    exact Or.inr (Or.inr (Or.inl (Option.some.inj hc).symm))

/-- A spelled instruction stands on one line. -/
theorem Spelling.lineFeed_not_mem {i : Instruction} {word : List Char} (h : Spelling i word) :
    '\n' ∉ word := by
  cases h with
  | fixed hword => exact not_mem_name hword (Or.inr rfl)
  | dup _ _ hword =>
    have hsame : SameLetters word (['d', 'u', 'p'] ++ _) := hword.small rfl
    exact not_mem_keyword (by omega) hsame (Or.inr rfl) (by decide)
  | swap _ _ hword =>
    have hsame : SameLetters word (['s', 'w', 'a', 'p'] ++ _) := hword.small rfl
    exact not_mem_keyword (by omega) hsame (Or.inr rfl) (by decide)
  | @push data keyword space literal h1 _ hword hspace _ hliteral =>
    have hsame : SameLetters keyword (['p', 'u', 's', 'h'] ++ _) := hword.small rfl
    have hkeyword := not_mem_keyword (by omega) hsame (Or.inr rfl) (by decide)
    have hshape := (literal_of_push h1 hliteral).1
    rw [List.append_assoc, List.mem_append, List.mem_append]
    rintro (hmem | hmem | hmem)
    · exact hkeyword hmem
    · exact hspace.lineFeed_not_mem hmem
    · exact not_mem_literal hshape (Or.inr rfl) hmem
  | @byte b directive space literal hword hspace hliteral =>
    have hdirective : '\n' ∉ directive := hword.not_mem (by decide) (by decide)
    have hshape := (literal_of_byte hliteral).1
    rw [List.append_assoc, List.mem_append, List.mem_append]
    rintro (hmem | hmem | hmem)
    · exact hdirective hmem
    · exact hspace.lineFeed_not_mem hmem
    · exact not_mem_literal hshape (Or.inr rfl) hmem

/-! ### No word is a label -/

/-- Nothing that is written is taken as a label: no colon follows, and a directive has its dot. -/
theorem label_eq_none_of_spelling {i : Instruction} {p : Place} {word after : List Char}
    (h : Spelling i word) (hp : p.blanks = 0) (hrest : p.rest = word ++ after)
    (hstop : Stops after) (hcolon : ∀ c ∈ (after.dropWhile Text.isSkipped).head?, c ≠ ':') :
    label p = none := by
  obtain ⟨c, tail, hcons, -⟩ := h.exists_cons
  cases h with
  | @fixed op _ hword =>
    exact label_eq_none hp hrest (hcons ▸ List.cons_ne_nil c tail)
      (hword.isNameRest (isNameRest_of_mem_name op)) hstop hcolon
  | dup _ _ hword =>
    have hsame : SameLetters word (['d', 'u', 'p'] ++ _) := hword.small rfl
    exact label_eq_none hp hrest (hcons ▸ List.cons_ne_nil c tail)
      (hsame.isNameRest (isNameRest_of_mem_keyword _ (forall_mem_of_all (by decide)))) hstop hcolon
  | swap _ _ hword =>
    have hsame : SameLetters word (['s', 'w', 'a', 'p'] ++ _) := hword.small rfl
    exact label_eq_none hp hrest (hcons ▸ List.cons_ne_nil c tail)
      (hsame.isNameRest (isNameRest_of_mem_keyword _ (forall_mem_of_all (by decide)))) hstop hcolon
  | @push data keyword space literal h1 _ hword hspace hne hliteral =>
    -- Only the keyword could be the name, and behind it the literal follows.
    have hsame : SameLetters keyword ('p' :: (['u', 's', 'h'] ++ _)) := hword.small rfl
    obtain ⟨k, ks, rfl, -⟩ := hsame.exists_cons
    obtain ⟨hshape, hmarked, -⟩ := literal_of_push h1 hliteral
    rw [List.append_assoc, List.append_assoc] at hrest
    refine label_eq_none hp hrest (List.cons_ne_nil k ks)
      (hsame.isNameRest
        (@isNameRest_of_mem_keyword ['p', 'u', 's', 'h'] _ (forall_mem_of_all (by decide))))
      (stops_of_isMargin hspace hne) ?_
    rw [List.dropWhile_append_of_pos (isSkipped_of_isMargin hspace)]
    cases hshape with
    | hex _ _ _ =>
      intro d hd
      obtain rfl : '0' = d := Option.some.inj hd
      decide
    | decimal _ hall =>
      rw [Text.isHexMarked_decimal hall] at hmarked
      cases hmarked
  | @byte b directive space literal hword _ _ =>
    have hsame : SameLetters directive ('.' :: ['b', 'y', 't', 'e']) := hword
    obtain ⟨d, ds, rfl, hd, -⟩ := hsame.exists_cons
    obtain rfl : d = '.' := eq_of_toLower_eq hd (by decide)
    refine andThen_eq_none _ ((token_eq name hp).trans (name_eq_none ?_))
    rw [hrest]
    intro e he
    obtain rfl : '.' = e := Option.some.inj he
    decide

/-! ### What each kind of segment makes of a line -/

section
variable {program : List Instruction} {p : Place} {gap rest : List Char}

/-- A comment is taken from its slashes to the end of its line. -/
theorem comment_eq {text : List Char} (hrest : p.rest = gap ++ '/' :: '/' :: (text ++ rest))
    (hgap : ∀ c ∈ gap, Text.isSkipped c = true) (htext : '\n' ∉ text)
    (hend : LineEnd program rest) : comment p = some ((), gap.length + 2 + text.length) := by
  have hblanks : p.blanks = gap.length := by
    refine Place.blanks_eq hrest hgap fun c hc => ?_
    obtain rfl : '/' = c := Option.some.inj hc
    rfl
  -- First the mark behind the blanks, then the line up to its end.
  have hmark : (exactly ['/', '/']).token p = some ((), gap.length + 2) := by
    have hbehind : (p.advance p.blanks).rest = ['/', '/'] ++ (text ++ rest) := by
      rw [Place.rest_advance, hblanks, hrest, List.drop_left]
      rfl
    rw [token, exactly_eq hbehind, hblanks]
    rfl
  have hline : (p.advance (gap.length + 2)).rest = text ++ rest := by
    rw [Place.rest_advance, hrest, ← List.drop_drop, List.drop_left]
    rfl
  refine andThen_eq hmark ?_
  rw [hline, hend.takeWhile_eq htext]

/-- There is no comment where something else than a slash is next. -/
theorem comment_eq_none (hrest : p.rest = gap ++ rest)
    (hgap : ∀ c ∈ gap, Text.isSkipped c = true)
    (hhead : ∀ c ∈ rest.head?, Text.isSkipped c = false ∧ c ≠ '/') : comment p = none := by
  have hblanks := Place.blanks_eq hrest hgap fun c hc => (hhead c hc).1
  refine andThen_eq_none _ ?_
  have hbehind : (p.advance p.blanks).rest = rest := by
    rw [Place.rest_advance, hblanks, hrest, List.drop_left]
  rw [token, exactly_eq_none fun c hc => (hhead c (hbehind ▸ hc)).2]
  rfl

/-- A rejection takes the line without the blanks at its end. -/
theorem length_le_of_unknownLine {line space : List Char} {n : Nat} {found : String}
    (hp : p.blanks = 0) (hrest : p.rest = line ++ space ++ rest) (hline : '\n' ∉ line)
    (hspace : IsMargin space) (hend : LineEnd program rest)
    (h : unknownLine p = some (found, n)) : n ≤ line.length := by
  have hall : '\n' ∉ line ++ space := by
    rw [List.mem_append]
    rintro (hmem | hmem)
    · exact hline hmem
    · exact hspace.lineFeed_not_mem hmem
  have hblank : ∀ c ∈ space.reverse, Text.isBlank c = true := by
    intro c hc
    exact Text.isBlank_of_isSkipped (isSkipped_of_isMargin hspace c (List.mem_reverse.mp hc))
  -- From the end of the line, the margin goes first, and maybe more.
  have hlength : (((line ++ space).reverse.dropWhile Text.isBlank).reverse).length ≤
      line.length := by
    rw [List.reverse_append, List.dropWhile_append_of_pos hblank, List.length_reverse,
      ← @List.length_reverse _ line]
    exact (List.dropWhile_sublist _).length_le
  rw [unknownLine, token_eq _ hp] at h
  simp only [hrest, hend.takeWhile_eq hall] at h
  split at h
  · cases h
  · obtain ⟨-, rfl⟩ := Prod.mk.inj (Option.some.inj h)
    exact hlength

/-- Where a comment stands, no command starts. -/
theorem command_eq_none (h : p.Starts '/' '/') : command p = none := by
  have hskip : Text.isSkipped '/' = false := rfl
  exact longer_eq_none (h.fixedCommand_eq_none hskip (by decide))
    (longer_eq_none (h.indexed_eq_none hskip _ _ (by decide))
      (longer_eq_none (h.indexed_eq_none hskip _ _ (by decide))
        (longer_eq_none (h.push_eq_none hskip (by decide)) (h.byte_eq_none hskip (by decide)))))

/-- Nor does a statement. -/
theorem statement_eq_none (h : p.Starts '/' '/') : statement p = none := by
  have hcommand := command_eq_none h
  have hp : p.blanks = 0 := h.blanks_eq_zero rfl
  have hlabel : label p = none := by
    obtain ⟨c, d, tail, hrest, -, -, hc, -⟩ := h
    obtain rfl : c = '/' := eq_of_toLower_eq hc (by decide)
    refine andThen_eq_none _ ((token_eq name hp).trans (name_eq_none ?_))
    rw [hrest]
    intro e he
    obtain rfl : '/' = e := Option.some.inj he
    decide
  refine andThen_eq_none _ ?_
  rw [instructionLine, orElse_eq_right _ (andThen_eq_none _ hlabel)]
  exact map_eq_none _ hcommand

end

/-! ### One segment -/

/-- Nothing before the place would go on with a mnemonic at it. -/
def Place.IsClear (p : Place) : Prop :=
  (∀ c ∈ p.rest.head?, Text.isSkipped c = true) ∨ p.before.any continuesMnemonic = false

/-- Behind the skipped characters a mnemonic may stand. -/
theorem Place.IsClear.before_advance_blanks {p : Place} (h : p.IsClear) {c : Char}
    (hc : (p.advance p.blanks).rest.head? = some c) :
    (p.advance p.blanks).before.any continuesMnemonic = false := by
  rw [Place.rest_advance_blanks] at hc
  by_cases hgap : p.rest.takeWhile Text.isSkipped = []
  · -- Nothing is skipped, so the place itself is what counts.
    have hblanks : p.blanks = 0 := by
      rw [Place.blanks, hgap]
      rfl
    have hdrop : p.rest.dropWhile Text.isSkipped = p.rest := by
      conv_rhs => rw [← @List.takeWhile_append_dropWhile _ Text.isSkipped p.rest, hgap]
      rfl
    rw [hblanks, Place.advance_zero]
    rcases h with hskip | hbefore
    · rw [hdrop] at hc
      have hhead := List.head?_dropWhile_not Text.isSkipped p.rest
      rw [hdrop, hc] at hhead
      have hstart : Text.isSkipped c = false := hhead
      rw [hskip c hc] at hstart
      cases hstart
    · exact hbefore
  · have htake : p.rest.take p.blanks = p.rest.takeWhile Text.isSkipped :=
      (List.prefix_iff_eq_take.mp (List.takeWhile_prefix _)).symm
    have hlast := List.getLast?_eq_some_getLast hgap
    show ((p.rest.take p.blanks).getLast?.or p.before).any continuesMnemonic = false
    rw [htake, hlast]
    have hskipped := List.all_eq_true.mp List.all_takeWhile _ (List.getLast_mem hgap)
    show continuesMnemonic _ = false
    rw [Bool.eq_false_iff]
    intro hcontinues
    rw [isSkipped_eq_false hcontinues (by decide)] at hskipped
    cases hskipped

/-- Where a line has ended, what is next is skipped. -/
theorem LineEnd.isSkipped_head {program : List Instruction} {rest : List Char}
    (h : LineEnd program rest) : ∀ c ∈ rest.head?, Text.isSkipped c = true := by
  intro c hc
  rw [h.head c hc]
  rfl

/-- So it is where a margin is left of the line. -/
theorem IsMargin.isSkipped_head {program : List Instruction} {space rest : List Char}
    (h : IsMargin space) (hend : LineEnd program rest) :
    ∀ c ∈ (space ++ rest).head?, Text.isSkipped c = true := by
  cases space with
  | nil => exact hend.isSkipped_head
  | cons d space =>
    intro c hc
    obtain rfl : d = c := Option.some.inj hc
    exact isSkipped_of_isMargin h d List.mem_cons_self

/-- The comment a statement takes behind its word: the one on its line, or the first one on a
later line, or none. A listing is left in any case. -/
theorem comment_of_trailer {program : List Instruction} {p : Place} {trailer rest : List Char}
    (h : IsTrailer trailer) (hend : LineEnd program rest) (hrest : p.rest = trailer ++ rest) :
    ∃ found n, comment.optional p = some (found, n) ∧ (IsMargin trailer ∨ n = trailer.length) ∧
      Listing program (p.rest.drop n) ∧ ∀ c ∈ (p.rest.drop n).head?, Text.isSkipped c = true := by
  -- Wherever the comment stands, it is taken with all that is in front of it.
  have htaken : ∀ gap text later, p.rest = gap ++ '/' :: '/' :: (text ++ later) →
      (∀ c ∈ gap, Text.isSkipped c = true) → '\n' ∉ text → LineEnd program later →
      comment p = some ((), gap.length + 2 + text.length) ∧
        p.rest.drop (gap.length + 2 + text.length) = later := by
    intro gap text later hsplit hgap htext hlater
    refine ⟨comment_eq hsplit hgap htext hlater, ?_⟩
    rw [hsplit, Nat.add_assoc, ← List.drop_drop, List.drop_left, ← List.drop_drop]
    exact List.drop_left
  have hnothing : IsMargin [] := isMargin_nil
  cases h with
  | @comment space text hspace htext =>
    rw [List.append_assoc] at hrest
    obtain ⟨hcomment, hleft⟩ :=
      htaken space text rest hrest (isSkipped_of_isMargin hspace) htext hend
    refine ⟨some (), _, optional_eq hcomment, Or.inr ?_, ?_⟩
    · rw [List.length_append, List.length_cons, List.length_cons]
      omega
    · rw [hleft]
      exact ⟨hend.listing (.margin hnothing), hend.isSkipped_head⟩
  | margin hspace =>
    -- Without a comment on the line, what comes next in the listing decides.
    have hlisting := hend.listing (.margin hspace)
    obtain ⟨gap, tail, hsplit, hgap, hahead⟩ := hlisting.exists_ahead
    have hpass : comment p = none → ∃ found n, comment.optional p = some (found, n) ∧
        (IsMargin trailer ∨ n = trailer.length) ∧ Listing program (p.rest.drop n) ∧
        ∀ c ∈ (p.rest.drop n).head?, Text.isSkipped c = true := by
      intro hnone
      refine ⟨none, 0, optional_eq_none hnone, Or.inl hspace, ?_⟩
      rw [List.drop_zero, hrest]
      exact ⟨hlisting, hspace.isSkipped_head hend⟩
    rw [hsplit] at hrest
    cases hahead with
    | done =>
      refine hpass (comment_eq_none hrest hgap ?_)
      intro c hc
      cases hc
    | @comment _ text later htext hlater =>
      obtain ⟨hcomment, hleft⟩ := htaken gap text later hrest hgap htext hlater
      refine ⟨some (), _, optional_eq hcomment, Or.inl hspace, ?_⟩
      rw [hleft]
      exact ⟨hlater.listing (.margin hnothing), hlater.isSkipped_head⟩
    | word hword _ _ =>
      refine hpass (comment_eq_none hrest hgap fun c hc => ?_)
      obtain ⟨hskip, hslash, -⟩ := hword.head c hc
      exact ⟨hskip, hslash⟩

/-- What a word makes of the place it stands at: a statement that no rejection of its line is
longer than, with a listing of the rest behind it. -/
theorem statement_of_spelling {i : Instruction} {program : List Instruction} {p : Place}
    {word trailer rest : List Char} (h : Spelling i word) (htrailer : IsTrailer trailer)
    (hend : LineEnd program rest) (hp : p.blanks = 0) (hrest : p.rest = word ++ (trailer ++ rest))
    (hbefore : p.before.any continuesMnemonic = false) :
    ∃ a n, statement p = some ([.ok a], n) ∧ a.Issues i ∧
      (∀ found m, unknownLine p = some (found, m) → m ≤ n) ∧ Listing program (p.rest.drop n) ∧
      ∀ c ∈ (p.rest.drop n).head?, Text.isSkipped c = true := by
  have hstop := htrailer.stops hend
  obtain ⟨a, hcommand, hissues⟩ := command_of_spelling h hrest hstop hbefore
  have hline : instructionLine p = some ([.ok a], word.length) := by
    have hcolon := (hend.listing htrailer).head_ne_colon
    have hlabel := label_eq_none_of_spelling h hp hrest hstop hcolon
    rw [instructionLine, orElse_eq_right _ (andThen_eq_none _ hlabel)]
    exact map_eq _ hcommand
  have hbehind : (p.advance word.length).rest = trailer ++ rest := by
    rw [Place.rest_advance, hrest, List.drop_left]
  obtain ⟨found, n, hcomment, hlength, hlisting, hhead⟩ := comment_of_trailer htrailer hend hbehind
  rw [Place.rest_advance, List.drop_drop] at hlisting hhead
  refine ⟨a, word.length + n, andThen_eq hline (map_eq _ hcomment), hissues, ?_, hlisting, hhead⟩
  intro text m hunknown
  rcases hlength with hspace | hlength
  · -- A rejection would end with the word.
    have hshort := length_le_of_unknownLine hp (by rw [hrest, List.append_assoc])
      h.lineFeed_not_mem hspace hend hunknown
    omega
  · -- The comment on the line is the statement's, and then the two take as much.
    have hall : '\n' ∉ word ++ trailer := by
      rw [List.mem_append]
      rintro (hmem | hmem)
      · exact h.lineFeed_not_mem hmem
      · exact htrailer.lineFeed_not_mem hmem
    have hle := length_le_of_unknownLine hp
      (by rw [hrest, List.append_nil, List.append_assoc]) hall isMargin_nil hend hunknown
    rw [List.length_append] at hle
    omega

/-- Whatever a segment took would have to shorten the text. -/
theorem segment_eq_none {p : Place} (h : p.rest = []) : segment p = none := by
  cases hfound : segment p with
  | none => rfl
  | some found =>
    have hlt := consumes_segment p found.1 found.2 hfound
    rw [h] at hlt
    exact absurd hlt (by simp)

/-- A rejection of the line takes no more than the comment on it, and the comment is asked
first. -/
theorem segment_of_comment {program : List Instruction} {p : Place} {text rest : List Char}
    (hp : p.blanks = 0) (hrest : p.rest = '/' :: '/' :: (text ++ rest)) (htext : '\n' ∉ text)
    (hend : LineEnd program rest) : segment p = some ((.comment, []), 2 + text.length) := by
  have hstatement : statement p = none :=
    statement_eq_none ⟨'/', '/', _, hrest, by decide, by decide, rfl, rfl⟩
  have hcomment : comment p = some ((), 2 + text.length) := by
    have hfound := @comment_eq program p [] rest text hrest (fun _ hc => by cases hc) htext hend
    rwa [List.length_nil, Nat.zero_add] at hfound
  have hall : '\n' ∉ '/' :: '/' :: text := by
    simp only [List.mem_cons, not_or]
    exact ⟨by decide, by decide, htext⟩
  have hline : p.rest = '/' :: '/' :: text ++ [] ++ rest := by
    rw [hrest, List.append_nil]
    rfl
  rw [segment, longer_eq_right _ (map_eq_none _ hstatement)]
  refine longer_eq_of_le (map_eq _ hcomment) ?_
  intro found m hunknown
  obtain ⟨line, hunknown, -⟩ := map_eq_some_iff.mp hunknown
  have hle := length_le_of_unknownLine hp hline hall isMargin_nil hend hunknown
  simp only [List.length_cons] at hle
  omega

/-- A word is no comment, and a rejection of its line takes no more than its statement. -/
theorem segment_of_spelling {i : Instruction} {program : List Instruction} {p : Place}
    {word trailer rest : List Char} (h : Spelling i word) (htrailer : IsTrailer trailer)
    (hend : LineEnd program rest) (hp : p.blanks = 0) (hrest : p.rest = word ++ (trailer ++ rest))
    (hbefore : p.before.any continuesMnemonic = false) :
    ∃ a n, segment p = some ((.statement, [.ok a]), n) ∧ a.Issues i ∧
      Listing program (p.rest.drop n) ∧ ∀ c ∈ (p.rest.drop n).head?, Text.isSkipped c = true := by
  obtain ⟨a, n, hstatement, hissues, hlonger, hlisting, hnext⟩ :=
    statement_of_spelling h htrailer hend hp hrest hbefore
  have hcomment : comment p = none := by
    refine @comment_eq_none p [] _ hrest (fun _ hc => by cases hc) ?_
    intro c hc
    obtain ⟨hstart, hslash, -⟩ := h.head c hc
    exact ⟨hstart, hslash⟩
  refine ⟨a, n, longer_eq_of_le (map_eq _ hstatement) ?_, hissues, hlisting, hnext⟩
  rw [longer_eq_right _ (map_eq_none _ hcomment)]
  intro found m hunknown
  obtain ⟨line, hunknown, -⟩ := map_eq_some_iff.mp hunknown
  exact hlonger line m hunknown

/-- What the segment at a place makes of the listing there. -/
inductive Reads (p : Place) : List Instruction → Prop where
  | done : segment p = none → (∀ c ∈ p.rest, Text.isSkipped c = true) → Reads p []
  | comment {program : List Instruction} {n : Nat} : segment p = some ((.comment, []), n) →
    Listing program (p.advance n).rest → (p.advance n).IsClear → Reads p program
  | statement {i : Instruction} {program : List Instruction} {a : Action} {n : Nat} :
    segment p = some ((.statement, [.ok a]), n) → a.Issues i →
    Listing program (p.advance n).rest → (p.advance n).IsClear → Reads p (i :: program)

/-- A listing's first segment takes an instruction of the program, a comment, or nothing. -/
theorem reads_of_listing {program : List Instruction} {p : Place} (h : Listing program p.rest)
    (hclear : p.IsClear) : Reads p program := by
  obtain ⟨gap, rest, hrest, hgap, hahead⟩ := h.exists_ahead
  have hblanks : p.blanks = gap.length :=
    Place.blanks_eq hrest hgap fun c hc => (hahead.head c hc).1
  have hbehind : (p.advance p.blanks).rest = rest := by
    rw [Place.rest_advance, hblanks, hrest, List.drop_left]
  have hp : (p.advance p.blanks).blanks = 0 := p.blanks_advance_blanks
  -- The segment is the one behind the blanks, so what matters is what stands there.
  have hskip := skipsFirst_segment p
  cases hahead with
  | done =>
    rw [segment_eq_none hbehind] at hskip
    refine .done hskip ?_
    rw [hrest, List.append_nil]
    exact hgap
  | @comment _ text later htext hlater =>
    rw [segment_of_comment hp hbehind htext hlater] at hskip
    have hleft : (p.advance (p.blanks + (2 + text.length))).rest = later := by
      rw [← Place.advance_advance, Place.rest_advance, hbehind, ← List.drop_drop]
      exact List.drop_left
    refine .comment hskip ?_ (Or.inl ?_)
    · rw [hleft]
      exact hlater.listing (.margin isMargin_nil)
    · rw [hleft]
      exact hlater.isSkipped_head
  | @word i program word trailer later hword htrailer hlater =>
    obtain ⟨c, tail, hcons, -⟩ := hword.exists_cons
    have hhead : (p.advance p.blanks).rest.head? = some c := by
      rw [hbehind, hcons]
      rfl
    obtain ⟨a, n, hfound, hissues, hlisting, hnext⟩ :=
      segment_of_spelling hword htrailer hlater hp hbehind (hclear.before_advance_blanks hhead)
    rw [hfound] at hskip
    refine .statement hskip hissues ?_ (Or.inl ?_)
    · rw [← Place.advance_advance]
      exact hlisting
    · rw [← Place.advance_advance]
      exact hnext

/-! ### All segments -/

/-- The segments of a listing issue its program, and nothing is left over. -/
theorem exists_actions_of_listing {program : List Instruction} {p : Place}
    (h : Listing program p.rest) (hclear : p.IsClear) :
    ∃ as : List Action, (segmentsFrom p).1.flatMap Segment.actions = as.map .ok ∧
      List.Forall₂ Action.Issues as program ∧
      ∀ c ∈ (segmentsFrom p).2.rest, Text.isSkipped c = true := by
  -- What a segment leaves is a listing, and clear in front, so the induction goes on.
  fun_induction segmentsFrom p generalizing program with
  | case1 p hnone =>
    cases reads_of_listing h hclear with
    | done _ hskip => exact ⟨[], rfl, .nil, hskip⟩
    | comment hfound _ _ =>
      rw [hnone] at hfound
      cases hfound
    | statement hfound _ _ _ =>
      rw [hnone] at hfound
      cases hfound
  | case2 p kind actions n found _ _ later finish hrest =>
    rename_i ih
    cases reads_of_listing h hclear with
    | done hnone _ =>
      rw [hnone] at found
      cases found
    | comment hfound hlisting hnext =>
      rw [hfound] at found
      cases found
      obtain ⟨as, hactions, hissues, hleft⟩ := ih hlisting hnext
      rw [hrest] at hactions hleft
      exact ⟨as, hactions, hissues, hleft⟩
    | @statement i program a _ hfound hissue hlisting hnext =>
      rw [hfound] at found
      cases found
      obtain ⟨as, hactions, hissues, hleft⟩ := ih hlisting hnext
      rw [hrest] at hactions hleft
      refine ⟨a :: as, ?_, .cons hissue hissues, hleft⟩
      rw [List.flatMap_cons, hactions]
      rfl

/-- A listing is read as actions that issue its program, one for one. -/
theorem actions_of_listing {program : List Instruction} {text : List Char}
    (h : Listing program text) :
    ∃ as, actions text = .ok as ∧ List.Forall₂ Action.Issues as program := by
  -- The grammar sees the text with its tabs widened, and nothing stands before its start.
  have hexpanded : Listing program (Place.start (Text.expandTabs text)).rest :=
    h.expandTabsFrom 0
  obtain ⟨as, hactions, hissues, hleft⟩ := exists_actions_of_listing hexpanded (Or.inr rfl)
  refine ⟨as, ?_, hissues⟩
  have hread := mapM_id_eq_ok_iff.mpr hactions
  show (((segmentsFrom (.start (Text.expandTabs text))).1.flatMap Segment.actions).mapM id).bind _ =
    .ok as
  rw [hread]
  exact if_pos (List.all_eq_true.mpr hleft)

end EvmAssembler.Source
