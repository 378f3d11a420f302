import EvmAssembler.Proofs.Source.Segments

/-!
# `EvmAssembler.Proofs.Source.Written`: what is taken for an action writes that action

A recogniser says what it has found and how many characters it has taken. `LabelText`,
`CommandText` and `StatementText` say which characters these can be: how an action is written,
with gaps of skipped characters between its words. Nothing else stands in a statement, so no part
of one is passed over in reading it. The relations do not mention recognisers.

`Recogniser.Reads` says of a recogniser that it takes only such texts. As with `Yields`, it passes
through each way of putting recognisers together, and the grammar's own rules follow from their
leaves. An index of too many digits writes no action, and it is the only thing in a statement that
does not.
-/

set_option autoImplicit false

namespace EvmAssembler.Source

/-! ### Ways to write actions -/

/-- Skipped characters, any number of them. -/
def IsGap (text : List Char) : Prop :=
  ∀ c ∈ text, Text.isSkipped c = true

/-- A gap and behind it a text of some kind. -/
def Spaced (P : List Char → Prop) (text : List Char) : Prop :=
  ∃ gap word, text = gap ++ word ∧ IsGap gap ∧ P word

/-- The letters of a keyword in any case. -/
def IsKeyword (letters word : List Char) : Prop :=
  List.Forall₂ (fun l c => Text.sameLetter l c = true) letters word

/-- A keyword with a number attached. -/
inductive IndexText (letters : List Char) : List Char → List Char → Prop where
  | mk {word digits : List Char} : IsKeyword letters word → digits ≠ [] →
    (∀ c ∈ digits, c.isDigit = true) → IndexText letters digits (word ++ digits)

/-- The ways to write the path of a reference. -/
inductive PathText : LabelPath → List Char → Prop where
  | plain {name : String} : IsName name → PathText [name] name.toList
  | qualified {space name : String} {gap gap' : List Char} : IsName space → IsGap gap →
    IsGap gap' → IsName name →
    PathText [space, name] (space.toList ++ (gap ++ ':' :: ':' :: (gap' ++ name.toList)))

/-- The ways to write what a push is given. -/
inductive OperandText : PushOperand → List Char → Prop where
  | literal {text : String} : Text.IsLiteral text.toList → OperandText (.literal text) text.toList
  | reference {path : LabelPath} {gap text : List Char} : IsGap gap → PathText path text →
    OperandText (.reference path) ('&' :: (gap ++ text))

/-- The ways to write an action that is a command. -/
inductive CommandText : Action → List Char → Prop where
  | opcode {op : Opcode} {word : List Char} : Text.capitals word = op.name.toList →
    CommandText (.opcode op) word
  | dup {digits text : List Char} : IndexText ['d', 'u', 'p'] digits text →
    CommandText (.dup (Text.ofDigits 10 (digits.map Text.digitValue))) text
  | swap {digits text : List Char} : IndexText ['s', 'w', 'a', 'p'] digits text →
    CommandText (.swap (Text.ofDigits 10 (digits.map Text.digitValue))) text
  | push {word digits gap text : List Char} {operand : PushOperand} :
    IsKeyword ['p', 'u', 's', 'h'] word → (∀ c ∈ digits, c.isDigit = true) → IsGap gap →
    OperandText operand text →
    CommandText (.push (String.ofList (word ++ digits)) operand) (word ++ digits ++ (gap ++ text))
  | byte {word gap : List Char} {literal : String} :
    Text.capitals word = ['.', 'B', 'Y', 'T', 'E'] → IsGap gap → Text.IsLiteral literal.toList →
    CommandText (.byte literal) (word ++ (gap ++ literal.toList))

/-- The ways to write the definition of a label. -/
inductive LabelText : Action → List Char → Prop where
  | mk {name : String} {gap : List Char} : IsName name → IsGap gap →
    LabelText (.label name) (name.toList ++ (gap ++ [':']))

/-- Two slashes and more of the line. -/
inductive CommentText : List Char → Prop where
  | mk {body : List Char} : '\n' ∉ body → CommentText ('/' :: '/' :: body)

/-- The word of a `dup` or `swap` with these digits for its index. -/
def IsIndex (digits word : List Char) : Prop :=
  IndexText ['d', 'u', 'p'] digits word ∨ IndexText ['s', 'w', 'a', 'p'] digits word

/-- The ways to write what a command comes to: an action, or an index of too many digits. -/
inductive OutcomeText : Except Error Action → List Char → Prop where
  | action {a : Action} {text : List Char} : CommandText a text → OutcomeText (.ok a) text
  | tooLong {digits text : List Char} : IsIndex digits text →
    Text.maxDecimalDigits < digits.length → OutcomeText (.error .tooManyDigits) text

/-- What may stand in front of a command: a label, or nothing. -/
inductive LeadText : Finding → List Char → Prop where
  | none : LeadText [] []
  | label {l : Action} {text gap : List Char} : LabelText l text → IsGap gap →
    LeadText [.ok l] (text ++ gap)

/-- What may stand behind it: a comment, or nothing. -/
inductive TrailText : List Char → Prop where
  | none : TrailText []
  | comment {gap text : List Char} : IsGap gap → CommentText text → TrailText (gap ++ text)

/-- The ways to write a label, a command, or both. -/
inductive LineText : Finding → List Char → Prop where
  | label {l : Action} {text : List Char} : LabelText l text → LineText [.ok l] text
  | command {found : Finding} {c : Except Error Action} {lead text : List Char} :
    LeadText found lead → OutcomeText c text → LineText (found ++ [c]) (lead ++ text)

/-- The ways to write a statement. -/
inductive StatementText (found : Finding) : List Char → Prop where
  | mk {text trail : List Char} : LineText found text → TrailText trail →
    StatementText found (text ++ trail)

/-- A statement with a `dup` or `swap` for its command, by the digits of the index. -/
inductive IndexStatement (digits : List Char) : List Char → Prop where
  | mk {found : Finding} {lead word trail : List Char} : LeadText found lead →
    IsIndex digits word → TrailText trail → IndexStatement digits (lead ++ word ++ trail)

/-- A statement asks for one thing or for two. -/
theorem StatementText.length {found : Finding} {text : List Char} (h : StatementText found text) :
    found.length = 1 ∨ found.length = 2 := by
  obtain ⟨hline, -⟩ := h
  cases hline with
  | label _ => exact Or.inl rfl
  | command hlead _ =>
    cases hlead with
    | none => exact Or.inl rfl
    | label _ _ => exact Or.inr rfl

/-- A statement that cannot be read has an index of too many digits. -/
theorem StatementText.exists_index {found : Finding} {text : List Char} {e : Error}
    (h : StatementText found text) (he : .error e ∈ found) :
    ∃ digits, IndexStatement digits text ∧ Text.maxDecimalDigits < digits.length := by
  obtain ⟨hline, htrail⟩ := h
  cases hline with
  | label _ =>
    cases List.mem_singleton.mp he
  | @command found c lead word hlead hword =>
    have hc : c = .error e := by
      rcases List.mem_append.mp he with he | he
      · cases hlead with
        | none => cases he
        | label _ _ => cases List.mem_singleton.mp he
      · exact (List.mem_singleton.mp he).symm
    subst hc
    cases hword with
    | tooLong hindex hlong => exact ⟨_, .mk hlead hindex htrail, hlong⟩

/-! ### Recognisers that take only such texts -/

namespace Recogniser

variable {α β : Type}

/-- Whatever the recogniser finds stands in the relation to the text it takes. -/
def Reads (r : Recogniser α) (R : α → List Char → Prop) : Prop :=
  ∀ p a n, r p = some (a, n) → R a (p.rest.take n)

/-- What stands in a relation to the text stands in a weaker one. -/
theorem Reads.imp {r : Recogniser α} {R S : α → List Char → Prop} (h : r.Reads R)
    (hRS : ∀ a text, R a text → S a text) : r.Reads S :=
  fun p a n hfound => hRS a _ (h p a n hfound)

/-- What is made of a finding stands for the text that was taken for it. -/
theorem Reads.map {r : Recogniser α} {R : α → List Char → Prop} {S : β → List Char → Prop}
    {f : α → β} (h : r.Reads R) (hf : ∀ a text, R a text → S (f a) text) : (r.map f).Reads S := by
  intro p b n hfound
  obtain ⟨a, hr, rfl⟩ := map_eq_some_iff.mp hfound
  exact hf a _ (h p a n hr)

/-- Two in sequence take two texts in sequence. -/
theorem Reads.andThen {r : Recogniser α} {next : α → Recogniser β} {R : α → List Char → Prop}
    {S : α → β → List Char → Prop} {T : β → List Char → Prop} (h : r.Reads R)
    (hnext : ∀ a, (next a).Reads (S a))
    (hT : ∀ a b text text', R a text → S a b text' → T b (text ++ text')) :
    (r.andThen next).Reads T := by
  intro p b n hfound
  obtain ⟨a, k, m, hr, hm, rfl⟩ := andThen_eq_some_iff.mp hfound
  rw [List.take_add]
  exact hT a b _ _ (h p a k hr) (hnext a (p.advance k) b m hm)

/-- A token may have a gap in front of it. -/
theorem Reads.token {r : Recogniser α} {R : α → List Char → Prop} (h : r.Reads R) :
    r.token.Reads fun a => Spaced (R a) := by
  intro p a n hfound
  obtain ⟨m, hm, rfl⟩ := token_eq_some_iff.mp hfound
  rw [List.take_add, p.take_blanks]
  exact ⟨_, _, rfl, fun c hc => List.mem_takeWhile_imp hc, h _ a m hm⟩

/-- Of two ways to read a text, each has to be one to write it. -/
theorem Reads.orElse {r s : Recogniser α} {R : α → List Char → Prop} (hr : r.Reads R)
    (hs : s.Reads R) : (r.orElse s).Reads R := by
  intro p a n hfound
  cases hfirst : r p with
  | none =>
    rw [orElse_eq_right s hfirst] at hfound
    exact hs p a n hfound
  | some found =>
    rw [orElse_eq_left hfirst, ← hfirst] at hfound
    exact hr p a n hfound

/-- The longer of two is one of the two. -/
theorem Reads.longer {r s : Recogniser α} {R : α → List Char → Prop} (hr : r.Reads R)
    (hs : s.Reads R) : (r.longer s).Reads R := by
  intro p a n hfound
  rcases longer_eq_some hfound with ⟨hfirst, -⟩ | ⟨hsecond, -⟩
  · exact hr p a n hfirst
  · exact hs p a n hsecond

/-- What may be missing is there, or no text is taken. -/
theorem Reads.optional {r : Recogniser α} {R : α → List Char → Prop} (h : r.Reads R) :
    r.optional.Reads fun a? text => (∃ a, a? = some a ∧ R a text) ∨ (a? = none ∧ text = []) := by
  intro p a? n hfound
  rcases optional_eq_some hfound with ⟨a, hr, rfl⟩ | ⟨-, rfl, rfl⟩
  · exact Or.inl ⟨a, rfl, h p a n hr⟩
  · exact Or.inr ⟨rfl, rfl⟩

/-- From a list the first that finds something is chosen, and it is one of the list. -/
theorem Reads.firstOf {rs : List (Recogniser α)} {R : α → List Char → Prop}
    (h : ∀ r ∈ rs, r.Reads R) : (Recogniser.firstOf rs).Reads R := by
  intro p a n hfound
  obtain ⟨r, hr, hp⟩ := List.exists_of_findSome?_eq_some hfound
  exact h r hr p a n hp

/-- A fixed text is written as it is. -/
theorem reads_exactly (text : List Char) : (exactly text).Reads fun _ taken => taken = text := by
  intro p a n hfound
  exact (exactly_eq_some hfound).2

/-- A part of the text that starts where the place is, is what its length takes. -/
theorem take_length_eq {p : Place} {taken : List Char} (h : taken <+: p.rest) :
    p.rest.take taken.length = taken :=
  (List.prefix_iff_eq_take.mp h).symm

/-- A run is written as its characters, and has one at least. -/
theorem reads_run (inClass : Char → Bool) : (run inClass).Reads fun cs text =>
    text = cs ∧ cs ≠ [] ∧ ∀ c ∈ cs, inClass c = true := by
  intro p cs n hfound
  obtain ⟨rfl, hne, rfl⟩ := run_eq_some hfound
  exact ⟨take_length_eq (List.takeWhile_prefix _), hne, fun c hc => List.mem_takeWhile_imp hc⟩

end Recogniser

open Recogniser

/-! ### Words -/

/-- A name is written as it is. -/
theorem reads_name : name.Reads fun word text => text = word.toList ∧ IsName word := by
  intro p word n hfound
  have hname := yields_name p word n hfound
  obtain ⟨c, rest, hrest, -, rfl, rfl⟩ := name_eq_some hfound
  rw [String.toList_ofList]
  refine ⟨take_length_eq ?_, hname⟩
  rw [hrest]
  exact List.cons_prefix_cons.mpr ⟨rfl, List.takeWhile_prefix _⟩

/-- A keyword is written in letters of any case. -/
theorem reads_keyword (letters : List Char) :
    (keyword letters).Reads fun word text => text = word ∧ IsKeyword letters word := by
  intro p word n hfound
  obtain ⟨rfl, rfl, hlength, hall⟩ := keyword_eq_some hfound
  exact ⟨rfl, List.forall₂_iff_zip.mpr ⟨hlength.symm, fun hpair => hall _ hpair⟩⟩

/-- The end of a word takes no text. -/
theorem reads_wordEnd : wordEnd.Reads fun _ text => text = [] := by
  intro p a n hfound
  rw [wordEnd_eq_some hfound, List.take_zero]

/-- A literal is written as it is, behind a gap. -/
theorem reads_integerLiteral : integerLiteral.Reads fun literal =>
    Spaced fun text => text = literal.toList ∧ Text.IsLiteral text := by
  have hhex : hexLiteral.Reads fun literal text => text = literal.toList ∧ Text.IsLiteral text := by
    intro p literal n hfound
    have hshape := yields_hexLiteral p literal n hfound
    obtain ⟨x, digits, htaken, -, -, -, rfl, rfl⟩ := hexLiteral_eq_some hfound
    rw [String.toList_ofList] at hshape ⊢
    rw [take_length_eq htaken]
    exact ⟨rfl, hshape⟩
  refine hhex.token.orElse (Reads.token ?_)
  refine (reads_run Char.isDigit).map fun digits text h => ?_
  obtain ⟨rfl, hne, hall⟩ := h
  exact ⟨String.toList_ofList.symm, .decimal hne hall⟩

/-! ### References -/

/-- A reference is written with its mark in front and with gaps between its parts. -/
theorem reads_reference : reference.Reads fun path =>
    Spaced fun text => ∃ gap written, text = '&' :: (gap ++ written) ∧ IsGap gap ∧
      PathText path written := by
  have hspace : namespacePart.Reads fun space => Spaced fun text => ∃ gap,
      text = space.toList ++ (gap ++ [':', ':']) ∧ IsName space ∧ IsGap gap := by
    refine reads_name.token.andThen (S := fun space space' text => space' = space ∧
      Spaced (· = [':', ':']) text) (fun space => ?_) ?_
    · exact (reads_exactly _).token.map fun _ _ h => ⟨rfl, h⟩
    · rintro space _ _ _ ⟨gap, _, rfl, hgap, rfl, hname⟩ ⟨rfl, gap', _, rfl, hgap', rfl⟩
      exact ⟨gap, _, by rw [List.append_assoc], hgap, gap', rfl, hname, hgap'⟩
  have hpath : (namespacePart.optional.andThen fun space =>
      name.token.map fun label => space.toList ++ [label]).Reads fun path =>
        Spaced (PathText path) := by
    refine hspace.optional.andThen (S := fun space path text => ∃ label,
      path = space.toList ++ [label] ∧ Spaced (fun text => text = label.toList ∧ IsName label) text)
      (fun space => ?_) ?_
    · exact reads_name.token.map fun label _ h => ⟨label, rfl, h⟩
    · rintro space? _ _ _ hspace ⟨label, rfl, gap', _, rfl, hgap', rfl, hlabel⟩
      rcases hspace with ⟨space, rfl, gap, _, rfl, hgap, gap₂, rfl, hspace, hgap₂⟩ | ⟨rfl, rfl⟩
      · refine ⟨gap, _, ?_, hgap, .qualified hspace hgap₂ hgap' hlabel⟩
        simp only [List.append_assoc, List.cons_append, List.nil_append]
      · exact ⟨gap', _, rfl, hgap', .plain hlabel⟩
  refine (reads_exactly _).token.andThen (S := fun _ path => Spaced (PathText path))
    (fun _ => hpath) ?_
  rintro _ path _ _ ⟨gap, _, rfl, hgap, rfl⟩ ⟨gap', written, rfl, hgap', hwritten⟩
  exact ⟨gap, _, by rw [List.append_assoc]; rfl, hgap, gap', written, rfl, hgap', hwritten⟩

/-! ### Commands -/

/-- An index is the number that its digits stand for. -/
theorem eq_of_index? {digits : List Char} {n : Nat} (h : ∀ c ∈ digits, c.isDigit = true)
    (hn : index? digits = .ok n) : n = Text.ofDigits 10 (digits.map Text.digitValue) := by
  rw [index?] at hn
  split at hn
  · cases hn
  · rw [← Except.ok.inj hn]
    congr 1
    refine List.map_congr_left fun c hc => ?_
    rw [Text.digitValue, Text.hexDigit?_of_isDigit (h c hc)]
    rfl

/-- An index that is not read has too many digits. -/
theorem eq_error_of_index? {digits : List Char} {e : Error} (h : index? digits = .error e) :
    Text.maxDecimalDigits < digits.length ∧ e = .tooManyDigits := by
  rw [index?] at h
  split at h
  · rename_i hlong
    exact ⟨hlong, (Except.error.inj h).symm⟩
  · cases h

/-- An index is written in decimal digits. -/
theorem IndexText.isDigit {letters digits text : List Char} (h : IndexText letters digits text) :
    ∀ c ∈ digits, c.isDigit = true := by
  cases h
  assumption

/-- A word with an index is written as its letters and the digits. What is found depends on their
number and their value. -/
theorem reads_indexed (letters : List Char) (make : Nat → Action) :
    (indexed letters make).Reads fun found text => ∃ digits, IndexText letters digits text ∧
      found = (index? digits).map make := by
  refine (reads_keyword letters).andThen (S := fun _ found text => ∃ digits, text = digits ∧
    (digits ≠ [] ∧ ∀ c ∈ digits, c.isDigit = true) ∧ found = (index? digits).map make)
    (fun _ => ?_) ?_
  · refine (reads_run _).andThen (S := fun digits found text =>
      found = (index? digits).map make ∧ text = []) (fun digits => ?_) ?_
    · exact reads_wordEnd.map fun _ _ h => ⟨rfl, h⟩
    · rintro digits _ _ _ ⟨rfl, hdigits⟩ ⟨rfl, rfl⟩
      exact ⟨_, List.append_nil _, hdigits, rfl⟩
  · rintro word found _ _ ⟨rfl, hword⟩ ⟨digits, rfl, hdigits, hfound⟩
    exact ⟨_, .mk hword hdigits.1 hdigits.2, hfound⟩

/-- A fixed command is written as its mnemonic, in letters whose capitals spell it. -/
theorem reads_fixedCommand : fixedCommand.Reads fun a => Spaced (CommandText a) := by
  refine Reads.token (Reads.firstOf fun r hr => ?_)
  obtain ⟨op, -, rfl⟩ := List.mem_map.mp hr
  intro p a n hfound
  obtain ⟨rfl, -, hcapitals⟩ := mnemonic_eq_some hfound
  exact .opcode hcapitals

/-- A push is written as its keyword, digits if there are any, and its operand behind a gap. -/
theorem reads_push : push.Reads fun a => Spaced (CommandText a) := by
  have hkeyword : pushKeyword.Reads fun written text => ∃ word digits, text = word ++ digits ∧
      IsKeyword ['p', 'u', 's', 'h'] word ∧ (∀ c ∈ digits, c.isDigit = true) ∧
        written = String.ofList (word ++ digits) := by
    refine (reads_keyword _).andThen (S := fun word written text => ∃ digits, text = digits ∧
      (∀ c ∈ digits, c.isDigit = true) ∧ written = String.ofList (word ++ digits))
      (fun word => ?_) ?_
    · refine (reads_run Char.isDigit).optional.andThen (S := fun digits? written text =>
        written = String.ofList (word ++ digits?.getD []) ∧ text = []) (fun digits? => ?_) ?_
      · exact reads_wordEnd.map fun _ _ h => ⟨rfl, h⟩
      · rintro digits? _ _ _ hdigits ⟨rfl, rfl⟩
        rcases hdigits with ⟨digits, rfl, rfl, -, hall⟩ | ⟨rfl, rfl⟩
        · exact ⟨_, List.append_nil _, hall, rfl⟩
        · exact ⟨[], rfl, fun c hc => absurd hc List.not_mem_nil, rfl⟩
    · rintro word _ _ _ ⟨rfl, hword⟩ ⟨digits, rfl, hall, rfl⟩
      exact ⟨_, _, rfl, hword, hall, rfl⟩
  have hoperand : pushOperand.Reads fun operand => Spaced (OperandText operand) := by
    refine (reads_integerLiteral.map fun literal _ h => ?_).orElse
      (reads_reference.map fun path _ h => ?_)
    · obtain ⟨gap, _, rfl, hgap, rfl, hliteral⟩ := h
      exact ⟨gap, _, rfl, hgap, .literal hliteral⟩
    · obtain ⟨gap, _, rfl, hgap, gap', written, rfl, hgap', hwritten⟩ := h
      exact ⟨gap, _, rfl, hgap, .reference hgap' hwritten⟩
  refine hkeyword.token.andThen (S := fun written a text => ∃ operand,
    a = .push written operand ∧ Spaced (OperandText operand) text) (fun written => ?_) ?_
  · exact hoperand.map fun operand _ h => ⟨operand, rfl, h⟩
  · rintro _ _ _ _ ⟨gap, _, rfl, hgap, word, digits, rfl, hword, hall, rfl⟩
      ⟨operand, rfl, gap', text, rfl, hgap', htext⟩
    exact ⟨gap, _, by rw [List.append_assoc], hgap, .push hword hall hgap' htext⟩

/-- A byte is written as the directive, and its literal behind a gap. -/
theorem reads_byte : byte.Reads fun a => Spaced (CommandText a) := by
  have hdirective : byteDirective.Reads fun _ text =>
      Text.capitals text = ['.', 'B', 'Y', 'T', 'E'] := by
    intro p a n hfound
    exact (byteDirective_eq_some hfound).2
  refine hdirective.token.andThen (S := fun _ a text => ∃ literal, a = .byte literal ∧
    Spaced (fun text => text = literal.toList ∧ Text.IsLiteral text) text) (fun _ => ?_) ?_
  · exact reads_integerLiteral.map fun literal _ h => ⟨literal, rfl, h⟩
  · rintro _ _ _ _ ⟨gap, word, rfl, hgap, hword⟩ ⟨literal, rfl, gap', _, rfl, hgap', rfl, hliteral⟩
    exact ⟨gap, _, by rw [List.append_assoc], hgap, .byte hword hgap' hliteral⟩

/-- A command writes the action that it asks for, or an index that cannot be read. -/
theorem reads_command : command.Reads fun found => Spaced (OutcomeText found) := by
  have hok : ∀ (a : Action) text, Spaced (CommandText a) text →
      Spaced (OutcomeText (.ok a)) text := by
    rintro a _ ⟨gap, word, rfl, hgap, hword⟩
    exact ⟨gap, word, rfl, hgap, .action hword⟩
  have hindexed : ∀ {letters : List Char} {make : Nat → Action},
      (∀ digits text, IndexText letters digits text → IsIndex digits text) →
      (∀ digits text, IndexText letters digits text →
        CommandText (make (Text.ofDigits 10 (digits.map Text.digitValue))) text) →
      (indexed letters make).token.Reads fun found => Spaced (OutcomeText found) := by
    intro letters make hindex hmake
    refine (reads_indexed letters make).token.imp ?_
    rintro _ _ ⟨gap, word, rfl, hgap, digits, htext, rfl⟩
    refine ⟨gap, word, rfl, hgap, ?_⟩
    cases hn : index? digits with
    | ok n =>
      rw [eq_of_index? htext.isDigit hn]
      exact .action (hmake digits word htext)
    | error e =>
      obtain ⟨hlong, rfl⟩ := eq_error_of_index? hn
      exact .tooLong (hindex digits word htext) hlong
  have hmap : ∀ {r : Recogniser Action}, r.Reads (fun a => Spaced (CommandText a)) →
      (r.map .ok).Reads fun found => Spaced (OutcomeText found) := fun h => h.map hok
  exact (hmap reads_fixedCommand).longer
    ((hindexed (fun _ _ => Or.inl) fun _ _ => .dup).longer
      ((hindexed (fun _ _ => Or.inr) fun _ _ => .swap).longer
        ((hmap reads_push).longer (hmap reads_byte))))

/-- A label is written as its name and a colon, and there may be a gap between the two. -/
theorem reads_label : label.Reads fun a => Spaced (LabelText a) := by
  refine reads_name.token.andThen (S := fun word a text => a = .label word ∧
    Spaced (· = [':']) text) (fun word => ?_) ?_
  · exact (reads_exactly _).token.map fun _ _ h => ⟨rfl, h⟩
  · rintro word _ _ _ ⟨gap, _, rfl, hgap, rfl, hname⟩ ⟨rfl, gap', _, rfl, hgap', rfl⟩
    exact ⟨gap, _, by rw [List.append_assoc], hgap, .mk hname hgap'⟩

/-! ### Statements and comments -/

/-- A comment is written as two slashes and more of its line. -/
theorem reads_comment : comment.Reads fun _ => Spaced CommentText := by
  refine (reads_exactly _).token.andThen (S := fun _ _ text => '\n' ∉ text) (fun _ => ?_) ?_
  · intro p a n hfound
    obtain ⟨-, rfl⟩ := Prod.mk.inj (Option.some.inj hfound)
    rw [take_length_eq (List.takeWhile_prefix _)]
    intro hmem
    have hne := List.mem_takeWhile_imp hmem
    exact absurd hne (by decide)
  · rintro _ _ _ body ⟨gap, _, rfl, hgap, rfl⟩ hbody
    exact ⟨gap, _, List.append_assoc _ _ _, hgap, .mk hbody⟩

/-- An instruction line is written as a label, a command, or both with a gap between them. -/
theorem reads_instructionLine : instructionLine.Reads fun found => Spaced (LineText found) := by
  refine Reads.orElse ?_ (reads_command.map ?_)
  · refine reads_label.andThen (S := fun l found text =>
      (∃ c, found = [.ok l, c] ∧ Spaced (OutcomeText c) text) ∨ (found = [.ok l] ∧ text = []))
      (fun l => reads_command.optional.map ?_) ?_
    · rintro _ _ (⟨c, rfl, hc⟩ | ⟨rfl, rfl⟩)
      · exact Or.inl ⟨c, rfl, hc⟩
      · exact Or.inr ⟨rfl, rfl⟩
    · rintro l _ _ _ ⟨gap, word, rfl, hgap, hl⟩ (⟨c, rfl, gap', _, rfl, hgap', hc⟩ | ⟨rfl, rfl⟩)
      · refine ⟨gap, _, ?_, hgap, .command (.label hl hgap') hc⟩
        simp only [List.append_assoc]
      · exact ⟨gap, word, List.append_nil _, hgap, .label hl⟩
  · rintro c _ ⟨gap, word, rfl, hgap, hc⟩
    exact ⟨gap, word, rfl, hgap, .command .none hc⟩

/-- A statement writes what it asks for, and nothing more. -/
theorem reads_statement : statement.Reads fun found => Spaced (StatementText found) := by
  refine reads_instructionLine.andThen (S := fun found found' text => found' = found ∧
    TrailText text) (fun found => reads_comment.optional.map ?_) ?_
  · rintro _ _ (⟨_, -, gap, _, rfl, hgap, hcomment⟩ | ⟨-, rfl⟩)
    · exact ⟨rfl, .comment hgap hcomment⟩
    · exact ⟨rfl, .none⟩
  · rintro found _ _ _ ⟨gap, word, rfl, hgap, hline⟩ ⟨rfl, htrail⟩
    exact ⟨gap, _, List.append_assoc _ _ _, hgap, .mk hline htrail⟩

end EvmAssembler.Source
