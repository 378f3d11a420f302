import EvmAssembler.Proofs.Source.Command
import EvmAssembler.Text.Lines

/-!
# `EvmAssembler.Proofs.Source.Tabs`: widening tabs keeps a listing

The grammar sees a text after its tabs were widened. `Listing.expandTabs` says that a listing
stays a listing of the same program, whatever column it starts in: tabs stand in margins and
comments only, since no word has one.

Widening goes by columns, so what becomes of a part depends on what stands before it.
`exists_expandTabsFrom_append` is all that is needed of this: the second part is widened from
some column.
-/

set_option autoImplicit false

namespace EvmAssembler.Source

open Text (expandTabsFrom)

/-! ### Parts of a text -/

/-- Where there is no tab, the first character stays. The column of the next one depends on it. -/
theorem expandTabsFrom_cons {c : Char} (hc : c ≠ '\t') (column : Nat) (rest : List Char) :
    ∃ next, expandTabsFrom column (c :: rest) = c :: expandTabsFrom next rest := by
  refine ⟨if c = '\n' ∨ c = '\r' then 0 else column + 1, ?_⟩
  rw [expandTabsFrom]
  exact hc

/-- A tab becomes one space at least. -/
theorem expandTabsFrom_tab (column : Nat) (rest : List Char) :
    ∃ step next, expandTabsFrom column ('\t' :: rest) =
      ' ' :: (List.replicate step ' ' ++ expandTabsFrom next rest) := by
  have hstep : Text.tabWidth - column % Text.tabWidth =
      (Text.tabWidth - column % Text.tabWidth - 1) + 1 := by
    have hmod : column % Text.tabWidth < Text.tabWidth := Nat.mod_lt _ (by decide)
    omega
  refine ⟨Text.tabWidth - column % Text.tabWidth - 1,
    column + (Text.tabWidth - column % Text.tabWidth), ?_⟩
  rw [expandTabsFrom, hstep, List.replicate_succ, List.cons_append, ← hstep]

/-- Widening goes part by part. -/
theorem exists_expandTabsFrom_append (column : Nat) (a : List Char) :
    ∃ next, ∀ b, expandTabsFrom column (a ++ b) =
      expandTabsFrom column a ++ expandTabsFrom next b := by
  fun_induction expandTabsFrom column a with
  | case1 column => exact ⟨column, fun b => rfl⟩
  | case2 column rest step ih =>
    obtain ⟨next, hnext⟩ := ih
    refine ⟨next, fun b => ?_⟩
    rw [List.cons_append, expandTabsFrom, hnext, List.append_assoc]
  | case3 column c rest hc ih =>
    obtain ⟨next, hnext⟩ := ih
    refine ⟨next, fun b => ?_⟩
    rw [List.cons_append, expandTabsFrom, hnext, List.cons_append]
    exact hc

/-- What is there does not vanish. -/
theorem expandTabsFrom_ne_nil {text : List Char} (h : text ≠ []) (column : Nat) :
    expandTabsFrom column text ≠ [] := by
  cases text with
  | nil => exact absurd rfl h
  | cons c rest =>
    by_cases hc : c = '\t'
    · obtain ⟨step, next, hnext⟩ := expandTabsFrom_tab column rest
      rw [hc, hnext]
      exact List.cons_ne_nil _ _
    · obtain ⟨next, hnext⟩ := expandTabsFrom_cons hc column rest
      rw [hnext]
      exact List.cons_ne_nil _ _

/-- Text without tabs stays as it is. -/
theorem expandTabsFrom_eq_self {text : List Char} (h : '\t' ∉ text) (column : Nat) :
    expandTabsFrom column text = text := by
  induction text generalizing column with
  | nil => rfl
  | cons c text ih =>
    have hc : c ≠ '\t' := fun heq => h (heq ▸ List.mem_cons_self)
    obtain ⟨next, hnext⟩ := expandTabsFrom_cons hc column text
    rw [hnext, ih (fun hmem => h (List.mem_cons_of_mem c hmem))]

/-- Widening brings in nothing but spaces. -/
theorem mem_of_mem_expandTabsFrom {text : List Char} {column : Nat} {c : Char}
    (h : c ∈ expandTabsFrom column text) : c = ' ' ∨ c ∈ text ∧ c ≠ '\t' := by
  fun_induction expandTabsFrom column text with
  | case1 => cases h
  | case2 column rest step ih =>
    rcases List.mem_append.mp h with h | h
    · exact Or.inl (List.eq_of_mem_replicate h)
    · exact (ih h).imp_right fun ⟨hmem, hne⟩ => ⟨List.mem_cons_of_mem _ hmem, hne⟩
  | case3 column d rest hd ih =>
    rcases List.mem_cons.mp h with rfl | h
    · exact Or.inr ⟨List.mem_cons_self, hd⟩
    · exact (ih h).imp_right fun ⟨hmem, hne⟩ => ⟨List.mem_cons_of_mem _ hmem, hne⟩

/-- A line feed is where columns start again. -/
theorem expandTabs_append_line (above below : List Char) :
    Text.expandTabs (above ++ '\n' :: below) =
      Text.expandTabs above ++ '\n' :: Text.expandTabs below := by
  obtain ⟨next, hnext⟩ := exists_expandTabsFrom_append 0 above
  rw [Text.expandTabs, hnext, expandTabsFrom]
  · rfl
  · decide

/-- Where no space comes out of it, no tab was widened. -/
theorem expandTabsFrom_eq_of_not_mem {text : List Char} {column : Nat}
    (h : ' ' ∉ expandTabsFrom column text) : expandTabsFrom column text = text := by
  refine expandTabsFrom_eq_self (fun htab => ?_) column
  obtain ⟨first, second, rfl⟩ := List.append_of_mem htab
  obtain ⟨next, hnext⟩ := exists_expandTabsFrom_append column first
  obtain ⟨step, later, htail⟩ := expandTabsFrom_tab next second
  rw [hnext, htail] at h
  exact h (List.mem_append_right _ List.mem_cons_self)

/-- A word at the end is not touched by widening tabs. -/
theorem suffix_of_suffix_expandTabsFrom {word text : List Char} {column : Nat}
    (h : word <:+ expandTabsFrom column text) (hblank : ' ' ∉ word) : word <:+ text := by
  fun_induction expandTabsFrom column text with
  | case1 => exact h
  | case2 column rest step ih =>
    refine List.IsSuffix.trans (ih ?_) (List.suffix_cons '\t' rest)
    -- The spaces in front cannot be part of the word.
    rcases List.suffix_or_suffix_of_suffix h (List.suffix_append _ _) with hword | ⟨spaces, rfl⟩
    · exact hword
    · obtain ⟨front, hfront⟩ := h
      rw [← List.append_assoc] at hfront
      have hspaces := List.append_cancel_right hfront
      cases spaces with
      | nil => exact List.suffix_refl _
      | cons c spaces =>
        have hc : c ∈ List.replicate step ' ' := by
          rw [← hspaces]
          exact List.mem_append_right _ List.mem_cons_self
        rw [List.eq_of_mem_replicate hc] at hblank
        exact absurd List.mem_cons_self hblank
  | case3 column c rest hc ih =>
    rcases List.suffix_cons_iff.mp h with rfl | hword
    · have hrest := expandTabsFrom_eq_of_not_mem fun hmem => hblank (List.mem_cons_of_mem c hmem)
      exact ⟨[], congrArg (c :: ·) hrest⟩
    · exact (ih hword).trans (List.suffix_cons c rest)

/-- A word at the start is not touched either. -/
theorem prefix_of_prefix_expandTabsFrom {word text : List Char} {column : Nat}
    (h : word <+: expandTabsFrom column text) (hblank : ' ' ∉ word) : word <+: text := by
  induction text generalizing word column with
  | nil => exact h
  | cons c text ih =>
    cases word with
    | nil => exact List.nil_prefix
    | cons d word =>
      by_cases hc : c = '\t'
      · -- A space would have to be the first character of the word.
        obtain ⟨step, next, hnext⟩ := expandTabsFrom_tab column text
        rw [hc, hnext] at h
        rw [(List.cons_prefix_cons.mp h).1] at hblank
        exact absurd List.mem_cons_self hblank
      · obtain ⟨next, hnext⟩ := expandTabsFrom_cons hc column text
        rw [hnext] at h
        obtain ⟨rfl, hword⟩ := List.cons_prefix_cons.mp h
        refine List.cons_prefix_cons.mpr ⟨rfl, ih hword fun hmem => hblank ?_⟩
        exact List.mem_cons_of_mem d hmem

/-- Nor is a word in between. -/
theorem infix_of_infix_expandTabsFrom {word text : List Char} {column : Nat}
    (h : word <:+: expandTabsFrom column text) (hblank : ' ' ∉ word) : word <:+: text := by
  have hspaces : ∀ {step : Nat} {rest : List Char},
      word <:+: List.replicate step ' ' ++ rest → word <:+: rest := by
    intro step rest h
    induction step with
    | zero => exact h
    | succ step ih =>
      rcases List.infix_cons_iff.mp h with hfirst | hlater
      · cases word with
        | nil => exact List.nil_infix
        | cons d word =>
          rw [(List.cons_prefix_cons.mp hfirst).1] at hblank
          exact absurd List.mem_cons_self hblank
      · exact ih hlater
  fun_induction expandTabsFrom column text with
  | case1 => exact h
  | case2 column rest step ih => exact List.infix_cons (ih (hspaces h))
  | case3 column c rest hc ih =>
    rcases List.infix_cons_iff.mp h with hfirst | hlater
    · refine (@prefix_of_prefix_expandTabsFrom _ _ column ?_ hblank).isInfix
      rwa [expandTabsFrom]
      exact hc
    · exact List.infix_cons (ih hlater)

/-- A margin stays one when its tabs become spaces. -/
theorem IsMargin.expandTabsFrom {space : List Char} (h : IsMargin space) (column : Nat) :
    IsMargin (expandTabsFrom column space) := by
  intro c hc
  rcases mem_of_mem_expandTabsFrom hc with rfl | ⟨hmem, -⟩
  · exact Or.inl rfl
  · exact h c hmem

/-- So does a trailer, with or without a comment. -/
theorem IsTrailer.expandTabsFrom {text : List Char} (h : IsTrailer text) (column : Nat) :
    IsTrailer (expandTabsFrom column text) := by
  cases h with
  | margin hspace => exact .margin (hspace.expandTabsFrom column)
  | @comment space text hspace htext =>
    obtain ⟨next, hnext⟩ := exists_expandTabsFrom_append column space
    -- The slashes stand, and what is widened behind them is still a comment.
    obtain ⟨second, hsecond⟩ := expandTabsFrom_cons (c := '/') (by decide) next ('/' :: text)
    obtain ⟨third, hthird⟩ := expandTabsFrom_cons (c := '/') (by decide) second text
    rw [hnext, hsecond, hthird]
    refine .comment (hspace.expandTabsFrom column) fun hmem => ?_
    rcases mem_of_mem_expandTabsFrom hmem with heq | ⟨hmem, -⟩
    · exact absurd heq (by decide)
    · exact htext hmem

/-! ### Words -/

/-- A character that is no letter stands in a written word only if it stands in the word. -/
theorem SameLetters.not_mem {written letters : List Char} (h : SameLetters written letters)
    {c : Char} (hc : ¬(65 ≤ c.toNat ∧ c.toNat ≤ 90) ∧ ¬(97 ≤ c.toNat ∧ c.toNat ≤ 122))
    (hmem : c ∉ letters) : c ∉ written := by
  intro hin
  obtain ⟨d, hd, hcd⟩ := h.exists_of_mem hin
  exact hmem (eq_of_toLower_eq hcd.symm hc ▸ hd)

/-- A literal has neither a tab nor a line feed. -/
theorem not_mem_literal {literal : List Char} (h : Text.IsLiteral literal) {c : Char}
    (hc : c = '\t' ∨ c = '\n') : c ∉ literal := by
  have hhex : (Text.hexDigit? c).isSome = false := by
    rcases hc with rfl | rfl <;> rfl
  have hdigit : c.isDigit = false := by
    rcases hc with rfl | rfl <;> rfl
  intro hmem
  cases h with
  | hex mark _ hdigits =>
    rcases List.mem_cons.mp hmem with rfl | hmem
    · rcases hc with hc | hc <;> exact absurd hc (by decide)
    · rcases List.mem_cons.mp hmem with rfl | hmem
      · rcases mark with rfl | rfl <;> rcases hc with hc | hc <;> exact absurd hc (by decide)
      · rw [hdigits c hmem] at hhex
        cases hhex
  | decimal _ hdigits =>
    rw [hdigits c hmem] at hdigit
    cases hdigit

/-- Nor has a mnemonic. -/
theorem not_mem_name {op : Opcode} {word : List Char} (h : SameLetters word op.name.toList)
    {c : Char} (hc : c = '\t' ∨ c = '\n') : c ∉ word := by
  refine h.not_mem ?_ ?_
  · rcases hc with rfl | rfl <;> decide
  · intro hmem
    have hname := (isUpper_or_isDigit_of_mem_name op c hmem).1
    rcases hc with rfl | rfl <;> revert hname <;> decide

/-- Nor has a keyword with its index. -/
theorem not_mem_keyword {word letters : List Char} {n : Nat} (hn : n < 100)
    (h : SameLetters word (letters ++ (Text.decimal n).toList)) {c : Char}
    (hc : c = '\t' ∨ c = '\n') (hletters : c ∉ letters) : c ∉ word := by
  obtain ⟨hdigits, -, -, -⟩ := @decimal_digits n 2 (by decide) hn
  refine h.not_mem ?_ ?_
  · rcases hc with rfl | rfl <;> decide
  · intro hmem
    rcases List.mem_append.mp hmem with hmem | hmem
    · exact hletters hmem
    · have hdigit := hdigits c hmem
      rcases hc with rfl | rfl <;> revert hdigit <;> decide

/-- A spelling stays one: it has tabs only between its words. -/
theorem Spelling.expandTabsFrom {i : Instruction} {word : List Char} (h : Spelling i word)
    (column : Nat) : Spelling i (expandTabsFrom column word) := by
  cases h with
  | fixed hword =>
    rw [expandTabsFrom_eq_self (not_mem_name hword (Or.inl rfl))]
    exact .fixed hword
  | dup h1 h2 hword =>
    have hsame : SameLetters word (['d', 'u', 'p'] ++ _) := hword.small rfl
    rw [expandTabsFrom_eq_self (not_mem_keyword (by omega) hsame (Or.inl rfl) (by decide))]
    exact .dup h1 h2 hword
  | swap h1 h2 hword =>
    have hsame : SameLetters word (['s', 'w', 'a', 'p'] ++ _) := hword.small rfl
    rw [expandTabsFrom_eq_self (not_mem_keyword (by omega) hsame (Or.inl rfl) (by decide))]
    exact .swap h1 h2 hword
  | @push data keyword space literal h1 h2 hword hspace hne hliteral =>
    have hsame : SameLetters keyword (['p', 'u', 's', 'h'] ++ _) := hword.small rfl
    obtain ⟨first, hfirst⟩ := exists_expandTabsFrom_append column (keyword ++ space)
    obtain ⟨second, hsecond⟩ := exists_expandTabsFrom_append column keyword
    have hkeyword := not_mem_keyword (by omega) hsame (Or.inl rfl) (by decide)
    have hshape := (literal_of_push h1 hliteral).1
    -- Only the blanks in between may change, and they do not vanish.
    rw [hfirst, hsecond, expandTabsFrom_eq_self hkeyword,
      expandTabsFrom_eq_self (not_mem_literal hshape (Or.inl rfl))]
    refine .push h1 h2 hword (hspace.expandTabsFrom second) ?_ hliteral
    exact expandTabsFrom_ne_nil hne second
  | @byte b directive space literal hword hspace hliteral =>
    obtain ⟨first, hfirst⟩ := exists_expandTabsFrom_append column (directive ++ space)
    obtain ⟨second, hsecond⟩ := exists_expandTabsFrom_append column directive
    have hdirective : '\t' ∉ directive := hword.not_mem (by decide) (by decide)
    have hshape := (literal_of_byte hliteral).1
    rw [hfirst, hsecond, expandTabsFrom_eq_self hdirective,
      expandTabsFrom_eq_self (not_mem_literal hshape (Or.inl rfl))]
    exact .byte hword (hspace.expandTabsFrom second) hliteral

/-! ### Listings -/

/-- A listing stays a listing of the same program. -/
theorem Listing.expandTabsFrom {p : List Instruction} {text : List Char} (h : Listing p text)
    (column : Nat) : Listing p (expandTabsFrom column text) := by
  -- Each part of a line starts in some column, and no matter which, it stays what it is.
  induction h generalizing column with
  | last htrailer => exact .last (htrailer.expandTabsFrom column)
  | @lastLine i margin word trailer hmargin hword htrailer =>
    obtain ⟨first, hfirst⟩ := exists_expandTabsFrom_append column (margin ++ word)
    obtain ⟨second, hsecond⟩ := exists_expandTabsFrom_append column margin
    rw [hfirst, hsecond]
    exact .lastLine (hmargin.expandTabsFrom column) (hword.expandTabsFrom second)
      (htrailer.expandTabsFrom first)
  | @empty p trailer rest htrailer _ ih =>
    obtain ⟨first, hfirst⟩ := exists_expandTabsFrom_append column trailer
    obtain ⟨second, hsecond⟩ := expandTabsFrom_cons (c := '\n') (by decide) first rest
    rw [hfirst, hsecond]
    exact .empty (htrailer.expandTabsFrom column) (ih second)
  | @line i p margin word trailer rest hmargin hword htrailer _ ih =>
    obtain ⟨first, hfirst⟩ := exists_expandTabsFrom_append column (margin ++ word ++ trailer)
    obtain ⟨second, hsecond⟩ := exists_expandTabsFrom_append column (margin ++ word)
    obtain ⟨third, hthird⟩ := exists_expandTabsFrom_append column margin
    obtain ⟨fourth, hfourth⟩ := expandTabsFrom_cons (c := '\n') (by decide) first rest
    rw [hfirst, hsecond, hthird, hfourth]
    exact .line (hmargin.expandTabsFrom column) (hword.expandTabsFrom third)
      (htrailer.expandTabsFrom second) (ih fourth)

end EvmAssembler.Source
