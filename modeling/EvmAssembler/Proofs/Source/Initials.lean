import EvmAssembler.Proofs.Source.Extent
import EvmAssembler.Proofs.Source.Listing

/-!
# `EvmAssembler.Proofs.Source.Initials`: how a command starts decides its kind

The five kinds of command are tried at every place, and the longest counts. Where the keyword of a
push or the directive of a byte is met, no other kind is, so `command_eq_push` and
`command_eq_byte` leave one recogniser of the five. Where neither is met, `command_eq_operandless`
leaves the three kinds that have no operand.

A label may be named like a keyword. `push_eq_none_of_label` and `byte_eq_none_of_label` say that
this makes no difference: where a label is, neither of the two is.
-/

set_option autoImplicit false

namespace EvmAssembler.Source

open Recogniser

/-! ### The two kinds with an operand -/

section
variable {p : Place}

/-- Of a character with one capital in ASCII, but for two letters, that is the case. -/
theorem toUpper_eq_of_capital {c u : Char} (h : Text.capital c = [u]) (hu : u ≠ 'I' ∧ u ≠ 'S')
    (hascii : u.toNat < 128) : c.toNat < 128 ∧ c.toUpper = u := by
  by_cases hc : c.toNat < 128
  · rw [Text.capital, if_pos hc] at h
    exact ⟨hc, (List.cons.inj h).1⟩
  · exfalso
    rw [Text.capital, if_neg hc] at h
    revert h
    repeat'
      refine iteInduction (motive := fun capital : List Char => capital = [u] → False)
        (fun _ => ?_) fun _ => ?_
    all_goals
      rintro ⟨⟩ <;> first | exact hu.1 rfl | exact hu.2 rfl | exact hc hascii

/-- A keyword starts with its own letters, unless it has an `s` there. -/
theorem starts_of_keyword {k l : Char} {letters taken : List Char} {n : Nat}
    (h : keyword (k :: l :: letters) p = some (taken, n)) (hs : k ≠ 's' ∧ l ≠ 's')
    (hk : k.toLower = k ∧ k.toNat < 128) (hl : l.toLower = l ∧ l.toNat < 128) :
    p.Starts k l := by
  -- In each of the two letters only the case is free.
  have hletter : ∀ {a c : Char}, Text.sameLetter a c = true → a ≠ 's' →
      a.toLower = a ∧ a.toNat < 128 → c.toLower = a ∧ c.toNat < 128 := by
    intro a c hsame ha hlow
    rw [Text.sameLetter, beq_eq_false_iff_ne.mpr ha, Bool.false_and, Bool.or_false,
      beq_iff_eq] at hsame
    have hnat := toNat_of_toLower_eq (hsame.trans hlow.1.symm)
    exact ⟨hsame, by omega⟩
  obtain ⟨rfl, rfl, hlength, hall⟩ := keyword_eq_some h
  obtain ⟨c, d, rest, hrest⟩ : ∃ c d rest, p.rest = c :: d :: rest := by
    rcases hrest : p.rest with _ | ⟨c, _ | ⟨d, rest⟩⟩
    · simp [hrest] at hlength
    · simp [hrest] at hlength
    · exact ⟨c, d, rest, rfl⟩
  rw [hrest] at hall
  simp only [List.length_cons, List.take_succ_cons, List.zip_cons_cons, List.forall_mem_cons]
    at hall
  obtain ⟨hc, hcascii⟩ := hletter hall.1 hs.1 hk
  obtain ⟨hd, hdascii⟩ := hletter hall.2.1 hs.2 hl
  exact ⟨c, d, rest, hrest, hcascii, hdascii, hc, hd⟩

/-- The keyword of a push starts with the letters `pu`. -/
theorem starts_of_pushKeyword {found : String × Nat} (hp : p.blanks = 0)
    (h : pushKeyword.token p = some found) : p.Starts 'p' 'u' := by
  rw [token_eq _ hp] at h
  obtain ⟨taken, n, _, hkeyword, -, -⟩ := andThen_eq_some_iff.mp h
  exact starts_of_keyword hkeyword (by decide) (by decide) (by decide)

/-- The directive starts with a dot and the letter `b`. A character with more than one capital would
come with an S or an F, and the directive has neither. -/
theorem starts_of_byteDirective {found : Unit × Nat} (hp : p.blanks = 0)
    (h : byteDirective.token p = some found) : p.Starts '.' 'b' := by
  rw [token_eq _ hp] at h
  obtain ⟨hfive, hcapitals⟩ := byteDirective_eq_some h
  rw [hfive] at hcapitals
  -- None of the capitals is one of those that a character may have together with others.
  have hone : ∀ c ∈ p.rest.take 5, ∃ u, Text.capital c = [u] := by
    intro c hc
    have hmem : ∀ u ∈ Text.capital c, u ∈ ['.', 'B', 'Y', 'T', 'E'] := by
      intro u hu
      rw [← hcapitals]
      exact List.mem_flatMap.mpr ⟨c, hc, hu⟩
    rcases length_capital c with hlength | hs | hf
    · exact List.length_eq_one_iff.mp hlength
    · exact absurd (hmem _ hs) (by decide)
    · exact absurd (hmem _ hf) (by decide)
  rcases hrest : p.rest with _ | ⟨c, _ | ⟨d, rest⟩⟩ <;> rw [hrest] at hcapitals hone
  · cases hcapitals
  · obtain ⟨u, hu⟩ := hone c List.mem_cons_self
    rw [List.take_succ_cons, Text.capitals_cons, hu] at hcapitals
    cases hcapitals
  · obtain ⟨u, hu⟩ := hone c List.mem_cons_self
    obtain ⟨v, hv⟩ := hone d (List.mem_cons_of_mem c List.mem_cons_self)
    rw [List.take_succ_cons, List.take_succ_cons, Text.capitals_cons, Text.capitals_cons, hu, hv]
      at hcapitals
    obtain ⟨rfl, htail⟩ := List.cons.inj hcapitals
    obtain ⟨rfl, -⟩ := List.cons.inj htail
    obtain ⟨hc, hcupper⟩ := toUpper_eq_of_capital hu (by decide) (by decide)
    obtain ⟨hd, hdupper⟩ := toUpper_eq_of_capital hv (by decide) (by decide)
    refine ⟨c, d, rest, hrest, hc, hd, ?_, ?_⟩
    · rw [← toLower_toUpper, hcupper]
      rfl
    · rw [← toLower_toUpper, hdupper]
      rfl

/-- Where a word starts with `pu`, a command is a push. -/
theorem command_eq_push (h : p.Starts 'p' 'u') : command p = push.map .ok p := by
  have hskip : Text.isSkipped 'p' = false := rfl
  rw [command, longer_eq_right _ (h.fixedCommand_eq_none hskip (by decide)),
    longer_eq_right _ (h.indexed_eq_none hskip _ _ (by decide)),
    longer_eq_right _ (h.indexed_eq_none hskip _ _ (by decide)),
    longer_eq_left _ (h.byte_eq_none hskip (by decide))]

/-- Where a word starts with a dot and `b`, it is a byte. -/
theorem command_eq_byte (h : p.Starts '.' 'b') : command p = byte.map .ok p := by
  have hskip : Text.isSkipped '.' = false := rfl
  rw [command, longer_eq_right _ (h.fixedCommand_eq_none hskip (by decide)),
    longer_eq_right _ (h.indexed_eq_none hskip _ _ (by decide)),
    longer_eq_right _ (h.indexed_eq_none hskip _ _ (by decide)),
    longer_eq_right _ (h.push_eq_none hskip (by decide))]

/-- Without the two kinds that have an operand, a command is a mnemonic or has its index. -/
def operandless : Recogniser (Except Error Action) :=
  (fixedCommand.map .ok).longer <|
    (indexed ['d', 'u', 'p'] .dup).token.longer (indexed ['s', 'w', 'a', 'p'] .swap).token

/-- Where there is neither, it is one of the commands without an operand. -/
theorem command_eq_operandless (hpush : push p = none) (hbyte : byte p = none) :
    command p = operandless p := by
  have hnone : ((push.map .ok).longer (byte.map .ok) : Recogniser (Except Error Action)) p = none :=
    longer_eq_none (map_eq_none _ hpush) (map_eq_none _ hbyte)
  have hcongr : ∀ {r s t : Recogniser (Except Error Action)}, s p = t p →
      r.longer s p = r.longer t p := by
    intro r s t hst
    rw [longer, longer, hst]
  exact hcongr (hcongr (longer_eq_left _ hnone))

/-! ### A word with a colon is no command with an operand -/

/-- Behind a label's name, its colon comes next. -/
theorem label_eq_some {a : Action} {n : Nat} (hp : p.blanks = 0) (h : label p = some (a, n)) :
    (∃ word, a = .label word) ∧ (∃ c ∈ p.rest.head?, isNameStart c = true) ∧
      ((p.rest.dropWhile isNameRest).dropWhile Text.isSkipped).head? = some ':' := by
  obtain ⟨word, k, m, hname, hbehind, -⟩ := andThen_eq_some_iff.mp h
  rw [token_eq _ hp] at hname
  obtain ⟨c, rest, hrest, hstart, -, rfl⟩ := name_eq_some hname
  rw [← List.takeWhile_cons_of_pos (isNameRest_of_isNameStart hstart), ← hrest] at hbehind
  obtain ⟨_, hmark, rfl⟩ := map_eq_some_iff.mp hbehind
  obtain ⟨i, hcolon, -⟩ := token_eq_some_iff.mp hmark
  refine ⟨⟨word, rfl⟩, ⟨c, by rw [hrest]; rfl, hstart⟩, ?_⟩
  have hdrop : (p.advance (p.rest.takeWhile isNameRest).length).rest =
      p.rest.dropWhile isNameRest := drop_length_takeWhile _ _
  rw [← hdrop, ← Place.rest_advance_blanks]
  by_contra hnot
  rw [exactly_eq_none] at hcolon
  · cases hcolon
  · rintro d hd rfl
    exact hnot hd

/-- The operand of a push never starts with a colon. -/
theorem pushOperand_eq_none (h : (p.rest.dropWhile Text.isSkipped).head? = some ':') :
    pushOperand p = none := by
  obtain ⟨rest, hrest⟩ := List.head?_eq_some_iff.mp h
  have htoken : ∀ {α : Type} {r : Recogniser α},
      (∀ q : Place, q.rest = ':' :: rest → r q = none) → r.token p = none := by
    intro α r hr
    rw [token, hr _ (by rw [Place.rest_advance_blanks]; exact hrest)]
    rfl
  have hhex : hexLiteral.token p = none := htoken fun q hq => by rw [hexLiteral, hq]; rfl
  have hdecimal : decimalLiteral.token p = none :=
    htoken fun q hq => map_eq_none _ (by rw [run, hq]; rfl)
  have hliteral : integerLiteral p = none := by
    rw [integerLiteral, orElse_eq_right _ hhex, hdecimal]
  have hmark : (exactly ['&']).token p = none := by
    refine htoken fun q hq => exactly_eq_none fun c hc => ?_
    rw [hq] at hc
    obtain rfl : ':' = c := Option.some.inj hc
    decide
  rw [pushOperand, orElse_eq_right _ (map_eq_none _ hliteral)]
  exact map_eq_none _ (andThen_eq_none _ hmark)

/-- What could be the keyword of a push is a name, but for one letter that is in no name. -/
theorem takes_pushKeyword_letters :
    pushKeyword.Takes fun c => isNameRest c = true ∨ c = 'ſ' := by
  have hletters : (keyword ['p', 'u', 's', 'h']).Takes fun c => isNameRest c = true ∨ c = 'ſ' := by
    refine (takes_keyword _).imp fun c hc => ?_
    obtain ⟨l, hl, hsame⟩ := hc
    have hsmall : ∀ l ∈ ['p', 'u', 's', 'h'], l.toLower = l ∧ isNameRest l = true :=
      forall_mem_of_all (by decide)
    rw [Text.sameLetter, Bool.or_eq_true, Bool.and_eq_true, beq_iff_eq, beq_iff_eq,
      beq_iff_eq] at hsame
    refine hsame.imp (fun heq => ?_) And.right
    exact isNameRest_of_toLower_eq (heq.trans (hsmall l hl).1.symm) (hsmall l hl).2
  have hdigits : (run Char.isDigit).Takes fun c => isNameRest c = true ∨ c = 'ſ' := by
    refine (takes_run _).imp fun c hc => Or.inl (isNameRest_iff.mpr ?_)
    exact Or.inr (Or.inr (Or.inl (Text.isDigit_iff.mp hc)))
  exact hletters.andThen fun _ => hdigits.optional.andThen fun _ => (takes_wordEnd _).map _

/-- Nothing that could be in a name follows the keyword of a push. -/
theorem pushKeyword_ends {written : String} {n : Nat} (h : pushKeyword p = some (written, n)) :
    ∀ c ∈ (p.rest.drop n).head?, isNameRest c = false := by
  obtain ⟨letters, k, _, -, hdigits, rfl⟩ := andThen_eq_some_iff.mp h
  obtain ⟨digits, i, _, -, hend, rfl⟩ := andThen_eq_some_iff.mp hdigits
  obtain ⟨_, hword, -⟩ := map_eq_some_iff.mp hend
  rw [Place.advance_advance, wordEnd] at hword
  split at hword
  · cases hword
  · rename_i hnone
    obtain ⟨-, rfl⟩ := Prod.mk.inj (Option.some.inj hword)
    intro c hc
    rw [Bool.eq_false_iff]
    intro hname
    refine hnone ?_
    have hascii : c.toNat < 128 := by
      have := isNameRest_iff.mp hname
      omega
    rw [Place.rest_advance, ← Nat.add_zero (k + i), Nat.add_assoc, hc]
    exact (Text.isWord_of_lt hascii).trans hname

/-- The word of a label is not the keyword of a push: a colon follows, and no operand. -/
theorem push_eq_none_of_label {a : Action} {n : Nat} (hp : p.blanks = 0)
    (h : label p = some (a, n)) : push p = none := by
  cases hpush : push p with
  | none => rfl
  | some found =>
    exfalso
    obtain ⟨written, k, m, hkeyword, hoperand, -⟩ := andThen_eq_some_iff.mp hpush
    rw [token_eq _ hp] at hkeyword
    obtain ⟨-, -, hcolon⟩ := label_eq_some hp h
    obtain ⟨-, hletters⟩ := takes_pushKeyword_letters p written k hkeyword
    have hend := pushKeyword_ends hkeyword
    rw [← List.take_append_drop k p.rest, List.dropWhile_append] at hcolon
    split at hcolon
    · -- The keyword is all of the name.
      have hbehind : (p.rest.drop k).dropWhile isNameRest = p.rest.drop k := by
        cases hrest : p.rest.drop k with
        | nil => rfl
        | cons c rest =>
          refine List.dropWhile_cons_of_neg ?_
          rw [hend c (by rw [hrest]; rfl)]
          exact Bool.false_ne_true
      rw [hbehind] at hcolon
      rw [map_eq_none _ (pushOperand_eq_none hcolon)] at hoperand
      cases hoperand
    · -- The name ends within the keyword, and that is not where a colon stands.
      rename_i hne
      have hhead := List.head?_dropWhile_not isNameRest (p.rest.take k)
      cases hrest : (p.rest.take k).dropWhile isNameRest with
      | nil =>
        rw [hrest] at hne
        exact hne rfl
      | cons c rest =>
        rw [hrest] at hhead hcolon
        have hmem : c ∈ p.rest.take k :=
          (List.dropWhile_sublist _).subset (hrest ▸ List.mem_cons_self)
        rcases hletters c hmem with hname | rfl
        · have hnot : isNameRest c = false := hhead
          rw [hname] at hnot
          cases hnot
        · cases hcolon

/-- A name is no directive, since it does not start with a dot. -/
theorem byte_eq_none_of_label {a : Action} {n : Nat} (hp : p.blanks = 0)
    (h : label p = some (a, n)) : byte p = none := by
  obtain ⟨-, ⟨c, hc, hstart⟩, -⟩ := label_eq_some hp h
  cases hdirective : byteDirective.token p with
  | none => exact andThen_eq_none _ hdirective
  | some found =>
    obtain ⟨d, _, rest, hrest, -, -, hd, -⟩ := starts_of_byteDirective hp hdirective
    rw [hrest] at hc
    obtain rfl : d = c := Option.some.inj hc
    obtain rfl : d = '.' := eq_of_toLower_eq hd (by decide)
    cases hstart

end

end EvmAssembler.Source
