import EvmAssembler.Proofs.Source.Lines
import EvmAssembler.Proofs.Source.Written

/-!
# `EvmAssembler.Proofs.Source.LineEnds`: carriage returns in front of line feeds

`actions_crlfLineEnds`: a text asks for the same with a carriage return in front of every line
feed, whatever else is in it, or it is refused for the same reason.

A place in the text has its place in the changed one (`Place.wide`), and a number of characters
comes to more (`Place.span`). `Recogniser.Widens` says that a recogniser finds the same there, over
the span of what it took. No class of characters has one of the two and not the other, so this is
so of every part of the grammar that ends before the line does. A rejected line is one of them,
since a carriage return at its end is white space.

A comment is not: it takes the carriage return and stops between the two. `Recogniser.Follows` is
the weaker property that it has, and statements and segments with it. What stands next is then the
line feed, which is skipped as the carriage return would have been. `reading_wide` is the induction
along the segments.
-/

set_option autoImplicit false

namespace EvmAssembler

/-- The text with `\r\n` for every line feed. -/
def Text.crlfLineEnds (text : List Char) : List Char :=
  text.flatMap fun c => if c = '\n' then ['\r', '\n'] else [c]

namespace Source

open Recogniser
open Text (crlfLineEnds)

/-! ### Changed line ends -/

/-- Line ends are changed one by one, so a text may be changed in parts. -/
theorem crlfLineEnds_append (a b : List Char) :
    crlfLineEnds (a ++ b) = crlfLineEnds a ++ crlfLineEnds b :=
  List.flatMap_append

/-- A character that is no line feed stays. -/
theorem crlfLineEnds_cons {c : Char} (hc : c ≠ '\n') (rest : List Char) :
    crlfLineEnds (c :: rest) = c :: crlfLineEnds rest := by
  rw [crlfLineEnds, List.flatMap_cons, if_neg hc]
  rfl

/-- A line feed gets its carriage return. -/
theorem crlfLineEnds_cons_lineFeed (rest : List Char) :
    crlfLineEnds ('\n' :: rest) = '\r' :: '\n' :: crlfLineEnds rest := rfl

section
variable {text : List Char}

/-- Without line feeds the text stays as it is. -/
theorem crlfLineEnds_eq_self (h : '\n' ∉ text) : crlfLineEnds text = text := by
  induction text with
  | nil => rfl
  | cons c text ih =>
    rw [crlfLineEnds_cons fun hc => h (hc ▸ List.mem_cons_self),
      ih fun hmem => h (List.mem_cons_of_mem c hmem)]

/-- No character is lost. -/
theorem length_le_crlfLineEnds (text : List Char) : text.length ≤ (crlfLineEnds text).length := by
  induction text with
  | nil => exact Nat.le_refl _
  | cons c text ih =>
    by_cases hc : c = '\n'
    · rw [hc, crlfLineEnds_cons_lineFeed, List.length_cons, List.length_cons, List.length_cons]
      omega
    · rw [crlfLineEnds_cons hc, List.length_cons, List.length_cons]
      omega

/-- The text ends with the same character. -/
theorem getLast?_crlfLineEnds (text : List Char) :
    (crlfLineEnds text).getLast? = text.getLast? := by
  rcases List.eq_nil_or_concat text with rfl | ⟨before, c, rfl⟩
  · rfl
  · rw [List.concat_eq_append, crlfLineEnds_append, List.getLast?_concat]
    by_cases hc : c = '\n'
    · rw [hc]
      exact List.getLast?_append_of_ne_nil _ (List.cons_ne_nil _ _)
    · rw [crlfLineEnds_cons hc]
      exact List.getLast?_concat

variable {inClass : Char → Bool}

/-- A class that treats both alike ends where it did. -/
theorem takeWhile_crlfLineEnds (h : inClass '\r' = inClass '\n') (text : List Char) :
    (crlfLineEnds text).takeWhile inClass = crlfLineEnds (text.takeWhile inClass) := by
  induction text with
  | nil => rfl
  | cons c text ih =>
    by_cases hc : c = '\n'
    · rw [hc, crlfLineEnds_cons_lineFeed, List.takeWhile_cons, List.takeWhile_cons,
        List.takeWhile_cons, h, ih]
      cases inClass '\n' <;> rfl
    · rw [crlfLineEnds_cons hc, List.takeWhile_cons, List.takeWhile_cons, ih]
      cases inClass c with
      | false => rfl
      | true => exact (crlfLineEnds_cons hc _).symm

/-- A class with neither takes the same characters. -/
theorem takeWhile_crlfLineEnds_eq_self (hr : inClass '\r' = false) (hn : inClass '\n' = false)
    (text : List Char) : (crlfLineEnds text).takeWhile inClass = text.takeWhile inClass := by
  rw [takeWhile_crlfLineEnds (hr.trans hn.symm), crlfLineEnds_eq_self]
  intro hmem
  rw [List.mem_takeWhile_imp hmem] at hn
  cases hn

/-- The first character is of the same class as before, if the carriage return is of that of the
line feed. -/
theorem any_head_crlfLineEnds (h : inClass '\r' = inClass '\n') (text : List Char) :
    (crlfLineEnds text).head?.any inClass = text.head?.any inClass := by
  cases text with
  | nil => rfl
  | cons c text =>
    by_cases hc : c = '\n'
    · rw [hc]
      exact h
    · rw [crlfLineEnds_cons hc]
      rfl

/-- So are all characters. -/
theorem all_crlfLineEnds (h : inClass '\r' = inClass '\n') (text : List Char) :
    (crlfLineEnds text).all inClass = text.all inClass := by
  induction text with
  | nil => rfl
  | cons c text ih =>
    by_cases hc : c = '\n'
    · rw [hc, crlfLineEnds_cons_lineFeed, List.all_cons, List.all_cons, List.all_cons, h, ih]
      cases inClass '\n' <;> rfl
    · rw [crlfLineEnds_cons hc, List.all_cons, List.all_cons, ih]

/-- Columns start over at either, so tabs are as wide as before. -/
theorem expandTabsFrom_crlfLineEnds (column : Nat) (text : List Char) :
    Text.expandTabsFrom column (crlfLineEnds text) =
      crlfLineEnds (Text.expandTabsFrom column text) := by
  fun_induction Text.expandTabsFrom column text with
  | case1 => rfl
  | case2 column rest step ih =>
    have hspaces : crlfLineEnds (List.replicate step ' ') = List.replicate step ' ' :=
      crlfLineEnds_eq_self fun hmem => absurd (List.eq_of_mem_replicate hmem) (by decide)
    rw [crlfLineEnds_cons (by decide), Text.expandTabsFrom, ih, crlfLineEnds_append, hspaces]
  | case3 column c rest hc ih =>
    by_cases hfeed : c = '\n'
    · subst hfeed
      rw [crlfLineEnds_cons_lineFeed, crlfLineEnds_cons_lineFeed, Text.expandTabsFrom,
        Text.expandTabsFrom, ← ih]
      · rfl
      all_goals decide
    · rw [crlfLineEnds_cons hfeed, crlfLineEnds_cons hfeed, Text.expandTabsFrom, ih]
      exact hc

end

/-! ### Places in the changed text -/

namespace Place

variable (p : Place)

/-- The place in the text with its line ends changed. -/
def wide : Place :=
  ⟨p.before, crlfLineEnds p.rest⟩

/-- The number of characters that so many become. Past the end of the text, none is added. -/
def span (n : Nat) : Nat :=
  (crlfLineEnds (p.rest.take n)).length + (n - p.rest.length)

/-- What follows at the place in the changed text is the changed rest. -/
theorem rest_wide : p.wide.rest = crlfLineEnds p.rest := rfl

/-- A span takes what was taken, and leaves what was left. -/
theorem split_span (n : Nat) : p.wide.rest.take (p.span n) = crlfLineEnds (p.rest.take n) ∧
    p.wide.rest.drop (p.span n) = crlfLineEnds (p.rest.drop n) := by
  have hsplit : p.wide.rest = crlfLineEnds (p.rest.take n) ++ crlfLineEnds (p.rest.drop n) := by
    rw [← crlfLineEnds_append, List.take_append_drop, rest_wide]
  rcases Nat.lt_or_ge p.rest.length n with hlong | hle
  · have hrest : crlfLineEnds (p.rest.drop n) = [] := by
      rw [List.drop_of_length_le (Nat.le_of_lt hlong)]
      rfl
    rw [hrest, List.append_nil] at hsplit
    rw [hsplit, hrest, span]
    exact ⟨List.take_of_length_le (by omega), List.drop_of_length_le (by omega)⟩
  · rw [hsplit, span, Nat.sub_eq_zero_of_le hle, Nat.add_zero, List.take_left, List.drop_left]
    exact ⟨rfl, rfl⟩

/-- Taking the span leads to the place of what is left. -/
theorem wide_advance (n : Nat) : p.wide.advance (p.span n) = (p.advance n).wide := by
  show Place.mk ((p.wide.rest.take (p.span n)).getLast?.or p.before)
    (p.wide.rest.drop (p.span n)) = Place.mk ((p.rest.take n).getLast?.or p.before) _
  rw [(p.split_span n).1, (p.split_span n).2, getLast?_crlfLineEnds]
  rfl

/-- Nothing spans nothing. -/
theorem span_zero : p.span 0 = 0 := by
  rw [span, List.take_zero, Nat.zero_sub]
  rfl

/-- Two numbers of characters, one behind the other, have spans one behind the other. -/
theorem span_add (m n : Nat) : p.span (m + n) = p.span m + (p.advance m).span n := by
  rw [span, span, span, List.take_add, crlfLineEnds_append, List.length_append, rest_advance,
    List.length_drop]
  omega

/-- A span is no shorter than what it is of. -/
theorem le_span (n : Nat) : n ≤ p.span n := by
  have hle := length_le_crlfLineEnds (p.rest.take n)
  rw [List.length_take] at hle
  rw [span]
  omega

/-- Further on in the text is further on in the changed one. -/
theorem span_lt {m n : Nat} (h : m < n) : p.span m < p.span n := by
  obtain ⟨k, rfl⟩ := Nat.exists_eq_add_of_lt h
  have hle := (p.advance m).le_span (k + 1)
  rw [Nat.add_assoc, span_add]
  omega

/-- A place that is no further on is no further on there. -/
theorem span_le {m n : Nat} (h : m ≤ n) : p.span m ≤ p.span n := by
  rcases Nat.lt_or_eq_of_le h with hlt | rfl
  · exact Nat.le_of_lt (p.span_lt hlt)
  · exact Nat.le_refl _

/-- Where no line ends, nothing is added. -/
theorem span_eq_self {n : Nat} (h : '\n' ∉ p.rest.take n) : p.span n = n := by
  rw [span, crlfLineEnds_eq_self h, List.length_take]
  omega

/-- The blanks of the changed text are the span of those that there were, since carriage returns are
skipped. -/
theorem blanks_wide : p.wide.blanks = p.span p.blanks := by
  rw [blanks, rest_wide, takeWhile_crlfLineEnds rfl, span, p.take_blanks]
  have hle := p.blanks_le
  omega

/-- So it is with a word that stands on the line. -/
theorem span_eq_length {taken : List Char} (h : taken <+: p.rest) (hfeed : '\n' ∉ taken) :
    p.span taken.length = taken.length := by
  refine p.span_eq_self ?_
  rwa [take_length_eq h]

/-- As many characters as have no line end among them stay what they are. -/
theorem split_wide {n : Nat} (h : '\n' ∉ p.rest.take n) :
    p.wide.rest.take n = p.rest.take n ∧ p.wide.rest.drop n = crlfLineEnds (p.rest.drop n) := by
  have hsplit := p.split_span n
  rwa [p.span_eq_self h, crlfLineEnds_eq_self h] at hsplit

/-- As many as have one get a carriage return among them. -/
theorem mem_take_wide {n : Nat} (h : '\n' ∈ p.rest.take n) : '\r' ∈ p.wide.rest.take n := by
  -- In front of the first line feed nothing changes, and then comes the carriage return.
  obtain ⟨first, second, hsplit, hfirst⟩ := List.eq_append_cons_of_mem h
  have hlength := congrArg List.length hsplit
  rw [List.length_append, List.length_cons, List.length_take] at hlength
  have hrest : p.wide.rest = first ++ '\r' :: '\n' :: crlfLineEnds (second ++ p.rest.drop n) := by
    conv_lhs => rw [rest_wide, ← List.take_append_drop n p.rest, hsplit]
    rw [List.append_assoc, List.cons_append, crlfLineEnds_append, crlfLineEnds_eq_self hfirst,
      crlfLineEnds_cons_lineFeed]
  obtain ⟨k, hk⟩ : ∃ k, n = first.length + (k + 1) := ⟨n - first.length - 1, by omega⟩
  rw [hrest, hk, List.take_length_add_append, List.take_succ_cons]
  exact List.mem_append_right _ List.mem_cons_self

end Place

/-! ### What is found alike -/

namespace Recogniser

variable {α β : Type}

/-- With its line ends changed, the text has the same to be found, over the span of it. -/
def Widens (r : Recogniser α) : Prop :=
  ∀ p : Place, r p.wide = (r p).map fun (a, n) => (a, p.span n)

/-- What is found may be made into anything else. -/
theorem Widens.map {r : Recogniser α} (h : r.Widens) (f : α → β) : (r.map f).Widens := by
  intro p
  rw [Recogniser.map, Recogniser.map, h p]
  cases r p <;> rfl

/-- The second part stands behind the span of the first, and the spans add up. -/
theorem Widens.andThen {r : Recogniser α} {next : α → Recogniser β} (h : r.Widens)
    (hnext : ∀ a, (next a).Widens) : (r.andThen next).Widens := by
  intro p
  rw [Recogniser.andThen, Recogniser.andThen, h p]
  cases r p with
  | none => rfl
  | some found =>
    obtain ⟨a, n⟩ := found
    show (next a (p.wide.advance (p.span n))).map _ = ((next a (p.advance n)).map _).map _
    rw [p.wide_advance, hnext a]
    cases next a (p.advance n) with
    | none => rfl
    | some found =>
      obtain ⟨b, m⟩ := found
      show some (b, p.span n + (p.advance n).span m) = some (b, p.span (n + m))
      rw [p.span_add]

/-- A token skips the span of its blanks. -/
theorem Widens.token {r : Recogniser α} (h : r.Widens) : r.token.Widens := by
  intro p
  rw [Recogniser.token, Recogniser.token, p.blanks_wide, p.wide_advance, h]
  cases r (p.advance p.blanks) with
  | none => rfl
  | some found =>
    obtain ⟨a, n⟩ := found
    show some (a, p.span p.blanks + (p.advance p.blanks).span n) = some (a, p.span (p.blanks + n))
    rw [p.span_add]

/-- Of two ways, the same one is gone. -/
theorem Widens.orElse {r s : Recogniser α} (hr : r.Widens) (hs : s.Widens) :
    (r.orElse s).Widens := by
  intro p
  rw [Recogniser.orElse, Recogniser.orElse, hr p, hs p]
  cases r p <;> rfl

/-- Of two ways, the one that took more takes more over their spans. -/
theorem Widens.longer {r s : Recogniser α} (hr : r.Widens) (hs : s.Widens) :
    (r.longer s).Widens := by
  intro p
  rw [Recogniser.longer, Recogniser.longer, hr p, hs p]
  cases r p with
  | none => cases s p <;> rfl
  | some found =>
    cases s p with
    | none => rfl
    | some other =>
      obtain ⟨a, n⟩ := found
      obtain ⟨b, m⟩ := other
      -- Of two spans, the one of more characters is the longer one.
      show (if p.span n < p.span m then _ else _) = (if n < m then _ else _ : Option _).map _
      by_cases hlt : n < m
      · rw [if_pos hlt, if_pos (p.span_lt hlt)]
        rfl
      · have hle := p.span_le (Nat.le_of_not_lt hlt)
        rw [if_neg hlt, if_neg (by omega)]
        rfl

/-- What is missing takes nothing, and that has no span. -/
theorem Widens.optional {r : Recogniser α} (h : r.Widens) : r.optional.Widens := by
  intro p
  rw [Recogniser.optional, Recogniser.optional, h p]
  cases r p with
  | none =>
    show some (none, 0) = some (none, p.span 0)
    rw [p.span_zero]
  | some found => rfl

/-- From a list of recognisers the same one is chosen. -/
theorem Widens.firstOf {rs : List (Recogniser α)} (h : ∀ r ∈ rs, r.Widens) :
    (firstOf rs).Widens := by
  intro p
  show (rs.findSome? fun r => r p.wide) = (rs.findSome? fun r => r p).map _
  induction rs with
  | nil => rfl
  | cons r rs ih =>
    rw [List.findSome?_cons, List.findSome?_cons, h r List.mem_cons_self p]
    cases r p with
    | none => exact ih fun s hs => h s (List.mem_cons_of_mem r hs)
    | some found => rfl

/-- A recogniser that takes a fixed number of characters, none of them a line end, has only to look
at these and at what follows. -/
theorem widens_of_take {r : Recogniser α} {k : Nat}
    (htakes : ∀ p a n, r p = some (a, n) → n = k ∧ '\r' ∉ p.rest.take k ∧ '\n' ∉ p.rest.take k)
    (hlooks : ∀ p : Place, '\n' ∉ p.rest.take k → r p.wide = r p) : r.Widens := by
  intro p
  by_cases hfeed : '\n' ∈ p.rest.take k
  · have hnone : r p = none := by
      cases hfound : r p with
      | none => rfl
      | some found => exact absurd hfeed (htakes p _ _ hfound).2.2
    have hwide : r p.wide = none := by
      cases hfound : r p.wide with
      | none => rfl
      | some found => exact absurd (p.mem_take_wide hfeed) (htakes p.wide _ _ hfound).2.1
    rw [hnone, hwide]
    rfl
  · rw [hlooks p hfeed]
    cases hfound : r p with
    | none => rfl
    | some found =>
      obtain ⟨a, n⟩ := found
      obtain ⟨rfl, -, -⟩ := htakes p a n hfound
      show some (a, n) = some (a, p.span n)
      rw [p.span_eq_self hfeed]

/-- A fixed text without line ends is found where it was. -/
theorem widens_exactly {text : List Char} (hr : '\r' ∉ text) (hn : '\n' ∉ text) :
    (exactly text).Widens := by
  refine widens_of_take (k := text.length) (fun p a n hfound => ?_) fun p hfeed => ?_
  · obtain ⟨rfl, htake⟩ := exactly_eq_some hfound
    rw [htake]
    exact ⟨rfl, hr, hn⟩
  · rw [exactly, exactly, (p.split_wide hfeed).1]

/-- A run ends where it did, if neither character of a line end is of its class. -/
theorem widens_run {inClass : Char → Bool} (hr : inClass '\r' = false)
    (hn : inClass '\n' = false) : (run inClass).Widens := by
  intro p
  rw [run, run, p.rest_wide, takeWhile_crlfLineEnds_eq_self hr hn]
  dsimp only
  split
  · rfl
  · show some (_, _) = some (_, p.span _)
    rw [p.span_eq_length (List.takeWhile_prefix _)]
    intro hmem
    rw [List.mem_takeWhile_imp hmem] at hn
    cases hn

end Recogniser

/-! ### The parts of a line -/

/-- A name has no line end in it. -/
theorem widens_name : name.Widens := by
  intro p
  have hrun := @takeWhile_crlfLineEnds_eq_self isNameRest rfl rfl
  rw [name, name, p.rest_wide]
  cases hrest : p.rest with
  | nil => rfl
  | cons c rest =>
    by_cases hc : c = '\n'
    · rw [hc]
      rfl
    · rw [crlfLineEnds_cons hc]
      dsimp only
      rw [hrun rest]
      split
      · show some (_, _) = some (_, p.span _)
        have htaken : c :: rest.takeWhile isNameRest <+: p.rest := by
          rw [hrest]
          exact List.cons_prefix_cons.mpr ⟨rfl, List.takeWhile_prefix _⟩
        rw [p.span_eq_length htaken]
        intro hmem
        rcases List.mem_cons.mp hmem with heq | hmem
        · exact hc heq.symm
        · exact absurd (List.mem_takeWhile_imp hmem) (by decide)
      · rfl

/-- The digits of a hexadecimal literal stop at a line end of either kind, and the mark is in front
of them. -/
theorem widens_hexLiteral : hexLiteral.Widens := by
  intro p
  have hrun := @takeWhile_crlfLineEnds_eq_self (fun c => (Text.hexDigit? c).isSome) rfl rfl
  rw [hexLiteral, hexLiteral, p.rest_wide]
  rcases hrest : p.rest with _ | ⟨c, rest⟩
  · rfl
  by_cases hc : c = '0'
  · subst hc
    rw [crlfLineEnds_cons (by decide)]
    rcases rest with _ | ⟨x, rest⟩
    · rfl
    by_cases hx : x = '\n'
    · rw [hx]
      rfl
    · rw [crlfLineEnds_cons hx]
      simp only [hrun rest]
      split
      · split
        · rfl
        · have htaken : '0' :: x :: rest.takeWhile (fun c => (Text.hexDigit? c).isSome) <+:
              p.rest := by
            rw [hrest]
            exact List.cons_prefix_cons.mpr ⟨rfl, List.cons_prefix_cons.mpr
              ⟨rfl, List.takeWhile_prefix _⟩⟩
          have hspan := p.span_eq_length htaken ?_
          · rw [List.length_cons, List.length_cons] at hspan
            show some (_, _) = some (_, p.span _)
            rw [hspan]
          · intro hmem
            rcases List.mem_cons.mp hmem with heq | hmem
            · exact absurd heq (by decide)
            · rcases List.mem_cons.mp hmem with heq | hmem
              · exact hx heq.symm
              · exact absurd (List.mem_takeWhile_imp hmem) (by decide)
      · rfl
  · by_cases hfeed : c = '\n'
    · rw [hfeed]
      rfl
    · simp [crlfLineEnds_cons hfeed, hc]

/-- A keyword has no letter that may be written as one of the two characters. -/
theorem widens_keyword {letters : List Char}
    (h : (letters.all fun l => !Text.sameLetter l '\r' && !Text.sameLetter l '\n') = true) :
    (keyword letters).Widens := by
  refine widens_of_take (k := letters.length) (fun p a n hfound => ?_) fun p hfeed => ?_
  · have hletters := (takes_keyword letters p a n hfound).2
    obtain ⟨rfl, -⟩ := keyword_eq_some hfound
    refine ⟨rfl, fun hmem => ?_, fun hmem => ?_⟩
    all_goals
      obtain ⟨l, hl, hsame⟩ := hletters _ hmem
      have hnot := List.all_eq_true.mp h l hl
      rw [hsame] at hnot
      simp at hnot
  · rw [keyword, keyword, (p.split_wide hfeed).1]

/-- Behind a word a line end of either kind is as good as the other. -/
theorem widens_wordEnd : wordEnd.Widens := by
  intro p
  rw [wordEnd, wordEnd, p.rest_wide, any_head_crlfLineEnds rfl]
  split
  · rfl
  · show some ((), 0) = some ((), p.span 0)
    rw [p.span_zero]

/-- A mnemonic stands on its line, and neither character goes on with it. -/
theorem widens_mnemonic (op : Opcode) : (mnemonic op).Widens := by
  refine widens_of_take (k := op.name.toList.length) (fun p a n hfound => ?_) fun p hfeed => ?_
  · obtain ⟨-, rfl, hcapitals⟩ := mnemonic_eq_some hfound
    exact ⟨rfl, not_mem_of_capitals hcapitals rfl rfl, not_mem_of_capitals hcapitals rfl rfl⟩
  · obtain ⟨htake, hdrop⟩ := p.split_wide hfeed
    rw [mnemonic, mnemonic, htake, hdrop, any_head_crlfLineEnds rfl]
    rfl

/-- The directive takes five characters, and none of them is part of a line end. -/
theorem widens_byteDirective : byteDirective.Widens := by
  refine widens_of_take (k := 5) (fun p a n hfound => ?_) fun p hfeed => ?_
  · obtain ⟨rfl, hcapitals⟩ := byteDirective_eq_some hfound
    refine ⟨rfl, fun hmem => ?_, fun hmem => ?_⟩
    all_goals
      have hcapital := mem_capitals rfl hmem
      rw [hcapitals] at hcapital
      revert hcapital
      decide
  · rw [byteDirective, byteDirective, (p.split_wide hfeed).1]

/-- A line that ends in a line feed gets a carriage return for its last character, and no other
line does. -/
theorem takeWhile_line (text : List Char) : ∃ returns,
    (crlfLineEnds text).takeWhile (· != '\n') = text.takeWhile (· != '\n') ++ returns ∧
      (returns = [] ∧ text.dropWhile (· != '\n') = [] ∨
        returns = ['\r'] ∧ ∃ rest, text.dropWhile (· != '\n') = '\n' :: rest) := by
  induction text with
  | nil => exact ⟨[], rfl, Or.inl ⟨rfl, rfl⟩⟩
  | cons c text ih =>
    by_cases hc : c = '\n'
    · rw [hc]
      exact ⟨['\r'], rfl, Or.inr ⟨rfl, text, rfl⟩⟩
    · obtain ⟨returns, htake, hends⟩ := ih
      have hpos : (c != '\n') = true := bne_iff_ne.mpr hc
      refine ⟨returns, ?_, ?_⟩
      · rw [crlfLineEnds_cons hc, List.takeWhile_cons, List.takeWhile_cons, hpos, if_pos rfl,
          if_pos rfl, htake]
        rfl
      · rwa [List.dropWhile_cons_of_pos (p := (· != '\n')) hpos]

/-- A carriage return at the end of a line is white space, so it is never shown. -/
theorem widens_unknownLine : unknownLine.Widens := by
  refine Widens.token fun p => ?_
  obtain ⟨returns, hline, hends⟩ := takeWhile_line p.rest
  have hblank : ∀ c ∈ returns.reverse, Text.isBlank c = true := by
    rcases hends with ⟨rfl, -⟩ | ⟨rfl, -⟩
    · exact fun c hc => absurd hc List.not_mem_nil
    · intro c hc
      rw [List.mem_singleton.mp hc]
      rfl
  dsimp only
  rw [p.rest_wide, hline, List.reverse_append, List.dropWhile_append_of_pos hblank]
  generalize hshown :
    ((p.rest.takeWhile (· != '\n')).reverse.dropWhile Text.isBlank).reverse = shown
  have htaken : shown <+: p.rest.takeWhile (· != '\n') := by
    rw [← hshown, ← List.reverse_suffix, List.reverse_reverse]
    exact List.dropWhile_suffix _
  split
  · rfl
  · show some (_, _) = some (_, p.span _)
    rw [p.span_eq_length (htaken.trans (List.takeWhile_prefix _))]
    intro hmem
    exact absurd (List.mem_takeWhile_imp (p := (· != '\n')) (htaken.subset hmem)) (by decide)

/-! ### What ends with the line -/

/-- The place behind so many characters becomes a place of the changed text: the same one, or the
one between a line feed that stood there and its carriage return. -/
inductive Place.Lands (p : Place) (n : Nat) : Nat → Prop where
  | there : p.Lands n (p.span n)
  | behindReturn {rest : List Char} : p.rest.drop n = '\n' :: rest → p.Lands n (p.span n + 1)

namespace Recogniser

variable {α β : Type}

/-- With its line ends changed, the text has the same to be found, and at most a carriage return
is taken in addition. -/
def Follows (r : Recogniser α) : Prop :=
  ∀ p : Place, (r p = none → r p.wide = none) ∧
    ∀ a n, r p = some (a, n) → ∃ m, r p.wide = some (a, m) ∧ p.Lands n m

/-- What is found over the span of it follows. -/
theorem Widens.follows {r : Recogniser α} (h : r.Widens) : r.Follows := by
  intro p
  rw [h p]
  refine ⟨fun hnone => by rw [hnone]; rfl, fun a n hfound => ⟨_, ?_, .there⟩⟩
  rw [hfound]
  rfl

/-- What is found may be made into anything else. -/
theorem Follows.map {r : Recogniser α} (h : r.Follows) (f : α → β) : (r.map f).Follows := by
  intro p
  obtain ⟨hnone, hsome⟩ := h p
  constructor
  · intro hp
    rw [Recogniser.map, Option.map_eq_none_iff] at hp
    exact map_eq_none f (hnone hp)
  · intro b n hp
    obtain ⟨a, hfound, rfl⟩ := map_eq_some_iff.mp hp
    obtain ⟨m, hm, hlands⟩ := hsome a n hfound
    exact ⟨m, map_eq f hm, hlands⟩

/-- What is missing is missing, and no carriage return is taken for it. -/
theorem Follows.optional {r : Recogniser α} (h : r.Follows) : r.optional.Follows := by
  intro p
  obtain ⟨hnone, hsome⟩ := h p
  constructor
  · intro hp
    obtain ⟨found, n, hfound⟩ := exists_optional r p
    rw [hfound] at hp
    cases hp
  · intro a? n hp
    rcases optional_eq_some hp with ⟨a, hfound, rfl⟩ | ⟨hmissing, rfl, rfl⟩
    · obtain ⟨m, hm, hlands⟩ := hsome a n hfound
      exact ⟨m, optional_eq hm, hlands⟩
    · have hlands := Place.Lands.there (p := p) (n := 0)
      rw [p.span_zero] at hlands
      exact ⟨0, optional_eq_none (hnone hmissing), hlands⟩

/-- In sequence, only the last may go on to where the line ends. -/
theorem Widens.andThen_follows {r : Recogniser α} {next : α → Recogniser β} (h : r.Widens)
    (hnext : ∀ a, (next a).Follows) : (r.andThen next).Follows := by
  intro p
  constructor
  · intro hp
    cases hfound : r p with
    | none =>
      refine andThen_eq_none _ ?_
      rw [h p, hfound]
      rfl
    | some found =>
      obtain ⟨a, n⟩ := found
      have hwide : r p.wide = some (a, p.span n) := by
        rw [h p, hfound]
        rfl
      refine andThen_eq_none_of_next hwide ?_
      rw [p.wide_advance]
      refine (hnext a _).1 ?_
      rw [Recogniser.andThen, hfound] at hp
      exact Option.map_eq_none_iff.mp hp
  · intro b n hp
    obtain ⟨a, k, i, hfound, hbehind, rfl⟩ := andThen_eq_some_iff.mp hp
    have hwide : r p.wide = some (a, p.span k) := by
      rw [h p, hfound]
      rfl
    -- The first part ends where it did, so it is the second that may end behind the return.
    obtain ⟨m, hm, hlands⟩ := (hnext a _).2 b i hbehind
    rw [← p.wide_advance] at hm
    refine ⟨_, andThen_eq hwide hm, ?_⟩
    cases hlands with
    | there =>
      rw [← p.span_add]
      exact .there
    | behindReturn hrest =>
      rw [← Nat.add_assoc, ← p.span_add]
      rw [Place.rest_advance, List.drop_drop] at hrest
      exact .behindReturn hrest

/-- A carriage return never makes the second of two the longer one. -/
theorem Follows.longer {r s : Recogniser α} (hr : r.Follows) (hs : s.Widens) :
    (r.longer s).Follows := by
  intro p
  obtain ⟨hnone, hsome⟩ := hr p
  constructor
  · intro hp
    obtain ⟨hfirst, hsecond⟩ := longer_eq_none_iff.mp hp
    exact longer_eq_none (hnone hfirst) ((hs.follows p).1 hsecond)
  intro a n hp
  rcases longer_eq_some hp with ⟨hfirst, hle⟩ | ⟨hsecond, hlt⟩
  · obtain ⟨m, hm, hlands⟩ := hsome a n hfirst
    refine ⟨m, longer_eq_of_le hm fun b k hk => ?_, hlands⟩
    rw [hs p, Option.map_eq_some_iff] at hk
    obtain ⟨⟨b, i⟩, hi, heq⟩ := hk
    obtain ⟨-, rfl⟩ := Prod.mk.inj heq
    have hspan := p.span_le (hle b i hi)
    cases hlands with
    | there => exact hspan
    | behindReturn _ => omega
  · refine ⟨p.span n, ?_, .there⟩
    have hwide : s p.wide = some (a, p.span n) := by
      rw [hs p, hsecond]
      rfl
    cases hfirst : r p with
    | none => rw [longer_eq_right s (hnone hfirst), hwide]
    | some found =>
      obtain ⟨b, k⟩ := found
      obtain ⟨m, hm, hlands⟩ := hsome b k hfirst
      rw [Recogniser.longer, hm, hwide]
      have hspan := hlt b k hfirst
      have hless : m < p.span n := by
        cases hlands with
        | there => exact p.span_lt hspan
        | @behindReturn rest hrest =>
          -- The line feed is the next to be taken, and it has become two characters.
          have hfeed : (p.advance k).span 1 = 2 := by
            rw [Place.span, Place.rest_advance, hrest, List.length_cons, Nat.sub_eq_zero_of_le]
            · rfl
            · omega
          have hnext : p.span k + (p.advance k).span 1 ≤ p.span n := by
            rw [← p.span_add]
            exact p.span_le hspan
          omega
      show (if m < p.span n then some (a, p.span n) else some (b, m)) = _
      rw [if_pos hless]

end Recogniser

/-! ### The grammar -/

/-- Literals of both kinds are found over their spans. -/
theorem widens_integerLiteral : integerLiteral.Widens :=
  widens_hexLiteral.token.orElse ((widens_run rfl rfl).map _).token

/-- A reference may go over line ends between its parts, which are blanks to it. -/
theorem widens_reference : reference.Widens := by
  have hmark : ∀ {text : List Char}, (text.all fun c => c != '\r' && c != '\n') = true →
      (exactly text).Widens := by
    intro text h
    refine widens_exactly (fun hmem => ?_) fun hmem => ?_
    · exact absurd (List.all_eq_true.mp h _ hmem) (by decide)
    · exact absurd (List.all_eq_true.mp h _ hmem) (by decide)
  refine (hmark (by decide)).token.andThen fun _ => Widens.andThen ?_ fun _ => ?_
  · exact (widens_name.token.andThen fun _ => (hmark (by decide)).token.map _).optional
  · exact widens_name.token.map _

/-- A word with an index stands on one line. -/
theorem widens_indexed {letters : List Char}
    (h : (letters.all fun l => !Text.sameLetter l '\r' && !Text.sameLetter l '\n') = true)
    (make : Nat → Action) : (indexed letters make).Widens :=
  (widens_keyword h).andThen fun _ => (widens_run rfl rfl).andThen fun _ => widens_wordEnd.map _

/-- A push is found with its operand, be it on another line. -/
theorem widens_push : push.Widens := by
  have hkeyword : pushKeyword.Widens := (widens_keyword (by decide)).andThen fun _ =>
    (widens_run rfl rfl).optional.andThen fun _ => widens_wordEnd.map _
  have hoperand : pushOperand.Widens :=
    (widens_integerLiteral.map _).orElse (widens_reference.map _)
  exact hkeyword.token.andThen fun _ => hoperand.map _

/-- So is a byte. -/
theorem widens_byte : byte.Widens :=
  widens_byteDirective.token.andThen fun _ => widens_integerLiteral.map _

/-- All kinds of commands are, and so is the longest of them. -/
theorem widens_command : command.Widens := by
  have hfixed : fixedCommand.Widens := by
    refine (Widens.firstOf fun r hr => ?_).token
    obtain ⟨op, -, rfl⟩ := List.mem_map.mp hr
    exact widens_mnemonic op
  exact (hfixed.map _).longer ((widens_indexed (by decide) _).token.longer
    ((widens_indexed (by decide) _).token.longer ((widens_push.map _).longer (widens_byte.map _))))

/-- A label and its command may stand on different lines, and are found together. -/
theorem widens_instructionLine : instructionLine.Widens := by
  have hlabel : label.Widens :=
    widens_name.token.andThen fun _ => (widens_exactly (by decide) (by decide)).token.map _
  exact (hlabel.andThen fun _ => widens_command.optional.map _).orElse (widens_command.map _)

/-- A comment goes on to where its line ends, and so to the line feed or up to its carriage
return. -/
theorem follows_comment : comment.Follows := by
  refine (widens_exactly (by decide) (by decide)).token.andThen_follows fun _ p => ?_
  refine ⟨fun hnone => (by cases hnone), fun _ n hfound => ?_⟩
  obtain ⟨-, rfl⟩ := Prod.mk.inj (Option.some.inj hfound)
  obtain ⟨returns, hline, hends⟩ := takeWhile_line p.rest
  have hspan := p.span_eq_length (List.takeWhile_prefix (· != '\n')) fun hmem =>
    absurd (List.mem_takeWhile_imp hmem) (by decide)
  have hlength : ((crlfLineEnds p.rest).takeWhile (· != '\n')).length =
      p.span (p.rest.takeWhile (· != '\n')).length + returns.length := by
    rw [hline, List.length_append, hspan]
  refine ⟨_, rfl, ?_⟩
  rw [p.rest_wide, hlength]
  rcases hends with ⟨rfl, -⟩ | ⟨rfl, rest, hrest⟩
  · exact .there
  · exact .behindReturn ((drop_length_takeWhile _ _).trans hrest)

/-- A statement ends with its command, or with a comment that may take a carriage return in
addition. -/
theorem follows_statement : statement.Follows :=
  widens_instructionLine.andThen_follows fun _ => follows_comment.optional.map _

/-- Whichever of the three is the longest, the same is with the line ends changed. -/
theorem follows_segment : segment.Follows := by
  intro p
  cases hcomment : comment p with
  | some found =>
    -- A comment wins wherever there is one.
    obtain ⟨⟨⟩, n⟩ := found
    obtain ⟨m, hm, hlands⟩ := (follows_comment p).2 () n hcomment
    rw [segment_eq_comment hcomment, segment_eq_comment hm]
    refine ⟨fun hnone => (by cases hnone), fun found k hfound => ?_⟩
    cases hfound
    exact ⟨m, rfl, hlands⟩
  | none =>
    have hwide := (follows_comment p).1 hcomment
    have hrest := (follows_statement.map fun actions => (SegmentKind.statement, actions)).longer
      (widens_unknownLine.map fun text => (SegmentKind.unknown, ([.ok (.unknown text)] : Finding)))
    have hskip : ∀ {q : Place}, comment q = none → segment q =
        (statement.map fun actions => (SegmentKind.statement, actions)).longer
          (unknownLine.map fun text => (SegmentKind.unknown, [.ok (.unknown text)])) q := by
      intro q hq
      rw [segment, Recogniser.longer, longer_eq_right _ (map_eq_none _ hq)]
      rfl
    rw [hskip hcomment, hskip hwide]
    exact hrest p

/-! ### Whole texts -/

/-- One skipped character may be left out. -/
theorem reading_advance_one {p : Place} {c : Char} {rest : List Char} (hrest : p.rest = c :: rest)
    (hc : Text.isSkipped c = true) : (p.advance 1).reading = p.reading := by
  have hblanks : p.blanks = 1 + (p.advance 1).blanks := by
    rw [Place.blanks, Place.blanks, Place.rest_advance, hrest, List.takeWhile_cons_of_pos hc,
      List.length_cons, Nat.add_comm]
    rfl
  rw [← reading_advance_blanks (p.advance 1), ← reading_advance_blanks p, hblanks,
    Place.advance_advance]

/-- From each place on, the changed text is read as the text is. -/
theorem reading_wide (p : Place) : p.wide.reading = p.reading := by
  fun_induction segmentsFrom p with
  | case1 p hnone =>
    rw [reading_of_none hnone, reading_of_none ((follows_segment p).1 hnone), p.rest_wide,
      all_crlfLineEnds rfl]
  | case2 p kind found n hfound _ _ later finish hlater ih =>
    obtain ⟨m, hm, hlands⟩ := (follows_segment p).2 _ n hfound
    rw [reading_of_some hfound, reading_of_some hm, ← ih]
    cases hlands with
    | there => rw [p.wide_advance]
    | @behindReturn rest hrest =>
      have hreturn : (p.advance n).wide.rest = '\r' :: '\n' :: crlfLineEnds rest := by
        rw [Place.rest_wide, Place.rest_advance, hrest]
        rfl
      rw [← Place.advance_advance, p.wide_advance, reading_advance_one hreturn rfl]

/-- A text asks for the same with `\r\n` for every line feed, or it is refused for the same
reason. -/
theorem actions_crlfLineEnds (text : List Char) : actions (crlfLineEnds text) = actions text := by
  have hactions : ∀ text, actions text =
      ((Place.start (Text.expandTabs text)).reading.1.mapM id).bind fun actions =>
        if (Place.start (Text.expandTabs text)).reading.2 then .ok actions
        else .error .unparsedText := fun _ => rfl
  have htabs : Text.expandTabs (crlfLineEnds text) = crlfLineEnds (Text.expandTabs text) :=
    expandTabsFrom_crlfLineEnds 0 text
  have hstart : Place.start (Text.expandTabs (crlfLineEnds text)) =
      (Place.start (Text.expandTabs text)).wide := by
    rw [htabs]
    rfl
  rw [hactions, hactions, hstart, reading_wide]

end Source

end EvmAssembler
