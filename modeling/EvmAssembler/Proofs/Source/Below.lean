import EvmAssembler.Proofs.Source.Initials

/-!
# `EvmAssembler.Proofs.Source.Below`: recognising with a line below

`Place.above` puts a line below the text at a place. What a recogniser finds there depends on
how far it looks:

* `Keeps`: it finds the same, or fails as before. So it is with every part of the grammar that
  stands on one line, since no class of characters has a line feed, and with tokens wherever
  anything is left to read.
* `Finds`: what it has found it still finds, though it may find more. So it is with a push and
  a byte, whose operand may come to stand on the line below.

A colon at the start of the line below would go on with a name at the end of the text. `Parted`
says of a place that this is not so, or that a comment is still to come there.
-/

set_option autoImplicit false

namespace EvmAssembler.Source

open Recogniser

/-! ### Places with a line below -/

namespace Place

variable {p : Place} {n : Nat}

/-- The place in the text with a line below it. -/
def above (p : Place) (line : List Char) : Place :=
  ⟨p.before, p.rest ++ '\n' :: line⟩

/-- Nothing is left to read. -/
def AtEnd (p : Place) : Prop :=
  ∀ c ∈ p.rest, Text.isSkipped c = true

/-- The next character is one to read. -/
def Visible (p : Place) : Prop :=
  ∃ c rest, p.rest = c :: rest ∧ Text.isSkipped c = false

variable (line : List Char)

/-- The line stands behind a line feed, after what is left of the text. -/
theorem rest_above : (p.above line).rest = p.rest ++ '\n' :: line := rfl

/-- A place within the text may be moved before the line is put below, or after that. -/
theorem above_advance (h : n ≤ p.rest.length) :
    (p.above line).advance n = (p.advance n).above line := by
  show Place.mk (((p.rest ++ '\n' :: line).take n).getLast?.or p.before)
    ((p.rest ++ '\n' :: line).drop n) = _
  rw [List.take_append_of_le_length h, List.drop_append_of_le_length h]
  rfl

/-- Where something is left to read, it stands behind the blanks. -/
theorem visible_advance_blanks (h : ¬p.AtEnd) : (p.advance p.blanks).Visible := by
  rw [Visible, rest_advance_blanks]
  have hhead := List.head?_dropWhile_not Text.isSkipped p.rest
  cases hrest : p.rest.dropWhile Text.isSkipped with
  | nil =>
    rw [List.dropWhile_eq_nil_iff] at hrest
    exact absurd hrest h
  | cons c rest =>
    rw [hrest] at hhead
    exact ⟨c, rest, rfl, by simpa using hhead⟩

/-- The blanks end at what is left to read, so the line below adds none. -/
theorem blanks_above (h : ¬p.AtEnd) : (p.above line).blanks = p.blanks := by
  obtain ⟨c, rest, hrest, hc⟩ := visible_advance_blanks h
  rw [rest_advance_blanks] at hrest
  have hsplit := @List.takeWhile_append_dropWhile _ Text.isSkipped p.rest
  rw [hrest] at hsplit
  refine @blanks_eq _ _ (c :: rest ++ '\n' :: line) ?_ ?_ ?_
  · rw [rest_above, ← List.append_assoc, hsplit]
  · exact fun d hd => List.mem_takeWhile_imp hd
  · intro d hd
    obtain rfl : c = d := Option.some.inj hd
    exact hc

/-- In front of a character to read there are no blanks. -/
theorem Visible.blanks_eq_zero (h : p.Visible) : p.blanks = 0 := by
  obtain ⟨c, rest, hrest, hc⟩ := h
  refine @blanks_eq p [] p.rest rfl (fun d hd => absurd hd List.not_mem_nil) fun d hd => ?_
  rw [hrest] at hd
  obtain rfl : c = d := Option.some.inj hd
  exact hc

/-- At such a character the text is not at its end. -/
theorem Visible.not_atEnd (h : p.Visible) : ¬p.AtEnd := by
  obtain ⟨c, rest, hrest, hc⟩ := h
  intro hend
  rw [hend c (by rw [hrest]; exact List.mem_cons_self)] at hc
  cases hc

/-- It is still the next one when there is a line below. -/
theorem Visible.above (h : p.Visible) : (p.above line).Visible := by
  obtain ⟨c, rest, hrest, hc⟩ := h
  exact ⟨c, rest ++ '\n' :: line, by rw [rest_above, hrest]; rfl, hc⟩

/-- Further on in a text of which nothing is left, nothing is left either. -/
theorem AtEnd.advance (h : p.AtEnd) (n : Nat) : (p.advance n).AtEnd :=
  fun c hc => h c (List.mem_of_mem_drop hc)

/-- A place with something left to read lies within the text. -/
theorem lt_length_of_not_atEnd (h : ¬(p.advance n).AtEnd) : n < p.rest.length := by
  by_contra hle
  refine h fun c hc => ?_
  rw [rest_advance, List.drop_of_length_le (by omega)] at hc
  cases hc

/-- As many characters as there are, are those in front of the line below. -/
theorem take_above (h : n ≤ p.rest.length) : (p.above line).rest.take n = p.rest.take n :=
  List.take_append_of_le_length h

/-- More than there are go past the line feed. -/
theorem lineFeed_mem_take_above (h : p.rest.length < n) : '\n' ∈ (p.above line).rest.take n := by
  obtain ⟨m, rfl⟩ := Nat.exists_eq_add_of_lt h
  rw [rest_above, Nat.add_assoc, List.take_length_add_append, List.take_succ_cons]
  exact List.mem_append_right _ List.mem_cons_self

/-- A class without the line feed ends where it did. -/
theorem takeWhile_above {inClass : Char → Bool} (h : inClass '\n' = false) (text : List Char) :
    (text ++ '\n' :: line).takeWhile inClass = text.takeWhile inClass := by
  rw [List.takeWhile_append, List.takeWhile_cons_of_neg (by rw [h]; exact Bool.false_ne_true)]
  split
  · rename_i hall
    rw [List.append_nil, (List.takeWhile_prefix _).eq_of_length hall]
  · rfl

/-- What follows starts as before, up to a line feed where nothing did. -/
theorem any_head_above {inClass : Char → Bool} (h : inClass '\n' = false) (text : List Char) :
    (text ++ '\n' :: line).head?.any inClass = text.head?.any inClass := by
  cases text with
  | nil => exact h
  | cons c text => rfl

end Place

namespace Recogniser

variable {α β : Type} {p : Place} {line : List Char}

/-! ### What stays the same -/

/-- With the line below, the recogniser finds at the place what it found without. -/
def Keeps (r : Recogniser α) (p : Place) (line : List Char) : Prop :=
  r (p.above line) = r p

/-- What is found at a place may be made into anything else. -/
theorem Keeps.map {r : Recogniser α} (h : r.Keeps p line) (f : α → β) :
    (r.map f).Keeps p line := by
  rw [Keeps, Recogniser.map, Recogniser.map, h]

/-- One part may stand behind another. The second starts where the first has ended, and the first
takes no line feed. -/
theorem Keeps.andThen {r : Recogniser α} {next : α → Recogniser β} {P : Char → Prop}
    (h : r.Keeps p line) (htakes : r.Takes P)
    (hnext : ∀ a n, r p = some (a, n) → (next a).Keeps (p.advance n) line) :
    (r.andThen next).Keeps p line := by
  rw [Keeps, Recogniser.andThen, Recogniser.andThen, h]
  cases hr : r p with
  | none => rfl
  | some found =>
    obtain ⟨a, n⟩ := found
    show (next a ((p.above line).advance n)).map _ = (next a (p.advance n)).map _
    rw [Place.above_advance line (htakes p a n hr).1, hnext a n hr]

/-- Where something is left to read, a token stands in front of the line below. -/
theorem Keeps.token {r : Recogniser α} (hp : ¬p.AtEnd) (h : r.Keeps (p.advance p.blanks) line) :
    r.token.Keeps p line := by
  rw [Keeps, Recogniser.token, Recogniser.token, Place.blanks_above line hp,
    Place.above_advance line p.blanks_le, h]

/-- Of two ways to read a place, the first that can be gone is the same. -/
theorem Keeps.orElse {r s : Recogniser α} (hr : r.Keeps p line) (hs : s.Keeps p line) :
    (r.orElse s).Keeps p line := by
  rw [Keeps, Recogniser.orElse, Recogniser.orElse, hr, hs]

/-- Of two ways to read a place, the longer one is the same. -/
theorem Keeps.longer {r s : Recogniser α} (hr : r.Keeps p line) (hs : s.Keeps p line) :
    (r.longer s).Keeps p line := by
  rw [Keeps, Recogniser.longer, Recogniser.longer, hr, hs]

/-- What may be missing is missing as before. -/
theorem Keeps.optional {r : Recogniser α} (h : r.Keeps p line) : r.optional.Keeps p line := by
  rw [Keeps, Recogniser.optional, Recogniser.optional, h]

/-- A fixed text without a line feed is found on its line or nowhere. -/
theorem keeps_exactly {text : List Char} (h : '\n' ∉ text) : (exactly text).Keeps p line := by
  rw [Keeps, exactly, exactly]
  rcases Nat.lt_or_ge p.rest.length text.length with hshort | hlong
  · -- Too little is left, and with the line below a line feed would be taken.
    rw [if_neg, if_neg]
    · intro htake
      have hlength := congrArg List.length htake
      rw [List.length_take] at hlength
      omega
    · intro htake
      exact h (htake ▸ Place.lineFeed_mem_take_above line hshort)
  · rw [Place.take_above line hlong]

/-- A run of characters stops at a line feed that is not of their class. -/
theorem keeps_run {inClass : Char → Bool} (h : inClass '\n' = false) :
    (run inClass).Keeps p line := by
  rw [Keeps, run, run, Place.rest_above, Place.takeWhile_above line h]

end Recogniser

/-- No name has a line feed in it. -/
theorem keeps_name {p : Place} {line : List Char} : name.Keeps p line := by
  rw [Keeps, name, name, Place.rest_above]
  cases p.rest with
  | nil => rfl
  | cons c rest =>
    show (if isNameStart c then
      some (String.ofList (c :: (rest ++ '\n' :: line).takeWhile isNameRest),
        (c :: (rest ++ '\n' :: line).takeWhile isNameRest).length) else none) = _
    rw [Place.takeWhile_above line rfl]

/-- A keyword is compared letter by letter, and none of its letters is written as a line feed. -/
theorem keeps_keyword {p : Place} {line letters : List Char}
    (h : (letters.all fun l => !Text.sameLetter l '\n') = true) :
    (keyword letters).Keeps p line := by
  rw [Keeps, keyword, keyword]
  rcases Nat.lt_or_ge p.rest.length letters.length with hshort | hlong
  · have hfeed := Place.lineFeed_mem_take_above line hshort
    dsimp only
    rw [if_neg, if_neg]
    · rintro ⟨hlength, -⟩
      rw [List.length_take] at hlength
      omega
    · rintro ⟨hlength, hall⟩
      have hsnd :=
        @List.map_snd_zip _ _ letters ((p.above line).rest.take letters.length) (by omega)
      rw [← hsnd, List.mem_map] at hfeed
      obtain ⟨⟨l, c⟩, hpair, hc⟩ := hfeed
      have hsame := List.all_eq_true.mp hall _ hpair
      have hnot := List.all_eq_true.mp h l (List.of_mem_zip hpair).1
      dsimp only at hsame hc
      rw [← hc, hsame] at hnot
      cases hnot
  · rw [Place.take_above line hlong]

/-- A word that ends with the text ends at the line feed as well. -/
theorem keeps_wordEnd {p : Place} {line : List Char} : wordEnd.Keeps p line := by
  rw [Keeps, wordEnd, wordEnd, Place.rest_above, Place.any_head_above line isStopped_isWord.2.2.2]

/-- The digits of a hexadecimal literal stop at the line feed, and its mark is on one line. -/
theorem keeps_hexLiteral {p : Place} {line : List Char} : hexLiteral.Keeps p line := by
  rw [Keeps, hexLiteral, hexLiteral, Place.rest_above]
  rcases p.rest with _ | ⟨c, _ | ⟨x, rest⟩⟩
  · rfl
  · by_cases hc : c = '0'
    · rw [hc]
      rfl
    · simp [hc]
  · by_cases hc : c = '0'
    · rw [hc]
      have hrun := @Place.takeWhile_above line (fun c => (Text.hexDigit? c).isSome) rfl rest
      simp only [List.cons_append, hrun]
    · simp [hc]

/-- The directive is read from five characters, and none of them is a line feed. -/
theorem keeps_byteDirective {p : Place} {line : List Char} : byteDirective.Keeps p line := by
  rcases Nat.lt_or_ge p.rest.length 5 with hshort | hlong
  · have hfeed := Place.lineFeed_mem_take_above line hshort
    rw [Keeps, byteDirective, byteDirective, if_neg, if_neg]
    · intro hcapitals
      have htaken : byteDirective p = some ((), 5) := by rw [byteDirective, if_pos hcapitals]
      have hle := (takes_byteDirective p () 5 htaken).1
      omega
    · intro hcapitals
      have hmem := mem_capitals rfl hfeed
      rw [hcapitals] at hmem
      revert hmem
      decide
  · rw [Keeps, byteDirective, byteDirective, Place.take_above line hlong]

/-! ### What is still found -/

/-- The text starts with something else than a colon. -/
def StartsApart (text : List Char) : Prop :=
  ∀ c ∈ (text.dropWhile Text.isSkipped).head?, c ≠ ':'

/-- A comment is still to come, or the line below does not start with a colon. -/
def Place.Parted (p : Place) (line : List Char) : Prop :=
  '/' ∈ p.rest ∨ StartsApart line

/-- A comment that is still to come further on is still to come here. -/
theorem Place.Parted.of_advance {p : Place} {line : List Char} {n : Nat}
    (h : (p.advance n).Parted line) : p.Parted line :=
  h.imp_left List.mem_of_mem_drop

namespace Recogniser

variable {α β : Type} {p : Place} {line : List Char}

/-- What the recogniser found without the line below, it finds with it. -/
def Finds (r : Recogniser α) (p : Place) (line : List Char) : Prop :=
  ∀ a n, r p = some (a, n) → n ≤ p.rest.length → (p.advance n).Parted line →
    r (p.above line) = some (a, n)

/-- Where the recogniser failed without the line below, it fails with it. -/
def Misses (r : Recogniser α) (p : Place) (line : List Char) : Prop :=
  r p = none → r (p.above line) = none

/-- Where nothing changes, what was found is found. -/
theorem Keeps.finds {r : Recogniser α} (h : r.Keeps p line) : r.Finds p line :=
  fun _ _ hfound _ _ => h.trans hfound

/-- And where nothing was found, nothing is. -/
theorem Keeps.misses {r : Recogniser α} (h : r.Keeps p line) : r.Misses p line :=
  fun hnone => h.trans hnone

/-- It is enough that another recogniser finds the same at both places. -/
theorem Finds.of_eq {r s : Recogniser α} (h : s.Finds p line) (hp : r p = s p)
    (hover : r (p.above line) = s (p.above line)) : r.Finds p line := by
  rw [Finds, hp, hover]
  exact h

/-- What is found may be made into anything else. -/
theorem Finds.map {r : Recogniser α} (h : r.Finds p line) (f : α → β) :
    (r.map f).Finds p line := by
  intro b n hfound hle hparted
  obtain ⟨a, hr, rfl⟩ := map_eq_some_iff.mp hfound
  exact map_eq f (h a n hr hle hparted)

/-- What is missed is missed whatever would have been made of it. -/
theorem Misses.map {r : Recogniser α} (h : r.Misses p line) (f : α → β) :
    (r.map f).Misses p line := by
  intro hnone
  refine map_eq_none f (h ?_)
  cases hr : r p with
  | none => rfl
  | some found =>
    rw [map_eq f hr] at hnone
    cases hnone

/-- One part may stand behind another if each of them is still found, the second where the first has
ended. -/
theorem Finds.andThen {r : Recogniser α} {next : α → Recogniser β} (h : r.Finds p line)
    (hnext : ∀ a n, r p = some (a, n) → (next a).Finds (p.advance n) line) :
    (r.andThen next).Finds p line := by
  intro b n hfound hle hparted
  obtain ⟨a, k, m, hr, hm, rfl⟩ := andThen_eq_some_iff.mp hfound
  rw [← Place.advance_advance] at hparted
  have hfirst := h a k hr (by omega) hparted.of_advance
  refine andThen_eq hfirst ?_
  rw [Place.above_advance line (by omega)]
  refine hnext a k hr b m hm ?_ hparted
  rw [Place.rest_advance, List.length_drop]
  omega

/-- Skipping blanks leads to the same place, as long as something is left behind them. -/
theorem Finds.token {r : Recogniser α} (hp : ¬p.AtEnd) (h : r.Finds (p.advance p.blanks) line) :
    r.token.Finds p line := by
  intro a n hfound hle hparted
  obtain ⟨m, hm, rfl⟩ := token_eq_some_iff.mp hfound
  rw [← Place.advance_advance] at hparted
  refine token_eq_some_iff.mpr ⟨m, ?_, by rw [Place.blanks_above line hp]⟩
  rw [Place.blanks_above line hp, Place.above_advance line p.blanks_le]
  refine h a m hm ?_ hparted
  rw [Place.rest_advance, List.length_drop]
  omega

/-- So a token is missed where its word is. -/
theorem Misses.token {r : Recogniser α} (hp : ¬p.AtEnd)
    (h : r.Misses (p.advance p.blanks) line) : r.token.Misses p line := by
  intro hnone
  rw [Recogniser.token, Option.map_eq_none_iff] at hnone ⊢
  rw [Place.blanks_above line hp, Place.above_advance line p.blanks_le]
  exact h hnone

/-- The first way is still gone where it was. Where it was not, it has to stay closed for the second
one to be gone. -/
theorem Finds.orElse {r s : Recogniser α} (hr : r.Finds p line) (hmiss : r.Misses p line)
    (hs : s.Finds p line) : (r.orElse s).Finds p line := by
  intro a n hfound hle hparted
  cases hfirst : r p with
  | none =>
    rw [orElse_eq_right s hfirst] at hfound
    rw [orElse_eq_right s (hmiss hfirst)]
    exact hs a n hfound hle hparted
  | some found =>
    rw [orElse_eq_left hfirst, ← hfirst] at hfound
    exact orElse_eq_left (hr a n hfound hle hparted)

/-- Both ways have to stay closed. -/
theorem Misses.orElse {r s : Recogniser α} (hr : r.Misses p line) (hs : s.Misses p line) :
    (r.orElse s).Misses p line := by
  intro hnone
  cases hfirst : r p with
  | none =>
    rw [orElse_eq_right s hfirst] at hnone
    rw [orElse_eq_right s (hr hfirst)]
    exact hs hnone
  | some found =>
    rw [orElse_eq_left hfirst] at hnone
    cases hnone

/-- The first success is found if no earlier recogniser starts to succeed. -/
theorem finds_firstOf {rs : List (Recogniser α)}
    (h : ∀ r ∈ rs, r.Finds p line ∧ r.Misses p line) :
    (firstOf rs).Finds p line ∧ (firstOf rs).Misses p line := by
  induction rs with
  | nil => exact ⟨fun _ _ hfound => absurd hfound (by rintro ⟨⟩), fun _ => rfl⟩
  | cons r rs ih =>
    have hcons : firstOf (r :: rs) = r.orElse (firstOf rs) := by
      funext q
      rw [firstOf, List.findSome?_cons, Recogniser.orElse]
      cases r q <;> rfl
    obtain ⟨hfind, hmiss⟩ := h r List.mem_cons_self
    obtain ⟨hfinds, hmisses⟩ := ih fun s hs => h s (List.mem_cons_of_mem r hs)
    rw [hcons]
    exact ⟨hfind.orElse hmiss hfinds, hmiss.orElse hmisses⟩

/-- The second way may not become the longer one by finding more than it did. -/
theorem Finds.longer {r s : Recogniser α} (hr : r.Finds p line) (hmiss : r.Misses p line)
    (hs : s.Keeps p line) : (r.longer s).Finds p line := by
  intro a n hfound hle hparted
  cases hfirst : r p with
  | none =>
    rw [longer_eq_right s hfirst] at hfound
    rw [longer_eq_right s (hmiss hfirst), hs, hfound]
  | some found =>
    obtain ⟨b, m⟩ := found
    -- The longer of the two is not shorter than the first, so the first stays within the text.
    have hm : m ≤ n := by
      rcases longer_eq_some hfound with ⟨hb, -⟩ | ⟨-, hlt⟩
      · rw [hfirst] at hb
        cases hb
        exact Nat.le_refl _
      · exact Nat.le_of_lt (hlt b m hfirst)
    obtain ⟨k, rfl⟩ := Nat.exists_eq_add_of_le hm
    rw [← Place.advance_advance] at hparted
    have hover := hr b m hfirst (by omega) hparted.of_advance
    rw [← hfound, Recogniser.longer, Recogniser.longer, hover, hfirst, hs]

/-- Neither way may be opened by the line below. -/
theorem Misses.longer {r s : Recogniser α} (hr : r.Misses p line) (hs : s.Misses p line) :
    (r.longer s).Misses p line := by
  intro hnone
  obtain ⟨hfirst, hsecond⟩ := longer_eq_none_iff.mp hnone
  exact longer_eq_none (hr hfirst) (hs hsecond)

/-- Where nothing is left to read, there is no token. -/
theorem token_eq_none {r : Recogniser α} (hp : p.AtEnd)
    (hr : ∀ q : Place, q.rest = [] → r q = none) : r.token p = none := by
  rw [Recogniser.token, hr _ ?_]
  · rfl
  · rw [Place.rest_advance_blanks, List.dropWhile_eq_nil_iff]
    exact hp

/-- A fixed text of one character or more is no token where nothing is left. -/
theorem exactly_token_eq_none (hp : p.AtEnd) (c : Char) (text : List Char) :
    (exactly (c :: text)).token p = none :=
  token_eq_none hp fun q hq => exactly_eq_none fun d hd => by rw [hq] at hd; cases hd

end Recogniser

/-- Nor is a name. -/
theorem name_token_eq_none {p : Place} (hp : p.AtEnd) : name.token p = none :=
  token_eq_none hp fun q hq => name_eq_none fun c hc => by rw [hq] at hc; cases hc

/-- Nor is a literal of either kind. -/
theorem integerLiteral_eq_none {p : Place} (hp : p.AtEnd) : integerLiteral p = none := by
  have hhex : hexLiteral.token p = none := token_eq_none hp fun q hq => by rw [hexLiteral, hq]
  have hdecimal : decimalLiteral.token p = none :=
    token_eq_none hp fun q hq => map_eq_none _ (by rw [run, hq]; rfl)
  rw [integerLiteral, orElse_eq_right _ hhex, hdecimal]

section
variable {p : Place} {line : List Char}

/-- Neither a label nor a namespace goes on below: there the colons would have to start. -/
theorem keeps_marked {β : Type} {mark : List Char} (hmark : '\n' ∉ ':' :: mark)
    (f : String → Unit → β) (hp : ¬p.AtEnd) (hparted : p.Parted line) :
    (name.token.andThen fun word => (exactly (':' :: mark)).token.map (f word)).Keeps p line := by
  have htakes := (takes_name.imp isStopped_isNameRest.ne_slash).token ne_slash_of_isSkipped
  refine (keeps_name.token hp).andThen htakes fun word n hword => Keeps.map ?_ _
  by_cases hend : (p.advance n).AtEnd
  · rw [Keeps, exactly_token_eq_none hend, Recogniser.token, exactly_eq_none]
    · rfl
    · rw [Place.rest_advance_blanks, Place.rest_above, List.dropWhile_append_of_pos hend]
      -- A slash would be in the name or behind it, and so nowhere.
      refine hparted.resolve_left fun hslash => ?_
      rw [← List.take_append_drop n p.rest, List.mem_append] at hslash
      rcases hslash with hslash | hslash
      · exact (htakes p word n hword).2 _ hslash rfl
      · exact ne_slash_of_isSkipped _ (hend _ hslash) rfl
  · exact (keeps_exactly hmark).token hend

/-- The colon of a label is found on the line of its name, since no colon starts the line below. -/
theorem keeps_label (hp : ¬p.AtEnd) (hparted : p.Parted line) : label.Keeps p line :=
  @keeps_marked p line Action [] (by decide) (fun word _ => .label word) hp hparted

/-- A literal stands on one line. -/
theorem keeps_integerLiteral (hp : ¬p.AtEnd) : integerLiteral.Keeps p line :=
  (keeps_hexLiteral.token hp).orElse
    (((keeps_run isStopped_isDigit.2.2.2).map _).token hp)

/-- A name that is there is still found. One that is missing may be found on the line below. -/
theorem finds_name_token : name.token.Finds p line := by
  by_cases hp : p.AtEnd
  · intro a n hfound
    rw [name_token_eq_none hp] at hfound
    cases hfound
  · exact (keeps_name.token hp).finds

/-- The same is true of a reference, whose parts may stand on lines of their own. -/
theorem finds_reference : reference.Finds p line := by
  by_cases hp : p.AtEnd
  · intro path n hfound
    rw [reference, andThen_eq_none _ (exactly_token_eq_none hp _ _)] at hfound
    cases hfound
  · refine ((keeps_exactly (by decide)).token hp).finds.andThen fun _ n _ => ?_
    intro path m hfound hle hparted
    by_cases hend : (p.advance n).AtEnd
    · -- The name is missing, with a namespace or without.
      obtain ⟨space, k, i, -, hname, -⟩ := andThen_eq_some_iff.mp hfound
      rw [map_eq_none _ (name_token_eq_none (hend.advance k))] at hname
      cases hname
    · have hspace : namespacePart.Keeps (p.advance n) line :=
        keeps_marked (by decide) (fun word _ => word) hend hparted.of_advance
      refine hspace.optional.finds.andThen (fun space k _ => ?_) path m hfound hle hparted
      exact finds_name_token.map _

/-- A word with an index is read from one line. -/
theorem keeps_indexed {letters : List Char}
    (h : (letters.all fun l => !Text.sameLetter l '\n') = true)
    (hslash : (letters.all fun l => !Text.sameLetter l '/') = true) (make : Nat → Action)
    (hp : ¬p.AtEnd) : (indexed letters make).token.Keeps p line := by
  refine Keeps.token hp ((keeps_keyword h).andThen (takes_letters hslash) fun _ _ _ => ?_)
  exact (keeps_run isStopped_isDigit.2.2.2).andThen takes_digits fun _ _ _ => keeps_wordEnd.map _

/-- So is the keyword of a push. -/
theorem keeps_pushKeyword (hp : ¬p.AtEnd) : pushKeyword.token.Keeps p line := by
  refine Keeps.token hp ((keeps_keyword (by decide)).andThen (takes_letters (by decide))
    fun _ _ _ => ?_)
  exact (keeps_run isStopped_isDigit.2.2.2).optional.andThen takes_digits.optional
    fun _ _ _ => keeps_wordEnd.map _

/-- An operand that is there is still found: it is not read on into the line below. -/
theorem finds_pushOperand : pushOperand.Finds p line := by
  by_cases hp : p.AtEnd
  · intro operand n hfound
    have hreference : reference p = none := andThen_eq_none _ (exactly_token_eq_none hp _ _)
    rw [pushOperand, orElse_eq_right _ (map_eq_none _ (integerLiteral_eq_none hp)),
      map_eq_none _ hreference] at hfound
    cases hfound
  · have hliteral : (integerLiteral.map PushOperand.literal).Keeps p line :=
      (keeps_integerLiteral hp).map _
    exact hliteral.finds.orElse hliteral.misses (finds_reference.map _)

/-- A push that has its operand keeps it. -/
theorem finds_push (hp : ¬p.AtEnd) : push.Finds p line :=
  (keeps_pushKeyword hp).finds.andThen fun _ _ _ => finds_pushOperand.map _

/-- So does a byte. -/
theorem finds_byte (hp : ¬p.AtEnd) : byte.Finds p line := by
  refine (keeps_byteDirective.token hp).finds.andThen fun _ n _ => Finds.map ?_ _
  by_cases hend : (p.advance n).AtEnd
  · intro literal m hfound
    rw [integerLiteral_eq_none hend] at hfound
    cases hfound
  · exact (keeps_integerLiteral hend).finds

/-- A mnemonic is on one line, and what goes on with it cannot come from below. -/
theorem finds_mnemonic (op : Opcode) :
    (mnemonic op).Finds p line ∧ (mnemonic op).Misses p line := by
  rcases Nat.lt_or_ge p.rest.length op.name.toList.length with hshort | hlong
  · -- A mnemonic with a line feed in it is none, and one that is cut off is not asked for.
    have hnone : mnemonic op (p.above line) = none := by
      rw [mnemonic, if_neg]
      rintro ⟨hcapitals, -⟩
      exact not_mem_of_capitals hcapitals rfl rfl (Place.lineFeed_mem_take_above line hshort)
    refine ⟨fun a n hfound hle _ => ?_, fun _ => hnone⟩
    obtain ⟨-, rfl, -⟩ := mnemonic_eq_some hfound
    omega
  · have hkeeps : (mnemonic op).Keeps p line := by
      rw [Keeps, mnemonic, mnemonic, Place.take_above line hlong, Place.rest_above,
        List.drop_append_of_le_length hlong,
        Place.any_head_above line isStopped_continuesMnemonic.2.2.2]
      rfl
    exact ⟨hkeeps.finds, hkeeps.misses⟩

/-- So it is with the mnemonics together. -/
theorem finds_fixedCommand (hp : ¬p.AtEnd) :
    fixedCommand.Finds p line ∧ fixedCommand.Misses p line := by
  have hfirst := @finds_firstOf _ (p.advance p.blanks) line (Opcode.all.map mnemonic) ?_
  · exact ⟨hfirst.1.token hp, hfirst.2.token hp⟩
  · intro r hr
    obtain ⟨op, -, rfl⟩ := List.mem_map.mp hr
    exact finds_mnemonic op

/-- A comment ends with its line. -/
theorem keeps_comment (hp : ¬p.AtEnd) : comment.Keeps p line := by
  refine ((keeps_exactly (by decide)).token hp).andThen (P := fun _ => True) ?_ fun _ n _ => ?_
  · exact ((takes_exactly _).imp fun _ _ => trivial).token fun _ _ => trivial
  · show some ((), (((p.advance n).rest ++ '\n' :: line).takeWhile (· != '\n')).length) = _
    rw [Place.takeWhile_above line rfl]

/-- So does what is rejected. -/
theorem keeps_unknownLine (hp : ¬p.AtEnd) : unknownLine.Keeps p line := by
  refine Keeps.token hp ?_
  have hline := @Place.takeWhile_above line (· != '\n') rfl (p.advance p.blanks).rest
  simp only [Keeps, Place.rest_above, hline]

end

/-! ### Commands -/

section
variable {p : Place} {line : List Char}

/-- The commands without an operand are still found, and none of them is found in addition. -/
theorem finds_operandless (hp : ¬p.AtEnd) :
    operandless.Finds p line ∧ operandless.Misses p line := by
  obtain ⟨hfinds, hmisses⟩ := @finds_fixedCommand p line hp
  have hindexed : ((indexed ['d', 'u', 'p'] .dup).token.longer
      (indexed ['s', 'w', 'a', 'p'] .swap).token).Keeps p line :=
    (keeps_indexed (by decide) (by decide) _ hp).longer
      (keeps_indexed (by decide) (by decide) _ hp)
  exact ⟨(hfinds.map _).longer (hmisses.map _) hindexed, (hmisses.map _).longer hindexed.misses⟩

/-- What kind of command it may be is settled by how it starts, and kinds are still found. -/
theorem Place.Visible.finds_command (hp : p.Visible) : command.Finds p line := by
  have hover := hp.above line
  cases hkeyword : pushKeyword.token p with
  | some found =>
    have hkept : pushKeyword.token (p.above line) = some found :=
      (keeps_pushKeyword hp.not_atEnd).trans hkeyword
    exact ((finds_push hp.not_atEnd).map _).of_eq
      (command_eq_push (starts_of_pushKeyword hp.blanks_eq_zero hkeyword))
      (command_eq_push (starts_of_pushKeyword hover.blanks_eq_zero hkept))
  | none =>
    cases hdirective : byteDirective.token p with
    | some found =>
      have hkept : byteDirective.token (p.above line) = some found :=
        (keeps_byteDirective.token hp.not_atEnd).trans hdirective
      exact ((finds_byte hp.not_atEnd).map _).of_eq
        (command_eq_byte (starts_of_byteDirective hp.blanks_eq_zero hdirective))
        (command_eq_byte (starts_of_byteDirective hover.blanks_eq_zero hkept))
    | none =>
      have hkeyword' : pushKeyword.token (p.above line) = none :=
        (keeps_pushKeyword hp.not_atEnd).trans hkeyword
      have hdirective' : byteDirective.token (p.above line) = none :=
        (keeps_byteDirective.token hp.not_atEnd).trans hdirective
      exact (finds_operandless hp.not_atEnd).1.of_eq
        (command_eq_operandless (andThen_eq_none _ hkeyword) (andThen_eq_none _ hdirective))
        (command_eq_operandless (andThen_eq_none _ hkeyword') (andThen_eq_none _ hdirective'))

/-- No command starts to be found but one whose operand stands on the line below. -/
theorem Place.Visible.misses_command (hp : p.Visible) (hpush : push (p.above line) = none)
    (hbyte : byte (p.above line) = none) : command.Misses p line := by
  intro hnone
  rw [command_eq_operandless hpush hbyte]
  refine (finds_operandless hp.not_atEnd).2 ?_
  obtain ⟨hfixed, hrest⟩ := longer_eq_none_iff.mp hnone
  obtain ⟨hdup, hrest⟩ := longer_eq_none_iff.mp hrest
  obtain ⟨hswap, -⟩ := longer_eq_none_iff.mp hrest
  exact longer_eq_none hfixed (longer_eq_none hdup hswap)

/-- Where nothing is left to read, nothing is found that shortens the text. -/
theorem eq_none_of_atEnd {α : Type} {r : Recogniser α} (hskip : r.SkipsFirst) (hr : r.Consumes)
    (hp : p.AtEnd) : r p = none := by
  have hnil : (p.advance p.blanks).rest = [] := by
    rw [Place.rest_advance_blanks, List.dropWhile_eq_nil_iff]
    exact hp
  rw [hskip p]
  cases hfound : r (p.advance p.blanks) with
  | none => rfl
  | some found =>
    have hlt := hr _ found.1 found.2 hfound
    rw [hnil] at hlt
    exact absurd hlt (by simp)

/-- The blanks in front do not matter with the line below either. -/
theorem eq_above_advance_blanks {α : Type} {r : Recogniser α} (hskip : r.SkipsFirst)
    (hp : ¬p.AtEnd) (line : List Char) :
    r (p.above line) =
      (r ((p.advance p.blanks).above line)).map fun (a, n) => (a, p.blanks + n) := by
  rw [hskip (p.above line), Place.blanks_above line hp, Place.above_advance line p.blanks_le]

/-- A command in front of the line below is still found. -/
theorem finds_command : command.Finds p line := by
  intro c n hfound hle hparted
  by_cases hp : p.AtEnd
  · rw [eq_none_of_atEnd skipsFirst_command consumes_command hp] at hfound
    cases hfound
  · rw [skipsFirst_command p] at hfound
    rw [eq_above_advance_blanks skipsFirst_command hp]
    obtain ⟨⟨c', m⟩, hm, heq⟩ := Option.map_eq_some_iff.mp hfound
    obtain ⟨rfl, rfl⟩ := Prod.mk.inj heq
    rw [← Place.advance_advance] at hparted
    have hkept := (Place.visible_advance_blanks hp).finds_command c' m hm
      (by rw [Place.rest_advance, List.length_drop]; omega) hparted
    rw [hkept]
    rfl

end

end EvmAssembler.Source
