import EvmAssembler.Proofs.Source.Command
import Mathlib.Data.List.TakeWhile

/-!
# `EvmAssembler.Proofs.Source.Extent`: what recognisers look at and what they take

Two facts about the grammar that do not depend on the text at hand:

* `LooksAhead`: a recogniser asks for the characters that follow, and of what stands before the
  place only whether it goes on with a mnemonic. Places that are `Alike` in this are read alike.
* `Takes P`: a recogniser stays within the text, and all characters it takes satisfy `P`. With
  `P` as being no slash, this says that a slash in a statement is one of its comment.

Fixed mnemonics are the one exception to the latter, since one may be read at the end of a text
that is too short for it. `EndsWhole` is the property of texts that rules this out.
-/

set_option autoImplicit false

namespace EvmAssembler.Source

/-- Two places where the same text follows, and where a mnemonic may start at both or at none. -/
structure Place.Alike (p q : Place) : Prop where
  rest : p.rest = q.rest
  before : p.before.any continuesMnemonic = q.before.any continuesMnemonic

namespace Place.Alike

variable {p q : Place}

/-- As many blanks are skipped at both places. -/
theorem blanks (h : p.Alike q) : p.blanks = q.blanks := by
  rw [Place.blanks, Place.blanks, h.rest]

/-- Places that are alike stay so when the same number of characters is taken. -/
theorem advance (h : p.Alike q) (n : Nat) : (p.advance n).Alike (q.advance n) := by
  refine ⟨by rw [Place.rest_advance, Place.rest_advance, h.rest], ?_⟩
  show ((p.rest.take n).getLast?.or p.before).any _ = ((q.rest.take n).getLast?.or q.before).any _
  rw [h.rest]
  cases (q.rest.take n).getLast? with
  | none => exact h.before
  | some c => rfl

end Place.Alike

namespace Recogniser

variable {α β : Type}

/-! ### Looking ahead -/

/-- The recogniser finds the same at places that are alike. -/
def LooksAhead (r : Recogniser α) : Prop :=
  ∀ p q : Place, p.Alike q → r p = r q

/-- It is enough not to ask for what stands before at all. -/
theorem looksAhead_of_rest {r : Recogniser α} (h : ∀ p q : Place, p.rest = q.rest → r p = r q) :
    r.LooksAhead :=
  fun p q hpq => h p q hpq.rest

/-- Making something else of what is found asks for nothing more. -/
theorem LooksAhead.map {r : Recogniser α} (h : r.LooksAhead) (f : α → β) :
    (r.map f).LooksAhead := by
  intro p q hpq
  rw [Recogniser.map, Recogniser.map, h p q hpq]

/-- The second part stands at places that are alike again, because the first has taken as much at
both. -/
theorem LooksAhead.andThen {r : Recogniser α} {next : α → Recogniser β} (h : r.LooksAhead)
    (hnext : ∀ a, (next a).LooksAhead) : (r.andThen next).LooksAhead := by
  intro p q hpq
  rw [Recogniser.andThen, Recogniser.andThen, h p q hpq]
  cases r q with
  | none => rfl
  | some found =>
    obtain ⟨a, n⟩ := found
    show (next a (p.advance n)).map _ = (next a (q.advance n)).map _
    rw [hnext a _ _ (hpq.advance n)]

/-- The blanks in front of a token are part of what follows. -/
theorem LooksAhead.token {r : Recogniser α} (h : r.LooksAhead) : r.token.LooksAhead := by
  intro p q hpq
  rw [Recogniser.token, Recogniser.token, hpq.blanks, h _ _ (hpq.advance q.blanks)]

/-- Of two ways, the same one is gone at both places. -/
theorem LooksAhead.orElse {r s : Recogniser α} (hr : r.LooksAhead) (hs : s.LooksAhead) :
    (r.orElse s).LooksAhead := by
  intro p q hpq
  rw [Recogniser.orElse, Recogniser.orElse, hr p q hpq, hs p q hpq]

/-- Of two ways, the same one is the longer at both places. -/
theorem LooksAhead.longer {r s : Recogniser α} (hr : r.LooksAhead) (hs : s.LooksAhead) :
    (r.longer s).LooksAhead := by
  intro p q hpq
  rw [Recogniser.longer, Recogniser.longer, hr p q hpq, hs p q hpq]

/-- What may be missing is missing at both places or at none. -/
theorem LooksAhead.optional {r : Recogniser α} (h : r.LooksAhead) : r.optional.LooksAhead := by
  intro p q hpq
  rw [Recogniser.optional, Recogniser.optional, h p q hpq]

/-- From a list of recognisers the same one is chosen. -/
theorem LooksAhead.firstOf {rs : List (Recogniser α)} (h : ∀ r ∈ rs, r.LooksAhead) :
    (firstOf rs).LooksAhead := by
  intro p q hpq
  show (rs.findSome? fun r => r p) = rs.findSome? fun r => r q
  induction rs with
  | nil => rfl
  | cons r rs ih =>
    rw [List.findSome?_cons, List.findSome?_cons, h r List.mem_cons_self p q hpq,
      ih fun s hs => h s (List.mem_cons_of_mem r hs)]

/-- A fixed text is compared with what follows. -/
theorem looksAhead_exactly (text : List Char) : (exactly text).LooksAhead :=
  looksAhead_of_rest fun p q h => by rw [exactly, exactly, h]

/-- A run ends where what follows leaves the class. -/
theorem looksAhead_run (inClass : Char → Bool) : (run inClass).LooksAhead :=
  looksAhead_of_rest fun p q h => by rw [run, run, h]

/-! ### What is taken -/

/-- The recogniser stays within the text, and all it takes satisfies the predicate. -/
def Takes (r : Recogniser α) (P : Char → Prop) : Prop :=
  ∀ p a n, r p = some (a, n) → n ≤ p.rest.length ∧ ∀ c ∈ p.rest.take n, P c

section
variable {P Q : Char → Prop}

/-- What satisfies a predicate satisfies a weaker one. -/
theorem Takes.imp {r : Recogniser α} (h : r.Takes P) (hPQ : ∀ c, P c → Q c) : r.Takes Q := by
  intro p a n hfound
  obtain ⟨hle, hall⟩ := h p a n hfound
  exact ⟨hle, fun c hc => hPQ c (hall c hc)⟩

/-- Making something else of what is found takes no other characters. -/
theorem Takes.map {r : Recogniser α} (h : r.Takes P) (f : α → β) : (r.map f).Takes P := by
  intro p b n hfound
  obtain ⟨a, hfound, -⟩ := map_eq_some_iff.mp hfound
  exact h p a n hfound

/-- Two parts take the characters of both. -/
theorem Takes.andThen {r : Recogniser α} {next : α → Recogniser β} (h : r.Takes P)
    (hnext : ∀ a, (next a).Takes P) : (r.andThen next).Takes P := by
  intro p b n hfound
  obtain ⟨a, k, m, hr, hm, rfl⟩ := andThen_eq_some_iff.mp hfound
  obtain ⟨hk, hfirst⟩ := h p a k hr
  obtain ⟨hm, hsecond⟩ := hnext a (p.advance k) b m hm
  rw [Place.rest_advance] at hm hsecond
  rw [List.length_drop] at hm
  refine ⟨by omega, fun c hc => ?_⟩
  rw [List.take_add, List.mem_append] at hc
  exact hc.elim (hfirst c) (hsecond c)

/-- A token takes blanks in addition. -/
theorem Takes.token {r : Recogniser α} (h : r.Takes P)
    (hskip : ∀ c, Text.isSkipped c = true → P c) : r.token.Takes P := by
  intro p a n hfound
  obtain ⟨m, hm, rfl⟩ := token_eq_some_iff.mp hfound
  obtain ⟨hm, hall⟩ := h _ a m hm
  have hblanks := p.blanks_le
  rw [Place.rest_advance] at hm hall
  rw [List.length_drop] at hm
  refine ⟨by omega, fun c hc => ?_⟩
  rw [List.take_add, p.take_blanks, List.mem_append] at hc
  exact hc.elim (fun hc => hskip c (List.mem_takeWhile_imp hc)) (hall c)

/-- Of two ways, each has to take nothing else. -/
theorem Takes.orElse {r s : Recogniser α} (hr : r.Takes P) (hs : s.Takes P) :
    (r.orElse s).Takes P := by
  intro p a n hfound
  cases hfirst : r p with
  | none =>
    rw [orElse_eq_right s hfirst] at hfound
    exact hs p a n hfound
  | some found =>
    rw [orElse_eq_left hfirst, ← hfirst] at hfound
    exact hr p a n hfound

/-- Where nothing is taken, there is nothing to satisfy. -/
theorem Takes.optional {r : Recogniser α} (h : r.Takes P) : r.optional.Takes P := by
  intro p a? n hfound
  rcases optional_eq_some hfound with ⟨a, hr, -⟩ | ⟨-, -, rfl⟩
  · exact h p a n hr
  · exact ⟨Nat.zero_le _, fun c hc => absurd hc List.not_mem_nil⟩

/-- A fixed text takes its own characters. -/
theorem takes_exactly (text : List Char) : (exactly text).Takes (· ∈ text) := by
  intro p a n hfound
  obtain ⟨rfl, htake⟩ := exactly_eq_some hfound
  have hlength := congrArg List.length htake
  rw [List.length_take] at hlength
  rw [htake]
  exact ⟨by omega, fun c hc => hc⟩

/-- A part of the text that starts where the place is. -/
theorem takes_of_prefix {p : Place} {taken : List Char} (htaken : taken <+: p.rest)
    (hall : ∀ c ∈ taken, P c) :
    taken.length ≤ p.rest.length ∧ ∀ c ∈ p.rest.take taken.length, P c := by
  rw [← List.prefix_iff_eq_take.mp htaken]
  exact ⟨htaken.length_le, hall⟩

/-- A run takes characters of its class. -/
theorem takes_run (inClass : Char → Bool) : (run inClass).Takes (inClass · = true) := by
  intro p a n hfound
  obtain ⟨rfl, -, rfl⟩ := run_eq_some hfound
  exact takes_of_prefix (List.takeWhile_prefix _) fun c hc => List.mem_takeWhile_imp hc

end

end Recogniser

open Recogniser

/-! ### The grammar looks ahead -/

/-- A name is read from what follows. -/
theorem looksAhead_name : name.LooksAhead :=
  looksAhead_of_rest fun p q h => by rw [name, name, h]

/-- So is a keyword. -/
theorem looksAhead_keyword (letters : List Char) : (keyword letters).LooksAhead :=
  looksAhead_of_rest fun p q h => by rw [keyword, keyword, h]

/-- The end of a word is decided by the next character. -/
theorem looksAhead_wordEnd : wordEnd.LooksAhead :=
  looksAhead_of_rest fun p q h => by rw [wordEnd, wordEnd, h]

/-- Both kinds of literals start with what follows. -/
theorem looksAhead_integerLiteral : integerLiteral.LooksAhead := by
  have hhex : hexLiteral.LooksAhead :=
    looksAhead_of_rest fun p q h => by rw [hexLiteral, hexLiteral, h]
  exact hhex.token.orElse ((looksAhead_run _).map _).token

/-- A reference consists of names and marks, each of them read ahead. -/
theorem looksAhead_reference : reference.LooksAhead := by
  refine (looksAhead_exactly _).token.andThen fun _ => LooksAhead.andThen ?_ fun _ => ?_
  · exact (looksAhead_name.token.andThen fun _ => (looksAhead_exactly _).token.map _).optional
  · exact looksAhead_name.token.map _

/-- A mnemonic is the one word that asks for what stands before it, and only whether that goes on
with it. -/
theorem looksAhead_mnemonic (op : Opcode) : (mnemonic op).LooksAhead := by
  intro p q h
  rw [mnemonic, mnemonic, h.rest, h.before]

/-- A word with an index consists of a keyword, digits and the end of a word. -/
theorem looksAhead_indexed (letters : List Char) (make : Nat → Action) :
    (indexed letters make).LooksAhead :=
  (looksAhead_keyword _).andThen fun _ => (looksAhead_run _).andThen fun _ =>
    looksAhead_wordEnd.map _

/-- A push consists of its keyword and of a literal or a reference. -/
theorem looksAhead_push : push.LooksAhead := by
  have hkeyword : pushKeyword.LooksAhead := (looksAhead_keyword _).andThen fun _ =>
    (looksAhead_run _).optional.andThen fun _ => looksAhead_wordEnd.map _
  have hoperand : pushOperand.LooksAhead :=
    (looksAhead_integerLiteral.map _).orElse (looksAhead_reference.map _)
  exact hkeyword.token.andThen fun _ => hoperand.map _

/-- A byte consists of its directive and a literal. -/
theorem looksAhead_byte : byte.LooksAhead := by
  have hdirective : byteDirective.LooksAhead :=
    looksAhead_of_rest fun p q h => by rw [byteDirective, byteDirective, h]
  exact hdirective.token.andThen fun _ => looksAhead_integerLiteral.map _

/-- All five kinds of commands look ahead, and so does the longest of them. -/
theorem looksAhead_command : command.LooksAhead := by
  have hfixed : fixedCommand.LooksAhead := by
    refine (LooksAhead.firstOf fun r hr => ?_).token
    obtain ⟨op, -, rfl⟩ := List.mem_map.mp hr
    exact looksAhead_mnemonic op
  exact (hfixed.map _).longer ((looksAhead_indexed _ _).token.longer
    ((looksAhead_indexed _ _).token.longer
      ((looksAhead_push.map _).longer (looksAhead_byte.map _))))

/-- A comment starts with two slashes and goes on to where the line ends. -/
theorem looksAhead_comment : comment.LooksAhead :=
  (looksAhead_exactly _).token.andThen fun _ =>
    looksAhead_of_rest fun p q h => by simp only [h]

/-- So do the three kinds of segments. -/
theorem looksAhead_segment : segment.LooksAhead := by
  have hlabel : label.LooksAhead :=
    looksAhead_name.token.andThen fun _ => (looksAhead_exactly _).token.map _
  have hline : instructionLine.LooksAhead :=
    (hlabel.andThen fun _ => looksAhead_command.optional.map _).orElse (looksAhead_command.map _)
  have hunknown : unknownLine.LooksAhead :=
    (looksAhead_of_rest fun p q h => by simp only [h]).token
  exact ((hline.andThen fun _ => looksAhead_comment.optional.map _).map _).longer
    ((looksAhead_comment.map _).longer (hunknown.map _))

/-! ### The grammar takes no slash but that of a comment -/

/-- A name takes characters of names. -/
theorem takes_name : name.Takes (isNameRest · = true) := by
  intro p a n hfound
  obtain ⟨c, rest, hrest, hstart, -, rfl⟩ := name_eq_some hfound
  refine takes_of_prefix ?_ ?_
  · rw [hrest]
    exact List.cons_prefix_cons.mpr ⟨rfl, List.takeWhile_prefix _⟩
  · intro d hd
    rcases List.mem_cons.mp hd with rfl | hd
    · exact isNameRest_of_isNameStart hstart
    · exact List.mem_takeWhile_imp hd

/-- A keyword takes its letters, in any case. -/
theorem takes_keyword (letters : List Char) :
    (keyword letters).Takes fun c => ∃ l ∈ letters, Text.sameLetter l c = true := by
  intro p a n hfound
  obtain ⟨hletters, rfl, hlength, hall⟩ := keyword_eq_some hfound
  rw [← hlength]
  refine takes_of_prefix (List.take_prefix _ _) fun c hc => ?_
  have hsnd := @List.map_snd_zip _ _ letters (p.rest.take n) (by omega)
  rw [← hsnd, List.mem_map] at hc
  obtain ⟨⟨l, c⟩, hpair, rfl⟩ := hc
  exact ⟨l, (List.of_mem_zip hpair).1, hall _ hpair⟩

/-- The end of a word takes nothing. -/
theorem takes_wordEnd (P : Char → Prop) : wordEnd.Takes P := by
  intro p a n hfound
  obtain rfl := wordEnd_eq_some hfound
  exact ⟨Nat.zero_le _, fun c hc => absurd hc List.not_mem_nil⟩

/-- A hexadecimal literal takes digits and its mark. The zero in front of the mark is a digit. -/
theorem takes_hexLiteral :
    hexLiteral.Takes fun c => c = 'x' ∨ c = 'X' ∨ (Text.hexDigit? c).isSome = true := by
  intro p a n hfound
  obtain ⟨x, digits, htaken, hmark, -, hdigits, -, rfl⟩ := hexLiteral_eq_some hfound
  refine takes_of_prefix htaken fun c hc => ?_
  rcases List.mem_cons.mp hc with rfl | hc
  · exact Or.inr (Or.inr rfl)
  · rcases List.mem_cons.mp hc with rfl | hc
    · rw [← or_assoc]
      exact Or.inl hmark
    · exact Or.inr (Or.inr (hdigits c hc))

/-- Only characters whose capitals start with one of two letters have several. -/
theorem length_capital (c : Char) :
    (Text.capital c).length = 1 ∨ 'S' ∈ Text.capital c ∨ 'F' ∈ Text.capital c := by
  rw [Text.capital]
  -- One case for each character with a capital of its own.
  repeat' refine iteInduction (motive := fun capital : List Char =>
    capital.length = 1 ∨ 'S' ∈ capital ∨ 'F' ∈ capital) (fun _ => ?_) fun _ => ?_
  all_goals first | exact Or.inl rfl | decide

/-- A text with neither letter in its capitals is as long as these are. -/
theorem length_capitals {word : List Char} (hs : 'S' ∉ Text.capitals word)
    (hf : 'F' ∉ Text.capitals word) : (Text.capitals word).length = word.length := by
  induction word with
  | nil => rfl
  | cons c word ih =>
    rw [Text.capitals_cons, List.mem_append, not_or] at hs hf
    have hone : (Text.capital c).length = 1 := by
      rcases length_capital c with hone | hmem | hmem
      · exact hone
      · exact absurd hmem hs.1
      · exact absurd hmem hf.1
    rw [Text.capitals_cons, List.length_append, ih hs.2 hf.2, hone, List.length_cons, Nat.add_comm]

/-- A character that is its own capital stands in the capitals of a text it stands in. -/
theorem mem_capitals {c : Char} {word : List Char} (hself : Text.capital c = [c])
    (hc : c ∈ word) : c ∈ Text.capitals word :=
  List.mem_flatMap.mpr ⟨c, hc, by rw [hself]; exact List.mem_singleton_self c⟩

/-- The directive takes no slash: the capital of every character that it takes is one of its own. -/
theorem takes_byteDirective : byteDirective.Takes (· ≠ '/') := by
  intro p a n hfound
  obtain ⟨rfl, hcapitals⟩ := byteDirective_eq_some hfound
  have hlength : (Text.capitals (p.rest.take 5)).length = (p.rest.take 5).length := by
    refine length_capitals ?_ ?_ <;> rw [hcapitals] <;> decide
  rw [hcapitals, List.length_take] at hlength
  refine ⟨?_, ?_⟩
  · simp only [List.length_cons, List.length_nil] at hlength
    omega
  · rintro c hc rfl
    have hmem := mem_capitals rfl hc
    rw [hcapitals] at hmem
    revert hmem
    decide

/-- No skipped character is a slash. -/
theorem ne_slash_of_isSkipped (c : Char) (h : Text.isSkipped c = true) : c ≠ '/' := by
  rintro rfl
  revert h
  decide

/-- No class of characters that words are made of has a slash. -/
theorem IsStopped.ne_slash {inClass : Char → Bool} (h : IsStopped inClass) (c : Char)
    (hc : inClass c = true) : c ≠ '/' := by
  rintro rfl
  rw [h.2.2.1] at hc
  cases hc

/-- A label takes a name, blanks and a colon. -/
theorem takes_label : label.Takes (· ≠ '/') := by
  have hname := takes_name.imp isStopped_isNameRest.ne_slash
  have hcolon := (takes_exactly [':']).imp (Q := (· ≠ '/')) (forall_mem_of_all (by decide))
  exact (hname.token ne_slash_of_isSkipped).andThen fun _ =>
    (hcolon.token ne_slash_of_isSkipped).map _

/-- Digits are no slashes. -/
theorem takes_digits : (run Char.isDigit).Takes (· ≠ '/') :=
  (takes_run _).imp isStopped_isDigit.ne_slash

/-- Nor is anything else in a literal. -/
theorem takes_integerLiteral : integerLiteral.Takes (· ≠ '/') := by
  have hhex : hexLiteral.Takes (· ≠ '/') := by
    refine takes_hexLiteral.imp fun c hc => ?_
    rintro rfl
    revert hc
    decide
  exact (hhex.token ne_slash_of_isSkipped).orElse
    ((takes_digits.map _).token ne_slash_of_isSkipped)

/-- A reference takes names, blanks, colons and an ampersand. -/
theorem takes_reference : reference.Takes (· ≠ '/') := by
  have hname := takes_name.imp isStopped_isNameRest.ne_slash
  have hmark := (takes_exactly ['&']).imp (Q := (· ≠ '/')) (forall_mem_of_all (by decide))
  have hcolons := (takes_exactly [':', ':']).imp (Q := (· ≠ '/')) (forall_mem_of_all (by decide))
  refine (hmark.token ne_slash_of_isSkipped).andThen fun _ => Takes.andThen ?_ fun _ => ?_
  · exact ((hname.token ne_slash_of_isSkipped).andThen fun _ =>
      (hcolons.token ne_slash_of_isSkipped).map _).optional
  · exact (hname.token ne_slash_of_isSkipped).map _

/-- A keyword of letters has no slash. -/
theorem takes_letters {letters : List Char}
    (h : (letters.all fun l => !Text.sameLetter l '/') = true) :
    (keyword letters).Takes (· ≠ '/') := by
  refine (takes_keyword letters).imp fun c hc => ?_
  rintro rfl
  obtain ⟨l, hl, hsame⟩ := hc
  have hnot := List.all_eq_true.mp h l hl
  rw [hsame] at hnot
  cases hnot

/-- A word with an index takes no slash if none of its letters is one. -/
theorem takes_indexed {letters : List Char}
    (h : (letters.all fun l => !Text.sameLetter l '/') = true) (make : Nat → Action) :
    (indexed letters make).token.Takes (· ≠ '/') := by
  have hindexed : (indexed letters make).Takes (· ≠ '/') :=
    (takes_letters h).andThen fun _ => takes_digits.andThen fun _ => (takes_wordEnd _).map _
  exact hindexed.token ne_slash_of_isSkipped

/-- The keyword of a push takes letters and digits. -/
theorem takes_pushKeyword : pushKeyword.Takes (· ≠ '/') :=
  (takes_letters (by decide)).andThen fun _ => takes_digits.optional.andThen fun _ =>
    (takes_wordEnd _).map _

/-- A push takes no slash, whatever its operand is. -/
theorem takes_push : push.Takes (· ≠ '/') :=
  (takes_pushKeyword.token ne_slash_of_isSkipped).andThen fun _ =>
    ((takes_integerLiteral.map _).orElse (takes_reference.map _)).map _

/-- Nor does a byte. -/
theorem takes_byte : byte.Takes (· ≠ '/') :=
  (takes_byteDirective.token ne_slash_of_isSkipped).andThen fun _ => takes_integerLiteral.map _

/-! ### Mnemonics at the end of a text -/

/-- No word at the end of the text is read as a mnemonic that has more characters than it. -/
def EndsWhole (text : List Char) : Prop :=
  ∀ word, word <:+ text → ∀ op : Opcode, Text.capitals word = op.name.toList →
    word.length = op.name.toList.length

/-- Where a text ends whole, so does each of its ends. -/
theorem EndsWhole.suffix {text tail : List Char} (h : EndsWhole text) (htail : tail <:+ text) :
    EndsWhole tail :=
  fun word hword => h word (hword.trans htail)

/-- What is no capital and no digit stands in no written mnemonic. -/
theorem not_mem_of_capitals {word : List Char} {op : Opcode} {c : Char}
    (h : Text.capitals word = op.name.toList) (hself : Text.capital c = [c])
    (hc : (c.isUpper || c.isDigit) = false) : c ∉ word := by
  intro hmem
  have hname := mem_capitals hself hmem
  rw [h] at hname
  rw [(isUpper_or_isDigit_of_mem_name op c hname).1] at hc
  cases hc

/-- Which mnemonic it is that a fixed command takes, and where. -/
theorem fixedCommand_eq_some {p : Place} {a : Action} {n : Nat}
    (h : fixedCommand p = some (a, n)) :
    ∃ op m, mnemonic op (p.advance p.blanks) = some (a, m) ∧ n = p.blanks + m := by
  obtain ⟨m, hm, rfl⟩ := token_eq_some_iff.mp h
  obtain ⟨r, hr, hfound⟩ := List.exists_of_findSome?_eq_some hm
  obtain ⟨op, -, rfl⟩ := List.mem_map.mp hr
  exact ⟨op, m, hfound, rfl⟩

/-- A fixed command has no slash, and it stays within a text that ends whole. -/
theorem fixedCommand_takes {p : Place} {a : Action} {n : Nat}
    (h : fixedCommand p = some (a, n)) :
    '/' ∉ p.rest.take n ∧ (EndsWhole p.rest → n ≤ p.rest.length) := by
  obtain ⟨op, m, hm, rfl⟩ := fixedCommand_eq_some h
  obtain ⟨-, hlength, hcapitals⟩ := mnemonic_eq_some hm
  have hblanks := p.blanks_le
  rw [Place.rest_advance] at hcapitals
  constructor
  · rw [List.take_add, p.take_blanks, List.mem_append, not_or]
    refine ⟨fun hmem => ?_, not_mem_of_capitals hcapitals rfl rfl⟩
    exact ne_slash_of_isSkipped _ (List.mem_takeWhile_imp hmem) rfl
  · intro hwhole
    by_contra hlong
    -- The mnemonic would have taken all that is left, and that is too short for it.
    have hall : (p.rest.drop p.blanks).take m = p.rest.drop p.blanks := by
      refine List.take_of_length_le ?_
      rw [List.length_drop]
      omega
    rw [hall] at hcapitals
    have hshort := hwhole _ (List.drop_suffix _ _) op hcapitals
    rw [List.length_drop] at hshort
    omega

/-- So it is with commands of every kind. -/
theorem command_takes {p : Place} {c : Except Error Action} {n : Nat}
    (h : command p = some (c, n)) :
    '/' ∉ p.rest.take n ∧ (EndsWhole p.rest → n ≤ p.rest.length) := by
  have hother : ∀ {r : Recogniser (Except Error Action)}, r.Takes (· ≠ '/') →
      r p = some (c, n) → '/' ∉ p.rest.take n ∧ (EndsWhole p.rest → n ≤ p.rest.length) := by
    intro r hr hfound
    obtain ⟨hle, hall⟩ := hr p c n hfound
    exact ⟨fun hmem => hall _ hmem rfl, fun _ => hle⟩
  rcases longer_eq_some h with ⟨hfixed, -⟩ | ⟨h, -⟩
  · obtain ⟨a, hfixed, -⟩ := map_eq_some_iff.mp hfixed
    exact fixedCommand_takes hfixed
  rcases longer_eq_some h with ⟨hdup, -⟩ | ⟨h, -⟩
  · exact hother (takes_indexed (by decide) _) hdup
  rcases longer_eq_some h with ⟨hswap, -⟩ | ⟨h, -⟩
  · exact hother (takes_indexed (by decide) _) hswap
  rcases longer_eq_some h with ⟨hpush, -⟩ | ⟨hbyte, -⟩
  · exact hother (takes_push.map _) hpush
  · exact hother (takes_byte.map _) hbyte

end EvmAssembler.Source
