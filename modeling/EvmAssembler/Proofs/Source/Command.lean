import EvmAssembler.Proofs.Assembly.Script
import EvmAssembler.Proofs.Source.Match
import EvmAssembler.Proofs.Text.Letters

/-!
# `EvmAssembler.Proofs.Source.Command`: written instructions are read back

`command_of_spelling` says that a spelling of an instruction, with nothing behind it that would
go on with it, is taken whole by `command`, and that the action found issues the instruction.

A command is the longest of five kinds, so each proof has a part about the one kind that
matches and a part about the four that do not. For the latter the first two characters are
enough: no two kinds of words share them, and `Place.Starts` keeps them in small letters.

Among fixed mnemonics they are not enough, since one may start with another. There it is the
character behind the shorter one that goes on with it, and so rejects it.
-/

set_option autoImplicit false

namespace EvmAssembler.Source

open Recogniser

/-- The action asks for the instruction, in any namespace, and is not refused. -/
structure Action.Issues (a : Action) (i : Instruction) : Prop where
  command : ∀ space, Scoped.command? ⟨space, a⟩ = some (.instruction i)
  accepted : a.refusal? = none

/-! ### Two characters -/

/-- How words that are no mnemonics start, and comments, in small letters. -/
def otherInitials : List (Char × Char) :=
  [('d', 'u'), ('s', 'w'), ('p', 'u'), ('.', 'b'), ('/', '/')]

/-- A mnemonic starts in another way. -/
theorem exists_initials (op : Opcode) :
    ∃ c d letters, op.name.toList = c :: d :: letters ∧ (c.toNat < 128 ∧ d.toNat < 128) ∧
      Text.isSkipped c.toLower = false ∧ c.toLower.toUpper ≠ '.' ∧
      (c.toLower, d.toLower) ∉ otherInitials := by
  cases op <;> exact ⟨_, _, _, rfl, by decide⟩

/-- The text goes on with two ASCII characters, which are these when they are made small. -/
def Place.Starts (p : Place) (a b : Char) : Prop :=
  ∃ c d rest, p.rest = c :: d :: rest ∧ c.toNat < 128 ∧ d.toNat < 128 ∧
    c.toLower = a ∧ d.toLower = b

/-- In ASCII the case of a letter is all there is to compare. -/
theorem sameLetter_eq (letter : Char) {c : Char} (hc : c.toNat < 128) :
    Text.sameLetter letter c = (c.toLower == letter) := by
  have hlong : (c == 'ſ') = false := by
    rw [beq_eq_false_iff_ne]
    rintro rfl
    revert hc
    decide
  rw [Text.sameLetter, hlong, Bool.and_false, Bool.or_false]

namespace Place.Starts

variable {p : Place} {a b : Char}

/-- A word in letters of any case starts with its first two letters, made small. -/
theorem of_sameLetters {word after letters : List Char} (hrest : p.rest = word ++ after)
    (h : SameLetters word (a :: b :: letters)) (ha : a.toNat < 128) (hb : b.toNat < 128) :
    p.Starts a.toLower b.toLower := by
  obtain ⟨c, rest, rfl, hc, hrest'⟩ := h.exists_cons
  obtain ⟨d, rest', rfl, hd, -⟩ := hrest'.exists_cons
  have hcnat := toNat_of_toLower_eq hc
  have hdnat := toNat_of_toLower_eq hd
  exact ⟨c, d, rest' ++ after, hrest, by omega, by omega, hc, hd⟩

/-- A word that starts with no blank has none in front of it. -/
theorem blanks_eq_zero (h : p.Starts a b) (ha : Text.isSkipped a = false) : p.blanks = 0 := by
  obtain ⟨c, d, rest, hrest, -, -, rfl, -⟩ := h
  have hclass : (!Text.isSkipped c.toLower) = true := by
    rw [ha]
    rfl
  have hc := @isSkipped_eq_false (fun d => !Text.isSkipped d.toLower) c hclass (by decide)
  rw [Place.blanks, hrest, List.takeWhile_cons_of_neg (Bool.eq_false_iff.mp hc)]
  rfl

/-- A keyword is not met where one of its first two letters is not. -/
theorem keyword_eq_none (h : p.Starts a b) {k l : Char} (letters : List Char)
    (hne : ¬(a = k ∧ b = l)) : keyword (k :: l :: letters) p = none := by
  obtain ⟨c, d, rest, hrest, hc, hd, rfl, rfl⟩ := h
  rw [keyword, hrest, if_neg]
  rintro ⟨-, hall⟩
  simp only [List.length_cons, List.take_succ_cons, List.zip_cons_cons, List.all_cons,
    Bool.and_eq_true, sameLetter_eq _ hc, sameLetter_eq _ hd, beq_iff_eq] at hall
  exact hne ⟨hall.1, hall.2.1⟩

/-- A word with an index is not met where the word's first two letters are not. -/
theorem indexed_eq_none (h : p.Starts a b) (ha : Text.isSkipped a = false) {k l : Char}
    (letters : List Char) (make : Nat → Action) (hne : ¬(a = k ∧ b = l)) :
    (indexed (k :: l :: letters) make).token p = none := by
  rw [token_eq _ (h.blanks_eq_zero ha)]
  exact andThen_eq_none _ (h.keyword_eq_none letters hne)

/-- A push is not met where its keyword is not. -/
theorem push_eq_none (h : p.Starts a b) (ha : Text.isSkipped a = false)
    (hne : ¬(a = 'p' ∧ b = 'u')) : (push.map Except.ok : Recogniser (Except Error Action)) p =
      none := by
  refine map_eq_none _ (andThen_eq_none _ ?_)
  rw [token_eq _ (h.blanks_eq_zero ha)]
  exact andThen_eq_none _ (h.keyword_eq_none _ hne)

/-- A directive starts with its dot. -/
theorem byte_eq_none (h : p.Starts a b) (ha : Text.isSkipped a = false) (hne : a.toUpper ≠ '.') :
    (byte.map Except.ok : Recogniser (Except Error Action)) p = none := by
  refine map_eq_none _ (andThen_eq_none _ ?_)
  rw [token_eq _ (h.blanks_eq_zero ha)]
  obtain ⟨c, d, rest, hrest, hc, -, rfl, -⟩ := h
  have hcapital : Text.capital c = [c.toUpper] := if_pos hc
  rw [byteDirective, hrest, if_neg]
  rw [List.take_succ_cons, Text.capitals_cons, hcapital]
  intro heq
  rw [toUpper_toLower] at hne
  exact hne (List.cons.inj heq).1

/-- A mnemonic is not met where another kind of word starts. -/
theorem mnemonic_eq_none (h : p.Starts a b) (hother : (a, b) ∈ otherInitials) (op : Opcode) :
    mnemonic op p = none := by
  obtain ⟨k, l, letters, hletters, -, -, -, hinitials⟩ := exists_initials op
  obtain ⟨c, d, rest, hrest, hc, hd, rfl, rfl⟩ := h
  have hcapital : Text.capital c = [c.toUpper] := if_pos hc
  have hdcapital : Text.capital d = [d.toUpper] := if_pos hd
  rw [mnemonic, hrest, hletters, if_neg]
  rintro ⟨hname, -⟩
  rw [List.length_cons, List.length_cons, List.take_succ_cons, List.take_succ_cons,
    Text.capitals_cons, Text.capitals_cons, hcapital, hdcapital] at hname
  obtain ⟨hk, hname⟩ := List.cons.inj hname
  obtain ⟨hl, -⟩ := List.cons.inj hname
  rw [← hk, ← hl, toLower_toUpper, toLower_toUpper] at hinitials
  exact hinitials hother

/-- No mnemonic is met there, since none starts like a word of another kind. -/
theorem fixedCommand_eq_none (h : p.Starts a b) (ha : Text.isSkipped a = false)
    (hother : (a, b) ∈ otherInitials) :
    (fixedCommand.map Except.ok : Recogniser (Except Error Action)) p = none := by
  refine map_eq_none _ ?_
  rw [fixedCommand, token_eq _ (h.blanks_eq_zero ha), firstOf, List.findSome?_eq_none_iff]
  intro r hr
  obtain ⟨op, -, rfl⟩ := List.mem_map.mp hr
  exact h.mnemonic_eq_none hother op

end Place.Starts

/-! ### Fixed mnemonics -/

/-- Mnemonics are made of capitals and digits. -/
theorem isUpper_or_isDigit_of_mem_name (op : Opcode) :
    ∀ c ∈ op.name.toList, (c.isUpper || c.isDigit) = true ∧ c.toUpper = c ∧ c.toNat < 128 := by
  refine forall_mem_of_all ?_
  cases op <;> decide

/-- No two opcodes share a mnemonic. -/
theorem name_injective {a b : Opcode} (h : a.name.toList = b.name.toList) : a = b := by
  have hdistinct : (Opcode.all.map Opcode.name).Nodup := by decide +kernel
  exact List.inj_on_of_nodup_map hdistinct (Opcode.mem_all a) (Opcode.mem_all b)
    (String.toList_inj.mp h)

section
variable {p : Place} {op : Opcode} {word after : List Char}

/-- A written mnemonic is the mnemonic in capitals. -/
theorem capitals_name (hword : SameLetters word op.name.toList) :
    Text.capitals word = op.name.toList := by
  have hname := isUpper_or_isDigit_of_mem_name op
  rw [hword.capitals_eq fun d hd => (hname d hd).2.2, @List.map_congr_left _ _ _ Char.toUpper id]
  · exact List.map_id _
  · exact fun d hd => (hname d hd).2.1

/-- Any character of a mnemonic goes on with what stands before it. -/
theorem continuesMnemonic_of_mem (hword : SameLetters word op.name.toList) :
    ∀ c ∈ word, continuesMnemonic c = true := by
  have hname := isUpper_or_isDigit_of_mem_name op
  intro c hc
  have hascii := hword.isAscii (fun d hd => (hname d hd).2.2) c hc
  have hcapital : Text.capital c = [c.toUpper] := if_pos hascii
  have hmem : c.toUpper ∈ op.name.toList := by
    rw [← capitals_name hword, Text.capitals, List.mem_flatMap]
    exact ⟨c, hc, by rw [hcapital]; exact List.mem_singleton_self _⟩
  rw [continuesMnemonic, hcapital]
  show (c.toUpper.isUpper || c.toUpper.isDigit || c.toUpper == '_' || c.toUpper == '$') = true
  rw [(hname _ hmem).1]
  rfl

/-- A mnemonic is read back where nothing goes on with it, be it in front or behind. -/
theorem mnemonic_eq (hrest : p.rest = word ++ after) (hword : SameLetters word op.name.toList)
    (hstop : Stops after) (hbefore : p.before.any continuesMnemonic = false) :
    mnemonic op p = some (.opcode op, word.length) := by
  rw [mnemonic, hrest, ← hword.length_eq, List.take_left, List.drop_left, if_pos]
  rw [capitals_name hword, hbefore, hstop.any_head_eq_false isStopped_continuesMnemonic]
  exact ⟨rfl, rfl, rfl⟩

/-- Where a mnemonic is written, no other one is met. -/
theorem mnemonic_eq_none_of_ne (hrest : p.rest = word ++ after)
    (hword : SameLetters word op.name.toList) (hstop : Stops after) {other : Opcode}
    (hne : other ≠ op) : mnemonic other p = none := by
  rw [mnemonic, hrest, if_neg]
  rintro ⟨hcapitals, -, hbehind⟩
  rcases Nat.lt_trichotomy other.name.toList.length word.length with hlt | heq | hgt
  · -- The other one is shorter, and the word goes on behind it.
    have hmem : word[other.name.toList.length] ∈ word := List.getElem_mem hlt
    rw [List.drop_append_of_le_length (by omega), List.drop_eq_getElem_cons hlt,
      List.cons_append, List.head?_cons, Option.any_some,
      continuesMnemonic_of_mem hword _ hmem] at hbehind
    cases hbehind
  · rw [heq, List.take_left, capitals_name hword] at hcapitals
    exact hne (name_injective hcapitals.symm)
  · -- The other one is longer, and what stands behind the word is no part of it.
    obtain ⟨j, hj⟩ := Nat.exists_eq_add_of_lt hgt
    rw [Nat.add_assoc] at hj
    rw [hj, List.take_length_add_append, Text.capitals, List.flatMap_append] at hcapitals
    cases after with
    | nil =>
      -- At the end of the source the capitals are too few.
      have hlength := congrArg List.length hcapitals
      have hword' := congrArg List.length (capitals_name hword)
      rw [Text.capitals, ← hword.length_eq] at hword'
      simp only [List.take_nil, List.flatMap_nil, List.append_nil] at hlength
      omega
    | cons c after =>
      -- Otherwise a blank, a slash or a line feed would be a letter of the other one.
      have hmem : c ∈ other.name.toList := by
        rw [← hcapitals]
        refine List.mem_append_right _ ?_
        rw [List.take_succ_cons, List.flatMap_cons]
        refine List.mem_append_left _ ?_
        rcases hstop c rfl with rfl | rfl | rfl | rfl <;> decide
      have hc := (isUpper_or_isDigit_of_mem_name other c hmem).1
      rcases hstop c rfl with rfl | rfl | rfl | rfl <;> revert hc <;> decide

/-- The first success in a list, where there is only one. -/
theorem findSome?_eq_of_unique {α β : Type} {f : α → Option β} {l : List α} {a : α} {b : β}
    (ha : a ∈ l) (hf : f a = some b) (hothers : ∀ x ∈ l, x ≠ a → f x = none) :
    l.findSome? f = some b := by
  induction l with
  | nil => cases ha
  | cons x l ih =>
    rw [List.findSome?_cons]
    by_cases hx : x = a
    · rw [hx, hf]
    · rw [hothers x List.mem_cons_self hx]
      rcases List.mem_cons.mp ha with rfl | ha
      · exact absurd rfl hx
      · exact ih ha fun y hy => hothers y (List.mem_cons_of_mem x hy)

/-- Among all mnemonics it is the one that is found. -/
theorem fixedCommand_eq (hp : p.blanks = 0) (hrest : p.rest = word ++ after)
    (hword : SameLetters word op.name.toList) (hstop : Stops after)
    (hbefore : p.before.any continuesMnemonic = false) :
    fixedCommand p = some (.opcode op, word.length) := by
  rw [fixedCommand, token_eq _ hp, firstOf, List.findSome?_map]
  refine findSome?_eq_of_unique (Opcode.mem_all op) (mnemonic_eq hrest hword hstop hbefore) ?_
  intro other _ hne
  exact mnemonic_eq_none_of_ne hrest hword hstop hne

end

/-! ### Keywords and their indices -/

section
variable {p : Place} {word after letters : List Char}

/-- A keyword is met where it is written, in any case. -/
theorem keyword_eq (hrest : p.rest = word ++ after) (hword : SameLetters word letters)
    (hsmall : letters.map Char.toLower = letters) :
    keyword letters p = some (word, letters.length) := by
  -- Keywords are kept in small letters, so making them small again changes nothing.
  have hall : ((letters.zip word).all fun both => Text.sameLetter both.1 both.2) = true := by
    have hpairs := hword.forall₂
    clear hword hrest
    induction hpairs with
    | nil => rfl
    | @cons c d word letters hcd _ ih =>
      obtain ⟨hd, hrest⟩ := List.cons.inj hsmall
      rw [List.zip_cons_cons, List.all_cons, ih hrest, Bool.and_true]
      show Text.sameLetter d c = true
      rw [Text.sameLetter, hcd, hd, beq_self_eq_true, Bool.true_or]
  rw [keyword, hrest, ← hword.length_eq, List.take_left, if_pos ⟨rfl, hall⟩]

/-- The digits of a small number are few, and they are read as the number. -/
theorem decimal_digits {n k : Nat} (hk : 0 < k) (hn : n < 10 ^ k) :
    (∀ c ∈ (Text.decimal n).toList, c.isDigit = true) ∧ (Text.decimal n).toList ≠ [] ∧
      (Text.decimal n).toList.length ≤ k ∧
      Text.ofDigits 10 ((Text.decimal n).toList.map Text.digitValue) = n := by
  obtain ⟨hdigits, hne, hvalue⟩ := Text.digits_decimal n
  exact ⟨hdigits, hne, (Text.length_decimal_le_iff hk).mpr hn, hvalue⟩

/-- An index that is written with few enough digits is read. -/
theorem index?_decimal {n k : Nat} (hk : 0 < k) (hn : n < 10 ^ k)
    (hmost : k ≤ Text.maxDecimalDigits) : index? (Text.decimal n).toList = .ok n := by
  obtain ⟨hdigits, -, hlength, hvalue⟩ := decimal_digits hk hn
  have hvalues : ((Text.decimal n).toList.map fun c => c.toNat - '0'.toNat) =
      (Text.decimal n).toList.map Text.digitValue := by
    refine List.map_congr_left fun c hc => ?_
    rw [Text.digitValue, Text.hexDigit?_of_isDigit (hdigits c hc)]
    rfl
  rw [index?, if_neg (by omega), hvalues, hvalue]

/-- A keyword with a small number attached, in its parts. -/
theorem keyword_digits_eq {n : Nat} (hrest : p.rest = word ++ after)
    (hword : SameLetters word (letters ++ (Text.decimal n).toList))
    (hsmall : letters.map Char.toLower = letters) (hn : n < 100) (hstop : Stops after) :
    ∃ written, word = written ++ (Text.decimal n).toList ∧ written.length = letters.length ∧
      keyword letters p = some (written, letters.length) ∧
      run Char.isDigit (p.advance letters.length) =
        some ((Text.decimal n).toList, (Text.decimal n).toList.length) ∧
      wordEnd ((p.advance letters.length).advance (Text.decimal n).toList.length) =
        some ((), 0) := by
  obtain ⟨hdigits, hne, -, -⟩ := @decimal_digits n 2 (by decide) hn
  -- Only the letters have a choice of case: the digits are those of the number.
  obtain ⟨written, digits, rfl, hwritten, hsame⟩ := hword.exists_append
  obtain rfl := hsame.eq_of_isDigit hdigits
  rw [List.append_assoc] at hrest
  have hbehind : (p.advance letters.length).rest = (Text.decimal n).toList ++ after := by
    rw [Place.rest_advance, hrest, ← hwritten.length_eq, List.drop_left]
  refine ⟨written, rfl, hwritten.length_eq, keyword_eq hrest hwritten hsmall, ?_, ?_⟩
  · exact run_eq hbehind hne hdigits (hstop.head_eq_false isStopped_isDigit)
  · refine wordEnd_eq ?_
    rw [Place.rest_advance, hbehind, List.drop_left]
    exact hstop

/-- A keyword with an index is taken with the digits of the index. -/
theorem indexed_eq {n : Nat} (make : Nat → Action) (hrest : p.rest = word ++ after)
    (hword : SameLetters word (letters ++ (Text.decimal n).toList))
    (hsmall : letters.map Char.toLower = letters) (hn : n < 100) (hstop : Stops after) :
    indexed letters make p = some (.ok (make n), word.length) := by
  obtain ⟨written, rfl, hlength, hkeyword, hrun, hend⟩ :=
    keyword_digits_eq hrest hword hsmall hn hstop
  have hindex := @index?_decimal n 2 (by decide) hn (by decide)
  rw [List.length_append, hlength]
  refine andThen_eq hkeyword ?_
  show _ = some (Except.ok (make n), (Text.decimal n).toList.length + 0)
  refine andThen_eq hrun ?_
  rw [map_eq _ hend, hindex]
  rfl

/-- A push keyword is taken with the digits of its width, which is read as the width. -/
theorem pushKeyword_eq {n : Nat} (hrest : p.rest = word ++ after)
    (hword : SameLetters word (['p', 'u', 's', 'h'] ++ (Text.decimal n).toList)) (hn : n < 100)
    (hstop : Stops after) :
    pushKeyword p = some (String.ofList word, word.length) ∧
      pushWidth? (String.ofList word) = some n ∧
      ((String.ofList word).toList.drop 4).length ≤ Text.maxDecimalDigits := by
  obtain ⟨-, hne, hfew, hvalue⟩ := @decimal_digits n 2 (by decide) hn
  obtain ⟨written, rfl, hlength, hkeyword, hrun, hend⟩ :=
    keyword_digits_eq hrest hword rfl hn hstop
  have hdrop : (String.ofList (written ++ (Text.decimal n).toList)).toList.drop 4 =
      (Text.decimal n).toList := by
    rw [String.toList_ofList]
    exact List.drop_left' hlength
  refine ⟨?_, ?_, ?_⟩
  · rw [List.length_append, hlength]
    refine andThen_eq hkeyword ?_
    show _ = some (String.ofList (written ++ (Text.decimal n).toList),
      (Text.decimal n).toList.length + 0)
    exact andThen_eq (optional_eq hrun) (map_eq _ hend)
  · rw [pushWidth?, hdrop]
    cases hdigits : (Text.decimal n).toList with
    | nil => exact absurd hdigits hne
    | cons d digits =>
      rw [hdigits] at hvalue
      exact congrArg some hvalue
  · rw [hdrop]
    exact Nat.le_trans hfew (by decide)

end

/-! ### Literals -/

section
variable {p : Place} {after literal : List Char}

/-- Blanks inside an instruction are skipped. -/
theorem isSkipped_of_isMargin {space : List Char} (h : IsMargin space) :
    ∀ c ∈ space, Text.isSkipped c = true := by
  intro c hc
  rcases h c hc with rfl | rfl <;> rfl

/-- A blank ends a word. -/
theorem stops_of_isMargin {space rest : List Char} (h : IsMargin space) (hne : space ≠ []) :
    Stops (space ++ rest) := by
  cases space with
  | nil => exact absurd rfl hne
  | cons c space =>
    intro d hd
    obtain rfl : c = d := Option.some.inj hd
    rcases h c List.mem_cons_self with rfl | rfl
    · exact Or.inl rfl
    · exact Or.inr (Or.inl rfl)

/-- A literal is taken with the blanks in front of it. -/
theorem integerLiteral_eq {space : List Char} (hrest : p.rest = space ++ (literal ++ after))
    (hspace : IsMargin space) (hliteral : Text.IsLiteral literal) (hstop : Stops after) :
    integerLiteral p = some (String.ofList literal, space.length + literal.length) := by
  -- A literal starts with a digit in either shape, so the blanks end where it starts.
  have hhead : ∀ c ∈ (literal ++ after).head?, Text.isSkipped c = false := by
    intro c hc
    cases hliteral with
    | hex _ _ _ =>
      obtain rfl : '0' = c := Option.some.inj hc
      rfl
    | decimal hne hdigits =>
      cases literal with
      | nil => exact absurd rfl hne
      | cons d rest =>
        obtain rfl : d = c := Option.some.inj hc
        exact isSkipped_eq_false (hdigits d List.mem_cons_self) (by decide)
  have hblanks := Place.blanks_eq hrest (isSkipped_of_isMargin hspace) hhead
  have hbehind : (p.advance p.blanks).rest = literal ++ after := by
    rw [Place.rest_advance, hblanks, hrest, List.drop_left]
  rw [integerLiteral]
  cases hliteral with
  | hex mark hne hdigits =>
    refine orElse_eq_left ?_
    rw [token, hexLiteral_eq hbehind mark hne hdigits hstop, hblanks]
    rfl
  | decimal hne hdigits =>
    have hhex : hexLiteral.token p = none := by
      rw [token, hexLiteral_eq_none hbehind hdigits hstop]
      rfl
    have hrun := run_eq hbehind hne hdigits (hstop.head_eq_false isStopped_isDigit)
    rw [orElse_eq_right _ hhex, token, decimalLiteral, map_eq _ hrun, hblanks]
    rfl

/-- A hexadecimal literal in any case is a literal of the value of its digits. -/
theorem literal_of_hex {digits : List Char} (h : SameLetters literal ('0' :: 'x' :: digits))
    (hne : digits ≠ []) (hdigits : ∀ c ∈ digits, (Text.hexDigit? c).isSome = true) :
    Text.IsLiteral literal ∧ Text.isHexMarked literal = true ∧
      Text.literalValue literal = Text.ofDigits 16 (digits.map Text.digitValue) := by
  obtain ⟨zero, rest, rfl, hzero, hrest⟩ := h.exists_cons
  obtain ⟨x, written, rfl, hx, hwritten⟩ := hrest.exists_cons
  obtain rfl : zero = '0' := eq_of_toLower_eq hzero (by decide)
  -- The mark may be written large as well, and the grammar takes both.
  have hmark : x = 'x' ∨ x = 'X' := by
    rcases toNat_of_toLower_eq hx with hnat | ⟨-, hcap, -⟩ | ⟨-, -, hnat⟩
    · exact Or.inl (Char.toNat_inj.mp hnat)
    · exact absurd hcap (by decide)
    · refine Or.inr (Char.toNat_inj.mp ?_)
      have hsmall : 'x'.toNat = 120 := rfl
      have hlarge : 'X'.toNat = 88 := rfl
      omega
  obtain ⟨hall, hvalues⟩ := hwritten.digitValues_eq hdigits
  have hmarked := @Text.isHexMarked_hex x written hmark
  have hne' : written ≠ [] := by
    rintro rfl
    exact hne (List.length_eq_zero_iff.mp hwritten.length_eq.symm)
  refine ⟨.hex hmark hne' hall, hmarked, ?_⟩
  rw [Text.literalValue, Text.literalDigits, hmarked, ← hvalues]
  rfl

/-- The literal of a push is a literal and has the value of the bytes. -/
theorem literal_of_push {data : List UInt8} (hne : 1 ≤ data.length)
    (h : SameLetters literal ("0x" ++ Text.bytesHex data).toList) :
    Text.IsLiteral literal ∧ Text.isHexMarked literal = true ∧
      Text.literalValue literal = Immediate.toNat data := by
  obtain ⟨hdigits, hvalue⟩ := Text.ofDigits_byteHex data
  have hdata : data.flatMap Text.byteHex ≠ [] := by
    rw [← List.length_pos_iff, Text.length_byteHex]
    omega
  have htext : (Text.bytesHex data).toList = data.flatMap Text.byteHex := String.toList_ofList
  have hhex : SameLetters literal ('0' :: 'x' :: data.flatMap Text.byteHex) := by
    rw [String.toList_append, htext] at h
    exact h
  rw [← hvalue]
  exact literal_of_hex hhex hdata hdigits

/-- The literal of a byte is a literal, is read, and has the value of the byte. -/
theorem literal_of_byte {b : UInt8} (h : IsByteLiteral b literal) :
    Text.IsLiteral literal ∧ Text.IsReadable literal ∧ Text.literalValue literal = b.toNat := by
  cases h with
  | @decimal zeros hlength =>
    have hb : b.toNat < 10 ^ 3 := Nat.lt_trans b.toNat_lt (by decide)
    obtain ⟨hdigits, hne, -, hvalue⟩ := decimal_digits (by decide) hb
    have hall : ∀ c ∈ List.replicate zeros '0' ++ (Text.decimal b.toNat).toList,
        c.isDigit = true := by
      intro c hc
      rcases List.mem_append.mp hc with hc | hc
      · rw [List.eq_of_mem_replicate hc]
        rfl
      · exact hdigits c hc
    have hmarked := Text.isHexMarked_decimal hall
    -- Zeros in front count for the limit on digits, though not for the value.
    refine ⟨.decimal (List.append_ne_nil_of_right_ne_nil _ hne) hall, fun _ => ?_, ?_⟩
    · rw [List.length_append, List.length_replicate, String.length_toList]
      exact hlength
    · rw [Text.literalValue, Text.literalDigits, hmarked]
      show Text.ofDigits 10 ((List.replicate zeros '0' ++ _).map Text.digitValue) = _
      rw [List.map_append, List.map_replicate, show Text.digitValue '0' = 0 from rfl,
        Text.ofDigits_replicate_append, hvalue]
  | @hex zeros _ hwritten =>
    obtain ⟨hdigits, hvalue⟩ := @Text.ofDigits_toDigits 16 (by decide) (by decide) b.toNat
    have hall : ∀ c ∈ List.replicate zeros '0' ++ Text.hexDigits b.toNat,
        (Text.hexDigit? c).isSome = true := by
      intro c hc
      rcases List.mem_append.mp hc with hc | hc
      · rw [List.eq_of_mem_replicate hc]
        rfl
      · exact hdigits c hc
    have hne : List.replicate zeros '0' ++ Text.hexDigits b.toNat ≠ [] :=
      List.append_ne_nil_of_right_ne_nil _ Nat.toDigits_ne_nil
    have hsame : SameLetters literal
      ('0' :: 'x' :: (List.replicate zeros '0' ++ Text.hexDigits b.toNat)) := hwritten
    -- A hexadecimal literal is read at any length.
    obtain ⟨hliteral, hmarked, hsum⟩ := literal_of_hex hsame hne hall
    refine ⟨hliteral, Text.isReadable_of_isHexMarked hmarked, ?_⟩
    rw [hsum, List.map_append, List.map_replicate, show Text.digitValue '0' = 0 from rfl,
      Text.ofDigits_replicate_append]
    exact hvalue

end

/-! ### Instructions -/

section
variable {p : Place} {word after : List Char}

/-- A command that is a mnemonic alone is that opcode. -/
theorem command_of_fixed {op : Opcode} (hrest : p.rest = word ++ after)
    (hword : SameLetters word op.name.toList) (hstop : Stops after)
    (hbefore : p.before.any continuesMnemonic = false) :
    command p = some (.ok (.opcode op), word.length) := by
  obtain ⟨c, d, letters, hname, ⟨hc, hd⟩, hskip, hdot, hother⟩ := exists_initials op
  have hstart : p.Starts c.toLower d.toLower := .of_sameLetters hrest (hname ▸ hword) hc hd
  have hne : ∀ k l, (k, l) ∈ otherInitials → ¬(c.toLower = k ∧ d.toLower = l) := by
    rintro k l hmem ⟨rfl, rfl⟩
    exact hother hmem
  have hfixed := fixedCommand_eq (hstart.blanks_eq_zero hskip) hrest hword hstop hbefore
  -- The other four kinds fail on the first two letters.
  rw [command, longer_eq_left _
    (longer_eq_none (hstart.indexed_eq_none hskip _ _ (hne 'd' 'u' (by decide)))
      (longer_eq_none (hstart.indexed_eq_none hskip _ _ (hne 's' 'w' (by decide)))
        (longer_eq_none (hstart.push_eq_none hskip (hne 'p' 'u' (by decide)))
          (hstart.byte_eq_none hskip hdot))))]
  exact map_eq _ hfixed

/-- A `dup` with its index is the longest command where it stands, and the only one. -/
theorem command_of_dup {n : Nat} (hrest : p.rest = word ++ after)
    (hword : SameLetters word (['d', 'u', 'p'] ++ (Text.decimal n).toList)) (hn : n < 100)
    (hstop : Stops after) : command p = some (.ok (.dup n), word.length) := by
  have hstart : p.Starts 'd' 'u' := .of_sameLetters hrest hword (by decide) (by decide)
  have hskip : Text.isSkipped 'd' = false := rfl
  have hfixed := hstart.fixedCommand_eq_none hskip (by decide)
  rw [command, longer_eq_right _ hfixed,
    longer_eq_left _ (longer_eq_none (hstart.indexed_eq_none hskip _ _ (by decide))
      (longer_eq_none (hstart.push_eq_none hskip (by decide))
        (hstart.byte_eq_none hskip (by decide)))),
    token_eq _ (hstart.blanks_eq_zero hskip)]
  exact indexed_eq _ hrest hword rfl hn hstop

/-- So is a `swap` with its index. -/
theorem command_of_swap {n : Nat} (hrest : p.rest = word ++ after)
    (hword : SameLetters word (['s', 'w', 'a', 'p'] ++ (Text.decimal n).toList)) (hn : n < 100)
    (hstop : Stops after) : command p = some (.ok (.swap n), word.length) := by
  have hstart : p.Starts 's' 'w' := .of_sameLetters hrest hword (by decide) (by decide)
  have hskip : Text.isSkipped 's' = false := rfl
  have hfixed := hstart.fixedCommand_eq_none hskip (by decide)
  rw [command, longer_eq_right _ hfixed,
    longer_eq_right _ (hstart.indexed_eq_none hskip _ _ (by decide)),
    longer_eq_left _ (longer_eq_none (hstart.push_eq_none hskip (by decide))
      (hstart.byte_eq_none hskip (by decide))),
    token_eq _ (hstart.blanks_eq_zero hskip)]
  exact indexed_eq _ hrest hword rfl hn hstop

/-- A push is its keyword and, behind at least one blank, its literal. -/
theorem command_of_push {n : Nat} {space literal : List Char}
    (hrest : p.rest = word ++ (space ++ (literal ++ after)))
    (hword : SameLetters word (['p', 'u', 's', 'h'] ++ (Text.decimal n).toList)) (hn : n < 100)
    (hspace : IsMargin space) (hne : space ≠ []) (hliteral : Text.IsLiteral literal)
    (hstop : Stops after) :
    command p = some (.ok (.push (String.ofList word) (.literal (String.ofList literal))),
      word.length + (space.length + literal.length)) := by
  have hstart : p.Starts 'p' 'u' := .of_sameLetters hrest hword (by decide) (by decide)
  have hskip : Text.isSkipped 'p' = false := rfl
  have hfixed := hstart.fixedCommand_eq_none hskip (by decide)
  have hbehind : Stops (space ++ (literal ++ after)) := stops_of_isMargin hspace hne
  have hoperand : (p.advance word.length).rest = space ++ (literal ++ after) := by
    rw [Place.rest_advance, hrest, List.drop_left]
  rw [command, longer_eq_right _ hfixed,
    longer_eq_right _ (hstart.indexed_eq_none hskip _ _ (by decide)),
    longer_eq_right _ (hstart.indexed_eq_none hskip _ _ (by decide)),
    longer_eq_left _ (hstart.byte_eq_none hskip (by decide))]
  have hkeyword : pushKeyword.token p = some (String.ofList word, word.length) := by
    rw [token_eq _ (hstart.blanks_eq_zero hskip)]
    exact (pushKeyword_eq hrest hword hn hbehind).1
  refine map_eq _ (andThen_eq hkeyword (map_eq _ (orElse_eq_left (map_eq _ ?_))))
  exact integerLiteral_eq hoperand hspace hliteral hstop

/-- A byte is its directive and its literal. -/
theorem command_of_byte {space literal : List Char}
    (hrest : p.rest = word ++ (space ++ (literal ++ after)))
    (hword : SameLetters word ['.', 'b', 'y', 't', 'e']) (hspace : IsMargin space)
    (hliteral : Text.IsLiteral literal) (hstop : Stops after) :
    command p = some (.ok (.byte (String.ofList literal)),
      word.length + (space.length + literal.length)) := by
  have hstart : p.Starts '.' 'b' := .of_sameLetters hrest hword (by decide) (by decide)
  have hskip : Text.isSkipped '.' = false := rfl
  have hfixed := hstart.fixedCommand_eq_none hskip (by decide)
  have hoperand : (p.advance word.length).rest = space ++ (literal ++ after) := by
    rw [Place.rest_advance, hrest, List.drop_left]
  have hlength : word.length = 5 := hword.length_eq
  have hcapitals : Text.capitals word = ['.', 'B', 'Y', 'T', 'E'] :=
    hword.capitals_eq (forall_mem_of_all (by decide))
  have hdirective : byteDirective.token p = some ((), word.length) := by
    rw [token_eq _ (hstart.blanks_eq_zero hskip), byteDirective, hrest, List.take_left' hlength,
      hcapitals, hlength]
    rfl
  rw [command, longer_eq_right _ hfixed,
    longer_eq_right _ (hstart.indexed_eq_none hskip _ _ (by decide)),
    longer_eq_right _ (hstart.indexed_eq_none hskip _ _ (by decide)),
    longer_eq_right _ (hstart.push_eq_none hskip (by decide))]
  refine map_eq _ (andThen_eq hdirective (map_eq _ ?_))
  exact integerLiteral_eq hoperand hspace hliteral hstop

/-- A word in front of a number may be taken in small letters. -/
theorem SameLetters.small {name : String} {letters : List Char} {n : Nat}
    (h : SameLetters word (name ++ Text.decimal n).toList)
    (hname : name.toList.map Char.toLower = letters.map Char.toLower) :
    SameLetters word (letters ++ (Text.decimal n).toList) := by
  rw [SameLetters, String.toList_append, List.map_append, hname, ← List.map_append] at h
  exact h

/-- A written instruction is taken whole, and the action found issues it. -/
theorem command_of_spelling {i : Instruction} (h : Spelling i word)
    (hrest : p.rest = word ++ after) (hstop : Stops after)
    (hbefore : p.before.any continuesMnemonic = false) :
    ∃ a, command p = some (.ok a, word.length) ∧ a.Issues i := by
  cases h with
  | @fixed op _ hword =>
    exact ⟨.opcode op, command_of_fixed hrest hword hstop hbefore, fun _ => rfl, rfl⟩
  | @dup n _ h1 h2 hword =>
    have hsame : SameLetters word (['d', 'u', 'p'] ++ (Text.decimal n).toList) := hword.small rfl
    exact ⟨.dup n, command_of_dup hrest hsame (by omega) hstop, fun _ => rfl, if_pos ⟨h1, h2⟩⟩
  | @swap n _ h1 h2 hword =>
    have hsame : SameLetters word (['s', 'w', 'a', 'p'] ++ (Text.decimal n).toList) :=
      hword.small rfl
    exact ⟨.swap n, command_of_swap hrest hsame (by omega) hstop, fun _ => rfl, if_pos ⟨h1, h2⟩⟩
  | @push data keyword space literal h1 h2 hword hspace hne hliteral =>
    have hsame : SameLetters keyword (['p', 'u', 's', 'h'] ++ (Text.decimal data.length).toList) :=
      hword.small rfl
    obtain ⟨hshape, hmarked, hvalue⟩ := literal_of_push h1 hliteral
    rw [List.append_assoc, List.append_assoc] at hrest
    have hbehind : Stops (space ++ (literal ++ after)) := stops_of_isMargin hspace hne
    obtain ⟨-, hwidth, hfew⟩ := pushKeyword_eq hrest hsame (by omega) hbehind
    -- The literal has two digits a byte, so it says the bytes again in the width of the keyword.
    refine ⟨.push (String.ofList keyword) (.literal (String.ofList literal)), ?_, ?_, ?_⟩
    · rw [command_of_push hrest hsame (by omega) hspace hne hshape hstop, List.length_append,
        List.length_append, Nat.add_assoc]
    · intro space
      show some (Placement.instruction (.push _)) = _
      rw [hwidth, String.toList_ofList, hvalue]
      show some (Placement.instruction (.push (Immediate.bytes data.length _))) = _
      rw [Immediate.bytes_toNat]
    · have hread := Text.isReadable_of_isHexMarked hmarked
      rw [Action.refusal?, if_pos hfew]
      show (if Text.IsReadable (String.ofList literal).toList then _ else _) = _
      rw [String.toList_ofList, if_pos hread, hwidth, literalRefusal?, if_pos ⟨h1, by exact h2⟩,
        hvalue, if_pos (Immediate.toNat_lt data)]
  | @byte b directive space literal hword hspace hliteral =>
    obtain ⟨hshape, hread, hvalue⟩ := literal_of_byte hliteral
    have hb : b.toNat < 256 := b.toNat_lt
    rw [List.append_assoc, List.append_assoc] at hrest
    refine ⟨.byte (String.ofList literal), ?_, ?_, ?_⟩
    · rw [command_of_byte hrest hword hspace hshape hstop, List.length_append,
        List.length_append, Nat.add_assoc]
    · intro space
      show some (Placement.instruction (.unknown _)) = _
      rw [String.toList_ofList, hvalue, UInt8.ofNat_toNat]
    · rw [Action.refusal?, String.toList_ofList, if_pos hread, hvalue, if_pos (by omega)]

end

end EvmAssembler.Source
