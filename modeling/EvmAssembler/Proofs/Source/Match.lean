import EvmAssembler.Source.Grammar
import Mathlib.Data.List.TakeWhile

/-!
# `EvmAssembler.Proofs.Source.Match`: what recognisers find in a given text

`Yield` asks what a recogniser can find anywhere. Here the text is given, split into the part a
recogniser is meant to take and what stands behind it, and the lemmas say that it takes exactly
that part or nothing.

* `andThen_eq`, `longer_eq_left` and their like put recognisers together.
* `SkipsFirst` is the property of segments and all their kinds that blanks in front of them do
  not matter. Proofs can then start at a character that is not skipped.
* `Stops` says that what stands behind a word does not go on with it: nothing, a blank, the
  end of the line or the slash of a comment. None of the grammar's character classes has one of
  these, so a run of a class ends there.
* `name_eq_some`, `keyword_eq_some` and their like go the other way: where one of the smallest
  parts has found something, they say what stands there.
-/

set_option autoImplicit false

namespace EvmAssembler.Source

/-- Behind the characters of a class stands what follows them. -/
theorem drop_length_takeWhile (inClass : Char → Bool) (text : List Char) :
    text.drop (text.takeWhile inClass).length = text.dropWhile inClass := by
  have hdrop := @List.drop_left _ (text.takeWhile inClass) (text.dropWhile inClass)
  rwa [List.takeWhile_append_dropWhile] at hdrop

/-! ### Places -/

namespace Place

/-- A place is where it is before anything is taken. -/
theorem advance_zero (p : Place) : p.advance 0 = p := rfl

/-- Going on in two steps is going on in one. -/
theorem advance_advance (p : Place) (m n : Nat) : (p.advance m).advance n = p.advance (m + n) := by
  show Place.mk (((p.rest.drop m).take n).getLast?.or ((p.rest.take m).getLast?.or p.before))
    ((p.rest.drop m).drop n) = Place.mk ((p.rest.take (m + n)).getLast?.or p.before) _
  rw [List.drop_drop, List.take_add, List.getLast?_append, Option.or_assoc]

/-- Behind the blanks there is the text without them. -/
theorem rest_advance_blanks (p : Place) :
    (p.advance p.blanks).rest = p.rest.dropWhile Text.isSkipped :=
  drop_length_takeWhile _ _

/-- There are no more blanks than characters. -/
theorem blanks_le (p : Place) : p.blanks ≤ p.rest.length :=
  (List.takeWhile_sublist _).length_le

/-- The blanks of a place are the skipped characters that it starts with. -/
theorem take_blanks (p : Place) : p.rest.take p.blanks = p.rest.takeWhile Text.isSkipped :=
  (List.prefix_iff_eq_take.mp (List.takeWhile_prefix _)).symm

/-- Behind the skipped characters nothing is skipped any more. -/
theorem blanks_advance_blanks (p : Place) : (p.advance p.blanks).blanks = 0 := by
  rw [blanks, rest_advance_blanks, List.length_eq_zero_iff]
  cases h : p.rest.dropWhile Text.isSkipped with
  | nil => rfl
  | cons c rest =>
    have hc : ¬Text.isSkipped c = true := by
      have hhead := List.head?_dropWhile_not Text.isSkipped p.rest
      rw [h] at hhead
      simpa using hhead
    rw [List.takeWhile_cons_of_neg hc]

/-- Skipped characters in front of one that is not. -/
theorem blanks_eq {p : Place} {gap rest : List Char} (hrest : p.rest = gap ++ rest)
    (hgap : ∀ c ∈ gap, Text.isSkipped c = true)
    (hstart : ∀ c ∈ rest.head?, Text.isSkipped c = false) : p.blanks = gap.length := by
  rw [blanks, hrest, List.takeWhile_append_of_pos hgap]
  cases rest with
  | nil => simp
  | cons c rest =>
    have hc : ¬Text.isSkipped c = true := by
      rw [hstart c rfl]
      exact Bool.false_ne_true
    rw [List.takeWhile_cons_of_neg hc, List.append_nil]

end Place

/-! ### Putting recognisers together -/

namespace Recogniser

variable {α β : Type} {p : Place}

/-- What is found is made into something else, over the same characters. -/
theorem map_eq {r : Recogniser α} {a : α} {n : Nat} (f : α → β) (h : r p = some (a, n)) :
    r.map f p = some (f a, n) := by
  rw [map, h]
  rfl

/-- Nothing can be made of nothing. -/
theorem map_eq_none {r : Recogniser α} (f : α → β) (h : r p = none) : r.map f p = none := by
  rw [map, h]
  rfl

/-- What comes of a finding comes of one that took as many characters. -/
theorem map_eq_some_iff {r : Recogniser α} {f : α → β} {b : β} {n : Nat} :
    r.map f p = some (b, n) ↔ ∃ a, r p = some (a, n) ∧ f a = b := by
  simp [Recogniser.map]

/-- Two parts are found one behind the other. -/
theorem andThen_eq {r : Recogniser α} {next : α → Recogniser β} {a : α} {b : β} {n m : Nat}
    (h : r p = some (a, n)) (hnext : next a (p.advance n) = some (b, m)) :
    r.andThen next p = some (b, n + m) := by
  rw [andThen, h]
  show (next a (p.advance n)).map _ = _
  rw [hnext]
  rfl

/-- Without the first part the second is not looked for. -/
theorem andThen_eq_none {r : Recogniser α} (next : α → Recogniser β) (h : r p = none) :
    r.andThen next p = none := by
  rw [andThen, h]
  rfl

/-- What two take in sequence is in its parts. -/
theorem andThen_eq_some_iff {r : Recogniser α} {next : α → Recogniser β} {p : Place} {b : β}
    {n : Nat} : r.andThen next p = some (b, n) ↔
      ∃ a k m, r p = some (a, k) ∧ next a (p.advance k) = some (b, m) ∧ n = k + m := by
  simp only [Recogniser.andThen, Option.bind_eq_some_iff, Option.map_eq_some_iff, Prod.exists,
    Prod.mk.injEq]
  constructor
  · rintro ⟨a, k, hr, b', m, hnext, rfl, rfl⟩
    exact ⟨a, k, m, hr, hnext, rfl⟩
  · rintro ⟨a, k, m, hr, hnext, rfl⟩
    exact ⟨a, k, hr, b, m, hnext, rfl, rfl⟩

/-- What has been taken first is lost if nothing fits behind it. -/
theorem andThen_eq_none_of_next {r : Recogniser α} {next : α → Recogniser β} {a : α} {n : Nat}
    (h : r p = some (a, n)) (hnext : next a (p.advance n) = none) :
    r.andThen next p = none := by
  rw [andThen, h]
  show (next a (p.advance n)).map _ = _
  rw [hnext]
  rfl

/-- A token is its word and the blanks in front of it. -/
theorem token_eq_some_iff {r : Recogniser α} {p : Place} {a : α} {n : Nat} :
    r.token p = some (a, n) ↔ ∃ m, r (p.advance p.blanks) = some (a, m) ∧ n = p.blanks + m := by
  simp only [Recogniser.token, Option.map_eq_some_iff, Prod.exists, Prod.mk.injEq]
  constructor
  · rintro ⟨a', m, hr, rfl, rfl⟩
    exact ⟨m, hr, rfl⟩
  · rintro ⟨m, hr, rfl⟩
    exact ⟨a, m, hr, rfl, rfl⟩

/-- Where nothing is skipped, a token is what it is made of. -/
theorem token_eq (r : Recogniser α) (hp : p.blanks = 0) : r.token p = r p := by
  rw [token, hp, Place.advance_zero]
  cases r p with
  | none => rfl
  | some found =>
    obtain ⟨a, n⟩ := found
    show some (a, 0 + n) = some (a, n)
    rw [Nat.zero_add]

/-- The first of two ways is gone where it can be. -/
theorem orElse_eq_left {r s : Recogniser α} {found : α × Nat} (h : r p = some found) :
    r.orElse s p = some found := by
  rw [orElse, h]

/-- The second is gone where the first cannot be. -/
theorem orElse_eq_right {r : Recogniser α} (s : Recogniser α) (h : r p = none) :
    r.orElse s p = s p := by
  rw [orElse, h]

/-- With nothing to compare to, the first of two is the longer one. -/
theorem longer_eq_left (r : Recogniser α) {s : Recogniser α} (h : s p = none) :
    r.longer s p = r p := by
  rw [longer, h]
  cases r p with
  | none => rfl
  | some found => rfl

/-- Of two, one that fails does not count. -/
theorem longer_eq_right {r : Recogniser α} (s : Recogniser α) (h : r p = none) :
    r.longer s p = s p := by
  rw [longer, h]

/-- What bounds the longer of two bounds the second. -/
theorem le_of_longer {r s : Recogniser α} {b : α} {m n : Nat} (hs : s p = some (b, m))
    (h : ∀ a k, r.longer s p = some (a, k) → k ≤ n) : m ≤ n := by
  cases hr : r p with
  | none => exact h b m (by rw [longer_eq_right s hr, hs])
  | some found =>
    obtain ⟨a, k⟩ := found
    rw [longer, hr, hs] at h
    dsimp only at h
    by_cases hlt : k < m
    · rw [if_pos hlt] at h
      exact h b m rfl
    · rw [if_neg hlt] at h
      have := h a k rfl
      omega

/-- Neither of two is longer if there is neither. -/
theorem longer_eq_none_iff {r s : Recogniser α} :
    r.longer s p = none ↔ r p = none ∧ s p = none := by
  constructor
  · intro h
    cases hr : r p with
    | none =>
      rw [longer_eq_right s hr] at h
      exact ⟨rfl, h⟩
    | some found =>
      cases hs : s p with
      | none =>
        rw [longer_eq_left r hs, hr] at h
        cases h
      | some other =>
        rw [longer, hr, hs] at h
        dsimp only at h
        split at h <;> cases h
  · rintro ⟨hr, hs⟩
    rw [longer_eq_right s hr, hs]

/-- So two that are missing make nothing. -/
theorem longer_eq_none {r s : Recogniser α} (hr : r p = none) (hs : s p = none) :
    r.longer s p = none :=
  longer_eq_none_iff.mpr ⟨hr, hs⟩

/-- Of two that take as much, the first counts. -/
theorem longer_eq_of_le {r s : Recogniser α} {a : α} {n : Nat} (hr : r p = some (a, n))
    (hs : ∀ b m, s p = some (b, m) → m ≤ n) : r.longer s p = some (a, n) := by
  rw [longer, hr]
  cases h : s p with
  | none => rfl
  | some found =>
    obtain ⟨b, m⟩ := found
    have := hs b m h
    show (if n < m then some (b, m) else some (a, n)) = _
    rw [if_neg (by omega)]

/-- What is found is found by one of the two, and the other takes no more. -/
theorem longer_eq_some {r s : Recogniser α} {a : α} {n : Nat} (h : r.longer s p = some (a, n)) :
    (r p = some (a, n) ∧ ∀ b m, s p = some (b, m) → m ≤ n) ∨
      (s p = some (a, n) ∧ ∀ b m, r p = some (b, m) → m < n) := by
  cases hr : r p with
  | none =>
    rw [longer_eq_right s hr] at h
    exact Or.inr ⟨h, fun b m hb => by cases hb⟩
  | some found =>
    obtain ⟨b, k⟩ := found
    cases hs : s p with
    | none =>
      rw [longer_eq_left r hs, hr] at h
      exact Or.inl ⟨h, fun b m hb => by cases hb⟩
    | some other =>
      obtain ⟨c, m⟩ := other
      rw [longer, hr, hs] at h
      dsimp only at h
      by_cases hlt : k < m
      · rw [if_pos hlt] at h
        cases h
        refine Or.inr ⟨rfl, fun b' k' hb => ?_⟩
        cases hb
        exact hlt
      · rw [if_neg hlt] at h
        cases h
        refine Or.inl ⟨rfl, fun c' m' hc => ?_⟩
        cases hc
        omega

/-- What may be missing is found where it is there. -/
theorem optional_eq {r : Recogniser α} {a : α} {n : Nat} (h : r p = some (a, n)) :
    r.optional p = some (some a, n) := by
  rw [optional, h]

/-- Where it is missing nothing is taken. -/
theorem optional_eq_none {r : Recogniser α} (h : r p = none) : r.optional p = some (none, 0) := by
  rw [optional, h]

/-- What may be missing never makes a reading fail. -/
theorem exists_optional (r : Recogniser α) (p : Place) :
    ∃ found n, r.optional p = some (found, n) := by
  cases hfound : r p with
  | none => exact ⟨_, _, optional_eq_none hfound⟩
  | some found => exact ⟨_, _, optional_eq hfound⟩

/-- What may be missing is there, or nothing is taken. -/
theorem optional_eq_some {r : Recogniser α} {a? : Option α} {n : Nat}
    (h : r.optional p = some (a?, n)) :
    (∃ a, r p = some (a, n) ∧ a? = some a) ∨ (r p = none ∧ a? = none ∧ n = 0) := by
  cases hr : r p with
  | none =>
    rw [optional_eq_none hr] at h
    obtain ⟨rfl, rfl⟩ := Prod.mk.inj (Option.some.inj h)
    exact Or.inr ⟨rfl, rfl, rfl⟩
  | some found =>
    obtain ⟨a, m⟩ := found
    rw [optional_eq hr] at h
    obtain ⟨rfl, rfl⟩ := Prod.mk.inj (Option.some.inj h)
    exact Or.inl ⟨a, rfl, rfl⟩

/-! ### Blanks in front -/

/-- The recogniser finds what it finds at the first character that is not skipped. -/
def SkipsFirst (r : Recogniser α) : Prop :=
  ∀ p, r p = (r (p.advance p.blanks)).map fun (a, n) => (a, p.blanks + n)

/-- A token skips blanks before anything else. -/
theorem skipsFirst_token (r : Recogniser α) : r.token.SkipsFirst := by
  intro p
  rw [token_eq r p.blanks_advance_blanks, token]

/-- What is made of a finding does not depend on blanks in front of it. -/
theorem SkipsFirst.map {r : Recogniser α} (h : r.SkipsFirst) (f : α → β) :
    (r.map f).SkipsFirst := by
  intro p
  rw [Recogniser.map, h p, Recogniser.map]
  cases r (p.advance p.blanks) with
  | none => rfl
  | some found => rfl

/-- It is the first of two parts that meets the blanks. -/
theorem SkipsFirst.andThen {r : Recogniser α} (h : r.SkipsFirst) (next : α → Recogniser β) :
    (r.andThen next).SkipsFirst := by
  intro p
  rw [Recogniser.andThen, h p, Recogniser.andThen]
  cases r (p.advance p.blanks) with
  | none => rfl
  | some found =>
    obtain ⟨a, n⟩ := found
    show (next a (p.advance (p.blanks + n))).map _ =
      ((next a ((p.advance p.blanks).advance n)).map _).map _
    rw [Place.advance_advance]
    cases next a (p.advance (p.blanks + n)) with
    | none => rfl
    | some found =>
      obtain ⟨b, m⟩ := found
      show some (b, p.blanks + n + m) = some (b, p.blanks + (n + m))
      rw [Nat.add_assoc]

/-- Of two ways to go, each has to skip blanks first. -/
theorem SkipsFirst.orElse {r s : Recogniser α} (hr : r.SkipsFirst) (hs : s.SkipsFirst) :
    (r.orElse s).SkipsFirst := by
  intro p
  rw [Recogniser.orElse, hr p, hs p, Recogniser.orElse]
  cases r (p.advance p.blanks) with
  | none => rfl
  | some found => rfl

/-- So has each of two that are compared by their length. -/
theorem SkipsFirst.longer {r s : Recogniser α} (hr : r.SkipsFirst) (hs : s.SkipsFirst) :
    (r.longer s).SkipsFirst := by
  intro p
  rw [Recogniser.longer, hr p, hs p, Recogniser.longer]
  cases r (p.advance p.blanks) with
  | none =>
    cases s (p.advance p.blanks) with
    | none => rfl
    | some found => rfl
  | some found =>
    cases s (p.advance p.blanks) with
    | none => rfl
    | some other =>
      obtain ⟨a, n⟩ := found
      obtain ⟨b, m⟩ := other
      -- Adding the same number of blanks to both does not change which is longer.
      show (if p.blanks + n < p.blanks + m then _ else _) =
        (if n < m then _ else _ : Option _).map _
      by_cases hlt : n < m
      · rw [if_pos hlt, if_pos (by omega)]
        rfl
      · rw [if_neg hlt, if_neg (by omega)]
        rfl

end Recogniser

open Recogniser

/-- All kinds of commands are tokens, or start with one. -/
theorem skipsFirst_command : command.SkipsFirst := by
  have hfixed : fixedCommand.SkipsFirst := skipsFirst_token _
  have hpush : push.SkipsFirst := (skipsFirst_token _).andThen _
  have hbyte : byte.SkipsFirst := (skipsFirst_token _).andThen _
  exact (hfixed.map _).longer ((skipsFirst_token _).longer
    ((skipsFirst_token _).longer ((hpush.map _).longer (hbyte.map _))))

/-- A comment starts with the token of its slashes. -/
theorem skipsFirst_comment : comment.SkipsFirst :=
  (skipsFirst_token _).andThen _

/-- Blanks in front of a segment do not matter, whatever kind it is. -/
theorem skipsFirst_segment : segment.SkipsFirst := by
  have hlabel : label.SkipsFirst := (skipsFirst_token _).andThen _
  have hline : instructionLine.SkipsFirst := (hlabel.andThen _).orElse (skipsFirst_command.map _)
  have hunknown : unknownLine.SkipsFirst := skipsFirst_token _
  exact ((hline.andThen _).map _).longer ((skipsFirst_comment.map _).longer (hunknown.map _))

/-! ### Where words end -/

/-- A class that has none of the skipped characters has nothing that is skipped. -/
theorem isSkipped_eq_false {inClass : Char → Bool} {c : Char} (hc : inClass c = true)
    (hclass : [' ', '\t', '\r', '\n'].any inClass = false) : Text.isSkipped c = false := by
  rw [Bool.eq_false_iff]
  intro hskip
  simp only [Text.isSkipped, Bool.or_eq_true, beq_iff_eq] at hskip
  refine List.any_eq_false.mp hclass c ?_ hc
  rcases hskip with ((rfl | rfl) | rfl) | rfl <;> simp

/-- What may stand behind a word: nothing, a blank, a comment, or the end of the line. -/
def Stops (after : List Char) : Prop :=
  ∀ c ∈ after.head?, c = ' ' ∨ c = '\t' ∨ c = '/' ∨ c = '\n'

/-- A class of characters that no word is followed by. -/
def IsStopped (inClass : Char → Bool) : Prop :=
  inClass ' ' = false ∧ inClass '\t' = false ∧ inClass '/' = false ∧ inClass '\n' = false

instance (inClass : Char → Bool) : Decidable (IsStopped inClass) :=
  inferInstanceAs (Decidable (_ ∧ _ ∧ _ ∧ _))

section
variable {after : List Char} {inClass : Char → Bool}

/-- A class without the characters that may follow a word does not go on behind it. -/
theorem Stops.head_eq_false (h : Stops after) (hclass : IsStopped inClass) :
    ∀ c ∈ after.head?, inClass c = false := by
  obtain ⟨h1, h2, h3, h4⟩ := hclass
  intro c hc
  rcases h c hc with rfl | rfl | rfl | rfl
  · exact h1
  · exact h2
  · exact h3
  · exact h4

/-- What follows, if anything does, is none of the class. -/
theorem Stops.any_head_eq_false (h : Stops after) (hclass : IsStopped inClass) :
    after.head?.any inClass = false := by
  rw [Option.any_eq_false]
  intro c hc
  rw [h.head_eq_false hclass c hc]

end

/-- A run of a class ends where the class does. -/
theorem takeWhile_eq {inClass : Char → Bool} {cs after : List Char}
    (hcs : ∀ c ∈ cs, inClass c = true) (hafter : ∀ c ∈ after.head?, inClass c = false) :
    (cs ++ after).takeWhile inClass = cs := by
  rw [List.takeWhile_append_of_pos hcs]
  cases after with
  | nil => simp
  | cons c after =>
    have hc : ¬inClass c = true := by
      rw [hafter c rfl]
      exact Bool.false_ne_true
    rw [List.takeWhile_cons_of_neg hc, List.append_nil]

/-- No word is followed by a digit. -/
theorem isStopped_isDigit : IsStopped Char.isDigit := by decide

/-- No word is followed by what a name may have. -/
theorem isStopped_isNameRest : IsStopped isNameRest := by decide

/-- No word is followed by a hexadecimal digit. -/
theorem isStopped_hexDigit : IsStopped fun c => (Text.hexDigit? c).isSome := by decide

/-- No word is followed by a character of words. -/
theorem isStopped_isWord : IsStopped Text.isWord := by decide

/-- No word is followed by what goes on with a mnemonic. -/
theorem isStopped_continuesMnemonic : IsStopped continuesMnemonic := by decide

/-! ### The smallest parts of the grammar -/

section
variable {p : Place} {cs after : List Char}

/-- A run is taken whole where the class ends behind it. -/
theorem run_eq {inClass : Char → Bool} (hrest : p.rest = cs ++ after) (hne : cs ≠ [])
    (hcs : ∀ c ∈ cs, inClass c = true) (hafter : ∀ c ∈ after.head?, inClass c = false) :
    run inClass p = some (cs, cs.length) := by
  rw [run, hrest, takeWhile_eq hcs hafter]
  show (if cs.isEmpty then none else some (cs, cs.length)) = _
  rw [if_neg]
  rw [List.isEmpty_iff]
  exact hne

/-- A word ends where one of the characters is next that may follow it. -/
theorem wordEnd_eq (hstop : Stops p.rest) : wordEnd p = some ((), 0) := by
  rw [wordEnd, hstop.any_head_eq_false isStopped_isWord]
  rfl

/-- A fixed text is found where it stands. -/
theorem exactly_eq {text : List Char} (hrest : p.rest = text ++ after) :
    exactly text p = some ((), text.length) := by
  rw [exactly, hrest, List.take_left, if_pos rfl]

/-- It is not found where another character is the first. -/
theorem exactly_eq_none {c : Char} {text : List Char} (h : ∀ d ∈ p.rest.head?, d ≠ c) :
    exactly (c :: text) p = none := by
  rw [exactly, if_neg]
  intro heq
  cases hrest : p.rest with
  | nil =>
    rw [hrest] at heq
    cases heq
  | cons d rest =>
    rw [hrest] at heq h
    exact h d rfl (List.cons.inj heq).1

/-- A name takes all characters that names are made of, if the first of them can start one. -/
theorem name_eq_some_or_none (hrest : p.rest = cs ++ after) (hne : cs ≠ [])
    (hcs : ∀ c ∈ cs, isNameRest c = true) (hafter : ∀ c ∈ after.head?, isNameRest c = false) :
    name p = some (String.ofList cs, cs.length) ∨ name p = none := by
  cases cs with
  | nil => exact absurd rfl hne
  | cons c cs =>
    have hrun : (cs ++ after).takeWhile isNameRest = cs :=
      takeWhile_eq (fun d hd => hcs d (List.mem_cons_of_mem c hd)) hafter
    rw [name, hrest, List.cons_append]
    dsimp only
    rw [hrun]
    by_cases hstart : isNameStart c
    · rw [if_pos hstart]
      exact Or.inl rfl
    · rw [if_neg hstart]
      exact Or.inr rfl

/-- There is no name where no name can start. -/
theorem name_eq_none (h : ∀ c ∈ p.rest.head?, isNameStart c = false) : name p = none := by
  rw [name]
  cases hrest : p.rest with
  | nil => rfl
  | cons c rest =>
    rw [hrest] at h
    show (if isNameStart c then _ else none) = none
    rw [h c rfl]
    rfl

/-- A word is no label unless a colon stands behind it. -/
theorem label_eq_none (hp : p.blanks = 0) (hrest : p.rest = cs ++ after) (hne : cs ≠ [])
    (hcs : ∀ c ∈ cs, isNameRest c = true) (hstop : Stops after)
    (hcolon : ∀ c ∈ (after.dropWhile Text.isSkipped).head?, c ≠ ':') : label p = none := by
  rcases name_eq_some_or_none hrest hne hcs (hstop.head_eq_false isStopped_isNameRest) with
    hname | hname
  · refine andThen_eq_none_of_next ((token_eq name hp).trans hname) (map_eq_none _ ?_)
    have hafter : (p.advance cs.length).rest = after := by
      rw [Place.rest_advance, hrest, List.drop_left]
    have hnone : exactly [':'] ((p.advance cs.length).advance (p.advance cs.length).blanks) =
        none := by
      refine exactly_eq_none ?_
      rw [Place.rest_advance_blanks, hafter]
      exact hcolon
    rw [token, hnone]
    rfl
  · exact andThen_eq_none _ ((token_eq name hp).trans hname)

/-- A hexadecimal literal goes as far as its digits do. -/
theorem hexLiteral_eq {x : Char} (hrest : p.rest = '0' :: x :: cs ++ after)
    (hx : x = 'x' ∨ x = 'X') (hne : cs ≠ []) (hcs : ∀ c ∈ cs, (Text.hexDigit? c).isSome = true)
    (hstop : Stops after) :
    hexLiteral p = some (String.ofList ('0' :: x :: cs), ('0' :: x :: cs).length) := by
  have hrun : (cs ++ after).takeWhile (fun c => (Text.hexDigit? c).isSome) = cs :=
    takeWhile_eq hcs (hstop.head_eq_false isStopped_hexDigit)
  have hmark : (x == 'x' || x == 'X') = true := by
    rcases hx with rfl | rfl <;> rfl
  rw [hexLiteral, hrest, List.cons_append, List.cons_append]
  show (if (x == 'x' || x == 'X') = true then
    if ((cs ++ after).takeWhile fun c => (Text.hexDigit? c).isSome).isEmpty then none
    else some (String.ofList ('0' :: x :: (cs ++ after).takeWhile fun c =>
      (Text.hexDigit? c).isSome), _) else none) = _
  rw [hmark, if_pos rfl, hrun, if_neg]
  · rfl
  · rw [List.isEmpty_iff]
    exact hne

/-- Decimal digits are no hexadecimal literal: none of them is the mark. -/
theorem hexLiteral_eq_none (hrest : p.rest = cs ++ after) (hcs : ∀ c ∈ cs, c.isDigit = true)
    (hstop : Stops after) : hexLiteral p = none := by
  have hmark : ∀ x rest, p.rest = '0' :: x :: rest → (x == 'x' || x == 'X') = false := by
    intro x rest hp
    have hx : x.isDigit = true ∨ x = ' ' ∨ x = '\t' ∨ x = '/' ∨ x = '\n' := by
      rw [hp] at hrest
      match cs, hcs, hrest with
      | [], _, hrest =>
        -- The first digit itself would have to stand behind the digits.
        rw [List.nil_append] at hrest
        exact absurd (hstop '0' (by rw [← hrest]; rfl)) (by decide)
      | [_], _, hrest =>
        have hafter : x :: rest = after := (List.cons.inj hrest).2
        exact Or.inr (hstop x (by rw [← hafter]; rfl))
      | _ :: d :: _, hcs, hrest =>
        obtain ⟨-, htail⟩ := List.cons.inj hrest
        obtain ⟨rfl, -⟩ := List.cons.inj htail
        exact Or.inl (hcs x (by simp))
    rw [Bool.or_eq_false_iff, beq_eq_false_iff_ne, beq_eq_false_iff_ne]
    constructor
    · rintro rfl
      revert hx
      decide
    · rintro rfl
      revert hx
      decide
  rw [hexLiteral]
  split
  · rename_i x rest hp
    rw [hmark x rest hp]
    rfl
  · rfl

/-! ### What the smallest parts have found

Where one of them succeeds, what it took is at the start of the rest, and this is all that it asks
of it. Other modules look at these parts through the lemmas below and not at their definitions. -/

/-- A run has taken all of its class, and something. -/
theorem run_eq_some {inClass : Char → Bool} {n : Nat} (h : run inClass p = some (cs, n)) :
    cs = p.rest.takeWhile inClass ∧ cs ≠ [] ∧ n = cs.length := by
  simp only [run] at h
  split at h
  · cases h
  · rename_i hne
    obtain ⟨rfl, rfl⟩ := Prod.mk.inj (Option.some.inj h)
    exact ⟨rfl, fun hnil => hne (List.isEmpty_iff.mpr hnil), rfl⟩

/-- A fixed text was there. -/
theorem exactly_eq_some {text : List Char} {n : Nat} (h : exactly text p = some ((), n)) :
    n = text.length ∧ p.rest.take n = text := by
  rw [exactly] at h
  split at h
  · rename_i htake
    obtain ⟨-, rfl⟩ := Prod.mk.inj (Option.some.inj h)
    exact ⟨rfl, htake⟩
  · cases h

/-- The end of a word takes nothing. -/
theorem wordEnd_eq_some {n : Nat} (h : wordEnd p = some ((), n)) : n = 0 := by
  rw [wordEnd] at h
  split at h
  · cases h
  · exact (Prod.mk.inj (Option.some.inj h)).2.symm

/-- Whatever a name may start with, it may go on with. -/
theorem isNameRest_of_isNameStart {c : Char} (h : isNameStart c = true) : isNameRest c = true := by
  rw [isNameStart, Bool.or_eq_true] at h
  rw [isNameRest, Char.isAlphanum]
  rcases h with h | h <;> simp [h]

/-- A name starts with a character that may start one, and goes on as long as it can. -/
theorem name_eq_some {word : String} {n : Nat} (h : name p = some (word, n)) :
    ∃ c rest, p.rest = c :: rest ∧ isNameStart c = true ∧
      word = String.ofList (c :: rest.takeWhile isNameRest) ∧
        n = (c :: rest.takeWhile isNameRest).length := by
  simp only [name] at h
  split at h
  · rename_i c rest hrest
    split at h
    · rename_i hstart
      obtain ⟨rfl, rfl⟩ := Prod.mk.inj (Option.some.inj h)
      exact ⟨c, rest, hrest, hstart, rfl, rfl⟩
    · cases h
  · cases h

/-- A hexadecimal literal is its mark and digits, one at least. -/
theorem hexLiteral_eq_some {literal : String} {n : Nat} (h : hexLiteral p = some (literal, n)) :
    ∃ x digits, '0' :: x :: digits <+: p.rest ∧ (x = 'x' ∨ x = 'X') ∧ digits ≠ [] ∧
      (∀ c ∈ digits, (Text.hexDigit? c).isSome = true) ∧
        literal = String.ofList ('0' :: x :: digits) ∧ n = ('0' :: x :: digits).length := by
  simp only [hexLiteral] at h
  split at h
  · rename_i x rest hrest
    split at h
    · rename_i hmark
      split at h
      · cases h
      · rename_i hne
        obtain ⟨rfl, rfl⟩ := Prod.mk.inj (Option.some.inj h)
        refine ⟨x, _, ?_, by simpa using hmark, fun hnil => hne (List.isEmpty_iff.mpr hnil),
          fun c hc => ?_, rfl, rfl⟩
        · rw [hrest, List.cons_prefix_cons, List.cons_prefix_cons]
          exact ⟨rfl, rfl, List.takeWhile_prefix _⟩
        · exact List.mem_takeWhile_imp (p := fun c => (Text.hexDigit? c).isSome) hc
    · cases h
  · cases h

/-- A keyword is as long as its letters, and has each of them in some case. -/
theorem keyword_eq_some {letters word : List Char} {n : Nat}
    (h : keyword letters p = some (word, n)) :
    n = letters.length ∧ word = p.rest.take n ∧ word.length = n ∧
      ∀ pair ∈ letters.zip word, Text.sameLetter pair.1 pair.2 = true := by
  simp only [keyword] at h
  split at h
  · rename_i hmatch
    obtain ⟨rfl, rfl⟩ := Prod.mk.inj (Option.some.inj h)
    exact ⟨rfl, rfl, hmatch.1, List.all_eq_true.mp hmatch.2⟩
  · cases h

/-- A mnemonic has taken as many characters as its name has, and their capitals spell it. -/
theorem mnemonic_eq_some {op : Opcode} {a : Action} {n : Nat} (h : mnemonic op p = some (a, n)) :
    a = .opcode op ∧ n = op.name.toList.length ∧
      Text.capitals (p.rest.take n) = op.name.toList := by
  simp only [mnemonic] at h
  split at h
  · rename_i hmatch
    obtain ⟨rfl, rfl⟩ := Prod.mk.inj (Option.some.inj h)
    exact ⟨rfl, rfl, hmatch.1⟩
  · cases h

/-- The directive of a byte is written in five characters. -/
theorem byteDirective_eq_some {n : Nat} (h : byteDirective p = some ((), n)) :
    n = 5 ∧ Text.capitals (p.rest.take n) = ['.', 'B', 'Y', 'T', 'E'] := by
  rw [byteDirective] at h
  split at h
  · rename_i hcapitals
    obtain ⟨-, rfl⟩ := Prod.mk.inj (Option.some.inj h)
    exact ⟨rfl, hcapitals⟩
  · cases h

end

end EvmAssembler.Source
