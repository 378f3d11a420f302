import EvmAssembler.Text.Blank

/-!
# `EvmAssembler.Source.Recogniser`: matching at a place in a text

A recogniser looks at a place in a text and either fails or says what it found and how
many characters it took. The number may run past the end of the text. Recognisers are
put together in sequence, by first success, or by greatest length, and none of these
ever gives back what an earlier part has taken.

`Consumes` marks the recognisers that never succeed without shortening the text, which
is what a repetition needs to end.
-/

set_option autoImplicit false

namespace EvmAssembler.Source

/-- A place in a text: the character before it, if any, and all that follows. -/
structure Place where
  before : Option Char
  rest : List Char
  deriving DecidableEq, Repr

namespace Place

/-- The beginning of a text. -/
def start (text : List Char) : Place :=
  ⟨none, text⟩

/-- The place `n` characters further on. -/
def advance (p : Place) (n : Nat) : Place :=
  ⟨(p.rest.take n).getLast?.or p.before, p.rest.drop n⟩

/-- The number of skipped characters ahead. -/
def blanks (p : Place) : Nat :=
  (p.rest.takeWhile Text.isSkipped).length

/-- Advancing drops what was passed. -/
@[simp] theorem rest_advance (p : Place) (n : Nat) : (p.advance n).rest = p.rest.drop n := rfl

end Place

/-- Finds something at a place and says how many characters it takes. -/
abbrev Recogniser (α : Type) := Place → Option (α × Nat)

namespace Recogniser

variable {α β : Type}

/-- The recogniser with its finding changed. -/
def map (f : α → β) (r : Recogniser α) : Recogniser β := fun p =>
  (r p).map fun (a, n) => (f a, n)

/-- One recogniser, then another right behind it. -/
def andThen (r : Recogniser α) (next : α → Recogniser β) : Recogniser β := fun p =>
  (r p).bind fun (a, n) => (next a (p.advance n)).map fun (b, m) => (b, n + m)

/-- The recogniser behind any skipped characters. -/
def token (r : Recogniser α) : Recogniser α := fun p =>
  (r (p.advance p.blanks)).map fun (a, n) => (a, p.blanks + n)

/-- The second recogniser where the first fails. -/
def orElse (r s : Recogniser α) : Recogniser α := fun p =>
  match r p with
  | some found => some found
  | none => s p

/-- Whichever of two takes more characters, the first if they take the same. -/
def longer (r s : Recogniser α) : Recogniser α := fun p =>
  match r p, s p with
  | some (a, n), some (b, m) => if n < m then some (b, m) else some (a, n)
  | some found, none => some found
  | none, found => found

/-- Succeeds in any case, taking nothing where the recogniser fails. -/
def optional (r : Recogniser α) : Recogniser (Option α) := fun p =>
  match r p with
  | some (a, n) => some (some a, n)
  | none => some (none, 0)

/-- The first of several recognisers that succeeds. -/
def firstOf (rs : List (Recogniser α)) : Recogniser α := fun p =>
  rs.findSome? fun r => r p

/-- Exactly the given characters. -/
def exactly (text : List Char) : Recogniser Unit := fun p =>
  if p.rest.take text.length = text then some ((), text.length) else none

/-- The characters of a class, as many as there are, one at least. -/
def run (inClass : Char → Bool) : Recogniser (List Char) := fun p =>
  let taken := p.rest.takeWhile inClass
  if taken.isEmpty then none else some (taken, taken.length)

/-- Every success shortens the text. -/
def Consumes (r : Recogniser α) : Prop :=
  ∀ p a n, r p = some (a, n) → (p.rest.drop n).length < p.rest.length

/-- Changing the result changes nothing in the length. -/
theorem Consumes.map {r : Recogniser α} (h : r.Consumes) (f : α → β) : (r.map f).Consumes := by
  intro p b n hb
  simp only [Recogniser.map, Option.map_eq_some_iff, Prod.exists, Prod.mk.injEq] at hb
  obtain ⟨a, m, ha, -, rfl⟩ := hb
  exact h p a m ha

/-- It is enough that the first of two in sequence shortens the text. -/
theorem Consumes.andThen {r : Recogniser α} (h : r.Consumes) (next : α → Recogniser β) :
    (r.andThen next).Consumes := by
  intro p b n hb
  simp only [Recogniser.andThen, Option.bind_eq_some_iff, Option.map_eq_some_iff, Prod.exists,
    Prod.mk.injEq] at hb
  obtain ⟨a, m, ha, c, k, -, -, rfl⟩ := hb
  have := h p a m ha
  simp only [List.length_drop] at this ⊢
  omega

/-- Passing over blanks first only shortens the text further. -/
theorem Consumes.token {r : Recogniser α} (h : r.Consumes) : r.token.Consumes := by
  intro p a n ha
  simp only [Recogniser.token, Option.map_eq_some_iff, Prod.exists, Prod.mk.injEq] at ha
  obtain ⟨b, m, hb, -, rfl⟩ := ha
  have := h _ b m hb
  simp only [Place.rest_advance, List.length_drop] at this ⊢
  omega

/-- Of two alternatives, whichever matches shortens the text. -/
theorem Consumes.orElse {r s : Recogniser α} (hr : r.Consumes) (hs : s.Consumes) :
    (r.orElse s).Consumes := by
  intro p a n h
  simp only [Recogniser.orElse] at h
  split at h
  · rename_i found hfound
    obtain rfl := Option.some.inj h
    exact hr p a n hfound
  · exact hs p a n h

/-- Of two alternatives, the longer match shortens the text. -/
theorem Consumes.longer {r s : Recogniser α} (hr : r.Consumes) (hs : s.Consumes) :
    (r.longer s).Consumes := by
  intro p a n h
  simp only [Recogniser.longer] at h
  split at h
  · rename_i b k c m hb hc
    split at h
    · obtain ⟨rfl, rfl⟩ := Prod.mk.inj (Option.some.inj h)
      exact hs p _ _ hc
    · obtain ⟨rfl, rfl⟩ := Prod.mk.inj (Option.some.inj h)
      exact hr p _ _ hb
  · rename_i found hfound _
    obtain rfl := Option.some.inj h
    exact hr p a n hfound
  · exact hs p a n h

/-- Of many alternatives, whichever matches first shortens the text. -/
theorem Consumes.firstOf {rs : List (Recogniser α)} (h : ∀ r ∈ rs, r.Consumes) :
    (firstOf rs).Consumes := by
  intro p a n ha
  obtain ⟨r, hr, hp⟩ := List.exists_of_findSome?_eq_some ha
  exact h r hr p a n hp

/-- A given text shortens the rest by its length, if it has one. -/
theorem consumes_exactly {text : List Char} (h : text ≠ []) : (exactly text).Consumes := by
  intro p a n ha
  simp only [exactly] at ha
  split at ha
  · rename_i hp
    obtain ⟨-, rfl⟩ := Prod.mk.inj (Option.some.inj ha)
    have hlen := congrArg List.length hp
    have hpos : 0 < text.length := List.length_pos_iff.mpr h
    simp only [List.length_take, List.length_drop] at hlen ⊢
    omega
  · simp at ha

end Recogniser

end EvmAssembler.Source
