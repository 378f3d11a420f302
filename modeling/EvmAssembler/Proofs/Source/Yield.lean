import EvmAssembler.Proofs.Source.Match
import EvmAssembler.Proofs.Text.Literal
import EvmAssembler.Source.Segment

/-!
# `EvmAssembler.Proofs.Source.Yield`: what the grammar hands on

An action holds text: names, keywords and literals as they are written. The assembler reads
them again, with readers that accept far more than the grammar takes. `Action.IsWellFormed`
says what the grammar leaves possible, and `isWellFormed_of_actions` that every action of a
source text is so.

The argument follows the recognisers. `Recogniser.Yields` says of one that all it ever finds
has a property. It passes through each way of putting recognisers together, so the grammar's
own rules need only their leaves looked at.
-/

set_option autoImplicit false

namespace EvmAssembler.Source

/-! ### Properties of findings -/

namespace Recogniser

variable {α β : Type}

/-- Everything the recogniser finds, anywhere in any text, has the property. -/
def Yields (r : Recogniser α) (P : α → Prop) : Prop :=
  ∀ p a n, r p = some (a, n) → P a

/-- What is made of a finding has a property that follows from that of the finding. -/
theorem Yields.map {r : Recogniser α} {P : α → Prop} {Q : β → Prop} {f : α → β}
    (h : r.Yields P) (hf : ∀ a, P a → Q (f a)) : (r.map f).Yields Q := by
  intro p b n hb
  simp only [Recogniser.map, Option.map_eq_some_iff, Prod.exists, Prod.mk.injEq] at hb
  obtain ⟨a, m, ha, rfl, -⟩ := hb
  exact hf a (h p a m ha)

/-- It has every property that follows. -/
theorem Yields.imp {r : Recogniser α} {P Q : α → Prop} (h : r.Yields P) (hPQ : ∀ a, P a → Q a) :
    r.Yields Q :=
  fun p a n hfound => hPQ a (h p a n hfound)

/-- A finding that stands for a success has the property as such. -/
theorem Yields.map_ok {r : Recogniser α} {P : α → Prop} (h : r.Yields P) :
    (r.map (Except.ok : α → Except Error α)).Yields fun c => ∀ a, c = .ok a → P a :=
  h.map fun _ ha _ hb => Except.ok.inj hb ▸ ha

/-- Where what is found is fixed, it does not matter what it is found in. -/
theorem yields_const (r : Recogniser α) {P : β → Prop} {b : β} (h : P b) :
    (r.map fun _ => b).Yields P := by
  intro p c n hc
  simp only [Recogniser.map, Option.map_eq_some_iff, Prod.exists, Prod.mk.injEq] at hc
  obtain ⟨-, -, -, rfl, -⟩ := hc
  exact h

/-- Nothing need be asked of what is found. -/
theorem yields_true (r : Recogniser α) : r.Yields fun _ => True :=
  fun _ _ _ _ => trivial

/-- What the second of two in sequence finds may depend on what the first has found. -/
theorem Yields.andThen {r : Recogniser α} {next : α → Recogniser β} {P : α → Prop}
    {Q : β → Prop} (h : r.Yields P) (hnext : ∀ a, P a → (next a).Yields Q) :
    (r.andThen next).Yields Q := by
  intro p b n hb
  simp only [Recogniser.andThen, Option.bind_eq_some_iff, Option.map_eq_some_iff, Prod.exists,
    Prod.mk.injEq] at hb
  obtain ⟨a, m, ha, c, k, hc, rfl, -⟩ := hb
  exact hnext a (h p a m ha) _ c k hc

/-- A token finds what its word finds. -/
theorem Yields.token {r : Recogniser α} {P : α → Prop} (h : r.Yields P) : r.token.Yields P := by
  intro p a n ha
  simp only [Recogniser.token, Option.map_eq_some_iff, Prod.exists, Prod.mk.injEq] at ha
  obtain ⟨b, m, hb, rfl, -⟩ := ha
  exact h _ b m hb

/-- Of two ways, each has to find what has the property. -/
theorem Yields.orElse {r s : Recogniser α} {P : α → Prop} (hr : r.Yields P) (hs : s.Yields P) :
    (r.orElse s).Yields P := by
  intro p a n h
  simp only [Recogniser.orElse] at h
  split at h
  · rename_i found hfound
    obtain rfl := Option.some.inj h
    exact hr p a n hfound
  · exact hs p a n h

/-- The longer of two finds what one of them finds. -/
theorem Yields.longer {r s : Recogniser α} {P : α → Prop} (hr : r.Yields P) (hs : s.Yields P) :
    (r.longer s).Yields P := by
  intro p a n h
  simp only [Recogniser.longer] at h
  split at h
  · rename_i b k c m hb hc
    split at h
    · obtain ⟨rfl, rfl⟩ := Prod.mk.inj (Option.some.inj h)
      exact hs p _ _ hc
    · obtain ⟨rfl, rfl⟩ := Prod.mk.inj (Option.some.inj h)
      exact hr p _ _ hb
  · rename_i found hfound _
    obtain rfl := Option.some.inj h
    exact hr p a n hfound
  · exact hs p a n h

/-- What may be missing has the property where it is there. -/
theorem Yields.optional {r : Recogniser α} {P : α → Prop} (h : r.Yields P) :
    r.optional.Yields fun found => ∀ a ∈ found, P a := by
  intro p found n hfound
  simp only [Recogniser.optional] at hfound
  split at hfound
  · rename_i a m ha
    obtain ⟨rfl, rfl⟩ := Prod.mk.inj (Option.some.inj hfound)
    rintro b hb
    obtain rfl := Option.mem_some_iff.mp hb
    exact h p a m ha
  · obtain ⟨rfl, -⟩ := Prod.mk.inj (Option.some.inj hfound)
    rintro b hb
    cases hb

/-- So has what the first of a list finds, if all of the list do. -/
theorem Yields.firstOf {rs : List (Recogniser α)} {P : α → Prop} (h : ∀ r ∈ rs, r.Yields P) :
    (Recogniser.firstOf rs).Yields P := by
  intro p a n ha
  obtain ⟨r, hr, hp⟩ := List.exists_of_findSome?_eq_some ha
  exact h r hr p a n hp

/-- A run is not empty and stays in its class. -/
theorem yields_run (inClass : Char → Bool) :
    (run inClass).Yields fun cs => cs ≠ [] ∧ ∀ c ∈ cs, inClass c = true := by
  intro p cs n h
  obtain ⟨rfl, hne, -⟩ := run_eq_some h
  exact ⟨hne, fun c hc => List.mem_takeWhile_imp hc⟩

end Recogniser

/-! ### Well-formed actions -/

open Recogniser

/-- The names of labels and namespaces. -/
def IsName (name : String) : Prop :=
  ∃ c rest, name.toList = c :: rest ∧ isNameStart c = true ∧ ∀ d ∈ rest, isNameRest d = true

/-- The keywords of a push: four letters, and digits or none. -/
def IsPushKeyword (keyword : String) : Prop :=
  ∃ letters digits, keyword.toList = letters ++ digits ∧ letters.length = 4 ∧
    ∀ c ∈ digits, c.isDigit = true

/-- The ways to name a label: by itself or with its namespace. -/
inductive IsLabelPath : LabelPath → Prop where
  | plain {name : String} : IsName name → IsLabelPath [name]
  | qualified {space name : String} : IsName space → IsName name → IsLabelPath [space, name]

/-- The operands a push can be given. -/
def PushOperand.IsWellFormed : PushOperand → Prop
  | .literal text => Text.IsLiteral text.toList
  | .reference path => IsLabelPath path

/-- The actions that source text can ask for. -/
def Action.IsWellFormed : Action → Prop
  | .opcode _ | .unknown _ => True
  | .dup n | .swap n => n < Text.decimalLimit
  | .push keyword operand => IsPushKeyword keyword ∧ operand.IsWellFormed
  | .byte literal => Text.IsLiteral literal.toList
  | .label name => IsName name

/-! ### The rules of the grammar -/

/-- Names start as names may start, and go on so. -/
theorem yields_name : name.Yields IsName := by
  intro p s n h
  obtain ⟨c, rest, -, hstart, rfl, -⟩ := name_eq_some h
  exact ⟨c, rest.takeWhile isNameRest, String.toList_ofList, hstart,
    fun d hd => List.mem_takeWhile_imp hd⟩

/-- A hexadecimal literal has its mark and at least one digit. -/
theorem yields_hexLiteral : hexLiteral.Yields fun text => Text.IsLiteral text.toList := by
  intro p text n h
  obtain ⟨x, digits, -, hmark, hne, hdigits, rfl, -⟩ := hexLiteral_eq_some h
  rw [String.toList_ofList]
  exact .hex hmark hne hdigits

/-- Literals of both kinds are well formed. -/
theorem yields_integerLiteral : integerLiteral.Yields fun text => Text.IsLiteral text.toList := by
  refine yields_hexLiteral.token.orElse (Yields.token ?_)
  refine (yields_run Char.isDigit).map fun digits h => ?_
  rw [String.toList_ofList]
  exact .decimal h.1 h.2

/-- A reference has one name or two. -/
theorem yields_reference : reference.Yields IsLabelPath := by
  have hspace : namespacePart.Yields IsName :=
    yields_name.token.andThen fun _ h => yields_const _ h
  refine (yields_true _).andThen fun _ _ => hspace.optional.andThen fun space h => ?_
  refine yields_name.token.map fun label hlabel => ?_
  cases space with
  | none => exact .plain hlabel
  | some space => exact .qualified (h space rfl) hlabel

/-- An index that could be read is below the limit of decimal numerals. -/
theorem lt_decimalLimit_of_index? {digits : List Char} {n : Nat}
    (h : ∀ c ∈ digits, c.isDigit = true) (hn : index? digits = .ok n) : n < Text.decimalLimit := by
  rw [index?] at hn
  split at hn
  · cases hn
  · -- Few enough digits make a number below the power of ten that is the limit.
    obtain rfl := Except.ok.inj hn
    have hlt := @Text.ofDigits_lt 10 (digits.map fun c => c.toNat - '0'.toNat) fun d hd => by
      obtain ⟨c, hc, rfl⟩ := List.mem_map.mp hd
      have := Text.isDigit_iff.mp (h c hc)
      rw [show '0'.toNat = 48 from rfl]
      omega
    rw [List.length_map] at hlt
    exact Nat.lt_of_lt_of_le hlt (Text.pow_le_decimalLimit (by omega))

/-- An index that can be read is below the decimal limit, so it is enough to know what is made of
such numbers. -/
theorem yields_indexed {letters : List Char} {make : Nat → Action}
    {P : Action → Prop} (hmake : ∀ n, n < Text.decimalLimit → P (make n)) :
    (indexed letters make).Yields fun c => ∀ a, c = .ok a → P a := by
  refine (yields_true _).andThen fun _ _ => (yields_run Char.isDigit).andThen fun digits h => ?_
  refine (yields_true wordEnd).map fun _ _ a ha => ?_
  obtain ⟨n, hn, rfl⟩ := except_map_eq_ok_iff.mp ha
  exact hmake n (lt_decimalLimit_of_index? h.2 hn)

/-- A fixed command asks for an opcode. -/
theorem yields_fixedCommand : fixedCommand.Yields fun a => ∃ op, a = .opcode op := by
  refine Yields.token (Yields.firstOf fun r hr p a n h => ?_)
  obtain ⟨op, -, rfl⟩ := List.mem_map.mp hr
  exact ⟨op, (mnemonic_eq_some h).1⟩

/-- The keyword of a push has four letters, and maybe digits behind them. -/
theorem yields_pushKeyword : pushKeyword.Yields IsPushKeyword := by
  have hletters : (keyword ['p', 'u', 's', 'h']).Yields fun letters => letters.length = 4 := by
    intro p letters n h
    obtain ⟨rfl, -, hlength, -⟩ := keyword_eq_some h
    exact hlength
  refine hletters.andThen fun letters h4 => (yields_run Char.isDigit).optional.andThen
    fun digits hdigits => ?_
  refine yields_const wordEnd ⟨letters, digits.getD [], String.toList_ofList, h4, ?_⟩
  cases digits with
  | none => simp
  | some digits => exact (hdigits digits rfl).2

/-- A push has such a keyword and a well-formed operand. -/
theorem yields_push : push.Yields Action.IsWellFormed := by
  have hliteral : (integerLiteral.map PushOperand.literal).Yields PushOperand.IsWellFormed :=
    yields_integerLiteral.map fun _ h => h
  have hreference : (reference.map PushOperand.reference).Yields PushOperand.IsWellFormed :=
    yields_reference.map fun _ h => h
  have hoperand : pushOperand.Yields PushOperand.IsWellFormed := hliteral.orElse hreference
  exact yields_pushKeyword.token.andThen fun keyword hkeyword =>
    hoperand.map fun operand h => ⟨hkeyword, h⟩

/-- A byte has a well-formed literal. -/
theorem yields_byte : byte.Yields Action.IsWellFormed :=
  (yields_true _).andThen fun _ _ => yields_integerLiteral.map fun _ h => h

/-- A command asks for a well-formed action, if its index can be read. -/
theorem yields_command : command.Yields fun c => ∀ a, c = .ok a → a.IsWellFormed := by
  -- An index is well-formed as soon as it is below the limit, in range or not.
  have hfixed : fixedCommand.Yields Action.IsWellFormed :=
    yields_fixedCommand.imp fun _ ⟨_, h⟩ => h ▸ trivial
  refine hfixed.map_ok.longer ((yields_indexed ?_).token.longer
    ((yields_indexed ?_).token.longer (yields_push.map_ok.longer yields_byte.map_ok)))
  · exact fun n hn => hn
  · exact fun n hn => hn

/-- An action that a command may ask for. -/
def Action.IsCommand : Action → Prop
  | .label _ => False
  | .unknown _ => False
  | _ => True

/-- So the label in front of a command is never taken for one, nor is a rejected line. -/
theorem yields_command_isCommand :
    command.Yields fun c => ∀ a, c = .ok a → a.IsCommand := by
  have hfixed : fixedCommand.Yields Action.IsCommand :=
    yields_fixedCommand.imp fun _ ⟨_, h⟩ => h ▸ trivial
  have hpush : push.Yields Action.IsCommand := by
    refine (yields_true _).andThen fun _ _ => (yields_true pushOperand).map fun _ _ => ?_
    trivial
  have hbyte : byte.Yields Action.IsCommand := by
    refine (yields_true _).andThen fun _ _ => (yields_true integerLiteral).map fun _ _ => ?_
    trivial
  refine hfixed.map_ok.longer ((yields_indexed ?_).token.longer
    ((yields_indexed ?_).token.longer (hpush.map_ok.longer hbyte.map_ok)))
  · exact fun _ _ => trivial
  · exact fun _ _ => trivial

/-- A label asks for a definition and nothing else. -/
theorem yields_label : label.Yields fun a => ∃ word, a = .label word :=
  (yields_true _).andThen fun word _ => yields_const _ ⟨word, rfl⟩

/-- All that a segment asks for is well-formed. -/
theorem yields_segment :
    segment.Yields fun found => ∀ c ∈ found.2, ∀ a, c = .ok a → a.IsWellFormed := by
  have hlabel : label.Yields Action.IsWellFormed :=
    yields_name.token.andThen fun _ h => yields_const _ h
  have hline : instructionLine.Yields fun found => ∀ c ∈ found, ∀ a, c = .ok a →
      a.IsWellFormed := by
    refine (hlabel.andThen fun l hl => yields_command.optional.map fun c hc => ?_).orElse
      (yields_command.map fun c hc => by simpa using hc)
    -- The label comes first and is always fine, and a command may follow it.
    rintro d hd a rfl
    rcases List.mem_cons.mp hd with hd | hd
    · obtain rfl := Except.ok.inj hd
      exact hl
    · exact hc _ (Option.mem_toList.mp hd) a rfl
  refine Yields.longer (Yields.map ?_ fun _ h => h) (Yields.longer ?_ ?_)
  · -- The comment behind a statement adds nothing to what the statement asks for.
    exact hline.andThen fun _ h => yields_const _ h
  · exact (yields_true comment).map fun _ _ c hc => by cases hc
  · refine (yields_true unknownLine).map fun text _ c hc a ha => ?_
    obtain rfl := List.mem_singleton.mp hc
    obtain rfl := Except.ok.inj ha
    trivial

/-! ### Whole texts -/

/-- All that the segments of a text ask for is well-formed. -/
theorem isWellFormed_of_segmentsFrom {p : Place} {s : Segment} (hs : s ∈ (segmentsFrom p).1) :
    ∀ c ∈ s.actions, ∀ a, c = .ok a → a.IsWellFormed := by
  fun_induction segmentsFrom p with
  | case1 => cases hs
  | case2 p kind actions n found gap text later finish hrest ih =>
    rcases List.mem_cons.mp hs with rfl | hs
    · exact yields_segment p _ n found
    · exact ih (by rwa [hrest])

/-- Findings come to a list of actions exactly when each of them is one. -/
theorem mapM_id_eq_ok_iff {found : Finding} {actions : List Action} :
    found.mapM id = .ok actions ↔ found = actions.map .ok := by
  have heq := @List.forall₂_map_right_iff _ _ _ Eq (Except.ok (ε := Error)) found actions
  rw [mapM_eq_ok_iff, ← List.forall₂_eq_eq_eq, heq]
  rfl

/-- Every action of a source text is well-formed. -/
theorem isWellFormed_of_actions {text : List Char} {found : List Action}
    (h : actions text = .ok found) : ∀ a ∈ found, a.IsWellFormed := by
  intro a ha
  obtain ⟨as, hmap, hrest⟩ := except_bind_eq_ok_iff.mp h
  have has : as = found := by
    split at hrest
    · exact Except.ok.inj hrest
    · cases hrest
  subst has
  have hmem : (Except.ok a : Except Error Action) ∈ as.map .ok := List.mem_map_of_mem ha
  rw [← mapM_id_eq_ok_iff.mp hmap, List.mem_flatMap] at hmem
  obtain ⟨s, hs, hc⟩ := hmem
  exact isWellFormed_of_segmentsFrom hs _ hc a rfl

end EvmAssembler.Source
