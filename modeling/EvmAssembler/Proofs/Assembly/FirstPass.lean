import EvmAssembler.Assembly.FirstPass
import EvmAssembler.Proofs.Assembly.Laid

/-!
# `EvmAssembler.Proofs.Assembly.FirstPass`: the first pass keeps its books

The handlers of the first pass change three linked parts of a layout, and they can be called with
anything. This module shows that no call leaves the three apart.

* `Pass.Atomic`: from a layout, a program fails without a change, or it succeeds in a state with a
  given property. A check in front of an atomic program keeps it atomic (`Pass.Atomic.check`).
* `Call.atomic_perform`: so every call is, and `Layout.Answers` is all that a successful one does.
* `Layout.account_after`: what is on record after any run of calls, by induction over the run.

`Call.run_ofAction` ties the calls to the assembler: the call that is made for an action does what
`Layout.perform` answers.
-/

set_option autoImplicit false

namespace EvmAssembler

open MonadExcept (ofExcept)

/-! ### Sizes -/

/-- The bytes that a placement takes: those of an instruction, or an opcode and the width of a
reference. -/
def Placement.size : Placement → Except Error Nat
  | .instruction i => i.size
  | .reference width _ => .ok (1 + width)

/-- The bytes that everything placed takes. -/
def Layout.size (l : Layout) : Except Error Nat :=
  (l.placements.mapM Placement.size).map List.sum

/-- What may be placed: an instruction that has bytes, be they none, or a reference of a width that
a push can have. -/
def Placement.Fits : Placement → Prop
  | .instruction i => i.Encodable
  | .reference width _ => 1 ≤ width ∧ width ≤ maxPushBytes

/-- What may be placed has its extent as its size. -/
theorem Placement.Fits.size {p : Placement} (h : p.Fits) : p.size = .ok p.extent := by
  cases p with
  | instruction i => exact Instruction.size_eq_extent h
  | reference width label => rfl

/-! ### Atomic programs -/

namespace Pass

variable {α : Type} {l : Layout} {Q : Layout → Prop}

/-- From the layout, the program fails and leaves it as it is, or it succeeds and leaves one with
the property. -/
def Atomic (x : Pass Unit) (l : Layout) (Q : Layout → Prop) : Prop :=
  match x.run l with
  | .ok _ next => Q next
  | .error _ left => left = l

/-- A failed check has changed nothing. -/
theorem Atomic.fail (e : Error) : Atomic (ofExcept (refuse e)) l Q := rfl

/-- A check in front of an atomic program can fail, but only before anything is changed. -/
theorem Atomic.check {x : Except Error α} {f : α → Pass Unit}
    (h : ∀ a, x = .ok a → Atomic (f a) l Q) : Atomic (ofExcept x >>= f) l Q := by
  cases x with
  | ok a => exact h a rfl
  | error e => rfl

/-- Reading the layout changes nothing. -/
theorem Atomic.read {f : Layout → Pass Unit} (h : Atomic (f l) l Q) : Atomic (get >>= f) l Q := h

end Pass

/-! ### One call -/

namespace Layout

/-- The layout with something placed. Its events are left open. -/
structure Adds (l : Layout) (p : Placement) (next : Layout) : Prop where
  fits : p.Fits
  placed : next.placed = p :: l.placed
  offset : next.offset = l.offset + p.extent
  labels : next.labels = l.labels
  space : next.space = l.space

/-- All that a call can do to a layout. -/
inductive Answers (l : Layout) : Call → Layout → Prop where
  | entered (space : String) : Answers l (.enter space) (l.enter space)
  | placed (c : Call) {p : Placement} {next : Layout} : l.Adds p next → Answers l c next
  | defined (tokens : List Datum) {label : String} : l.labels.lookup label = none →
    Answers l (.label tokens)
      { l.report (.labelled label l.offset) with labels := (label, l.offset) :: l.labels }

end Layout

namespace Pass

variable {l : Layout}

/-- An instruction is placed with its size, after its size and its mnemonic have been found. -/
theorem atomic_issue (c : Call) (i : Instruction) : Atomic (issue i) l (l.Answers c) := by
  refine .check fun width hwidth => .check fun mnemonic _ => ?_
  obtain ⟨hfits, rfl⟩ := Instruction.encodable_of_size hwidth
  exact .placed c (p := .instruction i) ⟨hfits, rfl, rfl, rfl, rfl⟩

/-- A reference is placed after its width has been checked and its label found. -/
theorem atomic_refer (c : Call) (width : Datum) (tokens : List Datum) :
    Atomic (refer width tokens) l (l.Answers c) := by
  rw [refer]
  split
  · exact .fail _
  · rename_i w hw
    refine .read (.check fun label _ => ?_)
    obtain ⟨hone, hmost, -⟩ := Instruction.indexWithin?_eq_some_iff.mp hw
    exact .placed c (p := .reference w label) ⟨⟨hone, hmost⟩, rfl, rfl, rfl, rfl⟩

/-- A label is defined after it has been found free. -/
theorem atomic_define (tokens : List Datum) :
    Atomic (define tokens) l (l.Answers (.label tokens)) := by
  refine .check fun name _ => .read (.check fun label _ => ?_)
  split
  · exact .fail _
  · rename_i hfree
    exact .defined tokens (Option.not_isSome_iff_eq_none.mp hfree)

end Pass

/-- Every call fails without a change, or does one of the things that calls do. -/
theorem Call.atomic_perform (c : Call) (l : Layout) : Pass.Atomic c.perform l (l.Answers c) := by
  cases c with
  | enter space => exact .entered space
  | issue i => exact Pass.atomic_issue _ i
  | fixed member => exact .check fun i _ => Pass.atomic_issue _ i
  | dup n => exact Pass.atomic_issue _ _
  | swap n => exact Pass.atomic_issue _ _
  | byte tokens =>
    exact .check fun text _ => .check fun n _ => .check fun i _ => Pass.atomic_issue _ i
  | push tokens =>
    refine .check fun keyword _ => .check fun width _ => .check fun operand _ => ?_
    split
    · exact .check fun i _ => Pass.atomic_issue _ i
    · exact .check fun path _ => Pass.atomic_refer _ _ path
  | label tokens => exact Pass.atomic_define tokens
  | refer width tokens => exact Pass.atomic_refer _ width tokens
  | reject tokens => exact .check fun text _ => .fail _

/-- A call leaves a layout as it is, or it makes of it what calls make of layouts. -/
theorem Call.leave_cases (c : Call) (l : Layout) : c.leave l = l ∨ l.Answers c (c.leave l) := by
  have h := c.atomic_perform l
  rw [Pass.Atomic] at h
  rw [Call.leave]
  cases hrun : EStateM.run c.perform l with
  | ok _ next =>
    rw [hrun] at h
    exact Or.inr h
  | error e left =>
    rw [hrun] at h
    exact Or.inl h

/-- A label keeps its offset through a call. -/
theorem Call.lookup_leave (c : Call) {l : Layout} {label : String} {offset : Nat}
    (h : l.labels.lookup label = some offset) :
    (c.leave l).labels.lookup label = some offset := by
  rcases c.leave_cases l with hleave | hanswers
  · rw [hleave, h]
  · generalize c.leave l = next at hanswers
    cases hanswers with
    | entered space => exact h
    | placed _ hadds => rw [hadds.labels, h]
    | defined tokens hfree =>
      -- The new label is another one, for it had no offset.
      rename_i new
      have hne : (label == new) = false := by
        rw [beq_eq_false_iff_ne]
        rintro rfl
        rw [h] at hfree
        cases hfree
      rw [List.lookup_cons, hne, h]

/-! ### Runs -/

namespace Layout

/-- The three parts of a layout agree. -/
structure Balanced (l : Layout) : Prop where
  fits : ∀ p ∈ l.placed, p.Fits
  offset : l.offset = (l.placed.map Placement.extent).sum
  distinct : (l.labels.map Prod.fst).Nodup

/-- A balanced layout has its offset as its size. -/
theorem Balanced.size {l : Layout} (h : l.Balanced) : l.size = .ok l.offset := by
  have hsizes : l.placements.mapM Placement.size = .ok (l.placements.map Placement.extent) := by
    rw [mapM_eq_ok_iff, List.forall₂_map_right_iff, List.forall₂_same]
    intro p hp
    exact (h.fits p (List.mem_reverse.mp hp)).size
  rw [Layout.size, hsizes, h.offset, placements, List.map_reverse]
  exact congrArg Except.ok (List.sum_reverse _)

/-- A call keeps a layout balanced. -/
theorem Balanced.leave {l : Layout} (h : l.Balanced) (c : Call) : (c.leave l).Balanced := by
  rcases c.leave_cases l with hleave | hanswers
  · rwa [hleave]
  · generalize c.leave l = next at hanswers
    cases hanswers with
    | entered space => exact ⟨h.fits, h.offset, h.distinct⟩
    | placed _ hadds =>
      refine ⟨?_, ?_, ?_⟩
      · rw [hadds.placed, List.forall_mem_cons]
        exact ⟨hadds.fits, h.fits⟩
      · rw [hadds.placed, hadds.offset, h.offset, List.map_cons, List.sum_cons, Nat.add_comm]
      · rw [hadds.labels]
        exact h.distinct
    | defined tokens hfree =>
      refine ⟨h.fits, h.offset, List.nodup_cons.mpr ⟨?_, h.distinct⟩⟩
      rw [List.lookup_eq_none_iff] at hfree
      rintro hmem
      obtain ⟨d, hd, heq⟩ := List.mem_map.mp hmem
      simpa [heq] using hfree d hd

/-- Before any call the layout is empty. -/
@[simp] theorem after_nil : after [] = .empty := rfl

/-- A further call starts from what those before it have left. -/
theorem after_append_singleton (calls : List Call) (c : Call) :
    after (calls ++ [c]) = c.leave (after calls) := by
  rw [after, List.foldl_append]
  rfl

/-- Every run of calls leaves a balanced layout. -/
theorem balanced_after (calls : List Call) : (after calls).Balanced := by
  induction calls using List.reverseRecOn with
  | nil => exact ⟨by simp [empty], rfl, List.nodup_nil⟩
  | append_singleton calls c ih =>
    rw [after_append_singleton]
    exact ih.leave c

/-- A label keeps its offset through all later calls. -/
theorem lookup_after_append {calls : List Call} {label : String} {offset : Nat}
    (h : (after calls).labels.lookup label = some offset) (later : List Call) :
    (after (calls ++ later)).labels.lookup label = some offset := by
  induction later using List.reverseRecOn with
  | nil => rwa [List.append_nil]
  | append_singleton later c ih =>
    rw [← List.append_assoc, after_append_singleton]
    exact c.lookup_leave ih

/-- Whatever label there is after a run has been defined by one of its calls, at the offset of that
moment, and was free before it. -/
theorem exists_define_of_lookup {calls : List Call} {label : String} {offset : Nat}
    (h : (after calls).labels.lookup label = some offset) :
    ∃ before tokens later, calls = before ++ .label tokens :: later ∧
      (after before).labels.lookup label = none ∧ (after before).offset = offset ∧
      (after (before ++ [.label tokens])).labels.lookup label = some offset := by
  induction calls using List.reverseRecOn with
  | nil => cases h
  | append_singleton calls c ih =>
    -- Where the last call has not defined the label, it was there before it.
    have hearlier : (after calls).labels.lookup label = some offset →
        ∃ before tokens later, calls ++ [c] = before ++ .label tokens :: later ∧
          (after before).labels.lookup label = none ∧ (after before).offset = offset ∧
          (after (before ++ [.label tokens])).labels.lookup label = some offset := by
      intro hcalls
      obtain ⟨before, tokens, later, rfl, hdefined⟩ := ih hcalls
      exact ⟨before, tokens, later ++ [c], by simp, hdefined⟩
    have hlast := h
    rw [after_append_singleton] at h
    rcases c.leave_cases (after calls) with hleave | hanswers
    · exact hearlier (hleave ▸ h)
    · generalize c.leave (after calls) = next at h hanswers
      cases hanswers with
      | entered space => exact hearlier h
      | placed _ hadds => exact hearlier (hadds.labels ▸ h)
      | @defined tokens new hfree =>
        rw [List.lookup_cons] at h
        by_cases hnew : label = new
        · subst hnew
          rw [beq_self_eq_true] at h
          exact ⟨calls, tokens, [], rfl, hfree, Option.some.inj h, hlast⟩
        · rw [beq_eq_false_iff_ne.mpr hnew] at h
          exact hearlier h

end Layout

/-- What is on record in the layout that a run of calls leaves. -/
structure Account (calls : List Call) (l : Layout) : Prop where
  /-- The offset is the size of everything placed. -/
  measured : l.size = .ok l.offset
  /-- Every instruction that is placed has bytes. -/
  encodable : ∀ i, .instruction i ∈ l.placements → ∃ bytes, i.encode = .ok bytes
  /-- Every reference that is placed has a width that a push can have. -/
  width : ∀ w label, .reference w label ∈ l.placements → 1 ≤ w ∧ w ≤ 32
  /-- No label is there twice. -/
  distinct : (l.labels.map Prod.fst).Nodup
  /-- A label has been defined by one of the calls, and its offset is the size of what was placed
  at that moment. -/
  labelled : ∀ label offset, l.labels.lookup label = some offset →
    ∃ before tokens later, calls = before ++ .label tokens :: later ∧
      (Layout.after before).labels.lookup label = none ∧
      (Layout.after before).size = .ok offset ∧
      (Layout.after (before ++ [.label tokens])).labels.lookup label = some offset
  /-- A label keeps its offset, whatever is called next. -/
  lasting : ∀ label offset, l.labels.lookup label = some offset →
    ∀ later, (Layout.after (calls ++ later)).labels.lookup label = some offset
  /-- A call that fails leaves everything as it was. -/
  failed : ∀ (c : Call) (e : Error) (left : Layout), c.perform.run l = .error e left → left = l

/-- The first pass keeps its books through every run of calls, whatever their arguments are and
whichever of them fail. -/
theorem Layout.account_after (calls : List Call) : Account calls (after calls) := by
  have hbalanced := balanced_after calls
  have hfits : ∀ p ∈ (after calls).placements, p.Fits :=
    fun p hp => hbalanced.fits p (List.mem_reverse.mp hp)
  refine ⟨hbalanced.size, fun i hi => hfits _ hi, fun w label hw => hfits _ hw,
    hbalanced.distinct, ?_, fun label offset hlabel => lookup_after_append hlabel, ?_⟩
  · intro label offset hlabel
    obtain ⟨before, tokens, later, hcalls, hfree, hoffset, hdefined⟩ :=
      exists_define_of_lookup hlabel
    exact ⟨before, tokens, later, hcalls, hfree, hoffset ▸ (balanced_after before).size, hdefined⟩
  · intro c e left hrun
    have hatomic := c.atomic_perform (after calls)
    rw [Pass.Atomic, hrun] at hatomic
    exact hatomic

/-- Three of these calls fail: the value is too large, the reference too wide, the label taken. -/
example :
    let l := Layout.after [.push [.text "push1", .text "0x100"], .label [.text "top"],
      .refer (.int 33) [.text "top"], .refer (.int 1) [.text "top"], .label [.text "top"]]
    (l.offset, l.placed.length, l.labels) = (2, 1, [("<global>::top", 0)]) := by
  decide +kernel

/-! ### The calls of the assembler -/

/-- How a program on a layout ends if the layout is to be answered so. -/
def Layout.answered (l : Layout) : Except Error Layout → EStateM.Result Error Layout Unit
  | .ok next => .ok () next
  | .error e => .error e l

namespace Pass

/-- Placing an instruction ends as the layout answers it. -/
theorem run_issue (i : Instruction) (l : Layout) :
    (issue i).run l = l.answered (l.issue i) := by
  rw [Layout.issue, issue]
  cases i.size with
  | error e => rfl
  | ok width =>
    cases i.mnemonic with
    | error e => rfl
    | ok mnemonic => rfl

/-- Placing an instruction that has yet to be built. -/
theorem run_check_issue (x : Except Error Instruction) (l : Layout) :
    (ofExcept x >>= issue).run l = l.answered (x.bind l.issue) := by
  cases x with
  | error e => rfl
  | ok i => exact run_issue i l

/-- A reference ends as the layout answers it, whether its path names one part or two. -/
theorem run_refer (width : Datum) (path : Source.LabelPath) (l : Layout) :
    (refer width (path.map .text)).run l = l.answered (l.refer width path) := by
  have htarget : l.target (path.map .text) = l.resolve path := by
    match path with
    | [] => rfl
    | [name] => rfl
    | space :: name :: rest => rfl
  rw [Layout.refer, refer]
  cases indexWithin? maxPushBytes width with
  | none => rfl
  | some w =>
    show EStateM.run (ofExcept (l.target _) >>= _) l = _
    rw [htarget]
    cases l.resolve path with
    | error e => rfl
    | ok label => rfl

/-- A definition ends as the layout answers it, with the layout as it was where the label is
taken. -/
theorem run_define (name : String) (l : Layout) :
    (define [.text name]).run l = l.answered (l.define name) := by
  rw [Layout.define]
  show EStateM.run (if (l.labels.lookup (Layout.qualified l.space name)).isSome then _ else _) l = _
  split
  · rfl
  · rfl

end Pass

/-- The call for an action does what the layout answers to the action. -/
theorem Call.run_ofAction (a : Source.Action) (l : Layout) :
    (ofAction a).perform.run l = l.answered (l.perform a) := by
  cases a with
  | opcode op => exact Pass.run_issue _ l
  | dup n => exact Pass.run_issue _ l
  | swap n => exact Pass.run_issue _ l
  | byte literal =>
    show _ = l.answered (l.issueByte literal)
    rw [Layout.issueByte]
    show EStateM.run (ofExcept (Layout.ofReading _) >>= _) l = _
    cases Layout.ofReading (Text.readInteger literal.toList) with
    | error e => rfl
    | ok n => exact Pass.run_check_issue _ l
  | push keyword operand =>
    show _ = l.answered (l.issuePush keyword operand)
    rw [Layout.issuePush]
    cases operand with
    | literal text =>
      show EStateM.run (ofExcept (Layout.keywordWidth keyword) >>= _) l = _
      cases Layout.keywordWidth keyword with
      | error e => rfl
      | ok width => exact Pass.run_check_issue _ l
    | reference path =>
      show EStateM.run (ofExcept (Layout.keywordWidth keyword) >>= _) l = _
      cases Layout.keywordWidth keyword with
      | error e => rfl
      | ok width => exact Pass.run_refer _ path l
  | label name => exact Pass.run_define name l
  | unknown text => rfl

/-- So performing actions is making their calls, one after another up to the first failure. -/
theorem Call.run_forM_ofAction (actions : List Source.Action) (l : Layout) :
    EStateM.run (actions.forM fun a => (ofAction a).perform) l =
      match l.performAll actions with
      | (next, none) => .ok () next
      | (left, some e) => .error e left := by
  induction actions generalizing l with
  | nil => rfl
  | cons a actions ih =>
    have hrun : (ofAction a).perform l = l.answered (l.perform a) := run_ofAction a l
    show EStateM.bind _ _ l = _
    rw [EStateM.bind, hrun, Layout.performAll]
    cases l.perform a with
    | error e => rfl
    | ok next => exact ih next

end EvmAssembler
