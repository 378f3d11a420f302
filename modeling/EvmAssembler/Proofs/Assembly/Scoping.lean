import EvmAssembler.Proofs.Assembly.Escape
import EvmAssembler.Proofs.Assembly.Relocation
import Mathlib.Data.List.Duplicate

/-!
# `EvmAssembler.Proofs.Assembly.Scoping`: every label belongs to one namespace

All labels are kept in one table, under names that join a namespace and a name. A namespace is any
text, two colons included, so it is the name that keeps the table apart: the grammar takes no colon
into it, and so the last two colons of an entry are always the ones that were put there
(`qualified_inj`).

`ResolvesTo` says what a reference has become: a push of the offset of a definition, where that
definition is the only one that its namespace makes of the name. `Assembly.scoping_of_program`
finds it for every reference of every program, and says that the other namespaces have no part in
it. They may define what they like (`Script.withoutOthers` forgets it), and only a namespace's own
second definition of a name is a duplicate.
-/

set_option autoImplicit false

namespace EvmAssembler

open Source (Action LabelPath)

/-! ### Qualified names -/

/-- A list has one split at an item that is not found behind it. -/
theorem append_cons_inj_of_not_mem {α : Type} {a : α} {l₁ l₂ r₁ r₂ : List α} (h₁ : a ∉ r₁)
    (h₂ : a ∉ r₂) : l₁ ++ a :: r₁ = l₂ ++ a :: r₂ ↔ l₁ = l₂ ∧ r₁ = r₂ := by
  constructor
  · intro h
    rcases List.append_eq_append_iff.mp h with ⟨mid, rfl, htail⟩ | ⟨mid, rfl, htail⟩
    · cases mid with
      | nil => simpa using htail
      | cons b mid =>
        obtain ⟨-, rfl⟩ := List.cons.inj htail
        simp at h₁
    · cases mid with
      | nil => simpa [eq_comm] using htail
      | cons b mid =>
        obtain ⟨-, rfl⟩ := List.cons.inj htail
        simp at h₂
  · rintro ⟨rfl, rfl⟩
    rfl

/-- The grammar takes no colon into a name. -/
theorem Source.IsName.colon_not_mem {name : String} (h : IsName name) : ':' ∉ name.toList := by
  obtain ⟨c, rest, hname, hstart, hrest⟩ := h
  rw [hname, List.mem_cons]
  rintro (rfl | hmem)
  · exact absurd hstart (by decide)
  · exact absurd (hrest ':' hmem) (by decide)

/-- A qualified name determines its namespace and its name, whatever the namespace is. -/
theorem qualified_inj {space space' name name' : String} (h : Source.IsName name)
    (h' : Source.IsName name') :
    Layout.qualified space name = Layout.qualified space' name' ↔
      space = space' ∧ name = name' := by
  have htoList : ∀ s n, (Layout.qualified s n).toList = (s.toList ++ [':']) ++ ':' :: n.toList := by
    intro s n
    simp [Layout.qualified]
  rw [← String.toList_inj, htoList, htoList,
    append_cons_inj_of_not_mem h.colon_not_mem h'.colon_not_mem, List.append_left_inj,
    String.toList_inj, String.toList_inj]

/-! ### Names in scripts -/

/-- What a path means in a namespace: a lone name is one of the namespace itself, and a name behind
another is one of the namespace that the other names. -/
inductive Means (space : String) : LabelPath → String → String → Prop where
  | plain (name : String) : Means space [name] space name
  | qualified (other name : String) : Means space [other, name] other name

/-- A path means one thing in a namespace. -/
theorem Means.unique {space owner owner' name name' : String} {path : LabelPath}
    (h : Means space path owner name) (h' : Means space path owner' name') :
    owner = owner' ∧ name = name' := by
  cases h <;> cases h' <;> exact ⟨rfl, rfl⟩

/-- The target of a path is what the path means, with the namespace in front. -/
theorem Means.target_eq {space owner name : String} {path : LabelPath}
    (h : Means space path owner name) :
    LabelPath.target space path = Layout.qualified owner name := by
  cases h <;> rfl

/-- The paths of the grammar mean something, and end in a name. -/
theorem Source.IsLabelPath.exists_means {path : LabelPath} (h : IsLabelPath path) (space : String) :
    ∃ owner name, Means space path owner name ∧ IsName name := by
  cases h with
  | plain hname => exact ⟨_, _, .plain _, hname⟩
  | qualified _ hname => exact ⟨_, _, .qualified _ _, hname⟩

/-- The action defines a label with the name, or refers to one. -/
def Source.Action.Mentions (name : String) : Action → Prop
  | .label defined => defined = name
  | .push _ (.reference path) => path.getLast? = some name
  | _ => False

/-- The name is one that the grammar finds in some text. -/
def Source.IsLabelName (name : String) : Prop :=
  ∃ text found, actions text = .ok found ∧ ∃ a ∈ found, a.Mentions name

/-- The grammar makes labels and references of names only. -/
theorem Source.IsLabelName.isName {name : String} (h : IsLabelName name) : IsName name := by
  obtain ⟨text, found, hfound, a, ha, hname⟩ := h
  have hwf := isWellFormed_of_actions hfound a ha
  cases a with
  | label defined =>
    obtain rfl : defined = name := hname
    exact hwf
  | push keyword operand =>
    cases operand with
    | literal text => cases hname
    | reference path =>
      cases hwf.2 with
      | plain h => exact Option.some.inj hname ▸ h
      | qualified _ h => exact Option.some.inj hname ▸ h
  | _ => cases hname

namespace Script

/-- A script holds the actions of its units, each in the namespace of its unit, and nothing else. -/
theorem mem_ofUnits_iff {units : List SourceUnit} {script : Script} (h : ofUnits units = .ok script)
    {s : Scoped} :
    s ∈ script ↔ ∃ u ∈ units, s.space = u.space ∧
      ∃ found, Source.actions u.text.toList = .ok found ∧ s.action ∈ found := by
  induction units generalizing script with
  | nil =>
    obtain rfl := Except.ok.inj h
    simp
  | cons u units ih =>
    obtain ⟨actions, hactions, hmap⟩ := except_bind_eq_ok_iff.mp h
    obtain ⟨rest, hrest, rfl⟩ := except_map_eq_ok_iff.mp hmap
    have hfirst : s ∈ inSpace u.space actions ↔ s.space = u.space ∧
        ∃ found, Source.actions u.text.toList = .ok found ∧ s.action ∈ found := by
      rw [hactions]
      constructor
      · intro hs
        obtain ⟨a, ha, rfl⟩ := List.mem_map.mp hs
        exact ⟨rfl, actions, rfl, ha⟩
      · rintro ⟨hspace, found, hfound, ha⟩
        obtain rfl := Except.ok.inj hfound
        exact List.mem_map.mpr ⟨s.action, ha, by rw [← hspace]⟩
    rw [List.mem_append, hfirst, ih hrest, List.exists_mem_cons_iff]

/-- The names in a script of units are those of the grammar. -/
theorem isWellFormed_of_ofUnits {units : List SourceUnit} {script : Script}
    (h : ofUnits units = .ok script) : ∀ s ∈ script, s.action.IsWellFormed := by
  intro s hs
  obtain ⟨u, -, -, found, hfound, ha⟩ := (mem_ofUnits_iff h).mp hs
  exact Source.isWellFormed_of_actions hfound _ ha

variable {script : Script}

/-- So a label is defined where its own namespace defines its own name. -/
theorem qualified_mem_labels_iff (hwf : ∀ s ∈ script, s.action.IsWellFormed) {owner name : String}
    (hname : Source.IsName name) :
    Layout.qualified owner name ∈ script.labels ↔ ⟨owner, .label name⟩ ∈ script := by
  rw [mem_labels_iff]
  constructor
  · rintro ⟨space, word, hmem, heq⟩
    obtain ⟨rfl, rfl⟩ := (qualified_inj hname (hwf _ hmem)).mp heq
    exact hmem
  · intro hmem
    exact ⟨owner, name, hmem, rfl⟩

/-- A clean script holds no definition twice. -/
theorem IsClean.definition_not_mem {before after : Script} {owner name : String}
    (h : IsClean (before ++ ⟨owner, .label name⟩ :: after)) :
    ⟨owner, .label name⟩ ∉ before ∧ ⟨owner, .label name⟩ ∉ after := by
  have hbefore : ∀ {first rest : Script},
      before ++ ⟨owner, .label name⟩ :: after = first ++ ⟨owner, .label name⟩ :: rest →
        ⟨owner, .label name⟩ ∉ first := by
    intro first rest heq hmem
    have hnew := Scoped.fault?_label_eq_none_iff.mp (h first _ rest heq)
    exact hnew (mem_labels_iff.mpr ⟨owner, name, hmem, rfl⟩)
  refine ⟨hbefore rfl, fun hafter => ?_⟩
  -- The second of two definitions would have the first before it.
  obtain ⟨mid, rest, rfl⟩ := List.append_of_mem hafter
  refine @hbefore (before ++ ⟨owner, .label name⟩ :: mid) rest (by simp) ?_
  simp

/-! ### Definitions of other namespaces -/

end Script

/-- Whether the action is a definition that another namespace makes. -/
def Scoped.isOthers (owner : String) (s : Scoped) : Bool :=
  match s.action with
  | .label _ => s.space != owner
  | _ => false

namespace Script

/-- The script without the definitions that other namespaces make. -/
def withoutOthers (owner : String) (script : Script) : Script :=
  script.filter fun s => !s.isOthers owner

/-- A definition of the owner stays, and what stands around it is thinned out on both sides. -/
theorem withoutOthers_split (owner name : String) (before after : Script) :
    withoutOthers owner (before ++ ⟨owner, .label name⟩ :: after) =
      before.withoutOthers owner ++ ⟨owner, .label name⟩ :: after.withoutOthers owner := by
  rw [withoutOthers, List.filter_append, List.filter_cons, if_pos (by simp [Scoped.isOthers])]
  rfl

/-- Definitions place nothing, so the commands stay. -/
theorem commands_withoutOthers (owner : String) (script : Script) :
    (script.withoutOthers owner).commands = script.commands := by
  rw [commands, withoutOthers, List.filterMap_filter]
  refine List.filterMap_congr fun s _ => ?_
  obtain ⟨space, action⟩ := s
  cases action with
  | label name => simp [Scoped.command?]
  | _ => rfl

/-- And with them the bytes that they take. -/
theorem extent_withoutOthers (owner : String) (script : Script) :
    (script.withoutOthers owner).extent = script.extent := by
  rw [extent, commands_withoutOthers, extent]

/-- Scripts that differ in the definitions of other namespaces make a definition at the same place,
and as many bytes stand before it. -/
theorem IsClean.split_eq {owner name : String} {before after before' after' : Script}
    (h : IsClean (before ++ ⟨owner, .label name⟩ :: after))
    (heq : withoutOthers owner (before ++ ⟨owner, .label name⟩ :: after) =
      withoutOthers owner (before' ++ ⟨owner, .label name⟩ :: after')) :
    before.withoutOthers owner = before'.withoutOthers owner ∧ before.extent = before'.extent := by
  obtain ⟨hbefore, hafter⟩ := h.definition_not_mem
  have hsub : ∀ part : Script, part.withoutOthers owner ⊆ part :=
    fun part => List.filter_subset_self _
  rw [withoutOthers_split, withoutOthers_split, eq_comm] at heq
  have hsame := ((List.append_cons_inj_of_notMem (fun hmem => hbefore (hsub _ hmem))
    fun hmem => hafter (hsub _ hmem)).mp heq.symm).1
  refine ⟨hsame, ?_⟩
  rw [← extent_withoutOthers owner before, hsame, extent_withoutOthers]

end Script

/-! ### Resolved references -/

/-- The command at an index has become a push of the place of a definition: so many bytes does the
program have before it. The namespace makes no other definition of the name. -/
structure ResolvesTo (script : Script) (p : Program) (index : Nat) (owner name : String)
    (earlier later : Script) : Prop where
  split : script = earlier ++ ⟨owner, .label name⟩ :: later
  only : ⟨owner, .label name⟩ ∉ earlier ∧ ⟨owner, .label name⟩ ∉ later
  pushed : ∃ data, p[index]? = some (.push data) ∧
    Program.size (p.take earlier.commands.length) = .ok (Immediate.toNat data)

section
variable {labels labels' : List (String × Nat)}

/-- The instruction that keeps a command has the index of the command. -/
theorem exists_getElem?_of_kept {before after : List Placement} {c : Placement} {p : Program}
    (h : List.Forall₂ (Kept labels) (before ++ c :: after) p) :
    ∃ i, p[before.length]? = some i ∧ Kept labels c i := by
  have hdrop := List.forall₂_drop before.length h
  rw [List.drop_left] at hdrop
  obtain ⟨i, rest, hi, -, hp⟩ := List.forall₂_cons_left_iff.mp hdrop
  refine ⟨i, ?_, hi⟩
  rw [← Nat.add_zero before.length, ← List.getElem?_drop, hp]
  rfl

/-- A reference is kept by the same push wherever its label has the same offset. -/
theorem Kept.of_lookup_eq {width : Nat} {label : String} {i : Instruction}
    (h : Kept labels (.reference width label) i)
    (heq : labels'.lookup label = labels.lookup label) :
    Kept labels' (.reference width label) i := by
  cases h with
  | reference hlookup hlen => exact .reference (heq.trans hlookup) hlen

end

namespace Assembly

variable {units units' : List SourceUnit} {script script' : Script} {p p' : Program}

/-- In a program of units a reference has become the push that keeps it, and that is of the place
where the namespace defines the name. -/
theorem exists_resolvesTo (hscript : Script.ofUnits units = .ok script) (h : program units = .ok p)
    {before after : List Placement} {width : Nat} {owner name : String} (hname : Source.IsName name)
    (hcommands : script.commands =
      before ++ .reference width (Layout.qualified owner name) :: after) :
    ∃ earlier later i, ResolvesTo script p before.length owner name earlier later ∧
      p[before.length]? = some i ∧
        Kept script.definitions (.reference width (Layout.qualified owner name)) i := by
  obtain ⟨_, l, hscript', -, hlaid, hclean, hkept⟩ := exists_laid_of_program h
  obtain rfl := Except.ok.inj (hscript.symm.trans hscript')
  have hlocated := (hlaid.agreement hclean hkept).located
  rw [hcommands] at hkept
  obtain ⟨i, hi, hkeeps⟩ := exists_getElem?_of_kept hkept
  cases hkeeps with
  | @reference _ _ data hlookup hlen =>
    -- A reference is kept by an offset, and only definitions have one.
    have hmem : Layout.qualified owner name ∈ script.labels := by
      obtain ⟨d₁, d₂, hdefinitions, -⟩ := List.lookup_eq_some_iff.mp hlookup
      simp [Script.labels, hdefinitions]
    have hwf := Script.isWellFormed_of_ofUnits hscript
    obtain ⟨earlier, later, hsplit⟩ :=
      List.append_of_mem ((Script.qualified_mem_labels_iff hwf hname).mp hmem)
    obtain ⟨offset, hoffset, hsize, -⟩ := hlocated earlier owner name later hsplit
    rw [hlaid.lookup_eq hclean, hlookup] at hoffset
    obtain rfl := Option.some.inj hoffset
    have honly := (hsplit ▸ hclean).definition_not_mem
    exact ⟨earlier, later, _, ⟨hsplit, honly, data, hi, hsize⟩, hi, .reference hlookup hlen⟩

/-- Units that assemble to a program, and whose script is the given one but for definitions of
namespaces other than the owner. -/
structure Variant (owner : String) (script : Script) (units' : List SourceUnit) (script' : Script)
    (p' : Program) : Prop where
  scripted : Script.ofUnits units' = .ok script'
  assembles : program units' = .ok p'
  same : script'.withoutOthers owner = script.withoutOthers owner

/-- Definitions of other namespaces do not matter to a reference: it stays the same push, and what
it is resolved to stays where it is. -/
theorem Variant.resolvesTo {before after : List Placement} {width : Nat} {owner name : String}
    {earlier later : Script} (hvariant : Variant owner script units' script' p')
    (hscript : Script.ofUnits units = .ok script) (h : program units = .ok p)
    (hname : Source.IsName name)
    (hcommands : script.commands =
      before ++ .reference width (Layout.qualified owner name) :: after)
    (hresolves : ResolvesTo script p before.length owner name earlier later) :
    p'[before.length]? = p[before.length]? ∧
      ∃ earlier' later', ResolvesTo script' p' before.length owner name earlier' later' ∧
        earlier'.withoutOthers owner = earlier.withoutOthers owner := by
  obtain ⟨-, -, i, -, hi, hkept⟩ := exists_resolvesTo hscript h hname hcommands
  -- The commands are the same, so the variant has the reference at the same index.
  have hcommands' : script'.commands =
      before ++ .reference width (Layout.qualified owner name) :: after := by
    rw [← hcommands, ← Script.commands_withoutOthers owner script', hvariant.same,
      Script.commands_withoutOthers]
  obtain ⟨earlier', later', i', hresolves', hi', hkept'⟩ :=
    exists_resolvesTo hvariant.scripted hvariant.assembles hname hcommands'
  obtain ⟨hclean, -⟩ := (program_eq_ok_iff hscript).mp h
  obtain ⟨hclean', -⟩ := (program_eq_ok_iff hvariant.scripted).mp hvariant.assembles
  have hsame := hvariant.same
  rw [hresolves.split] at hclean hkept hsame
  rw [hresolves'.split] at hclean' hkept' hsame
  obtain ⟨hearlier, hextent⟩ := hclean'.split_eq hsame
  -- Both definitions have as many bytes before them, so both references are kept by one push.
  have hlookup := hclean.lookup_label.trans (congrArg some hextent.symm)
  have hmoved := hkept'.of_lookup_eq (hlookup.trans hclean'.lookup_label.symm)
  refine ⟨?_, earlier', later', hresolves', hearlier⟩
  rw [hi, hi', hmoved.unique hkept]

end Assembly

/-! ### Duplicates -/

/-- A literal is refused for its size or its spelling, and never as a label. -/
theorem literalRefusal?_ne_duplicateLabel (text : List Char) (width : Option Nat) (label : String) :
    literalRefusal? text width ≠ some (.duplicateLabel label) := by
  cases width <;> grind [literalRefusal?]

/-- No action is a duplicate on its own. -/
theorem Source.Action.refusal?_ne_duplicateLabel (a : Action) (label : String) :
    a.refusal? ≠ some (.duplicateLabel label) := by
  cases a with
  | push keyword operand =>
    cases operand <;> grind [Action.refusal?, literalRefusal?_ne_duplicateLabel]
  | _ => grind [Action.refusal?]

/-- What is a duplicate is a definition of a label that is there already. -/
theorem Scoped.exists_label_of_fault? {s : Scoped} {defined : List String} {label : String}
    (h : s.fault? defined = some (.duplicateLabel label)) :
    ∃ name, s.action = .label name ∧ label = Layout.qualified s.space name ∧ label ∈ defined := by
  have hcommand : s.action.refusal?.map Error.raised ≠ some (.duplicateLabel label) := by
    intro hrefusal
    obtain ⟨e, he, hraised⟩ := Option.map_eq_some_iff.mp hrefusal
    rw [Error.raised] at hraised
    split at hraised
    · exact s.action.refusal?_ne_duplicateLabel label (hraised ▸ he)
    · cases hraised
  obtain ⟨space, action⟩ := s
  cases action with
  | label name =>
    rw [fault?] at h
    dsimp only at h
    split at h
    · rename_i hmem
      cases h
      exact ⟨name, rfl, rfl, hmem⟩
    · cases h
  | _ => exact absurd h hcommand

/-- A script fails for a duplicate only where one namespace defines one name twice. -/
theorem Script.FailsFirst.exists_duplicate {script : Script} {label : String}
    (h : script.FailsFirst (.duplicateLabel label))
    (hwf : ∀ s ∈ script, s.action.IsWellFormed) :
    ∃ owner name, label = Layout.qualified owner name ∧
      List.Duplicate ⟨owner, .label name⟩ script := by
  -- The label has been defined before, and only its own namespace can have done that.
  obtain ⟨before, ⟨owner, action⟩, after, rfl, -, hfault⟩ := h
  obtain ⟨name, rfl, rfl, hmem⟩ := Scoped.exists_label_of_fault? hfault
  have hname : Source.IsName name := hwf ⟨owner, .label name⟩ (by simp)
  have hwf' : ∀ s ∈ before, s.action.IsWellFormed := fun s hs => hwf s (List.mem_append_left _ hs)
  have hbefore := (qualified_mem_labels_iff hwf' hname).mp hmem
  refine ⟨owner, name, rfl, List.duplicate_iff_sublist.mpr ?_⟩
  exact (List.singleton_sublist.mpr hbefore).append (List.singleton_sublist.mpr List.mem_cons_self)

/-- Units fail for a duplicate only where one namespace defines one name twice. -/
theorem Assembly.exists_duplicate {units : List SourceUnit} {label : String}
    (h : program units = .error (.duplicateLabel label)) :
    ∃ before after script owner name, units = before ++ after ∧
      Script.ofUnits before = .ok script ∧ label = Layout.qualified owner name ∧
        List.Duplicate ⟨owner, .label name⟩ script := by
  have hread : ∃ before after script, units = before ++ after ∧
      Script.ofUnits before = .ok script ∧ script.FailsFirst (.duplicateLabel label) := by
    rcases exists_script_or_unreadable units with
      ⟨script, hscript⟩ | ⟨before, u, after, script, e, rfl, hscript, hu⟩
    · rcases (program_eq_error_iff hscript).mp h with hfails | ⟨_, _, _, _, _, _, hbroken⟩
      · exact ⟨units, [], script, (List.append_nil units).symm, hscript, hfails⟩
      · -- A missing label is none, and neither is an offset that does not fit or cannot be shown.
        generalize hd : Error.duplicateLabel label = d at hbroken
        cases hbroken with
        | undefined _ => cases hd
        | truncated _ _ =>
          rw [Error.raised] at hd
          split at hd <;> cases hd
    · by_cases hclean : script.IsClean
      · rw [program_of_unreadable hscript hclean hu] at h
        obtain rfl := Except.error.inj h
        cases Source.actions_eq_error_iff.mp hu
      · obtain ⟨e, hfails, -⟩ := exists_failed hscript hclean
        rw [program_of_failsFirst hscript hfails] at h
        obtain rfl := Except.error.inj h
        exact ⟨before, u :: after, script, rfl, hscript, hfails⟩
  obtain ⟨before, after, script, hunits, hscript, hfails⟩ := hread
  obtain ⟨owner, name, hlabel, hduplicate⟩ :=
    hfails.exists_duplicate (Script.isWellFormed_of_ofUnits hscript)
  exact ⟨before, after, script, owner, name, hunits, hscript, hlabel, hduplicate⟩

/-! ### Scoping -/

namespace Assembly

/-- Every reference belongs to one namespace, its own unless its path names another. It has become a
push of the place of the one definition that this namespace makes of the name, and stays that push
when other namespaces define more or less. The entries of the table keep namespaces and names apart,
and no two namespaces share a duplicate. -/
theorem scoping_of_program {units : List SourceUnit} {p : Program} (h : program units = .ok p) :
    ∃ script, Script.ofUnits units = .ok script ∧
      (∀ s, s ∈ script ↔ ∃ u ∈ units, s.space = u.space ∧
        ∃ found, Source.actions u.text.toList = .ok found ∧ s.action ∈ found) ∧
      (∀ (before : Script) (space keyword : String) (path : LabelPath) (after : Script),
        script = before ++ ⟨space, .push keyword (.reference path)⟩ :: after →
          ∃ owner name earlier later, Means space path owner name ∧
            ResolvesTo script p before.commands.length owner name earlier later ∧
            ∀ units' script' p', Variant owner script units' script' p' →
              p'[before.commands.length]? = p[before.commands.length]? ∧
                ∃ earlier' later',
                  ResolvesTo script' p' before.commands.length owner name earlier' later' ∧
                    earlier'.withoutOthers owner = earlier.withoutOthers owner) ∧
      (∀ space space' name name', Source.IsLabelName name → Source.IsLabelName name' →
        (Layout.qualified space name = Layout.qualified space' name' ↔
          space = space' ∧ name = name')) ∧
      ∀ others label, program others = .error (.duplicateLabel label) →
        ∃ before after script owner name, others = before ++ after ∧
          Script.ofUnits before = .ok script ∧ label = Layout.qualified owner name ∧
            List.Duplicate ⟨owner, .label name⟩ script := by
  obtain ⟨script, -, hscript, -⟩ := exists_laid_of_program h
  have hwf := Script.isWellFormed_of_ofUnits hscript
  refine ⟨script, hscript, fun s => Script.mem_ofUnits_iff hscript, ?_,
    fun _ _ _ _ hname hname' => qualified_inj hname.isName hname'.isName,
    fun _ _ => exists_duplicate⟩
  intro before space keyword path after hsplit
  obtain ⟨owner, name, hmeans, hname⟩ :=
    (hwf ⟨space, .push keyword (.reference path)⟩ (by simp [hsplit])).2.exists_means space
  have hcommands : script.commands = before.commands ++
      .reference ((pushWidth? keyword).getD Layout.defaultReferenceWidth)
        (Layout.qualified owner name) :: after.commands := by
    rw [hsplit, Script.commands_append, ← hmeans.target_eq]
    rfl
  obtain ⟨earlier, later, -, hresolves, -⟩ := exists_resolvesTo hscript h hname hcommands
  exact ⟨owner, name, earlier, later, hmeans, hresolves, fun _ _ _ hvariant =>
    hvariant.resolvesTo hscript h hname hcommands hresolves⟩

/-- Two units that define the same name, one of them in a namespace with colons of its own. -/
def nested : List SourceUnit :=
  [⟨"a", none, "c: jumpdest"⟩, ⟨"a::b", none, "c: jumpdest\npush1 &c"⟩]

/-- The same, but what the first unit defines is another name, at another place. -/
def renamed : List SourceUnit :=
  [⟨"a", none, "jumpdest\nb:"⟩, ⟨"a::b", none, "c: jumpdest\npush1 &c"⟩]

/-- The reference goes to the definition of its own unit, the second byte, in both. -/
theorem scoping_of_nested :
    ∃ p p' script script' earlier later, program nested = .ok p ∧ program renamed = .ok p' ∧
      p.code = .ok [0x5B, 0x5B, 0x60, 0x01] ∧ Script.ofUnits nested = .ok script ∧
      Script.ofUnits renamed = .ok script' ∧ ResolvesTo script p 2 "a::b" "c" earlier later ∧
      p'[2]? = p[2]? ∧ ∃ earlier' later', ResolvesTo script' p' 2 "a::b" "c" earlier' later' ∧
        earlier'.withoutOthers "a::b" = earlier.withoutOthers "a::b" := by
  have hcode : (code nested).toOption = some [0x5B, 0x5B, 0x60, 0x01] := by decide +kernel
  have hcode' : (code renamed).toOption = some [0x5B, 0x5B, 0x60, 0x01] := by decide +kernel
  have hread : (Script.ofUnits nested).toOption = some
      [⟨"a", .label "c"⟩, ⟨"a", .opcode .JUMPDEST⟩, ⟨"a::b", .label "c"⟩,
        ⟨"a::b", .opcode .JUMPDEST⟩, ⟨"a::b", .push "push1" (.reference ["c"])⟩] := by
    decide +kernel
  have hread' : (Script.ofUnits renamed).toOption = some
      [⟨"a", .opcode .JUMPDEST⟩, ⟨"a", .label "b"⟩, ⟨"a::b", .label "c"⟩,
        ⟨"a::b", .opcode .JUMPDEST⟩, ⟨"a::b", .push "push1" (.reference ["c"])⟩] := by
    decide +kernel
  obtain ⟨p, hp, hbytes⟩ := except_bind_eq_ok_iff.mp (eq_ok_of_toOption hcode)
  obtain ⟨p', hp', -⟩ := except_bind_eq_ok_iff.mp (eq_ok_of_toOption hcode')
  obtain ⟨script, hscript, -, hresolved, -⟩ := scoping_of_program hp
  obtain rfl := Except.ok.inj (hscript.symm.trans (eq_ok_of_toOption hread))
  obtain ⟨owner, name, earlier, later, hmeans, hresolves, hvariants⟩ := hresolved
    [⟨"a", .label "c"⟩, ⟨"a", .opcode .JUMPDEST⟩, ⟨"a::b", .label "c"⟩, ⟨"a::b", .opcode .JUMPDEST⟩]
    "a::b" "push1" ["c"] [] rfl
  obtain ⟨rfl, rfl⟩ := hmeans.unique (.plain "c")
  obtain ⟨hpush, hsame⟩ := hvariants renamed _ p' ⟨eq_ok_of_toOption hread', hp', rfl⟩
  exact ⟨p, p', _, _, earlier, later, hp, hp', hbytes, hscript, eq_ok_of_toOption hread', hresolves,
    hpush, hsame⟩

end Assembly

end EvmAssembler
