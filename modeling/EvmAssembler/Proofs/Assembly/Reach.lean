import EvmAssembler.Proofs.Assembly.Scoping
import EvmAssembler.Proofs.Source.Reference

/-!
# `EvmAssembler.Proofs.Assembly.Reach`: which labels can be referred to from elsewhere

The table of labels takes any namespace, and a unit may go by any name and be in any package. A
reference is less free: the grammar takes a name for its namespace, without dots. `RefersTo` is
about all texts that have a reference, and `RefersTo.isName_owner` about what they can mean.

So the labels of a unit in a package are out of reach for other namespaces, and so are those of a
unit with a dot in its name. `reach_iff` says that all others are in reach: the line that refers to
such a label can stand on top of any unit, and behind a program it adds one push.
-/

set_option autoImplicit false

namespace EvmAssembler

open Source (Action LabelPath IsName referenceLine referencePush)

/-- The text of the unit defines the name. -/
def SourceUnit.Defines (u : SourceUnit) (name : String) : Prop :=
  ∃ found, Source.actions u.text.toList = .ok found ∧ .label name ∈ found

/-- A text has a reference which means, in a namespace, what the owner makes of the name. -/
def RefersTo (space text owner name : String) : Prop :=
  ∃ found keyword path, Source.actions text.toList = .ok found ∧
    .push keyword (.reference path) ∈ found ∧
      LabelPath.target space path = Layout.qualified owner name

/-- The unit with a line on top of its text. -/
def SourceUnit.under (line : String) (u : SourceUnit) : SourceUnit :=
  { u with text := line ++ "\n" ++ u.text }

/-! ### Names -/

/-- The grammar takes no dot into a name. -/
theorem Source.IsName.dot_not_mem {name : String} (h : IsName name) : '.' ∉ name.toList :=
  fun hmem => absurd (h.isNameRest '.' hmem) (by decide)

/-- So a namespace is a name only where there is no package. -/
theorem isName_space_iff {u : SourceUnit} :
    IsName u.space ↔ u.package = none ∧ IsName u.module := by
  obtain ⟨module, package, text⟩ := u
  cases package with
  | none => exact (and_iff_right rfl).symm
  | some package =>
    constructor
    · intro h
      refine absurd ?_ h.dot_not_mem
      simp [SourceUnit.space]
    · rintro ⟨hnone, -⟩
      cases hnone

/-- What a unit defines has been read by the grammar, so it is a name. -/
theorem SourceUnit.Defines.isName {u : SourceUnit} {name : String} (h : u.Defines name) :
    IsName name := by
  obtain ⟨found, hfound, hmem⟩ := h
  exact Source.isWellFormed_of_actions hfound _ hmem

/-! ### References from elsewhere -/

section
variable {space text owner name : String}

/-- Whatever the text, its references to other namespaces have a name for the namespace. -/
theorem RefersTo.isName_owner (h : RefersTo space text owner name) (hname : IsName name)
    (hne : space ≠ owner) : IsName owner := by
  obtain ⟨found, keyword, path, hfound, hmem, htarget⟩ := h
  have hpath : Source.IsLabelPath path := (Source.isWellFormed_of_actions hfound _ hmem).2
  cases hpath with
  | plain hplain => exact absurd ((qualified_inj hplain hname).mp htarget).1 hne
  | qualified hspace hlabel =>
    rw [← ((qualified_inj hlabel hname).mp htarget).1]
    exact hspace

/-- And any name will do for it. -/
theorem refersTo_referenceLine {width : Nat} (hwidth : width < 100) (howner : IsName owner)
    (hname : IsName name) (space : String) :
    RefersTo space (referenceLine width owner name) owner name :=
  ⟨_, _, _, Source.actions_referenceLine hwidth howner hname, List.mem_singleton_self _, rfl⟩

end

namespace Assembly

variable {units : List SourceUnit} {p : Program}

/-- What a definition of a unit becomes in the script of all. -/
theorem exists_split_of_defines {script : Script} {u : SourceUnit} {name : String}
    (hscript : Script.ofUnits units = .ok script) (hu : u ∈ units) (h : u.Defines name) :
    ∃ earlier later, script = earlier ++ ⟨u.space, .label name⟩ :: later := by
  obtain ⟨found, hfound, hmem⟩ := h
  exact List.append_of_mem ((Script.mem_ofUnits_iff hscript).mpr ⟨u, hu, rfl, found, hfound, hmem⟩)

/-- Where a text refers to a label, the push in its place is the offset of the label. -/
theorem exists_resolvesTo_of_refersTo (h : program units = .ok p) {u : SourceUnit} (hu : u ∈ units)
    {owner name : String} (hname : IsName name) (hrefers : RefersTo u.space u.text owner name) :
    ∃ (script before : Script) (keyword : String) (path : LabelPath)
      (after earlier later : Script), Script.ofUnits units = .ok script ∧
      script = before ++ ⟨u.space, .push keyword (.reference path)⟩ :: after ∧
        ResolvesTo script p before.commands.length owner name earlier later := by
  obtain ⟨script, -, hscript, -⟩ := exists_laid_of_program h
  obtain ⟨found, keyword, path, hfound, hmem, htarget⟩ := hrefers
  obtain ⟨before, after, hsplit⟩ : ∃ before after : Script,
      script = before ++ ⟨u.space, .push keyword (.reference path)⟩ :: after :=
    List.append_of_mem ((Script.mem_ofUnits_iff hscript).mpr ⟨u, hu, rfl, found, hfound, hmem⟩)
  have hcommands : script.commands = before.commands ++
      .reference ((pushWidth? keyword).getD Layout.defaultReferenceWidth)
        (Layout.qualified owner name) :: after.commands := by
    rw [hsplit, Script.commands_append, ← htarget]
    rfl
  obtain ⟨earlier, later, -, hresolves, -⟩ := exists_resolvesTo hscript h hname hcommands
  exact ⟨script, before, keyword, path, after, earlier, later, hscript, hsplit, hresolves⟩

/-- A reference behind a program adds the push of the offset that the label has there. -/
theorem program_append_reference {script earlier later : Script} {width : Nat}
    {owner name module : String} {package : Option String} (h : program units = .ok p)
    (hscript : Script.ofUnits units = .ok script)
    (hsplit : script = earlier ++ ⟨owner, .label name⟩ :: later) (howner : IsName owner)
    (hname : IsName name) (hmin : 1 ≤ width) (hmax : width ≤ maxPushBytes)
    (hfits : earlier.extent < 256 ^ width) :
    program (units ++ [⟨module, package, referenceLine width owner name⟩]) =
      .ok (p ++ [.push (Immediate.bytes width earlier.extent)]) := by
  have hsmall : width < 100 := Nat.lt_of_le_of_lt hmax (by decide)
  obtain ⟨hclean, hkept⟩ := (program_eq_ok_iff hscript).mp h
  obtain ⟨hwidth, hfew⟩ := Source.pushWidth?_keyword hsmall
  have hcommand : ∀ space, Scoped.command? ⟨space, referencePush width owner name⟩ =
      some (.reference width (Layout.qualified owner name)) := by
    intro space
    show some (Placement.reference _ _) = _
    rw [hwidth]
    rfl
  have hfault : ∀ space, Scoped.fault? script.labels ⟨space, referencePush width owner name⟩ =
      none := by
    intro space
    rw [Scoped.fault?_of_command (hcommand space), referencePush, Action.refusal?, if_pos hfew]
    dsimp only
    rw [hwidth, Option.getD_some, if_pos ⟨hmin, hmax⟩]
    rfl
  have hadded : Script.ofUnits [⟨module, package, referenceLine width owner name⟩] =
      .ok [⟨SourceUnit.space ⟨module, package, referenceLine width owner name⟩,
        referencePush width owner name⟩] := by
    rw [Script.ofUnits, Source.actions_referenceLine hsmall howner hname]
    rfl
  have hunits := Script.ofUnits_append_eq_ok_iff.mpr ⟨script, _, hscript, hadded, rfl⟩
  refine (program_eq_ok_iff hunits).mpr
    ⟨Script.isClean_append_singleton.mpr ⟨hclean, hfault _⟩, ?_⟩
  -- The new command defines nothing, so the offsets are those of the program in front of it.
  rw [Script.definitions_append_command script (hcommand _), Script.commands_append]
  refine List.rel_append hkept ?_
  have hlast : Script.commands [⟨SourceUnit.space ⟨module, package, referenceLine width owner name⟩,
      referencePush width owner name⟩] = [.reference width (Layout.qualified owner name)] := by
    rw [Script.commands, List.filterMap_cons, hcommand]
    rfl
  rw [hlast]
  refine .cons (.reference ?_ (Immediate.length_bytes _ _)) .nil
  subst hsplit
  rw [Immediate.toNat_bytes hfits, hclean.lookup_label]

/-- A label can be referred to from other namespaces if and only if its unit is in no package and
goes by a name without dots. If so, the line for it goes on top of any unit, and behind any program
it adds one push, the offset of the definition. No reference to a label ever means anything else. -/
theorem reach_iff {X Y : SourceUnit} {label : String} (hne : X.space ≠ Y.space)
    (hlabel : Y.Defines label) :
    ((∃ text, RefersTo X.space text Y.space label) ↔ Y.package = none ∧ IsName Y.module) ∧
      (Y.package = none → IsName Y.module → ∀ width, 1 ≤ width → width ≤ maxPushBytes →
        (∀ found, Source.actions X.text.toList = .ok found →
          Source.actions (X.under (referenceLine width Y.space label)).text.toList =
            .ok (referencePush width Y.space label :: found)) ∧
        ∀ units p, Y ∈ units → program units = .ok p →
          ∃ (script earlier later : Script) (offset : Nat), Script.ofUnits units = .ok script ∧
            script = earlier ++ ⟨Y.space, .label label⟩ :: later ∧
            Program.size (p.take earlier.commands.length) = .ok offset ∧
            (offset < 256 ^ width →
              program (units ++ [⟨X.module, X.package, referenceLine width Y.space label⟩]) =
                .ok (p ++ [.push (Immediate.bytes width offset)]))) ∧
      ∀ units p, X ∈ units → Y ∈ units → program units = .ok p →
        RefersTo X.space X.text Y.space label →
          ∃ (script before : Script) (keyword : String) (path : LabelPath)
            (after earlier later : Script), Script.ofUnits units = .ok script ∧
            script = before ++ ⟨X.space, .push keyword (.reference path)⟩ :: after ∧
              ResolvesTo script p before.commands.length Y.space label earlier later := by
  have hname := hlabel.isName
  refine ⟨⟨?_, ?_⟩, ?_, ?_⟩
  · rintro ⟨text, hrefers⟩
    exact isName_space_iff.mp (hrefers.isName_owner hname hne)
  · intro hplain
    exact ⟨_, @refersTo_referenceLine _ _ 2 (by decide) (isName_space_iff.mpr hplain) hname X.space⟩
  · intro hpackage hmodule width hmin hmax
    have hspace : IsName Y.space := isName_space_iff.mpr ⟨hpackage, hmodule⟩
    have hsmall : width < 100 := Nat.lt_of_le_of_lt hmax (by decide)
    constructor
    · intro found hfound
      rw [SourceUnit.under, String.toList_append, String.toList_append, List.append_assoc]
      exact Source.actions_referenceLine_above hsmall hspace hname hfound
    · intro units p hY h
      obtain ⟨script, l, hscript, -, hlaid, hclean, hkept⟩ := exists_laid_of_program h
      obtain ⟨earlier, later, hsplit⟩ := exists_split_of_defines hscript hY hlabel
      obtain ⟨offset, hoffset, hsize, -⟩ :=
        (hlaid.agreement hclean hkept).located earlier Y.space label later hsplit
      refine ⟨script, earlier, later, offset, hscript, hsplit, hsize, fun hfits => ?_⟩
      -- The offset of the definition is the size of what stands before it, there as here.
      have hextent : offset = Script.extent earlier := by
        rw [hlaid.lookup_eq hclean] at hoffset
        subst hsplit
        exact Option.some.inj (hoffset.symm.trans hclean.lookup_label)
      subst hextent
      exact program_append_reference h hscript hsplit hspace hname hmin hmax hfits
  · intro units p hX _ h hrefers
    exact exists_resolvesTo_of_refersTo h hX hname hrefers

/-- A unit with a label, and the same unit in a package. -/
def library (package : Option String) : SourceUnit :=
  ⟨"lib", package, "foo: jumpdest"⟩

/-- From another unit, the label is in reach without the package and out of reach with it. -/
theorem reach_iff_library :
    (∃ text, RefersTo "main" text "lib" "foo") ∧ (¬∃ text, RefersTo "main" text "pkg.lib" "foo") ∧
      ∃ p, program [library none] = .ok p ∧
        program [library none, ⟨"main", none, "push1 &lib::foo //"⟩] = .ok (p ++ [.push [0]]) := by
  have hfound : (Source.actions "foo: jumpdest".toList).toOption =
      some [.label "foo", .opcode .JUMPDEST] := by decide +kernel
  have hdefines : ∀ package, (library package).Defines "foo" :=
    fun _ => ⟨_, eq_ok_of_toOption hfound, List.mem_cons_self⟩
  have hlib : IsName "lib" := ⟨'l', ['i', 'b'], rfl, rfl, forall_mem_of_all (by decide)⟩
  obtain ⟨hreach, hadds, -⟩ :=
    @reach_iff ⟨"main", none, "stop"⟩ (library none) "foo" (by decide) (hdefines none)
  obtain ⟨hpackaged, -⟩ :=
    @reach_iff ⟨"main", none, "stop"⟩ (library (some "pkg")) "foo" (by decide) (hdefines _)
  refine ⟨hreach.mpr ⟨rfl, hlib⟩, fun hrefers => ?_, ?_⟩
  · cases (hpackaged.mp hrefers).1
  · have hcode : (code [library none]).toOption = some [0x5B] := by decide +kernel
    obtain ⟨p, hp, -⟩ := except_bind_eq_ok_iff.mp (eq_ok_of_toOption hcode)
    have hread : (Script.ofUnits [library none]).toOption =
        some [⟨"lib", .label "foo"⟩, ⟨"lib", .opcode .JUMPDEST⟩] := by decide +kernel
    obtain ⟨script, earlier, later, offset, hscript, hsplit, hsize, hadded⟩ :=
      (hadds rfl hlib 1 (by decide) (by decide)).2 _ p List.mem_cons_self hp
    obtain rfl := Except.ok.inj (hscript.symm.trans (eq_ok_of_toOption hread))
    -- The definition is the first of the two actions.
    cases earlier with
    | nil =>
      obtain rfl : 0 = offset := Except.ok.inj hsize
      exact ⟨p, hp, hadded (by decide)⟩
    | cons s earlier =>
      obtain ⟨-, htail⟩ := List.cons.inj hsplit
      rcases List.singleton_eq_append_iff.mp htail with ⟨-, hlater⟩ | ⟨-, hlater⟩
      · cases hlater
      · cases hlater

end Assembly

end EvmAssembler
