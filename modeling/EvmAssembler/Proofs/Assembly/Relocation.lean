import EvmAssembler.Proofs.Assembly.Agreement

/-!
# `EvmAssembler.Proofs.Assembly.Relocation`: units in front of other units

Units that assemble on their own keep their meaning when others stand before or behind them. What
stands behind adds labels that no reference of theirs needs. What stands before moves their labels,
all by the bytes it takes, and with them the values of their references and nothing else.

In terms of scripts the second part is one equation: the definitions of a script that starts later
are its definitions with every offset shifted (`definitionsFrom_eq_map`). `Moved` is what becomes of
a single instruction, and `kept_append_right_iff` says that among the labels of both scripts the
moved instruction is the one that keeps the command.

`Assembly.program_append` puts the two parts together, and adds when the two sets of units assemble
jointly at all: they must not define a label twice, and the moved references have to fit.
-/

set_option autoImplicit false

namespace EvmAssembler

/-! ### Scripts one behind the other -/

namespace Script

/-- Two lists of units can be read together when each can be read, and their scripts follow one
another. -/
theorem ofUnits_append_eq_ok_iff {above below : List SourceUnit} {script : Script} :
    ofUnits (above ++ below) = .ok script ↔
      ∃ first second, ofUnits above = .ok first ∧ ofUnits below = .ok second ∧
        script = first ++ second := by
  induction above generalizing script with
  | nil => simp [ofUnits]
  | cons u above ih =>
    rw [List.cons_append, ofUnits, except_bind_eq_ok_iff]
    constructor
    · rintro ⟨actions, hactions, h⟩
      obtain ⟨rest, hrest, rfl⟩ := except_map_eq_ok_iff.mp h
      obtain ⟨first, second, hfirst, hsecond, rfl⟩ := ih.mp hrest
      refine ⟨inSpace u.space actions ++ first, second, ?_, hsecond,
        (List.append_assoc _ first second).symm⟩
      exact except_bind_eq_ok_iff.mpr ⟨actions, hactions,
        except_map_eq_ok_iff.mpr ⟨first, hfirst, rfl⟩⟩
    · rintro ⟨first, second, hfirst, hsecond, rfl⟩
      obtain ⟨actions, hactions, h⟩ := except_bind_eq_ok_iff.mp hfirst
      obtain ⟨rest, hrest, rfl⟩ := except_map_eq_ok_iff.mp h
      exact ⟨actions, hactions, except_map_eq_ok_iff.mpr
        ⟨rest ++ second, ih.mpr ⟨rest, second, hrest, hsecond, rfl⟩,
          (List.append_assoc _ rest second).symm⟩⟩

/-- A script that starts later has its labels later, each by as much. -/
theorem definitionsFrom_eq_map (offset shift : Nat) (script : Script) :
    definitionsFrom (offset + shift) script =
      (definitionsFrom offset script).map fun d => (d.1, d.2 + shift) := by
  fun_induction definitionsFrom offset script with
  | case1 offset => rfl
  | case2 offset space name rest ih => rw [definitionsFrom, ih, List.map_cons]
  | case3 offset s rest hs ih =>
    rw [definitionsFrom, Nat.add_right_comm, ih]
    exact hs

/-- The definitions of two scripts one behind the other. -/
theorem definitions_append_eq_map (first second : Script) :
    definitions (first ++ second) =
      first.definitions ++ second.definitions.map fun d => (d.1, d.2 + first.extent) := by
  rw [definitions_append, ← Nat.zero_add first.extent, definitionsFrom_eq_map, Nat.zero_add]
  rfl

/-- The labels of a script do not depend on where it starts, so those of two scripts are put
together. -/
theorem labels_append (first second : Script) :
    labels (first ++ second) = first.labels ++ second.labels := by
  rw [labels, definitions_append_eq_map, List.map_append, List.map_map]
  rfl

/-- Two clean scripts are clean together unless they define a label in common. -/
theorem isClean_append_iff {first second : Script} (hfirst : first.IsClean)
    (hsecond : second.IsClean) :
    IsClean (first ++ second) ↔ first.labels.Disjoint second.labels := by
  obtain ⟨haccepted, hdistinct⟩ := isClean_iff.mp hfirst
  obtain ⟨haccepted', hdistinct'⟩ := isClean_iff.mp hsecond
  rw [isClean_iff, labels_append, List.nodup_append']
  constructor
  · rintro ⟨-, -, -, hdisjoint⟩
    exact hdisjoint
  · intro hdisjoint
    refine ⟨fun s hs => ?_, hdistinct, hdistinct', hdisjoint⟩
    rcases List.mem_append.mp hs with hs | hs
    · exact haccepted s hs
    · exact haccepted' s hs

end Script

/-! ### Moved instructions -/

/-- What becomes of the instruction of a command when the labels are moved: a push that stands for a
reference keeps its width and is larger by the shift, and any other instruction stays. -/
inductive Moved (shift : Nat) : Placement → Instruction → Instruction → Prop where
  | instruction (i : Instruction) : Moved shift (.instruction i) i i
  | reference {width : Nat} {label : String} {data moved : List UInt8} : data.length = width →
    moved.length = width → Immediate.toNat moved = Immediate.toNat data + shift →
      Moved shift (.reference width label) (.push data) (.push moved)

/-- Only one instruction keeps a command. -/
theorem Kept.unique {labels : List (String × Nat)} {c : Placement} {i j : Instruction}
    (hi : Kept labels c i) (hj : Kept labels c j) : i = j := by
  cases hi with
  | instruction =>
    cases hj
    rfl
  | @reference width label data hlookup hlen =>
    cases hj with
    | @reference _ _ data' hlookup' hlen' =>
      -- As many bytes with the same value are the same bytes.
      have hvalue := Option.some.inj (hlookup.symm.trans hlookup')
      rw [← Immediate.bytes_toNat data, ← Immediate.bytes_toNat data', hvalue, hlen, hlen']

/-- More definitions behind those that a reference finds do not matter to it. -/
theorem Kept.append_left {labels : List (String × Nat)} {c : Placement} {i : Instruction}
    (h : Kept labels c i) (more : List (String × Nat)) : Kept (labels ++ more) c i := by
  cases h with
  | instruction => exact .instruction i
  | reference hlookup hlen =>
    refine .reference ?_ hlen
    rw [List.lookup_append, hlookup]
    rfl

/-- What keeps the commands of two scripts starts with what keeps those of the first alone. -/
theorem exists_eq_append_of_kept {labels more : List (String × Nat)} {cs ds : List Placement}
    {p r : Program} (hp : List.Forall₂ (Kept labels) cs p)
    (hr : List.Forall₂ (Kept (labels ++ more)) (cs ++ ds) r) :
    ∃ rest, r = p ++ rest ∧ List.Forall₂ (Kept (labels ++ more)) ds rest := by
  have hfront := List.forall₂_take cs.length hr
  have hrest := List.forall₂_drop cs.length hr
  rw [List.take_left] at hfront
  rw [List.drop_left] at hrest
  have hstays : List.Forall₂ (Kept (labels ++ more)) cs p :=
    hp.imp fun _ _ h => h.append_left more
  have hunique : Relator.RightUnique (Kept (labels ++ more)) := fun _ _ _ => Kept.unique
  obtain rfl := List.right_unique_forall₂' hunique hstays hfront
  exact ⟨_, (List.take_append_drop cs.length r).symm, hrest⟩

/-- Where all entries are changed alike, so is what is found. -/
theorem lookup_map_shift (labels : List (String × Nat)) (shift : Nat) (label : String) :
    (labels.map fun d => (d.1, d.2 + shift)).lookup label =
      (labels.lookup label).map (· + shift) := by
  induction labels with
  | nil => rfl
  | cons d labels ih =>
    obtain ⟨key, offset⟩ := d
    rw [List.map_cons, List.lookup_cons, List.lookup_cons, ih]
    cases label == key <;> rfl

/-- A reference finds its own label, moved, behind definitions of other labels. -/
theorem lookup_append_shift {first second : List (String × Nat)} {shift offset : Nat}
    {label : String} (hdisjoint : (first.map Prod.fst).Disjoint (second.map Prod.fst))
    (h : second.lookup label = some offset) :
    (first ++ second.map fun d => (d.1, d.2 + shift)).lookup label = some (offset + shift) := by
  have hmem : label ∈ second.map Prod.fst := by
    obtain ⟨before, after, rfl, -⟩ := List.lookup_eq_some_iff.mp h
    simp
  have hnone : first.lookup label = none := by
    rw [List.lookup_eq_none_iff]
    intro d hd
    rw [bne_iff_ne]
    rintro rfl
    exact hdisjoint (List.mem_map_of_mem hd) hmem
  rw [List.lookup_append, hnone, lookup_map_shift, h]
  rfl

section
variable {first second : List (String × Nat)} {shift : Nat}

/-- Among the labels of both, what keeps a command is what it was kept by, moved. -/
theorem kept_append_right_iff {c : Placement} {i j : Instruction}
    (hdisjoint : (first.map Prod.fst).Disjoint (second.map Prod.fst)) (h : Kept second c i) :
    Kept (first ++ second.map fun d => (d.1, d.2 + shift)) c j ↔ Moved shift c i j := by
  cases h with
  | instruction =>
    constructor
    · intro hj
      cases hj
      exact .instruction i
    · intro hj
      cases hj
      exact .instruction i
  | @reference width label data hlookup hlen =>
    have hfound := @lookup_append_shift first second shift _ label hdisjoint hlookup
    constructor
    · intro hj
      cases hj with
      | @reference _ _ moved hlookup' hlen' =>
        exact .reference hlen hlen' (Option.some.inj (hlookup'.symm.trans hfound))
    · intro hj
      cases hj with
      | @reference _ _ _ moved _ hlen' hvalue =>
        exact .reference (by rw [hfound, hvalue]) hlen'

/-- So whole programs keep the commands when they are what kept them, moved. -/
theorem forall₂_kept_append_right_iff {cs : List Placement} {q moved : Program}
    (hdisjoint : (first.map Prod.fst).Disjoint (second.map Prod.fst))
    (h : List.Forall₂ (Kept second) cs q) :
    List.Forall₂ (Kept (first ++ second.map fun d => (d.1, d.2 + shift))) cs moved ↔
      List.Forall₂ (fun old j => Moved shift old.1 old.2 j) (cs.zip q) moved := by
  induction h generalizing moved with
  | nil => rw [List.zip_nil_left, List.forall₂_nil_left_iff, List.forall₂_nil_left_iff]
  | @cons c i cs q hi _ ih =>
    rw [List.zip_cons_cons, List.forall₂_cons_left_iff, List.forall₂_cons_left_iff]
    simp only [kept_append_right_iff hdisjoint hi, ih]

end

/-- An instruction can be moved if it is no reference, or if its value still fits. -/
theorem exists_moved_iff {labels : List (String × Nat)} {shift : Nat} {c : Placement}
    {i : Instruction} (h : Kept labels c i) :
    (∃ j, Moved shift c i j) ↔ ∀ width label data, (c, i) = (.reference width label, .push data) →
      Immediate.toNat data + shift < 256 ^ width := by
  cases h with
  | instruction =>
    refine ⟨fun _ _ _ _ heq => ?_, fun _ => ⟨i, .instruction i⟩⟩
    cases heq
  | @reference width label data hlookup hlen =>
    constructor
    · rintro ⟨j, hj⟩ _ _ _ heq
      cases heq
      cases hj with
      | @reference _ _ _ moved _ hlen' hvalue =>
        rw [← hvalue, ← hlen']
        exact Immediate.toNat_lt moved
    · intro hfits
      exact ⟨_, .reference hlen (Immediate.length_bytes width _)
        (Immediate.toNat_bytes (hfits width label data rfl))⟩

/-- All instructions of a program can be moved if all values of references fit. -/
theorem forall_exists_moved_iff {labels : List (String × Nat)} {shift : Nat}
    {cs : List Placement} {q : Program} (h : List.Forall₂ (Kept labels) cs q) :
    (∀ old ∈ cs.zip q, ∃ j, Moved shift old.1 old.2 j) ↔
      ∀ width label data, (.reference width label, .push data) ∈ cs.zip q →
        Immediate.toNat data + shift < 256 ^ width := by
  have hold : ∀ old ∈ cs.zip q, Kept labels old.1 old.2 :=
    fun old hmem => (List.forall₂_iff_zip.mp h).2 hmem
  constructor
  · intro hmoved width label data hmem
    exact (exists_moved_iff (hold _ hmem)).mp (hmoved _ hmem) width label data rfl
  · rintro hfits ⟨c, i⟩ hmem
    refine (exists_moved_iff (hold _ hmem)).mpr fun width label data heq => ?_
    exact hfits width label data (heq ▸ hmem)

/-! ### Assembling units in front of others -/

namespace Assembly

variable {above below : List SourceUnit} {p q r : Program} {first second : Script}

/-- Two lists of units that assemble, with their scripts: what they assemble to together. -/
theorem program_append_eq_ok_iff (hfirst : Script.ofUnits above = .ok first)
    (hsecond : Script.ofUnits below = .ok second) (hp : program above = .ok p)
    (hq : program below = .ok q) :
    program (above ++ below) = .ok r ↔
      first.labels.Disjoint second.labels ∧ ∃ moved, r = p ++ moved ∧
        List.Forall₂ (fun old j => Moved first.extent old.1 old.2 j) (second.commands.zip q)
          moved := by
  obtain ⟨hclean, hkept⟩ := (program_eq_ok_iff hfirst).mp hp
  obtain ⟨hclean', hkept'⟩ := (program_eq_ok_iff hsecond).mp hq
  have hscript : Script.ofUnits (above ++ below) = .ok (first ++ second) :=
    Script.ofUnits_append_eq_ok_iff.mpr ⟨first, second, hfirst, hsecond, rfl⟩
  rw [program_eq_ok_iff hscript, Script.isClean_append_iff hclean hclean']
  refine and_congr_right fun hdisjoint => ?_
  rw [Script.commands_append, Script.definitions_append_eq_map]
  constructor
  · intro h
    obtain ⟨moved, rfl, hmoved⟩ := exists_eq_append_of_kept hkept h
    exact ⟨moved, rfl, (forall₂_kept_append_right_iff hdisjoint hkept').mp hmoved⟩
  · rintro ⟨moved, rfl, hmoved⟩
    exact List.rel_append (hkept.imp fun _ _ h => h.append_left _)
      ((forall₂_kept_append_right_iff hdisjoint hkept').mpr hmoved)

/-- What units assemble to is where any longer list of units starts. -/
theorem isPrefix_of_program_append (hp : program above = .ok p)
    (hr : program (above ++ below) = .ok r) : p <+: r := by
  obtain ⟨script, -, hscript, -⟩ := exists_laid_of_program hr
  obtain ⟨first, second, hfirst, hsecond, rfl⟩ := Script.ofUnits_append_eq_ok_iff.mp hscript
  obtain ⟨-, hkept⟩ := (program_eq_ok_iff hfirst).mp hp
  obtain ⟨-, hkept'⟩ := (program_eq_ok_iff hscript).mp hr
  rw [Script.commands_append, Script.definitions_append_eq_map] at hkept'
  obtain ⟨rest, rfl, -⟩ := exists_eq_append_of_kept hkept hkept'
  exact List.prefix_append p rest

/-- Relocation. What units assemble to starts what they assemble to with others behind them. The
others, if they assemble on their own, are moved: instruction by instruction they stay what they
are, except that the pushes made from references keep their widths and grow by the size of what
stands before. Both together assemble exactly if they define no label twice and what grows still
fits. -/
theorem program_append (hp : program above = .ok p) :
    (∀ r, program (above ++ below) = .ok r → p <+: r) ∧
      ∀ q, program below = .ok q → ∃ (first second : Layout) (shift : Nat),
        layOutAll .empty above = (first, none) ∧ layOutAll .empty below = (second, none) ∧
          p.size = .ok shift ∧ second.placements.length = q.length ∧
          (∀ r, program (above ++ below) = .ok r → ∃ moved, r = p ++ moved ∧
            List.Forall₂ (fun old j => Moved shift old.1 old.2 j) (second.placements.zip q)
              moved) ∧
          ((∃ r, program (above ++ below) = .ok r) ↔
            (first.labels.map Prod.fst).Disjoint (second.labels.map Prod.fst) ∧
              ∀ width label data,
                (.reference width label, .push data) ∈ second.placements.zip q →
                  Immediate.toNat data + shift < 256 ^ width) := by
  refine ⟨fun r hr => isPrefix_of_program_append hp hr, fun q hq => ?_⟩
  obtain ⟨script, -, hscript, -⟩ := exists_laid_of_program hp
  obtain ⟨script', -, hscript', -⟩ := exists_laid_of_program hq
  obtain ⟨hclean, hkept⟩ := (program_eq_ok_iff hscript).mp hp
  obtain ⟨hclean', hkept'⟩ := (program_eq_ok_iff hscript').mp hq
  obtain ⟨first, hfirst, hlaid⟩ := exists_laid hscript hclean
  obtain ⟨second, hsecond, hlaid'⟩ := exists_laid hscript' hclean'
  -- All that is said about both together is one equivalence between results and moved programs.
  have hjoint := fun r =>
    @program_append_eq_ok_iff above below p q r script script' hscript hscript' hp hq
  have hsize : p.size = .ok script.extent := by
    rw [Program.size_eq_extent (sound_of_kept hkept hlaid.sound).1, extent_of_kept hkept]
    rfl
  have hlabels : (first.labels.map Prod.fst).Disjoint (second.labels.map Prod.fst) ↔
      script.labels.Disjoint script'.labels := by
    rw [hlaid.labels, hlaid'.labels, List.map_reverse, List.map_reverse,
      List.disjoint_reverse_left, List.disjoint_reverse_right]
    rfl
  refine ⟨first, second, script.extent, hfirst, hsecond, hsize, ?_, ?_, ?_⟩
  · rw [hlaid'.placements]
    exact hkept'.length_eq
  · intro r hr
    rw [hlaid'.placements]
    exact ((hjoint r).mp hr).2
  · rw [hlabels, hlaid'.placements, ← forall_exists_moved_iff hkept', ← exists_forall₂_iff]
    constructor
    · rintro ⟨r, hr⟩
      obtain ⟨hdisjoint, moved, -, hmoved⟩ := (hjoint r).mp hr
      exact ⟨hdisjoint, moved, hmoved⟩
    · rintro ⟨hdisjoint, moved, hmoved⟩
      exact ⟨p ++ moved, (hjoint _).mpr ⟨hdisjoint, moved, rfl, hmoved⟩⟩

/-- A unit with a loop, and one with a reference to the label behind it. -/
def loop : List SourceUnit :=
  [⟨"loop", none, "top: jumpdest\npush1 &top\njump"⟩]

/-- The same label name in another namespace is another label. -/
def skip : List SourceUnit :=
  [⟨"main", none, "push1 &top\njump\ntop: jumpdest"⟩]

/-- Behind the loop, which takes four bytes, the reference has grown from 3 to 7. -/
theorem program_append_skip :
    ∃ p q r, program loop = .ok p ∧ program skip = .ok q ∧ program (loop ++ skip) = .ok r ∧
      p.code = .ok [0x5B, 0x60, 0x00, 0x56] ∧ q.code = .ok [0x60, 0x03, 0x56, 0x5B] ∧
      r.code = .ok [0x5B, 0x60, 0x00, 0x56, 0x60, 0x07, 0x56, 0x5B] ∧ p <+: r ∧
      ∃ (second : Layout) (shift : Nat) (moved : Program),
        layOutAll .empty skip = (second, none) ∧ p.size = .ok shift ∧ r = p ++ moved ∧
          List.Forall₂ (fun old j => Moved shift old.1 old.2 j) (second.placements.zip q) moved ∧
          ∀ width label data, (.reference width label, .push data) ∈ second.placements.zip q →
            Immediate.toNat data + shift < 256 ^ width := by
  have hassembled : ∀ {units : List SourceUnit} {bytes : List UInt8},
      (code units).toOption = some bytes → ∃ p, program units = .ok p ∧ p.code = .ok bytes :=
    fun h => except_bind_eq_ok_iff.mp (eq_ok_of_toOption h)
  obtain ⟨p, hp, hpcode⟩ := @hassembled loop [0x5B, 0x60, 0x00, 0x56] (by decide +kernel)
  obtain ⟨q, hq, hqcode⟩ := @hassembled skip [0x60, 0x03, 0x56, 0x5B] (by decide +kernel)
  obtain ⟨r, hr, hrcode⟩ := @hassembled (loop ++ skip)
    [0x5B, 0x60, 0x00, 0x56, 0x60, 0x07, 0x56, 0x5B] (by decide +kernel)
  obtain ⟨hfront, hrest⟩ := @program_append loop skip p hp
  obtain ⟨first, second, shift, -, hsecond, hshift, -, hmoved, hfits⟩ := hrest q hq
  obtain ⟨moved, heq, hall⟩ := hmoved r hr
  exact ⟨p, q, r, hp, hq, hr, hpcode, hqcode, hrcode, hfront r hr, second, shift, moved, hsecond,
    hshift, heq, hall, (hfits.mp ⟨r, hr⟩).2⟩

end Assembly

end EvmAssembler
