import EvmAssembler.Opcode.Table
import EvmAssembler.Proofs.Keys

/-!
# `EvmAssembler.Proofs.Opcode.Table`: what the checks of an opcode table find

An opcode table can hold any families and any further entries. Each of its two checks goes over the
table once and remembers what it has seen, and each stops at the first thing that it has seen
before. So a check that passes has seen nothing twice, and one that fails names the first
repetition:

* `collision?_cases`: what is remembered are the entries so far, none of which share a code.
* `addMnemonics_cases`: the same for names, which are kept with their members.
* `nodup_names_iff`: within a family names differ anyway, so a name that is there twice belongs to
  two families.
* `mem_mnemonics_iff`: an alias stands for the member that had its value first.

`CodeTable.checks_complete` states both checks for all tables.
-/

set_option autoImplicit false

namespace EvmAssembler

namespace FamilyTable

/-- The names of a family, aliases included. -/
def names (f : FamilyTable) : List String :=
  f.members.map Prod.fst

/-- A name of the family stands for a member: the member has the name's value, and its own name is
the first in the family that has this value. -/
structure StandsFor (f : FamilyTable) (name : String) (m : Member) : Prop where
  named : (name, m.value) ∈ f.members
  family_eq : m.family = f.name
  first : ∃ before after, f.members = before ++ (m.canonical, m.value) :: after ∧
    ∀ entry ∈ before, entry.2 ≠ m.value

/-- The member that a name of the family is listed with is the one it stands for. -/
theorem standsFor_member {f : FamilyTable} {name : String} {value : Int}
    (h : (name, value) ∈ f.members) : f.StandsFor name (f.member name value) := by
  cases hfind : f.members.find? (·.2 == value) with
  | none =>
    have hnone := List.find?_eq_none.mp hfind (name, value) h
    exact absurd (beq_self_eq_true value) hnone
  | some first =>
    obtain ⟨hvalue, before, after, hsplit, hbefore⟩ := List.find?_eq_some_iff_append.mp hfind
    have hmember : f.member name value = ⟨f.name, first.1, value⟩ := by
      rw [member, hfind]
      rfl
    rw [hmember]
    refine ⟨h, rfl, before, after, ?_, fun entry hentry heq => ?_⟩
    · rw [hsplit, ← beq_iff_eq.mp hvalue]
    · have hne := hbefore entry hentry
      rw [heq, beq_self_eq_true] at hne
      cases hne

/-- A name stands for one member only. -/
theorem StandsFor.unique {f : FamilyTable} {name : String} {m n : Member}
    (hm : f.StandsFor name m) (hn : f.StandsFor name n) : m = n := by
  obtain ⟨family, canonical, value⟩ := m
  obtain ⟨family', canonical', value'⟩ := n
  have hvalue : (name, value) = (name, value') :=
    List.inj_on_of_nodup_map f.nodup hm.named hn.named rfl
  obtain rfl : value = value' := congrArg Prod.snd hvalue
  obtain rfl : family = f.name := hm.family_eq
  obtain rfl : family' = f.name := hn.family_eq
  -- The first entry with the value is found at the end of either beginning.
  obtain ⟨before, after, hsplit, hbefore⟩ := hm.first
  obtain ⟨before', after', hsplit', hbefore'⟩ := hn.first
  have hfind : ∀ {a b : List (String × Int)} {c : String}, f.members = a ++ (c, value) :: b →
      (∀ entry ∈ a, entry.2 ≠ value) → f.members.find? (·.2 == value) = some (c, value) := by
    intro a b c h hne
    rw [List.find?_eq_some_iff_append]
    exact ⟨beq_self_eq_true value, a, b, h, fun entry hentry => by simpa using hne entry hentry⟩
  have hsame := (hfind hsplit hbefore).symm.trans (hfind hsplit' hbefore')
  simp only [Option.some.injEq, Prod.mk.injEq, and_true] at hsame
  rw [hsame]

/-- The mnemonics of a family are its names, with what they stand for. -/
theorem mem_mnemonics_iff {f : FamilyTable} {name : String} {m : Member} :
    (name, m) ∈ f.mnemonics ↔ f.StandsFor name m := by
  constructor
  · intro h
    obtain ⟨⟨name', value⟩, hmem, heq⟩ := List.mem_map.mp h
    obtain ⟨rfl, rfl⟩ := Prod.mk.inj heq
    exact standsFor_member hmem
  · intro h
    refine List.mem_map.mpr ⟨(name, m.value), h.named, ?_⟩
    exact congrArg (Prod.mk name) ((standsFor_member h.named).unique h)

/-- A family lists its mnemonics under its names. -/
theorem map_fst_mnemonics (f : FamilyTable) : f.mnemonics.map Prod.fst = f.names := by
  rw [mnemonics, names, List.map_map]
  rfl

end FamilyTable

namespace CodeTable

variable {t : CodeTable}

/-! ### The check of codes -/

/-- Two entries of the table have the same code. -/
def SharesCode (t : CodeTable) : Prop :=
  HasPair (fun a b => a.2 = b.2) t.entries

/-- Behind entries with distinct codes, either no code is repeated, or the first repetition is
found. What has been seen is remembered backwards. -/
theorem collision?_cases {seen : List (String × Int)} (distinct : (seen.map Prod.snd).Nodup)
    (entries : List (String × Int)) :
    (collision? seen.reverse entries = none ∧ ((seen ++ entries).map Prod.snd).Nodup) ∨
      ∃ first second, collision? seen.reverse entries = some (second.1, first.1, second.2) ∧
        FirstRepeat Prod.snd (seen ++ entries) first second := by
  induction entries generalizing seen with
  | nil => exact Or.inl ⟨rfl, by rwa [List.append_nil]⟩
  | cons entry rest ih =>
    obtain ⟨name, code⟩ := entry
    rw [collision?]
    cases hfind : seen.reverse.find? (·.2 == code) with
    | some first =>
      have hcode : first.2 = code := by simpa using List.find?_some hfind
      have hmem : first ∈ seen := List.mem_reverse.mp (List.mem_of_find?_eq_some hfind)
      exact Or.inr ⟨first, (name, code), rfl, firstRepeat_of_mem distinct hmem hcode⟩
    | none =>
      -- The entry is new, and the entries seen so far stay distinct with it.
      have hfresh : ∀ b ∈ seen, b.2 ≠ code := by
        intro b hb
        simpa using List.find?_eq_none.mp hfind b (List.mem_reverse.mpr hb)
      have hnext := ih (@nodup_map_append_singleton _ _ _ _ (name, code) distinct hfresh)
      rwa [List.reverse_append, List.append_assoc] at hnext

/-- The check of codes passes where no two entries share one. Else it names the first entry whose
code has been there before, and the entry that had it. -/
theorem checkDistinct_cases (t : CodeTable) :
    (t.checkDistinct = .ok () ∧ (t.entries.map Prod.snd).Nodup) ∨
      ∃ first second, t.checkDistinct = .error (.sharedCode second.1 first.1 second.2) ∧
        FirstRepeat Prod.snd t.entries first second := by
  rw [checkDistinct]
  rcases @collision?_cases [] List.nodup_nil t.entries with
    ⟨h, hnodup⟩ | ⟨first, second, h, hrepeat⟩
  · rw [List.reverse_nil] at h
    exact Or.inl ⟨by rw [h], hnodup⟩
  · rw [List.reverse_nil] at h
    exact Or.inr ⟨first, second, by rw [h]; rfl, hrepeat⟩

/-! ### The check of mnemonics -/

/-- Two families of the table define the same name. -/
def SharesName (t : CodeTable) : Prop :=
  HasPair (fun f g => ∃ name, name ∈ f.names ∧ name ∈ g.names) t.families

/-- Behind mnemonics with distinct names, either no name is repeated and all are added, or the first
repetition is refused. -/
theorem addMnemonics_cases {known : List (String × Member)}
    (distinct : (known.map Prod.fst).Nodup) (more : List (String × Member)) :
    (addMnemonics known more = .ok (known ++ more) ∧ ((known ++ more).map Prod.fst).Nodup) ∨
      ∃ first second, addMnemonics known more = .error (.sharedMnemonic second.1) ∧
        FirstRepeat Prod.fst (known ++ more) first second := by
  induction more generalizing known with
  | nil => exact Or.inl ⟨by rw [addMnemonics, List.append_nil], by rwa [List.append_nil]⟩
  | cons entry rest ih =>
    obtain ⟨name, m⟩ := entry
    rw [addMnemonics]
    cases hany : known.any (·.1 == name) with
    | true =>
      obtain ⟨first, hmem, hname⟩ := List.any_eq_true.mp hany
      exact Or.inr ⟨first, (name, m), rfl,
        firstRepeat_of_mem distinct hmem (beq_iff_eq.mp hname)⟩
    | false =>
      have hfresh : ∀ b ∈ known, b.1 ≠ name := by
        intro b hb
        simpa using List.any_eq_false.mp hany b hb
      have hnext := ih (@nodup_map_append_singleton _ _ _ _ (name, m) distinct hfresh)
      rwa [List.append_assoc] at hnext

/-- The names of a table are those of its families. -/
theorem map_fst_flatMap_mnemonics (families : List FamilyTable) :
    (families.flatMap FamilyTable.mnemonics).map Prod.fst = families.flatMap FamilyTable.names := by
  rw [List.map_flatMap]
  exact congrArg families.flatMap (funext FamilyTable.map_fst_mnemonics)

/-- No family repeats a name of its own, so names are distinct unless two families share one. -/
theorem nodup_names_iff : (t.families.flatMap FamilyTable.names).Nodup ↔ ¬t.SharesName := by
  have hshares : (fun f g : FamilyTable => ¬∃ name, name ∈ f.names ∧ name ∈ g.names) =
      Function.onFun List.Disjoint FamilyTable.names := by
    funext f g
    simp [Function.onFun, List.Disjoint]
  rw [SharesName, ← not_pairwise_iff, not_not, hshares, List.nodup_flatMap]
  exact and_iff_right fun f _ => f.nodup

/-- The check of mnemonics passes where no two families share a name, with what every name stands
for. Else it names the first repetition. -/
theorem mnemonics_cases (t : CodeTable) :
    (t.mnemonics = .ok (t.families.flatMap FamilyTable.mnemonics) ∧ ¬t.SharesName) ∨
      ∃ first second, t.mnemonics = .error (.sharedMnemonic second.1) ∧ t.SharesName ∧
        FirstRepeat Prod.fst (t.families.flatMap FamilyTable.mnemonics) first second := by
  have hnames := map_fst_flatMap_mnemonics t.families
  rcases @addMnemonics_cases [] List.nodup_nil (t.families.flatMap FamilyTable.mnemonics) with
    ⟨h, hnodup⟩ | ⟨first, second, h, hrepeat⟩
  · rw [List.nil_append, hnames, nodup_names_iff] at hnodup
    exact Or.inl ⟨h, hnodup⟩
  · have hshares := hrepeat.not_nodup
    rw [List.nil_append, hnames, nodup_names_iff, not_not] at hshares
    exact Or.inr ⟨first, second, h, hshares, hrepeat⟩

/-! ### Both checks -/

/-- Looking a name up finds what it stands for in the family that defines it. -/
theorem lookup_mnemonics_iff (h : ¬t.SharesName) {name : String} {m : Member} :
    (t.families.flatMap FamilyTable.mnemonics).lookup name = some m ↔
      ∃ f ∈ t.families, f.StandsFor name m := by
  have hnodup : ((t.families.flatMap FamilyTable.mnemonics).map Prod.fst).Nodup := by
    rw [map_fst_flatMap_mnemonics]
    exact nodup_names_iff.mpr h
  rw [lookup_eq_some_iff_mem hnodup, List.mem_flatMap]
  simp only [FamilyTable.mem_mnemonics_iff]

/-- What a name of a family stands for is an entry of the table under that name. -/
theorem mem_entries_of_standsFor {f : FamilyTable} (hf : f ∈ t.families) {name : String}
    {m : Member} (h : f.StandsFor name m) : (name, m.value) ∈ t.entries := by
  simp only [entries, List.append_assoc, List.mem_append]
  exact Or.inl (List.mem_flatMap.mpr ⟨f, hf, h.named⟩)

/-- The checks of a table are complete, whatever its families and further entries are. The check of
codes fails exactly if two entries share one, and names the first entry whose code has been there
before, with the only earlier entry that has it. The check of mnemonics fails exactly if two
families define the same name, and names the first that is repeated. Else every name, aliases
included, is found with the member it stands for. Where both pass, different names of the families
stand for different codes. -/
theorem checks_complete (t : CodeTable) :
    (t.checkDistinct = .ok () ∧ ¬t.SharesCode ∨
      ∃ e first second, t.checkDistinct = .error e ∧ t.SharesCode ∧ e.kind = .opcodeCollision ∧
        e.message = some (second.1 ++ " and " ++ first.1 ++ " share opcode 0x" ++
          Error.codeText second.2) ∧
        FirstRepeat Prod.snd t.entries first second) ∧
      ((∃ known, t.mnemonics = .ok known ∧ ¬t.SharesName ∧
          ∀ name m, known.lookup name = some m ↔ ∃ f ∈ t.families, f.StandsFor name m) ∨
        ∃ e first second, t.mnemonics = .error e ∧ t.SharesName ∧ e.kind = .opcodeCollision ∧
          e.message = some ("Mnemonic " ++ second.1 ++ " defined twice") ∧
          FirstRepeat Prod.fst (t.families.flatMap FamilyTable.mnemonics) first second) ∧
      ∀ known, t.checkDistinct = .ok () → t.mnemonics = .ok known →
        ∀ a b m n, known.lookup a = some m → known.lookup b = some n → a ≠ b →
          m.value ≠ n.value := by
  refine ⟨?_, ?_, ?_⟩
  · rcases t.checkDistinct_cases with ⟨h, hnodup⟩ | ⟨first, second, h, hrepeat⟩
    · exact Or.inl ⟨h, fun hshares => not_nodup_map_iff.mpr hshares hnodup⟩
    · exact Or.inr ⟨_, first, second, h, not_nodup_map_iff.mp hrepeat.not_nodup, rfl, rfl, hrepeat⟩
  · rcases t.mnemonics_cases with ⟨h, hnot⟩ | ⟨first, second, h, hshares, hrepeat⟩
    · exact Or.inl ⟨_, h, hnot, fun name m => lookup_mnemonics_iff hnot⟩
    · exact Or.inr ⟨_, first, second, h, hshares, rfl, rfl, hrepeat⟩
  · intro known hcodes hnames a b m n ha hb hne hvalue
    rcases t.checkDistinct_cases with ⟨-, hnodup⟩ | ⟨first, second, h, -⟩
    · rcases t.mnemonics_cases with ⟨h, hnot⟩ | ⟨first, second, h, -⟩
      · obtain rfl := Except.ok.inj (h.symm.trans hnames)
        obtain ⟨f, hf, hm⟩ := (lookup_mnemonics_iff hnot).mp ha
        obtain ⟨g, hg, hn⟩ := (lookup_mnemonics_iff hnot).mp hb
        -- Both names are entries, and entries with one code are one entry.
        have hentry := List.inj_on_of_nodup_map hnodup (mem_entries_of_standsFor hf hm)
          (mem_entries_of_standsFor hg hn) hvalue
        exact hne (congrArg Prod.fst hentry)
      · rw [hnames] at h
        cases h
    · rw [hcodes] at h
      cases h

/-- Two families with codes outside of a byte, and an entry of no family. -/
def outsized : CodeTable where
  families := [⟨"Far", [("LEAP", 0x100), ("LAND", 0x101)], by decide⟩,
    ⟨"Below", [("SINK", -1)], by decide⟩]
  extra := [("NOP", 0x0C)]

/-- Both checks pass, and the names of the two families are found with codes that differ. -/
theorem checks_complete_outsized :
    outsized.checkDistinct = .ok () ∧ ∃ known, outsized.mnemonics = .ok known ∧
      known.lookup "LEAP" = some ⟨"Far", "LEAP", 0x100⟩ ∧
      known.lookup "SINK" = some ⟨"Below", "SINK", -1⟩ ∧ (0x100 : Int) ≠ -1 := by
  have hcodes : outsized.checkDistinct = .ok () := rfl
  have hnames : outsized.mnemonics = .ok (outsized.families.flatMap FamilyTable.mnemonics) := rfl
  exact ⟨hcodes, _, hnames, rfl, rfl,
    (checks_complete outsized).2.2 _ hcodes hnames "LEAP" "SINK" _ _ rfl rfl (by decide)⟩

/-- An alias has the code of the member that it stands for, and the two are named. -/
example :
    checkDistinct ⟨[⟨"Bits", [("AND", 0x16), ("OR", 0x16)], by decide⟩], []⟩ =
      .error (.sharedCode "OR" "AND" 0x16) := rfl

end CodeTable

end EvmAssembler
