import EvmAssembler.Proofs.Assembly.Events
import EvmAssembler.Proofs.CommandLine.Containment
import EvmAssembler.Proofs.FileTree.Changes

/-!
# `EvmAssembler.Proofs.CommandLine.Course`: the courses that a run can take

A run reads all of its sources before it writes anything, it assembles and encodes before it writes
anything, and it writes the binary last. `Course` says so, end by end: each way for a run to end
comes with the exit code, the events and the tree that it leaves. Where assembling fails this is the
tree that was found. Behind that the run goes on as `Concludes` says: where the jump check fails it
leaves the tree as the dump has left it, and where the run succeeds the binary has been written into
that tree and nothing after it.

Nothing is assumed of the paths. What a failed write leaves is part of the courses.
-/

set_option autoImplicit false

namespace EvmAssembler

namespace CommandLine

/-! ### From a program on -/

/-- The tree that is left when the dump has been written, if one is asked for. -/
inductive Dumped (t : FileTree) (p : Program) : Option String → FileTree → Prop where
  | skipped : Dumped t p none t
  | written {path : String} {rows : Datum} {next : FileTree} : dump p = .ok rows →
    t.write (.ofString path) (rows.json 0).toUTF8 = .ok next → Dumped t p (some path) next

/-- A dump leaves one tree. -/
theorem Dumped.unique {t next next' : FileTree} {p : Program} {dump? : Option String}
    (h : Dumped t p dump? next) (h' : Dumped t p dump? next') : next = next' := by
  cases h with
  | skipped =>
    cases h'
    rfl
  | written hrows hwrite =>
    cases h' with
    | written hrows' hwrite' =>
      obtain rfl := Except.ok.inj (hrows.symm.trans hrows')
      exact Except.ok.inj (hwrite.symm.trans hwrite')

section
variable {room : Nat} {options : Options} {p : Program} {code : List UInt8} {binary : Path}
  {t : FileTree} {events : List Event}

/-- The jump check is asked for and finds something. -/
def FindsBadJumps (options : Options) (p : Program) : Prop :=
  options.checkJumps = true ∧ ∃ bad, p.badJumps = .ok bad ∧ bad ≠ []

/-- The binary is written into a tree, with the directories above it. -/
def WritesBinary (room : Nat) (t : FileTree) (code : List UInt8) (binary : Path)
    (written : FileTree) : Prop :=
  ∃ made, t.ensureDirectory room binary.parent = .ok made ∧
    made.write binary ⟨code.toArray⟩ = .ok written

/-- The binary that has been written is read back. -/
theorem WritesBinary.read_eq {room : Nat} {t written : FileTree} {code : List UInt8} {binary : Path}
    (h : WritesBinary room t code binary written) :
    written.read binary = .ok ⟨code.toArray⟩ := by
  obtain ⟨made, -, hwrite⟩ := h
  obtain ⟨l, hwrites⟩ := FileTree.exists_writes hwrite
  exact hwrites.read_eq

/-- How a run ends that has come as far as the dump, which has left the tree. -/
inductive Concludes (room : Nat) (options : Options) (events : List Event) (t : FileTree)
    (p : Program) (code : List UInt8) (binary : Path) : Report → Prop where
  /-- The binary cannot be written. Directories above it may have been made. -/
  | failed {failure : Failure} {left : FileTree} : ¬FindsBadJumps options p →
    (∀ written, ¬WritesBinary room t code binary written) → FileTree.Extends t binary.parent left →
      Concludes room options events t p code binary ⟨exitFailed, some failure, events, left⟩
  | badJump {found : List Event} : FindsBadJumps options p → Quiet found →
    Concludes room options events t p code binary ⟨exitBadJump, none, events ++ found, t⟩
  | wrote {written : FileTree} : ¬FindsBadJumps options p →
    WritesBinary room t code binary written →
      Concludes room options events t p code binary
        ⟨exitOk, none, events ++ [.wrote code.length binary.text], written⟩

/-- All that is reported from here on are bad jumps and the binary. -/
theorem Concludes.quiet {r : Report} (h : Concludes room options events t p code binary r)
    (hevents : Quiet events) : Quiet r.events := by
  cases h with
  | failed _ _ _ => exact hevents
  | badJump _ hfound => exact quiet_append hevents hfound
  | wrote _ _ => exact quiet_append hevents (quiet_cons (by simp) quiet_nil)

/-- Writing the binary is all that is left for a run without bad jumps. It fails in one of two
places: where the directories are made, and where the file is written. -/
theorem writeBinary_concludes (room : Nat) (hgood : ¬FindsBadJumps options p) (events : List Event)
    (t : FileTree) (code : List UInt8) (binary : Path) :
    Concludes room options events t p code binary (writeBinary room events t code binary) := by
  rw [writeBinary]
  split
  · rename_i e herror
    refine .failed hgood ?_ (t.extends_residue room binary.parent)
    rintro written ⟨made, hmade, -⟩
    rw [herror] at hmade
    cases hmade
  · rename_i made hmade
    split
    · rename_i e herror
      refine .failed hgood ?_ (FileTree.extends_of_ensureDirectory hmade)
      rintro written ⟨made', hmade', hwritten⟩
      obtain rfl := Except.ok.inj (hmade.symm.trans hmade')
      rw [herror] at hwritten
      cases hwritten
    · rename_i written hwritten
      exact .wrote hgood ⟨made, hmade, hwritten⟩

/-- The jump check comes before the binary, and ends the run if it finds something. -/
theorem checkAndWrite_concludes (hp : p.Encodable) (room : Nat) (options : Options)
    (events : List Event) (t : FileTree) (code : List UInt8) (binary : Path) :
    Concludes room options events t p code binary
      (checkAndWrite room options events t p code binary) := by
  rw [checkAndWrite]
  split
  · rename_i hcheck
    -- Every program that can be encoded has an answer to the check.
    obtain ⟨bad, hbad⟩ := hp.exists_badJumps
    rw [hbad]
    cases bad with
    | nil =>
      refine writeBinary_concludes room ?_ events t code binary
      rintro ⟨-, bad, hbad', hne⟩
      exact hne (Except.ok.inj (hbad'.symm.trans hbad))
    | cons jump bad =>
      refine .badJump ⟨hcheck, _, hbad, List.cons_ne_nil jump bad⟩ ?_
      intro text hmem
      obtain ⟨found, -, hfound⟩ := List.mem_map.mp hmem
      cases hfound
  · rename_i hcheck
    exact writeBinary_concludes room (fun hfinds => hcheck hfinds.1) events t code binary

/-- A run that has come as far as the program ends with the dump, or it goes on behind it. -/
theorem dumpAndCheck_cases (hp : p.Encodable) (room : Nat) (options : Options)
    (events : List Event) (t : FileTree) (code : List UInt8) (binary : Path) :
    (∃ next, Dumped t p options.dump next ∧ Concludes room options events next p code binary
        (dumpAndCheck room options events t p code binary)) ∨
      (∀ next, ¬Dumped t p options.dump next) ∧
        ∃ failure, dumpAndCheck room options events t p code binary =
          ⟨exitFailed, some failure, events, t⟩ := by
  rw [dumpAndCheck]
  cases options.dump with
  | none =>
    exact Or.inl ⟨t, .skipped, checkAndWrite_concludes hp room options events t code binary⟩
  | some path =>
    -- Where there are no rows, or they cannot be written, no tree has the dump in it.
    dsimp only
    split
    · rename_i e herror
      refine Or.inr ⟨fun next hdumped => ?_, _, rfl⟩
      cases hdumped with
      | written hrows _ =>
        rw [herror] at hrows
        cases hrows
    · rename_i rows hrows
      split
      · rename_i e herror
        refine Or.inr ⟨fun next hdumped => ?_, _, rfl⟩
        cases hdumped with
        | written hrows' hwrite =>
          obtain rfl := Except.ok.inj (hrows.symm.trans hrows')
          rw [herror] at hwrite
          cases hwrite
      · rename_i next hwrite
        exact Or.inl ⟨next, .written hrows hwrite,
          checkAndWrite_concludes hp room options events next code binary⟩

/-- The rows of a listing are all the listing reports. -/
theorem quiet_of_listingEvents (h : listingEvents p = .ok events) : Quiet events := by
  obtain ⟨rows, -, hrows⟩ := except_bind_eq_ok_iff.mp h
  intro text hmem
  obtain ⟨row, hrow⟩ := exists_forall₂_iff.mp ⟨rows, (mapM_eq_ok_iff.mp hrows).flip⟩ _ hmem
  obtain ⟨bytes, -, hmap⟩ := except_bind_eq_ok_iff.mp hrow
  obtain ⟨mnemonic, -, hlisted⟩ := except_map_eq_ok_iff.mp hmap
  cases hlisted

/-- The listing only adds to what is reported. -/
theorem listAndDump_eq (hp : p.Encodable) (room : Nat) (options : Options) (events : List Event)
    (t : FileTree) (code : List UInt8) (binary : Path) :
    ∃ rows, Quiet rows ∧ listAndDump room options events t p code binary =
      dumpAndCheck room options (events ++ rows) t p code binary := by
  rw [listAndDump]
  split
  · obtain ⟨rows, hrows⟩ := hp.exists_listingEvents
    refine ⟨rows, quiet_of_listingEvents hrows, ?_⟩
    rw [hrows]
  · refine ⟨[], quiet_nil, ?_⟩
    rw [List.append_nil]

end

/-! ### From the sources on -/

section
variable {t : FileTree} {sources : List String} {units : List SourceUnit}

/-- What is read is what the sources hold, in their order. -/
theorem holds_of_readSources {events : List Event}
    (h : readSources t (sources.map Path.ofString) = (events, .ok units)) :
    List.Forall₂ (Holds t) sources units := by
  -- The first source is read before the others, and the others as if they were alone.
  induction sources generalizing units events with
  | nil =>
    cases h
    exact .nil
  | cons source sources ih =>
    rw [List.map_cons, readSources] at h
    split at h
    · cases h
    · rename_i u hu
      dsimp only at h
      generalize hrest : readSources t (sources.map Path.ofString) = rest at h
      obtain ⟨later, result⟩ := rest
      obtain ⟨-, hresult⟩ := Prod.mk.inj h
      obtain ⟨others, rfl, rfl⟩ := except_map_eq_ok_iff.mp hresult
      obtain ⟨content, hcontent, hunit⟩ := except_bind_eq_ok_iff.mp hu
      exact .cons ⟨content, hcontent, hunit⟩ (ih hrest)

/-- Sources hold one list of units at most. -/
theorem holds_unique {units' : List SourceUnit} (h : List.Forall₂ (Holds t) sources units)
    (h' : List.Forall₂ (Holds t) sources units') : units = units' := by
  obtain ⟨events, hread⟩ := exists_readSources h
  obtain ⟨events', hread'⟩ := exists_readSources h'
  rw [hread] at hread'
  exact Except.ok.inj (Prod.mk.inj hread').2

/-- Reading sources reports which files are read. Whether assembly fails is not known yet. -/
theorem quiet_readSources (t : FileTree) (paths : List Path) : Quiet (readSources t paths).1 := by
  induction paths with
  | nil => exact quiet_nil
  | cons path paths ih =>
    rw [readSources]
    split
    · exact quiet_cons (by simp) quiet_nil
    · exact quiet_cons (by simp) ih

end

/-- How a run ends that is started, with the events and the tree that it leaves. -/
inductive Course (room : Nat) (options : Options) (t : FileTree) (sources : List String)
    (binary : Path) : Report → Prop where
  /-- A source cannot be read. -/
  | unread {failure : Failure} {events : List Event} :
    (¬∃ units, List.Forall₂ (Holds t) sources units) → Quiet events →
      Course room options t sources binary ⟨exitFailed, some failure, events, t⟩
  /-- The units cannot be assembled or encoded. -/
  | unassembled {units : List SourceUnit} {e : Error} {failure : Option Failure}
    {events : List Event} : List.Forall₂ (Holds t) sources units → Assembly.code units = .error e →
      ((∃ text, .failed text ∈ events) ↔ isReported e = true) →
        Course room options t sources binary ⟨exitFailed, failure, events, t⟩
  /-- The dump is asked for and cannot be written. -/
  | undumped {units : List SourceUnit} {p : Program} {failure : Failure} {events : List Event} :
    List.Forall₂ (Holds t) sources units → Assembly.program units = .ok p →
      (∀ next, ¬Dumped t p options.dump next) → Quiet events →
        Course room options t sources binary ⟨exitFailed, some failure, events, t⟩
  /-- The run comes to the jump check and the binary. -/
  | concluded {units : List SourceUnit} {p : Program} {code : List UInt8} {next : FileTree}
    {events : List Event} {r : Report} : List.Forall₂ (Holds t) sources units →
      Assembly.program units = .ok p → p.code = .ok code → Dumped t p options.dump next →
        Quiet events → Concludes room options events next p code binary r →
          Course room options t sources binary r

/-- Assembling files takes one of these courses. -/
theorem assembleFiles_course (room : Nat) (options : Options) (t : FileTree) (sources : List String)
    (binary : Path) :
    Course room options t sources binary
      (assembleFiles room options t (sources.map Path.ofString) binary) := by
  have hquiet := quiet_readSources t (sources.map Path.ofString)
  rw [assembleFiles]
  split
  · rename_i events e hread
    rw [hread] at hquiet
    refine .unread ?_ (quiet_cons (by simp) hquiet)
    rintro ⟨units, hunits⟩
    obtain ⟨events', hread'⟩ := exists_readSources hunits
    rw [hread] at hread'
    cases hread'
  · rename_i events units hread
    rw [hread] at hquiet
    have hunits := holds_of_readSources hread
    -- Up to here no event says that assembly has failed, whatever it has come to.
    have hresult : (Assembly.ofUnits units).result = Assembly.program units := rfl
    have hevents : Quiet (.started :: events ++ (Assembly.ofUnits units).events) :=
      quiet_append (quiet_cons (by simp) hquiet) (Assembly.quiet_events units)
    dsimp only
    rw [hresult]
    cases hprogram : Assembly.program units with
    | ok p =>
      have hencodable := Assembly.encodable_of_program hprogram
      obtain ⟨code, hcode⟩ := Program.encodable_iff_exists_code.mp hencodable
      rw [except_bind_ok, hcode]
      obtain ⟨rows, hrows, hlisted⟩ := listAndDump_eq hencodable room options
        (.started :: events ++ (Assembly.ofUnits units).events) t code binary
      have hlater := quiet_append hevents hrows
      show Course _ _ _ _ _ (listAndDump _ _ _ _ _ _ _)
      rw [hlisted]
      rcases dumpAndCheck_cases hencodable room options _ t code binary with
        ⟨next, hdump, hconcludes⟩ | ⟨hnone, failure, heq⟩
      · exact .concluded hunits hprogram hcode hdump hlater hconcludes
      · rw [heq]
        exact .undumped hunits hprogram hnone hlater
    | error e =>
      have hcode : Assembly.code units = .error e := by
        rw [Assembly.code, hprogram, except_bind_error]
      rw [except_bind_error]
      dsimp only
      split
      · rename_i hreport
        exact .unassembled hunits hcode (iff_of_true ⟨_, List.mem_append_right _ List.mem_cons_self⟩
          hreport)
      · rename_i hreport
        refine .unassembled hunits hcode (iff_of_false ?_ hreport)
        rintro ⟨text, hmem⟩
        exact hevents text hmem

end CommandLine

end EvmAssembler
