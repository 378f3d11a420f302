import EvmAssembler.Proofs.Assembly.Agreement
import EvmAssembler.Proofs.Assembly.Escape
import EvmAssembler.Proofs.FileTree
import EvmAssembler.Proofs.Jumps

/-!
# `EvmAssembler.Proofs.CommandLine.Containment`: how a run ends

A run is meant to end in one of three ways: the binary is written, assembly has failed and the log
says so, or the jump check has found a bad jump. Everything else is a failure that no exit code is
reserved for. `run_ends` takes away the outer reasons for such a failure, which are sources that
are missing or hold no text and paths that cannot be written to, and says what is left: the run
ends in one of the three ways if its units do not escape, and otherwise it fails with the error
they escape with.

Whatever has been assembled goes through all later steps: `listingEvents`, `dump` and the jump
check have an answer for every program that can be encoded.
-/

set_option autoImplicit false

namespace EvmAssembler

open CommandLine

/-! ### What becomes of a program -/

/-- Whatever has bytes has a record. -/
theorem Instruction.Encodes.exists_record {i : Instruction} {bytes : List UInt8}
    (h : i.Encodes bytes) : ∃ fields, i.record = .ok fields := by
  cases h with
  | fixed op => exact ⟨_, rfl⟩
  | _ => exact ⟨_, rfl⟩

namespace Program

variable {p : Program}

/-- The rows of a program are made of its instructions. -/
theorem mem_of_mem_rowsFrom {offset : Nat} {row : Nat × Instruction}
    (h : row ∈ p.rowsFrom offset) : row.2 ∈ p := by
  induction p generalizing offset with
  | nil => cases h
  | cons i p ih =>
    rcases List.mem_cons.mp h with rfl | h
    · exact List.mem_cons_self
    · exact List.mem_cons_of_mem i (ih h)

/-- What can be done with every row of an encodable program can be done with its listing. -/
theorem exists_mapM_listing {α : Type} {f : Nat × Instruction → Except Error α}
    (h : p.Encodable) (hf : ∀ row, (∃ bytes, row.2.Encodes bytes) → ∃ a, f row = .ok a) :
    ∃ as, p.listing.bind (·.mapM f) = .ok as := by
  rw [listing_eq_rows h, except_bind_ok]
  obtain ⟨as, has⟩ := exists_forall₂_iff.mpr fun row hrow =>
    hf row ((h row.2 (mem_of_mem_rowsFrom hrow)).imp fun _ => .of_encode)
  exact ⟨as, mapM_eq_ok_iff.mpr has⟩

/-- An encodable program can be listed. -/
theorem Encodable.exists_listingEvents (h : p.Encodable) :
    ∃ events, listingEvents p = .ok events := by
  refine exists_mapM_listing h ?_
  rintro ⟨offset, i⟩ ⟨bytes, hbytes⟩
  obtain ⟨text, htext⟩ := Layout.exists_mnemonic hbytes
  exact ⟨.listed offset bytes text, by rw [listingEvent, hbytes.encode, except_bind_ok, htext]; rfl⟩

/-- An encodable program can be dumped. -/
theorem Encodable.exists_dump (h : p.Encodable) : ∃ rows, dump p = .ok rows := by
  have hrows : ∃ rows, p.listing.bind (·.mapM dumpRow) = .ok rows := by
    refine exists_mapM_listing h ?_
    rintro ⟨offset, i⟩ ⟨bytes, hbytes⟩
    obtain ⟨fields, hfields⟩ := hbytes.exists_record
    exact ⟨.dict (("Offset", .int offset) :: fields), by rw [dumpRow, hfields]; rfl⟩
  obtain ⟨rows, hrows⟩ := hrows
  exact ⟨.list rows, by rw [dump, hrows]; rfl⟩

open Classical in
/-- The jumps of an encodable program can be checked. -/
theorem Encodable.exists_badJumps (h : p.Encodable) : ∃ bad, p.badJumps = .ok bad :=
  ⟨_, badJumps_eq h (fun n => decide (p.JumpdestAt n)) fun _ => decide_eq_true_iff⟩

end Program

/-- Whatever units assemble to can be encoded. -/
theorem Assembly.encodable_of_program {units : List SourceUnit} {p : Program}
    (h : program units = .ok p) : p.Encodable := by
  obtain ⟨script, l, -, -, hlaid, -, hkept⟩ := exists_laid_of_program h
  exact (sound_of_kept hkept hlaid.sound).1

/-- An error that is reported has a message. -/
theorem exists_message_of_isReported {e : Error} (h : isReported e = true) :
    ∃ text, e.message = some text := by
  cases e <;> first | exact ⟨_, rfl⟩ | cases h

namespace CommandLine

/-! ### Reading the sources -/

/-- The unit of a file of text. -/
theorem unitOfFile_toUTF8 (p : Path) (text : String) :
    unitOfFile p text.toUTF8 =
      .ok ⟨p.stem, none, String.ofList (Text.unifyLineEnds text.toList)⟩ := by
  have htext : String.fromUTF8? text.toUTF8 = some text := dif_pos text.isValidUTF8
  rw [unitOfFile, htext]

/-- The source is a file that holds the unit. -/
def Holds (t : FileTree) (source : String) (u : SourceUnit) : Prop :=
  ∃ content, t.read (.ofString source) = .ok content ∧
    unitOfFile (.ofString source) content = .ok u

/-- Files of valid text hold units. -/
theorem exists_holds {t : FileTree} {sources : List String}
    (hfiles : ∀ source ∈ sources, t.isFile source = true)
    (htexts : ∀ source ∈ sources, ∀ content, t.read (.ofString source) = .ok content →
      ∃ text, String.fromUTF8? content = some text) :
    ∃ units, List.Forall₂ (Holds t) sources units := by
  refine exists_forall₂_iff.mpr fun source hsource => ?_
  obtain ⟨content, hcontent⟩ := FileTree.exists_read_of_isFile (hfiles source hsource)
  obtain ⟨text, htext⟩ := htexts source hsource content hcontent
  refine ⟨⟨(Path.ofString source).stem, none,
    String.ofList (Text.unifyLineEnds text.toList)⟩, content, hcontent, ?_⟩
  rw [unitOfFile, htext]

/-- A source of a given text holds a unit. -/
theorem holds_of_read {t : FileTree} {source text : String}
    (h : t.read (.ofString source) = .ok text.toUTF8) :
    Holds t source ⟨(Path.ofString source).stem, none,
      String.ofList (Text.unifyLineEnds text.toList)⟩ :=
  ⟨text.toUTF8, h, unitOfFile_toUTF8 _ _⟩

/-- And it holds no other. -/
theorem Holds.eq_of_read {t : FileTree} {source text : String} {u : SourceUnit}
    (h : Holds t source u) (hread : t.read (.ofString source) = .ok text.toUTF8) :
    u = ⟨(Path.ofString source).stem, none,
      String.ofList (Text.unifyLineEnds text.toList)⟩ := by
  obtain ⟨content, hcontent, hu⟩ := h
  obtain rfl := Except.ok.inj (hread.symm.trans hcontent)
  exact Except.ok.inj (hu.symm.trans (unitOfFile_toUTF8 _ _))

/-- Sources that hold units are read. -/
theorem exists_readSources {t : FileTree} {sources : List String} {units : List SourceUnit}
    (h : List.Forall₂ (Holds t) sources units) :
    ∃ events, readSources t (sources.map Path.ofString) = (events, .ok units) := by
  induction h with
  | nil => exact ⟨[], rfl⟩
  | @cons source u sources units hfirst _ ih =>
    obtain ⟨content, hcontent, hunit⟩ := hfirst
    obtain ⟨events, hevents⟩ := ih
    refine ⟨.collecting (Path.ofString source).text :: events, ?_⟩
    rw [List.map_cons, readSources, hcontent, except_bind_ok, hunit]
    dsimp only
    rw [hevents]
    rfl

/-! ### Writing -/

/-- The binary can be written, whatever is in it. -/
def CanWrite (room : Nat) (t : FileTree) (binary : Path) : Prop :=
  ∃ made, t.ensureDirectory room binary.parent = .ok made ∧
    ∀ content, ∃ written, made.write binary content = .ok written

/-- The paths of a run can be written to, whatever is written. If there is a dump, the binary is
written where the dump is already there. -/
structure UsablePaths (room : Nat) (t : FileTree) (options : Options) (binary : Path) : Prop where
  plain : options.dump = none → CanWrite room t binary
  dumped : ∀ path, options.dump = some path → path.contains '\x00' = false ∧
    ∀ content, ∃ next, t.write (.ofString path) content = .ok next ∧ CanWrite room next binary

/-! ### From a program on -/

section
variable {room : Nat} {options : Options} {t : FileTree} {p : Program} {binary : Path}

/-- The run has ended with the binary, or with the jump check if that was asked for. -/
def Finishes (options : Options) (p : Program) (r : Report) : Prop :=
  r.failure = none ∧ (r.exit = 0 ∨
    r.exit = 3 ∧ options.checkJumps = true ∧ ∃ bad, p.badJumps = .ok bad ∧ bad ≠ [])

/-- A binary that can be written is written, and the run ends with exit code 0. -/
theorem finishes_writeBinary (h : CanWrite room t binary) (events : List Event)
    (code : List UInt8) : Finishes options p (writeBinary room events t code binary) := by
  obtain ⟨made, hmade, hwrite⟩ := h
  obtain ⟨written, hwritten⟩ := hwrite ⟨code.toArray⟩
  rw [writeBinary, hmade]
  dsimp only
  rw [hwritten]
  exact ⟨rfl, Or.inl rfl⟩

/-- A jump check in front of that finds nothing, or ends the run with what it has found. -/
theorem finishes_checkAndWrite (hp : p.Encodable) (h : CanWrite room t binary) (events : List Event)
    (code : List UInt8) :
    Finishes options p (checkAndWrite room options events t p code binary) := by
  rw [checkAndWrite]
  split
  · rename_i hcheck
    obtain ⟨bad, hbad⟩ := hp.exists_badJumps
    rw [hbad]
    cases bad with
    | nil => exact finishes_writeBinary h events code
    | cons jump bad => exact ⟨rfl, Or.inr ⟨rfl, hcheck, _, hbad, List.cons_ne_nil _ _⟩⟩
  · exact finishes_writeBinary h events code

/-- A dump in front of those is written, and leaves a tree in which the binary can be written. -/
theorem finishes_dumpAndCheck (hp : p.Encodable) (h : UsablePaths room t options binary)
    (events : List Event) (code : List UInt8) :
    Finishes options p (dumpAndCheck room options events t p code binary) := by
  rw [dumpAndCheck]
  split
  · rename_i hnone
    exact finishes_checkAndWrite hp (h.plain hnone) events code
  · rename_i path hsome
    obtain ⟨rows, hrows⟩ := hp.exists_dump
    obtain ⟨next, hnext, hwrite⟩ := (h.dumped path hsome).2 (rows.json 0).toUTF8
    rw [hrows]
    dsimp only
    rw [hnext]
    exact finishes_checkAndWrite hp hwrite events code

/-- Whatever can be encoded goes through all that comes after assembling. -/
theorem finishes_listAndDump (hp : p.Encodable) (h : UsablePaths room t options binary)
    (events : List Event) (code : List UInt8) :
    Finishes options p (listAndDump room options events t p code binary) := by
  rw [listAndDump]
  split
  · obtain ⟨rows, hrows⟩ := hp.exists_listingEvents
    rw [hrows]
    exact finishes_dumpAndCheck hp h _ code
  · exact finishes_dumpAndCheck hp h events code

end

/-! ### How a run ends -/

/-- The three ways for a run to end that its exit code tells apart. -/
inductive Ends (args : List String) (options : Options) (units : List SourceUnit) (r : Report) :
    Prop where
  /-- The units are assembled and the binary is written. -/
  | wrote {p : Program} : Assembly.program units = .ok p → r.failure = none → r.exit = 0 →
    Ends args options units r
  /-- Assembly has failed with an error of the source or the encoder, and the log says so. -/
  | failed {e : Error} {text : String} : Assembly.program units = .error e →
    isReported e = true → e.message = some text → r.failure = none → r.exit = 1 →
      "ERROR:root:Assembly failed: " ++ text ∈ log args r → Ends args options units r
  /-- The units are assembled, and the jump check was asked for and has found a bad jump. -/
  | badJump {p : Program} {bad : List (Nat × Nat)} : Assembly.program units = .ok p →
    options.checkJumps = true → p.badJumps = .ok bad → bad ≠ [] → r.failure = none →
      r.exit = 3 → Ends args options units r

/-- A failed assembly is shown in the log, whether the run is verbose or not. -/
theorem mem_log_of_failed {args : List String} {r : Report} {text : String}
    (h : .failed text ∈ r.events) : "ERROR:root:Assembly failed: " ++ text ∈ log args r := by
  have hshown : isShown (isVerbose args) (.failed text) = true := Bool.or_true _
  refine List.mem_map.mpr ⟨.failed text, List.mem_filter.mpr ⟨h, hshown⟩, ?_⟩
  show ("ERROR" ++ ":root:") ++ ("Assembly failed: " ++ text) = _
  rw [← String.append_assoc]
  rfl

/-- Once the sources are read, it is assembling that decides how a run ends. -/
theorem assembleFiles_ends {room : Nat} {args : List String} {options : Options}
    {sources : List Path} {binary : Path} {t : FileTree} {units : List SourceUnit}
    {events : List Event}
    (hread : readSources t sources = (events, .ok units))
    (hpaths : UsablePaths room t options binary) :
    let r := assembleFiles room options t sources binary
    (∀ e, ¬Assembly.Escapes units e) ∧ Ends args options units r ∨
      ∃ e, Assembly.Escapes units e ∧ r.failure = some (.library e) ∧ r.exit = 1 := by
  have hresult : (Assembly.ofUnits units).result = Assembly.program units := rfl
  rw [assembleFiles, hread]
  dsimp only
  rw [hresult]
  cases hprogram : Assembly.program units with
  | ok p =>
    have hnone : ∀ e, ¬Assembly.Escapes units e := by
      intro e hescapes
      have herror := (Assembly.program_eq_unreported_iff.mpr hescapes).1
      rw [hprogram] at herror
      cases herror
    -- What assembles has bytes, so only the jump check and the paths are left to decide.
    have hencodable := Assembly.encodable_of_program hprogram
    obtain ⟨code, hcode⟩ := Program.encodable_iff_exists_code.mp hencodable
    rw [except_bind_ok, hcode]
    obtain ⟨hfailure, hexit⟩ :=
      finishes_listAndDump hencodable hpaths (.started :: events ++ (Assembly.ofUnits units).events)
        code
    rcases hexit with hexit | ⟨hexit, hcheck, bad, hbad, hne⟩
    · exact Or.inl ⟨hnone, .wrote hprogram hfailure hexit⟩
    · exact Or.inl ⟨hnone, .badJump hprogram hcheck hbad hne hfailure hexit⟩
  | error e =>
    rw [except_bind_error]
    dsimp only
    split
    · rename_i hreport
      -- Units that escape fail with an error that is not reported, and this one is.
      have hnone : ∀ d, ¬Assembly.Escapes units d := by
        intro d hescapes
        obtain ⟨herror, hunreported⟩ := Assembly.program_eq_unreported_iff.mpr hescapes
        obtain rfl := Except.error.inj (hprogram.symm.trans herror)
        rw [hreport] at hunreported
        cases hunreported
      obtain ⟨text, htext⟩ := exists_message_of_isReported hreport
      rw [htext]
      exact Or.inl ⟨hnone, .failed hprogram hreport htext rfl rfl
        (mem_log_of_failed (List.mem_append_right _ List.mem_cons_self))⟩
    · rename_i hreport
      exact Or.inr ⟨e, Assembly.program_eq_unreported_iff.mp
        ⟨hprogram, Bool.eq_false_iff.mpr hreport⟩, rfl, rfl⟩

/-- A run whose sources are all there and whose dump path can be looked up is started. -/
theorem run_eq_assembleFiles {room : Nat} {args : List String} {options : Options}
    {sources : List String} {binary : String} {t : FileTree}
    (hargs : Request.ofArguments args = some (.assemble options sources binary))
    (hfiles : ∀ source ∈ sources, t.isFile source = true)
    (hdump : ∀ path, options.dump = some path → path.contains '\x00' = false) :
    run room args t =
      assembleFiles room options t (sources.map Path.ofString) (.ofString binary) := by
  have hunfit : unfitPaths options t sources = [] := by
    rw [unfitPaths, List.append_eq_nil_iff, List.filter_eq_nil_iff, List.filter_eq_nil_iff]
    constructor
    · intro path hpath
      rw [hdump path (Option.mem_toList.mp hpath)]
      exact Bool.false_ne_true
    · intro source hsource
      rw [hfiles source hsource]
      exact Bool.false_ne_true
  rw [run, hargs]
  dsimp only
  rw [hunfit]

/-- Where the sources are files of text and the paths can be written to, a run ends in one of its
three ways, unless its units escape. Then it fails with the error they escape with. -/
theorem run_ends {room : Nat} {args : List String} {options : Options}
    {sources : List String} {binary : String} {t : FileTree}
    (hargs : Request.ofArguments args = some (.assemble options sources binary))
    (hfiles : ∀ source ∈ sources, t.isFile source = true)
    (htexts : ∀ source ∈ sources, ∀ content, t.read (.ofString source) = .ok content →
      ∃ text, String.fromUTF8? content = some text)
    (hpaths : UsablePaths room t options (.ofString binary)) :
    ∃ units, List.Forall₂ (Holds t) sources units ∧
      ((∀ e, ¬Assembly.Escapes units e) ∧ Ends args options units (run room args t) ∨
        ∃ e, Assembly.Escapes units e ∧ (run room args t).failure = some (.library e) ∧
          (run room args t).exit = 1) := by
  obtain ⟨units, hunits⟩ := exists_holds hfiles htexts
  obtain ⟨events, hread⟩ := exists_readSources hunits
  rw [run_eq_assembleFiles hargs hfiles fun path hpath => (hpaths.dumped path hpath).1]
  exact ⟨units, hunits, assembleFiles_ends hread hpaths⟩

/-- Two sources: an instruction with a form feed behind it, and one without. -/
def workspace : FileTree :=
  ⟨[(["paged.easm"], .file "stop\x0c".toUTF8), (["plain.easm"], .file "stop".toUTF8)]⟩

/-- A binary can be written beside them. -/
theorem usablePaths_workspace (room : Nat) :
    UsablePaths room workspace .default (.ofString "out.bin") := by
  have hname : FileTree.IsFileName "out.bin" := by decide +kernel
  have hfree : workspace.node? ["out.bin"] ≠ some .directory := by
    show none ≠ some Node.directory
    exact (Option.some_ne_none _).symm
  refine ⟨fun _ => ⟨workspace, hname.ensureDirectory_parent workspace room, fun content => ?_⟩,
    fun path hpath => by cases hpath⟩
  exact ⟨_, hname.write_eq hfree content⟩

/-- The source with the form feed is found, and read as it is. -/
theorem read_workspace_paged :
    workspace.isFile "paged.easm" = true ∧
      workspace.read (.ofString "paged.easm") = .ok "stop\x0c".toUTF8 := by
  have hname : FileTree.IsFileName "paged.easm" := by decide +kernel
  exact ⟨hname.isFile_eq rfl, hname.read_eq rfl⟩

/-- So is the other one. -/
theorem read_workspace_plain :
    workspace.isFile "plain.easm" = true ∧
      workspace.read (.ofString "plain.easm") = .ok "stop".toUTF8 := by
  have hname : FileTree.IsFileName "plain.easm" := by decide +kernel
  exact ⟨hname.isFile_eq rfl, hname.read_eq rfl⟩

/-- Behind the first source's only segment there is the form feed. -/
theorem unreadable_paged : Source.Unreadable "stop\x0c".toList .unparsedText := by
  have hleft : (Source.segments (Text.expandTabs "stop\x0c".toList)).2 = ['\x0c'] := by
    decide +kernel
  have hactions : ∀ s ∈ (Source.segments (Text.expandTabs "stop\x0c".toList)).1,
      ∀ c ∈ s.actions, c.isOk = true := by decide +kernel
  have hblank : Text.isBlank '\x0c' = true := by decide +kernel
  refine .blankLine (fun s hs c hc => ?_)
    ⟨[], '\x0c', [], [], hleft, by simp, rfl, by simpa using hblank, by simp⟩
  cases c with
  | ok a => exact ⟨a, rfl⟩
  | error e => cases hactions s hs _ hc

/-- The unit of the first source escapes with the form feed, and with nothing else. -/
theorem escapes_paged_iff {e : Error} :
    Assembly.Escapes [⟨"paged", none, "stop\x0c"⟩] e ↔ e = .unparsedText := by
  have hpaged : Assembly.Escapes [⟨"paged", none, "stop\x0c"⟩] .unparsedText :=
    .text (List.nil_append _).symm rfl Script.isClean_nil unreadable_paged
  constructor
  · intro h
    have herror := (Assembly.program_eq_unreported_iff.mpr h).1
    rw [(Assembly.program_eq_unreported_iff.mpr hpaged).1] at herror
    exact (Except.error.inj herror).symm
  · rintro rfl
    exact hpaged

/-- The unit of the second source assembles. -/
theorem exists_program_plain : ∃ p, Assembly.program [⟨"plain", none, "stop"⟩] = .ok p := by
  have hcode : (Assembly.code [⟨"plain", none, "stop"⟩]).toOption = some [0x00] := by
    decide +kernel
  obtain ⟨p, hp, -⟩ := except_bind_eq_ok_iff.mp (eq_ok_of_toOption hcode)
  exact ⟨p, hp⟩

/-- The form feed is white space that is not skipped, so the first source takes the run down with
it. The second is assembled. -/
theorem run_ends_workspace :
    (run 1 ["paged.easm", "out.bin"] workspace).failure = some (.library .unparsedText) ∧
      (run 1 ["paged.easm", "out.bin"] workspace).exit = 1 ∧
      (run 1 ["plain.easm", "out.bin"] workspace).failure = none ∧
      (run 1 ["plain.easm", "out.bin"] workspace).exit = 0 := by
  have hends : ∀ (source text : String) (u : SourceUnit),
      Request.ofArguments [source, "out.bin"] = some (.assemble .default [source] "out.bin") →
      workspace.isFile source = true ∧ workspace.read (.ofString source) = .ok text.toUTF8 →
      ⟨(Path.ofString source).stem, none, String.ofList (Text.unifyLineEnds text.toList)⟩ = u →
      ((∀ e, ¬Assembly.Escapes [u] e) ∧
          Ends [source, "out.bin"] .default [u] (run 1 [source, "out.bin"] workspace) ∨
        ∃ e, Assembly.Escapes [u] e ∧
          (run 1 [source, "out.bin"] workspace).failure = some (.library e) ∧
          (run 1 [source, "out.bin"] workspace).exit = 1) := by
    intro source text u hargs hsource hunit
    obtain ⟨hfile, hread⟩ := hsource
    have htext : String.fromUTF8? text.toUTF8 = some text := dif_pos text.isValidUTF8
    obtain ⟨units, hunits, hrun⟩ := run_ends hargs (by simpa using hfile)
      (by simpa [hread] using ⟨text, htext⟩) (usablePaths_workspace 1)
    obtain ⟨v, rest, hv, hrest, rfl⟩ := List.forall₂_cons_left_iff.mp hunits
    obtain rfl := List.forall₂_nil_left_iff.mp hrest
    rwa [hv.eq_of_read hread, hunit] at hrun
  have hpaged := hends _ _ ⟨"paged", none, "stop\x0c"⟩ (by decide +kernel) read_workspace_paged
    (by decide +kernel)
  have hplain := hends _ _ ⟨"plain", none, "stop"⟩ (by decide +kernel) read_workspace_plain
    (by decide +kernel)
  have hfailed : (run 1 ["paged.easm", "out.bin"] workspace).failure =
      some (.library .unparsedText) ∧ (run 1 ["paged.easm", "out.bin"] workspace).exit = 1 := by
    rcases hpaged with ⟨hnone, -⟩ | ⟨e, hescapes, hfailure, hexit⟩
    · exact absurd (escapes_paged_iff.mpr rfl) (hnone _)
    · obtain rfl := escapes_paged_iff.mp hescapes
      exact ⟨hfailure, hexit⟩
  obtain ⟨p, hp⟩ := exists_program_plain
  rcases hplain with ⟨-, hends⟩ | ⟨e, hescapes, -, -⟩
  · cases hends with
    | wrote _ hfailure hexit => exact ⟨hfailed.1, hfailed.2, hfailure, hexit⟩
    | failed herror _ _ _ _ _ =>
      rw [hp] at herror
      cases herror
    | badJump _ hcheck _ _ _ _ => cases hcheck
  · have herror := (Assembly.program_eq_unreported_iff.mpr hescapes).1
    rw [hp] at herror
    cases herror

end CommandLine

end EvmAssembler
