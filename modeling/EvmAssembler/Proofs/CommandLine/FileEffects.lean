import EvmAssembler.Proofs.CommandLine.Course

/-!
# `EvmAssembler.Proofs.CommandLine.FileEffects`: what a run does to files

`run_fileEffects` reads off the courses of a run what they have to do with files: which of them an
exit code stands for, what the binary holds, and that nothing changes but the dump, the binary, and
directories on the way to the binary that were missing (`Touched`).

The paths of a run may overlap. The dump and the binary can be one file, or one of the sources, and
it does not matter: the sources have been read by then, and the binary is written last.
-/

set_option autoImplicit false

namespace EvmAssembler

namespace CommandLine

/-! ### The line of a failed assembly -/

/-- No other event leaves such a line. -/
theorem eq_failed_of_logLine {e : Event} {text : String}
    (h : logLine e = "ERROR:root:Assembly failed: " ++ text) : e = .failed text := by
  have hline : "ERROR:root:Assembly failed: " = "ERROR:root:" ++ "Assembly failed: " := rfl
  rw [hline, String.append_assoc] at h
  cases e with
  | failed message =>
    have hmessage : "Assembly failed: " ++ message = "Assembly failed: " ++ text :=
      (String.append_right_inj _).mp h
    rw [(String.append_right_inj _).mp hmessage]
  | badJump offset target =>
    -- The level is the same, but the message starts with another letter.
    have hmessage : "Jump at " ++ Event.hexOffset offset ++ " targets " ++ Event.hexOffset target ++
        ", not a JUMPDEST" = "Assembly failed: " ++ text := (String.append_right_inj _).mp h
    have hletter := congrArg (fun line => line.toList.head?) hmessage
    simp at hletter
  | _ =>
    have hletter := congrArg (fun line => line.toList.head?) h
    simp [logLine, Event.level, Level.name] at hletter

/-- So the log has such a line when the event has been reported. -/
theorem exists_line_iff {args : List String} {r : Report} :
    (∃ text, "ERROR:root:Assembly failed: " ++ text ∈ log args r) ↔
      ∃ text, .failed text ∈ r.events := by
  constructor
  · rintro ⟨text, hmem⟩
    obtain ⟨e, he, hline⟩ := List.mem_map.mp hmem
    exact ⟨text, eq_failed_of_logLine hline ▸ (List.mem_filter.mp he).1⟩
  · rintro ⟨text, hmem⟩
    exact ⟨text, mem_log_of_failed hmem⟩

/-! ### Where changes may be -/

/-- The locations that a run may have changed. A path of a file is looked up in the tree in which it
is written, so for the binary this is the tree that is left. -/
inductive Touched (options : Options) (binary : Path) (t t' : FileTree) (l : Location) : Prop where
  | dump {path : String} : options.dump = some path → t.locate (.ofString path) = .ok l →
    Touched options binary t t' l
  | binary : t'.locate binary = .ok l → Touched options binary t t' l
  /-- A directory that was missing, on the way to the binary. -/
  | directory {above : List String} : t.node? l = none → t'.node? l = some .directory →
    above <+: binary.parent.parts → t'.locate ⟨binary.anchor, above⟩ = .ok l →
      Touched options binary t t' l

section
variable {room : Nat} {options : Options} {t next made : FileTree} {p : Program} {binary : Path}

/-- The dump changes the file that its path leads to. -/
theorem Dumped.locate_eq {dump? : Option String} {l : Location} (h : Dumped t p dump? next)
    (hl : next.node? l ≠ t.node? l) :
    ∃ path, dump? = some path ∧ t.locate (.ofString path) = .ok l := by
  cases h with
  | skipped => exact absurd rfl hl
  | written hrows hwrite =>
    obtain ⟨m, hm⟩ := FileTree.exists_writes hwrite
    have heq : l = m := by
      by_contra hne
      exact hl (hm.others l hne)
    exact ⟨_, rfl, heq ▸ hm.located⟩

/-- And it makes no directory and takes none away. -/
theorem Dumped.directory_iff {dump? : Option String} {l : Location} (h : Dumped t p dump? next) :
    next.node? l = some .directory ↔ t.node? l = some .directory := by
  cases h with
  | skipped => exact Iff.rfl
  | written hrows hwrite =>
    obtain ⟨m, hm⟩ := FileTree.exists_writes hwrite
    exact hm.directory_iff

/-- Behind the dump there may be new directories. -/
theorem touched_of_extends {l : Location} (hdump : Dumped t p options.dump next)
    (hmade : FileTree.Extends next binary.parent made) (hl : made.node? l ≠ t.node? l) :
    Touched options binary t made l := by
  by_cases hnext : next.node? l = t.node? l
  · -- What the dump has left alone was missing, since nothing else is changed behind it.
    cases hnode : next.node? l with
    | some n =>
      rw [hmade.kept l n hnode, ← hnode, hnext] at hl
      exact absurd rfl hl
    | none =>
      rw [← hnext, hnode] at hl
      obtain ⟨n, hn⟩ := Option.ne_none_iff_exists'.mp hl
      obtain ⟨rfl, above, habove, hlocate⟩ := hmade.made l n hnode hn
      exact .directory (hnext ▸ hnode) hn habove hlocate
  · obtain ⟨path, hpath, hlocate⟩ := hdump.locate_eq hnext
    exact .dump hpath hlocate

/-- Behind those there is the binary. -/
theorem touched_of_writesBinary {code : List UInt8} {l : Location} {written : FileTree}
    (hdump : Dumped t p options.dump next) (hbinary : WritesBinary room next code binary written)
    (hl : written.node? l ≠ t.node? l) : Touched options binary t written l := by
  obtain ⟨made, hmade, hwritten⟩ := hbinary
  obtain ⟨m, hwrites⟩ := FileTree.exists_writes hwritten
  by_cases heq : l = m
  · exact .binary (FileTree.locate_of_keeps hwrites.keeps (heq ▸ hwrites.located))
  · -- Everything else is as it was before the binary, and can be found there.
    rw [hwrites.others l heq] at hl
    cases touched_of_extends hdump (FileTree.extends_of_ensureDirectory hmade) hl with
    | dump hpath hlocate => exact .dump hpath hlocate
    | binary hlocate => exact .binary (FileTree.locate_of_keeps hwrites.keeps hlocate)
    | directory hnone hdirectory habove hlocate =>
      exact .directory hnone (hwrites.keeps l hdirectory) habove
        (FileTree.locate_of_keeps hwrites.keeps hlocate)

end

/-! ### A run -/

/-- The arguments ask for a run on sources that are files, and the dump path can be looked up. -/
structure Starts (args : List String) (options : Options) (sources : List String) (binary : String)
    (t : FileTree) : Prop where
  asked : Request.ofArguments args = some (.assemble options sources binary)
  fit : unfitPaths options t sources = []

/-- Such a run takes one of the courses. -/
theorem Starts.course (room : Nat) {args : List String} {options : Options} {sources : List String}
    {binary : String} {t : FileTree} (h : Starts args options sources binary t) :
    Course room options t sources (.ofString binary) (run room args t) := by
  rw [run, h.asked]
  dsimp only
  rw [h.fit]
  exact assembleFiles_course room options t sources (.ofString binary)

/-- A run that is not started changes nothing, and reports nothing. -/
theorem run_of_not_starts (room : Nat) {args : List String} {t : FileTree}
    (h : ∀ options sources binary, ¬Starts args options sources binary t) :
    (run room args t).tree = t ∧ (run room args t).events = [] ∧
      (run room args t).exit ≠ exitBadJump := by
  have hrefusal : ∀ path, (refusal t path).tree = t ∧ (refusal t path).events = [] ∧
      (refusal t path).exit ≠ exitBadJump := by
    intro path
    rw [refusal]
    split <;> exact ⟨rfl, rfl, fun hexit => by cases hexit⟩
  rw [run]
  split
  · exact ⟨rfl, rfl, fun hexit => by cases hexit⟩
  · exact ⟨rfl, rfl, fun hexit => by cases hexit⟩
  · split
    · exact ⟨rfl, rfl, fun hexit => by cases hexit⟩
    · exact hrefusal _
  · rename_i options sources binary hasked
    split
    · rename_i hfit
      exact absurd ⟨hasked, hfit⟩ (h options sources binary)
    · exact hrefusal _

/-- Whatever can be assembled can be encoded, so sources do not hold units that can be assembled and
units that cannot. -/
theorem not_error_of_program {t : FileTree} {sources : List String} {units units' : List SourceUnit}
    {p : Program} {e : Error} (hunits : List.Forall₂ (Holds t) sources units)
    (hp : Assembly.program units = .ok p) (hunits' : List.Forall₂ (Holds t) sources units') :
    Assembly.code units' ≠ .error e := by
  intro herror
  obtain rfl := holds_unique hunits hunits'
  obtain ⟨code, hcode⟩ := Program.encodable_iff_exists_code.mp (Assembly.encodable_of_program hp)
  rw [Assembly.code, hp, except_bind_ok, hcode] at herror
  cases herror

namespace Course

variable {room : Nat} {options : Options} {t : FileTree} {sources : List String}
  {units : List SourceUnit} {binary : Path} {r : Report}

/-- A run whose units cannot be assembled or encoded leaves everything as it was. -/
theorem of_error {e : Error} (h : Course room options t sources binary r)
    (hunits : List.Forall₂ (Holds t) sources units) (herror : Assembly.code units = .error e) :
    r.exit = exitFailed ∧ r.tree = t := by
  cases h with
  | unread _ _ => exact ⟨rfl, rfl⟩
  | unassembled _ _ _ => exact ⟨rfl, rfl⟩
  | undumped _ _ _ _ => exact ⟨rfl, rfl⟩
  | concluded hunits' hp _ _ _ _ => exact absurd herror (not_error_of_program hunits' hp hunits)

/-- Of those runs it is reported that assembly has failed, unless the error is none to report. -/
theorem exists_failed_iff (h : Course room options t sources binary r) :
    (∃ text, .failed text ∈ r.events) ↔ ∃ units e, List.Forall₂ (Holds t) sources units ∧
      Assembly.code units = .error e ∧ isReported e = true := by
  constructor
  · rintro ⟨text, hmem⟩
    cases h with
    | unread _ hquiet => exact absurd hmem (hquiet text)
    | unassembled hunits herror hiff => exact ⟨_, _, hunits, herror, hiff.mp ⟨text, hmem⟩⟩
    | undumped _ _ _ hquiet => exact absurd hmem (hquiet text)
    | concluded _ _ _ _ hquiet hconcludes => exact absurd hmem (hconcludes.quiet hquiet text)
  · rintro ⟨units, e, hunits, herror, hreport⟩
    cases h with
    | unread hnone _ => exact absurd ⟨units, hunits⟩ hnone
    | unassembled hunits' herror' hiff =>
      obtain rfl := holds_unique hunits hunits'
      obtain rfl := Except.error.inj (herror.symm.trans herror')
      exact hiff.mpr hreport
    | undumped hunits' hp _ _ => exact absurd herror (not_error_of_program hunits' hp hunits)
    | concluded hunits' hp _ _ _ _ => exact absurd herror (not_error_of_program hunits' hp hunits)

/-- A run that comes to its end without a failure has come as far as the jump check. -/
theorem exists_concludes (h : Course room options t sources binary r)
    (hexit : r.exit ≠ exitFailed) :
    ∃ units p code next events, List.Forall₂ (Holds t) sources units ∧
      Assembly.program units = .ok p ∧ p.code = .ok code ∧ Dumped t p options.dump next ∧
        Concludes room options events next p code binary r := by
  cases h with
  | unread _ _ => exact absurd rfl hexit
  | unassembled _ _ _ => exact absurd rfl hexit
  | undumped _ _ _ _ => exact absurd rfl hexit
  | concluded hunits hp hcode hdump _ hconcludes =>
    exact ⟨_, _, _, _, _, hunits, hp, hcode, hdump, hconcludes⟩

/-- And a run whose units are assembled and whose dump is written comes to the jump check. -/
theorem concludes_of_dumped {p : Program} {code : List UInt8} {next : FileTree}
    (h : Course room options t sources binary r) (hunits : List.Forall₂ (Holds t) sources units)
    (hp : Assembly.program units = .ok p) (hcode : p.code = .ok code)
    (hdump : Dumped t p options.dump next) :
    ∃ events, Concludes room options events next p code binary r := by
  cases h with
  | unread hnone _ => exact absurd ⟨units, hunits⟩ hnone
  | unassembled hunits' herror _ => exact absurd herror (not_error_of_program hunits hp hunits')
  | undumped hunits' hp' hnone _ =>
    obtain rfl := holds_unique hunits hunits'
    obtain rfl := Except.ok.inj (hp.symm.trans hp')
    exact absurd hdump (hnone next)
  | concluded hunits' hp' hcode' hdump' _ hconcludes =>
    obtain rfl := holds_unique hunits hunits'
    obtain rfl := Except.ok.inj (hp.symm.trans hp')
    obtain rfl := Except.ok.inj (hcode.symm.trans hcode')
    obtain rfl := hdump.unique hdump'
    exact ⟨_, hconcludes⟩

/-- A run that ends with bad jumps has been asked for them, and leaves nothing but the dump. -/
theorem exists_of_badJump (h : Course room options t sources binary r)
    (hexit : r.exit = exitBadJump) :
    ∃ units p, List.Forall₂ (Holds t) sources units ∧ Assembly.program units = .ok p ∧
      Dumped t p options.dump r.tree ∧ FindsBadJumps options p := by
  obtain ⟨units, p, code, next, events, hunits, hp, -, hdump, hconcludes⟩ :=
    h.exists_concludes (by rw [hexit]; decide)
  cases hconcludes with
  | failed _ _ _ => cases hexit
  | badJump hfinds _ => exact ⟨units, p, hunits, hp, hdump, hfinds⟩
  | wrote _ _ => cases hexit

/-- Bad jumps that are asked for end a run that comes to them. -/
theorem exit_eq_badJump {p : Program} {next : FileTree} (h : Course room options t sources binary r)
    (hunits : List.Forall₂ (Holds t) sources units) (hp : Assembly.program units = .ok p)
    (hdump : Dumped t p options.dump next) (hfinds : FindsBadJumps options p) :
    r.exit = exitBadJump := by
  obtain ⟨code, hcode⟩ := Program.encodable_iff_exists_code.mp (Assembly.encodable_of_program hp)
  obtain ⟨events, hconcludes⟩ := h.concludes_of_dumped hunits hp hcode hdump
  cases hconcludes with
  | failed hgood _ _ => exact absurd hfinds hgood
  | badJump _ _ => rfl
  | wrote hgood _ => exact absurd hfinds hgood

/-- A run that succeeds has written the bytes of the program to the binary. -/
theorem exists_of_ok (h : Course room options t sources binary r) (hexit : r.exit = exitOk) :
    ∃ units p code next, List.Forall₂ (Holds t) sources units ∧ Assembly.program units = .ok p ∧
      p.code = .ok code ∧ Dumped t p options.dump next ∧ ¬FindsBadJumps options p ∧
        WritesBinary room next code binary r.tree := by
  obtain ⟨units, p, code, next, events, hunits, hp, hcode, hdump, hconcludes⟩ :=
    h.exists_concludes (by rw [hexit]; decide)
  cases hconcludes with
  | failed _ _ _ => cases hexit
  | badJump _ _ => cases hexit
  | wrote hgood hbinary => exact ⟨units, p, code, next, hunits, hp, hcode, hdump, hgood, hbinary⟩

/-- And a run succeeds if nothing keeps it from that. -/
theorem exit_eq_ok {p : Program} {code : List UInt8} {next written : FileTree}
    (h : Course room options t sources binary r) (hunits : List.Forall₂ (Holds t) sources units)
    (hp : Assembly.program units = .ok p) (hcode : p.code = .ok code)
    (hdump : Dumped t p options.dump next) (hgood : ¬FindsBadJumps options p)
    (hbinary : WritesBinary room next code binary written) : r.exit = exitOk := by
  obtain ⟨events, hconcludes⟩ := h.concludes_of_dumped hunits hp hcode hdump
  cases hconcludes with
  | failed _ hnone _ => exact absurd hbinary (hnone written)
  | badJump hfinds _ => exact absurd hfinds hgood
  | wrote _ _ => rfl

/-- However a run ends, it has left other locations alone. -/
theorem touched (h : Course room options t sources binary r) {l : Location}
    (hl : r.tree.node? l ≠ t.node? l) : Touched options binary t r.tree l := by
  cases h with
  | unread _ _ => exact absurd rfl hl
  | unassembled _ _ _ => exact absurd rfl hl
  | undumped _ _ _ _ => exact absurd rfl hl
  | concluded _ _ _ hdump _ hconcludes =>
    cases hconcludes with
    | failed _ _ hleft => exact touched_of_extends hdump hleft hl
    | badJump _ _ => exact touched_of_extends hdump (.refl _ _) hl
    | wrote _ hbinary => exact touched_of_writesBinary hdump hbinary hl

end Course

/-- What a run has to do with files. If its units cannot be assembled or encoded, which the log says
unless the error is none to report, everything is as it was. It ends with bad jumps just when units
are assembled, a dump that is asked for is written, and the jump check is asked for and finds some,
and then only the dump can have changed. It succeeds just when the check finds none and the binary
can be written behind the dump, and then the binary holds the bytes of the program. Whatever a run
comes to, nothing else has changed than the dump, the binary, and missing directories on the way
to it. -/
theorem run_fileEffects {room : Nat} {args : List String} {options : Options}
    {sources : List String} {binary : String} {t : FileTree}
    (h : Starts args options sources binary t) :
    let r := run room args t
    ((∃ text, "ERROR:root:Assembly failed: " ++ text ∈ log args r) ↔
        ∃ units e, List.Forall₂ (Holds t) sources units ∧ Assembly.code units = .error e ∧
          isReported e = true) ∧
      (∀ units e, List.Forall₂ (Holds t) sources units → Assembly.code units = .error e →
        r.exit = exitFailed ∧ r.tree = t) ∧
      (r.exit = exitBadJump ↔ ∃ units p next, List.Forall₂ (Holds t) sources units ∧
        Assembly.program units = .ok p ∧ Dumped t p options.dump next ∧
          FindsBadJumps options p) ∧
      (r.exit = exitBadJump → ∀ l,
        (r.tree.node? l = some .directory ↔ t.node? l = some .directory) ∧
          (r.tree.node? l ≠ t.node? l → ∃ path, options.dump = some path ∧
            t.locate (.ofString path) = .ok l)) ∧
      (r.exit = exitOk ↔ ∃ units p code next written, List.Forall₂ (Holds t) sources units ∧
        Assembly.program units = .ok p ∧ p.code = .ok code ∧ Dumped t p options.dump next ∧
          ¬FindsBadJumps options p ∧ WritesBinary room next code (.ofString binary) written) ∧
      (r.exit = exitOk → ∃ units p code, List.Forall₂ (Holds t) sources units ∧
        Assembly.program units = .ok p ∧ p.code = .ok code ∧
          r.tree.read (.ofString binary) = .ok ⟨code.toArray⟩) ∧
      ∀ l, r.tree.node? l ≠ t.node? l → Touched options (.ofString binary) t r.tree l := by
  have hcourse := h.course room
  refine ⟨exists_line_iff.trans hcourse.exists_failed_iff, fun units e => hcourse.of_error,
    ⟨fun hexit => ?_, ?_⟩, fun hexit l => ?_, ⟨fun hexit => ?_, ?_⟩, fun hexit => ?_,
    fun l => hcourse.touched⟩
  · obtain ⟨units, p, hunits, hp, hdump, hfinds⟩ := hcourse.exists_of_badJump hexit
    exact ⟨units, p, _, hunits, hp, hdump, hfinds⟩
  · rintro ⟨units, p, next, hunits, hp, hdump, hfinds⟩
    exact hcourse.exit_eq_badJump hunits hp hdump hfinds
  · obtain ⟨units, p, -, -, hdump, -⟩ := hcourse.exists_of_badJump hexit
    exact ⟨hdump.directory_iff, hdump.locate_eq⟩
  · obtain ⟨units, p, code, next, hall⟩ := hcourse.exists_of_ok hexit
    exact ⟨units, p, code, next, _, hall⟩
  · rintro ⟨units, p, code, next, written, hunits, hp, hcode, hdump, hgood, hbinary⟩
    exact hcourse.exit_eq_ok hunits hp hcode hdump hgood hbinary
  · obtain ⟨units, p, code, next, hunits, hp, hcode, -, -, hbinary⟩ := hcourse.exists_of_ok hexit
    exact ⟨units, p, code, hunits, hp, hcode, hbinary.read_eq⟩

/-- A source that jumps to its own first byte, and an old binary. -/
def adrift : FileTree :=
  ⟨[(["main.easm"], .file "push1 0\njump".toUTF8), (["out.bin"], .file "old".toUTF8)]⟩

/-- The jumps are to be checked, and the dump is to go where the binary is. -/
def overlapping : Options :=
  { Options.default with checkJumps := true, dump := some "out.bin" }

/-- The source is a file, and the dump has a path that can be looked up. So the run is started. -/
theorem starts_adrift :
    Starts ["--check-jumps", "--dump", "out.bin", "main.easm", "out.bin"] overlapping
      ["main.easm"] "out.bin" adrift := by
  have hname : FileTree.IsFileName "main.easm" := by decide +kernel
  have hfile : adrift.isFile "main.easm" = true := hname.isFile_eq rfl
  refine ⟨by decide +kernel, ?_⟩
  simp [unfitPaths, overlapping, hfile, String.contains_char_eq]

/-- It reads one unit, in a module named by the file. -/
theorem holds_adrift :
    List.Forall₂ (Holds adrift) ["main.easm"] [⟨"main", none, "push1 0\njump"⟩] := by
  have hname : FileTree.IsFileName "main.easm" := by decide +kernel
  have hunit : (⟨(Path.ofString "main.easm").stem, none,
      String.ofList (Text.unifyLineEnds "push1 0\njump".toList)⟩ : SourceUnit) =
        ⟨"main", none, "push1 0\njump"⟩ := by decide +kernel
  rw [← hunit]
  exact .cons (holds_of_read (hname.read_eq rfl)) .nil

/-- The old binary stands in the working directory, where both paths lead. -/
theorem locate_adrift : adrift.locate (.ofString "out.bin") = .ok ["out.bin"] :=
  FileTree.IsFileName.locate_eq (by decide +kernel) adrift

/-- The old binary is gone, as the dump has been written over it, and that is all. -/
theorem run_fileEffects_adrift :
    Starts ["--check-jumps", "--dump", "out.bin", "main.easm", "out.bin"] overlapping
        ["main.easm"] "out.bin" adrift ∧
      let r := run 1 ["--check-jumps", "--dump", "out.bin", "main.easm", "out.bin"] adrift
      r.exit = exitBadJump ∧ ∀ l, l ≠ ["out.bin"] → r.tree.node? l = adrift.node? l := by
  have hbad : ((Assembly.program [⟨"main", none, "push1 0\njump"⟩]).bind
      Program.badJumps).toOption = some [(2, 0)] := by decide +kernel
  obtain ⟨p, hp, hjumps⟩ := except_bind_eq_ok_iff.mp (eq_ok_of_toOption hbad)
  obtain ⟨rows, hrows⟩ := (Assembly.encodable_of_program hp).exists_dump
  have hdump : Dumped adrift p overlapping.dump
      (adrift.put ["out.bin"] (.file (rows.json 0).toUTF8)) := by
    refine .written hrows ?_
    rw [FileTree.write, locate_adrift]
    rfl
  obtain ⟨-, -, hexit, hchanges, -⟩ := @run_fileEffects 1 _ _ _ _ _ starts_adrift
  have hends := hexit.mpr ⟨_, p, _, holds_adrift, hp, hdump, rfl, _, hjumps, List.cons_ne_nil _ _⟩
  refine ⟨starts_adrift, hends, fun l hl => ?_⟩
  by_contra hchanged
  obtain ⟨path, hpath, hlocate⟩ := (hchanges hends l).2 hchanged
  obtain rfl := Option.some.inj hpath
  exact hl (Except.ok.inj (hlocate.symm.trans locate_adrift))

end CommandLine

end EvmAssembler
