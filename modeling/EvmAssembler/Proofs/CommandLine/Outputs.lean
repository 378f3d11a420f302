import EvmAssembler.Proofs.CommandLine.Dump
import EvmAssembler.Proofs.CommandLine.FileEffects

/-!
# `EvmAssembler.Proofs.CommandLine.Outputs`: the listing, the dump and the binary of a run

A run that is asked for a listing and a dump shows its program three times: line by line in the log,
row by row in the dump, and as bytes in the binary. `run_outputs` says that these agree. They have
one item for each instruction, and a listing line shows the piece of the binary between its own
offset and the next. A dump determines the bytes of the program that it is a dump of.

The lines of a listing stand together in the log. They can be told from all other lines by the digit
in second place, where every other line of that level has a letter that is no digit
(`ne_line_of_logLine`).

The dump stays in its file unless the binary is written over it. Different paths can lead to one
file, so what has to differ are the locations that they lead to.
-/

set_option autoImplicit false

namespace EvmAssembler

namespace Text

/-- The digits of a capital numeral are hexadecimal digits. -/
theorem isSome_of_mem_capitalHex {n : Nat} {c : Char} (h : c ∈ (capitalHex n).toList) :
    (hexDigit? c).isSome = true := by
  rw [capitalHex, String.toList_ofList] at h
  obtain ⟨d, hd, rfl⟩ := List.mem_map.mp h
  rw [hexDigit?_eq_of_toLower_eq (toLower_toUpper d)]
  exact (ofDigits_toDigits (by decide) (by decide) n).1 d hd

/-- An offset in the listing has two digits at least. -/
theorem exists_padStart_capitalHex (n : Nat) : ∃ c d rest,
    (padStart 4 '0' (capitalHex n)).toList = c :: d :: rest ∧ (hexDigit? d).isSome = true := by
  have hdigits : ∀ c ∈ (padStart 4 '0' (capitalHex n)).toList, (hexDigit? c).isSome = true := by
    intro c hc
    rw [padStart, String.toList_append, String.toList_ofList, List.mem_append] at hc
    rcases hc with hc | hc
    · rw [List.eq_of_mem_replicate hc]
      rfl
    · exact isSome_of_mem_capitalHex hc
  have hlength : 2 ≤ (padStart 4 '0' (capitalHex n)).toList.length := by
    rw [padStart, String.toList_append, String.toList_ofList, List.length_append,
      List.length_replicate, String.length_toList]
    omega
  match htext : (padStart 4 '0' (capitalHex n)).toList, hlength with
  | c :: d :: rest, _ => exact ⟨c, d, rest, rfl, hdigits d (by simp [htext])⟩

end Text

namespace CommandLine

/-! ### The lines of a listing -/

/-- The event is a row of the listing. -/
def IsListed : Event → Prop
  | .listed _ _ _ => True
  | _ => False

/-- The listing's line for an entry: the offset, the bytes in a column of sixteen characters or
more, and the mnemonic. -/
def Entry.line (e : Entry) : String :=
  "INFO:root:" ++ (Text.padStart 4 '0' (Text.capitalHex e.offset) ++ ": "
    ++ Text.padEnd 16 ' ' (Text.bytesHex e.code) ++ " " ++ e.mnemonic)

/-- The lines are what the log makes of the events. -/
theorem map_logLine_event (entries : List Entry) :
    (entries.map Entry.event).map logLine = entries.map Entry.line := by
  rw [List.map_map]
  rfl

/-- No other event leaves such a line. -/
theorem ne_line_of_logLine {event : Event} (h : ¬IsListed event) (e : Entry) :
    logLine event ≠ e.line := by
  intro hline
  obtain ⟨c, d, rest, htext, hd⟩ := Text.exists_padStart_capitalHex e.offset
  have hfirst : (logLine event).toList[0]? = some 'I' := by
    rw [hline, Entry.line]
    simp
  have hsecond : (logLine event).toList[11]? = some d := by
    rw [hline, Entry.line]
    simp [htext]
  cases event with
  | listed offset code mnemonic => exact h trivial
  -- What is reported at this level starts with other letters, which are no digits in second place.
  | started =>
    obtain rfl : 'V' = d := Option.some.inj hsecond
    cases hd
  | processing space =>
    have hletter : ("INFO:root:" ++ ("Processing " ++ space)).toList[11]? = some 'r' := by
      simp only [String.toList_append]
      rfl
    obtain rfl : 'r' = d := Option.some.inj (hletter.symm.trans hsecond)
    cases hd
  | wrote count path =>
    have hletter : ("INFO:root:" ++ ("Wrote " ++ Text.decimal count ++ " bytes to " ++
        path)).toList[11]? = some 'r' := by
      simp only [String.toList_append]
      rfl
    obtain rfl : 'r' = d := Option.some.inj (hletter.symm.trans hsecond)
    cases hd
  | _ => simp [logLine, Event.level, Level.name] at hfirst

/-! ### What a run reports -/

section
variable {room : Nat} {t : FileTree} {options : Options} {sources : List String}
  {units : List SourceUnit} {p : Program} {entries : List Entry} {binary : Path}

/-- Reading the sources reports nothing but which files are read. -/
theorem not_isListed_of_mem_readSources {paths : List Path} {e : Event}
    (h : e ∈ (readSources t paths).1) : ¬IsListed e := by
  induction paths with
  | nil => cases h
  | cons path paths ih =>
    rw [readSources] at h
    split at h
    · rw [List.mem_singleton.mp h]
      exact not_false
    · rcases List.mem_cons.mp h with rfl | h
      · exact not_false
      · exact ih h

/-- Nor does the assembler list anything. -/
theorem not_isListed_of_isOwn {e : Event} (h : e.IsOwn) : ¬IsListed e := by
  cases e with
  | listed offset code mnemonic => cases h
  | _ => exact not_false

/-- A run that succeeds and lists its program reports the entries in a row. The bytes that have been
written are reported last. -/
theorem exists_events_of_ok (hlisting : options.listing = true)
    (hunits : List.Forall₂ (Holds t) sources units) (hp : Assembly.program units = .ok p)
    (hentries : Entries 0 p entries)
    (hexit : (assembleFiles room options t (sources.map Path.ofString) binary).exit = exitOk) :
    ∃ earlier count, (∀ e ∈ earlier, ¬IsListed e) ∧
      (assembleFiles room options t (sources.map Path.ofString) binary).events =
        earlier ++ entries.map Entry.event ++ [.wrote count binary.text] := by
  obtain ⟨events, hread⟩ := exists_readSources hunits
  have hread' : ∀ e ∈ events, ¬IsListed e := by
    intro e he
    refine @not_isListed_of_mem_readSources t (sources.map Path.ofString) e ?_
    rwa [hread]
  have hresult : (Assembly.ofUnits units).result = .ok p := hp
  have hrun : assembleFiles room options t (sources.map Path.ofString) binary =
      dumpAndCheck room options ((.started :: events ++ (Assembly.ofUnits units).events) ++
        entries.map Entry.event) t p (entries.flatMap Entry.code) binary := by
    rw [assembleFiles, hread]
    dsimp only
    rw [hresult, except_bind_ok, hentries.code_eq]
    show listAndDump _ _ _ _ _ _ _ = _
    rw [listAndDump, if_pos hlisting, hentries.listingEvents_eq]
  have hearlier : ∀ e ∈ .started :: events ++ (Assembly.ofUnits units).events, ¬IsListed e := by
    intro e he
    rcases List.mem_append.mp he with he | he
    · rcases List.mem_cons.mp he with rfl | he
      · exact not_false
      · exact hread' e he
    · exact not_isListed_of_isOwn (Assembly.isOwn_of_mem_events he)
  rw [hrun] at hexit ⊢
  -- What comes behind the listing ends the run, and only one of its ends is a success.
  rcases dumpAndCheck_cases hentries.encodable room options _ t (entries.flatMap Entry.code)
      binary with
    ⟨next, -, hconcludes⟩ | ⟨-, failure, heq⟩
  · generalize dumpAndCheck _ _ _ _ _ _ _ = r at hexit hconcludes ⊢
    cases hconcludes with
    | failed _ _ _ => cases hexit
    | badJump _ _ => cases hexit
    | wrote _ _ => exact ⟨_, _, hearlier, rfl⟩
  · rw [heq] at hexit
    cases hexit

/-- So the log has a line for each entry, and no other line like these. -/
theorem exists_log_of_events {args : List String} {r : Report} {earlier : List Event} {count : Nat}
    (hearlier : ∀ e ∈ earlier, ¬IsListed e)
    (h : r.events = earlier ++ entries.map Entry.event ++ [.wrote count binary.text]) :
    ∃ above below, log args r = above ++ entries.map Entry.line ++ below ∧
      ∀ line ∈ above ++ below, ∀ e : Entry, line ≠ e.line := by
  have hshown : (entries.map Entry.event).filter (isShown (isVerbose args)) =
      entries.map Entry.event := by
    refine List.filter_eq_self.mpr fun event hevent => ?_
    obtain ⟨e, -, rfl⟩ := List.mem_map.mp hevent
    exact Bool.or_true _
  refine ⟨(earlier.filter (isShown (isVerbose args))).map logLine,
    ([Event.wrote count binary.text].filter (isShown (isVerbose args))).map logLine, ?_, ?_⟩
  · rw [log, h, List.filter_append, List.filter_append, hshown, List.map_append, List.map_append,
      map_logLine_event]
  · intro line hline e
    rw [← List.map_append, ← List.filter_append] at hline
    obtain ⟨event, hevent, rfl⟩ := List.mem_map.mp hline
    refine ne_line_of_logLine ?_ e
    rcases List.mem_append.mp (List.mem_filter.mp hevent).1 with hevent | hevent
    · exact hearlier event hevent
    · rw [List.mem_singleton.mp hevent]
      exact not_false

/-! ### What a run leaves -/

/-- The dump stays where it is when the binary is written to another location. -/
theorem read_dump {path : String} {rows : Datum} {code : List UInt8} {next written : FileTree}
    (hrows : dump p = .ok rows) (hdump : Dumped t p (some path) next)
    (hbinary : WritesBinary room next code binary written)
    (hapart : written.locate (.ofString path) ≠ written.locate binary) :
    written.read (.ofString path) = .ok (rows.json 0).toUTF8 := by
  cases hdump with
  | written hrows' hwrite =>
    obtain rfl := Except.ok.inj (hrows.symm.trans hrows')
    obtain ⟨made, hmade, hwritten⟩ := hbinary
    obtain ⟨l, hdumped⟩ := FileTree.exists_writes hwrite
    obtain ⟨m, hwrites⟩ := FileTree.exists_writes hwritten
    have hextends := FileTree.extends_of_ensureDirectory hmade
    -- The dump is found at `l` in every tree from here on, and the binary at `m` in the last one.
    have hl : written.locate (.ofString path) = .ok l :=
      FileTree.locate_of_keeps hwrites.keeps (FileTree.locate_of_keeps hextends.keeps
        (FileTree.locate_of_keeps hdumped.keeps hdumped.located))
    have hm : written.locate binary = .ok m :=
      FileTree.locate_of_keeps hwrites.keeps hwrites.located
    have hne : l ≠ m := by
      rintro rfl
      exact hapart (hl.trans hm.symm)
    rw [FileTree.read, hl, except_bind_ok, hwrites.others l hne, hextends.kept l _ hdumped.written]

end

/-! ### A run -/

/-- A run that is asked to assemble and succeeds has been started. -/
theorem starts_of_ok {room : Nat} {args : List String} {options : Options} {sources : List String}
    {binary : String} {t : FileTree}
    (hargs : Request.ofArguments args = some (.assemble options sources binary))
    (hexit : (run room args t).exit = exitOk) : Starts args options sources binary t := by
  refine ⟨hargs, ?_⟩
  cases hfit : unfitPaths options t sources with
  | nil => rfl
  | cons path paths =>
    rw [run, hargs] at hexit
    dsimp only at hexit
    rw [hfit] at hexit
    dsimp only at hexit
    rw [refusal] at hexit
    split at hexit <;> cases hexit

/-- What a run shows of a program agrees. There are the bytes of the program, and what is shown of
each of its instructions. -/
structure OutputsAgree (args : List String) (r : Report) (p : Program) (code : List UInt8)
    (entries : List Entry) (path binary : Path) : Prop where
  /-- There is one entry for each instruction, in their order. -/
  shows : List.Forall₂ (fun i e => e.Shows i) p entries
  /-- An offset is the size of all that stands before it. -/
  offset : ∀ k e, entries[k]? = some e → Program.size (p.take k) = .ok e.offset
  listing : listingEvents p = .ok (entries.map Entry.event)
  /-- The log has one line for each entry, and no other line that could be one. -/
  lines : ∃ above below, log args r = above ++ entries.map Entry.line ++ below ∧
    ∀ line ∈ above ++ below, ∀ e : Entry, line ≠ e.line
  rows : dump p = .ok (.list (entries.map Entry.row))
  dumped : r.tree.locate path ≠ r.tree.locate binary →
    r.tree.read path = .ok ((Datum.list (entries.map Entry.row)).json 0).toUTF8
  written : r.tree.read binary = .ok ⟨code.toArray⟩
  /-- An entry has the bytes from its offset to the next one, or to the end. -/
  column : ∀ k e, entries[k]? = some e →
    e.code = code.extract e.offset (Entries.startBehind entries code.length k)
  joined : entries.flatMap Entry.code = code
  columns : String.join (entries.map fun e => Text.bytesHex e.code) = Text.bytesHex code

/-- The digits of the entries, one after another, are those of all their bytes. -/
theorem join_bytesHex (entries : List Entry) :
    String.join (entries.map fun e => Text.bytesHex e.code) =
      Text.bytesHex (entries.flatMap Entry.code) := by
  induction entries with
  | nil => rfl
  | cons e entries ih =>
    rw [List.map_cons, String.join_cons, ih, List.flatMap_cons, Text.bytesHex, Text.bytesHex,
      Text.bytesHex, ← String.ofList_append, ← List.flatMap_append]

/-- A run that succeeds, and is asked for a listing and a dump, shows the program that it has
assembled: its log lists the instructions, its dump has their records and its binary their bytes,
and all of these agree. Assembled programs with equal dumps have the same bytes. Dumps are equal as
data, whatever the order of fields, only where they are the same. -/
theorem run_outputs {room : Nat} {args : List String} {options : Options} {sources : List String}
    {binary path : String} {t : FileTree}
    (hargs : Request.ofArguments args = some (.assemble options sources binary))
    (hlisting : options.listing = true) (hpath : options.dump = some path)
    (hexit : (run room args t).exit = exitOk) :
    (∃ units p code entries, List.Forall₂ (Holds t) sources units ∧
      Assembly.program units = .ok p ∧ p.code = .ok code ∧
        OutputsAgree args (run room args t) p code entries (.ofString path) (.ofString binary)) ∧
      ∀ units units' p p' d d', Assembly.program units = .ok p →
        Assembly.program units' = .ok p' → dump p = .ok d → dump p' = .ok d' →
          (d.same d' = true ↔ d = d') ∧
            (d = d' → ∃ code, p.code = .ok code ∧ p'.code = .ok code) := by
  have hstarts := starts_of_ok hargs hexit
  refine ⟨?_, fun units units' p p' d d' hp hp' hd hd' => ?_⟩
  · obtain ⟨units, p, code, next, hunits, hp, hcode, hdump, -, hbinary⟩ :=
      (hstarts.course room).exists_of_ok hexit
    obtain ⟨entries, hentries⟩ := exists_entries (Assembly.encodable_of_program hp) 0
    obtain rfl := Except.ok.inj (hentries.code_eq.symm.trans hcode)
    have hrun : run room args t =
        assembleFiles room options t (sources.map Path.ofString) (.ofString binary) := by
      rw [run, hargs]
      dsimp only
      rw [hstarts.fit]
    have hevents := exists_events_of_ok hlisting hunits hp hentries (hrun ▸ hexit)
    rw [← hrun] at hevents
    obtain ⟨earlier, count, hearlier, hevents⟩ := hevents
    rw [hpath] at hdump
    -- The dump is written first, so it is read back only where the binary is not put in its place.
    refine ⟨units, p, _, entries, hunits, hp, hcode, hentries.forall₂, fun k e he => ?_,
      hentries.listingEvents_eq, exists_log_of_events hearlier hevents, hentries.dump_eq,
      read_dump hentries.dump_eq hdump hbinary, hbinary.read_eq, fun k e he => ?_,
      rfl, join_bytesHex entries⟩
    · obtain ⟨n, hn, hoffset⟩ := hentries.size_take he
      rw [hn, hoffset, Nat.zero_add]
    · exact (hentries.extract_eq rfl (List.nil_append _) he).symm
  · have hencodable := Assembly.encodable_of_program hp
    refine ⟨same_iff_of_dump hencodable (Assembly.encodable_of_program hp') hd hd', ?_⟩
    rintro rfl
    obtain ⟨code, hcode⟩ := Program.encodable_iff_exists_code.mp hencodable
    refine ⟨code, hcode, ?_⟩
    rw [← hcode, code_eq_of_dump hencodable (Assembly.encodable_of_program hp') hd hd']

/-- A program that runs in a circle. -/
def circular : FileTree :=
  ⟨[(["loop.easm"], .file "jumpdest\npush1 0\njump".toUTF8)]⟩

/-- The program is to be listed and dumped. -/
def showing : Options :=
  { Options.default with listing := true, dump := some "loop.json" }

/-- The source is a file, and the dump has a path that can be looked up. So the run is started. -/
theorem starts_circular :
    Starts ["--listing", "--dump", "loop.json", "loop.easm", "loop.bin"] showing ["loop.easm"]
      "loop.bin" circular := by
  have hname : FileTree.IsFileName "loop.easm" := by decide +kernel
  have hfile : circular.isFile "loop.easm" = true := hname.isFile_eq rfl
  refine ⟨by decide +kernel, ?_⟩
  simp [unfitPaths, showing, hfile, String.contains_char_eq]

/-- It reads the three instructions as one unit. -/
theorem holds_circular :
    List.Forall₂ (Holds circular) ["loop.easm"] [⟨"loop", none, "jumpdest\npush1 0\njump"⟩] := by
  have hname : FileTree.IsFileName "loop.easm" := by decide +kernel
  have hunit : (⟨(Path.ofString "loop.easm").stem, none,
      String.ofList (Text.unifyLineEnds "jumpdest\npush1 0\njump".toList)⟩ : SourceUnit) =
        ⟨"loop", none, "jumpdest\npush1 0\njump"⟩ := by decide +kernel
  rw [← hunit]
  exact .cons (holds_of_read (hname.read_eq rfl)) .nil

/-- The log lists the three instructions, and the binary has their bytes. -/
theorem run_outputs_circular :
    let args := ["--listing", "--dump", "loop.json", "loop.easm", "loop.bin"]
    Request.ofArguments args = some (.assemble showing ["loop.easm"] "loop.bin") ∧
      (run 1 args circular).exit = exitOk ∧
      (run 1 args circular).tree.read (.ofString "loop.bin") = .ok ⟨#[0x5b, 0x60, 0x00, 0x56]⟩ ∧
      ∃ above below, log args (run 1 args circular) = above ++
        ["INFO:root:0000: 5b               JUMPDEST", "INFO:root:0001: 6000             PUSH1",
          "INFO:root:0003: 56               JUMP"] ++ below := by
  have hlisting : ((Assembly.program [⟨"loop", none, "jumpdest\npush1 0\njump"⟩]).bind
      listingEvents).toOption = some [.listed 0 [0x5b] "JUMPDEST", .listed 1 [0x60, 0x00] "PUSH1",
        .listed 3 [0x56] "JUMP"] := by decide +kernel
  obtain ⟨p, hp, hlisted⟩ := except_bind_eq_ok_iff.mp (eq_ok_of_toOption hlisting)
  have hencodable := Assembly.encodable_of_program hp
  obtain ⟨rows, hrows⟩ := hencodable.exists_dump
  have hbytes : (Assembly.code [⟨"loop", none, "jumpdest\npush1 0\njump"⟩]).toOption =
      some [0x5b, 0x60, 0x00, 0x56] := by decide +kernel
  have hcode : p.code = .ok [0x5b, 0x60, 0x00, 0x56] := by
    have hunits := eq_ok_of_toOption hbytes
    rwa [Assembly.code, hp, except_bind_ok] at hunits
  have hfree : circular.node? ["loop.json"] ≠ some .directory := by
    show none ≠ some Node.directory
    exact (Option.some_ne_none _).symm
  have hdump : Dumped circular p showing.dump
      (circular.put ["loop.json"] (.file (rows.json 0).toUTF8)) :=
    .written hrows (FileTree.IsFileName.write_eq (by decide +kernel) hfree _)
  -- The binary goes beside the dump.
  have hname : FileTree.IsFileName "loop.bin" := by decide +kernel
  have hfree' : (circular.put ["loop.json"] (.file (rows.json 0).toUTF8)).node? ["loop.bin"] ≠
      some .directory := by
    rw [FileTree.node?_put hfree]
    show none ≠ some Node.directory
    exact (Option.some_ne_none _).symm
  have hgood : ¬FindsBadJumps showing p := by
    rintro ⟨hcheck, -⟩
    cases hcheck
  have hexit := (starts_circular.course 1).exit_eq_ok holds_circular hp hcode hdump hgood
    ⟨_, hname.ensureDirectory_parent _ 1, hname.write_eq hfree' _⟩
  obtain ⟨⟨units, p', code, entries, hunits, hp', hcode', hagrees⟩, -⟩ :=
    run_outputs starts_circular.asked rfl rfl hexit
  obtain rfl := holds_unique hunits holds_circular
  obtain rfl := Except.ok.inj (hp'.symm.trans hp)
  obtain rfl := Except.ok.inj (hcode'.symm.trans hcode)
  obtain ⟨above, below, hlog, -⟩ := hagrees.lines
  have hentries : entries.map Entry.event = [.listed 0 [0x5b] "JUMPDEST",
      .listed 1 [0x60, 0x00] "PUSH1", .listed 3 [0x56] "JUMP"] :=
    Except.ok.inj (hagrees.listing.symm.trans hlisted)
  rw [← map_logLine_event, hentries] at hlog
  exact ⟨starts_circular.asked, hexit, hagrees.written, above, below, hlog⟩

end CommandLine

end EvmAssembler
