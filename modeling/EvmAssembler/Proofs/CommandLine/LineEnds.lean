import EvmAssembler.Proofs.CommandLine.Containment
import EvmAssembler.Proofs.Source.LineEnds

/-!
# `EvmAssembler.Proofs.CommandLine.LineEnds`: sources with line ends of any kind

`assembly_of_lineEnds` puts together why it does not matter how the lines of a source end. A text
that is handed over with `\r\n` is read as it would be with line feeds, because the grammar passes
over carriage returns. A lone `\r` it does not take for a line end. Files are another matter, as
their line ends are brought to line feeds before the text is looked at, and `\r` counts there too.
-/

set_option autoImplicit false

namespace EvmAssembler

/-! ### Ways to end a line -/

/-- What lines end with. -/
inductive Text.Newline where
  | lf
  | crlf
  | cr

/-- The text with its line feeds written as the given line ends. -/
def Text.Newline.write : Text.Newline → List Char → List Char
  | .lf, text => text
  | .crlf, text => crlfLineEnds text
  | .cr, text => text.map fun c => if c = '\n' then '\r' else c

/-- What does not start with a carriage return is kept but for its line ends. -/
theorem Text.unifyLineEnds_cons {c : Char} (hc : c ≠ '\r') (rest : List Char) :
    unifyLineEnds (c :: rest) = c :: unifyLineEnds rest := by
  rw [unifyLineEnds]
  · rintro _ rfl
    exact absurd rfl hc
  · exact hc

/-- Line ends of any kind are brought back to line feeds. -/
theorem Text.Newline.unifyLineEnds_write {text : List Char} (h : '\r' ∉ text) (e : Newline) :
    unifyLineEnds (e.write text) = text := by
  induction text with
  | nil => cases e <;> rfl
  | cons c text ih =>
    have hc : c ≠ '\r' := fun heq => h (heq ▸ List.mem_cons_self)
    have htext := ih fun hmem => h (List.mem_cons_of_mem c hmem)
    by_cases hfeed : c = '\n'
    · subst hfeed
      cases e with
      | lf => exact (unifyLineEnds_cons hc text).trans (congrArg ('\n' :: ·) htext)
      | crlf => exact congrArg ('\n' :: ·) htext
      | cr =>
        -- No line feed is left, so the carriage return counts by itself.
        have hwritten : write .cr ('\n' :: text) = '\r' :: write .cr text := rfl
        have hnext : ∀ rest, write .cr text ≠ '\n' :: rest := by
          intro rest heq
          have hmem : '\n' ∈ write .cr text := by
            rw [heq]
            exact List.mem_cons_self
          obtain ⟨d, -, hd⟩ := List.mem_map.mp hmem
          split at hd
          · exact absurd hd (by decide)
          · contradiction
        rw [hwritten, unifyLineEnds, htext]
        exact hnext
    · have hwritten : e.write (c :: text) = c :: e.write text := by
        cases e with
        | lf => rfl
        | crlf => exact Source.crlfLineEnds_cons hfeed text
        | cr => rw [write, List.map_cons, if_neg hfeed, ← write]
      rw [hwritten, unifyLineEnds_cons hc, htext]

namespace Assembly

/-- Units that are the same but for carriage returns in front of the line feeds. -/
inductive SameLines : SourceUnit → SourceUnit → Prop where
  | same (u : SourceUnit) : SameLines u u
  | returned {u v : SourceUnit} : v.module = u.module → v.package = u.package →
    v.text.toList = Text.crlfLineEnds u.text.toList → SameLines u v

/-- One is laid out as the other is. -/
theorem SameLines.layOut_eq {u v : SourceUnit} (h : SameLines u v) (l : Layout) :
    layOut l v = layOut l u := by
  cases h with
  | same => rfl
  | returned hmodule hpackage htext =>
    have hspace : v.space = u.space := by
      rw [SourceUnit.space, SourceUnit.space, hmodule, hpackage]
    rw [layOut, layOut, hspace, htext, Source.actions_crlfLineEnds]

/-- Units that are the same but for carriage returns are laid out in the same way, one by one, and
so they assemble to the same. -/
theorem ofUnits_of_sameLines {units units' : List SourceUnit}
    (h : List.Forall₂ SameLines units units') : ofUnits units' = ofUnits units := by
  have hall : ∀ l, layOutAll l units' = layOutAll l units := by
    induction h with
    | nil => exact fun l => rfl
    | cons hfirst _ ih =>
      intro l
      rw [layOutAll, layOutAll, hfirst.layOut_eq]
      cases layOut l _ with
      | mk next e? =>
        cases e? with
        | none => exact ih next
        | some e => rfl
  rw [ofUnits, ofUnits, hall]

end Assembly

namespace CommandLine

/-! ### Files -/

/-- The file holds the text, with line ends of some kind. -/
def HoldsText (t : FileTree) (p : Path) (text : String) : Prop :=
  ∃ e : Text.Newline, t.read p = .ok (String.ofList (e.write text.toList)).toUTF8

/-- The unit of a file does not show what its lines ended with. -/
theorem HoldsText.unitOfFile {t : FileTree} {p : Path} {text : String} (h : HoldsText t p text)
    (hreturn : '\r' ∉ text.toList) :
    (t.read p).bind (unitOfFile p) = .ok ⟨p.stem, none, text⟩ := by
  obtain ⟨e, hread⟩ := h
  rw [hread, except_bind_ok, unitOfFile_toUTF8, String.toList_ofList,
    Text.Newline.unifyLineEnds_write hreturn, String.ofList_toList]

/-- Sources are read as the texts that they hold, and nothing is left of the kinds of their line
ends. -/
theorem readSources_of_holdsText {t : FileTree} {sources : List Path} {texts : List String}
    (h : List.Forall₂ (HoldsText t) sources texts) (hreturn : ∀ text ∈ texts, '\r' ∉ text.toList) :
    readSources t sources = (sources.map fun p => .collecting p.text,
      .ok (List.zipWith (fun p text => ⟨p.stem, none, text⟩) sources texts)) := by
  induction h with
  | nil => rfl
  | cons hfirst _ ih =>
    rw [readSources, hfirst.unitOfFile (hreturn _ List.mem_cons_self)]
    dsimp only
    rw [ih fun text htext => hreturn text (List.mem_cons_of_mem _ htext)]
    rfl

/-- A text asks for the same whether its lines end with `\n` or `\r\n`. So units assemble to the
same, or fail in the same way, and the same units are read from files whose lines end with `\n`,
`\r\n` or `\r`. -/
theorem assembly_of_lineEnds {units units' : List SourceUnit}
    (hunits : List.Forall₂ Assembly.SameLines units units') {t t' : FileTree}
    {sources : List Path} {texts : List String} (hfiles : List.Forall₂ (HoldsText t) sources texts)
    (hfiles' : List.Forall₂ (HoldsText t') sources texts)
    (hreturn : ∀ text ∈ texts, '\r' ∉ text.toList) :
    (∀ text, Source.actions (Text.crlfLineEnds text) = Source.actions text) ∧
      Assembly.ofUnits units' = Assembly.ofUnits units ∧
      ∃ events read, readSources t sources = (events, .ok read) ∧
        readSources t' sources = (events, .ok read) :=
  ⟨Source.actions_crlfLineEnds, Assembly.ofUnits_of_sameLines hunits, _, _,
    readSources_of_holdsText hfiles hreturn, readSources_of_holdsText hfiles' hreturn⟩

/-- A text with a comment, a lone label and a rejected line. -/
def threeLines : String :=
  "a: // b\n push1 &a\n?!\n"

/-- The text in a file, with line ends of the given kind. -/
def threeLinesFile (e : Text.Newline) : FileTree :=
  ⟨[(["main.easm"], .file (String.ofList (e.write threeLines.toList)).toUTF8)]⟩

/-- The file holds the text, whichever kind of line ends it was written with. -/
theorem holdsText_threeLinesFile (e : Text.Newline) :
    HoldsText (threeLinesFile e) (.ofString "main.easm") threeLines := by
  have hname : FileTree.IsFileName "main.easm" := by decide +kernel
  exact ⟨e, hname.read_eq rfl⟩

/-- The text assembles to the same with `\r\n` as with line feeds, and is read from a file with `\r`
as from one with `\r\n`. -/
theorem assembly_of_lineEnds_threeLines :
    '\r' ∉ threeLines.toList ∧
      (Assembly.program [⟨"main", none, String.ofList (Text.crlfLineEnds threeLines.toList)⟩] =
        Assembly.program [⟨"main", none, threeLines⟩]) ∧
      (readSources (threeLinesFile .cr) [.ofString "main.easm"]).2 =
        (readSources (threeLinesFile .crlf) [.ofString "main.easm"]).2 := by
  have hreturn : '\r' ∉ threeLines.toList := by decide +kernel
  have hunit : Assembly.SameLines ⟨"main", none, threeLines⟩
      ⟨"main", none, String.ofList (Text.crlfLineEnds threeLines.toList)⟩ :=
    .returned rfl rfl String.toList_ofList
  obtain ⟨-, hunits, events, read, hcrlf, hcr⟩ := assembly_of_lineEnds (.cons hunit .nil)
    (.cons (holdsText_threeLinesFile .crlf) .nil) (.cons (holdsText_threeLinesFile .cr) .nil)
    fun text htext => by
      rw [List.mem_singleton.mp htext]
      exact hreturn
  refine ⟨hreturn, congrArg Assembly.result hunits, ?_⟩
  rw [hcrlf, hcr]

end CommandLine

end EvmAssembler
