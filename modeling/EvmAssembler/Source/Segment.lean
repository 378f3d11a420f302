import EvmAssembler.Source.Grammar
import EvmAssembler.Text.Lines

/-!
# `EvmAssembler.Source.Segment`: source text as segments and actions

`segments` cuts a text into segments, as far as the grammar goes, and `actions` reads off
what they ask for. A text is refused if anything but skipped characters is left over, or
if a `dup` or `swap` taken on the way has an index of too many digits.
-/

set_option autoImplicit false

namespace EvmAssembler.Source

/-- A segment of source text: the skipped characters in front of it, its own characters,
and what it asks for. -/
structure Segment where
  gap : List Char
  text : List Char
  kind : SegmentKind
  actions : Finding

/-- The segments from a place on, and the place behind the last of them. -/
def segmentsFrom (p : Place) : List Segment × Place :=
  match _found : segment p with
  | none => ([], p)
  | some ((kind, actions), n) =>
    -- The match counts from the place, so it covers the gap and the text behind it.
    let gap := p.rest.takeWhile Text.isSkipped
    let text := (p.rest.take n).drop gap.length
    let (later, finish) := segmentsFrom (p.advance n)
    (⟨gap, text, kind, actions⟩ :: later, finish)
termination_by p.rest.length
decreasing_by exact consumes_segment p _ n (by assumption)

/-- The segments of a text whose tabs are widened, and what follows the last of them. -/
def segments (text : List Char) : List Segment × List Char :=
  let (found, finish) := segmentsFrom (.start text)
  (found, finish.rest)

/-- The actions a source text asks for, in order. -/
def actions (text : List Char) : Except Error (List Action) :=
  let (found, leftOver) := segments (Text.expandTabs text)
  -- An unreadable index is met on the way, and so before anything left over at the end.
  ((found.flatMap Segment.actions).mapM id).bind fun actions =>
    if leftOver.all Text.isSkipped then .ok actions else .error .unparsedText

end EvmAssembler.Source
