import EvmAssembler.Assembly
import EvmAssembler.Proofs.Result

/-!
# `EvmAssembler.Proofs.Assembly.Events`: what the assembler leaves to others to report

The assembler reports that it starts on a unit, places an instruction or a reference, or defines a
label, and nothing else (`Assembly.isOwn_of_mem_events`). Its failures are values: that assembly has
failed is reported by the command line, so an event that says so is none of the assembler's own
(`Assembly.quiet_events`). An action reports one event at most, and the passes only add to what has
been reported.
-/

set_option autoImplicit false

namespace EvmAssembler

/-- None of the events says that assembly has failed. -/
def Quiet (events : List Event) : Prop :=
  ∀ text, .failed text ∉ events

/-- Where nothing is reported, no failure is. -/
theorem quiet_nil : Quiet [] := by
  intro text hmem
  cases hmem

/-- An event that is no failure keeps a list of events quiet. -/
theorem quiet_cons {e : Event} {events : List Event} (he : ∀ text, e ≠ .failed text)
    (h : Quiet events) : Quiet (e :: events) := by
  intro text hmem
  rcases List.mem_cons.mp hmem with heq | hmem
  · exact he text heq.symm
  · exact h text hmem

/-- So do events behind them that are quiet themselves. -/
theorem quiet_append {events later : List Event} (h : Quiet events) (hlater : Quiet later) :
    Quiet (events ++ later) := by
  intro text hmem
  rcases List.mem_append.mp hmem with hmem | hmem
  · exact h text hmem
  · exact hlater text hmem

/-- The events that the assembler reports. -/
def Event.IsOwn : Event → Prop
  | .processing _ | .issuing _ _ | .labelled _ _ | .referring _ => True
  | _ => False

namespace Layout

variable {l next : Layout}

/-- Placing an instruction reports the instruction, which is an event of the assembler. -/
theorem own_issue {i : Instruction} (hl : ∀ e ∈ l.reported, e.IsOwn) (h : l.issue i = .ok next) :
    ∀ e ∈ next.reported, e.IsOwn := by
  obtain ⟨width, -, hmap⟩ := except_bind_eq_ok_iff.mp h
  obtain ⟨mnemonic, -, rfl⟩ := except_map_eq_ok_iff.mp hmap
  exact List.forall_mem_cons.mpr ⟨trivial, hl⟩

/-- Defining a label reports the label. -/
theorem own_define {name : String} (hl : ∀ e ∈ l.reported, e.IsOwn)
    (h : l.define name = .ok next) : ∀ e ∈ next.reported, e.IsOwn := by
  rw [define] at h
  dsimp only at h
  split at h
  · cases h
  · obtain rfl := Except.ok.inj h
    exact List.forall_mem_cons.mpr ⟨trivial, hl⟩

/-- Referring to a label reports the reference. -/
theorem own_refer {width : Datum} {path : Source.LabelPath} (hl : ∀ e ∈ l.reported, e.IsOwn)
    (h : l.refer width path = .ok next) : ∀ e ∈ next.reported, e.IsOwn := by
  rw [refer] at h
  split at h
  · cases h
  · obtain ⟨label, -, rfl⟩ := except_map_eq_ok_iff.mp h
    exact List.forall_mem_cons.mpr ⟨trivial, hl⟩

/-- An action reports nothing but events of the assembler. -/
theorem own_perform {a : Source.Action} (hl : ∀ e ∈ l.reported, e.IsOwn)
    (h : l.perform a = .ok next) : ∀ e ∈ next.reported, e.IsOwn := by
  cases a with
  | opcode op => exact own_issue hl h
  | dup n => exact own_issue hl h
  | swap n => exact own_issue hl h
  | label name => exact own_define hl h
  | unknown text => cases h
  -- A literal is read before anything is reported.
  | byte literal =>
    obtain ⟨n, -, hbyte⟩ := except_bind_eq_ok_iff.mp h
    obtain ⟨i, -, hissue⟩ := except_bind_eq_ok_iff.mp hbyte
    exact own_issue hl hissue
  | push keyword operand =>
    obtain ⟨width, -, hpush⟩ := except_bind_eq_ok_iff.mp h
    cases operand with
    | literal text =>
      obtain ⟨i, -, hissue⟩ := except_bind_eq_ok_iff.mp hpush
      exact own_issue hl hissue
    | reference path => exact own_refer hl hpush

/-- The same is true of actions one after another, up to the first that is refused. -/
theorem own_performAll {actions : List Source.Action} (hl : ∀ e ∈ l.reported, e.IsOwn) :
    ∀ e ∈ (l.performAll actions).1.reported, e.IsOwn := by
  induction actions generalizing l with
  | nil => exact hl
  | cons a rest ih =>
    rw [performAll]
    split
    · rename_i next hnext
      exact ih (own_perform hl hnext)
    · exact hl

end Layout

namespace Assembly

/-- A unit is reported by its namespace before its actions are performed. -/
theorem own_layOut {l : Layout} (hl : ∀ e ∈ l.reported, e.IsOwn) (u : SourceUnit) :
    ∀ e ∈ (layOut l u).1.reported, e.IsOwn := by
  have hentered : ∀ e ∈ ((l.report (.processing u.space)).enter u.space).reported, e.IsOwn :=
    List.forall_mem_cons.mpr ⟨trivial, hl⟩
  rw [layOut]
  split
  · exact Layout.own_performAll hentered
  · exact hentered

/-- However many units are laid out, and wherever that stops, the assembler reports its own events
only. -/
theorem own_layOutAll {l : Layout} (hl : ∀ e ∈ l.reported, e.IsOwn) (units : List SourceUnit) :
    ∀ e ∈ (layOutAll l units).1.reported, e.IsOwn := by
  induction units generalizing l with
  | nil => exact hl
  | cons u units ih =>
    have hunit := own_layOut hl u
    rw [layOutAll]
    split
    · rename_i next hnext
      rw [hnext] at hunit
      exact ih hunit
    · rename_i next e hnext
      rw [hnext] at hunit
      exact hunit

/-- Whatever assembling comes to, all it reports are events of the assembler. -/
theorem isOwn_of_mem_events {units : List SourceUnit} {e : Event}
    (h : e ∈ (ofUnits units).events) : e.IsOwn := by
  have hevents : (ofUnits units).events = (layOutAll .empty units).1.reported.reverse := by
    rw [ofUnits]
    split <;> simp_all [Layout.events]
  have hempty : ∀ e ∈ Layout.empty.reported, e.IsOwn := by
    intro e he
    cases he
  rw [hevents, List.mem_reverse] at h
  exact own_layOutAll hempty units e h

/-- So none of it says that assembly has failed. -/
theorem quiet_events (units : List SourceUnit) : Quiet (ofUnits units).events := by
  intro text hmem
  exact isOwn_of_mem_events hmem

end Assembly

end EvmAssembler
