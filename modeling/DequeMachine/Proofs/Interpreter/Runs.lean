import DequeMachine.Proofs.Interpreter.Effects
import DequeMachine.Proofs.Text.Utf8

/-!
# Runs of an interpreter

As long as its sink has room an interpreter follows the plain one, line by line: the same errors,
values, modes, counts and states, and the bytes of the same output. A run of a program on a sink that
takes everything is therefore the plain run of its decoded lines.
-/
namespace DequeMachine.Interpreter

/-- What every line preserves: all that was printed since the sink was `base` is the plain output. -/
structure Follows (s : Interpreter) (base : Sink) (p : Plain.Interpreter) : Prop where
  machine : s.machine.Represents p.machine
  lines : s.lines = p.lines
  state : s.state = p.state
  sink : s.sink = base.append (Utf8.encode p.output)

namespace Follows

variable {s : Interpreter} {base : Sink} {p : Plain.Interpreter}

theorem represents (h : s.Follows base p) (hroom : base.HasRoom (Utf8.encode p.output).length) :
    s.Represents p.machine := by
  refine ⟨h.machine, ?_⟩
  rw [h.sink, Sink.Fits, Sink.hasRoom_append]
  exact hroom

/-- One line on a sink that takes what the plain line prints. -/
theorem executeLine_of_write (h : s.Follows base p) (hrepresents : s.Represents p.machine) (t : Text)
    (hwrite : ∀ printed p', p.machine.line t = .ok (printed, p') →
      (s.sink.write (Utf8.encode printed)).1 = none) :
    (s.executeLine t).1 = (p.executeLine t).1 ∧
      (s.executeLine t).2.Follows base (p.executeLine t).2 := by
  rw [Plain.Interpreter.executeLine]
  cases hline : p.machine.line t with
  | error fault =>
    obtain ⟨s', hs', hcounted⟩ := executeLine_of_error hrepresents hline
    have hlines : s'.lines = p.lines + 1 := by rw [hcounted.lines, h.lines]
    have hstate : s'.state = p.state := by rw [hcounted.state, h.state]
    have hsink : s'.sink = base.append (Utf8.encode p.output) := by rw [hcounted.sink, h.sink]
    rw [hs', h.lines]
    exact ⟨rfl, hcounted.machine, hlines, hstate, hsink⟩
  | ok outcome =>
    obtain ⟨printed, p'⟩ := outcome
    obtain ⟨s', hs', hcounted⟩ := executeLine_of_ok hrepresents hline
    have hlines : s'.lines = p.lines + 1 := by rw [hcounted.lines, h.lines]
    have hstate : s'.state = p.state := by rw [hcounted.state, h.state]
    have hwritten := Sink.write_of_fst_eq_none (hwrite printed p' hline)
    have hsink : s'.sink = base.append (Utf8.encode (p.output ++ printed)) := by
      rw [hcounted.sink, hwritten, h.sink, Sink.append_append, Utf8.encode_append]
    rw [hs', hwritten]
    exact ⟨rfl, hcounted.machine, hlines, hstate, hsink⟩

theorem executeLine (h : s.Follows base p) (t : Text)
    (hroom : base.HasRoom (Utf8.encode (p.executeLine t).2.output).length) :
    (s.executeLine t).1 = (p.executeLine t).1 ∧
      (s.executeLine t).2.Follows base (p.executeLine t).2 := by
  have hlength := Utf8.length_encode_le (Plain.Interpreter.output_executeLine t p)
  apply h.executeLine_of_write (h.represents (hroom.mono hlength))
  intro printed p' hline
  rw [Plain.Interpreter.executeLine, hline, Utf8.encode_append, List.length_append] at hroom
  rw [h.sink, Sink.write_of_room (Sink.hasRoom_append.mpr hroom)]

theorem executeLines (h : s.Follows base p) (lines : List Bytes)
    (hroom : base.HasRoom
      (Utf8.encode (p.executeLines (lines.map Utf8.decode)).2.output).length) :
    (s.executeLines lines).1 = (p.executeLines (lines.map Utf8.decode)).1 ∧
      (s.executeLines lines).2.Follows base (p.executeLines (lines.map Utf8.decode)).2 := by
  induction lines generalizing s p with
  | nil => exact ⟨rfl, h⟩
  | cons line lines ih =>
    rw [Interpreter.executeLines]
    rw [List.map_cons, Plain.Interpreter.executeLines] at hroom ⊢
    have hline := h.executeLine (Utf8.decode line)
    generalize s.executeLine (Utf8.decode line) = answer at hline
    generalize p.executeLine (Utf8.decode line) = plain at hroom hline
    obtain ⟨e, s'⟩ := answer
    obtain ⟨e', p'⟩ := plain
    cases e' with
    | none =>
      have hprinted := Plain.Interpreter.output_executeLines (lines.map Utf8.decode) p'
      obtain ⟨rfl, hfollows⟩ := hline (hroom.mono (Utf8.length_encode_le hprinted))
      exact ih hfollows hroom
    | some e' =>
      obtain ⟨rfl, hfollows⟩ := hline hroom
      exact ⟨rfl, hfollows⟩

/-- Whatever room there is, a line is followed unless the sink is what it fails on. -/
theorem executeLine_of_written (h : s.Follows base p) (hfits : s.sink.Fits) (t : Text)
    (hwritten : ∀ text, (s.executeLine t).1 ≠ some (.io text)) :
    (s.executeLine t).1 = (p.executeLine t).1 ∧
      (s.executeLine t).2.Follows base (p.executeLine t).2 := by
  have hrepresents : s.Represents p.machine := ⟨h.machine, hfits⟩
  apply h.executeLine_of_write hrepresents
  intro printed p' hline
  obtain ⟨s', hs', -⟩ := executeLine_of_ok hrepresents hline
  rw [hs'] at hwritten
  cases hfailure : (s.sink.write (Utf8.encode printed)).1 with
  | none => rfl
  | some text =>
    rw [hfailure] at hwritten
    exact absurd rfl (hwritten text)

theorem executeLines_of_written (h : s.Follows base p) (hfits : s.sink.Fits) (lines : List Bytes)
    (hwritten : ∀ text, (s.executeLines lines).1 ≠ some (.io text)) :
    (s.executeLines lines).1 = (p.executeLines (lines.map Utf8.decode)).1 ∧
      (s.executeLines lines).2.Follows base (p.executeLines (lines.map Utf8.decode)).2 := by
  induction lines generalizing s p with
  | nil => exact ⟨rfl, h⟩
  | cons line lines ih =>
    rw [Interpreter.executeLines] at hwritten ⊢
    rw [List.map_cons, Plain.Interpreter.executeLines]
    have hline := h.executeLine_of_written hfits (Utf8.decode line)
    have hkept := fits_executeLine hfits (Utf8.decode line)
    generalize s.executeLine (Utf8.decode line) = answer at hwritten hline hkept ⊢
    generalize p.executeLine (Utf8.decode line) = plain at hline ⊢
    obtain ⟨e, s'⟩ := answer
    obtain ⟨e', p'⟩ := plain
    cases e with
    | none =>
      obtain ⟨rfl, hfollows⟩ := hline (by simp)
      exact ih hfollows hkept hwritten
    | some e =>
      obtain ⟨rfl, hfollows⟩ := hline hwritten
      exact ⟨rfl, hfollows⟩

end Follows

/-- What can be read off an interpreter is what the plain one holds. -/
structure Shows (s : Interpreter) (p : Plain.Interpreter) : Prop where
  values : s.machine.values.chain.toList? = some p.machine.values
  mode : s.machine.mode = p.machine.mode
  lines : s.lines = p.lines
  state : s.state = p.state
  output : s.sink.kept.toList = Utf8.encode p.output

section New

variable {s : Interpreter} {p : Plain.Interpreter}

theorem follows_new (journal : Journal) : ({ journal } : Interpreter).Follows {} {} where
  machine := ⟨Deque.Represents.empty, rfl⟩
  lines := rfl
  state := rfl
  sink := rfl

theorem Follows.shows (h : s.Follows {} p) : s.Shows p where
  values := Chain.Represents.toList?_eq h.machine.values
  mode := h.machine.mode
  lines := h.lines
  state := h.state
  output := by
    rw [h.sink, Sink.append, Array.toList_appendList]
    rfl

theorem Follows.halt (h : s.Follows {} p) (e : Option Error) :
    (s.halt e).1 = e ∧ (s.halt e).2.Shows (p.halt e) := by
  have hflush : s.sink.flush = (none, { s.sink with flushes := s.sink.flushes + 1 }) := by
    rw [h.sink]
    rfl
  have hnone : e.or none = e := Option.or_none
  simp only [Interpreter.halt, hflush, Option.map_none, hnone]
  refine ⟨trivial, ?_, h.machine.mode, h.lines, rfl, h.shows.output⟩
  exact Chain.Represents.toList?_eq (Chain.Represents.clear h.machine.values)

theorem new_executeLines (journal : Journal) (lines : List Bytes) :
    (({ journal } : Interpreter).executeLines lines).1 =
        (({} : Plain.Interpreter).executeLines (lines.map Utf8.decode)).1 ∧
      (({ journal } : Interpreter).executeLines lines).2.Follows {}
        (({} : Plain.Interpreter).executeLines (lines.map Utf8.decode)).2 :=
  (follows_new journal).executeLines lines (Sink.hasRoom_of_unlimited rfl _)

theorem run_of_running (h : s.state = .running) (program : Bytes) :
    s.run { bytes := program } =
      (s.executeLines program.lines).2.halt (s.executeLines program.lines).1 := by
  have hnone : (s.executeLines program.lines).1.or none = (s.executeLines program.lines).1 :=
    Option.or_none
  rw [run, if_pos h, consume, Source.reading]
  simp only [Option.map_none, hnone]

theorem Follows.run (h : s.Follows {} p) (hs : s.state = .running) (program : Bytes) :
    (s.run { bytes := program }).1 = (p.run (program.lines.map Utf8.decode)).1 ∧
      (s.run { bytes := program }).2.Shows (p.run (program.lines.map Utf8.decode)).2 := by
  obtain ⟨herror, hfollows⟩ := h.executeLines program.lines (Sink.hasRoom_of_unlimited rfl _)
  obtain ⟨hhalt, hshows⟩ := hfollows.halt (s.executeLines program.lines).1
  rw [run_of_running hs]
  exact ⟨hhalt.trans herror, herror ▸ hshows⟩

/-- A run of a program, whatever its bytes, ends as the plain run of its lines does, and so does every
beginning of it before the values are released. -/
theorem run_eq_plain (program : Bytes) (journal : Journal) :
    let s : Interpreter := { journal }
    let p : Plain.Interpreter := {}
    ((s.run { bytes := program }).1 = (p.run (program.lines.map Utf8.decode)).1 ∧
      (s.run { bytes := program }).2.Shows (p.run (program.lines.map Utf8.decode)).2) ∧
    ∀ k,
      (s.executeLines (program.lines.take k)).1 =
        (p.executeLines ((program.lines.take k).map Utf8.decode)).1 ∧
      (s.executeLines (program.lines.take k)).2.Shows
        (p.executeLines ((program.lines.take k).map Utf8.decode)).2 := by
  intro s p
  constructor
  · obtain ⟨herror, hfollows⟩ := new_executeLines journal program.lines
    obtain ⟨hhalt, hshows⟩ := hfollows.halt (s.executeLines program.lines).1
    rw [run_of_running rfl]
    exact ⟨hhalt.trans herror, herror ▸ hshows⟩
  · intro k
    obtain ⟨herror, hfollows⟩ := new_executeLines journal (program.lines.take k)
    exact ⟨herror, hfollows.shows⟩

end New

section reachable

/-- What lines can make of a new interpreter before its run ends, whatever its sink and its journal. -/
inductive Reachable : Interpreter → Prop
  | new (limit : Option Sink.Limit) (flushFailure : Option Text) (journal : Journal) :
    Reachable { sink := { limit, flushFailure }, journal }
  | line {s : Interpreter} (h : Reachable s) (t : Text) : Reachable (s.executeLine t).2

variable {s : Interpreter} {p : Plain.Machine} {xs : List Int32}

theorem Represents.executeLine (h : s.Represents p) (t : Text) :
    ∃ p', (s.executeLine t).2.Represents p' := by
  cases hline : p.line t with
  | error fault =>
    obtain ⟨s', hs', hcounted⟩ := executeLine_of_error h hline
    rw [hs']
    exact ⟨p, hcounted.machine, hcounted.sink ▸ h.sink⟩
  | ok outcome =>
    obtain ⟨printed, p'⟩ := outcome
    obtain ⟨s', hs', hcounted⟩ := executeLine_of_ok h hline
    rw [hs']
    exact ⟨p', hcounted.machine, hcounted.sink ▸ h.sink.write (Utf8.encode printed)⟩

theorem Reachable.represents (h : s.Reachable) : ∃ p, s.Represents p := by
  induction h with
  | new limit flushFailure journal => exact ⟨{}, represents_new limit flushFailure journal⟩
  | line h t ih =>
    obtain ⟨p, hp⟩ := ih
    exact hp.executeLine t

theorem Reachable.executeLines (h : s.Reachable) (lines : List Bytes) :
    (s.executeLines lines).2.Reachable := by
  induction lines generalizing s with
  | nil => exact h
  | cons line lines ih =>
    have hline := h.line (Utf8.decode line)
    rw [Interpreter.executeLines]
    generalize s.executeLine (Utf8.decode line) = answer at hline
    obtain ⟨e, t⟩ := answer
    cases e with
    | some e => exact hline
    | none => exact ih hline

/-- A reachable interpreter represents the values that a walk over its slots meets. -/
theorem Reachable.represents_values (h : s.Reachable)
    (hxs : s.machine.values.chain.toList? = some xs) : s.Represents ⟨xs, s.machine.mode⟩ := by
  obtain ⟨p, hp⟩ := h.represents
  have hwalk := Chain.Represents.toList?_eq hp.machine.values
  rw [hxs] at hwalk
  obtain rfl : xs = p.values := Option.some.inj hwalk
  exact ⟨⟨hp.machine.values, rfl⟩, hp.sink⟩

/-- The plain interpreter that goes on from here with nothing printed yet. -/
theorem Represents.follows (h : s.Represents p) :
    s.Follows s.sink { machine := p, lines := s.lines, state := s.state } where
  machine := h.machine
  lines := rfl
  state := rfl
  sink := by rw [Utf8.encode_nil, Sink.append_nil]

/-- Where the plain lines print nothing the lines pass as they do, whatever the sink, and leave it alone. -/
theorem Represents.executeLines_of_silent (h : s.Represents p) {lines : List Bytes} {q : Plain.Interpreter}
    (hplain : Plain.Interpreter.executeLines (lines.map Utf8.decode)
      { machine := p, lines := s.lines, state := s.state } = (none, q)) (hsilent : q.output = []) :
    ∃ t, s.executeLines lines = (none, t) ∧ t.machine.Represents q.machine ∧ t.sink = s.sink := by
  have hrun := h.follows.executeLines lines
  rw [hplain, hsilent] at hrun
  obtain ⟨herror, hfollows⟩ := hrun h.sink
  refine ⟨_, Prod.ext herror rfl, hfollows.machine, ?_⟩
  rw [hfollows.sink, hsilent, Utf8.encode_nil, Sink.append_nil]

end reachable

end DequeMachine.Interpreter
