import DequeMachine.Proofs.Interpreter.Effects

/-!
# The life of an interpreter

A run ends by the first thing that goes wrong: a line fails, or the source breaks behind lines that
pass, or the sink cannot be flushed behind a source read to its end. However it ends, the sink is
flushed once and the values are released, and no later run does anything.
-/
namespace DequeMachine

/-- No value is held and no slot is taken. -/
structure Deque.Released (d : Deque) : Prop where
  size : d.size = 0
  isEmpty : d.isEmpty = true
  live : d.live = 0

theorem Deque.released_release (d : Deque) : d.release.Released := ⟨rfl, rfl, rfl⟩

theorem Source.reading_program (program : Bytes) :
    reading { bytes := program } = (program.lines, none) := rfl

/-- A source breaks only in place of a byte that it has or of its end. -/
theorem Source.reading_snd_eq_none_iff (source : Source) :
    source.reading.2 = none ↔ ∀ b ∈ source.broken, source.bytes.length < b.after := by
  unfold reading
  cases hbroken : source.broken with
  | none => simp
  | some b =>
    simp only [Option.mem_some_iff, forall_eq']
    split
    · rename_i hafter
      simp only [reduceCtorEq, false_iff, not_lt]
      exact hafter
    · rename_i hafter
      simp only [true_iff]
      exact Nat.lt_of_not_le hafter

theorem Source.reading_fst (source : Source) (h : source.reading.2 = none) :
    source.reading.1 = source.bytes.lines := by
  unfold reading at h ⊢
  split at h
  · split at h
    · cases h
    · rw [if_neg ‹_›]
  · rfl

namespace Interpreter

variable {s : Interpreter} {source : Source} {answer : Option Error}

theorem run_eq_halt (hs : s.state = .running) (source : Source) :
    s.run source = (s.executeLines source.reading.1).2.halt
      ((s.executeLines source.reading.1).1.or (source.reading.2.map .io)) := by
  rw [run, if_pos hs]
  rfl

section reading

variable {t : Interpreter} {lines : List Bytes} {failure : Option Text}

theorem run_of_failing (hs : s.state = .running) {e : Error}
    (hreading : source.reading = (lines, failure)) (h : s.executeLines lines = (some e, t)) :
    s.run source = t.halt (some e) := by
  rw [run_eq_halt hs, hreading, h]
  rfl

theorem run_of_passing (hs : s.state = .running) (hreading : source.reading = (lines, failure))
    (h : s.Passes lines t) : s.run source = t.halt (failure.map .io) := by
  rw [run_eq_halt hs, hreading, executeLines_eq_none_iff.mpr h]
  rfl

end reading

theorem released_run (hs : s.state = .running) (source : Source) :
    (s.run source).2.machine.values.Released := by
  rw [run_eq_halt hs]
  exact (s.executeLines source.reading.1).2.machine.values.released_release

theorem flushes_run (hs : s.state = .running) (source : Source) :
    (s.run source).2.sink.flushes = s.sink.flushes + 1 := by
  rw [run_eq_halt hs, flushes_halt, (continues_executeLines _ s).sink.flushes]

theorem state_run (hs : s.state = .running) (source : Source) :
    (s.run source).2.state = if (s.run source).1.isNone then .haltedOk else .haltedError := by
  rw [run_eq_halt hs]
  exact state_halt _ _

/-- How a run ends. A line that fails comes before the source, and both come before the flush. -/
inductive Ends (s : Interpreter) (source : Source) : Option Error → Prop
  | line {before after : List Bytes} {line : Bytes} {e : Error} {t u : Interpreter}
    (reading : source.reading.1 = before ++ line :: after) (passing : s.Passes before t)
    (failing : t.executeLine (Utf8.decode line) = (some e, u)) : Ends s source (some e)
  | source {text : Text} {t : Interpreter} (passing : s.Passes source.reading.1 t)
    (breaking : source.reading.2 = some text) : Ends s source (some (.io text))
  | flush {text : Text} {t : Interpreter} (passing : s.Passes source.reading.1 t)
    (reading : source.reading.2 = none) (failing : s.sink.flushFailure = some text) :
    Ends s source (some (.io text))
  | good {t : Interpreter} (passing : s.Passes source.reading.1 t)
    (reading : source.reading.2 = none) (flushing : s.sink.flushFailure = none) : Ends s source none

theorem run_fst (hs : s.state = .running) (source : Source) :
    (s.run source).1 = ((s.executeLines source.reading.1).1.or (source.reading.2.map .io)).or
      (s.sink.flushFailure.map .io) := by
  rw [run_eq_halt hs, ← (continues_executeLines source.reading.1 s).sink.flushFailure]
  rfl

theorem run_fst_of_flushing (hs : s.state = .running) (hflush : s.sink.flushFailure = none)
    (program : Bytes) : (s.run { bytes := program }).1 = (s.executeLines program.lines).1 := by
  rw [run_fst hs, hflush, Source.reading_program]
  simp only [Option.map_none, Option.or_none]

theorem ends_run (hs : s.state = .running) (source : Source) : s.Ends source (s.run source).1 := by
  rw [run_fst hs]
  rcases hlines : s.executeLines source.reading.1 with ⟨_ | e, t⟩
  · have hpasses := executeLines_eq_none_iff.mp hlines
    cases hreading : source.reading.2 with
    | some text => exact .source hpasses hreading
    | none =>
      cases hflush : s.sink.flushFailure with
      | some text => exact .flush hpasses hreading hflush
      | none => exact .good hpasses hreading hflush
  · obtain ⟨before, line, after, t', hreading, hpasses, hfails⟩ := executeLines_eq_some_iff.mp hlines
    exact .line hreading hpasses hfails

theorem Ends.eq_run (h : s.Ends source answer) (hs : s.state = .running) :
    answer = (s.run source).1 := by
  rw [run_fst hs]
  cases h with
  | line hreading hpasses hfails =>
    rw [executeLines_eq_some_iff.mpr ⟨_, _, _, _, hreading, hpasses, hfails⟩]
    rfl
  | source hpasses hbreaks =>
    rw [executeLines_eq_none_iff.mpr hpasses, hbreaks]
    rfl
  | flush hpasses hreading hfails =>
    rw [executeLines_eq_none_iff.mpr hpasses, hreading, hfails]
    rfl
  | good hpasses hreading hflushes =>
    rw [executeLines_eq_none_iff.mpr hpasses, hreading, hflushes]
    rfl

/-- A run ends well when the source is read to its end, each line passes and the flush succeeds. -/
theorem ends_none_iff : s.Ends source none ↔
    (∀ b ∈ source.broken, source.bytes.length < b.after) ∧
      (∃ t, s.Passes source.bytes.lines t) ∧ s.sink.flushFailure = none := by
  rw [← source.reading_snd_eq_none_iff]
  constructor
  · intro h
    cases h with
    | good hpasses hreading hflushes =>
      rw [source.reading_fst hreading] at hpasses
      exact ⟨hreading, ⟨_, hpasses⟩, hflushes⟩
  · rintro ⟨hreading, ⟨t, hpasses⟩, hflushes⟩
    rw [← source.reading_fst hreading] at hpasses
    exact .good hpasses hreading hflushes

/-- Runs of one interpreter, one after the other: what each answers and leaves. -/
def session : List Source → Interpreter → List (Option Error × Interpreter)
  | [], _ => []
  | source :: sources, s => s.run source :: session sources (s.run source).2

theorem session_of_halted (h : s.state ≠ .running) (sources : List Source) :
    s.session sources = sources.map fun _ => (some .halted, s) := by
  induction sources with
  | nil => rfl
  | cons source sources ih =>
    rw [session, run_of_halted h, ih]
    rfl

theorem halted_run (hs : s.state = .running) (source : Source) :
    (s.run source).2.state ≠ .running := by
  rw [state_run hs]
  split <;> decide

/-- Of all runs of an interpreter the first alone has an effect. It flushes the sink once, releases the
values and tells by its state whether there was an error, which is the first thing that went wrong. A
later run is refused and leaves everything as it is, whatever its source holds. -/
theorem session_eq (limit : Option Sink.Limit) (flushFailure : Option Text) (journal : Journal)
    (first : Source) (later : List Source) :
    let s : Interpreter := { sink := { limit, flushFailure }, journal }
    let e := (s.run first).1
    let t := (s.run first).2
    s.session (first :: later) = (e, t) :: later.map (fun _ => (some .halted, t)) ∧
      t.sink.flushes = 1 ∧ t.machine.values.Released ∧
      (t.state = .haltedOk ↔ e = none) ∧ (t.state = .haltedError ↔ e ≠ none) ∧
      (∀ answer, s.Ends first answer ↔ answer = e) ∧
      (e = none ↔ (∀ b ∈ first.broken, first.bytes.length < b.after) ∧
        (∃ u, s.Passes first.bytes.lines u) ∧ flushFailure = none) := by
  intro s e t
  have hstate : t.state = if e.isNone then .haltedOk else .haltedError := state_run rfl first
  have hends : ∀ answer, s.Ends first answer ↔ answer = e := by
    intro answer
    constructor
    · intro h
      exact h.eq_run rfl
    · rintro rfl
      exact ends_run rfl first
  refine ⟨?_, flushes_run rfl first, released_run rfl first, ?_, ?_, hends, ?_⟩
  · rw [session, session_of_halted (halted_run rfl first)]
  · rw [hstate]
    cases e <;> simp
  · rw [hstate]
    cases e <;> simp
  · have hgood := hends none
    rw [ends_none_iff] at hgood
    exact ⟨fun h => hgood.mpr h.symm, fun h => (hgood.mp h).symm⟩

end Interpreter

end DequeMachine
