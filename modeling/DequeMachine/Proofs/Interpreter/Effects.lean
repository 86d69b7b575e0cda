import DequeMachine.Proofs.Interpreter.Lines
import DequeMachine.Proofs.Interpreter.Passes

namespace DequeMachine.Interpreter

/-- What a line does to a sink. -/
inductive Effect
  | leave (e : Option Error)
  | write (b : Bytes)

/-- The error of the line, and the sink after it. -/
def Effect.on (sink : Sink) : Effect → Option Error × Sink
  | leave e => (e, sink)
  | write b => ((sink.write b).1.map .io, (sink.write b).2)

/-- What a line does, whatever the sink is: its effect there, and the machine and journal it leaves. A line
that prints leaves the machine it found. -/
structure Does (s : Interpreter) (t : Text) (effect : Effect) (machine : Machine) (journal : Journal) :
    Prop where
  eq : ∀ sink : Sink, { s with sink }.executeLine t =
    ((effect.on sink).1, ⟨machine, s.lines + 1, s.state, (effect.on sink).2, journal⟩)
  printing : ∀ b, effect = .write b → b ≠ [] → machine = s.machine

theorem exists_does (t : Text) (s : Interpreter) :
    ∃ effect machine journal, s.Does t effect machine journal := by
  cases hline : Instruction.ofLine t with
  | error fault =>
    refine ⟨.leave (some (.atLine (s.lines + 1) fault)), s.machine, s.journal, fun sink => ?_,
      fun b hb => Effect.noConfusion hb⟩
    simp only [executeLine, hline]
    rfl
  | ok instruction =>
    cases instruction with
    | none =>
      let journal := s.journal.note .trace (Text.onLine (s.lines + 1) "skipped".toList)
      refine ⟨.leave none, s.machine, journal, fun sink => ?_, fun b hb => Effect.noConfusion hb⟩
      simp only [executeLine, hline]
      rfl
    | some i =>
      let journal := s.journal.note .debug (Text.onLine (s.lines + 1) i.opcode)
      rcases hstep : s.machine.step i with ⟨answer, machine⟩
      cases answer with
      | error refusal =>
        refine ⟨.leave (some (refusal.onLine (s.lines + 1))), machine, journal, fun sink => ?_,
          fun b hb => Effect.noConfusion hb⟩
        simp only [executeLine, hline]
        exact execute_of_error hstep
      | ok b =>
        refine ⟨.write b, machine, noteMode (s.lines + 1) s.machine.mode machine.mode journal,
          fun sink => ?_, ?_⟩
        · simp only [executeLine, hline]
          exact execute_of_ok hstep
        · rintro _ ⟨⟩ hb
          exact Machine.step_of_printed hstep hb

theorem Effect.extends_on (effect : Effect) (sink : Sink) : (effect.on sink).2.Extends sink := by
  cases effect with
  | leave e => exact .refl sink
  | write b => exact Sink.extends_write b sink

/-- What lines can make of an interpreter, as far as its run has gone. -/
structure Continues (later earlier : Interpreter) : Prop where
  state : later.state = earlier.state
  sink : later.sink.Extends earlier.sink

variable {s : Interpreter}

theorem continues_executeLine (t : Text) (s : Interpreter) : (s.executeLine t).2.Continues s := by
  obtain ⟨effect, machine, journal, h⟩ := exists_does t s
  rw [h.eq s.sink]
  exact ⟨rfl, effect.extends_on s.sink⟩

theorem fits_executeLine (h : s.sink.Fits) (t : Text) : (s.executeLine t).2.sink.Fits := by
  obtain ⟨effect, machine, journal, hdoes⟩ := exists_does t s
  rw [hdoes.eq s.sink]
  cases effect with
  | leave e => exact h
  | write b => exact h.write b

theorem lines_executeLine (t : Text) (s : Interpreter) : (s.executeLine t).2.lines = s.lines + 1 := by
  obtain ⟨effect, machine, journal, h⟩ := exists_does t s
  rw [h.eq s.sink]

theorem continues_executeLines (lines : List Bytes) (s : Interpreter) :
    (s.executeLines lines).2.Continues s := by
  induction lines generalizing s with
  | nil => exact ⟨rfl, .refl s.sink⟩
  | cons line lines ih =>
    have hline := continues_executeLine (Utf8.decode line) s
    rw [executeLines]
    generalize s.executeLine (Utf8.decode line) = answer at hline
    obtain ⟨e, t⟩ := answer
    cases e with
    | some e => exact hline
    | none =>
      have hrest := ih t
      exact ⟨hrest.state.trans hline.state, hrest.sink.trans hline.sink⟩

theorem continues_mono {xs ys : List Bytes} (h : xs <+: ys) (s : Interpreter) :
    (s.executeLines ys).2.Continues (s.executeLines xs).2 := by
  obtain ⟨more, rfl⟩ := h
  rw [executeLines_append]
  rcases s.executeLines xs with ⟨_ | e, t⟩
  · exact continues_executeLines more t
  · exact ⟨rfl, .refl t.sink⟩

theorem continues_after {j k : Nat} (h : j ≤ k) (lines : List Bytes) (s : Interpreter) :
    (s.after lines k).Continues (s.after lines j) :=
  continues_mono (List.take_prefix_take_left h) s

theorem Passes.continues {t : Interpreter} {lines : List Bytes} (h : s.Passes lines t) :
    t.Continues s := by
  have hall := continues_executeLines lines s
  rwa [executeLines_eq_none_iff.mpr h] at hall

theorem Passes.lines_eq {t : Interpreter} {lines : List Bytes} (h : s.Passes lines t) :
    t.lines = s.lines + lines.length := by
  induction h with
  | nil s => rfl
  | @cons s t u line lines first rest ih =>
    have hline := lines_executeLine (Utf8.decode line) s
    rw [first] at hline
    rw [ih, hline, List.length_cons]
    omega

end DequeMachine.Interpreter
