import DequeMachine.Proofs.Deque.History
import DequeMachine.Proofs.Interpreter.InertLines
import DequeMachine.Proofs.Interpreter.Runs
import DequeMachine.Proofs.Interpreter.Records
import DequeMachine.Proofs.Plain.Modes

/-!
# Queues on a stack

A program can do without a queue. Its lines that change the mode are left out, and behind each line that
pushes to a queue comes a rotation. On a stack these lines hold the same values and print the same, line by
line, and fail where the program fails.
-/
namespace DequeMachine

open Utf8 (decode encode)

/-- The lines that stand on a stack for a line that is reached in some mode. -/
def Bytes.stackedLine (mode : Mode) (line : Bytes) : List Bytes :=
  match Text.opcode? (decode line) with
  | some .stack | some .queue => []
  | some .push => line :: if mode = .queue then [encode Opcode.rotl.word] else []
  | _ => [line]

/-- The lines that stand on a stack for lines of which the first is reached in some mode. -/
def Bytes.stacked : Mode → List Bytes → List Bytes
  | _, [] => []
  | mode, line :: lines =>
    stackedLine mode line ++ stacked (Text.modeAfter mode (decode line)) lines

/-- The error, met on another line. -/
def Error.onLine (n : Nat) : Error → Error
  | atLine _ fault => atLine n fault
  | allocation => allocation
  | io text => io text
  | halted => halted

namespace Bytes

/-- A line is left out as a change of mode, or is a push that a rotation follows, or stands for itself. -/
inductive StackedCases (mode : Mode) (line : Bytes) : List Bytes → Prop
  | switch (hop : Text.opcode? (decode line) = some .stack ∨ Text.opcode? (decode line) = some .queue) :
    StackedCases mode line []
  | pushed (hop : Text.opcode? (decode line) = some .push) (hmode : mode = .queue) :
    StackedCases mode line [line, encode Opcode.rotl.word]
  | kept (hstack : Text.opcode? (decode line) ≠ some .stack)
    (hqueue : Text.opcode? (decode line) ≠ some .queue)
    (hpush : Text.opcode? (decode line) = some .push → mode = .stack) : StackedCases mode line [line]

theorem stackedLine_cases (mode : Mode) (line : Bytes) :
    StackedCases mode line (stackedLine mode line) := by
  unfold stackedLine
  split
  · rename_i hop
    exact .switch (.inl hop)
  · rename_i hop
    exact .switch (.inr hop)
  · rename_i hop
    cases mode with
    | stack => exact .kept (by simp [hop]) (by simp [hop]) fun _ => rfl
    | queue => exact .pushed hop rfl
  · rename_i hstack hqueue hpush
    exact .kept hstack hqueue fun h => absurd h hpush

theorem stacked_append (mode : Mode) (lines more : List Bytes) :
    stacked mode (lines ++ more) =
      stacked mode lines ++ stacked ((lines.map decode).foldl Text.modeAfter mode) more := by
  induction lines generalizing mode with
  | nil => rfl
  | cons line lines ih =>
    rw [List.cons_append, stacked, stacked, ih, List.append_assoc, List.map_cons, List.foldl_cons]

/-- The lines up to some place stand for the beginning of what all of them stand for. -/
theorem take_stacked (mode : Mode) (lines : List Bytes) (k : Nat) :
    (stacked mode lines).take (stacked mode (lines.take k)).length = stacked mode (lines.take k) := by
  have hsplit : stacked mode lines = stacked mode (lines.take k) ++
      stacked (((lines.take k).map decode).foldl Text.modeAfter mode) (lines.drop k) := by
    rw [← stacked_append, List.take_append_drop]
  rw [hsplit]
  exact List.take_left

end Bytes

theorem Text.modeAfter_eq (mode : Mode) (t : Text) :
    modeAfter mode t = (t.opcode?.bind Opcode.mode?).getD mode := by
  cases hop : t.opcode? with
  | some op =>
    obtain ⟨i, hi, rfl⟩ := Text.exists_instruction hop
    rw [modeAfter_of_instruction ((Instruction.ofLine_eq t).trans hi), Option.bind_some]
  | none =>
    rw [modeAfter, Instruction.ofLine_eq]
    split
    · rename_i i hi
      rw [Text.opcode?_of_ofWords hi] at hop
      cases hop
    · rfl

namespace Bytes

variable {mode : Mode} {line : Bytes} {lines block : List Bytes}

theorem StackedCases.modeAfter_of_mem (h : StackedCases mode line block) {standIn : Bytes}
    (hmem : standIn ∈ block) (mode' : Mode) : Text.modeAfter mode' (decode standIn) = mode' := by
  rw [Text.modeAfter_eq]
  cases h with
  | switch hop => exact absurd hmem List.not_mem_nil
  | pushed hop hmode =>
    rw [List.mem_pair] at hmem
    rcases hmem with rfl | rfl
    · rw [hop]
      rfl
    · have hrotl : Text.opcode? (decode (encode Opcode.rotl.word)) = some .rotl := by decide
      rw [hrotl]
      rfl
  | kept hstack hqueue hpush =>
    rw [List.mem_singleton] at hmem
    subst hmem
    cases hop : Text.opcode? (decode standIn) with
    | none => rfl
    | some op =>
      rw [Option.bind_some]
      cases op with
      | stack => exact absurd hop hstack
      | queue => exact absurd hop hqueue
      | push | pop | pall | pint | pchar | pstr | swap | add | sub | mul | div | mod | rotl | rotr | nop => rfl

/-- No stacked line changes the mode. -/
theorem modeAfter_of_mem_stacked (h : line ∈ stacked mode lines) (mode' : Mode) :
    Text.modeAfter mode' (decode line) = mode' := by
  induction lines generalizing mode with
  | nil => exact absurd h List.not_mem_nil
  | cons first lines ih =>
    rcases List.mem_append.mp h with hfirst | hrest
    · exact (stackedLine_cases mode first).modeAfter_of_mem hfirst mode'
    · exact ih hrest

theorem foldl_modeAfter_of_subset {more : List Bytes} (h : lines ⊆ stacked mode more) (mode' : Mode) :
    (lines.map decode).foldl Text.modeAfter mode' = mode' := by
  induction lines with
  | nil => rfl
  | cons line lines ih =>
    obtain ⟨hline, hlines⟩ := List.cons_subset.mp h
    rw [List.map_cons, List.foldl_cons, modeAfter_of_mem_stacked hline]
    exact ih hlines

end Bytes

namespace Interpreter

open Bytes (stacked stackedLine stackedLine_cases)
open Plain.Machine (SameOnStack)

/-- The second interpreter holds on a stack the values that the first one holds in its mode, and has printed
the same. -/
structure OnStack (s' s : Interpreter) : Prop where
  represents : ∃ xs, s.Represents ⟨xs, s.machine.mode⟩ ∧ s'.Represents ⟨xs, .stack⟩
  state : s'.state = s.state
  sink : s'.sink = s.sink

variable {s s' t t' : Interpreter} {x : Text} {line : Bytes} {lines : List Bytes} {e : Error}

theorem Counted.onStack {ys : List Int32} {mode : Mode} {sink : Sink} (h : s.Counted ⟨ys, mode⟩ sink t)
    (h' : s'.Counted ⟨ys, .stack⟩ sink t') (hfits : sink.Fits) (hstate : s'.state = s.state) :
    t'.OnStack t where
  represents := ⟨ys, ⟨⟨h.machine.values, rfl⟩, h.sink ▸ hfits⟩, ⟨h'.machine, h'.sink ▸ hfits⟩⟩
  state := h'.state.trans (hstate.trans h.state.symm)
  sink := h'.sink.trans h.sink.symm

/-- A line that does in any mode what it does on a stack. -/
theorem OnStack.executeLine (h : s'.OnStack s)
    (hline : ∀ xs, SameOnStack (Plain.Machine.line x ⟨xs, s.machine.mode⟩)
      (Plain.Machine.line x ⟨xs, .stack⟩)) :
    (s'.executeLine x).1 = (s.executeLine x).1.map (Error.onLine (s'.lines + 1)) ∧
      (s'.executeLine x).2.OnStack (s.executeLine x).2 := by
  obtain ⟨xs, hs, hs'⟩ := h.represents
  have hsame := hline xs
  generalize houtcome : Plain.Machine.line x ⟨xs, s.machine.mode⟩ = outcome at hsame
  generalize houtcome' : Plain.Machine.line x ⟨xs, .stack⟩ = outcome' at hsame
  cases hsame with
  | refused fault =>
    obtain ⟨u, hu, hcounted⟩ := executeLine_of_error hs houtcome
    obtain ⟨u', hu', hcounted'⟩ := executeLine_of_error hs' houtcome'
    rw [h.sink] at hcounted'
    rw [hu, hu']
    exact ⟨rfl, hcounted.onStack hcounted' hs.sink h.state⟩
  | done printed ys mode =>
    obtain ⟨u, hu, hcounted⟩ := executeLine_of_ok hs houtcome
    obtain ⟨u', hu', hcounted'⟩ := executeLine_of_ok hs' houtcome'
    rw [h.sink] at hu' hcounted'
    rw [hu, hu']
    refine ⟨?_, hcounted.onStack hcounted' (hs.sink.write _) h.state⟩
    cases (s.sink.write (encode printed)).1 <;> rfl

/-- A line, beside the lines that stand for it: all of these pass if it passes, and the first of them, which
is the same, fails if it fails. -/
inductive Beside (s s' : Interpreter) (line : Bytes) (block : List Bytes) : Prop
  | passing {t t' : Interpreter} (first : s.executeLine (decode line) = (none, t))
    (second : s'.Passes block t') (h : t'.OnStack t)
  | failing {e : Error} {t t' : Interpreter} {rest : List Bytes}
    (first : s.executeLine (decode line) = (some e, t)) (hblock : block = line :: rest)
    (second : s'.executeLine (decode line) = (some (e.onLine (s'.lines + 1)), t')) (h : t'.OnStack t)

theorem OnStack.beside_of_same (h : s'.OnStack s)
    (hline : ∀ xs, SameOnStack (Plain.Machine.line (decode line) ⟨xs, s.machine.mode⟩)
      (Plain.Machine.line (decode line) ⟨xs, .stack⟩)) : Beside s s' line [line] := by
  obtain ⟨herror, hlater⟩ := h.executeLine hline
  rcases hs : s.executeLine (decode line) with ⟨_ | e, t⟩ <;> rw [hs] at herror hlater
  · exact .passing hs (.cons (Prod.ext herror rfl) (.nil _)) hlater
  · exact .failing hs rfl (Prod.ext herror rfl) hlater

theorem OnStack.beside (h : s'.OnStack s) (line : Bytes) :
    Beside s s' line (stackedLine s.machine.mode line) := by
  have hcases := stackedLine_cases s.machine.mode line
  generalize stackedLine s.machine.mode line = block at hcases ⊢
  obtain ⟨xs, hs, hs'⟩ := h.represents
  cases hcases with
  | switch hop =>
    obtain ⟨mode, hline⟩ := Plain.Machine.line_switch xs s.machine.mode hop
    obtain ⟨t, ht, hcounted⟩ := executeLine_of_silent hs hline
    refine .passing ht (.nil s') ⟨⟨xs, ⟨⟨hcounted.machine.values, rfl⟩, ?_⟩, hs'⟩, ?_, ?_⟩
    · exact hcounted.sink ▸ hs.sink
    · exact h.state.trans hcounted.state.symm
    · exact h.sink.trans hcounted.sink.symm
  | pushed hop hmode =>
    rcases Plain.Machine.line_push xs hop with ⟨fault, hrefused⟩ | ⟨v, hqueue, hstack⟩
    · obtain ⟨t, ht, hcounted⟩ := executeLine_of_error hs (hrefused _)
      obtain ⟨t', ht', hcounted'⟩ := executeLine_of_error hs' (hrefused _)
      rw [h.sink] at hcounted'
      exact .failing ht rfl ht' (hcounted.onStack hcounted' hs.sink h.state)
    · -- The rotation takes the value from the front of the stack to the back, where the queue has it.
      rw [hmode] at hs
      have hrotl := Plain.Machine.line_rotl (v :: xs) .stack (t := decode (encode Opcode.rotl.word))
        (by decide)
      obtain ⟨t, ht, hcounted⟩ := executeLine_of_silent hs hqueue
      obtain ⟨u', hu', hfront⟩ := executeLine_of_silent hs' hstack
      have hu : u'.Represents ⟨v :: xs, .stack⟩ := ⟨hfront.machine, hfront.sink ▸ hs'.sink⟩
      obtain ⟨t', ht', hback⟩ := executeLine_of_silent hu hrotl
      rw [hfront.sink, h.sink] at hback
      exact .passing ht (.cons hu' (.cons ht' (.nil t')))
        (hcounted.onStack hback hs.sink (hfront.state.trans h.state))
  | kept hstack hqueue hpush =>
    exact h.beside_of_same fun xs => Plain.Machine.sameOnStack_line xs _ hstack hqueue hpush

theorem modeAfter_of_passing (h : s.executeLine x = (none, t)) :
    t.machine.mode = Text.modeAfter s.machine.mode x := by
  have htells := tells_executeLine x s
  rw [h] at htells
  exact htells.mode

theorem Passes.mode_eq (h : s.Passes lines t) :
    t.machine.mode = (lines.map decode).foldl Text.modeAfter s.machine.mode := by
  induction h with
  | nil s => rfl
  | cons first rest ih => rw [ih, modeAfter_of_passing first, List.map_cons, List.foldl_cons]

theorem OnStack.passes (h : s'.OnStack s) (hpasses : s.Passes lines t) :
    ∃ t', s'.Passes (stacked s.machine.mode lines) t' ∧ t'.OnStack t := by
  induction hpasses generalizing s' with
  | nil s => exact ⟨s', .nil s', h⟩
  | @cons s u t line lines first rest ih =>
    cases h.beside line with
    | passing first' second hu =>
      obtain rfl := congrArg Prod.snd (first.symm.trans first')
      obtain ⟨t', hrest, ht⟩ := ih hu
      rw [modeAfter_of_passing first] at hrest
      exact ⟨t', passes_append_iff.mpr ⟨_, second, hrest⟩, ht⟩
    | failing first' => cases first.symm.trans first'

/-- How lines end, beside the lines that stand for them: they all pass and so do those, or one of them fails,
and the same line among those fails with the same error, met on a line of another number. -/
inductive EndsAlike (s s' : Interpreter) (lines : List Bytes) :
    Option Error × Interpreter → Option Error × Interpreter → Prop
  | passed {t t' : Interpreter} (first : s.Passes lines t)
    (second : s'.Passes (stacked s.machine.mode lines) t') : EndsAlike s s' lines (none, t) (none, t')
  | failed {before after more : List Bytes} {line : Bytes} {t t' u u' : Interpreter} {e : Error}
    (hlines : lines = before ++ line :: after)
    (hstacked : stacked s.machine.mode lines = stacked s.machine.mode before ++ line :: more)
    (first : s.Passes before t) (second : s'.Passes (stacked s.machine.mode before) t')
    (hfirst : t.executeLine (decode line) = (some e, u))
    (hsecond : t'.executeLine (decode line) = (some (e.onLine u'.lines), u')) :
    EndsAlike s s' lines (some e, u) (some (e.onLine u'.lines), u')

theorem OnStack.executeLines (h : s'.OnStack s) (lines : List Bytes) :
    EndsAlike s s' lines (s.executeLines lines)
        (s'.executeLines (stacked s.machine.mode lines)) ∧
      (s'.executeLines (stacked s.machine.mode lines)).2.OnStack (s.executeLines lines).2 := by
  rcases hrun : s.executeLines lines with ⟨_ | e, u⟩
  · have hpasses := executeLines_eq_none_iff.mp hrun
    obtain ⟨u', hpasses', hu⟩ := h.passes hpasses
    rw [executeLines_eq_none_iff.mpr hpasses']
    exact ⟨.passed hpasses hpasses', hu⟩
  · obtain ⟨before, line, after, t, rfl, hpasses, hfails⟩ := executeLines_eq_some_iff.mp hrun
    obtain ⟨t', hpasses', ht⟩ := h.passes hpasses
    have hstacked := Bytes.stacked_append s.machine.mode before (line :: after)
    rw [← hpasses.mode_eq, stacked] at hstacked
    cases ht.beside line with
    | passing first => cases hfails.symm.trans first
    | @failing e' v u' rest first hblock second hu =>
      obtain ⟨herror, rfl⟩ := Prod.mk.inj (first.symm.trans hfails)
      obtain rfl := Option.some.inj herror
      rw [hblock, List.cons_append] at hstacked
      have hcount := lines_executeLine (decode line) t'
      rw [second] at hcount
      rw [← hcount] at second
      rw [executeLines_eq_some_iff.mpr ⟨_, _, _, t', hstacked, hpasses', second⟩]
      exact ⟨.failed rfl hstacked hpasses hpasses' hfails second, hu⟩

/-- The lines that stand for others leave the mode alone, at whichever of them they break off. -/
theorem mode_executeLines_of_subset {mode : Mode} {more : List Bytes} (h : lines ⊆ stacked mode more)
    (s : Interpreter) : (s.executeLines lines).2.machine.mode = s.machine.mode := by
  obtain ⟨told, hprefix, htold⟩ := exists_told lines s
  rw [htold.mode]
  exact Bytes.foldl_modeAfter_of_subset (List.Subset.trans hprefix.subset h) _

/-- Both hold the same values and have printed the same. Lines counted and modes are left aside. -/
structure Shares (s' s : Interpreter) : Prop where
  values : ∃ xs, s.machine.values.chain.toList? = some xs ∧ s'.machine.values.chain.toList? = some xs
  state : s'.state = s.state
  sink : s'.sink = s.sink

theorem OnStack.shares (h : s'.OnStack s) : s'.Shares s where
  values := by
    obtain ⟨xs, hs, hs'⟩ := h.represents
    exact ⟨xs, Chain.Represents.toList?_eq hs.machine.values,
      Chain.Represents.toList?_eq hs'.machine.values⟩
  state := h.state
  sink := h.sink

theorem OnStack.new (limit : Option Sink.Limit) (flushFailure : Option Text) (journal journal' : Journal) :
    OnStack { sink := { limit, flushFailure }, journal := journal' }
      { sink := { limit, flushFailure }, journal } where
  represents := ⟨[], represents_new limit flushFailure journal, represents_new limit flushFailure journal'⟩
  state := rfl
  sink := rfl

/-- What is left of a program without its changes of mode, with a rotation behind each push to a queue, never
leaves a stack and ends as the program ends, whatever the room for what they print. Line by line, however
often the program changes the mode, both hold the same values and have printed the same, and the line that
fails is the same, with the same fault. For a deque this is one law: whatever was called before, a value that
goes in at the back cannot be told later from one that goes in at the front and is rotated to the back. -/
theorem executeLines_stacked (lines : List Bytes) (limit : Option Sink.Limit) (flushFailure : Option Text)
    (journal journal' : Journal) :
    let s : Interpreter := { sink := { limit, flushFailure }, journal }
    let s' : Interpreter := { sink := { limit, flushFailure }, journal := journal' }
    let second := stacked .stack lines
    EndsAlike s s' lines (s.executeLines lines) (s'.executeLines second) ∧
    (∀ k, (s'.after second (stacked .stack (lines.take k)).length).Shares (s.after lines k)) ∧
    (∀ k, (s'.after second k).machine.mode = .stack) ∧
    (∀ k t, s.Passes (lines.take k) t →
      t.machine.mode = ((lines.take k).map decode).foldl Text.modeAfter .stack) ∧
    ∀ (calls later : List Deque.Call) (v : Int32),
      let d := (∅ : Deque).after calls
      (d.pushBack v).2.history later = (d.pushFront v).2.rotateLeft.history later := by
  intro s s' second
  have hnew := OnStack.new limit flushFailure journal journal'
  refine ⟨(hnew.executeLines lines).1, fun k => ?_, fun k => ?_, fun k t h => h.mode_eq,
    fun calls later v => ?_⟩
  · rw [after, after, Bytes.take_stacked]
    exact (hnew.executeLines (lines.take k)).2.shares
  · exact mode_executeLines_of_subset (List.take_subset k second) s'
  · exact (Deque.Represents.empty.after calls).history_pushBack v later

/-- Three changes of mode are left out and three rotations come in. The last line fails, as the seventh. -/
theorem executeLines_stacked_twice :
    let lines := ["queue", "push 1", "push 2", "stack", "push 3", "queue", "add", "push x"].map
      fun x => encode x.toList
    let second := ["push 1", "rotl", "push 2", "rotl", "push 3", "add", "push x", "rotl"].map
      fun x => encode x.toList
    let s : Interpreter := {}
    stacked .stack lines = second ∧ EndsAlike s s lines (s.executeLines lines) (s.executeLines second) ∧
      (s.after second 6).Shares (s.after lines 7) ∧ (∀ k, (s.after second k).machine.mode = .stack) ∧
      (∃ t, s.Passes (lines.take 7) t ∧ t.machine.mode = .queue) ∧
      (s.executeLines lines).1 = some (.atLine 8 .pushUsage) ∧
      (s.executeLines second).1 = some (.atLine 7 .pushUsage) := by
  intro lines second s
  have hsecond : stacked .stack lines = second := by decide
  obtain ⟨hends, hshares, hstack, hmodes, -⟩ := executeLines_stacked lines none none {} {}
  have hpasses : s.Passes (lines.take 7) (s.executeLines (lines.take 7)).2 :=
    passes_of_fst_eq_none (by decide)
  have hlength : (stacked .stack (lines.take 7)).length = 6 := by decide
  have hshares := hshares 7
  rw [hsecond] at hends hshares hstack
  rw [hlength] at hshares
  exact ⟨hsecond, hends, hshares, hstack, ⟨_, hpasses, (hmodes 7 _ hpasses).trans (by decide)⟩,
    by decide, by decide⟩

end Interpreter

end DequeMachine
