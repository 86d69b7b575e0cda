import DequeMachine.Proofs.Plain.Balance

namespace DequeMachine

/-- The opcodes that see no value behind the second, and neither change the mode nor reach the back. -/
def Opcode.shallow : List Opcode := [push, pop, pint, swap, add, sub, mul, div, mod, pchar, nop]

/-- Whether more values would have helped. -/
def Fault.isShortage : Fault → Bool
  | popEmpty | pintEmpty | tooShort _ | pcharEmpty => true
  | unknownInstruction _ | pushUsage | divisionByZero | pcharOutOfRange => false

namespace Plain

namespace Machine

/-- An outcome, beside that with more values `ys` behind the others. -/
inductive Frames (ys : List Int32) : Outcome → Outcome → Prop
  | done (printed : Text) (xs : List Int32) :
    Frames ys (.ok (printed, ⟨xs, .stack⟩)) (.ok (printed, ⟨xs ++ ys, .stack⟩))
  | refused (fault : Fault) : Frames ys (.error fault) (.error fault)
  | short {fault : Fault} (h : fault.isShortage) (outcome : Outcome) : Frames ys (.error fault) outcome

variable (xs ys : List Int32)

theorem frames_push (argument : Option Text) :
    Frames ys (push ⟨xs, .stack⟩ argument) (push ⟨xs ++ ys, .stack⟩ argument) := by
  unfold push
  cases argument.bind integer? with
  | none => exact .refused _
  | some v => exact .done [] (v :: xs)

theorem frames_pop : Frames ys (pop ⟨xs, .stack⟩) (pop ⟨xs ++ ys, .stack⟩) := by
  cases xs with
  | nil => exact .short rfl _
  | cons x xs => exact .done [] xs

theorem frames_pint : Frames ys (pint ⟨xs, .stack⟩) (pint ⟨xs ++ ys, .stack⟩) := by
  cases xs with
  | nil => exact .short rfl _
  | cons x xs => exact .done _ (x :: xs)

theorem frames_pchar : Frames ys (pchar ⟨xs, .stack⟩) (pchar ⟨xs ++ ys, .stack⟩) := by
  cases xs with
  | nil => exact .short rfl _
  | cons x xs =>
    simp only [pchar, List.cons_append]
    by_cases hx : IsAscii x
    · rw [if_pos hx, if_pos hx]
      exact .done _ (x :: xs)
    · rw [if_neg hx, if_neg hx]
      exact .refused _

theorem frames_swap : Frames ys (swap ⟨xs, .stack⟩) (swap ⟨xs ++ ys, .stack⟩) := by
  match xs with
  | [] => exact .short rfl _
  | [x] => exact .short rfl _
  | x :: y :: xs => exact .done [] (y :: x :: xs)

theorem frames_combine (op : Operator) :
    Frames ys (combine ⟨xs, .stack⟩ op) (combine ⟨xs ++ ys, .stack⟩ op) := by
  match xs with
  | [] => exact .short rfl _
  | [x] => exact .short rfl _
  | front :: second :: xs =>
    simp only [combine, List.cons_append]
    by_cases hzero : op.divides ∧ front = 0
    · rw [if_pos hzero, if_pos hzero]
      exact .refused _
    · rw [if_neg hzero, if_neg hzero]
      exact .done [] (op.apply second front :: xs)

theorem frames_step {i : Instruction} (hop : i.op ∈ Opcode.shallow) :
    Frames ys (step ⟨xs, .stack⟩ i) (step ⟨xs ++ ys, .stack⟩ i) := by
  unfold step
  cases hi : i.op with
  | push => exact frames_push xs ys i.argument
  | pop => exact frames_pop xs ys
  | pint => exact frames_pint xs ys
  | swap => exact frames_swap xs ys
  | add => exact frames_combine xs ys .add
  | sub => exact frames_combine xs ys .sub
  | mul => exact frames_combine xs ys .mul
  | div => exact frames_combine xs ys .div
  | mod => exact frames_combine xs ys .mod
  | pchar => exact frames_pchar xs ys
  | nop => exact .done [] xs
  | pall | pstr | rotl | rotr | stack | queue => simp [hi, Opcode.shallow] at hop

theorem frames_line {t : Text} (hop : ∀ op ∈ t.opcode?, op ∈ Opcode.shallow) :
    Frames ys (line t ⟨xs, .stack⟩) (line t ⟨xs ++ ys, .stack⟩) := by
  cases line_cases t with
  | refused _ fault hline =>
    rw [hline, hline]
    exact .refused fault
  | skipped _ hline =>
    rw [hline, hline]
    exact .done [] xs
  | taken i hsome hline =>
    rw [hline, hline]
    exact frames_step xs ys (hop i.op hsome)

end Machine

namespace Interpreter

/-- The same printed from a stack, with more values `ys` behind those of the other one. -/
structure Above (p' p : Interpreter) (ys : List Int32) : Prop where
  machine : p'.machine = ⟨p.machine.values ++ ys, .stack⟩
  mode : p.machine.mode = .stack
  output : p'.output = p.output

/-- The answer to lines executed from `p`, beside that to the same lines executed from `p'`. -/
inductive Frames (p' p : Interpreter) (ys : List Int32) :
    Option Error × Interpreter → Option Error × Interpreter → Prop
  | done {q' q : Interpreter} (h : q'.Above q ys) : Frames p' p ys (none, q) (none, q')
  | refused {q' q : Interpreter} (k : Nat) (fault : Fault) (h : q'.Above q ys) :
    Frames p' p ys (some (.atLine (p.lines + k) fault), q) (some (.atLine (p'.lines + k) fault), q')
  | short {fault : Fault} (h : fault.isShortage) (n : Nat) (q : Interpreter)
    (answer : Option Error × Interpreter) : Frames p' p ys (some (.atLine n fault), q) answer

variable {p' p : Interpreter} {ys : List Int32}

theorem Above.executeLine (h : p'.Above p ys) {t : Text}
    (hop : ∀ op ∈ t.opcode?, op ∈ Opcode.shallow) :
    Frames p' p ys (p.executeLine t) (p'.executeLine t) := by
  obtain ⟨⟨xs, mode⟩, n, state, out⟩ := p
  obtain ⟨machine, n', state', out'⟩ := p'
  obtain rfl : mode = .stack := h.mode
  obtain rfl : machine = ⟨xs ++ ys, .stack⟩ := h.machine
  obtain rfl : out' = out := h.output
  have hframes := Machine.frames_line xs ys hop
  simp only [Interpreter.executeLine]
  generalize Machine.line t ⟨xs, .stack⟩ = outcome at hframes
  generalize Machine.line t ⟨xs ++ ys, .stack⟩ = outcome' at hframes
  cases hframes with
  | done printed xs' => exact .done ⟨rfl, rfl, rfl⟩
  | refused fault => exact .refused 1 fault ⟨rfl, rfl, rfl⟩
  | short hfault => exact .short hfault (n + 1) _ _

theorem Frames.of_refused {q : Interpreter} {answer : Option Error × Interpreter} {k : Nat} {fault : Fault}
    (h : Frames p' p ys (some (.atLine (p.lines + k) fault), q) answer) (hfault : ¬fault.isShortage) :
    ∃ q', answer = (some (.atLine (p'.lines + k) fault), q') ∧ q'.Above q ys := by
  generalize hn : p.lines + k = n at h
  cases h with
  | @refused q' _ j _ habove =>
    obtain rfl : k = j := Nat.add_left_cancel hn
    exact ⟨q', rfl, habove⟩
  | short hshort => exact absurd hshort hfault

/-- Lines from where a line led, seen from before that line. -/
theorem Frames.after {q' q : Interpreter} {answer answer' : Option Error × Interpreter}
    (hq : q.lines = p.lines + 1) (hq' : q'.lines = p'.lines + 1) (h : Frames q' q ys answer answer') :
    Frames p' p ys answer answer' := by
  cases h with
  | done h => exact .done h
  | refused k fault h =>
    rw [hq, hq', Nat.add_assoc, Nat.add_assoc]
    exact .refused (1 + k) fault h
  | short hfault n r => exact .short hfault n r _

/-- Lines of shallow opcodes do in front of more values what they do without them, until one of them finds
too few values without them. -/
theorem Above.executeLines (h : p'.Above p ys) {ts : List Text}
    (hops : ∀ op ∈ ts.filterMap Text.opcode?, op ∈ Opcode.shallow) :
    Frames p' p ys (p.executeLines ts) (p'.executeLines ts) := by
  induction ts generalizing p p' with
  | nil => exact .done h
  | cons t ts ih =>
    rw [Text.filterMap_opcode?_cons, List.forall_mem_append] at hops
    obtain ⟨hop, hops⟩ := hops
    have hline := h.executeLine (by simpa using hop)
    have hcount := lines_executeLine t p
    have hcount' := lines_executeLine t p'
    rw [Interpreter.executeLines, Interpreter.executeLines]
    generalize p.executeLine t = answer at hline hcount
    generalize p'.executeLine t = answer' at hline hcount'
    cases hline with
    | done habove => exact (ih habove hops).after hcount hcount'
    | refused k fault habove => exact .refused k fault habove
    | short hfault n q => exact .short hfault n q _

end Interpreter

end Plain

end DequeMachine
