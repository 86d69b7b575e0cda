import DequeMachine.Proofs.Plain.Balance

namespace DequeMachine.Plain.Machine

/-- An outcome, beside that from the same values on a stack. -/
inductive SameOnStack : Outcome → Outcome → Prop
  | refused (fault : Fault) : SameOnStack (.error fault) (.error fault)
  | done (printed : Text) (xs : List Int32) (mode : Mode) :
    SameOnStack (.ok (printed, ⟨xs, mode⟩)) (.ok (printed, ⟨xs, .stack⟩))

variable (xs : List Int32) (mode : Mode)

theorem sameOnStack_push (argument : Option Text) :
    SameOnStack (push ⟨xs, .stack⟩ argument) (push ⟨xs, .stack⟩ argument) := by
  unfold push
  cases argument.bind integer? with
  | none => exact .refused _
  | some v => exact .done [] (v :: xs) .stack

theorem sameOnStack_pop : SameOnStack (pop ⟨xs, mode⟩) (pop ⟨xs, .stack⟩) := by
  cases xs with
  | nil => exact .refused _
  | cons x xs => exact .done [] xs mode

theorem sameOnStack_pint : SameOnStack (pint ⟨xs, mode⟩) (pint ⟨xs, .stack⟩) := by
  cases xs with
  | nil => exact .refused _
  | cons x xs => exact .done _ (x :: xs) mode

theorem sameOnStack_pchar : SameOnStack (pchar ⟨xs, mode⟩) (pchar ⟨xs, .stack⟩) := by
  cases xs with
  | nil => exact .refused _
  | cons x xs =>
    simp only [pchar]
    by_cases hx : IsAscii x
    · rw [if_pos hx, if_pos hx]
      exact .done _ (x :: xs) mode
    · rw [if_neg hx, if_neg hx]
      exact .refused _

theorem sameOnStack_swap : SameOnStack (swap ⟨xs, mode⟩) (swap ⟨xs, .stack⟩) := by
  match xs with
  | [] => exact .refused _
  | [x] => exact .refused _
  | x :: y :: xs => exact .done [] (y :: x :: xs) mode

theorem sameOnStack_combine (op : Operator) :
    SameOnStack (combine ⟨xs, mode⟩ op) (combine ⟨xs, .stack⟩ op) := by
  match xs with
  | [] => exact .refused _
  | [x] => exact .refused _
  | front :: second :: xs =>
    simp only [combine]
    by_cases hzero : op.divides ∧ front = 0
    · rw [if_pos hzero, if_pos hzero]
      exact .refused _
    · rw [if_neg hzero, if_neg hzero]
      exact .done [] (op.apply second front :: xs) mode

/-- Steps that neither change the mode nor push to a queue. -/
theorem sameOnStack_step {i : Instruction} (hstack : i.op ≠ .stack) (hqueue : i.op ≠ .queue)
    (hpush : i.op = .push → mode = .stack) :
    SameOnStack (step ⟨xs, mode⟩ i) (step ⟨xs, .stack⟩ i) := by
  unfold step
  cases hop : i.op with
  | push =>
    obtain rfl := hpush hop
    exact sameOnStack_push xs i.argument
  | pop => exact sameOnStack_pop xs mode
  | pint => exact sameOnStack_pint xs mode
  | pchar => exact sameOnStack_pchar xs mode
  | swap => exact sameOnStack_swap xs mode
  | add => exact sameOnStack_combine xs mode .add
  | sub => exact sameOnStack_combine xs mode .sub
  | mul => exact sameOnStack_combine xs mode .mul
  | div => exact sameOnStack_combine xs mode .div
  | mod => exact sameOnStack_combine xs mode .mod
  | rotl => exact .done [] (rotateLeft xs) mode
  | rotr => exact .done [] (rotateRight xs) mode
  | pall | pstr | nop => exact .done _ xs mode
  | stack => exact absurd hop hstack
  | queue => exact absurd hop hqueue

variable {t : Text}

theorem sameOnStack_line (hstack : t.opcode? ≠ some .stack) (hqueue : t.opcode? ≠ some .queue)
    (hpush : t.opcode? = some .push → mode = .stack) :
    SameOnStack (line t ⟨xs, mode⟩) (line t ⟨xs, .stack⟩) := by
  cases line_cases t with
  | refused _ fault hline =>
    rw [hline, hline]
    exact .refused fault
  | skipped _ hline =>
    rw [hline, hline]
    exact .done [] xs mode
  | taken i hop hline =>
    rw [hline, hline]
    rw [hop, Option.some_inj] at hpush
    exact sameOnStack_step xs mode (fun h => hstack (hop.trans (congrArg some h)))
      (fun h => hqueue (hop.trans (congrArg some h))) hpush

/-- A change of mode touches no value. -/
theorem line_switch (ht : t.opcode? = some .stack ∨ t.opcode? = some .queue) :
    ∃ mode', line t ⟨xs, mode⟩ = .ok ([], ⟨xs, mode'⟩) := by
  rcases ht with ht | ht <;> obtain ⟨i, hop, hline⟩ := line_of_opcode? ht
  · exact ⟨.stack, by rw [hline, step, hop]⟩
  · exact ⟨.queue, by rw [hline, step, hop]⟩

/-- A line that pushes is refused in both modes, or leaves its value at the back of a queue and in front of
a stack. -/
theorem line_push (ht : t.opcode? = some .push) :
    (∃ fault, ∀ m, line t m = .error fault) ∨
      ∃ v, line t ⟨xs, .queue⟩ = .ok ([], ⟨xs ++ [v], .queue⟩) ∧
        line t ⟨xs, .stack⟩ = .ok ([], ⟨v :: xs, .stack⟩) := by
  obtain ⟨i, hop, hline⟩ := line_of_opcode? ht
  have hstep : ∀ m, step m i = m.push i.argument := fun m => by rw [step, hop]
  simp only [hline, hstep, push]
  cases i.argument.bind integer? with
  | none => exact .inl ⟨.pushUsage, fun _ => rfl⟩
  | some v => exact .inr ⟨v, rfl, rfl⟩

theorem line_rotl (ht : t.opcode? = some .rotl) :
    line t ⟨xs, mode⟩ = .ok ([], ⟨rotateLeft xs, mode⟩) := by
  obtain ⟨i, hop, hline⟩ := line_of_opcode? ht
  rw [hline, step, hop]
  rfl

end DequeMachine.Plain.Machine
