import DequeMachine.Proofs.Plain.Interpreter

namespace DequeMachine

namespace Opcode

/-- How many values must be there. -/
def needs : Opcode → Nat
  | pop | pint | pchar => 1
  | swap | add | sub | mul | div | mod => 2
  | push | pall | pstr | rotl | rotr | stack | queue | nop => 0

/-- How many values more there are afterwards. -/
def change : Opcode → Int
  | push => 1
  | pop | add | sub | mul | div | mod => -1
  | pall | pint | swap | pchar | pstr | rotl | rotr | stack | queue | nop => 0

/-- The number of opcodes that push, less those that pop and less the binary operators. -/
def balance (ops : List Opcode) : Int :=
  ops.count push - ops.count pop - ops.countP (· ∈ [add, sub, mul, div, mod])

@[simp] theorem balance_nil : balance [] = 0 := rfl

@[simp] theorem balance_append (ops more : List Opcode) :
    balance (ops ++ more) = balance ops + balance more := by
  simp only [balance, List.count_append, List.countP_append]
  omega

theorem balance_singleton (op : Opcode) : balance [op] = op.change := by
  cases op <;> simp [balance, change]

end Opcode

/-- The opcode that the first word of a line names, if it names one. -/
def Text.opcode? (t : Text) : Option Opcode := t.words.head?.bind Opcode.ofWord?

theorem Text.filterMap_opcode?_cons (t : Text) (ts : List Text) :
    (t :: ts).filterMap Text.opcode? = t.opcode?.toList ++ ts.filterMap Text.opcode? := by
  rw [List.filterMap_cons]
  cases t.opcode? <;> rfl

theorem Text.opcode?_of_ofWords {t : Text} {held : Option Instruction}
    (h : Instruction.ofWords t.words = .ok held) : t.opcode? = held.map Instruction.op := by
  rw [opcode?]
  cases hwords : t.words with
  | nil =>
    rw [hwords] at h
    cases h
    rfl
  | cons w ws =>
    rw [hwords, Instruction.ofWords] at h
    rw [List.head?_cons, Option.bind_some]
    cases hop : Opcode.ofWord? w with
    | some op =>
      rw [if_neg (Opcode.head?_ne_mark hop), hop] at h
      cases h
      rfl
    | none =>
      rw [hop] at h
      split at h <;> cases h
      rfl

theorem Text.exists_instruction {t : Text} {op : Opcode} (h : t.opcode? = some op) :
    ∃ i, Instruction.ofWords t.words = .ok (some i) ∧ i.op = op := by
  obtain ⟨w, hw, hop⟩ := Option.bind_eq_some_iff.mp h
  obtain ⟨ws, hws⟩ := List.head?_eq_some_iff.mp hw
  rw [hws, Instruction.ofWords_of_opcode hop]
  exact ⟨_, rfl, rfl⟩

namespace Plain

namespace Machine

/-- A line names no opcode and is refused or skipped, or takes the step of the instruction it holds. -/
inductive LineCases (t : Text) : Prop
  | refused (hop : t.opcode? = none) (fault : Fault) (h : ∀ m, line t m = .error fault)
  | skipped (hop : t.opcode? = none) (h : ∀ m, line t m = m.print [])
  | taken (i : Instruction) (hop : t.opcode? = some i.op) (h : ∀ m, line t m = m.step i)

theorem line_of_opcode? {t : Text} {op : Opcode} (h : t.opcode? = some op) :
    ∃ i : Instruction, i.op = op ∧ ∀ m, line t m = m.step i := by
  obtain ⟨i, hi, hop⟩ := Text.exists_instruction h
  exact ⟨i, hop, fun m => by rw [line, hi]⟩

theorem line_cases (t : Text) : LineCases t := by
  cases hop : t.opcode? with
  | some op =>
    obtain ⟨i, rfl, hi⟩ := line_of_opcode? hop
    exact .taken i hop hi
  | none =>
    cases hline : Instruction.ofWords t.words with
    | error fault => exact .refused hop fault fun m => by rw [line, hline]
    | ok held =>
      cases held with
      | none => exact .skipped hop fun m => by rw [line, hline]
      | some i =>
        rw [Text.opcode?_of_ofWords hline] at hop
        cases hop

/-- A step of the opcode is refused, or finds as many values as it needs and leaves as many as it should. -/
inductive Accounts (op : Opcode) (m : Machine) : Outcome → Prop
  | refused (fault : Fault) : Accounts op m (.error fault)
  | done {printed : Text} {m' : Machine} (needs : op.needs ≤ m.values.length)
    (change : (m'.values.length : Int) = m.values.length + op.change) :
    Accounts op m (.ok (printed, m'))

variable {op : Opcode} {m : Machine}

/-- An opcode that needs nothing and neither adds nor takes a value. -/
theorem Accounts.kept {printed : Text} {m' : Machine} (hneeds : op.needs = 0)
    (hchange : op.change = 0) (h : m'.values.length = m.values.length) :
    Accounts op m (.ok (printed, m')) :=
  .done (hneeds ▸ Nat.zero_le _) (by rw [h, hchange, Int.add_zero])

theorem accounts_push (argument : Option Text) (m : Machine) :
    Accounts .push m (m.push argument) := by
  unfold push
  split
  · exact .refused _
  · exact .done (by simp [Opcode.needs]) (by simp [Opcode.change])
  · exact .done (by simp [Opcode.needs]) (by simp [Opcode.change])

theorem accounts_pop (m : Machine) : Accounts .pop m m.pop := by
  unfold pop
  split
  · exact .refused _
  · rename_i hvalues
    exact .done (by simp [Opcode.needs, hvalues]) (by simp [Opcode.change, hvalues])

theorem accounts_pint (m : Machine) : Accounts .pint m m.pint := by
  unfold pint
  split
  · exact .refused _
  · rename_i hvalues
    exact .done (by simp [Opcode.needs, hvalues]) (by simp [Opcode.change])

theorem accounts_pchar (m : Machine) : Accounts .pchar m m.pchar := by
  unfold pchar
  split
  · exact .refused _
  · rename_i hvalues
    split
    · exact .done (by simp [Opcode.needs, hvalues]) (by simp [Opcode.change])
    · exact .refused _

theorem accounts_swap (m : Machine) : Accounts .swap m m.swap := by
  unfold swap
  split
  · rename_i hvalues
    exact .done (by simp [Opcode.needs, hvalues]) (by simp [Opcode.change, hvalues])
  · exact .refused _

theorem accounts_combine (op : Operator) (m : Machine) :
    Accounts op.opcode m (m.combine op) := by
  have hneeds : op.opcode.needs = 2 := by cases op <;> rfl
  have hchange : op.opcode.change = -1 := by cases op <;> rfl
  unfold combine
  split
  · rename_i hvalues
    split
    · exact .refused _
    · exact .done (by simp [hneeds, hvalues]) (by simp [hchange, hvalues])
  · exact .refused _

theorem accounts_step (i : Instruction) (m : Machine) : Accounts i.op m (m.step i) := by
  unfold step
  cases i.op with
  | push => exact accounts_push i.argument m
  | pop => exact accounts_pop m
  | pint => exact accounts_pint m
  | pchar => exact accounts_pchar m
  | swap => exact accounts_swap m
  | add => exact accounts_combine .add m
  | sub => exact accounts_combine .sub m
  | mul => exact accounts_combine .mul m
  | div => exact accounts_combine .div m
  | mod => exact accounts_combine .mod m
  | rotl => exact .kept rfl rfl (length_rotateLeft m.values)
  | rotr => exact .kept rfl rfl (length_rotateRight m.values)
  | pall | pstr | stack | queue | nop => exact .kept rfl rfl rfl

/-- A line that is skipped leaves what it finds. -/
theorem accounts_line {t : Text} {printed : Text} {m' : Machine} (h : m.line t = .ok (printed, m')) :
    (∀ op ∈ t.opcode?, op.needs ≤ m.values.length) ∧
      (m'.values.length : Int) = m.values.length + Opcode.balance t.opcode?.toList := by
  cases line_cases t with
  | refused _ fault hline =>
    rw [hline] at h
    cases h
  | skipped hnone hline =>
    rw [hline] at h
    cases h
    simp [hnone]
  | taken i hsome hline =>
    have hstep := accounts_step i m
    rw [← hline, h] at hstep
    cases hstep with
    | done hneeds hchange =>
      simp only [hsome, Option.mem_some_iff, forall_eq', Option.toList_some, Opcode.balance_singleton]
      exact ⟨hneeds, hchange⟩

end Machine

end Plain

end DequeMachine
