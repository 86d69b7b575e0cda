import DequeMachine.Proofs.Deque.Calls
import DequeMachine.Proofs.Plain.Machine

/-!
# Steps of a machine

A machine represents a plain one when its deque represents the values and the modes are the same.
Every step of the machine then agrees with the plain step: it meets the same fault and changes
nothing that can be seen, or prints the bytes of the same text and represents the machine left.

A step that is refused changes nothing at all, for want of room or otherwise, and only steps that
change nothing print anything.
-/
namespace DequeMachine

/-- The faults that an opcode can meet. -/
def Opcode.faults : Opcode → List Fault
  | push => [.pushUsage]
  | pop => [.popEmpty]
  | pint => [.pintEmpty]
  | swap => [.tooShort swap.word]
  | add => [.tooShort add.word]
  | sub => [.tooShort sub.word]
  | mul => [.tooShort mul.word]
  | div => [.tooShort div.word, .divisionByZero]
  | mod => [.tooShort mod.word, .divisionByZero]
  | pchar => [.pcharEmpty, .pcharOutOfRange]
  | pall | pstr | rotl | rotr | stack | queue | nop => []

namespace Machine

structure Represents (m : Machine) (p : Plain.Machine) : Prop where
  values : m.values.Represents p.values
  mode : m.mode = p.mode

/-- The answer to a step of a machine that represents `p`, beside the plain outcome. -/
inductive Agrees (p : Plain.Machine) : Except Refusal Bytes × Machine → Plain.Outcome → Prop
  | refused {m : Machine} (fault : Fault) (h : m.Represents p) :
    Agrees p (.error (.fault fault), m) (.error fault)
  | done {m : Machine} {p' : Plain.Machine} (printed : Text) (h : m.Represents p') :
    Agrees p (.ok (Utf8.encode printed), m) (.ok (printed, p'))

theorem Agrees.leave {d : Deque} {xs : List Int32} {mode : Mode} {p : Plain.Machine}
    (h : d.Represents xs) (hmode : mode = p.mode) :
    Agrees p (.ok [], ⟨d, mode⟩) (p.leave xs) :=
  .done [] ⟨h, hmode⟩

namespace Represents

variable {m : Machine} {p : Plain.Machine}

theorem print (h : m.Represents p) {b : Bytes} (text : Text) (hb : Utf8.encode text = b) :
    Agrees p (.ok b, m) (p.print text) := by
  subst hb
  exact .done text h

theorem toList_eq (h : m.Represents p) : m.values.toList = p.values := h.values.toList_eq

theorem pall (h : m.Represents p) :
    Agrees p (.ok m.pall, m) (p.print (Plain.writtenLines p.values)) := by
  apply h.print
  rw [Plain.encode_writtenLines, Machine.pall, h.toList_eq]

theorem pint (h : m.Represents p) : Agrees p (m.pint, m) p.pint := by
  rw [Machine.pint, h.values.front?_eq, Plain.Machine.pint]
  cases p.values with
  | nil => exact .refused _ h
  | cons v xs =>
    apply h.print
    rw [Plain.encode_writtenLines, List.flatMap_singleton]

theorem pchar (h : m.Represents p) : Agrees p (m.pchar, m) p.pchar := by
  rw [Machine.pchar, h.values.front?_eq, Plain.Machine.pchar]
  cases p.values with
  | nil => exact .refused _ h
  | cons v xs =>
    simp only [List.head?_cons, Plain.isAscii_eq, decide_eq_true_iff]
    by_cases hv : Plain.IsAscii v
    · rw [if_pos hv, if_pos hv]
      apply h.print
      have hsplit : [Plain.character v, '\n'] = [Plain.character v] ++ ['\n'] := rfl
      rw [hsplit, Utf8.encode_append, Plain.encode_character hv, Plain.encode_newline]
      rfl
    · rw [if_neg hv, if_neg hv]
      exact .refused _ h

theorem pstr (h : m.Represents p) :
    Agrees p (.ok m.pstr, m) (p.print (Plain.spelled p.values ++ ['\n'])) := by
  apply h.print
  rw [Utf8.encode_append, Plain.encode_spelled, Plain.encode_newline, Machine.pstr, h.toList_eq]
  rfl

theorem push (h : m.Represents p) (argument : Option Text) :
    Agrees p (m.push argument) (p.push argument) := by
  obtain ⟨d, mode⟩ := m
  obtain ⟨xs, pmode⟩ := p
  obtain rfl : mode = pmode := h.mode
  have hread : Plain.integer? = Decimal.read? := funext Plain.integer?_eq
  unfold Machine.push Plain.Machine.push
  rw [hread]
  cases argument.bind Decimal.read? with
  | none => exact .refused _ h
  | some v =>
    cases mode with
    | stack =>
      obtain ⟨hstored, hrep⟩ := h.values.pushFront v
      simp only [insert_stack, hstored]
      exact .leave hrep rfl
    | queue =>
      obtain ⟨hstored, hrep⟩ := h.values.pushBack v
      simp only [insert_queue, hstored]
      exact .leave hrep rfl

theorem pop (h : m.Represents p) : Agrees p m.pop p.pop := by
  obtain ⟨d, mode⟩ := m
  obtain ⟨hanswer, hrest⟩ := h.values.popFront
  rw [Machine.pop, Plain.Machine.pop]
  generalize d.popFront = answer at hanswer hrest
  obtain ⟨popped, d'⟩ := answer
  obtain rfl : popped = p.values.head? := hanswer
  cases hvalues : p.values with
  | nil =>
    rw [hvalues] at hrest
    exact .refused _ ⟨hvalues ▸ hrest, h.mode⟩
  | cons v xs =>
    rw [hvalues] at hrest
    exact .leave hrest h.mode

theorem swap (h : m.Represents p) : Agrees p m.swap p.swap := by
  obtain ⟨d, mode⟩ := m
  obtain ⟨hanswer, hrest⟩ := h.values.swapFront
  rw [Machine.swap, Plain.Machine.swap]
  generalize d.swapFront = answer at hanswer hrest
  obtain ⟨swapped, d'⟩ := answer
  obtain rfl : swapped = (Plain.swapFront p.values).1 := hanswer
  match hvalues : p.values with
  | [] =>
    rw [hvalues] at hrest
    exact .refused _ ⟨hvalues ▸ hrest, h.mode⟩
  | [a] =>
    rw [hvalues] at hrest
    exact .refused _ ⟨hvalues ▸ hrest, h.mode⟩
  | a :: b :: xs =>
    rw [hvalues] at hrest
    exact .leave hrest h.mode

theorem combine (h : m.Represents p) (op : Plain.Operator) :
    Agrees p (m.combine op.opcode op.operation) (p.combine op) := by
  obtain ⟨d, mode⟩ := m
  have hpair := h.values.frontPair?_eq
  rw [Machine.combine, hpair, Plain.Machine.combine]
  match hvalues : p.values with
  | [] => exact .refused _ h
  | [a] => exact .refused _ h
  | front :: second :: xs =>
    have hrep : d.Represents (front :: second :: xs) := hvalues ▸ h.values
    simp only [Plain.frontPair?, Plain.Operator.operation_eq]
    by_cases hzero : op.divides ∧ front = 0
    · rw [if_pos hzero, if_pos hzero]
      exact .refused _ h
    · rw [if_neg hzero, if_neg hzero]
      exact .leave (hrep.collapse _) h.mode

theorem step (h : m.Represents p) (i : Instruction) : Agrees p (m.step i) (p.step i) := by
  rw [Machine.step, Plain.Machine.step]
  cases i.op with
  | push => exact h.push i.argument
  | pop => exact h.pop
  | pall => exact h.pall
  | pint => exact h.pint
  | swap => exact h.swap
  | add => exact h.combine .add
  | sub => exact h.combine .sub
  | mul => exact h.combine .mul
  | div => exact h.combine .div
  | mod => exact h.combine .mod
  | pchar => exact h.pchar
  | pstr => exact h.pstr
  | rotl => exact .leave h.values.rotateLeft h.mode
  | rotr => exact .leave h.values.rotateRight h.mode
  | stack => exact .done [] ⟨h.values, rfl⟩
  | queue => exact .done [] ⟨h.values, rfl⟩
  | nop => exact .leave h.values h.mode

end Represents

variable {m m' : Machine} {p : Plain.Machine} {i : Instruction} {refusal : Refusal}

/-- There is no room for a value only if the deque is full. -/
theorem insert_of_refused {v : Int32} (h : m.insert v = (false, m')) :
    m.values.chain.isFull = true ∧ m' = m := by
  obtain ⟨d, mode⟩ := m
  cases mode with
  | stack =>
    rw [insert_stack] at h
    obtain ⟨hstored, rfl⟩ := Prod.mk.inj h
    obtain ⟨hfull, hd⟩ := d.pushFront_of_refused (Prod.ext hstored rfl)
    exact ⟨hfull, congrArg (Machine.mk · .stack) hd⟩
  | queue =>
    rw [insert_queue] at h
    obtain ⟨hstored, rfl⟩ := Prod.mk.inj h
    obtain ⟨hfull, hd⟩ := d.pushBack_of_refused (Prod.ext hstored rfl)
    exact ⟨hfull, congrArg (Machine.mk · .queue) hd⟩

/-- Only `push` reads its argument, and only the value that it denotes matters. -/
theorem step_congr {i j : Instruction} (hop : i.op = j.op)
    (hargument : i.op = .push → i.argument.bind Decimal.read? = j.argument.bind Decimal.read?)
    (m : Machine) : m.step i = m.step j := by
  unfold step
  cases hi : i.op
  case push =>
    rw [← hop, hi]
    unfold push
    rw [hargument hi]
  all_goals rw [← hop, hi]

/-- What a step of an instruction can come to: one of the faults of its opcode or no room for the value to push,
and then nothing has changed, nothing printed, or nothing changed. -/
inductive Answers (m : Machine) (i : Instruction) : Except Refusal Bytes × Machine → Prop
  | refused {fault : Fault} (h : fault ∈ i.op.faults) : Answers m i (.error (.fault fault), m)
  | full (push : i.op = .push) (integer : (i.argument.bind Decimal.read?).isSome)
    (full : m.values.chain.isFull = true) : Answers m i (.error .allocation, m)
  | silent (m' : Machine) : Answers m i (.ok [], m')
  | printed (b : Bytes) : Answers m i (.ok b, m)

section answers

variable (m : Machine)

theorem answers_push (hop : i.op = .push) : m.Answers i (m.push i.argument) := by
  unfold push
  split
  · exact .refused (by simp [hop, Opcode.faults])
  · rename_i v hread
    split
    · rename_i hinsert
      obtain ⟨hfull, rfl⟩ := insert_of_refused hinsert
      exact .full hop (by rw [hread, Option.isSome_some]) hfull
    · exact .silent _

theorem answers_pop (hop : i.op = .pop) : m.Answers i m.pop := by
  obtain ⟨values, mode⟩ := m
  rw [pop]
  split
  · rename_i hpop
    obtain rfl := Deque.popFront_of_refused hpop
    exact .refused (by simp [hop, Opcode.faults])
  · exact .silent _

theorem answers_pint (hop : i.op = .pint) : m.Answers i (m.pint, m) := by
  unfold pint
  split
  · exact .refused (by simp [hop, Opcode.faults])
  · exact .printed _

theorem answers_swap (hop : i.op = .swap) : m.Answers i m.swap := by
  obtain ⟨values, mode⟩ := m
  rw [swap]
  split
  · rename_i hswap
    obtain rfl := Deque.swapFront_of_refused hswap
    exact .refused (by simp [hop, Opcode.faults])
  · exact .silent _

theorem answers_combine (op : Plain.Operator) (hop : i.op = op.opcode) :
    m.Answers i (m.combine op.opcode op.operation) := by
  obtain ⟨values, mode⟩ := m
  rw [combine]
  cases values.frontPair? with
  | none =>
    have hshort : .tooShort op.opcode.word ∈ op.opcode.faults := by
      cases op <;> simp [Plain.Operator.opcode, Opcode.faults]
    exact .refused (hop ▸ hshort)
  | some pair =>
    obtain ⟨front, second⟩ := pair
    dsimp only
    rw [Plain.Operator.operation_eq]
    by_cases hzero : op.divides ∧ front = 0
    · have hdivision : .divisionByZero ∈ op.opcode.faults := by
        cases op <;> simp_all [Plain.Operator.opcode, Plain.Operator.divides, Opcode.faults]
      rw [if_pos hzero]
      exact .refused (hop ▸ hdivision)
    · rw [if_neg hzero]
      exact .silent _

theorem answers_pchar (hop : i.op = .pchar) : m.Answers i (m.pchar, m) := by
  unfold pchar
  split
  · exact .refused (by simp [hop, Opcode.faults])
  · split
    · exact .printed _
    · exact .refused (by simp [hop, Opcode.faults])

theorem answers_step (i : Instruction) : m.Answers i (m.step i) := by
  unfold step
  cases hop : i.op with
  | push => exact m.answers_push hop
  | pop => exact m.answers_pop hop
  | pint => exact m.answers_pint hop
  | swap => exact m.answers_swap hop
  | add => exact m.answers_combine .add hop
  | sub => exact m.answers_combine .sub hop
  | mul => exact m.answers_combine .mul hop
  | div => exact m.answers_combine .div hop
  | mod => exact m.answers_combine .mod hop
  | pchar => exact m.answers_pchar hop
  | pall | pstr | nop => exact .printed _
  | rotl | rotr | stack | queue => exact .silent _

end answers

/-- A step that is refused changes nothing. -/
theorem step_of_error (h : m.step i = (.error refusal, m')) : m' = m := by
  have hanswers := m.answers_step i
  rw [h] at hanswers
  cases hanswers with
  | refused | full => rfl

theorem fault_mem_of_step {fault : Fault} (h : m.step i = (.error (.fault fault), m')) :
    fault ∈ i.op.faults := by
  have hanswers := m.answers_step i
  rw [h] at hanswers
  cases hanswers
  assumption

/-- Only a value to push meets a full deque. -/
theorem full_of_step (h : m.step i = (.error .allocation, m')) :
    i.op = .push ∧ (i.argument.bind Decimal.read?).isSome ∧ m.values.chain.isFull = true := by
  have hanswers := m.answers_step i
  rw [h] at hanswers
  cases hanswers with
  | full push integer full => exact ⟨push, integer, full⟩

/-- A step that prints something changes nothing. -/
theorem step_of_printed {b : Bytes} (h : m.step i = (.ok b, m')) (hb : b ≠ []) : m' = m := by
  have hanswers := m.answers_step i
  rw [h] at hanswers
  cases hanswers with
  | silent => exact absurd rfl hb
  | printed => rfl

end Machine

end DequeMachine
