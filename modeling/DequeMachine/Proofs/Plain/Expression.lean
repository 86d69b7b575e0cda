import DequeMachine.Proofs.Plain.Interpreter

/-!
# Arithmetic expressions

An expression is written as lines in postfix order, one for each of its nodes. On a stack the lines
put its value in front and leave what lies below as it is. If operators divide by zero, the line of
the first of them is refused.
-/
namespace DequeMachine.Plain

/-- An operator as a line spells it. Division has a second spelling. -/
structure Symbol where
  op : Operator
  word : Text
  spells : word = op.opcode.word ∨ word = Opcode.divAlias ∧ op = .div
  deriving DecidableEq, Repr

inductive Expression
  | literal (v : Int32)
  | node (symbol : Symbol) (left right : Expression)
  deriving DecidableEq, Repr

namespace Expression

/-- The value at 32 bits, of no concern where an operator divides by zero. -/
def value : Expression → Int32
  | literal v => v
  | node symbol left right => symbol.op.apply left.value right.value

/-- The line of the outermost node. -/
def line : Expression → Text
  | literal v => "push ".toList ++ Decimal.write v
  | node symbol _ _ => symbol.word

def lines : Expression → List Text
  | literal v => [line (literal v)]
  | node symbol left right => left.lines ++ right.lines ++ [line (node symbol left right)]

/-- The subexpressions in the order of their lines. -/
def postorder : Expression → List Expression
  | literal v => [literal v]
  | node symbol left right => left.postorder ++ right.postorder ++ [node symbol left right]

/-- Whether the outermost operator has a divisor of zero. -/
def dividesByZero : Expression → Bool
  | literal _ => false
  | node symbol _ right => symbol.op.divides && right.value == 0

/-- The number of lines before that of the first operator with a divisor of zero. -/
def faulty? (e : Expression) : Option Nat := e.postorder.findIdx? dividesByZero

theorem map_line_postorder (e : Expression) : e.postorder.map line = e.lines := by
  induction e with
  | literal v => rfl
  | node symbol left right ihl ihr =>
    simp only [postorder, lines, List.map_append, List.map_cons, List.map_nil, ihl, ihr]

theorem length_postorder (e : Expression) : e.postorder.length = e.lines.length := by
  rw [← map_line_postorder, List.length_map]

theorem faulty?_literal (v : Int32) : (literal v).faulty? = none := by
  simp [faulty?, postorder, dividesByZero]

theorem faulty?_node (symbol : Symbol) (left right : Expression) :
    (node symbol left right).faulty? =
      (left.faulty?.or (right.faulty?.map (· + left.lines.length))).or
        (if symbol.op.divides ∧ right.value = 0 then some (left.lines.length + right.lines.length)
          else none) := by
  have hroot : [node symbol left right].findIdx? dividesByZero =
      if symbol.op.divides ∧ right.value = 0 then some 0 else none := by
    simp [dividesByZero]
  rw [faulty?, postorder, List.findIdx?_append, List.findIdx?_append, hroot, List.length_append,
    length_postorder, length_postorder]
  congr 1
  split
  · rw [Option.map_some, Nat.zero_add]
  · rfl

theorem ofWord?_symbol (symbol : Symbol) : Opcode.ofWord? symbol.word = some symbol.op.opcode := by
  apply Opcode.ofWord?_eq_some_iff.mpr
  rcases symbol.spells with hword | ⟨hword, hop⟩
  · exact .inl hword
  · exact .inr ⟨hword, by rw [hop]; rfl⟩

theorem words_literal (v : Int32) :
    (line (literal v)).words = [Opcode.push.word, Decimal.write v] := by
  have hsplit : line (literal v) = Opcode.push.word ++ ' ' :: Decimal.write v := rfl
  have hpush := Opcode.ofWord?_word .push
  rw [hsplit, Text.words_append_blank rfl,
    Text.words_singleton (Opcode.ne_nil hpush) (Opcode.isBlank_of_mem hpush),
    Text.words_singleton (Decimal.write_ne_nil v) fun _ => Decimal.isBlank_of_mem_write]
  rfl

theorem step_operator (m : Machine) (op : Operator) {i : Instruction} (h : i.op = op.opcode) :
    m.step i = m.combine op := by
  rw [Machine.step, h]
  cases op <;> rfl

theorem machine_line_literal (v : Int32) (m : Machine) :
    Machine.line (line (literal v)) m = m.push (some (Decimal.write v)) := by
  rw [Machine.line, words_literal, Instruction.ofWords_of_opcode (Opcode.ofWord?_word .push)]
  rfl

theorem machine_literal (v : Int32) (xs : List Int32) :
    Machine.line (line (literal v)) ⟨xs, .stack⟩ = .ok ([], ⟨v :: xs, .stack⟩) := by
  rw [machine_line_literal, Machine.push, Option.bind_some, integer?_eq, Decimal.read?_write]
  rfl

/-- The line of an operator, with the right operand in front. -/
theorem machine_node (symbol : Symbol) (left right : Expression) (a b : Int32) (xs : List Int32) :
    Machine.line (line (node symbol left right)) ⟨b :: a :: xs, .stack⟩ =
      if symbol.op.divides ∧ b = 0 then .error .divisionByZero
      else .ok ([], ⟨symbol.op.apply a b :: xs, .stack⟩) := by
  have hop := ofWord?_symbol symbol
  have hwords : (line (node symbol left right)).words = [symbol.word] :=
    Text.words_singleton (Opcode.ne_nil hop) (Opcode.isBlank_of_mem hop)
  rw [Machine.line, hwords, Instruction.ofWords_of_opcode hop]
  exact step_operator _ symbol.op rfl

variable {n : Nat} {state : Lifecycle} {out : Text}

theorem executeLine_literal (v : Int32) (xs : List Int32) :
    (⟨⟨xs, .stack⟩, n, state, out⟩ : Interpreter).executeLine (line (literal v)) =
      (none, ⟨⟨v :: xs, .stack⟩, n + 1, state, out⟩) := by
  simp only [Interpreter.executeLine, machine_literal, List.append_nil]

theorem executeLine_node {symbol : Symbol} {left right : Expression} {a b : Int32}
    (h : ¬(symbol.op.divides ∧ b = 0)) (xs : List Int32) :
    (⟨⟨b :: a :: xs, .stack⟩, n, state, out⟩ : Interpreter).executeLine
        (line (node symbol left right)) =
      (none, ⟨⟨symbol.op.apply a b :: xs, .stack⟩, n + 1, state, out⟩) := by
  simp only [Interpreter.executeLine, machine_node, if_neg h, List.append_nil]

theorem executeLine_node_of_zero {symbol : Symbol} {left right : Expression} {a b : Int32}
    (h : symbol.op.divides ∧ b = 0) (xs : List Int32) :
    (⟨⟨b :: a :: xs, .stack⟩, n, state, out⟩ : Interpreter).executeLine
        (line (node symbol left right)) =
      (some (.atLine (n + 1) .divisionByZero), ⟨⟨b :: a :: xs, .stack⟩, n + 1, state, out⟩) := by
  simp only [Interpreter.executeLine, machine_node, if_pos h]

/-- Lines of which no operator divides by zero leave the value in front of what was there. -/
theorem executeLines_of_sound {e : Expression} (h : e.faulty? = none) (xs : List Int32) :
    (⟨⟨xs, .stack⟩, n, state, out⟩ : Interpreter).executeLines e.lines =
      (none, ⟨⟨e.value :: xs, .stack⟩, n + e.lines.length, state, out⟩) := by
  induction e generalizing xs n with
  | literal v =>
    simp only [lines, Interpreter.executeLines, executeLine_literal]
    rfl
  | node symbol left right ihl ihr =>
    rw [faulty?_node, Option.or_eq_none_iff, Option.or_eq_none_iff, Option.map_eq_none_iff] at h
    obtain ⟨⟨hleft, hright⟩, hroot⟩ := h
    have hnonzero : ¬(symbol.op.divides ∧ right.value = 0) := by
      intro hzero
      rw [if_pos hzero] at hroot
      cases hroot
    have hlength : (node symbol left right).lines.length =
        left.lines.length + right.lines.length + 1 := by
      simp only [lines, List.length_append, List.length_singleton]
    rw [hlength, lines, Interpreter.executeLines_append, Interpreter.executeLines_append,
      ihl hleft]
    dsimp only
    rw [ihr hright]
    simp only [Interpreter.executeLines, executeLine_node hnonzero, value, Nat.add_assoc]

/-- The first line whose operator divides by zero is the one that is refused. -/
theorem executeLines_of_faulty {e : Expression} {i : Nat} (h : e.faulty? = some i)
    (xs : List Int32) (n : Nat) (state : Lifecycle) (out : Text) :
    ∃ ys, (⟨⟨xs, .stack⟩, n, state, out⟩ : Interpreter).executeLines e.lines =
      (some (.atLine (n + i + 1) .divisionByZero), ⟨⟨ys, .stack⟩, n + i + 1, state, out⟩) := by
  induction e generalizing xs n i with
  | literal v =>
    rw [faulty?_literal] at h
    cases h
  | node symbol left right ihl ihr =>
    rw [faulty?_node] at h
    rw [lines, Interpreter.executeLines_append, Interpreter.executeLines_append]
    cases hleft : left.faulty? with
    | some j =>
      rw [hleft, Option.some_or, Option.some_or] at h
      obtain rfl : j = i := Option.some.inj h
      obtain ⟨ys, hys⟩ := ihl hleft xs n
      exact ⟨ys, by rw [hys]⟩
    | none =>
      rw [executeLines_of_sound hleft]
      rw [hleft, Option.none_or] at h
      dsimp only
      cases hright : right.faulty? with
      | some j =>
        rw [hright, Option.map_some, Option.some_or] at h
        obtain rfl : j + left.lines.length = i := Option.some.inj h
        obtain ⟨ys, hys⟩ := ihr hright (left.value :: xs) (n + left.lines.length)
        have hcount : n + left.lines.length + j = n + (j + left.lines.length) := by omega
        rw [hcount] at hys
        exact ⟨ys, by rw [hys]⟩
      | none =>
        rw [executeLines_of_sound hright]
        rw [hright, Option.map_none, Option.none_or] at h
        dsimp only
        by_cases hzero : symbol.op.divides ∧ right.value = 0
        · rw [if_pos hzero] at h
          obtain rfl : left.lines.length + right.lines.length = i := Option.some.inj h
          refine ⟨right.value :: left.value :: xs, ?_⟩
          simp only [Interpreter.executeLines, executeLine_node_of_zero hzero, Nat.add_assoc]
        · rw [if_neg hzero] at h
          cases h

end Expression

end DequeMachine.Plain
