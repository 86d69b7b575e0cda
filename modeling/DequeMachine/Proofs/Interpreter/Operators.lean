import DequeMachine.Proofs.Interpreter.Runs
import DequeMachine.Proofs.Plain.Balance
import DequeMachine.Proofs.Plain.Expression
import DequeMachine.Proofs.Plain.Wrapping

namespace DequeMachine

open Plain (Operator Expression)

/-- The operator takes the two front values, of which the first is the right operand. -/
theorem Plain.Machine.line_operator {t : Text} {op : Operator} (ht : t.opcode? = some op.opcode)
    (a b : Int32) (xs : List Int32) (mode : Mode) :
    line t ⟨b :: a :: xs, mode⟩ =
      if op.divides ∧ b = 0 then .error .divisionByZero else .ok ([], ⟨op.apply a b :: xs, mode⟩) := by
  obtain ⟨i, hop, hline⟩ := line_of_opcode? ht
  rw [hline, Plain.Expression.step_operator _ op hop]
  rfl

namespace Interpreter

/-- One line later these are the values, each in a slot of its own, and nothing else is different. -/
structure Leaves (s : Interpreter) (ys : List Int32) (u : Interpreter) : Prop where
  values : u.machine.values.chain.toList? = some ys
  size : u.machine.values.size = ys.length
  live : u.machine.values.live = ys.length
  mode : u.machine.mode = s.machine.mode
  lines : u.lines = s.lines + 1
  state : u.state = s.state
  sink : u.sink = s.sink

variable {s u : Interpreter} {t : Text} {a b : Int32} {xs ys : List Int32} {op : Operator}

theorem Counted.leaves (h : s.Counted ⟨ys, s.machine.mode⟩ s.sink u) : s.Leaves ys u where
  values := Chain.Represents.toList?_eq h.machine.values
  size := h.machine.values.size_eq
  live := h.machine.values.live_eq
  mode := h.machine.mode
  lines := h.lines
  state := h.state
  sink := h.sink

theorem Represents.executeLine_operator_of_zero (h : s.Represents ⟨b :: a :: xs, s.machine.mode⟩)
    (ht : t.opcode? = some op.opcode) (hzero : op.divides ∧ b = 0) :
    ∃ u, s.executeLine t = (some (.atLine (s.lines + 1) .divisionByZero), u) ∧
      s.Leaves (b :: a :: xs) u := by
  have hline := Plain.Machine.line_operator ht a b xs s.machine.mode
  rw [if_pos hzero] at hline
  obtain ⟨u, hu, hcounted⟩ := executeLine_of_error h hline
  exact ⟨u, hu, hcounted.leaves⟩

theorem Represents.executeLine_operator_of_sound (h : s.Represents ⟨b :: a :: xs, s.machine.mode⟩)
    (ht : t.opcode? = some op.opcode) (hsound : ¬(op.divides ∧ b = 0)) :
    ∃ u, s.executeLine t = (none, u) ∧ s.Leaves (op.apply a b :: xs) u := by
  have hline := Plain.Machine.line_operator ht a b xs s.machine.mode
  rw [if_neg hsound] at hline
  obtain ⟨u, hu, hcounted⟩ := executeLine_of_silent h hline
  exact ⟨u, hu, hcounted.leaves⟩

/-- With any two values in front, a line that names an operator leaves what it should in front of the values
behind them, and nothing else. Only a divisor of zero is refused, which changes no value. From the same two
values a quotient and a remainder give the dividend back, at 32 bits, also where the quotient wraps. -/
theorem executeLine_operator (hs : s.Reachable)
    (hvalues : s.machine.values.chain.toList? = some (b :: a :: xs)) :
    (∀ (op : Operator) (t : Text), t.opcode? = some op.opcode →
      if op.divides ∧ b = 0 then
        ∃ u, s.executeLine t = (some (.atLine (s.lines + 1) .divisionByZero), u) ∧
          s.Leaves (b :: a :: xs) u
      else ∃ r u, s.executeLine t = (none, u) ∧ s.Leaves (r :: xs) u ∧ op.IsResult a b r) ∧
    (b ≠ 0 → ∀ t t' : Text, t.opcode? = some .div → t'.opcode? = some .mod →
      ∃ q r u u', s.executeLine t = (none, u) ∧ s.Leaves (q :: xs) u ∧
        s.executeLine t' = (none, u') ∧ s.Leaves (r :: xs) u' ∧ q * b + r = a) := by
  have h := hs.represents_values hvalues
  refine ⟨fun op t ht => ?_, fun hb t t' ht ht' => ?_⟩
  · by_cases hzero : op.divides ∧ b = 0
    · rw [if_pos hzero]
      exact h.executeLine_operator_of_zero ht hzero
    · rw [if_neg hzero]
      obtain ⟨u, hu, hleaves⟩ := h.executeLine_operator_of_sound ht hzero
      exact ⟨_, u, hu, hleaves, Operator.isResult_apply hzero⟩
  · have ht : t.opcode? = some Operator.div.opcode := ht
    have ht' : t'.opcode? = some Operator.mod.opcode := ht'
    obtain ⟨u, hu, hq⟩ := h.executeLine_operator_of_sound ht fun hzero => hb hzero.2
    obtain ⟨u', hu', hr⟩ := h.executeLine_operator_of_sound ht' fun hzero => hb hzero.2
    exact ⟨_, _, u, u', hu, hq, hu', hr, Operator.apply_div_mul_add_apply_mod a b⟩

/-- The quotient that wraps, in a queue with a seven at its end, and the remainder that goes with it. -/
theorem executeLine_operator_least :
    let lines := ["queue", "push -1", "push -2147483648", "push 7"].map fun x => Utf8.encode x.toList
    let s := (({} : Interpreter).executeLines lines).2
    s.machine.values.chain.toList? = some [-1, Int32.minValue, 7] ∧
      (∃ r u, s.executeLine "div_m".toList = (none, u) ∧ s.Leaves [r, 7] u ∧ r = Int32.minValue) ∧
      ∃ q r u u', s.executeLine "div".toList = (none, u) ∧ s.Leaves [q, 7] u ∧
        s.executeLine "mod by one".toList = (none, u') ∧ s.Leaves [r, 7] u' ∧
        q * -1 + r = Int32.minValue := by
  intro lines s
  have hs : s.Reachable := (Reachable.new none none {}).executeLines lines
  have hvalues : s.machine.values.chain.toList? = some [-1, Int32.minValue, 7] := by decide
  obtain ⟨hresults, hback⟩ := executeLine_operator hs hvalues
  have hdiv := hresults .div "div_m".toList (by decide)
  rw [if_neg (by decide)] at hdiv
  obtain ⟨r, u, hu, hleaves, hr⟩ := hdiv
  rw [Operator.IsResult, if_pos ⟨rfl, rfl⟩] at hr
  exact ⟨hvalues, ⟨r, u, hu, hleaves, hr⟩, hback (by decide) _ _ (by decide) (by decide)⟩

/-- The lines of an expression leave its value in front of what was there and print nothing, or fail
with a division by zero at the line of the first operator that divides by zero. -/
theorem executeLines_expression (hs : s.Reachable) (hmode : s.machine.mode = .stack)
    (hxs : s.machine.values.chain.toList? = some xs) (e : Expression) :
    match e.faulty? with
    | none =>
      ∃ s', s.executeLines (e.lines.map Utf8.encode) = (none, s') ∧
        s'.machine.values.chain.toList? = some (e.value :: xs) ∧ s'.machine.mode = .stack ∧
        s'.lines = s.lines + e.lines.length ∧ s'.state = s.state ∧ s'.sink = s.sink
    | some i =>
      ∃ s', s.executeLines (e.lines.map Utf8.encode) =
          (some (.atLine (s.lines + i + 1) .divisionByZero), s') ∧
        s'.machine.mode = .stack ∧
        s'.lines = s.lines + i + 1 ∧ s'.state = s.state ∧ s'.sink = s.sink := by
  have hrep := hs.represents_values hxs
  rw [hmode] at hrep
  have hrun := hrep.follows.executeLines (e.lines.map Utf8.encode)
  rw [Utf8.map_decode_encode] at hrun
  cases hfaulty : e.faulty? with
  | none =>
    rw [Expression.executeLines_of_sound hfaulty] at hrun
    obtain ⟨herror, hfollows⟩ := hrun hrep.sink
    refine ⟨_, Prod.ext herror rfl, Chain.Represents.toList?_eq hfollows.machine.values,
      hfollows.machine.mode, hfollows.lines, hfollows.state, ?_⟩
    rw [hfollows.sink, Utf8.encode_nil, Sink.append_nil]
  | some i =>
    obtain ⟨ys, hys⟩ := Expression.executeLines_of_faulty hfaulty xs s.lines s.state []
    rw [hys] at hrun
    obtain ⟨herror, hfollows⟩ := hrun hrep.sink
    refine ⟨_, Prod.ext herror rfl, hfollows.machine.mode, hfollows.lines, hfollows.state, ?_⟩
    rw [hfollows.sink, Utf8.encode_nil, Sink.append_nil]

/-- `5 - -7 / 2` in front of a seven, with the other spelling of division. -/
theorem executeLines_difference_of_quotient :
    let s := (({} : Interpreter).executeLine "push 7".toList).2
    ∃ s', s.executeLines (["push 5".toList, "push -7".toList, "push 2".toList, "div_m".toList,
        "sub".toList].map Utf8.encode) = (none, s') ∧
      s'.machine.values.chain.toList? = some [8, 7] ∧ s'.machine.mode = .stack ∧
      s'.lines = 6 ∧ s'.state = .running ∧ s'.sink = s.sink :=
  executeLines_expression (.line (.new none none {}) "push 7".toList) (by decide) (by decide)
    (.node ⟨.sub, "sub".toList, .inl rfl⟩ (.literal 5)
      (.node ⟨.div, "div_m".toList, .inr ⟨rfl, rfl⟩⟩ (.literal (-7)) (.literal 2)))

end Interpreter

end DequeMachine
