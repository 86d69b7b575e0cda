import DequeMachine.Proofs.Interpreter.Balance
import DequeMachine.Proofs.Plain.Frame

namespace DequeMachine.Interpreter

/-- One interpreter has come from `s` to `t` and another one from `s'` to `t'`. They have printed the same, and
both are stacks, the second one with further values `ys` behind those of the first. -/
structure Together (s t s' t' : Interpreter) (ys : List Int32) : Prop where
  values : ∃ xs, t.machine.values.chain.toList? = some xs ∧
    t'.machine.values.chain.toList? = some (xs ++ ys)
  mode : t.machine.mode = .stack
  mode' : t'.machine.mode = .stack
  output : ∃ o, t.sink = s.sink.append o ∧ t'.sink = s'.sink.append o

variable {s t s' t' : Interpreter} {q q' : Plain.Interpreter} {xs ys : List Int32} {lines : List Bytes}

theorem Follows.together (h : t.Follows s.sink q) (h' : t'.Follows s'.sink q') (habove : q'.Above q ys) :
    Together s t s' t' ys where
  values := by
    have hvalues' := Chain.Represents.toList?_eq h'.machine.values
    rw [habove.machine] at hvalues'
    exact ⟨q.machine.values, Chain.Represents.toList?_eq h.machine.values, hvalues'⟩
  mode := h.machine.mode.trans habove.mode
  mode' := by rw [h'.machine.mode, habove.machine]
  output := ⟨Utf8.encode q.output, h.sink, habove.output ▸ h'.sink⟩

theorem Follows.hasRoom (h : t.Follows s.sink q) (habove : q'.Above q ys)
    (hroom : s'.sink.HasRoom (t.sink.kept.size - s.sink.kept.size)) :
    s'.sink.HasRoom (Utf8.encode q'.output).length := by
  rw [h.sink, Sink.size_kept_append, Nat.add_sub_cancel_left] at hroom
  rwa [habove.output]

/-- The plain interpreters that both follow, the second one as far as its sink has room. -/
theorem Represents.frames (h : s.Represents ⟨xs, .stack⟩) (h' : s'.Represents ⟨xs ++ ys, .stack⟩)
    (hops : ∀ op ∈ Bytes.opcodes lines, op ∈ Opcode.shallow) {e : Option Error}
    (hrun : s.executeLines lines = (e, t)) (he : ∀ text, e ≠ some (.io text)) :
    ∃ q answer, t.Follows s.sink q ∧
      Plain.Interpreter.Frames ⟨⟨xs ++ ys, .stack⟩, s'.lines, s'.state, []⟩
        ⟨⟨xs, .stack⟩, s.lines, s.state, []⟩ ys (e, q) answer ∧
      (s'.sink.HasRoom (Utf8.encode answer.2.output).length →
        (s'.executeLines lines).1 = answer.1 ∧ (s'.executeLines lines).2.Follows s'.sink answer.2) := by
  have hfollowed := h.follows.executeLines_of_written h.sink lines
  rw [hrun] at hfollowed
  obtain ⟨herror, hfollows⟩ := hfollowed he
  have habove : Plain.Interpreter.Above ⟨⟨xs ++ ys, .stack⟩, s'.lines, s'.state, []⟩
      ⟨⟨xs, .stack⟩, s.lines, s.state, []⟩ ys := ⟨rfl, rfl, rfl⟩
  rw [Bytes.opcodes_eq] at hops
  have hframes := habove.executeLines hops
  refine ⟨_, _, hfollows, ?_, h'.follows.executeLines lines⟩
  dsimp only at herror
  rwa [herror]

/-- Lines of opcodes that look no further than the second value, executed on a stack, and once more on a stack
with further values `ys` behind those of the first, on a sink that has room for what they print. Where they pass
in the first place they pass in the second and leave `ys` as it is; where they fail in the first for a reason
other than too few values, they fail in the second on the same line and for the same reason. -/
theorem executeLines_in_front (hs : s.Reachable) (hs' : s'.Reachable) (hmode : s.machine.mode = .stack)
    (hmode' : s'.machine.mode = .stack) (hxs : s.machine.values.chain.toList? = some xs)
    (hxs' : s'.machine.values.chain.toList? = some (xs ++ ys))
    (hops : ∀ op ∈ Bytes.opcodes lines, op ∈ Opcode.shallow)
    (hroom : s'.sink.HasRoom ((s.executeLines lines).2.sink.kept.size - s.sink.kept.size)) :
    (∀ t, s.executeLines lines = (none, t) →
      ∃ t', s'.executeLines lines = (none, t') ∧ Together s t s' t' ys) ∧
    ∀ t k fault, fault ∈ [Fault.divisionByZero, .pcharOutOfRange, .pushUsage] →
      s.executeLines lines = (some (.atLine (s.lines + k) fault), t) →
      ∃ t', s'.executeLines lines = (some (.atLine (s'.lines + k) fault), t') ∧
        Together s t s' t' ys := by
  have hrep := hs.represents_values hxs
  have hrep' := hs'.represents_values hxs'
  rw [hmode] at hrep
  rw [hmode'] at hrep'
  refine ⟨fun t ht => ?_, fun t k fault hfault ht => ?_⟩
  · rw [ht] at hroom
    obtain ⟨q, answer, hfollows, hframes, hrun'⟩ := hrep.frames hrep' hops ht nofun
    cases hframes with
    | done habove =>
      obtain ⟨herror, hfollows'⟩ := hrun' (hfollows.hasRoom habove hroom)
      exact ⟨_, Prod.ext herror rfl, hfollows.together hfollows' habove⟩
  · have hsuffices : ¬fault.isShortage := by
      simp only [List.mem_cons, List.not_mem_nil, or_false] at hfault
      rcases hfault with rfl | rfl | rfl <;> decide
    rw [ht] at hroom
    obtain ⟨q, answer, hfollows, hframes, hrun'⟩ := hrep.frames hrep' hops ht nofun
    obtain ⟨q', rfl, habove⟩ := hframes.of_refused hsuffices
    obtain ⟨herror, hfollows'⟩ := hrun' (hfollows.hasRoom habove hroom)
    exact ⟨_, Prod.ext herror rfl, hfollows.together hfollows' habove⟩

/-- A quotient in front of a seven, and a character printed in front of it before a remainder by zero. -/
theorem executeLines_in_front_quotient :
    let s : Interpreter := {}
    let s' := (s.executeLine "push 7".toList).2
    let passing := ["push 9", "# halve", "push -2", "div_m", "pint"].map fun x => Utf8.encode x.toList
    let failing := ["push 65", "pchar", "push 0", "mod"].map fun x => Utf8.encode x.toList
    (∃ t', s'.executeLines passing = (none, t') ∧ Together s (s.executeLines passing).2 s' t' [7]) ∧
    ∃ t', s'.executeLines failing = (some (.atLine 5 .divisionByZero), t') ∧
      Together s (s.executeLines failing).2 s' t' [7] := by
  intro s s' passing failing
  have hs : s.Reachable := .new none none {}
  have hs' : s'.Reachable := .line hs _
  have hempty : s.machine.values.chain.toList? = some [] := rfl
  have hroom : ∀ n, s'.sink.HasRoom n := Sink.hasRoom_of_unlimited (by decide)
  constructor
  · have hpasses : (s.executeLines passing).1 = none := by decide
    exact (executeLines_in_front hs hs' (by decide) (by decide) hempty (by decide)
      (by decide) (hroom _)).1 _ (Prod.ext hpasses rfl)
  · have hfails : (s.executeLines failing).1 = some (.atLine 4 .divisionByZero) := by decide
    exact (executeLines_in_front hs hs' (by decide) (by decide) hempty (by decide)
      (by decide) (hroom _)).2 _ 4 .divisionByZero (by decide) (Prod.ext hfails rfl)

end DequeMachine.Interpreter
