import DequeMachine.Proofs.Interpreter.Runs

/-!
# Interpreters that are lines ahead

An interpreter is some lines ahead of another one if it has counted so many more and is the same in
everything else, journals apart. It stays so many lines ahead as long as both execute lines that no machine
can tell apart, and both then fail alike, so many lines apart.
-/
namespace DequeMachine

/-- The error as it is met so many lines later. -/
def Error.delayed (n : Nat) : Error → Error
  | atLine line fault => atLine (line + n) fault
  | allocation => allocation
  | io text => io text
  | halted => halted

@[simp] theorem Error.delayed_zero (e : Error) : e.delayed 0 = e := by cases e <;> rfl

@[simp] theorem Error.map_delayed_zero (e : Option Error) : e.map (Error.delayed 0) = e := by
  cases e with
  | none => rfl
  | some e => rw [Option.map_some, delayed_zero]

theorem Refusal.delayed_onLine (n line : Nat) (refusal : Refusal) :
    (refusal.onLine line).delayed n = refusal.onLine (line + n) := by
  cases refusal <;> rfl

namespace Instruction

/-- What two lines hold is refused for one fault, or is nothing, or is an instruction that every machine
obeys in one way. -/
inductive Alike : Except Fault (Option Instruction) → Except Fault (Option Instruction) → Prop
  | refused (fault : Fault) : Alike (.error fault) (.error fault)
  | skipped : Alike (.ok none) (.ok none)
  | obeyed {i j : Instruction} (h : ∀ m : Machine, m.step i = m.step j) :
    Alike (.ok (some i)) (.ok (some j))

theorem Alike.refl (held : Except Fault (Option Instruction)) : Alike held held := by
  match held with
  | .error fault => exact .refused fault
  | .ok none => exact .skipped
  | .ok (some i) => exact .obeyed fun _ => rfl

end Instruction

/-- No machine can tell the lines apart. -/
def Text.Alike (t u : Text) : Prop := Instruction.Alike (Instruction.ofLine t) (Instruction.ofLine u)

theorem Text.Alike.refl (t : Text) : t.Alike t := Instruction.Alike.refl (Instruction.ofLine t)

namespace Interpreter

structure Ahead (later : Interpreter) (n : Nat) (earlier : Interpreter) : Prop where
  machine : later.machine = earlier.machine
  lines : later.lines = earlier.lines + n
  state : later.state = earlier.state
  sink : later.sink = earlier.sink

variable {s t u : Interpreter} {m n : Nat}

theorem Ahead.refl (s : Interpreter) : s.Ahead 0 s := ⟨rfl, rfl, rfl, rfl⟩

theorem Ahead.trans (hu : u.Ahead m t) (ht : t.Ahead n s) : u.Ahead (n + m) s where
  machine := hu.machine.trans ht.machine
  lines := by rw [hu.lines, ht.lines, Nat.add_assoc]
  state := hu.state.trans ht.state
  sink := hu.sink.trans ht.sink

/-- The interpreter without what it has recorded. -/
def unlogged (s : Interpreter) : Interpreter := { s with journal := {} }

theorem ahead_zero_iff : t.Ahead 0 s ↔ t.unlogged = s.unlogged := by
  obtain ⟨machine, lines, state, sink, journal⟩ := s
  obtain ⟨machine', lines', state', sink', journal'⟩ := t
  constructor
  · rintro ⟨rfl, rfl, rfl, rfl⟩
    rfl
  · intro h
    obtain ⟨rfl, rfl, rfl, rfl, -⟩ := Interpreter.mk.inj h
    exact ⟨rfl, rfl, rfl, rfl⟩

theorem Ahead.execute (h : t.Ahead n s) {i j : Instruction}
    (hij : ∀ m : Machine, m.step i = m.step j) :
    (t.execute j).1 = (s.execute i).1.map (Error.delayed n) ∧
      (t.execute j).2.Ahead n (s.execute i).2 := by
  have hstep : t.machine.step j = s.machine.step i := by rw [h.machine, hij]
  rcases hanswer : s.machine.step i with ⟨refusal | b, m⟩
  · rw [execute_of_error hanswer, execute_of_error (hstep.trans hanswer), h.lines, Option.map_some,
      refusal.delayed_onLine]
    exact ⟨rfl, rfl, rfl, h.state, h.sink⟩
  · rw [execute_of_ok hanswer, execute_of_ok (hstep.trans hanswer), h.sink]
    refine ⟨?_, rfl, h.lines, h.state, rfl⟩
    cases (s.sink.write b).1 <;> rfl

theorem Ahead.counted (h : t.Ahead n s) :
    { t with lines := t.lines + 1 }.Ahead n { s with lines := s.lines + 1 } where
  machine := h.machine
  lines := by
    have hlines := h.lines
    dsimp only
    omega
  state := h.state
  sink := h.sink

theorem Ahead.executeLine (h : t.Ahead n s) {x y : Text} (hxy : x.Alike y) :
    (t.executeLine y).1 = (s.executeLine x).1.map (Error.delayed n) ∧
      (t.executeLine y).2.Ahead n (s.executeLine x).2 := by
  have hcounted := h.counted
  rw [Text.Alike] at hxy
  rw [Interpreter.executeLine, Interpreter.executeLine]
  generalize Instruction.ofLine x = held at hxy
  generalize Instruction.ofLine y = held' at hxy
  cases hxy with
  | refused fault =>
    have hlines : t.lines + 1 = s.lines + 1 + n := hcounted.lines
    exact ⟨congrArg (fun line => some (Error.atLine line fault)) hlines, hcounted⟩
  | skipped => exact ⟨rfl, hcounted.machine, hcounted.lines, hcounted.state, hcounted.sink⟩
  | obeyed hij => exact hcounted.execute hij

theorem Ahead.executeLines (h : t.Ahead n s) {xs ys : List Bytes}
    (hxy : List.Forall₂ Text.Alike (xs.map Utf8.decode) (ys.map Utf8.decode)) :
    (t.executeLines ys).1 = (s.executeLines xs).1.map (Error.delayed n) ∧
      (t.executeLines ys).2.Ahead n (s.executeLines xs).2 := by
  rw [List.forall₂_map_left_iff, List.forall₂_map_right_iff] at hxy
  induction hxy generalizing s t with
  | nil => exact ⟨rfl, h⟩
  | @cons x y xs ys hfirst hrest ih =>
    obtain ⟨herror, hahead⟩ := h.executeLine hfirst
    rw [Interpreter.executeLines, Interpreter.executeLines]
    generalize s.executeLine (Utf8.decode x) = answer at herror hahead
    generalize t.executeLine (Utf8.decode y) = answer' at herror hahead
    obtain ⟨e, s'⟩ := answer
    obtain ⟨e', t'⟩ := answer'
    obtain rfl : e' = e.map (Error.delayed n) := herror
    cases e with
    | none => exact ih hahead
    | some e => exact ⟨rfl, hahead⟩

/-- A run that has ended stays as far ahead as it was. -/
theorem Ahead.halt (h : t.Ahead n s) (e : Option Error) :
    (t.halt (e.map (Error.delayed n))).1 = (s.halt e).1.map (Error.delayed n) ∧
      (t.halt (e.map (Error.delayed n))).2.Ahead n (s.halt e).2 := by
  have hflush : t.sink.flush = s.sink.flush := by rw [h.sink]
  simp only [Interpreter.halt, hflush]
  refine ⟨?_, ?_, h.lines, ?_, rfl⟩
  · cases e <;> cases s.sink.flush.1 <;> rfl
  · simp only [h.machine]
  · cases e <;> cases s.sink.flush.1 <;> rfl

end Interpreter

end DequeMachine
