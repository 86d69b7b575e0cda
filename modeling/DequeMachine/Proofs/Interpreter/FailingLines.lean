import DequeMachine.Proofs.Interpreter.Runs

namespace DequeMachine

/-- The same slots, with room for so many from now on. -/
def Deque.allot (limit : Option Nat) (d : Deque) : Deque where
  chain := { d.chain with limit }
  sound := by
    obtain ⟨es, h⟩ := d.sound
    exact ⟨es, h.linked, h.stored, h.first, h.last, h.size, h.empty, h.shared⟩

namespace Interpreter

def allot (limit : Option Nat) (s : Interpreter) : Interpreter :=
  { s with machine := { s.machine with values := s.machine.values.allot limit } }

/-- What lines can make of a new interpreter when between any two of them the room for values can change, so that
a value may find no room and a later one may. -/
inductive Attainable : Interpreter → Prop
  | new (limit : Option Sink.Limit) (flushFailure : Option Text) (journal : Journal) :
    Attainable { sink := { limit, flushFailure }, journal }
  | allot {s : Interpreter} (h : Attainable s) (limit : Option Nat) : Attainable (s.allot limit)
  | line {s : Interpreter} (h : Attainable s) (t : Text) : Attainable (s.executeLine t).2

/-- The interpreter with a sink that takes everything. -/
def unlimited (s : Interpreter) : Interpreter := { s with sink := { s.sink with limit := none } }

/-- On a sink that takes everything the line passes, and adds these bytes to what is kept. -/
def Prints (s : Interpreter) (t : Text) (b : Bytes) : Prop :=
  ∃ u, s.unlimited.executeLine t = (none, u) ∧ u.sink.kept.toList = s.sink.kept.toList ++ b

/-- The line asks for a value to be pushed. -/
def Pushes (t : Text) : Prop :=
  ∃ i : Instruction, Instruction.ofLine t = .ok (some i) ∧ i.op = .push ∧
    (i.argument.bind Decimal.read?).isSome

/-- How a line fails, and the sink it leaves: the one it found if it is at fault or a value finds no room, and
otherwise one that has taken only a part of what the line prints. -/
inductive FailsWith (s : Interpreter) (t : Text) : Error → Sink → Prop
  | fault (fault : Fault) : FailsWith s t (.atLine (s.lines + 1) fault) s.sink
  | allocation (pushes : Pushes t) (full : s.machine.values.chain.isFull = true) :
    FailsWith s t .allocation s.sink
  | sink {l : Sink.Limit} {wrote printed : Bytes} (limit : l ∈ s.sink.limit)
    (printing : s.Prints t printed) (begins : wrote <+: printed) (short : wrote ≠ printed) :
    FailsWith s t (.io l.text) (s.sink.append wrote)

variable {s u : Interpreter} {t : Text} {e : Error}

theorem Attainable.fits (h : s.Attainable) : s.sink.Fits := by
  induction h with
  | new limit flushFailure journal => exact fun l _ => Nat.zero_le l.room
  | allot h limit ih => exact ih
  | line h t ih => exact fits_executeLine ih t

theorem prints_of_step {i : Instruction} {m : Machine} {b : Bytes}
    (hline : Instruction.ofLine t = .ok (some i)) (hstep : s.machine.step i = (.ok b, m)) :
    s.Prints t b := by
  let counted : Interpreter := { s.unlimited with lines := s.lines + 1 }
  have hwrite : counted.sink.write b = (none, counted.sink.append b) :=
    Sink.write_of_unlimited rfl b
  have hexecute := execute_of_ok (s := counted) hstep
  rw [hwrite] at hexecute
  have hexecuteLine : s.unlimited.executeLine t = counted.execute i :=
    executeLine_of_instruction hline
  rw [hexecute] at hexecuteLine
  exact ⟨_, hexecuteLine, Array.toList_appendList⟩

theorem failsWith_of_refused {i : Instruction} {m : Machine} {refusal : Refusal}
    (hline : Instruction.ofLine t = .ok (some i)) (hstep : s.machine.step i = (.error refusal, m)) :
    s.FailsWith t (refusal.onLine (s.lines + 1)) s.sink := by
  cases refusal with
  | fault fault => exact .fault fault
  | allocation =>
    obtain ⟨hpush, hinteger, hfull⟩ := Machine.full_of_step hstep
    exact .allocation ⟨i, hline, hpush, hinteger⟩ hfull

theorem failsWith_of_fits (hfits : s.sink.Fits) (hfails : s.executeLine t = (some e, u)) :
    u = { s with lines := s.lines + 1, sink := u.sink, journal := u.journal } ∧
      s.FailsWith t e u.sink := by
  rw [Interpreter.executeLine] at hfails
  cases hline : Instruction.ofLine t with
  | error fault =>
    rw [hline] at hfails
    cases hfails
    exact ⟨rfl, .fault fault⟩
  | ok held =>
    rw [hline] at hfails
    cases held with
    | none => cases hfails
    | some i =>
      dsimp only at hfails
      rcases hstep : s.machine.step i with ⟨refusal | b, m⟩
      · rw [execute_of_error (s := { s with lines := s.lines + 1 }) hstep] at hfails
        obtain rfl : m = s.machine := Machine.step_of_error hstep
        cases hfails
        exact ⟨rfl, failsWith_of_refused hline hstep⟩
      · rw [execute_of_ok (s := { s with lines := s.lines + 1 }) hstep] at hfails
        obtain ⟨text, htext, rfl⟩ := Option.map_eq_some_iff.mp (congrArg Prod.fst hfails)
        obtain ⟨l, hl, rfl⟩ := Sink.exists_limit_of_write htext
        obtain ⟨wrote, hwrote, hbegins, hshort⟩ := Sink.exists_cut_of_write hfits htext
        -- Nothing printed is nothing written, and that cannot fail.
        have hprinted : b ≠ [] := by
          rintro rfl
          exact hshort (List.prefix_nil.mp hbegins)
        obtain rfl : m = s.machine := Machine.step_of_printed hstep hprinted
        obtain rfl := congrArg Prod.snd hfails
        dsimp only
        rw [hwrote]
        exact ⟨rfl, .sink hl (prints_of_step hline hstep) hbegins hshort⟩

/-- A line that fails changes nothing but the count of lines, by one, and what the sink holds, whatever room there
is for values. A fault and a value without room leave the sink alone, and a sink that fails has taken the
beginning, though not all, of what the line prints. -/
theorem executeLine_failing (hs : s.Attainable) (h : s.executeLine t = (some e, u)) :
    u = { s with lines := s.lines + 1, sink := u.sink, journal := u.journal } ∧
      s.FailsWith t e u.sink ∧
      ((∀ text, e ≠ .io text) → u = { s with lines := s.lines + 1, journal := u.journal }) := by
  obtain ⟨hkept, hfails⟩ := failsWith_of_fits hs.fits h
  refine ⟨hkept, hfails, fun he => ?_⟩
  generalize u.sink = sink at hkept hfails
  cases hfails with
  | fault | allocation => exact hkept
  | sink => exact absurd rfl (he _)

/-- The sink has room for the first value that `pall` prints and for one digit of the second, and then there is
no room for a third value. -/
theorem executeLine_failing_pall_push :
    let new : Interpreter := { sink := { limit := some ⟨5, "write failed".toList⟩ } }
    let s := ((new.executeLine "push 12".toList).2.executeLine "push 345".toList).2
    let e : Error := .io "write failed".toList
    let u := (s.executeLine "pall".toList).2
    let full := u.allot (some 2)
    let v := (full.executeLine "push 6".toList).2
    (s.Attainable ∧ s.executeLine "pall".toList = (some e, u) ∧ u.machine = s.machine ∧ u.lines = 3 ∧
      s.FailsWith "pall".toList e u.sink ∧ u.sink.kept.toList = Utf8.encode "345\n1".toList) ∧
    full.Attainable ∧ full.executeLine "push 6".toList = (some .allocation, v) ∧
      v = { full with lines := 4, journal := v.journal } := by
  intro new s e u full v
  have hs : s.Attainable := .line (.line (.new _ none {}) _) _
  have hfst : (s.executeLine "pall".toList).1 = some e := by decide
  have herror : s.executeLine "pall".toList = (some e, u) := by rw [← hfst]
  obtain ⟨hkept, hfails, -⟩ := executeLine_failing hs herror
  have hmachine : u.machine = s.machine := by rw [hkept]
  have hlines : u.lines = 3 := by decide
  have hsink : u.sink.kept.toList = Utf8.encode "345\n1".toList := by decide
  have hfull : full.Attainable := .allot (.line hs _) (some 2)
  have hfst' : (full.executeLine "push 6".toList).1 = some .allocation := by decide
  have herror' : full.executeLine "push 6".toList = (some .allocation, v) := by rw [← hfst']
  obtain ⟨-, -, hunchanged⟩ := executeLine_failing hfull herror'
  exact ⟨⟨hs, herror, hmachine, hlines, hfails, hsink⟩, hfull, herror', hunchanged nofun⟩

end Interpreter

end DequeMachine
