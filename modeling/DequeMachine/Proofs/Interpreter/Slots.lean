import DequeMachine.Proofs.Deque.Slots
import DequeMachine.Proofs.Interpreter.Passes
import DequeMachine.Proofs.Interpreter.Runs

namespace DequeMachine

open Deque (Call Stretched sizesSinceRelease)

namespace Machine

theorem stretched_insert (v : Int32) (m : Machine) : (m.insert v).2.values.Stretched m.values := by
  obtain ⟨d, mode⟩ := m
  cases mode with
  | stack => exact d.stretched_perform (.pushFront v) nofun
  | queue => exact d.stretched_perform (.pushBack v) nofun

theorem stretched_push (argument : Option Text) (m : Machine) :
    (m.push argument).2.values.Stretched m.values := by
  unfold push
  split
  · exact m.values.stretched_refl
  · rename_i v _
    have hinsert := m.stretched_insert v
    generalize m.insert v = answer at hinsert
    obtain ⟨_ | _, m'⟩ := answer
    · exact hinsert
    · exact hinsert

theorem stretched_pop (m : Machine) : m.pop.2.values.Stretched m.values := by
  obtain ⟨d, mode⟩ := m
  have hpop : d.popFront.2.Stretched d := d.stretched_perform .popFront nofun
  rw [pop]
  generalize d.popFront = answer at hpop
  obtain ⟨_ | v, d'⟩ := answer
  · exact hpop
  · exact hpop

theorem stretched_swap (m : Machine) : m.swap.2.values.Stretched m.values := by
  obtain ⟨d, mode⟩ := m
  have hswap : d.swapFront.2.Stretched d := d.stretched_perform .swapFront nofun
  rw [swap]
  generalize d.swapFront = answer at hswap
  obtain ⟨_ | _, d'⟩ := answer
  · exact hswap
  · exact hswap

theorem stretched_combine (op : Opcode) (f : Arithmetic.Operation) (m : Machine) :
    (m.combine op f).2.values.Stretched m.values := by
  obtain ⟨d, mode⟩ := m
  rw [combine]
  cases d.frontPair? with
  | none => exact d.stretched_refl
  | some pair =>
    obtain ⟨front, second⟩ := pair
    dsimp only
    cases f second front with
    | error fault => exact d.stretched_refl
    | ok v => exact d.stretched_collapse v

theorem stretched_step (i : Instruction) (m : Machine) : (m.step i).2.values.Stretched m.values := by
  unfold step
  cases i.op with
  | push => exact m.stretched_push i.argument
  | pop => exact m.stretched_pop
  | swap => exact m.stretched_swap
  | add | sub | mul | div | mod => exact m.stretched_combine _ _
  | rotl => exact m.values.stretched_perform .rotateLeft nofun
  | rotr => exact m.values.stretched_perform .rotateRight nofun
  | pall | pint | pchar | pstr | stack | queue | nop => exact Deque.stretched_refl _

end Machine

namespace Interpreter

variable {s : Interpreter}

theorem machine_execute (i : Instruction) (s : Interpreter) :
    (s.execute i).2.machine = (s.machine.step i).2 := by
  rcases hstep : s.machine.step i with ⟨refusal | printed, m⟩
  · rw [execute_of_error hstep]
  · rw [execute_of_ok hstep]

/-- A line leaves the machine alone, or as a step leaves it. -/
theorem machine_executeLine_cases (t : Text) (s : Interpreter) :
    (s.executeLine t).2.machine = s.machine ∨
      ∃ i, (s.executeLine t).2.machine = (s.machine.step i).2 := by
  unfold executeLine
  dsimp only
  split
  · exact .inl rfl
  · exact .inl rfl
  · exact .inr ⟨_, machine_execute _ _⟩

theorem stretched_executeLine (t : Text) (s : Interpreter) :
    (s.executeLine t).2.machine.values.Stretched s.machine.values := by
  rcases machine_executeLine_cases t s with hsame | ⟨i, hstep⟩
  · rw [hsame]
    exact Deque.stretched_refl _
  · rw [hstep]
    exact s.machine.stretched_step i

/-- One line more is executed, or none because the lines have ended or failed. -/
theorem after_succ_cases (lines : List Bytes) (k : Nat) (s : Interpreter) :
    s.after lines (k + 1) = s.after lines k ∨
      ∃ t, s.after lines (k + 1) = ((s.after lines k).executeLine t).2 := by
  rw [after, after, List.take_add_one, executeLines_append]
  rcases s.executeLines (lines.take k) with ⟨_ | e, t⟩
  · cases lines[k]? with
    | none => exact .inl rfl
    | some line =>
      exact .inr ⟨Utf8.decode line, congrArg Prod.snd (executeLines_singleton line t)⟩
  · exact .inl rfl

/-- There are as many slots as values were held at once, at the start or behind one of the lines. -/
theorem isGreatest_slots (hs : s.machine.values.slots = s.machine.values.size) (lines : List Bytes) (k : Nat) :
    IsGreatest {n | ∃ j ≤ k, (s.after lines j).machine.values.size = n}
      (s.after lines k).machine.values.slots := by
  let size j := (s.after lines j).machine.values.size
  change IsGreatest (size '' Set.Iic k) _
  induction k with
  | zero =>
    have hIic : Set.Iic 0 = {0} := Set.Iic_bot
    have hstart : (s.after lines 0).machine.values.slots = size 0 := hs
    rw [hIic, Set.image_singleton, hstart]
    exact isGreatest_singleton
  | succ k ih =>
    have hstretched : (s.after lines (k + 1)).machine.values.Stretched (s.after lines k).machine.values := by
      rcases after_succ_cases lines k s with hsame | ⟨t, hline⟩
      · rw [hsame]
        exact Deque.stretched_refl _
      · rw [hline]
        exact (s.after lines k).stretched_executeLine t
    have hIic : Set.Iic (k + 1) = insert (k + 1) (Set.Iic k) := Order.Iic_succ k
    rw [hstretched, hIic, Set.image_insert_eq]
    exact ih.insert _

end Interpreter

/-- After any calls on a new deque, whatever room it has, there are as many slots, taken and spare, as its size
has been at most since the last release. Each call does to them what it should: a value gets a spare slot as long
as there is one, and otherwise one slot more or none for want of room, and what removes or moves values makes none.
So whatever a program does, behind each of its lines there are as many slots as there have been values at once. -/
theorem slots_peak (room : Option Nat) :
    (∀ calls : List Call, ∃ c : Chain, (Chain.within room).after? calls = some c ∧
      ((Deque.within room).after calls).chain = c ∧ IsGreatest (sizesSinceRelease room calls) c.cells.size ∧
      c.cells.size = c.live + c.spare.length ∧
      ∀ call, ∃ reply c', c.perform? call = some (reply, c') ∧ c.SlotChange call c') ∧
    ∀ (source : Source) (limit : Option Sink.Limit) (flushFailure : Option Text) (journal : Journal) (k : Nat),
      let new : Interpreter := { machine := { values := .within room }, sink := { limit, flushFailure }, journal }
      let after := new.after source.reading.1
      IsGreatest {n | ∃ j ≤ k, (after j).machine.values.size = n} (after k).machine.values.slots := by
  refine ⟨fun calls => ?_, fun source limit flushFailure journal k => ?_⟩
  · have hgreatest := Deque.isGreatest_slots room calls
    have hafter := (Deque.within room).after?_eq calls
    generalize (Deque.within room).after calls = d at hgreatest hafter
    obtain ⟨es, hheld⟩ := d.sound
    refine ⟨d.chain, hafter, rfl, hgreatest, ?_, fun call => ?_⟩
    · rw [hheld.size_cells, hheld.live_eq]
    · exact ⟨_, _, d.perform?_eq call, d.slotChange call⟩
  · exact Interpreter.isGreatest_slots rfl source.reading.1 k

end DequeMachine
